import Mathlib.Data.Set.Subsingleton
import TreeTemplate.CommandLine

/-! # The grammar of command lines

What may be written on a command line, as a language over words:

    command  = { argument }   with one or two files among the arguments
    argument = file | ("-I" | "--include") path | "-I" path | "--format" ("json" | "yaml")
    file     = a word that does not begin with "-"
    path     = any word; one that is glued to its option is not empty

A word after an option belongs to it, whatever the word looks like, so words are cut into arguments
in one way at most (`spelled_injective`).  Reading follows the cut: it takes what the arguments say
(`readFrom_spelled`) up to words that begin with no argument, where it stops (`readFrom_refused`),
and there are no other command lines (`exists_cut`).  The main statement says so for whole command
lines, with what is printed where no run is asked for.
-/
namespace TreeTemplate

/-- A format is known by its name. -/
theorem Document.Format.name_injective : Function.Injective Document.Format.name := by
  intro kind other h
  have hkind := Document.Format.ofName?_name kind
  rw [h, Document.Format.ofName?_name] at hkind
  exact (Option.some.inj hkind).symm

namespace CommandLine

/-! ## Arguments -/

/-- An option is a word that begins with a dash. -/
abbrev IsOption (word : String) : Prop := word.toList.head? = some '-'

/-- The options that ask for help. -/
abbrev IsHelpOption (word : String) : Prop := word = "-h" ∨ word = "--help"

/-- The options whose next word is an include path. -/
abbrev IsPathOption (word : String) : Prop := word = "-I" ∨ word = "--include"

/-- One argument of a command line. -/
inductive Argument where
  | file (name : String) (hname : ¬ IsOption name)
  | includePath (option path : String) (hoption : IsPathOption option)
  | gluedPath (path : String) (hpath : path ≠ "")
  | format (kind : Document.Format) (hkind : kind ≠ .toml)

namespace Argument

/-- The words that an argument is written with. -/
def words : Argument → List String
  | .file name _ => [name]
  | .includePath option path _ => [option, path]
  | .gluedPath path _ => ["-I" ++ path]
  | .format kind _ => ["--format", kind.name]

/-- The file that an argument names. -/
@[simp] def file? : Argument → Option String
  | .file name _ => some name
  | .includePath .. | .gluedPath .. | .format .. => none

/-- The include path that an argument gives. -/
@[simp] def includePath? : Argument → Option String
  | .includePath _ path _ | .gluedPath path _ => some path
  | .file .. | .format .. => none

/-- The format that an argument asks for. -/
@[simp] def format? : Argument → Option Document.Format
  | .format kind _ => some kind
  | .file .. | .includePath .. | .gluedPath .. => none

end Argument

/-- The words of a row of arguments. -/
def spelled (arguments : List Argument) : List String := arguments.flatMap Argument.words

/-- What a row of arguments asks for: its files and include paths in order, and the format that it
asks for last. -/
def asked (arguments : List Argument) : Arguments where
  files := arguments.filterMap Argument.file?
  includePaths := arguments.filterMap Argument.includePath?
  format := (arguments.filterMap Argument.format?).getLast?.getD .json

/-- Words are a command if they spell arguments that name one file or two. -/
structure IsCommand (arguments : List Argument) (words : List String) : Prop where
  spelled_eq : spelled arguments = words
  one_le_files : 1 ≤ (asked arguments).files.length
  files_le_two : (asked arguments).files.length ≤ 2

/-- Words ask for help if there is an option for it where an argument might begin. -/
def AsksForHelp (words : List String) : Prop :=
  ∃ arguments option rest, IsHelpOption option ∧ words = spelled arguments ++ option :: rest

/-- Reading some words ends the program, with an output. -/
def Exits (words : List String) (output : Output) : Prop :=
  ∃ stop, read words = .error stop ∧ stop.output = output

/-- Words that begin with no argument, and why reading stops at them. -/
inductive Refused : List String → Stop → Prop
  | help {option : String} {rest : List String} (hoption : IsHelpOption option) :
      Refused (option :: rest) .help
  | noPath {option : String} (hoption : IsPathOption option) : Refused [option] (.noPath option)
  | noFormat : Refused ["--format"] .badFormat
  | badFormat {name : String} {rest : List String} (hjson : name ≠ "json")
      (hyaml : name ≠ "yaml") : Refused ("--format" :: name :: rest) .badFormat
  | unknownOption {option : String} {rest : List String} (hoption : IsOption option)
      (hhelp : ¬ IsHelpOption option) (hpath : ¬ IsPathOption option)
      (hglued : ∀ path, option ≠ "-I" ++ path) (hformat : option ≠ "--format") :
      Refused (option :: rest) (.unknownOption option)

/-! ## What a word is -/

theorem IsHelpOption.isOption {word : String} (h : IsHelpOption word) : IsOption word := by
  rcases h with rfl | rfl <;> rfl

theorem IsPathOption.isOption {word : String} (h : IsPathOption word) : IsOption word := by
  rcases h with rfl | rfl <;> rfl

theorem isOption_glued (path : String) : IsOption ("-I" ++ path) := by simp [IsOption]

theorem isOption_format : IsOption "--format" := rfl

/-- A glued path is what follows its option within a word. -/
theorem gluedPath?_eq_some_iff {word path : String} :
    gluedPath? word = some path ↔ path ≠ "" ∧ word = "-I" ++ path := by
  constructor
  · intro h
    unfold gluedPath? at h
    split at h
    next c cs hword =>
      cases h
      exact ⟨by simp [String.ext_iff], by simp [String.ext_iff, hword]⟩
    next => cases h
  · rintro ⟨hpath, rfl⟩
    have hword : ("-I" ++ path).toList = '-' :: 'I' :: path.toList := by simp
    cases hchars : path.toList with
    | nil => exact absurd (String.toList_eq_nil_iff.mp hchars) hpath
    | cons c cs => simp [gluedPath?, hword, hchars, String.ext_iff]

theorem gluedPath?_glued {path : String} (hpath : path ≠ "") :
    gluedPath? ("-I" ++ path) = some path :=
  gluedPath?_eq_some_iff.mpr ⟨hpath, rfl⟩

theorem gluedPath?_of_not_isOption {word : String} (h : ¬ IsOption word) :
    gluedPath? word = none := by
  refine Option.eq_none_iff_forall_ne_some.mpr fun path hpath => ?_
  obtain ⟨-, rfl⟩ := gluedPath?_eq_some_iff.mp hpath
  exact h (isOption_glued path)

theorem IsHelpOption.gluedPath?_eq_none {word : String} (h : IsHelpOption word) :
    gluedPath? word = none := by
  rcases h with rfl | rfl <;> rfl

theorem IsPathOption.gluedPath?_eq_none {word : String} (h : IsPathOption word) :
    gluedPath? word = none := by
  rcases h with rfl | rfl <;> rfl

theorem gluedPath?_format : gluedPath? "--format" = none := rfl

/-- A format that can be written goes by its name. -/
theorem outputFormat?_eq_some_iff {name : String} {kind : Document.Format} :
    outputFormat? name = some kind ↔ kind ≠ .toml ∧ name = kind.name := by
  constructor
  · intro h
    unfold outputFormat? at h
    split at h
    next => cases h
    next htoml =>
      have hname : kind.name = name := by simpa using List.find?_some h
      refine ⟨?_, hname.symm⟩
      rintro rfl
      exact htoml h
  · rintro ⟨hkind, rfl⟩
    cases kind with
    | json | yaml => rfl
    | toml => exact absurd rfl hkind

/-! ## One cut into arguments -/

theorem IsPathOption.ne_glued {option path : String} (h : IsPathOption option) (hpath : path ≠ "") :
    option ≠ "-I" ++ path := by
  rintro rfl
  cases h.gluedPath?_eq_none.symm.trans (gluedPath?_glued hpath)

theorem IsPathOption.ne_format {option : String} (h : IsPathOption option) :
    option ≠ "--format" := by
  rcases h with rfl | rfl <;> decide

theorem glued_ne_format (path : String) : "-I" ++ path ≠ "--format" := by
  simp [String.ext_iff]

theorem spelled_cons_append (a : Argument) (arguments : List Argument) (rest : List String) :
    spelled (a :: arguments) ++ rest = a.words ++ (spelled arguments ++ rest) := by
  simp [spelled]

/-- The first word of an argument tells its kind, and the kind how many words it has. -/
theorem Argument.words_append_inj {a b : Argument} {rest others : List String}
    (h : a.words ++ rest = b.words ++ others) : a = b ∧ rest = others := by
  cases a with
  | file name hname =>
    cases b with
    | file => simpa [Argument.words] using h
    | includePath _ _ hoption =>
      exact absurd (List.head_eq_of_cons_eq h ▸ hoption.isOption) hname
    | gluedPath path => exact absurd (List.head_eq_of_cons_eq h ▸ isOption_glued path) hname
    | format => exact absurd (List.head_eq_of_cons_eq h ▸ isOption_format) hname
  | includePath option path hoption =>
    cases b with
    | file _ hname => exact absurd (List.head_eq_of_cons_eq h ▸ hoption.isOption) hname
    | includePath => simpa [Argument.words, and_assoc] using h
    | gluedPath _ hpath => exact absurd (List.head_eq_of_cons_eq h) (hoption.ne_glued hpath)
    | format => exact absurd (List.head_eq_of_cons_eq h) hoption.ne_format
  | gluedPath path hpath =>
    cases b with
    | file _ hname => exact absurd (List.head_eq_of_cons_eq h ▸ isOption_glued path) hname
    | includePath _ _ hoption =>
      exact absurd (List.head_eq_of_cons_eq h).symm (hoption.ne_glued hpath)
    | gluedPath => simpa [Argument.words] using h
    | format => exact absurd (List.head_eq_of_cons_eq h) (glued_ne_format path)
  | format kind hkind =>
    cases b with
    | file _ hname => exact absurd (List.head_eq_of_cons_eq h ▸ isOption_format) hname
    | includePath _ _ hoption => exact absurd (List.head_eq_of_cons_eq h).symm hoption.ne_format
    | gluedPath path => exact absurd (List.head_eq_of_cons_eq h).symm (glued_ne_format path)
    | format other =>
      obtain ⟨-, hname, hrest⟩ : True ∧ kind.name = other.name ∧ rest = others := by
        simpa [Argument.words] using h
      cases Document.Format.name_injective hname
      exact ⟨rfl, hrest⟩

theorem spelled_injective : Function.Injective spelled := by
  intro arguments
  induction arguments with
  | nil =>
    intro others h
    cases others with
    | nil => rfl
    | cons b others => cases b <;> cases h
  | cons a arguments ih =>
    intro others h
    cases others with
    | nil => cases a <;> cases h
    | cons b others =>
      obtain ⟨rfl, hrest⟩ := Argument.words_append_inj h
      rw [ih hrest]

/-! ## Reading -/

/-- What is asked for after further arguments. -/
def Arguments.extendedBy (args : Arguments) (arguments : List Argument) : Arguments where
  files := args.files ++ arguments.filterMap Argument.file?
  includePaths := args.includePaths ++ arguments.filterMap Argument.includePath?
  format := (arguments.filterMap Argument.format?).getLast?.getD args.format

theorem Arguments.extendedBy_append (args : Arguments) (arguments others : List Argument) :
    args.extendedBy (arguments ++ others) = (args.extendedBy arguments).extendedBy others := by
  simp [extendedBy, List.getLast?_append, Option.getD_or]

/-- One argument is read. -/
theorem readFrom_words (args : Arguments) (a : Argument) (rest : List String) :
    readFrom args (a.words ++ rest) = readFrom (args.extendedBy [a]) rest := by
  cases a with
  | file name hname =>
    have hhelp : ¬ IsHelpOption name := mt IsHelpOption.isOption hname
    have hpath : ¬ IsPathOption name := mt IsPathOption.isOption hname
    have hformat : name ≠ "--format" := by
      rintro rfl
      exact hname isOption_format
    rw [Argument.words, List.singleton_append, readFrom.eq_def]
    simp only [if_neg hhelp, if_neg hpath, gluedPath?_of_not_isOption hname, if_neg hformat,
      if_neg hname]
    simp [Arguments.extendedBy, List.filterMap_cons]
  | includePath option path hoption =>
    have hhelp : ¬ IsHelpOption option := by
      rcases hoption with rfl | rfl <;> decide
    rw [Argument.words, List.cons_append, List.singleton_append, readFrom.eq_def]
    simp only [if_neg hhelp, if_pos hoption]
    simp [Arguments.extendedBy, List.filterMap_cons]
  | gluedPath path hpath =>
    -- the other options have nothing glued to them
    have hword := gluedPath?_glued hpath
    have hhelp : ¬ IsHelpOption ("-I" ++ path) := by
      intro h
      cases h.gluedPath?_eq_none.symm.trans hword
    have hoption : ¬ IsPathOption ("-I" ++ path) := by
      intro h
      cases h.gluedPath?_eq_none.symm.trans hword
    rw [Argument.words, List.singleton_append, readFrom.eq_def]
    simp only [if_neg hhelp, if_neg hoption, hword]
    simp [Arguments.extendedBy, List.filterMap_cons]
  | format kind hkind =>
    have hname : outputFormat? kind.name = some kind := outputFormat?_eq_some_iff.mpr ⟨hkind, rfl⟩
    rw [Argument.words, List.cons_append, List.singleton_append, readFrom.eq_def]
    simp [gluedPath?_format, hname, Arguments.extendedBy, List.filterMap_cons]

/-- A row of arguments is read in order. -/
theorem readFrom_spelled (args : Arguments) (arguments : List Argument) (rest : List String) :
    readFrom args (spelled arguments ++ rest) = readFrom (args.extendedBy arguments) rest := by
  induction arguments generalizing args with
  | nil => simp [spelled, Arguments.extendedBy]
  | cons a arguments ih =>
    rw [spelled_cons_append, readFrom_words, ih, ← Arguments.extendedBy_append]
    rfl

/-- Reading stops where no argument begins. -/
theorem readFrom_refused {words : List String} {stop : Stop} (h : Refused words stop)
    (args : Arguments) : readFrom args words = .error stop := by
  cases h with
  | help hoption =>
    rw [readFrom.eq_def]
    simp only [if_pos hoption]
  | noPath hoption => rcases hoption with rfl | rfl <;> rfl
  | noFormat => rfl
  | @badFormat name rest hjson hyaml =>
    have hname : outputFormat? name = none := by
      refine Option.eq_none_iff_forall_ne_some.mpr fun kind hkind => ?_
      obtain ⟨hwritten, rfl⟩ := outputFormat?_eq_some_iff.mp hkind
      cases kind with
      | json => exact hjson rfl
      | yaml => exact hyaml rfl
      | toml => exact hwritten rfl
    rw [readFrom.eq_def]
    simp [gluedPath?_format, hname]
  | @unknownOption option rest hoption hhelp hpath hglued hformat =>
    have hword : gluedPath? option = none := by
      refine Option.eq_none_iff_forall_ne_some.mpr fun path hsome => ?_
      exact hglued path (gluedPath?_eq_some_iff.mp hsome).2
    rw [readFrom.eq_def]
    simp only [if_neg hhelp, if_neg hpath, hword, if_neg hformat, if_pos hoption]

/-- Whatever the words are, arguments stand at their front until reading stops.  By the recursion
of `readFrom`. -/
theorem exists_cut (words : List String) :
    ∃ arguments rest, words = spelled arguments ++ rest ∧
      (rest = [] ∨ ∃ stop, Refused rest stop) := by
  suffices h : ∀ args : Arguments, ∃ arguments rest, words = spelled arguments ++ rest ∧
      (rest = [] ∨ ∃ stop, Refused rest stop) from h {}
  intro args
  fun_induction readFrom args words with
  | case1 args => exact ⟨[], [], rfl, .inl rfl⟩
  | case2 args word rest hhelp => exact ⟨[], _, rfl, .inr ⟨_, .help hhelp⟩⟩
  | case3 args word hhelp hoption => exact ⟨[], _, rfl, .inr ⟨_, .noPath hoption⟩⟩
  | case4 args word hhelp hoption path rest ih =>
    obtain ⟨arguments, others, rfl, hend⟩ := ih
    exact ⟨.includePath word path hoption :: arguments, others,
      (spelled_cons_append (.includePath word path hoption) arguments others).symm, hend⟩
  | case5 args word rest hhelp hoption path hword ih =>
    obtain ⟨arguments, others, rfl, hend⟩ := ih
    obtain ⟨hpath, rfl⟩ := gluedPath?_eq_some_iff.mp hword
    exact ⟨.gluedPath path hpath :: arguments, others,
      (spelled_cons_append (.gluedPath path hpath) arguments others).symm, hend⟩
  | case6 args hhelp hoption hword => exact ⟨[], _, rfl, .inr ⟨_, .noFormat⟩⟩
  | case7 args name rest kind hname hhelp hoption hword ih =>
    obtain ⟨arguments, others, rfl, hend⟩ := ih
    obtain ⟨hkind, rfl⟩ := outputFormat?_eq_some_iff.mp hname
    exact ⟨.format kind hkind :: arguments, others,
      (spelled_cons_append (.format kind hkind) arguments others).symm, hend⟩
  | case8 args name rest hname hhelp hoption hword =>
    have hjson : name ≠ "json" := by
      rintro rfl
      cases hname
    have hyaml : name ≠ "yaml" := by
      rintro rfl
      cases hname
    exact ⟨[], _, rfl, .inr ⟨_, .badFormat hjson hyaml⟩⟩
  | case9 args word rest hhelp hoption hword hformat hdash =>
    have hglued : ∀ path, word ≠ "-I" ++ path := by
      rintro path rfl
      by_cases hpath : path = ""
      · -- with nothing glued to it the word is the option alone
        subst hpath
        exact hoption (.inl rfl)
      · cases hword.symm.trans (gluedPath?_glued hpath)
    exact ⟨[], _, rfl, .inr ⟨_, .unknownOption hdash hhelp hoption hglued hformat⟩⟩
  | case10 args word rest hhelp hoption hword hformat hname ih =>
    obtain ⟨arguments, others, rfl, hend⟩ := ih
    exact ⟨.file word hname :: arguments, others,
      (spelled_cons_append (.file word hname) arguments others).symm, hend⟩

/-! ## Command lines -/

/-- Of words that are arguments throughout, only the files are counted. -/
theorem read_spelled (arguments : List Argument) :
    read (spelled arguments) =
      if 1 ≤ (asked arguments).files.length ∧ (asked arguments).files.length ≤ 2 then
        .ok (asked arguments)
      else .error .wrongFileCount := by
  have h := readFrom_spelled {} arguments []
  rw [List.append_nil] at h
  rw [read, h]
  rfl

/-- A stop comes before the files are counted. -/
theorem read_refused {rest : List String} {stop : Stop} (h : Refused rest stop)
    (arguments : List Argument) : read (spelled arguments ++ rest) = .error stop := by
  rw [read, readFrom_spelled, readFrom_refused h]

/-- The command lines that ask for a run, and what they ask for. -/
theorem read_eq_ok_iff {words : List String} {args : Arguments} :
    read words = .ok args ↔ ∃ arguments, IsCommand arguments words ∧ args = asked arguments := by
  constructor
  · intro h
    obtain ⟨arguments, rest, rfl, rfl | ⟨stop, hstop⟩⟩ := exists_cut words
    · rw [List.append_nil, read_spelled] at h
      split at h
      next hfiles =>
        cases h
        exact ⟨arguments, ⟨(List.append_nil _).symm, hfiles.1, hfiles.2⟩, rfl⟩
      next => cases h
    · cases (read_refused hstop arguments).symm.trans h
  · rintro ⟨arguments, ⟨rfl, hone, htwo⟩, rfl⟩
    rw [read_spelled, if_pos ⟨hone, htwo⟩]

/-- The command lines that ask for none, and why: all arguments are read and name too few files or
too many, or somewhere no argument begins. -/
theorem read_eq_error_iff {words : List String} {stop : Stop} :
    read words = .error stop ↔ ∃ arguments rest, words = spelled arguments ++ rest ∧
      (Refused rest stop ∨
        rest = [] ∧ ¬ IsCommand arguments words ∧ stop = .wrongFileCount) := by
  constructor
  · intro h
    obtain ⟨arguments, rest, rfl, rfl | ⟨other, hother⟩⟩ := exists_cut words
    · refine ⟨arguments, [], rfl, .inr ⟨rfl, ?_, ?_⟩⟩
      · intro hcommand
        cases (read_eq_ok_iff.mpr ⟨arguments, hcommand, rfl⟩).symm.trans h
      · rw [List.append_nil, read_spelled] at h
        split at h
        next => cases h
        next => exact (Except.error.inj h).symm
    · cases (read_refused hother arguments).symm.trans h
      exact ⟨arguments, rest, rfl, .inl hother⟩
  · rintro ⟨arguments, rest, rfl, hstop | ⟨rfl, hcommand, rfl⟩⟩
    · exact read_refused hstop arguments
    · rw [List.append_nil] at hcommand ⊢
      rw [read_spelled, if_neg]
      rintro ⟨hone, htwo⟩
      exact hcommand ⟨rfl, hone, htwo⟩

/-- Help is what is answered where help is asked for. -/
theorem read_eq_help_iff {words : List String} :
    read words = .error .help ↔ AsksForHelp words := by
  rw [read_eq_error_iff]
  constructor
  · rintro ⟨arguments, rest, rfl, hstop | ⟨-, -, hstop⟩⟩
    · cases hstop with
      | help hoption => exact ⟨arguments, _, _, hoption, rfl⟩
    · cases hstop
  · rintro ⟨arguments, option, rest, hoption, rfl⟩
    exact ⟨arguments, _, rfl, .inl (.help hoption)⟩

/-- Any other stop is an error, with the usage at the end of what is printed. -/
theorem Stop.exists_output_eq {stop : Stop} (h : stop ≠ .help) :
    ∃ notice, stop.output = ⟨"", notice ++ usage ++ "\n", 1⟩ := by
  cases stop with
  | help => exact absurd rfl h
  | noPath option => exact ⟨option ++ " needs a path\n", rfl⟩
  | badFormat => exact ⟨"--format must be json or yaml\n", rfl⟩
  | unknownOption option => exact ⟨"unknown option " ++ option ++ "\n", rfl⟩
  | wrongFileCount => exact ⟨"", rfl⟩

theorem exits_help_iff {words : List String} :
    Exits words ⟨usage ++ "\n", "", 0⟩ ↔ read words = .error .help := by
  constructor
  · rintro ⟨stop, hread, houtput⟩
    by_cases hstop : stop = .help
    · rw [hread, hstop]
    · obtain ⟨notice, hnotice⟩ := Stop.exists_output_eq hstop
      have hstatus := congrArg Output.status (hnotice.symm.trans houtput)
      cases hstatus
  · intro hread
    exact ⟨.help, hread, rfl⟩

theorem exits_error_iff {words : List String} :
    (∃ notice, Exits words ⟨"", notice ++ usage ++ "\n", 1⟩) ↔
      ∃ stop, stop ≠ .help ∧ read words = .error stop := by
  constructor
  · rintro ⟨notice, stop, hread, houtput⟩
    refine ⟨stop, ?_, hread⟩
    rintro rfl
    have hstatus := congrArg Output.status houtput
    cases hstatus
  · rintro ⟨stop, hstop, hread⟩
    obtain ⟨notice, hnotice⟩ := Stop.exists_output_eq hstop
    exact ⟨notice, stop, hread, hnotice⟩

/-- **Command lines are read by their grammar.**  Words are cut into arguments in one way at most.
They ask for a run exactly if they are a command, and then for its files and include paths in order
and the last of its formats.  They end the program with the usage and no error exactly if they ask
for help, and with an error that shows the usage exactly if they do neither. -/
theorem command_lines_are_read_by_their_grammar (words : List String) :
    {arguments | spelled arguments = words}.Subsingleton ∧
    (∀ args, read words = .ok args ↔
      ∃ arguments, IsCommand arguments words ∧ args = asked arguments) ∧
    (Exits words ⟨usage ++ "\n", "", 0⟩ ↔ AsksForHelp words) ∧
    ((∃ notice, Exits words ⟨"", notice ++ usage ++ "\n", 1⟩) ↔
      ¬ AsksForHelp words ∧ ¬ ∃ arguments, IsCommand arguments words) := by
  refine ⟨?_, fun args => read_eq_ok_iff, exits_help_iff.trans read_eq_help_iff, ?_⟩
  · intro arguments harguments others hothers
    exact spelled_injective (harguments.trans hothers.symm)
  rw [exits_error_iff, ← read_eq_help_iff]
  constructor
  · rintro ⟨stop, hstop, hread⟩
    refine ⟨?_, ?_⟩
    · intro hhelp
      exact hstop (Except.error.inj (hread.symm.trans hhelp))
    · rintro ⟨arguments, hcommand⟩
      cases hread.symm.trans (read_eq_ok_iff.mpr ⟨arguments, hcommand, rfl⟩)
  · rintro ⟨hhelp, hcommand⟩
    cases hread : read words with
    | ok args =>
      obtain ⟨arguments, h, -⟩ := read_eq_ok_iff.mp hread
      exact absurd ⟨arguments, h⟩ hcommand
    | error stop =>
      refine ⟨stop, ?_, rfl⟩
      rintro rfl
      exact hhelp hread

/-- The word after an option is its value, also where it looks like an option. -/
example : read ["-I", "-h", "t.json", "-Ilib", "--format", "json", "--format", "yaml"] =
    .ok ⟨["t.json"], ["-h", "lib"], .yaml⟩ := by
  rfl

end CommandLine
end TreeTemplate

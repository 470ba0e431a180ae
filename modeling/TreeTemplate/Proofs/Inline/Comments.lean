import Mathlib.Data.List.DropRight
import Mathlib.Data.List.SplitBy
import TreeTemplate.Host.Library
import TreeTemplate.Proofs.Inline.Groups

/-! # Comments in a text

A plain text is made of pieces: words, blanks, inserted values and two kinds of comments
(`Inline.Piece`).  Dash comments vanish with all blanks that touch them (`Inline.withoutDashes`).
Then, of each group of comments and the blanks around and between them, the last blanks stay
(`Inline.collapsed`).  The passes over the text do just that, whatever pieces stand next to each
other and at the ends (`Engine.inline_comments_keep_one_run`).
-/
namespace TreeTemplate

namespace Inline

/-! ## Pieces -/

/-- A piece of a plain text. -/
inductive Piece where
  | word (cs : List Char)
  | blanks (cs : List Char)
  /-- An expression whose value is inserted. -/
  | value (clause : List Char)
  | comment (cs : List Char)
  | dashComment (cs : List Char)
  deriving DecidableEq, Repr

namespace Piece

/-- How a piece is written. -/
def chars : Piece → List Char
  | .word cs => cs
  | .blanks cs => cs
  | .value clause => valueText clause
  | .comment cs => openBrace :: '#' :: (cs ++ [closeBrace])
  | .dashComment cs => openBrace :: '#' :: '-' :: (cs ++ [closeBrace])

/-- What may stand in a piece of its kind. -/
def Valid : Piece → Prop
  | .word cs => cs ≠ [] ∧ ∀ c ∈ cs, Text.isBlank c = false ∧ c ≠ openBrace
  | .blanks cs => cs ≠ [] ∧ ∀ c ∈ cs, Text.isBlank c = true
  | .value clause => Braceless clause
  | .comment cs => Braceless cs ∧ cs.head? ≠ some '-'
  | .dashComment cs => Braceless cs

instance : (piece : Piece) → Decidable piece.Valid
  | .word cs =>
    inferInstanceAs (Decidable (cs ≠ [] ∧ ∀ c ∈ cs, Text.isBlank c = false ∧ c ≠ openBrace))
  | .blanks cs => inferInstanceAs (Decidable (cs ≠ [] ∧ ∀ c ∈ cs, Text.isBlank c = true))
  | .value clause => inferInstanceAs (Decidable (Braceless clause))
  | .comment cs => inferInstanceAs (Decidable (Braceless cs ∧ cs.head? ≠ some '-'))
  | .dashComment cs => inferInstanceAs (Decidable (Braceless cs))

def isBlanks : Piece → Bool
  | .blanks _ => true
  | _ => false

def isComment : Piece → Bool
  | .comment _ => true
  | _ => false

def isDashComment : Piece → Bool
  | .dashComment _ => true
  | _ => false

end Piece

/-- The text that is made of pieces. -/
def textOf (pieces : List Piece) : List Char := pieces.flatMap Piece.chars

/-- The pieces in groups: all that stand next to each other and have a property, and any other by
itself. -/
def groups (p : Piece → Bool) (pieces : List Piece) : List (List Piece) :=
  pieces.splitBy fun a b => p a && p b

/-- The pieces without the dash comments and the blanks that touch them. -/
def withoutDashes (pieces : List Piece) : List Piece :=
  ((groups (fun p => p.isBlanks || p.isDashComment) pieces).filter
    fun group => !group.any Piece.isDashComment).flatten

/-- The last blanks among pieces. -/
def lastBlanks (pieces : List Piece) : List Piece :=
  (pieces.rdropWhile fun p => !p.isBlanks).rtakeWhile Piece.isBlanks

/-- The pieces with the last blanks of each group of comments and blanks in the place of it. -/
def collapsed (pieces : List Piece) : List Piece :=
  (groups (fun p => p.isBlanks || p.isComment) pieces).flatMap fun group =>
    if group.any Piece.isComment then lastBlanks group else group

/-! ## Groups -/

/-- A piece that belongs to no group. -/
theorem groups_cons {p : Piece → Bool} {piece : Piece} (h : p piece = false)
    (pieces : List Piece) : groups p (piece :: pieces) = [piece] :: groups p pieces := by
  have hsplit := List.splitBy_append (r := fun a b => p a && p b) (l := [piece]) (m := pieces)
    (by simp [h])
  exact hsplit

theorem groups_append {p : Piece → Bool} {group pieces : List Piece} (hne : group ≠ [])
    (hgroup : ∀ piece ∈ group, p piece = true) (hpieces : ∀ piece ∈ pieces.head?, p piece = false) :
    groups p (group ++ pieces) = group :: groups p pieces := by
  have hchain : group.IsChain fun a b => p a && p b := by
    refine List.Pairwise.isChain ?_
    exact List.pairwise_of_forall_mem_list fun a ha b hb => by simp [hgroup a ha, hgroup b hb]
  rw [groups, List.splitBy_append fun a ha b hb => by simp [hpieces b hb],
    List.splitBy_of_isChain hne hchain]
  rfl

/-- By induction on the groups of pieces. -/
theorem groups_induction {p : Piece → Bool} {motive : List Piece → Prop} (nil : motive [])
    (single : ∀ piece pieces, p piece = false → motive pieces → motive (piece :: pieces))
    (group : ∀ group pieces, group ≠ [] → (∀ piece ∈ group, p piece = true) →
      (∀ piece ∈ pieces.head?, p piece = false) → motive pieces → motive (group ++ pieces))
    (pieces : List Piece) : motive pieces := by
  induction hn : pieces.length using Nat.strong_induction_on generalizing pieces with
  | h n ih =>
    subst hn
    cases pieces with
    | nil => exact nil
    | cons piece rest =>
      cases hp : p piece with
      | false => exact single piece rest hp (ih _ (by simp) rest rfl)
      | true =>
        have hlength : (rest.dropWhile p).length ≤ rest.length :=
          (List.dropWhile_suffix p).length_le
        rw [← List.takeWhile_append_dropWhile (p := p) (l := rest), ← List.cons_append]
        refine group _ _ (List.cons_ne_nil _ _) ?_ ?_
          (ih _ (by rw [List.length_cons]; omega) _ rfl)
        · exact List.forall_mem_cons.mpr ⟨hp, fun _ => List.mem_takeWhile_imp⟩
        · intro next hnext
          rw [← List.find?_not_eq_head?_dropWhile] at hnext
          simpa using List.find?_some hnext

/-! ## Where pieces begin and end -/

@[simp] theorem textOf_nil : textOf [] = [] := rfl

@[simp] theorem textOf_cons (piece : Piece) (pieces : List Piece) :
    textOf (piece :: pieces) = piece.chars ++ textOf pieces := by simp [textOf]

@[simp] theorem textOf_append (pieces others : List Piece) :
    textOf (pieces ++ others) = textOf pieces ++ textOf others := by simp [textOf]

theorem passed_closed {mark inner : List Char} (hmark : openBrace ∉ mark)
    (hinner : openBrace ∉ inner) : Passed (mark ++ inner ++ [closeBrace]) where
  group hmem := by
    have hclose : openBrace ≠ closeBrace := by decide
    simp [hmark, hinner, hclose] at hmem
  last c hc := by
    rw [List.getLast?_concat] at hc
    cases hc
    exact isBlank_closeBrace

namespace Piece

variable {piece : Piece}

/-- A piece that is no blanks begins with a character after which no group begins in the piece. -/
theorem exists_tail (h : piece.Valid) (hblanks : piece.isBlanks = false) :
    ∃ c tail, piece.chars = c :: tail ∧ Text.isBlank c = false ∧ Passed tail := by
  cases piece with
  | word cs =>
    obtain ⟨hne, hcs⟩ := h
    have hpassed : Passed cs := ⟨fun hmem => (hcs _ hmem).2 rfl, fun c hc =>
      (hcs c (List.mem_of_getLast? hc)).1⟩
    cases cs with
    | nil => exact absurd rfl hne
    | cons c cs => exact ⟨c, cs, rfl, (hcs c List.mem_cons_self).1, hpassed.tail⟩
  | blanks cs => cases hblanks
  | value clause =>
    exact ⟨openBrace, ['$'] ++ clause ++ [closeBrace], rfl, isBlank_openBrace,
      passed_closed (by decide) h.opening⟩
  | comment cs =>
    exact ⟨openBrace, ['#'] ++ cs ++ [closeBrace], rfl, isBlank_openBrace,
      passed_closed (by decide) h.1.opening⟩
  | dashComment cs =>
    exact ⟨openBrace, ['#', '-'] ++ cs ++ [closeBrace], rfl, isBlank_openBrace,
      passed_closed (by decide) h.opening⟩

theorem blank_head? (h : piece.Valid) (hblanks : piece.isBlanks = false) (rest : List Char) :
    ∀ c ∈ (piece.chars ++ rest).head?, Text.isBlank c = false := by
  obtain ⟨c, tail, hchars, hc, -⟩ := exists_tail h hblanks
  simpa [hchars] using hc

/-- Only comments of either kind begin like one. -/
theorem not_comment_head (h : piece.Valid) (hblanks : piece.isBlanks = false)
    (hcomment : piece.isComment = false) (hdash : piece.isDashComment = false)
    (rest : List Char) : ¬[openBrace, '#'] <+: piece.chars ++ rest := by
  cases piece with
  | word cs =>
    obtain ⟨hne, hcs⟩ := h
    cases cs with
    | nil => exact absurd rfl hne
    | cons c cs =>
      have hc : openBrace ≠ c := fun heq => (hcs c List.mem_cons_self).2 heq.symm
      simp [chars, List.cons_prefix_cons, hc]
  | value clause => simp [chars, valueText, List.cons_prefix_cons]
  | blanks cs => cases hblanks
  | comment cs => cases hcomment
  | dashComment cs => cases hdash

theorem stands_comment (h : piece.Valid) (hblanks : piece.isBlanks = false)
    (hcomment : piece.isComment = false) (hdash : piece.isDashComment = false)
    (rest : List Char) : Stands ['#'] (piece.chars ++ rest) where
  blank := blank_head? h hblanks rest
  group := afterGroup?_eq_none_of_not_prefix (not_comment_head h hblanks hcomment hdash rest)

theorem stands_dashComment (h : piece.Valid) (hblanks : piece.isBlanks = false)
    (hdash : piece.isDashComment = false) (rest : List Char) :
    Stands ['#', '-'] (piece.chars ++ rest) where
  blank := blank_head? h hblanks rest
  group := by
    refine afterGroup?_eq_none_of_not_prefix fun hhead => ?_
    cases hcomment : piece.isComment with
    | false =>
      have hmark : [openBrace, '#'] <+: [openBrace, '#', '-'] := ⟨['-'], rfl⟩
      exact not_comment_head h hblanks hcomment hdash rest (hmark.trans hhead)
    | true =>
      cases piece with
      | comment cs =>
        -- the character after the mark is one of the comment, or the brace that closes it
        cases cs with
        | nil => simp [chars, List.cons_prefix_cons, closeBrace] at hhead
        | cons c cs =>
          have hc : '-' ≠ c := fun heq => h.2 (by rw [List.head?_cons, heq])
          simp [chars, List.cons_prefix_cons, hc] at hhead
      | _ => cases hcomment

end Piece

theorem textOf_blanks {pieces : List Piece} (hvalid : ∀ piece ∈ pieces, piece.Valid)
    (hblanks : ∀ piece ∈ pieces, piece.isBlanks = true) :
    ∀ c ∈ textOf pieces, Text.isBlank c = true := by
  intro c hc
  obtain ⟨piece, hpiece, hc⟩ := List.mem_flatMap.mp hc
  have hpieceValid := hvalid piece hpiece
  have hpieceBlanks := hblanks piece hpiece
  cases piece with
  | blanks cs => exact hpieceValid.2 c hc
  | _ => cases hpieceBlanks

/-! ## Dash comments -/

section
variable {cs rest : List Char}

/-- Before the first dash comment it is no matter how many blanks there are. -/
theorem undashed_skipBlanks (h : afterDashComment? (skipBlanks cs) = some rest) :
    undashed (skipBlanks cs) = undashed cs := by
  have hskip : skipBlanks (skipBlanks cs) = skipBlanks cs := List.dropWhile_idempotent _ _
  rw [undashed_group h, undashed_group (by rwa [hskip])]

theorem afterDashComment?_chars (h : Braceless cs) (rest : List Char) :
    afterDashComment? (skipBlanks ((Piece.dashComment cs).chars ++ rest)) = some rest := by
  have hchars : (Piece.dashComment cs).chars ++ rest =
      openBrace :: (['#', '-'] ++ cs ++ closeBrace :: rest) := by simp [Piece.chars]
  rw [hchars, skipBlanks_eq_self (by simp [isBlank_openBrace])]
  exact afterGroup?_append h.closing rest

end

/-- A piece that belongs to no group of blanks and dash comments stays. -/
theorem undashed_piece {piece : Piece} (h : piece.Valid)
    (hloose : (piece.isBlanks || piece.isDashComment) = false) (rest : List Char) :
    undashed (piece.chars ++ rest) = piece.chars ++ undashed rest := by
  obtain ⟨hblanks, hdash⟩ := Bool.or_eq_false_iff.mp hloose
  obtain ⟨c, tail, hchars, -, htail⟩ := Piece.exists_tail h hblanks
  have hstands := Piece.stands_dashComment h hblanks hdash rest
  rw [hchars] at hstands ⊢
  exact undashed_pass.append_stands hstands htail

section
variable {group : List Piece} {rest : List Char} (hvalid : ∀ piece ∈ group, piece.Valid)
  (hgroup : ∀ piece ∈ group, (piece.isBlanks || piece.isDashComment) = true)
include hvalid hgroup

/-- After a dash comment all blanks and dash comments vanish. -/
theorem undashed_afterDash (h : Stands ['#', '-'] rest) :
    undashed (skipBlanks (textOf group ++ rest)) = undashed rest := by
  induction group with
  | nil => rw [textOf_nil, List.nil_append, skipBlanks_eq_self h.blank]
  | cons piece group ih =>
    obtain ⟨hpiece, hpieces⟩ := List.forall_mem_cons.mp hvalid
    obtain ⟨hloose, hmore⟩ := List.forall_mem_cons.mp hgroup
    rw [textOf_cons, List.append_assoc]
    cases piece with
    | blanks cs =>
      rw [Piece.chars, skipBlanks_append hpiece.2]
      exact ih hpieces hmore
    | dashComment cs =>
      have hfound := afterDashComment?_chars hpiece (textOf group ++ rest)
      rw [undashed_skipBlanks hfound, undashed_group hfound]
      exact ih hpieces hmore
    | _ => cases hloose

theorem exists_afterDashComment? (hany : group.any Piece.isDashComment = true)
    (rest : List Char) :
    ∃ found, afterDashComment? (skipBlanks (textOf group ++ rest)) = some found := by
  induction group with
  | nil => cases hany
  | cons piece group ih =>
    obtain ⟨hpiece, hpieces⟩ := List.forall_mem_cons.mp hvalid
    obtain ⟨hloose, hmore⟩ := List.forall_mem_cons.mp hgroup
    rw [textOf_cons, List.append_assoc]
    cases piece with
    | blanks cs =>
      rw [Piece.chars, skipBlanks_append hpiece.2]
      exact ih hpieces hmore hany
    | dashComment cs => exact ⟨_, afterDashComment?_chars hpiece _⟩
    | _ => cases hloose

/-- A group of blanks and dash comments stays if there are blanks only, and else vanishes. -/
theorem undashed_loose (h : Stands ['#', '-'] rest) : undashed (textOf group ++ rest) =
    (if group.any Piece.isDashComment then [] else textOf group) ++ undashed rest := by
  cases hany : group.any Piece.isDashComment with
  | true =>
    obtain ⟨found, hfound⟩ := exists_afterDashComment? hvalid hgroup hany rest
    rw [← undashed_skipBlanks hfound, undashed_afterDash hvalid hgroup h]
    rfl
  | false =>
    have hblanks : ∀ piece ∈ group, piece.isBlanks = true := fun piece hpiece => by
      simpa [List.any_eq_false.mp hany piece hpiece] using hgroup piece hpiece
    exact undashed_pass.append_blanks (textOf_blanks hvalid hblanks) h

end

theorem withoutDashes_cons {piece : Piece}
    (h : (piece.isBlanks || piece.isDashComment) = false) (pieces : List Piece) :
    withoutDashes (piece :: pieces) = piece :: withoutDashes pieces := by
  have hdash := (Bool.or_eq_false_iff.mp h).2
  simp [withoutDashes, groups_cons (p := fun p => p.isBlanks || p.isDashComment) h, hdash]

theorem withoutDashes_append {group pieces : List Piece} (hne : group ≠ [])
    (hgroup : ∀ piece ∈ group, (piece.isBlanks || piece.isDashComment) = true)
    (hpieces : ∀ piece ∈ pieces.head?, (piece.isBlanks || piece.isDashComment) = false) :
    withoutDashes (group ++ pieces) =
      (if group.any Piece.isDashComment then [] else group) ++ withoutDashes pieces := by
  rw [withoutDashes, groups_append hne hgroup hpieces, List.filter_cons]
  cases group.any Piece.isDashComment <;> rfl

/-- Dash comments vanish from a text with the blanks that touch them. -/
theorem undashed_textOf (pieces : List Piece) (hvalid : ∀ piece ∈ pieces, piece.Valid) :
    undashed (textOf pieces) = textOf (withoutDashes pieces) := by
  induction pieces using groups_induction (p := fun p => p.isBlanks || p.isDashComment) with
  | nil => rfl
  | single piece pieces hloose ih =>
    obtain ⟨hpiece, hvalid⟩ := List.forall_mem_cons.mp hvalid
    rw [textOf_cons, undashed_piece hpiece hloose, ih hvalid, withoutDashes_cons hloose,
      textOf_cons]
  | group group pieces hne hgroup hpieces ih =>
    rw [List.forall_mem_append] at hvalid
    have hstands : Stands ['#', '-'] (textOf pieces) := by
      cases pieces with
      | nil => exact stands_nil _
      | cons piece pieces =>
        obtain ⟨hblanks, hdash⟩ := Bool.or_eq_false_iff.mp (hpieces piece rfl)
        rw [textOf_cons]
        exact Piece.stands_dashComment (hvalid.2 piece List.mem_cons_self) hblanks hdash _
    rw [textOf_append, undashed_loose hvalid.1 hgroup hstands, ih hvalid.2,
      withoutDashes_append hne hgroup hpieces, textOf_append]
    split <;> rfl

/-! ## Other comments -/

theorem uncommented_piece {piece : Piece} (h : piece.Valid)
    (hloose : (piece.isBlanks || piece.isComment) = false) (hdash : piece.isDashComment = false)
    (rest : List Char) : uncommented (piece.chars ++ rest) = piece.chars ++ uncommented rest := by
  obtain ⟨hblanks, hcomment⟩ := Bool.or_eq_false_iff.mp hloose
  obtain ⟨c, tail, hchars, -, htail⟩ := Piece.exists_tail h hblanks
  have hstands := Piece.stands_comment h hblanks hcomment hdash rest
  rw [hchars] at hstands ⊢
  exact uncommented_pass.append_stands hstands htail

theorem afterComment?_chars {cs : List Char} (h : Braceless cs) (rest : List Char) :
    afterComment? ((Piece.comment cs).chars ++ rest) = some rest := by
  have hchars : (Piece.comment cs).chars ++ rest =
      openBrace :: (['#'] ++ cs ++ closeBrace :: rest) := by simp [Piece.chars]
  rw [hchars]
  exact afterGroup?_append h.closing rest

section
variable {group : List Piece} {rest : List Char} (hvalid : ∀ piece ∈ group, piece.Valid)
  (hgroup : ∀ piece ∈ group, (piece.isBlanks || piece.isComment) = true)
  (h : Stands ['#'] rest)
include hvalid hgroup h

/-- Blanks follow exactly if there are any before the end of the group. -/
theorem blankFollows_group {fuel : Nat} (hfuel : (textOf group ++ rest).length < fuel) :
    blankFollows fuel (textOf group ++ rest) = group.any Piece.isBlanks := by
  induction group generalizing fuel with
  | nil =>
    obtain ⟨fuel, rfl⟩ := Nat.exists_eq_add_one_of_ne_zero (Nat.ne_zero_of_lt hfuel)
    have hnone : afterComment? rest = none := h.group
    rw [textOf_nil, List.nil_append, blankFollows, hnone]
    cases rest with
    | nil => rfl
    | cons c cs => exact h.blank c rfl
  | cons piece group ih =>
    obtain ⟨hpiece, hpieces⟩ := List.forall_mem_cons.mp hvalid
    obtain ⟨hloose, hmore⟩ := List.forall_mem_cons.mp hgroup
    obtain ⟨fuel, rfl⟩ := Nat.exists_eq_add_one_of_ne_zero (Nat.ne_zero_of_lt hfuel)
    rw [textOf_cons, List.append_assoc] at hfuel ⊢
    cases piece with
    | blanks cs =>
      obtain ⟨c, cs, rfl⟩ := List.exists_cons_of_ne_nil hpiece.1
      have hc : Text.isBlank c = true := hpiece.2 c List.mem_cons_self
      have hopen : openBrace ≠ c := fun heq => by simp [← heq, isBlank_openBrace] at hc
      have hnone : afterComment? (c :: (cs ++ (textOf group ++ rest))) = none :=
        afterGroup?_eq_none_of_not_prefix (by simp [List.cons_prefix_cons, hopen])
      rw [Piece.chars, List.cons_append, blankFollows, hnone]
      exact hc
    | comment cs =>
      have hfound := afterComment?_chars hpiece.1 (textOf group ++ rest)
      have hlength := length_of_afterGroup? hfound
      rw [blankFollows, hfound]
      exact ih hpieces hmore (by omega)
    | _ => cases hloose

end

theorem lastBlanks_self {pieces : List Piece} (h : ∀ piece ∈ pieces, piece.isBlanks = true) :
    lastBlanks pieces = pieces := by
  have hdrop : pieces.rdropWhile (fun p => !p.isBlanks) = pieces :=
    List.rdropWhile_eq_self_iff.mpr fun hne => by simp [h _ (List.getLast_mem hne)]
  rw [lastBlanks, hdrop, List.rtakeWhile_eq_self_iff.mpr h]

theorem lastBlanks_eq_nil {pieces : List Piece} (h : pieces.any Piece.isBlanks = false) :
    lastBlanks pieces = [] := by
  have hdrop : pieces.rdropWhile (fun p => !p.isBlanks) = [] :=
    List.rdropWhile_eq_nil_iff.mpr fun piece hpiece => by
      simpa using List.any_eq_false.mp h piece hpiece
  rw [lastBlanks, hdrop, List.rtakeWhile_nil]

/-- A comment is not looked behind once there are blanks after it. -/
theorem lastBlanks_comment {pieces : List Piece} (hpieces : ∀ piece ∈ pieces, piece.isBlanks = true)
    (cs : List Char) (group : List Piece) : lastBlanks (pieces ++ .comment cs :: group) =
      if group.any Piece.isBlanks then lastBlanks group else pieces := by
  have htake (others : List Piece) : (pieces ++ .comment cs :: others).rtakeWhile Piece.isBlanks =
      others.rtakeWhile Piece.isBlanks := by
    induction others using List.reverseRecOn with
    | nil => exact List.rtakeWhile_concat_neg _ _ _ (by simp [Piece.isBlanks])
    | append_singleton others piece ih =>
      rw [← List.cons_append, ← List.append_assoc, List.rtakeWhile_concat, List.rtakeWhile_concat,
        ih]
  induction group using List.reverseRecOn with
  | nil =>
    have hself := lastBlanks_self hpieces
    rw [lastBlanks] at hself ⊢
    rw [List.rdropWhile_concat_pos _ _ _ (by simp [Piece.isBlanks]), hself]
    rfl
  | append_singleton group piece ih =>
    rw [← List.cons_append, ← List.append_assoc, lastBlanks, lastBlanks]
    cases hpiece : piece.isBlanks with
    | true =>
      rw [List.rdropWhile_concat_neg _ _ _ (by simp [hpiece]),
        List.rdropWhile_concat_neg _ _ _ (by simp [hpiece]), List.append_assoc, List.cons_append,
        htake]
      simp [hpiece]
    | false =>
      rw [List.rdropWhile_concat_pos _ _ _ (by simp [hpiece]),
        List.rdropWhile_concat_pos _ _ _ (by simp [hpiece])]
      simpa [hpiece, lastBlanks] using ih

section
variable {rest : List Char} (h : Stands ['#'] rest)
include h

/-- Of a group of blanks and comments the last blanks stay, whatever blanks come before it. -/
theorem uncommented_blanks_group {blanks group : List Piece}
    (hblanks : ∀ piece ∈ blanks, piece.Valid ∧ piece.isBlanks = true)
    (hvalid : ∀ piece ∈ group, piece.Valid)
    (hgroup : ∀ piece ∈ group, (piece.isBlanks || piece.isComment) = true) :
    uncommented (textOf (blanks ++ group) ++ rest) =
      textOf (lastBlanks (blanks ++ group)) ++ uncommented rest := by
  have hchars : ∀ {blanks : List Piece},
      (∀ piece ∈ blanks, piece.Valid ∧ piece.isBlanks = true) →
      ∀ c ∈ textOf blanks, Text.isBlank c = true := fun hblanks =>
    textOf_blanks (fun piece hpiece => (hblanks piece hpiece).1)
      fun piece hpiece => (hblanks piece hpiece).2
  induction group generalizing blanks with
  | nil =>
    rw [List.append_nil, lastBlanks_self fun piece hpiece => (hblanks piece hpiece).2]
    exact uncommented_pass.append_blanks (hchars hblanks) h
  | cons piece group ih =>
    obtain ⟨hpiece, hpieces⟩ := List.forall_mem_cons.mp hvalid
    obtain ⟨hloose, hmore⟩ := List.forall_mem_cons.mp hgroup
    cases piece with
    | blanks cs =>
      rw [← List.singleton_append, ← List.append_assoc]
      refine ih ?_ hpieces hmore
      rw [List.forall_mem_append]
      exact ⟨hblanks, by simpa using ⟨hpiece, rfl⟩⟩
    | comment cs =>
      have hfound := afterComment?_chars hpiece.1 (textOf group ++ rest)
      have hbegin : ∀ c ∈ ((Piece.comment cs).chars ++ (textOf group ++ rest)).head?,
          Text.isBlank c = false := Piece.blank_head? hpiece rfl _
      have hskip : skipBlanks (textOf blanks ++ ((Piece.comment cs).chars ++
          (textOf group ++ rest))) = (Piece.comment cs).chars ++ (textOf group ++ rest) := by
        rw [skipBlanks_append (hchars hblanks), skipBlanks_eq_self hbegin]
      have hbefore : (textOf blanks ++ ((Piece.comment cs).chars ++
          (textOf group ++ rest))).takeWhile Text.isBlank = textOf blanks := by
        rw [List.takeWhile_append_of_pos (hchars hblanks)]
        simp [Piece.chars, isBlank_openBrace]
      have hafter : uncommented (textOf group ++ rest) =
          textOf (lastBlanks group) ++ uncommented rest :=
        ih (show ∀ piece ∈ [], _ from by simp) hpieces hmore
      rw [textOf_append, textOf_cons, List.append_assoc, List.append_assoc,
        uncommented_group (by rw [hskip]; exact hfound), hbefore,
        blankFollows_group hpieces hmore h (Nat.lt_succ_self _), hafter,
        lastBlanks_comment fun piece hpiece => (hblanks piece hpiece).2]
      cases hany : group.any Piece.isBlanks with
      | true => rfl
      | false =>
        rw [lastBlanks_eq_nil hany]
        rfl
    | _ => cases hloose

end

theorem collapsed_cons {piece : Piece} (h : (piece.isBlanks || piece.isComment) = false)
    (pieces : List Piece) : collapsed (piece :: pieces) = piece :: collapsed pieces := by
  have hcomment := (Bool.or_eq_false_iff.mp h).2
  simp [collapsed, groups_cons (p := fun p => p.isBlanks || p.isComment) h, hcomment]

/-- A group without comments is its own last blanks. -/
theorem collapsed_append {group pieces : List Piece} (hne : group ≠ [])
    (hgroup : ∀ piece ∈ group, (piece.isBlanks || piece.isComment) = true)
    (hpieces : ∀ piece ∈ pieces.head?, (piece.isBlanks || piece.isComment) = false) :
    collapsed (group ++ pieces) = lastBlanks group ++ collapsed pieces := by
  rw [collapsed, groups_append hne hgroup hpieces, List.flatMap_cons]
  cases hany : group.any Piece.isComment with
  | true => rfl
  | false =>
    have hblanks : ∀ piece ∈ group, piece.isBlanks = true := fun piece hpiece => by
      simpa [List.any_eq_false.mp hany piece hpiece] using hgroup piece hpiece
    rw [lastBlanks_self hblanks]
    rfl

/-- In a text without dash comments, of each group of comments and blanks the last blanks stay. -/
theorem uncommented_textOf (pieces : List Piece)
    (hvalid : ∀ piece ∈ pieces, piece.Valid ∧ piece.isDashComment = false) :
    uncommented (textOf pieces) = textOf (collapsed pieces) := by
  induction pieces using groups_induction (p := fun p => p.isBlanks || p.isComment) with
  | nil => rfl
  | single piece pieces hloose ih =>
    obtain ⟨hpiece, hpieces⟩ := List.forall_mem_cons.mp hvalid
    rw [textOf_cons, uncommented_piece hpiece.1 hloose hpiece.2, ih hpieces,
      collapsed_cons hloose, textOf_cons]
  | group group pieces hne hgroup hpieces ih =>
    rw [List.forall_mem_append] at hvalid
    have hstands : Stands ['#'] (textOf pieces) := by
      cases pieces with
      | nil => exact stands_nil _
      | cons piece pieces =>
        obtain ⟨hblanks, hcomment⟩ := Bool.or_eq_false_iff.mp (hpieces piece rfl)
        obtain ⟨hpiece, hdash⟩ := hvalid.2 piece List.mem_cons_self
        rw [textOf_cons]
        exact Piece.stands_comment hpiece hblanks hcomment hdash _
    have hloose : uncommented (textOf group ++ textOf pieces) =
        textOf (lastBlanks group) ++ uncommented (textOf pieces) :=
      uncommented_blanks_group hstands (show ∀ piece ∈ [], _ from by simp)
        (fun piece hpiece => (hvalid.1 piece hpiece).1) hgroup
    rw [textOf_append, hloose, ih hvalid.2, collapsed_append hne hgroup hpieces, textOf_append]

/-! ## What is left -/

theorem mem_groups {p : Piece → Bool} {pieces group : List Piece} {piece : Piece}
    (hgroup : group ∈ groups p pieces) (hpiece : piece ∈ group) : piece ∈ pieces := by
  rw [← List.flatten_splitBy (fun a b => p a && p b) pieces]
  exact List.mem_flatten_of_mem hgroup hpiece

theorem mem_withoutDashes {pieces : List Piece} {piece : Piece}
    (h : piece ∈ withoutDashes pieces) : piece ∈ pieces ∧ piece.isDashComment = false := by
  obtain ⟨group, hgroup, hpiece⟩ := List.mem_flatten.mp h
  obtain ⟨hgroup, hany⟩ := List.mem_filter.mp hgroup
  have hnone : ∀ piece ∈ group, ¬piece.isDashComment = true := by simpa using hany
  exact ⟨mem_groups hgroup hpiece, by simpa using hnone piece hpiece⟩

theorem mem_collapsed {pieces : List Piece} {piece : Piece} (h : piece ∈ collapsed pieces) :
    piece ∈ pieces ∧ piece.isComment = false := by
  obtain ⟨group, hgroup, hpiece⟩ := List.mem_flatMap.mp h
  split at hpiece
  · rename_i hany
    have hblanks : piece.isBlanks = true := List.mem_rtakeWhile_imp hpiece
    have hmem : piece ∈ group :=
      (List.rdropWhile_prefix _ _).subset ((List.rtakeWhile_suffix _ _).subset hpiece)
    refine ⟨mem_groups hgroup hmem, ?_⟩
    cases piece with
    | blanks cs => rfl
    | _ => cases hblanks
  · rename_i hany
    have hnone : ∀ piece ∈ group, ¬piece.isComment = true := by simpa using hany
    exact ⟨mem_groups hgroup hpiece, by simpa using hnone piece hpiece⟩

end Inline

namespace Engine

open Inline

variable {σ : Type} (E : Engine σ) (scope : Scope)

/-- The text of a piece, once its value is inserted. -/
def pieceText : Piece → Run σ String
  | .value clause => E.insert scope (String.ofList clause)
  | piece => pure (String.ofList piece.chars)

/-- Values are inserted where they stand, and other pieces stay. -/
theorem filled_textOf {pieces : List Piece} (hpieces : ∀ piece ∈ pieces,
    piece.Valid ∧ piece.isComment = false ∧ piece.isDashComment = false) :
    E.filled scope (textOf pieces) = String.join <$> pieces.mapM (E.pieceText scope) := by
  induction pieces with
  | nil => simp
  | cons piece pieces ih =>
    obtain ⟨⟨hvalid, hcomment, hdash⟩, hrest⟩ := List.forall_mem_cons.mp hpieces
    have hcons : String.join <$> (piece :: pieces).mapM (E.pieceText scope) = (do
        let s ← E.pieceText scope piece
        (s ++ ·) <$> String.join <$> pieces.mapM (E.pieceText scope)) := by
      simp [List.mapM_cons]
    rw [hcons, textOf_cons, ← ih hrest]
    cases piece with
    | word cs =>
      exact E.filled_append scope (fun hmem => (hvalid.2 _ hmem).2 rfl) _
    | blanks cs =>
      exact E.filled_append scope (fun hmem => by
        simpa [isBlank_openBrace] using hvalid.2 _ hmem) _
    | value clause => exact E.filled_value scope hvalid.closing _
    | comment cs => cases hcomment
    | dashComment cs => cases hdash

/-- **Of the blanks around comments one run stays.**  A text that is made of pieces comes to what is
left of it, with the values inserted: first all dash comments go with the blanks that touch them,
and then the last blanks of each group of comments and blanks take the place of the group. -/
theorem inline_comments_keep_one_run {pieces : List Piece}
    (hvalid : ∀ piece ∈ pieces, piece.Valid)
    (hmark : ∀ c ∈ (textOf pieces).head?, c ∉ Leaf.marks) (depth : Nat) :
    E.processWithin depth (.str (String.ofList (textOf pieces))) scope =
      (fun texts => Value.str (String.join texts)) <$>
        (collapsed (withoutDashes pieces)).mapM (E.pieceText scope) := by
  have hdashes : ∀ piece ∈ withoutDashes pieces, piece.Valid ∧ piece.isDashComment = false :=
    fun piece hpiece => ⟨hvalid piece (mem_withoutDashes hpiece).1, (mem_withoutDashes hpiece).2⟩
  have hleft : ∀ piece ∈ collapsed (withoutDashes pieces),
      piece.Valid ∧ piece.isComment = false ∧ piece.isDashComment = false := fun piece hpiece => by
    obtain ⟨hmem, hcomment⟩ := mem_collapsed hpiece
    exact ⟨(hdashes piece hmem).1, hcomment, (hdashes piece hmem).2⟩
  rw [E.processWithin_plain scope hmark, withoutComments_eq, undashed_textOf pieces hvalid,
    uncommented_textOf _ hdashes, E.filled_textOf scope hleft, Functor.map_map]

/-- Comments that touch each other, of both kinds, and a comment at the end of a text. -/
theorem inline_comments_keep_one_run_touching :
    let E : Engine Library.State := ⟨Library.host, ["."], fun _ => none, fun _ _ => .ok .null⟩
    let pieces : List Piece := [.word ['a'], .blanks [' '], .comment ['x'], .blanks ['\n'],
      .comment [], .dashComment ['-'], .blanks [' '], .word ['b'], .value ['v'], .blanks [' '],
      .comment ['y']]
    let scope : Scope := [.map [(.str "v", .int 5)]]
    (∀ piece ∈ pieces, piece.Valid) ∧ (∀ c ∈ (textOf pieces).head?, c ∉ Leaf.marks) ∧
      E.processWithin 0 (.str "a \x7b#x\x7d\n\x7b#\x7d\x7b#--\x7d b\x7b$v\x7d \x7b#y\x7d") scope
        default = ⟨.ok (.str "a\nb5 "), [.clause "v"], default⟩ := by
  intro E pieces scope
  have hvalid : ∀ piece ∈ pieces, piece.Valid := by
    have hclauses : ∀ cs ∈ [['x'], [], ['-'], ['v'], ['y']], Braceless cs := by decide
    simp_all [pieces, Piece.Valid, Text.isBlank, Text.isWhiteSpace, openBrace]
  have hmark : ∀ c ∈ (textOf pieces).head?, c ∉ Leaf.marks := by
    intro c hc
    cases hc
    decide
  refine ⟨hvalid, hmark, ?_⟩
  have hleft : collapsed (withoutDashes pieces) =
      [.word ['a'], .blanks ['\n'], .word ['b'], .value ['v'], .blanks [' ']] := by decide
  have hprocess := congrFun (E.inline_comments_keep_one_run scope hvalid hmark 0) default
  rw [hleft] at hprocess
  exact hprocess

end Engine
end TreeTemplate

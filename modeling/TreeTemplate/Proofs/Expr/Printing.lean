import TreeTemplate.Expr.Printer
import TreeTemplate.Proofs.Expr.ShownNumber

/-! # What the scanner makes of a printed text

A printed part is scanned in a known way whatever is printed behind it (`Spells`).  Of its
tokens two things are kept (`Printing`): how many of them are words, which are names and quoted
texts, and what the row is when every double in the part is shown plainly.  Any other double
brings a word too many, or no tokens at all.  The rules put the printed parts together.
-/
namespace TreeTemplate.Expr.Token

open Grammar (Plain Number Integer Name)

/-- Names and quoted texts. -/
def isWord : Token → Bool
  | .name _ | .quoted _ _ => true
  | .number _ | .mark _ => false

/-- The number of words in a row of tokens. -/
def words (ts : List Token) : Nat := ts.countP isWord

@[simp] theorem words_nil : words [] = 0 := rfl

@[simp] theorem words_name (f : List Char) (ts : List Token) :
    words (.name f :: ts) = words ts + 1 := by
  simp [words, isWord, List.countP_cons]

@[simp] theorem words_quoted (d : Char) (cs : List Char) (ts : List Token) :
    words (.quoted d cs :: ts) = words ts + 1 := by
  simp [words, isWord, List.countP_cons]

@[simp] theorem words_number (cs : List Char) (ts : List Token) :
    words (.number cs :: ts) = words ts := by
  simp [words, isWord]

@[simp] theorem words_mark (c : Char) (ts : List Token) : words (.mark c :: ts) = words ts := by
  simp [words, isWord]

@[simp] theorem words_append (ts us : List Token) : words (ts ++ us) = words ts + words us :=
  List.countP_append

/-- A text that goes on with one of the given characters, or not at all. -/
def Next (stops rest : List Char) : Prop := ∀ c ∈ rest.head?, c ∈ stops

@[simp] theorem next_nil (stops : List Char) : Next stops [] := by simp [Next]

@[simp] theorem next_cons {stops rest : List Char} {c : Char} :
    Next stops (c :: rest) ↔ c ∈ stops := by simp [Next]

theorem Next.mono {few many rest : List Char} (h : Next few rest)
    (hsub : few ⊆ many) : Next many rest := fun c hc => hsub (h c hc)

theorem next_append {stops text rest : List Char} {c : Char} (htext : ∀ d ∈ text.head?, d = c)
    (hc : c ∈ stops) (hr : Next stops rest) : Next stops (text ++ rest) := by
  cases text with
  | nil => exact hr
  | cons d cs =>
    obtain rfl := htext d rfl
    simpa using hc

/-- The scanner makes a row of a text, or none, before anything that begins as given. -/
def Spells (index : Bool) (stops text : List Char) (row : Option (List Token)) : Prop :=
  ∀ rest, Next stops rest → ofTextFrom? index (text ++ rest) =
    row.bind fun ts => (ofTextFrom? false rest).map (ts ++ ·)

/-- A printed text with the doubles and the number of words of what it prints: its row has as
many words more as there are doubles that are not plain, and is as wanted if there are none. -/
def Printing (index : Bool) (stops : List Char) (floats : List Binary64) (count : Nat)
    (R : List Token → Prop) (text : List Char) : Prop :=
  ∃ row extra, Spells index stops text row ∧
    (extra = 0 ↔ ∀ x ∈ floats, Plain (x.write .shown)) ∧
    (∀ ts ∈ row, words ts = count + extra) ∧ (extra = 0 → ∃ ts ∈ row, R ts)

theorem Next.ends {p : Char → Bool} {stops rest : List Char} (h : Next stops rest)
    (hp : stops.any p = false) : Grammar.Ends p rest :=
  fun c hc => Grammar.eq_false_of_any hp (h c hc)

/-- What may be printed behind a term: a space before an operator, or a mark. -/
def behindTerm : List Char := ['.', ' ', ',', ')']

/-- What may be printed behind an operand. -/
def behindOperand : List Char := [' ', ',', ')']

/-! ## Rows -/

/-- A token that does not run into what follows. -/
theorem spells_token {index : Bool} {stops : List Char} {t : Token} (hv : Valid index t)
    (hp : t.isPoint = false) (hs : ∀ rest, Next stops rest → Stops index rest t) :
    Spells index stops t.text (some [t]) := by
  intro rest hr
  rw [ofTextFrom?_token (first?_text hv (hs rest hr)), hp]
  rfl

theorem spells_name {index : Bool} {stops f : List Char} (hf : Name f)
    (hstops : stops.any Text.isNameChar = false) :
    Spells index stops f (some [.name f]) :=
  spells_token (t := .name f) hf rfl fun _ hr => hr.ends hstops

theorem spells_number {stops cs : List Char} {v : Value} (h : Number cs v)
    (hstops : stops.any Grammar.continuesNumber = false) :
    Spells false stops cs (some [.number cs]) :=
  spells_token (t := .number cs) ⟨v, h, by simp⟩ rfl fun _ hr => hr.ends hstops

/-- After a point a number ends before another one. -/
theorem spells_integer {stops cs : List Char} {v : Value} (h : Integer cs v)
    (hstops : stops.any Text.isAsciiDigit = false) :
    Spells true stops cs (some [.number cs]) :=
  spells_token (t := .number cs) ⟨v, .whole h, fun _ => h⟩ rfl fun _ hr => hr.ends hstops

theorem Spells.append {index : Bool} {stops more text text' : List Char}
    {row row' : Option (List Token)} (h : Spells index stops text row)
    (h' : Spells false more text' row')
    (hnext : ∀ rest, Next more rest → Next stops (text' ++ rest)) :
    Spells index more (text ++ text') (row.bind fun us => row'.map (us ++ ·)) := by
  intro rest hrest
  rw [List.append_assoc, h _ (hnext rest hrest), h' rest hrest]
  cases row <;> cases row' <;> cases ofTextFrom? false rest <;> simp

theorem Spells.space {index : Bool} {stops text : List Char} {row : Option (List Token)}
    (h : Spells index stops text row) : Spells index stops (' ' :: text) row := by
  intro rest hrest
  rw [List.cons_append, ofTextFrom?_space (by decide), h rest hrest]

/-- A mark stands before a part; after a point the part is read as a selector. -/
theorem Spells.mark {index : Bool} {c : Char} {stops text : List Char}
    {row : Option (List Token)} (hc : c ∈ marks) (h : Spells (isPoint (.mark c)) stops text row) :
    Spells index stops (c :: text) (row.map (.mark c :: ·)) := by
  intro rest hrest
  have hfirst : first? index ((Token.mark c).text ++ (text ++ rest)) = some (.mark c) :=
    first?_text hc trivial
  have htoken := ofTextFrom?_token hfirst
  rw [h rest hrest] at htoken
  refine htoken.trans ?_
  cases row <;> cases ofTextFrom? false rest <;> simp

/-! ## Printed parts -/

/-- A token is printed as itself. -/
theorem printing_token {index : Bool} {stops text : List Char} {t : Token}
    (h : Spells index stops text (some [t])) :
    Printing index stops [] (words [t]) (· = [t]) text :=
  ⟨some [t], 0, h, by simp, by simp, fun _ => ⟨[t], rfl, rfl⟩⟩

theorem printing_nil (stops : List Char) : Printing false stops [] 0 (· = []) [] := by
  refine ⟨some [], 0, fun rest _ => ?_, by simp, by simp, fun _ => ⟨[], rfl, rfl⟩⟩
  simp

/-- Scientific notation is two numbers with a name between them. -/
theorem spells_scientific {mantissa power : List Char} {v : Value} (hm : Number mantissa v)
    (hp : Grammar.Power power) :
    Spells false behindOperand (mantissa ++ 'e' :: power)
      (some [.number mantissa, .name ['e'], .number power]) := by
  obtain ⟨c, ds, rfl, hc, hd⟩ := hp
  have hpower : ∃ w, Integer (c :: ds) w := by
    rcases hc with rfl | rfl
    · exact ⟨_, .mk .plus hd⟩
    · exact ⟨_, .mk .minus hd⟩
  obtain ⟨w, hw⟩ := hpower
  have h1 : Spells false ['e'] mantissa (some [.number mantissa]) :=
    spells_number hm (by decide)
  have h2 : Spells false ['+', '-'] ['e'] (some [.name ['e']]) := spells_name rfl (by decide)
  have h3 : Spells false behindOperand (c :: ds) (some [.number (c :: ds)]) :=
    spells_number (.whole hw) (by decide)
  have h := h1.append (h2.append h3 fun rest _ => by simpa using hc) fun rest _ => by simp
  simpa using h

/-- A double is printed as itself if it is plain, and otherwise with a word too many or as no
tokens at all. -/
theorem printing_float {x : Binary64} (hx : ∀ payload, x ≠ .nan payload) :
    Printing false behindOperand [x] 0 (fun ts => ∃ cs, ts = [.number cs] ∧ Number cs (.float x))
      (x.write .shown) := by
  -- a letter shows that a text is not plain
  have hbad {cs : List Char} (c : Char) (hc : c ∈ cs) (hn : Text.isNameStart c = true) :
      ¬Plain cs := fun h => absurd (h.not_isNameStart c hc) (by simp [hn])
  cases x with
  | nan payload => exact absurd rfl (hx payload)
  | infinite negative =>
    have hplain : ¬Plain (Binary64.write .shown (.infinite negative)) :=
      hbad 'n' (by cases negative <;> decide) (by decide)
    cases negative with
    | false =>
      have hspells : Spells false behindOperand ['i', 'n', 'f'] (some [.name ['i', 'n', 'f']]) :=
        spells_name rfl (by decide)
      exact ⟨_, 1, hspells, by simpa using hplain, by simp, by simp⟩
    | true =>
      have hspells : Spells false behindOperand ['-', 'i', 'n', 'f'] none :=
        fun rest _ => ofTextFrom?_none (by decide) rfl
      exact ⟨_, 1, hspells, by simpa using hplain, by simp, by simp⟩
  | finite negative rank =>
    rcases Grammar.shown_finite negative rank with ⟨hplain, hnumber⟩ | ⟨m, power, v, htext, hm, hp⟩
    · exact ⟨_, 0, spells_number hnumber (by decide), by simpa using hplain, by simp,
        fun _ => ⟨_, rfl, _, rfl, hnumber⟩⟩
    · have hplain : ¬Plain (Binary64.write .shown (.finite negative rank)) :=
        hbad 'e' (by simp [htext]) (by decide)
      rw [htext] at hplain
      rw [htext]
      exact ⟨_, 1, spells_scientific hm hp, by simpa [htext] using hplain, by simp, by simp⟩

namespace Printing

variable {index : Bool} {stops text : List Char} {floats : List Binary64} {count : Nat}
  {R : List Token → Prop}

theorem imp {R' : List Token → Prop} (h : Printing index stops floats count R text)
    (hR : ∀ ts, R ts → R' ts) : Printing index stops floats count R' text := by
  obtain ⟨row, extra, hs, hf, hw, hr⟩ := h
  refine ⟨row, extra, hs, hf, hw, fun h => ?_⟩
  obtain ⟨ts, hts, h⟩ := hr h
  exact ⟨ts, hts, hR ts h⟩

theorem narrow {fewer : List Char} (h : Printing index stops floats count R text)
    (hsub : fewer ⊆ stops) : Printing index fewer floats count R text := by
  obtain ⟨row, extra, hs, h⟩ := h
  exact ⟨row, extra, fun rest hr => hs rest (hr.mono hsub), h⟩

/-- A part before another one, which begins with what may follow the first. -/
theorem append {more text' : List Char} {floats' : List Binary64} {count' : Nat}
    {R' : List Token → Prop} (h : Printing index stops floats count R text)
    (h' : Printing false more floats' count' R' text')
    (hnext : ∀ rest, Next more rest → Next stops (text' ++ rest)) :
    Printing index more (floats ++ floats') (count + count')
      (fun ts => ∃ us vs, ts = us ++ vs ∧ R us ∧ R' vs) (text ++ text') := by
  obtain ⟨row, extra, hs, hf, hw, hr⟩ := h
  obtain ⟨row', extra', hs', hf', hw', hr'⟩ := h'
  refine ⟨_, extra + extra', hs.append hs' hnext, ?_, ?_, ?_⟩
  · rw [Nat.add_eq_zero_iff, hf, hf']
    simp only [List.mem_append, or_imp, forall_and]
  · intro ts hts
    obtain ⟨us, hus, hts⟩ := Option.bind_eq_some_iff.mp hts
    obtain ⟨vs, hvs, rfl⟩ := Option.map_eq_some_iff.mp hts
    rw [words_append, hw us hus, hw' vs hvs]
    omega
  · intro hextra
    obtain ⟨us, hus, hR⟩ := hr (by omega)
    obtain ⟨vs, hvs, hR'⟩ := hr' (by omega)
    refine ⟨us ++ vs, ?_, us, vs, rfl, hR, hR'⟩
    simp [Option.mem_def.mp hus, Option.mem_def.mp hvs]

/-- A part before more of them, which begin with a character that may follow it. -/
theorem followed {more text' : List Char} {floats' : List Binary64} {count' : Nat}
    {R' : List Token → Prop} {lead : Char} (h : Printing index stops floats count R text)
    (h' : Printing false more floats' count' R' text') (hhead : ∀ c ∈ text'.head?, c = lead)
    (hlead : lead ∈ stops) (hsub : more ⊆ stops) :
    Printing index more (floats ++ floats') (count + count')
      (fun ts => ∃ us vs, ts = us ++ vs ∧ R us ∧ R' vs) (text ++ text') :=
  h.append h' fun _ hrest => next_append hhead hlead (hrest.mono hsub)

theorem space (h : Printing index stops floats count R text) :
    Printing index stops floats count R (' ' :: text) := by
  obtain ⟨row, extra, hs, h⟩ := h
  exact ⟨row, extra, hs.space, h⟩

theorem mark {i : Bool} {c : Char} (hc : c ∈ marks)
    (h : Printing (isPoint (.mark c)) stops floats count R text) :
    Printing i stops floats count (fun ts => ∃ us, ts = .mark c :: us ∧ R us)
      (c :: text) := by
  obtain ⟨row, extra, hs, hf, hw, hr⟩ := h
  refine ⟨_, extra, hs.mark hc, hf, ?_, fun hextra => ?_⟩
  · intro ts hts
    obtain ⟨us, hus, rfl⟩ := Option.map_eq_some_iff.mp hts
    rw [words_mark, hw us hus]
  · obtain ⟨us, hus, hR⟩ := hr hextra
    exact ⟨.mark c :: us, by simp [Option.mem_def.mp hus], us, rfl, hR⟩

/-- A part in parentheses, behind which anything may stand. -/
theorem parenthesised (h : Printing false stops floats count R text) (hclose : ')' ∈ stops)
    (index : Bool) (more : List Char) :
    Printing index more floats count (fun ts => ∃ us, ts = .mark '(' :: (us ++ [.mark ')']) ∧ R us)
      (Expr.parenthesised text) := by
  have hvalid : Valid false (.mark ')') := (by decide : ')' ∈ marks)
  have hmark : Spells false more [')'] (some [.mark ')']) :=
    spells_token (t := .mark ')') hvalid rfl fun _ _ => trivial
  have hpart := h.append (printing_token hmark) fun rest _ => by simpa using hclose
  have hopen := hpart.mark (c := '(') (i := index) (by decide)
  simp only [List.append_nil, words_mark, words_nil, Nat.add_zero] at hopen
  refine hopen.imp fun ts hts => ?_
  obtain ⟨us, rfl, vs, ws, rfl, hR, rfl⟩ := hts
  exact ⟨vs, rfl, hR⟩

end Printing

end TreeTemplate.Expr.Token

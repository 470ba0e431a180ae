import TreeTemplate.Proofs.Expr.Numeral

/-! # Texts and their tokens

A row of tokens is spelled by every text that writes the tokens in order with any white
space before, between and after them (`Spaced`).  The scanner finds a row that the text
spells (`spaced_of_ofTextFrom?`), and it finds every row in which no token can run into
the next one (`ofTextFrom?_of_spaced`).
-/
namespace TreeTemplate.Expr.Token
open Grammar (Blank Name Numeral Ends)

/-! ## Spelling -/

/-- The texts that spell a row of tokens. -/
inductive Spaced : List Token → List Char → Prop
  | nil {w : List Char} (hw : Blank w) : Spaced [] w
  | cons {w cs : List Char} {t : Token} {ts : List Token} (hw : Blank w) (h : Spaced ts cs) :
      Spaced (t :: ts) (w ++ (t.text ++ cs))

theorem blank_nil : Blank [] := by simp [Blank]

theorem blank_append {v w : List Char} (hv : Blank v) (hw : Blank w) : Blank (v ++ w) := by
  intro c hc
  rcases List.mem_append.mp hc with hc | hc
  · exact hv c hc
  · exact hw c hc

/-- White space before a text is no part of its tokens. -/
theorem Spaced.blank_append {ts : List Token} {v cs : List Char} (hv : Blank v)
    (h : Spaced ts cs) : Spaced ts (v ++ cs) := by
  cases h with
  | nil hw => exact .nil (Token.blank_append hv hw)
  | cons hw h => rw [← List.append_assoc]; exact .cons (Token.blank_append hv hw) h

/-- A token right at the start of a text. -/
theorem Spaced.token (t : Token) {ts : List Token} {cs : List Char} (h : Spaced ts cs) :
    Spaced (t :: ts) (t.text ++ cs) := .cons blank_nil h

theorem Spaced.mark (c : Char) {ts : List Token} {cs : List Char} (h : Spaced ts cs) :
    Spaced (.mark c :: ts) (c :: cs) := h.token (.mark c)

theorem Spaced.single (t : Token) : Spaced [t] t.text := by
  have h := (Spaced.nil blank_nil).token t
  rwa [List.append_nil] at h

theorem Spaced.append {ts us : List Token} {cs ds : List Char} (h : Spaced ts cs)
    (h' : Spaced us ds) : Spaced (ts ++ us) (cs ++ ds) := by
  induction h with
  | nil hw => exact h'.blank_append hw
  | cons hw _ ih =>
    rw [List.append_assoc, List.append_assoc]
    exact .cons hw ih

/-- White space after a text is no part of its tokens. -/
theorem Spaced.append_blank {ts : List Token} {cs w : List Char} (h : Spaced ts cs)
    (hw : Blank w) : Spaced ts (cs ++ w) := by
  have h := h.append (.nil hw)
  rwa [List.append_nil] at h

/-- A text for one row after another is a text for each. -/
theorem Spaced.split {ts us : List Token} {cs : List Char} (h : Spaced (ts ++ us) cs) :
    ∃ as bs, cs = as ++ bs ∧ Spaced ts as ∧ Spaced us bs := by
  induction ts generalizing cs with
  | nil => exact ⟨[], cs, rfl, .nil blank_nil, h⟩
  | cons t ts ih =>
    cases h with
    | cons hw h =>
      obtain ⟨as, bs, rfl, ha, hb⟩ := ih h
      exact ⟨_, bs, by simp only [List.append_assoc], .cons hw ha, hb⟩

/-! ## One token -/

/-- Tokens as they are spelled; `index` tells whether a point comes before. -/
def Valid (index : Bool) : Token → Prop
  | .name f => Name f
  | .quoted d cs => d ∈ delimiters ∧ d ∉ cs
  | .number cs => Numeral index cs
  | .mark c => c ∈ marks

/-- A text into which a token before it does not run. -/
def Stops (index : Bool) (rest : List Char) : Token → Prop
  | .name _ => Ends Text.isNameChar rest
  | .number _ => Ends (if index then Text.isAsciiDigit else Grammar.continuesNumber) rest
  | _ => True

/-- The characters that a number may begin with. -/
def startsNumber (c : Char) : Prop := c = '+' ∨ c = '-' ∨ Text.isAsciiDigit c = true

theorem isAsciiDigit_iff {c : Char} :
    Text.isAsciiDigit c = true ↔ 48 ≤ c.val.toNat ∧ c.val.toNat ≤ 57 := by
  simp [Text.isAsciiDigit, Char.le_def, UInt32.le_iff_toNat_le]

theorem isNameStart_iff {c : Char} :
    Text.isNameStart c = true ↔ (65 ≤ c.val.toNat ∧ c.val.toNat ≤ 90) ∨
      (97 ≤ c.val.toNat ∧ c.val.toNat ≤ 122) ∨ c = '_' := by
  simp [Text.isNameStart, Char.le_def, UInt32.le_iff_toNat_le, or_assoc]

theorem isNameStart_of_mem {c : Char} (h : c ∈ delimiters ++ marks) :
    Text.isNameStart c = false :=
  Grammar.eq_false_of_any (by decide) h

theorem notMem_delimiters {c : Char} (h : c ∈ marks) : c ∉ delimiters := by
  have hc : delimiters.contains c = false := Grammar.eq_false_of_any (by decide) h
  simpa using hc

/-- A number begins with no character that another token begins with. -/
theorem startsNumber.apart {c : Char} (h : startsNumber c) :
    Text.isNameStart c = false ∧ c ∉ delimiters ∧ c ∉ marks := by
  rcases h with rfl | rfl | h
  · decide
  · decide
  · have hd := isAsciiDigit_iff.mp h
    refine ⟨?_, ?_, ?_⟩
    · rw [← Bool.not_eq_true, isNameStart_iff]
      rintro (h1 | h1 | rfl)
      · omega
      · omega
      · simp at hd
    · intro hm
      simp only [delimiters, List.mem_cons, List.not_mem_nil, or_false] at hm
      rcases hm with rfl | rfl | rfl <;> simp at hd
    · intro hm
      simp only [marks, List.mem_cons, List.not_mem_nil, or_false] at hm
      rcases hm with rfl | rfl | rfl | rfl | rfl | rfl | rfl | rfl <;> simp at hd

theorem sign_head {sign ds : List Char} {negative : Bool} (hs : Grammar.Sign sign negative)
    (hd : Grammar.Digits ds) : ∃ c cs, sign ++ ds = c :: cs ∧ startsNumber c := by
  cases hs with
  | plus => exact ⟨'+', ds, rfl, .inl rfl⟩
  | minus => exact ⟨'-', ds, rfl, .inr (.inl rfl)⟩
  | none =>
    obtain ⟨hne, hall⟩ := hd
    cases ds with
    | nil => exact absurd rfl hne
    | cons d ds => exact ⟨d, ds, rfl, .inr (.inr (hall d (by simp)))⟩

theorem numeral_head {index : Bool} {cs : List Char} (h : Numeral index cs) :
    ∃ c tail, cs = c :: tail ∧ startsNumber c := by
  obtain ⟨v, hv, -⟩ := h
  cases hv with
  | whole h =>
    cases h with
    | mk hs hd => exact sign_head hs hd
  | decimal hs hd hf =>
    obtain ⟨c, tail, h, hc⟩ := sign_head hs hd
    exact ⟨c, tail ++ '.' :: _, by rw [← List.append_assoc, h]; rfl, hc⟩

/-- No token begins with white space. -/
theorem Valid.head {index : Bool} {t : Token} (h : Valid index t) :
    ∃ c cs, t.text = c :: cs ∧ isSpace c = false := by
  have hspace {c : Char} (h : isSpace c = true) :
      Text.isNameStart c = false ∧ c ∉ delimiters ∧ c ∉ marks ∧ ¬startsNumber c := by
    simp only [isSpace, Bool.or_eq_true, beq_iff_eq] at h
    rcases h with ((rfl | rfl) | rfl) | rfl <;> simp [startsNumber] <;> decide
  cases t with
  | name f =>
    cases f with
    | nil => simp [Valid, Name, Text.isIdentifier] at h
    | cons c cs =>
      simp only [Valid, Name, Text.isIdentifier, Bool.and_eq_true] at h
      refine ⟨c, cs, rfl, ?_⟩
      by_contra hs
      simp [hspace (by simpa using hs)] at h
  | quoted d cs =>
    refine ⟨d, cs ++ [d], rfl, ?_⟩
    by_contra hs
    exact (hspace (by simpa using hs)).2.1 h.1
  | number cs =>
    obtain ⟨c, tail, rfl, hc⟩ := numeral_head h
    refine ⟨c, tail, rfl, ?_⟩
    by_contra hs
    exact (hspace (by simpa using hs)).2.2.2 hc
  | mark c =>
    refine ⟨c, [], rfl, ?_⟩
    by_contra hs
    exact (hspace (by simpa using hs)).2.2.1 h

/-- The scanner takes a token that does not run into what follows. -/
theorem first?_text {index : Bool} {t : Token} {rest : List Char} (hv : Valid index t)
    (hs : Stops index rest t) : first? index (t.text ++ rest) = some t := by
  cases t with
  | name f =>
    cases f with
    | nil => simp [Valid, Name, Text.isIdentifier] at hv
    | cons c cs =>
      simp only [Valid, Name, Text.isIdentifier, Bool.and_eq_true, List.all_eq_true] at hv
      simp [text, first?, hv.1, Grammar.takeWhile_append hv.2 hs]
  | quoted d cs =>
    have hname := isNameStart_of_mem (List.mem_append_left marks hv.1)
    have hcs : ∀ c ∈ cs, decide (c ≠ d) = true := by
      intro c hc
      simp only [ne_eq, decide_not, Bool.not_eq_true', decide_eq_false_iff_not]
      rintro rfl
      exact hv.2 hc
    have hclose : Ends (fun c => decide (c ≠ d)) (d :: rest) := by simp
    have htake := Grammar.takeWhile_append hcs hclose
    simp only [text, List.cons_append, List.append_assoc, List.nil_append, first?, hname,
      Bool.false_eq_true, ↓reduceIte, hv.1, htake]
    simp
  | number cs =>
    obtain ⟨c, tail, rfl, hc⟩ := numeral_head hv
    obtain ⟨hname, hdel, hmark⟩ := hc.apart
    have htext : numberText index (c :: (tail ++ rest)) = c :: tail := by
      obtain ⟨v, hv, hi⟩ := hv
      cases index with
      | true => exact Grammar.numberText_integer (hi rfl) hs
      | false => exact Grammar.numberText_number hv hs
    simp [text, first?, hname, hdel, hmark, htext]
  | mark c =>
    have hname := isNameStart_of_mem (List.mem_append_right delimiters hv)
    have hmem : c ∈ marks := hv
    simp [text, first?, hname, notMem_delimiters hv, hmem]

/-- What the scanner takes is a token that the text begins with. -/
theorem valid_of_first? {index : Bool} {cs : List Char} {t : Token}
    (h : first? index cs = some t) : Valid index t ∧ ∃ rest, cs = t.text ++ rest := by
  cases cs with
  | nil => simp [first?] at h
  | cons c cs =>
    simp only [first?] at h
    split at h
    · rename_i hname
      obtain ⟨run, rest, rfl, hrun, hrest⟩ := Grammar.exists_run Text.isNameChar cs
      rw [Grammar.takeWhile_append hrun hrest] at h
      cases h
      refine ⟨?_, rest, rfl⟩
      simpa [Valid, Name, Text.isIdentifier, hname] using hrun
    split at h
    · rename_i hdel
      split at h
      · rename_i hlen
        obtain ⟨run, rest, rfl, hrun, hrest⟩ := Grammar.exists_run (fun x => decide (x ≠ c)) cs
        rw [Grammar.takeWhile_append hrun hrest] at h hlen
        cases h
        cases rest with
        | nil => simp at hlen
        | cons d rest =>
          obtain rfl : d = c := by simpa using hrest
          refine ⟨⟨hdel, fun hm => ?_⟩, rest, by simp [text]⟩
          simpa using hrun _ hm
      · contradiction
    split at h
    · rename_i hmark
      cases h
      exact ⟨hmark, cs, rfl⟩
    split at h
    · contradiction
    · rename_i hne
      cases h
      obtain ⟨rest, hrest, hnum⟩ := Grammar.numeral_of_numberText hne
      exact ⟨hnum, rest, hrest⟩

/-! ## Rows of tokens -/

/-- The tokens of a text; `index` tells whether the token before it is a point. -/
def ofTextFrom? (index : Bool) (cs : List Char) : Option (List Token) :=
  scan cs.length index cs

theorem Valid.length_pos {index : Bool} {t : Token} (h : Valid index t) :
    0 < t.text.length := by
  obtain ⟨c, cs, ht, -⟩ := h.head
  simp [ht]

/-- A bound on the scanner that is large enough is no part of what it finds. -/
theorem scan_congr {m n : Nat} {index : Bool} {cs : List Char} (hm : cs.length ≤ m)
    (hn : cs.length ≤ n) : scan m index cs = scan n index cs := by
  induction m generalizing n index cs with
  | zero => simp_all [scan]
  | succ m ih =>
    cases cs with
    | nil => simp [scan]
    | cons c cs =>
      obtain ⟨n, rfl⟩ : ∃ k, n = k + 1 := ⟨n - 1, by simp at hn; omega⟩
      simp only [List.length_cons, Nat.add_le_add_iff_right] at hm hn
      simp only [scan]
      by_cases hc : isSpace c = true
      · simp only [hc, ↓reduceIte]
        exact ih hm hn
      · simp only [hc, Bool.false_eq_true, ↓reduceIte]
        cases ht : first? index (c :: cs) with
        | none => rfl
        | some t =>
          have hpos := (valid_of_first? ht).1.length_pos
          have hlen : ((c :: cs).drop t.text.length).length ≤ cs.length := by
            simp only [List.length_drop, List.length_cons]
            omega
          simp only [ih (Nat.le_trans hlen hm) (Nat.le_trans hlen hn)]

@[simp] theorem ofTextFrom?_nil (index : Bool) : ofTextFrom? index [] = some [] := rfl

theorem ofTextFrom?_space {index : Bool} {c : Char} {cs : List Char} (hc : isSpace c = true) :
    ofTextFrom? index (c :: cs) = ofTextFrom? index cs := by
  simp [ofTextFrom?, scan, hc]

theorem ofTextFrom?_blank {index : Bool} {w cs : List Char} (hw : Blank w) :
    ofTextFrom? index (w ++ cs) = ofTextFrom? index cs := by
  induction w with
  | nil => rfl
  | cons c w ih =>
    rw [List.cons_append, ofTextFrom?_space (hw c (by simp)), ih fun d hd => hw d (by simp [hd])]

theorem ofTextFrom?_none {index : Bool} {c : Char} {cs : List Char} (hc : isSpace c = false)
    (h : first? index (c :: cs) = none) : ofTextFrom? index (c :: cs) = none := by
  simp [ofTextFrom?, scan, hc, h]

/-- A token is followed by the tokens of the text after it. -/
theorem ofTextFrom?_token {index : Bool} {t : Token} {rest : List Char}
    (h : first? index (t.text ++ rest) = some t) :
    ofTextFrom? index (t.text ++ rest) = (ofTextFrom? t.isPoint rest).map (t :: ·) := by
  obtain ⟨c, cs, htext, hc⟩ := (valid_of_first? h).1.head
  have hlen : rest.length ≤ (cs ++ rest).length := by simp
  have hdrop : (c :: (cs ++ rest)).drop t.text.length = rest := by
    rw [← List.cons_append, ← htext, List.drop_left]
  rw [htext, List.cons_append] at h ⊢
  rw [ofTextFrom?, List.length_cons, scan]
  simp only [hc, Bool.false_eq_true, ↓reduceIte, h, hdrop]
  rw [ofTextFrom?, scan_congr hlen (Nat.le_refl _)]

/-- A row of tokens as it is spelled; `index` tells whether a point comes before. -/
def Lexical : Bool → List Token → Prop
  | _, [] => True
  | index, t :: ts => Valid index t ∧ Lexical t.isPoint ts

/-- The scanner finds a row that the text spells. -/
theorem spaced_of_ofTextFrom? {index : Bool} {cs : List Char} {ts : List Token}
    (h : ofTextFrom? index cs = some ts) : Spaced ts cs ∧ Lexical index ts := by
  -- by the length of the text, of which white space and tokens take something
  induction hn : cs.length using Nat.strongRecOn generalizing index cs ts with
  | ind n ih =>
    cases cs with
    | nil =>
      cases h
      exact ⟨.nil blank_nil, trivial⟩
    | cons c cs =>
      by_cases hc : isSpace c = true
      · rw [ofTextFrom?_space hc] at h
        obtain ⟨hs, hl⟩ := ih cs.length (by simp [← hn]) h rfl
        exact ⟨hs.blank_append (v := [c]) (by simpa [Blank] using hc), hl⟩
      rw [Bool.not_eq_true] at hc
      cases ht : first? index (c :: cs) with
      | none => simp [ofTextFrom?_none hc ht] at h
      | some t =>
        obtain ⟨hv, rest, hrest⟩ := valid_of_first? ht
        rw [hrest] at h ht hn ⊢
        rw [ofTextFrom?_token ht, Option.map_eq_some_iff] at h
        obtain ⟨us, hus, rfl⟩ := h
        have hpos := hv.length_pos
        rw [List.length_append] at hn
        obtain ⟨hs, hl⟩ := ih rest.length (by omega) hus rfl
        exact ⟨hs.token t, hv, hl⟩

/-- The tokens that may follow a token, since it does not run into them. -/
def Follow (index : Bool) (ts : List Token) : Token → Prop
  | .name _ => ∀ t ∈ ts.head?, ∃ c ∈ marks, t = .mark c
  | .number _ => ∀ t ∈ ts.head?, ∃ c ∈ marks, t = .mark c ∧ (index = false → c ≠ '.')
  | _ => True

/-- A row of tokens none of which runs into the next one, however it is spaced. -/
def Row : Bool → List Token → Prop
  | _, [] => True
  | index, t :: ts => Valid index t ∧ Follow index ts t ∧ Row t.isPoint ts

/-- A run of characters other than white space ends where a mark comes next. -/
theorem Spaced.ends {p : Char → Bool} {ts : List Token} {cs : List Char} (hs : Spaced ts cs)
    (hp : ∀ c, isSpace c = true → p c = false)
    (hts : ∀ t ∈ ts.head?, ∃ c, t = .mark c ∧ p c = false) : Ends p cs := by
  cases hs with
  | nil hw =>
    cases cs with
    | nil => exact Grammar.ends_nil p
    | cons c cs => exact Grammar.ends_cons.mpr (hp c (hw c (by simp)))
  | @cons w _ t _ hw _ =>
    obtain ⟨c, rfl, hc⟩ := hts t (by simp)
    cases w with
    | nil => exact Grammar.ends_cons.mpr hc
    | cons d w => exact Grammar.ends_cons.mpr (hp d (hw d (by simp)))

theorem eq_false_of_isSpace {p : Char → Bool} (hp : [' ', '\t', '\r', '\n'].any p = false)
    {c : Char} (h : isSpace c = true) : p c = false := by
  refine Grammar.eq_false_of_any hp ?_
  simpa [isSpace, or_assoc] using h

theorem isNameChar_of_isSpace {c : Char} (h : isSpace c = true) : Text.isNameChar c = false :=
  eq_false_of_isSpace (by decide) h

theorem continuesNumber_of_isSpace {c : Char} (h : isSpace c = true) :
    Grammar.continuesNumber c = false :=
  eq_false_of_isSpace (by decide) h

theorem isAsciiDigit_of_not_continues {c : Char} (h : Grammar.continuesNumber c = false) :
    Text.isAsciiDigit c = false := by
  simp only [Grammar.continuesNumber, Bool.or_eq_false_iff] at h
  exact h.1

theorem not_isNameChar_of_mem {c : Char} (h : c ∈ marks) : Text.isNameChar c = false :=
  Grammar.eq_false_of_any (by decide) h

theorem not_isAsciiDigit_of_mem {c : Char} (h : c ∈ marks) : Text.isAsciiDigit c = false :=
  Grammar.eq_false_of_any (by decide) h

theorem Follow.stops {index : Bool} {t : Token} {ts : List Token} {cs : List Char}
    (h : Follow index ts t) (hs : Spaced ts cs) : Stops index cs t := by
  cases t with
  | quoted | mark => trivial
  | name f =>
    refine hs.ends (fun _ => isNameChar_of_isSpace) fun t ht => ?_
    obtain ⟨c, hc, rfl⟩ := h t ht
    exact ⟨c, rfl, not_isNameChar_of_mem hc⟩
  | number ds =>
    have hspace {c : Char} (hc : isSpace c = true) := continuesNumber_of_isSpace hc
    cases index with
    | true =>
      refine hs.ends (fun _ hc => isAsciiDigit_of_not_continues (hspace hc)) fun t ht => ?_
      obtain ⟨c, hc, rfl, -⟩ := h t ht
      exact ⟨c, rfl, not_isAsciiDigit_of_mem hc⟩
    | false =>
      refine hs.ends (fun _ => hspace) fun t ht => ?_
      obtain ⟨c, hc, rfl, hpoint⟩ := h t ht
      exact ⟨c, rfl, by simp [Grammar.continuesNumber, not_isAsciiDigit_of_mem hc, hpoint]⟩

/-- The scanner finds every row in which no token runs into the next one. -/
theorem ofTextFrom?_of_spaced {index : Bool} {ts : List Token} {cs : List Char}
    (hr : Row index ts) (hs : Spaced ts cs) : ofTextFrom? index cs = some ts := by
  induction hs generalizing index with
  | @nil w hw =>
    have h : ofTextFrom? index (w ++ []) = ofTextFrom? index [] := ofTextFrom?_blank hw
    rwa [List.append_nil, ofTextFrom?_nil] at h
  | cons hw h ih =>
    obtain ⟨hv, hf, hr⟩ := hr
    rw [ofTextFrom?_blank hw, ofTextFrom?_token (first?_text hv (hf.stops h)), ih hr]
    rfl

end TreeTemplate.Expr.Token

import TreeTemplate.Expr.Stored
import TreeTemplate.Proofs.Expr.PrintedExpr

/-! # Printing and reading back

An expression that was read from a text and is printed is read back exactly if all its doubles
are plain (`print_parse_round_trip`).  Otherwise its printed text has more words than the
expression.  A derivation cannot have added them, since the words of a derivable row can be
counted in the tree that belongs to it (`TokenGrammar.Chain.hasWords`), so that no tree equal to
the expression is read.
-/
namespace TreeTemplate

/-! ## The words of a tree -/

namespace Key

/-- The words that a node has by itself: a text literal and the name of a method. -/
def ownWords : List Key → Nat
  | .str "literal" :: .str _ :: _ => 1
  | .str "methcall" :: _ => 1
  | _ => 0

mutual

/-- The words of a tree, in normal form. -/
def words : Key → Nat
  | .tuple items => ownWords items + allWords items
  | _ => 0

/-- The words of a row of trees. -/
def allWords : List Key → Nat
  | [] => 0
  | k :: ks => words k + allWords ks

end

theorem ownWords_tuple (items ks : List Key) : ownWords (.tuple items :: ks) = 0 := rfl

theorem ownWords_node {tag : String} (htag : tag ≠ "methcall") (items ks : List Key) :
    ownWords (.str tag :: .tuple items :: ks) = 0 := by
  unfold ownWords
  split <;> simp_all

end Key

namespace Expr
open Value (key? keys?)
open Token (words)
open Grammar (Plain)

/-- A node with so many words. -/
def HasWords (v : Value) (n : Nat) : Prop :=
  ∃ items, v.key? = .ok (.tuple items) ∧ Key.words (.tuple items) = n

/-- A row of nodes with so many words. -/
def RowHasWords (vs : List Value) (n : Nat) : Prop :=
  ∃ ks, keys? vs = .ok ks ∧ Key.ownWords ks = 0 ∧ Key.allWords ks = n

theorem rowHasWords_nil : RowHasWords [] 0 := ⟨[], rfl, rfl, rfl⟩

theorem HasWords.cons {v : Value} {vs : List Value} {m n : Nat} (h : HasWords v m)
    (hs : RowHasWords vs n) : RowHasWords (v :: vs) (m + n) := by
  obtain ⟨items, hk, rfl⟩ := h
  obtain ⟨ks, hks, -, rfl⟩ := hs
  refine ⟨.tuple items :: ks, ?_, Key.ownWords_tuple items ks, rfl⟩
  simp only [keys?, hk, hks]
  rfl

/-- A node with one part. -/
theorem HasWords.unary {tag : String} {v : Value} {n : Nat} (h : HasWords v n)
    (htag : tag ≠ "methcall") : HasWords (node tag [v]) n := by
  obtain ⟨items, hk, rfl⟩ := h
  refine ⟨[.str tag, .tuple items], ?_, ?_⟩
  · simp only [node, key?, keys?, hk]
    rfl
  · simp [Key.words, Key.allWords, Key.ownWords_node htag]

/-- A node with a part and a row of parts. -/
theorem HasWords.binary {tag : String} {v : Value} {vs : List Value} {m n : Nat}
    (h : HasWords v m) (hs : RowHasWords vs n) (htag : tag ≠ "methcall") :
    HasWords (node tag [v, .tuple vs]) (m + n) := by
  obtain ⟨items, hk, rfl⟩ := h
  obtain ⟨ks, hks, hown, rfl⟩ := hs
  refine ⟨[.str tag, .tuple items, .tuple ks], ?_, ?_⟩
  · simp only [node, key?, keys?, hk, hks]
    rfl
  · simp [Key.words, Key.allWords, Key.ownWords_node htag, hown]

/-- A row with no nodes has no words. -/
theorem RowHasWords.eq_zero {n : Nat} (hs : RowHasWords [] n) : n = 0 := by
  obtain ⟨ks, hks, -, rfl⟩ := hs
  cases hks
  rfl

theorem hasWords_ofChain {first : Expr} {steps : List (ChainOp × Expr)} {m n : Nat}
    (h : HasWords first.toValue m) (hs : RowHasWords (stepValues steps) n) :
    HasWords (ofChain first steps).toValue (m + n) := by
  cases steps with
  | nil => rwa [hs.eq_zero, Nat.add_zero]
  | cons => exact h.binary hs (by decide)

theorem hasWords_ofDot {base : Expr} {selectors : List Expr} {m n : Nat}
    (h : HasWords base.toValue m) (hs : RowHasWords (toValues selectors) n) :
    HasWords (ofDot base selectors).toValue (m + n) := by
  cases selectors with
  | nil => rwa [hs.eq_zero, Nat.add_zero]
  | cons => exact h.binary hs (by decide)

theorem hasWords_text (cs : List Char) : HasWords (toValue (ofQuoted cs)) 1 :=
  ⟨_, rfl, rfl⟩

theorem hasWords_named (f : List Char) : HasWords (toValue (named f)) 1 :=
  (hasWords_text f).unary (by decide)

theorem hasWords_literal {v : Value} {k : Key} (hk : v.key? = .ok k)
    (hown : Key.ownWords [.str "literal", k] = 0) (hk' : k.words = 0) :
    HasWords (toValue (.literal v)) 0 := by
  refine ⟨[.str "literal", k], ?_, ?_⟩
  · simp only [toValue, node, key?, keys?, hk]
    rfl
  · simp [Key.words, Key.allWords, hown, hk']

/-- A number has no words, be it an integer by its value or not. -/
theorem hasWords_number {cs : List Char} {v : Value} (h : Grammar.Number cs v) :
    HasWords (toValue (.literal v)) 0 := by
  cases h with
  | whole h =>
    cases h with
    | mk => exact hasWords_literal rfl rfl rfl
  | @decimal sign ds fs negative _ _ _ =>
    generalize Binary64.ofParts negative ds fs 0 = x
    cases hint : x.toInt? with
    | none =>
      have hk : key? (.float x) = .ok (.float x) := by simp only [key?, hint]
      exact hasWords_literal hk rfl rfl
    | some n =>
      have hk : key? (.float x) = .ok (.int n) := by simp only [key?, hint]
      exact hasWords_literal hk rfl rfl

theorem hasWords_method {vs : List Value} {n : Nat} (f : String) (hs : RowHasWords vs n) :
    HasWords (node "methcall" [.str f, .tuple vs]) (n + 1) := by
  obtain ⟨ks, hks, hown, rfl⟩ := hs
  refine ⟨[.str "methcall", .str f, .tuple ks], ?_, ?_⟩
  · simp only [node, key?, keys?, hks]
    rfl
  · have hname : Key.ownWords [.str "methcall", .str f, .tuple ks] = 1 := rfl
    simp [Key.words, Key.allWords, hname, hown, Nat.add_comm]

/-- Parentheses have no words. -/
theorem words_closed (ts : List Token) : words (ts ++ [.mark ')']) = words ts := by simp

-- By induction on the derivation: what a rule adds to the row, its node adds to the tree.
mutual

theorem TokenGrammar.Chain.hasWords : ∀ {ts : List Token} {e : Expr}, TokenGrammar.Chain ts e →
    HasWords e.toValue (words ts)
  | _, _, .steps ha hb => by
    rw [Token.words_append]
    exact hasWords_ofChain ha.hasWords hb.hasWords

theorem TokenGrammar.Steps.hasWords : ∀ {us : List Token} {steps : List (ChainOp × Expr)},
    TokenGrammar.Steps us steps → RowHasWords (stepValues steps) (words us)
  | _, _, .nil => rowHasWords_nil
  | _, _, .cons hc ha hb => by
    rw [Token.words_mark, Token.words_append]
    cases hc with
    | whenTrue | whenFalse => exact (ha.hasWords.unary (by decide)).cons hb.hasWords

theorem TokenGrammar.Alternative.hasWords : ∀ {ts : List Token} {e : Expr},
    TokenGrammar.Alternative ts e → HasWords e.toValue (words ts)
  | _, _, .negation h => by
    rw [Token.words_mark]
    exact h.hasWords.unary (by decide)
  | _, _, .string _ _ => by
    rw [Token.words_quoted]
    exact hasWords_text _
  | _, _, .number h => by
    rw [Token.words_number]
    exact hasWords_number h
  | _, _, .term ha hb => by
    rw [Token.words_append]
    exact hasWords_ofDot ha.hasWords hb.hasWords

theorem TokenGrammar.Term.hasWords : ∀ {ts : List Token} {e : Expr}, TokenGrammar.Term ts e →
    HasWords e.toValue (words ts)
  | _, _, .group h => by
    rw [Token.words_mark, words_closed]
    exact h.hasWords.unary (by decide)
  | _, _, .call (f := f) _ h => by
    rw [Token.words_name, Token.words_mark, words_closed, Nat.add_comm]
    exact (hasWords_named f).binary h.hasWords (by decide)
  | _, _, .name (f := f) _ => by
    rw [Token.words_name]
    exact hasWords_named f
  | _, _, .lookup h => by
    rw [Token.words_mark]
    exact h.hasWords.unary (by decide)

theorem TokenGrammar.Selectors.hasWords : ∀ {us : List Token} {es : List Expr},
    TokenGrammar.Selectors us es → RowHasWords (toValues es) (words us)
  | _, _, .nil => rowHasWords_nil
  | _, _, .cons ha hb => by
    rw [Token.words_mark, Token.words_append]
    exact ha.hasWords.cons hb.hasWords

theorem TokenGrammar.Selector.hasWords : ∀ {ts : List Token} {e : Expr},
    TokenGrammar.Selector ts e → HasWords e.toValue (words ts)
  | _, _, .group h => by
    rw [Token.words_mark, words_closed]
    exact h.hasWords.unary (by decide)
  | _, _, .method _ h => by
    rw [Token.words_name, Token.words_mark, words_closed]
    exact hasWords_method _ h.hasWords
  | _, _, .key _ => by
    rw [Token.words_name]
    exact hasWords_text _
  | _, _, .string _ _ => by
    rw [Token.words_quoted]
    exact hasWords_text _
  | _, _, .integer h => by
    rw [Token.words_number]
    exact hasWords_number (.whole h)
  | _, _, .subscript h => by
    rw [Token.words_mark]
    exact h.hasWords.unary (by decide)

theorem TokenGrammar.Arguments.hasWords : ∀ {ts : List Token} {es : List Expr},
    TokenGrammar.Arguments ts es → RowHasWords (toValues es) (words ts)
  | _, _, .none => rowHasWords_nil
  | _, _, .some ha hb => by
    rw [Token.words_append]
    exact ha.hasWords.cons hb.hasWords

theorem TokenGrammar.MoreArguments.hasWords : ∀ {us : List Token} {es : List Expr},
    TokenGrammar.MoreArguments us es → RowHasWords (toValues es) (words us)
  | _, _, .nil => rowHasWords_nil
  | _, _, .cons ha hb => by
    rw [Token.words_mark, Token.words_append]
    exact ha.hasWords.cons hb.hasWords

end

/-- Equal trees belong to rows with as many words. -/
theorem words_eq_of_sameKey {ts us : List Token} {e e' : Expr} (h : TokenGrammar.Chain ts e)
    (h' : TokenGrammar.Chain us e') (hsame : e'.toValue.sameKey e.toValue = true) :
    words us = words ts := by
  -- equal trees have one normal form, in which the words of both are counted
  obtain ⟨k, hk', hk⟩ := Value.sameKey_iff.mp hsame
  obtain ⟨items, hitems, hwords⟩ := h.hasWords
  obtain ⟨items', hitems', hwords'⟩ := h'.hasWords
  rw [hk] at hitems
  rw [hk'] at hitems'
  cases hitems
  cases hitems'
  exact hwords'.symm.trans hwords

/-! ## Reading a printed expression -/

/-- **Printing and reading back.**  An expression that was read from a text has a printed text,
and is read from it again, itself or a tree equal to it, exactly if every double in it is
shown as digits, a point and digits. -/
theorem print_parse_round_trip (host : HostRef → String) {text : String} {e : Expr}
    (h : parse? text = some e) :
    ∃ printed, e.toText host = .ok printed ∧
      (parse? printed = some e ↔ ∀ x ∈ e.floats, Plain (x.write .shown)) ∧
      ((∃ e', parse? printed = some e' ∧ e'.toValue.sameKey e.toValue = true) ↔
        ∀ x ∈ e.floats, Plain (x.write .shown)) := by
  obtain ⟨ts, hc, -⟩ := parse?_iff_spaced.mp h
  obtain ⟨cs, hprint, row, extra, hspells, hfloats, hwords, hrow⟩ := hc.prints host
  have hscan : Token.ofTextFrom? false cs = row := by
    have hscan := hspells [] (Token.next_nil _)
    rw [List.append_nil, Token.ofTextFrom?_nil] at hscan
    simpa using hscan
  -- with plain doubles only, the row of the printed text is derivable
  have hback (hplain : ∀ x ∈ e.floats, Plain (x.write .shown)) :
      parse? (String.ofList cs) = some e := by
    obtain ⟨us, hus, hc'⟩ := hrow (hfloats.mpr hplain)
    rw [hus] at hscan
    rw [parse?_iff_spaced, String.toList_ofList]
    exact ⟨us, hc', (Token.spaced_of_ofTextFrom? hscan).1⟩
  -- any other double would bring a word that no equal tree has
  have hplain {e' : Expr} (hparse : parse? (String.ofList cs) = some e')
      (hsame : e'.toValue.sameKey e.toValue = true) : ∀ x ∈ e.floats, Plain (x.write .shown) := by
    rw [parse?_iff_spaced, String.toList_ofList] at hparse
    obtain ⟨us, hc', hs⟩ := hparse
    have hend : NoPointNext [] := by simp [NoPointNext]
    have hus := hc'.row hend trivial
    rw [List.append_nil] at hus
    rw [Token.ofTextFrom?_of_spaced hus hs] at hscan
    have hcount := hwords us hscan.symm
    rw [words_eq_of_sameKey hc hc' hsame] at hcount
    exact hfloats.mp (by omega)
  have hself : e.toValue.sameKey e.toValue = true := by
    obtain ⟨items, hk, -⟩ := hc.hasWords
    exact Value.sameKey_iff.mpr ⟨_, hk, hk⟩
  refine ⟨String.ofList cs, ?_, ⟨fun hparse => hplain hparse hself, hback⟩, ?_, ?_⟩
  · simp only [toText, hprint]
    rfl
  · rintro ⟨e', hparse, hsame⟩
    exact hplain hparse hsame
  · exact fun hall => ⟨e, hback hall, hself⟩

/-- A subscript and a string come back as a group and a name; a small double does not. -/
theorem print_parse_round_trip_subscript :
    (∃ e, parse? "a.$b.'x' ? !2.5" = some e ∧
      e.toText (fun _ => "") = .ok "a.(b).x ? !2.5" ∧ parse? "a.(b).x ? !2.5" = some e) ∧
    ∃ e, parse? "0.00001" = some e ∧
      e.toText (fun _ => "") = .ok "1e-05" ∧ parse? "1e-05" ≠ some e := by
  constructor
  · have hparse : parse? "a.$b.'x' ? !2.5" = some (.chain
        (.dot (.named ['a']) [.group (.named ['b']), .literal (.str "x")])
        [(.whenTrue, .not (.literal (.float (Binary64.ofParts false ['2'] ['5'] 0))))]) :=
      Option.bind_eq_some_iff.mpr ⟨[.name ['a'], .mark '.', .mark '$', .name ['b'], .mark '.',
        .quoted '\'' ['x'], .mark '?', .mark '!', .number ['2', '.', '5']], by decide +kernel, rfl⟩
    have hshown : (Binary64.ofParts false ['2'] ['5'] 0).write .shown = ['2', '.', '5'] := by
      decide +kernel
    have hdigit {c : Char} (hc : Text.isAsciiDigit c = true) : Grammar.Digits [c] :=
      ⟨by simp, by simpa using hc⟩
    have hplain : Plain ['2', '.', '5'] :=
      ⟨false, ['2'], ['5'], hdigit (by decide), hdigit (by decide), rfl⟩
    obtain ⟨printed, hprint, hiff, -⟩ := print_parse_round_trip (fun _ => "") hparse
    have htext : some "a.(b).x ? !2.5" = some printed :=
      Eq.trans (by decide +kernel) (congrArg Except.toOption hprint)
    cases htext
    refine ⟨_, hparse, hprint, hiff.mpr ?_⟩
    simp [floats, allFloats, stepFloats, named, hshown, hplain]
  · have hparse : parse? "0.00001" = some (.literal (.float
        (Binary64.ofParts false ['0'] ['0', '0', '0', '0', '1'] 0))) :=
      Option.bind_eq_some_iff.mpr ⟨[.number "0.00001".toList], by decide +kernel, rfl⟩
    have hshown : (Binary64.ofParts false ['0'] ['0', '0', '0', '0', '1'] 0).write .shown =
        ['1', 'e', '-', '0', '5'] := by
      decide +kernel
    have hletter : ¬Plain ['1', 'e', '-', '0', '5'] := fun h =>
      absurd (h.not_isNameStart 'e' (by decide)) (by decide)
    obtain ⟨printed, hprint, hiff, -⟩ := print_parse_round_trip (fun _ => "") hparse
    have htext : some "1e-05" = some printed :=
      Eq.trans (by decide +kernel) (congrArg Except.toOption hprint)
    cases htext
    refine ⟨_, hparse, hprint, fun hback => ?_⟩
    have hplain := hiff.mp hback
    simp [floats, hshown, hletter] at hplain

end Expr
end TreeTemplate

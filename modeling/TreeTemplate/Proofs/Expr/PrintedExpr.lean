import TreeTemplate.Proofs.Expr.ParserGrammar
import TreeTemplate.Proofs.Expr.Printing

/-! # The printed text of an expression

An expression that came from text is printed as a text again, part by part along its derivation.
`TokenGrammar.Chain.prints` says what the scanner makes of that text: if all doubles of the
expression are plain, a row of tokens that is derivable for the same expression, and otherwise
no row at all or one with more words than the row that was read.
-/
namespace TreeTemplate.Expr
open Token (words Printing behindTerm behindOperand Next)

/-! ## The doubles of an expression -/

mutual

/-- The doubles that stand in an expression as literals. -/
def floats : Expr → List Binary64
  | .literal (.float x) => [x]
  | .literal _ => []
  | .lookup name => floats name
  | .group inner => floats inner
  | .dot base selectors => floats base ++ allFloats selectors
  | .call callee args => floats callee ++ allFloats args
  | .method _ args => allFloats args
  | .not operand => floats operand
  | .chain first steps => floats first ++ stepFloats steps
  | .surplus node _ => floats node
  | .malformed _ | .broken _ => []

/-- The doubles of a row of expressions. -/
def allFloats : List Expr → List Binary64
  | [] => []
  | e :: es => floats e ++ allFloats es

/-- The doubles of the steps of a chain. -/
def stepFloats : List (ChainOp × Expr) → List Binary64
  | [] => []
  | (_, e) :: rest => floats e ++ stepFloats rest

end

theorem floats_call (f : List Char) (args : List Expr) :
    floats (.call (named f) args) = allFloats args := by
  simp [floats, named]

theorem floats_named (f : List Char) : floats (named f) = [] := by
  simp [floats, named]

theorem floats_ofChain (first : Expr) (steps : List (ChainOp × Expr)) :
    floats (ofChain first steps) = floats first ++ stepFloats steps := by
  cases steps with
  | nil => simp [stepFloats]
  | cons => simp [ofChain, floats]

theorem floats_ofDot (base : Expr) (selectors : List Expr) :
    floats (ofDot base selectors) = floats base ++ allFloats selectors := by
  cases selectors with
  | nil => simp [allFloats]
  | cons => simp [ofDot, floats]

/-! ## Printed parts -/

/-- A part has a printed text, which is scanned as told by `Printing`. -/
def Prints (index : Bool) (stops : List Char) (floats : List Binary64) (count : Nat)
    (R : List Token → Prop) (p : Printed) : Prop :=
  ∃ text, p = .ok text ∧ Printing index stops floats count R text

theorem Prints.imp {index : Bool} {stops : List Char} {floats : List Binary64} {count : Nat}
    {R R' : List Token → Prop} {p : Printed} (h : Prints index stops floats count R p)
    (hR : ∀ ts, R ts → R' ts) : Prints index stops floats count R' p := by
  obtain ⟨text, hprint, hp⟩ := h
  exact ⟨text, hprint, hp.imp hR⟩

/-- A part that is printed as one token. -/
theorem prints_token {index : Bool} {stops text : List Char} {t : Token} {R : List Token → Prop}
    {p : Printed} (hp : p = .ok text) (ht : Token.Spells index stops text (some [t])) (hR : R [t]) :
    Prints index stops [] (words [t]) R p := by
  refine ⟨text, hp, (Token.printing_token ht).imp ?_⟩
  rintro _ rfl
  exact hR

/-- Parts that follow other ones have a printed text, which begins with their mark or is empty. -/
def PrintsMore (lead : Char) (stops : List Char) (floats : List Binary64) (count : Nat)
    (R : List Token → Prop) (p : Printed) : Prop :=
  ∃ text, p = .ok text ∧ (∀ c ∈ text.head?, c = lead) ∧ Printing false stops floats count R text

theorem printsMore_nil {lead : Char} {stops : List Char} {R : List Token → Prop} (h : R []) :
    PrintsMore lead stops [] 0 R (.ok []) := by
  refine ⟨[], rfl, by simp, (Token.printing_nil stops).imp ?_⟩
  rintro _ rfl
  exact h

/-- A selector as it is printed after its point. -/
def printSelector (host : HostRef → String) (selector : Expr) : Printed := do
  match bareSelector? (← literalValue? selector) with
  | some cs => .ok cs
  | none => print host selector

theorem printSelectors_cons (host : HostRef → String) (selector : Expr) (rest : List Expr) :
    printSelectors host (selector :: rest) = (do
      let cs ← printSelector host selector
      pure ('.' :: cs ++ (← printSelectors host rest))) := by
  simp only [printSelectors, printSelector]
  cases literalValue? selector with
  | error cause => rfl
  | ok v => cases h : bareSelector? v <;> simp [h, bind, Except.bind]

theorem isIdentifier_ofList {cs : List Char} :
    Text.isIdentifier (String.ofList cs).toList = true ↔ Grammar.Name cs := by
  rw [String.toList_ofList, Grammar.Name]

theorem bareName?_of_name {f : List Char} (hf : Grammar.Name f) :
    bareName? (some (.str (String.ofList f))) = some f := by
  rw [bareName?, if_pos (isIdentifier_ofList.mpr hf), String.toList_ofList]

theorem bareName?_of_not {cs : List Char} (hf : ¬Grammar.Name cs) :
    bareName? (some (.str (String.ofList cs))) = none := by
  rw [bareName?, if_neg (mt isIdentifier_ofList.mp hf)]

/-- A string is printed between a delimiter that it does not hold. -/
theorem printString_of_notMem {s : String} {d : Char} (hd : d ∈ Token.delimiters)
    (hs : d ∉ s.toList) : ∃ d' ∈ Token.delimiters, d' ∉ s.toList ∧
      printString s = .ok (d' :: s.toList ++ [d']) := by
  unfold printString
  cases hfind : Token.delimiters.find? fun d => !s.toList.contains d with
  | none =>
    rw [List.find?_eq_none] at hfind
    exact absurd (hfind d hd) (by simpa using hs)
  | some d' =>
    have hnot := List.find?_some hfind
    exact ⟨d', List.mem_of_find?_eq_some hfind, by simpa using hnot, rfl⟩

namespace TokenGrammar

theorem Term.literalValue? {ts : List Token} {e : Expr} (h : Term ts e) :
    literalValue? e = .ok none := by
  cases h <;> rfl

theorem Alternative.isChain {ts : List Token} {e : Expr} (h : Alternative ts e) :
    isChain e = .ok false := by
  cases h with
  | negation | string | number => rfl
  | @term _ _ _ selectors ha _ =>
    cases selectors with
    | cons => rfl
    | nil => cases ha <;> rfl

end TokenGrammar

section
variable (host : HostRef → String)

open TokenGrammar

theorem print_ofChain {first : Expr} (hfirst : isChain first = .ok false)
    (steps : List (ChainOp × Expr)) {a b : List Char} (ha : print host first = .ok a)
    (hb : printSteps host steps = .ok b) : print host (ofChain first steps) = .ok (a ++ b) := by
  cases steps with
  | nil =>
    cases hb
    simpa using ha
  | cons => simp [ofChain, print, hfirst, ha, hb, bind, Except.bind, pure, Except.pure]

theorem print_ofDot {base : Expr} (selectors : List Expr) {a b : List Char}
    (ha : print host base = .ok a) (hb : printSelectors host selectors = .ok b) :
    print host (ofDot base selectors) = .ok (a ++ b) := by
  cases selectors with
  | nil =>
    cases hb
    simpa using ha
  | cons => simp [ofDot, print, ha, hb, bind, Except.bind, pure, Except.pure]

/-- A name is printed as itself. -/
theorem print_named {f : List Char} (hf : Grammar.Name f) : print host (named f) = .ok f := by
  simp only [named, print, literalValue?, bind, Except.bind, bareName?_of_name hf]
  rfl

/-- A quoted text is printed between delimiters. -/
theorem prints_quoted {d : Char} {cs : List Char} (hd : d ∈ Token.delimiters) (hc : d ∉ cs)
    (index : Bool) (stops : List Char) :
    Prints index stops [] 1
      (fun ts => ∃ d' ∈ Token.delimiters, d' ∉ cs ∧ ts = [.quoted d' cs])
      (print host (ofQuoted cs)) := by
  have hs : d ∉ (String.ofList cs).toList := by simpa using hc
  obtain ⟨d', hd', hs', hprint⟩ := printString_of_notMem hd hs
  rw [String.toList_ofList] at hs' hprint
  have hspells : Token.Spells index stops (d' :: cs ++ [d']) (some [.quoted d' cs]) :=
    Token.spells_token (t := .quoted d' cs) ⟨hd', hs'⟩ rfl fun _ _ => trivial
  exact ⟨_, hprint, (Token.printing_token hspells).imp fun ts hts => ⟨d', hd', hs', hts⟩⟩

/-- A number is printed as a number, if it is a double that is plain. -/
theorem prints_number {cs : List Char} {v : Value} (h : Grammar.Number cs v) :
    Prints false behindOperand (floats (.literal v)) (words [.number cs])
      (Alternative · (.literal v)) (print host (.literal v)) := by
  rw [Token.words_number, Token.words_nil]
  cases h with
  | whole h =>
    cases h with
    | @mk _ ds negative _ _ =>
      have hshown := Grammar.integer_showInt (Binary64.signedInt negative (Text.natOfDigits ds))
      have hspells := Token.spells_number (.whole hshown)
        (by decide : behindOperand.any Grammar.continuesNumber = false)
      exact prints_token rfl hspells (.number (.whole hshown))
  | decimal hs hd hf =>
    refine ⟨_, rfl, (Token.printing_float (Grammar.ofParts_ne_nan _ _ _ _)).imp ?_⟩
    rintro _ ⟨ds, rfl, hds⟩
    exact .number hds

/-- A part in parentheses. -/
theorem prints_group {e : Expr} {floats : List Binary64} {count : Nat} {R : List Token → Prop}
    (h : Prints false behindOperand floats count R (print host e)) (index : Bool)
    (stops : List Char) :
    Prints index stops floats count
      (fun ts => ∃ us, ts = .mark '(' :: (us ++ [.mark ')']) ∧ R us) (print host (.group e)) := by
  obtain ⟨text, hprint, hp⟩ := h
  refine ⟨parenthesised text, ?_, hp.parenthesised (by decide) index stops⟩
  simp [print, hprint, bind, Except.bind, pure, Except.pure]

/-- A name before arguments in parentheses. -/
theorem prints_called {f : List Char} {index : Bool} {floats : List Binary64} {ts : List Token}
    {R : List Token → Prop} {args : List Expr} (hf : Grammar.Name f)
    (h : Prints false [')'] floats (words ts) R (printArguments host args)) (stops : List Char) :
    ∃ text, printArguments host args = .ok text ∧
      Printing index stops floats (words (.name f :: .mark '(' :: (ts ++ [.mark ')'])))
        (fun ts => ∃ us, ts = .name f :: .mark '(' :: (us ++ [.mark ')']) ∧ R us)
        (f ++ parenthesised text) := by
  obtain ⟨text, hprint, hp⟩ := h
  have hname : Token.Spells index ['('] f (some [.name f]) := Token.spells_name hf (by decide)
  have hcall := (Token.printing_token hname).append
    (hp.parenthesised (by decide) false stops) fun rest _ => by simp [parenthesised]
  have hwords : words [.name f] + words ts =
      words (.name f :: .mark '(' :: (ts ++ [.mark ')'])) := by
    simp [Nat.add_comm]
  rw [hwords, List.nil_append] at hcall
  refine ⟨text, hprint, hcall.imp ?_⟩
  rintro _ ⟨_, _, rfl, rfl, us, rfl, hus⟩
  exact ⟨us, rfl, hus⟩

/-- A selector that is an identifier is printed bare. -/
theorem prints_key {f : List Char} (hf : Grammar.Name f) :
    Prints true behindTerm [] 1 (Selector · (ofQuoted f)) (printSelector host (ofQuoted f)) := by
  have hspells : Token.Spells true behindTerm f (some [.name f]) :=
    Token.spells_name hf (by decide)
  have hprint : printSelector host (ofQuoted f) = .ok f := by
    simp only [printSelector, ofQuoted, literalValue?, bareSelector?, bind, Except.bind,
      bareName?_of_name hf]
  exact prints_token hprint hspells (.key hf)

/-- Any other string that is a selector is printed as a string. -/
theorem printSelector_quoted {cs : List Char} (hf : ¬Grammar.Name cs) :
    printSelector host (ofQuoted cs) = print host (ofQuoted cs) := by
  simp only [printSelector, ofQuoted, literalValue?, bareSelector?, bind, Except.bind,
    bareName?_of_not hf]

/-- A selector that is an integer is printed bare. -/
theorem prints_index {cs : List Char} {v : Value} (h : Grammar.Integer cs v) :
    Prints true behindTerm (floats (.literal v)) (words [.number cs])
      (Selector · (.literal v)) (printSelector host (.literal v)) := by
  cases h with
  | @mk _ ds negative _ _ =>
    have hshown := Grammar.integer_showInt (Binary64.signedInt negative (Text.natOfDigits ds))
    have hspells := Token.spells_integer hshown
      (by decide : behindTerm.any Text.isAsciiDigit = false)
    rw [Token.words_number, Token.words_nil]
    exact prints_token rfl hspells (.integer hshown)

-- By induction on the derivation.  A term is printed so that a point may follow, an operand so
-- that none may, since a number would take it.
mutual

theorem TokenGrammar.Chain.prints : ∀ {ts : List Token} {e : Expr}, Chain ts e →
    Prints false behindOperand e.floats (words ts) (Chain · e) (print host e)
  | _, _, .steps ha hb => by
    obtain ⟨a, hprint, hp⟩ := ha.prints
    obtain ⟨b, hprint', hhead, hp'⟩ := hb.prints
    refine ⟨_, print_ofChain host ha.isChain _ hprint hprint', ?_⟩
    rw [floats_ofChain, Token.words_append]
    refine (hp.followed hp' hhead (by decide) (List.Subset.refl _)).imp ?_
    rintro _ ⟨us, vs, rfl, hus, hvs⟩
    exact .steps hus hvs

theorem TokenGrammar.Steps.prints : ∀ {us : List Token} {steps : List (ChainOp × Expr)},
    Steps us steps → PrintsMore ' ' behindOperand (stepFloats steps) (words us) (Steps · steps)
      (printSteps host steps)
  | _, _, .nil => printsMore_nil .nil
  | _, _, .cons (c := c) hc ha hb => by
    obtain ⟨a, hprint, hp⟩ := ha.prints
    obtain ⟨b, hprint', hhead, hp'⟩ := hb.prints
    have hop : c ∈ Token.marks ∧ Token.isPoint (.mark c) = false := by cases hc <;> decide
    have hstep := (hp.followed hp' hhead (by decide) (List.Subset.refl _)).space
    rw [← hop.2] at hstep
    refine ⟨' ' :: c :: ' ' :: (a ++ b), ?_, by simp, ?_⟩
    · cases hc <;> simp [printSteps, ha.isChain, hprint, hprint', ChainOp.text, bind, Except.bind,
        pure, Except.pure]
    · rw [Token.words_mark, Token.words_append]
      refine ((hstep.mark hop.1).space).imp ?_
      rintro _ ⟨_, rfl, us, vs, rfl, hus, hvs⟩
      exact .cons hc hus hvs

theorem TokenGrammar.Alternative.prints : ∀ {ts : List Token} {e : Expr}, Alternative ts e →
    Prints false behindOperand e.floats (words ts) (Alternative · e) (print host e)
  | _, _, .negation h => by
    obtain ⟨text, hprint, hp⟩ := h.prints
    refine ⟨'!' :: text, ?_, ?_⟩
    · simp [print, h.isChain, hprint, bind, Except.bind, pure, Except.pure]
    · refine (hp.mark (c := '!') (by decide)).imp ?_
      rintro _ ⟨us, rfl, h⟩
      exact .negation h
  | _, _, .string hd hc => by
    obtain ⟨text, hprint, hp⟩ := prints_quoted host hd hc false behindOperand
    refine ⟨text, hprint, ?_⟩
    rw [Token.words_quoted]
    refine hp.imp ?_
    rintro _ ⟨d', hd', hc', rfl⟩
    exact .string hd' hc'
  | _, _, .number h => prints_number host h
  | _, _, .term ha hb => by
    obtain ⟨a, hprint, hp⟩ := ha.prints
    obtain ⟨b, hprint', hhead, hp'⟩ := hb.prints
    have hsub : behindOperand ⊆ behindTerm := by decide
    refine ⟨_, print_ofDot host _ hprint hprint', ?_⟩
    rw [floats_ofDot, Token.words_append]
    refine (hp.followed (hp'.narrow hsub) hhead (by decide) hsub).imp ?_
    rintro _ ⟨us, vs, rfl, hus, hvs⟩
    exact .term hus hvs

theorem TokenGrammar.Term.prints : ∀ {ts : List Token} {e : Expr}, Term ts e →
    Prints false behindTerm e.floats (words ts) (Term · e) (print host e)
  | _, _, .group h => by
    have hp := prints_group host h.prints false behindTerm
    simp only [Token.words_mark, Token.words_append, Token.words_nil, Nat.add_zero]
    refine hp.imp ?_
    rintro _ ⟨us, rfl, hus⟩
    exact .group hus
  | _, _, .call hf h => by
    obtain ⟨text, hprint, hp⟩ := prints_called host hf h.prints behindTerm
    rw [floats_call]
    refine ⟨_, ?_, hp.imp ?_⟩
    · simp [print, print_named host hf, hprint, bind, Except.bind, pure, Except.pure]
    · rintro _ ⟨us, rfl, hus⟩
      exact .call hf hus
  | _, _, .name hf => by
    have hspells : Token.Spells false behindTerm _ (some [.name _]) :=
      Token.spells_name hf (by decide)
    rw [floats_named]
    exact prints_token (print_named host hf) hspells (.name hf)
  | _, _, .lookup h => by
    obtain ⟨text, hprint, hp⟩ := h.prints
    refine ⟨'$' :: text, ?_, ?_⟩
    · simp [print, h.literalValue?, bareName?, hprint, bind, Except.bind, pure, Except.pure]
    · refine (hp.mark (c := '$') (by decide)).imp ?_
      rintro _ ⟨us, rfl, hus⟩
      exact .lookup hus

theorem TokenGrammar.Selectors.prints : ∀ {us : List Token} {es : List Expr}, Selectors us es →
    PrintsMore '.' behindTerm (allFloats es) (words us) (Selectors · es) (printSelectors host es)
  | _, _, .nil => printsMore_nil .nil
  | _, _, .cons ha hb => by
    obtain ⟨a, hprint, hp⟩ := ha.prints
    obtain ⟨b, hprint', hhead, hp'⟩ := hb.prints
    have hrow := hp.followed hp' hhead (by decide) (List.Subset.refl _)
    refine ⟨'.' :: (a ++ b), ?_, by simp, ?_⟩
    · simp [printSelectors_cons, hprint, hprint', bind, Except.bind, pure, Except.pure]
    · rw [Token.words_mark, Token.words_append]
      refine (hrow.mark (c := '.') (by decide)).imp ?_
      rintro _ ⟨_, rfl, us, vs, rfl, hus, hvs⟩
      exact .cons hus hvs

theorem TokenGrammar.Selector.prints : ∀ {ts : List Token} {e : Expr}, Selector ts e →
    Prints true behindTerm e.floats (words ts) (Selector · e) (printSelector host e)
  | _, _, .group h => by
    have hp := prints_group host h.prints true behindTerm
    simp only [Token.words_mark, Token.words_append, Token.words_nil, Nat.add_zero]
    refine hp.imp ?_
    rintro _ ⟨us, rfl, hus⟩
    exact .group hus
  | _, _, .method hf h => by
    obtain ⟨text, hprint, hp⟩ := prints_called host hf h.prints behindTerm
    refine ⟨_, ?_, hp.imp ?_⟩
    · simp [printSelector, literalValue?, bareSelector?, bareName?, print, Value.text, hprint,
        bind, Except.bind, pure, Except.pure]
    · rintro _ ⟨us, rfl, hus⟩
      exact .method hf hus
  | _, _, .key hf => prints_key host hf
  | _, _, @TokenGrammar.Selector.string _ cs hd hc => by
    -- an identifier loses its delimiters
    by_cases hf : Grammar.Name cs
    · exact prints_key host hf
    · have hp := prints_quoted host hd hc true behindTerm
      rw [← printSelector_quoted host hf] at hp
      rw [Token.words_quoted]
      refine hp.imp ?_
      rintro _ ⟨d', hd', hc', rfl⟩
      exact .string hd' hc'
  | _, _, .integer h => prints_index host h
  | _, _, .subscript h => by
    -- a subscript comes back as a group
    obtain ⟨text, hprint, hp⟩ := h.prints
    have hchain := (hp.narrow (by decide : behindOperand ⊆ behindTerm)).imp
      fun _ hts => TokenGrammar.Term.chain hts
    refine (prints_group host ⟨text, hprint, hchain⟩ true behindTerm).imp ?_
    rintro _ ⟨us, rfl, hus⟩
    exact .group hus

theorem TokenGrammar.Arguments.prints : ∀ {ts : List Token} {es : List Expr}, Arguments ts es →
    Prints false [')'] (allFloats es) (words ts) (Arguments · es) (printArguments host es)
  | _, _, .none => ⟨[], rfl, (Token.printing_nil _).imp fun _ h => h ▸ .none⟩
  | _, _, .some ha hb => by
    obtain ⟨a, hprint, hp⟩ := ha.prints
    obtain ⟨b, hprint', hhead, hp'⟩ := hb.prints
    refine ⟨a ++ b, ?_, ?_⟩
    · simp [printArguments, hprint, hprint', bind, Except.bind, pure, Except.pure]
    · rw [Token.words_append]
      refine (hp.followed hp' hhead (by decide) (by decide)).imp ?_
      rintro _ ⟨us, vs, rfl, hus, hvs⟩
      exact .some hus hvs

theorem TokenGrammar.MoreArguments.prints : ∀ {us : List Token} {es : List Expr},
    MoreArguments us es → PrintsMore ',' [')'] (allFloats es) (words us) (MoreArguments · es)
      (printMoreArguments host es)
  | _, _, .nil => printsMore_nil .nil
  | _, _, .cons ha hb => by
    obtain ⟨a, hprint, hp⟩ := ha.prints
    obtain ⟨b, hprint', hhead, hp'⟩ := hb.prints
    have hrow := (hp.followed hp' hhead (by decide) (by decide)).space
    refine ⟨',' :: ' ' :: (a ++ b), ?_, by simp, ?_⟩
    · simp [printMoreArguments, hprint, hprint', bind, Except.bind, pure, Except.pure]
    · rw [Token.words_mark, Token.words_append]
      refine (hrow.mark (c := ',') (by decide)).imp ?_
      rintro _ ⟨_, rfl, us, vs, rfl, hus, hvs⟩
      exact .cons hus hvs

end

end

end TreeTemplate.Expr

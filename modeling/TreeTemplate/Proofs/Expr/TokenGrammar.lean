import TreeTemplate.Proofs.Expr.Scanner

/-! # The grammar over tokens

The rules of `Grammar` once more, over tokens in place of characters, so that white
space plays no part.  Over tokens the first one of each part tells which part it is, and
the descent of the parser is exactly this grammar: `Chain.parse` says that it reads every
derivable row, and `chain_of_parse` that it reads nothing else.
-/
namespace TreeTemplate.Expr.TokenGrammar
open Grammar (Name Integer Number Operator)
open Token (Lexical)

/-! ## Rules -/

mutual

/-- A chain of alternatives. -/
inductive Chain : List Token → Expr → Prop
  | steps {ts us : List Token} {e : Expr} {steps : List (ChainOp × Expr)}
      (ha : Alternative ts e) (hb : Steps us steps) : Chain (ts ++ us) (ofChain e steps)

/-- The steps of a chain. -/
inductive Steps : List Token → List (ChainOp × Expr) → Prop
  | nil : Steps [] []
  | cons {c : Char} {op : ChainOp} {ts us : List Token} {e : Expr}
      {steps : List (ChainOp × Expr)} (hc : Operator c op) (ha : Alternative ts e)
      (hb : Steps us steps) : Steps (.mark c :: (ts ++ us)) ((op, e) :: steps)

/-- One operand of a chain. -/
inductive Alternative : List Token → Expr → Prop
  | negation {ts : List Token} {e : Expr} (h : Alternative ts e) :
      Alternative (.mark '!' :: ts) (.not e)
  | string {d : Char} {cs : List Char} (hd : d ∈ Token.delimiters) (hc : d ∉ cs) :
      Alternative [.quoted d cs] (ofQuoted cs)
  | number {cs : List Char} {v : Value} (h : Number cs v) :
      Alternative [.number cs] (.literal v)
  | term {ts us : List Token} {base : Expr} {selectors : List Expr} (ha : Term ts base)
      (hb : Selectors us selectors) : Alternative (ts ++ us) (ofDot base selectors)

/-- What may stand before the first point. -/
inductive Term : List Token → Expr → Prop
  | group {ts : List Token} {e : Expr} (h : Chain ts e) :
      Term (.mark '(' :: (ts ++ [.mark ')'])) (.group e)
  | call {f : List Char} {ts : List Token} {args : List Expr} (hf : Name f)
      (h : Arguments ts args) :
      Term (.name f :: .mark '(' :: (ts ++ [.mark ')'])) (.call (.named f) args)
  | name {f : List Char} (hf : Name f) : Term [.name f] (.named f)
  | lookup {ts : List Token} {e : Expr} (h : Term ts e) : Term (.mark '$' :: ts) (.lookup e)

/-- Selectors, each after its point. -/
inductive Selectors : List Token → List Expr → Prop
  | nil : Selectors [] []
  | cons {ts us : List Token} {e : Expr} {es : List Expr} (ha : Selector ts e)
      (hb : Selectors us es) : Selectors (.mark '.' :: (ts ++ us)) (e :: es)

/-- What may stand after a point. -/
inductive Selector : List Token → Expr → Prop
  | group {ts : List Token} {e : Expr} (h : Chain ts e) :
      Selector (.mark '(' :: (ts ++ [.mark ')'])) (.group e)
  | method {f : List Char} {ts : List Token} {args : List Expr} (hf : Name f)
      (h : Arguments ts args) :
      Selector (.name f :: .mark '(' :: (ts ++ [.mark ')']))
        (.method (.str (String.ofList f)) args)
  | key {f : List Char} (hf : Name f) : Selector [.name f] (ofQuoted f)
  | string {d : Char} {cs : List Char} (hd : d ∈ Token.delimiters) (hc : d ∉ cs) :
      Selector [.quoted d cs] (ofQuoted cs)
  | integer {cs : List Char} {v : Value} (h : Integer cs v) : Selector [.number cs] (.literal v)
  | subscript {ts : List Token} {e : Expr} (h : Term ts e) :
      Selector (.mark '$' :: ts) (.group e)

/-- The arguments of a call. -/
inductive Arguments : List Token → List Expr → Prop
  | none : Arguments [] []
  | some {ts us : List Token} {e : Expr} {es : List Expr} (ha : Chain ts e)
      (hb : MoreArguments us es) : Arguments (ts ++ us) (e :: es)

/-- The arguments of a call after one of them. -/
inductive MoreArguments : List Token → List Expr → Prop
  | nil : MoreArguments [] []
  | cons {ts us : List Token} {e : Expr} {es : List Expr} (ha : Chain ts e)
      (hb : MoreArguments us es) : MoreArguments (.mark ',' :: (ts ++ us)) (e :: es)

end

theorem Steps.append : ∀ {us vs : List Token} {before after : List (ChainOp × Expr)},
    Steps us before → Steps vs after → Steps (us ++ vs) (before ++ after)
  | _, _, _, _, .nil, h => h
  | _, _, _, _, .cons hc ha hb, h => by
    rw [List.cons_append, List.append_assoc]
    exact .cons hc ha (hb.append h)

theorem Selectors.append : ∀ {us vs : List Token} {before after : List Expr},
    Selectors us before → Selectors vs after → Selectors (us ++ vs) (before ++ after)
  | _, _, _, _, .nil, h => h
  | _, _, _, _, .cons ha hb, h => by
    rw [List.cons_append, List.append_assoc]
    exact .cons ha (hb.append h)

/-- A term is an alternative by itself. -/
theorem Term.alternative {ts : List Token} {e : Expr} (h : Term ts e) : Alternative ts e := by
  have h := Alternative.term h .nil
  rwa [List.append_nil] at h

/-- An alternative is a chain by itself. -/
theorem Alternative.chain {ts : List Token} {e : Expr} (h : Alternative ts e) : Chain ts e := by
  have h := Chain.steps h .nil
  rwa [List.append_nil] at h

theorem Term.chain {ts : List Token} {e : Expr} (h : Term ts e) : Chain ts e := h.alternative.chain

/-! ## What may follow -/

/-- A row of tokens that goes on with none of the given marks. -/
def Avoids (marks : List Char) (ts : List Token) : Prop :=
  ∀ c ∈ marks, ts.head? ≠ some (.mark c)

/-- The marks at which a term goes on. -/
def afterTerm : List Char := ['(']

/-- The marks at which an alternative goes on. -/
def afterAlternative : List Char := ['.', '(']

/-- The marks at which a chain goes on. -/
def afterChain : List Char := ['?', ':', '.', '(']

theorem Avoids.mono {few many : List Char} {ts : List Token} (h : Avoids many ts)
    (hsub : few ⊆ many) : Avoids few ts := fun c hc => h c (hsub hc)

theorem avoids_nil (marks : List Char) : Avoids marks [] := by simp [Avoids]

theorem avoids_mark {marks : List Char} {c : Char} {ts : List Token} (hc : c ∉ marks) :
    Avoids marks (.mark c :: ts) := by
  intro d hd
  simp only [List.head?_cons, ne_eq, Option.some.injEq, Token.mark.injEq]
  rintro rfl
  exact hc hd

theorem Selectors.avoids {us rest : List Token} {es : List Expr} (h : Selectors us es)
    (hr : Avoids afterTerm rest) : Avoids afterTerm (us ++ rest) := by
  cases h with
  | nil => exact hr
  | cons => exact avoids_mark (by decide)

theorem Steps.avoids {us rest : List Token} {steps : List (ChainOp × Expr)}
    (h : Steps us steps) (hr : Avoids afterAlternative rest) :
    Avoids afterAlternative (us ++ rest) := by
  cases h with
  | nil => exact hr
  | cons hc =>
    cases hc with
    | whenTrue | whenFalse => exact avoids_mark (by decide)

theorem MoreArguments.avoids {us : List Token} {es : List Expr} (h : MoreArguments us es)
    (rest : List Token) : Avoids afterChain (us ++ .mark ')' :: rest) := by
  cases h with
  | nil => exact avoids_mark (by decide)
  | cons => exact avoids_mark (by decide)

/-! ## How a part begins -/

/-- A row that begins like a term. -/
inductive TermStart : List Token → Prop
  | group (ts : List Token) : TermStart (.mark '(' :: ts)
  | lookup (ts : List Token) : TermStart (.mark '$' :: ts)
  | name (f : List Char) (ts : List Token) : TermStart (.name f :: ts)

theorem Term.start {ts : List Token} {e : Expr} (h : Term ts e) (rest : List Token) :
    TermStart (ts ++ rest) := by
  cases h with
  | group => exact .group _
  | call => exact .name _ _
  | name => exact .name _ _
  | lookup => exact .lookup _

/-- An operand never begins with a closing parenthesis. -/
theorem Alternative.head_ne {ts : List Token} {e : Expr} (h : Alternative ts e) :
    ∃ t us, ts = t :: us ∧ t ≠ .mark ')' := by
  cases h with
  | negation | string | number => exact ⟨_, _, rfl, by simp⟩
  | term ha _ =>
    cases ha with
    | group | call | name | lookup => exact ⟨_, _, rfl, by simp⟩

theorem Alternative.length_pos {ts : List Token} {e : Expr} (h : Alternative ts e) :
    0 < ts.length := by
  obtain ⟨t, us, rfl, -⟩ := h.head_ne
  exact Nat.succ_pos _

theorem Chain.head_ne {ts : List Token} {e : Expr} (h : Chain ts e) :
    ∃ t us, ts = t :: us ∧ t ≠ .mark ')' := by
  cases h with
  | steps ha _ =>
    obtain ⟨t, us, rfl, ht⟩ := ha.head_ne
    exact ⟨t, _, rfl, ht⟩

/-! ## The parser reads every derivable row -/

theorem parseAlternative_term {n : Nat} {ts us rest : List Token} {base : Expr}
    {selectors : List Expr} (h : TermStart ts) (hbase : parseTerm n ts = some (base, us))
    (hsel : parseSelectors n us = some (selectors, rest)) :
    parseAlternative (n + 1) ts = some (ofDot base selectors, rest) := by
  cases h <;> (rw [parseAlternative.eq_def]; split <;> simp_all)

theorem parseSteps_end {n : Nat} {ts : List Token} (h : Avoids afterChain ts) :
    parseSteps (n + 1) ts = some ([], ts) := by
  rw [parseSteps.eq_def]
  split
  · contradiction
  · exact absurd rfl (h '?' (by decide))
  · exact absurd rfl (h ':' (by decide))
  · rfl

theorem parseSelectors_end {n : Nat} {ts : List Token} (h : Avoids afterAlternative ts) :
    parseSelectors (n + 1) ts = some ([], ts) := by
  rw [parseSelectors.eq_def]
  split
  · contradiction
  · exact absurd rfl (h '.' (by decide))
  · rfl

theorem parseTerm_name {n : Nat} {f : List Char} {ts : List Token} (h : Avoids afterTerm ts) :
    parseTerm (n + 1) (.name f :: ts) = some (.named f, ts) := by
  cases ts with
  | nil => rfl
  | cons t ts =>
    rw [parseTerm.eq_def]
    split <;> simp_all [Avoids, afterTerm]

theorem parseSelector_name {n : Nat} {f : List Char} {ts : List Token}
    (h : Avoids afterTerm ts) :
    parseSelector (n + 1) (.name f :: ts) = some (ofQuoted f, ts) := by
  cases ts with
  | nil => rfl
  | cons t ts =>
    rw [parseSelector.eq_def]
    split <;> simp_all [Avoids, afterTerm]

theorem parseArguments_some {n : Nat} {t : Token} {ts us rest : List Token} {e : Expr}
    {es : List Expr} (ht : t ≠ .mark ')') (he : parseChain n (t :: ts) = some (e, us))
    (hes : parseMoreArguments n us = some (es, rest)) :
    parseArguments (n + 1) (t :: ts) = some (e :: es, rest) := by
  rw [parseArguments.eq_def]
  split
  · contradiction
  · simp_all
  · rename_i heq _
    cases heq
    simp only [he, hes]

theorem parseGroup_close {n : Nat} {ts rest : List Token} {e : Expr}
    (h : parseChain n ts = some (e, .mark ')' :: rest)) :
    parseGroup (n + 1) ts = some (.group e, rest) := by
  simp only [parseGroup, h]

-- By induction on the derivation.  The descent goes through at most four rules before it takes a
-- token, so four steps a token are enough; what is added is the height of the rule.
mutual

theorem Chain.parse : ∀ {ts : List Token} {e : Expr}, Chain ts e → ∀ {n : Nat} {rest : List Token},
    4 * ts.length + 3 ≤ n → Avoids afterChain rest → parseChain n (ts ++ rest) = some (e, rest)
  | _, _, .steps ha hb, n, rest, hn, hr => by
    obtain ⟨m, rfl⟩ : ∃ m, n = m + 1 := ⟨n - 1, by omega⟩
    have hpos := ha.length_pos
    simp only [List.length_append] at hn
    have hrest : Avoids afterAlternative rest := hr.mono (by decide)
    have h1 := ha.parse (n := m) (by omega) (hb.avoids hrest)
    have h2 := hb.parse (n := m) (by omega) hr
    rw [List.append_assoc]
    simp only [parseChain, h1, h2]

theorem Steps.parse : ∀ {us : List Token} {steps : List (ChainOp × Expr)}, Steps us steps →
    ∀ {n : Nat} {rest : List Token}, 4 * us.length + 1 ≤ n → Avoids afterChain rest →
      parseSteps n (us ++ rest) = some (steps, rest)
  | _, _, .nil, n, rest, hn, hr => by
    obtain ⟨m, rfl⟩ : ∃ m, n = m + 1 := ⟨n - 1, by omega⟩
    exact parseSteps_end hr
  | _, _, .cons hc ha hb, n, rest, hn, hr => by
    simp only [List.length_append, List.length_cons] at hn
    obtain ⟨m, rfl⟩ : ∃ m, n = m + 2 := ⟨n - 2, by omega⟩
    have hrest : Avoids afterAlternative rest := hr.mono (by decide)
    have h1 := ha.parse (n := m) (by omega) (hb.avoids hrest)
    have h2 := hb.parse (n := m) (by omega) hr
    rw [List.cons_append, List.append_assoc]
    cases hc with
    | whenTrue | whenFalse => simp only [parseSteps, parseStep, h1, h2]

theorem Alternative.parse : ∀ {ts : List Token} {e : Expr}, Alternative ts e →
    ∀ {n : Nat} {rest : List Token}, 4 * ts.length + 2 ≤ n → Avoids afterAlternative rest →
      parseAlternative n (ts ++ rest) = some (e, rest)
  | _, _, .negation h, n, rest, hn, hr => by
    obtain ⟨m, rfl⟩ : ∃ m, n = m + 1 := ⟨n - 1, by omega⟩
    simp only [List.length_cons] at hn
    have h1 := h.parse (n := m) (by omega) hr
    simp only [List.cons_append, parseAlternative, h1]
  | _, _, .string _ _, n, rest, hn, _ => by
    obtain ⟨m, rfl⟩ : ∃ m, n = m + 1 := ⟨n - 1, by omega⟩
    rfl
  | _, _, .number h, n, rest, hn, _ => by
    obtain ⟨m, rfl⟩ : ∃ m, n = m + 1 := ⟨n - 1, by omega⟩
    rw [← Grammar.numberValue_of_number h]
    rfl
  | _, _, .term ha hb, n, rest, hn, hr => by
    obtain ⟨m, rfl⟩ : ∃ m, n = m + 1 := ⟨n - 1, by omega⟩
    simp only [List.length_append] at hn
    have hrest : Avoids afterTerm rest := hr.mono (by decide)
    have h1 := ha.parse (n := m) (by omega) (hb.avoids hrest)
    have h2 := hb.parse (n := m) (by omega) hr
    rw [List.append_assoc]
    exact parseAlternative_term (ha.start _) h1 h2

theorem Term.parse : ∀ {ts : List Token} {e : Expr}, Term ts e →
    ∀ {n : Nat} {rest : List Token}, 4 * ts.length + 1 ≤ n → Avoids afterTerm rest →
      parseTerm n (ts ++ rest) = some (e, rest)
  | _, _, .group h, n, rest, hn, _ => by
    simp only [List.length_append, List.length_cons] at hn
    obtain ⟨m, rfl⟩ : ∃ m, n = m + 2 := ⟨n - 2, by omega⟩
    have hclose : Avoids afterChain (.mark ')' :: rest) := avoids_mark (by decide)
    have h1 := h.parse (n := m) (by omega) hclose
    simp only [List.cons_append, List.append_assoc, List.nil_append, parseTerm]
    exact parseGroup_close h1
  | _, _, .call _ h, n, rest, hn, _ => by
    obtain ⟨m, rfl⟩ : ∃ m, n = m + 1 := ⟨n - 1, by omega⟩
    simp only [List.length_append, List.length_cons] at hn
    have h1 := h.parse rest (n := m) (by omega)
    simp only [List.cons_append, List.append_assoc, List.nil_append, parseTerm, h1]
  | _, _, .name _, n, rest, hn, hr => by
    obtain ⟨m, rfl⟩ : ∃ m, n = m + 1 := ⟨n - 1, by omega⟩
    exact parseTerm_name hr
  | _, _, .lookup h, n, rest, hn, hr => by
    obtain ⟨m, rfl⟩ : ∃ m, n = m + 1 := ⟨n - 1, by omega⟩
    simp only [List.length_cons] at hn
    have h1 := h.parse (n := m) (by omega) hr
    simp only [List.cons_append, parseTerm, h1]

theorem Selectors.parse : ∀ {us : List Token} {es : List Expr}, Selectors us es →
    ∀ {n : Nat} {rest : List Token}, 4 * us.length + 1 ≤ n → Avoids afterAlternative rest →
      parseSelectors n (us ++ rest) = some (es, rest)
  | _, _, .nil, n, rest, hn, hr => by
    obtain ⟨m, rfl⟩ : ∃ m, n = m + 1 := ⟨n - 1, by omega⟩
    exact parseSelectors_end hr
  | _, _, .cons ha hb, n, rest, hn, hr => by
    obtain ⟨m, rfl⟩ : ∃ m, n = m + 1 := ⟨n - 1, by omega⟩
    simp only [List.length_append, List.length_cons] at hn
    have hrest : Avoids afterTerm rest := hr.mono (by decide)
    have h1 := ha.parse (n := m) (by omega) (hb.avoids hrest)
    have h2 := hb.parse (n := m) (by omega) hr
    rw [List.cons_append, List.append_assoc]
    simp only [parseSelectors, h1, h2]

theorem Selector.parse : ∀ {ts : List Token} {e : Expr}, Selector ts e →
    ∀ {n : Nat} {rest : List Token}, 4 * ts.length + 1 ≤ n → Avoids afterTerm rest →
      parseSelector n (ts ++ rest) = some (e, rest)
  | _, _, .group h, n, rest, hn, _ => by
    simp only [List.length_append, List.length_cons] at hn
    obtain ⟨m, rfl⟩ : ∃ m, n = m + 2 := ⟨n - 2, by omega⟩
    have hclose : Avoids afterChain (.mark ')' :: rest) := avoids_mark (by decide)
    have h1 := h.parse (n := m) (by omega) hclose
    simp only [List.cons_append, List.append_assoc, List.nil_append, parseSelector]
    exact parseGroup_close h1
  | _, _, .method _ h, n, rest, hn, _ => by
    obtain ⟨m, rfl⟩ : ∃ m, n = m + 1 := ⟨n - 1, by omega⟩
    simp only [List.length_append, List.length_cons] at hn
    have h1 := h.parse rest (n := m) (by omega)
    simp only [List.cons_append, List.append_assoc, List.nil_append, parseSelector, h1]
  | _, _, .key _, n, rest, hn, hr => by
    obtain ⟨m, rfl⟩ : ∃ m, n = m + 1 := ⟨n - 1, by omega⟩
    exact parseSelector_name hr
  | _, _, .string _ _, n, rest, hn, _ => by
    obtain ⟨m, rfl⟩ : ∃ m, n = m + 1 := ⟨n - 1, by omega⟩
    rfl
  | _, _, .integer h, n, rest, hn, _ => by
    obtain ⟨m, rfl⟩ : ∃ m, n = m + 1 := ⟨n - 1, by omega⟩
    rw [← Grammar.numberValue_of_integer h]
    rfl
  | _, _, .subscript h, n, rest, hn, hr => by
    obtain ⟨m, rfl⟩ : ∃ m, n = m + 1 := ⟨n - 1, by omega⟩
    simp only [List.length_cons] at hn
    have h1 := h.parse (n := m) (by omega) hr
    simp only [List.cons_append, parseSelector, h1]

theorem Arguments.parse : ∀ {ts : List Token} {es : List Expr}, Arguments ts es →
    ∀ (rest : List Token) {n : Nat}, 4 * ts.length + 4 ≤ n →
      parseArguments n (ts ++ .mark ')' :: rest) = some (es, rest)
  | _, _, .none, rest, n, hn => by
    obtain ⟨m, rfl⟩ : ∃ m, n = m + 1 := ⟨n - 1, by omega⟩
    rfl
  | _, _, .some ha hb, rest, n, hn => by
    obtain ⟨m, rfl⟩ : ∃ m, n = m + 1 := ⟨n - 1, by omega⟩
    simp only [List.length_append] at hn
    have h1 := ha.parse (n := m) (by omega) (hb.avoids rest)
    have h2 := hb.parse rest (n := m) (by omega)
    obtain ⟨t, ts', rfl, ht⟩ := ha.head_ne
    rw [List.append_assoc]
    exact parseArguments_some ht h1 h2

theorem MoreArguments.parse : ∀ {us : List Token} {es : List Expr}, MoreArguments us es →
    ∀ (rest : List Token) {n : Nat}, 4 * us.length + 1 ≤ n →
      parseMoreArguments n (us ++ .mark ')' :: rest) = some (es, rest)
  | _, _, .nil, rest, n, hn => by
    obtain ⟨m, rfl⟩ : ∃ m, n = m + 1 := ⟨n - 1, by omega⟩
    rfl
  | _, _, .cons ha hb, rest, n, hn => by
    obtain ⟨m, rfl⟩ : ∃ m, n = m + 1 := ⟨n - 1, by omega⟩
    simp only [List.length_append, List.length_cons] at hn
    have h1 := ha.parse (n := m) (by omega) (hb.avoids rest)
    have h2 := hb.parse rest (n := m) (by omega)
    rw [List.cons_append, List.append_assoc]
    simp only [parseMoreArguments, h1, h2]

end

/-! ## The parser reads nothing else -/

/-- A part that was read: the tokens that it took and a derivation for them. -/
def Reads {α : Type} (R : List Token → α → Prop) (ts : List Token) (a : α)
    (rest : List Token) : Prop :=
  ∃ us, ts = us ++ rest ∧ R us a ∧ Lexical false rest

-- By the recursion of the descent: whatever a rule of the parser reads is a rule of the grammar.
mutual

theorem reads_chain : ∀ {n : Nat} {ts rest : List Token} {e : Expr}, Lexical false ts →
    parseChain n ts = some (e, rest) → Reads Chain ts e rest
  | 0, _, _, _, _, h => by simp [parseChain] at h
  | n + 1, ts, rest, e, hl, h => by
    simp only [parseChain] at h
    split at h
    · contradiction
    rename_i first us h1
    split at h
    · contradiction
    rename_i steps vs h2
    obtain ⟨as, rfl, ha, hl⟩ := reads_alternative hl h1
    obtain ⟨bs, rfl, hb, hl⟩ := reads_steps hl h2
    cases h
    exact ⟨as ++ bs, by simp, .steps ha hb, hl⟩

theorem reads_steps : ∀ {n : Nat} {ts rest : List Token} {steps : List (ChainOp × Expr)},
    Lexical false ts → parseSteps n ts = some (steps, rest) → Reads Steps ts steps rest
  | 0, _, _, _, _, h => by simp [parseSteps] at h
  | n + 1, ts, rest, steps, hl, h => by
    rw [parseSteps.eq_def] at h
    split at h
    · contradiction
    · rename_i heq
      cases heq
      exact reads_step .whenTrue hl.2 h
    · rename_i heq
      cases heq
      exact reads_step .whenFalse hl.2 h
    · cases h
      exact ⟨[], rfl, .nil, hl⟩

theorem reads_step : ∀ {n : Nat} {ts rest : List Token} {c : Char} {op : ChainOp}
    {steps : List (ChainOp × Expr)}, Operator c op → Lexical false ts →
    parseStep n op ts = some (steps, rest) → Reads Steps (.mark c :: ts) steps rest
  | 0, _, _, _, _, _, _, _, h => by simp [parseStep] at h
  | n + 1, ts, rest, c, op, steps, hc, hl, h => by
    simp only [parseStep] at h
    split at h
    · contradiction
    rename_i operand us h1
    split at h
    · contradiction
    rename_i more vs h2
    obtain ⟨as, rfl, ha, hl⟩ := reads_alternative hl h1
    obtain ⟨bs, rfl, hb, hl⟩ := reads_steps hl h2
    cases h
    exact ⟨.mark c :: (as ++ bs), by simp, .cons hc ha hb, hl⟩

theorem reads_alternative : ∀ {n : Nat} {ts rest : List Token} {e : Expr}, Lexical false ts →
    parseAlternative n ts = some (e, rest) → Reads Alternative ts e rest
  | 0, _, _, _, _, h => by simp [parseAlternative] at h
  | n + 1, ts, rest, e, hl, h => by
    rw [parseAlternative.eq_def] at h
    split at h
    · contradiction
    · rename_i heq
      cases heq
      split at h
      · contradiction
      rename_i operand us h1
      obtain ⟨as, rfl, ha, hl⟩ := reads_alternative hl.2 h1
      cases h
      exact ⟨.mark '!' :: as, rfl, .negation ha, hl⟩
    · rename_i d cs _ _
      cases h
      exact ⟨[.quoted d cs], rfl, .string hl.1.1 hl.1.2, hl.2⟩
    · rename_i cs _ _
      cases h
      obtain ⟨v, hv, -⟩ := hl.1
      rw [Grammar.numberValue_of_number hv]
      exact ⟨[.number cs], rfl, .number hv, hl.2⟩
    · rename_i heq _ _ _
      cases heq
      split at h
      · contradiction
      rename_i base us h1
      split at h
      · contradiction
      rename_i selectors vs h2
      obtain ⟨as, rfl, ha, hl⟩ := reads_term hl h1
      obtain ⟨bs, rfl, hb, hl⟩ := reads_selectors hl h2
      cases h
      exact ⟨as ++ bs, by simp, .term ha hb, hl⟩

theorem reads_term : ∀ {n : Nat} {ts rest : List Token} {e : Expr}, Lexical false ts →
    parseTerm n ts = some (e, rest) → Reads Term ts e rest
  | 0, _, _, _, _, h => by simp [parseTerm] at h
  | n + 1, ts, rest, e, hl, h => by
    rw [parseTerm.eq_def] at h
    split at h
    · contradiction
    · rename_i heq
      cases heq
      obtain ⟨as, e, rfl, rfl, ha, hl⟩ := reads_group hl.2 h
      exact ⟨.mark '(' :: (as ++ [.mark ')']), by simp, .group ha, hl⟩
    · rename_i heq
      cases heq
      split at h
      · contradiction
      rename_i name us h1
      obtain ⟨as, rfl, ha, hl⟩ := reads_term hl.2 h1
      cases h
      exact ⟨.mark '$' :: as, rfl, .lookup ha, hl⟩
    · rename_i f us heq
      cases heq
      split at h
      · contradiction
      rename_i args vs h1
      obtain ⟨as, rfl, ha, hl'⟩ := reads_arguments hl.2.2 h1
      cases h
      exact ⟨.name f :: .mark '(' :: (as ++ [.mark ')']), by simp, .call hl.1 ha, hl'⟩
    · rename_i f us _ _
      cases h
      exact ⟨[.name f], rfl, .name hl.1, hl.2⟩
    · contradiction

theorem reads_group : ∀ {n : Nat} {ts rest : List Token} {e : Expr}, Lexical false ts →
    parseGroup n ts = some (e, rest) →
    ∃ us inner, ts = us ++ .mark ')' :: rest ∧ e = .group inner ∧ Chain us inner ∧
      Lexical false rest
  | 0, _, _, _, _, h => by simp [parseGroup] at h
  | n + 1, ts, rest, e, hl, h => by
    simp only [parseGroup] at h
    split at h
    · rename_i inner us h1
      obtain ⟨as, rfl, ha, hl⟩ := reads_chain hl h1
      cases h
      exact ⟨as, inner, rfl, rfl, ha, hl.2⟩
    · contradiction

theorem reads_selectors : ∀ {n : Nat} {ts rest : List Token} {es : List Expr},
    Lexical false ts → parseSelectors n ts = some (es, rest) → Reads Selectors ts es rest
  | 0, _, _, _, _, h => by simp [parseSelectors] at h
  | n + 1, ts, rest, es, hl, h => by
    rw [parseSelectors.eq_def] at h
    split at h
    · contradiction
    · rename_i heq
      cases heq
      split at h
      · contradiction
      rename_i selector us h1
      split at h
      · contradiction
      rename_i more vs h2
      obtain ⟨as, rfl, ha, hl⟩ := reads_selector hl.2 h1
      obtain ⟨bs, rfl, hb, hl⟩ := reads_selectors hl h2
      cases h
      exact ⟨.mark '.' :: (as ++ bs), by simp, .cons ha hb, hl⟩
    · cases h
      exact ⟨[], rfl, .nil, hl⟩

theorem reads_selector : ∀ {n : Nat} {ts rest : List Token} {e : Expr}, Lexical true ts →
    parseSelector n ts = some (e, rest) → Reads Selector ts e rest
  | 0, _, _, _, _, h => by simp [parseSelector] at h
  | n + 1, ts, rest, e, hl, h => by
    rw [parseSelector.eq_def] at h
    split at h
    · contradiction
    · rename_i heq
      cases heq
      obtain ⟨as, e, rfl, rfl, ha, hl⟩ := reads_group hl.2 h
      exact ⟨.mark '(' :: (as ++ [.mark ')']), by simp, .group ha, hl⟩
    · rename_i heq
      cases heq
      split at h
      · contradiction
      rename_i inner us h1
      obtain ⟨as, rfl, ha, hl⟩ := reads_term hl.2 h1
      cases h
      exact ⟨.mark '$' :: as, rfl, .subscript ha, hl⟩
    · rename_i f us heq
      cases heq
      split at h
      · contradiction
      rename_i args vs h1
      obtain ⟨as, rfl, ha, hl'⟩ := reads_arguments hl.2.2 h1
      cases h
      exact ⟨.name f :: .mark '(' :: (as ++ [.mark ')']), by simp, .method hl.1 ha, hl'⟩
    · rename_i f us _ _
      cases h
      exact ⟨[.name f], rfl, .key hl.1, hl.2⟩
    · rename_i d cs _ _
      cases h
      exact ⟨[.quoted d cs], rfl, .string hl.1.1 hl.1.2, hl.2⟩
    · rename_i cs _ _
      cases h
      obtain ⟨v, -, hv⟩ := hl.1
      rw [Grammar.numberValue_of_integer (hv rfl)]
      exact ⟨[.number cs], rfl, .integer (hv rfl), hl.2⟩
    · contradiction

theorem reads_arguments : ∀ {n : Nat} {ts rest : List Token} {es : List Expr},
    Lexical false ts → parseArguments n ts = some (es, rest) →
    ∃ us, ts = us ++ .mark ')' :: rest ∧ Arguments us es ∧ Lexical false rest
  | 0, _, _, _, _, h => by simp [parseArguments] at h
  | n + 1, ts, rest, es, hl, h => by
    rw [parseArguments.eq_def] at h
    split at h
    · contradiction
    · cases h
      exact ⟨[], rfl, .none, hl.2⟩
    · rename_i heq _
      cases heq
      split at h
      · contradiction
      rename_i first us h1
      split at h
      · contradiction
      rename_i more vs h2
      obtain ⟨as, rfl, ha, hl⟩ := reads_chain hl h1
      obtain ⟨bs, rfl, hb, hl⟩ := reads_moreArguments hl h2
      cases h
      exact ⟨as ++ bs, by simp, .some ha hb, hl⟩

theorem reads_moreArguments : ∀ {n : Nat} {ts rest : List Token} {es : List Expr},
    Lexical false ts → parseMoreArguments n ts = some (es, rest) →
    ∃ us, ts = us ++ .mark ')' :: rest ∧ MoreArguments us es ∧ Lexical false rest
  | 0, _, _, _, _, h => by simp [parseMoreArguments] at h
  | n + 1, ts, rest, es, hl, h => by
    rw [parseMoreArguments.eq_def] at h
    split at h
    · contradiction
    · cases h
      exact ⟨[], rfl, .nil, hl.2⟩
    · rename_i heq
      cases heq
      split at h
      · contradiction
      rename_i next us h1
      split at h
      · contradiction
      rename_i more vs h2
      obtain ⟨as, rfl, ha, hl⟩ := reads_chain hl.2 h1
      obtain ⟨bs, rfl, hb, hl⟩ := reads_moreArguments hl h2
      cases h
      exact ⟨.mark ',' :: (as ++ bs), by simp, .cons ha hb, hl⟩
    · contradiction

end

/-- **The parser over tokens is the grammar over tokens.** -/
theorem ofTokens?_iff {ts : List Token} {e : Expr} (hl : Lexical false ts) :
    ofTokens? ts = some e ↔ Chain ts e := by
  constructor
  · intro h
    unfold ofTokens? at h
    split at h
    · rename_i h1
      obtain ⟨us, rfl, hc, -⟩ := reads_chain hl h1
      cases h
      simpa using hc
    · contradiction
  · intro h
    have hend : Avoids afterChain [] := avoids_nil _
    have h1 := h.parse (n := 4 * ts.length + 4) (by omega) hend
    rw [List.append_nil] at h1
    simp only [ofTokens?, h1]

end TreeTemplate.Expr.TokenGrammar

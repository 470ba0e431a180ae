import TreeTemplate.Expr.Eval
import TreeTemplate.Proofs.Expr.TokenGrammar

/-! # The parser is the grammar

The two grammars meet here.  A text is derivable exactly when it spells a derivable row
of tokens (`Grammar.Chain.tokens`, `chain_of_spaced`), and in a derivable row no token
runs into the next one (`TokenGrammar.Chain.row`), so the scanner finds the row again and
the descent reads it.
-/
namespace TreeTemplate.Expr
open Token (Spaced Row)

/-! ## No token of a derivable row runs into the next one -/

/-- A row that begins with a mark, if with anything. -/
def MarkNext (ts : List Token) : Prop := ∀ t ∈ ts.head?, ∃ c ∈ Token.marks, t = .mark c

/-- A row that begins with a mark other than a point, if with anything. -/
def NoPointNext (ts : List Token) : Prop :=
  ∀ t ∈ ts.head?, ∃ c ∈ Token.marks, t = .mark c ∧ c ≠ '.'

theorem NoPointNext.markNext {ts : List Token} (h : NoPointNext ts) : MarkNext ts := by
  intro t ht
  obtain ⟨c, hc, he, -⟩ := h t ht
  exact ⟨c, hc, he⟩

theorem noPointNext_mark {c : Char} {ts : List Token} (hc : c ∈ Token.marks) (hp : c ≠ '.') :
    NoPointNext (.mark c :: ts) := by
  intro t ht
  cases ht
  exact ⟨c, hc, rfl, hp⟩

namespace TokenGrammar

theorem Steps.noPointNext {us rest : List Token} {steps : List (ChainOp × Expr)}
    (h : Steps us steps) (hr : NoPointNext rest) : NoPointNext (us ++ rest) := by
  cases h with
  | nil => exact hr
  | cons hc =>
    cases hc with
    | whenTrue | whenFalse => exact noPointNext_mark (by decide) (by decide)

theorem Selectors.markNext {us rest : List Token} {es : List Expr} (h : Selectors us es)
    (hr : MarkNext rest) : MarkNext (us ++ rest) := by
  cases h with
  | nil => exact hr
  | cons =>
    intro t ht
    cases ht
    exact ⟨'.', by decide, rfl⟩

theorem MoreArguments.noPointNext {us rest : List Token} {es : List Expr}
    (h : MoreArguments us es) : NoPointNext (us ++ .mark ')' :: rest) := by
  cases h with
  | nil | cons => exact noPointNext_mark (by decide) (by decide)

theorem row_mark {i : Bool} {c : Char} {ts : List Token} (hc : c ∈ Token.marks)
    (hr : Row (Token.isPoint (.mark c)) ts) : Row i (.mark c :: ts) := ⟨hc, trivial, hr⟩

-- What the row goes on with is needed for its last token: a number must not meet a point.
mutual

theorem Chain.row : ∀ {ts : List Token} {e : Expr}, Chain ts e → ∀ {rest : List Token},
    NoPointNext rest → Row false rest → Row false (ts ++ rest)
  | _, _, .steps ha hb, _, hn, hr => by
    rw [List.append_assoc]
    exact ha.row (hb.noPointNext hn) (hb.row hn hr)

theorem Steps.row : ∀ {us : List Token} {steps : List (ChainOp × Expr)}, Steps us steps →
    ∀ {rest : List Token}, NoPointNext rest → Row false rest → Row false (us ++ rest)
  | _, _, .nil, _, _, hr => hr
  | _, _, .cons hc ha hb, _, hn, hr => by
    have h := ha.row (hb.noPointNext hn) (hb.row hn hr)
    rw [List.cons_append, List.append_assoc]
    cases hc with
    | whenTrue | whenFalse => exact row_mark (by decide) h

theorem Alternative.row : ∀ {ts : List Token} {e : Expr}, Alternative ts e →
    ∀ {rest : List Token}, NoPointNext rest → Row false rest → Row false (ts ++ rest)
  | _, _, .negation h, _, hn, hr => row_mark (by decide) (h.row hn hr)
  | _, _, .string hd hc, _, _, hr => ⟨⟨hd, hc⟩, trivial, hr⟩
  | _, _, .number h, _, hn, hr => by
    refine ⟨⟨_, h, by simp⟩, ?_, hr⟩
    intro t ht
    obtain ⟨c, hc, rfl, hp⟩ := hn t ht
    exact ⟨c, hc, rfl, fun _ => hp⟩
  | _, _, .term ha hb, _, hn, hr => by
    rw [List.append_assoc]
    exact ha.row (hb.markNext hn.markNext) (hb.row hn.markNext hr)

theorem Term.row : ∀ {ts : List Token} {e : Expr}, Term ts e → ∀ {rest : List Token},
    MarkNext rest → Row false rest → Row false (ts ++ rest)
  | _, _, .group h, _, _, hr => by
    have h := h.row (noPointNext_mark (by decide) (by decide)) (row_mark (c := ')') (by decide) hr)
    simpa using row_mark (i := false) (c := '(') (by decide) h
  | _, _, .call hf h, _, _, hr => by
    have h := row_mark (i := false) (c := '(') (by decide) (h.row hr)
    simpa using ⟨hf, fun t ht => ⟨'(', by decide, by simpa using ht.symm⟩, h⟩
  | _, _, .name hf, _, hm, hr => ⟨hf, hm, hr⟩
  | _, _, .lookup h, _, hm, hr => row_mark (by decide) (h.row hm hr)

theorem Selectors.row : ∀ {us : List Token} {es : List Expr}, Selectors us es →
    ∀ {rest : List Token}, MarkNext rest → Row false rest → Row false (us ++ rest)
  | _, _, .nil, _, _, hr => hr
  | _, _, .cons ha hb, _, hm, hr => by
    rw [List.cons_append, List.append_assoc]
    exact row_mark (by decide) (ha.row (hb.markNext hm) (hb.row hm hr))

theorem Selector.row : ∀ {ts : List Token} {e : Expr}, Selector ts e → ∀ {rest : List Token},
    MarkNext rest → Row false rest → Row true (ts ++ rest)
  | _, _, .group h, _, _, hr => by
    have h := h.row (noPointNext_mark (by decide) (by decide)) (row_mark (c := ')') (by decide) hr)
    simpa using row_mark (i := true) (c := '(') (by decide) h
  | _, _, .method hf h, _, _, hr => by
    have h := row_mark (i := false) (c := '(') (by decide) (h.row hr)
    simpa using ⟨hf, fun t ht => ⟨'(', by decide, by simpa using ht.symm⟩, h⟩
  | _, _, .key hf, _, hm, hr => ⟨hf, hm, hr⟩
  | _, _, .string hd hc, _, _, hr => ⟨⟨hd, hc⟩, trivial, hr⟩
  | _, _, .integer h, _, hm, hr => by
    refine ⟨⟨_, .whole h, fun _ => h⟩, ?_, hr⟩
    intro t ht
    obtain ⟨c, hc, rfl⟩ := hm t ht
    exact ⟨c, hc, rfl, by simp⟩
  | _, _, .subscript h, _, hm, hr => row_mark (by decide) (h.row hm hr)

theorem Arguments.row : ∀ {ts : List Token} {es : List Expr}, Arguments ts es →
    ∀ {rest : List Token}, Row false rest → Row false (ts ++ .mark ')' :: rest)
  | _, _, .none, _, hr => row_mark (by decide) hr
  | _, _, .some ha hb, _, hr => by
    rw [List.append_assoc]
    exact ha.row hb.noPointNext (hb.row hr)

theorem MoreArguments.row : ∀ {us : List Token} {es : List Expr}, MoreArguments us es →
    ∀ {rest : List Token}, Row false rest → Row false (us ++ .mark ')' :: rest)
  | _, _, .nil, _, hr => row_mark (by decide) hr
  | _, _, .cons ha hb, _, hr => by
    rw [List.cons_append, List.append_assoc]
    exact row_mark (by decide) (ha.row hb.noPointNext (hb.row hr))

end

end TokenGrammar

/-! ## A derivable text spells a derivable row -/

namespace Grammar

-- The white space of a rule goes to the token behind it, or to the end of the text.
mutual

theorem Chain.tokens : ∀ {cs : List Char} {e : Expr}, Chain cs e →
    ∃ ts, TokenGrammar.Chain ts e ∧ Spaced ts cs
  | _, _, .steps hv ha hb hw => by
    obtain ⟨ts, ht, hs⟩ := ha.tokens
    obtain ⟨us, hu, hs'⟩ := hb.tokens
    exact ⟨ts ++ us, .steps ht hu, (hs.append (hs'.append_blank hw)).blank_append hv⟩

theorem Steps.tokens : ∀ {cs : List Char} {steps : List (ChainOp × Expr)}, Steps cs steps →
    ∃ us, TokenGrammar.Steps us steps ∧ Spaced us cs
  | _, _, .nil => ⟨[], .nil, .nil Token.blank_nil⟩
  | _, _, .cons (c := c) hv hc hw ha hb => by
    obtain ⟨ts, ht, hs⟩ := ha.tokens
    obtain ⟨us, hu, hs'⟩ := hb.tokens
    exact ⟨.mark c :: (ts ++ us), .cons hc ht hu,
      (((hs.append hs').blank_append hw).mark c).blank_append hv⟩

theorem Alternative.tokens : ∀ {cs : List Char} {e : Expr}, Alternative cs e →
    ∃ ts, TokenGrammar.Alternative ts e ∧ Spaced ts cs
  | _, _, .negation hv ha => by
    obtain ⟨ts, ht, hs⟩ := ha.tokens
    exact ⟨.mark '!' :: ts, .negation ht, (hs.blank_append hv).mark '!'⟩
  | _, _, .string (.mk hd hi) => ⟨_, .string hd hi, .single (.quoted _ _)⟩
  | cs, _, .number h => ⟨[.number cs], .number h, .single (.number cs)⟩
  | _, _, .dotted ha hb hne => by
    obtain ⟨ts, ht, hs⟩ := ha.tokens
    obtain ⟨us, hu, hs'⟩ := hb.tokens
    have h := TokenGrammar.Alternative.term ht hu
    rw [ofDot, if_neg (by simpa using hne)] at h
    exact ⟨ts ++ us, h, hs.append hs'⟩
  | _, _, .term ha => by
    obtain ⟨ts, ht, hs⟩ := ha.tokens
    have h := TokenGrammar.Alternative.term ht .nil
    rw [List.append_nil] at h
    exact ⟨ts, h, hs⟩

theorem Term.tokens : ∀ {cs : List Char} {e : Expr}, Term cs e →
    ∃ ts, TokenGrammar.Term ts e ∧ Spaced ts cs
  | _, _, .group h => by
    obtain ⟨ts, ht, hs⟩ := h.tokens
    exact ⟨_, .group ht, (hs.append (.single (.mark ')'))).mark '('⟩
  | _, _, .call (f := f) hf hv ha hw => by
    obtain ⟨ts, ht, hs⟩ := ha.tokens
    have hclose := hs.append ((Spaced.single (.mark ')')).blank_append hw)
    exact ⟨_, .call hf ht, ((hclose.mark '(').blank_append hv).token (.name f)⟩
  | f, _, .name hf => ⟨[.name f], .name hf, .single (.name f)⟩
  | _, _, .lookup hv ha => by
    obtain ⟨ts, ht, hs⟩ := ha.tokens
    exact ⟨.mark '$' :: ts, .lookup ht, (hs.blank_append hv).mark '$'⟩

theorem Selectors.tokens : ∀ {cs : List Char} {es : List Expr}, Selectors cs es →
    ∃ us, TokenGrammar.Selectors us es ∧ Spaced us cs
  | _, _, .nil => ⟨[], .nil, .nil Token.blank_nil⟩
  | _, _, .cons hv hw ha hb => by
    obtain ⟨ts, ht, hs⟩ := ha.tokens
    obtain ⟨us, hu, hs'⟩ := hb.tokens
    exact ⟨.mark '.' :: (ts ++ us), .cons ht hu,
      (((hs.append hs').blank_append hw).mark '.').blank_append hv⟩

theorem Selector.tokens : ∀ {cs : List Char} {e : Expr}, Selector cs e →
    ∃ ts, TokenGrammar.Selector ts e ∧ Spaced ts cs
  | _, _, .group h => by
    obtain ⟨ts, ht, hs⟩ := h.tokens
    exact ⟨_, .group ht, (hs.append (.single (.mark ')'))).mark '('⟩
  | _, _, .method (f := f) hf hv ha hw => by
    obtain ⟨ts, ht, hs⟩ := ha.tokens
    have hclose := hs.append ((Spaced.single (.mark ')')).blank_append hw)
    exact ⟨_, .method hf ht, ((hclose.mark '(').blank_append hv).token (.name f)⟩
  | f, _, .key hf => ⟨[.name f], .key hf, .single (.name f)⟩
  | _, _, .string (.mk hd hi) => ⟨_, .string hd hi, .single (.quoted _ _)⟩
  | cs, _, .integer h => ⟨[.number cs], .integer h, .single (.number cs)⟩
  | _, _, .subscript hv ha => by
    obtain ⟨ts, ht, hs⟩ := ha.tokens
    exact ⟨.mark '$' :: ts, .subscript ht, (hs.blank_append hv).mark '$'⟩

theorem Arguments.tokens : ∀ {cs : List Char} {es : List Expr}, Arguments cs es →
    ∃ ts, TokenGrammar.Arguments ts es ∧ Spaced ts cs
  | _, _, .none => ⟨[], .none, .nil Token.blank_nil⟩
  | _, _, .some ha hb => by
    obtain ⟨ts, ht, hs⟩ := ha.tokens
    obtain ⟨us, hu, hs'⟩ := hb.tokens
    exact ⟨ts ++ us, .some ht hu, hs.append hs'⟩

theorem MoreArguments.tokens : ∀ {cs : List Char} {es : List Expr}, MoreArguments cs es →
    ∃ us, TokenGrammar.MoreArguments us es ∧ Spaced us cs
  | _, _, .nil => ⟨[], .nil, .nil Token.blank_nil⟩
  | _, _, .cons ha hb => by
    obtain ⟨ts, ht, hs⟩ := ha.tokens
    obtain ⟨us, hu, hs'⟩ := hb.tokens
    exact ⟨.mark ',' :: (ts ++ us), .cons ht hu, (hs.append hs').mark ','⟩

end

end Grammar

/-! ## A text that spells a derivable row is derivable -/

/-- A text that a rule derives, with white space around it. -/
def Padded {α : Type} (R : List Char → α → Prop) (cs : List Char) (a : α) : Prop :=
  ∃ v bs w, cs = v ++ (bs ++ w) ∧ Grammar.Blank v ∧ R bs a ∧ Grammar.Blank w

/-- A text that a rule derives, with white space after it. -/
def PaddedEnd {α : Type} (R : List Char → α → Prop) (cs : List Char) (a : α) : Prop :=
  ∃ bs w, cs = bs ++ w ∧ R bs a ∧ Grammar.Blank w

/-- A text that a rule derives, with white space before it. -/
def PaddedStart {α : Type} (R : List Char → α → Prop) (cs : List Char) (a : α) : Prop :=
  ∃ v bs, cs = v ++ bs ∧ Grammar.Blank v ∧ R bs a

/-- A single token stands in its text between white space. -/
theorem padded_single {α : Type} {R : List Char → α → Prop} {t : Token} {cs : List Char} {a : α}
    (hs : Spaced [t] cs) (h : R t.text a) : Padded R cs a := by
  cases hs with
  | cons hv hs =>
    cases hs with
    | nil hw => exact ⟨_, t.text, _, rfl, hv, h, hw⟩

/-- A group stands in its text between parentheses. -/
theorem spaced_group {ts : List Token} {cs : List Char}
    (hs : Spaced (.mark '(' :: (ts ++ [.mark ')'])) cs) :
    ∃ v as w, cs = v ++ ('(' :: (as ++ [')']) ++ w) ∧ Grammar.Blank v ∧ Spaced ts as ∧
      Grammar.Blank w := by
  cases hs with
  | cons hv hs =>
    obtain ⟨as, bs, rfl, h1, h2⟩ := hs.split
    cases h2 with
    | cons hx h2 =>
      cases h2 with
      | nil hw => exact ⟨_, as ++ _, _, by simp [Token.text], hv, h1.append_blank hx, hw⟩

/-- The arguments of a call stand in its text between parentheses. -/
theorem spaced_call {f : List Char} {ts : List Token} {cs : List Char}
    (hs : Spaced (.name f :: .mark '(' :: (ts ++ [.mark ')'])) cs) :
    ∃ v x as w, cs = v ++ (f ++ (x ++ '(' :: (as ++ [')'])) ++ w) ∧ Grammar.Blank v ∧
      Grammar.Blank x ∧ Spaced ts as ∧ Grammar.Blank w := by
  cases hs with
  | cons hv hs =>
    obtain ⟨x, as, w, rfl, hx, h, hw⟩ := spaced_group hs
    exact ⟨_, x, as, w, by simp [Token.text], hv, hx, h, hw⟩

namespace TokenGrammar

mutual

theorem Chain.spaced : ∀ {ts : List Token} {e : Expr}, Chain ts e → ∀ {cs : List Char},
    Spaced ts cs → Grammar.Chain cs e
  | _, _, .steps ha hb, _, hs => by
    obtain ⟨as, bs, rfl, h1, h2⟩ := hs.split
    obtain ⟨v, a, w, rfl, hv, ha, hw⟩ := ha.spaced h1
    -- the white space between the operand and the first step belongs to the step
    obtain ⟨b, u, h, hb, hu⟩ := hb.spaced (h2.blank_append hw)
    rw [List.append_assoc, List.append_assoc, h]
    exact .steps hv ha hb hu

theorem Steps.spaced : ∀ {us : List Token} {steps : List (ChainOp × Expr)}, Steps us steps →
    ∀ {cs : List Char}, Spaced us cs → PaddedEnd Grammar.Steps cs steps
  | _, _, .nil, cs, hs => by
    cases hs with
    | nil hw => exact ⟨[], cs, rfl, .nil, hw⟩
  | _, _, .cons hc ha hb, _, hs => by
    cases hs with
    | cons hv hs =>
      obtain ⟨as, bs, rfl, h1, h2⟩ := hs.split
      obtain ⟨x, a, w, rfl, hx, ha, hw⟩ := ha.spaced h1
      obtain ⟨b, u, h, hb, hu⟩ := hb.spaced (h2.blank_append hw)
      refine ⟨_, u, ?_, .cons hv hc hx ha hb, hu⟩
      simp [Token.text, h]

theorem Alternative.spaced : ∀ {ts : List Token} {e : Expr}, Alternative ts e →
    ∀ {cs : List Char}, Spaced ts cs → Padded Grammar.Alternative cs e
  | _, _, .negation h, _, hs => by
    cases hs with
    | cons hv hs =>
      obtain ⟨x, a, w, rfl, hx, ha, hw⟩ := h.spaced hs
      exact ⟨_, '!' :: (x ++ a), w, by simp [Token.text], hv, .negation hx ha, hw⟩
  | _, _, .string hd hc, _, hs => padded_single hs (.string (.mk hd hc))
  | _, _, .number h, _, hs => padded_single hs (.number h)
  | _, _, .term ha hb, _, hs => by
    obtain ⟨as, bs, rfl, h1, h2⟩ := hs.split
    obtain ⟨v, a, w, rfl, hv, ha, hw⟩ := ha.spaced h1
    obtain ⟨b, u, h, hb, hu⟩ := hb.spaced (h2.blank_append hw)
    refine ⟨v, a ++ b, u, by simp [h], hv, ?_, hu⟩
    cases hb with
    | nil => simpa using .term ha
    | cons h1 h2 h3 h4 => exact .dotted ha (.cons h1 h2 h3 h4) (by simp)

theorem Term.spaced : ∀ {ts : List Token} {e : Expr}, Term ts e → ∀ {cs : List Char},
    Spaced ts cs → Padded Grammar.Term cs e
  | _, _, .group h, _, hs => by
    obtain ⟨v, as, w, rfl, hv, hs, hw⟩ := spaced_group hs
    exact ⟨v, _, w, rfl, hv, .group (h.spaced hs), hw⟩
  | _, _, .call hf h, _, hs => by
    obtain ⟨v, x, as, w, rfl, hv, hx, hs, hw⟩ := spaced_call hs
    obtain ⟨a, u, rfl, ha, hu⟩ := h.spaced hs
    exact ⟨v, _, w, by simp, hv, .call hf hx ha hu, hw⟩
  | _, _, .name hf, _, hs => padded_single hs (.name hf)
  | _, _, .lookup h, _, hs => by
    cases hs with
    | cons hv hs =>
      obtain ⟨x, a, w, rfl, hx, ha, hw⟩ := h.spaced hs
      exact ⟨_, '$' :: (x ++ a), w, by simp [Token.text], hv, .lookup hx ha, hw⟩

theorem Selectors.spaced : ∀ {us : List Token} {es : List Expr}, Selectors us es →
    ∀ {cs : List Char}, Spaced us cs → PaddedEnd Grammar.Selectors cs es
  | _, _, .nil, cs, hs => by
    cases hs with
    | nil hw => exact ⟨[], cs, rfl, .nil, hw⟩
  | _, _, .cons ha hb, _, hs => by
    cases hs with
    | cons hv hs =>
      obtain ⟨as, bs, rfl, h1, h2⟩ := hs.split
      obtain ⟨x, a, w, rfl, hx, ha, hw⟩ := ha.spaced h1
      obtain ⟨b, u, h, hb, hu⟩ := hb.spaced (h2.blank_append hw)
      refine ⟨_, u, ?_, .cons hv hx ha hb, hu⟩
      simp [Token.text, h]

theorem Selector.spaced : ∀ {ts : List Token} {e : Expr}, Selector ts e → ∀ {cs : List Char},
    Spaced ts cs → Padded Grammar.Selector cs e
  | _, _, .group h, _, hs => by
    obtain ⟨v, as, w, rfl, hv, hs, hw⟩ := spaced_group hs
    exact ⟨v, _, w, rfl, hv, .group (h.spaced hs), hw⟩
  | _, _, .method hf h, _, hs => by
    obtain ⟨v, x, as, w, rfl, hv, hx, hs, hw⟩ := spaced_call hs
    obtain ⟨a, u, rfl, ha, hu⟩ := h.spaced hs
    exact ⟨v, _, w, by simp, hv, .method hf hx ha hu, hw⟩
  | _, _, .key hf, _, hs => padded_single hs (.key hf)
  | _, _, .string hd hc, _, hs => padded_single hs (.string (.mk hd hc))
  | _, _, .integer h, _, hs => padded_single hs (.integer h)
  | _, _, .subscript h, _, hs => by
    cases hs with
    | cons hv hs =>
      obtain ⟨x, a, w, rfl, hx, ha, hw⟩ := h.spaced hs
      exact ⟨_, '$' :: (x ++ a), w, by simp [Token.text], hv, .subscript hx ha, hw⟩

theorem Arguments.spaced : ∀ {ts : List Token} {es : List Expr}, Arguments ts es →
    ∀ {cs : List Char}, Spaced ts cs → PaddedEnd Grammar.Arguments cs es
  | _, _, .none, cs, hs => by
    cases hs with
    | nil hw => exact ⟨[], cs, rfl, .none, hw⟩
  | _, _, .some ha hb, _, hs => by
    obtain ⟨as, bs, rfl, h1, h2⟩ := hs.split
    obtain ⟨v, b, rfl, hv, hb⟩ := hb.spaced h2
    refine ⟨_, [], ?_, .some (ha.spaced (h1.append_blank hv)) hb, Token.blank_nil⟩
    simp

theorem MoreArguments.spaced : ∀ {us : List Token} {es : List Expr}, MoreArguments us es →
    ∀ {cs : List Char}, Spaced us cs → PaddedStart Grammar.MoreArguments cs es
  | _, _, .nil, cs, hs => by
    cases hs with
    | nil hw => exact ⟨cs, [], by simp, hw, .nil⟩
  | _, _, .cons ha hb, _, hs => by
    cases hs with
    | cons hv hs =>
      obtain ⟨as, bs, rfl, h1, h2⟩ := hs.split
      obtain ⟨w, b, rfl, hw, hb⟩ := hb.spaced h2
      refine ⟨_, _, ?_, hv, .cons (ha.spaced (h1.append_blank hw)) hb⟩
      simp [Token.text]

end

end TokenGrammar

/-! ## The parser -/

/-- A text is read as an expression exactly when it spells a row of tokens for it. -/
theorem parse?_iff_spaced {text : String} {e : Expr} :
    parse? text = some e ↔ ∃ ts, TokenGrammar.Chain ts e ∧ Spaced ts text.toList := by
  constructor
  · intro h
    obtain ⟨ts, hts, he⟩ := Option.bind_eq_some_iff.mp h
    obtain ⟨hs, hl⟩ := Token.spaced_of_ofTextFrom? hts
    exact ⟨ts, (TokenGrammar.ofTokens?_iff hl).mp he, hs⟩
  · rintro ⟨ts, hc, hs⟩
    have hend : NoPointNext [] := by simp [NoPointNext]
    have hrow := hc.row hend trivial
    rw [List.append_nil] at hrow
    have hts := Token.ofTextFrom?_of_spaced hrow hs
    have hl := (Token.spaced_of_ofTextFrom? hts).2
    exact Option.bind_eq_some_iff.mpr ⟨ts, hts, (TokenGrammar.ofTokens?_iff hl).mpr hc⟩

/-- A text is read as an expression exactly when the grammar derives it with that tree. -/
theorem parse?_eq_some_iff {text : String} {e : Expr} :
    parse? text = some e ↔ Grammar.Chain text.toList e := by
  rw [parse?_iff_spaced]
  constructor
  · rintro ⟨ts, hc, hs⟩
    exact hc.spaced hs
  · intro h
    exact h.tokens

end TreeTemplate.Expr

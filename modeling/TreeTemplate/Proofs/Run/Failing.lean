import TreeTemplate.Proofs.Template.Emission

/-! # Runs that fail

A run that fails does so in one part, the first that fails, after parts that all ended with a
result (`Run.fails_bind`).  For the loops of the engine the part is what is done with one item, and
those that ended are what was done with the items before it (`Run.collect_fails`,
`Run.carry_fails`).
-/
namespace TreeTemplate.Run

variable {σ α β : Type} {s : σ} {e : Failure}

/-- A run from a state ends with a failure. -/
def Fails (x : Run σ α) (s : σ) (e : Failure) : Prop := (x s).result = .error e

@[simp] theorem not_fails_pure (a : α) : ¬(pure a : Run σ α).Fails s e := by simp [Fails]

@[simp] theorem fails_fail {cause : Failure} : (fail cause : Run σ α).Fails s e ↔ cause = e := by
  simp [Fails]

theorem fails_bind {x : Run σ α} {f : α → Run σ β} :
    (x >>= f).Fails s e ↔ x.Fails s e ∨ ∃ a t, x.Ends s a t ∧ (f a).Fails t e := by
  unfold Fails Ends
  cases h : (x s).result with
  | ok a =>
    simp only [bind_apply_ok h, reduceCtorEq, false_or, Except.ok.injEq]
    constructor
    · intro hf
      exact ⟨a, _, ⟨rfl, rfl⟩, hf⟩
    · rintro ⟨_, _, ⟨rfl, rfl⟩, hf⟩
      exact hf
  | error cause => simp [bind_apply_error h]

/-- What is only placed or wrapped afterwards fails as it is. -/
@[simp] theorem fails_map {x : Run σ α} {f : α → β} : (f <$> x).Fails s e ↔ x.Fails s e := by
  simp [map_eq_pure_bind, fails_bind, -bind_pure_comp]

@[simp] theorem fails_emit_bind {event : Event} {f : Unit → Run σ β} :
    (emit event >>= f).Fails s e ↔ (f ()).Fails s e := Iff.rfl

@[simp] theorem fails_state_bind {f : σ → Run σ β} : (state >>= f).Fails s e ↔ (f s).Fails s e :=
  Iff.rfl

theorem fails_mapFailure {x : Run σ α} {f : Failure → Failure} :
    (x.mapFailure f).Fails s e ↔ ∃ cause, x.Fails s cause ∧ f cause = e := by
  unfold Fails
  simp only [mapFailure]
  rcases (x s).result with cause | a <;> simp

@[simp] theorem ends_pure {a b : α} {t : σ} : (pure a : Run σ α).Ends s b t ↔ a = b ∧ s = t := by
  simp [Ends]

theorem ends_map {x : Run σ α} {f : α → β} {b : β} {t : σ} :
    (f <$> x).Ends s b t ↔ ∃ a, x.Ends s a t ∧ f a = b := by
  simp [map_eq_pure_bind, ends_bind, -bind_pure_comp]

/-- A value carried through a list is lost at an item, once it was carried through those before. -/
theorem carry_fails {f : β → α → Run σ β} {items : List α} {b : β} :
    (carry f b items).Fails s e ↔ ∃ before a after c t, items = before ++ a :: after ∧
      (carry f b before).Ends s c t ∧ (f c a).Fails t e := by
  induction items generalizing b s with
  | nil => simp [carry]
  | cons a rest ih =>
    simp only [carry, fails_bind, ih]
    constructor
    · rintro (h | ⟨c, t, hc, before, a', after, d, u, rfl, hbefore, h⟩)
      · exact ⟨[], a, rest, b, s, rfl, ends_pure.mpr ⟨rfl, rfl⟩, h⟩
      · exact ⟨a :: before, a', after, d, u, rfl, ends_bind.mpr ⟨c, t, hc, hbefore⟩, h⟩
    · rintro ⟨before, a', after, c, t, heq, hbefore, h⟩
      rcases List.cons_eq_append_iff.mp heq with ⟨rfl, hrest⟩ | ⟨before, rfl, rfl⟩
      · cases hrest
        obtain ⟨rfl, rfl⟩ := ends_pure.mp hbefore
        exact .inl h
      · obtain ⟨d, u, hd, hmore⟩ := ends_bind.mp hbefore
        exact .inr ⟨d, u, hd, before, a', after, c, t, rfl, hmore, h⟩

/-- What a list makes is carried through it. -/
theorem carry_append (f : α → Run σ (List β)) (made : List β) (items : List α) :
    carry (fun made a => (made ++ ·) <$> f a) made items = (made ++ ·) <$> collect f items := by
  induction items generalizing made with
  | nil => simp [carry, collect]
  | cons a rest ih => simp [carry, collect, ih, map_bind]

/-- What a list makes fails at an item, once something was made of every item before it. -/
theorem collect_fails {f : α → Run σ (List β)} {items : List α} :
    (collect f items).Fails s e ↔ ∃ before a after bs t, items = before ++ a :: after ∧
      (collect f before).Ends s bs t ∧ (f a).Fails t e := by
  have hcarry : ∀ items, collect f items = carry (fun made a => (made ++ ·) <$> f a) [] items :=
    fun items => by simp [carry_append]
  simp only [hcarry, carry_fails, fails_map]

end TreeTemplate.Run

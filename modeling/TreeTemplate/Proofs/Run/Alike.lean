import TreeTemplate.Proofs.Run.Failing

/-! # Runs that go alike from a state

Two runs may differ in general and yet come to the same outcome from a state: they do if their parts
do from the states in which they begin (`Run.bind_apply_congr`).  For the loops of the engine the
parts are what is done with the items, each after what was done with the items before it
(`Run.carry_apply_congr`, `Run.collect_apply_congr`).
-/
namespace TreeTemplate.Run

variable {σ α β γ : Type} {s : σ}

/-- Only what the first part ends with matters to the second. -/
theorem bind_apply_congr {x y : Run σ α} {f g : α → Run σ β} (hx : x s = y s)
    (hf : ∀ a t, x.Ends s a t → f a t = g a t) : (x >>= f) s = (y >>= g) s := by
  cases hresult : (x s).result with
  | error e => rw [bind_apply_error hresult, bind_apply_error (hx ▸ hresult), hx]
  | ok a =>
    rw [bind_apply_ok hresult, bind_apply_ok (hx ▸ hresult), hf a _ ⟨hresult, rfl⟩, hx]

theorem emit_apply_congr {event : Event} {x y : Run σ α} (h : x s = y s) :
    (emit event >>= fun _ => x) s = (emit event >>= fun _ => y) s :=
  bind_apply_congr rfl fun _ _ hends => by
    obtain ⟨-, rfl⟩ := hends
    exact h

theorem map_apply_congr {x y : Run σ α} (f : α → β) (hx : x s = y s) :
    (f <$> x) s = (f <$> y) s := by
  rw [map_apply, map_apply, hx]

/-- A value is carried through a list alike if it is at each place, once it was carried through what
stands before. -/
theorem carry_apply_congr {f g : γ → α → Run σ γ} {items : List α} {c : γ}
    (h : ∀ before a after d t, items = before ++ a :: after → (carry f c before).Ends s d t →
      f d a t = g d a t) : carry f c items s = carry g c items s := by
  induction items generalizing c s with
  | nil => rfl
  | cons a items ih =>
    refine bind_apply_congr (h [] a items c s rfl (ends_pure.mpr ⟨rfl, rfl⟩)) fun d t hd => ih ?_
    intro before b after d' t' hitems hends
    exact h (a :: before) b after d' t' (congrArg (a :: ·) hitems) (ends_bind.mpr ⟨d, t, hd, hends⟩)

theorem carry_map (f : γ → β → Run σ γ) (p : α → β) (c : γ) (items : List α) :
    carry f c (items.map p) = carry (fun c a => f c (p a)) c items := by
  induction items generalizing c with
  | nil => rfl
  | cons a items ih =>
    rw [List.map_cons, carry, carry]
    exact congrArg _ (funext ih)

theorem collect_eq_carry (f : α → Run σ (List β)) (items : List α) :
    collect f items = carry (fun made a => (made ++ ·) <$> f a) [] items := by
  simp [carry_append]

theorem collect_map (f : β → Run σ (List γ)) (p : α → β) (items : List α) :
    collect f (items.map p) = collect (fun a => f (p a)) items := by
  simp only [collect_eq_carry, carry_map]

theorem collect_apply_congr {f g : α → Run σ (List β)} {items : List α}
    (h : ∀ before a after made t, items = before ++ a :: after →
      (collect f before).Ends s made t → f a t = g a t) :
    collect f items s = collect g items s := by
  rw [collect_eq_carry, collect_eq_carry]
  refine carry_apply_congr fun before a after made t hitems hends => ?_
  rw [← collect_eq_carry] at hends
  exact map_apply_congr _ (h before a after made t hitems hends)

end TreeTemplate.Run

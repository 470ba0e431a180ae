import TreeTemplate.Template.Engine

/-! # Contracts of runs

A contract says which events the parts of a run may report and which failures they may end
with (`Run.Contract`).  What is allowed may depend on everything that the whole run reports,
which the contract knows in advance: a part is held to it only when its events are among those.
A part meets a contract with a postcondition on its result (`Run.Meets`), and the rules below
say how parts that do are put together.
-/
namespace TreeTemplate

/-- What is demanded of the parts of a run. -/
structure Contract where
  /-- Everything that is reported by the run they are parts of. -/
  trace : List Event
  event : Event → Prop
  failure : Failure → Prop

/-- Anything may be reported and any failure may happen. -/
def Contract.free (trace : List Event) : Contract := ⟨trace, fun _ => True, fun _ => True⟩

section
variable {σ α β : Type} {c : Contract}

/-- An outcome that a contract allows, whose result has a property if there is one. -/
structure Outcome.Meets (c : Contract) (o : Outcome σ α) (P : α → Prop) : Prop where
  events : ∀ e ∈ o.events, c.event e
  ok : ∀ a, o.result = .ok a → P a
  error : ∀ e, o.result = .error e → c.failure e

theorem Outcome.meets_ok {a : α} {events : List Event} {s : σ} {P : α → Prop}
    (he : ∀ e ∈ events, c.event e) (ha : P a) : Outcome.Meets c ⟨.ok a, events, s⟩ P := by
  refine ⟨he, ?_, by simp⟩
  rintro b hb
  cases hb
  exact ha

theorem Outcome.meets_error {e : Failure} {events : List Event} {s : σ} {P : α → Prop}
    (he : ∀ e ∈ events, c.event e) (hf : c.failure e) :
    Outcome.Meets c ⟨.error e, events, s⟩ P := by
  refine ⟨he, by simp, ?_⟩
  rintro f hf'
  cases hf'
  exact hf

namespace Run

/-- A part of a run reports what the contract allows, comes to a result with the given property,
and fails only as the contract allows. -/
def Meets (c : Contract) (x : Run σ α) (P : α → Prop) : Prop :=
  ∀ s, (x s).events ⊆ c.trace → (x s).Meets c P

namespace Meets

variable {x : Run σ α} {P : α → Prop} {Q : β → Prop}

theorem pure {a : α} (h : P a) : Meets c (Pure.pure a : Run σ α) P :=
  fun _ _ => Outcome.meets_ok (by simp) h

theorem fail {e : Failure} (h : c.failure e) : Meets c (Run.fail e : Run σ α) P :=
  fun _ _ => Outcome.meets_error (by simp) h

theorem emit {e : Event} (h : c.event e) : Meets c (Run.emit e : Run σ Unit) fun _ => True :=
  fun _ _ => Outcome.meets_ok (by simpa using h) trivial

/-- A result that needs no host. -/
theorem ofExcept {r : Except Failure α} (hok : ∀ a, r = .ok a → P a)
    (herror : ∀ e, r = .error e → c.failure e) : Meets c (Run.ofExcept r : Run σ α) P :=
  fun _ _ => ⟨by simp [Run.ofExcept], hok, herror⟩

theorem free {trace : List Event} (x : Run σ α) : x.Meets (.free trace) fun _ => True :=
  fun _ _ => ⟨fun _ _ => trivial, fun _ _ => trivial, fun _ _ => trivial⟩

/-- A step of the host of which only the failures are known. -/
theorem step {f : σ → Except Failure α × σ} (hf : ∀ s e, (f s).1 = .error e → c.failure e) :
    Meets c (Run.step f) fun _ => True :=
  fun s _ => ⟨by simp [Run.step], fun _ _ => trivial, fun e he => hf s e he⟩

/-- One part after another: the second may count on what the first came to. -/
theorem bind {f : α → Run σ β} (hx : x.Meets c P) (hf : ∀ a, P a → (f a).Meets c Q) :
    (x >>= f).Meets c Q := by
  intro s
  cases h : (x s).result with
  | error e =>
    rw [bind_apply_error h]
    intro hs
    obtain ⟨hevents, -, herror⟩ := hx s hs
    exact Outcome.meets_error hevents (herror e h)
  | ok a =>
    rw [bind_apply_ok h]
    intro hs
    obtain ⟨hxs, hfs⟩ := List.append_subset.mp hs
    obtain ⟨hevents, hok, -⟩ := hx s hxs
    obtain ⟨hevents', hok', herror'⟩ := hf a (hok a h) _ hfs
    refine ⟨fun e he => ?_, hok', herror'⟩
    rcases List.mem_append.mp he with he | he
    · exact hevents e he
    · exact hevents' e he

/-- What is reported first changes nothing else. -/
theorem after_emit {e : Event} {y : Run σ β} (he : c.event e) (hy : y.Meets c Q) :
    (Run.emit e >>= fun _ => y).Meets c Q :=
  (Meets.emit he).bind fun _ _ => hy

/-- A part may look at the state of the host first. -/
theorem state {f : σ → Run σ β} (h : ∀ s, (f s).Meets c Q) :
    (Run.state >>= f).Meets c Q := by
  intro s
  exact h s s

theorem mapFailure {g : Failure → Failure} (hx : x.Meets c P)
    (hg : ∀ e, c.failure e → c.failure (g e)) : (x.mapFailure g).Meets c P := by
  intro s
  cases h : (x s).result with
  | ok a =>
    have heq : x.mapFailure g s = ⟨.ok a, (x s).events, (x s).state⟩ := by
      simp only [Run.mapFailure, h]
    rw [heq]
    intro hs
    obtain ⟨hevents, hok, -⟩ := hx s hs
    exact Outcome.meets_ok hevents (hok a h)
  | error e =>
    have heq : x.mapFailure g s = ⟨.error (g e), (x s).events, (x s).state⟩ := by
      simp only [Run.mapFailure, h]
    rw [heq]
    intro hs
    obtain ⟨hevents, -, herror⟩ := hx s hs
    exact Outcome.meets_error hevents (hg e (herror e h))

/-- By induction on the list: what is made of one item keeps to the contract whatever was made
of the items before it. -/
theorem collect {f : α → Run σ (List β)} : ∀ {items : List α},
    (∀ a ∈ items, (f a).Meets c fun bs => ∀ b ∈ bs, Q b) →
    (Run.collect f items).Meets c fun bs => ∀ b ∈ bs, Q b
  | [], _ => pure (by simp)
  | a :: _, h => by
    have hrest := collect fun b hb => h b (List.mem_cons_of_mem _ hb)
    refine (h a List.mem_cons_self).bind fun bs hbs => hrest.bind fun more hmore => pure ?_
    intro b hb
    rcases List.mem_append.mp hb with hb | hb
    · exact hbs b hb
    · exact hmore b hb

/-- By induction on the list: every item keeps what holds of the value that is carried. -/
theorem carry {f : β → α → Run σ β} : ∀ {items : List α} {b : β}, Q b →
    (∀ a ∈ items, ∀ b, Q b → (f b a).Meets c Q) → (Run.carry f b items).Meets c Q
  | [], _, hb, _ => pure hb
  | a :: _, b, hb, h =>
    (h a List.mem_cons_self b hb).bind fun _ hb' =>
      carry hb' fun a ha => h a (List.mem_cons_of_mem _ ha)

end Meets

end Run

end

end TreeTemplate

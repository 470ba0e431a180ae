import Mathlib.Tactic.Choose
import TreeTemplate.Template.Engine

/-! # What is emitted before it is placed

A handler of the engine is told the place where it stands and whether to splice.  It is
coherent when it does not use either before its end: it is one run, the same for every place,
whose result is then placed (`Coherent`).  The rules below are those that handlers are made of,
one for every way in which a handler ends and one for every way in which it goes on.
-/
namespace TreeTemplate

namespace Run

variable {σ α β : Type}

/-- A run from a state ends with a result and leaves a state. -/
def Ends (x : Run σ α) (s : σ) (a : α) (t : σ) : Prop :=
  (x s).result = .ok a ∧ (x s).state = t

theorem emit_ends (e : Event) (s : σ) : (emit e).Ends s () s := ⟨rfl, rfl⟩

/-- The outcome of a run whose result is changed afterwards. -/
theorem map_apply (f : α → β) (x : Run σ α) (s : σ) :
    (f <$> x) s = ⟨(x s).result.map f, (x s).events, (x s).state⟩ := by
  rw [map_eq_pure_bind]
  cases h : (x s).result with
  | ok a => simp [bind_apply_ok h, Except.map]
  | error e => simp [bind_apply_error h, Except.map]

/-- A run that goes on ends with a result exactly if both its parts do. -/
theorem ends_bind {x : Run σ α} {f : α → Run σ β} {s u : σ} {b : β} :
    Ends (x >>= f) s b u ↔ ∃ a t, Ends x s a t ∧ Ends (f a) t b u := by
  unfold Ends
  cases h : (x s).result with
  | ok a =>
    simp only [bind_apply_ok h, Except.ok.injEq]
    constructor
    · intro hb
      exact ⟨a, _, ⟨rfl, rfl⟩, hb⟩
    · rintro ⟨_, _, ⟨rfl, rfl⟩, hb⟩
      exact hb
  | error e => simp [bind_apply_error h]

end Run

/-- What a node emits, before it is known where. -/
inductive Emission where
  | nothing
  /-- The empty text of a comment that vanishes in lists and merges. -/
  | comment
  /-- A value; `splice` asks for a produced list to be spliced wherever that can be. -/
  | value (splice : Bool) (v : Value)

namespace Emission

/-- The values that something emitted is in a place. -/
def place (context : Context) (splice : Bool) : Emission → List Value
  | .nothing => []
  | .comment => if context ≠ .single then [] else [.str ""]
  | .value own v => context.place (splice || own) v

/-- Something emitted that a dash before it asks to splice. -/
def force (dash : Bool) : Emission → Emission
  | .value own v => .value (dash || own) v
  | e => e

theorem place_force (context : Context) (splice dash : Bool) (e : Emission) :
    (e.force dash).place context splice = e.place context (splice || dash) := by
  cases e <;> simp [force, place, Bool.or_assoc]

theorem force_eq_comment {dash : Bool} {e : Emission} : e.force dash = .comment ↔ e = .comment := by
  cases e <;> simp [force]

theorem place_single (splice : Bool) (e : Emission) :
    e.place .single splice = e.place .single false := by
  cases e <;> simp [place, Context.place]

theorem length_place_single (e : Emission) : (e.place .single false).length ≤ 1 := by
  cases e <;> simp [place, Context.place]

theorem place_mapping {e : Emission} (he : e ≠ .comment) (splice : Bool) :
    e.place .mapping splice = e.place .single false := by
  cases e <;> simp_all [place, Context.place]

/-- The values emitted into a list that splices, given those emitted into a single place: the
items of a list, and anything else as it is. -/
def spliced : List Value → List Value
  | [v] => v.items?.getD [v]
  | vs => vs

theorem place_list_true {e : Emission} (he : e ≠ .comment) :
    e.place .list true = spliced (e.place .single false) := by
  cases e <;> simp_all [place, Context.place, spliced]

/-- Without a request from outside, a list is spliced if a dash inside asks for it. -/
theorem place_list_false {e : Emission} (he : e ≠ .comment) :
    e.place .list false = e.place .single false ∨
      e.place .list false = spliced (e.place .single false) := by
  cases e with
  | value own v => cases own <;> simp [place, Context.place, spliced]
  | nothing | comment => simp_all [place, spliced]

end Emission

section Coherent

variable {σ α : Type}

/-- A handler that makes one run for all places and then places what the run emits.  The run
emits a vanishing comment from the states of `C` and no others. -/
def Coherent (C : σ → Prop) (f : Context → Bool → Run σ (List Value)) : Prop :=
  ∃ x : Run σ Emission, (∀ context splice, f context splice = Emission.place context splice <$> x) ∧
    ∀ s, (∃ t, x.Ends s .comment t) ↔ C s

/-- No state. -/
def Nowhere (_ : σ) : Prop := False

namespace Coherent

variable {C : σ → Prop} {f : Context → Bool → Run σ (List Value)}

/-- The outcomes of a coherent handler differ in how one result is placed. -/
theorem outcome (h : Coherent C f) (s : σ) : ∃ o : Outcome σ Emission,
    (∀ context splice, f context splice s =
      ⟨o.result.map (Emission.place context splice), o.events, o.state⟩) ∧
    (o.result = .ok .comment ↔ C s) := by
  obtain ⟨x, hx, hc⟩ := h
  refine ⟨x s, fun context splice => ?_, ?_⟩
  · rw [hx, Run.map_apply]
  · rw [← hc s]
    exact ⟨fun h => ⟨_, h, rfl⟩, fun ⟨_, h, _⟩ => h⟩

theorem congr {D : σ → Prop} (h : Coherent C f) (hC : ∀ s, C s ↔ D s) : Coherent D f := by
  obtain ⟨x, hx, hc⟩ := h
  exact ⟨x, hx, fun s => (hc s).trans (hC s)⟩

/-- A handler that emits no comment, where none could be. -/
theorem never (h : Coherent Nowhere f) (hC : ∀ s, ¬C s) : Coherent C f :=
  h.congr fun s => ⟨False.elim, hC s⟩

theorem emission (e : Emission) :
    Coherent (fun _ : σ => e = .comment) fun context splice => pure (e.place context splice) :=
  ⟨pure e, fun _ _ => (map_pure _ _).symm, fun s => by simp [Run.Ends]⟩

theorem nothing : Coherent (Nowhere (σ := σ)) fun _ _ => pure [] :=
  (emission .nothing).congr fun _ => by simp [Nowhere]

theorem comment : Coherent (fun _ : σ => True) fun context _ =>
    pure (if context ≠ .single then [] else [.str ""]) :=
  (emission .comment).congr fun _ => by simp

theorem value (v : Value) : Coherent (Nowhere (σ := σ)) fun context splice =>
    pure (context.place splice v) := by
  have h : Coherent (Nowhere (σ := σ)) fun context splice =>
      pure (context.place (splice || false) v) :=
    (emission (.value false v)).congr fun _ => by simp [Nowhere]
  simpa only [Bool.or_false] using h

/-- A value that is no list is itself in every place. -/
theorem scalar {v : Value} (hv : v.items? = none) :
    Coherent (Nowhere (σ := σ)) fun _ _ => pure [v] := by
  have h := value (σ := σ) v
  simpa only [Context.place, hv, Option.getD_none, ite_self] using h

theorem fail (e : Failure) : Coherent (Nowhere (σ := σ)) fun _ _ => Run.fail e :=
  ⟨Run.fail e, fun _ _ => rfl, fun _ => by simp [Run.Ends, Nowhere]⟩

/-- A handler may be asked to splice by a dash as well. -/
theorem forced (h : Coherent C f) (dash : Bool) :
    Coherent C fun context splice => f context (splice || dash) := by
  obtain ⟨x, hx, hc⟩ := h
  -- the dash is part of what is emitted, so that the run stays the same for every place
  refine ⟨Emission.force dash <$> x, fun context splice => ?_, fun s => ?_⟩
  · simp only [hx, Functor.map_map, Emission.place_force]
  · rw [← hc s]
    simp only [Run.Ends, Run.map_apply]
    cases h : (x s).result with
    | error e => simp [Except.map]
    | ok e => simp [Except.map, Emission.force_eq_comment]

/-- A handler may do something first, the same in every place, and go on with its result. -/
theorem bind {D : α → σ → Prop} {x : Run σ α} {f : α → Context → Bool → Run σ (List Value)}
    (h : ∀ a, Coherent (D a) (f a)) :
    Coherent (fun s => ∃ a t, x.Ends s a t ∧ D a t) fun context splice =>
      x >>= fun a => f a context splice := by
  choose y hy hd using h
  refine ⟨x >>= y, fun context splice => ?_, fun s => ?_⟩
  · simp only [hy, map_bind]
  · simp only [Run.ends_bind, ← hd]
    constructor
    · rintro ⟨u, a, t, hx, hu⟩
      exact ⟨a, t, hx, u, hu⟩
    · rintro ⟨a, t, hx, u, hu⟩
      exact ⟨u, a, t, hx, hu⟩

/-- What goes on to no comment comes to none. -/
theorem bind_nowhere {x : Run σ α} {f : α → Context → Bool → Run σ (List Value)}
    (h : ∀ a, Coherent Nowhere (f a)) :
    Coherent Nowhere fun context splice => x >>= fun a => f a context splice :=
  (bind h).congr fun _ => by simp [Nowhere]

/-- What is only reported first changes nothing else. -/
theorem report {x : Run σ Unit} (hx : ∀ s, x.Ends s () s) (h : Coherent C f) :
    Coherent C fun context splice => x >>= fun _ => f context splice := by
  refine (bind (x := x) fun _ => h).congr fun s => ?_
  obtain ⟨hok, hstate⟩ := hx s
  simp [Run.Ends, hok, hstate]

/-- A handler may look at the state of the host first. -/
theorem state {D : σ → σ → Prop} {f : σ → Context → Bool → Run σ (List Value)}
    (h : ∀ s, Coherent (D s) (f s)) :
    Coherent (fun s => D s s) fun context splice => Run.state >>= fun s => f s context splice := by
  refine (bind h).congr fun s => ?_
  constructor
  · rintro ⟨a, t, ⟨ha, ht⟩, h⟩
    cases ha
    cases ht
    exact h
  · intro h
    exact ⟨s, s, ⟨rfl, rfl⟩, h⟩

end Coherent

end Coherent
end TreeTemplate

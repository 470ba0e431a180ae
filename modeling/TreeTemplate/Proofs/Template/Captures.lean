import TreeTemplate.Proofs.Template.PlainList

/-! # What becomes of captured functions

A mark of a plain list looks up a function, which waits for the next item that is not skipped.
What is done in a run that ends with a value is a row of deeds, each for the element at a position
of the list (`PlainList.Deed`), and the row accounts for all that the run reports and emits.  One
function can wait at a time.  So a mark whose function is still waiting at the next mark has lost
it (`PlainList.ReplacedAt`), and the function of every other mark is called exactly once, with the
value of the item that it waited for or, if there is none, without an argument
(`Engine.captured_unless_replaced`).  `PlainList.Ledger` is what the induction carries: what the
deeds from a position on are for a function that waits there and for the marks still to come.
-/
namespace TreeTemplate

namespace Run

variable {σ α β : Type}

/-- A run that goes on to a value has gone through a value. -/
theorem bind_eq_ok {x : Run σ α} {f : α → Run σ β} {s u : σ} {b : β} {events : List Event}
    (h : (x >>= f) s = ⟨.ok b, events, u⟩) :
    ∃ a first t later, x s = ⟨.ok a, first, t⟩ ∧ f a t = ⟨.ok b, later, u⟩ ∧
      events = first ++ later := by
  rcases hx : x s with ⟨e | a, first, t⟩
  · rw [bind_apply_error (congrArg Outcome.result hx)] at h
    cases h
  · rw [bind_apply_ok (congrArg Outcome.result hx), hx] at h
    rcases hf : f a t with ⟨r, later, u'⟩
    simp only [hf, Outcome.mk.injEq] at h
    obtain ⟨rfl, rfl, rfl⟩ := h
    exact ⟨a, first, t, later, rfl, hf, rfl⟩

end Run

namespace PlainList

/-! ## Positions of a list -/

section
variable (elements : List Value)

/-- A mark that captures stands at a position. -/
def CapturesAt (i : Nat) : Prop := ∃ x clause, elements[i]? = some x ∧ capture? x = some clause

/-- The element at a position is a mark, or an item that is skipped. -/
def PassedAt (m : Nat) : Prop :=
  ∃ x, elements[m]? = some x ∧ (isMark x = true ∨ skipped (elements.take m) = true)

/-- The next item after a position that is not skipped stands at a position. -/
def NextAt (i j : Nat) : Prop :=
  i < j ∧ j < elements.length ∧ ¬PassedAt elements j ∧ ∀ m, i < m → m < j → PassedAt elements m

/-- Another mark that captures comes after a position before the next item that is not skipped. -/
def ReplacedAt (i : Nat) : Prop :=
  ∃ k, i < k ∧ CapturesAt elements k ∧ ∀ m, i < m → m < k → PassedAt elements m

/-- Nothing that ends the wait of a function stands between its mark and a position. -/
def WaitsTill (i n : Nat) : Prop :=
  i < n ∧ ∀ m, i < m → m < n → PassedAt elements m ∧ ¬CapturesAt elements m

end

section
variable {elements : List Value} {i n : Nat}

theorem CapturesAt.lt_length (h : CapturesAt elements i) : i < elements.length := by
  obtain ⟨x, clause, hx, -⟩ := h
  exact (List.getElem?_eq_some_iff.mp hx).1

theorem WaitsTill.replacedAt (h : WaitsTill elements i n) (hn : CapturesAt elements n) :
    ReplacedAt elements i :=
  ⟨n, h.1, hn, fun m him hmn => (h.2 m him hmn).1⟩

theorem WaitsTill.nextAt (h : WaitsTill elements i n) (hlt : n < elements.length)
    (hn : ¬PassedAt elements n) : NextAt elements i n :=
  ⟨h.1, hlt, hn, fun m him hmn => (h.2 m him hmn).1⟩

/-- The next item is the only one. -/
theorem NextAt.eq {j k : Nat} (hj : NextAt elements i j) (hk : NextAt elements i k) : j = k := by
  rcases Nat.lt_trichotomy j k with h | h | h
  · exact absurd (hk.2.2.2 j hj.1 h) hj.2.2.1
  · exact h
  · exact absurd (hj.2.2.2 k hk.1 h) hk.2.2.1

/-- A function that waits till an item or till the end is not replaced. -/
theorem WaitsTill.not_replacedAt (h : WaitsTill elements i n) (hn : ¬PassedAt elements n)
    (hcapture : ¬CapturesAt elements n) : ¬ReplacedAt elements i := by
  rintro ⟨k, hik, hk, hpassed⟩
  rcases Nat.lt_trichotomy k n with hlt | rfl | hlt
  · exact (h.2 k hik hlt).2 hk
  · exact hcapture hk
  · exact hn (hpassed n h.1 hlt)

theorem not_passedAt_length : ¬PassedAt elements elements.length := by
  rintro ⟨x, hx, -⟩
  simp at hx

theorem WaitsTill.not_nextAt (h : WaitsTill elements i elements.length) (j : Nat) :
    ¬NextAt elements i j := fun hj => hj.2.2.1 (h.2 j hj.1 hj.2.1).1

/-- A function waits on past an element that is no capture. -/
theorem WaitsTill.succ (h : WaitsTill elements i n) (hn : PassedAt elements n)
    (hcapture : ¬CapturesAt elements n) : WaitsTill elements i (n + 1) := by
  refine ⟨by have := h.1; omega, fun m him hmn => ?_⟩
  rcases Nat.lt_or_eq_of_le (Nat.le_of_lt_succ hmn) with hlt | rfl
  · exact h.2 m him hlt
  · exact ⟨hn, hcapture⟩

theorem waitsTill_succ_self (n : Nat) : WaitsTill elements n (n + 1) :=
  ⟨Nat.lt_succ_self n, fun m hnm hm => by omega⟩

end

/-! ## Deeds -/

/-- What is done for the element at a position. -/
inductive Deed where
  /-- The clause of a mark is looked up and names a function. -/
  | lookup (mark : Nat) (f : Value)
  /-- An item is processed for the value that a function takes. -/
  | argument (item : Nat) (a : Value)
  /-- An item is processed where it stands. -/
  | emit (item : Nat) (vs : List Value)
  /-- The function of a mark is called. -/
  | call (mark : Nat) (f : Value) (args : List Value) (v : Value) (splice : Bool)

namespace Deed

/-- What a deed adds to the values of a list. -/
def values : Deed → List Value
  | .lookup _ _ | .argument _ _ => []
  | .emit _ vs => vs
  | .call _ _ _ v splice => Context.list.place splice v

/-- Whether a deed looks up the mark at a position. -/
def looksUp (i : Nat) : Deed → Bool
  | .lookup mark _ => mark == i
  | _ => false

/-- Whether a deed calls the function of the mark at a position. -/
def calls (i : Nat) : Deed → Bool
  | .call mark _ _ _ _ => mark == i
  | _ => false

variable {σ : Type}

/-- A deed is done from one state to another, with the events that it reports. -/
inductive Done (E : Engine σ) (depth : Nat) (scope : Scope) (elements : List Value) :
    Deed → σ → List Event → σ → Prop
  | lookup {i : Nat} {x f : Value} {clause : String} {s t : σ} {events : List Event}
    (hx : elements[i]? = some x) (hclause : capture? x = some clause)
    (h : E.callee scope clause s = ⟨.ok f, events, t⟩) :
    Done E depth scope elements (.lookup i f) s events t
  | argument {j : Nat} {x a : Value} {s t : σ} {events : List Event} (hx : elements[j]? = some x)
    (h : E.processWithin depth x scope s = ⟨.ok a, events, t⟩) :
    Done E depth scope elements (.argument j a) s events t
  | emit {j : Nat} {x : Value} {splice : Bool} {vs : List Value} {s t : σ} {events : List Event}
    (hx : elements[j]? = some x)
    (h : E.emitted depth x scope .list splice s = ⟨.ok vs, events, t⟩) :
    Done E depth scope elements (.emit j vs) s events t
  | call {i : Nat} {f v : Value} {args : List Value} {splice : Bool} {s t : σ}
    {events : List Event} (h : E.host.apply f args s = ⟨.ok v, events, t⟩) :
    Done E depth scope elements (.call i f args v splice) s events t

/-- Deeds are done one after another. -/
inductive AllDone (E : Engine σ) (depth : Nat) (scope : Scope) (elements : List Value) :
    List Deed → σ → List Event → σ → Prop
  | nil (s : σ) : AllDone E depth scope elements [] s [] s
  | cons {d : Deed} {deeds : List Deed} {s t u : σ} {events later : List Event}
    (hd : d.Done E depth scope elements s events t)
    (h : AllDone E depth scope elements deeds t later u) :
    AllDone E depth scope elements (d :: deeds) s (events ++ later) u

end Deed

/-! ## The ledger -/

/-- What has become of the function of a mark when some deeds are done: it is not called if another
mark has replaced it, and else called once, with the value of the next item if there is one. -/
structure Settled (elements : List Value) (deeds : List Deed) (i : Nat) (f : Value) : Prop where
  replaced (h : ReplacedAt elements i) : deeds.filter (Deed.calls i) = []
  called (h : ¬ReplacedAt elements i) :
    ∃ args v splice, deeds.filter (Deed.calls i) = [.call i f args v splice] ∧
      (∀ j, NextAt elements i j → ∃ a, args = [a] ∧ .argument j a ∈ deeds) ∧
      ((∀ j, ¬NextAt elements i j) → args = [])

/-- What the deeds from a position on are, if a function of an earlier mark may wait there: they
settle that function and all marks from there on, each of which they look up once, and no other
mark. -/
structure Ledger (elements : List Value) (n : Nat) (waiting : Option (Nat × Value))
    (deeds : List Deed) : Prop where
  known : ∀ i < n, deeds.filter (Deed.looksUp i) = []
  idle : ∀ i < n, (∀ f, waiting ≠ some (i, f)) → deeds.filter (Deed.calls i) = []
  waits : ∀ i f, waiting = some (i, f) → Settled elements deeds i f
  marks : ∀ i, n ≤ i → CapturesAt elements i →
    ∃ f, deeds.filter (Deed.looksUp i) = [.lookup i f] ∧ Settled elements deeds i f

section
variable {elements : List Value} {deeds : List Deed} {waiting : Option (Nat × Value)}
  {i n : Nat} {f : Value}

/-- A deed that does not call the function of a mark leaves it settled. -/
theorem Settled.cons (h : Settled elements deeds i f) {d : Deed} (hd : d.calls i = false) :
    Settled elements (d :: deeds) i f := by
  have hfilter : (d :: deeds).filter (Deed.calls i) = deeds.filter (Deed.calls i) :=
    List.filter_cons_of_neg (by simp [hd])
  refine ⟨fun hr => by rw [hfilter, h.replaced hr], fun hr => ?_⟩
  obtain ⟨args, v, splice, hcall, hnext, hnone⟩ := h.called hr
  refine ⟨args, v, splice, by rw [hfilter, hcall], fun j hj => ?_, hnone⟩
  obtain ⟨a, ha, hmem⟩ := hnext j hj
  exact ⟨a, ha, List.mem_cons_of_mem _ hmem⟩

namespace Ledger

/-- At the end nothing is done if no function waits. -/
theorem nothing : Ledger elements elements.length none [] where
  known _ _ := rfl
  idle _ _ _ := rfl
  waits _ _ h := nomatch h
  marks i hi hcapture := absurd hcapture.lt_length (by omega)

/-- At the end a function that waits is called without an argument. -/
theorem last (hw : WaitsTill elements i elements.length) (v : Value) (splice : Bool) :
    Ledger elements elements.length (some (i, f)) [.call i f [] v splice] where
  known _ _ := rfl
  idle k hk hne := by
    have hik : i ≠ k := fun h => hne f (by rw [h])
    simp [Deed.calls, hik]
  waits k g h := by
    cases h
    have hcapture : ¬CapturesAt elements elements.length := fun h => by
      have := h.lt_length
      omega
    refine ⟨fun hr => absurd hr (hw.not_replacedAt not_passedAt_length hcapture), fun _ => ?_⟩
    exact ⟨[], v, splice, by simp [Deed.calls], fun j hj => absurd hj (hw.not_nextAt j),
      fun _ => rfl⟩
  marks k hk hcapture := absurd hcapture.lt_length (by omega)

/-- An element for which nothing is done. -/
theorem pass (h : Ledger elements (n + 1) waiting deeds) (hn : ¬CapturesAt elements n) :
    Ledger elements n waiting deeds where
  known k hk := h.known k (by omega)
  idle k hk := h.idle k (by omega)
  waits := h.waits
  marks k hk hcapture := by
    have hne : k ≠ n := fun he => hn (he ▸ hcapture)
    exact h.marks k (by omega) hcapture

/-- A mark is looked up: whatever waited before it is replaced. -/
theorem lookup (h : Ledger elements (n + 1) (some (n, f)) deeds) (hn : CapturesAt elements n)
    (hw : ∀ k g, waiting = some (k, g) → WaitsTill elements k n) :
    Ledger elements n waiting (.lookup n f :: deeds) where
  known k hk := by
    have hne : n ≠ k := by omega
    simpa [Deed.looksUp, hne] using h.known k (by omega)
  idle k hk _ := by
    have hne : ∀ g, some (n, f) ≠ some (k, g) := fun g he => by
      cases he
      omega
    exact h.idle k (by omega) hne
  waits k g hwait := by
    have hk := hw k g hwait
    have hne : ∀ g, some (n, f) ≠ some (k, g) := fun g he => by
      have := hk.1
      cases he
      omega
    exact ⟨fun _ => h.idle k (by have := hk.1; omega) hne,
      fun hr => absurd (hk.replacedAt hn) hr⟩
  marks k hk hcapture := by
    rcases Nat.lt_or_eq_of_le hk with hlt | rfl
    · obtain ⟨g, hlookup, hsettled⟩ := h.marks k hlt hcapture
      have hne : n ≠ k := by omega
      exact ⟨g, by simpa [Deed.looksUp, hne] using hlookup, hsettled.cons rfl⟩
    · refine ⟨f, ?_, (h.waits n f rfl).cons rfl⟩
      simpa [Deed.looksUp] using h.known n (by omega)

/-- An item emits what it emits if no function waits. -/
theorem emit (h : Ledger elements (n + 1) none deeds) (hn : ¬CapturesAt elements n)
    (vs : List Value) : Ledger elements n none (.emit n vs :: deeds) where
  known k hk := (h.pass hn).known k hk
  idle k hk hne := (h.pass hn).idle k hk hne
  waits _ _ hwait := nomatch hwait
  marks k hk hcapture := by
    obtain ⟨g, hlookup, hsettled⟩ := (h.pass hn).marks k hk hcapture
    exact ⟨g, hlookup, hsettled.cons rfl⟩

/-- An item is taken by the function that waits. -/
theorem take (h : Ledger elements (n + 1) none deeds) (hn : ¬CapturesAt elements n)
    (hpassed : ¬PassedAt elements n) (hlt : n < elements.length) (hw : WaitsTill elements i n)
    (a v : Value) (splice : Bool) :
    Ledger elements n (some (i, f)) (.argument n a :: .call i f [a] v splice :: deeds) := by
  have hin := hw.1
  have hother : ∀ k, i ≠ k → (Deed.call i f [a] v splice).calls k = false :=
    fun k hk => by simp [Deed.calls, hk]
  refine ⟨fun k hk => (h.pass hn).known k hk, fun k hk hne => ?_, fun k g hwait => ?_,
    fun k hk hcapture => ?_⟩
  · have hik : i ≠ k := fun he => hne f (by rw [he])
    show ((Deed.call i f [a] v splice) :: deeds).filter (Deed.calls k) = []
    rw [List.filter_cons_of_neg (by simp [hother k hik])]
    exact h.idle k (by omega) nofun
  · cases hwait
    refine ⟨fun hr => absurd hr (hw.not_replacedAt hpassed hn), fun _ => ?_⟩
    refine ⟨[a], v, splice, ?_, fun j hj => ?_, fun hnone => ?_⟩
    · show ((Deed.call i f [a] v splice) :: deeds).filter (Deed.calls i) = _
      rw [List.filter_cons_of_pos (by simp [Deed.calls]), h.idle i (by omega) nofun]
    · rw [hj.eq (hw.nextAt hlt hpassed)]
      exact ⟨a, rfl, List.mem_cons_self⟩
    · exact absurd (hw.nextAt hlt hpassed) (hnone n)
  · obtain ⟨g, hlookup, hsettled⟩ := (h.pass hn).marks k hk hcapture
    exact ⟨g, hlookup, (hsettled.cons (hother k (by omega))).cons rfl⟩

end Ledger

end

end PlainList

/-! ## Runs -/

namespace Engine

open PlainList

section
variable {σ : Type} {E : Engine σ} {depth : Nat} {scope : Scope} {elements : List Value}

/-- What is run from a position on to an end is accounted for by deeds. -/
def Accounted (E : Engine σ) (depth : Nat) (scope : Scope) (elements : List Value) (n : Nat)
    (waiting : Option (Nat × Value)) (s : σ) (vs : List Value) (events : List Event) (t : σ) :
    Prop :=
  ∃ deeds, Deed.AllDone E depth scope elements deeds s events t ∧
    vs = deeds.flatMap Deed.values ∧ Ledger elements n waiting deeds

namespace Accounted

variable {n : Nat} {waiting : Option (Nat × Value)} {s t u : σ} {vs : List Value}
  {events later : List Event} {f : Value}

theorem pass (h : Accounted E depth scope elements (n + 1) waiting s vs events t)
    (hn : ¬CapturesAt elements n) : Accounted E depth scope elements n waiting s vs events t := by
  obtain ⟨deeds, hdone, hvs, hledger⟩ := h
  exact ⟨deeds, hdone, hvs, hledger.pass hn⟩

theorem lookup (h : Accounted E depth scope elements (n + 1) (some (n, f)) u vs later t)
    (hd : (Deed.lookup n f).Done E depth scope elements s events u)
    (hw : ∀ k g, waiting = some (k, g) → WaitsTill elements k n) :
    Accounted E depth scope elements n waiting s vs (events ++ later) t := by
  obtain ⟨deeds, hdone, hvs, hledger⟩ := h
  have hn : CapturesAt elements n := by
    cases hd with
    | lookup hx hclause => exact ⟨_, _, hx, hclause⟩
  exact ⟨.lookup n f :: deeds, .cons hd hdone, by simpa [Deed.values] using hvs,
    hledger.lookup hn hw⟩

theorem emit {emitted : List Value}
    (h : Accounted E depth scope elements (n + 1) none u vs later t)
    (hd : (Deed.emit n emitted).Done E depth scope elements s events u)
    (hn : ¬CapturesAt elements n) :
    Accounted E depth scope elements n none s (emitted ++ vs) (events ++ later) t := by
  obtain ⟨deeds, hdone, rfl, hledger⟩ := h
  exact ⟨.emit n emitted :: deeds, .cons hd hdone, by simp [Deed.values],
    hledger.emit hn emitted⟩

theorem take {i : Nat} {a v : Value} {splice : Bool} {r : σ} {called : List Event}
    (h : Accounted E depth scope elements (n + 1) none u vs later t)
    (ha : (Deed.argument n a).Done E depth scope elements s events r)
    (hcall : E.host.apply f [a] r = ⟨.ok v, called, u⟩) (hn : ¬CapturesAt elements n)
    (hpassed : ¬PassedAt elements n) (hlt : n < elements.length) (hw : WaitsTill elements i n) :
    Accounted E depth scope elements n (some (i, f)) s (Context.list.place splice v ++ vs)
      (events ++ (called ++ later)) t := by
  obtain ⟨deeds, hdone, rfl, hledger⟩ := h
  exact ⟨.argument n a :: .call i f [a] v splice :: deeds, .cons ha (.cons (.call hcall) hdone),
    by simp [Deed.values], hledger.take hn hpassed hlt hw a v splice⟩

/-- At the end a function that waits is called. -/
theorem finish {skip splice : Bool}
    (hw : ∀ k g, waiting = some (k, g) → WaitsTill elements k elements.length)
    (hrun : E.finish ⟨skip, waiting.map (·.2), splice⟩ s = ⟨.ok vs, events, t⟩) :
    Accounted E depth scope elements elements.length waiting s vs events t := by
  cases waiting with
  | none =>
    cases hrun
    exact ⟨[], .nil s, rfl, .nothing⟩
  | some entry =>
    obtain ⟨i, f⟩ := entry
    obtain ⟨v, first, u, later, hcall, hplace, rfl⟩ := Run.bind_eq_ok hrun
    cases hplace
    exact ⟨[.call i f [] v splice], .cons (.call hcall) (.nil _), by simp [Deed.values],
      .last (hw i f rfl) v splice⟩

end Accounted

end

/-- An element stands in a list behind some others, at their number. -/
structure Stands (elements before : List Value) (x : Value) : Prop where
  get : elements[before.length]? = some x
  take : elements.take before.length = before

namespace Stands

variable {elements before : List Value} {x : Value}

theorem of_split {rest : List Value} (h : before ++ x :: rest = elements) :
    Stands elements before x := by
  subst h
  exact ⟨by simp, by simp⟩

theorem lt_length (h : Stands elements before x) : before.length < elements.length :=
  (List.getElem?_eq_some_iff.mp h.get).1

theorem not_capturesAt (h : Stands elements before x) (hx : capture? x = none) :
    ¬CapturesAt elements before.length := by
  rintro ⟨y, clause, hy, hclause⟩
  rw [h.get] at hy
  cases hy
  rw [hx] at hclause
  cases hclause

theorem passedAt_iff (h : Stands elements before x) :
    PassedAt elements before.length ↔ isMark x = true ∨ skipped before = true := by
  constructor
  · rintro ⟨y, hy, hpassed⟩
    rw [h.get] at hy
    cases hy
    rwa [h.take] at hpassed
  · intro hpassed
    exact ⟨x, h.get, by rwa [h.take]⟩

/-- A function that waits goes on waiting behind an element that has no turn. -/
theorem waitsTill (h : Stands elements before x) (hx : capture? x = none)
    (hpassed : isMark x = true ∨ skipped before = true) {waiting : Option (Nat × Value)}
    (hw : ∀ i f, waiting = some (i, f) → WaitsTill elements i before.length) :
    ∀ i f, waiting = some (i, f) → WaitsTill elements i (before ++ [x]).length := by
  intro i f hf
  rw [List.length_append, List.length_singleton]
  exact (hw i f hf).succ (h.passedAt_iff.mpr hpassed) (h.not_capturesAt hx)

end Stands

section
variable {σ : Type} (E : Engine σ)

/-- By induction on the elements that are left: what is pending is what waits since its mark, and
every element adds its deeds. -/
theorem accounted_runElements (depth : Nat) (scope : Scope) {elements : List Value}
    (items : List Value) :
    ∀ {before : List Value} {waiting : Option (Nat × Value)} {splice : Bool} {s t : σ}
      {vs : List Value} {events : List Event},
      before ++ items.takeWhile (fun x => !isStop x) = elements →
      (∀ i f, waiting = some (i, f) → WaitsTill elements i before.length) →
      Node.runElements E (E.includer depth) (Node.readElements items) scope
        ⟨skipped before, waiting.map (·.2), splice⟩ s = ⟨.ok vs, events, t⟩ →
      Accounted E depth scope elements before.length waiting s vs events t := by
  induction items with
  | nil =>
    intro before waiting splice s t vs events helements hw hrun
    obtain rfl : before = elements := by simpa using helements
    simp only [Node.readElements, Node.runElements] at hrun
    exact .finish hw hrun
  | cons x rest ih =>
    intro before waiting splice s t vs events helements hw hrun
    obtain ⟨read, hkind, hread⟩ := exists_kind x
    rw [hread] at hrun
    have hsplit : isStop x = false →
        before ++ x :: rest.takeWhile (fun x => !isStop x) = elements := by
      intro hstop
      rw [← helements, List.takeWhile_cons_of_pos (by simp [hstop])]
    have hnext : isStop x = false →
        before ++ [x] ++ rest.takeWhile (fun x => !isStop x) = elements := by
      intro hstop
      rw [← hsplit hstop, List.append_assoc, List.singleton_append]
    -- an element without a turn leaves the function that waits as it is
    have hpass : isStop x = false → capture? x = none →
        (isMark x = true ∨ skipped before = true) → ∀ {splice : Bool},
        Node.runElements E (E.includer depth) (Node.readElements rest) scope
          ⟨skipped (before ++ [x]), waiting.map (·.2), splice⟩ s = ⟨.ok vs, events, t⟩ →
        Accounted E depth scope elements before.length waiting s vs events t := by
      intro hstop hcapture hpassed splice hrun
      have hstands := Stands.of_split (hsplit hstop)
      have hlater := ih (hnext hstop) (hstands.waitsTill hcapture hpassed hw) hrun
      rw [List.length_append, List.length_singleton] at hlater
      exact hlater.pass (hstands.not_capturesAt hcapture)
    cases hkind with
    | stop h =>
      rw [List.takeWhile_cons_of_neg (by simp [h]), List.append_nil] at helements
      subst helements
      simp only [Node.runElements] at hrun
      exact .finish hw hrun
    | skip hstop h hcapture hsplice =>
      have hmark : isMark x = true := by simp [isMark, h]
      have hskipped : skipped (before ++ [x]) = true := by simp [hmark, h]
      simp only [Node.runElements] at hrun
      rw [← hskipped] at hrun
      exact hpass hstop hcapture (.inl hmark) hrun
    | capture hstop hskip hmark h hsplice =>
      have hskipped : skipped (before ++ [x]) = skipped before := by simp [hmark, hskip]
      have hstands := Stands.of_split (hsplit hstop)
      simp only [Node.runElements] at hrun
      obtain ⟨f, first, u, later, hlookup, hlater, rfl⟩ := Run.bind_eq_ok hrun
      have hself : ∀ i g, some (before.length, f) = some (i, g) →
          WaitsTill elements i (before ++ [x]).length := by
        rintro i g heq
        cases heq
        rw [List.length_append, List.length_singleton]
        exact waitsTill_succ_self _
      rw [← hskipped] at hlater
      have hrest := ih (hnext hstop) hself hlater
      rw [List.length_append, List.length_singleton] at hrest
      exact hrest.lookup (.lookup hstands.get h hlookup) hw
    | splice hstop hskip hcapture h =>
      have hmark : isMark x = true := by simp [isMark, h]
      have hskipped : skipped (before ++ [x]) = skipped before := by simp [hmark, hskip]
      simp only [Node.runElements] at hrun
      rw [← hskipped] at hrun
      exact hpass hstop hcapture (.inl hmark) hrun
    | item hstop h hcapture =>
      have hskipped : skipped (before ++ [x]) = false := by simp [h]
      have hstands := Stands.of_split (hsplit hstop)
      have hn := hstands.not_capturesAt hcapture
      cases hbefore : skipped before with
      | true =>
        simp only [Node.runElements, hbefore, if_true] at hrun
        rw [← hskipped] at hrun
        exact hpass hstop hcapture (.inr hbefore) hrun
      | false =>
        have hturn : ¬PassedAt elements before.length := by
          rw [hstands.passedAt_iff, h, hbefore]
          simp
        have hnode : ∀ context splice, Node.run E (E.includer depth) (Node.ofValue x) scope
            context splice = E.emitted depth x scope context splice := by
          intro context splice
          rw [emitted_eq, run_eq]
        simp only [Node.runElements, hbefore, Bool.false_eq_true, if_false, hnode] at hrun
        -- whatever is done for the item, nothing waits behind it
        have hlater : ∀ {splice : Bool} {u w : σ} {more : List Value} {later : List Event},
            Node.runElements E (E.includer depth) (Node.readElements rest) scope
              ⟨false, none, splice⟩ u = ⟨.ok more, later, w⟩ →
            Accounted E depth scope elements (before.length + 1) none u more later w := by
          intro splice u w more later hmore
          rw [← hskipped] at hmore
          have hnone : ∀ i g, (none : Option (Nat × Value)) = some (i, g) →
              WaitsTill elements i (before ++ [x]).length := fun i g h => by cases h
          have hrest := ih (hnext hstop) hnone hmore
          rwa [List.length_append, List.length_singleton] at hrest
        cases waiting with
        | none =>
          obtain ⟨emitted, first, u, _, hemit, hmore, rfl⟩ := Run.bind_eq_ok hrun
          obtain ⟨more, second, w, last, hrest, hpure, rfl⟩ := Run.bind_eq_ok hmore
          cases hpure
          simpa using (hlater hrest).emit (.emit hstands.get hemit) hn
        | some entry =>
          obtain ⟨i, f⟩ := entry
          obtain ⟨argument, first, p, _, hargument, hcalled, rfl⟩ := Run.bind_eq_ok hrun
          obtain ⟨v, second, q, _, hcall, hplaced, rfl⟩ := Run.bind_eq_ok hcalled
          obtain ⟨emitted, third, u, _, hplace, hmore, rfl⟩ := Run.bind_eq_ok hplaced
          cases hplace
          obtain ⟨more, fourth, w, last, hrest, hpure, rfl⟩ := Run.bind_eq_ok hmore
          cases hpure
          have hvalue : E.processWithin depth x scope s = ⟨.ok (single argument), first, p⟩ := by
            rw [processWithin_eq, Run.bind_apply_ok (congrArg Outcome.result hargument), hargument]
            simp
          simpa using (hlater hrest).take (.argument hstands.get hvalue) hcall hn hturn
            hstands.lt_length (hw i f rfl)

/-- **A captured function is called once unless another one replaces it.**  When a list that is
neither a loop nor a condition has been run to values, what was done is a row of deeds, which
report all that the run reported and give the values of the list.  Each mark that captures was
looked up once.  If another such mark comes before the next item that is not skipped, its function
was not called.  Else it was called once, with the value of that item or, if there is none, without
an argument, and what it gave is among the values. -/
theorem captured_unless_replaced {template : Value} {items : List Value}
    (hitems : template.items? = some items)
    (hhead : ∀ x ∈ items.head?, begins ['@'] x = false ∧ begins ['?'] x = false) {depth : Nat}
    {scope : Scope} {context : Context} {splice : Bool} {s t : σ} {values : List Value}
    {events : List Event}
    (hrun : E.emitted depth template scope context splice s = ⟨.ok values, events, t⟩) :
    let elements := items.takeWhile fun x => !isStop x
    ∃ deeds, Deed.AllDone E depth scope elements deeds s events t ∧
      values = context.place (splice || items.head?.any asksSplice)
        (.list (deeds.flatMap Deed.values)) ∧
      ∀ i, CapturesAt elements i → ∃ f,
        deeds.filter (Deed.looksUp i) = [.lookup i f] ∧
        (ReplacedAt elements i → deeds.filter (Deed.calls i) = []) ∧
        (¬ReplacedAt elements i → ∃ args v forced,
          deeds.filter (Deed.calls i) = [.call i f args v forced] ∧
          (∀ j, NextAt elements i j → ∃ a, args = [a] ∧ .argument j a ∈ deeds) ∧
          ((∀ j, ¬NextAt elements i j) → args = [])) := by
  intro elements
  have hnode : Node.ofValue template = Node.ofItems items := by
    cases template with
    | list _ | tuple _ =>
      cases hitems
      rfl
    | _ => cases hitems
  rw [emitted_eq, run_eq, hnode, ofItems_plain hhead] at hrun
  simp only [Node.run] at hrun
  obtain ⟨vs, first, u, later, helements, hplace, rfl⟩ := Run.bind_eq_ok hrun
  cases hplace
  have hnone : ∀ i f, (none : Option (Nat × Value)) = some (i, f) →
      WaitsTill elements i ([] : List Value).length := fun i f h => by cases h
  obtain ⟨deeds, hdone, rfl, hledger⟩ :=
    E.accounted_runElements depth scope items (List.nil_append _) hnone helements
  refine ⟨deeds, by simpa using hdone, rfl, fun i hi => ?_⟩
  obtain ⟨f, hlookup, hsettled⟩ := hledger.marks i (Nat.zero_le i) hi
  exact ⟨f, hlookup, hsettled.replaced, hsettled.called⟩

/-- One function takes the item after it, another one still waits at the end. -/
theorem captured_unless_replaced_pair :
    let E : Engine Library.State := ⟨Library.host, ["."], fun _ => none, fun _ _ => .ok .null⟩
    let items : List Value := [.str "^pair", .int 1, .str "^pair"]
    let scope : Scope := [.map [(.str "pair", .host (.function "pair"))]]
    (∀ x ∈ items.head?, begins ['@'] x = false ∧ begins ['?'] x = false) ∧
      ∃ events t, E.emitted 0 (.list items) scope .single false default =
          ⟨.ok [.list [.list [.int 1, .int 1], .list [.null, .null]]], events, t⟩ ∧
        ∃ deeds, Deed.AllDone E 0 scope items deeds default events t ∧
          (∃ f a v forced, deeds.filter (Deed.calls 0) = [.call 0 f [a] v forced]) ∧
          ∃ f v forced, deeds.filter (Deed.calls 2) = [.call 2 f [] v forced] := by
  intro E items scope
  have hhead : ∀ x ∈ items.head?, begins ['@'] x = false ∧ begins ['?'] x = false := by
    rintro x hx
    cases hx
    decide
  have hparse : Expr.parse? "pair" = some (.named ['p', 'a', 'i', 'r']) := by cbv
  have hread : Node.ofItems items =
      .elements false [.capture "pair", .item (.verbatim (.int 1)), .capture "pair"] := rfl
  obtain ⟨events, t, hrun⟩ : ∃ events t, E.emitted 0 (.list items) scope .single false default =
      ⟨.ok [.list [.list [.int 1, .int 1], .list [.null, .null]]], events, t⟩ := by
    rw [emitted_eq, run_eq, Node.ofValue, hread]
    simp only [Node.run, Node.runElements, callee, evaluate, Expr.evaluate, hparse]
    exact ⟨_, _, rfl⟩
  have htake : items.takeWhile (fun x => !isStop x) = items := rfl
  obtain ⟨deeds, hdone, -, hmarks⟩ := E.captured_unless_replaced rfl hhead hrun
  rw [htake] at hdone hmarks
  refine ⟨hhead, events, t, hrun, deeds, hdone, ?_, ?_⟩
  · obtain ⟨f, -, -, hcalled⟩ := hmarks 0 ⟨.str "^pair", "pair", rfl, rfl⟩
    have hitem : ¬PassedAt items 1 := by
      rintro ⟨x, hx, h⟩
      cases hx
      exact absurd h (by decide)
    have hkept : ¬ReplacedAt items 0 := by
      rintro ⟨k, hk, ⟨x, clause, hx, hclause⟩, hpassed⟩
      rcases Nat.lt_or_eq_of_le hk with h1 | rfl
      · exact hitem (hpassed 1 (by omega) h1)
      · cases hx
        cases hclause
    obtain ⟨args, v, forced, hcall, hnext, -⟩ := hcalled hkept
    obtain ⟨a, rfl, -⟩ := hnext 1 ⟨by decide, by decide, hitem, fun m h0 h1 => by omega⟩
    exact ⟨f, a, v, forced, hcall⟩
  · obtain ⟨f, -, -, hcalled⟩ := hmarks 2 ⟨.str "^pair", "pair", rfl, rfl⟩
    have hkept : ¬ReplacedAt items 2 := by
      rintro ⟨k, hk, hcapture, -⟩
      have hlt : k < 3 := hcapture.lt_length
      omega
    obtain ⟨args, v, forced, hcall, -, hnone⟩ := hcalled hkept
    have hargs : args = [] := hnone fun j hj => by
      have hlt : j < 3 := hj.2.1
      have := hj.1
      omega
    exact ⟨f, v, forced, hargs ▸ hcall⟩

/-- A function that waits is lost at the next mark that captures: it is never called. -/
theorem waiting_function_is_lost :
    let E : Engine Library.State := ⟨Library.host, ["."], fun _ => none, fun _ _ => .ok .null⟩
    let items : List Value := [.str "^seen", .str "^ident", .int 1]
    let scope : Scope := [.map [(.str "seen", .host (.function "seen")),
      (.str "ident", .host (.function "ident"))]]
    let outcome := E.emitted 0 (.list items) scope .single false default
    CapturesAt items 0 ∧ outcome.result = .ok [.list [.int 1]] ∧
      (∀ args, Event.call (.function (.function "seen") args) ∉ outcome.events) ∧
      outcome.state.seen = [] := by
  intro E items scope outcome
  have hseen : Expr.parse? "seen" = some (.named ['s', 'e', 'e', 'n']) := by cbv
  have hident : Expr.parse? "ident" = some (.named ['i', 'd', 'e', 'n', 't']) := by cbv
  have hread : Node.ofItems items =
      .elements false [.capture "seen", .capture "ident", .item (.verbatim (.int 1))] := rfl
  have hrun : outcome = ⟨.ok [.list [.int 1]], [.clause "seen", .clause "ident",
      .call (.function (.function "ident") [.int 1])], default⟩ := by
    show E.emitted 0 (.list items) scope .single false default = _
    rw [emitted_eq, run_eq, Node.ofValue, hread]
    simp only [Node.run, Node.runElements, callee, evaluate, Expr.evaluate, hseen, hident]
    rfl
  refine ⟨⟨.str "^seen", "seen", rfl, rfl⟩, by rw [hrun], fun args h => ?_, by rw [hrun]; rfl⟩
  rw [hrun] at h
  simp at h

end

end Engine
end TreeTemplate

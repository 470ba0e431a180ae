import TreeTemplate.Host.Library
import TreeTemplate.Proofs.Scope.Agreement
import TreeTemplate.Proofs.Template.Ranks
import TreeTemplate.Proofs.Template.ReadAlike

/-! # The order in which entries are written

A mapping of a template is processed in the order of the texts of its keys, and a case of a switch
is chosen by its key.  So templates that differ only in the order in which the entries of their
mappings stand (`Value.Rearranged`) have the same runs, as long as no two keys of a mapping have
one text (`Engine.insertion_order_irrelevant`).
-/
namespace TreeTemplate

variable {σ : Type}

/-! ## Templates rearranged -/

namespace Value

mutual

/-- The same template with the entries of its mappings in another order, at any depth. -/
inductive Rearranged : Value → Value → Prop
  | refl (v : Value) : Rearranged v v
  | list {items others : List Value} (h : ItemsRearranged items others) :
    Rearranged (.list items) (.list others)
  | tuple {items others : List Value} (h : ItemsRearranged items others) :
    Rearranged (.tuple items) (.tuple others)
  | map {entries others rows : List (Value × Value)} (h : EntriesRearranged entries others)
    (hp : rows.Perm others) : Rearranged (.map entries) (.map rows)

/-- The same items, each of them rearranged. -/
inductive ItemsRearranged : List Value → List Value → Prop
  | nil : ItemsRearranged [] []
  | cons {v w : Value} {items others : List Value} (h : Rearranged v w)
    (hrest : ItemsRearranged items others) : ItemsRearranged (v :: items) (w :: others)

/-- The same entries, the value of each of them rearranged. -/
inductive EntriesRearranged : List (Value × Value) → List (Value × Value) → Prop
  | nil : EntriesRearranged [] []
  | cons (key : Value) {v w : Value} {entries others : List (Value × Value)} (h : Rearranged v w)
    (hrest : EntriesRearranged entries others) :
    EntriesRearranged ((key, v) :: entries) ((key, w) :: others)

end

/-- No two keys of a mapping, at any depth, have one text, however the host shows what it lends. -/
inductive KeysApart (H : Host σ) : Value → Prop
  | scalar {v : Value} (hi : v.items? = none) (he : v.entries? = none) : KeysApart H v
  | items {v : Value} {items : List Value} (hv : v.items? = some items)
    (h : ∀ item ∈ items, KeysApart H item) : KeysApart H v
  | map {entries : List (Value × Value)} (hd : Mapping.Distinct entries)
    (ht : ∀ s, entries.Pairwise fun a b => a.1.text (H.shows s) ≠ b.1.text (H.shows s))
    (h : ∀ entry ∈ entries, KeysApart H entry.2) : KeysApart H (.map entries)

theorem KeysApart.of_items {H : Host σ} {v : Value} {items : List Value} (h : v.KeysApart H)
    (hv : v.items? = some items) : ∀ item ∈ items, item.KeysApart H := by
  cases h with
  | scalar hi => simp [hi] at hv
  | items hw h => exact Option.some.inj (hw.symm.trans hv) ▸ h
  | map => cases hv

end Value

/-! ## Switches -/

/-- Where at most one item fits, it is found in every order of the items. -/
theorem find?_of_perm {α : Type} {p : α → Bool} {items others : List α} (hp : others.Perm items)
    (hd : items.Pairwise fun a b => ¬(p a = true ∧ p b = true)) :
    others.find? p = items.find? p := by
  induction hp with
  | nil => rfl
  | cons a _ ih =>
    rw [List.find?_cons, List.find?_cons, ih (List.pairwise_cons.mp hd).2]
  | swap a b rest =>
    have hab := (List.pairwise_cons.mp hd).1 b List.mem_cons_self
    simp only [List.find?_cons]
    cases ha : p a <;> cases hb : p b <;> simp_all
  | trans hfirst hsecond ihfirst ihsecond =>
    have hmiddle := (hsecond.pairwise_iff fun hab hba => hab hba.symm).mpr hd
    exact (ihfirst hmiddle).trans (ihsecond hd)

namespace Node

variable (E : Engine σ) (include_ : Includer σ)

/-- The case that is run is the first with the chosen key. -/
theorem runCase_eq (cases : List (Value × Node)) (chosen : Value) (scope : Scope)
    (context : Context) (splice : Bool) :
    runCase E include_ cases chosen scope context splice =
      runBranch E include_ ((cases.find? (·.1.sameKey chosen)).map (·.2)) scope context splice := by
  induction cases with
  | nil => simp [runCase, runBranch]
  | cons case rest ih =>
    obtain ⟨key, node⟩ := case
    rw [runCase, ih]
    by_cases hk : key.sameKey chosen = true
    · simp [hk, runBranch]
    · simp [hk]

/-- Cases with different keys may stand in any order. -/
theorem run_switch_of_perm {cases others : List (Value × Node)} (hp : others.Perm cases)
    (hd : cases.Pairwise fun a b => a.1.sameKey b.1 = false) (key clause : String) :
    run E include_ (.switch key clause others) = run E include_ (.switch key clause cases) := by
  have hkeys : ∀ v, E.chooseCase (others.map (·.1)) v = E.chooseCase (cases.map (·.1)) v := by
    have hany : ∀ v : Value, (others.map (·.1)).any (Value.sameKey · v) =
        (cases.map (·.1)).any (Value.sameKey · v) := fun v => by
      rw [Bool.eq_iff_iff, List.any_eq_true, List.any_eq_true]
      simp only [(hp.map (·.1)).mem_iff]
    intro v
    simp only [Engine.chooseCase, hany]
  have hfind : ∀ chosen : Value, others.find? (·.1.sameKey chosen) =
      cases.find? (·.1.sameKey chosen) := fun chosen => by
    refine find?_of_perm hp (hd.imp fun {a b} hne hboth => ?_)
    have hb := hboth.2
    rw [Value.sameKey_comm] at hb
    rw [Value.sameKey_trans hboth.1 hb] at hne
    cases hne
  funext scope context splice
  simp only [run, hkeys, runCase_eq, hfind]

/-! ## What rearranged templates are read as -/

/-- Values that are read alike both where a value stands and where the cases of a switch do. -/
structure Congruence.AlikeEverywhere (M : Congruence) (v w : Value) : Prop where
  value : M.ReadAlike v w
  switch (key clause : String) : M.rel (Node.ofSwitch key clause v) (Node.ofSwitch key clause w)

theorem Congruence.AlikeEverywhere.refl {M : Congruence} (v : Value) : M.AlikeEverywhere v v :=
  ⟨.refl v, fun _ _ => M.refl _⟩

/-- Entries with the same key, whose values are alike everywhere. -/
def Congruence.SameEntry (M : Congruence) (c d : Value × Value) : Prop :=
  c.1 = d.1 ∧ M.AlikeEverywhere c.2 d.2

theorem Congruence.SameEntry.alike {M : Congruence} {c d : Value × Value} (h : M.SameEntry c d) :
    M.EntryAlike c d := by
  obtain ⟨key, v⟩ := c
  obtain ⟨_, w⟩ := d
  obtain ⟨rfl, hv⟩ := h
  by_cases hk : key.AsksSwitch
  · cases key with
    | str s => exact .switch hk (hv.switch s)
    | _ => exact hk.elim
  · exact .value hk hv.value

theorem keys_eq {M : Congruence} {entries others : List (Value × Value)}
    (h : List.Forall₂ M.SameEntry entries others) : others.map (·.1) = entries.map (·.1) := by
  induction h with
  | nil => rfl
  | cons hentry _ ih => rw [List.map_cons, List.map_cons, ih, hentry.1]

/-- What holds of the keys of any two entries is a matter of the keys. -/
theorem pairwise_keys {M : Congruence} {entries others : List (Value × Value)}
    (h : List.Forall₂ M.SameEntry entries others) {r : Value → Value → Prop}
    (hr : entries.Pairwise fun a b => r a.1 b.1) : others.Pairwise fun a b => r a.1 b.1 :=
  List.pairwise_map.mp (keys_eq h ▸ List.pairwise_map.mpr hr)

section
variable {E include_} {C : Engine.Corresponds (.equality σ) Eq E E include_ include_}
  {entries others rows : List (Value × Value)}
  (h : List.Forall₂ (alike C).SameEntry entries others) (hp : rows.Perm others)
include h hp

theorem ofMap_rearranged
    (ht : ∀ s, entries.Pairwise fun a b => a.1.text (E.host.shows s) ≠ b.1.text (E.host.shows s)) :
    (alike C).rel (ofValue (.map entries)) (ofValue (.map rows)) := by
  have halike : List.Forall₂ (alike C).EntryAlike entries others := h.imp fun _ _ => (·.alike)
  simp only [ofValue]
  refine (alike C).mapping fun text htext => ?_
  obtain ⟨u, rfl⟩ := htext
  have hrows : (readEntries rows).Perm (readEntries others) := by
    rw [readEntries_eq_map, readEntries_eq_map]
    exact hp.map _
  have hapart : (readEntries others).Pairwise fun a b =>
      a.1.text (E.host.shows u) ≠ b.1.text (E.host.shows u) := by
    rw [readEntries_eq_map]
    exact List.pairwise_map.mpr
      (pairwise_keys h (r := fun a b => a.text (E.host.shows u) ≠ b.text (E.host.shows u)) (ht u))
  rw [inOrder_perm hrows hapart]
  exact (alike C).ofReadings (inOrder_lift _ (Congruence.readEntries halike))

theorem ofSwitch_rearranged (hd : Mapping.Distinct entries) (key clause : String) :
    (alike C).rel (ofSwitch key clause (.map entries)) (ofSwitch key clause (.map rows)) := by
  have hcases := Congruence.ofSwitch (M := alike C) key clause
    (h.imp fun _ _ hcase => ⟨hcase.1, hcase.2.value.rel⟩)
  have hperm : (readCases rows).Perm (readCases others) := by
    rw [readCases_eq_map, readCases_eq_map]
    exact hp.map _
  have hdistinct : (readCases others).Pairwise fun a b => a.1.sameKey b.1 = false := by
    rw [readCases_eq_map]
    exact List.pairwise_map.mpr (pairwise_keys h (r := fun a b => a.sameKey b = false) hd)
  have hrun := run_switch_of_perm E include_ hperm hdistinct key clause
  simp only [ofSwitch] at hcases ⊢
  intro s t hs context splice
  rw [hrun]
  exact hcases hs context splice

end

section
variable {E include_} {C : Engine.Corresponds (.equality σ) Eq E E include_ include_}

mutual

/-- By the recursion of the template. -/
theorem alike_of_rearranged : ∀ (v : Value) {w : Value}, v.Rearranged w → v.KeysApart E.host →
    (alike C).AlikeEverywhere v w
  | .list items, _, h, hk => by
    cases h with
    | refl => exact .refl _
    | list h =>
      have hitems := alike_of_itemsRearranged items h (hk.of_items rfl)
      exact ⟨.unmarked trivial trivial (Congruence.ofItems hitems), fun _ _ => (alike C).refl _⟩
  | .tuple items, _, h, hk => by
    cases h with
    | refl => exact .refl _
    | tuple h =>
      have hitems := alike_of_itemsRearranged items h (hk.of_items rfl)
      exact ⟨.unmarked trivial trivial (Congruence.ofItems hitems), fun _ _ => (alike C).refl _⟩
  | .map entries, _, h, hk => by
    cases h with
    | refl => exact .refl _
    | map h hp =>
      cases hk with
      | scalar _ he => cases he
      | items hv => cases hv
      | map hd ht hvalues =>
        have hentries := sameEntries_of_rearranged entries h hvalues
        exact ⟨.unmarked trivial trivial (ofMap_rearranged hentries hp ht),
          ofSwitch_rearranged hentries hp hd⟩
  | .null, _, h, _ | .bool _, _, h, _ | .int _, _, h, _ | .float _, _, h, _ | .str _, _, h, _
  | .bytes _, _, h, _ | .moment _, _, h, _ | .host _, _, h, _ => by
    cases h
    exact .refl _

theorem alike_of_itemsRearranged : ∀ (items : List Value) {others : List Value},
    Value.ItemsRearranged items others → (∀ item ∈ items, item.KeysApart E.host) →
    List.Forall₂ (alike C).ReadAlike items others
  | [], _, h, _ => by
    cases h
    exact .nil
  | v :: rest, _, h, hk => by
    obtain ⟨hv, hrest⟩ := List.forall_mem_cons.mp hk
    cases h with
    | cons h hmore =>
      exact .cons (alike_of_rearranged v h hv).value (alike_of_itemsRearranged rest hmore hrest)

theorem sameEntries_of_rearranged : ∀ (entries : List (Value × Value))
    {others : List (Value × Value)}, Value.EntriesRearranged entries others →
    (∀ entry ∈ entries, entry.2.KeysApart E.host) →
    List.Forall₂ (alike C).SameEntry entries others
  | [], _, h, _ => by
    cases h
    exact .nil
  | (key, v) :: rest, _, h, hk => by
    obtain ⟨hv, hrest⟩ := List.forall_mem_cons.mp hk
    cases h with
    | cons _ h hmore =>
      exact .cons ⟨rfl, alike_of_rearranged v h hv⟩ (sameEntries_of_rearranged rest hmore hrest)

end

end

end Node

/-! ## Processing -/

namespace Engine

variable (E : Engine σ)

theorem emitted_rearranged {template other : Value} (h : template.Rearranged other)
    (hk : template.KeysApart E.host) (depth : Nat) :
    E.emitted depth other = E.emitted depth template := by
  have hself : Corresponds (.equality σ) Eq E E (E.includer depth) (E.includer depth) :=
    E.corresponds fun _ _ _ _ => rfl
  have halike := Node.alike_of_rearranged (C := hself) template h hk
  funext scope context splice
  rw [emitted_eq, emitted_eq, run_eq, run_eq]
  exact (halike.value.rel rfl context splice).symm

/-- **The order in which entries are written is irrelevant.**  Where no two keys of a mapping have
one text, a template and another one that differs from it only in the order of entries, at any
depth, come to the same value with its keys in the same order, or to the same error, and call the
host alike. -/
theorem insertion_order_irrelevant {template other : Value} (h : template.Rearranged other)
    (hk : template.KeysApart E.host) (depth : Nat) (scope : Scope) :
    E.processWithin depth other scope = E.processWithin depth template scope := by
  rw [processWithin_eq, processWithin_eq, E.emitted_rearranged h hk]

/-- Entries below a list and the cases of a switch, each pair of them the other way round. -/
theorem insertion_order_irrelevant_switch :
    let E : Engine Library.State := ⟨Library.host, ["."], fun _ => none, fun _ _ => .ok .null⟩
    let cases : List (Value × Value) := [(.str "1", .str "one"), (.int 2, .str "$x")]
    let template : Value :=
      .map [(.str "b", .list [.map [(.str "?x", .map cases)]]), (.str "a", .str "&x")]
    let other : Value :=
      .map [(.str "a", .str "&x"), (.str "b", .list [.map [(.str "?x", .map cases.reverse)]])]
    template.Rearranged other ∧ template.KeysApart E.host ∧
      ∀ scope, E.process other scope = E.process template scope := by
  intro E cases template other
  have hcases : (Value.map cases).Rearranged (.map cases.reverse) :=
    .map (.cons (.str "1") (.refl _) (.cons (.int 2) (.refl _) .nil)) cases.reverse_perm
  have hswitch : (Value.map [(.str "?x", .map cases)]).Rearranged
      (.map [(.str "?x", .map cases.reverse)]) :=
    .map (.cons (.str "?x") hcases .nil) (.refl _)
  have hother : template.Rearranged other :=
    .map (.cons (.str "b") (.list (.cons hswitch .nil)) (.cons (.str "a") (.refl _) .nil))
      (List.Perm.swap ..)
  have hstr : ∀ s : String, (Value.str s).KeysApart E.host := fun _ => .scalar rfl rfl
  have hcasesApart : (Value.map cases).KeysApart E.host := by
    refine .map (by decide +kernel) (fun s => ?_) (by simp [cases, hstr])
    have htwo : Value.text (E.host.shows s) (.int 2) = "2" := rfl
    have hone : Value.text (E.host.shows s) (.str "1") = "1" := rfl
    simp only [cases, List.pairwise_pair, htwo, hone]
    decide
  have hswitchApart : (Value.map [(.str "?x", .map cases)]).KeysApart E.host :=
    .map (by decide +kernel) (by simp) (List.forall_mem_singleton.mpr hcasesApart)
  have hapart : template.KeysApart E.host := by
    refine .map (by decide +kernel) (by simp [Value.text]) (List.forall_mem_cons.mpr ⟨?_, ?_⟩)
    · exact .items rfl (List.forall_mem_singleton.mpr hswitchApart)
    · exact List.forall_mem_singleton.mpr (hstr "&x")
  exact ⟨hother, hapart, E.insertion_order_irrelevant hother hapart includeDepth⟩

end Engine
end TreeTemplate

import TreeTemplate.Proofs.Scope.Lineage
import TreeTemplate.Scope.Grove

/-! # Who sees a write

A write into an environment is seen from exactly those environments in which it is, after the
write, the first owner of the key (`Forest.written_modify`).  This and what is read from a
grove hold after any row of steps (`Grove.write_visibility`): names may be given again, but no step
gives an environment another parent, so every line of ancestors stays as it is.
-/
namespace TreeTemplate

/-- A mapping that is written into has the value under the key and all else as it was. -/
theorem Value.ownValue?_assign {data key value data' : Value} (hmap : data.entries?.isSome = true)
    (h : data.assign key value = .ok data') (other : Value) :
    Scope.ownValue? data' other =
      if key.sameKey other = true then some value else Scope.ownValue? data other := by
  cases data with
  | map entries =>
    simp only [assign] at h
    split at h
    · cases h
      simp [Scope.ownValue?, Mapping.find?_insert]
    · cases h
  | _ => cases hmap

namespace Forest

/-- Two ways of asking a row that differ in one place alone, and not in whether there is anything to
be found, find the same unless the first find is in that place. -/
theorem findSome?_eq_of_find?_ne {f g : Nat → Option Value} {id : Nat}
    (hother : ∀ a, a ≠ id → g a = f a) (hid : g id = none → f id = none) :
    ∀ {ids : List Nat}, ids.find? (fun a => (g a).isSome) ≠ some id →
      ids.findSome? g = ids.findSome? f
  | [], _ => rfl
  | a :: rest, h => by
    rw [List.find?_cons] at h
    rw [List.findSome?_cons, List.findSome?_cons]
    by_cases ha : a = id
    · subst ha
      cases hg : g a with
      | some v => simp [hg] at h
      | none =>
        rw [hid hg]
        exact findSome?_eq_of_find?_ne hother hid (by simpa [hg] using h)
    · rw [hother a ha] at h ⊢
      cases hf : f a with
      | some v => rfl
      | none => exact findSome?_eq_of_find?_ne hother hid (by simpa [hf] using h)

/-- What a write of a key makes of a forest: the environment that is written owns the value, it is
seen wherever that environment is the first owner of the key, and nothing else changes. -/
structure Written (F G : Forest) (id : Nat) (key value : Value) : Prop where
  own? (key' : Value) :
    G.own? id key' = if key.sameKey key' = true then some value else F.own? id key'
  others (other : Nat) (h : other ≠ id) : G.find? other = F.find? other
  line (other : Nat) : G.line other = F.line other
  value? (other : Nat) (key' : Value) : G.value? other key' =
    if key.sameKey key' = true ∧ G.owner? other key = some id then some value
    else F.value? other key'

theorem own?_modify {F : Forest} {id : Nat} {e : Environment} (he : F.find? id = some e)
    (data : Value) (other : Nat) (key : Value) : (F.modify id data).own? other key =
      if other = id then Scope.ownValue? data key else F.own? other key := by
  rw [own?, find?_modify, he]
  split <;> rfl

/-- A write sees to it that the environment owns the key, so that whoever comes to it first, or to
another owner before it, finds what the owner has. -/
theorem written_modify {F : Forest} {id : Nat} {e : Environment} {key value data : Value}
    (he : F.find? id = some e) (hmap : e.data.entries?.isSome = true)
    (h : e.data.assign key value = .ok data) : F.Written (F.modify id data) id key value := by
  have hown : ∀ key', (F.modify id data).own? id key' =
      if key.sameKey key' = true then some value else F.own? id key' := by
    intro key'
    rw [own?_modify he, if_pos rfl, Value.ownValue?_assign hmap h, own?, he]
    rfl
  have hother : ∀ other, other ≠ id → ∀ key', (F.modify id data).own? other key' =
      F.own? other key' := fun other hne key' => by rw [own?_modify he, if_neg hne]
  refine ⟨hown, fun other hne => by rw [find?_modify, if_neg hne], fun other => line_modify ..,
    fun other key' => ?_⟩
  rw [value?_eq_findSome?, value?_eq_findSome?, line_modify]
  by_cases hsame : key.sameKey key' = true
  · have howner : (F.modify id data).owner? other key =
        (F.line other).find? fun a => ((F.modify id data).own? a key').isSome := by
      simp only [owner?, owns, own?_congr hsame, line_modify]
    by_cases hfirst : (F.modify id data).owner? other key = some id
    · rw [if_pos ⟨hsame, hfirst⟩]
      rw [howner] at hfirst
      rw [findSome?_eq_bind_find?, hfirst, Option.bind_some, hown, if_pos hsame]
    · rw [if_neg fun h => hfirst h.2]
      rw [howner] at hfirst
      refine findSome?_eq_of_find?_ne (fun a ha => hother a ha key') (fun hnone => ?_) hfirst
      rw [hown, if_pos hsame] at hnone
      cases hnone
  · rw [if_neg fun h => hsame h.1]
    congr 1
    funext a
    by_cases ha : a = id
    · rw [ha, hown, if_neg hsame]
    · exact hother a ha key'

/-- A write into a mapping fails in an environment that is immutable, or for a key that cannot be
one, and is made otherwise. -/
inductive WriteOutcome (F : Forest) (id : Nat) (e : Environment) (shownKey : String)
    (key value : Value) : Except Failure Forest → Prop
  | immutable (h : e.immutable = true) :
    WriteOutcome F id e shownKey key value (.error (.engine (.immutableWrite shownKey) none))
  | unhashable {typeName : String} (h : e.immutable = false) (hk : key.key? = .error typeName) :
    WriteOutcome F id e shownKey key value (.error (.fault (.unhashable typeName)))
  | written {G : Forest} (h : e.immutable = false) (hk : key.isHashable = true)
    (hw : F.Written G id key value) : WriteOutcome F id e shownKey key value (.ok G)

theorem writeOutcome_set {F : Forest} {id : Nat} {e : Environment} (he : F.find? id = some e)
    (hmap : e.data.entries?.isSome = true) (shownKey : String) (key value : Value) :
    F.WriteOutcome id e shownKey key value (F.set id shownKey key value) := by
  obtain ⟨data, immutable, parent⟩ := e
  cases data with
  | map entries =>
    simp only [set, he, Value.assign]
    cases immutable with
    | true => exact .immutable rfl
    | false =>
      cases hk : key.key? with
      | error typeName => exact .unhashable rfl hk
      | ok k =>
        refine .written rfl (by simp [Value.isHashable, hk]) (written_modify he hmap ?_)
        simp only [Value.assign, hk]
  | _ => cases hmap

/-- All environments are in another forest as they were: their data, their parents, and what every
key means in them. -/
structure Kept (F G : Forest) : Prop where
  find? {id : Nat} (h : id < F.length) : G.find? id = F.find? id
  line {id : Nat} (h : id < F.length) : G.line id = F.line id
  value? {id : Nat} (h : id < F.length) (key : Value) : G.value? id key = F.value? id key

theorem Kept.refl (F : Forest) : F.Kept F := ⟨fun _ => rfl, fun _ => rfl, fun _ _ => rfl⟩

theorem Kept.cons (F : Forest) (e : Environment) : F.Kept (e :: F) where
  find? h := find?_cons_of_lt h e
  line h := line_cons_of_lt h e
  value? h key := by
    rw [Forest.value?, scope, chain, if_neg (Nat.ne_of_lt h)]
    rfl

theorem Sound.cons {F : Forest} (h : F.Sound) {e : Environment}
    (hp : ∀ parent ∈ e.parent, parent < F.length) : Sound (e :: F) := by
  intro id e' parent he hparent
  by_cases hid : id = F.length
  · rw [Forest.find?, if_pos hid] at he
    cases he
    rw [hid]
    exact hp parent hparent
  · rw [Forest.find?, if_neg hid] at he
    exact h id e' parent he hparent

/-- A write changes no parent. -/
theorem Sound.modify {F : Forest} (h : F.Sound) (id : Nat) (data : Value) :
    (F.modify id data).Sound := by
  intro other e parent he hp
  rw [find?_modify] at he
  split at he
  · rename_i hother
    obtain ⟨old, hold, rfl⟩ := Option.map_eq_some_iff.mp he
    exact h other old parent (hother ▸ hold) hp
  · exact h other e parent he hp

/-- Data that is written into remains a mapping. -/
theorem entries?_assign {data key value data' : Value} (hmap : data.entries?.isSome = true)
    (h : data.assign key value = .ok data') : data'.entries?.isSome = true := by
  cases data with
  | map entries =>
    simp only [Value.assign] at h
    split at h
    · cases h
      rfl
    · cases h
  | _ => cases hmap

/-- A new environment that is given a mapping, or nothing, has a mapping. -/
theorem entries?_made : ∀ {data : Value}, data = .null ∨ data.entries?.isSome = true →
    (if data matches .null then .map [] else data : Value).entries?.isSome = true := by
  rintro data (rfl | h)
  · rfl
  · cases data with
    | map entries => rfl
    | _ => cases h

end Forest

namespace Grove

variable (shows : HostRef → String)

/-- The grove after a step, if there is such a step. -/
def next (G : Grove) (t : Step) : Grove := ((G.step shows t).map (·.2)).getD G

/-- The grove after a row of steps. -/
def after (G : Grove) (steps : List Step) : Grove := steps.foldl (next shows) G

/-- A new environment is given a mapping, or nothing. -/
def Step.Mapped : Step → Prop
  | .new _ data _ _ => data = .null ∨ data.entries?.isSome = true
  | .child _ _ data => data = .null ∨ data.entries?.isSome = true
  | _ => True

/-- What every step sees to: parents are older than their children, environments have mappings, and
names stand for environments. -/
structure Sound (G : Grove) : Prop where
  forest : G.forest.Sound
  mapped {id : Nat} {e : Environment} (h : G.forest.find? id = some e) :
    e.data.entries?.isSome = true
  named {name : String} {id : Nat} (h : G.id? name = some id) : id < G.forest.length

/-! ## One step -/

theorem sound_empty : Sound {} where
  forest _ _ _ he := nomatch he
  mapped h := nomatch h
  named h := nomatch h

theorem Sound.add {G : Grove} (h : G.Sound) (name : String) {data : Value}
    (hdata : data = .null ∨ data.entries?.isSome = true) (immutable : Bool) {parent : Option Nat}
    (hparent : ∀ id ∈ parent, id < G.forest.length) :
    (G.add name data immutable parent).2.Sound := by
  refine ⟨h.forest.cons hparent, fun {id e} he => ?_, fun {other id} hid => ?_⟩
  · by_cases hnew : id = G.forest.length
    · cases (if_pos hnew).symm.trans he
      exact Forest.entries?_made hdata
    · exact h.mapped ((if_neg hnew).symm.trans he)
  · show id < G.forest.length + 1
    rw [id?, Grove.add, List.lookup_cons] at hid
    split at hid
    · cases hid
      exact Nat.lt_succ_self _
    · exact Nat.lt_succ_of_lt (h.named hid)

theorem Sound.write {G : Grove} (h : G.Sound) {id : Nat} {shownKey : String} {key value : Value}
    {F : Forest} (hset : G.forest.set id shownKey key value = .ok F) :
    Sound { G with forest := F } := by
  unfold Forest.set at hset
  split at hset
  · cases hset
    exact h
  · rename_i e he
    split at hset
    · cases hset
    · split at hset
      · rename_i data hdata
        cases hset
        refine ⟨h.forest.modify id data, fun {other e'} he' => ?_, fun {name other} hname => ?_⟩
        · rw [Forest.find?_modify] at he'
          split at he'
          · rw [he] at he'
            cases he'
            exact Forest.entries?_assign (h.mapped he) hdata
          · exact h.mapped he'
        · rw [Forest.length_modify]
          exact h.named hname
      · cases hset

/-- What a step can do: make an environment inside one that has a name or inside none, write into
one that has a name, or only read. -/
inductive Effect (G : Grove) : Step → Except Failure Value × Grove → Prop
  | made {t : Step} (name : String) {data : Value} (immutable : Bool) {parent : Option Nat}
    (hset : ∀ name key value, t ≠ .set name key value)
    (hdata : t.Mapped → data = .null ∨ data.entries?.isSome = true)
    (hparent : ∀ id ∈ parent, ∃ name, G.id? name = some id) :
    Effect G t (G.add name data immutable parent)
  | write {name : String} {id : Nat} (key value : Value) (hid : G.id? name = some id) :
    Effect G (.set name key value) (G.write shows id key value)
  | read {t : Step} (answer : Except Failure Value) : Effect G t (answer, G)

theorem effect_step {G : Grove} {t : Step} {result : Except Failure Value × Grove}
    (h : G.step shows t = some result) : Effect shows G t result := by
  cases t with
  | new name data immutable parent =>
    cases h
    exact .made name immutable nofun id fun id hid => ⟨parent, hid⟩
  | child parent name data =>
    obtain ⟨id, hid, rfl⟩ := Option.map_eq_some_iff.mp h
    refine .made name false nofun (fun hdata => hdata) fun other hother => ?_
    cases hother
    exact ⟨parent, hid⟩
  | set name key value =>
    obtain ⟨id, hid, rfl⟩ := Option.map_eq_some_iff.mp h
    exact .write key value hid
  | _ =>
    obtain ⟨id, -, rfl⟩ := Option.map_eq_some_iff.mp h
    exact .read _

variable {shows}

theorem Sound.effect {G : Grove} (h : G.Sound) {t : Step} (ht : t.Mapped)
    {result : Except Failure Value × Grove} (heffect : Effect shows G t result) :
    result.2.Sound := by
  cases heffect with
  | made name immutable _ hdata hparent =>
    refine h.add name (hdata ht) immutable fun id hid => ?_
    obtain ⟨_, hname⟩ := hparent id hid
    exact h.named hname
  | write key value hid =>
    unfold Grove.write
    split
    · exact h.write ‹_›
    · exact h
  | read => exact h

/-- Every environment is as it was after a step that makes one, that reads, or that fails. -/
theorem kept_of_effect {G : Grove} {t : Step} {result : Except Failure Value × Grove}
    (h : Effect shows G t result)
    (hkept : (∀ name key value, t ≠ .set name key value) ∨ ∃ f, result.1 = .error f) :
    G.forest.Kept result.2.forest := by
  cases h with
  | made => exact .cons _ _
  | @write name id key value hid =>
    obtain hset | ⟨f, hf⟩ := hkept
    · exact absurd rfl (hset name key value)
    · unfold Grove.write at hf ⊢
      split at hf
      · cases hf
      · exact .refl _
  | read => exact .refl _

/-! ## Rows of steps -/

theorem Sound.next {G : Grove} (h : G.Sound) {t : Step} (ht : t.Mapped) :
    (G.next shows t).Sound := by
  unfold Grove.next
  cases hstep : G.step shows t with
  | none => exact h
  | some result => exact h.effect ht (effect_step shows hstep)

theorem Sound.after {G : Grove} (h : G.Sound) {steps : List Step} (hsteps : ∀ t ∈ steps, t.Mapped) :
    (G.after shows steps).Sound := by
  induction steps generalizing G with
  | nil => exact h
  | cons t rest ih =>
    obtain ⟨ht, hrest⟩ := List.forall_mem_cons.mp hsteps
    exact ih (h.next ht) hrest

/-! ## What is seen -/

variable (shows)

/-- How a key is read in an environment that has a name: its first owner on the line of the
environment says what it is, and only where it has none does the default count. -/
inductive Answers (G : Grove) (name : String) (id : Nat) (key : Value) : Prop
  | owned {first : Nat} {v : Value} (hfirst : G.forest.owner? id key = some first)
    (hown : G.forest.own? first key = some v) (hvalue : G.forest.value? id key = some v)
    (hcontains : G.step shows (.contains name key) = some (.ok (.bool true), G))
    (hget : ∀ default, G.step shows (.get name key default) = some (.ok v, G))
  | unowned (hline : ∀ other ∈ G.forest.line id, G.forest.owns other key = false)
    (hvalue : G.forest.value? id key = none)
    (hcontains : G.step shows (.contains name key) = some (.ok (.bool false), G))
    (hget : ∀ default, G.step shows (.get name key default) = some (.ok default, G))

/-- What can be relied on in a grove. -/
structure Visibility (G : Grove) : Prop where
  /-- Every line ends with an environment that has no parent, and no environment is on it twice. -/
  lines {id : Nat} (h : id < G.forest.length) :
    G.forest.Lineage id (G.forest.line id) ∧ (G.forest.line id).Pairwise (· > ·)
  /-- A child has the line of its parent behind it. -/
  child {parent : String} {id : Nat} (h : G.id? parent = some id) (name : String) (data : Value) :
    ∃ answer G', G.step shows (.child parent name data) = some (answer, G') ∧
      G'.id? name = some G.forest.length ∧
      G'.forest.line G.forest.length = G.forest.length :: G.forest.line id
  answers {name : String} {id : Nat} (h : G.id? name = some id) (key : Value) :
    Answers shows G name id key
  set {name : String} {id : Nat} (h : G.id? name = some id) (key value : Value) :
    ∃ e outcome, G.forest.find? id = some e ∧
      G.forest.WriteOutcome id e (key.shown shows) key value outcome ∧
      G.step shows (.set name key value) = some (match outcome with
        | .ok forest => (.ok value, { G with forest := forest })
        | .error failure => (.error failure, G))
  /-- Only a write that succeeds changes anything for an environment that is there. -/
  kept {t : Step} {answer : Except Failure Value} {G' : Grove}
    (h : G.step shows t = some (answer, G'))
    (hkept : (∀ name key value, t ≠ .set name key value) ∨ ∃ f, answer = .error f) :
    G.forest.Kept G'.forest

theorem answers_of_id? {G : Grove} {name : String} {id : Nat} (h : G.id? name = some id)
    (key : Value) : Answers shows G name id key := by
  have hcontains : G.step shows (.contains name key) =
      some (.ok (.bool (G.forest.value? id key).isSome), G) := by
    rw [step, h]
    rfl
  have hget : ∀ default, G.step shows (.get name key default) =
      some (.ok ((G.forest.value? id key).getD default), G) := fun default => by
    rw [step, h]
    rfl
  have hvalue := G.forest.value?_eq id key
  cases hfirst : G.forest.owner? id key with
  | some first =>
    obtain ⟨v, hv⟩ := Forest.exists_own?_of_owner? hfirst
    rw [hfirst, Option.bind_some, hv] at hvalue
    rw [hvalue] at hcontains hget
    exact .owned hfirst hv hvalue hcontains hget
  | none =>
    rw [hfirst, Option.bind_none] at hvalue
    rw [hvalue] at hcontains hget
    exact .unowned (Forest.owner?_eq_none.mp hfirst) hvalue hcontains hget

theorem Sound.visibility {G : Grove} (h : G.Sound) : G.Visibility shows where
  lines hid := ⟨h.forest.lineage hid, G.forest.pairwise_line _⟩
  child {parent id} hparent name data := by
    refine ⟨_, _, by rw [step, hparent]; rfl, ?_, ?_⟩
    · exact List.lookup_cons_self
    · exact if_pos rfl
  answers := answers_of_id? shows
  set {name id} hname key value := by
    obtain ⟨e, he⟩ := Forest.exists_find? (h.named hname)
    refine ⟨e, _, he, Forest.writeOutcome_set he (h.mapped he) _ key value, ?_⟩
    rw [step, hname]
    rfl
  kept hstep := kept_of_effect (effect_step shows hstep)

/-- Whatever has been done with environments that were given mappings, what is read, what a write
changes and what is kept is as `Visibility` says. -/
theorem write_visibility {steps : List Step} (hsteps : ∀ t ∈ steps, t.Mapped) :
    (after shows {} steps).Visibility shows :=
  (sound_empty.after hsteps).visibility shows

/-- The key that is written by `true` is the key that is read by `1`, and a name that is given
again leaves the older environment to its children. -/
theorem write_visibility_rebound :
    let steps : List Step := [.new "a" (.map [(.str "x", .null)]) true "", .child "a" "b" .null,
      .child "b" "c" .null, .set "c" (.bool true) (.str "near"), .child "a" "b" .null,
      .set "b" (.int 1) .null, .set "a" (.str "x") .null]
    ((∀ t ∈ steps, t.Mapped) ∧ (after (fun _ => "") {} steps).id? "c" = some 2 ∧
      (after (fun _ => "") {} steps).forest.line 2 = [2, 1, 0]) ∧
    (after (fun _ => "") {} steps).Visibility fun _ => "" := by
  refine ⟨⟨?_, by rfl, by rfl⟩, write_visibility _ ?_⟩ <;> simp [Step.Mapped, Value.entries?]

end Grove
end TreeTemplate

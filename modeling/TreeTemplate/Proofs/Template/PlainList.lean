import Mathlib.Data.List.Induction
import TreeTemplate.Host.Library
import TreeTemplate.Template.Engine

/-! # Plain lists in closed form

The elements of a plain list are run one after another, with effects pending from one to the next.
What this comes to can be read off the list: it is taken apart at the items that are not skipped
(`PlainList.turns`), and each of these has its turn, with the elements between it and the one before
as its marks (`Engine.turn`).  The run of the list is that of its turns, and of the function that
still waits at the end (`Engine.plain_list_closed_form`).
-/
namespace TreeTemplate

namespace PlainList

/-! ## Elements -/

/-- Whether an element is a text that begins with the given characters. -/
def begins (cs : List Char) : Value → Bool
  | .str s => cs.isPrefixOf s.toList
  | _ => false

/-- The mark at which a list ends. -/
def isStop : Value → Bool := begins ['/', '/']

def isSkip : Value → Bool := begins ['/']

def isSplice : Value → Bool := begins ['<']

/-- The clause of a mark that captures the next item. -/
def capture? : Value → Option String
  | .str s =>
    match s.toList with
    | '^' :: cs => some (Leaf.strippedClause (Leaf.splitDash cs).2)
    | _ => none
  | _ => none

/-- An element that is no item. -/
def isMark (x : Value) : Bool := isSkip x || begins ['^'] x || isSplice x

/-- What the first element of a list is when it asks for the list to be spliced. -/
def asksSplice (x : Value) : Bool :=
  begins ['/', '/', '-'] x || begins ['/', '-'] x || begins ['^', '-'] x

/-- What an element is, and how it is read before the elements after it. -/
inductive Kind : Value → (List Element → List Element) → Prop
  | stop {x : Value} (h : isStop x = true) : Kind x fun _ => []
  | skip {x : Value} (hstop : isStop x = false) (h : isSkip x = true)
    (hcapture : capture? x = none) (hsplice : isSplice x = false) : Kind x fun rest => .skip :: rest
  | capture {x : Value} {clause : String} (hstop : isStop x = false) (hskip : isSkip x = false)
    (hmark : isMark x = true) (h : capture? x = some clause) (hsplice : isSplice x = false) :
    Kind x fun rest => .capture clause :: rest
  | splice {x : Value} (hstop : isStop x = false) (hskip : isSkip x = false)
    (hcapture : capture? x = none) (h : isSplice x = true) : Kind x fun rest => .splice :: rest
  | item {x : Value} (hstop : isStop x = false) (h : isMark x = false)
    (hcapture : capture? x = none) : Kind x fun rest => .item (Node.ofValue x) :: rest

theorem isPrefixOf_eq_false {c : Char} {cs : List Char} (h : ∀ rest, cs = c :: rest → False)
    (more : List Char) : (c :: more).isPrefixOf cs = false := by
  cases cs with
  | nil => rfl
  | cons d rest =>
    have hne : c ≠ d := fun hc => h rest (hc ▸ rfl)
    simp [List.isPrefixOf, hne]

theorem kind_str (s : String) : Kind (.str s) (Node.readElement s) := by
  obtain ⟨cs, rfl⟩ : ∃ cs, s = String.ofList cs := ⟨s.toList, by simp⟩
  unfold Node.readElement
  rw [String.toList_ofList]
  fun_cases Node.Marker.ofChars cs with
  | case1 cs => exact .stop (by simp [isStop, begins])
  | case2 cs hstop =>
    apply Kind.skip <;> simp [isStop, isSkip, capture?, isSplice, begins, List.isPrefixOf,
      isPrefixOf_eq_false hstop]
  | case3 cs =>
    apply Kind.capture <;>
      simp [isStop, isSkip, isMark, capture?, isSplice, begins, List.isPrefixOf]
  | case4 cs =>
    apply Kind.splice <;> simp [isStop, isSkip, capture?, isSplice, begins, List.isPrefixOf]
  | case5 cs hstop hskip hcapture hsplice =>
    apply Kind.item <;> simp [isStop, isSkip, isMark, capture?, isSplice, begins,
      isPrefixOf_eq_false hskip, isPrefixOf_eq_false hcapture, isPrefixOf_eq_false hsplice]

theorem exists_kind (x : Value) : ∃ read, Kind x read ∧
    ∀ rest, Node.readElements (x :: rest) = read (Node.readElements rest) := by
  cases x with
  | str s => exact ⟨_, kind_str s, fun _ => rfl⟩
  | _ => exact ⟨_, .item rfl rfl rfl, fun _ => rfl⟩

theorem head_plain {s : String} (hloop : begins ['@'] (.str s) = false)
    (hcondition : begins ['?'] (.str s) = false) : Node.Head.ofChars s.toList = .plain := by
  obtain ⟨cs, rfl⟩ : ∃ cs, s = String.ofList cs := ⟨s.toList, by simp⟩
  rw [String.toList_ofList]
  fun_cases Node.Head.ofChars cs with
  | case1 cs => simp [begins] at hloop
  | case2 cs => simp [begins] at hcondition
  | case3 => rfl

theorem splitDash_eq (cs : List Char) : (Leaf.splitDash cs).1 = ['-'].isPrefixOf cs := by
  fun_cases Leaf.splitDash cs with
  | case1 => simp
  | case2 cs h => exact (isPrefixOf_eq_false h []).symm

theorem forcedBy_str (s : String) : Node.forcedBy [.str s] = asksSplice (.str s) := by
  obtain ⟨cs, rfl⟩ : ∃ cs, s = String.ofList cs := ⟨s.toList, by simp⟩
  simp only [Node.forcedBy, String.toList_ofList, asksSplice, begins]
  fun_cases Node.Marker.ofChars cs with
  | case1 cs => simp [Node.Marker.dash, splitDash_eq, List.isPrefixOf]
  | case2 cs hstop =>
    simp [Node.Marker.dash, splitDash_eq, List.isPrefixOf, isPrefixOf_eq_false hstop]
  | case3 cs => simp [Node.Marker.dash, splitDash_eq, List.isPrefixOf]
  | case4 cs => simp [Node.Marker.dash, List.isPrefixOf]
  | case5 cs hstop hskip hcapture hsplice =>
    simp [Node.Marker.dash, isPrefixOf_eq_false hskip, isPrefixOf_eq_false hcapture]

theorem ofItems_plain {items : List Value}
    (hhead : ∀ x ∈ items.head?, begins ['@'] x = false ∧ begins ['?'] x = false) :
    Node.ofItems items = .elements (items.head?.any asksSplice) (Node.readElements items) := by
  cases items with
  | nil => rfl
  | cons x rest =>
    cases x with
    | str s =>
      obtain ⟨hloop, hcondition⟩ := hhead (.str s) rfl
      rw [Node.ofItems, head_plain hloop hcondition]
      simp only [forcedBy_str]
      rfl
    | _ => rfl

/-! ## Turns -/

/-- Whether an item is skipped, given the elements before it: a mark to skip stands between it and
the item before. -/
def skipped (before : List Value) : Bool := (before.reverse.takeWhile isMark).any isSkip

/-- The items that are not skipped, each after the elements between it and the one before, and the
elements after the last of them.  Some elements are given that stand before the list. -/
def turns (before : List Value) : List Value → List (List Value × Value) × List Value
  | [] => ([], before)
  | x :: rest =>
    if isMark x || skipped before then turns (before ++ [x]) rest
    else ((before, x) :: (turns [] rest).1, (turns [] rest).2)

/-- Elements that have no turn of their own: marks, and items that are skipped. -/
def Passed (elements : List Value) : Prop :=
  ∀ before x after, elements = before ++ x :: after → isMark x = true ∨ skipped before = true

/-- Elements taken apart at the items that are not skipped. -/
structure TakenApart (elements : List Value) (ts : List (List Value × Value))
    (after : List Value) : Prop where
  flatten : ts.flatMap (fun t => t.1 ++ [t.2]) ++ after = elements
  item : ∀ t ∈ ts, isMark t.2 = false ∧ skipped t.1 = false
  passed : ∀ t ∈ ts, Passed t.1
  after : Passed after

theorem Passed.concat {elements : List Value} (h : Passed elements) {x : Value}
    (hx : isMark x = true ∨ skipped elements = true) : Passed (elements ++ [x]) := by
  intro before y after heq
  rcases after.eq_nil_or_concat with rfl | ⟨init, last, rfl⟩
  · obtain ⟨rfl, hxy⟩ := List.append_inj' heq rfl
    cases hxy
    exact hx
  · have hlast : elements ++ [x] = before ++ y :: init ++ [last] := by simpa using heq
    exact h before y init (List.append_inj' hlast rfl).1

/-- By induction on the list: whatever has no turn stands before the next that has one. -/
theorem takenApart_turns (elements : List Value) : ∀ before, Passed before →
    TakenApart (before ++ elements) (turns before elements).1 (turns before elements).2 := by
  induction elements with
  | nil =>
    intro before hbefore
    exact ⟨by simp [turns], by simp [turns], by simp [turns], hbefore⟩
  | cons x rest ih =>
    intro before hbefore
    cases h : isMark x || skipped before with
    | true =>
      have hrest := ih (before ++ [x]) (hbefore.concat (by simpa using h))
      simpa only [turns, h, if_true, List.append_assoc, List.singleton_append] using hrest
    | false =>
      have hrest := ih [] (fun p y q heq => by simp at heq)
      simp only [turns, h, Bool.false_eq_true, if_false]
      refine ⟨?_, List.forall_mem_cons.mpr ⟨by simpa using h, hrest.item⟩,
        List.forall_mem_cons.mpr ⟨hbefore, hrest.passed⟩, hrest.after⟩
      simpa using hrest.flatten

@[simp] theorem skipped_concat (before : List Value) (x : Value) :
    skipped (before ++ [x]) = (isMark x && (isSkip x || skipped before)) := by
  cases h : isMark x <;> simp [skipped, h]

/-- An item ends what was asked for before it. -/
theorem skipped_append_item (before after : List Value) {x : Value} (hx : isMark x = false) :
    skipped (before ++ x :: after) = skipped after := by
  induction after using List.reverseRecOn with
  | nil =>
    rw [skipped_concat, hx]
    rfl
  | append_singleton after y ih =>
    rw [← List.cons_append, ← List.append_assoc, skipped_concat, skipped_concat, ih]

/-- By induction on the list. -/
theorem skipped_turns (before elements : List Value) :
    skipped (turns before elements).2 = skipped (before ++ elements) := by
  induction elements generalizing before with
  | nil => rw [turns, List.append_nil]
  | cons x rest ih =>
    cases h : isMark x || skipped before with
    | true =>
      simp only [turns, h, if_true]
      rw [ih, List.append_assoc, List.singleton_append]
    | false =>
      simp only [turns, h, Bool.false_eq_true, if_false]
      rw [ih, List.nil_append, skipped_append_item _ _ (Bool.or_eq_false_iff.mp h).1]

/-- What stands before a list has its turns first.  By induction on it. -/
theorem turns_append (before elements rest : List Value) :
    turns before (elements ++ rest) =
      ((turns before elements).1 ++ (turns (turns before elements).2 rest).1,
        (turns (turns before elements).2 rest).2) := by
  induction elements generalizing before with
  | nil => simp [turns]
  | cons x elements ih =>
    rw [List.cons_append]
    cases h : isMark x || skipped before with
    | true => simp only [turns, h, if_true, ih]
    | false => simp only [turns, h, Bool.false_eq_true, if_false, ih, List.cons_append]

end PlainList

/-! ## Running the turns -/

namespace Run

variable {σ α β : Type}

theorem carry_concat (f : β → α → Run σ β) (b : β) (as : List α) (a : α) :
    carry f b (as ++ [a]) = carry f b as >>= fun c => f c a := by
  induction as generalizing b with
  | nil => simp [carry]
  | cons first rest ih => simp only [List.cons_append, carry, ih, bind_assoc]

theorem collect_append (f : α → Run σ (List β)) (as bs : List α) :
    collect f (as ++ bs) = (do
      let made ← collect f as
      let more ← collect f bs
      pure (made ++ more)) := by
  induction as with
  | nil => simp [collect]
  | cons a rest ih => simp only [List.cons_append, collect, ih, bind_assoc, pure_bind,
      List.append_assoc]

end Run

namespace Engine

open PlainList

variable {σ : Type} (E : Engine σ)

/-- The function that the last capture among some elements names, if there is one.  That of every
capture is looked up. -/
def lastCallee (scope : Scope) (elements : List Value) : Run σ (Option Value) :=
  Run.carry (fun f x =>
    match capture? x with
    | some clause => do
      let g ← E.callee scope clause
      pure (some g)
    | none => pure f) none elements

/-- What an item emits after some elements. -/
def turn (depth : Nat) (scope : Scope) (before : List Value) (x : Value) :
    Run σ (List Value) := do
  match ← E.lastCallee scope before with
  | some f => do
    let argument ← E.processWithin depth x scope
    let v ← E.host.apply f [argument]
    pure (Context.list.place (before.any isSplice) v)
  | none => E.emitted depth x scope .list (before.any isSplice)

/-- What is emitted after the last item: a function that still waits is called without an
argument. -/
def ending (scope : Scope) (after : List Value) : Run σ (List Value) := do
  match ← E.lastCallee scope after with
  | some f => do
    let v ← E.host.apply f []
    pure (Context.list.place (after.any isSplice) v)
  | none => pure []

/-- What the elements of a list emit in their turns, given some elements before them. -/
def inTurns (depth : Nat) (scope : Scope) (before elements : List Value) :
    Run σ (List Value) := do
  let emitted ← Run.collect (fun t => E.turn depth scope t.1 t.2) (turns before elements).1
  let last ← E.ending scope (turns before elements).2
  pure (emitted ++ last)

@[simp] theorem lastCallee_nil (scope : Scope) : E.lastCallee scope [] = pure none := rfl

theorem lastCallee_capture (scope : Scope) (before : List Value) {x : Value} {clause : String}
    (h : capture? x = some clause) : E.lastCallee scope (before ++ [x]) =
      E.lastCallee scope before >>= fun _ => E.callee scope clause >>= fun f => pure (some f) := by
  simp only [lastCallee, Run.carry_concat, h]

theorem lastCallee_other (scope : Scope) (before : List Value) {x : Value}
    (h : capture? x = none) :
    E.lastCallee scope (before ++ [x]) = E.lastCallee scope before := by
  simp only [lastCallee, Run.carry_concat, h, bind_pure]

/-- An element that has no turn of its own only stands before the ones after it. -/
theorem inTurns_pass (depth : Nat) (scope : Scope) (before rest : List Value) {x : Value}
    (h : (isMark x || skipped before) = true) :
    E.inTurns depth scope before (x :: rest) = E.inTurns depth scope (before ++ [x]) rest := by
  simp only [inTurns, turns, h, if_true]

theorem inTurns_turn (depth : Nat) (scope : Scope) (before rest : List Value) {x : Value}
    (h : (isMark x || skipped before) = false) :
    E.inTurns depth scope before (x :: rest) = (do
      let emitted ← E.turn depth scope before x
      let more ← E.inTurns depth scope [] rest
      pure (emitted ++ more)) := by
  simp only [inTurns, turns, h, Run.collect, bind_assoc, pure_bind, List.append_assoc,
    Bool.false_eq_true, if_false]

theorem inTurns_nil (depth : Nat) (scope : Scope) (before : List Value) :
    E.inTurns depth scope before [] = E.ending scope before := by
  simp [inTurns, turns, Run.collect]

/-- What stands before a list has its turns first, and leaves what it has after them. -/
theorem inTurns_append (depth : Nat) (scope : Scope) (before elements rest : List Value) :
    E.inTurns depth scope before (elements ++ rest) = (do
      let emitted ← Run.collect (fun t => E.turn depth scope t.1 t.2) (turns before elements).1
      let more ← E.inTurns depth scope (turns before elements).2 rest
      pure (emitted ++ more)) := by
  simp only [inTurns, turns_append, Run.collect_append, bind_assoc, pure_bind, List.append_assoc]

/-- Where nothing captures, no function waits. -/
theorem lastCallee_of_forall (scope : Scope) {elements : List Value}
    (h : ∀ x ∈ elements, capture? x = none) : E.lastCallee scope elements = pure none := by
  induction elements using List.reverseRecOn with
  | nil => rfl
  | append_singleton elements x ih =>
    rw [E.lastCallee_other scope elements (h x (by simp))]
    exact ih fun y hy => h y (List.mem_append_left _ hy)

/-- At the end of a list, what is pending is what the elements since the last turn say. -/
theorem finish_eq_ending (scope : Scope) (before : List Value) :
    (E.lastCallee scope before >>= fun f => E.finish ⟨skipped before, f, before.any isSplice⟩) =
      E.ending scope before := by
  rw [ending]
  refine congrArg _ (funext fun f => ?_)
  cases f <;> rfl

/-- By induction on the list: what is pending is what the elements since the last turn say. -/
theorem runElements_eq_inTurns (depth : Nat) (scope : Scope) (elements before : List Value) :
    (E.lastCallee scope before >>= fun f => Node.runElements E (E.includer depth)
      (Node.readElements elements) scope ⟨skipped before, f, before.any isSplice⟩) =
    E.inTurns depth scope before (elements.takeWhile fun x => !isStop x) := by
  induction elements generalizing before with
  | nil =>
    rw [List.takeWhile_nil, inTurns_nil, ← finish_eq_ending]
    simp only [Node.readElements, Node.runElements]
  | cons x rest ih =>
    -- an element without a turn of its own is one more that stands before the next turn
    have hpass : isStop x = false → (isMark x || skipped before) = true →
        E.inTurns depth scope before ((x :: rest).takeWhile fun x => !isStop x) =
          E.lastCallee scope (before ++ [x]) >>= fun f => Node.runElements E (E.includer depth)
            (Node.readElements rest) scope
            ⟨skipped (before ++ [x]), f, (before ++ [x]).any isSplice⟩ := fun hstop hx => by
      rw [List.takeWhile_cons_of_pos (by simp [hstop]), E.inTurns_pass _ _ _ _ hx, ih]
    obtain ⟨read, hkind, hread⟩ := exists_kind x
    rw [hread]
    cases hkind with
    | stop h =>
      rw [List.takeWhile_cons_of_neg (by simp [h]), inTurns_nil, ← finish_eq_ending]
      simp only [Node.runElements]
    | skip hstop h hcapture hsplice =>
      have hmark : isMark x = true := by simp [isMark, h]
      rw [hpass hstop (by simp [hmark]), E.lastCallee_other scope before hcapture]
      simp [Node.runElements, hmark, h, hsplice]
    | capture hstop hskip hmark h hsplice =>
      rw [hpass hstop (by simp [hmark]), E.lastCallee_capture scope before h]
      simp [Node.runElements, hmark, hskip, hsplice]
    | splice hstop hskip hcapture h =>
      have hmark : isMark x = true := by simp [isMark, h]
      rw [hpass hstop (by simp [hmark]), E.lastCallee_other scope before hcapture]
      simp [Node.runElements, hmark, hskip, h]
    | item hstop h hcapture =>
      have hsplice : isSplice x = false := (Bool.or_eq_false_iff.mp h).2
      cases hskipped : skipped before with
      | true =>
        rw [hpass hstop (by simp [hskipped]), E.lastCallee_other scope before hcapture]
        simp [Node.runElements, h, hsplice]
      | false =>
        have hnothing : skipped [] = false := rfl
        have hnode : ∀ context splice, Node.run E (E.includer depth) (Node.ofValue x) scope
            context splice = E.emitted depth x scope context splice := by
          intro context splice
          rw [emitted_eq, run_eq]
        rw [List.takeWhile_cons_of_pos (by simp [hstop]),
          E.inTurns_turn _ _ _ _ (by simp [h, hskipped]), ← ih [], turn, bind_assoc]
        refine congrArg _ (funext fun f => ?_)
        -- after its turn nothing is pending, as after no elements at all
        cases f with
        | none => simp [Node.runElements, hnode, hnothing]
        | some f => simp [Node.runElements, hnode, hnothing, processWithin_eq]

/-- **Plain lists in closed form.**  A list that is neither a loop nor a condition is taken apart
into turns: the items before which no mark to skip stands, each after the elements since the one
before.  Its run is that of the turns, one after another.  In a turn the last of the functions
captured is called with the value of the item, if there is one, and else the item emits what it
emits in a list; either is spliced if the turn has a mark for it.  A function that still waits at
the end is called without an argument.  What is made is a list, which is itself spliced into the
list around it where the place asks for it or its first mark carries a dash. -/
theorem plain_list_closed_form {template : Value} {items : List Value}
    (hitems : template.items? = some items)
    (hhead : ∀ x ∈ items.head?, begins ['@'] x = false ∧ begins ['?'] x = false) (depth : Nat)
    (scope : Scope) :
    let elements := items.takeWhile fun x => !isStop x
    TakenApart elements (turns [] elements).1 (turns [] elements).2 ∧
    E.processWithin depth template scope = (do
      let made ← E.inTurns depth scope [] elements
      pure (.list made)) ∧
    ∀ context splice, E.emitted depth template scope context splice = (do
      let made ← E.inTurns depth scope [] elements
      pure (context.place (splice || items.head?.any asksSplice) (.list made))) := by
  intro elements
  have hnode : Node.ofValue template = Node.ofItems items := by
    cases template with
    | list _ | tuple _ =>
      cases hitems
      rfl
    | _ => cases hitems
  have hemitted : ∀ context splice, E.emitted depth template scope context splice = (do
      let made ← E.inTurns depth scope [] elements
      pure (context.place (splice || items.head?.any asksSplice) (.list made))) := by
    intro context splice
    have hrun := E.runElements_eq_inTurns depth scope items []
    rw [lastCallee_nil, pure_bind] at hrun
    rw [emitted_eq, run_eq, hnode, ofItems_plain hhead, ← hrun]
    simp only [Node.run]
    rfl
  refine ⟨takenApart_turns elements [] fun _ _ _ h => by simp at h, ?_, hemitted⟩
  rw [processWithin_eq, hemitted]
  simp [Context.place, single]

/-- One item is skipped, one is captured and spliced, and a function still waits at the end. -/
theorem plain_list_closed_form_pair :
    let E : Engine Library.State := ⟨Library.host, ["."], fun _ => none, fun _ _ => .ok .null⟩
    let items : List Value := [.str "/-", .str "left out", .int 1, .str "^pair", .str "<", .str "x",
      .str "^pair", .str "//", .int 2]
    let scope : Scope := [.map [(.str "pair", .host (.function "pair"))]]
    (∀ x ∈ items.head?, begins ['@'] x = false ∧ begins ['?'] x = false) ∧
      (E.emitted 0 (.list items) scope .list false default).result =
        .ok [.int 1, .str "x", .str "x", .list [.null, .null]] := by
  intro E items scope
  have hhead : ∀ x ∈ items.head?, begins ['@'] x = false ∧ begins ['?'] x = false := by
    rintro x hx
    cases hx
    decide
  refine ⟨hhead, ?_⟩
  have hparse : Expr.parse? "pair" = some (.named ['p', 'a', 'i', 'r']) := by cbv
  have hcallee : E.callee scope "pair" =
      fun s => ⟨.ok (.host (.function "pair")), [.clause "pair"], s⟩ := by
    simp only [callee, evaluate, Expr.evaluate, hparse]
    rfl
  have hturns : turns [] (items.takeWhile fun x => !isStop x) =
      ([([.str "/-", .str "left out"], .int 1), ([.str "^pair", .str "<"], .str "x")],
        [.str "^pair"]) := rfl
  have hpair : capture? (.str "^pair") = some "pair" := by decide
  rw [(E.plain_list_closed_form rfl hhead 0 scope).2.2, inTurns, hturns]
  simp only [Run.collect, turn, ending, lastCallee, Run.carry, hpair, hcallee]
  rfl

end Engine
end TreeTemplate

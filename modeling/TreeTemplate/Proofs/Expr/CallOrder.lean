import Mathlib.Data.List.Forall2
import TreeTemplate.Host.Library
import TreeTemplate.Proofs.Expr.Evaluation
import TreeTemplate.Proofs.Expr.Parentheses
import TreeTemplate.Proofs.Run.Alike

/-! # The calls of an evaluation, in order

The host is called at sites: at the calls and the selectors of an expression (`Site`).  An
evaluation comes to each site once, if at all, and in one order, parts before the whole and left
before right (`sites`).  Which sites it passes over without a call depends on the values it finds:
steps that are not taken, and selectors of something other than an object.  What remains is a
course (`Course`), which an evaluation follows to its end or, when it fails, to the call that is
its last (`Follows`, `eval_follows`).  The rule for one run after another is `Follows.bind`; the
induction has one case for each kind of expression.

What is not evaluated is what can be anything without a difference.  `Redrafted` relates expressions
that differ in such parts only, wherever they stand: the arguments of what cannot be called, and the
operands of steps that are not taken (`Redrafted.eval_eq`).
-/
namespace TreeTemplate

theorem Run.callsOf_append (before after : List Event) :
    callsOf (before ++ after) = callsOf before ++ callsOf after :=
  List.filterMap_append

/-- Whether what is selected from a value is looked up in it; a scalar has nothing to select. -/
def Value.opens (v : Value) : Bool := v.isObject || v.entries?.isSome || v.items?.isSome

/-- Nothing may be reported and any failure may happen. -/
def Contract.silent (trace : List Event) : Contract := ⟨trace, fun _ => False, fun _ => True⟩

theorem Run.Meets.events_eq_nil {σ α : Type} {x : Run σ α} {P : α → Prop}
    (h : ∀ trace, x.Meets (.silent trace) P) (s : σ) : (x s).events = [] :=
  List.eq_nil_iff_forall_not_mem.mpr (h _ s (List.Subset.refl _)).events

namespace Expr

/-! ## Sites -/

/-- A place in an expression at which the host can be called. -/
inductive Site where
  | call (callee : Expr) (args : List Expr)
  | selector (e : Expr)

mutual

/-- The sites of an expression in the order of evaluation: the parts of a site stand before it, and
of two parts the left one stands first. -/
def sites : Expr → List Site
  | .literal _ | .malformed _ | .surplus _ _ | .broken _ => []
  | .lookup name => sites name
  | .group inner => sites inner
  | .dot base selectors => sites base ++ selectorSites selectors
  | .call callee args => sites callee ++ rowSites args ++ [.call callee args]
  | .method _ args => rowSites args
  | .not operand => sites operand
  | .chain first steps => sites first ++ stepSites steps

def rowSites : List Expr → List Site
  | [] => []
  | e :: es => sites e ++ rowSites es

def selectorSites : List Expr → List Site
  | [] => []
  | e :: es => sites e ++ [.selector e] ++ selectorSites es

def stepSites : List (ChainOp × Expr) → List Site
  | [] => []
  | (_, e) :: rest => sites e ++ stepSites rest

end

/-! ## Courses -/

mutual

/-- The sites at which an evaluation that ends with a value can have called the host. -/
inductive Course : Expr → List Site → Prop
  | literal (v : Value) : Course (.literal v) []
  | lookup {name : Expr} {l : List Site} (h : Course name l) : Course (.lookup name) l
  | group {inner : Expr} {l : List Site} (h : Course inner l) : Course (.group inner) l
  | dot {base : Expr} {selectors : List Expr} {l m : List Site} (h : Course base l)
    (hs : SelectorsCourse selectors m) : Course (.dot base selectors) (l ++ m)
  | call {callee : Expr} {args : List Expr} {l m : List Site} (h : Course callee l)
    (ha : RowCourse args m) : Course (.call callee args) (l ++ m ++ [.call callee args])
  | method (name : Value) {args : List Expr} {l : List Site} (h : RowCourse args l) :
    Course (.method name args) l
  | not {operand : Expr} {l : List Site} (h : Course operand l) : Course (.not operand) l
  | chain {first : Expr} {steps : List (ChainOp × Expr)} {l m : List Site} (h : Course first l)
    (hs : StepsCourse steps m) : Course (.chain first steps) (l ++ m)
  | malformed (tree : Value) : Course (.malformed tree) []
  | surplus (node : Expr) (tree : Value) : Course (.surplus node tree) []
  | broken (cause : Fault) : Course (.broken cause) []

inductive RowCourse : List Expr → List Site → Prop
  | nil : RowCourse [] []
  | cons {e : Expr} {es : List Expr} {l m : List Site} (h : Course e l) (hs : RowCourse es m) :
    RowCourse (e :: es) (l ++ m)

inductive SelectorCourse : Expr → List Site → Prop
  /-- A name of an object. -/
  | called {e : Expr} {l : List Site} (h : Course e l) : SelectorCourse e (l ++ [.selector e])
  /-- A key, a position, or a name of a moment. -/
  | silent {e : Expr} {l : List Site} (h : Course e l) : SelectorCourse e l

inductive SelectorsCourse : List Expr → List Site → Prop
  | nil : SelectorsCourse [] []
  | cons {e : Expr} {es : List Expr} {l m : List Site} (h : SelectorCourse e l)
    (hs : SelectorsCourse es m) : SelectorsCourse (e :: es) (l ++ m)

inductive StepsCourse : List (ChainOp × Expr) → List Site → Prop
  | nil : StepsCourse [] []
  | taken {op : ChainOp} {e : Expr} {rest : List (ChainOp × Expr)} {l m : List Site}
    (h : Course e l) (hs : StepsCourse rest m) : StepsCourse ((op, e) :: rest) (l ++ m)
  | skipped {op : ChainOp} {e : Expr} {rest : List (ChainOp × Expr)} {l : List Site}
    (hs : StepsCourse rest l) : StepsCourse ((op, e) :: rest) l

end

mutual

/-- A course keeps the order of the sites, and comes to none of them twice. -/
theorem Course.sublist : ∀ {e : Expr} {l : List Site}, Course e l → l.Sublist (sites e)
  | _, _, .literal _ | _, _, .malformed _ | _, _, .surplus _ _ | _, _, .broken _ => by simp
  | _, _, .lookup h | _, _, .group h | _, _, .not h => by
    rw [sites]
    exact h.sublist
  | _, _, .dot h hs => by
    rw [sites]
    exact h.sublist.append hs.sublist
  | _, _, .call h ha => by
    rw [sites]
    exact (h.sublist.append ha.sublist).append (.refl _)
  | _, _, .method _ h => by
    rw [sites]
    exact h.sublist
  | _, _, .chain h hs => by
    rw [sites]
    exact h.sublist.append hs.sublist

theorem RowCourse.sublist : ∀ {es : List Expr} {l : List Site}, RowCourse es l →
    l.Sublist (rowSites es)
  | _, _, .nil => by simp
  | _, _, .cons h hs => by
    rw [rowSites]
    exact h.sublist.append hs.sublist

theorem SelectorCourse.sublist : ∀ {e : Expr} {l : List Site}, SelectorCourse e l →
    l.Sublist (sites e ++ [.selector e])
  | _, _, .called h => h.sublist.append (.refl _)
  | _, _, .silent h => List.sublist_append_of_sublist_left h.sublist

theorem SelectorsCourse.sublist : ∀ {es : List Expr} {l : List Site}, SelectorsCourse es l →
    l.Sublist (selectorSites es)
  | _, _, .nil => by simp
  | _, _, .cons h hs => by
    rw [selectorSites]
    exact h.sublist.append hs.sublist

theorem StepsCourse.sublist : ∀ {steps : List (ChainOp × Expr)} {l : List Site},
    StepsCourse steps l → l.Sublist (stepSites steps)
  | _, _, .nil => by simp
  | _, _, .taken h hs => by
    rw [stepSites]
    exact h.sublist.append hs.sublist
  | _, _, .skipped hs => by
    rw [stepSites]
    exact List.sublist_append_of_sublist_right hs.sublist

end

mutual

/-- To come to every site is a course. -/
theorem course_sites : ∀ e : Expr, Course e (sites e)
  | .literal v => .literal v
  | .lookup name => .lookup (course_sites name)
  | .group inner => .group (course_sites inner)
  | .dot base selectors => .dot (course_sites base) (course_selectorSites selectors)
  | .call callee args => .call (course_sites callee) (course_rowSites args)
  | .method name args => .method name (course_rowSites args)
  | .not operand => .not (course_sites operand)
  | .chain first steps => .chain (course_sites first) (course_stepSites steps)
  | .malformed tree => .malformed tree
  | .surplus node tree => .surplus node tree
  | .broken cause => .broken cause

theorem course_rowSites : ∀ es : List Expr, RowCourse es (rowSites es)
  | [] => .nil
  | e :: es => .cons (course_sites e) (course_rowSites es)

theorem course_selectorSites : ∀ es : List Expr, SelectorsCourse es (selectorSites es)
  | [] => .nil
  | e :: es => .cons (.called (course_sites e)) (course_selectorSites es)

theorem course_stepSites : ∀ steps : List (ChainOp × Expr), StepsCourse steps (stepSites steps)
  | [] => .nil
  | (_, e) :: rest => .taken (course_sites e) (course_stepSites rest)

end

/-! ## Calls -/

section
variable {σ α β : Type} (H : Host σ) (scope : Scope)

/-- A call that can be made at a site: of the callee, with the values of the arguments; or of a
method or attribute of an object, with the values of the arguments or the value of the name. -/
inductive Site.Makes : Site → HostCall → Prop
  | function {callee : Expr} {args : List Expr} {r : HostRef} {vs : List Value} {s t u : σ}
    (hf : (eval H scope callee).Ends s (.host r) t) (ha : (evalAll H scope args).Ends t vs u) :
    Makes (.call callee args) (.function r vs)
  | method {name : Value} {args : List Expr} {r : HostRef} {vs : List Value} {s t : σ}
    (ha : (evalAll H scope args).Ends s vs t) :
    Makes (.selector (.method name args)) (.method r name vs)
  | attribute {e : Expr} {r : HostRef} {name : Value} {s t : σ}
    (hn : (eval H scope e).Ends s name t) : Makes (.selector e) (.method r name [])

/-- From a state, a run makes one call at each of a row of sites: at those of a course if it ends
with a result, and at the first ones of a course if it fails. -/
structure FollowsAt (made : List Site) (C : List Site → Prop) (x : Run σ α) (s : σ) : Prop where
  makes : List.Forall₂ (Site.Makes H scope) made (Run.callsOf (x s).events)
  ends {a : α} (h : (x s).result = .ok a) : C made
  fails {e : Failure} (h : (x s).result = .error e) : ∃ course, C course ∧ made <+: course

/-- From a state, a run follows one of some courses. -/
def Follows (C : List Site → Prop) (x : Run σ α) (s : σ) : Prop :=
  ∃ made, FollowsAt H scope made C x s

variable {H scope} {C D E : List Site → Prop} {x : Run σ α} {f : α → Run σ β} {s : σ}

/-- A course of one run and a course of the next. -/
theorem Follows.bind (hx : Follows H scope C x s)
    (hf : ∀ a t, x.Ends s a t → Follows H scope D (f a) t) (hD : ∃ course, D course)
    (hE : ∀ {l m}, C l → D m → E (l ++ m)) : Follows H scope E (x >>= f) s := by
  obtain ⟨made, hmakes, hends, hfails⟩ := hx
  cases hresult : (x s).result with
  | ok a =>
    obtain ⟨more, hmore⟩ := hf a _ ⟨hresult, rfl⟩
    refine ⟨made ++ more, ?_, fun h => ?_, fun h => ?_⟩
    · rw [Run.bind_apply_ok hresult, Run.callsOf_append]
      exact List.rel_append hmakes hmore.makes
    · rw [Run.bind_apply_ok hresult] at h
      exact hE (hends hresult) (hmore.ends h)
    · rw [Run.bind_apply_ok hresult] at h
      obtain ⟨course, hcourse, hbegins⟩ := hmore.fails h
      exact ⟨made ++ course, hE (hends hresult) hcourse,
        (List.prefix_append_right_inj made).mpr hbegins⟩
  | error e =>
    obtain ⟨course, hcourse, hbegins⟩ := hfails hresult
    obtain ⟨next, hnext⟩ := hD
    refine ⟨made, ?_, fun h => ?_, fun _ => ?_⟩
    · rw [Run.bind_apply_error hresult]
      exact hmakes
    · rw [Run.bind_apply_error hresult] at h
      cases h
    · exact ⟨course ++ next, hE hcourse hnext, hbegins.trans (List.prefix_append course next)⟩

theorem Follows.mono (hx : Follows H scope C x s) (h : ∀ {l}, C l → D l) :
    Follows H scope D x s := by
  obtain ⟨made, hmakes, hends, hfails⟩ := hx
  refine ⟨made, hmakes, fun hresult => h (hends hresult), fun hresult => ?_⟩
  obtain ⟨course, hcourse, hbegins⟩ := hfails hresult
  exact ⟨course, h hcourse, hbegins⟩

/-- A run that makes the one call of a site. -/
theorem follows_call {site : Site} {call : HostCall} (h : Run.callsOf (x s).events = [call])
    (hmakes : site.Makes H scope call) : Follows H scope (· = [site]) x s :=
  ⟨[site], h ▸ .cons hmakes .nil, fun _ => rfl, fun _ => ⟨[site], rfl, List.prefix_refl _⟩⟩

/-- A run that reports nothing comes to no site. -/
theorem follows_of_silent {P : α → Prop} (h : ∀ trace, x.Meets (.silent trace) P)
    (hC : ∃ course, C course) (hnil : ∀ a, P a → C []) : Follows H scope C x s := by
  have hok := (h _ s (List.Subset.refl _)).ok
  refine ⟨[], ?_, fun hresult => hnil _ (hok _ hresult), fun _ => ?_⟩
  · rw [Run.Meets.events_eq_nil h]
    exact .nil
  · obtain ⟨course, hcourse⟩ := hC
    exact ⟨course, hcourse, List.nil_prefix⟩

/-- A run that reports nothing and always fails is the beginning of any course. -/
theorem follows_failing (h : ∀ trace, x.Meets (.silent trace) fun _ => False)
    (hC : ∃ course, C course) : Follows H scope C x s :=
  follows_of_silent h hC fun _ hfalse => hfalse.elim

theorem follows_pure {a : α} (h : C []) : Follows H scope C (pure a) s :=
  follows_of_silent (P := fun _ => True) (fun _ => .pure trivial) ⟨[], h⟩ fun _ _ => h

/-- What goes on without a report stays on the course. -/
theorem Follows.then_silent {P : β → Prop} (hx : Follows H scope C x s)
    (hf : ∀ a trace, (f a).Meets (.silent trace) P) : Follows H scope C (x >>= f) s :=
  hx.bind (D := (· = []))
    (fun a _ _ => follows_of_silent (hf a) ⟨[], rfl⟩ fun _ _ => rfl) ⟨[], rfl⟩ fun hl hm => by
      rw [hm, List.append_nil]
      exact hl

theorem Follows.then_pure {g : α → β} (hx : Follows H scope C x s) :
    Follows H scope C (x >>= fun a => pure (g a)) s :=
  hx.then_silent (P := fun _ => True) fun _ _ => .pure trivial

/-! ## Runs of the host -/

/-- As long as it has nothing to call, every host answers without a report. -/
theorem silent_answers (H : Host σ) (trace : List Event) :
    H.Answers (.silent trace) fun _ => False where
  refuse _ := trivial
  position _ := trivial
  apply hr _ := hr.elim
  select hr _ _ := hr.elim

theorem callsOf_emit_call {call : HostCall} {P : α → Prop}
    (h : ∀ trace, x.Meets (.silent trace) P) :
    Run.callsOf ((Run.emit (.call call) >>= fun _ => x) s).events = [call] := by
  show call :: Run.callsOf (x s).events = [call]
  rw [Run.Meets.events_eq_nil h]
  rfl

theorem callsOf_apply (r : HostRef) (args : List Value) (s : σ) :
    Run.callsOf (H.apply (.host r) args s).events = [.function r args] :=
  callsOf_emit_call fun _ => .step fun _ _ _ => trivial

/-- What is found under a name is reached, and called, without a further report. -/
theorem callsOf_select (r : HostRef) (name : Value) (args : List Value) (s : σ) :
    Run.callsOf (H.select r name args s).events = [.method r name args] := by
  refine callsOf_emit_call (P := fun _ => True) fun trace => ?_
  split
  · exact .step fun _ _ _ => trivial
  · cases name with
    | str text =>
      exact Host.reach_meets (fun _ _ => trivial) (H.failsWithin_of_all fun _ => trivial) _ _ _
    | _ => exact (Host.shown_meets _).bind fun _ _ => .fail trivial

/-! ## Selectors -/

theorem selectFromMoment_silent (m : Moment) (name : Value) (args : List Value)
    (trace : List Event) :
    (selectFromMoment H m name args).Meets (.silent trace) fun _ => True := by
  unfold selectFromMoment
  cases name.part? m with
  | none => exact (Host.shown_meets name).bind fun _ _ => .fail trivial
  | some n =>
    simp only
    split
    · exact .pure trivial
    · exact (silent_answers H trace).failNotCallable _

theorem failScalar_silent (selector : Expr) (v : Value) (trace : List Event) :
    (failScalar H selector v : Run σ Value).Meets (.silent trace) fun _ => False := by
  refine .state fun s => ?_
  split <;> exact .fail trivial

/-- What is selected from an object, once what it takes has been evaluated. -/
theorem select_follows {e : Expr} {values : Run σ β} {f : β → Run σ Value}
    (hvalues : Follows H scope (Course e) values s)
    (hf : ∀ b t, values.Ends s b t → ∃ call, (Site.selector e).Makes H scope call ∧
      Run.callsOf (f b t).events = [call]) :
    Follows H scope (SelectorCourse e) (values >>= f) s := by
  refine hvalues.bind (D := (· = [.selector e])) (fun b t hb => ?_) ⟨_, rfl⟩ fun hl hm => ?_
  · obtain ⟨call, hmakes, hcalls⟩ := hf b t hb
    exact follows_call hcalls hmakes
  · rw [hm]
    exact .called hl

/-- By the kind of the value before the selector. -/
theorem selectBy_follows {e : Expr} (he : Follows H scope (Course e) (eval H scope e) s)
    (v : Value) : Follows H scope (SelectorCourse e) (selectBy H e (eval H scope e) v) s := by
  have hfails : Follows H scope (SelectorCourse e) (failScalar H e v) s :=
    follows_failing (failScalar_silent e v) ⟨_, .silent (course_sites e)⟩
  cases v with
  | host r =>
    cases r with
    | object =>
      exact select_follows he fun name t hname => ⟨_, .attribute hname, callsOf_select _ name [] t⟩
    | function | type => exact hfails
  | moment m => exact (he.then_silent fun name => selectFromMoment_silent m name []).mono .silent
  | map =>
    exact (he.then_silent (P := fun _ => True) fun _ _ =>
      .state fun _ => .pure trivial).mono .silent
  | list | tuple =>
    exact (he.then_silent (P := fun _ => True) fun _ _ =>
      .ofExcept (fun _ _ => trivial) fun _ _ => trivial).mono .silent
  | _ => exact hfails

/-- By the kind of the value before the method call. -/
theorem selectMethod_follows {name : Value} {args : List Expr}
    (ha : Follows H scope (RowCourse args) (evalAll H scope args) s) (v : Value) :
    Follows H scope (SelectorCourse (.method name args))
      (selectMethod H name args (evalAll H scope args) v) s := by
  have hvalues : Follows H scope (Course (.method name args)) (evalAll H scope args) s :=
    ha.mono (.method name)
  have hcourse : ∃ l, SelectorCourse (.method name args) l := ⟨_, .silent (course_sites _)⟩
  have hfails : Follows H scope (SelectorCourse (.method name args))
      (failScalar H (.method name args) v) s := follows_failing (failScalar_silent _ v) hcourse
  cases v with
  | host r =>
    cases r with
    | object =>
      exact select_follows hvalues fun vs t hvs => ⟨_, .method hvs, callsOf_select _ name vs t⟩
    | function | type => exact hfails
  | moment m => exact (hvalues.then_silent fun vs => selectFromMoment_silent m name vs).mono .silent
  | map | list | tuple =>
    exact follows_failing (fun trace => failMethod_meets (silent_answers H trace) name) hcourse
  | _ => exact hfails

/-! ## Evaluation -/

theorem call_follows {callee : Expr} {args : List Expr}
    (hc : Follows H scope (Course callee) (eval H scope callee) s)
    (ha : ∀ t, Follows H scope (RowCourse args) (evalAll H scope args) t) :
    Follows H scope (Course (.call callee args)) (eval H scope (.call callee args)) s := by
  rw [eval]
  refine hc.bind (D := fun l => ∃ m, RowCourse args m ∧ l = m ++ [.call callee args])
    (fun f t hf => ?_) ⟨_, _, course_rowSites args, rfl⟩ ?_
  · split
    case isTrue hcan =>
      cases f with
      | host r =>
        refine (ha t).bind (D := (· = [.call callee args])) (fun vs u hvs => ?_) ⟨_, rfl⟩
          fun hl hm => ⟨_, hl, hm ▸ rfl⟩
        exact follows_call (callsOf_apply r vs u) (.function hf hvs)
      | _ => cases hcan
    case isFalse =>
      exact follows_failing (fun trace => (silent_answers H trace).failNotCallable f)
        ⟨_, _, course_rowSites args, rfl⟩
  · rintro l _ hl ⟨m, hm, rfl⟩
    rw [← List.append_assoc]
    exact .call hl hm

mutual

/-- By induction on the expression, for every state in which it is evaluated. -/
theorem eval_follows : ∀ (e : Expr) (s : σ), Follows H scope (Course e) (eval H scope e) s
  | .literal v, s => by
    rw [eval]
    exact follows_pure (.literal v)
  | .lookup name, s => by
    rw [eval]
    exact (eval_follows name s).then_pure.mono .lookup
  | .group inner, s => by
    rw [eval]
    exact (eval_follows inner s).mono .group
  | .dot base selectors, s => by
    rw [eval]
    exact (eval_follows base s).bind (fun v t _ => evalSelectors_follows selectors v t)
      ⟨_, course_selectorSites selectors⟩ .dot
  | .call callee args, s => call_follows (eval_follows callee s) (evalAll_follows args)
  | .method name args, s => by
    rw [eval]
    exact follows_failing (fun trace => failMethod_meets (silent_answers H trace) name)
      ⟨_, course_sites _⟩
  | .not operand, s => by
    rw [eval]
    exact (eval_follows operand s).then_pure.mono .not
  | .chain first steps, s => by
    rw [eval]
    exact (eval_follows first s).bind (fun v t _ => evalSteps_follows steps v t)
      ⟨_, course_stepSites steps⟩ .chain
  | .malformed tree, s | .surplus _ tree, s => by
    rw [eval]
    exact follows_failing (fun trace => (Host.shown_meets tree).bind fun _ _ => .fail trivial)
      ⟨_, course_sites _⟩
  | .broken cause, s => by
    rw [eval]
    exact follows_failing (fun trace => .fail trivial) ⟨_, course_sites _⟩

theorem evalAll_follows : ∀ (es : List Expr) (s : σ),
    Follows H scope (RowCourse es) (evalAll H scope es) s
  | [], s => by
    rw [evalAll]
    exact follows_pure .nil
  | e :: es, s => by
    rw [evalAll]
    exact (eval_follows e s).bind (fun v t _ => (evalAll_follows es t).then_pure)
      ⟨_, course_rowSites es⟩ .cons

theorem evalSelectors_follows : ∀ (es : List Expr) (v : Value) (s : σ),
    Follows H scope (SelectorsCourse es) (evalSelectors H scope es v) s
  | [], v, s => by
    rw [evalSelectors]
    exact follows_pure .nil
  | e :: rest, v, s => by
    have he := eval_follows e s
    have hrest := evalSelectors_follows rest
    cases e with
    | method name args =>
      rw [evalSelectors]
      exact (selectMethod_follows (evalAll_follows args s) v).bind (fun w t _ => hrest w t)
        ⟨_, course_selectorSites rest⟩ .cons
    | _ =>
      rw [evalSelectors]
      · exact (selectBy_follows he v).bind (fun w t _ => hrest w t)
          ⟨_, course_selectorSites rest⟩ .cons
      · nofun

theorem evalSteps_follows : ∀ (steps : List (ChainOp × Expr)) (v : Value) (s : σ),
    Follows H scope (StepsCourse steps) (evalSteps H scope steps v) s
  | [], v, s => by
    rw [evalSteps]
    exact follows_pure .nil
  | (op, operand) :: rest, v, s => by
    rw [evalSteps]
    split
    · exact (eval_follows operand s).bind (fun w t _ => evalSteps_follows rest w t)
        ⟨_, course_stepSites rest⟩ .taken
    · exact (evalSteps_follows rest v s).mono .skipped

end

/-! ## Parts that are not evaluated -/

variable (H scope)

mutual

/-- Two expressions that differ, if at all, in parts that the first does not evaluate from a state:
the arguments of what cannot be called, and the operands of steps that are not taken. -/
inductive Redrafted : Expr → Expr → σ → Prop
  | same (e : Expr) (s : σ) : Redrafted e e s
  | lookup {name name' : Expr} {s : σ} (h : Redrafted name name' s) :
    Redrafted (.lookup name) (.lookup name') s
  | group {inner inner' : Expr} {s : σ} (h : Redrafted inner inner' s) :
    Redrafted (.group inner) (.group inner') s
  | dot {base base' : Expr} {selectors selectors' : List Expr} {s : σ} (h : Redrafted base base' s)
    (hs : ∀ v t, (eval H scope base).Ends s v t → RedraftedSelectors selectors selectors' v t) :
    Redrafted (.dot base selectors) (.dot base' selectors') s
  /-- The arguments of what cannot be called may be any. -/
  | call {callee callee' : Expr} {args args' : List Expr} {s : σ} (h : Redrafted callee callee' s)
    (ha : ∀ f t, (eval H scope callee).Ends s f t → H.canCall f = true →
      RedraftedRow args args' t) : Redrafted (.call callee args) (.call callee' args') s
  | not {operand operand' : Expr} {s : σ} (h : Redrafted operand operand' s) :
    Redrafted (.not operand) (.not operand') s
  | chain {first first' : Expr} {steps steps' : List (ChainOp × Expr)} {s : σ}
    (h : Redrafted first first' s)
    (hs : ∀ v t, (eval H scope first).Ends s v t → RedraftedSteps steps steps' v t) :
    Redrafted (.chain first steps) (.chain first' steps') s

inductive RedraftedRow : List Expr → List Expr → σ → Prop
  | nil (s : σ) : RedraftedRow [] [] s
  | cons {e e' : Expr} {es es' : List Expr} {s : σ} (h : Redrafted e e' s)
    (hs : ∀ v t, (eval H scope e).Ends s v t → RedraftedRow es es' t) :
    RedraftedRow (e :: es) (e' :: es') s

inductive RedraftedSelector : Expr → Expr → Value → σ → Prop
  /-- After a scalar a selector is shown, and has to be the same. -/
  | same (e : Expr) (v : Value) (s : σ) : RedraftedSelector e e v s
  | key {e e' : Expr} {v : Value} {s : σ} (hv : v.opens = true) (h : Redrafted e e' s) :
    RedraftedSelector e e' v s
  | method {name : Value} {args args' : List Expr} {v : Value} {s : σ} (hv : v.opens = true)
    (h : RedraftedRow args args' s) :
    RedraftedSelector (.method name args) (.method name args') v s

inductive RedraftedSelectors : List Expr → List Expr → Value → σ → Prop
  | nil (v : Value) (s : σ) : RedraftedSelectors [] [] v s
  | cons {e e' : Expr} {es es' : List Expr} {v : Value} {s : σ} (h : RedraftedSelector e e' v s)
    (hs : ∀ w t, (evalSelectors H scope [e] v).Ends s w t → RedraftedSelectors es es' w t) :
    RedraftedSelectors (e :: es) (e' :: es') v s

inductive RedraftedSteps :
    List (ChainOp × Expr) → List (ChainOp × Expr) → Value → σ → Prop
  | nil (v : Value) (s : σ) : RedraftedSteps [] [] v s
  | taken {op : ChainOp} {e e' : Expr} {rest rest' : List (ChainOp × Expr)} {v : Value} {s : σ}
    (hop : op.taken v = true) (h : Redrafted e e' s)
    (hs : ∀ w t, (eval H scope e).Ends s w t → RedraftedSteps rest rest' w t) :
    RedraftedSteps ((op, e) :: rest) ((op, e') :: rest') v s
  /-- The operand of a step that is not taken may be any. -/
  | skipped {op : ChainOp} (e e' : Expr) {rest rest' : List (ChainOp × Expr)} {v : Value} {s : σ}
    (hop : op.taken v = false) (hs : RedraftedSteps rest rest' v s) :
    RedraftedSteps ((op, e) :: rest) ((op, e') :: rest') v s

end

variable {H scope}

/-- What a selector leads to from a value in which it is looked up. -/
theorem selectBy_congr {e e' : Expr} {key key' : Run σ Value} {v : Value} (hv : v.opens = true)
    (h : key s = key' s) : selectBy H e key v s = selectBy H e' key' v s := by
  cases v with
  | host r =>
    cases r with
    | object => exact Run.bind_apply_congr h fun _ _ _ => rfl
    | function | type => cases hv
  | moment | map | list | tuple => exact Run.bind_apply_congr h fun _ _ _ => rfl
  | _ => cases hv

theorem selectMethod_congr {name : Value} {args args' : List Expr}
    {values values' : Run σ (List Value)} {v : Value} (hv : v.opens = true)
    (h : values s = values' s) :
    selectMethod H name args values v s = selectMethod H name args' values' v s := by
  cases v with
  | host r =>
    cases r with
    | object => exact Run.bind_apply_congr h fun _ _ _ => rfl
    | function | type => cases hv
  | moment => exact Run.bind_apply_congr h fun _ _ _ => rfl
  | map | list | tuple => rfl
  | _ => cases hv

theorem evalSelectors_method (name : Value) (args : List Expr) (v : Value) :
    evalSelectors H scope [.method name args] v =
      selectMethod H name args (evalAll H scope args) v := by
  simp only [evalSelectors, bind_pure]

/-- One selector; no method call stands in the place of a key. -/
theorem evalSelectors_key {e e' : Expr} {v : Value} (hv : v.opens = true)
    (h : Redrafted H scope e e' s) (heval : eval H scope e s = eval H scope e' s) :
    evalSelectors H scope [e] v s = evalSelectors H scope [e'] v s := by
  cases h with
  | same => rfl
  | _ =>
    simp only [evalSelectors, bind_pure]
    exact selectBy_congr hv heval

mutual

theorem Redrafted.eval_eq : ∀ {e e' : Expr} {s : σ}, Redrafted H scope e e' s →
    eval H scope e s = eval H scope e' s
  | _, _, _, .same _ _ => rfl
  | _, _, _, .lookup h => by
    simp only [eval]
    exact Run.bind_apply_congr h.eval_eq fun _ _ _ => rfl
  | _, _, _, .group h => by
    simp only [eval]
    exact h.eval_eq
  | _, _, _, .dot h hs => by
    simp only [eval]
    exact Run.bind_apply_congr h.eval_eq fun v t hv => (hs v t hv).evalSelectors_eq
  | _, _, _, .call h ha => by
    simp only [eval]
    refine Run.bind_apply_congr h.eval_eq fun f t hf => ?_
    split
    case isTrue hcan => exact Run.bind_apply_congr (ha f t hf hcan).evalAll_eq fun _ _ _ => rfl
    case isFalse => rfl
  | _, _, _, .not h => by
    simp only [eval]
    exact Run.bind_apply_congr h.eval_eq fun _ _ _ => rfl
  | _, _, _, .chain h hs => by
    simp only [eval]
    exact Run.bind_apply_congr h.eval_eq fun v t hv => (hs v t hv).evalSteps_eq

theorem RedraftedRow.evalAll_eq : ∀ {es es' : List Expr} {s : σ}, RedraftedRow H scope es es' s →
    evalAll H scope es s = evalAll H scope es' s
  | _, _, _, .nil _ => rfl
  | _, _, _, .cons h hs => by
    simp only [evalAll]
    exact Run.bind_apply_congr h.eval_eq fun v t hv =>
      Run.bind_apply_congr (hs v t hv).evalAll_eq fun _ _ _ => rfl

theorem RedraftedSelector.evalSelectors_eq : ∀ {e e' : Expr} {v : Value} {s : σ},
    RedraftedSelector H scope e e' v s →
    evalSelectors H scope [e] v s = evalSelectors H scope [e'] v s
  | _, _, _, _, .same _ _ _ => rfl
  | _, _, _, _, .key hv h => evalSelectors_key hv h h.eval_eq
  | _, _, _, _, .method hv h => by
    rw [evalSelectors_method, evalSelectors_method]
    exact selectMethod_congr hv h.evalAll_eq

theorem RedraftedSelectors.evalSelectors_eq : ∀ {es es' : List Expr} {v : Value} {s : σ},
    RedraftedSelectors H scope es es' v s →
    evalSelectors H scope es v s = evalSelectors H scope es' v s
  | _, _, _, _, .nil _ _ => rfl
  | _, _, _, _, @RedraftedSelectors.cons _ _ _ e e' es es' v s h hs => by
    have hfirst : ∀ (e : Expr) (es : List Expr), evalSelectors H scope (e :: es) v =
        evalSelectors H scope [e] v >>= evalSelectors H scope es :=
      fun e es => evalSelectors_append H scope [e] es v
    rw [hfirst e es, hfirst e' es']
    exact Run.bind_apply_congr h.evalSelectors_eq fun w t hw => (hs w t hw).evalSelectors_eq

theorem RedraftedSteps.evalSteps_eq : ∀ {steps steps' : List (ChainOp × Expr)} {v : Value} {s : σ},
    RedraftedSteps H scope steps steps' v s →
    evalSteps H scope steps v s = evalSteps H scope steps' v s
  | _, _, _, _, .nil _ _ => rfl
  | _, _, _, _, .taken hop h hs => by
    simp only [evalSteps, hop, if_true]
    exact Run.bind_apply_congr h.eval_eq fun w t hw => (hs w t hw).evalSteps_eq
  | _, _, _, _, .skipped _ _ hop hs => by
    simp only [evalSteps, hop, Bool.false_eq_true, if_false]
    exact hs.evalSteps_eq

end

end

/-- **Each call at most once, in order.**  From every state, the calls that an evaluation makes are
made at sites of the expression, each at its own and in the order of the sites.  They are the calls
of a course if the evaluation ends with a value, and the first calls of a course if it fails.  The
arguments of what cannot be called, and the operands of steps that are not taken, may be anything.
-/
theorem calls_follow_the_tree {σ : Type} (H : Host σ) (scope : Scope) (e : Expr) (s : σ) :
    (∃ made, List.Forall₂ (Site.Makes H scope) made (Run.callsOf (eval H scope e s).events) ∧
      made.Sublist (sites e) ∧
      match (eval H scope e s).result with
      | .ok _ => Course e made
      | .error _ => ∃ course, Course e course ∧ course.Sublist (sites e) ∧ made <+: course) ∧
    ∀ e', Redrafted H scope e e' s → eval H scope e s = eval H scope e' s := by
  refine ⟨?_, fun _ h => h.eval_eq⟩
  have hfollows : Follows H scope (Course e) (eval H scope e) s := eval_follows e s
  obtain ⟨made, hmakes, hends, hfails⟩ := hfollows
  refine ⟨made, hmakes, ?_⟩
  cases hresult : (eval H scope e s).result with
  | ok v => exact ⟨(hends hresult).sublist, hends hresult⟩
  | error cause =>
    obtain ⟨course, hcourse, hbegins⟩ := hfails hresult
    exact ⟨hbegins.sublist.trans hcourse.sublist, course, hcourse, hcourse.sublist, hbegins⟩

/-- A step that is not taken, and the call of a number: neither the operand of the one nor the
argument of the other is evaluated. -/
theorem calls_follow_the_tree_counter :
    ∃ e e' : Expr, parse? "f(c.next()) : c.n ? n(c.n)" = some e ∧
      parse? "f(c.next()) : !x ? n(f(y), z)" = some e' ∧
      ∃ (scope : Scope) (s : Library.State) (c : HostRef) (made : List Site),
        List.Forall₂ (Site.Makes Library.host scope) made
          [.method c (.str "next") [], .function (.function "ident") [.int 1]] ∧
        made.Sublist (sites e) ∧ Redrafted Library.host scope e e' s ∧
        eval Library.host scope e s = eval Library.host scope e' s := by
  let c : HostRef := .object "Counter" 0
  let scope : Scope := [.map [(.str "c", .host c), (.str "f", .host (.function "ident")),
    (.str "n", .int 2)]]
  let s : Library.State := { objects := [.counter (.int 0)] }
  let first : Expr := .call (.named ['f']) [.dot (.named ['c']) [.method (.str "next") []]]
  let count : Expr := .dot (.named ['c']) [.literal (.str "n")]
  let e : Expr := .chain first [(.whenFalse, count), (.whenTrue, .call (.named ['n']) [count])]
  let e' : Expr := .chain first [(.whenFalse, .not (.named ['x'])),
    (.whenTrue, .call (.named ['n']) [.call (.named ['f']) [.named ['y']], .named ['z']])]
  have hredrafted : Redrafted Library.host scope e e' s := by
    refine .chain (.same _ _) fun v t hv => ?_
    cases hv.1
    refine .skipped _ _ rfl (.taken rfl ?_ fun _ _ _ => .nil _ _)
    refine .call (.same _ _) fun n u hn hcan => ?_
    cases hn.1
    cases hcan
  obtain ⟨⟨made, hmakes, hsublist, -⟩, heval⟩ := calls_follow_the_tree Library.host scope e s
  exact ⟨e, e', by cbv, by cbv, scope, s, c, made, hmakes, hsublist, hredrafted,
    heval e' hredrafted⟩

end Expr
end TreeTemplate

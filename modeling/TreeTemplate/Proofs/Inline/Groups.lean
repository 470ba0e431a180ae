import TreeTemplate.Proofs.Template.Reading

/-! # Groups of a text, one after another

The passes over a plain text are bounded by its length, which is enough (`Inline.undashed`,
`Inline.uncommented`, `Engine.filled`), so that each of them can be described by what it does where
it stands: at a group that it is looking for (`undashed_group`, `uncommented_group`,
`Engine.filled_value`), and at a stretch of text in which no such group begins, which it passes over
(`undashed_append`, `uncommented_append`, `Engine.filled_append`).  A plain text is processed by one
pass after another (`Engine.processWithin_plain`).
-/
namespace TreeTemplate

/-- The characters that a text may not begin with to be plain. -/
def Leaf.marks : List Char := ['&', ',', '$', '#', '.', '^']

theorem Leaf.ofChars_eq_plain {cs : List Char} (h : ∀ c ∈ cs.head?, c ∉ Leaf.marks) :
    Leaf.ofChars cs = .plain (Inline.segments cs) := by
  unfold Leaf.ofChars
  split <;> simp_all [Leaf.marks]

namespace Inline

/-! ## Groups at the head of a text -/

theorem splitClose?_append {inner : List Char} (h : closeBrace ∉ inner) (rest : List Char) :
    splitClose? (inner ++ closeBrace :: rest) = some (inner, rest) := by
  induction inner with
  | nil => simp [splitClose?]
  | cons c cs ih =>
    rw [List.mem_cons, not_or] at h
    have hc : ¬c = closeBrace := fun hc => h.1 hc.symm
    rw [List.cons_append, splitClose?, if_neg hc, ih h.2]
    rfl

theorem length_of_splitClose? {cs inner rest : List Char}
    (h : splitClose? cs = some (inner, rest)) : rest.length < cs.length := by
  rw [(splitClose?_eq_some h).1, List.length_append, List.length_cons]
  omega

theorem afterGroup?_append {mark inner : List Char} (h : closeBrace ∉ inner) (rest : List Char) :
    afterGroup? mark (openBrace :: (mark ++ inner ++ closeBrace :: rest)) = some rest := by
  have hdrop : (openBrace :: (mark ++ inner ++ closeBrace :: rest)).drop (mark.length + 1) =
      inner ++ closeBrace :: rest := by simp
  rw [afterGroup?, if_pos (by simp), hdrop, splitClose?_append h]
  rfl

theorem length_of_afterGroup? {mark cs rest : List Char} (h : afterGroup? mark cs = some rest) :
    rest.length < cs.length := by
  unfold afterGroup? at h
  split at h
  · obtain ⟨⟨inner, rest'⟩, hsplit, rfl⟩ := Option.map_eq_some_iff.mp h
    exact Nat.lt_of_lt_of_le (length_of_splitClose? hsplit) (by simp)
  · cases h

/-- No group begins with anything but its brace and its mark. -/
theorem afterGroup?_eq_none_of_not_prefix {mark cs : List Char}
    (h : ¬(openBrace :: mark) <+: cs) : afterGroup? mark cs = none :=
  if_neg fun hhead => h (List.isPrefixOf_iff_prefix.mp hhead)

/-- What may stand in a group. -/
structure Braceless (cs : List Char) : Prop where
  opening : openBrace ∉ cs
  closing : closeBrace ∉ cs

instance (cs : List Char) : Decidable (Braceless cs) :=
  decidable_of_iff (openBrace ∉ cs ∧ closeBrace ∉ cs)
    ⟨fun h => ⟨h.1, h.2⟩, fun h => ⟨h.opening, h.closing⟩⟩

theorem isBlank_openBrace : Text.isBlank openBrace = false := by decide

theorem isBlank_closeBrace : Text.isBlank closeBrace = false := by decide

theorem length_skipBlanks_le (cs : List Char) : (skipBlanks cs).length ≤ cs.length :=
  (List.dropWhile_suffix _).length_le

theorem skipBlanks_append {cs : List Char} (h : ∀ c ∈ cs, Text.isBlank c = true)
    (rest : List Char) : skipBlanks (cs ++ rest) = skipBlanks rest :=
  List.dropWhile_append_of_pos h

/-- A text that does not begin with a blank. -/
theorem skipBlanks_eq_self {cs : List Char} (h : ∀ c ∈ cs.head?, Text.isBlank c = false) :
    skipBlanks cs = cs := by
  cases cs with
  | nil => rfl
  | cons c cs => exact List.dropWhile_cons_of_neg (by simp [h c rfl])

/-- A text without the brace that opens groups, which does not end with a blank: whatever stands
after it, no group begins before its end. -/
structure Passed (cs : List Char) : Prop where
  group : openBrace ∉ cs
  last : ∀ c ∈ cs.getLast?, Text.isBlank c = false

theorem Passed.tail {c : Char} {cs : List Char} (h : Passed (c :: cs)) : Passed cs := by
  refine ⟨fun hmem => h.group (List.mem_cons_of_mem _ hmem), fun d hd => h.last d ?_⟩
  cases cs with
  | nil => cases hd
  | cons e cs => rwa [List.getLast?_cons_cons]

theorem Passed.afterGroup?_skipBlanks {c : Char} {cs : List Char} (h : Passed (c :: cs))
    (mark rest : List Char) : afterGroup? mark (skipBlanks (c :: cs ++ rest)) = none := by
  induction cs generalizing c with
  | nil =>
    have hc : Text.isBlank c = false := h.last c rfl
    have hopen : openBrace ≠ c := fun heq => h.group (by simp [heq])
    rw [skipBlanks_eq_self (by simp [hc])]
    exact afterGroup?_eq_none_of_not_prefix (by simp [List.cons_prefix_cons, hopen])
  | cons d cs ih =>
    cases hc : Text.isBlank c with
    | true =>
      have hskip : skipBlanks (c :: d :: cs ++ rest) = skipBlanks (d :: cs ++ rest) :=
        List.dropWhile_cons_of_pos hc
      rw [hskip]
      exact ih h.tail
    | false =>
      have hopen : openBrace ≠ c := fun heq => h.group (by simp [heq])
      rw [skipBlanks_eq_self (by simp [hc])]
      exact afterGroup?_eq_none_of_not_prefix (by simp [List.cons_prefix_cons, hopen])

/-- A text that begins with no blank and with no group of a kind. -/
structure Stands (mark cs : List Char) : Prop where
  blank : ∀ c ∈ cs.head?, Text.isBlank c = false
  group : afterGroup? mark cs = none

/-- The end of a text is no group. -/
theorem stands_nil (mark : List Char) : Stands mark [] := ⟨by simp, rfl⟩

/-- Nor does such a group come after blanks before the text. -/
theorem Stands.afterGroup?_skipBlanks {mark blanks cs : List Char} (h : Stands mark cs)
    (hblanks : ∀ c ∈ blanks, Text.isBlank c = true) :
    afterGroup? mark (skipBlanks (blanks ++ cs)) = none := by
  rw [skipBlanks_append hblanks, skipBlanks_eq_self h.blank, h.group]

/-! ## Passes -/

/-- A pass over a text that leaves alone whatever is no group of a kind and no blank before one. -/
structure Pass (mark : List Char) (f : List Char → List Char) : Prop where
  nil : f [] = []
  cons {c : Char} {cs : List Char} (h : afterGroup? mark (skipBlanks (c :: cs)) = none) :
    f (c :: cs) = c :: f cs

namespace Pass

variable {mark : List Char} {f : List Char → List Char} (hf : Pass mark f)
include hf

theorem append {cs : List Char} (h : Passed cs) (rest : List Char) :
    f (cs ++ rest) = cs ++ f rest := by
  induction cs with
  | nil => rfl
  | cons c cs ih =>
    have hgroup : afterGroup? mark (skipBlanks (c :: (cs ++ rest))) = none :=
      h.afterGroup?_skipBlanks mark rest
    rw [List.cons_append, hf.cons hgroup, ih h.tail, List.cons_append]

theorem append_blanks {cs rest : List Char} (hcs : ∀ c ∈ cs, Text.isBlank c = true)
    (h : Stands mark rest) : f (cs ++ rest) = cs ++ f rest := by
  induction cs with
  | nil => rfl
  | cons c cs ih =>
    have hgroup : afterGroup? mark (skipBlanks (c :: (cs ++ rest))) = none :=
      h.afterGroup?_skipBlanks hcs
    rw [List.cons_append, hf.cons hgroup, ih fun d hd => hcs d (List.mem_cons_of_mem _ hd),
      List.cons_append]

theorem append_stands {c : Char} {tail rest : List Char} (h : Stands mark (c :: tail ++ rest))
    (htail : Passed tail) : f (c :: tail ++ rest) = c :: tail ++ f rest := by
  have hgroup : afterGroup? mark (skipBlanks (c :: (tail ++ rest))) = none :=
    (congrArg (afterGroup? mark) (skipBlanks_eq_self h.blank)).trans h.group
  rw [List.cons_append, hf.cons hgroup, hf.append htail, List.cons_append]

/-- A text is left alone if nothing in it begins like such a group. -/
theorem eq_self {start cs : List Char} (hstart : start <+: openBrace :: mark)
    (h : ¬start <:+: cs) : f cs = cs := by
  induction cs with
  | nil => exact hf.nil
  | cons c cs ih =>
    have hgroup : afterGroup? mark (skipBlanks (c :: cs)) = none :=
      afterGroup?_eq_none_of_not_prefix fun hhead =>
        h ((hstart.trans hhead).isInfix.trans (List.dropWhile_suffix _).isInfix)
    rw [hf.cons hgroup, ih fun hpart => h (hpart.trans (List.infix_cons (List.infix_refl cs)))]

end Pass

/-! ## Dash comments -/

/-- A text without its dash comments and the blanks around them. -/
def undashed (cs : List Char) : List Char := dropDashComments cs.length cs

theorem dropDashComments_succ (fuel : Nat) (c : Char) (cs : List Char) :
    dropDashComments (fuel + 1) (c :: cs) = match afterDashComment? (skipBlanks (c :: cs)) with
      | some rest => dropDashComments fuel (skipBlanks rest)
      | none => c :: dropDashComments fuel cs := by rfl

/-- What remains behind a comment that is found after blanks. -/
theorem length_of_afterGroup?_skipBlanks {mark cs rest : List Char}
    (h : afterGroup? mark (skipBlanks cs) = some rest) : rest.length < cs.length :=
  Nat.lt_of_lt_of_le (length_of_afterGroup? h) (length_skipBlanks_le cs)

/-- The length of the text is enough: whatever is looked at next is shorter. -/
theorem dropDashComments_congr {n m : Nat} {cs : List Char} (hn : cs.length ≤ n)
    (hm : cs.length ≤ m) : dropDashComments n cs = dropDashComments m cs := by
  induction n generalizing m cs with
  | zero =>
    obtain rfl := List.length_eq_zero_iff.mp (Nat.le_zero.mp hn)
    cases m <;> rfl
  | succ n ih =>
    cases cs with
    | nil => cases m <;> rfl
    | cons c cs =>
      obtain ⟨m, rfl⟩ := Nat.exists_eq_add_of_lt (Nat.lt_of_lt_of_le (Nat.succ_pos _) hm)
      rw [List.length_cons] at hn hm
      rw [Nat.zero_add, dropDashComments_succ, dropDashComments_succ]
      cases hgroup : afterDashComment? (skipBlanks (c :: cs)) with
      | none => simp only [ih (show cs.length ≤ n by omega) (show cs.length ≤ m by omega)]
      | some rest =>
        have hrest := length_of_afterGroup?_skipBlanks hgroup
        have hskip := length_skipBlanks_le rest
        rw [List.length_cons] at hrest
        exact ih (by omega) (by omega)

@[simp] theorem undashed_nil : undashed [] = [] := rfl

theorem undashed_group {cs rest : List Char} (h : afterDashComment? (skipBlanks cs) = some rest) :
    undashed cs = undashed (skipBlanks rest) := by
  have hrest := length_of_afterGroup?_skipBlanks h
  have hskip := length_skipBlanks_le rest
  cases cs with
  | nil => cases hrest
  | cons c cs =>
    rw [List.length_cons] at hrest
    rw [undashed, List.length_cons, dropDashComments_succ]
    simp only [h]
    exact dropDashComments_congr (by omega) (Nat.le_refl _)

theorem undashed_cons {c : Char} {cs : List Char}
    (h : afterDashComment? (skipBlanks (c :: cs)) = none) :
    undashed (c :: cs) = c :: undashed cs := by
  rw [undashed, List.length_cons, dropDashComments_succ]
  simp only [h, undashed]

theorem undashed_pass : Pass ['#', '-'] undashed := ⟨rfl, undashed_cons⟩

/-! ## Other comments -/

/-- A text without its comments, but for the blanks that they leave. -/
def uncommented (cs : List Char) : List Char := dropComments cs.length cs

theorem dropComments_succ (fuel : Nat) (c : Char) (cs : List Char) :
    dropComments (fuel + 1) (c :: cs) = match afterComment? (skipBlanks (c :: cs)) with
      | some rest =>
        if blankFollows (rest.length + 1) rest then dropComments fuel rest
        else (c :: cs).takeWhile Text.isBlank ++ dropComments fuel rest
      | none => c :: dropComments fuel cs := by rfl

theorem dropComments_congr {n m : Nat} {cs : List Char} (hn : cs.length ≤ n)
    (hm : cs.length ≤ m) : dropComments n cs = dropComments m cs := by
  induction n generalizing m cs with
  | zero =>
    obtain rfl := List.length_eq_zero_iff.mp (Nat.le_zero.mp hn)
    cases m <;> rfl
  | succ n ih =>
    cases cs with
    | nil => cases m <;> rfl
    | cons c cs =>
      obtain ⟨m, rfl⟩ := Nat.exists_eq_add_of_lt (Nat.lt_of_lt_of_le (Nat.succ_pos _) hm)
      rw [List.length_cons] at hn hm
      rw [Nat.zero_add, dropComments_succ, dropComments_succ]
      cases hgroup : afterComment? (skipBlanks (c :: cs)) with
      | none => simp only [ih (show cs.length ≤ n by omega) (show cs.length ≤ m by omega)]
      | some rest =>
        have hrest := length_of_afterGroup?_skipBlanks hgroup
        rw [List.length_cons] at hrest
        simp only [ih (show rest.length ≤ n by omega) (show rest.length ≤ m by omega)]

@[simp] theorem uncommented_nil : uncommented [] = [] := rfl

/-- The blanks before a comment stay unless others follow. -/
theorem uncommented_group {cs rest : List Char} (h : afterComment? (skipBlanks cs) = some rest) :
    uncommented cs = (if blankFollows (rest.length + 1) rest then []
      else cs.takeWhile Text.isBlank) ++ uncommented rest := by
  have hrest := length_of_afterGroup?_skipBlanks h
  cases cs with
  | nil => cases hrest
  | cons c cs =>
    rw [List.length_cons] at hrest
    rw [uncommented, uncommented, List.length_cons, dropComments_succ]
    simp only [h, dropComments_congr (show rest.length ≤ cs.length by omega) (Nat.le_refl _)]
    split <;> rfl

theorem uncommented_cons {c : Char} {cs : List Char}
    (h : afterComment? (skipBlanks (c :: cs)) = none) :
    uncommented (c :: cs) = c :: uncommented cs := by
  rw [uncommented, List.length_cons, dropComments_succ]
  simp only [h, uncommented]

theorem uncommented_pass : Pass ['#'] uncommented := ⟨rfl, uncommented_cons⟩

theorem withoutComments_eq (cs : List Char) : withoutComments cs = uncommented (undashed cs) := rfl

/-- In a text in which no comment begins nothing is removed. -/
theorem withoutComments_eq_self {cs : List Char} (h : ¬[openBrace, '#'] <:+: cs) :
    withoutComments cs = cs := by
  rw [withoutComments_eq, undashed_pass.eq_self ⟨['-'], rfl⟩ h,
    uncommented_pass.eq_self (List.prefix_refl _) h]

/-! ## Inserted values -/

/-- The text of an inserted value. -/
def valueText (clause : List Char) : List Char := openBrace :: '$' :: (clause ++ [closeBrace])

theorem length_of_splitValue? {cs clause rest : List Char}
    (h : splitValue? cs = some (clause, rest)) : rest.length < cs.length := by
  unfold splitValue? at h
  split at h
  · split at h
    · have hsplit := length_of_splitClose? h
      simp only [List.length_cons]
      omega
    · cases h
  · cases h

theorem cut_succ (fuel : Nat) (c : Char) (cs : List Char) :
    cut (fuel + 1) (c :: cs) = match splitValue? (c :: cs) with
      | some (clause, rest) => .value clause :: cut fuel rest
      | none => push c (cut fuel cs) := by rfl

theorem cut_congr : ∀ {n m : Nat} {cs : List Char}, cs.length ≤ n → cs.length ≤ m →
    cut n cs = cut m cs
  | 0, 0, _, _, _ => rfl
  | _ + 1, 0, [], _, _ => rfl
  | 0, _ + 1, [], _, _ => rfl
  | _ + 1, _ + 1, [], _, _ => rfl
  | n + 1, m + 1, c :: cs, hn, hm => by
    rw [List.length_cons] at hn hm
    rw [cut_succ, cut_succ]
    cases hvalue : splitValue? (c :: cs) with
    | none => simp only [cut_congr (show cs.length ≤ n by omega) (show cs.length ≤ m by omega)]
    | some found =>
      have hrest : found.2.length < _ := length_of_splitValue? hvalue
      rw [List.length_cons] at hrest
      simp only [cut_congr (show found.2.length ≤ n by omega) (show found.2.length ≤ m by omega)]

end Inline

namespace Engine

open Inline

variable {σ : Type} (E : Engine σ) (scope : Scope)

/-- A text without comments, with its values inserted. -/
def filled (cs : List Char) : Run σ String := E.plainText scope (cut cs.length cs)

theorem plainText_segments_eq (cs : List Char) :
    E.plainText scope (segments cs) = E.filled scope (withoutComments cs) := rfl

theorem ofList_cons (c : Char) (cs : List Char) :
    String.ofList (c :: cs) = String.ofList [c] ++ String.ofList cs := by
  rw [← String.ofList_append, List.singleton_append]

theorem plainText_push (c : Char) (segments : List Segment) :
    E.plainText scope (push c segments) =
      (String.ofList [c] ++ ·) <$> E.plainText scope segments := by
  unfold push
  split
  · rename_i cs rest
    simp only [plainText, ofList_cons c cs, String.append_assoc, bind_pure_comp, Functor.map_map]
  · simp only [plainText, bind_pure_comp]

@[simp] theorem filled_nil : E.filled scope [] = pure "" := rfl

/-- Where no value is inserted the text stays as it is. -/
theorem filled_append {cs : List Char} (h : openBrace ∉ cs) (rest : List Char) :
    E.filled scope (cs ++ rest) = (String.ofList cs ++ ·) <$> E.filled scope rest := by
  induction cs with
  | nil => simp
  | cons c cs ih =>
    rw [List.mem_cons, not_or] at h
    have hvalue : splitValue? (c :: (cs ++ rest)) = none := by
      unfold splitValue?
      split
      · rename_i heq
        obtain ⟨rfl, -⟩ := List.cons.inj heq
        exact if_neg fun hc => h.1 hc.symm
      · rfl
    have hcut : E.filled scope (c :: (cs ++ rest)) =
        (String.ofList [c] ++ ·) <$> E.filled scope (cs ++ rest) := by
      rw [filled, List.length_cons, cut_succ]
      simp only [hvalue, plainText_push, filled]
    rw [List.cons_append, hcut, ih h.2, ofList_cons c cs]
    simp only [Functor.map_map, String.append_assoc]

theorem filled_value {clause : List Char} (h : closeBrace ∉ clause) (rest : List Char) :
    E.filled scope (valueText clause ++ rest) = (do
      let s ← E.insert scope (String.ofList clause)
      (s ++ ·) <$> E.filled scope rest) := by
  have htext : valueText clause ++ rest = openBrace :: '$' :: (clause ++ closeBrace :: rest) := by
    simp [valueText]
  have hvalue : splitValue? (valueText clause ++ rest) = some (clause, rest) := by
    rw [htext, splitValue?, if_pos rfl, splitClose?_append h]
  have hlength := length_of_splitValue? hvalue
  rw [htext] at hvalue hlength ⊢
  rw [List.length_cons] at hlength
  have hcut : cut ('$' :: (clause ++ closeBrace :: rest)).length rest = cut rest.length rest :=
    cut_congr (Nat.le_of_lt_succ hlength) (Nat.le_refl _)
  rw [filled, List.length_cons, cut_succ]
  simp only [hvalue, plainText, hcut, bind_pure_comp, filled]

/-- What becomes of a plain text. -/
theorem processWithin_plain {cs : List Char} (hmark : ∀ c ∈ cs.head?, c ∉ Leaf.marks)
    (depth : Nat) : E.processWithin depth (.str (String.ofList cs)) scope =
      Value.str <$> E.filled scope (withoutComments cs) := by
  have hread : Node.ofValue (.str (String.ofList cs)) =
      .leaf (String.ofList cs) (.plain (segments cs)) := by
    rw [Node.ofValue, Node.ofText, String.toList_ofList, Leaf.ofChars_eq_plain hmark]
  rw [processWithin_eq, emitted_eq, run_eq, hread]
  simp [Node.run, leafDirective?, leaf, plainText_segments_eq, single]

end Engine

end TreeTemplate

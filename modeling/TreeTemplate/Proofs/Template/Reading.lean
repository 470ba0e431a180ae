import TreeTemplate.Proofs.Template.Conduct
import TreeTemplate.Proofs.Template.ContextCoherence

/-! # What a template is read to say

The texts of a template stand in places of four kinds (`Value.Place`, `Value.Holds`), and what a
text says depends on its place alone: which directives it marks (`Place.Marks`) and which clauses
it spells (`Place.Spells`).  Reading a template makes nodes of its own texts (`Node.Written`), which
report nothing but what the texts say (`Node.ofValue_within`), so that the nodes can be forgotten
when a run is described.
-/
namespace TreeTemplate

/-! ## Groups of a text -/

namespace Inline

theorem splitClose?_eq_some {cs inner rest : List Char} (h : splitClose? cs = some (inner, rest)) :
    cs = inner ++ closeBrace :: rest ∧ closeBrace ∉ inner := by
  induction cs generalizing inner with
  | nil => cases h
  | cons c cs ih =>
    by_cases hc : c = closeBrace
    · rw [splitClose?, if_pos hc] at h
      cases h
      exact ⟨by rw [hc]; rfl, by simp⟩
    · rw [splitClose?, if_neg hc] at h
      obtain ⟨⟨inner', rest'⟩, hsplit, he⟩ := Option.map_eq_some_iff.mp h
      cases he
      obtain ⟨rfl, hinner⟩ := ih hsplit
      exact ⟨rfl, by simpa [hinner] using fun h => hc h.symm⟩

theorem mem_push {c : Char} {clause : List Char} {segments : List Segment}
    (h : .value clause ∈ push c segments) : .value clause ∈ segments := by
  unfold push at h
  split at h
  · rcases List.mem_cons.mp h with h | h
    · cases h
    · exact List.mem_cons_of_mem _ h
  · rcases List.mem_cons.mp h with h | h
    · cases h
    · exact h

/-- A clause that is cut out of a text is the inside of a group of the text. -/
theorem value_mem_cut {clause : List Char} : ∀ {fuel : Nat} {cs : List Char},
    .value clause ∈ cut fuel cs → closeBrace ∉ clause ∧
      ∃ before after, cs = before ++ openBrace :: '$' :: (clause ++ closeBrace :: after)
  | 0, _, h => by cases h
  | _ + 1, [], h => by cases h
  | fuel + 1, c :: cs, h => by
    -- What is cut out of the rest of the text is a group of the text, further on.
    have hlater : ∀ skipped {rest : List Char}, c :: cs = skipped ++ rest →
        .value clause ∈ cut fuel rest → closeBrace ∉ clause ∧
          ∃ before after,
            c :: cs = before ++ openBrace :: '$' :: (clause ++ closeBrace :: after) := by
      intro skipped rest heq hmem
      obtain ⟨hclause, before, after, rfl⟩ := value_mem_cut hmem
      exact ⟨hclause, skipped ++ before, after, by rw [heq, List.append_assoc]⟩
    simp only [cut] at h
    split at h
    · rename_i inner rest hsplit
      unfold splitValue? at hsplit
      split at hsplit
      · rename_i brace text heq
        by_cases hopen : brace = openBrace
        · rw [if_pos hopen] at hsplit
          obtain ⟨rfl, hinner⟩ := splitClose?_eq_some hsplit
          have hhere : c :: cs = openBrace :: '$' :: (inner ++ closeBrace :: rest) := by
            rw [heq, hopen]
          rcases List.mem_cons.mp h with h | h
          · cases h
            exact ⟨hinner, [], rest, hhere⟩
          · exact hlater (openBrace :: '$' :: (inner ++ [closeBrace])) (by rw [hhere]; simp) h
        · rw [if_neg hopen] at hsplit
          cases hsplit
      · cases hsplit
    · exact hlater [c] rfl (mem_push h)

end Inline

/-! ## Places of texts -/

namespace Value

/-- The kinds of places where a text may stand in a template. -/
inductive Place where
  | leaf
  /-- The first element of a list. -/
  | head
  /-- An element of a list, which may be a marker. -/
  | element
  | key
  deriving DecidableEq, Repr

/-- A text stands somewhere in a value, in a place of the given kind. -/
inductive Holds : Value → Place → String → Prop
  | leaf (s : String) : Holds (.str s) .leaf s
  | head {v : Value} {s : String} {rest : List Value} (hv : v.items? = some (.str s :: rest)) :
    Holds v .head s
  | element {v : Value} {items : List Value} {s : String} (hv : v.items? = some items)
    (hs : .str s ∈ items) : Holds v .element s
  | key {entries : List (Value × Value)} {s : String} {v : Value}
    (he : (.str s, v) ∈ entries) : Holds (.map entries) .key s
  | inItem {v item : Value} {items : List Value} {place : Place} {s : String}
    (hv : v.items? = some items) (hi : item ∈ items) (h : Holds item place s) : Holds v place s
  | inKey {entries : List (Value × Value)} {k v : Value} {place : Place} {s : String}
    (he : (k, v) ∈ entries) (h : Holds k place s) : Holds (.map entries) place s
  | inEntry {entries : List (Value × Value)} {k v : Value} {place : Place} {s : String}
    (he : (k, v) ∈ entries) (h : Holds v place s) : Holds (.map entries) place s

namespace Place

/-- The text after a mark and after the dash that may follow the mark. -/
def AfterDash (cs clause : List Char) : Prop :=
  cs = '-' :: clause ∨ cs = clause ∧ clause.head? ≠ some '-'

/-- The clauses that a text spells in a place: what follows its mark or, in a plain text, what
stands in a group of it once its comments are gone. -/
inductive Spells : Place → List Char → List Char → Prop
  | direct {mark : Char} {cs clause : List Char} (hm : mark = '&' ∨ mark = ',')
    (h : AfterDash cs clause) : Spells .leaf (mark :: cs) clause
  | string (clause : List Char) : Spells .leaf ('$' :: clause) clause
  | named {mark : Char} {cs clause : List Char} (hm : mark = '.' ∨ mark = '^')
    (h : AfterDash cs clause) : Spells .leaf (mark :: cs) (clause.dropWhile Text.isBlank)
  | group {cs before clause after : List Char}
    (hplain : ∀ mark ∈ cs.head?, mark ∉ ['&', ',', '$', '#', '.', '^'])
    (hgroup : Inline.withoutComments cs =
      before ++ Inline.openBrace :: '$' :: (clause ++ Inline.closeBrace :: after))
    (hclause : Inline.closeBrace ∉ clause) : Spells .leaf cs clause
  | head {mark : Char} {cs clause : List Char} (hm : mark = '@' ∨ mark = '?')
    (h : AfterDash cs clause) : Spells .head (mark :: cs) clause
  | capture {cs clause : List Char} (h : AfterDash cs clause) :
    Spells .element ('^' :: cs) (clause.dropWhile Text.isBlank)
  | construct {mark : Char} (clause : List Char) (hm : mark = '%' ∨ mark = '?') :
    Spells .key (mark :: clause) clause
  | apply (clause : List Char) : Spells .key ('^' :: clause) (clause.dropWhile Text.isBlank)

/-- The directives that the first character of a text marks in a place. -/
inductive Marks : Place → Char → Directive → Prop
  | direct {mark : Char} (hm : mark = '&' ∨ mark = ',') : Marks .leaf mark .direct
  | string : Marks .leaf '$' .string
  | comment : Marks .leaf '#' .comment
  | include_ : Marks .leaf '.' .«include»
  | call : Marks .leaf '^' .call
  | loop : Marks .head '@' .loop
  | condition : Marks .head '?' .condition
  | hash : Marks .key '%' .hash
  | switch : Marks .key '?' .switch

/-- What a text says in a place, as a run reports it. -/
def Says (place : Place) (s : String) : Event → Prop
  | .clause text => place.Spells s.toList text.toList
  | .directive directive source => source = s ∧ ∃ mark ∈ s.toList.head?, place.Marks mark directive
  | .call _ | .probe _ _ _ => False

end Place

/-- The texts of a value are of a class, which may be another one in every kind of place. -/
def TextsIn (T : Place → String → Prop) (v : Value) : Prop := ∀ place s, v.Holds place s → T place s

/-- All that the texts of a value say is among given events. -/
def SaysOnly (P : Event → Prop) (v : Value) : Prop :=
  ∀ place s, v.Holds place s → ∀ e, place.Says s e → P e

end Value

open Value (Place TextsIn SaysOnly)

/-! ## Texts -/

theorem Leaf.afterDash_splitDash (cs : List Char) : Place.AfterDash cs (splitDash cs).2 := by
  unfold splitDash
  split
  · exact .inl rfl
  · rename_i hdash
    refine .inr ⟨rfl, fun h => ?_⟩
    obtain ⟨rest, rfl⟩ := List.head?_eq_some_iff.mp h
    exact hdash rest rfl

/-- The clauses of a text as a leaf are spelled by it. -/
theorem Leaf.spells_of_mem_clauses {cs : List Char} {clause : String}
    (h : clause ∈ (ofChars cs).clauses) : Place.leaf.Spells cs clause.toList := by
  unfold ofChars at h
  split at h
  · rcases List.mem_singleton.mp h with rfl
    rw [String.toList_ofList]
    exact .direct (.inl rfl) (afterDash_splitDash _)
  · rcases List.mem_singleton.mp h with rfl
    rw [String.toList_ofList]
    exact .direct (.inr rfl) (afterDash_splitDash _)
  · rcases List.mem_singleton.mp h with rfl
    rw [String.toList_ofList]
    exact .string _
  · cases h
  · rcases List.mem_singleton.mp h with rfl
    rw [strippedClause, String.toList_ofList]
    exact .named (.inl rfl) (afterDash_splitDash _)
  · rcases List.mem_singleton.mp h with rfl
    rw [strippedClause, String.toList_ofList]
    exact .named (.inr rfl) (afterDash_splitDash _)
  · obtain ⟨segment, hsegment, hclause⟩ := List.mem_filterMap.mp h
    cases segment with
    | literal => cases hclause
    | value inner =>
      cases hclause
      obtain ⟨hinner, before, after, hgroup⟩ := Inline.value_mem_cut hsegment
      rw [String.toList_ofList]
      refine .group (fun mark hmark => ?_) hgroup hinner
      obtain ⟨rest, rfl⟩ := List.head?_eq_some_iff.mp hmark
      simp_all

/-- The directive of a text as a leaf is marked by it. -/
theorem Leaf.marks_of_mem_directive {cs : List Char} {directive : Directive}
    (h : directive ∈ Engine.leafDirective? (ofChars cs)) :
    ∃ mark ∈ cs.head?, Place.leaf.Marks mark directive := by
  unfold ofChars at h
  split at h
  · cases h
    exact ⟨_, rfl, .direct (.inl rfl)⟩
  · cases h
    exact ⟨_, rfl, .direct (.inr rfl)⟩
  · cases h
    exact ⟨_, rfl, .string⟩
  · cases h
    exact ⟨_, rfl, .comment⟩
  · cases h
    exact ⟨_, rfl, .include_⟩
  · cases h
    exact ⟨_, rfl, .call⟩
  · cases h

namespace Value.TextsIn

variable {T : Place → String → Prop} {v : Value} {items : List Value}
  {entries : List (Value × Value)}

theorem item (h : TextsIn T v) (hv : v.items? = some items) : ∀ w ∈ items, TextsIn T w :=
  fun _ hw place s hs => h place s (.inItem hv hw hs)

theorem keys (h : TextsIn T (.map entries)) : ∀ entry ∈ entries, TextsIn T entry.1 :=
  fun _ he place s hs => h place s (.inKey he hs)

theorem values (h : TextsIn T (.map entries)) : ∀ entry ∈ entries, TextsIn T entry.2 :=
  fun _ he place s hs => h place s (.inEntry he hs)

end Value.TextsIn

/-! ## Nodes and the texts they are read from -/

mutual

/-- A node was read from texts of `T`, each in its place, and the values that stand for themselves
in it are of `V`. -/
inductive Node.Written (T : Place → String → Prop) (V : Value → Prop) : Node → Prop
  | verbatim {v : Value} (h : V v) : Node.Written T V (.verbatim v)
  | leaf {s : String} {content : Leaf} (hs : T .leaf s) (hm : Leaf.ofChars s.toList = content) :
    Node.Written T V (.leaf s content)
  | loop {s clause : String} {dash : Bool} {body : List Node} (hs : T .head s)
    (hm : Node.Head.ofChars s.toList = .loop dash clause)
    (h : ∀ node ∈ body, Node.Written T V node) : Node.Written T V (.loop s dash clause body)
  | condition {s clause : String} {dash : Bool} {yes no : Option Node} (hs : T .head s)
    (hm : Node.Head.ofChars s.toList = .condition dash clause)
    (hyes : ∀ node ∈ yes, Node.Written T V node) (hno : ∀ node ∈ no, Node.Written T V node) :
    Node.Written T V (.condition s dash clause yes no)
  | elements {forced : Bool} {parts : List Element}
    (h : ∀ part ∈ parts, Element.Written T V part) : Node.Written T V (.elements forced parts)
  | each {s clause : String} {body : Node} (hs : T .key s)
    (hm : Node.KeyMark.ofChars s.toList = .each clause) (h : Node.Written T V body) :
    Node.Written T V (.each s clause body)
  | switch {s clause : String} {cases : List (Value × Node)} (hs : T .key s)
    (hm : Node.KeyMark.ofChars s.toList = .switch clause)
    (h : ∀ case ∈ cases, Node.Written T V case.2) : Node.Written T V (.switch s clause cases)
  | badSwitch {s clause typeName : String} (hs : T .key s)
    (hm : Node.KeyMark.ofChars s.toList = .switch clause) : Node.Written T V (.badSwitch s typeName)
  | merge {entries : List Entry} (h : ∀ entry ∈ entries, Entry.Written T V entry) :
    Node.Written T V (.merge entries)
  | mapping {given : (Value → String) → Node} (h : ∀ text, Node.Written T V (given text)) :
    Node.Written T V (.mapping given)

/-- An element was read from texts of `T` and holds values of `V`. -/
inductive Element.Written (T : Place → String → Prop) (V : Value → Prop) : Element → Prop
  | skip : Element.Written T V .skip
  | capture {s clause : String} {dash : Bool} (hs : T .element s)
    (hm : Node.Marker.ofChars s.toList = .capture dash clause) :
    Element.Written T V (.capture clause)
  | splice : Element.Written T V .splice
  | item {node : Node} (h : Node.Written T V node) : Element.Written T V (.item node)

/-- An entry was read from texts of `T` and holds values of `V`. -/
inductive Entry.Written (T : Place → String → Prop) (V : Value → Prop) : Entry → Prop
  | merge {s : String} {value : Node} (hs : T .key s) (h : Node.Written T V value) :
    Entry.Written T V (.merge s value)
  | commented (key : Value) (value : String) : Entry.Written T V (.commented key value)
  | apply {s clause : String} {value : Node} (hs : T .key s)
    (hm : Node.KeyMark.ofChars s.toList = .apply clause) (h : Node.Written T V value) :
    Entry.Written T V (.apply s clause value)
  | put {key value : Node} (hk : Node.Written T V key) (hv : Node.Written T V value) :
    Entry.Written T V (.put key value)

end

/-- A reading was read from texts of `T` and holds values of `V`. -/
def Node.Reading.Written (T : Place → String → Prop) (V : Value → Prop) : Reading → Prop
  | .dead => True
  | .whole node => node.Written T V
  | .live entry => entry.Written T V

namespace Node

variable {V K : Value → Prop} {T : Place → String → Prop}

theorem ofReadings_written {readings : List Reading} (h : ∀ r ∈ readings, r.Written T V) :
    (ofReadings readings).Written T V := by
  simp only [ofReadings]
  split
  · rename_i node hnode
    obtain ⟨reading, hmem, hr⟩ := List.exists_of_findSome?_eq_some hnode
    cases reading with
    | whole => exact Option.some.inj hr ▸ h _ hmem
    | dead | live => cases hr
  · refine .merge fun entry hentry => ?_
    obtain ⟨reading, hmem, hr⟩ := List.mem_filterMap.mp hentry
    cases reading with
    | live => exact Option.some.inj hr ▸ h _ hmem
    | dead | whole => cases hr

theorem ofRows_written {rows : List (Value × Reading)} (h : ∀ row ∈ rows, row.2.Written T V) :
    (ofRows rows).Written T V := by
  refine .mapping fun text => ofReadings_written fun r hr => ?_
  obtain ⟨row, hrow, rfl⟩ := exists_row_of_mem_inOrder hr
  exact h row hrow

theorem unlessCommented_written {key value : Value} {entry : Entry} (h : entry.Written T V) :
    (unlessCommented key value entry).Written T V := by
  unfold unlessCommented
  split
  · split
    · exact Entry.Written.commented _ _
    · exact h
  · exact h

theorem readElement_written {s : String} (hleaf : T .leaf s) (hs : T .element s)
    {rest : List Element} (hrest : ∀ part ∈ rest, part.Written T V) :
    ∀ part ∈ readElement s rest, part.Written T V := by
  unfold readElement
  cases hmark : Marker.ofChars s.toList with
  | stop => simp
  | skip => simpa using ⟨.skip, hrest⟩
  | splice => simpa using ⟨.splice, hrest⟩
  | none => simpa using ⟨.item (.leaf hleaf rfl), hrest⟩
  | capture dash clause => simpa using ⟨.capture hs hmark, hrest⟩

section
variable (D : Value.Domain V K)
include D

-- Along the recursion of the reader.
set_option linter.unusedSectionVars false in
mutual

/-- A template of the domain is read as a node of its own texts and of values of the domain. -/
theorem ofValue_written : ∀ {v : Value}, V v → TextsIn T v → (ofValue v).Written T V
  | .str s, _, h => .leaf (h .leaf s (.leaf s)) rfl
  | .list items, hv, h =>
    ofItems_written (D.list.mp hv) (h.item rfl) (fun s hs => h .element s (.element rfl hs))
      fun s hs => by
        obtain ⟨rest, rfl⟩ := List.head?_eq_some_iff.mp hs
        exact h .head s (.head rfl)
  | .tuple items, hv, h =>
    ofItems_written (D.tuple hv) (h.item rfl) (fun s hs => h .element s (.element rfl hs))
      fun s hs => by
        obtain ⟨rest, rfl⟩ := List.head?_eq_some_iff.mp hs
        exact h .head s (.head rfl)
  | .map entries, hv, h => by
    have hentries := D.map.mp hv
    simp only [ofValue]
    exact ofRows_written (readEntries_written (fun e he => D.ofKey (hentries e he).1)
      (fun e he => (hentries e he).2) h.keys h.values fun s v he => h .key s (.key he))
  | .null, hv, _ | .bool _, hv, _ | .int _, hv, _ | .float _, hv, _ | .bytes _, hv, _
  | .moment _, hv, _ | .host _, hv, _ => .verbatim hv

theorem ofItems_written : ∀ {items : List Value}, (∀ w ∈ items, V w) →
    (∀ w ∈ items, TextsIn T w) → (∀ s, .str s ∈ items → T .element s) →
    (∀ s, items.head? = some (.str s) → T .head s) → (ofItems items).Written T V
  | [], _, _, _, _ => .elements (by simp)
  | v :: rest, hV, h, helement, hhead => by
    obtain ⟨hv, hrest⟩ := List.forall_mem_cons.mp hV
    obtain ⟨htexts, htextsRest⟩ := List.forall_mem_cons.mp h
    have helements := readElements_written hrest htextsRest
      fun s hs => helement s (List.mem_cons_of_mem _ hs)
    have hvalues := ofValues_written hrest htextsRest
    have hyes := ofBranch_written hrest htextsRest
    have hno := ofSecondBranch_written hrest htextsRest
    have hitem := ofValue_written hv htexts
    cases v with
    | str s =>
      have hs := hhead s rfl
      simp only [ofItems]
      cases hmark : Head.ofChars s.toList with
      | loop dash clause => exact .loop hs hmark hvalues
      | condition dash clause => exact .condition hs hmark hyes hno
      | plain =>
        exact .elements (readElement_written (htexts .leaf s (.leaf s))
          (helement s List.mem_cons_self) helements)
    | _ =>
      simp only [ofItems]
      exact .elements (List.forall_mem_cons.mpr ⟨.item hitem, helements⟩)

theorem ofValues_written : ∀ {items : List Value}, (∀ w ∈ items, V w) →
    (∀ w ∈ items, TextsIn T w) → ∀ node ∈ ofValues items, node.Written T V
  | [], _, _ => by simp [ofValues]
  | v :: rest, hV, h => by
    obtain ⟨hv, hrest⟩ := List.forall_mem_cons.mp hV
    obtain ⟨htexts, htextsRest⟩ := List.forall_mem_cons.mp h
    exact List.forall_mem_cons.mpr ⟨ofValue_written hv htexts, ofValues_written hrest htextsRest⟩

theorem ofBranch_written : ∀ {items : List Value}, (∀ w ∈ items, V w) →
    (∀ w ∈ items, TextsIn T w) → ∀ node ∈ ofBranch items, node.Written T V
  | [], _, _ => by simp [ofBranch]
  | v :: rest, hV, h => by
    have hv := ofValue_written (hV v List.mem_cons_self) (h v List.mem_cons_self)
    simpa [ofBranch] using hv

theorem ofSecondBranch_written : ∀ {items : List Value}, (∀ w ∈ items, V w) →
    (∀ w ∈ items, TextsIn T w) → ∀ node ∈ ofSecondBranch items, node.Written T V
  | [], _, _ => by simp [ofSecondBranch]
  | _ :: rest, hV, h =>
    ofBranch_written (List.forall_mem_cons.mp hV).2 (List.forall_mem_cons.mp h).2

theorem readElements_written : ∀ {items : List Value}, (∀ w ∈ items, V w) →
    (∀ w ∈ items, TextsIn T w) → (∀ s, .str s ∈ items → T .element s) →
    ∀ part ∈ readElements items, part.Written T V
  | [], _, _, _ => by simp [readElements]
  | v :: rest, hV, h, helement => by
    obtain ⟨hv, hrest⟩ := List.forall_mem_cons.mp hV
    obtain ⟨htexts, htextsRest⟩ := List.forall_mem_cons.mp h
    have helements := readElements_written hrest htextsRest
      fun s hs => helement s (List.mem_cons_of_mem _ hs)
    have hitem := ofValue_written hv htexts
    cases v with
    | str s =>
      exact readElement_written (htexts .leaf s (.leaf s)) (helement s List.mem_cons_self) helements
    | _ => exact List.forall_mem_cons.mpr ⟨.item hitem, helements⟩

theorem readEntries_written : ∀ {entries : List (Value × Value)}, (∀ e ∈ entries, V e.1) →
    (∀ e ∈ entries, V e.2) → (∀ e ∈ entries, TextsIn T e.1) → (∀ e ∈ entries, TextsIn T e.2) →
    (∀ s v, (.str s, v) ∈ entries → T .key s) → ∀ row ∈ readEntries entries, row.2.Written T V
  | [], _, _, _, _, _ => by simp [readEntries]
  | (k, v) :: rest, hk, hv, hkeys, hvalues, hs => by
    obtain ⟨hk, hkRest⟩ := List.forall_mem_cons.mp hk
    obtain ⟨hv, hvRest⟩ := List.forall_mem_cons.mp hv
    obtain ⟨hkey, hkeysRest⟩ := List.forall_mem_cons.mp hkeys
    obtain ⟨hvalue, hvaluesRest⟩ := List.forall_mem_cons.mp hvalues
    have hentry := readEntry_written (k, v) hk hv hkey hvalue
      fun s heq => hs s v (heq ▸ List.mem_cons_self)
    have hrest := readEntries_written hkRest hvRest hkeysRest hvaluesRest
      fun s v he => hs s v (List.mem_cons_of_mem _ he)
    exact List.forall_mem_cons.mpr ⟨hentry, hrest⟩

theorem readEntry_written : ∀ entry : Value × Value, V entry.1 → V entry.2 → TextsIn T entry.1 →
    TextsIn T entry.2 → (∀ s, entry.1 = .str s → T .key s) → (readEntry entry).Written T V
  | (k, v), hk, hv, hkey, hvalue, hs => by
    have hkeyNode := ofValue_written hk hkey
    have hvalueNode := ofValue_written hv hvalue
    have hswitch := fun key clause => ofSwitch_written key clause hv hvalue
    cases k with
    | str s =>
      have hs := hs s rfl
      simp only [readEntry]
      cases hmark : KeyMark.ofChars s.toList with
      | each clause => exact Node.Written.each hs hmark hvalueNode
      | switch clause => exact hswitch s clause hs hmark
      | dead => trivial
      | merge => exact unlessCommented_written (.merge hs hvalueNode)
      | apply clause => exact unlessCommented_written (.apply hs hmark hvalueNode)
      | none => exact unlessCommented_written (.put hkeyNode hvalueNode)
    | _ => exact unlessCommented_written (.put hkeyNode hvalueNode)

theorem ofSwitch_written (s clause : String) : ∀ {v : Value}, V v → TextsIn T v → T .key s →
    KeyMark.ofChars s.toList = .switch clause → (ofSwitch s clause v).Written T V
  | .map cases, hv, h, hs, hm => by
    have hcases := D.map.mp hv
    simp only [ofSwitch]
    exact .switch hs hm (readCases_written (fun e he => (hcases e he).2) h.values)
  | .null, _, _, hs, hm | .bool _, _, _, hs, hm | .int _, _, _, hs, hm | .float _, _, _, hs, hm
  | .str _, _, _, hs, hm | .bytes _, _, _, hs, hm | .moment _, _, _, hs, hm
  | .list _, _, _, hs, hm | .tuple _, _, _, hs, hm | .host _, _, _, hs, hm => .badSwitch hs hm

theorem readCases_written : ∀ {cases : List (Value × Value)}, (∀ e ∈ cases, V e.2) →
    (∀ e ∈ cases, TextsIn T e.2) → ∀ case ∈ readCases cases, case.2.Written T V
  | [], _, _ => by simp [readCases]
  | (_, v) :: rest, hv, h => by
    obtain ⟨hv, hvRest⟩ := List.forall_mem_cons.mp hv
    obtain ⟨h, hRest⟩ := List.forall_mem_cons.mp h
    exact List.forall_mem_cons.mpr ⟨ofValue_written hv h, readCases_written hvRest hRest⟩

end

end

variable {P : Event → Prop}

/-! ### What marks report -/

/-- What a text does at the head of a list reports only events of `P`. -/
def Head.Within (P : Event → Prop) (s : String) : Head → Prop
  | .loop _ clause => P (.directive .loop s) ∧ P (.clause clause)
  | .condition _ clause => P (.directive .condition s) ∧ P (.clause clause)
  | .plain => True

/-- What a marker does reports only events of `P`. -/
def Marker.Within (P : Event → Prop) : Marker → Prop
  | .capture _ clause => P (.clause clause)
  | .stop _ | .skip _ | .splice | .none => True

/-- What the key of an entry asks for reports only events of `P`. -/
def KeyMark.Within (P : Event → Prop) (s : String) : KeyMark → Prop
  | .each clause => P (.directive .hash s) ∧ P (.clause clause)
  | .switch clause => P (.directive .switch s) ∧ P (.clause clause)
  | .apply clause => P (.clause clause)
  | .dead | .merge | .none => True

section
variable {s : String}

theorem Head.within_ofChars (hs : ∀ e, Place.head.Says s e → P e) :
    (Head.ofChars s.toList).Within P s := by
  have hd : ∀ {mark cs directive}, s.toList = mark :: cs → Place.head.Marks mark directive →
      P (.directive directive s) := fun hcs hm => hs (.directive _ s) ⟨rfl, _, by simp [hcs], hm⟩
  have hc : ∀ {mark cs}, s.toList = mark :: cs → mark = '@' ∨ mark = '?' →
      P (.clause (String.ofList (Leaf.splitDash cs).2)) := by
    intro mark cs hcs hm
    refine hs (.clause _) ?_
    show Place.head.Spells s.toList _
    rw [hcs, String.toList_ofList]
    exact .head hm (Leaf.afterDash_splitDash cs)
  unfold Head.ofChars
  split
  · rename_i hcs
    exact ⟨hd hcs .loop, hc hcs (.inl rfl)⟩
  · rename_i hcs
    exact ⟨hd hcs .condition, hc hcs (.inr rfl)⟩
  · trivial

theorem Marker.within_ofChars (hs : ∀ e, Place.element.Says s e → P e) :
    (Marker.ofChars s.toList).Within P := by
  unfold Marker.ofChars
  split
  case h_3 cs hcs =>
    refine hs (.clause _) ?_
    show Place.element.Spells s.toList _
    rw [hcs, Leaf.strippedClause, String.toList_ofList]
    exact .capture (Leaf.afterDash_splitDash cs)
  all_goals trivial

theorem KeyMark.within_ofChars (hs : ∀ e, Place.key.Says s e → P e) :
    (KeyMark.ofChars s.toList).Within P s := by
  have hd : ∀ {mark cs directive}, s.toList = mark :: cs → Place.key.Marks mark directive →
      P (.directive directive s) := fun hcs hm => hs (.directive _ s) ⟨rfl, _, by simp [hcs], hm⟩
  have hc : ∀ {mark cs}, s.toList = mark :: cs → mark = '%' ∨ mark = '?' →
      P (.clause (String.ofList cs)) := by
    intro mark cs hcs hm
    refine hs (.clause _) ?_
    show Place.key.Spells s.toList _
    rw [hcs, String.toList_ofList]
    exact .construct cs hm
  unfold KeyMark.ofChars
  split
  · rename_i hcs
    exact ⟨hd hcs .hash, hc hcs (.inl rfl)⟩
  · rename_i hcs
    exact ⟨hd hcs .switch, hc hcs (.inr rfl)⟩
  · trivial
  · trivial
  · rename_i cs hcs
    refine hs (.clause _) ?_
    show Place.key.Spells s.toList _
    rw [hcs, Leaf.strippedClause, String.toList_ofList]
    exact .apply cs
  · trivial

/-- The head of a list spells its clause. -/
theorem Head.spells {dash : Bool} {clause : String}
    (h : Head.ofChars s.toList = .loop dash clause ∨
      Head.ofChars s.toList = .condition dash clause) :
    Place.head.Spells s.toList clause.toList := by
  have hsaid := Head.within_ofChars (s := s) fun _ h => h
  rcases h with h | h
  · rw [h] at hsaid
    exact hsaid.2
  · rw [h] at hsaid
    exact hsaid.2

theorem Marker.spells {dash : Bool} {clause : String}
    (h : Marker.ofChars s.toList = .capture dash clause) :
    Place.element.Spells s.toList clause.toList := by
  have hsaid := Marker.within_ofChars (s := s) fun _ h => h
  rw [h] at hsaid
  exact hsaid

theorem KeyMark.spells {clause : String} (h : KeyMark.ofChars s.toList = .each clause ∨
    KeyMark.ofChars s.toList = .switch clause ∨ KeyMark.ofChars s.toList = .apply clause) :
    Place.key.Spells s.toList clause.toList := by
  have hsaid := KeyMark.within_ofChars (s := s) fun _ h => h
  rcases h with h | h | h
  · rw [h] at hsaid
    exact hsaid.2
  · rw [h] at hsaid
    exact hsaid.2
  · rw [h] at hsaid
    exact hsaid

end

end Node

/-! ### What nodes report -/

section
variable {V : Value → Prop} {P : Event → Prop} {T : Place → String → Prop}
  (hsaid : ∀ place s, T place s → ∀ e, place.Says s e → P e)
include hsaid

-- By induction on how the node was read.
set_option linter.unusedSectionVars false in
mutual

/-- A node reports nothing but what the texts say that it was read from. -/
theorem Node.Written.within : ∀ {node : Node}, node.Written T V → node.Within V P
  | _, .verbatim h => .verbatim h
  | _, .leaf (s := s) hs hm => by
    subst hm
    exact .leaf (fun directive hd => hsaid .leaf s hs (.directive directive s)
        ⟨rfl, Leaf.marks_of_mem_directive hd⟩)
      fun clause hc => hsaid .leaf s hs (.clause clause) (Leaf.spells_of_mem_clauses hc)
  | _, .loop (s := s) hs hm h => by
    have hmark := Node.Head.within_ofChars (hsaid .head s hs)
    rw [hm] at hmark
    exact .loop hmark.1 hmark.2 fun node hnode => (h node hnode).within
  | _, .condition (s := s) hs hm hyes hno => by
    have hmark := Node.Head.within_ofChars (hsaid .head s hs)
    rw [hm] at hmark
    exact .condition hmark.1 hmark.2 (fun node hnode => (hyes node hnode).within)
      fun node hnode => (hno node hnode).within
  | _, .elements h => .elements fun part hpart => (h part hpart).within
  | _, .each (s := s) hs hm h => by
    have hmark := Node.KeyMark.within_ofChars (hsaid .key s hs)
    rw [hm] at hmark
    exact .each hmark.1 hmark.2 h.within
  | _, .switch (s := s) hs hm h => by
    have hmark := Node.KeyMark.within_ofChars (hsaid .key s hs)
    rw [hm] at hmark
    exact .switch hmark.1 hmark.2 fun case hcase => (h case hcase).within
  | _, .badSwitch (s := s) hs hm => by
    have hmark := Node.KeyMark.within_ofChars (hsaid .key s hs)
    rw [hm] at hmark
    exact .badSwitch hmark.1
  | _, .merge h => .merge fun entry hentry => (h entry hentry).within
  | _, .mapping h => .mapping fun text => (h text).within

theorem Element.Written.within : ∀ {part : Element}, part.Written T V →
    part.Within V P
  | _, .skip => .skip
  | _, .capture (s := s) hs hm => by
    have hmark := Node.Marker.within_ofChars (hsaid .element s hs)
    rw [hm] at hmark
    exact .capture hmark
  | _, .splice => .splice
  | _, .item h => .item h.within

theorem Entry.Written.within : ∀ {entry : Entry}, entry.Written T V →
    entry.Within V P
  | _, .merge _ h => .merge h.within
  | _, .commented key value => .commented key value
  | _, .apply (s := s) hs hm h => by
    have hmark := Node.KeyMark.within_ofChars (hsaid .key s hs)
    rw [hm] at hmark
    exact .apply hmark h.within
  | _, .put hk hv => .put hk.within hv.within

end

end

/-- A template of a domain is read as a node that is made of values of the domain and that reports
nothing but what the texts of the template say. -/
theorem Node.ofValue_within {V K : Value → Prop} {P : Event → Prop} (D : Value.Domain V K)
    {v : Value} (hv : V v) (h : SaysOnly P v) : (Node.ofValue v).Within V P :=
  (Node.ofValue_written (T := fun place s => ∀ e, place.Says s e → P e) D hv h).within
    fun _ _ hsaid => hsaid

namespace Engine

variable {σ : Type}

/-- Where anything may be reported, a template of a domain that includes documents of the domain
comes to a value of the domain. -/
theorem processWithin_within {E : Engine σ} {c : Contract} {V K : Value → Prop} (O : E.Obeys c V)
    (D : Value.Domain V K) (hunfinished : c.failure .unfinished) (hevent : ∀ e, c.event e)
    (hdocs : ∀ doc, E.Included c.trace doc → V doc) (depth : Nat) {template : Value}
    (htemplate : V template) {scope : Scope} (hs : ∀ frame ∈ scope, V frame) :
    (E.processWithin depth template scope).Meets c V := by
  have hread : ∀ doc, V doc → (Node.ofValue doc).Within V c.event :=
    fun doc hdoc => Node.ofValue_within D hdoc fun _ _ _ e _ => hevent e
  exact processWithin_meets O D hunfinished (fun doc hdoc => hread doc (hdocs doc hdoc)) depth
    (hread template htemplate) hs

/-! ## What a run reports -/

/-- What a run takes its code from: its template, and the documents that it includes. -/
inductive Code (E : Engine σ) (template : Value) (trace : List Event) : Value → Prop
  | template : Code E template trace template
  | included {doc : Value} (h : E.Included trace doc) : Code E template trace doc

/-- A run reports nothing but calls, searches, and what the texts of its code say.  This is the
contract that allows just these: nodes report what the texts say that they were read from. -/
theorem of_mem_events {E : Engine σ} {depth : Nat} {template : Value} {scope : Scope} {s : σ}
    {P : Event → Prop} (hcall : ∀ call, P (.call call))
    (hsearch : ∀ filename, E.probes filename ⊆ (E.processWithin depth template scope s).events →
      ∀ e ∈ E.probes filename, P e)
    (hsaid : ∀ doc, E.Code template (E.processWithin depth template scope s).events doc →
      doc.SaysOnly P) :
    ∀ e ∈ (E.processWithin depth template scope s).events, P e := by
  let c : Contract := ⟨(E.processWithin depth template scope s).events, P, fun _ => True⟩
  have O : E.Obeys c fun _ => True := E.obeys_of_events hcall hsearch
    (fun _ _ => trivial) (E.host.failsWithin_of_all fun _ => trivial)
  have hread : ∀ doc, E.Code template c.trace doc →
      (Node.ofValue doc).Within (fun _ => True) c.event := fun doc hdoc =>
    Node.ofValue_within Value.domain_all trivial (hsaid doc hdoc)
  have hmeets : (E.processWithin depth template scope).Meets c fun _ => True :=
    processWithin_meets O Value.domain_all trivial (fun doc h => hread doc (.included h)) depth
      (hread template .template) (by simp)
  exact (hmeets s fun _ h => h).events

end Engine
end TreeTemplate

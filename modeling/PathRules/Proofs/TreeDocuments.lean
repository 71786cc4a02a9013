import PathRules.Proofs.TreeShapes
/-!
Error trees and their documents. Main statement: the document of a tree denotes the tree, and
distinct trees have documents that differ in more than the order of members.
-/

namespace PathRules

namespace Json

/-- Whether two documents are equal. The order of the members of an object does not count. -/
inductive Same : Json → Json → Prop
  | null : Same null null
  | bool (b : Bool) : Same (bool b) (bool b)
  | integer (n : Int) : Same (integer n) (integer n)
  | real {x y : Float} (equal : (x == y) = true) : Same (real x) (real y)
  | string (s : String) : Same (string s) (string s)
  | array {items others : List Json} (equal : List.Forall₂ Same items others) :
      Same (array items) (array others)
  | object {members others : List (String × Json)}
      (equal : ∀ key, Option.Rel Same (Keyed.get? members key) (Keyed.get? others key)) :
      Same (object members) (object others)

/-- An object is equal to itself if its members are. -/
theorem same_object_self {members : List (String × Json)} (h : ∀ m ∈ members, Same m.2 m.2) :
    Same (object members) (object members) := by
  refine .object fun key => ?_
  cases hget : Keyed.get? members key with
  | none => exact .none
  | some value => exact .some (h (key, value) (Keyed.mem_of_get? hget))

theorem same_strings_self (ss : List String) : Same (strings ss) (strings ss) := by
  refine .array ?_
  induction ss with
  | nil => exact .nil
  | cons s rest ih => exact .cons (.string s) ih

theorem eq_of_same_strings {ss others : List String} (h : Same (strings ss) (strings others)) :
    ss = others := by
  cases h with
  | array equal =>
    induction ss generalizing others with
    | nil =>
      cases others with
      | nil => rfl
      | cons s rest => cases equal
    | cons s rest ih =>
      cases others with
      | nil => cases equal
      | cons s' rest' =>
        cases equal with
        | cons hfirst hrest =>
          cases hfirst
          rw [ih hrest]

end Json

namespace ErrorTree

/-! ### Documents are read back -/

theorem index?_integerText {i : Int} (h : Text.fitsInt64 i = true) :
    index? (Text.integerText i) = some i := by
  rw [index?, Text.integer?_integerText]
  exact if_pos ⟨rfl, h⟩

theorem errorsOf?_strings (ss : List String) : errorsOf? (.strings ss) = some ss := by
  rw [Json.strings, errorsOf?]
  induction ss with
  | nil => rfl
  | cons s rest ih =>
    simp [ih, Json.string?]

/-- Children that are in order stay as they are. -/
theorem sortChildren_of_sorted {children : List (Segment × ErrorTree)}
    (h : Keyed.Sorted Segment.isBefore children) : sortChildren children = children := by
  suffices hfold : ∀ before after : List (Segment × ErrorTree),
      Keyed.Sorted Segment.isBefore (before ++ after) →
        after.foldl (fun acc child => Keyed.upsert Segment.isBefore (fun _ => child.2) acc child.1)
          before = before ++ after from hfold [] children h
  intro before after
  induction after generalizing before with
  | nil => simp
  | cons child rest ih =>
    obtain ⟨s, t⟩ := child
    intro hsorted
    have hlast : ∀ u ∈ Keyed.keys before, Segment.isBefore u s = true := by
      rw [Keyed.Sorted, Keyed.keys, List.map_append, List.pairwise_append] at hsorted
      exact fun u hu => hsorted.2.2 u hu s List.mem_cons_self
    have hput : Keyed.upsert Segment.isBefore (fun _ => t) before s = before ++ [(s, t)] :=
      Keyed.upsert_of_forall_before Segment.strictOrder_isBefore _ hlast
    have hrest := ih (before ++ [(s, t)]) (by simpa using hsorted)
    simpa [hput] using hrest

/-- In order, the keys come before the indices. -/
theorem filter_isKey_append {children : List (Segment × ErrorTree)}
    (h : Keyed.Sorted Segment.isBefore children) :
    (children.filter fun child => isKey child.1) ++ (children.filter fun child => !isKey child.1) =
      children := by
  induction children with
  | nil => rfl
  | cons child rest ih =>
    obtain ⟨s, t⟩ := child
    obtain ⟨hfirst, hrest⟩ := Keyed.sorted_cons.mp h
    cases s with
    | key name => simpa [List.filter_cons] using ih hrest
    | index i =>
      have hindices : ∀ other ∈ rest, isKey other.1 = false := by
        rintro ⟨u, t'⟩ hother
        have hafter := hfirst u (List.mem_map_of_mem hother)
        cases u with
        | key name => contradiction
        | index j => rfl
      have hkeys : (rest.filter fun other => isKey other.1) = [] :=
        List.filter_eq_nil_iff.mpr fun other hother => by simp [hindices other hother]
      have hall := ih hrest
      rw [hkeys, List.nil_append] at hall
      simp [hkeys, hall]

theorem fieldChildren?_fieldMembers {children : List (Segment × ErrorTree)}
    (h : ∀ child ∈ children, ofJson? child.2.toJson = some child.2) :
    fieldChildren? (fieldMembers children) =
      some (children.filter fun child => isKey child.1) := by
  induction children with
  | nil => rfl
  | cons child rest ih =>
    obtain ⟨s, t⟩ := child
    obtain ⟨hfirst, hrest⟩ := List.forall_mem_cons.mp h
    cases s with
    | key name => simp [fieldMembers, fieldChildren?, hfirst, ih hrest, List.filter_cons]
    | index i => simp [fieldMembers, ih hrest]

theorem elementChildren?_elementMembers {children : List (Segment × ErrorTree)}
    (hfits : ∀ i, .index i ∈ Keyed.keys children → Text.fitsInt64 i = true)
    (h : ∀ child ∈ children, ofJson? child.2.toJson = some child.2) :
    elementChildren? (elementMembers children) =
      some (children.filter fun child => !isKey child.1) := by
  induction children with
  | nil => rfl
  | cons child rest ih =>
    obtain ⟨s, t⟩ := child
    obtain ⟨hfirst, hrest⟩ := List.forall_mem_cons.mp h
    have hread := ih (fun i hi => hfits i (Keyed.mem_keys_cons.mpr (.inr hi))) hrest
    cases s with
    | key name => simp [elementMembers, hread]
    | index i =>
      have hindex := index?_integerText (hfits i (Keyed.mem_keys_cons.mpr (.inl rfl)))
      simp [elementMembers, elementChildren?, hindex, hfirst, hread]

/-- Members that are left out denote nothing. -/
theorem ofMembers?_presentMembers {errors fields elements : Json} {messages : List String}
    {keyed indexed : List (Segment × ErrorTree)} (hasErrors hasFields hasElements : Bool)
    (herrors : errorsOf? errors = some messages) (hfields : fieldsOf? fields = some (some keyed))
    (helements : elementsOf? elements = some (some indexed)) :
    ofMembers? {} (presentMembers
        [(hasErrors, "errors", errors), (hasFields, "fields", fields),
          (hasElements, "elements", elements)]) =
      some ⟨if hasErrors then some messages else none,
        if hasFields then some (some keyed) else none,
        if hasElements then some (some indexed) else none⟩ := by
  cases hasErrors <;> cases hasFields <;> cases hasElements <;>
    simp [presentMembers, ofMembers?, herrors, hfields, helements]

/-- Children that are left out of a document do not exist. -/
theorem getD_present {present : Bool} {p : Segment × ErrorTree → Bool}
    {children : List (Segment × ErrorTree)}
    (h : ∀ child ∈ children, p child = true → present = true) :
    ((if present then some (some (children.filter p)) else none).getD none).getD [] =
      children.filter p := by
  cases present with
  | true => rfl
  | false =>
    exact (List.filter_eq_nil_iff.mpr fun child hchild hp =>
      Bool.false_ne_true (h child hchild hp)).symm

/-- The document of a tree denotes the tree. -/
theorem WellFormed.ofJson?_toJson {t : ErrorTree} (h : t.WellFormed) :
    ofJson? t.toJson = some t := by
  induction h with
  | @node errors isObject isArray children sorted admitted below ih =>
    have hfits : ∀ i, .index i ∈ Keyed.keys children → Text.fitsInt64 i = true :=
      fun i hi => (admitted _ hi).2
    have hfields : fieldsOf? (.object (fieldMembers children)) =
        some (some (children.filter fun child => isKey child.1)) := by
      rw [fieldsOf?, fieldChildren?_fieldMembers ih]
      rfl
    have helements : elementsOf? (.object (elementMembers children)) =
        some (some (children.filter fun child => !isKey child.1)) := by
      rw [elementsOf?, elementChildren?_elementMembers hfits ih]
      rfl
    have hmessages : (if !errors.isEmpty then some errors else none).getD [] = errors := by
      cases errors <;> rfl
    rw [toJson, ofJson?,
      ofMembers?_presentMembers _ _ _ (errorsOf?_strings errors) hfields helements, Option.map_some,
      Parts.toTree, assemble, hmessages]
    have hobject : ∀ child ∈ children, isKey child.1 = true → isObject = true :=
      fun child hchild => (admitted child.1 (List.mem_map_of_mem hchild)).isObject
    have harray : ∀ child ∈ children, (!isKey child.1) = true → isArray = true :=
      fun child hchild => (admitted child.1 (List.mem_map_of_mem hchild)).isArray
    simp only [getD_present hobject, getD_present harray, filter_isKey_append sorted,
      sortChildren_of_sorted sorted]
    cases isObject <;> cases isArray <;> rfl

/-! ### Distinct trees have distinct documents -/

theorem get?_fieldMembers (children : List (Segment × ErrorTree)) (name : String) :
    Keyed.get? (fieldMembers children) name =
      (Keyed.get? children (.key name)).map toJson := by
  induction children with
  | nil => rfl
  | cons child rest ih =>
    obtain ⟨s, t⟩ := child
    cases s with
    | key first =>
      by_cases hname : first = name <;> simp [fieldMembers, Keyed.get?, hname, ih]
    | index i => simp [fieldMembers, Keyed.get?, ih]

theorem get?_elementMembers (children : List (Segment × ErrorTree)) (i : Int) :
    Keyed.get? (elementMembers children) (Text.integerText i) =
      (Keyed.get? children (.index i)).map toJson := by
  induction children with
  | nil => rfl
  | cons child rest ih =>
    obtain ⟨s, t⟩ := child
    cases s with
    | key name => simp [elementMembers, Keyed.get?, ih]
    | index first =>
      have htext : Text.integerText first = Text.integerText i ↔ first = i :=
        ⟨Text.integerText_injective, congrArg Text.integerText⟩
      by_cases hindex : first = i <;> simp [elementMembers, Keyed.get?, htext, hindex, ih]

/-- What an object has for its members. -/
theorem get?_presentMembers (hasErrors hasFields hasElements : Bool)
    (errors fields elements : Json) :
    let members := presentMembers
      [(hasErrors, "errors", errors), (hasFields, "fields", fields),
        (hasElements, "elements", elements)]
    Keyed.get? members "errors" = (if hasErrors then some errors else none) ∧
      Keyed.get? members "fields" = (if hasFields then some fields else none) ∧
        Keyed.get? members "elements" = (if hasElements then some elements else none) := by
  cases hasErrors <;> cases hasFields <;> cases hasElements <;>
    simp [presentMembers, Keyed.get?]

theorem rel_ite_iff {α : Type} {r : α → α → Prop} {b c : Bool} {x y : α} :
    Option.Rel r (if b then some x else none) (if c then some y else none) ↔
      b = c ∧ (b = true → r x y) := by
  cases b <;> cases c <;> simp

/-- Nodes with equal documents have the same messages and kinds, and children with equal documents
at the segments of these kinds. -/
theorem rel_get?_children {errors errors' : List String}
    {isObject isObject' isArray isArray' : Bool} {children children' : List (Segment × ErrorTree)}
    (h : Json.Same (toJson (node errors isObject isArray children))
      (toJson (node errors' isObject' isArray' children'))) :
    errors = errors' ∧ isObject = isObject' ∧ isArray = isArray' ∧
      ∀ s, Admits isObject isArray s →
        Option.Rel Json.Same ((Keyed.get? children s).map toJson)
          ((Keyed.get? children' s).map toJson) := by
  rw [toJson, toJson] at h
  cases h with
  | object equal =>
    obtain ⟨herrors, hfields, helements⟩ := get?_presentMembers (!errors.isEmpty) isObject isArray
      (.strings errors) (.object (fieldMembers children)) (.object (elementMembers children))
    obtain ⟨herrors', hfields', helements'⟩ := get?_presentMembers (!errors'.isEmpty) isObject'
      isArray' (.strings errors') (.object (fieldMembers children'))
      (.object (elementMembers children'))
    have hmessages := equal "errors"
    rw [herrors, herrors', rel_ite_iff] at hmessages
    have hkeyed := equal "fields"
    rw [hfields, hfields', rel_ite_iff] at hkeyed
    have hindexed := equal "elements"
    rw [helements, helements', rel_ite_iff] at hindexed
    refine ⟨?_, hkeyed.1, hindexed.1, ?_⟩
    -- The member is left out just when there are no messages.
    · by_cases hempty : errors = []
      · subst hempty
        have hempty' : errors'.isEmpty = true := by simpa using hmessages.1.symm
        exact (List.isEmpty_iff.mp hempty').symm
      · exact Json.eq_of_same_strings (hmessages.2 (by simpa using hempty))
    · intro s hs
      cases s with
      | key name =>
        cases hkeyed.2 hs with
        | object equal =>
          simpa only [get?_fieldMembers] using equal name
      | index i =>
        cases hindexed.2 hs.1 with
        | object equal =>
          simpa only [get?_elementMembers] using equal (Text.integerText i)

theorem get?_eq_none_of_not_admits {isObject isArray : Bool}
    {children : List (Segment × ErrorTree)}
    (h : ∀ s ∈ Keyed.keys children, Admits isObject isArray s) {s : Segment}
    (hs : ¬ Admits isObject isArray s) : Keyed.get? children s = none :=
  (Keyed.get?_eq_none_iff children s).mpr fun hmem => hs (h s hmem)

theorem eq_of_rel_map {α β : Type} {r : β → β → Prop} {f : α → β} {a b : Option α}
    (h : Option.Rel r (a.map f) (b.map f))
    (hf : ∀ x, a = some x → ∀ y, b = some y → r (f x) (f y) → x = y) : a = b := by
  cases a with
  | none =>
    cases b with
    | none => rfl
    | some y => cases h
  | some x =>
    cases b with
    | none => cases h
    | some y =>
      cases h with
      | some hxy => rw [hf x rfl y rfl hxy]

/-- Trees with equal documents are equal: their children are, at each segment. -/
theorem WellFormed.eq_of_same {t u : ErrorTree} (ht : t.WellFormed) (hu : u.WellFormed)
    (h : Json.Same t.toJson u.toJson) : t = u := by
  induction ht generalizing u with
  | @node errors isObject isArray children sorted admitted below ih =>
    cases hu with
    | @node errors' isObject' isArray' children' sorted' admitted' below' =>
      obtain ⟨rfl, rfl, rfl, hrel⟩ := rel_get?_children h
      have hsame : ∀ s, Keyed.get? children s = Keyed.get? children' s := by
        intro s
        by_cases hs : Admits isObject isArray s
        · refine eq_of_rel_map (hrel s hs) fun a ha b hb => ?_
          exact ih (s, a) (Keyed.mem_of_get? ha) (below' (s, b) (Keyed.mem_of_get? hb))
        -- At a segment of another kind neither node has a child.
        · rw [get?_eq_none_of_not_admits admitted hs, get?_eq_none_of_not_admits admitted' hs]
      rw [Keyed.Sorted.ext Segment.strictOrder_isBefore sorted sorted' hsame]

/-- The well-formed trees are those that some document denotes. -/
theorem wellFormed_iff_exists_ofJson? {t : ErrorTree} :
    t.WellFormed ↔ ∃ d, ofJson? d = some t :=
  ⟨fun h => ⟨t.toJson, h.ofJson?_toJson⟩, fun ⟨_, hd⟩ => wellFormed_of_ofJson? hd⟩

theorem forall_mem_fieldMembers {P : Json → Prop} {children : List (Segment × ErrorTree)}
    (h : ∀ child ∈ children, P child.2.toJson) : ∀ m ∈ fieldMembers children, P m.2 := by
  induction children with
  | nil => simp [fieldMembers]
  | cons child rest ih =>
    obtain ⟨s, t⟩ := child
    obtain ⟨hfirst, hrest⟩ := List.forall_mem_cons.mp h
    cases s with
    | key name => exact List.forall_mem_cons.mpr ⟨hfirst, ih hrest⟩
    | index i => exact ih hrest

theorem forall_mem_elementMembers {P : Json → Prop} {children : List (Segment × ErrorTree)}
    (h : ∀ child ∈ children, P child.2.toJson) : ∀ m ∈ elementMembers children, P m.2 := by
  induction children with
  | nil => simp [elementMembers]
  | cons child rest ih =>
    obtain ⟨s, t⟩ := child
    obtain ⟨hfirst, hrest⟩ := List.forall_mem_cons.mp h
    cases s with
    | key name => exact ih hrest
    | index i => exact List.forall_mem_cons.mpr ⟨hfirst, ih hrest⟩

theorem forall_mem_presentMembers {P : Json → Prop} {members : List (Bool × String × Json)}
    (h : ∀ m ∈ members, P m.2.2) : ∀ m ∈ presentMembers members, P m.2 := by
  intro m hm
  obtain ⟨⟨present, key, value⟩, hmember, hpresent⟩ := List.mem_filterMap.mp hm
  cases present with
  | false => contradiction
  | true =>
    obtain rfl := Option.some.inj hpresent
    exact h _ hmember

theorem WellFormed.same_self {t : ErrorTree} (h : t.WellFormed) :
    Json.Same t.toJson t.toJson := by
  induction h with
  | node sorted admitted below ih =>
    rw [toJson]
    refine Json.same_object_self (forall_mem_presentMembers (P := fun d => Json.Same d d) ?_)
    simp only [List.forall_mem_cons]
    exact ⟨Json.same_strings_self _,
      Json.same_object_self (forall_mem_fieldMembers (P := fun d => Json.Same d d) ih),
      Json.same_object_self (forall_mem_elementMembers (P := fun d => Json.Same d d) ih), by simp⟩

/-- A document loses nothing of a tree: it denotes the tree, and just one tree has it. -/
theorem document_faithful {t : ErrorTree} (h : t.WellFormed) :
    ofJson? t.toJson = some t ∧
      ∀ u : ErrorTree, u.WellFormed → (Json.Same t.toJson u.toJson ↔ t = u) := by
  refine ⟨h.ofJson?_toJson, fun u hu => ⟨h.eq_of_same hu, ?_⟩⟩
  rintro rfl
  exact h.same_self

/-- Messages at the first and the last index, a field without a name, and maps without entries. -/
def oddities : ErrorTree :=
  node ["unknown field"] true true
    [(.key "", node [] true false []),
      (.key "items", node [] false true []),
      (.index (-9223372036854775808), node ["first"] false false []),
      (.index (-1), node ["required", "array"] true true []),
      (.index 9223372036854775807, node [] false false [])]

theorem wellFormed_oddities : oddities.WellFormed := by
  refine .node ?_ ?_ ?_
  · simp only [Keyed.Sorted, Keyed.keys, List.map_cons, List.map_nil]
    decide
  · simp [Keyed.keys, Admits, Text.fitsInt64]
  · simp [wellFormed_childless]

theorem document_faithful_oddities :
    oddities.WellFormed ∧ ofJson? oddities.toJson = some oddities ∧
      ¬ Json.Same oddities.toJson (oddities.create [.key "items", .index 0]).toJson := by
  obtain ⟨hread, hsame⟩ := document_faithful wellFormed_oddities
  refine ⟨wellFormed_oddities, hread, mt (hsame _ (wellFormed_oddities.create ?_)).mp ?_⟩
  · simp [Admits, Text.fitsInt64]
  · have hbefore : Segment.isBefore (.key "items") (.key "") = false := by decide
    simp [oddities, create, update, updateChild, Keyed.upsert, hbefore, empty]

end ErrorTree

end PathRules

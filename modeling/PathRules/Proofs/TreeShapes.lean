import PathRules.ErrorTree.Json
import PathRules.Proofs.Messages
/-!
The shape of error trees. Children are in the order of their segments, each once; keys are below
nodes of maps and indices below nodes of sequences. Main statements: adding, creating and merging
keep this shape, and every tree that a document denotes has it.
-/

namespace PathRules.ErrorTree

/-- Whether a node that is one of a map, or of a sequence, can have a child at a segment. -/
def Admits (isObject isArray : Bool) : Segment → Prop
  | .key _ => isObject = true
  | .index i => isArray = true ∧ Text.fitsInt64 i = true

/-- Whether the children of every node are in the order of their segments, each once, keys are below
nodes of maps only, and indices, which are words of 64 bits, below nodes of sequences only. -/
inductive WellFormed : ErrorTree → Prop
  | node {errors : List String} {isObject isArray : Bool} {children : List (Segment × ErrorTree)}
      (sorted : Keyed.Sorted Segment.isBefore children)
      (admitted : ∀ s ∈ Keyed.keys children, Admits isObject isArray s)
      (below : ∀ child ∈ children, WellFormed child.2) :
      WellFormed (node errors isObject isArray children)

theorem Admits.mono {isObject isArray isObject' isArray' : Bool} {s : Segment}
    (h : Admits isObject isArray s) (hobject : isObject = true → isObject' = true)
    (harray : isArray = true → isArray' = true) : Admits isObject' isArray' s := by
  cases s with
  | key name => exact hobject h
  | index i => exact ⟨harray h.1, h.2⟩

theorem Admits.isObject {isObject isArray : Bool} {s : Segment} (h : Admits isObject isArray s)
    (hs : isKey s = true) : isObject = true := by
  cases s with
  | key name => exact h
  | index i => contradiction

theorem Admits.isArray {isObject isArray : Bool} {s : Segment} (h : Admits isObject isArray s)
    (hs : (!isKey s) = true) : isArray = true := by
  cases s with
  | key name => contradiction
  | index i => exact h.1

theorem wellFormed_childless (errors : List String) (isObject isArray : Bool) :
    (node errors isObject isArray []).WellFormed :=
  .node List.Pairwise.nil (by simp [Keyed.keys]) (by simp)

theorem wellFormed_empty : empty.WellFormed :=
  wellFormed_childless [] false false

/-- A change of one child leaves a well-formed tree. -/
theorem WellFormed.updateChild {t : ErrorTree} (h : t.WellFormed) {f : ErrorTree → ErrorTree}
    (hf : ∀ c : ErrorTree, c.WellFormed → (f c).WellFormed) {s : Segment}
    (hs : Admits true true s) : (t.updateChild f s).WellFormed := by
  cases h with
  | @node errors isObject isArray children sorted admitted below =>
    refine .node (Keyed.sorted_upsert Segment.strictOrder_isBefore _ sorted s) ?_
      (Keyed.forall_mem_upsert (hf empty wellFormed_empty) hf below s)
    intro u hu
    rcases Keyed.mem_keys_upsert.mp hu with rfl | hu
    · cases u with
      | key name => exact Bool.or_true isObject
      | index i => exact ⟨Bool.or_true isArray, hs.2⟩
    · exact (admitted u hu).mono (by simp +contextual) (by simp +contextual)

theorem WellFormed.update {t : ErrorTree} (h : t.WellFormed) {f : ErrorTree → ErrorTree}
    (hf : ∀ c : ErrorTree, c.WellFormed → (f c).WellFormed) {l : Location}
    (hl : ∀ s ∈ l, Admits true true s) : (t.update f l).WellFormed := by
  induction l generalizing t with
  | nil => exact hf t h
  | cons s rest ih =>
    obtain ⟨hs, hrest⟩ := List.forall_mem_cons.mp hl
    exact h.updateChild (fun c hc => ih hc hrest) hs

theorem WellFormed.create {t : ErrorTree} (h : t.WellFormed) {l : Location}
    (hl : ∀ s ∈ l, Admits true true s) : (t.create l).WellFormed :=
  h.update (fun _ hc => hc) hl

theorem WellFormed.add {t : ErrorTree} (h : t.WellFormed) {l : Location}
    (hl : ∀ s ∈ l, Admits true true s) (message : String) : (t.add l message).WellFormed := by
  refine h.update (fun c hc => ?_) hl
  cases hc with
  | node sorted admitted below => exact .node sorted admitted below

/-- A tree of messages at places that some tree has is well-formed. -/
theorem wellFormed_ofMessages {messages : List (Location × String)}
    (h : ∀ m ∈ messages, ∀ s ∈ m.1, Admits true true s) : (ofMessages messages).WellFormed :=
  List.foldlRecOn messages _ wellFormed_empty fun _ ht m hm => ht.add (h m hm) m.2

theorem mem_keys_mergeAll {own children : List (Segment × ErrorTree)} {s : Segment} :
    s ∈ Keyed.keys (mergeAll own children) ↔ s ∈ Keyed.keys own ∨ s ∈ Keyed.keys children := by
  induction children generalizing own with
  | nil => simp [mergeAll, Keyed.keys]
  | cons child rest ih =>
    rw [mergeAll, ih, Keyed.mem_keys_upsert, Keyed.mem_keys_cons, or_left_comm, or_assoc]

theorem sorted_mergeAll {own : List (Segment × ErrorTree)}
    (h : Keyed.Sorted Segment.isBefore own) (children : List (Segment × ErrorTree)) :
    Keyed.Sorted Segment.isBefore (mergeAll own children) := by
  induction children generalizing own with
  | nil => exact h
  | cons child rest ih =>
    exact ih (Keyed.sorted_upsert Segment.strictOrder_isBefore _ h child.1)

/-- What holds of all children of two nodes, and of merged ones, holds after merging. -/
theorem forall_mem_mergeAll {P : ErrorTree → Prop} (hempty : P empty)
    {own children : List (Segment × ErrorTree)} (h : ∀ child ∈ own, P child.2)
    (hmerge : ∀ child ∈ children, ∀ {t : ErrorTree}, P t → P (t.merge child.2)) :
    ∀ child ∈ mergeAll own children, P child.2 := by
  induction children generalizing own with
  | nil => exact h
  | cons child rest ih =>
    obtain ⟨hfirst, hrest⟩ := List.forall_mem_cons.mp hmerge
    exact ih (Keyed.forall_mem_upsert (P := P) (hfirst hempty) (fun _ hc => hfirst hc) h child.1)
      hrest

theorem WellFormed.merge {own other : ErrorTree} (hown : own.WellFormed)
    (hother : other.WellFormed) : (own.merge other).WellFormed := by
  induction hother generalizing own with
  | node sorted admitted below ih =>
    cases hown with
    | node sorted' admitted' below' =>
      refine .node (sorted_mergeAll sorted' _) ?_ (forall_mem_mergeAll wellFormed_empty below' ih)
      intro s hs
      rcases mem_keys_mergeAll.mp hs with hs | hs
      · exact (admitted' s hs).mono (by simp +contextual [isObject]) (by simp +contextual [isArray])
      · exact (admitted s hs).mono (by simp +contextual) (by simp +contextual)

/-! ### Trees of documents -/

theorem sorted_sortChildren (children : List (Segment × ErrorTree)) :
    Keyed.Sorted Segment.isBefore (sortChildren children) :=
  List.foldlRecOn children _ List.Pairwise.nil fun _ h child _ =>
    Keyed.sorted_upsert Segment.strictOrder_isBefore _ h child.1

theorem mem_of_mem_sortChildren {children : List (Segment × ErrorTree)} :
    ∀ child ∈ sortChildren children, child ∈ children := by
  refine List.foldlRecOn (motive := fun acc => ∀ child ∈ acc, child ∈ children) children _
    (by simp) fun before h child hchild other hother => ?_
  rcases Keyed.mem_of_mem_upsert hother with rfl | hbefore
  · exact hchild
  · exact h other hbefore

/-- Whether what a member denotes can be below a node of this kind. -/
def Denoted (isObject isArray : Bool) (part : Option (List (Segment × ErrorTree))) : Prop :=
  ∀ child ∈ part.getD [], Admits isObject isArray child.1 ∧ child.2.WellFormed

theorem denoted_none {isObject isArray : Bool} : Denoted isObject isArray none := by
  simp [Denoted]

theorem denoted_some_nil {isObject isArray : Bool} : Denoted isObject isArray (some []) := by
  simp [Denoted]

theorem denoted_some_cons {isObject isArray : Bool} {s : Segment} {t : ErrorTree}
    {rest : List (Segment × ErrorTree)} (hs : Admits isObject isArray s) (ht : t.WellFormed)
    (hrest : Denoted isObject isArray (some rest)) :
    Denoted isObject isArray (some ((s, t) :: rest)) :=
  List.forall_mem_cons.mpr ⟨⟨hs, ht⟩, hrest⟩

/-- What the members of a node denote, for the keys and for the indices. -/
structure Parts.Valid (p : Parts) : Prop where
  fields : Denoted true false (p.fields.getD none)
  elements : Denoted false true (p.elements.getD none)

theorem Parts.Valid.wellFormed_toTree {p : Parts} (h : p.Valid) : p.toTree.WellFormed := by
  have hpresent : ∀ {part : Option (List (Segment × ErrorTree))} {child : Segment × ErrorTree},
      child ∈ part.getD [] → part.isSome = true := by
    intro part child hchild
    cases part with
    | none => contradiction
    | some children => rfl
  refine .node (sorted_sortChildren _) ?_ ?_
  · intro s hs
    obtain ⟨child, hchild, rfl⟩ := List.mem_map.mp hs
    rcases List.mem_append.mp (mem_of_mem_sortChildren child hchild) with hfield | helement
    · exact (h.fields child hfield).1.mono (fun _ => hpresent hfield) (by simp)
    · exact (h.elements child helement).1.mono (by simp) (fun _ => hpresent helement)
  · intro child hchild
    rcases List.mem_append.mp (mem_of_mem_sortChildren child hchild) with hfield | helement
    · exact (h.fields child hfield).2
    · exact (h.elements child helement).2

theorem fitsInt64_of_index? {key : String} {i : Int} (h : index? key = some i) :
    Text.fitsInt64 i = true := by
  unfold index? at h
  split at h
  · split at h
    next hkept =>
      obtain rfl := Option.some.inj h
      exact hkept.2
    next => contradiction
  · contradiction

mutual

theorem wellFormed_of_ofJson? : ∀ {d : Json} {t : ErrorTree}, ofJson? d = some t → t.WellFormed
  | .object members, t, h => by
    rw [ofJson?] at h
    obtain ⟨p, hp, rfl⟩ := Option.map_eq_some_iff.mp h
    exact (valid_of_ofMembers? ⟨denoted_none, denoted_none⟩ hp).wellFormed_toTree
  | .array items, t, h => by
    rw [ofJson?] at h
    obtain ⟨p, hp, rfl⟩ := Option.map_eq_some_iff.mp h
    exact (valid_of_ofItems? hp).wellFormed_toTree
  | .null, t, h | .bool _, t, h | .integer _, t, h | .real _, t, h | .string _, t, h => by
    simp [ofJson?] at h

theorem valid_of_ofMembers? : ∀ {members : List (String × Json)} {p q : Parts},
    p.Valid → ofMembers? p members = some q → q.Valid
  | [], p, q, hp, h => by
    rw [ofMembers?, Option.some.injEq] at h
    exact h ▸ hp
  | (key, value) :: rest, p, q, hp, h => by
    unfold ofMembers? at h
    split at h
    next => contradiction
    next hmember =>
      cases hmember
      obtain ⟨errors, -, hrest⟩ := Option.bind_eq_some_iff.mp h
      have hparts : Parts.Valid { p with errors := some errors } := ⟨hp.fields, hp.elements⟩
      exact valid_of_ofMembers? hparts hrest
    next hmember =>
      cases hmember
      obtain ⟨fields, hfields, hrest⟩ := Option.bind_eq_some_iff.mp h
      have hparts : Parts.Valid { p with fields := some fields } :=
        ⟨denoted_of_fieldsOf? hfields, hp.elements⟩
      exact valid_of_ofMembers? hparts hrest
    next hmember =>
      cases hmember
      obtain ⟨elements, helements, hrest⟩ := Option.bind_eq_some_iff.mp h
      have hparts : Parts.Valid { p with elements := some elements } :=
        ⟨hp.fields, denoted_of_elementsOf? helements⟩
      exact valid_of_ofMembers? hparts hrest
    next hmember =>
      cases hmember
      exact valid_of_ofMembers? hp h

theorem valid_of_ofItems? : ∀ {items : List Json} {p : Parts}, ofItems? items = some p → p.Valid
  | [], p, h => by
    cases h
    exact ⟨denoted_none, denoted_none⟩
  | [errors], p, h => by
    obtain ⟨messages, -, hp⟩ := Option.bind_eq_some_iff.mp h
    cases hp
    exact ⟨denoted_none, denoted_none⟩
  | [errors, fields], p, h => by
    obtain ⟨messages, -, hrest⟩ := Option.bind_eq_some_iff.mp h
    obtain ⟨keyed, hkeyed, hp⟩ := Option.bind_eq_some_iff.mp hrest
    cases hp
    exact ⟨denoted_of_fieldsOf? hkeyed, denoted_none⟩
  | [errors, fields, elements], p, h => by
    obtain ⟨messages, -, hrest⟩ := Option.bind_eq_some_iff.mp h
    obtain ⟨keyed, hkeyed, hrest⟩ := Option.bind_eq_some_iff.mp hrest
    obtain ⟨indexed, hindexed, hp⟩ := Option.bind_eq_some_iff.mp hrest
    cases hp
    exact ⟨denoted_of_fieldsOf? hkeyed, denoted_of_elementsOf? hindexed⟩
  | _ :: _ :: _ :: _ :: _, p, h => by
    simp [ofItems?] at h

theorem denoted_of_fieldsOf? : ∀ {d : Json} {fields}, fieldsOf? d = some fields →
    Denoted true false fields
  | .null, fields, h => by
    cases h
    exact denoted_none
  | .object members, fields, h => by
    rw [fieldsOf?] at h
    obtain ⟨children, hchildren, rfl⟩ := Option.map_eq_some_iff.mp h
    exact denoted_of_fieldChildren? hchildren
  | .array _, t, h | .bool _, t, h | .integer _, t, h | .real _, t, h | .string _, t, h => by
    simp [fieldsOf?] at h

theorem denoted_of_elementsOf? : ∀ {d : Json} {elements}, elementsOf? d = some elements →
    Denoted false true elements
  | .null, elements, h => by
    cases h
    exact denoted_none
  | .object members, elements, h => by
    rw [elementsOf?] at h
    obtain ⟨children, hchildren, rfl⟩ := Option.map_eq_some_iff.mp h
    exact denoted_of_elementChildren? hchildren
  | .array _, t, h | .bool _, t, h | .integer _, t, h | .real _, t, h | .string _, t, h => by
    simp [elementsOf?] at h

theorem denoted_of_fieldChildren? : ∀ {members : List (String × Json)} {children},
    fieldChildren? members = some children → Denoted true false (some children)
  | [], children, h => by
    cases h
    exact denoted_some_nil
  | (key, value) :: rest, children, h => by
    rw [fieldChildren?] at h
    obtain ⟨t, ht, h⟩ := Option.bind_eq_some_iff.mp h
    obtain ⟨others, hothers, h⟩ := Option.bind_eq_some_iff.mp h
    cases h
    exact denoted_some_cons rfl (wellFormed_of_ofJson? ht) (denoted_of_fieldChildren? hothers)

theorem denoted_of_elementChildren? : ∀ {members : List (String × Json)} {children},
    elementChildren? members = some children → Denoted false true (some children)
  | [], children, h => by
    cases h
    exact denoted_some_nil
  | (key, value) :: rest, children, h => by
    rw [elementChildren?] at h
    obtain ⟨i, hi, h⟩ := Option.bind_eq_some_iff.mp h
    obtain ⟨t, ht, h⟩ := Option.bind_eq_some_iff.mp h
    obtain ⟨others, hothers, h⟩ := Option.bind_eq_some_iff.mp h
    cases h
    exact denoted_some_cons ⟨rfl, fitsInt64_of_index? hi⟩ (wellFormed_of_ofJson? ht)
      (denoted_of_elementChildren? hothers)

end

end PathRules.ErrorTree

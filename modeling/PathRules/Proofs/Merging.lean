import PathRules.Proofs.TreeShapes
/-!
Merging error trees. A tree is the record of the messages that were added to it, and merging puts
one record behind another: child by child, the messages of the second tree come behind those of the
first. Main statement: merging trees of messages gives the tree of all their messages, and trees
under merging are a monoid.
-/

namespace PathRules.ErrorTree

/-! ### Nodes -/

@[simp] theorem errors_updateChild (t : ErrorTree) (f : ErrorTree → ErrorTree) (s : Segment) :
    (t.updateChild f s).errors = t.errors := by
  cases t
  rfl

@[simp] theorem isObject_updateChild (t : ErrorTree) (f : ErrorTree → ErrorTree) (s : Segment) :
    (t.updateChild f s).isObject = (t.isObject || isKey s) := by
  cases t
  rfl

@[simp] theorem isArray_updateChild (t : ErrorTree) (f : ErrorTree → ErrorTree) (s : Segment) :
    (t.updateChild f s).isArray = (t.isArray || !isKey s) := by
  cases t
  rfl

@[simp] theorem errors_merge (own other : ErrorTree) :
    (own.merge other).errors = own.errors ++ other.errors := by
  cases other
  rfl

@[simp] theorem isObject_merge (own other : ErrorTree) :
    (own.merge other).isObject = (own.isObject || other.isObject) := by
  cases other
  rfl

@[simp] theorem isArray_merge (own other : ErrorTree) :
    (own.merge other).isArray = (own.isArray || other.isArray) := by
  cases other
  rfl

/-- A child of merged nodes is merged of what the two nodes have there. -/
theorem get?_mergeAll {own children : List (Segment × ErrorTree)}
    (hsorted : Keyed.Sorted Segment.isBefore own) (hnodup : (Keyed.keys children).Nodup)
    (s : Segment) :
    Keyed.get? (mergeAll own children) s =
      (Keyed.get? children s).elim (Keyed.get? own s) fun c =>
        some (((Keyed.get? own s).getD empty).merge c) := by
  induction children generalizing own with
  | nil => rfl
  | cons child rest ih =>
    obtain ⟨u, t⟩ := child
    obtain ⟨hnew, hrest⟩ := List.nodup_cons.mp hnodup
    rw [mergeAll, ih (Keyed.sorted_upsert Segment.strictOrder_isBefore _ hsorted u) hrest]
    by_cases hsegment : u = s
    · subst hsegment
      have hnone : Keyed.get? rest u = none := (Keyed.get?_eq_none_iff rest u).mpr hnew
      rw [hnone, Keyed.get?_upsert_self Segment.strictOrder_isBefore _ hsorted, Keyed.get?,
        if_pos rfl]
      rfl
    · rw [Keyed.get?_upsert_of_ne _ _ hsegment, Keyed.get?, if_neg hsegment]

theorem Ordered.merge {own other : ErrorTree} (hown : own.Ordered) (hother : other.Ordered) :
    (own.merge other).Ordered := by
  induction hother generalizing own with
  | node sorted below ih =>
    cases hown with
    | node sorted' below' =>
      exact .node (sorted_mergeAll sorted' _) (forall_mem_mergeAll ordered_empty below' ih)

theorem Ordered.child?_merge {own other : ErrorTree} (hown : own.Ordered) (hother : other.Ordered)
    (s : Segment) :
    (own.merge other).child? s =
      (other.child? s).elim (own.child? s) fun c =>
        some (((own.child? s).getD empty).merge c) := by
  cases hown with
  | node sorted' below' =>
    cases hother with
    | node sorted below =>
      exact get?_mergeAll sorted' (Keyed.Sorted.nodup Segment.strictOrder_isBefore sorted) s

/-- Trees are told apart by their messages, their kinds and their children. -/
theorem Ordered.ext {t u : ErrorTree} (ht : t.Ordered) (hu : u.Ordered)
    (herrors : t.errors = u.errors) (hobject : t.isObject = u.isObject)
    (harray : t.isArray = u.isArray) (hchild : ∀ s, t.child? s = u.child? s) : t = u := by
  cases ht with
  | node sorted below =>
    cases hu with
    | node sorted' below' =>
      obtain rfl := Keyed.Sorted.ext Segment.strictOrder_isBefore sorted sorted' hchild
      obtain rfl := herrors
      obtain rfl := hobject
      obtain rfl := harray
      rfl

/-- Induction on ordered trees, from the children to the tree. -/
theorem Ordered.child_induction {motive : ∀ t : ErrorTree, t.Ordered → Prop}
    (tree : ∀ (t : ErrorTree) (ht : t.Ordered),
      (∀ s (c : ErrorTree) (hc : c.Ordered), t.child? s = some c → motive c hc) → motive t ht)
    {t : ErrorTree} (h : t.Ordered) : motive t h := by
  induction h with
  | node sorted below ih =>
    exact tree _ (.node sorted below) fun s c _ hchild => ih (s, c) (Keyed.mem_of_get? hchild)

/-! ### The monoid of trees -/

theorem merge_empty (t : ErrorTree) : t.merge empty = t := by
  obtain ⟨errors, isObject, isArray, children⟩ := t
  simp [empty, merge, mergeAll, ErrorTree.errors, ErrorTree.isObject, ErrorTree.isArray,
    ErrorTree.children]

theorem Ordered.empty_merge {t : ErrorTree} (h : t.Ordered) : empty.merge t = t := by
  induction h using Ordered.child_induction with
  | tree t ht ih =>
    refine (ordered_empty.merge ht).ext ht ?_ ?_ ?_ fun s => ?_
    · exact errors_merge empty t
    · exact isObject_merge empty t
    · exact isArray_merge empty t
    · rw [ordered_empty.child?_merge ht]
      cases hchild : t.child? s with
      | none => rfl
      | some c =>
        have hc : c.Ordered := by simpa [hchild] using ht.child s
        exact congrArg some (ih s c hc hchild)

/-- Merging is associative: at each segment, the children of three trees are merged in the same
order. -/
theorem Ordered.merge_assoc {t u v : ErrorTree} (ht : t.Ordered) (hu : u.Ordered)
    (hv : v.Ordered) : (t.merge u).merge v = t.merge (u.merge v) := by
  induction hv using Ordered.child_induction generalizing t u with
  | tree v hv ih =>
    refine ((ht.merge hu).merge hv).ext (ht.merge (hu.merge hv)) ?_ ?_ ?_ fun s => ?_
    · simp
    · simp [Bool.or_assoc]
    · simp [Bool.or_assoc]
    · rw [(ht.merge hu).child?_merge hv, ht.child?_merge (hu.merge hv), hu.child?_merge hv,
        ht.child?_merge hu]
      cases hthird : v.child? s with
      | none => rfl
      | some z =>
        have hz : z.Ordered := by simpa [hthird] using hv.child s
        cases hsecond : u.child? s with
        | none => simp [hz.empty_merge]
        | some y =>
          have hchildren := ih s z hz hthird (ht.child s) (hu.child s)
          rw [hsecond] at hchildren
          exact congrArg some hchildren

/-! ### Merging trees of messages -/

/-- Where two trees are merged, a change of one child can take place before or after it. -/
theorem Ordered.merge_updateChild {t u : ErrorTree} (ht : t.Ordered) (hu : u.Ordered)
    {f : ErrorTree → ErrorTree} (hf : ∀ c : ErrorTree, c.Ordered → (f c).Ordered)
    (hmerge : ∀ c d : ErrorTree, c.Ordered → d.Ordered → c.merge (f d) = f (c.merge d))
    (s : Segment) : t.merge (u.updateChild f s) = (t.merge u).updateChild f s := by
  have hchanged := hu.updateChild hf s
  have hmerged := ht.merge hu
  refine (ht.merge hchanged).ext (hmerged.updateChild hf s) ?_ ?_ ?_ fun v => ?_
  · simp
  · simp [Bool.or_assoc]
  · simp [Bool.or_assoc]
  · rw [ht.child?_merge hchanged, hu.child?_updateChild, hmerged.child?_updateChild]
    by_cases hsegment : s = v
    · subst hsegment
      rw [if_pos rfl, if_pos rfl, Option.elim_some, hmerge _ _ (ht.child s) (hu.child s),
        ht.child?_merge hu]
      cases hchild : u.child? s with
      | none => simp [merge_empty]
      | some c => rfl
    · rw [if_neg hsegment, if_neg hsegment, ht.child?_merge hu]

theorem Ordered.merge_add {t u : ErrorTree} (ht : t.Ordered) (hu : u.Ordered) (l : Location)
    (message : String) : t.merge (u.add l message) = (t.merge u).add l message := by
  unfold ErrorTree.add
  induction l generalizing t u with
  | nil =>
    obtain ⟨errors, isObject, isArray, children⟩ := u
    simp [update, append, ErrorTree.merge]
  | cons s rest ih =>
    exact ht.merge_updateChild hu (fun c hc => hc.add rest message) (fun c d hc hd => ih hc hd) s

/-- Merging a tree of messages adds its messages one after the other. -/
theorem Ordered.merge_foldl_add {t u : ErrorTree} (ht : t.Ordered) (hu : u.Ordered)
    (messages : List (Location × String)) :
    t.merge (messages.foldl (fun t m => t.add m.1 m.2) u) =
      messages.foldl (fun t m => t.add m.1 m.2) (t.merge u) := by
  induction messages generalizing u with
  | nil => rfl
  | cons m rest ih =>
    rw [List.foldl_cons, List.foldl_cons, ih (hu.add m.1 m.2), ht.merge_add hu]

theorem ordered_ofMessages (messages : List (Location × String)) :
    (ofMessages messages).Ordered :=
  List.foldlRecOn messages _ ordered_empty fun _ ht m _ => ht.add m.1 m.2

theorem merge_ofMessages (ms ns : List (Location × String)) :
    (ofMessages ms).merge (ofMessages ns) = ofMessages (ms ++ ns) := by
  have hadds := (ordered_ofMessages ms).merge_foldl_add ordered_empty ns
  rw [merge_empty, ← ofMessages_append] at hadds
  exact hadds

/-! ### The nodes of a tree of messages -/

/-- A message makes the nodes on the way to its location, and no others. -/
theorem Ordered.isSome_get?_add {t : ErrorTree} (h : t.Ordered) (l q : Location)
    (message : String) :
    ((t.add l message).get? q).isSome = true ↔ (t.get? q).isSome = true ∨ q <+: l := by
  induction l generalizing t q with
  | nil =>
    obtain ⟨errors, isObject, isArray, children⟩ := t
    cases q with
    | nil => simp [get?]
    | cons v rest => simp [ErrorTree.add, update, append, get?, child?, ErrorTree.children]
  | cons s l ih =>
    cases q with
    | nil => simp [get?]
    | cons v rest =>
      have hadd : t.add (s :: l) message = t.updateChild (fun c => c.add l message) s := rfl
      rw [hadd, get?, get?, h.child?_updateChild]
      by_cases hsegment : s = v
      · subst hsegment
        rw [if_pos rfl, Option.bind_some, ih (h.child s), List.prefix_cons_inj]
        cases hchild : t.child? s with
        | none =>
          -- The empty tree has no node but its own, which the message needs on its way.
          cases rest <;> simp [get?, child?, empty, ErrorTree.children]
        | some c => rfl
      · have hnot : ¬ v :: rest <+: s :: l := fun hpre =>
          hsegment (List.cons_prefix_cons.mp hpre).1.symm
        rw [if_neg hsegment, or_iff_left hnot]

theorem Ordered.isSome_get?_foldl_add {t : ErrorTree} (h : t.Ordered)
    (messages : List (Location × String)) (q : Location) :
    ((messages.foldl (fun t m => t.add m.1 m.2) t).get? q).isSome = true ↔
      (t.get? q).isSome = true ∨ ∃ m ∈ messages, q <+: m.1 := by
  induction messages generalizing t with
  | nil => simp
  | cons m rest ih =>
    rw [List.foldl_cons, ih (h.add m.1 m.2), h.isSome_get?_add, or_assoc]
    simp only [List.mem_cons, exists_eq_or_imp]

theorem isSome_get?_ofMessages (messages : List (Location × String)) (q : Location) :
    ((ofMessages messages).get? q).isSome = true ↔ q = [] ∨ ∃ m ∈ messages, q <+: m.1 := by
  have hempty : (empty.get? q).isSome = true ↔ q = [] := by
    cases q <;> simp [get?, child?, empty, ErrorTree.children]
  rw [ofMessages, ordered_empty.isSome_get?_foldl_add, hempty]

theorem errors_of_get?_ofMessages {messages : List (Location × String)} {q : Location}
    {t : ErrorTree} (h : (ofMessages messages).get? q = some t) :
    t.errors = (messages.filter fun m => m.1 = q).map Prod.snd := by
  rw [← messagesAt_ofMessages, messagesAt, h]
  rfl

/-- An error tree is the record of the messages that were added to it, and merging puts one record
behind another. The nodes of a tree of messages are the root and those on the way to a message; each
has the messages of its location, in order, and all messages are counted. Merging is associative,
and the empty tree changes nothing. -/
theorem merge_joins_records :
    (∀ ms ns : List (Location × String),
      (ofMessages ms).merge (ofMessages ns) = ofMessages (ms ++ ns)) ∧
    (∀ (ms : List (Location × String)) (q : Location),
      (((ofMessages ms).get? q).isSome = true ↔ q = [] ∨ ∃ m ∈ ms, q <+: m.1) ∧
      ∀ t, (ofMessages ms).get? q = some t →
        t.errors = (ms.filter fun m => m.1 = q).map Prod.snd) ∧
    (∀ ms : List (Location × String), (ofMessages ms).count = ms.length) ∧
    ∀ t : ErrorTree, t.Ordered →
      empty.merge t = t ∧ t.merge empty = t ∧
        ∀ u v : ErrorTree, u.Ordered → v.Ordered →
          (t.merge u).merge v = t.merge (u.merge v) := by
  refine ⟨merge_ofMessages, fun ms q => ⟨isSome_get?_ofMessages ms q, fun t ht => ?_⟩,
    count_ofMessages, fun t ht => ⟨ht.empty_merge, merge_empty t, fun u v hu hv => ?_⟩⟩
  · exact errors_of_get?_ofMessages ht
  · exact ht.merge_assoc hu hv

/-- A tree with a node of a sequence that has no elements, and an element without messages. -/
def bareNodes : ErrorTree :=
  node [] true true [(.key "items", node ["required"] false true []), (.index (-1), empty)]

theorem ordered_bareNodes : bareNodes.Ordered := by
  refine .node ?_ ?_
  · simp only [Keyed.Sorted, Keyed.keys, List.map_cons, List.map_nil]
    decide
  · have hitems : (node ["required"] false true []).Ordered := .node List.Pairwise.nil (by simp)
    simp [hitems, ordered_empty]

theorem merge_joins_records_bareNodes :
    let ms : List (Location × String) := [([.key "items", .index 2], "integer")]
    let ns : List (Location × String) := [([.key "items"], "between"), ([], "unknown field")]
    bareNodes.Ordered ∧ empty.merge bareNodes = bareNodes ∧ bareNodes.merge empty = bareNodes ∧
      (bareNodes.merge (ofMessages ms)).merge (ofMessages ns) =
        bareNodes.merge (ofMessages (ms ++ ns)) := by
  intro ms ns
  obtain ⟨hjoin, -, -, hmonoid⟩ := merge_joins_records
  obtain ⟨hleft, hright, hassoc⟩ := hmonoid bareNodes ordered_bareNodes
  refine ⟨ordered_bareNodes, hleft, hright, ?_⟩
  rw [hassoc _ _ (ordered_ofMessages ms) (ordered_ofMessages ns), hjoin]

end PathRules.ErrorTree

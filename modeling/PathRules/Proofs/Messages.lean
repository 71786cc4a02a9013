import PathRules.ErrorTree.Basic
import PathRules.Proofs.Effects
/-!
What is found in an error tree. The children of a node are in the order of their segments, so a
child is found where it was put. Main statements: a tree of messages has at each location the
messages that were added there, in their order, and no others; and it has as many as were added.
-/

namespace PathRules

namespace Keyed

variable {κ α : Type} [DecidableEq κ] {isBefore : κ → κ → Bool}

omit [DecidableEq κ] in
@[simp] theorem mem_keys_cons {k key : κ} {v : α} {rest : List (κ × α)} :
    key ∈ keys ((k, v) :: rest) ↔ key = k ∨ key ∈ keys rest :=
  List.mem_cons

omit [DecidableEq κ] in
theorem sorted_cons {k : κ} {v : α} {rest : List (κ × α)} :
    Sorted isBefore ((k, v) :: rest) ↔
      (∀ key ∈ keys rest, isBefore k key = true) ∧ Sorted isBefore rest :=
  List.pairwise_cons

theorem mem_keys_upsert {f : Option α → α} {entries : List (κ × α)} {key k : κ} :
    k ∈ keys (upsert isBefore f entries key) ↔ k = key ∨ k ∈ keys entries := by
  induction entries with
  | nil => simp [upsert, keys]
  | cons e rest ih =>
    obtain ⟨first, v⟩ := e
    rw [upsert]
    split
    next hfirst => simp [hfirst]
    next =>
      split
      · simp
      · simp [ih, or_left_comm]

theorem mem_of_mem_upsert {v : α} {entries : List (κ × α)} {key : κ} {e : κ × α}
    (h : e ∈ upsert isBefore (fun _ => v) entries key) : e = (key, v) ∨ e ∈ entries := by
  induction entries with
  | nil => exact .inl (List.mem_singleton.mp h)
  | cons first rest ih =>
    obtain ⟨k, w⟩ := first
    rw [upsert] at h
    split at h
    next hk =>
      subst hk
      exact (List.mem_cons.mp h).imp_right (List.mem_cons_of_mem _)
    next =>
      split at h
      · exact List.mem_cons.mp h
      · rcases List.mem_cons.mp h with rfl | hrest
        · exact .inr List.mem_cons_self
        · exact (ih hrest).imp_right (List.mem_cons_of_mem _)

/-- A change of one key keeps the order. -/
theorem sorted_upsert (h : StrictOrder isBefore) (f : Option α → α) {entries : List (κ × α)}
    (hsorted : Sorted isBefore entries) (key : κ) :
    Sorted isBefore (upsert isBefore f entries key) := by
  induction entries with
  | nil => exact List.pairwise_singleton _ _
  | cons e rest ih =>
    obtain ⟨k, v⟩ := e
    obtain ⟨hfirst, hrest⟩ := sorted_cons.mp hsorted
    rw [upsert]
    split
    · exact sorted_cons.mpr ⟨hfirst, hrest⟩
    next hk =>
      split
      next hbefore =>
        refine sorted_cons.mpr ⟨fun other hother => ?_, hsorted⟩
        rcases mem_keys_cons.mp hother with rfl | hother
        · exact hbefore
        · exact h.trans hbefore (hfirst other hother)
      next hbefore =>
        refine sorted_cons.mpr ⟨fun other hother => ?_, ih hrest⟩
        rcases mem_keys_upsert.mp hother with rfl | hother
        · exact h.total (Ne.symm hk) (Bool.eq_false_of_not_eq_true hbefore)
        · exact hfirst other hother

omit [DecidableEq κ] in
/-- A key that comes before all the others is not among them. -/
theorem StrictOrder.not_mem_keys (h : StrictOrder isBefore) {entries : List (κ × α)} {key : κ}
    (hbefore : ∀ k ∈ keys entries, isBefore key k = true) : key ∉ keys entries := by
  intro hmem
  have hself := hbefore key hmem
  rw [h.asymm hself] at hself
  contradiction

omit [DecidableEq κ] in
theorem Sorted.nodup (h : StrictOrder isBefore) {entries : List (κ × α)}
    (hsorted : Sorted isBefore entries) : (keys entries).Nodup := by
  refine List.Pairwise.imp (fun {a b} hbefore => ?_) hsorted
  rintro rfl
  rw [h.asymm hbefore] at hbefore
  contradiction

/-- Entries in order are told apart by the values of their keys. -/
theorem Sorted.ext (h : StrictOrder isBefore) {entries others : List (κ × α)}
    (hentries : Sorted isBefore entries) (hothers : Sorted isBefore others)
    (hsame : ∀ key, get? entries key = get? others key) : entries = others := by
  induction entries generalizing others with
  | nil =>
    cases others with
    | nil => rfl
    | cons e rest =>
      have hnone := hsame e.1
      rw [get?_nil, get?, if_pos rfl] at hnone
      contradiction
  | cons e rest ih =>
    obtain ⟨k, v⟩ := e
    cases others with
    | nil =>
      have hnone := hsame k
      rw [get?_nil, get?, if_pos rfl] at hnone
      contradiction
    | cons e' rest' =>
      obtain ⟨k', v'⟩ := e'
      obtain ⟨hfirst, hrest⟩ := sorted_cons.mp hentries
      obtain ⟨hfirst', hrest'⟩ := sorted_cons.mp hothers
      -- The first key of each list is a key of the other one, so neither comes before the other.
      have hkey : k = k' := by
        have hmem : k ∈ keys ((k', v') :: rest') := by
          by_contra hnot
          rw [← get?_eq_none_iff, ← hsame, get?, if_pos rfl] at hnot
          contradiction
        have hmem' : k' ∈ keys ((k, v) :: rest) := by
          by_contra hnot
          rw [← get?_eq_none_iff, hsame, get?, if_pos rfl] at hnot
          contradiction
        rcases mem_keys_cons.mp hmem with rfl | hlater
        · rfl
        · rcases mem_keys_cons.mp hmem' with rfl | hlater'
          · rfl
          · have hcycle := h.asymm (hfirst k' hlater')
            rw [hfirst' k hlater] at hcycle
            contradiction
      subst hkey
      have hvalue : v = v' := by simpa [get?] using hsame k
      have htail : rest = rest' := by
        refine ih hrest hrest' fun key => ?_
        by_cases hk : k = key
        · subst hk
          rw [(get?_eq_none_iff _ _).mpr (h.not_mem_keys hfirst),
            (get?_eq_none_iff _ _).mpr (h.not_mem_keys hfirst')]
        · simpa [get?, hk] using hsame key
      rw [hvalue, htail]

/-- A key that comes after all the others is added at the end. -/
theorem upsert_of_forall_before (h : StrictOrder isBefore) (f : Option α → α)
    {entries : List (κ × α)} {key : κ} (hbefore : ∀ k ∈ keys entries, isBefore k key = true) :
    upsert isBefore f entries key = entries ++ [(key, f none)] := by
  induction entries with
  | nil => rfl
  | cons e rest ih =>
    obtain ⟨k, v⟩ := e
    have hk := hbefore k (mem_keys_cons.mpr (.inl rfl))
    have hafter := h.asymm hk
    have hne : k ≠ key := by
      rintro rfl
      rw [hk] at hafter
      contradiction
    rw [upsert, if_neg hne, hafter, if_neg Bool.false_ne_true,
      ih fun other hother => hbefore other (mem_keys_cons.mpr (.inr hother)), List.cons_append]

/-- The value of a key after a change of that key. -/
theorem get?_upsert_self (h : StrictOrder isBefore) (f : Option α → α) {entries : List (κ × α)}
    (hsorted : Sorted isBefore entries) (key : κ) :
    get? (upsert isBefore f entries key) key = some (f (get? entries key)) := by
  induction entries with
  | nil => simp [upsert, get?]
  | cons e rest ih =>
    obtain ⟨k, v⟩ := e
    obtain ⟨hfirst, hrest⟩ := sorted_cons.mp hsorted
    by_cases hk : k = key
    · simp [upsert, get?, hk]
    · rw [upsert, if_neg hk]
      split
      next hbefore =>
        -- The keys that follow all come after the new one.
        have hnew : get? rest key = none :=
          (get?_eq_none_iff rest key).mpr <|
            h.not_mem_keys fun other hother => h.trans hbefore (hfirst other hother)
        simp [get?, hk, hnew]
      next => rw [get?, if_neg hk, get?, if_neg hk, ih hrest]

theorem get?_upsert_of_ne (f : Option α → α) (entries : List (κ × α)) {key other : κ}
    (hne : key ≠ other) : get? (upsert isBefore f entries key) other = get? entries other := by
  induction entries with
  | nil => simp [upsert, get?, hne]
  | cons e rest ih =>
    obtain ⟨k, v⟩ := e
    rw [upsert]
    split
    next hk => rw [get?, get?, if_neg (hk ▸ hne), if_neg (hk ▸ hne)]
    next =>
      split
      · rw [get?, if_neg hne]
      · rw [get?, get?, ih]

/-- What holds of all values, and of the changed ones, holds after a change. -/
theorem forall_mem_upsert {P : α → Prop} {f : Option α → α} {entries : List (κ × α)}
    (hnew : P (f none)) (hchanged : ∀ v, P v → P (f (some v))) (h : ∀ e ∈ entries, P e.2)
    (key : κ) : ∀ e ∈ upsert isBefore f entries key, P e.2 := by
  induction entries with
  | nil => exact List.forall_mem_singleton.mpr hnew
  | cons e rest ih =>
    obtain ⟨k, v⟩ := e
    obtain ⟨hv, hrest⟩ := List.forall_mem_cons.mp h
    rw [upsert]
    split
    · exact List.forall_mem_cons.mpr ⟨hchanged v hv, hrest⟩
    · split
      · exact List.forall_mem_cons.mpr ⟨hnew, h⟩
      · exact List.forall_mem_cons.mpr ⟨hv, ih hrest⟩

end Keyed

namespace ErrorTree

/-- Whether the children of every node are in the order of their segments, each once. -/
inductive Ordered : ErrorTree → Prop
  | node {errors : List String} {isObject isArray : Bool} {children : List (Segment × ErrorTree)}
      (sorted : Keyed.Sorted Segment.isBefore children)
      (below : ∀ child ∈ children, Ordered child.2) :
      Ordered (node errors isObject isArray children)

/-- The messages at a location. -/
def messagesAt (t : ErrorTree) (l : Location) : List String :=
  ((t.get? l).map errors).getD []

theorem ordered_empty : empty.Ordered :=
  .node List.Pairwise.nil (by simp)

theorem Ordered.child {t : ErrorTree} (h : t.Ordered) (s : Segment) :
    ((t.child? s).getD empty).Ordered := by
  cases h with
  | @node errors isObject isArray children sorted below =>
    have hchild : (ErrorTree.node errors isObject isArray children).child? s =
        Keyed.get? children s := rfl
    rw [hchild]
    cases hget : Keyed.get? children s with
    | none => exact ordered_empty
    | some c => exact below (s, c) (Keyed.mem_of_get? hget)

theorem Ordered.updateChild {t : ErrorTree} (h : t.Ordered) {f : ErrorTree → ErrorTree}
    (hf : ∀ c : ErrorTree, c.Ordered → (f c).Ordered) (s : Segment) :
    (t.updateChild f s).Ordered := by
  cases h with
  | node sorted below =>
    exact .node (Keyed.sorted_upsert Segment.strictOrder_isBefore _ sorted s)
      (Keyed.forall_mem_upsert (hf empty ordered_empty) hf below s)

theorem Ordered.add {t : ErrorTree} (h : t.Ordered) (l : Location) (message : String) :
    (t.add l message).Ordered := by
  unfold ErrorTree.add
  induction l generalizing t with
  | nil =>
    cases h with
    | node sorted below => exact .node sorted below
  | cons s rest ih => exact h.updateChild (fun _ hc => ih hc) s

/-- The child of a segment after a change of one child. -/
theorem Ordered.child?_updateChild {t : ErrorTree} (h : t.Ordered) (f : ErrorTree → ErrorTree)
    (s u : Segment) :
    (t.updateChild f s).child? u =
      if s = u then some (f ((t.child? s).getD empty)) else t.child? u := by
  cases h with
  | node sorted below =>
    split
    next hsegment =>
      subst hsegment
      exact Keyed.get?_upsert_self Segment.strictOrder_isBefore _ sorted s
    next hsegment => exact Keyed.get?_upsert_of_ne _ _ hsegment

theorem messagesAt_empty (l : Location) : empty.messagesAt l = [] := by
  cases l <;> rfl

theorem messagesAt_cons (t : ErrorTree) (s : Segment) (rest : Location) :
    t.messagesAt (s :: rest) = ((t.child? s).getD empty).messagesAt rest := by
  unfold messagesAt
  rw [get?]
  cases t.child? s with
  | none => exact (messagesAt_empty rest).symm
  | some c => rfl

/-- A message is added behind those of its location, and nowhere else. -/
theorem Ordered.messagesAt_add {t : ErrorTree} (h : t.Ordered) (l m : Location)
    (message : String) :
    (t.add l message).messagesAt m = t.messagesAt m ++ if l = m then [message] else [] := by
  induction l generalizing t m with
  | nil =>
    obtain ⟨errors, isObject, isArray, children⟩ := t
    cases m with
    | nil => rfl
    | cons u others => exact (List.append_nil _).symm
  | cons s rest ih =>
    cases m with
    | nil =>
      obtain ⟨errors, isObject, isArray, children⟩ := t
      exact (List.append_nil _).symm
    | cons u others =>
      have hadd : t.add (s :: rest) message = t.updateChild (fun c => c.add rest message) s := rfl
      rw [messagesAt_cons, messagesAt_cons, hadd, h.child?_updateChild]
      by_cases hsegment : s = u
      · subst hsegment
        rw [if_pos rfl, Option.getD_some, ih (h.child s)]
        simp
      · simp [hsegment]

theorem Ordered.messagesAt_foldl_add {t : ErrorTree} (h : t.Ordered)
    (messages : List (Location × String)) (l : Location) :
    (messages.foldl (fun t m => t.add m.1 m.2) t).messagesAt l =
      t.messagesAt l ++ (messages.filter fun m => m.1 = l).map Prod.snd := by
  induction messages generalizing t with
  | nil => simp
  | cons m rest ih =>
    rw [List.foldl_cons, ih (h.add m.1 m.2), h.messagesAt_add, List.append_assoc, List.filter_cons]
    by_cases hlocation : m.1 = l <;> simp [hlocation]

theorem ofMessages_append (ms ns : List (Location × String)) :
    ofMessages (ms ++ ns) = ns.foldl (fun t m => t.add m.1 m.2) (ofMessages ms) :=
  List.foldl_append

/-- A tree of messages has at a location just the messages that were added there, in order. -/
theorem messagesAt_ofMessages (messages : List (Location × String)) (l : Location) :
    (ofMessages messages).messagesAt l =
      (messages.filter fun m => m.1 = l).map Prod.snd := by
  rw [ofMessages, ordered_empty.messagesAt_foldl_add, messagesAt_empty, List.nil_append]

theorem messagesAt_ofMessages_ne_nil {messages : List (Location × String)} {m : Location × String}
    (h : m ∈ messages) : (ofMessages messages).messagesAt m.1 ≠ [] := by
  rw [messagesAt_ofMessages]
  intro hnone
  rw [List.map_eq_nil_iff, List.filter_eq_nil_iff] at hnone
  exact hnone m h (decide_eq_true rfl)

/-! ### The number of messages -/

theorem countAll_upsert {f : ErrorTree → ErrorTree} (hf : ∀ t, (f t).count = t.count + 1)
    (children : List (Segment × ErrorTree)) (s : Segment) :
    countAll (Keyed.upsert Segment.isBefore (fun c => f (c.getD empty)) children s) =
      countAll children + 1 := by
  have hempty : empty.count = 0 := rfl
  induction children with
  | nil => simp [Keyed.upsert, countAll, hf, hempty]
  | cons child rest ih =>
    obtain ⟨k, t⟩ := child
    rw [Keyed.upsert]
    split
    · simp only [Option.getD_some, countAll, hf]
      omega
    · split
      · simp only [Option.getD_none, countAll, hf, hempty]
        omega
      · simp only [countAll, ih]
        omega

theorem count_add (t : ErrorTree) (l : Location) (message : String) :
    (t.add l message).count = t.count + 1 := by
  unfold add
  induction l generalizing t with
  | nil =>
    obtain ⟨errors, isObject, isArray, children⟩ := t
    simp only [update, append, count, List.length_append, List.length_singleton]
    omega
  | cons s rest ih =>
    obtain ⟨errors, isObject, isArray, children⟩ := t
    simp only [update, updateChild, count, countAll_upsert ih]
    omega

theorem count_foldl_add (t : ErrorTree) (messages : List (Location × String)) :
    (messages.foldl (fun t m => t.add m.1 m.2) t).count = t.count + messages.length := by
  induction messages generalizing t with
  | nil => rfl
  | cons m rest ih =>
    rw [List.foldl_cons, ih, count_add, List.length_cons]
    omega

theorem count_ofMessages (messages : List (Location × String)) :
    (ofMessages messages).count = messages.length := by
  rw [ofMessages, count_foldl_add]
  exact Nat.zero_add _

/-- A tree of messages counts as one without messages just when there are none. -/
theorem nonEmpty?_ofMessages (messages : List (Location × String)) :
    (ofMessages messages).nonEmpty? =
      if messages = [] then none else some (ofMessages messages) := by
  rw [nonEmpty?, isEmpty, count_ofMessages]
  cases messages <;> simp

end ErrorTree

end PathRules

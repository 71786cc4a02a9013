import PathRules.Value.Edit
/-!
Laws of edits. An edit changes the node at its location and what is below. Main statements: each
edit spares the nodes that lie neither above nor below, and the outlines of those above; it keeps
the keys of the maps around it, and maps without a key twice; what was taken out can be put back.
-/

namespace PathRules

namespace Keyed

variable {κ α : Type} [DecidableEq κ]

theorem put_of_get? {entries : List (κ × α)} {key : κ} {value : α}
    (h : get? entries key = some value) : put entries key value = entries := by
  induction entries with
  | nil => simp at h
  | cons e rest ih =>
    obtain ⟨k, v⟩ := e
    by_cases hk : k = key
    · simp only [get?, hk, if_true, Option.some.injEq] at h
      simp [put, hk, h]
    · simp only [get?, hk, if_false] at h
      simp [put, hk, ih h]

theorem put_put (entries : List (κ × α)) (key : κ) (first second : α) :
    put (put entries key first) key second = put entries key second := by
  induction entries with
  | nil => simp [put]
  | cons e rest ih =>
    obtain ⟨k, v⟩ := e
    by_cases hk : k = key <;> simp [put, hk, ih]

theorem get?_erase_of_ne (entries : List (κ × α)) {key other : κ} (h : key ≠ other) :
    get? (erase entries key) other = get? entries other := by
  induction entries with
  | nil => rfl
  | cons e rest ih =>
    obtain ⟨k, v⟩ := e
    by_cases hk : k = key
    · simp [erase, get?, hk, h]
    · rw [erase, if_neg hk, get?, get?, ih]

theorem get?_erase_self {entries : List (κ × α)} {key : κ} (h : (keys entries).Nodup) :
    get? (erase entries key) key = none := by
  rw [get?_eq_none_iff, keys_erase]
  exact h.not_mem_erase

theorem mem_of_get? {entries : List (κ × α)} {key : κ} {value : α}
    (h : get? entries key = some value) : (key, value) ∈ entries := by
  induction entries with
  | nil => simp at h
  | cons e rest ih =>
    obtain ⟨k, v⟩ := e
    by_cases hk : k = key
    · simp only [get?, hk, if_true, Option.some.injEq] at h
      simp [hk, h]
    · simp only [get?, hk, if_false] at h
      exact List.mem_cons_of_mem _ (ih h)

theorem get?_of_mem {entries : List (κ × α)} (hnodup : (keys entries).Nodup) {e : κ × α}
    (h : e ∈ entries) : get? entries e.1 = some e.2 := by
  induction entries with
  | nil => contradiction
  | cons first rest ih =>
    obtain ⟨k, v⟩ := first
    obtain ⟨hnot, hrest⟩ := List.nodup_cons.mp hnodup
    rcases List.mem_cons.mp h with rfl | hlater
    · rw [get?, if_pos rfl]
    · have hkey : e.1 ∈ keys rest := List.mem_map_of_mem hlater
      have hne : k ≠ e.1 := by
        rintro rfl
        exact hnot hkey
      rw [get?, if_neg hne, ih hrest hlater]

theorem find?_key (entries : List (κ × α)) (key : κ) :
    entries.find? (fun e => e.1 = key) = (get? entries key).map fun value => (key, value) := by
  induction entries with
  | nil => rfl
  | cons e rest ih =>
    obtain ⟨k, v⟩ := e
    rw [List.find?_cons, get?]
    by_cases hk : k = key
    · simp [hk]
    · simp [hk, ih]

theorem mem_put {entries : List (κ × α)} {key : κ} {value : α} {e : κ × α}
    (h : e ∈ put entries key value) : e = (key, value) ∨ e ∈ entries := by
  induction entries with
  | nil => exact Or.inl (List.mem_singleton.mp h)
  | cons e' rest ih =>
    obtain ⟨k, v⟩ := e'
    by_cases hk : k = key
    · rw [put, if_pos hk, hk] at h
      exact (List.mem_cons.mp h).imp_right (List.mem_cons_of_mem _)
    · rw [put, if_neg hk] at h
      rcases List.mem_cons.mp h with rfl | h
      · exact Or.inr List.mem_cons_self
      · exact (ih h).imp_right (List.mem_cons_of_mem _)

theorem mem_of_mem_erase {entries : List (κ × α)} {key : κ} {e : κ × α}
    (h : e ∈ erase entries key) : e ∈ entries := by
  induction entries with
  | nil => exact h
  | cons e' rest ih =>
    obtain ⟨k, v⟩ := e'
    by_cases hk : k = key
    · rw [erase, if_pos hk] at h
      exact List.mem_cons_of_mem _ h
    · rw [erase, if_neg hk] at h
      rcases List.mem_cons.mp h with rfl | h
      · exact List.mem_cons_self
      · exact List.mem_cons_of_mem _ (ih h)

end Keyed

namespace Location

/-- Whether neither of two locations leads to the other one. -/
def Apart (l m : Location) : Prop :=
  ¬ l <+: m ∧ ¬ m <+: l

theorem Apart.symm {l m : Location} (h : Apart l m) : Apart m l :=
  ⟨h.2, h.1⟩

/-- Locations of one length are apart unless they are the same. -/
theorem apart_of_length_eq {l m : Location} (hlength : l.length = m.length) (hne : l ≠ m) :
    Apart l m :=
  ⟨fun h => hne (h.eq_of_length hlength), fun h => hne (h.eq_of_length hlength.symm).symm⟩

/-- What is apart from a location is apart from those below it. -/
theorem Apart.append_left {l m : Location} (h : Apart l m) (rest : Location) :
    Apart (l ++ rest) m := by
  constructor
  · exact fun hpre => h.1 ((List.prefix_append l rest).trans hpre)
  · intro hpre
    rcases List.prefix_or_prefix_of_prefix hpre (List.prefix_append l rest) with hm | hl
    · exact h.2 hm
    · exact h.1 hl

end Location

namespace Value

open Location

theorem place?_eq_some_iff {i : Int} {n : Nat} :
    (Segment.index i).place? = some n ↔ i = n := by
  simp only [Segment.place?]
  split <;> simp <;> omega

theorem child?_sequence {items : List Value} {i : Int} {c : Value} :
    (sequence items).child? (.index i) = some c ↔ ∃ n : Nat, i = n ∧ items[n]? = some c := by
  simp only [child?, Option.bind_eq_some_iff, place?_eq_some_iff]

/-- A child is the value of a key of a map or an element of a sequence. -/
theorem child?_eq_some_iff {v c : Value} {s : Segment} :
    v.child? s = some c ↔
      (∃ entries name, v = map entries ∧ s = .key name ∧ Keyed.get? entries name = some c) ∨
        ∃ (items : List Value) (n : Nat), v = sequence items ∧ s = .index n ∧
          items[n]? = some c := by
  constructor
  · intro h
    cases v <;> cases s <;> simp only [child?, reduceCtorEq] at h
    case map.key entries name => exact Or.inl ⟨entries, name, rfl, rfl, h⟩
    case sequence.index items i =>
      obtain ⟨n, rfl, hn⟩ := child?_sequence.mp h
      exact Or.inr ⟨items, n, rfl, rfl, hn⟩
  · rintro (⟨entries, name, rfl, rfl, h⟩ | ⟨items, n, rfl, rfl, hn⟩)
    · exact h
    · exact child?_sequence.mpr ⟨n, rfl, hn⟩

theorem setChild?_eq_some_iff {v w c : Value} {s : Segment} :
    v.setChild? s c = some w ↔
      (∃ entries name, v = map entries ∧ s = .key name ∧ w = map (Keyed.put entries name c)) ∨
        ∃ (items : List Value) (n : Nat), v = sequence items ∧ s = .index n ∧
          n < items.length ∧ w = sequence (items.set n c) := by
  constructor
  · intro h
    cases v <;> cases s <;> simp only [setChild?, reduceCtorEq, Option.some.injEq] at h
    case map.key entries name => exact Or.inl ⟨entries, name, rfl, rfl, h.symm⟩
    case sequence.index items i =>
      cases hplace : (Segment.index i).place? with
      | none => simp [hplace] at h
      | some n =>
        simp only [hplace, Option.ite_none_right_eq_some, Option.some.injEq] at h
        rw [place?_eq_some_iff] at hplace
        exact Or.inr ⟨items, n, rfl, by rw [hplace], h.1, h.2.symm⟩
  · rintro (⟨entries, name, rfl, rfl, rfl⟩ | ⟨items, n, rfl, rfl, hn, rfl⟩)
    · rfl
    · have hplace : (Segment.index n).place? = some n := place?_eq_some_iff.mpr rfl
      simp [setChild?, hplace, hn]

theorem get?_singleton (v : Value) (s : Segment) : v.get? [s] = v.child? s :=
  Option.bind_fun_some (v.child? s)

theorem child?_putChild_self {v c : Value} {s : Segment} (h : v.child? s = some c) (w : Value) :
    (v.putChild s w).child? s = some w := by
  rcases child?_eq_some_iff.mp h with ⟨entries, name, rfl, rfl, hc⟩ | ⟨items, n, rfl, rfl, hn⟩
  · exact Keyed.get?_put_self entries name w
  · apply child?_sequence.mpr
    refine ⟨n, rfl, ?_⟩
    simp [(List.getElem?_eq_some_iff.mp hn).1]

theorem child?_putChild_of_ne {v c : Value} {s t : Segment} (h : v.child? s = some c)
    (hne : s ≠ t) (w : Value) : (v.putChild s w).child? t = v.child? t := by
  rcases child?_eq_some_iff.mp h with ⟨entries, name, rfl, rfl, hc⟩ | ⟨items, n, rfl, rfl, hn⟩
  · cases t with
    | key other => exact Keyed.get?_put_of_ne entries w fun heq => hne (congrArg _ heq)
    | index j => rfl
  · cases t with
    | key other => rfl
    | index j =>
      apply Option.bind_congr
      intro m hm
      rw [place?_eq_some_iff] at hm
      have hnm : n ≠ m := by
        rintro rfl
        exact hne (congrArg _ hm.symm)
      simp [hnm]

theorem putChild_child? {v c : Value} {s : Segment} (h : v.child? s = some c) :
    v.putChild s c = v := by
  rcases child?_eq_some_iff.mp h with ⟨entries, name, rfl, rfl, hc⟩ | ⟨items, n, rfl, rfl, hn⟩
  · exact congrArg map (Keyed.put_of_get? hc)
  · obtain ⟨hlt, rfl⟩ := List.getElem?_eq_some_iff.mp hn
    simp [putChild]

theorem putChild_putChild (v : Value) (s : Segment) (c w : Value) :
    (v.putChild s c).putChild s w = v.putChild s w := by
  cases v <;> cases s <;> simp [putChild, Keyed.put_put]

/-- Setting a child that is there undoes another change of it. -/
theorem setChild?_putChild {v c : Value} {s : Segment} (h : v.child? s = some c) (w new : Value) :
    (v.putChild s w).setChild? s new = some (v.putChild s new) := by
  rcases child?_eq_some_iff.mp h with ⟨entries, name, rfl, rfl, hc⟩ | ⟨items, n, rfl, rfl, hn⟩
  · simp only [putChild, setChild?, Keyed.put_put]
  · obtain ⟨hlt, rfl⟩ := List.getElem?_eq_some_iff.mp hn
    have hplace : (Segment.index n).place? = some n := place?_eq_some_iff.mpr rfl
    simp [putChild, setChild?, hplace, hlt]

/-- Setting a child leaves the other children. -/
theorem child?_setChild?_of_ne {v w c : Value} {s t : Segment} (h : v.setChild? s c = some w)
    (hne : s ≠ t) : w.child? t = v.child? t := by
  rcases setChild?_eq_some_iff.mp h with
    ⟨entries, name, rfl, rfl, rfl⟩ | ⟨items, n, rfl, rfl, -, rfl⟩
  · cases t with
    | key other => exact Keyed.get?_put_of_ne entries c fun heq => hne (congrArg _ heq)
    | index j => rfl
  · cases t with
    | key other => rfl
    | index j =>
      apply Option.bind_congr
      intro m hm
      rw [place?_eq_some_iff] at hm
      have hnm : n ≠ m := by
        rintro rfl
        exact hne (congrArg _ hm.symm)
      simp [hnm]

theorem update?_cons (v : Value) (f : Value → Option Value) (s : Segment) (rest : Location) :
    v.update? f (s :: rest) =
      (v.child? s).bind fun c => (c.update? f rest).map fun c => v.putChild s c := by
  simp only [update?]
  cases v.child? s with
  | none => rfl
  | some c => cases h : c.update? f rest <;> simp [h]

theorem update?_cons_eq_some_iff {v w : Value} {f : Value → Option Value} {s : Segment}
    {rest : Location} :
    v.update? f (s :: rest) = some w ↔
      ∃ c new, v.child? s = some c ∧ c.update? f rest = some new ∧ v.putChild s new = w := by
  simp only [update?_cons, Option.bind_eq_some_iff, Option.map_eq_some_iff, exists_and_left]

theorem update?_append (v : Value) (f : Value → Option Value) (l m : Location) :
    v.update? f (l ++ m) = v.update? (fun c => c.update? f m) l := by
  induction l generalizing v with
  | nil => rfl
  | cons s rest ih =>
    rw [List.cons_append, update?_cons, update?_cons]
    exact congrArg _ (funext fun c => by rw [ih])

/-- An update changes the node at its location. -/
theorem get?_update? {v w : Value} {f : Value → Option Value} {l : Location}
    (h : v.update? f l = some w) :
    ∃ c new, v.get? l = some c ∧ f c = some new ∧ w.get? l = some new := by
  induction l generalizing v w with
  | nil => exact ⟨v, w, rfl, h, rfl⟩
  | cons s rest ih =>
    obtain ⟨c, new, hc, hnew, rfl⟩ := update?_cons_eq_some_iff.mp h
    obtain ⟨old, result, hold, hresult, hget⟩ := ih hnew
    refine ⟨old, result, ?_, hresult, ?_⟩
    · rw [get?, hc]
      exact hold
    · rw [get?, child?_putChild_self hc]
      exact hget

theorem exists_update? {v c new : Value} {f : Value → Option Value} {l : Location}
    (hget : v.get? l = some c) (hnew : f c = some new) : ∃ w, v.update? f l = some w := by
  induction l generalizing v with
  | nil =>
    cases hget
    exact ⟨new, hnew⟩
  | cons s rest ih =>
    rw [get?, Option.bind_eq_some_iff] at hget
    obtain ⟨child, hchild, hrest⟩ := hget
    obtain ⟨w, hw⟩ := ih hrest
    exact ⟨_, update?_cons_eq_some_iff.mpr ⟨child, w, hchild, hw, rfl⟩⟩

/-- Two updates at one location are one. -/
theorem update?_update? {v w : Value} {f g : Value → Option Value} {l : Location}
    (h : v.update? f l = some w) :
    w.update? g l = v.update? (fun c => (f c).bind g) l := by
  induction l generalizing v w with
  | nil =>
    have hf : f v = some w := h
    simp only [update?, hf, Option.bind_some]
  | cons s rest ih =>
    obtain ⟨c, new, hc, hnew, rfl⟩ := update?_cons_eq_some_iff.mp h
    rw [update?_cons, update?_cons, child?_putChild_self hc, hc, Option.bind_some,
      Option.bind_some, ih hnew]
    exact congrArg (fun f => Option.map f _) (funext fun c => putChild_putChild v s new c)

theorem update?_eq_self {v c : Value} {f : Value → Option Value} {l : Location}
    (hget : v.get? l = some c) (hf : f c = some c) : v.update? f l = some v := by
  induction l generalizing v with
  | nil =>
    cases hget
    exact hf
  | cons s rest ih =>
    rw [get?, Option.bind_eq_some_iff] at hget
    obtain ⟨child, hchild, hrest⟩ := hget
    exact update?_cons_eq_some_iff.mpr ⟨child, child, hchild, ih hrest, putChild_child? hchild⟩

/-- What an edit below a value cannot change. Null counts as no value. -/
inductive Outline where
  | leaf
  | map
  | sequence (length : Nat)
  deriving DecidableEq

/-- The outline of a value that is not null. -/
def outline : Value → Option Outline
  | null => none
  | map _ => some .map
  | sequence items => some (.sequence items.length)
  | _ => some .leaf

theorem outline_putChild (v : Value) (s : Segment) (c : Value) :
    (v.putChild s c).outline = v.outline := by
  cases v <;> cases s <;> simp [putChild, outline]

theorem outline_setChild? {v w c : Value} {s : Segment} (h : v.setChild? s c = some w) :
    w.outline = v.outline := by
  rcases setChild?_eq_some_iff.mp h with
    ⟨entries, name, rfl, rfl, rfl⟩ | ⟨items, n, rfl, rfl, -, rfl⟩
  · rfl
  · simp [outline]

/-- What an edit at a location spares: the nodes that are apart from it, and the outlines of those
above it. -/
structure Spares (l : Location) (v w : Value) : Prop where
  apart : ∀ m, Apart l m → w.get? m = v.get? m
  above : ∀ m s rest, l = m ++ s :: rest → (w.get? m).bind outline = (v.get? m).bind outline

theorem Spares.refl (l : Location) (v : Value) : Spares l v v :=
  ⟨fun _ _ => rfl, fun _ _ _ _ => rfl⟩

theorem Spares.trans {l : Location} {u v w : Value} (h : Spares l u v) (h' : Spares l v w) :
    Spares l u w :=
  ⟨fun m hm => (h'.apart m hm).trans (h.apart m hm),
    fun m s rest hl => (h'.above m s rest hl).trans (h.above m s rest hl)⟩

/-- An edit below a location spares what an edit there spares. -/
theorem Spares.of_append {l rest : Location} {v w : Value} (h : Spares (l ++ rest) v w) :
    Spares l v w := by
  refine ⟨fun m hm => h.apart m (hm.append_left rest), fun m s others hl => ?_⟩
  exact h.above m s (others ++ rest) (by simp [hl])

/-- What an edit below a location spares, it spares in the value there. -/
theorem Spares.below {l rest : Location} {v w c c' : Value} (h : Spares (l ++ rest) v w)
    (hv : v.get? l = some c) (hw : w.get? l = some c') : Spares rest c c' := by
  have hget : ∀ m, w.get? (l ++ m) = c'.get? m ∧ v.get? (l ++ m) = c.get? m := by
    intro m
    rw [get?_append, get?_append, hv, hw]
    exact ⟨rfl, rfl⟩
  constructor
  · intro m hm
    rw [← (hget m).1, ← (hget m).2]
    refine h.apart (l ++ m) ⟨fun hpre => hm.1 ?_, fun hpre => hm.2 ?_⟩
    · exact (List.prefix_append_right_inj l).mp hpre
    · exact (List.prefix_append_right_inj l).mp hpre
  · intro m s others hrest
    rw [← (hget m).1, ← (hget m).2]
    exact h.above (l ++ m) s others (by rw [hrest, List.append_assoc])

/-- The container of what is edited stays there. -/
theorem Spares.exists_get? {l rest : Location} {s : Segment} {v w c : Value}
    (h : Spares (l ++ s :: rest) v w) (hc : v.get? (l ++ s :: rest) = some c) :
    ∃ node node', v.get? l = some node ∧ w.get? l = some node' ∧ node'.outline = node.outline := by
  rw [get?_append, Option.bind_eq_some_iff] at hc
  obtain ⟨node, hnode, hchild⟩ := hc
  rw [get?, Option.bind_eq_some_iff] at hchild
  obtain ⟨c, hc, -⟩ := hchild
  have houtline := h.above l s rest rfl
  have hsome : ∃ o, node.outline = some o := by
    rcases child?_eq_some_iff.mp hc with ⟨entries, name, rfl, -, -⟩ | ⟨items, n, rfl, -, -⟩ <;>
      exact ⟨_, rfl⟩
  obtain ⟨o, ho⟩ := hsome
  rw [hnode, Option.bind_some, ho] at houtline
  obtain ⟨node', hnode', ho'⟩ := Option.bind_eq_some_iff.mp houtline
  exact ⟨node, node', hnode, hnode', ho'.trans ho.symm⟩

theorem get?_update?_of_apart {v w : Value} {f : Value → Option Value} {l m : Location}
    (h : v.update? f l = some w) (hm : Apart l m) : w.get? m = v.get? m := by
  induction l generalizing v w m with
  | nil => exact absurd List.nil_prefix hm.1
  | cons s rest ih =>
    obtain ⟨c, new, hc, hnew, rfl⟩ := update?_cons_eq_some_iff.mp h
    cases m with
    | nil => exact absurd List.nil_prefix hm.2
    | cons t others =>
      by_cases hst : s = t
      · subst hst
        rw [get?, get?, child?_putChild_self hc, hc]
        refine ih hnew ⟨fun hpre => hm.1 ?_, fun hpre => hm.2 ?_⟩
        · exact (List.prefix_cons_inj s).mpr hpre
        · exact (List.prefix_cons_inj s).mpr hpre
      · rw [get?, get?, child?_putChild_of_ne hc hst]

theorem spares_update? {v w : Value} {f : Value → Option Value} {l : Location}
    (h : v.update? f l = some w) : Spares l v w := by
  refine ⟨fun m hm => get?_update?_of_apart h hm, ?_⟩
  rintro m s rest rfl
  rw [update?_append] at h
  obtain ⟨c, new, hc, hnew, hw⟩ := get?_update? h
  obtain ⟨child, result, -, -, rfl⟩ := update?_cons_eq_some_iff.mp hnew
  rw [hw, hc, Option.bind_some, Option.bind_some, outline_putChild]

/-- An update of a node that keeps its outline and all children but one is an edit at that child. -/
theorem spares_of_children {v w : Value} {f : Value → Option Value} {l : Location} {s : Segment}
    (h : v.update? f l = some w)
    (houtline : ∀ c new, f c = some new → new.outline = c.outline)
    (hchildren : ∀ c new, f c = some new → ∀ t, s ≠ t → new.child? t = c.child? t) :
    Spares (l ++ [s]) v w := by
  obtain ⟨c, new, hc, hnew, hw⟩ := get?_update? h
  constructor
  · intro m hm
    by_cases hpre : l <+: m
    · obtain ⟨rest, rfl⟩ := hpre
      cases rest with
      | nil => exact absurd (by simp) hm.2
      | cons t others =>
        have hst : s ≠ t := by
          rintro rfl
          exact hm.1 ((List.prefix_append_right_inj l).mpr (by simp))
        rw [get?_append, get?_append, hw, hc, Option.bind_some, Option.bind_some, get?, get?,
          hchildren c new hnew t hst]
    · exact get?_update?_of_apart h
        ⟨hpre, fun hm' => hm.2 (hm'.trans (List.prefix_append l [s]))⟩
  · intro m t rest hl
    rcases List.eq_nil_or_concat rest with rfl | ⟨others, u, rfl⟩
    · obtain ⟨rfl, -⟩ := List.append_inj' hl rfl
      rw [hw, hc, Option.bind_some, Option.bind_some, houtline c new hnew]
    · have happend : l ++ [s] = (m ++ t :: others) ++ [u] := by simpa using hl
      exact (spares_update? h).above m t others (List.append_inj' happend rfl).1

theorem spares_set? {v w c : Value} {l : Location} (h : v.set? l c = some w) : Spares l v w := by
  unfold set? at h
  cases hlast : l.getLast? with
  | none =>
    rw [List.getLast?_eq_none_iff.mp hlast]
    exact ⟨fun m hm => absurd List.nil_prefix hm.1, fun m s rest hl => by simp at hl⟩
  | some s =>
    rw [hlast] at h
    obtain ⟨parent, rfl⟩ := List.getLast?_eq_some_iff.mp hlast
    rw [List.dropLast_concat] at h
    exact spares_of_children h (fun c new hnew => outline_setChild? hnew)
      fun c new hnew t hst => child?_setChild?_of_ne hnew hst

theorem take?_eq_some_iff {v c w : Value} {l : Location} :
    v.take? l = some (c, w) ↔ v.get? l = some c ∧ v.update? (fun _ => some null) l = some w := by
  simp only [take?, Option.bind_eq_bind, Option.bind_eq_some_iff, Option.pure_def,
    Option.some.injEq, Prod.mk.injEq]
  constructor
  · rintro ⟨old, hget, rest, hrest, rfl, rfl⟩
    exact ⟨hget, hrest⟩
  · rintro ⟨hget, hrest⟩
    exact ⟨c, hget, w, hrest, rfl, rfl⟩

theorem exists_take? {v c : Value} {l : Location} (h : v.get? l = some c) :
    ∃ w, v.take? l = some (c, w) := by
  obtain ⟨w, hw⟩ := exists_update? (f := fun _ => some null) h rfl
  exact ⟨w, take?_eq_some_iff.mpr ⟨h, hw⟩⟩

theorem spares_take? {v w c : Value} {l : Location} (h : v.take? l = some (c, w)) :
    Spares l v w :=
  spares_update? (take?_eq_some_iff.mp h).2

theorem update?_congr {v c : Value} {f g : Value → Option Value} {l : Location}
    (hget : v.get? l = some c) (hfg : f c = g c) : v.update? f l = v.update? g l := by
  induction l generalizing v with
  | nil =>
    cases hget
    exact hfg
  | cons s rest ih =>
    rw [get?, Option.bind_eq_some_iff] at hget
    obtain ⟨child, hchild, hrest⟩ := hget
    rw [update?_cons, update?_cons, hchild, Option.bind_some, Option.bind_some, ih hrest]

/-- Where there is a value, setting another one is an update. -/
theorem set?_eq_update? {v c : Value} {l : Location} (h : v.get? l = some c) (new : Value) :
    v.set? l new = v.update? (fun _ => some new) l := by
  unfold set?
  cases hlast : l.getLast? with
  | none => rw [List.getLast?_eq_none_iff.mp hlast, update?]
  | some s =>
    obtain ⟨parent, rfl⟩ := List.getLast?_eq_some_iff.mp hlast
    rw [get?_append, Option.bind_eq_some_iff] at h
    obtain ⟨node, hnode, hc⟩ := h
    rw [get?_singleton] at hc
    have hset := setChild?_putChild hc c new
    rw [putChild_child? hc] at hset
    rw [List.dropLast_concat, update?_append]
    refine update?_congr hnode ?_
    rw [hset, update?_cons, hc]
    rfl

/-- What was taken out leaves a place for another value. -/
theorem set?_eq_update?_of_take? {v w c : Value} {l : Location} (h : v.take? l = some (c, w))
    (new : Value) : w.set? l new = v.update? (fun _ => some new) l := by
  obtain ⟨-, hw⟩ := take?_eq_some_iff.mp h
  obtain ⟨-, left, -, -, hget⟩ := get?_update? hw
  rw [set?_eq_update? hget, update?_update? hw]
  rfl

/-- Putting back what was taken out restores the tree. -/
theorem set?_of_take? {v w c : Value} {l : Location} (h : v.take? l = some (c, w)) :
    w.set? l c = some v := by
  rw [set?_eq_update?_of_take? h]
  exact update?_eq_self (take?_eq_some_iff.mp h).1 rfl

/-- Only a key of a map can be removed. -/
theorem exists_of_remove? {v c w : Value} {l : Location} (h : v.remove? l = some (c, w)) :
    ∃ parent name entries, l = parent ++ [.key name] ∧ v.get? parent = some (map entries) ∧
      Keyed.get? entries name = some c ∧
        v.update? (fun _ => some (map (Keyed.erase entries name))) parent = some w := by
  simp only [remove?, Option.bind_eq_bind, Option.bind_eq_some_iff, Option.pure_def,
    Option.some.injEq, Prod.mk.injEq] at h
  obtain ⟨s, hlast, old, hget, rest, hrest, rfl, rfl⟩ := h
  obtain ⟨parent, rfl⟩ := List.getLast?_eq_some_iff.mp hlast
  rw [List.dropLast_concat] at hrest
  obtain ⟨node, new, hnode, hnew, -⟩ := get?_update? hrest
  split at hnew
  case h_2 => contradiction
  case h_1 _ _ entries name =>
    refine ⟨parent, name, entries, rfl, hnode, ?_, ?_⟩
    · rw [get?_append, hnode] at hget
      simpa [get?, child?] using hget
    · rw [← hrest]
      exact update?_congr hnode rfl

theorem spares_remove? {v w c : Value} {l : Location} (h : v.remove? l = some (c, w)) :
    Spares l v w := by
  simp only [remove?, Option.bind_eq_bind, Option.bind_eq_some_iff, Option.pure_def,
    Option.some.injEq, Prod.mk.injEq] at h
  obtain ⟨s, hlast, old, -, rest, hrest, -, rfl⟩ := h
  obtain ⟨parent, rfl⟩ := List.getLast?_eq_some_iff.mp hlast
  rw [List.dropLast_concat] at hrest
  refine spares_of_children hrest (fun node new hnew => ?_) (fun node new hnew t hst => ?_)
  · split at hnew
    case h_1 =>
      cases hnew
      rfl
    case h_2 => contradiction
  · split at hnew
    case h_1 _ _ entries name =>
      cases hnew
      cases t with
      | key other => exact Keyed.get?_erase_of_ne entries fun heq => hst (congrArg _ heq)
      | index j => rfl
    case h_2 => contradiction

/-- The keys of the map at a location, in order; `none` if there is no map. -/
def keysAt (v : Value) (l : Location) : Option (List String) :=
  ((v.get? l).bind map?).map Keyed.keys

theorem keysAt_cons (v : Value) (s : Segment) (rest : Location) :
    v.keysAt (s :: rest) = (v.child? s).bind fun c => c.keysAt rest := by
  rw [keysAt, get?]
  cases v.child? s <;> rfl

theorem keysAt_nil_putChild {v c : Value} {s : Segment} (h : v.child? s = some c) (w : Value) :
    (v.putChild s w).keysAt [] = v.keysAt [] := by
  rcases child?_eq_some_iff.mp h with ⟨entries, name, rfl, rfl, hc⟩ | ⟨items, n, rfl, rfl, -⟩
  · have hmem : name ∈ Keyed.keys entries := List.mem_map_of_mem (Keyed.mem_of_get? hc)
    exact congrArg some (Keyed.keys_put_of_mem entries w hmem)
  · rfl

/-- An update gives no map outside a key that it did not have. -/
theorem keysAt_update? {v w : Value} {f : Value → Option Value} {l m : Location}
    (h : v.update? f l = some w) (hm : ¬ l <+: m) : w.keysAt m = v.keysAt m := by
  induction l generalizing v w m with
  | nil => exact absurd List.nil_prefix hm
  | cons s rest ih =>
    obtain ⟨c, new, hc, hnew, rfl⟩ := update?_cons_eq_some_iff.mp h
    cases m with
    | nil => exact keysAt_nil_putChild hc new
    | cons t m =>
      rw [keysAt_cons, keysAt_cons]
      by_cases hst : s = t
      · subst hst
        rw [child?_putChild_self hc, hc, Option.bind_some, Option.bind_some]
        exact ih hnew fun hpre => hm ((List.prefix_cons_inj s).mpr hpre)
      · rw [child?_putChild_of_ne hc hst]

theorem WellFormed.child? {v c : Value} {s : Segment} (h : v.WellFormed)
    (hc : v.child? s = some c) : c.WellFormed := by
  rcases child?_eq_some_iff.mp hc with ⟨entries, name, rfl, rfl, hc⟩ | ⟨items, n, rfl, rfl, hn⟩
  · exact (wellFormed_map_iff.mp h).2 (name, c) (Keyed.mem_of_get? hc)
  · exact wellFormed_sequence_iff.mp h c (List.mem_of_getElem? hn)

theorem WellFormed.putChild {v c : Value} {s : Segment} (h : v.WellFormed)
    (hc : v.child? s = some c) {w : Value} (hw : w.WellFormed) : (v.putChild s w).WellFormed := by
  rcases child?_eq_some_iff.mp hc with ⟨entries, name, rfl, rfl, hc⟩ | ⟨items, n, rfl, rfl, -⟩
  · obtain ⟨hnodup, hentries⟩ := wellFormed_map_iff.mp h
    refine wellFormed_map_iff.mpr ⟨?_, fun e he => ?_⟩
    · have hmem : name ∈ Keyed.keys entries := List.mem_map_of_mem (Keyed.mem_of_get? hc)
      rwa [Keyed.keys_put_of_mem entries w hmem]
    · rcases Keyed.mem_put he with rfl | he
      · exact hw
      · exact hentries e he
  · apply wellFormed_sequence_iff.mpr
    intro e he
    rcases List.mem_or_eq_of_mem_set he with he | rfl
    · exact wellFormed_sequence_iff.mp h e he
    · exact hw

theorem WellFormed.get? {v c : Value} {l : Location} (h : v.WellFormed)
    (hc : v.get? l = some c) : c.WellFormed := by
  induction l generalizing v with
  | nil =>
    cases hc
    exact h
  | cons s rest ih =>
    obtain ⟨child, hchild, hrest⟩ := Option.bind_eq_some_iff.mp hc
    exact ih (h.child? hchild) hrest

/-- An update keeps a tree well-formed if it does so with its node. -/
theorem WellFormed.update? {v w : Value} {f : Value → Option Value} {l : Location}
    (h : v.WellFormed) (hw : v.update? f l = some w)
    (hf : ∀ c new, c.WellFormed → v.get? l = some c → f c = some new → new.WellFormed) :
    w.WellFormed := by
  induction l generalizing v w with
  | nil => exact hf v w h rfl hw
  | cons s rest ih =>
    obtain ⟨c, new, hc, hnew, rfl⟩ := update?_cons_eq_some_iff.mp hw
    refine h.putChild hc (ih (h.child? hc) hnew fun d e hd hget he => hf d e hd ?_ he)
    rw [Value.get?, hc]
    exact hget

end Value
end PathRules

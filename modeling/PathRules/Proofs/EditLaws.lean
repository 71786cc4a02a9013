import PathRules.Proofs.Assignment
/-!
What edits do to the tree around them. Main statement: a value that is set is found there, a key
that is removed is gone, a value that was taken out can be put back and the tree is as it was; an
edit that is refused changes nothing, and no edit changes another node, the length of a sequence
around it, or the order of the other keys of a map.
-/

namespace PathRules

namespace Keyed

variable {κ α : Type} [DecidableEq κ]

theorem filter_keys_put (entries : List (κ × α)) (key : κ) (value : α) :
    (keys (put entries key value)).filter (· ≠ key) = (keys entries).filter (· ≠ key) := by
  by_cases hkey : key ∈ keys entries
  · rw [keys_put_of_mem entries value hkey]
  · rw [keys_put_of_not_mem entries value hkey, List.filter_append]
    simp

theorem filter_keys_erase (entries : List (κ × α)) (key : κ) :
    (keys (erase entries key)).filter (· ≠ key) = (keys entries).filter (· ≠ key) := by
  induction entries with
  | nil => rfl
  | cons e rest ih =>
    obtain ⟨k, v⟩ := e
    by_cases hk : k = key
    · simp [erase, keys, hk]
    · simpa [erase, keys, hk] using ih

end Keyed

namespace Value

open Location

/-- The tree behind an attempt to set a value. -/
def afterSet (v : Value) (l : Location) (new : Value) : Value :=
  (v.set? l new).getD v

/-- The tree behind an attempt to take a value out. -/
def afterTake (v : Value) (l : Location) : Value :=
  ((v.take? l).map Prod.snd).getD v

/-- The tree behind an attempt to remove a key. -/
def afterRemove (v : Value) (l : Location) : Value :=
  ((v.remove? l).map Prod.snd).getD v

/-- The length of the sequence at a location; `none` if there is no sequence. -/
def lengthAt (v : Value) (l : Location) : Option Nat :=
  ((v.get? l).bind sequence?).map List.length

/-- The keys of the map at `m`, in order, without the one that leads to `l`. -/
def keysBeside (l : Location) (v : Value) (m : Location) : Option (List String) :=
  (v.keysAt m).map fun names => names.filter fun name => m ++ [.key name] ≠ l

/-- What an edit at a location leaves alone: the nodes that are apart from it and, wherever it is
not below the location, how long a sequence is and how the other keys of a map are ordered. -/
structure LeavesRest (l : Location) (v w : Value) : Prop where
  apart : ∀ m, Apart l m → w.get? m = v.get? m
  lengths : ∀ m, ¬ l <+: m → w.lengthAt m = v.lengthAt m
  orders : ∀ m, ¬ l <+: m → keysBeside l w m = keysBeside l v m

theorem LeavesRest.refl (l : Location) (v : Value) : LeavesRest l v v :=
  ⟨fun _ _ => rfl, fun _ _ => rfl, fun _ _ => rfl⟩

/-- The length of a sequence is part of its outline. -/
theorem lengthAt_congr {v w : Value} {m : Location}
    (h : (w.get? m).bind outline = (v.get? m).bind outline) : w.lengthAt m = v.lengthAt m := by
  have hlength : ∀ u : Value, u.lengthAt m = ((u.get? m).bind outline).bind fun o =>
      match o with
      | .sequence n => some n
      | _ => none := by
    intro u
    rw [lengthAt]
    cases u.get? m with
    | none => rfl
    | some c => cases c <;> rfl
  rw [hlength, hlength, h]

theorem keysBeside_congr {v w : Value} {l m : Location} (h : w.keysAt m = v.keysAt m) :
    keysBeside l w m = keysBeside l v m := by
  rw [keysBeside, keysBeside, h]

/-- What lies neither at a location nor below is above it or apart from it. -/
theorem apart_or_above {l m : Location} (h : ¬ l <+: m) :
    Apart l m ∨ ∃ s rest, l = m ++ s :: rest := by
  by_cases hm : m <+: l
  · obtain ⟨rest, rfl⟩ := hm
    cases rest with
    | nil => simp at h
    | cons s rest => exact .inr ⟨s, rest, rfl⟩
  · exact .inl ⟨h, hm⟩

/-- An edit that spares the nodes around it leaves the rest alone if it leaves the other keys of the
maps above it. -/
theorem Spares.leavesRest {l : Location} {v w : Value} (h : Spares l v w)
    (horders : ∀ m s rest, l = m ++ s :: rest → keysBeside l w m = keysBeside l v m) :
    LeavesRest l v w := by
  refine ⟨h.apart, fun m hm => ?_, fun m hm => ?_⟩
  · rcases apart_or_above hm with hapart | ⟨s, rest, hl⟩
    · exact lengthAt_congr (congrArg (Option.bind · outline) (h.apart m hapart))
    · exact lengthAt_congr (h.above m s rest hl)
  · rcases apart_or_above hm with hapart | ⟨s, rest, hl⟩
    · apply keysBeside_congr
      rw [keysAt, keysAt, h.apart m hapart]
    · exact horders m s rest hl

theorem leavesRest_update? {v w : Value} {f : Value → Option Value} {l : Location}
    (h : v.update? f l = some w) : LeavesRest l v w := by
  apply (spares_update? h).leavesRest
  rintro m s rest rfl
  exact keysBeside_congr (keysAt_update? h fun hpre => absurd hpre.length_le (by simp))

/-- The keys of a map without one of them. -/
def keysWithout (v : Value) (s : Segment) : Option (List String) :=
  v.map?.map fun entries => (Keyed.keys entries).filter fun name => .key name ≠ s

/-- An edit at a child leaves the rest alone if it spares what is around it and leaves the other
keys of the node. -/
theorem Spares.leavesRest_concat {v w : Value} {f : Value → Option Value} {l : Location}
    {s : Segment} (hspares : Spares (l ++ [s]) v w) (h : v.update? f l = some w)
    (hkeys : ∀ c new, v.get? l = some c → f c = some new →
      new.keysWithout s = c.keysWithout s) : LeavesRest (l ++ [s]) v w := by
  apply hspares.leavesRest
  intro m t rest hl
  rcases List.eq_nil_or_concat rest with rfl | ⟨others, u, rfl⟩
  · obtain ⟨rfl, -⟩ := List.append_inj' hl rfl
    obtain ⟨c, new, hc, hnew, hw⟩ := get?_update? h
    have hat : ∀ {u d : Value}, u.get? l = some d →
        keysBeside (l ++ [s]) u l = d.keysWithout s := by
      intro u d hd
      simp only [keysBeside, keysAt, keysWithout, hd, Option.bind_some, Option.map_map,
        Function.comp_def, List.append_right_inj, List.cons.injEq, and_true, ne_eq]
    rw [hat hw, hat hc, hkeys c new hc hnew]
  · have happend : l ++ [s] = (m ++ t :: others) ++ [u] := by simpa using hl
    obtain ⟨rfl, -⟩ := List.append_inj' happend rfl
    exact keysBeside_congr (keysAt_update? h fun hpre => absurd hpre.length_le (by simp))

theorem keysWithout_map_key (entries : List (String × Value)) (name : String) :
    (map entries).keysWithout (.key name) = some ((Keyed.keys entries).filter (· ≠ name)) := by
  simp [keysWithout, map?]

theorem keysWithout_setChild? {v w c : Value} {s : Segment} (h : v.setChild? s c = some w) :
    w.keysWithout s = v.keysWithout s := by
  rcases setChild?_eq_some_iff.mp h with
    ⟨entries, name, rfl, rfl, rfl⟩ | ⟨items, n, rfl, rfl, -, rfl⟩
  · rw [keysWithout_map_key, keysWithout_map_key, Keyed.filter_keys_put]
  · rfl

theorem leavesRest_set? {v w c : Value} {l : Location} (h : v.set? l c = some w) :
    LeavesRest l v w := by
  have hspares := spares_set? h
  unfold set? at h
  cases hlast : l.getLast? with
  | none =>
    rw [List.getLast?_eq_none_iff.mp hlast] at hspares ⊢
    exact hspares.leavesRest fun m s rest hl => by simp at hl
  | some s =>
    rw [hlast] at h
    obtain ⟨parent, rfl⟩ := List.getLast?_eq_some_iff.mp hlast
    rw [List.dropLast_concat] at h
    exact hspares.leavesRest_concat h fun node new _ hnew => keysWithout_setChild? hnew

theorem leavesRest_remove? {v w c : Value} {l : Location} (h : v.remove? l = some (c, w)) :
    LeavesRest l v w := by
  have hspares := spares_remove? h
  obtain ⟨parent, name, entries, rfl, hparent, -, hw⟩ := exists_of_remove? h
  refine hspares.leavesRest_concat hw fun node new hnode hnew => ?_
  obtain rfl := Option.some.inj (hparent.symm.trans hnode)
  obtain rfl := Option.some.inj hnew
  rw [keysWithout_map_key, keysWithout_map_key, Keyed.filter_keys_erase]

/-- A child can be set where there is one, and at every key of a map. -/
theorem isSome_setChild?_iff {v : Value} {s : Segment} (new : Value) :
    (v.setChild? s new).isSome = true ↔ (v.child? s).isSome = true ∨
      ∃ name entries, s = .key name ∧ v = map entries := by
  simp only [Option.isSome_iff_exists, setChild?_eq_some_iff, child?_eq_some_iff]
  constructor
  · rintro ⟨w, ⟨entries, name, rfl, rfl, -⟩ | ⟨items, n, rfl, rfl, hn, -⟩⟩
    · exact .inr ⟨name, entries, rfl, rfl⟩
    · exact .inl ⟨items[n], .inr ⟨items, n, rfl, rfl, by simp [hn]⟩⟩
  · rintro (⟨c, ⟨entries, name, rfl, rfl, -⟩ | ⟨items, n, rfl, rfl, hn⟩⟩ |
      ⟨name, entries, rfl, rfl⟩)
    · exact ⟨_, .inl ⟨entries, name, rfl, rfl, rfl⟩⟩
    · exact ⟨_, .inr ⟨items, n, rfl, rfl, (List.getElem?_eq_some_iff.mp hn).1, rfl⟩⟩
    · exact ⟨_, .inl ⟨entries, name, rfl, rfl, rfl⟩⟩

theorem isSome_update?_iff {v : Value} {f : Value → Option Value} {l : Location} :
    (v.update? f l).isSome = true ↔ ∃ c, v.get? l = some c ∧ (f c).isSome = true := by
  constructor
  · intro h
    obtain ⟨w, hw⟩ := Option.isSome_iff_exists.mp h
    obtain ⟨c, new, hc, hnew, -⟩ := get?_update? hw
    exact ⟨c, hc, Option.isSome_of_eq_some hnew⟩
  · rintro ⟨c, hc, hsome⟩
    obtain ⟨new, hnew⟩ := Option.isSome_iff_exists.mp hsome
    obtain ⟨w, hw⟩ := exists_update? hc hnew
    exact Option.isSome_of_eq_some hw

theorem set?_concat (v : Value) (l : Location) (s : Segment) (new : Value) :
    v.set? (l ++ [s]) new = v.update? (fun parent => parent.setChild? s new) l := by
  rw [set?, List.getLast?_concat, List.dropLast_concat]

/-- A value can be set where there is one, and at every key of a map. -/
theorem isSome_set?_iff {v : Value} {l : Location} (new : Value) :
    (v.set? l new).isSome = true ↔ (v.get? l).isSome = true ∨
      ∃ parent name entries, l = parent ++ [.key name] ∧ v.get? parent = some (map entries) := by
  rcases List.eq_nil_or_concat' l with rfl | ⟨parent, s, rfl⟩
  · exact iff_of_true rfl (.inl rfl)
  · have hget : (v.get? (parent ++ [s])).isSome = true ↔
        ∃ node, v.get? parent = some node ∧ (node.child? s).isSome = true := by
      rw [get?_append, Option.isSome_bind, Option.any_eq_true]
      simp only [get?_singleton]
    rw [set?_concat, isSome_update?_iff, hget]
    constructor
    · rintro ⟨node, hnode, hset⟩
      rcases (isSome_setChild?_iff new).mp hset with hchild | ⟨name, entries, rfl, rfl⟩
      · exact .inl ⟨node, hnode, hchild⟩
      · exact .inr ⟨parent, name, entries, rfl, hnode⟩
    · rintro (⟨node, hnode, hchild⟩ | ⟨parent', name, entries, hl, hnode⟩)
      · exact ⟨node, hnode, (isSome_setChild?_iff new).mpr (.inl hchild)⟩
      · obtain ⟨rfl, hs⟩ := List.append_inj' hl rfl
        cases hs
        exact ⟨_, hnode, (isSome_setChild?_iff new).mpr (.inr ⟨name, entries, rfl, rfl⟩)⟩

theorem child?_setChild?_self {v w c : Value} {s : Segment} (h : v.setChild? s c = some w) :
    w.child? s = some c := by
  rcases setChild?_eq_some_iff.mp h with
    ⟨entries, name, rfl, rfl, rfl⟩ | ⟨items, n, rfl, rfl, hn, rfl⟩
  · exact Keyed.get?_put_self entries name c
  · exact child?_sequence.mpr ⟨n, rfl, by simp [hn]⟩

theorem get?_set? {v w new : Value} {l : Location} (h : v.set? l new = some w) :
    w.get? l = some new := by
  rcases List.eq_nil_or_concat' l with rfl | ⟨parent, s, rfl⟩
  · exact h.symm
  · rw [set?_concat] at h
    obtain ⟨node, node', -, hset, hget⟩ := get?_update? h
    rw [get?_append, hget, Option.bind_some, get?_singleton, child?_setChild?_self hset]

theorem get?_remove? {v w old : Value} {l : Location} (hv : v.WellFormed)
    (h : v.remove? l = some (old, w)) : v.get? l = some old ∧ w.get? l = none := by
  obtain ⟨parent, name, entries, rfl, hparent, hentry, hw⟩ := exists_of_remove? h
  obtain ⟨-, new, -, hnew, hget⟩ := get?_update? hw
  obtain rfl := Option.some.inj hnew
  obtain ⟨hnodup, -⟩ := wellFormed_map_iff.mp (hv.get? hparent)
  rw [get?_append, get?_append, hparent, hget, Option.bind_some, Option.bind_some, get?_singleton,
    get?_singleton]
  exact ⟨hentry, Keyed.get?_erase_self hnodup⟩

/-- A value can be removed where there is one and the last segment is a key. -/
theorem isSome_remove?_iff {v : Value} {l : Location} :
    (v.remove? l).isSome = true ↔
      (v.get? l).isSome = true ∧ ∃ parent name, l = parent ++ [.key name] := by
  constructor
  · intro h
    obtain ⟨⟨old, w⟩, hremove⟩ := Option.isSome_iff_exists.mp h
    obtain ⟨parent, name, entries, rfl, hparent, hentry, -⟩ := exists_of_remove? hremove
    refine ⟨?_, parent, name, rfl⟩
    rw [get?_append, hparent, Option.bind_some, get?_singleton]
    exact Option.isSome_of_eq_some hentry
  · rintro ⟨hsome, parent, name, rfl⟩
    obtain ⟨old, hold⟩ := Option.isSome_iff_exists.mp hsome
    have hchild := hold
    rw [get?_append, Option.bind_eq_some_iff] at hchild
    obtain ⟨node, hnode, hchild⟩ := hchild
    rw [get?_singleton] at hchild
    rcases child?_eq_some_iff.mp hchild with ⟨entries, other, rfl, hs, hentry⟩ | ⟨_, _, _, hs, _⟩
    · cases hs
      obtain ⟨w, hremove, -⟩ := remove?_eq_of_get? hnode hentry
      exact Option.isSome_of_eq_some hremove
    · cases hs

theorem isSome_take?_iff {v : Value} {l : Location} :
    (v.take? l).isSome = true ↔ (v.get? l).isSome = true := by
  constructor
  · intro h
    obtain ⟨⟨old, w⟩, htake⟩ := Option.isSome_iff_exists.mp h
    exact Option.isSome_of_eq_some (take?_eq_some_iff.mp htake).1
  · intro h
    obtain ⟨old, hold⟩ := Option.isSome_iff_exists.mp h
    obtain ⟨w, htake⟩ := exists_take? hold
    exact Option.isSome_of_eq_some htake

theorem leavesRest_take? {v w c : Value} {l : Location} (h : v.take? l = some (c, w)) :
    LeavesRest l v w :=
  leavesRest_update? (take?_eq_some_iff.mp h).2

theorem leavesRest_afterSet (v : Value) (l : Location) (new : Value) :
    LeavesRest l v (v.afterSet l new) := by
  rw [afterSet]
  cases hset : v.set? l new with
  | none => exact .refl l v
  | some w => exact leavesRest_set? hset

theorem leavesRest_afterTake (v : Value) (l : Location) : LeavesRest l v (v.afterTake l) := by
  rw [afterTake]
  cases htake : v.take? l with
  | none => exact .refl l v
  | some result => exact leavesRest_take? htake

theorem leavesRest_afterRemove (v : Value) (l : Location) :
    LeavesRest l v (v.afterRemove l) := by
  rw [afterRemove]
  cases hremove : v.remove? l with
  | none => exact .refl l v
  | some result => exact leavesRest_remove? hremove

/-- What setting a value does: it is possible where there is one and at every key of a map, and the
value is found there. -/
structure SetsLawfully (v : Value) (l : Location) (new : Value) : Prop where
  possible : (v.set? l new).isSome = true ↔ (v.get? l).isSome = true ∨
    ∃ parent name entries, l = parent ++ [.key name] ∧ v.get? parent = some (map entries)
  refused : v.set? l new = none → v.afterSet l new = v
  found : ∀ w, v.set? l new = some w → v.afterSet l new = w ∧ w.get? l = some new
  rest : LeavesRest l v (v.afterSet l new)

/-- What removing a key does: it is possible for the keys of maps, and the key is gone with the
value that is returned. -/
structure RemovesLawfully (v : Value) (l : Location) : Prop where
  possible : (v.remove? l).isSome = true ↔
    (v.get? l).isSome = true ∧ ∃ parent name, l = parent ++ [.key name]
  refused : v.remove? l = none → v.afterRemove l = v
  gone : ∀ old w, v.remove? l = some (old, w) →
    v.afterRemove l = w ∧ v.get? l = some old ∧ w.get? l = none
  rest : LeavesRest l v (v.afterRemove l)

/-- What taking a value out does: it is possible where there is one, and setting it again restores
the tree. -/
structure TakesLawfully (v : Value) (l : Location) : Prop where
  possible : (v.take? l).isSome = true ↔ (v.get? l).isSome = true
  refused : v.take? l = none → v.afterTake l = v
  restored : ∀ old w, v.take? l = some (old, w) →
    v.afterTake l = w ∧ v.get? l = some old ∧ w.set? l old = some v
  rest : LeavesRest l v (v.afterTake l)

theorem setsLawfully (v : Value) (l : Location) (new : Value) : SetsLawfully v l new where
  possible := isSome_set?_iff new
  refused h := by rw [afterSet, h, Option.getD_none]
  found w h := ⟨by rw [afterSet, h, Option.getD_some], get?_set? h⟩
  rest := leavesRest_afterSet v l new

theorem WellFormed.removesLawfully {v : Value} (hv : v.WellFormed) (l : Location) :
    RemovesLawfully v l where
  possible := isSome_remove?_iff
  refused h := by rw [afterRemove, h, Option.map_none, Option.getD_none]
  gone old w h := ⟨by rw [afterRemove, h, Option.map_some, Option.getD_some], get?_remove? hv h⟩
  rest := leavesRest_afterRemove v l

theorem takesLawfully (v : Value) (l : Location) : TakesLawfully v l where
  possible := isSome_take?_iff
  refused h := by rw [afterTake, h, Option.map_none, Option.getD_none]
  restored old w h := by
    refine ⟨?_, (take?_eq_some_iff.mp h).1, set?_of_take? h⟩
    rw [afterTake, h, Option.map_some, Option.getD_some]
  rest := leavesRest_afterTake v l

/-- All edits of a tree whose maps hold no key twice are lawful, at whatever location. -/
theorem edits_lawful {v : Value} (hv : v.WellFormed) (l : Location) (new : Value) :
    SetsLawfully v l new ∧ RemovesLawfully v l ∧ TakesLawfully v l :=
  ⟨setsLawfully v l new, hv.removesLawfully l, takesLawfully v l⟩

/-- A basket of one line. -/
def basket : Value :=
  map [("lines", sequence [map [("count", int 2), ("item", string "pen"), ("note", null)]]),
    ("total", int 2)]

theorem edits_lawful_basket :
    basket.WellFormed ∧
      basket.keysAt [.key "lines", .index 0] = some ["count", "item", "note"] ∧
      (basket.afterRemove [.key "lines", .index 0, .key "item"]).get?
        [.key "lines", .index 0, .key "item"] = none ∧
      keysBeside [.key "lines", .index 0, .key "item"]
          (basket.afterRemove [.key "lines", .index 0, .key "item"]) [.key "lines", .index 0] =
        some ["count", "note"] := by
  have hv : basket.WellFormed := by
    simp [basket, WellFormed, WellFormedItems, WellFormedEntries, Keyed.keys]
  obtain ⟨-, hremove, -⟩ := edits_lawful hv [.key "lines", .index 0, .key "item"] null
  have hsome : (basket.remove? [.key "lines", .index 0, .key "item"]).isSome = true :=
    hremove.possible.mpr ⟨rfl, [.key "lines", .index 0], "item", rfl⟩
  obtain ⟨⟨old, w⟩, hw⟩ := Option.isSome_iff_exists.mp hsome
  obtain ⟨hafter, -, hgone⟩ := hremove.gone old w hw
  refine ⟨hv, rfl, hafter ▸ hgone, ?_⟩
  rw [hremove.rest.orders [.key "lines", .index 0] (by decide)]
  rfl

end Value
end PathRules

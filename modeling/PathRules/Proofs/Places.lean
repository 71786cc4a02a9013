import Mathlib.Data.List.Nodup
import PathRules.Matches
import PathRules.Proofs.Edits
/-!
The places that a path leads to. A location has the shape of a path when it goes to a key for each
name and to an element for each marker. Main statements: the locations of a path are those of its
shape at which there is a value, each once; the matches that were found are just these, in order.
-/

namespace PathRules

theorem flatMap_eq_of_unique {α β : Type} {f : α → List β} {as : List α} (hnodup : as.Nodup)
    {a : α} (ha : a ∈ as) (hothers : ∀ b ∈ as, b ≠ a → f b = []) : as.flatMap f = f a := by
  obtain ⟨before, after, rfl⟩ := List.append_of_mem ha
  have hnot := List.nodup_cons.mp (List.nodup_middle.mp hnodup)
  have hnil : ∀ bs : List α, (∀ b ∈ bs, b ∈ before ++ after) → bs.flatMap f = [] := by
    intro bs hbs
    rw [List.flatMap_eq_nil_iff]
    intro b hb
    apply hothers b
    · rcases List.mem_append.mp (hbs b hb) with h | h <;> simp [h]
    · rintro rfl
      exact hnot.1 (hbs b hb)
  rw [List.flatMap_append, List.flatMap_cons, hnil before fun b hb => List.mem_append_left _ hb,
    hnil after fun b hb => List.mem_append_right _ hb, List.nil_append, List.append_nil]

/-- Whether a segment is of the kind that an accessor goes to. -/
def Accessor.Fits : Accessor → Segment → Prop
  | .key name, s => s = .key name
  | .each, s => ∃ i, s = .index i

/-- Whether a location has the shape of a path. -/
def Location.HasShape (l : Location) (p : Path) : Prop :=
  List.Forall₂ Accessor.Fits p l

theorem Location.HasShape.length_eq {l : Location} {p : Path} (h : l.HasShape p) :
    l.length = p.length :=
  (List.Forall₂.length_eq h).symm

/-- The segments that an accessor leads to from a value. -/
def Accessor.segments (v : Value) : Accessor → List Segment
  | .key name => [.key name]
  | .each =>
    match v with
    | .sequence items => (List.range items.length).map fun (i : Nat) => .index i
    | _ => []

/-- The locations that a path leads to, in order. -/
def Path.locations : Path → Option Value → List Location
  | _, none => []
  | [], some _ => [[]]
  | a :: rest, some v =>
    (a.segments v).flatMap fun s => (locations rest (v.child? s)).map fun l => s :: l

namespace Accessor

theorem mem_segments {a : Accessor} {v c : Value} {s : Segment} (h : v.child? s = some c) :
    s ∈ a.segments v ↔ a.Fits s := by
  cases a with
  | key name => simp [segments, Fits]
  | each =>
    rcases Value.child?_eq_some_iff.mp h with
      ⟨entries, name, rfl, rfl, -⟩ | ⟨items, n, rfl, rfl, hn⟩
    · simp [segments, Fits]
    · simp only [segments, Fits, List.mem_map, List.mem_range, Segment.index.injEq, exists_eq',
        iff_true]
      exact ⟨n, (List.getElem?_eq_some_iff.mp hn).1, rfl⟩

theorem nodup_segments (a : Accessor) (v : Value) : (a.segments v).Nodup := by
  cases a with
  | key name => simp [segments]
  | each =>
    cases v <;> simp only [segments, List.nodup_nil]
    exact List.nodup_range.map fun i j h => Int.ofNat.inj (Segment.index.inj h)

end Accessor

namespace Path

@[simp] theorem locations_none (p : Path) : p.locations none = [] := by
  cases p <;> rfl

@[simp] theorem locations_nil (v : Value) : locations [] (some v) = [[]] := rfl

theorem locations_cons (a : Accessor) (p : Path) (v : Value) :
    locations (a :: p) (some v) =
      (a.segments v).flatMap fun s => (p.locations (v.child? s)).map fun l => s :: l := rfl

/-- A path leads to the locations of its shape that exist. -/
theorem mem_locations {p : Path} {v : Value} {l : Location} :
    l ∈ p.locations (some v) ↔ l.HasShape p ∧ ∃ w, v.get? l = some w := by
  induction p generalizing v l with
  | nil =>
    rw [locations_nil, List.mem_singleton, Location.HasShape, List.forall₂_nil_left_iff]
    constructor
    · rintro rfl
      exact ⟨rfl, v, rfl⟩
    · exact fun h => h.1
  | cons a p ih =>
    simp only [locations_cons, List.mem_flatMap, List.mem_map, Location.HasShape,
      List.forall₂_cons_left_iff]
    constructor
    · rintro ⟨s, hs, rest, hrest, rfl⟩
      cases hchild : v.child? s with
      | none => simp [hchild] at hrest
      | some c =>
        rw [hchild] at hrest
        obtain ⟨hshape, w, hw⟩ := ih.mp hrest
        refine ⟨⟨s, rest, (Accessor.mem_segments hchild).mp hs, hshape, rfl⟩, w, ?_⟩
        rw [Value.get?, hchild]
        exact hw
    · rintro ⟨⟨s, rest, hfits, hshape, rfl⟩, w, hw⟩
      rw [Value.get?, Option.bind_eq_some_iff] at hw
      obtain ⟨c, hchild, hw⟩ := hw
      refine ⟨s, (Accessor.mem_segments hchild).mpr hfits, rest, ?_, rfl⟩
      rw [hchild]
      exact ih.mpr ⟨hshape, w, hw⟩

theorem nodup_locations (p : Path) (o : Option Value) : (p.locations o).Nodup := by
  induction p generalizing o with
  | nil => cases o <;> simp
  | cons a p ih =>
    cases o with
    | none => simp
    | some v =>
      rw [locations_cons, List.nodup_flatMap]
      refine ⟨fun s _ => (ih _).map List.cons_injective, ?_⟩
      apply (a.nodup_segments v).imp
      intro s t hne l hl hl'
      obtain ⟨rest, -, rfl⟩ := List.mem_map.mp hl
      obtain ⟨rest', -, heq⟩ := List.mem_map.mp hl'
      exact hne (List.cons.inj heq).1.symm

end Path

theorem Source.found_eq_found_iff (source : Source) :
    source.found = .found ↔ ∃ v, source.value? = some v := by
  cases source with
  | root v => simp [found, value?]
  | misshapen parent => simp [found, value?]
  | detached => simp [found, value?]
  | entry parent s =>
    have hchild : ∀ o : Option Value,
        (if o.isSome then Found.found else .elementNotFound) = .found ↔ ∃ v, o = some v := by
      intro o
      cases o <;> simp
    cases parent <;> cases s
    case sequence.index items i => exact hchild _
    case map.key entries name => exact hchild _
    all_goals simp [found, value?, Value.child?]

namespace Matches

/-- The locations of the matches that were found, in order. -/
def found (ms : Matches) : List Location :=
  (ms.toList.filter fun m => m.found == .found).map Match.location

theorem toListAll_eq (branches : List Matches) : toListAll branches = branches.flatMap toList := by
  induction branches with
  | nil => rfl
  | cons b rest ih => rw [toListAll, ih, List.flatMap_cons]

theorem found_elements (branches : List Matches) :
    (elements branches).found = branches.flatMap found := by
  rw [found, toList, toListAll_eq, List.filter_flatMap, List.map_flatMap]
  rfl

theorem found_fromSource (source : Source) (segment : Option Segment) (base : Location)
    (p : Path) :
    (fromSource source segment base p).found =
      (p.locations source.value?).map fun l => base ++ l := by
  induction p generalizing source segment base with
  | nil =>
    rw [fromSource, found, toList]
    cases hvalue : source.value? with
    | none =>
      have hnot : source.found ≠ .found := fun h => by
        obtain ⟨v, hv⟩ := source.found_eq_found_iff.mp h
        rw [hvalue] at hv
        contradiction
      simp [hnot]
    | some v => simp [source.found_eq_found_iff.mpr ⟨v, hvalue⟩]
  | cons a p ih =>
    cases a with
    | key name =>
      rw [fromSource, ih]
      cases hvalue : source.value? with
      | none => simp [Source.value?]
      | some v =>
        have hnext : (if v.isMap then Source.entry v (.key name) else .detached).value? =
            v.child? (.key name) := by
          cases v <;> rfl
        simp [hnext, Path.locations_cons, Accessor.segments, Function.comp_def]
    | each =>
      rw [fromSource]
      cases hvalue : source.value? with
      | none => simp [found_elements, ih, Source.value?]
      | some v =>
        cases v
        case sequence items =>
          have hitems :
              Path.locations p (Source.value? (.entry (.sequence items) .missing)) = [] := by
            simp [Source.value?, Value.child?, Segment.missing, Segment.place?]
          cases items with
          | nil =>
            simp only [found_elements, Path.locations_cons, Accessor.segments, List.length_nil,
              List.range_zero, List.map_nil, List.flatMap_nil]
            split <;> simp [ih, hitems]
          | cons item items =>
            simp only [found_elements, Path.locations_cons, Accessor.segments, List.flatMap_map,
              List.map_flatMap, ih, Source.value?, List.map_map, Function.comp_def,
              List.append_assoc, List.singleton_append]
        all_goals
          simp [found_elements, ih, Source.value?, Path.locations_cons, Accessor.segments]

/-- The matches found from a node on are the locations of the path below it. -/
theorem found_ofPathAt (p : Path) (data : Value) (base : Location) :
    (ofPathAt p data base).found =
      (p.locations (data.get? base)).map fun l => base ++ l := by
  unfold ofPathAt
  cases hbase : data.get? base with
  | none =>
    cases p with
    | nil => simp [found_fromSource, Source.value?]
    | cons a p => cases a <;> simp [found_fromSource, Source.value?]
  | some start =>
    cases p with
    | nil => simp [found_fromSource, Source.value?]
    | cons a p =>
      cases a with
      | key name =>
        simp [found_fromSource, Source.value?, Path.locations_cons, Accessor.segments,
          Function.comp_def]
      | each => simp [found_fromSource, Source.value?]

end Matches
end PathRules

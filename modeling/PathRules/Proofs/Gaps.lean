import PathRules.Proofs.Independence
/-!
The places that a path misses. Where a key or an element is not there, the rest of the path is gone
through all the same, with index -1 for each marker. Main statement: the matches that were not found
are just these gaps, in order.
-/

namespace PathRules

namespace Path

/-- The locations that a path misses, in order. An empty sequence has a missing element where the
path ends there, and none where the path goes on. -/
def gaps : Path → Option Value → List Location
  | [], none => [[]]
  | [], some _ => []
  | .key name :: rest, o =>
    (gaps rest (o.bind fun v => v.child? (.key name))).map fun l => .key name :: l
  | .each :: rest, o =>
    match o with
    | some (.sequence []) => if rest.isEmpty then [[.missing]] else []
    | some (.sequence items) => (List.range items.length).flatMap fun (i : Nat) =>
        (gaps rest ((Value.sequence items).child? (.index i))).map fun l => .index i :: l
    | _ => (gaps rest none).map fun l => .missing :: l

theorem gaps_cons (a : Accessor) (rest : Path) (o : Option Value) :
    gaps (a :: rest) o = (a.taken o rest).flatMap fun s =>
      (gaps rest (o.bind fun v => v.child? s)).map fun l => s :: l := by
  cases a with
  | key name => simp [gaps, Accessor.taken]
  | each =>
    cases o with
    | none => simp [gaps, Accessor.taken]
    | some v =>
      cases v with
      | sequence items =>
        cases items with
        | nil => cases rest <;> simp [gaps, Accessor.taken, Value.child?_missing]
        | cons item items => simp [gaps, Accessor.taken, List.flatMap_map]
      | _ => simp [gaps, Accessor.taken, Value.child?_missing]

/-- The gaps of a path are its ways that lead to no value. -/
theorem gaps_eq_filter (p : Path) (o : Option Value) :
    p.gaps o = (p.ways o).filter fun l => (o.bind fun v => v.get? l).isNone := by
  induction p generalizing o with
  | nil => cases o <;> simp [gaps, ways]
  | cons a rest ih =>
    rw [gaps_cons, ways_cons, List.filter_flatMap]
    apply List.flatMap_congr
    intro s _
    rw [ih, List.filter_map]
    simp [Function.comp_def, Value.get?, Option.bind_assoc]

theorem gaps_none (p : Path) : p.gaps none = [p.fill] := by
  rw [gaps_eq_filter, ways_none]
  rfl

end Path

namespace RunState

/-- The locations of places that were not found. -/
def missingPlaces (ps : List (Location × Found)) : List Location :=
  (ps.filter fun p => p.2 != .found).map Prod.fst

theorem mem_missingPlaces {ps : List (Location × Found)} {l : Location} :
    l ∈ missingPlaces ps ↔ ∃ how ≠ Found.found, (l, how) ∈ ps := by
  simp [missingPlaces, and_comm]

/-- The matches that were not found are the gaps of the path. -/
theorem missingPlaces_fromSource (source : Source) (segment : Option Segment) (base : Location)
    (p : Path) :
    missingPlaces (places (Matches.fromSource source segment base p)) =
      (p.gaps source.value?).map fun l => base ++ l := by
  have hmissing : ∀ l, ((source.descend l).found != .found) =
      (source.value?.bind fun v => v.get? l).isNone := by
    intro l
    rw [← source.value?_descend, Bool.eq_iff_iff, bne_iff_ne, Ne, Source.found_eq_found_iff,
      Option.isNone_iff_eq_none, Option.eq_none_iff_forall_not_mem]
    simp
  rw [missingPlaces, places, Matches.toList_fromSource, List.map_map, List.filter_map,
    List.map_map, Path.gaps_eq_filter]
  simp only [Function.comp_def, Source.matchAt, hmissing]

theorem missingPlaces_ofPath (p : Path) (data : Value) :
    missingPlaces (places (Matches.ofPath p data)) = p.gaps (some data) := by
  rw [places_ofPath, missingPlaces_fromSource]
  simp [Source.value?]

/-- Where a path leads nowhere and misses one location, that is its only place. -/
theorem exists_places_eq {ps : List (Location × Found)} {l : Location}
    (hfound : foundPlaces ps = []) (hmissing : missingPlaces ps = [l]) :
    ∃ how ≠ Found.found, ps = [(l, how)] := by
  have hall : ps.filter (fun p => p.2 != .found) = ps := by
    rw [List.filter_eq_self]
    intro place hplace
    rw [bne_iff_ne]
    intro hhow
    have hmem : place.1 ∈ foundPlaces ps := mem_foundPlaces.mpr (hhow ▸ hplace)
    rw [hfound] at hmem
    contradiction
  rw [missingPlaces, hall] at hmissing
  obtain ⟨place, rfl, rfl⟩ := List.map_eq_singleton_iff.mp hmissing
  refine ⟨place.2, ?_, rfl⟩
  rintro hhow
  rw [List.filter_eq_self] at hall
  exact absurd hhow (bne_iff_ne.mp (hall place List.mem_cons_self))

/-- What a chain of local validators does at a place that was not found: it reports the absence. -/
theorem react_missing {options : RunOptions} {chain : FieldChain} {reaction : Reaction}
    (hlocal : ∀ v ∈ chain.head.validators, v.Local) (hreacts : Reacts options chain reaction)
    (o : Observed) (l : Location) {how : Found} (hhow : how ≠ .found) :
    react reaction o (l, how) = some { o with
      errors := (absenceTexts options chain.head l).foldl (fun t m => t.add l m) o.errors } := by
  let s : RunState := { data := o.data, errors := o.errors, failures := o.failures.toList }
  have hseen : s.seen = o := by
    ext1
    · rfl
    · rfl
    · exact Multiset.coe_toList o.failures
  have hvisit : visit options chain.items chain.head s (l, how) =
      s.absent options chain.head l := by
    rw [visit, if_neg (by simp [s]), if_pos (by simpa using hhow)]
  have hacts := hreacts (l, how) (o.data.get? l) (fun h => absurd h hhow) s rfl rfl
  dsimp only at hacts
  rw [hseen, hvisit, absent_local hlocal, observed_of_running rfl] at hacts
  rw [react, ← hacts, ← hseen]
  rfl

end RunState

end PathRules

import PathRules.Proofs.Walks
/-!
The ways of a path. A path has a match at each of its ways and nowhere else: a way takes elements
that exist, up to a marker whose sequence has none; index -1 stands for that marker and all behind
it. Main statement: each choice of existing elements leads to one match, and a match that is not
found says whether only its last step is missing or a container before it.
-/

namespace PathRules

/-! ### Sources -/

theorem Value.child?_missing (v : Value) : v.child? .missing = none := by
  cases v <;> rfl

theorem Value.bind_child?_missing (o : Option Value) :
    (o.bind fun v => v.child? .missing) = none := by
  cases o with
  | none => rfl
  | some v => exact v.child?_missing

namespace Source

/-- Where the value behind a segment comes from. -/
def child (source : Source) (s : Segment) : Source :=
  match source.value?, s with
  | none, _ => .detached
  | some v, .key _ => if v.isMap then .entry v s else .detached
  | some v, .index _ => if v.isSequence then .entry v s else .misshapen v

/-- Where the value at a location below comes from. -/
def descend (source : Source) (l : Location) : Source :=
  l.foldl child source

theorem value?_child (source : Source) (s : Segment) :
    (source.child s).value? = source.value?.bind fun v => v.child? s := by
  unfold child
  cases source.value? with
  | none => rfl
  | some v => cases s <;> cases v <;> rfl

theorem value?_descend (source : Source) (l : Location) :
    (source.descend l).value? = source.value?.bind fun v => v.get? l := by
  induction l generalizing source with
  | nil => exact (Option.bind_fun_some _).symm
  | cons s rest ih =>
    have hdescend : source.descend (s :: rest) = (source.child s).descend rest := rfl
    rw [hdescend, ih, value?_child, Option.bind_assoc]
    rfl

theorem child_congr {source source' : Source} (h : source'.value? = source.value?)
    (s : Segment) : source'.child s = source.child s := by
  unfold child
  rw [h]

theorem detached_descend (l : Location) : detached.descend l = .detached := by
  induction l with
  | nil => rfl
  | cons s rest ih => exact ih

/-- An element or a key is missing where a value is there to hold it. -/
theorem found_child_eq_elementNotFound_iff (source : Source) (s : Segment) :
    (source.child s).found = .elementNotFound ↔
      ∃ v, source.value? = some v ∧ v.child? s = none ∧ (v.isMap = true ∨ ∃ i, s = .index i) := by
  have hchild : ∀ o : Option Value,
      (if o.isSome then Found.found else .elementNotFound) = .elementNotFound ↔ o = none := by
    intro o
    cases o <;> simp
  unfold child
  cases source.value? with
  | none => simp [found]
  | some v =>
    cases s <;> cases v
    case key.map name entries => simp [found, Value.isMap, hchild]
    case index.sequence i items => simp [found, Value.isSequence, hchild]
    all_goals simp [found, Value.isMap, Value.isSequence, Value.child?]

/-- The first name of a path is looked up in the root, whatever it is. -/
theorem found_entry_key (v : Value) (name : String) :
    (entry v (.key name)).found = ((root v).child (.key name)).found := by
  cases v <;> rfl

end Source

/-! ### Ways -/

/-- The segments that an accessor takes from a value, with -1 for an element that is missing. In an
empty sequence an element is missing only where the path ends with it. -/
def Accessor.taken (o : Option Value) (rest : Path) : Accessor → List Segment
  | .key name => [.key name]
  | .each =>
    match o with
    | some (.sequence []) => if rest.isEmpty then [.missing] else []
    | some (.sequence items) => (List.range items.length).map fun (i : Nat) => .index i
    | _ => [.missing]

namespace Path

/-- The location of a path whose elements are all missing. -/
def fill : Path → Location
  | [] => []
  | .key name :: rest => .key name :: fill rest
  | .each :: rest => .missing :: fill rest

/-- The locations of all matches of a path, in order. -/
def ways : Path → Option Value → List Location
  | [], _ => [[]]
  | a :: rest, o =>
    (a.taken o rest).flatMap fun s =>
      (ways rest (o.bind fun v => v.child? s)).map fun l => s :: l

end Path

/-! ### Choices of elements -/

/-- Whether an accessor goes to a segment, which has to exist if it is an element. -/
def Accessor.GoesTo (a : Accessor) (o : Option Value) (s : Segment) : Prop :=
  a.Fits s ∧ ∀ i, s = .index i → ∃ c, (o.bind fun v => v.child? s) = some c

/-- Whether a location spells a path with the indices of elements that exist. -/
structure Location.Picks (l : Location) (p : Path) (o : Option Value) : Prop where
  shape : l.HasShape p
  element : ∀ front i, front ++ [.index i] <+: l →
    ∃ c, (o.bind fun v => v.get? (front ++ [.index i])) = some c

/-- Whether there is no element for a marker to go to. -/
def NoElement (o : Option Value) : Prop :=
  ∀ item items, o ≠ some (.sequence (item :: items))

theorem Location.picks_nil (o : Option Value) : Picks [] [] o := by
  refine ⟨.nil, fun front i hpre => ?_⟩
  simpa using List.prefix_nil.mp hpre

theorem Location.picks_cons {s : Segment} {l : Location} {a : Accessor} {p : Path}
    {o : Option Value} :
    Picks (s :: l) (a :: p) o ↔
      a.GoesTo o s ∧ l.Picks p (o.bind fun v => v.child? s) := by
  have hget : ∀ m : Location, (o.bind fun v => v.get? (s :: m)) =
      (o.bind fun v => v.child? s).bind fun v => v.get? m := by
    intro m
    rw [Option.bind_assoc]
    rfl
  constructor
  · rintro ⟨hshape, helement⟩
    obtain ⟨hfits, hrest⟩ := List.forall₂_cons.mp hshape
    refine ⟨⟨hfits, fun i hi => ?_⟩, hrest, fun front i hpre => ?_⟩
    · obtain ⟨c, hc⟩ := helement [] i (by simp [hi])
      rw [List.nil_append, ← hi, hget] at hc
      exact ⟨c, by simpa using hc⟩
    · obtain ⟨c, hc⟩ := helement (s :: front) i ((List.prefix_cons_inj s).mpr hpre)
      rw [List.cons_append, hget] at hc
      exact ⟨c, hc⟩
  · rintro ⟨⟨hfits, hchild⟩, hshape, helement⟩
    refine ⟨List.forall₂_cons.mpr ⟨hfits, hshape⟩, fun front i hpre => ?_⟩
    cases front with
    | nil =>
      obtain ⟨c, hc⟩ := hchild i (List.cons_prefix_cons.mp hpre).1.symm
      rw [List.nil_append, (List.cons_prefix_cons.mp hpre).1, hget, hc]
      exact ⟨c, rfl⟩
    | cons t front =>
      obtain ⟨rfl, hrest⟩ := List.cons_prefix_cons.mp hpre
      rw [List.cons_append, hget]
      exact helement front i hrest

theorem Accessor.key_goesTo_iff {name : String} {o : Option Value} {s : Segment} :
    GoesTo (.key name) o s ↔ s = .key name := by
  constructor
  · exact fun h => h.1
  · rintro rfl
    exact ⟨rfl, by simp⟩

theorem Accessor.each_goesTo_iff {o : Option Value} {s : Segment} :
    GoesTo .each o s ↔ ∃ (items : List Value) (n : Nat),
      o = some (.sequence items) ∧ n < items.length ∧ s = .index n := by
  constructor
  · rintro ⟨⟨i, rfl⟩, hchild⟩
    obtain ⟨c, hc⟩ := hchild i rfl
    obtain ⟨v, rfl, hc⟩ := Option.bind_eq_some_iff.mp hc
    rcases Value.child?_eq_some_iff.mp hc with ⟨_, _, -, hkey, -⟩ | ⟨items, n, rfl, hs, hn⟩
    · cases hkey
    · exact ⟨items, n, rfl, (List.getElem?_eq_some_iff.mp hn).1, hs⟩
  · rintro ⟨items, n, rfl, hn, rfl⟩
    refine ⟨⟨n, rfl⟩, fun _ _ => ⟨items[n], ?_⟩⟩
    exact Value.child?_sequence.mpr ⟨n, rfl, List.getElem?_eq_getElem hn⟩

/-- An accessor takes the segments of its kind, an element only if it exists. Where there is no
element for a marker it takes index -1, unless a sequence is empty and the path goes on. -/
theorem Accessor.mem_taken {a : Accessor} {o : Option Value} {rest : Path} {s : Segment} :
    s ∈ a.taken o rest ↔
      a.GoesTo o s ∨
        (a = .each ∧ s = .missing ∧ NoElement o ∧ (o = some (.sequence []) → rest = [])) := by
  cases a with
  | key name => simp [taken, key_goesTo_iff]
  | each =>
    rw [each_goesTo_iff]
    cases o with
    | none => simp [taken, NoElement]
    | some v =>
      cases v with
      | sequence items =>
        cases items with
        | nil => cases rest <;> simp [taken, NoElement]
        | cons item items => simp [taken, NoElement, eq_comm]
      | _ => simp [taken, NoElement]

theorem Accessor.nodup_taken (a : Accessor) (o : Option Value) (rest : Path) :
    (a.taken o rest).Nodup := by
  unfold taken
  split
  · exact List.nodup_singleton _
  · split
    · split <;> simp
    · exact List.nodup_range.map fun i j h => Int.ofNat.inj (Segment.index.inj h)
    · exact List.nodup_singleton _

namespace Path

theorem hasShape_fill (p : Path) : p.fill.HasShape p := by
  induction p with
  | nil => exact .nil
  | cons a rest ih =>
    cases a with
    | key name => exact .cons rfl ih
    | each => exact .cons ⟨_, rfl⟩ ih

theorem ways_cons (a : Accessor) (rest : Path) (o : Option Value) :
    ways (a :: rest) o = (a.taken o rest).flatMap fun s =>
      (ways rest (o.bind fun v => v.child? s)).map fun l => s :: l := rfl

theorem ways_none (p : Path) : p.ways none = [p.fill] := by
  induction p with
  | nil => rfl
  | cons a rest ih => cases a <;> simp [ways_cons, Accessor.taken, fill, ih]

theorem cons_mem_ways {s : Segment} {l : Location} {a : Accessor} {rest : Path}
    {o : Option Value} :
    s :: l ∈ ways (a :: rest) o ↔
      s ∈ a.taken o rest ∧ l ∈ ways rest (o.bind fun v => v.child? s) := by
  simp only [ways_cons, List.mem_flatMap, List.mem_map, List.cons.injEq]
  constructor
  · rintro ⟨t, ht, m, hm, rfl, rfl⟩
    exact ⟨ht, hm⟩
  · rintro ⟨hs, hl⟩
    exact ⟨s, hs, l, hl, rfl, rfl⟩

theorem hasShape_of_mem_ways {p : Path} {o : Option Value} {l : Location} (h : l ∈ p.ways o) :
    l.HasShape p := by
  induction p generalizing o l with
  | nil =>
    rw [ways, List.mem_singleton] at h
    exact h ▸ .nil
  | cons a p ih =>
    cases l with
    | nil => simp [ways_cons] at h
    | cons s l =>
      obtain ⟨hs, hl⟩ := cons_mem_ways.mp h
      rcases Accessor.mem_taken.mp hs with hgoes | ⟨rfl, rfl, -⟩
      · exact .cons hgoes.1 (ih hl)
      · exact .cons ⟨_, rfl⟩ (ih hl)

theorem nodup_ways (p : Path) (o : Option Value) : (p.ways o).Nodup := by
  induction p generalizing o with
  | nil => exact List.nodup_singleton _
  | cons a rest ih =>
    rw [ways_cons, List.nodup_flatMap]
    refine ⟨fun s _ => (ih _).map List.cons_injective, ?_⟩
    apply (a.nodup_taken o rest).imp
    intro s t hne l hl hl'
    obtain ⟨m, -, rfl⟩ := List.mem_map.mp hl
    obtain ⟨m', -, heq⟩ := List.mem_map.mp hl'
    exact hne (List.cons.inj heq).1.symm

/-- The ways that begin with a choice of elements are those of the rest of the path from there. -/
theorem filter_ways {q r : Path} {front : Location} {o : Option Value} (h : front.Picks q o) :
    ((q ++ r).ways o).filter (fun l => front <+: l) =
      (r.ways (o.bind fun v => v.get? front)).map fun l => front ++ l := by
  induction q generalizing front o with
  | nil =>
    rw [List.forall₂_nil_left_iff.mp h.shape]
    simp
  | cons a q ih =>
    obtain ⟨s, front, -, -, rfl⟩ := List.forall₂_cons_left_iff.mp h.shape
    obtain ⟨hs, hfront⟩ := Location.picks_cons.mp h
    have hmem : s ∈ a.taken o (q ++ r) := Accessor.mem_taken.mpr (Or.inl hs)
    rw [List.cons_append, ways_cons, List.filter_flatMap,
      flatMap_eq_of_unique (a.nodup_taken o _) hmem]
    · have hpre : (fun l : Location => decide (s :: front <+: s :: l)) =
          fun l => decide (front <+: l) := by
        simp
      rw [List.filter_map, Function.comp_def, hpre, ih hfront, List.map_map, Option.bind_assoc]
      rfl
    · intro t _ hne
      rw [List.filter_eq_nil_iff]
      rintro l hl hpre
      obtain ⟨m, -, rfl⟩ := List.mem_map.mp hl
      exact hne (List.cons_prefix_cons.mp (of_decide_eq_true hpre)).1.symm

/-- A way takes elements that exist, on to the end or up to a marker that has none. -/
theorem exists_of_mem_ways {p : Path} {o : Option Value} {l : Location} (h : l ∈ p.ways o) :
    l.Picks p o ∨ ∃ (q rest : Path) (front : Location), p = q ++ .each :: rest ∧
      front.Picks q o ∧ NoElement (o.bind fun v => v.get? front) ∧
      l = front ++ .missing :: rest.fill := by
  induction p generalizing o l with
  | nil =>
    rw [ways, List.mem_singleton] at h
    exact Or.inl (h ▸ Location.picks_nil o)
  | cons a p ih =>
    cases l with
    | nil => simp [ways_cons] at h
    | cons s l =>
      obtain ⟨hs, hl⟩ := cons_mem_ways.mp h
      rcases Accessor.mem_taken.mp hs with hstep | ⟨rfl, rfl, hnone, -⟩
      · rcases ih hl with hpicks | ⟨q, rest, front, rfl, hfront, hnone, rfl⟩
        · exact Or.inl (Location.picks_cons.mpr ⟨hstep, hpicks⟩)
        · refine Or.inr ⟨a :: q, rest, s :: front, rfl, Location.picks_cons.mpr ⟨hstep, hfront⟩,
            ?_, rfl⟩
          rwa [Option.bind_assoc] at hnone
      · rw [Value.bind_child?_missing, ways_none, List.mem_singleton] at hl
        refine Or.inr ⟨[], p, [], rfl, Location.picks_nil o, ?_, by rw [hl, List.nil_append]⟩
        simpa using hnone

/-- Where a marker has no element, the path goes on with index -1. -/
theorem ways_each_of_noElement {o : Option Value} {rest : Path} (hnone : NoElement o)
    (hrest : o = some (.sequence []) → rest = []) :
    ways (.each :: rest) o = [.missing :: rest.fill] := by
  have htaken : Accessor.each.taken o rest = [.missing] := by
    cases o with
    | none => rfl
    | some v =>
      cases v with
      | sequence items =>
        cases items with
        | nil => simp [Accessor.taken, hrest rfl]
        | cons item items => exact absurd rfl (hnone item items)
      | _ => rfl
  rw [ways_cons, htaken, List.flatMap_singleton, Value.bind_child?_missing, ways_none,
    List.map_singleton]

/-- A path that goes on behind an empty sequence has no way. -/
theorem ways_each_of_empty {rest : Path} (hrest : rest ≠ []) :
    ways (.each :: rest) (some (.sequence [])) = [] := by
  simp [ways_cons, Accessor.taken, hrest]

theorem eq_missing_of_mem_fill {p : Path} {i : Int} (h : .index i ∈ p.fill) :
    Segment.index i = .missing := by
  induction p with
  | nil => simp [fill] at h
  | cons a rest ih =>
    cases a with
    | key name => exact ih (by simpa [fill] using h)
    | each =>
      rcases List.mem_cons.mp h with h | h
      · exact h
      · exact ih h

/-- The last index of a way is that of an element that exists, or -1. -/
theorem eq_missing_of_concat_mem_ways {p : Path} {o : Option Value} {front : Location} {i : Int}
    (h : front ++ [.index i] ∈ p.ways o)
    (hnone : (o.bind fun v => v.get? (front ++ [.index i])) = none) :
    Segment.index i = .missing := by
  rcases exists_of_mem_ways h with hpicks | ⟨q, rest, before, -, -, -, heq⟩
  · obtain ⟨c, hc⟩ := hpicks.element front i List.prefix_rfl
    rw [hnone] at hc
    contradiction
  · have hlast : (Segment.missing :: rest.fill).getLast? = some (.index i) := by
      have hboth := congrArg List.getLast? heq
      rw [List.getLast?_concat, List.getLast?_append_cons] at hboth
      exact hboth.symm
    rcases List.mem_cons.mp (List.mem_of_getLast? hlast) with h | h
    · exact h
    · exact eq_missing_of_mem_fill h

end Path

/-! ### Matches -/

/-- Whether only the last step to a location is missing: what should hold the value is there, and is
a map without the key, or the element has index -1. -/
def Location.LacksLast (l : Location) (data : Value) : Prop :=
  ∃ v, data.get? l.parent = some v ∧
    ((∃ entries name, v = .map entries ∧ l.getLast? = some (.key name) ∧
      name ∉ Keyed.keys entries) ∨ l.getLast? = some .missing)

theorem Source.found_descend_eq_elementNotFound_iff {p : Path} {data : Value} {l : Location}
    (h : l ∈ p.ways (some data)) :
    ((root data).descend l).found = .elementNotFound ↔ l.LacksLast data := by
  rcases List.eq_nil_or_concat' l with rfl | ⟨front, s, rfl⟩
  · simp [descend, found, Location.LacksLast, Segment.missing]
  · have hdescend : (root data).descend (front ++ [s]) = ((root data).descend front).child s :=
      List.foldl_append
    have hvalue : ((root data).descend front).value? = data.get? front := by
      rw [value?_descend]
      rfl
    rw [hdescend, found_child_eq_elementNotFound_iff, hvalue, Location.LacksLast, Location.parent,
      List.dropLast_concat, List.getLast?_concat]
    refine exists_congr fun v => and_congr_right fun hv => ?_
    constructor
    · rintro ⟨hnone, hkind⟩
      cases s with
      | key name =>
        cases v <;> simp [Value.isMap] at hkind
        case map entries =>
          exact Or.inl ⟨entries, name, rfl, rfl, (Keyed.get?_eq_none_iff _ _).mp hnone⟩
      | index i =>
        refine Or.inr (congrArg some (Path.eq_missing_of_concat_mem_ways h ?_))
        rw [Option.bind_some, Value.get?_append, hv, Option.bind_some, Value.get?, hnone]
        rfl
    · rintro (⟨entries, name, rfl, hs, hnot⟩ | hs)
      · cases hs
        exact ⟨(Keyed.get?_eq_none_iff _ _).mpr hnot, Or.inl rfl⟩
      · cases hs
        exact ⟨v.child?_missing, Or.inr ⟨_, rfl⟩⟩

/-- The match that a location shows below a source. -/
def Source.matchAt (source : Source) (segment : Option Segment) (base l : Location) : Match :=
  ⟨(source.descend l).value?, (source.descend l).parent?, l.getLast?.or segment, base ++ l,
    (source.descend l).found⟩

theorem Source.matchAt_cons (source : Source) (segment : Option Segment) (base : Location)
    (s : Segment) (l : Location) :
    source.matchAt segment base (s :: l) =
      (source.child s).matchAt (some s) (base ++ [s]) l := by
  have hsegment : (s :: l).getLast?.or segment = l.getLast?.or (some s) := by
    rw [List.getLast?_cons]
    cases l.getLast? <;> rfl
  rw [matchAt, matchAt, hsegment, List.append_assoc]
  rfl

namespace Matches

theorem fromSource_key (source : Source) (segment : Option Segment) (base : Location)
    (name : String) (rest : Path) :
    fromSource source segment base (.key name :: rest) =
      fromSource (source.child (.key name)) (some (.key name)) (base ++ [.key name]) rest := by
  cases hvalue : source.value? <;> simp only [fromSource, Source.child, hvalue]

theorem fromSource_each (source : Source) (segment : Option Segment) (base : Location)
    (rest : Path) :
    fromSource source segment base (.each :: rest) =
      elements ((Accessor.each.taken source.value? rest).map fun s =>
        fromSource (source.child s) (some s) (base ++ [s]) rest) := by
  rw [fromSource]
  cases hvalue : source.value? with
  | none => simp [Accessor.taken, Source.child, hvalue]
  | some v =>
    cases v with
    | sequence items =>
      cases items with
      | nil =>
        cases rest <;>
          simp [Accessor.taken, Source.child, hvalue, Segment.missing, Value.isSequence]
      | cons item items => simp [Accessor.taken, Source.child, hvalue, Value.isSequence]
    | _ => simp [Accessor.taken, Source.child, hvalue, Segment.missing, Value.isSequence]

theorem toList_fromSource_cons (source : Source) (segment : Option Segment) (base : Location)
    (a : Accessor) (rest : Path) :
    (fromSource source segment base (a :: rest)).toList =
      (a.taken source.value? rest).flatMap fun s =>
        (fromSource (source.child s) (some s) (base ++ [s]) rest).toList := by
  cases a with
  | key name => rw [fromSource_key, Accessor.taken, List.flatMap_singleton]
  | each => rw [fromSource_each, toList, toListAll_eq, List.flatMap_map]

/-- The matches of a path are what its ways show. -/
theorem toList_fromSource (source : Source) (segment : Option Segment) (base : Location)
    (p : Path) :
    (fromSource source segment base p).toList =
      (p.ways source.value?).map (source.matchAt segment base) := by
  induction p generalizing source segment base with
  | nil =>
    rw [fromSource, toList, Path.ways, List.map_singleton, Source.matchAt, List.append_nil]
    rfl
  | cons a rest ih =>
    rw [toList_fromSource_cons, Path.ways_cons, List.map_flatMap]
    apply List.flatMap_congr
    intro s _
    rw [ih, Source.value?_child, List.map_map]
    apply List.map_congr_left
    intro l _
    exact (source.matchAt_cons segment base s l).symm

/-- What the matches of a path say of the data, match by match. -/
theorem map_toList_ofPath (p : Path) (data : Value) :
    ((ofPath p data).toList.map fun m => (m.location, m.value, m.found)) =
      (p.ways (some data)).map fun l =>
        (l, data.get? l, ((Source.root data).descend l).found) := by
  rcases p with _ | ⟨name | _, rest⟩
  · rfl
  · have hpath : ofPath (.key name :: rest) data =
      fromSource (.entry data (.key name)) (some (.key name)) [.key name] rest := rfl
    rw [hpath, toList_fromSource, Path.ways_cons, Accessor.taken, List.flatMap_singleton,
      List.map_map, List.map_map]
    apply List.map_congr_left
    intro l _
    have hvalue : (Source.entry data (.key name)).value? =
        ((Source.root data).child (.key name)).value? := by
      rw [Source.value?_child]
      rfl
    have hfound : ((Source.entry data (.key name)).descend l).found =
        ((Source.root data).descend (.key name :: l)).found := by
      cases l with
      | nil => exact Source.found_entry_key data name
      | cons s l =>
        have hchild := Source.child_congr hvalue s
        exact congrArg (fun source => (source.descend l).found) hchild
    simp only [Function.comp_apply, Source.matchAt, Source.value?_descend, hfound]
    rfl
  · have hpath : ofPath (.each :: rest) data =
      fromSource (.root data) none [] (.each :: rest) := rfl
    rw [hpath, toList_fromSource, List.map_map]
    apply List.map_congr_left
    intro l _
    simp only [Function.comp_apply, Source.matchAt, Source.value?_descend]
    rfl

theorem map_location_ofPath (p : Path) (data : Value) :
    (ofPath p data).toList.map Match.location = p.ways (some data) := by
  have h := congrArg (List.map Prod.fst) (map_toList_ofPath p data)
  simp only [List.map_map, Function.comp_def, List.map_id'] at h
  exact h

/-- A match says that it was not found where there is no value, and which step is missing. -/
theorem missing_of_mem_ofPath {p : Path} {data : Value} {m : Match}
    (hm : m ∈ (ofPath p data).toList) (hfound : m.found ≠ .found) :
    m.value = none ∧ (m.found = .elementNotFound ↔ m.location.LacksLast data) ∧
      (m.found = .parentNotFound ↔ ¬ m.location.LacksLast data) := by
  have hmem := List.mem_map_of_mem (f := fun m : Match => (m.location, m.value, m.found)) hm
  rw [map_toList_ofPath] at hmem
  obtain ⟨l, hl, heq⟩ := List.mem_map.mp hmem
  obtain ⟨hlocation, hvalue, hclass⟩ : l = m.location ∧ data.get? l = m.value ∧
      ((Source.root data).descend l).found = m.found := by
    simpa using heq
  subst hlocation
  have hlacks := Source.found_descend_eq_elementNotFound_iff hl
  rw [hclass] at hlacks
  refine ⟨?_, hlacks, ?_⟩
  · rw [← hvalue]
    cases hget : data.get? m.location with
    | none => rfl
    | some v =>
      refine absurd ?_ hfound
      rw [← hclass, Source.found_eq_found_iff, Source.value?_descend]
      exact ⟨v, hget⟩
  · rw [← hlacks]
    cases hkind : m.found with
    | found => exact absurd hkind hfound
    | elementNotFound => simp
    | parentNotFound => simp

/-- Every choice of elements that exist for all markers of a path has one match. Where a choice for
the first markers comes to a value without elements, it has one match in which index -1 stands for
all further markers, or none if that value is an empty sequence and the path goes on behind it.
There are no other matches. A match that is not found has no value, and says that an element was
not found where only the last step to it is missing. -/
theorem visits_complete (p : Path) (data : Value) :
    let visits := (ofPath p data).visits
    let locations := visits.map Match.location
    (∀ l : Location, l.Picks p (some data) → locations.filter (fun m => l <+: m) = [l]) ∧
    (∀ (q rest : Path) (front : Location), p = q ++ .each :: rest → front.Picks q (some data) →
      NoElement (data.get? front) →
      ((data.get? front = some (.sequence []) → rest = []) →
        locations.filter (fun m => front <+: m) = [front ++ .missing :: rest.fill]) ∧
      (data.get? front = some (.sequence []) → rest ≠ [] →
        locations.filter (fun m => front <+: m) = [])) ∧
    (∀ l ∈ locations, l.Picks p (some data) ∨
      ∃ (q rest : Path) (front : Location), p = q ++ .each :: rest ∧
        front.Picks q (some data) ∧ NoElement (data.get? front) ∧
        l = front ++ .missing :: rest.fill) ∧
    ∀ m ∈ visits, m.found ≠ .found →
      m.value = none ∧ (m.found = .elementNotFound ↔ m.location.LacksLast data) ∧
        (m.found = .parentNotFound ↔ ¬ m.location.LacksLast data) := by
  intro visits locations
  have hlocations : locations = p.ways (some data) := by
    rw [← map_location_ofPath, ← visits_eq]
  rw [hlocations]
  refine ⟨fun l hl => ?_, ?_, fun l hl => Path.exists_of_mem_ways hl, fun m hm hfound => ?_⟩
  · have hfilter := Path.filter_ways (r := []) hl
    rw [List.append_nil] at hfilter
    rw [hfilter, Path.ways, List.map_singleton, List.append_nil]
  · rintro q rest front rfl hfront hnone
    have hfilter := Path.filter_ways (r := .each :: rest) hfront
    rw [Option.bind_some] at hfilter
    rw [hfilter]
    constructor
    · intro hrest
      rw [Path.ways_each_of_noElement hnone hrest, List.map_singleton]
    · intro hempty hrest
      rw [hempty, Path.ways_each_of_empty hrest, List.map_nil]
  · have hmem : m ∈ (ofPath p data).toList := by
      rwa [← visits_eq]
    exact missing_of_mem_ofPath hmem hfound

theorem visits_complete_seats :
    let data : Value := .map [("rows", .sequence [.sequence [.map []], .bool true, .sequence []])]
    let visits := (ofPath [.key "rows", .each, .each, .key "seat"] data).visits
    let locations := visits.map Match.location
    let seat : Location := [.key "rows", .index 0, .index 0, .key "seat"]
    let row (i : Nat) : Location := [.key "rows", .index i]
    locations.filter (fun m => seat <+: m) = [seat] ∧
      locations.filter (fun m => row 1 <+: m) = [row 1 ++ .missing :: Path.fill [.key "seat"]] ∧
      locations.filter (fun m => row 2 <+: m) = [] ∧
      ∃ m ∈ visits, m.location = row 1 ++ .missing :: Path.fill [.key "seat"] ∧
        m.value = none ∧ ¬ m.location.LacksLast data := by
  intro data visits locations seat row
  have hrow : ∀ i, i < 3 → (row i).Picks [.key "rows", .each] (some data) := by
    intro i hi
    exact Location.picks_cons.mpr ⟨Accessor.key_goesTo_iff.mpr rfl, Location.picks_cons.mpr
      ⟨Accessor.each_goesTo_iff.mpr ⟨_, i, rfl, hi, rfl⟩, Location.picks_nil _⟩⟩
  have hseat : seat.Picks [.key "rows", .each, .each, .key "seat"] (some data) :=
    Location.picks_cons.mpr ⟨Accessor.key_goesTo_iff.mpr rfl, Location.picks_cons.mpr
      ⟨Accessor.each_goesTo_iff.mpr ⟨_, 0, rfl, by decide, rfl⟩, Location.picks_cons.mpr
        ⟨Accessor.each_goesTo_iff.mpr ⟨_, 0, rfl, by decide, rfl⟩, Location.picks_cons.mpr
          ⟨Accessor.key_goesTo_iff.mpr rfl, Location.picks_nil _⟩⟩⟩⟩
  obtain ⟨hall, hsome, -, hclass⟩ := visits_complete [.key "rows", .each, .each, .key "seat"] data
  refine ⟨hall seat hseat, ?_, ?_, ?_⟩
  · refine (hsome [.key "rows", .each] [.key "seat"] (row 1) rfl (hrow 1 (by decide)) ?_).1 ?_
    · intro item items h
      cases h
    · intro h
      cases h
  · refine (hsome [.key "rows", .each] [.key "seat"] (row 2) rfl (hrow 2 (by decide)) ?_).2 rfl ?_
    · intro item items h
      cases h
    · simp
  · obtain ⟨m, hm, hlocation, hfound⟩ : ∃ m ∈ visits,
        m.location = row 1 ++ .missing :: Path.fill [.key "seat"] ∧ m.found = .parentNotFound :=
      ⟨_, List.mem_cons_of_mem _ List.mem_cons_self, rfl, rfl⟩
    obtain ⟨hvalue, -, hparent⟩ := hclass m hm (by simp [hfound])
    exact ⟨m, hm, hlocation, hvalue, hparent.mp hfound⟩

end Matches
end PathRules

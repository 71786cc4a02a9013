import Mathlib
import PathRules.Proofs.Gaps
import PathRules.Proofs.Messages
import PathRules.Proofs.Reordering
import PathRules.Proofs.Wrapping
import PathRules.Proofs.Writes
/-!
Form-encoded data. A run over form-encoded data and a run over data that was wrapped before are gone
through side by side: until the turn of a key comes, one of them sees its lone value and the other
one sees it wrapped. Main statement: both runs end with the same data, and they report the same but
for fields below the elements of a wrapped value, which are absent from the element -1 in one run
and from the element 0 in the other.
-/

namespace PathRules

namespace Path

/-- The location of a path below the first element of a value of the root, where the elements
further below are missing. -/
def fillFirst : Path → Location
  | .key name :: .each :: rest => .key name :: .index 0 :: fill rest
  | p => p.fill

/-- A path leads nowhere below a value that is neither a sequence nor a map. -/
theorem locations_leaf (a : Accessor) (p : Path) {v : Value} (hv : v.outline = some .leaf) :
    locations (a :: p) (some v) = [] := by
  have hchild : ∀ s, v.child? s = none := by
    intro s
    cases v <;> first | rfl | simp [Value.outline] at hv
  rw [locations_cons, List.flatMap_eq_nil_iff]
  intro s _
  rw [hchild, locations_none, List.map_nil]

theorem gaps_leaf (a : Accessor) (p : Path) {v : Value} (hv : v.outline = some .leaf) :
    gaps (a :: p) (some v) = [fill (a :: p)] := by
  rw [← gaps_none]
  cases a <;> cases v <;> first | rfl | simp [Value.outline] at hv

/-- Below the sequence of such a value, a path leads nowhere either, unless it ends at the
elements. -/
theorem locations_singleton_leaf {a : Accessor} {p : Path} (hp : a :: p ≠ [.each]) {v : Value}
    (hv : v.outline = some .leaf) : locations (a :: p) (some (.sequence [v])) = [] := by
  cases a with
  | key name => simp [locations_cons, Accessor.segments, Value.child?]
  | each =>
    cases p with
    | nil => contradiction
    | cons b p =>
      have hleaf := locations_leaf b p hv
      simpa [locations_cons, Accessor.segments, Value.child?, Segment.place?] using hleaf

theorem gaps_singleton_leaf (name : String) {a : Accessor} {p : Path} (hp : a :: p ≠ [.each])
    {v : Value} (hv : v.outline = some .leaf) :
    (gaps (a :: p) (some (.sequence [v]))).map (fun l => .key name :: l) =
      [fillFirst (.key name :: a :: p)] := by
  cases a with
  | key other => simp [gaps, Value.child?, gaps_none, fillFirst, fill]
  | each =>
    cases p with
    | nil => contradiction
    | cons b p =>
      have hleaf := gaps_leaf b p hv
      simp [gaps, Value.child?, Segment.place?, hleaf, fillFirst]

end Path

namespace Value

theorem outline_assign {x o : Option Value} {l : Location} (hl : l ≠ []) :
    (assign x l o).bind outline = o.bind outline := by
  cases l with
  | nil => contradiction
  | cons s rest =>
    cases o with
    | none => rfl
    | some v => exact outline_assignChild v s _

end Value

open Value in
/-- An effect below a child leaves the outlines of all children. -/
theorem Effect.outline_child?_apply (e : Effect) {s t : Segment} {rest : Location} (o : Observed)
    (hrest : s = t → rest ≠ []) :
    ((e.apply (s :: rest) o).data.child? t).bind outline = (o.data.child? t).bind outline := by
  have hdata := e.some_apply_data (Or.inr (List.cons_ne_nil s rest)) o
  rw [assign_cons, Option.some.injEq] at hdata
  rw [hdata]
  by_cases hst : s = t
  · subst hst
    rw [child?_assignChild_assign _ _ (Or.inr (hrest rfl)), outline_assign (hrest rfl)]
  · rw [child?_assignChild_of_ne isSome_of_isSome_assign hst]

namespace RunState

open Value

/-- The only place of a path that leads nowhere below a key and has one gap there. -/
theorem exists_places_below {data c : Value} {name : String} {p : Path} {l : Location}
    (hc : data.child? (.key name) = some c) (hlocations : p.locations (some c) = [])
    (hgaps : (p.gaps (some c)).map (fun l => .key name :: l) = [l]) :
    ∃ how ≠ Found.found, places (Matches.ofPath (.key name :: p) data) = [(l, how)] := by
  apply exists_places_eq
  · rw [foundPlaces_places, Matches.ofPath, Matches.found_ofPathAt]
    simp [Path.locations_cons, Accessor.segments, hc, hlocations]
  · rw [missingPlaces_ofPath, Path.gaps, Option.bind_some, hc]
    exact hgaps

/-- What two runs report in which a value is lone and wrapped: a message of both at one location, or
the absence of a field below the elements of the value. -/
inductive Report where
  | same (location : Location) (message : String)
  | below (field : Field)

namespace Report

/-- The messages where the value is lone. -/
def lone (options : RunOptions) : Report → List (Location × String)
  | same l message => [(l, message)]
  | below f => (absenceTexts options f f.path.fill).map fun m => (f.path.fill, m)

/-- The messages where the value is wrapped. -/
def wrapped (options : RunOptions) : Report → List (Location × String)
  | same l message => [(l, message)]
  | below f => (absenceTexts options f f.path.fillFirst).map fun m => (f.path.fillFirst, m)

theorem flatMap_lone_same (options : RunOptions) (ms : List (Location × String)) :
    (ms.map fun m => same m.1 m.2).flatMap (lone options) = ms := by
  induction ms with
  | nil => rfl
  | cons m ms ih => rw [List.map_cons, List.flatMap_cons, ih, lone, List.singleton_append]

theorem flatMap_wrapped_same (options : RunOptions) (ms : List (Location × String)) :
    (ms.map fun m => same m.1 m.2).flatMap (wrapped options) = ms := by
  induction ms with
  | nil => rfl
  | cons m ms ih => rw [List.map_cons, List.flatMap_cons, ih, wrapped, List.singleton_append]

end Report

/-- Whether two runs are at the same point, but that the lone values of some keys are wrapped in the
second. Fields that are absent below these are of a given kind. -/
structure Aligned (options : RunOptions) (start : Value) (kind : Field → Prop)
    (names : List String) (o o' : Observed) : Prop where
  data : o'.data = o.data.wrapKeys names
  failures : o'.failures = o.failures
  outlines : ∀ name ∈ names,
    (o.data.child? (.key name)).bind outline = (start.child? (.key name)).bind outline
  errors : ∃ reports : List Report,
    o.errors = .ofMessages (reports.flatMap (Report.lone options)) ∧
      o'.errors = .ofMessages (reports.flatMap (Report.wrapped options)) ∧
        ∀ f, .below f ∈ reports → kind f

section Align

variable {options : RunOptions} {start : Value} {kind : Field → Prop} {names : List String}
  {o o' : Observed}

namespace Aligned

/-- More reports of both runs. -/
theorem reports (h : Aligned options start kind names o o') {data data' : Value}
    (failures : Multiset CollaboratorFailure) (new : List Report)
    (hdata : data' = data.wrapKeys names)
    (houtlines : ∀ name ∈ names,
      (data.child? (.key name)).bind outline = (o.data.child? (.key name)).bind outline)
    (hnew : ∀ f, .below f ∈ new → kind f) :
    Aligned options start kind names
      ⟨data, (new.flatMap (Report.lone options)).foldl (fun t m => t.add m.1 m.2) o.errors,
        o.failures + failures⟩
      ⟨data', (new.flatMap (Report.wrapped options)).foldl (fun t m => t.add m.1 m.2) o'.errors,
        o'.failures + failures⟩ := by
  obtain ⟨reports, ho, ho', hkind⟩ := h.errors
  refine ⟨hdata, by rw [h.failures], fun name hname => ?_, reports ++ new, ?_, ?_, ?_⟩
  · exact (houtlines name hname).trans (h.outlines name hname)
  · rw [List.flatMap_append, ErrorTree.ofMessages_append, ← ho]
  · rw [List.flatMap_append, ErrorTree.ofMessages_append, ← ho']
  · intro f hf
    rcases List.mem_append.mp hf with hf | hf
    · exact hkind f hf
    · exact hnew f hf

theorem child?_eq (h : Aligned options start kind names o o') {name : String}
    (hkeep : name ∈ names → (o.data.child? (.key name)).bind outline ≠ some .leaf) :
    o'.data.child? (.key name) = o.data.child? (.key name) := by
  rw [h.data]
  by_cases hname : name ∈ names
  · rw [child?_wrapKeys_of_mem _ hname]
    cases hc : o.data.child? (.key name) with
    | none => rfl
    | some c =>
      have hleaf := hkeep hname
      rw [hc] at hleaf
      rw [Option.map_some, wrapLone_of_not_leaf hleaf]
  · apply child?_wrapKeys_of_not_mem
    intro other hother heq
    exact hname (Segment.key.inj heq ▸ hother)

/-- Both runs react in the same way at a place below a key that is not wrapped, or whose value is
not lone. -/
theorem react (h : Aligned options start kind names o o') (r : Reaction)
    {place : Location × Found} {name : String} {rest : Location}
    (hplace : place.1 = .key name :: rest)
    (hkeep : name ∈ names → rest ≠ [] ∧
      (o.data.child? (.key name)).bind outline ≠ some .leaf) :
    Option.Rel (fun p p' => Aligned options start kind names p p' ∧
        (name ∈ names →
          (p.data.child? (.key name)).bind outline = (o.data.child? (.key name)).bind outline))
      (RunState.react r o place) (RunState.react r o' place) := by
  obtain ⟨l, how⟩ := place
  dsimp only at hplace
  subst hplace
  have hchild := h.child?_eq fun hname => (hkeep hname).2
  have hget : o'.data.get? (.key name :: rest) = o.data.get? (.key name :: rest) := by
    rw [Value.get?, Value.get?, hchild]
  unfold RunState.react
  dsimp only
  rw [hget]
  cases r (.key name :: rest, how) (o.data.get? (.key name :: rest)) with
  | none => exact .none
  | some e =>
    have houtline := fun (t : Segment) (ht : .key name = t → rest ≠ []) =>
      e.outline_child?_apply (t := t) o ht
    have hdata : (e.apply (.key name :: rest) o').data =
        (e.apply (.key name :: rest) o).data.wrapKeys names := by
      have hnew := (e.some_apply_data (Or.inr (List.cons_ne_nil (.key name) rest)) o).symm
      have hnew' := e.some_apply_data (Or.inr (List.cons_ne_nil (.key name) rest)) o'
      rw [h.data] at hnew'
      have hnot : ∀ v : Value, (v.child? (.key name)).bind outline ≠ some .leaf →
          ∀ c, v.child? (.key name) = some c → c.outline ≠ some .leaf := by
        intro v hv c hc
        rwa [hc] at hv
      refine Option.some.inj (hnew'.trans (wrapKeys_assign (fun hname => ?_) hnew))
      obtain ⟨hrest, hleaf⟩ := hkeep hname
      refine ⟨hnot _ hleaf, hnot _ ?_⟩
      rwa [houtline _ fun _ => hrest]
    have hmessages : ∀ t : ErrorTree, e.report (.key name :: rest) t =
        (e.messages.map fun m => (.key name :: rest ++ m.1, m.2)).foldl
          (fun t m => t.add m.1 m.2) t := fun t => by rw [Effect.report, List.foldl_map]
    have hsame := h.reports e.failures
      ((e.messages.map fun m => (.key name :: rest ++ m.1, m.2)).map fun m => Report.same m.1 m.2)
      hdata (fun other hother => houtline (.key other) fun heq =>
        (hkeep (Segment.key.inj heq ▸ hother)).1)
      (by simp)
    rw [Report.flatMap_lone_same, Report.flatMap_wrapped_same, ← hmessages, ← hmessages] at hsame
    exact .some ⟨hsame, fun hname => houtline _ fun _ => (hkeep hname).1⟩

/-- Both runs react in the same way at places below a key that is not wrapped, or whose value is not
lone. -/
theorem foldlM_react (h : Aligned options start kind names o o') (r : Reaction)
    {ps : List (Location × Found)} {name : String} {rest : Path}
    (hps : ∀ place ∈ ps, Location.HasShape place.1 (.key name :: rest))
    (hkeep : name ∈ names → rest ≠ [] ∧
      (o.data.child? (.key name)).bind outline ≠ some .leaf) :
    Option.Rel (Aligned options start kind names) (ps.foldlM (RunState.react r) o)
      (ps.foldlM (RunState.react r) o') := by
  induction ps generalizing o o' with
  | nil => exact .some h
  | cons place ps ih =>
    obtain ⟨s, l, hs, hl, hplace⟩ :=
      List.forall₂_cons_left_iff.mp (hps place List.mem_cons_self)
    obtain rfl : s = .key name := hs
    have hrest : rest ≠ [] → l ≠ [] := by
      rintro hrest rfl
      exact hrest (List.forall₂_nil_right_iff.mp hl)
    have hstep := h.react r hplace fun hname => (hkeep hname).imp_left hrest
    rw [List.foldlM_cons, List.foldlM_cons]
    generalize RunState.react r o place = p, RunState.react r o' place = p' at hstep
    cases hstep with
    | none => exact .none
    | some hnext =>
      refine ih hnext.1 (fun m hm => hps m (List.mem_cons_of_mem place hm)) fun hname => ?_
      rw [hnext.2 hname]
      exact hkeep hname

/-- Below a key that is not wrapped, or whose value is not lone, both runs have the same places. -/
theorem places_eq (h : Aligned options start kind names o o') {name : String} {rest : Path}
    (hkeep : name ∈ names → (o.data.child? (.key name)).bind outline ≠ some .leaf) :
    places (Matches.ofPath (.key name :: rest) o'.data) =
      places (Matches.ofPath (.key name :: rest) o.data) := by
  have houtline : o'.data.outline = o.data.outline := by rw [h.data, outline_wrapKeys]
  have hchild := h.child?_eq hkeep
  rw [places_ofPath, places_ofPath]
  refine places_cons_congr rfl rfl houtline (fun s hs base => ?_) none []
  obtain rfl : s = .key name := hs
  apply places_congr
  · exact hchild
  · exact Source.found_entry_congr houtline (by rw [hchild])

/-- Below a lone value there is nothing to visit, whether it is wrapped or not, so both runs report
that the field is absent. -/
theorem turn_of_leaf (h : Aligned options start kind names o o')
    {reaction : FieldChain → Reaction} {chain : FieldChain}
    (hlocal : ∀ v ∈ chain.head.validators, v.Local)
    (hreacts : Reacts options chain (reaction chain)) {name : String} {a : Accessor} {rest : Path}
    (hpath : chain.path = .key name :: a :: rest) (hends : a :: rest ≠ [.each])
    (hname : name ∈ names) (hleaf : (o.data.child? (.key name)).bind outline = some .leaf)
    (hkind : a = .each → kind chain.head) :
    Option.Rel (Aligned options start kind names) (RunState.turn reaction o chain)
      (RunState.turn reaction o' chain) := by
  obtain ⟨v, hv, hleaf⟩ := Option.bind_eq_some_iff.mp hleaf
  have hv' : o'.data.child? (.key name) = some (.sequence [v]) := by
    rw [h.data, child?_wrapKeys_of_mem _ hname, hv, Option.map_some, wrapLone_of_leaf hleaf]
  have hhead : chain.head.path = .key name :: a :: rest := hpath
  obtain ⟨how, hhow, hplaces⟩ := exists_places_below (l := chain.head.path.fill) hv
    (Path.locations_leaf a rest hleaf) (by
      rw [Path.gaps_leaf a rest hleaf, hhead]
      rfl)
  obtain ⟨how', hhow', hplaces'⟩ := exists_places_below (l := chain.head.path.fillFirst) hv'
    (Path.locations_singleton_leaf hends hleaf) (by
      rw [Path.gaps_singleton_leaf name hends hleaf, hhead])
  rw [RunState.turn, RunState.turn, hpath, hplaces, hplaces', List.foldlM_cons, List.foldlM_cons,
    react_missing hlocal hreacts _ _ hhow, react_missing hlocal hreacts _ _ hhow']
  cases a with
  | each =>
    have hnew := h.reports 0 [.below chain.head] h.data (fun _ _ => rfl)
      (by simpa using hkind rfl)
    simp only [List.flatMap_singleton, Report.lone, Report.wrapped, List.foldl_map,
      add_zero] at hnew
    exact .some hnew
  | key other =>
    let l := chain.head.path.fill
    have hfirst : chain.head.path.fillFirst = chain.head.path.fill := by
      rw [hhead]
      rfl
    have hnew := h.reports 0
      (((absenceTexts options chain.head l).map fun m => (l, m)).map fun m => .same m.1 m.2)
      h.data (fun _ _ => rfl) (by simp)
    rw [Report.flatMap_lone_same, Report.flatMap_wrapped_same, List.foldl_map, add_zero,
      List.foldl_map, add_zero] at hnew
    rw [hfirst]
    exact .some hnew

/-- The turn of a chain in both runs. -/
theorem turn (h : Aligned options start kind names o o') {reaction : FieldChain → Reaction}
    {chain : FieldChain} (hlocal : ∀ v ∈ chain.head.validators, v.Local)
    (hreacts : Reacts options chain (reaction chain)) {name : String} {rest : Path}
    (hpath : chain.path = .key name :: rest) (hends : rest ≠ [.each])
    (hown : rest = [] → name ∉ names)
    (hkind : ∀ others, rest = .each :: others → name ∈ names →
      (start.child? (.key name)).bind outline = some .leaf → kind chain.head) :
    Option.Rel (Aligned options start kind names) (RunState.turn reaction o chain)
      (RunState.turn reaction o' chain) := by
  by_cases hlone : name ∈ names ∧ (o.data.child? (.key name)).bind outline = some .leaf
  · obtain ⟨hname, hleaf⟩ := hlone
    cases rest with
    | nil => exact absurd hname (hown rfl)
    | cons a rest =>
      exact h.turn_of_leaf hlocal hreacts hpath hends hname hleaf fun ha =>
        hkind rest (ha ▸ rfl) hname ((h.outlines name hname).symm.trans hleaf)
  · have hkeep : name ∈ names → (o.data.child? (.key name)).bind outline ≠ some .leaf :=
      fun hname hleaf => hlone ⟨hname, hleaf⟩
    have hshape := hasShape_places chain.path o.data
    rw [hpath] at hshape
    rw [RunState.turn, RunState.turn, hpath, h.places_eq hkeep]
    exact h.foldlM_react _ hshape fun hname => ⟨fun hrest => hown hrest hname, hkeep hname⟩

end Aligned

/-- What can be told apart when a chain is about to take its turn over form-encoded data, once the
lone value of its key is wrapped. -/
def preparing (o : Observed) (chain : FieldChain) : Observed :=
  { o with data := o.data.wrapKeys chain.wrappedKey?.toList }

/-- The keys that chains wrap. -/
def wrappedKeys (chains : List FieldChain) : List String :=
  chains.flatMap fun chain => chain.wrappedKey?.toList

theorem mem_wrappedKeys {chains : List FieldChain} {name : String} :
    name ∈ wrappedKeys chains ↔
      ∃ chain ∈ chains, chain.path = [.key name] ∧ chain.head.info.array = true := by
  simp only [wrappedKeys, List.mem_flatMap, Option.mem_toList,
    FieldChain.wrappedKey?_eq_some_iff]

/-- The turn of a chain over form-encoded data. -/
theorem observed_runChain_form (hform : options.formEncoded = true)
    {reaction : FieldChain → Reaction} {chain : FieldChain}
    (hreacts : Reacts options.plain chain (reaction chain)) {name : String} {rest : Path}
    (hpath : chain.path = .key name :: rest) (s : RunState) :
    (runChain options s chain).observed =
      s.observed.bind fun o => turn reaction (preparing o chain) chain := by
  cases hrunning : s.abandoned with
  | true =>
    have hstays : runChain options s chain = s := foldl_visit_abandoned _ _ _ _ hrunning
    rw [hstays, observed_of_abandoned hrunning]
    rfl
  | false =>
    rw [runChain_plain hform hpath hrunning, observed_runChain hreacts,
      observed_of_running hrunning, observed_of_running (s := s.prepare chain) hrunning]
    rfl

theorem observed_foldl_runChain_form (hform : options.formEncoded = true)
    {reaction : FieldChain → Reaction} {chains : List FieldChain}
    (hreacts : ∀ chain ∈ chains, Reacts options.plain chain (reaction chain))
    (hpaths : ∀ chain ∈ chains, ∃ name rest, chain.path = .key name :: rest) (s : RunState) :
    (chains.foldl (runChain options) s).observed =
      s.observed.bind fun o =>
        chains.foldlM (fun o chain => turn reaction (preparing o chain) chain) o := by
  induction chains generalizing s with
  | nil => exact (Option.bind_fun_some s.observed).symm
  | cons chain chains ih =>
    obtain ⟨name, rest, hpath⟩ := hpaths chain List.mem_cons_self
    rw [List.foldl_cons, ih (fun c hc => hreacts c (List.mem_cons_of_mem chain hc))
        fun c hc => hpaths c (List.mem_cons_of_mem chain hc),
      observed_runChain_form hform (hreacts chain List.mem_cons_self) hpath, Option.bind_assoc]
    rfl

/-- Wrapping the key of the next chain brings the two runs closer. -/
theorem Aligned.preparing {chain : FieldChain} (hname : ∀ name ∈ names, chain.path ≠ [.key name])
    (h : Aligned options start kind (chain.wrappedKey?.toList ++ names) o o') :
    Aligned options start kind names (RunState.preparing o chain) o' := by
  refine ⟨?_, h.failures, fun name hmem => ?_, h.errors⟩
  · rw [h.data, wrapKeys, List.foldl_append]
    rfl
  · rw [← h.outlines name (List.mem_append_right _ hmem)]
    unfold RunState.preparing
    rw [child?_wrapKeys_of_not_mem]
    intro other hother heq
    cases heq
    exact hname name hmem (FieldChain.wrappedKey?_eq_some_iff.mp (by simpa using hother)).1

/-- The turns of all chains in both runs. -/
theorem Aligned.foldlM_turn {chains : List FieldChain}
    (h : Aligned options start kind (wrappedKeys chains) o o') {reaction : FieldChain → Reaction}
    (hlocal : ∀ chain ∈ chains, ∀ v ∈ chain.head.validators, v.Local)
    (hreacts : ∀ chain ∈ chains, Reacts options chain (reaction chain))
    (hpaths : ∀ chain ∈ chains, ∃ name rest, chain.path = .key name :: rest ∧ rest ≠ [.each])
    (hdistinct : chains.Pairwise fun a b => a.path ≠ b.path) (wraps : String → Prop)
    (hwraps : ∀ name ∈ wrappedKeys chains, wraps name)
    (hkind : ∀ chain ∈ chains, ∀ name others, chain.path = .key name :: .each :: others →
      wraps name → (start.child? (.key name)).bind outline = some .leaf → kind chain.head) :
    Option.Rel (Aligned options start kind [])
      (chains.foldlM (fun o chain => RunState.turn reaction (RunState.preparing o chain) chain) o)
      (chains.foldlM (RunState.turn reaction) o') := by
  induction chains generalizing o o' with
  | nil => exact .some h
  | cons chain chains ih =>
    have hkeys : wrappedKeys (chain :: chains) =
        chain.wrappedKey?.toList ++ wrappedKeys chains := List.flatMap_cons
    rw [hkeys] at h hwraps
    obtain ⟨hdistinct, hrest⟩ := List.pairwise_cons.mp hdistinct
    have hother : ∀ name ∈ wrappedKeys chains, chain.path ≠ [.key name] := by
      intro name hname hpath
      obtain ⟨other, hmem, hother, -⟩ := mem_wrappedKeys.mp hname
      exact hdistinct other hmem (hpath.trans hother.symm)
    obtain ⟨name, rest, hpath, hends⟩ := hpaths chain List.mem_cons_self
    have hturn := (h.preparing hother).turn (hlocal chain List.mem_cons_self)
      (hreacts chain List.mem_cons_self) hpath hends
      (fun hown hname => hother name hname (hown ▸ hpath))
      fun others hrest hname => hkind chain List.mem_cons_self name others (hrest ▸ hpath)
        (hwraps name (List.mem_append_right _ hname))
    rw [List.foldlM_cons, List.foldlM_cons]
    generalize RunState.turn reaction (RunState.preparing o chain) chain = p,
      RunState.turn reaction o' chain = p' at hturn
    cases hturn with
    | none => exact .none
    | some hnext =>
      exact ih hnext (fun c hc => hlocal c (List.mem_cons_of_mem chain hc))
        (fun c hc => hreacts c (List.mem_cons_of_mem chain hc))
        (fun c hc => hpaths c (List.mem_cons_of_mem chain hc)) hrest
        (fun other hmem => hwraps other (List.mem_append_right _ hmem))
        fun c hc => hkind c (List.mem_cons_of_mem chain hc)

end Align

end RunState

namespace Keyed

variable {κ α : Type} [DecidableEq κ]

/-- Changing the values of a key that is not there changes nothing. -/
theorem map_of_get?_eq_none {entries : List (κ × α)} {key : κ} (h : get? entries key = none)
    (f : α → α) : entries.map (fun e => (e.1, if e.1 = key then f e.2 else e.2)) = entries := by
  conv_rhs => rw [← List.map_id entries]
  apply List.map_congr_left
  intro e he
  have hne : e.1 ≠ key := fun heq =>
    (get?_eq_none_iff entries key).mp h (heq ▸ List.mem_map_of_mem he)
  rw [if_neg hne]
  rfl

/-- Where no key comes twice, putting a value is changing the values of its key. -/
theorem put_eq_map {entries : List (κ × α)} (hkeys : (keys entries).Nodup) {key : κ} {v : α}
    (h : get? entries key = some v) (f : α → α) :
    put entries key (f v) = entries.map fun e => (e.1, if e.1 = key then f e.2 else e.2) := by
  induction entries with
  | nil => contradiction
  | cons e rest ih =>
    obtain ⟨k, w⟩ := e
    obtain ⟨hfirst, hrest⟩ := List.nodup_cons.mp hkeys
    rw [List.map_cons, put]
    rw [get?] at h
    split at h
    next hk =>
      cases h
      subst hk
      rw [if_pos rfl, map_of_get?_eq_none ((get?_eq_none_iff rest k).mpr hfirst), if_pos rfl]
    next hk => rw [if_neg hk, if_neg hk, ih hrest h]

end Keyed

namespace Value

theorem wrapKey_map {entries : List (String × Value)} (hkeys : (Keyed.keys entries).Nodup)
    (name : String) : (map entries).wrapKey name =
      map (entries.map fun e => (e.1, if e.1 = name then e.2.wrapLone else e.2)) := by
  rw [wrapKey, child?]
  cases hget : Keyed.get? entries name with
  | none => exact congrArg map ((Keyed.erase_of_get?_eq_none hget).trans
      (Keyed.map_of_get?_eq_none hget _).symm)
  | some v => exact congrArg map (Keyed.put_eq_map hkeys hget _)

/-- Wrapping keys one after the other is wrapping the values of all of them at once. -/
theorem wrapKeys_map {entries : List (String × Value)} (hkeys : (Keyed.keys entries).Nodup)
    (names : List String) : (map entries).wrapKeys names =
      map (entries.map fun e => (e.1, if e.1 ∈ names then e.2.wrapLone else e.2)) := by
  unfold wrapKeys
  induction names generalizing entries with
  | nil => simp
  | cons name names ih =>
    rw [List.foldl_cons, wrapKey_map hkeys, ih (by rwa [Keyed.keys, List.map_map]), List.map_map]
    congr 1
    apply List.map_congr_left
    intro e _
    by_cases hname : e.1 = name
    · by_cases hmem : name ∈ names <;> simp [hname, hmem, wrapLone_wrapLone]
    · simp [hname]

end Value

namespace CompiledRules

open RunState Value

variable {c : CompiledRules}

/-- Whether a field of a sequence is at a key of the root. -/
def wrapsKey (c : CompiledRules) (name : String) : Bool :=
  c.fields.any fun f => f.path == [.key name] && f.info.array

/-- A map of which the lone values are wrapped where a field of a sequence is. -/
def prewrapped (c : CompiledRules) (entries : List (String × Value)) : Value :=
  .map (entries.map fun e => (e.1, if c.wrapsKey e.1 then e.2.wrapLone else e.2))

/-- Whether a field is below the elements of a lone value that is wrapped. -/
def BelowLone (c : CompiledRules) (entries : List (String × Value)) (f : Field) : Prop :=
  f ∈ c.fields ∧ ∃ name others v, f.path = .key name :: .each :: others ∧
    c.wrapsKey name = true ∧ Keyed.get? entries name = some v ∧ v.outline = some .leaf

theorem mem_wrappedKeys_iff (hwell : c.WellFormed) {name : String} :
    name ∈ wrappedKeys c.chains ↔ c.wrapsKey name = true := by
  rw [mem_wrappedKeys, wrapsKey, List.any_eq_true]
  constructor
  · rintro ⟨chain, hchain, hpath, harray⟩
    have hhead : chain.head.path = [.key name] := hpath
    exact ⟨chain.head, List.mem_flatMap.mpr ⟨chain, hchain, List.mem_cons_self⟩,
      by simp [hhead, harray]⟩
  · rintro ⟨f, hf, hboth⟩
    obtain ⟨hpath, harray⟩ : f.path = [.key name] ∧ f.info.array = true := by simpa using hboth
    obtain ⟨chain, hchain, rfl⟩ := hwell.arranged.exists_head hf (by rw [hpath]; rfl)
    exact ⟨chain, hchain, hpath, harray⟩

/-- Without a field of the root, the path of every chain starts with a key. -/
theorem exists_key_of_chain (hwell : c.WellFormed) (hroot : ∀ f ∈ c.fields, f.path ≠ [])
    {chain : FieldChain} (hchain : chain ∈ c.chains) :
    ∃ name rest, chain.path = .key name :: rest ∧ rest ≠ [.each] := by
  have hhead : chain.head ∈ c.fields := List.mem_flatMap.mpr ⟨chain, hchain, List.mem_cons_self⟩
  rcases hpath : chain.path with _ | ⟨name | _, rest⟩
  · exact absurd hpath (hroot _ hhead)
  · refine ⟨name, rest, rfl, ?_⟩
    rintro rfl
    have helement := hwell.isElementPath_head hchain
    rw [hpath] at helement
    contradiction
  · obtain ⟨g, hg, hgpath⟩ :=
      hwell.containers _ hhead [] (Path.mem_containers.mpr ⟨rest, hpath⟩)
    exact absurd hgpath (hroot g hg)

/-- A field that no validator requires reports no absence. -/
theorem absenceTexts_eq_nil {f : Field} (h : ∀ v ∈ f.validators, ∀ x, v.requires x = false)
    (options : RunOptions) (l : Location) : absenceTexts options f l = [] := by
  have hnone : ∀ x, f.requiring? x = none := fun x =>
    List.find?_eq_none.mpr fun v hv => by simp [h v hv x]
  unfold absenceTexts
  dsimp only
  rw [hnone]

theorem flatMap_lone_eq {options : RunOptions} {reports : List Report}
    (h : ∀ f, .below f ∈ reports → ∀ v ∈ f.validators, ∀ x, v.requires x = false) :
    reports.flatMap (Report.lone options) = reports.flatMap (Report.wrapped options) := by
  apply List.flatMap_congr
  intro report hreport
  cases report with
  | same l message => rfl
  | below f => simp [Report.lone, Report.wrapped, absenceTexts_eq_nil (h f hreport)]

/-- The two runs end side by side. -/
theorem rel_observed (hwell : c.WellFormed) (hroot : ∀ f ∈ c.fields, f.path ≠ [])
    (hlocal : ∀ f ∈ c.fields, ∀ v ∈ f.validators, v.Local) {options : RunOptions}
    (hform : options.formEncoded = true) {entries : List (String × Value)}
    (hkeys : (Keyed.keys entries).Nodup) :
    Option.Rel (Aligned options.plain (.map entries) (c.BelowLone entries) [])
      (c.runState options (.map entries)).observed
      (c.runState options.plain (c.prewrapped entries)).observed := by
  have hfields : ∀ chain ∈ c.chains, ∀ f ∈ chain.fields, f ∈ c.fields :=
    fun chain hchain f hf => List.mem_flatMap.mpr ⟨chain, hchain, hf⟩
  obtain ⟨reaction, hreaction⟩ := exists_reacts options.plain
  have hreacts : ∀ chain ∈ c.chains, Reacts options.plain chain (reaction chain) :=
    fun chain hchain => hreaction chain fun f hf => hlocal f (hfields chain hchain f hf)
  have hpaths := fun chain (hchain : chain ∈ c.chains) => exists_key_of_chain hwell hroot hchain
  have hdata : c.prewrapped entries = (Value.map entries).wrapKeys (wrappedKeys c.chains) := by
    rw [wrapKeys_map hkeys]
    simp [prewrapped, mem_wrappedKeys_iff hwell]
  have hstart : Aligned options.plain (.map entries) (c.BelowLone entries) (wrappedKeys c.chains)
      ⟨.map entries, .empty, 0⟩ ⟨c.prewrapped entries, .empty, 0⟩ :=
    ⟨hdata, rfl, fun _ _ => rfl, [], rfl, rfl, by simp⟩
  have hrel := hstart.foldlM_turn
    (fun chain hchain => hlocal _ (hfields chain hchain _ List.mem_cons_self)) hreacts hpaths
    (hwell.pairwise_paths.imp fun h => h _ List.mem_cons_self _ List.mem_cons_self)
    (fun name => c.wrapsKey name = true)
    (fun name hname => (mem_wrappedKeys_iff hwell).mp hname)
    fun chain hchain name others hpath hwraps hleaf => by
      obtain ⟨v, hv, hleaf⟩ := Option.bind_eq_some_iff.mp hleaf
      exact ⟨hfields chain hchain _ List.mem_cons_self, name, others, v, hpath, hwraps, hv, hleaf⟩
  have hplain := observed_foldl_runChain hreacts { data := c.prewrapped entries }
  have hcoded := observed_foldl_runChain_form hform hreacts
    (fun chain hchain => by
      obtain ⟨name, rest, hpath, -⟩ := hpaths chain hchain
      exact ⟨name, rest, hpath⟩) { data := .map entries }
  have hleft : c.runState options (.map entries) =
      c.chains.foldl (runChain options) { data := .map entries } := rfl
  have hright : c.runState options.plain (c.prewrapped entries) =
      c.chains.foldl (runChain options.plain) { data := c.prewrapped entries } := rfl
  rw [hleft, hright, hcoded, hplain, observed_of_running rfl, observed_of_running rfl]
  exact hrel

/-- Form-encoded data is checked as if its lone values had been wrapped before. Without a field of
the root and with local validators, a run over a map that is form-encoded ends with the same data as
one that is not over the map in which the lone values of sequences are wrapped. Both report the same
at the same locations, one after the other, but for the fields below the elements of a wrapped
value, which are absent in both: where such a field must be present, the message is about the
element -1 of the lone value in one run and about the element 0 in the other. Where no such field
must be present, the errors are the same. -/
theorem validate_formEncoded {set : RuleSet} (hcompile : compile set = .ok c)
    (hroot : ∀ f ∈ c.fields, f.path ≠ []) (hlocal : set.Local) {options : RunOptions}
    (hform : options.formEncoded = true) {entries : List (String × Value)}
    (hkeys : (Keyed.keys entries).Nodup) :
    let form := c.validate options (.map entries)
    let plain := c.validate options.plain (c.prewrapped entries)
    form.abandoned = plain.abandoned ∧ (form.abandoned = false →
      form.data = plain.data ∧ form.failures.Perm plain.failures ∧
      (∃ reports : List Report,
        form.errors = (ErrorTree.ofMessages (reports.flatMap (Report.lone options))).nonEmpty? ∧
        plain.errors =
          (ErrorTree.ofMessages (reports.flatMap (Report.wrapped options))).nonEmpty? ∧
        ∀ f, .below f ∈ reports → c.BelowLone entries f) ∧
      ((∀ f, c.BelowLone entries f → ∀ v ∈ f.validators, ∀ x, v.requires x = false) →
        form.errors = plain.errors)) := by
  intro form plain
  have hrel := rel_observed (wellFormed_of_compile hcompile) hroot
    (local_of_compile hcompile hlocal) hform hkeys
  cases hform : (c.runState options (.map entries)).observed with
  | none =>
    rw [hform] at hrel
    cases hplain : (c.runState options.plain (c.prewrapped entries)).observed with
    | some o => rw [hplain] at hrel; contradiction
    | none =>
      rw [observed_eq_none_iff] at hform hplain
      refine ⟨hform.trans hplain.symm, fun hrunning => ?_⟩
      exact absurd (hform.symm.trans hrunning) (by decide)
  | some o =>
    rw [hform] at hrel
    cases hplain : (c.runState options.plain (c.prewrapped entries)).observed with
    | none => rw [hplain] at hrel; contradiction
    | some o' =>
      rw [hplain] at hrel
      obtain ⟨hdata, hfailures, -, reports, ho, ho', hkind⟩ := hrel
      obtain ⟨hrunning, rfl⟩ := observed_eq_some_iff.mp hform
      obtain ⟨hrunning', rfl⟩ := observed_eq_some_iff.mp hplain
      have herrors : form.errors =
          (ErrorTree.ofMessages (reports.flatMap (Report.lone options))).nonEmpty? :=
        congrArg ErrorTree.nonEmpty? ho
      have herrors' : plain.errors =
          (ErrorTree.ofMessages (reports.flatMap (Report.wrapped options))).nonEmpty? :=
        congrArg ErrorTree.nonEmpty? ho'
      refine ⟨hrunning.trans hrunning'.symm, fun _ => ⟨hdata.symm,
        (Multiset.coe_eq_coe.mp hfailures).symm, ⟨reports, herrors, herrors', hkind⟩,
        fun hrequires => ?_⟩⟩
      rw [herrors, herrors', flatMap_lone_eq fun f hf => hrequires f (hkind f hf)]

/-- Tags, and a rule for their names. -/
def taggedRules (rule : Validator) : RuleSet :=
  [("tags", .rules [Rules.array]), ("tags[].name", .rules [rule])]

/-- The rules for tags when compiled. -/
def compiledTags (rule : Validator) : CompiledRules :=
  ⟨[⟨⟨⟨[.key "tags", .each, .key "name"], 0, [], false, false, false⟩, [rule]⟩, []⟩,
    ⟨⟨⟨[.key "tags"], 0, [], false, true, false⟩, [Rules.array]⟩, []⟩]⟩

/-- A lone tag, as a form has it. -/
def loneTag : List (String × Value) :=
  [("tags", .string "solo")]

def formOptions : RunOptions :=
  { plainOptions with formEncoded := true }

theorem local_taggedRules {rule : Validator} (h : rule.Local) : (taggedRules rule).Local := by
  have harray : Rules.array.Local := by constructor <;> intro c data elapsed <;> rfl
  apply RuleSet.local_of_rules
  simp [taggedRules, h, harray]

/-- A lone tag whose name need not be there. -/
theorem validate_formEncoded_loneTag : ∃ c, compile (taggedRules Rules.string) = .ok c ∧
    c.prewrapped loneTag = .map [("tags", .sequence [.string "solo"])] ∧
      (c.validate formOptions (.map loneTag)).data =
        (c.validate plainOptions (c.prewrapped loneTag)).data ∧
      (c.validate formOptions (.map loneTag)).errors =
        (c.validate plainOptions (c.prewrapped loneTag)).errors := by
  obtain ⟨c, hc⟩ := exists_of_isOk (by decide : (compile (taggedRules Rules.string)).isOk = true)
  obtain rfl : c = compiledTags Rules.string := eq_of_compile hc id (by cbv)
  have hlocal : Rules.string.Local := by constructor <;> intro c data elapsed <;> rfl
  obtain ⟨-, hsame⟩ := validate_formEncoded hc (by decide) (local_taggedRules hlocal)
    (rfl : formOptions.formEncoded = true) (by decide : (Keyed.keys loneTag).Nodup)
  obtain ⟨hdata, -, -, herrors⟩ := hsame (by decide)
  refine ⟨_, hc, rfl, hdata, herrors fun f hf v hv x => ?_⟩
  have hrules : ∀ f ∈ (compiledTags Rules.string).fields,
      f.validators = [Rules.string] ∨ f.validators = [Rules.array] := by
    simp [compiledTags, fields, FieldChain.fields]
  rcases hrules f hf.1 with hrule | hrule <;> rw [hrule, List.mem_singleton] at hv <;>
    exact hv ▸ rfl

/-- A required name of a lone tag is absent from the element -1 of the tag as a form has it, and
from its element 0 once the tag is wrapped. -/
theorem exists_formEncoded_errors_ne : ∃ c entries, compile (taggedRules Rules.required) = .ok c ∧
    (∀ f ∈ c.fields, f.path ≠ []) ∧ (taggedRules Rules.required).Local ∧
      ((c.validate formOptions (.map entries)).errors.map fun t =>
          t.messagesAt [.key "tags", .index (-1), .key "name"]) =
        some ["validation.rules.required"] ∧
      ((c.validate plainOptions (c.prewrapped entries)).errors.map fun t =>
          t.messagesAt [.key "tags", .index (-1), .key "name"]) = some [] ∧
      (c.validate formOptions (.map entries)).errors ≠
        (c.validate plainOptions (c.prewrapped entries)).errors := by
  obtain ⟨c, hc⟩ := exists_of_isOk (by decide : (compile (taggedRules Rules.required)).isOk = true)
  obtain rfl : c = compiledTags Rules.required := eq_of_compile hc id (by cbv)
  have hlocal : Rules.required.Local := by constructor <;> intro c data elapsed <;> rfl
  have hform : (((compiledTags Rules.required).validate formOptions (.map loneTag)).errors.map
      fun t => t.messagesAt [.key "tags", .index (-1), .key "name"]) =
        some ["validation.rules.required"] := by decide
  have hplain : (((compiledTags Rules.required).validate plainOptions
      ((compiledTags Rules.required).prewrapped loneTag)).errors.map
        fun t => t.messagesAt [.key "tags", .index (-1), .key "name"]) = some [] := by decide
  refine ⟨_, loneTag, hc, by decide, local_taggedRules hlocal, hform, hplain, fun heq => ?_⟩
  rw [heq, hplain] at hform
  exact absurd hform (by decide)

end CompiledRules

end PathRules

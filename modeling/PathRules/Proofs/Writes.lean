import PathRules.Proofs.Confinement
/-!
What a run writes. A visit of a value is confined to the value: it takes the key of a null out, or
leaves another value there or below if a field converts it. Main statement: after a run the data is
as before but for the values that a field may convert, and without the nulls that count as absent.
-/

namespace PathRules

namespace RunState

open Value Location

variable {options : RunOptions}

/-- Whether one of some fields may convert the value at a location. -/
def Converts (fields : List Field) (m : Location) : Prop :=
  ∃ f ∈ fields, (∃ v ∈ f.validators, v.converting = true) ∧ m.HasShape f.path

/-- Whether a location is that of a key where null counts as absent for one of some fields. -/
def Drops (fields : List Field) (m : Location) : Prop :=
  (∃ parent name, m = parent ++ [Segment.key name]) ∧
    ∃ f ∈ fields, f.info.nullable = false ∧ m.HasShape f.path

theorem Converts.subset {fields others : List Field} (h : fields ⊆ others) {m : Location}
    (hm : Converts fields m) : Converts others m := by
  obtain ⟨f, hf, hrest⟩ := hm
  exact ⟨f, h hf, hrest⟩

theorem Drops.subset {fields others : List Field} (h : fields ⊆ others) {m : Location}
    (hm : Drops fields m) : Drops others m := by
  obtain ⟨hkey, f, hf, hrest⟩ := hm
  exact ⟨hkey, f, h hf, hrest⟩

variable {free gone : Location → Prop}

theorem confined_removeNull {s : RunState} {l : Location} (hnull : s.data.get? l = some .null)
    (hgone : (∃ parent name, l = parent ++ [Segment.key name]) → gone l) :
    Confined free gone [] s.data (s.removeNull l).data := by
  apply confined_assign hnull (removeNull_assign hnull).symm
  · intro new hnew
    unfold absence at hnew
    split at hnew
    · contradiction
    · cases hnew
      exact confined_refl _ _
  · intro hnone
    unfold absence at hnone
    split at hnone
    next name hlast =>
      obtain ⟨parent, rfl⟩ := List.getLast?_eq_some_iff.mp hlast
      exact ⟨rfl, hgone ⟨parent, name, rfl⟩⟩
    next => contradiction

theorem confined_validateAt {s : RunState} {l : Location} {v : Value} {field : Field}
    (hv : s.data.get? l = some v) (hnull : v.isNull = false)
    (hfree : (∃ v ∈ field.validators, v.converting = true) → free l) :
    Confined free gone [] s.data (s.validateAt options field l).data := by
  by_cases hconverts : ∃ v ∈ field.validators, v.converting = true
  · obtain ⟨-, p, -, -, hdata⟩ := validateAt_assign hv options field
    apply confined_assign hv hdata.symm
    · exact fun new _ => confined_of_free (hfree hconverts) hnull new
    · exact fun h => absurd h (Option.some_ne_none _)
  · rw [validateAt_data (by simpa using hconverts) hv]
    exact confined_refl _ _

theorem mem_foundPlaces_ofPath {p : Path} {data : Value} {l : Location} :
    l ∈ foundPlaces (places (Matches.ofPath p data)) ↔
      l.HasShape p ∧ ∃ v, data.get? l = some v := by
  rw [foundPlaces_places, Matches.ofPath, Matches.found_ofPathAt, get?_nil]
  simp [Path.mem_locations]

/-- Going over places that are apart, each visit confined to its place. -/
theorem confined_foldl {visit : RunState → Location × Found → RunState}
    (hmissing : ∀ s l how, how ≠ .found → (visit s (l, how)).data = s.data)
    (hspares : ∀ s l, Spares l s.data (visit s (l, .found)).data)
    (ps : List (Location × Found))
    (hfound : ∀ l ∈ foundPlaces ps, ∀ s v, s.data.get? l = some v →
      Confined (fun m => l <+: m ∧ free m) (fun m => m = l ∧ gone m) [] s.data
        (visit s (l, .found)).data)
    {s : RunState} (hexists : ∀ l ∈ foundPlaces ps, ∃ v, s.data.get? l = some v)
    (hapart : (foundPlaces ps).Pairwise Location.Apart) :
    Confined (fun m => (∃ l ∈ foundPlaces ps, l <+: m) ∧ free m)
      (fun m => m ∈ foundPlaces ps ∧ gone m) [] s.data (ps.foldl visit s).data := by
  let R (ps : List (Location × Found)) (s t : RunState) : Prop :=
    (∀ l ∈ foundPlaces ps, ∀ s v, s.data.get? l = some v →
      Confined (fun m => l <+: m ∧ free m) (fun m => m = l ∧ gone m) [] s.data
        (visit s (l, .found)).data) →
    Confined (fun m => (∃ l ∈ foundPlaces ps, l <+: m) ∧ free m)
      (fun m => m ∈ foundPlaces ps ∧ gone m) [] s.data t.data
  refine foldl_places_induction (R := R) hmissing hspares (fun _ _ => confined_refl _ _)
    (fun l how ps s t hhow hrest hfound => ?_) (fun l v ps s t hv hl hrest hfound => ?_)
    ps hexists hapart hfound
  · rw [foundPlaces_cons_missing l hhow] at hfound ⊢
    rw [← hmissing s l how hhow]
    exact hrest hfound
  · rw [foundPlaces_cons_found] at hfound ⊢
    have hlater := hrest fun m hm => hfound m (List.mem_cons_of_mem l hm)
    have hboth := (hfound l List.mem_cons_self s v hv).trans hlater fun m hm hfree =>
      (hl m hm.1).1 hfree.1
    apply hboth.imp
    · rintro m (⟨hlm, hm⟩ | ⟨⟨k, hk, hkm⟩, hm⟩)
      · exact ⟨⟨l, List.mem_cons_self, hlm⟩, hm⟩
      · exact ⟨⟨k, List.mem_cons_of_mem l hk, hkm⟩, hm⟩
    · rintro m (⟨rfl, hm⟩ | ⟨hmem, hm⟩)
      · exact ⟨List.mem_cons_self, hm⟩
      · exact ⟨List.mem_cons_of_mem l hmem, hm⟩

/-- A visit whose elements are confined to the value is so itself. -/
theorem confined_visit_of_elements (hform : options.formEncoded = false) {items : List Field}
    {field : Field} {l : Location} (hl : l.HasShape field.path)
    (helements : ∀ s : RunState, (∃ v, s.data.get? l = some v) →
      Confined (fun m => l <+: m ∧ Converts items m) (fun _ => False) [] s.data
        (visitElements options items s l).data)
    {s : RunState} {v : Value} (hv : s.data.get? l = some v) :
    Confined (fun m => l <+: m ∧ Converts (field :: items) m)
      (fun m => m = l ∧ Drops (field :: items) m) [] s.data
      (visit options items field s (l, .found)).data := by
  cases hrunning : s.abandoned with
  | true =>
    rw [visit_abandoned options items field _ hrunning]
    exact confined_refl _ _
  | false =>
    rw [visit_found options items field l hrunning, isNullAt_of_get? hv]
    cases hnull : v.isNull with
    | true =>
      rw [isNull_eq_true_iff.mp hnull] at hv
      simp only [if_true]
      cases hnullable : field.info.nullable with
      | true => exact confined_refl _ _
      | false =>
        rw [if_neg Bool.false_ne_true, absent_data]
        exact confined_removeNull hv fun hkey =>
          ⟨rfl, hkey, field, List.mem_cons_self, hnullable, hl⟩
    | false =>
      rw [if_neg Bool.false_ne_true, wrapAt_of_not_formEncoded hform]
      obtain ⟨w, hw, hwnull⟩ := exists_get?_visitElements options items hv hnull
      have hpassage : Confined (fun m => l <+: m ∧ Converts (field :: items) m) (fun _ => False) []
          (visitElements options items s l).data
          ((visitElements options items s l).validateAt options field l).data :=
        confined_validateAt hw hwnull fun hconverts =>
          ⟨List.prefix_refl l, field, List.mem_cons_self, hconverts, hl⟩
      apply ((helements s ⟨v, hv⟩).trans hpassage fun m hm => hm.elim).imp
      · rintro m (⟨hlm, hm⟩ | hm)
        · exact ⟨hlm, hm.subset (List.subset_cons_self field items)⟩
        · exact hm
      · rintro m (hm | hm) <;> exact hm.elim

/-- A visit is confined to the value that it is about. -/
theorem confined_visit (hform : options.formEncoded = false) {items : List Field} {field : Field}
    {p : Path} (hpaths : ∀ k f, (field :: items)[k]? = some f → f.path = p.elementsAt k)
    {s : RunState} {l : Location} {v : Value} (hl : l.HasShape p) (hv : s.data.get? l = some v) :
    Confined (fun m => l <+: m ∧ Converts (field :: items) m)
      (fun m => m = l ∧ Drops (field :: items) m) [] s.data
      (visit options items field s (l, .found)).data := by
  have hfield : field.path = p := by simpa using hpaths 0 field rfl
  induction items generalizing field p s l v with
  | nil =>
    exact confined_visit_of_elements hform (hfield ▸ hl) (fun s _ => confined_refl s.data []) hv
  | cons item rest ih =>
    have hitems : ∀ k f, (item :: rest)[k]? = some f → f.path = (p.elementsAt 1).elementsAt k := by
      intro k f hf
      rw [Path.elementsAt_elementsAt, Nat.add_comm]
      exact hpaths (k + 1) f hf
    refine confined_visit_of_elements hform (hfield ▸ hl) (fun s _ => ?_) hv
    rw [visitElements_cons]
    split
    · have hfound : ∀ m ∈ foundPlaces (places (Matches.ofPathAt Path.elements s.data l)),
          ∀ (s : RunState) (w : Value), s.data.get? m = some w →
            Confined (fun n => m <+: n ∧ Converts (item :: rest) n)
              (fun n => n = m ∧ False) [] s.data (visit options rest item s (m, .found)).data := by
        intro m hm s w hw
        obtain ⟨i, rfl⟩ := exists_of_mem_foundPlaces_elements hm
        have hshape : (l ++ [Segment.index i]).HasShape (p.elementsAt 1) :=
          hl.append (List.Forall₂.cons ⟨i, rfl⟩ List.Forall₂.nil)
        apply (ih hitems hshape hw (by simpa using hitems 0 item rfl)).imp fun _ h => h
        rintro n ⟨rfl, ⟨parent, name, hkey⟩, -⟩
        have hlast := (List.append_inj' hkey rfl).2
        simp at hlast
      have hfold := confined_foldl (fun s m how => visit_missing_data options rest item s m)
        (spares_visit options rest item) _ hfound
        (fun m hm => by
          obtain ⟨-, w, -, -, hw⟩ := exists_of_mem_foundPlaces hm
          exact ⟨w, hw⟩)
        (pairwise_apart_foundPlaces Path.elements s.data l)
      apply hfold.imp
      · rintro m ⟨⟨n, hn, hnm⟩, hm⟩
        obtain ⟨i, rfl⟩ := exists_of_mem_foundPlaces_elements hn
        exact ⟨(List.prefix_append l _).trans hnm, hm⟩
      · exact fun m hm => hm.2
    · exact confined_refl _ _

/-- The turn of a chain, or of some places in it, is confined to its fields. -/
theorem confined_places (hform : options.formEncoded = false) {chain : FieldChain}
    (hpaths : ∀ k f, chain.fields[k]? = some f → f.path = chain.path.elementsAt k)
    {ps : List (Location × Found)} (hshapes : ∀ l ∈ foundPlaces ps, l.HasShape chain.path)
    {s : RunState} (hexists : ∀ l ∈ foundPlaces ps, ∃ v, s.data.get? l = some v)
    (hapart : (foundPlaces ps).Pairwise Location.Apart) :
    Confined (fun m => (∃ l ∈ foundPlaces ps, l <+: m) ∧ Converts chain.fields m)
      (fun m => m ∈ foundPlaces ps ∧ Drops chain.fields m) [] s.data
      (ps.foldl (visit options chain.items chain.head) s).data :=
  confined_foldl (fun s m _ => visit_missing_data options chain.items chain.head s m)
    (spares_visit options chain.items chain.head) ps
    (fun l hl _ _ hv => confined_visit hform hpaths (hshapes l hl) hv) hexists hapart

theorem confined_runChain (hform : options.formEncoded = false) {chain : FieldChain}
    (hpaths : ∀ k f, chain.fields[k]? = some f → f.path = chain.path.elementsAt k)
    (s : RunState) :
    Confined (Converts chain.fields) (Drops chain.fields) [] s.data
      (runChain options s chain).data := by
  apply (confined_places hform hpaths (fun l hl => (mem_foundPlaces_ofPath.mp hl).1)
    (fun l hl => (mem_foundPlaces_ofPath.mp hl).2)
    (pairwise_apart_foundPlaces chain.path s.data [])).imp
  · exact fun m hm => hm.2
  · exact fun m hm => hm.2

/-- The turns of chains without common paths, one after the other. -/
theorem confined_foldl_runChain (hform : options.formEncoded = false) {chains : List FieldChain}
    (hpaths : ∀ chain ∈ chains, ∀ k f, chain.fields[k]? = some f →
      f.path = chain.path.elementsAt k)
    (hdistinct : chains.Pairwise fun a b => ∀ f ∈ a.fields, ∀ g ∈ b.fields, f.path ≠ g.path)
    (s : RunState) :
    Confined (Converts (chains.flatMap FieldChain.fields))
      (Drops (chains.flatMap FieldChain.fields)) [] s.data
      (chains.foldl (runChain options) s).data := by
  induction chains generalizing s with
  | nil => exact confined_refl _ _
  | cons chain chains ih =>
    obtain ⟨hchain, hrest⟩ := List.pairwise_cons.mp hdistinct
    have hfirst := confined_runChain hform (hpaths chain List.mem_cons_self) s
    have hlater := ih (fun c hc => hpaths c (List.mem_cons_of_mem chain hc)) hrest
      (runChain options s chain)
    have hboth := hfirst.trans hlater fun m hgone hfree => by
      obtain ⟨f, hf, -, hmf⟩ := hfree
      obtain ⟨-, g, hg, -, hmg⟩ := hgone
      obtain ⟨other, hother, hg⟩ := List.mem_flatMap.mp hg
      exact hchain other hother f hf g hg (hmf.path_unique hmg)
    rw [List.foldl_cons, List.flatMap_cons]
    apply hboth.imp
    · rintro m (hm | hm)
      · exact hm.subset (List.subset_append_left _ _)
      · exact hm.subset (List.subset_append_right _ _)
    · rintro m (hm | hm)
      · exact hm.subset (List.subset_append_left _ _)
      · exact hm.subset (List.subset_append_right _ _)

theorem running_of_foldl_runChain {chains : List FieldChain} {s : RunState}
    (h : (chains.foldl (runChain options) s).abandoned = false) : s.abandoned = false := by
  induction chains generalizing s with
  | nil => exact h
  | cons chain chains ih => exact running_of_foldl (ih h)

/-- A visit takes out a null that the field does not allow. -/
theorem get?_visit_of_null {items : List Field} {field : Field}
    (hnullable : field.info.nullable = false) {s : RunState} {l : Location} {name : String}
    (hnull : s.data.get? (l ++ [Segment.key name]) = some .null)
    (hdistinct : DistinctTo (l ++ [Segment.key name]) s.data) (hrunning : s.abandoned = false) :
    (visit options items field s (l ++ [Segment.key name], .found)).data.get?
      (l ++ [Segment.key name]) = none := by
  rw [visit_found _ _ _ _ hrunning, isNullAt_of_get? hnull, isNull, if_pos rfl, hnullable,
    if_neg Bool.false_ne_true, absent_data]
  have hassign := removeNull_assign hnull
  rw [absence, List.getLast?_concat] at hassign
  exact get?_assign_none hdistinct hassign.symm

/-- In the turn of its chain, the null of a field that does not allow it is gone, if no value above
it may be converted. -/
theorem get?_runChain_of_null (hform : options.formEncoded = false) {chain : FieldChain}
    (hpaths : ∀ k f, chain.fields[k]? = some f → f.path = chain.path.elementsAt k)
    (hnullable : chain.head.info.nullable = false) {s : RunState} {l : Location} {name : String}
    (hshape : Location.HasShape (l ++ [Segment.key name]) chain.path)
    (hnull : s.data.get? (l ++ [Segment.key name]) = some .null)
    (hdistinct : DistinctTo (l ++ [Segment.key name]) s.data)
    (hfree : ∀ m, m <+: l → ¬ Converts chain.fields m)
    (hrunning : (runChain options s chain).abandoned = false) :
    (runChain options s chain).data.get? (l ++ [Segment.key name]) = none := by
  have hmem := mem_foundPlaces.mp (mem_foundPlaces_ofPath.mpr ⟨hshape, _, hnull⟩)
  obtain ⟨before, after, hplaces⟩ := List.append_of_mem hmem
  have hfound : foundPlaces (places (Matches.ofPath chain.path s.data)) =
      foundPlaces before ++ (l ++ [Segment.key name]) :: foundPlaces after := by
    rw [hplaces, foundPlaces_append]
    simp [foundPlaces]
  have hapart := pairwise_apart_foundPlaces chain.path s.data []
  rw [← Matches.ofPath, hfound, List.pairwise_append, List.pairwise_cons] at hapart
  obtain ⟨hbefore, ⟨hlafter, -⟩, hacross⟩ := hapart
  have hsub : ∀ m ∈ foundPlaces before, m.HasShape chain.path ∧ ∃ v, s.data.get? m = some v := by
    intro m hm
    apply mem_foundPlaces_ofPath.mp
    rw [hfound]
    exact List.mem_append_left _ hm
  unfold runChain at hrunning ⊢
  rw [hplaces, List.foldl_append, List.foldl_cons] at hrunning ⊢
  -- The visits before leave the null in its map, and no key twice on the way.
  have hconfined := confined_places hform hpaths (fun m hm => (hsub m hm).1)
    (fun m hm => (hsub m hm).2) hbefore
  generalize hs' : before.foldl (visit options chain.items chain.head) s = s' at *
  have hnull' : s'.data.get? (l ++ [Segment.key name]) = some .null := by
    rw [← hs', get?_foldl_visit (fun m hm => hacross m hm _ List.mem_cons_self), hnull]
  have hdistinct' : DistinctTo (l ++ [Segment.key name]) s'.data := by
    apply hconfined.distinctTo hdistinct
    intro n hn hne hm
    exact hfree n ((List.prefix_concat_iff.mp hn).resolve_left hne) hm.2
  have hrunning' : s'.abandoned = false := by
    by_contra hs
    rw [Bool.not_eq_false] at hs
    rw [visit_abandoned _ _ _ _ hs, foldl_visit_abandoned _ _ _ _ hs, hs] at hrunning
    contradiction
  rw [get?_foldl_visit fun m hm => (hlafter m hm).symm]
  exact get?_visit_of_null hnullable hnull' hdistinct' hrunning'

/-- In the turns of chains, the null of a field that does not allow it goes when its chain comes, if
no value above it may be converted, and does not come back. -/
theorem get?_foldl_runChain_of_null (hform : options.formEncoded = false)
    {chains : List FieldChain}
    (hpaths : ∀ chain ∈ chains, ∀ k f, chain.fields[k]? = some f →
      f.path = chain.path.elementsAt k)
    (hdistinct : chains.Pairwise fun a b => ∀ f ∈ a.fields, ∀ g ∈ b.fields, f.path ≠ g.path)
    {chain : FieldChain} (hchain : chain ∈ chains) (hnullable : chain.head.info.nullable = false)
    {s : RunState} {l : Location} {name : String}
    (hshape : Location.HasShape (l ++ [Segment.key name]) chain.path)
    (hnull : s.data.get? (l ++ [Segment.key name]) = some .null)
    (hkeys : DistinctTo (l ++ [Segment.key name]) s.data)
    (hfree : ∀ m, m <+: l → ¬ Converts (chains.flatMap FieldChain.fields) m)
    (hrunning : (chains.foldl (runChain options) s).abandoned = false) :
    (chains.foldl (runChain options) s).data.get? (l ++ [Segment.key name]) = none := by
  induction chains generalizing s with
  | nil => contradiction
  | cons first chains ih =>
    rw [List.flatMap_cons] at hfree
    have hfirst : ∀ m, m <+: l → ¬ Converts first.fields m :=
      fun m hm hconverts => hfree m hm (hconverts.subset (List.subset_append_left _ _))
    have hothers : ∀ m, m <+: l → ¬ Converts (chains.flatMap FieldChain.fields) m :=
      fun m hm hconverts => hfree m hm (hconverts.subset (List.subset_append_right _ _))
    -- On the way to the null, no chain converts anything.
    have hway : ∀ fields, (∀ m, m <+: l → ¬ Converts fields m) →
        ∀ n, n <+: l ++ [Segment.key name] → n ≠ l ++ [Segment.key name] →
          ¬ Converts fields ([] ++ n) :=
      fun fields hfields n hn hne => hfields n ((List.prefix_concat_iff.mp hn).resolve_left hne)
    have hturn := confined_runChain hform (hpaths first List.mem_cons_self) s
    have hpaths' := fun c hc => hpaths c (List.mem_cons_of_mem first hc)
    have hdistinct' := (List.pairwise_cons.mp hdistinct).2
    have hlater := confined_foldl_runChain hform hpaths' hdistinct' (runChain options s first)
    have hkeys' := hturn.distinctTo hkeys (hway _ hfirst)
    have hgone := hlater.get?_eq_none hkeys' (hway _ hothers)
    rcases List.mem_cons.mp hchain with rfl | hchain
    · exact hgone (get?_runChain_of_null hform (hpaths _ List.mem_cons_self) hnullable hshape hnull
        hkeys hfirst (running_of_foldl_runChain hrunning))
    · rcases hturn.get?_of_null hkeys (hway _ hfirst) hnull with hnone | hstays
      · exact hgone hnone
      · exact ih hpaths' hdistinct' hchain hstays hkeys' hothers hrunning

end RunState

namespace CompiledRules

open RunState Value

variable {options : RunOptions} {c : CompiledRules}

theorem WellFormed.pairwise_paths (h : c.WellFormed) :
    c.chains.Pairwise fun a b => ∀ f ∈ a.fields, ∀ g ∈ b.fields, f.path ≠ g.path := by
  have hchains : c.chains.Nodup := (h.arranged.nodup_heads h.nodup).of_map
  apply hchains.imp_of_mem
  intro a b ha hb hne f hf g hg hpath
  exact hne (h.arranged.chain_unique h.nodup ha hb hf hg hpath)

/-- A run is confined to what its fields convert and drop. -/
theorem confined_validate (hwell : c.WellFormed) (hform : options.formEncoded = false)
    (d : Value) :
    Confined (Converts c.fields) (Drops c.fields) [] d (c.validate options d).data := by
  change Confined _ _ [] d (c.runState options d).data
  unfold runState
  split
  · exact confined_refl _ _
  · exact confined_foldl_runChain hform (fun chain hchain k f => hwell.path_fields hchain)
      hwell.pairwise_paths { data := d }

/-- A field whose path leads to keys is the outermost one of its chain. -/
theorem exists_head_of_key (hwell : c.WellFormed) {f : Field} (hf : f ∈ c.fields) {l : Location}
    {name : String} (hshape : Location.HasShape (l ++ [Segment.key name]) f.path) :
    ∃ chain ∈ c.chains, chain.head = f := by
  obtain ⟨chain, hchain, k, hk⟩ := exists_getElem?_fields hf
  refine ⟨chain, hchain, ?_⟩
  cases k with
  | zero => exact Option.some.inj hk
  | succ k =>
    rw [hwell.path_fields hchain hk, Path.elementsAt_succ] at hshape
    obtain ⟨m, n, happend, -, hn⟩ := hshape.exists_append
    obtain ⟨s, rest, ⟨i, rfl⟩, hrest, rfl⟩ := List.forall₂_cons_left_iff.mp hn
    rw [List.forall₂_nil_left_iff.mp hrest] at happend
    have hlast := (List.append_inj' happend rfl).2
    simp at hlast

/-- After a run that was not abandoned, the nulls that count as absent are gone, if no value above
them may be converted. -/
theorem get?_validate_of_null (hwell : c.WellFormed) (hform : options.formEncoded = false)
    {d : Value} (hd : d.WellFormed) (hrunning : (c.validate options d).abandoned = false)
    {l : Location} {name : String} (hnull : d.get? (l ++ [Segment.key name]) = some .null)
    (hdrops : Drops c.fields (l ++ [Segment.key name]))
    (hfree : ∀ m, m <+: l → ¬ Converts c.fields m) :
    (c.validate options d).data.get? (l ++ [Segment.key name]) = none := by
  obtain ⟨-, f, hf, hnullable, hshape⟩ := hdrops
  obtain ⟨chain, hchain, rfl⟩ := exists_head_of_key hwell hf hshape
  have hroot : d.isNull = false := by
    by_contra hroot
    rw [Bool.not_eq_false, isNull_eq_true_iff] at hroot
    subst hroot
    cases l <;> simp [Value.get?, Value.child?] at hnull
  have hrun : c.runState options d = c.chains.foldl (runChain options) { data := d } := by
    rw [runState, if_neg (by simp [hroot])]
  change (c.runState options d).abandoned = false at hrunning
  change (c.runState options d).data.get? _ = none
  rw [hrun] at hrunning ⊢
  exact get?_foldl_runChain_of_null hform (fun a ha k f => hwell.path_fields ha)
    hwell.pairwise_paths hchain hnullable hshape hnull (hd.distinctTo _) hfree hrunning

/-- Writes are confined: after a run that is not form-encoded the data is as before but for values
that a field converts, below non-null values at those locations, and for nulls of keys where a field
does not allow null. A run that was not abandoned has taken out all of these that are below no value
that is converted, so without conversions nothing else happened to the data. -/
theorem writes_confined {set : RuleSet} (hcompile : compile set = .ok c)
    (hform : options.formEncoded = false) {d : Value} (hd : d.WellFormed) :
    Confined (Converts c.fields) (Drops c.fields) [] d (c.validate options d).data ∧
    ((c.validate options d).abandoned = false →
      (∀ l name, d.get? (l ++ [Segment.key name]) = some .null →
        Drops c.fields (l ++ [Segment.key name]) → (∀ m, m <+: l → ¬ Converts c.fields m) →
          (c.validate options d).data.get? (l ++ [Segment.key name]) = none) ∧
      ((∀ f ∈ c.fields, ∀ v ∈ f.validators, v.converting = false) →
        (c.validate options d).data = trimmed (Drops c.fields) [] d)) := by
  have hwell := wellFormed_of_compile hcompile
  have hconfined := confined_validate hwell hform d
  refine ⟨hconfined, fun hrunning => ⟨fun l name hnull hdrops hfree => ?_, fun hnone => ?_⟩⟩
  · exact get?_validate_of_null hwell hform hd hrunning hnull hdrops hfree
  · have hnot : ∀ m, ¬ Converts c.fields m := by
      rintro m ⟨f, hf, ⟨v, hv, hconverting⟩, -⟩
      rw [hnone f hf v hv] at hconverting
      contradiction
    apply (hconfined.imp (fun m hm => hnot m hm) fun m hm => hm).eq_trimmed hd
    intro l name hnull hdrops
    exact get?_validate_of_null hwell hform hd hrunning hnull hdrops fun m _ => hnot m

/-- A name, and a note that may be null. -/
def profileRules : RuleSet :=
  [("name", .rules [Rules.string]), ("note", .rules [Rules.nullable.withId (.declared 1)])]

/-- A profile of nulls, one of them in a sequence. -/
def profile : Value :=
  .map [("name", .null), ("note", .null), ("tags", .sequence [.null])]

theorem writes_confined_profile : ∃ c, compile profileRules = .ok c ∧
    (c.validate plainOptions profile).data =
      .map [("note", .null), ("tags", .sequence [.null])] := by
  obtain ⟨c, hc⟩ := exists_of_isOk (by decide : (compile profileRules).isOk = true)
  have hfields := eq_of_compile hc (fun c => c.fields.map fun f => (f.path, f.info.nullable))
    (a := [([.key "name"], false), ([.key "note"], true)]) (by cbv)
  have hvalidators := eq_of_compile hc (fun c => c.fields.flatMap Field.validators)
    (a := [Rules.string, Rules.nullable.withId (.declared 1)]) (by cbv)
  have hchecks : ∀ f ∈ c.fields, ∀ v ∈ f.validators,
      v.converting = false ∧ ∀ x, (v.check x).abandoned = false := by
    intro f hf v hv
    have hmem := List.mem_flatMap.mpr ⟨f, hf, hv⟩
    rw [hvalidators] at hmem
    simp only [List.mem_cons, List.not_mem_nil, or_false] at hmem
    rcases hmem with rfl | rfl <;> exact ⟨rfl, fun _ => rfl⟩
  have hdata : profile.WellFormed := by
    simp [profile, Value.WellFormed, Value.WellFormedEntries, Value.WellFormedItems, Keyed.keys]
  have hname : Drops c.fields [.key "name"] := by
    obtain ⟨f, hf, hpair⟩ := List.mem_map.mp (hfields ▸ List.mem_cons_self :
      ([.key "name"], false) ∈ c.fields.map fun f => (f.path, f.info.nullable))
    obtain ⟨hpath, hnullable⟩ := Prod.mk.inj hpair
    exact ⟨⟨[], "name", rfl⟩, f, hf, hnullable, hpath ▸ by simp [Location.HasShape, Accessor.Fits]⟩
  have hnote : ¬ Drops c.fields [.key "note"] := by
    rintro ⟨-, f, hf, hnullable, hshape⟩
    have hmem := List.mem_map_of_mem (f := fun f : Field => (f.path, f.info.nullable)) hf
    rw [hfields, hnullable] at hmem
    have hpath : f.path = [.key "name"] := by simpa using hmem
    rw [hpath] at hshape
    simp [Location.HasShape, Accessor.Fits] at hshape
  refine ⟨c, hc, ?_⟩
  have htrimmed := ((writes_confined hc (rfl : plainOptions.formEncoded = false) hdata).2
    (validate_abandoned (fun f hf v hv => (hchecks f hf v hv).2) _ _)).2
    fun f hf v hv => (hchecks f hf v hv).1
  rw [htrimmed]
  simp [profile, trimmed, trimmedEntries, trimmedItems, isNull, hname, hnote]

end CompiledRules
end PathRules

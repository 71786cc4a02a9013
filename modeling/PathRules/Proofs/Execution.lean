import PathRules.Proofs.Places
import PathRules.Run
/-!
How a run goes over its data. Every visit of a value edits the data at its location only, so the
matches of a chain stay as they were collected until their turns come. A property of runs therefore
follows from what the single actions do, which is stated once, as a rule. Main statement: the log of
a run grows by the questions that are due, chain by chain.
-/

namespace PathRules

/-- A validator of the field at a path, to be asked about a location. -/
structure Question where
  field : Path
  validator : ValidatorId
  location : Location
  deriving DecidableEq

/-- The question that was asked. -/
def Invocation.question (i : Invocation) : Question :=
  ⟨i.field, i.validator, i.location⟩

namespace RunState

open Value

/-- All questions of a field about a location. -/
def questions (field : Field) (l : Location) : List Question :=
  field.ids.map fun id => ⟨field.path, id, l⟩

/-- The value that a field finds at a location, wrapped where that is due. -/
def prepared (options : RunOptions) (field : Field) (l : Location) (v : Value) : Value :=
  if options.formEncoded && wrapsAt field l then wrapped v else v

/-- The questions due about a value and its elements. None are about null, and those about the
elements come first. -/
def due (options : RunOptions) : List Field → Field → Option Value → Location → List Question
  | _, _, none, _ => []
  | [], field, some v, l => if v.isNull then [] else questions field l
  | item :: rest, field, some v, l =>
    if v.isNull then []
    else
      let v := prepared options field l v
      ((Path.locations Path.elements (some v)).flatMap fun m =>
        due options rest item (v.get? m) (l ++ m)) ++ questions field l

/-- The questions due about the elements of a value. -/
def elementsDue (options : RunOptions) : List Field → Value → Location → List Question
  | [], _, _ => []
  | item :: rest, v, l =>
    (Path.locations Path.elements (some v)).flatMap fun m =>
      due options rest item (v.get? m) (l ++ m)

theorem due_some (options : RunOptions) (items : List Field) (field : Field) (v : Value)
    (l : Location) :
    due options items field (some v) l =
      if v.isNull then []
      else elementsDue options items (prepared options field l v) l ++ questions field l := by
  cases items <;> rfl

/-- The questions due when a chain takes its turn. -/
def chainDue (options : RunOptions) (chain : FieldChain) (data : Value) : List Question :=
  (chain.path.locations (some data)).flatMap fun l =>
    due options chain.items chain.head (data.get? l) l

theorem absent_eq (s : RunState) (options : RunOptions) (field : Field) (l : Location) :
    ∃ errors, s.absent options field l = { s with errors } := by
  unfold absent
  dsimp only
  split
  · exact ⟨s.errors, rfl⟩
  · exact ⟨_, rfl⟩

theorem removeNull_eq (s : RunState) (l : Location) :
    s.removeNull l = s ∨
      ∃ old data, s.data.remove? l = some (old, data) ∧ s.removeNull l = { s with data } := by
  unfold removeNull
  split
  · split
    next old data hremove => exact Or.inr ⟨old, data, hremove, rfl⟩
    next => exact Or.inl rfl
  · exact Or.inl rfl

theorem wrapAt_eq (s : RunState) (options : RunOptions) (field : Field) (l : Location) {v : Value}
    (hget : s.data.get? l = some v) :
    ∃ data, s.data.update? (fun v => some (prepared options field l v)) l = some data ∧
      s.wrapAt options field l = { s with data } := by
  unfold wrapAt
  split
  next hwraps =>
    have hprepared : prepared options field l = wrapped := by
      funext v
      rw [prepared, if_pos hwraps]
    obtain ⟨data, hdata⟩ := exists_update? (f := fun v => some (wrapped v)) hget rfl
    refine ⟨data, ?_, ?_⟩
    · rw [hprepared]
      exact hdata
    · rw [hdata, Option.getD_some]
  next hwraps =>
    refine ⟨s.data, update?_eq_self hget ?_, rfl⟩
    rw [prepared, if_neg hwraps]

theorem get?_wrapAt (options : RunOptions) (field : Field) {s : RunState} {l : Location} {v : Value}
    (hget : s.data.get? l = some v) :
    (s.wrapAt options field l).data.get? l = some (prepared options field l v) := by
  obtain ⟨data, hdata, hwrap⟩ := s.wrapAt_eq options field l hget
  obtain ⟨c, new, hc, hnew, hnewget⟩ := get?_update? hdata
  rw [hget] at hc
  cases hc
  cases hnew
  rw [hwrap, hnewget]

theorem log_wrapAt (options : RunOptions) (field : Field) (s : RunState) (l : Location) :
    (s.wrapAt options field l).log = s.log := by
  unfold wrapAt
  split <;> rfl

theorem wrapAt_of_not_formEncoded {options : RunOptions} (h : options.formEncoded = false)
    (s : RunState) (field : Field) (l : Location) : s.wrapAt options field l = s := by
  simp [wrapAt, h]

theorem foldl_report_eq (s : RunState) (ls : List Location) (message : String) :
    ∃ errors, ls.foldl (fun s l => s.report l message) s = { s with errors } := by
  induction ls generalizing s with
  | nil => exact ⟨s.errors, rfl⟩
  | cons l ls ih => exact ih (s.report l message)

/-- Asking one validator leaves the data, and changes the value only if the validator converts. -/
theorem ask_eq (options : RunOptions) (field : Field) (l : Location) (p : Passage) (v : Validator)
    (hrunning : p.state.abandoned = false) :
    (p.ask options field l v).state.data = p.state.data ∧
      (∃ notes, (p.ask options field l v).state.log =
        p.state.log ++ [⟨field.path, v.id, l, notes⟩]) ∧
      (v.converting = false → (p.ask options field l v).value = p.value) := by
  unfold Passage.ask
  rw [if_neg (by simp [hrunning])]
  refine ⟨?_, ?_, ?_⟩
  · dsimp only
    split
    · obtain ⟨errors, herrors⟩ := foldl_report_eq _ _ _
      rw [herrors]
    · rfl
  · dsimp only
    split
    · obtain ⟨errors, herrors⟩ := foldl_report_eq _ _ _
      rw [herrors]
      exact ⟨_, rfl⟩
    · exact ⟨_, rfl⟩
  · intro hconverting
    simp [hconverting]

/-- Once a run is abandoned, a field asks nothing more. -/
theorem foldl_ask_abandoned (options : RunOptions) (field : Field) (l : Location) (p : Passage)
    (vs : List Validator) (h : p.state.abandoned = true) :
    vs.foldl (Passage.ask options field l) p = p := by
  induction vs with
  | nil => rfl
  | cons v vs ih =>
    have hask : p.ask options field l v = p := by
      unfold Passage.ask
      rw [if_pos h]
    rw [List.foldl_cons, hask, ih]

theorem foldl_ask_data (options : RunOptions) (field : Field) (l : Location) (p : Passage)
    (vs : List Validator) :
    (vs.foldl (Passage.ask options field l) p).state.data = p.state.data := by
  induction vs generalizing p with
  | nil => rfl
  | cons v vs ih =>
    rw [List.foldl_cons, ih]
    cases habandoned : p.state.abandoned with
    | true =>
      unfold Passage.ask
      rw [if_pos habandoned]
    | false => exact (ask_eq options field l p v habandoned).1

/-- A passage of validators that do not convert leaves the value. -/
theorem foldl_ask_value (options : RunOptions) (field : Field) (l : Location) (p : Passage)
    {vs : List Validator} (hvs : ∀ v ∈ vs, v.converting = false) :
    (vs.foldl (Passage.ask options field l) p).value = p.value := by
  induction vs generalizing p with
  | nil => rfl
  | cons v vs ih =>
    rw [List.foldl_cons, ih _ fun w hw => hvs w (List.mem_cons_of_mem v hw)]
    cases habandoned : p.state.abandoned with
    | true =>
      unfold Passage.ask
      rw [if_pos habandoned]
    | false => exact (ask_eq options field l p v habandoned).2.2 (hvs v List.mem_cons_self)

theorem validateAt_eq {s : RunState} {l : Location} {v data : Value}
    (htake : s.data.take? l = some (v, data)) (options : RunOptions) (field : Field) :
    s.validateAt options field l =
      let p := field.validators.foldl (Passage.ask options field l) ⟨{ s with data }, v, false⟩
      { p.state with data := (data.set? l p.value).getD data } := by
  have hdata := foldl_ask_data options field l ⟨{ s with data }, v, false⟩ field.validators
  unfold validateAt
  rw [htake, Option.getD_some]
  dsimp only
  rw [hdata]

/-- The passage of a value through a field edits the data at its location only. -/
theorem spares_validateAt (s : RunState) (options : RunOptions) (field : Field) (l : Location) :
    Spares l s.data (s.validateAt options field l).data := by
  have hset : ∀ (data c : Value), Spares l data ((data.set? l c).getD data) := by
    intro data c
    cases hdata : data.set? l c with
    | none => exact Spares.refl l data
    | some w => exact spares_set? hdata
  cases htake : s.data.take? l with
  | none =>
    unfold validateAt
    rw [htake, Option.getD_none]
    dsimp only
    rw [foldl_ask_data]
    exact hset _ _
  | some found =>
    obtain ⟨v, data⟩ := found
    rw [validateAt_eq htake]
    exact (spares_take? htake).trans (hset _ _)

theorem spares_removeNull (s : RunState) (l : Location) :
    Spares l s.data (s.removeNull l).data := by
  rcases s.removeNull_eq l with h | ⟨old, data, hremove, h⟩
  · rw [h]
    exact Spares.refl l s.data
  · rw [h]
    exact spares_remove? hremove

theorem absent_data (s : RunState) (options : RunOptions) (field : Field) (l : Location) :
    (s.absent options field l).data = s.data := by
  obtain ⟨errors, herrors⟩ := s.absent_eq options field l
  rw [herrors]

theorem spares_wrapAt (s : RunState) (options : RunOptions) (field : Field) (l : Location) :
    Spares l s.data (s.wrapAt options field l).data := by
  unfold wrapAt
  split
  · cases hdata : s.data.update? (fun v => some (wrapped v)) l with
    | none => exact Spares.refl l s.data
    | some w => exact spares_update? hdata
  · exact Spares.refl l s.data

/-- The locations of the matches that were found. -/
def foundPlaces (ps : List (Location × Found)) : List Location :=
  (ps.filter fun p => p.2 == .found).map Prod.fst

theorem mem_foundPlaces {ps : List (Location × Found)} {l : Location} :
    l ∈ foundPlaces ps ↔ (l, .found) ∈ ps := by
  simp [foundPlaces]

theorem foundPlaces_cons_found (l : Location) (ps : List (Location × Found)) :
    foundPlaces ((l, .found) :: ps) = l :: foundPlaces ps := rfl

theorem foundPlaces_cons_missing (l : Location) {how : Found} (hhow : how ≠ .found)
    (ps : List (Location × Found)) : foundPlaces ((l, how) :: ps) = foundPlaces ps := by
  simp [foundPlaces, hhow]

theorem foundPlaces_append (ps qs : List (Location × Found)) :
    foundPlaces (ps ++ qs) = foundPlaces ps ++ foundPlaces qs := by
  simp [foundPlaces]

theorem foundPlaces_places (ms : Matches) : foundPlaces (places ms) = ms.found := by
  rw [foundPlaces, places, List.filter_map, List.map_map]
  rfl

/-- What was found from a node on exists and has the shape of the path below the node. -/
theorem exists_of_mem_foundPlaces {p : Path} {data : Value} {l m : Location}
    (hm : m ∈ foundPlaces (places (Matches.ofPathAt p data l))) :
    ∃ n w, m = l ++ n ∧ n.HasShape p ∧ data.get? m = some w := by
  rw [foundPlaces_places, Matches.found_ofPathAt] at hm
  obtain ⟨n, hn, rfl⟩ := List.mem_map.mp hm
  cases hv : data.get? l with
  | none => simp [hv] at hn
  | some v =>
    rw [hv] at hn
    obtain ⟨hshape, w, hw⟩ := Path.mem_locations.mp hn
    exact ⟨n, w, rfl, hshape, by rw [get?_append, hv, Option.bind_some, hw]⟩

/-- What was found from a node on is apart. -/
theorem pairwise_apart_foundPlaces (p : Path) (data : Value) (l : Location) :
    (foundPlaces (places (Matches.ofPathAt p data l))).Pairwise Location.Apart := by
  have hnodup : (foundPlaces (places (Matches.ofPathAt p data l))).Nodup := by
    rw [foundPlaces_places, Matches.found_ofPathAt]
    exact (p.nodup_locations _).map (List.append_right_injective l)
  apply hnodup.imp_of_mem
  intro m n hm hn hne
  obtain ⟨m', -, rfl, hm', -⟩ := exists_of_mem_foundPlaces hm
  obtain ⟨n', -, rfl, hn', -⟩ := exists_of_mem_foundPlaces hn
  refine Location.apart_of_length_eq ?_ hne
  rw [List.length_append, List.length_append, hm'.length_eq, hn'.length_eq]

/-- Visits below a location spare what an edit there spares. -/
theorem spares_foldl {visit : RunState → Location × Found → RunState} {l : Location}
    (hmissing : ∀ s m how, how ≠ .found → (visit s (m, how)).data = s.data)
    (hfound : ∀ s m, Spares m s.data (visit s (m, .found)).data)
    {ps : List (Location × Found)} (hbelow : ∀ m ∈ foundPlaces ps, l <+: m) (s : RunState) :
    Spares l s.data (ps.foldl visit s).data := by
  induction ps generalizing s with
  | nil => exact Spares.refl l s.data
  | cons p ps ih =>
    obtain ⟨m, how⟩ := p
    have hrest := ih (fun m' hm' => hbelow m' (mem_foundPlaces.mpr
      (List.mem_cons_of_mem _ (mem_foundPlaces.mp hm')))) (visit s (m, how))
    rw [List.foldl_cons]
    by_cases hhow : how = .found
    · subst hhow
      obtain ⟨rest, rfl⟩ := hbelow m (mem_foundPlaces.mpr List.mem_cons_self)
      exact (hfound s _).of_append.trans hrest
    · rwa [hmissing s m how hhow] at hrest

/-- Induction over places that exist and are apart: each visit finds the value that was there at the
start. -/
theorem foldl_places_induction {visit : RunState → Location × Found → RunState}
    {R : List (Location × Found) → RunState → RunState → Prop}
    (hmissing : ∀ s l how, how ≠ .found → (visit s (l, how)).data = s.data)
    (hspares : ∀ s l, Spares l s.data (visit s (l, .found)).data) (hnil : ∀ s, R [] s s)
    (hskip : ∀ l how ps s t, how ≠ .found → R ps (visit s (l, how)) t → R ((l, how) :: ps) s t)
    (hstep : ∀ l v ps s t, s.data.get? l = some v → (∀ m ∈ foundPlaces ps, Location.Apart l m) →
      R ps (visit s (l, .found)) t → R ((l, .found) :: ps) s t)
    (ps : List (Location × Found)) {s : RunState}
    (hexists : ∀ l ∈ foundPlaces ps, ∃ v, s.data.get? l = some v)
    (hapart : (foundPlaces ps).Pairwise Location.Apart) : R ps s (ps.foldl visit s) := by
  induction ps generalizing s with
  | nil => exact hnil s
  | cons p ps ih =>
    obtain ⟨l, how⟩ := p
    rw [List.foldl_cons]
    by_cases hhow : how = .found
    · subst hhow
      rw [foundPlaces_cons_found] at hexists hapart
      obtain ⟨hl, hrest⟩ := List.pairwise_cons.mp hapart
      obtain ⟨v, hv⟩ := hexists l List.mem_cons_self
      refine hstep l v ps s _ hv hl (ih (fun m hm => ?_) hrest)
      rw [(hspares s l).apart m (hl m hm)]
      exact hexists m (List.mem_cons_of_mem l hm)
    · rw [foundPlaces_cons_missing l hhow] at hexists hapart
      refine hskip l how ps s _ hhow (ih (fun m hm => ?_) hapart)
      rw [hmissing s l how hhow]
      exact hexists m hm

theorem visit_missing (options : RunOptions) (items : List Field) (field : Field) (s : RunState)
    (l : Location) {how : Found} (hhow : how ≠ .found) :
    visit options items field s (l, how) = s ∨
      visit options items field s (l, how) = s.absent options field l := by
  unfold visit
  split
  · exact Or.inl rfl
  · rw [if_pos (by simpa using hhow)]
    exact Or.inr rfl

theorem visit_missing_data (options : RunOptions) (items : List Field) (field : Field)
    (s : RunState) (l : Location) {how : Found} (hhow : how ≠ .found) :
    (visit options items field s (l, how)).data = s.data := by
  rcases visit_missing options items field s l hhow with h | h
  · rw [h]
  · rw [h, absent_data]

theorem visit_of_ne_found (options : RunOptions) (items : List Field) (field : Field) {s : RunState}
    (l : Location) {how : Found} (hrunning : s.abandoned = false) (hhow : how ≠ .found) :
    visit options items field s (l, how) = s.absent options field l := by
  rw [visit, if_neg (by simp [hrunning]), if_pos (by simpa using hhow)]

/-- Visits the elements of a sequence with the element fields below its own. -/
def visitElements (options : RunOptions) (items : List Field) (s : RunState) (l : Location) :
    RunState :=
  match items, s.data.get? l with
  | item :: rest, some (.sequence _) =>
    (places (Matches.ofPathAt Path.elements s.data l)).foldl (visit options rest item) s
  | _, _ => s

theorem visit_found (options : RunOptions) (items : List Field) (field : Field) {s : RunState}
    (l : Location) (hrunning : s.abandoned = false) :
    visit options items field s (l, .found) =
      if s.isNullAt l then
        if field.info.nullable then s else (s.removeNull l).absent options field l
      else
        (visitElements options items (s.wrapAt options field l) l).validateAt options field l := by
  rw [visit, if_neg (by simp [hrunning]), if_neg (by simp)]
  rfl

theorem visit_abandoned (options : RunOptions) (items : List Field) (field : Field) {s : RunState}
    (place : Location × Found) (habandoned : s.abandoned = true) :
    visit options items field s place = s := by
  obtain ⟨l, how⟩ := place
  rw [visit, if_pos habandoned]

/-- Steps that do nothing once a run is abandoned do nothing all together. -/
theorem foldl_abandoned {α : Type} {step : RunState → α → RunState}
    (h : ∀ s a, s.abandoned = true → step s a = s) (as : List α) {s : RunState}
    (habandoned : s.abandoned = true) : as.foldl step s = s := by
  induction as with
  | nil => rfl
  | cons a as ih => rw [List.foldl_cons, h s a habandoned, ih]

theorem foldl_visit_abandoned (options : RunOptions) (items : List Field) (field : Field)
    {s : RunState} (ps : List (Location × Found)) (habandoned : s.abandoned = true) :
    ps.foldl (visit options items field) s = s :=
  foldl_abandoned (fun _ p hs => visit_abandoned options items field p hs) ps habandoned

/-- What ran to the end was not abandoned on the way. -/
theorem running_of_foldl {options : RunOptions} {items : List Field} {field : Field} {s : RunState}
    {ps : List (Location × Found)}
    (h : (ps.foldl (visit options items field) s).abandoned = false) : s.abandoned = false := by
  rw [← Bool.not_eq_true]
  intro hs
  rw [foldl_visit_abandoned options items field ps hs, hs] at h
  contradiction

theorem visitElements_cons (options : RunOptions) (item : Field) (rest : List Field)
    (s : RunState) (l : Location) :
    visitElements options (item :: rest) s l =
      if (s.data.get? l).any Value.isSequence then
        (places (Matches.ofPathAt Path.elements s.data l)).foldl (visit options rest item) s
      else s := by
  unfold visitElements
  cases s.data.get? l with
  | none => rfl
  | some v => cases v <;> rfl

theorem spares_visit_of_elements {options : RunOptions} {items : List Field} {l : Location}
    (helements : ∀ s, Spares l s.data (visitElements options items s l).data) (field : Field)
    (s : RunState) : Spares l s.data (visit options items field s (l, .found)).data := by
  cases hrunning : s.abandoned with
  | true =>
    rw [visit_abandoned options items field _ hrunning]
    exact Spares.refl l s.data
  | false =>
    rw [visit_found options items field l hrunning]
    split
    · split
      · exact Spares.refl l s.data
      · rw [absent_data]
        exact s.spares_removeNull l
    · exact ((s.spares_wrapAt options field l).trans (helements _)).trans
        (spares_validateAt _ options field l)

theorem exists_of_mem_foundPlaces_elements {data : Value} {l m : Location}
    (hm : m ∈ foundPlaces (places (Matches.ofPathAt Path.elements data l))) :
    ∃ i, m = l ++ [.index i] := by
  obtain ⟨below, -, rfl, hshape, -⟩ := exists_of_mem_foundPlaces hm
  obtain ⟨s, rest, ⟨i, rfl⟩, hrest, rfl⟩ := List.forall₂_cons_left_iff.mp hshape
  rw [List.forall₂_nil_left_iff.mp hrest]
  exact ⟨i, rfl⟩

theorem spares_visitElements {options : RunOptions} {item : Field} {rest : List Field}
    (hvisit : ∀ s l, Spares l s.data (visit options rest item s (l, .found)).data) (s : RunState)
    (l : Location) : Spares l s.data (visitElements options (item :: rest) s l).data := by
  rw [visitElements_cons]
  split
  · refine spares_foldl (fun s m how => visit_missing_data options rest item s m) hvisit ?_ s
    intro m hm
    obtain ⟨i, rfl⟩ := exists_of_mem_foundPlaces_elements hm
    exact List.prefix_append l _
  · exact Spares.refl l s.data

/-- A visit edits the data at its location only. -/
theorem spares_visit (options : RunOptions) (items : List Field) (field : Field) (s : RunState)
    (l : Location) : Spares l s.data (visit options items field s (l, .found)).data := by
  induction items generalizing field s l with
  | nil => exact spares_visit_of_elements (fun s => Spares.refl l s.data) field s
  | cons item rest ih =>
    exact spares_visit_of_elements (fun s => spares_visitElements (ih item) s l) field s

/-- Visits leave the locations that are apart from them. -/
theorem get?_foldl_visit {options : RunOptions} {items : List Field} {field : Field}
    {ps : List (Location × Found)} {l : Location}
    (hapart : ∀ m ∈ foundPlaces ps, Location.Apart m l) (s : RunState) :
    (ps.foldl (visit options items field) s).data.get? l = s.data.get? l := by
  induction ps generalizing s with
  | nil => rfl
  | cons p ps ih =>
    obtain ⟨m, how⟩ := p
    have hrest := fun n hn => hapart n (mem_foundPlaces.mpr
      (List.mem_cons_of_mem (m, how) (mem_foundPlaces.mp hn)))
    rw [List.foldl_cons, ih hrest]
    by_cases hhow : how = .found
    · subst hhow
      exact (spares_visit options items field s m).apart l
        (hapart m (mem_foundPlaces.mpr List.mem_cons_self))
    · rw [visit_missing_data options items field s m hhow]

/-- Visiting the elements of a value leaves its outline. -/
theorem outline_visitElements (options : RunOptions) (items : List Field) (s : RunState)
    (l : Location) :
    ((visitElements options items s l).data.get? l).bind outline =
      (s.data.get? l).bind outline := by
  cases items with
  | nil => rfl
  | cons item rest =>
    rw [visitElements_cons]
    split
    · have hfold : ∀ (ps : List (Location × Found)) (s : RunState),
          (∀ m ∈ foundPlaces ps, ∃ i, m = l ++ [.index i]) →
            ((ps.foldl (visit options rest item) s).data.get? l).bind outline =
              (s.data.get? l).bind outline := by
        intro ps s hps
        induction ps generalizing s with
        | nil => rfl
        | cons p ps ih =>
          obtain ⟨m, how⟩ := p
          rw [List.foldl_cons, ih _ fun m' hm' => hps m' (mem_foundPlaces.mpr
            (List.mem_cons_of_mem _ (mem_foundPlaces.mp hm')))]
          by_cases hhow : how = .found
          · subst hhow
            obtain ⟨i, rfl⟩ := hps m (mem_foundPlaces.mpr List.mem_cons_self)
            exact (spares_visit options rest item s _).above l (.index i) [] rfl
          · rw [visit_missing_data options rest item s m hhow]
      exact hfold _ s fun m hm => exists_of_mem_foundPlaces_elements hm
    · rfl

theorem isNull_eq_true_iff {v : Value} : v.isNull = true ↔ v = .null := by
  cases v <;> simp [isNull]

theorem outline_eq_none_iff {v : Value} : v.outline = none ↔ v = .null := by
  cases v <;> simp [outline]

theorem isNull_of_outline {v : Value} {o : Outline} (h : v.outline = some o) :
    v.isNull = false := by
  rw [← Bool.not_eq_true, isNull_eq_true_iff, ← outline_eq_none_iff, h]
  exact Option.some_ne_none o

/-- The elements leave a value that was not null, so there is one to pass the validators. -/
theorem exists_get?_visitElements (options : RunOptions) (items : List Field) {s : RunState}
    {l : Location} {v : Value} (hv : s.data.get? l = some v) (hnull : v.isNull = false) :
    ∃ w, (visitElements options items s l).data.get? l = some w ∧ w.isNull = false := by
  have houtline := outline_visitElements options items s l
  rw [hv, Option.bind_some] at houtline
  obtain ⟨o, ho⟩ := Option.ne_none_iff_exists'.mp fun hnone =>
    Bool.false_ne_true (hnull.symm.trans (isNull_eq_true_iff.mpr (outline_eq_none_iff.mp hnone)))
  rw [ho] at houtline
  obtain ⟨w, hw, hwo⟩ := Option.bind_eq_some_iff.mp houtline
  exact ⟨w, hw, isNull_of_outline hwo⟩

theorem isNullAt_of_get? {s : RunState} {l : Location} {v : Value} (h : s.data.get? l = some v) :
    s.isNullAt l = v.isNull := by
  rw [isNullAt, h]

theorem isNull_prepared (options : RunOptions) (field : Field) (l : Location) (v : Value)
    (hnull : v.isNull = false) : (prepared options field l v).isNull = false := by
  unfold prepared
  split
  · cases v <;> rfl
  · exact hnull

/-- A rule for runs: a property of the questions due and the states before and after that follows a
run when it follows the single actions. -/
structure RunRule (options : RunOptions) (P : Field → Prop)
    (R : List Question → RunState → RunState → Prop) : Prop where
  refl : ∀ s, R [] s s
  trans : ∀ {qs rs s t u}, R qs s t → R rs t u → R (qs ++ rs) s u
  abandoned : ∀ {qs s}, s.abandoned = true → R qs s s
  absent : ∀ s field l, R [] s (s.absent options field l)
  removeNull : ∀ s l, s.data.get? l = some .null → R [] s (s.removeNull l)
  wrapAt : ∀ s field l v, s.data.get? l = some v → R [] s (s.wrapAt options field l)
  validateAt : ∀ s field l v, P field → s.data.get? l = some v →
    R (questions field l) s (s.validateAt options field l)

namespace RunRule

variable {options : RunOptions} {P : Field → Prop}
  {R : List Question → RunState → RunState → Prop}

/-- Going over places that are apart: each visit finds the value that was there at the start. -/
theorem foldl (h : RunRule options P R) {visit : RunState → Location × Found → RunState}
    (due : Option Value → Location → List Question)
    (hmissing : ∀ s l how, how ≠ .found →
      R [] s (visit s (l, how)) ∧ (visit s (l, how)).data = s.data)
    (hfound : ∀ s l v, s.data.get? l = some v → R (due (some v) l) s (visit s (l, .found)))
    (hspares : ∀ s l, Spares l s.data (visit s (l, .found)).data)
    (ps : List (Location × Found)) {s : RunState}
    (hexists : ∀ l ∈ foundPlaces ps, ∃ v, s.data.get? l = some v)
    (hapart : (foundPlaces ps).Pairwise Location.Apart) :
    R ((foundPlaces ps).flatMap fun l => due (s.data.get? l) l) s (ps.foldl visit s) := by
  let R' (ps : List (Location × Found)) (s t : RunState) : Prop :=
    R ((foundPlaces ps).flatMap fun l => due (s.data.get? l) l) s t
  refine foldl_places_induction (R := R') (fun s l how hhow => (hmissing s l how hhow).2) hspares
    h.refl (fun l how ps s t hhow hrest => ?_) (fun l v ps s t hv hl hrest => ?_) ps hexists hapart
  · obtain ⟨hstep, hdata⟩ := hmissing s l how hhow
    have hboth := h.trans hstep hrest
    rwa [hdata, List.nil_append, ← foundPlaces_cons_missing l hhow] at hboth
  · have hkeep : ∀ m ∈ foundPlaces ps, (visit s (l, .found)).data.get? m = s.data.get? m :=
      fun m hm => (hspares s l).apart m (hl m hm)
    have hsame : (foundPlaces ps).flatMap (fun m => due (s.data.get? m) m) =
        (foundPlaces ps).flatMap fun m => due ((visit s (l, .found)).data.get? m) m :=
      List.flatMap_congr fun m hm => by rw [hkeep m hm]
    change R ((foundPlaces ((l, .found) :: ps)).flatMap fun m => due (s.data.get? m) m) s t
    rw [foundPlaces_cons_found, List.flatMap_cons, hsame, hv]
    exact h.trans (hfound s l v hv) hrest

theorem visit_of_elements (h : RunRule options P R) {items : List Field} {l : Location}
    (hdue : ∀ s v, s.data.get? l = some v →
      R (elementsDue options items v l) s (visitElements options items s l))
    {field : Field} (hfield : P field) {s : RunState} {v : Value} (hv : s.data.get? l = some v) :
    R (due options items field (some v) l) s (visit options items field s (l, .found)) := by
  cases hrunning : s.abandoned with
  | true =>
    rw [visit_abandoned options items field _ hrunning]
    exact h.abandoned hrunning
  | false =>
    rw [visit_found options items field l hrunning, due_some, isNullAt_of_get? hv]
    cases hnull : v.isNull with
    | true =>
      rw [isNull_eq_true_iff.mp hnull] at hv
      simp only [if_true]
      split
      · exact h.refl s
      · exact h.trans (h.removeNull s l hv) (h.absent _ field l)
    | false =>
      simp only [Bool.false_eq_true, if_false]
      have hwrapped := get?_wrapAt options field hv
      obtain ⟨w, hw, -⟩ := exists_get?_visitElements options items hwrapped
        (isNull_prepared options field l v hnull)
      have hall := h.trans (h.wrapAt s field l v hv)
        (h.trans (hdue _ _ hwrapped) (h.validateAt _ field l w hfield hw))
      rwa [List.nil_append] at hall

theorem visit_missing (h : RunRule options P R) (items : List Field) (field : Field) (s : RunState)
    (l : Location) {how : Found} (hhow : how ≠ .found) :
    R [] s (RunState.visit options items field s (l, how)) := by
  rcases RunState.visit_missing options items field s l hhow with heq | heq
  · rw [heq]
    exact h.refl s
  · rw [heq]
    exact h.absent s field l

/-- Going over the matches of a path from a node on, each visit follows the rule. -/
theorem foldl_places (h : RunRule options P R) {items : List Field} {field : Field}
    (hvisit : ∀ s l v, s.data.get? l = some v →
      R (due options items field (some v) l) s (RunState.visit options items field s (l, .found)))
    (p : Path) (s : RunState) {l : Location} {v : Value} (hv : s.data.get? l = some v) :
    R ((p.locations (some v)).flatMap fun m => due options items field (v.get? m) (l ++ m)) s
      ((places (Matches.ofPathAt p s.data l)).foldl (RunState.visit options items field) s) := by
  have hplaces : foundPlaces (places (Matches.ofPathAt p s.data l)) =
      (p.locations (some v)).map fun m => l ++ m := by
    rw [foundPlaces_places, Matches.found_ofPathAt, hv]
  have hget : ∀ m, s.data.get? (l ++ m) = v.get? m := by
    intro m
    rw [get?_append, hv, Option.bind_some]
  have hfold := h.foldl (due options items field)
    (fun s m how hhow => ⟨h.visit_missing items field s m hhow,
      visit_missing_data options items field s m hhow⟩)
    hvisit (fun s m => spares_visit options items field s m)
    (places (Matches.ofPathAt p s.data l)) (s := s)
    (fun m hm => by
      obtain ⟨-, w, -, -, hw⟩ := exists_of_mem_foundPlaces hm
      exact ⟨w, hw⟩)
    (pairwise_apart_foundPlaces p s.data l)
  rw [hplaces, List.flatMap_map] at hfold
  simpa only [hget] using hfold

/-- A visit of a place that exists. -/
theorem visit (h : RunRule options P R) {items : List Field} {field : Field}
    (hfields : ∀ f ∈ field :: items, P f) {s : RunState} {l : Location} {v : Value}
    (hv : s.data.get? l = some v) :
    R (due options items field (some v) l) s
      (RunState.visit options items field s (l, .found)) := by
  induction items generalizing field s l v with
  | nil =>
    have hdue : ∀ s v, s.data.get? l = some v →
        R (elementsDue options [] v l) s (visitElements options [] s l) := fun s _ _ => h.refl s
    exact h.visit_of_elements hdue (hfields field List.mem_cons_self) hv
  | cons item rest ih =>
    have hitems : ∀ f ∈ item :: rest, P f := fun f hf => hfields f (List.mem_cons_of_mem field hf)
    refine h.visit_of_elements (fun s v hv => ?_) (hfields field List.mem_cons_self) hv
    rw [visitElements_cons, hv, elementsDue]
    cases hsequence : v.isSequence with
    | true =>
      rw [if_pos (by simpa using hsequence)]
      exact h.foldl_places (fun s m w hw => ih hitems hw) Path.elements s hv
    | false =>
      have hnone : Path.locations Path.elements (some v) = [] := by
        cases v with
        | sequence items => contradiction
        | _ => rfl
      rw [hnone, if_neg (by simp [hsequence])]
      exact h.refl s

/-- The turn of a chain. -/
theorem runChain (h : RunRule options P R) {chain : FieldChain} (hfields : ∀ f ∈ chain.fields, P f)
    (s : RunState) :
    R (chainDue options chain s.data) s (RunState.runChain options s chain) :=
  h.foldl_places (fun _ _ _ hv => h.visit hfields hv) chain.path s (get?_nil s.data)

/-- The turns of all chains, each with the data when it comes, of which an invariant is known. -/
theorem foldl_runChain (h : RunRule options P R) {I : Value → Prop} {chains : List FieldChain}
    (hfields : ∀ chain ∈ chains, ∀ f ∈ chain.fields, P f)
    (hinvariant : ∀ chain ∈ chains, ∀ s : RunState, I s.data →
      I (RunState.runChain options s chain).data)
    {s : RunState} (hs : I s.data) :
    ∃ turns : List (FieldChain × Value), turns.map Prod.fst = chains ∧ (∀ t ∈ turns, I t.2) ∧
      R (turns.flatMap fun t => chainDue options t.1 t.2) s
        (chains.foldl (RunState.runChain options) s) := by
  induction chains generalizing s with
  | nil => exact ⟨[], rfl, by simp, h.refl s⟩
  | cons chain chains ih =>
    obtain ⟨turns, hturns, hI, hrest⟩ :=
      ih (fun c hc => hfields c (List.mem_cons_of_mem chain hc))
        (fun c hc => hinvariant c (List.mem_cons_of_mem chain hc))
        (hinvariant chain List.mem_cons_self s hs)
    refine ⟨(chain, s.data) :: turns, by rw [List.map_cons, hturns], ?_, ?_⟩
    · exact List.forall_mem_cons.mpr ⟨hs, hI⟩
    · rw [List.flatMap_cons, List.foldl_cons]
      exact h.trans (h.runChain (hfields chain List.mem_cons_self) s) hrest

/-- A whole run about data that is there. -/
theorem runState (h : RunRule options P R) {I : Value → Prop} {c : CompiledRules}
    (hfields : ∀ f ∈ c.fields, P f)
    (hinvariant : ∀ chain ∈ c.chains, ∀ s : RunState, I s.data →
      I (RunState.runChain options s chain).data)
    {d : Value} (hd : I d) (hnull : d.isNull = false) :
    ∃ turns : List (FieldChain × Value), turns.map Prod.fst = c.chains ∧ (∀ t ∈ turns, I t.2) ∧
      R (turns.flatMap fun t => chainDue options t.1 t.2) { data := d }
        (c.runState options d) := by
  have hrun : c.runState options d =
      c.chains.foldl (RunState.runChain options) { data := d } := by
    rw [CompiledRules.runState, if_neg (by simp [hnull])]
  rw [hrun]
  refine h.foldl_runChain (fun chain hchain f hf => ?_) hinvariant hd
  exact hfields f (List.mem_flatMap.mpr ⟨chain, hchain, hf⟩)

end RunRule

/-- Whether the log grew by the questions that were due, all of them unless the run was abandoned in
between. -/
structure Asks (qs : List Question) (s t : RunState) : Prop where
  grows : ∃ new, t.log = s.log ++ new ∧ new.map Invocation.question <+: qs ∧
    (t.abandoned = false → new.map Invocation.question = qs)
  stays : s.abandoned = true → t.log = s.log ∧ t.abandoned = true

namespace Asks

theorem of_same {s t : RunState} (hlog : t.log = s.log) (habandoned : t.abandoned = s.abandoned) :
    Asks [] s t :=
  ⟨⟨[], by simpa using hlog, List.prefix_refl _, fun _ => rfl⟩,
    fun h => ⟨hlog, habandoned.trans h⟩⟩

theorem of_abandoned {qs : List Question} {s : RunState} (h : s.abandoned = true) :
    Asks qs s s := by
  refine ⟨⟨[], by simp, List.nil_prefix, fun hrunning => ?_⟩, fun h => ⟨rfl, h⟩⟩
  rw [h] at hrunning
  contradiction

theorem trans {qs rs : List Question} {s t u : RunState} (h : Asks qs s t) (h' : Asks rs t u) :
    Asks (qs ++ rs) s u := by
  obtain ⟨first, hfirst, hpre, hall⟩ := h.grows
  obtain ⟨second, hsecond, hpre', hall'⟩ := h'.grows
  constructor
  · cases hrunning : t.abandoned with
    | true =>
      obtain ⟨hlog, habandoned⟩ := h'.stays hrunning
      refine ⟨first, hlog.trans hfirst, hpre.trans (List.prefix_append qs rs), fun hu => ?_⟩
      rw [habandoned] at hu
      contradiction
    | false =>
      refine ⟨first ++ second, by rw [hsecond, hfirst, List.append_assoc], ?_, fun hu => ?_⟩
      · rw [List.map_append, hall hrunning]
        exact (List.prefix_append_right_inj qs).mpr hpre'
      · rw [List.map_append, hall hrunning, hall' hu]
  · intro hs
    obtain ⟨hlog, ht⟩ := h.stays hs
    obtain ⟨hlog', hu⟩ := h'.stays ht
    exact ⟨hlog'.trans hlog, hu⟩

theorem ask (options : RunOptions) (field : Field) (l : Location) (p : Passage) (v : Validator) :
    Asks [⟨field.path, v.id, l⟩] p.state (p.ask options field l v).state := by
  cases hrunning : p.state.abandoned with
  | true =>
    have hask : p.ask options field l v = p := foldl_ask_abandoned options field l p [v] hrunning
    rw [hask]
    exact of_abandoned hrunning
  | false =>
    obtain ⟨-, ⟨notes, hlog⟩, -⟩ := ask_eq options field l p v hrunning
    refine ⟨⟨_, hlog, List.prefix_refl _, fun _ => rfl⟩, fun h => ?_⟩
    rw [hrunning] at h
    contradiction

theorem foldl_ask (options : RunOptions) (field : Field) (l : Location) (p : Passage)
    (vs : List Validator) :
    Asks (vs.map fun v => ⟨field.path, v.id, l⟩) p.state
      (vs.foldl (Passage.ask options field l) p).state := by
  induction vs generalizing p with
  | nil => exact of_same rfl rfl
  | cons v vs ih => exact (ask options field l p v).trans (ih _)

end Asks

/-- The questions that are asked are those due. -/
theorem asks_rule (options : RunOptions) : RunRule options (fun _ => True) Asks where
  refl s := .of_same rfl rfl
  trans := Asks.trans
  abandoned := Asks.of_abandoned
  absent s field l := by
    obtain ⟨errors, herrors⟩ := s.absent_eq options field l
    rw [herrors]
    exact .of_same rfl rfl
  removeNull s l _ := by
    rcases s.removeNull_eq l with h | ⟨old, data, -, h⟩
    · rw [h]
      exact .of_same rfl rfl
    · rw [h]
      exact .of_same rfl rfl
  wrapAt s field l v hv := by
    obtain ⟨data, -, hwrap⟩ := s.wrapAt_eq options field l hv
    rw [hwrap]
    exact .of_same rfl rfl
  validateAt s field l v _ hv := by
    obtain ⟨data, htake⟩ := exists_take? hv
    rw [validateAt_eq htake, questions, Field.ids, List.map_map]
    have hpassage := Asks.foldl_ask options field l ⟨{ s with data }, v, false⟩ field.validators
    exact ⟨hpassage.grows, hpassage.stays⟩

/-- A call at the start of 1970 without extras. -/
def plainOptions : RunOptions where
  call := { now := .midnight ⟨0⟩, extras := .empty, deadline := none, lookupTimeout := .zero }
  formEncoded := false
  translate := Message.keys

end RunState

namespace CompiledRules

open RunState

/-- The log of a run has the questions that are due in the turns of the chains, all of them unless
the run is abandoned. -/
theorem exists_turns {I : Value → Prop} {c : CompiledRules} {options : RunOptions}
    (hinvariant : ∀ chain ∈ c.chains, ∀ s : RunState, I s.data →
      I (runChain options s chain).data)
    {d : Value} (hd : I d) (hnull : d.isNull = false) :
    ∃ turns : List (FieldChain × Value), turns.map Prod.fst = c.chains ∧ (∀ t ∈ turns, I t.2) ∧
      (c.validate options d).log.map Invocation.question <+:
        (turns.flatMap fun t => chainDue options t.1 t.2) ∧
      ((c.validate options d).abandoned = false →
        (c.validate options d).log.map Invocation.question =
          turns.flatMap fun t => chainDue options t.1 t.2) := by
  obtain ⟨turns, hturns, hI, hasks⟩ := (asks_rule options).runState (fun _ _ => trivial)
    hinvariant hd hnull
  obtain ⟨new, hlog, hsome, hall⟩ := hasks.grows
  have hnew : (c.validate options d).log = new := hlog
  rw [hnew]
  exact ⟨turns, hturns, hI, hsome, hall⟩

end CompiledRules
end PathRules

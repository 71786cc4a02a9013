import PathRules.Proofs.Coercions
import PathRules.Proofs.FailClosed
import PathRules.Proofs.Independence
import PathRules.Proofs.Writes
/-!
What a silent run leaves. A run that ends without messages had none at any time, so every visit of
it was silent, about the value that was there at the start of the turn. Where fields accept what
they leave of values, a visit that was silent leaves a value that another visit accepts and leaves
as it is. Main statement: this holds of values with their elements, however deep they are nested.
-/

namespace PathRules

namespace RunState

open Value

variable {options : RunOptions} {field : Field} {l : Location}

/-- Whether a run is still on and has reported nothing. -/
structure Silent (s : RunState) : Prop where
  running : s.abandoned = false
  errors : s.errors = .empty

/-- A run that is silent at its end was so at its start, and no occurrence had a message. -/
theorem Records.silent {os : List Occurrence} {s t : RunState} (h : Records options os s t)
    (ht : Silent t) : Silent s ∧ ∀ o ∈ os, o.reports options.translate = [] := by
  have herrors := h.reports.errors
  have hcount := congrArg ErrorTree.count herrors
  rw [ht.errors, ErrorTree.count_foldl_add] at hcount
  have hempty : ErrorTree.empty.count = 0 := rfl
  have hnone : os.flatMap (Occurrence.reports options.translate) = [] :=
    List.length_eq_zero_iff.mp (by omega)
  rw [hnone, ht.errors] at herrors
  exact ⟨⟨(h.complete ht.running).1, herrors.symm⟩, List.flatMap_eq_nil_iff.mp hnone⟩

theorem silent_of_visit {items : List Field} {s : RunState} {place : Location × Found}
    (h : Silent (visit options items field s place)) : Silent s :=
  ((Records.visit items field s place).silent h).1

theorem silent_of_foldl_visit {items : List Field} {s : RunState} {ps : List (Location × Found)}
    (h : Silent (ps.foldl (visit options items field) s)) : Silent s :=
  ((Records.collect (Records.visit items field) s ps).silent h).1

/-- Where an absence was not reported, no absence ever is. -/
theorem absenceTexts_of_silent (hlocal : ∀ v ∈ field.validators, v.Local) {s : RunState}
    (h : Silent (s.absent options field l)) : absenceTexts options field l = [] := by
  have herrors := h.errors
  rw [absent_local hlocal] at herrors
  have hcount := congrArg ErrorTree.count herrors
  have hmap : ((absenceTexts options field l).map fun m => (l, m)).foldl
      (fun t m => t.add m.1 m.2) s.errors =
        (absenceTexts options field l).foldl (fun t m => t.add l m) s.errors := List.foldl_map
  dsimp only at hcount
  rw [← hmap, ErrorTree.count_foldl_add, List.length_map] at hcount
  have hempty : ErrorTree.empty.count = 0 := rfl
  exact List.length_eq_zero_iff.mp (by omega)

section Passages

/-- Whether two values on their way are at the same point, in whatever runs. -/
structure Alike (p q : Passage) : Prop where
  abandoned : q.state.abandoned = p.state.abandoned
  value : p.state.abandoned = false → q.value = p.value
  invalid : p.state.abandoned = false → q.invalid = p.invalid

theorem Alike.ask (hlocal : ∀ v ∈ field.validators, v.Local) {p q : Passage} (h : Alike p q)
    {v : Validator} (hv : v.Local) :
    Alike (p.ask options field l v) (q.ask options field l v) := by
  cases hrunning : p.state.abandoned with
  | true =>
    have hp : p.ask options field l v = p := foldl_ask_abandoned options field l p [v] hrunning
    have hq : q.ask options field l v = q :=
      foldl_ask_abandoned options field l q [v] (h.abandoned.trans hrunning)
    rw [hp, hq]
    exact h
  | false =>
    obtain ⟨e, rejected, -, hask⟩ := exists_passes_ask hlocal hv options l p.value p.invalid
    obtain ⟨hp, hp'⟩ := hask p hrunning rfl rfl
    obtain ⟨hq, hq'⟩ :=
      hask q (h.abandoned.trans hrunning) (h.value hrunning) (h.invalid hrunning)
    cases e with
    | none =>
      have hend : (p.ask options field l v).state.abandoned = true := hp
      exact ⟨Eq.trans hq hend.symm, fun h => by simp [hend] at h, fun h => by simp [hend] at h⟩
    | some e =>
      exact ⟨hq.1.trans hp.1.symm,
        fun _ => Option.some.inj (hq.2.1.symm.trans hp.2.1), fun _ => hq'.trans hp'.symm⟩

theorem Alike.foldl_ask (hlocal : ∀ v ∈ field.validators, v.Local) {vs : List Validator}
    (hvs : ∀ v ∈ vs, v.Local) {p q : Passage} (h : Alike p q) :
    Alike (vs.foldl (Passage.ask options field l) p)
      (vs.foldl (Passage.ask options field l) q) := by
  induction vs generalizing p q with
  | nil => exact h
  | cons v vs ih =>
    exact ih (fun w hw => hvs w (List.mem_cons_of_mem v hw))
      (h.ask hlocal (hvs v List.mem_cons_self))

/-- A value is invalid behind its validators if it was so before or one of them fails. -/
theorem foldl_ask_invalid {p : Passage} {vs : List Validator}
    (hrunning : (vs.foldl (Passage.ask options field l) p).state.abandoned = false) :
    (vs.foldl (Passage.ask options field l) p).invalid =
      (p.invalid || (answers options field l p vs).any Answer.fails) := by
  induction vs generalizing p with
  | nil => exact (Bool.or_false p.invalid).symm
  | cons v vs ih =>
    have hstart := (map_validator_answers hrunning).1
    rw [List.foldl_cons, ih hrunning, ask_invalid options field l hstart,
      answers_cons options field l hstart, List.any_cons, Bool.or_assoc]

/-- A passage that leaves a value valid has nothing to report. -/
theorem silent_of_valid {p : Passage} {vs : List Validator}
    (hrunning : (vs.foldl (Passage.ask options field l) p).state.abandoned = false)
    (hvalid : (vs.foldl (Passage.ask options field l) p).invalid = false) :
    (vs.foldl (Passage.ask options field l) p).state.errors = p.state.errors ∧
      (vs.foldl (Passage.ask options field l) p).state.failures = p.state.failures := by
  obtain ⟨herrors, -, hfailures⟩ := adds_foldl_ask options field l p vs
  rw [foldl_ask_invalid hrunning, Bool.or_eq_false_iff, List.any_eq_false] at hvalid
  have hfine : ∀ a ∈ answers options field l p vs, a.fails = false :=
    fun a ha => Bool.eq_false_iff.mpr (hvalid.2 a ha)
  have hreports :
      (answers options field l p vs).flatMap (Answer.reports options.translate l) = [] :=
    List.flatMap_eq_nil_iff.mpr fun a ha => by simp [Answer.reports, hfine a ha]
  have hnone : (answers options field l p vs).flatMap (Answer.failures l) = [] := by
    refine List.flatMap_eq_nil_iff.mpr fun a ha => ?_
    have hboth := hfine a ha
    simp only [Answer.fails, Bool.or_eq_false_iff, Bool.not_eq_false', List.isEmpty_iff] at hboth
    rw [Answer.failures, hboth.2, List.map_nil]
  rw [herrors, hfailures, hreports, hnone]
  exact ⟨rfl, List.append_nil _⟩

end Passages

end RunState

open RunState

/-- The passage of a value through the validators of a field, at the start of a run. -/
def Field.passage (options : RunOptions) (f : Field) (l : Location) (v : Value) : Passage :=
  f.validators.foldl (Passage.ask options f l) ⟨{ data := .null }, v, false⟩

/-- Whether the validators of a field accept a value at a location, and leave another one of it. -/
structure Field.Accepts (options : RunOptions) (f : Field) (l : Location) (v w : Value) : Prop where
  running : (f.passage options l v).state.abandoned = false
  valid : (f.passage options l v).invalid = false
  value : (f.passage options l v).value = w

/-- Whether a field accepts what it leaves of the values that it accepts, and leaves it as it is. -/
def Field.Stable (options : RunOptions) (f : Field) : Prop :=
  ∀ (l : Location) (v w : Value), l.HasShape f.path → v.isNull = false → f.Accepts options l v w →
    w.isNull = false ∧ f.Accepts options l w w

namespace RunState

open Value

variable {options : RunOptions} {field : Field} {l : Location}

/-- Whether a field accepts a value does not depend on the run. -/
theorem accepts_iff (hlocal : ∀ v ∈ field.validators, v.Local) {s : RunState}
    (hrunning : s.abandoned = false) {v w : Value} :
    field.Accepts options l v w ↔
      (field.validators.foldl (Passage.ask options field l) ⟨s, v, false⟩).state.abandoned = false ∧
        (field.validators.foldl (Passage.ask options field l) ⟨s, v, false⟩).invalid = false ∧
        (field.validators.foldl (Passage.ask options field l) ⟨s, v, false⟩).value = w := by
  have hstart : Alike ⟨{ data := .null }, v, false⟩ ⟨s, v, false⟩ :=
    ⟨hrunning, fun _ => rfl, fun _ => rfl⟩
  have hend : Alike (field.passage options l v) _ := hstart.foldl_ask hlocal hlocal
  constructor
  · rintro ⟨hpassage, hinvalid, hw⟩
    exact ⟨hend.abandoned.trans hpassage, (hend.invalid hpassage).trans hinvalid,
      (hend.value hpassage).trans hw⟩
  · rintro ⟨hq, hinvalid, hw⟩
    have hpassage := hend.abandoned.symm.trans hq
    exact ⟨hpassage, (hend.invalid hpassage).symm.trans hinvalid,
      (hend.value hpassage).symm.trans hw⟩

theorem eq_of_accepts (hkeeps : ∀ v ∈ field.validators, v.converting = false) {v w : Value}
    (h : field.Accepts options l v w) : w = v := by
  rw [← h.value]
  exact foldl_ask_value options field l _ hkeeps

/-- A passage that is silent accepts the value. -/
theorem accepts_of_silent (hlocal : ∀ v ∈ field.validators, v.Local) {s : RunState} {v : Value}
    (hv : s.data.get? l = some v) (h : Silent (s.validateAt options field l)) :
    ∃ w, field.Accepts options l v w ∧
      (s.validateAt options field l).data.get? l = some w := by
  obtain ⟨hs, hreports⟩ := (Records.validateAt s field l).silent h
  have hfine : ∀ a ∈ answers options field l (s.entering l) field.validators,
      ¬ a.fails = true := by
    intro a ha hfails
    obtain ⟨m, hm, -⟩ := a.exists_mem_reports options.translate l hfails
    rw [List.flatMap_eq_nil_iff.mp (hreports _ List.mem_cons_self) a ha] at hm
    contradiction
  have hend : (field.validators.foldl (Passage.ask options field l)
      (s.entering l)).state.abandoned = false := h.running
  have hvalid := foldl_ask_invalid hend
  obtain ⟨out, hentering⟩ : ∃ data, s.entering l = ⟨{ s with data }, v, false⟩ := by
    obtain ⟨data, htake⟩ := exists_take? hv
    exact ⟨data, by simp [entering, htake]⟩
  rw [List.any_eq_false.mpr hfine] at hvalid
  rw [hentering] at hend hvalid
  have haccepts : field.Accepts options l v _ :=
    (accepts_iff hlocal (s := { s with data := out }) hs.running).mpr ⟨hend, hvalid, rfl⟩
  refine ⟨_, haccepts, ?_⟩
  obtain ⟨data, p, hp, -, hdata⟩ := validateAt_assign hv options field
  have hvalue := ((accepts_iff hlocal (s := { s with data }) hs.running).mp haccepts).2.2
  rw [← hp] at hvalue
  have hget := get?_assign_self p.value l (some s.data)
  rw [← hdata, Option.bind_some, Option.bind_some, hv, Option.map_some] at hget
  rw [hget, hvalue]

/-- The passage of a value that is accepted as it is leaves the run as it is. -/
theorem observed_validateAt (hlocal : ∀ v ∈ field.validators, v.Local) {s : RunState} {v : Value}
    (hrunning : s.abandoned = false) (hv : s.data.get? l = some v)
    (h : field.Accepts options l v v) :
    (s.validateAt options field l).observed = s.observed := by
  obtain ⟨data, p, hp, hvalidate, hdata⟩ := validateAt_assign hv options field
  obtain ⟨hp', hvalid, hvalue⟩ := (accepts_iff hlocal (s := { s with data }) hrunning).mp h
  obtain ⟨herrors, hfailures⟩ := silent_of_valid hp' hvalid
  rw [← hp] at hp' hvalue herrors hfailures
  rw [hvalue, ← hv, assign_get?] at hdata
  rw [observed_of_running hrunning, observed_eq_some_iff, hvalidate]
  refine ⟨hp', ?_⟩
  simp only [seen, herrors, hfailures, Option.some.inj hdata]

/-- Whether a visit of a place leaves every run as it is that has a given value there, or none. -/
def Still (options : RunOptions) (items : List Field) (field : Field) (place : Location × Found)
    (o : Option Value) : Prop :=
  ∀ s : RunState, s.abandoned = false → s.data.get? place.1 = o →
    (visit options items field s place).observed = s.observed

theorem of_observed_eq {s t : RunState} (h : t.observed = s.observed)
    (hrunning : s.abandoned = false) : t.abandoned = false ∧ t.data = s.data := by
  rw [observed_of_running hrunning, observed_eq_some_iff] at h
  exact ⟨h.1, congrArg Observed.data h.2⟩

theorem foldl_still {items : List Field} {ps : List (Location × Found)} {s : RunState}
    (hrunning : s.abandoned = false)
    (h : ∀ place ∈ ps, Still options items field place (s.data.get? place.1)) :
    (ps.foldl (visit options items field) s).observed = s.observed := by
  induction ps generalizing s with
  | nil => rfl
  | cons place ps ih =>
    obtain ⟨hfirst, hrest⟩ := List.forall_mem_cons.mp h
    have hvisit := hfirst s hrunning rfl
    obtain ⟨hrunning', hdata⟩ := of_observed_eq hvisit hrunning
    rw [List.foldl_cons, ih hrunning' (hdata ▸ hrest), hvisit]

theorem still_missing (hlocal : ∀ v ∈ field.validators, v.Local) {how : Found}
    (hhow : how ≠ .found) (htexts : absenceTexts options field l = []) (items : List Field)
    (o : Option Value) : Still options items field (l, how) o := by
  intro s hrunning _
  rw [visit_of_ne_found _ _ _ _ hrunning hhow, absent_local hlocal, htexts]
  rfl

/-- A null that stays where it is leaves the run as it is if its absence is not reported. -/
theorem removeNull_eq_self {s : RunState} (hnull : s.data.get? l = some .null)
    (hstays : absence l = some .null) : s.removeNull l = s := by
  have hassign := removeNull_assign hnull
  rw [hstays, ← hnull, assign_get?, Option.some.injEq] at hassign
  rcases s.removeNull_eq l with h | ⟨-, data, -, h⟩
  · exact h
  · rw [h] at hassign ⊢
    dsimp only at hassign
    rw [hassign]

theorem still_null (hlocal : ∀ v ∈ field.validators, v.Local)
    (hnull : field.info.nullable = false →
      absence l = some .null ∧ absenceTexts options field l = []) (items : List Field) :
    Still options items field (l, .found) (some .null) := by
  intro s hrunning hget
  rw [visit_found _ _ _ _ hrunning, isNullAt_of_get? hget, isNull, if_pos rfl]
  cases hnullable : field.info.nullable with
  | true => rw [if_pos rfl]
  | false =>
    obtain ⟨hstays, htexts⟩ := hnull hnullable
    rw [if_neg Bool.false_ne_true, removeNull_eq_self hget hstays, absent_local hlocal, htexts]
    rfl

theorem still_value (hform : options.formEncoded = false)
    (hlocal : ∀ v ∈ field.validators, v.Local) {v : Value} (hnull : v.isNull = false)
    (haccepts : field.Accepts options l v v) {items : List Field}
    (helements : ∀ s : RunState, s.abandoned = false → s.data.get? l = some v →
      (visitElements options items s l).observed = s.observed) :
    Still options items field (l, .found) (some v) := by
  intro s hrunning hget
  have hsame := helements s hrunning hget
  obtain ⟨hrunning', hdata⟩ := of_observed_eq hsame hrunning
  rw [visit_found _ _ _ _ hrunning, isNullAt_of_get? hget, hnull, if_neg Bool.false_ne_true,
    wrapAt_of_not_formEncoded hform,
    observed_validateAt hlocal hrunning' (hdata ▸ hget) haccepts, hsame]

/-- Every place of a silent turn has a visit of its own, which was silent, found the value from the
start of the turn, and left the one at its end. -/
theorem exists_visit_of_mem {items : List Field} {ps : List (Location × Found)} {s : RunState}
    (hapart : (foundPlaces ps).Pairwise Location.Apart)
    (hsilent : Silent (ps.foldl (visit options items field) s)) {how : Found}
    (hplace : (l, how) ∈ ps) :
    ∃ t : RunState, Silent (visit options items field t (l, how)) ∧
      (how = .found → t.data.get? l = s.data.get? l ∧
        (visit options items field t (l, how)).data.get? l =
          (ps.foldl (visit options items field) s).data.get? l) := by
  obtain ⟨before, after, rfl⟩ := List.append_of_mem hplace
  rw [List.foldl_append, List.foldl_cons] at hsilent ⊢
  refine ⟨_, silent_of_foldl_visit hsilent, ?_⟩
  rintro rfl
  rw [foundPlaces_append, foundPlaces_cons_found, List.pairwise_append,
    List.pairwise_cons] at hapart
  obtain ⟨-, ⟨hafter, -⟩, hbefore⟩ := hapart
  rw [get?_foldl_visit fun m hm => hbefore m hm l List.mem_cons_self,
    get?_foldl_visit fun m hm => (hafter m hm).symm]
  exact ⟨rfl, rfl⟩

/-- Where a silent turn found nothing, no absence is ever reported. -/
theorem absenceTexts_of_missing (hlocal : ∀ v ∈ field.validators, v.Local) {items : List Field}
    {s : RunState} {how : Found} (hhow : how ≠ .found)
    (hsilent : Silent (visit options items field s (l, how))) :
    absenceTexts options field l = [] := by
  have hrunning := (silent_of_visit hsilent).running
  rw [visit_of_ne_found _ _ _ _ hrunning hhow] at hsilent
  exact absenceTexts_of_silent hlocal hsilent

/-- Where a silent turn found null and the field does not allow it, no absence is ever reported. -/
theorem absenceTexts_of_null (hlocal : ∀ v ∈ field.validators, v.Local) {items : List Field}
    {s : RunState} (hnull : s.data.get? l = some .null) (hnullable : field.info.nullable = false)
    (hsilent : Silent (visit options items field s (l, .found))) :
    absenceTexts options field l = [] := by
  rw [visit_found _ _ _ _ (silent_of_visit hsilent).running, isNullAt_of_get? hnull, isNull,
    if_pos rfl, hnullable, if_neg Bool.false_ne_true] at hsilent
  exact absenceTexts_of_silent hlocal hsilent

/-- Whether what a silent visit leaves of the elements at a location is left by another visit. -/
def ElementsSettle (options : RunOptions) (items : List Field) (l : Location) : Prop :=
  ∀ (s t : RunState) (v w : Value), s.data.get? l = some v →
    Silent (visitElements options items s l) →
      (visitElements options items s l).data.get? l = some w →
        t.abandoned = false → t.data.get? l = some w →
          (visitElements options items t l).observed = t.observed

/-- A value of a field whose elements settle settles itself. -/
theorem settles_of_elements (hform : options.formEncoded = false)
    (hlocal : ∀ v ∈ field.validators, v.Local) {items : List Field}
    (hkeeps : items ≠ [] → ∀ v ∈ field.validators, v.converting = false)
    (hstable : ∀ v w, v.isNull = false → field.Accepts options l v w →
      w.isNull = false ∧ field.Accepts options l w w)
    (helements : ElementsSettle options items l)
    {s : RunState} {u v : Value} (hu : s.data.get? l = some u)
    (hstays : u = .null → field.info.nullable = false → absence l = some .null)
    (hsilent : Silent (visit options items field s (l, .found)))
    (hv : (visit options items field s (l, .found)).data.get? l = some v) :
    v.isNull = u.isNull ∧ Still options items field (l, .found) (some v) := by
  have hrunning := (silent_of_visit hsilent).running
  cases hnull : u.isNull with
  | true =>
    obtain rfl := isNull_eq_true_iff.mp hnull
    have htexts := fun hnullable => absenceTexts_of_null hlocal hu hnullable hsilent
    have hsame : (visit options items field s (l, .found)).data = s.data := by
      rw [visit_found _ _ _ _ hrunning, isNullAt_of_get? hu, hnull, if_pos rfl]
      cases hnullable : field.info.nullable with
      | true => rfl
      | false =>
        rw [if_neg Bool.false_ne_true, absent_data,
          removeNull_eq_self hu (hstays rfl hnullable)]
    rw [hsame, hu] at hv
    cases hv
    exact ⟨rfl, still_null hlocal (fun hnullable => ⟨hstays rfl hnullable, htexts hnullable⟩) items⟩
  | false =>
    rw [visit_found _ _ _ _ hrunning, isNullAt_of_get? hu, hnull, if_neg Bool.false_ne_true,
      wrapAt_of_not_formEncoded hform] at hsilent hv
    have hsilent' := ((Records.validateAt _ field l).silent hsilent).1
    obtain ⟨x, hx, hxnull⟩ := exists_get?_visitElements options items hu hnull
    obtain ⟨w, haccepts, hw⟩ := accepts_of_silent hlocal hx hsilent
    cases hw.symm.trans hv
    obtain ⟨hvnull, hagain⟩ := hstable x v hxnull haccepts
    refine ⟨hvnull, still_value hform hlocal hvnull hagain fun t ht hget => ?_⟩
    -- A field with elements does not convert, so the elements are as they were left.
    cases items with
    | nil => rfl
    | cons item rest =>
      obtain rfl := eq_of_accepts (hkeeps (List.cons_ne_nil item rest)) haccepts
      exact helements s t u v hu hsilent' hx ht hget

theorem isSome_child?_index_of_outline {v w : Value} (h : w.outline = v.outline) (i : Int) :
    (w.child? (.index i)).isSome = (v.child? (.index i)).isSome := by
  have hnone : ∀ u : Value, u.isSequence = false → u.child? (.index i) = none := by
    intro u hu
    cases u <;> first | rfl | contradiction
  have hsome : ∀ items : List Value, ((sequence items).child? (.index i)).isSome =
      (Segment.index i).place?.any fun n => n < items.length := by
    intro items
    cases hplace : (Segment.index i).place? with
    | none => simp [child?, hplace]
    | some n =>
      rw [child?, hplace, Option.bind_some, Option.any_some, Bool.eq_iff_iff]
      simp
  have hsame := isSequence_of_outline_eq h
  cases hsequence : v.isSequence with
  | false => rw [hnone v hsequence, hnone w (hsame.trans hsequence)]
  | true =>
    obtain ⟨items, rfl⟩ := isSequence_eq_true_iff.mp hsequence
    obtain ⟨others, rfl⟩ := isSequence_eq_true_iff.mp (hsame.trans hsequence)
    have hlength : others.length = items.length := by simpa [outline] using h
    rw [hsome, hsome, hlength]

/-- Values of one outline have the same places of elements. -/
theorem places_elements_of_outline {v w : Value} (h : w.outline = v.outline) (l : Location) :
    places (Matches.fromSource (.root w) none l Path.elements) =
      places (Matches.fromSource (.root v) none l Path.elements) := by
  refine places_cons_congr rfl rfl h (fun s hs base => ?_) none l
  obtain ⟨i, rfl⟩ := hs
  exact congrArg (fun how => [(base, how)])
    (Source.found_entry_congr h (isSome_child?_index_of_outline h i))

/-- Elements settle where each of them does. -/
theorem elementsSettle_cons {item : Field} {rest : List Field}
    (hlocal : ∀ v ∈ item.validators, v.Local)
    (hvisit : ∀ (i : Int) (s : RunState) (u v : Value), s.data.get? (l ++ [.index i]) = some u →
      Silent (visit options rest item s (l ++ [.index i], .found)) →
        (visit options rest item s (l ++ [.index i], .found)).data.get? (l ++ [.index i]) = some v →
          Still options rest item (l ++ [.index i], .found) (some v)) :
    ElementsSettle options (item :: rest) l := by
  intro s t v w hv hsilent hw hrunning hget
  have houtline : w.outline = v.outline := by
    have hsame := outline_visitElements options (item :: rest) s l
    rwa [hv, hw] at hsame
  have hsequence := isSequence_of_outline_eq houtline
  rw [visitElements_cons, hv, Option.any_some] at hsilent hw
  rw [visitElements_cons, hget, Option.any_some, hsequence]
  cases hv' : v.isSequence with
  | false => rfl
  | true =>
    rw [if_pos hv'] at hsilent hw
    rw [if_pos rfl]
    have hplaces : places (Matches.ofPathAt Path.elements t.data l) =
        places (Matches.ofPathAt Path.elements s.data l) := by
      rw [places_elements_eq hget, places_elements_eq hv, places_elements_of_outline houtline]
    apply foldl_still hrunning
    rintro ⟨m, how⟩ hplace
    have hplace' := hplaces ▸ hplace
    obtain ⟨r, hr, hfound⟩ :=
      exists_visit_of_mem (pairwise_apart_foundPlaces Path.elements s.data l) hsilent hplace'
    by_cases hhow : how = .found
    · subst hhow
      obtain ⟨hstart, hend⟩ := hfound rfl
      obtain ⟨i, rfl⟩ := exists_of_mem_foundPlaces_elements (mem_foundPlaces.mpr hplace)
      obtain ⟨-, a, -, -, ha⟩ := exists_of_mem_foundPlaces (mem_foundPlaces.mpr hplace')
      obtain ⟨-, b, -, -, hb⟩ := exists_of_mem_foundPlaces (mem_foundPlaces.mpr hplace)
      have hleft : ((places (Matches.ofPathAt Path.elements s.data l)).foldl
          (visit options rest item) s).data.get? (l ++ [.index i]) = some b := by
        rw [get?_append, hget] at hb
        rw [get?_append, hw, hb]
      rw [hb]
      exact hvisit i r a b (hstart.trans ha) hr (hend.trans hleft)
    · exact still_missing hlocal hhow (absenceTexts_of_missing hlocal hhow hr) rest _

/-- What a silent visit leaves of a value settles, with its elements. -/
theorem visit_settles (hform : options.formEncoded = false) {items : List Field} {p : Path}
    (hpaths : ∀ k f, (field :: items)[k]? = some f → f.path = p.elementsAt k)
    (hlocal : ∀ f ∈ field :: items, ∀ v ∈ f.validators, v.Local)
    (hkeeps : ∀ f ∈ (field :: items).dropLast, ∀ v ∈ f.validators, v.converting = false)
    (hstable : ∀ f ∈ field :: items, f.Stable options) (hl : l.HasShape p)
    {s : RunState} {u v : Value} (hu : s.data.get? l = some u)
    (hstays : u = .null → field.info.nullable = false → absence l = some .null)
    (hsilent : Silent (visit options items field s (l, .found)))
    (hv : (visit options items field s (l, .found)).data.get? l = some v) :
    v.isNull = u.isNull ∧ Still options items field (l, .found) (some v) := by
  induction items generalizing field p l s u v with
  | nil =>
    have hfield : field.path = p := by simpa using hpaths 0 field rfl
    exact settles_of_elements hform (hlocal field List.mem_cons_self) (fun h => absurd rfl h)
      (fun v w => hstable field List.mem_cons_self l v w (hfield ▸ hl))
      (fun _ _ _ _ _ _ _ _ _ => rfl) hu hstays hsilent hv
  | cons item rest ih =>
    have hfield : field.path = p := by simpa using hpaths 0 field rfl
    have hbelow : ∀ k f, (item :: rest)[k]? = some f →
        f.path = (p.elementsAt 1).elementsAt k := by
      intro k f hf
      rw [Path.elementsAt_elementsAt, Nat.add_comm]
      exact hpaths (k + 1) f hf
    have hitems := fun f hf => hlocal f (List.mem_cons_of_mem field hf)
    have helements : ElementsSettle options (item :: rest) l := by
      apply elementsSettle_cons (hitems item List.mem_cons_self)
      intro i s u v hu hsilent hv
      have hshape : (l ++ [Segment.index i]).HasShape (p.elementsAt 1) :=
        hl.append (.cons ⟨i, rfl⟩ .nil)
      exact (ih hbelow hitems (fun f hf => hkeeps f (List.mem_cons_of_mem field hf))
        (fun f hf => hstable f (List.mem_cons_of_mem field hf)) hshape hu
        (fun _ _ => by simp [absence]) hsilent hv).2
    exact settles_of_elements hform (hlocal field List.mem_cons_self)
      (fun _ => hkeeps field List.mem_cons_self)
      (fun v w => hstable field List.mem_cons_self l v w (hfield ▸ hl)) helements hu hstays
      hsilent hv

end RunState

/-- Whether a conversion leaves its results as they are, none of which is null. -/
def Settles (conversion : Value → Option Value) : Prop :=
  ∀ v w, conversion v = some w → w.isNull = false ∧ conversion w = some w

namespace Field

variable {options : RunOptions} {f : Field}

/-- A field that does not convert is stable. -/
theorem stable_of_keeps (h : ∀ v ∈ f.validators, v.converting = false) : f.Stable options := by
  intro l v w _ hnull haccepts
  obtain rfl := eq_of_accepts h haccepts
  exact ⟨hnull, haccepts⟩

/-- A field with one rule accepts what the rule does not reject. -/
theorem accepts_iff_of_rule {rule : Validator} (hrule : f.validators = [rule]) {l : Location}
    {v w : Value} {d : Verdict}
    (hd : rule.check (context { data := .null } options f l v false) = d) :
    f.Accepts options l v w ↔ d.abandoned = false ∧ (d.accepted = true ∧ d.failures = []) ∧
      (if rule.converting then d.value else v) = w := by
  obtain ⟨hpasses, hinvalid⟩ :=
    passes_ask options f l (p := ⟨{ data := .null }, v, false⟩) rfl rule
  have hpassage : f.passage options l v =
      Passage.ask options f l ⟨{ data := .null }, v, false⟩ rule := by
    rw [passage, hrule, List.foldl_cons, List.foldl_nil]
  rw [← hpassage] at hpasses hinvalid
  dsimp only at hpasses hinvalid
  rw [rejects, hd, Bool.false_or] at hinvalid
  rw [answer, hd] at hpasses
  have hvalid : (f.passage options l v).invalid = false ↔ d.accepted = true ∧ d.failures = [] := by
    rw [hinvalid]
    simp
  cases habandoned : d.abandoned with
  | true =>
    rw [habandoned, if_pos rfl] at hpasses
    have hend : (f.passage options l v).state.abandoned = true := hpasses
    exact ⟨fun h => absurd (h.running.symm.trans hend) (by decide), fun h => absurd h.1 (by decide)⟩
  | false =>
    rw [habandoned, if_neg Bool.false_ne_true] at hpasses
    obtain ⟨hrunning, hvalue, -, -⟩ := hpasses
    have hleaves : (if rule.converting then d.value else v) = (f.passage options l v).value :=
      Option.some.inj hvalue
    rw [hleaves, ← hvalid]
    exact ⟨fun h => ⟨rfl, h.valid, h.value⟩, fun h => ⟨hrunning, h.2.1, h.2.2⟩⟩

/-- A field with one rule that converts accepts what can be converted. -/
theorem accepts_iff_of_convert {rule : Validator} {conversion : Value → Option Value}
    (hrule : f.validators = [rule]) (hconverting : rule.converting = true)
    (hcheck : rule.check = Validator.convert conversion) {l : Location} {v w : Value} :
    f.Accepts options l v w ↔ conversion v = some w := by
  cases hconversion : conversion v with
  | none =>
    have hd : rule.check (context { data := .null } options f l v false) =
        { accepted := false, value := v } := by
      rw [hcheck, Validator.convert, context, hconversion]
    simp [accepts_iff_of_rule hrule hd]
  | some x =>
    have hd : rule.check (context { data := .null } options f l v false) =
        { accepted := true, value := x } := by
      rw [hcheck, Validator.convert, context, hconversion]
    simp [accepts_iff_of_rule hrule hd, hconverting]

theorem stable_of_convert {rule : Validator} {conversion : Value → Option Value}
    (hrule : f.validators = [rule]) (hconverting : rule.converting = true)
    (hcheck : rule.check = Validator.convert conversion) (h : Settles conversion) :
    f.Stable options := by
  intro l v w _ _ haccepts
  rw [accepts_iff_of_convert hrule hconverting hcheck] at haccepts ⊢
  exact h v w haccepts

end Field

namespace Rules.Coercion

theorem settles_convert? (k : Coercion) : Settles k.convert? := by
  intro v w h
  have hw : k.Canonical w := canonical_of_convert? h
  refine ⟨?_, hw.convert?⟩
  cases hw <;> rfl

end Rules.Coercion

/-- A field whose only rule reads values as those of a type is stable. -/
theorem Field.stable_of_coercion {options : RunOptions} {f : Field} {k : Rules.Coercion}
    (hrule : f.validators = [k.rule]) : f.Stable options :=
  stable_of_convert hrule k.converting_rule k.check_rule k.settles_convert?

end PathRules

import PathRules.Proofs.Effects
import PathRules.Proofs.Ways
/-!
What visits do. What a field of local validators does at a location depends on the value there only:
it leaves another value or takes the key out, reports, and goes on, or abandons the run. Effects at
and below a location that come one after the other are one. Main statement: every visit acts by an
effect.
-/

namespace PathRules

namespace RunState

open Value

variable {options : RunOptions}

/-- What can be told apart of a run that is still on. -/
def seen (s : RunState) : Observed :=
  ⟨s.data, s.errors, s.failures⟩

/-- What can be told apart of a run: nothing once it is abandoned. -/
def observed (s : RunState) : Option Observed :=
  if s.abandoned then none else some s.seen

theorem observed_of_abandoned {s : RunState} (h : s.abandoned = true) : s.observed = none :=
  if_pos h

theorem observed_of_running {s : RunState} (h : s.abandoned = false) :
    s.observed = some s.seen := by
  rw [observed, if_neg (by simp [h])]

theorem observed_eq_none_iff {s : RunState} : s.observed = none ↔ s.abandoned = true := by
  simp [observed]

theorem observed_eq_some_iff {s : RunState} {o : Observed} :
    s.observed = some o ↔ s.abandoned = false ∧ s.seen = o := by
  simp [observed]

/-- Whether a part of a run has an effect at a location, or abandons the run if there is none, when
it starts with a value there or without one. -/
def Acts (l : Location) (o : Option Value) (e : Option Effect) (f : RunState → RunState) : Prop :=
  ∀ s : RunState, s.abandoned = false → s.data.get? l = o →
    (f s).observed = e.map fun e => e.apply l s.seen

theorem acts_some_iff {l : Location} {o : Option Value} {e : Effect} {f : RunState → RunState} :
    Acts l o (some e) f ↔ ∀ s : RunState, s.abandoned = false → s.data.get? l = o →
      (f s).abandoned = false ∧ (f s).seen = e.apply l s.seen := by
  simp only [Acts, Option.map_some, observed_eq_some_iff]

theorem acts_none_iff {l : Location} {o : Option Value} {f : RunState → RunState} :
    Acts l o none f ↔ ∀ s : RunState, s.abandoned = false → s.data.get? l = o →
      (f s).abandoned = true := by
  simp only [Acts, Option.map_none, observed_eq_none_iff]

/-- Whether an effect leaves a value where it takes place. -/
def Leaves (e : Option Effect) : Prop :=
  ∀ e', e = some e' → ∃ w, e'.value = some w

/-- A part of a run that only reports. -/
theorem acts_of_report {l : Location} {o : Option Value} {f : RunState → RunState}
    {e : Effect} (hvalue : e.value = o) (hfailures : e.failures = [])
    (h : ∀ s : RunState, f s = { s with errors := e.report l s.errors }) :
    Acts l o (some e) f := by
  rw [acts_some_iff]
  intro s hrunning hget
  rw [h]
  refine ⟨hrunning, ?_⟩
  ext1
  · simp only [seen, Effect.apply, hvalue, ← hget, assign_get?, Option.getD_some]
  · rfl
  · simp [seen, Effect.apply, hfailures]

theorem leaves_none : Leaves none :=
  fun e he => absurd he.symm (Option.some_ne_none e)

theorem leaves_some {e : Effect} {w : Value} (h : e.value = some w) : Leaves (some e) := by
  rintro _ ⟨⟩
  exact ⟨w, h⟩

/-- Doing nothing leaves the value that is there. -/
theorem acts_self (l : Location) (v : Value) :
    Acts l (some v) (some ⟨some v, [], []⟩) fun s => s :=
  acts_of_report rfl rfl fun _ => rfl

/-- Two effects at one location, one after the other. -/
def both (e e' : Effect) : Effect where
  value := e'.value
  messages := e.messages ++ e'.messages
  failures := e.failures ++ e'.failures

theorem apply_both {l : Location} {e e' : Effect} {w w' : Value} (hw : e.value = some w)
    (hw' : e'.value = some w') (o : Observed) :
    (both e e').apply l o = e'.apply l (e.apply l o) := by
  ext1
  · apply Option.some.inj
    rw [e'.some_apply_data (Or.inl (by simp [hw'])), e.some_apply_data (Or.inl (by simp [hw])),
      (both e e').some_apply_data (Or.inl (by simp [both, hw'])), both, hw, hw', assign_assign]
  · simp [Effect.apply, both, Effect.report, List.foldl_append]
  · simp [Effect.apply, both, add_assoc]

theorem get?_apply {l : Location} {e : Effect} {v w : Value} (hw : e.value = some w)
    {o : Observed} (hv : o.data.get? l = some v) : (e.apply l o).data.get? l = some w := by
  have hget := get?_assign_self w l (some o.data)
  rw [← hw, ← e.some_apply_data (Or.inl (by simp [hw])), Option.bind_some, Option.bind_some,
    hv] at hget
  exact hget

/-- A part of a run that takes place where another one left a value. -/
theorem Acts.both {l : Location} {v w : Value} {e : Effect} {e' : Option Effect}
    {f g : RunState → RunState} (h : Acts l (some v) (some e) f) (hw : e.value = some w)
    (h' : Acts l (some w) e' g) (hleaves : Leaves e') :
    Acts l (some v) (e'.map (RunState.both e)) fun s => g (f s) := by
  intro s hrunning hget
  obtain ⟨hrunning', hseen⟩ := acts_some_iff.mp h s hrunning hget
  have hget' : (f s).data.get? l = some w := by
    change (f s).seen.data.get? l = some w
    rw [hseen]
    exact get?_apply hw hget
  rw [h' (f s) hrunning' hget', hseen, Option.map_map]
  apply Option.map_congr
  intro e₂ he₂
  obtain ⟨w', hw'⟩ := hleaves e₂ he₂
  exact (apply_both hw hw' s.seen).symm

theorem Acts.then_abandoned {l : Location} {o : Option Value} {f g : RunState → RunState}
    (h : Acts l o none f) (hg : ∀ s, s.abandoned = true → (g s).abandoned = true) :
    Acts l o none fun s => g (f s) := by
  rw [acts_none_iff] at h ⊢
  exact fun s hrunning hget => hg _ (h s hrunning hget)

/-- An effect below a location as one at it, where there is a value. -/
def raised (v : Value) (n : Location) (e : Effect) : Effect where
  value := assign e.value n (some v)
  messages := e.messages.map fun m => (n ++ m.1, m.2)
  failures := e.failures

/-- What takes place below a value takes place at it. -/
theorem Acts.raise {l n : Location} {v : Value} {e : Option Effect} {f : RunState → RunState}
    (hn : n ≠ []) (h : Acts (l ++ n) (v.get? n) e f) : Acts l (some v) (e.map (raised v n)) f := by
  intro s hrunning hget
  have hget' : s.data.get? (l ++ n) = v.get? n := by
    rw [get?_append, hget, Option.bind_some]
  rw [h s hrunning hget', Option.map_map]
  apply Option.map_congr
  intro e he
  have hraised : (raised v n e).value.isSome := by
    cases n with
    | nil => contradiction
    | cons s rest => rfl
  ext1
  · apply Option.some.inj
    have hdata : s.seen.data.get? l = some v := hget
    rw [e.some_apply_data (Or.inr (by simp [hn])), Function.comp_apply,
      (raised v n e).some_apply_data (Or.inl hraised), assign_append, Option.bind_some, hdata]
    rfl
  · simp [Effect.apply, raised, Effect.report, List.foldl_map]
  · rfl

section Local

variable {field : Field} {l : Location}

/-- For local validators, the context is the same but for the data and the time. -/
theorem context_local (h : ∀ v ∈ field.validators, v.Local) (s s' : RunState) (v : Value)
    (invalid : Bool) :
    s'.context options field l v invalid =
      { s.context options field l v invalid with data := s'.data, elapsed := s'.elapsed } := by
  have hrequiring := Field.requiring?_local h
    { value := v, data := s.data, location := l, field := field.info, call := options.call,
      elapsed := s.elapsed, invalid, required := false } s'.data s'.elapsed
  unfold context
  dsimp only at hrequiring ⊢
  rw [hrequiring]

/-- The messages about an absence, one if the field must be present. -/
def absenceTexts (options : RunOptions) (field : Field) (l : Location) : List String :=
  let c := context { data := .null } options field l .null false
  match field.requiring? { c with required := false } with
  | none => []
  | some v => [Message.ofFailure options.translate v c]

/-- Reporting an absence depends on nothing else. -/
theorem absent_local (h : ∀ v ∈ field.validators, v.Local) (options : RunOptions) (l : Location)
    (s : RunState) : s.absent options field l =
      { s with
        errors := (absenceTexts options field l).foldl (fun t m => t.add l m) s.errors } := by
  let start : RunState := { data := .null }
  let c := start.context options field l .null false
  have hcontext : s.context options field l .null false =
      { c with data := s.data, elapsed := s.elapsed } := context_local h start s .null false
  have hrequiring :
      field.requiring? { c with data := s.data, elapsed := s.elapsed, required := false } =
        field.requiring? { c with required := false } :=
    Field.requiring?_local h { c with required := false } s.data s.elapsed
  have htexts : absenceTexts options field l =
      match field.requiring? { c with required := false } with
      | none => []
      | some v => [Message.ofFailure options.translate v c] := rfl
  cases hfirst : field.requiring? { c with required := false } with
  | none =>
    rw [hfirst] at htexts
    unfold absent
    simp only [hcontext, hrequiring, hfirst, htexts]
    rfl
  | some v =>
    have hv : v.Local := h v (List.mem_of_find?_eq_some hfirst)
    rw [hfirst] at htexts
    unfold absent
    simp only [hcontext, hrequiring, hfirst, htexts, Message.ofFailure_local hv]
    rfl

/-- An effect that reports texts where it takes place. -/
theorem report_texts (o : Option Value) (texts : List String) (failures : List CollaboratorFailure)
    (l : Location) (t : ErrorTree) :
    (Effect.mk o (texts.map fun m => ([], m)) failures).report l t =
      texts.foldl (fun t m => t.add l m) t := by
  simp [Effect.report, List.foldl_map]

theorem exists_acts_absent (h : ∀ v ∈ field.validators, v.Local) (options : RunOptions)
    (l : Location) (o : Option Value) :
    ∃ e, Acts l o (some e) fun s => s.absent options field l := by
  refine ⟨⟨o, (absenceTexts options field l).map fun m => ([], m), []⟩,
    acts_of_report rfl rfl fun s => ?_⟩
  rw [report_texts]
  exact absent_local h options l s

/-- A null that counts as absent is removed, and reported if need be. -/
theorem exists_acts_removeNull (h : ∀ v ∈ field.validators, v.Local) (options : RunOptions)
    (l : Location) :
    ∃ e, Acts l (some .null) (some e) fun s => (s.removeNull l).absent options field l := by
  refine ⟨⟨absence l, (absenceTexts options field l).map fun m => ([], m), []⟩,
    acts_some_iff.mpr fun s hrunning hget => ?_⟩
  have hremoved := removeNull_assign hget
  obtain ⟨data, hdata⟩ : ∃ data, s.removeNull l = { s with data } := by
    rcases s.removeNull_eq l with h | ⟨-, data, -, h⟩
    · exact ⟨s.data, h⟩
    · exact ⟨data, h⟩
  rw [hdata] at hremoved
  rw [hdata, absent_local h]
  refine ⟨hrunning, ?_⟩
  ext1
  · simp [seen, Effect.apply, ← hremoved]
  · simp [seen, Effect.apply, report_texts]
  · simp [seen, Effect.apply]

theorem acts_wrapAt (options : RunOptions) (field : Field) (l : Location) (v : Value) :
    Acts l (some v) (some ⟨some (prepared options field l v), [], []⟩)
      fun s => s.wrapAt options field l := by
  rw [acts_some_iff]
  intro s hrunning hget
  obtain ⟨data, hdata, hwrap⟩ := s.wrapAt_eq options field l hget
  rw [hwrap]
  refine ⟨hrunning, ?_⟩
  obtain ⟨c, hc, hassign⟩ := assign_of_update? hdata
  cases hget.symm.trans hc
  ext1
  · simp [seen, Effect.apply, hassign]
  · rfl
  · simp [seen, Effect.apply]

/-- Whether the passage of a value has an effect, or abandons the run if there is none. -/
def Passes (l : Location) (e : Option Effect) (p q : Passage) : Prop :=
  match e with
  | none => q.state.abandoned = true
  | some e => q.state.abandoned = false ∧ e.value = some q.value ∧
      q.state.errors = e.report l p.state.errors ∧ q.state.failures = p.state.failures ++ e.failures

theorem failureLocations_eq (l : Location) (v : Verdict) :
    failureLocations l v = (failureLocations [] v).map fun m => l ++ m := by
  unfold failureLocations
  split <;> simp

theorem foldl_report_failureLocations (s : RunState) (l : Location) (v : Verdict)
    (message : String) :
    (failureLocations l v).foldl (fun s l => s.report l message) s =
      { s with errors := (Effect.mk none
        ((failureLocations [] v).map fun m => (m, message)) []).report l s.errors } := by
  rw [failureLocations_eq]
  generalize failureLocations [] v = ms
  induction ms generalizing s with
  | nil => rfl
  | cons m ms ih =>
    rw [List.map_cons, List.foldl_cons, ih]
    rfl

/-- Whether a validator rejects what it is asked about. -/
def rejects (v : Validator) (c : Context) : Bool :=
  !(v.check c).accepted || !(v.check c).failures.isEmpty

/-- The effect of asking a validator in a context; none if it abandons the run. -/
def answer (options : RunOptions) (v : Validator) (c : Context) : Option Effect :=
  if (v.check c).abandoned then none
  else
    let message := Message.ofFailure options.translate v { c with value := (v.check c).value }
    some {
      value := some (if v.converting then (v.check c).value else c.value)
      messages :=
        if rejects v c then (failureLocations [] (v.check c)).map fun m => (m, message) else []
      failures := (v.check c).failures.map fun cause => ⟨v.name, c.location, cause⟩ }

theorem passes_ask (options : RunOptions) (field : Field) (l : Location) {p : Passage}
    (hrunning : p.state.abandoned = false) (v : Validator) :
    let c := p.state.context options field l p.value p.invalid
    Passes l (answer options v c) p (p.ask options field l v) ∧
      (p.ask options field l v).invalid = (p.invalid || rejects v c) := by
  have hask : ¬ p.state.abandoned = true := by simp [hrunning]
  unfold Passage.ask
  rw [if_neg hask]
  refine ⟨?_, rfl⟩
  dsimp only
  rw [foldl_report_failureLocations, answer]
  generalize hc : p.state.context options field l p.value p.invalid = c
  have hvalue : c.value = p.value := by rw [← hc]; rfl
  have hlocation : c.location = l := by rw [← hc]; rfl
  cases habandoned : (v.check c).abandoned with
  | true =>
    rw [if_pos rfl]
    dsimp only [Passes]
    split <;> rfl
  | false =>
    rw [if_neg Bool.false_ne_true, hvalue, hlocation]
    cases hrejects : (!(v.check c).accepted || !(v.check c).failures.isEmpty) with
    | true => simp [Passes, rejects, hrejects, Effect.report]
    | false => simp [Passes, rejects, hrejects, Effect.report]

theorem rejects_local {v : Validator} (h : v.Local) (c : Context) (data : Value)
    (elapsed : Duration) : rejects v { c with data, elapsed } = rejects v c := by
  rw [rejects, h.accepted, h.failures, rejects]

theorem answer_local {v : Validator} (h : v.Local) (options : RunOptions) (c : Context)
    (data : Value) (elapsed : Duration) :
    answer options v { c with data, elapsed } = answer options v c := by
  have hmessage := Message.ofFailure_local h options.translate
    { c with value := (v.check c).value } data elapsed
  dsimp only at hmessage
  have hlocations : ∀ d d' : Verdict, d.elements = d'.elements →
      failureLocations [] d = failureLocations [] d' := by
    intro d d' heq
    rw [failureLocations, heq, failureLocations]
  unfold answer
  rw [h.abandoned, h.value, h.failures, rejects_local h, hmessage,
    hlocations _ _ (h.elements _ _ _)]

theorem leaves_answer (options : RunOptions) (v : Validator) (c : Context) :
    Leaves (answer options v c) := by
  unfold answer
  split
  · exact leaves_none
  · exact leaves_some rfl

/-- Asking a local validator depends on nothing but the value and whether it was rejected before. -/
theorem exists_passes_ask (h : ∀ v ∈ field.validators, v.Local) {v : Validator} (hv : v.Local)
    (options : RunOptions) (l : Location) (value : Value) (invalid : Bool) :
    ∃ e rejected, Leaves e ∧ ∀ p : Passage, p.state.abandoned = false → p.value = value →
      p.invalid = invalid → Passes l e p (p.ask options field l v) ∧
        (p.ask options field l v).invalid = rejected := by
  let c := context { data := .null } options field l value invalid
  refine ⟨answer options v c, invalid || rejects v c, leaves_answer options v c,
    fun p hrunning hvalue hinvalid => ?_⟩
  have hpasses := passes_ask options field l hrunning v
  dsimp only at hpasses
  rw [hvalue, hinvalid, context_local h { data := .null } p.state value invalid, answer_local hv,
    rejects_local hv] at hpasses
  exact hpasses

theorem Passes.trans {l : Location} {e : Effect} {e' : Option Effect} {p q r : Passage}
    (h : Passes l (some e) p q) (h' : Passes l e' q r) :
    Passes l (e'.map (RunState.both e)) p r := by
  obtain ⟨-, -, herrors, hfailures⟩ := h
  cases e' with
  | none => exact h'
  | some e' =>
    obtain ⟨hrunning, hvalue, herrors', hfailures'⟩ := h'
    refine ⟨hrunning, hvalue, ?_, ?_⟩
    · rw [herrors', herrors]
      simp [both, Effect.report, List.foldl_append]
    · rw [hfailures', hfailures, List.append_assoc]
      rfl

/-- The passage of a value through local validators depends on nothing else. -/
theorem exists_passes_foldl (h : ∀ v ∈ field.validators, v.Local) {vs : List Validator}
    (hvs : ∀ v ∈ vs, v.Local) (options : RunOptions) (l : Location) (value : Value)
    (invalid : Bool) :
    ∃ e, ∀ p : Passage, p.state.abandoned = false → p.value = value → p.invalid = invalid →
      Passes l e p (vs.foldl (Passage.ask options field l) p) := by
  induction vs generalizing value invalid with
  | nil =>
    refine ⟨some ⟨some value, [], []⟩, fun p hrunning hvalue hinvalid => ?_⟩
    exact ⟨hrunning, congrArg some hvalue.symm, rfl, (List.append_nil _).symm⟩
  | cons v vs ih =>
    obtain ⟨e, rejected, hleaves, hask⟩ :=
      exists_passes_ask h (hvs v List.mem_cons_self) options l value invalid
    cases e with
    | none =>
      refine ⟨none, fun p hrunning hvalue hinvalid => ?_⟩
      obtain ⟨hfirst, -⟩ := hask p hrunning hvalue hinvalid
      rw [List.foldl_cons, foldl_ask_abandoned options field l _ vs hfirst]
      exact hfirst
    | some e =>
      obtain ⟨w, hw⟩ := hleaves e rfl
      obtain ⟨e', he'⟩ := ih (fun u hu => hvs u (List.mem_cons_of_mem v hu)) w rejected
      refine ⟨e'.map (RunState.both e), fun p hrunning hvalue hinvalid => ?_⟩
      obtain ⟨hfirst, hinvalid'⟩ := hask p hrunning hvalue hinvalid
      have hvalue' : (p.ask options field l v).value = w :=
        Option.some.inj (hfirst.2.1.symm.trans hw)
      rw [List.foldl_cons]
      exact hfirst.trans (he' _ hfirst.1 hvalue' hinvalid')

/-- The passage of a value through local validators has an effect. -/
theorem exists_acts_validateAt (h : ∀ v ∈ field.validators, v.Local) (options : RunOptions)
    (l : Location) (v : Value) :
    ∃ e, Leaves e ∧ Acts l (some v) e fun s => s.validateAt options field l := by
  obtain ⟨e, he⟩ := exists_passes_foldl h h options l v false
  cases e with
  | none =>
    refine ⟨none, leaves_none, acts_none_iff.mpr fun s hrunning hget => ?_⟩
    obtain ⟨data, q, rfl, hvalidate, -⟩ := validateAt_assign hget options field
    rw [hvalidate]
    exact he ⟨{ s with data }, v, false⟩ hrunning rfl rfl
  | some e =>
    have hleaves : Leaves (some e) :=
      leaves_some (he ⟨{ data := .null }, v, false⟩ rfl rfl rfl).2.1
    refine ⟨some e, hleaves, acts_some_iff.mpr fun s hrunning hget => ?_⟩
    obtain ⟨data, q, hq, hvalidate, hdata⟩ := validateAt_assign hget options field
    obtain ⟨hrunning', hvalue, herrors, hfailures⟩ :=
      he ⟨{ s with data }, v, false⟩ hrunning rfl rfl
    rw [← hq] at hrunning' hvalue herrors hfailures
    have hseen : some (s.validateAt options field l).data =
        assign e.value l (some s.seen.data) := by
      rw [hdata, hvalue]
      rfl
    rw [← e.some_apply_data (Or.inl (by simp [hvalue]))] at hseen
    rw [hvalidate]
    refine ⟨hrunning', ?_⟩
    ext1
    · exact Option.some.inj hseen
    · exact herrors
    · simp [seen, Effect.apply, hfailures]

end Local

/-- No element of a sequence goes away. -/
theorem isSome_get?_assign_index {x : Option Value} {i j : Int} {v w : Value}
    (hw : assign x [.index i] (some v) = some w) (hj : (v.get? [.index j]).isSome) :
    (w.get? [.index j]).isSome := by
  have hchild : ∀ u : Value, u.get? [.index j] = u.child? (.index j) := by
    intro u
    rw [Value.get?]
    exact Option.bind_fun_some (u.child? (.index j))
  rw [assign_cons, Option.some.injEq] at hw
  subst hw
  rw [hchild] at hj ⊢
  by_cases hij : i = j
  · subst hij
    obtain ⟨c, hc⟩ := Option.isSome_iff_exists.mp hj
    cases x with
    | some new =>
      rw [child?_assignChild_assign v _ (Or.inl rfl), hc]
      rfl
    | none =>
      rw [hc]
      cases v <;> exact hj
  · rwa [child?_assignChild_of_ne isSome_of_isSome_assign fun h => hij (Segment.index.inj h)]

theorem Leaves.map_both {e : Effect} {e' : Option Effect} (h : Leaves e') :
    Leaves (e'.map (both e)) := by
  intro e₂ he₂
  obtain ⟨e₁, he₁, rfl⟩ := Option.map_eq_some_iff.mp he₂
  exact h e₁ he₁

/-- Where every visit of an element has an effect, going over the elements of a value has one at the
value. -/
theorem exists_acts_foldl {visit : RunState → Location × Found → RunState} {l : Location}
    (habandoned : ∀ s p, s.abandoned = true → visit s p = s)
    (hvisit : ∀ (i : Int) how (o : Option Value), (how = .found → o.isSome) →
      ∃ e, Acts (l ++ [.index i]) o e fun s => visit s (l ++ [.index i], how))
    (ps : List (Location × Found)) (hps : ∀ p ∈ ps, ∃ i, p.1 = l ++ [.index i]) (v : Value)
    (hexists : ∀ i, (l ++ [.index i], .found) ∈ ps → (v.get? [.index i]).isSome) :
    ∃ e, Leaves e ∧ Acts l (some v) e fun s => ps.foldl visit s := by
  induction ps generalizing v with
  | nil =>
    exact ⟨_, leaves_some rfl, acts_self l v⟩
  | cons p ps ih =>
    obtain ⟨m, how⟩ := p
    obtain ⟨i, rfl⟩ := hps _ List.mem_cons_self
    obtain ⟨e, he⟩ := hvisit i how (v.get? [.index i]) (by
      rintro rfl
      exact hexists i List.mem_cons_self)
    have hraised := he.raise (List.cons_ne_nil _ _)
    cases e with
    | none =>
      have hstays : ∀ s : RunState, s.abandoned = true → (ps.foldl visit s).abandoned = true := by
        intro s hs
        rwa [foldl_abandoned habandoned ps hs]
      exact ⟨none, leaves_none, hraised.then_abandoned hstays⟩
    | some e =>
      obtain ⟨w, hw⟩ : ∃ w, assign e.value [.index i] (some v) = some w := ⟨_, rfl⟩
      obtain ⟨e', hleaves, he'⟩ := ih (fun p hp => hps p (List.mem_cons_of_mem _ hp)) w
        fun j hj => isSome_get?_assign_index hw (hexists j (List.mem_cons_of_mem _ hj))
      exact ⟨_, hleaves.map_both, hraised.both hw he' hleaves⟩

theorem places_elements (branches : List Matches) :
    places (.elements branches) = branches.flatMap places := by
  rw [places, Matches.toList, Matches.toListAll_eq, List.map_flatMap]
  rfl

/-- Every match of a path is at a location of its shape, whether it was found or not. -/
theorem exists_of_mem_places {source : Source} {segment : Option Segment} {base : Location}
    {p : Path} {place : Location × Found}
    (h : place ∈ places (Matches.fromSource source segment base p)) :
    ∃ n, place.1 = base ++ n ∧ n.HasShape p := by
  rw [places, Matches.toList_fromSource, List.map_map] at h
  obtain ⟨n, hn, rfl⟩ := List.mem_map.mp h
  exact ⟨n, rfl, Path.hasShape_of_mem_ways hn⟩

/-- The places of elements are at indices. -/
theorem exists_index_of_mem_places {source : Source} {segment : Option Segment} {base : Location}
    {place : Location × Found}
    (h : place ∈ places (Matches.fromSource source segment base Path.elements)) :
    ∃ i, place.1 = base ++ [.index i] := by
  obtain ⟨n, hn, hshape⟩ := exists_of_mem_places h
  obtain ⟨s, rest, ⟨i, rfl⟩, hrest, rfl⟩ := List.forall₂_cons_left_iff.mp hshape
  rw [List.forall₂_nil_left_iff.mp hrest] at hn
  exact ⟨i, hn⟩

theorem places_elements_eq {data v : Value} {l : Location} (hv : data.get? l = some v) :
    places (Matches.ofPathAt Path.elements data l) =
      places (Matches.fromSource (.root v) none l Path.elements) := by
  unfold Matches.ofPathAt
  rw [hv]
  rfl

theorem Acts.congr {l : Location} {o : Option Value} {e : Option Effect} {f g : RunState → RunState}
    (h : Acts l o e f)
    (hsame : ∀ s : RunState, s.abandoned = false → s.data.get? l = o → g s = f s) :
    Acts l o e g := by
  intro s hrunning hget
  rw [hsame s hrunning hget]
  exact h s hrunning hget

theorem validateAt_abandoned (options : RunOptions) (field : Field) (l : Location) {s : RunState}
    (h : s.abandoned = true) : (s.validateAt options field l).abandoned = true := by
  unfold validateAt
  dsimp only
  rw [foldl_ask_abandoned options field l _ field.validators h]
  exact h

/-- A null stays where the field allows it, and counts as absent otherwise. -/
theorem exists_acts_null {field : Field} (hlocal : ∀ v ∈ field.validators, v.Local)
    (options : RunOptions) (l : Location) :
    ∃ e, Acts l (some .null) e fun s =>
      if field.info.nullable then s else (s.removeNull l).absent options field l := by
  cases field.info.nullable with
  | true => exact ⟨_, acts_self l .null⟩
  | false =>
    obtain ⟨e, he⟩ := exists_acts_removeNull hlocal options l
    exact ⟨_, he⟩

/-- A visit of a value whose elements are gone over with an effect has an effect itself. -/
theorem exists_acts_visit_of_elements {items : List Field} {field : Field}
    (hlocal : ∀ v ∈ field.validators, v.Local) {l : Location}
    (helements : ∀ v, ∃ e, Leaves e ∧
      Acts l (some v) e fun s => visitElements options items s l)
    (how : Found) (o : Option Value) (ho : how = .found → o.isSome) :
    ∃ e, Acts l o e fun s => visit options items field s (l, how) := by
  by_cases hhow : how = .found
  · subst hhow
    obtain ⟨v, rfl⟩ := Option.isSome_iff_exists.mp (ho rfl)
    have hvisit : ∀ s : RunState, s.abandoned = false → s.data.get? l = some v →
        visit options items field s (l, .found) =
          if v.isNull then
            if field.info.nullable then s else (s.removeNull l).absent options field l
          else
            (visitElements options items (s.wrapAt options field l) l).validateAt options field
              l := by
      intro s hrunning hget
      rw [visit_found options items field l hrunning, isNullAt_of_get? hget]
    cases hnull : v.isNull with
    | true =>
      obtain ⟨e, he⟩ := exists_acts_null hlocal options l
      rw [isNull_eq_true_iff] at hnull
      subst hnull
      refine ⟨e, he.congr fun s hrunning hget => ?_⟩
      rw [hvisit s hrunning hget]
      rfl
    | false =>
      simp only [hnull, Bool.false_eq_true, if_false] at hvisit
      obtain ⟨e, hleaves, he⟩ := helements (prepared options field l v)
      have hwrapped := (acts_wrapAt options field l v).both rfl he hleaves
      cases e with
      | none =>
        have hend := hwrapped.then_abandoned fun s hs => validateAt_abandoned options field l hs
        exact ⟨none, hend.congr hvisit⟩
      | some e =>
        obtain ⟨w, hw⟩ := hleaves e rfl
        obtain ⟨e', hleaves', he'⟩ := exists_acts_validateAt hlocal options l w
        exact ⟨_, (Acts.both hwrapped hw he' hleaves').congr hvisit⟩
  · obtain ⟨e, he⟩ := exists_acts_absent hlocal options l o
    exact ⟨some e, he.congr fun s hrunning _ =>
      visit_of_ne_found options items field l hrunning hhow⟩

/-- A visit has an effect that depends on the value at its location only. -/
theorem exists_acts_visit (options : RunOptions) {items : List Field} {field : Field}
    (hlocal : ∀ f ∈ field :: items, ∀ v ∈ f.validators, v.Local) (l : Location) (how : Found)
    (o : Option Value) (ho : how = .found → o.isSome) :
    ∃ e, Acts l o e fun s => visit options items field s (l, how) := by
  induction items generalizing field l how o with
  | nil =>
    refine exists_acts_visit_of_elements (hlocal field List.mem_cons_self) (fun v => ?_) how o ho
    exact ⟨_, leaves_some rfl, acts_self l v⟩
  | cons item rest ih =>
    refine exists_acts_visit_of_elements (hlocal field List.mem_cons_self) (fun v => ?_) how o ho
    have hitems := fun f hf => hlocal f (List.mem_cons_of_mem field hf)
    cases hsequence : v.isSequence with
    | true =>
      obtain ⟨e, hleaves, he⟩ := exists_acts_foldl (l := l)
        (fun s p hs => visit_abandoned options rest item p hs)
        (fun i how o ho => ih hitems _ how o ho)
        (places (Matches.fromSource (.root v) none l Path.elements))
        (fun p hp => exists_index_of_mem_places hp) v
        (fun i hi => by
          rw [← mem_foundPlaces, foundPlaces_places, Matches.found_fromSource, List.mem_map] at hi
          obtain ⟨n, hn, heq⟩ := hi
          rw [List.append_cancel_left heq] at hn
          obtain ⟨-, w, hw⟩ := Path.mem_locations.mp hn
          rw [hw]
          rfl)
      refine ⟨e, hleaves, he.congr fun s hrunning hget => ?_⟩
      rw [visitElements_cons, hget, if_pos (by simpa using hsequence), places_elements_eq hget]
    | false =>
      refine ⟨_, leaves_some rfl, (acts_self l v).congr fun s hrunning hget => ?_⟩
      rw [visitElements_cons, hget, if_neg (by simp [hsequence])]

end RunState

end PathRules

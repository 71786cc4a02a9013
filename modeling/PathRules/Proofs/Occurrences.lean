import Mathlib
import PathRules.Proofs.Compiled
import PathRules.Proofs.Execution
import PathRules.Proofs.Messages
import PathRules.Rules.Distinct
/-!
What a run reports. The occurrences of a run are those of its fields at the places that it comes to,
in order, each with what was asked there. Main statement: the errors of a run are the messages of
its occurrences, one after the other, and there are none just when no occurrence has a message.
-/

namespace PathRules

/-- A validator with what it was asked about. -/
structure Answer where
  validator : Validator
  context : Context

namespace Answer

def verdict (a : Answer) : Verdict :=
  a.validator.check a.context

/-- Whether the validator does not accept, or a collaborator of it failed. -/
def fails (a : Answer) : Bool :=
  !a.verdict.accepted || !a.verdict.failures.isEmpty

/-- The message of a failing validator, which is about the value that it leaves. -/
def message (translate : Translator) (a : Answer) : String :=
  Message.ofFailure translate a.validator { a.context with value := a.verdict.value }

/-- The messages of a validator: none if it does not fail, one about the location if it does, or,
where it reports elements, one about each of them. -/
def messages (translate : Translator) (l : Location) (a : Answer) : List (Location × String) :=
  if a.fails then
    if a.verdict.elements = [] then [(l, a.message translate)]
    else a.verdict.elements.map fun i => (l ++ [.index i], a.message translate)
  else []

/-- What a failing validator reports: its message at each location that its verdict names, indices
being read as signed words. -/
def reports (translate : Translator) (l : Location) (a : Answer) : List (Location × String) :=
  if a.fails then (RunState.failureLocations l a.verdict).map fun m => (m, a.message translate)
  else []

def invocation (field : Field) (l : Location) (a : Answer) : Invocation :=
  ⟨field.path, a.validator.id, l, a.verdict.notes⟩

def failures (l : Location) (a : Answer) : List CollaboratorFailure :=
  a.verdict.failures.map fun cause => ⟨a.validator.name, l, cause⟩

/-- Whether the elements that a failing validator reports are at indices that signed words hold. -/
def IndicesBelow (a : Answer) : Prop :=
  a.fails = true → ∀ i ∈ a.verdict.elements, i < 9223372036854775808

instance : DecidablePred IndicesBelow := fun a =>
  inferInstanceAs (Decidable (a.fails = true → ∀ i ∈ a.verdict.elements, i < 9223372036854775808))

end Answer

/-- A field at a place that a run comes to. -/
inductive Occurrence where
  /-- The value is missing, or it is null where the field does not allow null. -/
  | absent (field : Field) (location : Location) (context : Context)
  /-- The value is there, and the validators of the field are asked in order. -/
  | present (field : Field) (location : Location) (answers : List Answer)

namespace Occurrence

/-- The messages of an occurrence. An absent value has the one of the first validator that requires
it, a present one has those of the validators that fail. -/
def messages (translate : Translator) : Occurrence → List (Location × String)
  | absent field l c =>
    match field.requiring? { c with required := false } with
    | none => []
    | some v => [(l, Message.ofFailure translate v c)]
  | present _ l answers => answers.flatMap (Answer.messages translate l)

/-- What an occurrence reports. These are its messages, but for indices that signed words do not
hold. -/
def reports (translate : Translator) : Occurrence → List (Location × String)
  | absent field l c => messages translate (absent field l c)
  | present _ l answers => answers.flatMap (Answer.reports translate l)

def invocations : Occurrence → List Invocation
  | absent _ _ _ => []
  | present field l answers => answers.map (Answer.invocation field l)

def failures : Occurrence → List CollaboratorFailure
  | absent _ _ _ => []
  | present _ l answers => answers.flatMap (Answer.failures l)

/-- Whether all validators of the field were asked, as they are declared. -/
def Complete : Occurrence → Prop
  | absent _ _ _ => True
  | present field _ answers => answers.map Answer.validator = field.validators

def IndicesBelow : Occurrence → Prop
  | absent _ _ _ => True
  | present _ _ answers => ∀ a ∈ answers, a.IndicesBelow

instance : DecidablePred IndicesBelow
  | absent _ _ _ => isTrue trivial
  | present _ _ answers => inferInstanceAs (Decidable (∀ a ∈ answers, a.IndicesBelow))

end Occurrence

namespace RunState

/-- The value at a location and the state in which its validators are asked, where it is out of the
data. -/
def entering (s : RunState) (l : Location) : Passage :=
  let (value, data) := (s.data.take? l).getD (.null, s.data)
  ⟨{ s with data }, value, false⟩

/-- What validators are asked one after the other; nothing once the run is abandoned. -/
def answers (options : RunOptions) (field : Field) (l : Location) :
    Passage → List Validator → List Answer
  | _, [] => []
  | p, v :: vs =>
    if p.state.abandoned then []
    else ⟨v, p.state.context options field l p.value p.invalid⟩ ::
      answers options field l (p.ask options field l v) vs

/-- What occurs in steps that are taken one after the other. -/
def collect {α : Type} (step : RunState → α → RunState) (occurs : RunState → α → List Occurrence) :
    RunState → List α → List Occurrence
  | _, [] => []
  | s, a :: rest => occurs s a ++ collect step occurs (step s a) rest

/-- The occurrences when a field with element fields comes to a place. The elements of a sequence
are checked before the sequence itself. -/
def occurrencesAt (options : RunOptions) : (items : List Field) → (field : Field) → RunState →
    Location × Found → List Occurrence
  | items, field, s, (l, how) =>
    if s.abandoned then []
    else if how != .found then [.absent field l (s.context options field l .null false)]
    else if s.isNullAt l then
      if field.info.nullable then []
      else [.absent field l ((s.removeNull l).context options field l .null false)]
    else
      let s := s.wrapAt options field l
      let below :=
        match items, s.data.get? l with
        | item :: rest, some (.sequence _) =>
          collect (visit options rest item) (occurrencesAt options rest item) s
            (places (Matches.ofPathAt Path.elements s.data l))
        | _, _ => []
      below ++ [.present field l
        (answers options field l ((visitElements options items s l).entering l) field.validators)]

/-- The occurrences when the elements of a sequence are checked with the element fields below its
own. -/
def elementOccurrences (options : RunOptions) (items : List Field) (s : RunState) (l : Location) :
    List Occurrence :=
  match items, s.data.get? l with
  | item :: rest, some (.sequence _) =>
    collect (visit options rest item) (occurrencesAt options rest item) s
      (places (Matches.ofPathAt Path.elements s.data l))
  | _, _ => []

theorem elementOccurrences_cons (options : RunOptions) (item : Field) (rest : List Field)
    (s : RunState) (l : Location) :
    elementOccurrences options (item :: rest) s l =
      if (s.data.get? l).any Value.isSequence then
        collect (visit options rest item) (occurrencesAt options rest item) s
          (places (Matches.ofPathAt Path.elements s.data l))
      else [] := by
  unfold elementOccurrences
  cases s.data.get? l with
  | none => rfl
  | some v => cases v <;> rfl

/-- The occurrences in the turn of a chain. -/
def chainOccurrences (options : RunOptions) (s : RunState) (chain : FieldChain) :
    List Occurrence :=
  collect (visit options chain.items chain.head) (occurrencesAt options chain.items chain.head) s
    (places (Matches.ofPath chain.path s.data))

end RunState

/-- The occurrences of a run, in the order in which it comes to them. -/
def CompiledRules.occurrences (rules : CompiledRules) (options : RunOptions) (data : Value) :
    List Occurrence :=
  RunState.collect (RunState.runChain options) (RunState.chainOccurrences options) { data }
    rules.chains

namespace RunState

/-- Whether one state has just these messages, log entries and failures more than another one. -/
structure Adds (messages : List (Location × String)) (log : List Invocation)
    (failures : List CollaboratorFailure) (s t : RunState) : Prop where
  errors : t.errors = messages.foldl (fun t m => t.add m.1 m.2) s.errors
  log : t.log = s.log ++ log
  failures : t.failures = s.failures ++ failures

theorem Adds.refl (s : RunState) : Adds [] [] [] s s :=
  ⟨rfl, (List.append_nil _).symm, (List.append_nil _).symm⟩

theorem Adds.trans {ms ns : List (Location × String)} {is js : List Invocation}
    {fs gs : List CollaboratorFailure} {s t u : RunState} (h : Adds ms is fs s t)
    (h' : Adds ns js gs t u) : Adds (ms ++ ns) (is ++ js) (fs ++ gs) s u := by
  constructor
  · rw [h'.errors, h.errors, List.foldl_append]
  · rw [h'.log, h.log, List.append_assoc]
  · rw [h'.failures, h.failures, List.append_assoc]

/-- Indices that signed words hold are read as they are. -/
theorem elementSegment_eq {i : Nat} (h : i < 9223372036854775808) :
    elementSegment i = .index i := by
  rw [elementSegment, Int.bmod_eq_of_le (by omega) (by omega)]

theorem foldl_report (s : RunState) (ls : List Location) (message : String) :
    ls.foldl (fun s l => s.report l message) s =
      { s with
        errors := (ls.map fun l => (l, message)).foldl (fun t m => t.add m.1 m.2) s.errors } := by
  induction ls generalizing s with
  | nil => rfl
  | cons l ls ih =>
    rw [List.foldl_cons, ih]
    rfl

theorem messages_eq_reports {translate : Translator} {l : Location} {a : Answer}
    (hindices : a.IndicesBelow) : a.messages translate l = a.reports translate l := by
  unfold Answer.messages Answer.reports
  split
  next hfails =>
    have hsegments : a.verdict.elements.map (fun i => l ++ [elementSegment i]) =
        a.verdict.elements.map fun i => l ++ [.index i] := by
      apply List.map_congr_left
      intro i hi
      rw [elementSegment_eq (hindices hfails i hi)]
    rw [failureLocations, hsegments]
    cases a.verdict.elements <;> simp
  next => rfl

/-- Where all indices are read as they are, the messages of an occurrence are what it reports. -/
theorem occurrence_messages_eq_reports {translate : Translator} {o : Occurrence}
    (hindices : o.IndicesBelow) : o.messages translate = o.reports translate := by
  cases o with
  | absent field l c => rfl
  | present field l answers =>
    exact List.flatMap_congr fun a ha => messages_eq_reports (hindices a ha)

theorem messages_of_not_fails {translate : Translator} {l : Location} {a : Answer}
    (hfails : a.fails = false) : a.messages translate l = [] := by
  rw [Answer.messages, if_neg (by simp [hfails])]

section Passages

variable (options : RunOptions) (field : Field) (l : Location)

/-- The question that a validator is asked next. -/
def asking (p : Passage) (v : Validator) : Answer :=
  ⟨v, p.state.context options field l p.value p.invalid⟩

/-- The state after a validator was asked, but for its messages. -/
def answered (p : Passage) (a : Answer) : RunState :=
  { p.state with
    failures := p.state.failures ++ a.failures l
    log := p.state.log ++ [a.invocation field l]
    elapsed := p.state.elapsed + a.verdict.elapsed
    abandoned := a.verdict.abandoned }

theorem ask_state {p : Passage} (hrunning : p.state.abandoned = false) (v : Validator) :
    (p.ask options field l v).state =
      if (asking options field l p v).fails then
        (failureLocations l (asking options field l p v).verdict).foldl
          (fun s m => s.report m ((asking options field l p v).message options.translate))
          (answered field l p (asking options field l p v))
      else answered field l p (asking options field l p v) := by
  unfold Passage.ask
  rw [if_neg (by simp [hrunning])]
  rfl

theorem ask_value {p : Passage} (hrunning : p.state.abandoned = false) (v : Validator) :
    (p.ask options field l v).value =
      if v.converting then (asking options field l p v).verdict.value else p.value := by
  rw [Passage.ask, if_neg (by simp [hrunning])]
  rfl

theorem ask_invalid {p : Passage} (hrunning : p.state.abandoned = false) (v : Validator) :
    (p.ask options field l v).invalid = (p.invalid || (asking options field l p v).fails) := by
  rw [Passage.ask, if_neg (by simp [hrunning])]
  rfl

theorem answers_abandoned {p : Passage} (h : p.state.abandoned = true) (vs : List Validator) :
    answers options field l p vs = [] := by
  cases vs with
  | nil => rfl
  | cons v vs => rw [answers, if_pos h]

theorem answers_cons {p : Passage} (h : p.state.abandoned = false) (v : Validator)
    (vs : List Validator) :
    answers options field l p (v :: vs) =
      asking options field l p v :: answers options field l (p.ask options field l v) vs := by
  rw [answers, if_neg (by simp [h])]
  rfl

variable {options field l}

/-- Asking a validator adds its messages, one entry to the log and the failures of its
collaborators. -/
theorem adds_ask {p : Passage} (hrunning : p.state.abandoned = false) {v : Validator} {a : Answer}
    (ha : asking options field l p v = a) :
    Adds (a.reports options.translate l) [a.invocation field l] (a.failures l) p.state
      (p.ask options field l v).state := by
  rw [ask_state options field l hrunning v, ha, Answer.reports]
  cases hfails : a.fails with
  | true =>
    rw [if_pos rfl, if_pos rfl, foldl_report]
    exact ⟨rfl, rfl, rfl⟩
  | false => exact ⟨rfl, rfl, rfl⟩

variable (options field l) in
theorem adds_foldl_ask (p : Passage) (vs : List Validator) :
    Adds ((answers options field l p vs).flatMap (Answer.reports options.translate l))
      ((answers options field l p vs).map (Answer.invocation field l))
      ((answers options field l p vs).flatMap (Answer.failures l)) p.state
      (vs.foldl (Passage.ask options field l) p).state := by
  induction vs generalizing p with
  | nil => exact Adds.refl p.state
  | cons v vs ih =>
    cases hrunning : p.state.abandoned with
    | true =>
      rw [answers_abandoned options field l hrunning,
        foldl_ask_abandoned options field l p (v :: vs) hrunning]
      exact Adds.refl p.state
    | false =>
      rw [answers_cons options field l hrunning]
      exact (adds_ask hrunning rfl).trans (ih _)

/-- Where a run is not abandoned behind its validators, all of them were asked. -/
theorem map_validator_answers {p : Passage} {vs : List Validator}
    (hrunning : (vs.foldl (Passage.ask options field l) p).state.abandoned = false) :
    p.state.abandoned = false ∧ (answers options field l p vs).map Answer.validator = vs := by
  induction vs generalizing p with
  | nil => exact ⟨hrunning, rfl⟩
  | cons v vs ih =>
    have hstart : p.state.abandoned = false := by
      rw [← Bool.not_eq_true]
      intro habandoned
      rw [foldl_ask_abandoned options field l p (v :: vs) habandoned, habandoned] at hrunning
      contradiction
    refine ⟨hstart, ?_⟩
    rw [answers_cons options field l hstart, List.map_cons, (ih hrunning).2]
    rfl

end Passages

/-- Whether the validators of an occurrence were asked from some state on, one after the other. -/
def Asked (options : RunOptions) : Occurrence → Prop
  | .absent _ _ _ => True
  | .present field l as =>
    ∃ s : RunState, as = answers options field l (s.entering l) field.validators

/-- Whether one state comes from another one by just these occurrences. -/
structure Records (options : RunOptions) (occurrences : List Occurrence) (s t : RunState) :
    Prop where
  asked : ∀ o ∈ occurrences, Asked options o
  reports : Adds (occurrences.flatMap (Occurrence.reports options.translate))
    (occurrences.flatMap Occurrence.invocations) (occurrences.flatMap Occurrence.failures) s t
  complete : t.abandoned = false → s.abandoned = false ∧ ∀ o ∈ occurrences, o.Complete

namespace Records

variable {options : RunOptions}

theorem of_same {s t : RunState} (hadds : Adds [] [] [] s t)
    (habandoned : t.abandoned = s.abandoned) : Records options [] s t :=
  ⟨by simp, hadds, fun h => ⟨habandoned ▸ h, by simp⟩⟩

theorem refl (s : RunState) : Records options [] s s :=
  of_same (Adds.refl s) rfl

theorem adds {occurrences : List Occurrence} {s t : RunState}
    (h : Records options occurrences s t) (hindices : ∀ o ∈ occurrences, o.IndicesBelow) :
    Adds (occurrences.flatMap (Occurrence.messages options.translate))
      (occurrences.flatMap Occurrence.invocations)
      (occurrences.flatMap Occurrence.failures) s t := by
  rw [List.flatMap_congr fun o ho => occurrence_messages_eq_reports (hindices o ho)]
  exact h.reports

theorem trans {os ps : List Occurrence} {s t u : RunState} (h : Records options os s t)
    (h' : Records options ps t u) : Records options (os ++ ps) s u := by
  refine ⟨List.forall_mem_append.mpr ⟨h.asked, h'.asked⟩, ?_, ?_⟩
  · rw [List.flatMap_append, List.flatMap_append, List.flatMap_append]
    exact h.reports.trans h'.reports
  · intro hrunning
    obtain ⟨hmiddle, hlast⟩ := h'.complete hrunning
    obtain ⟨hstart, hfirst⟩ := h.complete hmiddle
    exact ⟨hstart, List.forall_mem_append.mpr ⟨hfirst, hlast⟩⟩

/-- What is recorded step by step is recorded by all steps together. -/
theorem collect {α : Type} {step : RunState → α → RunState}
    {occurs : RunState → α → List Occurrence}
    (hstep : ∀ s a, Records options (occurs s a) s (step s a)) (s : RunState) (as : List α) :
    Records options (RunState.collect step occurs s as) s (as.foldl step s) := by
  induction as generalizing s with
  | nil => exact refl s
  | cons a rest ih => exact (hstep s a).trans (ih (step s a))

theorem absent (s : RunState) (field : Field) (l : Location) :
    Records options [.absent field l (s.context options field l .null false)] s
      (s.absent options field l) := by
  refine ⟨List.forall_mem_singleton.mpr trivial, ?_, ?_⟩
  · unfold RunState.absent
    generalize s.context options field l .null false = c
    rw [List.flatMap_singleton, List.flatMap_singleton, List.flatMap_singleton,
      Occurrence.reports, Occurrence.messages]
    dsimp only [Occurrence.invocations, Occurrence.failures]
    cases field.requiring? { c with required := false } with
    | none => exact Adds.refl s
    | some v => exact ⟨rfl, (List.append_nil _).symm, (List.append_nil _).symm⟩
  · obtain ⟨errors, herrors⟩ := s.absent_eq options field l
    rw [herrors]
    intro hrunning
    exact ⟨hrunning, by simp [Occurrence.Complete]⟩

theorem removeNull (s : RunState) (l : Location) : Records options [] s (s.removeNull l) := by
  rcases s.removeNull_eq l with h | ⟨old, data, -, h⟩
  · rw [h]
    exact refl s
  · rw [h]
    exact of_same ⟨rfl, by simp, by simp⟩ rfl

theorem wrapAt (s : RunState) (field : Field) (l : Location) :
    Records options [] s (s.wrapAt options field l) := by
  unfold RunState.wrapAt
  split
  · exact of_same ⟨rfl, by simp, by simp⟩ rfl
  · exact refl s

theorem validateAt (s : RunState) (field : Field) (l : Location) :
    Records options [.present field l (answers options field l (s.entering l) field.validators)] s
      (s.validateAt options field l) := by
  refine ⟨List.forall_mem_singleton.mpr ⟨s, rfl⟩, ?_, ?_⟩
  · have hadds := adds_foldl_ask options field l (s.entering l) field.validators
    rw [List.flatMap_singleton, List.flatMap_singleton, List.flatMap_singleton]
    exact ⟨hadds.errors, hadds.log, hadds.failures⟩
  · intro hrunning
    obtain ⟨hstart, hall⟩ := map_validator_answers hrunning
    exact ⟨hstart, fun o ho => List.mem_singleton.mp ho ▸ hall⟩

theorem visit_of_elements {items : List Field}
    (helements : ∀ s l, Records options (elementOccurrences options items s l) s
      (visitElements options items s l)) (field : Field) (s : RunState)
    (place : Location × Found) :
    Records options (occurrencesAt options items field s place) s
      (visit options items field s place) := by
  obtain ⟨l, how⟩ := place
  unfold occurrencesAt
  cases hrunning : s.abandoned with
  | true =>
    rw [visit_abandoned options items field _ hrunning]
    exact refl s
  | false =>
    rw [if_neg (by simp)]
    by_cases hhow : how = .found
    · subst hhow
      rw [visit_found options items field l hrunning, if_neg (by simp)]
      split
      · split
        · exact refl s
        · exact (removeNull s l).trans (absent (s.removeNull l) field l)
      · exact (wrapAt s field l).trans ((helements _ l).trans (validateAt _ field l))
    · rw [visit_of_ne_found options items field l hrunning hhow, if_pos (by simpa using hhow)]
      exact absent s field l

/-- A visit records the occurrences at its place: those of the elements first, if there are any. -/
theorem visit (items : List Field) (field : Field) (s : RunState) (place : Location × Found) :
    Records options (occurrencesAt options items field s place) s
      (visit options items field s place) := by
  induction items generalizing field s place with
  | nil => exact visit_of_elements (fun s l => refl s) field s place
  | cons item rest ih =>
    refine visit_of_elements (fun s l => ?_) field s place
    rw [elementOccurrences_cons, visitElements_cons]
    split
    · exact collect (ih item) s _
    · exact refl s

theorem runChain (s : RunState) (chain : FieldChain) :
    Records options (chainOccurrences options s chain) s (runChain options s chain) :=
  collect (visit chain.items chain.head) s _

theorem runState (rules : CompiledRules) {data : Value} (hdata : data.isNull = false) :
    Records options (rules.occurrences options data) { data } (rules.runState options data) := by
  rw [CompiledRules.runState, if_neg (by simp [hdata])]
  exact collect runChain { data } rules.chains

end Records

end RunState

namespace CompiledRules

open RunState

/-- No message is lost or invented. The errors of a run over data that is not null are the messages
of its occurrences, added one after the other, and there are none just when no occurrence has a
message. The occurrences are those of the run: they have its log and its failures, all validators of
a field were asked in order unless the run was abandoned, and one that does not fail has no
messages. -/
theorem errors_validate (rules : CompiledRules) (options : RunOptions) {data : Value}
    (hdata : data.isNull = false)
    (hindices : ∀ o ∈ rules.occurrences options data, o.IndicesBelow) :
    let occurrences := rules.occurrences options data
    let messages := occurrences.flatMap (Occurrence.messages options.translate)
    let outcome := rules.validate options data
    outcome.errors = (if messages = [] then none else some (ErrorTree.ofMessages messages)) ∧
      (outcome.errors = none ↔ messages = []) ∧
        outcome.log = occurrences.flatMap Occurrence.invocations ∧
          outcome.failures = occurrences.flatMap Occurrence.failures ∧
            (outcome.abandoned = false → ∀ o ∈ occurrences, o.Complete) ∧
              ∀ (a : Answer) (l : Location), a.verdict.accepted = true → a.verdict.failures = [] →
                a.messages options.translate l = [] := by
  intro occurrences messages outcome
  have hrecords : Records options occurrences { data } (rules.runState options data) :=
    Records.runState rules hdata
  obtain ⟨herrors, hlog, hfailures⟩ := hrecords.adds hindices
  have htree : (rules.runState options data).errors = ErrorTree.ofMessages messages := herrors
  have herrors' : outcome.errors =
      if messages = [] then none else some (ErrorTree.ofMessages messages) := by
    rw [← ErrorTree.nonEmpty?_ofMessages, ← htree]
    rfl
  refine ⟨herrors', ?_, hlog, hfailures, fun hdone => (hrecords.complete hdone).2, ?_⟩
  · simp [herrors']
  · intro a l haccepted hfailures
    exact messages_of_not_fails (by simp [Answer.fails, haccepted, hfailures])

/-- A name that must be there, and tags that must differ. -/
def tagRules : RuleSet :=
  [("name", .rules [Rules.required]), ("tags", .rules [Rules.distinct])]

/-- The field of a key with one validator that reads nothing. -/
def keyField (name : String) (v : Validator) : Field :=
  ⟨⟨[.key name], 0, [], false, false, false⟩, [v]⟩

/-- Tags without a name, the third of which is the first again. -/
def repeatedTags : Value :=
  .map [("tags", .sequence [.string "a", .string "b", .string "a"])]

theorem errors_validate_repeatedTags : ∃ c, compile tagRules = .ok c ∧
    (∀ o ∈ c.occurrences plainOptions repeatedTags, o.IndicesBelow) ∧
      (c.validate plainOptions repeatedTags).errors = some (ErrorTree.ofMessages
        [([.key "name"], "validation.rules.required"),
          ([.key "tags", .index 2], "validation.rules.distinct")]) := by
  obtain ⟨c, hc⟩ := exists_of_isOk (by decide : (compile tagRules).isOk = true)
  obtain rfl : c = ⟨[⟨keyField "name" Rules.required, []⟩, ⟨keyField "tags" Rules.distinct, []⟩]⟩ :=
    eq_of_compile hc id (by cbv)
  refine ⟨_, hc, by decide, ?_⟩
  rw [(errors_validate _ plainOptions (rfl : repeatedTags.isNull = false) (by decide)).1]
  rfl

end CompiledRules

end PathRules

import PathRules.Proofs.Messages
import PathRules.Proofs.Occurrences
import PathRules.Rules.Known
/-!
Runs whose collaborators fail. A failure of a collaborator makes the validator fail that asked it,
so there is a message where it happened, and a run without messages is one without failures. Main
statement: a value at which nothing failed was looked up by every rule that asks whether it is
known, in time, with the answer that the rule demands.
-/

namespace PathRules

/-- Whether the lookup of the call was there and in time, and gave an answer about the value under
validation. -/
def Context.Answered (c : Context) (scope : String) (known : Bool) : Prop :=
  ∃ lookup, c.call.extras.lookup = some lookup ∧ c.deadlinePassed = false ∧
    (lookup.ask scope c.value c.remainingTime).result = .ok known

namespace Rules

/-- An answer can only come from a lookup that is there and in time. -/
theorem answered_of_ask {c : Context} {scope : String} {known : Bool}
    (h : (ask c scope).result = .ok known) : c.Answered scope known := by
  unfold ask at h
  split at h
  next => contradiction
  next lookup hlookup =>
    split at h
    next => contradiction
    next hdeadline => exact ⟨lookup, hlookup, Bool.eq_false_of_not_eq_true hdeadline, h⟩

/-- A verdict on a valid value that does not fail rests on an answer. -/
theorem exists_answered_of_verdictBy {accept : Bool → Bool} {c : Context} {scope : String}
    (hvalid : c.invalid = false) (haccepted : (verdictBy accept c scope).accepted = true) :
    ∃ known, accept known = true ∧ c.Answered scope known := by
  rw [verdictBy, if_neg (by simp [hvalid])] at haccepted
  dsimp only at haccepted
  split at haccepted
  next known hresult => exact ⟨known, haccepted, answered_of_ask hresult⟩
  next => contradiction

end Rules

namespace Answer

theorem accepted_of_not_fails {a : Answer} (h : a.fails = false) : a.verdict.accepted = true := by
  rw [fails, Bool.or_eq_false_iff, Bool.not_eq_false'] at h
  exact h.1

theorem answered_of_isKnown {a : Answer} {name : ValidatorId} {scope : String}
    (hasks : a.validator = (Rules.isKnown scope).withId name) (hvalid : a.context.invalid = false)
    (hfine : a.fails = false) : a.context.Answered scope true := by
  have haccepted : (Rules.verdictBy id a.context scope).accepted = true := by
    have h := accepted_of_not_fails hfine
    rwa [verdict, hasks] at h
  obtain ⟨known, rfl, hanswered⟩ := Rules.exists_answered_of_verdictBy hvalid haccepted
  exact hanswered

theorem answered_of_isUnknown {a : Answer} {name : ValidatorId} {scope : String}
    (hasks : a.validator = (Rules.isUnknown scope).withId name) (hvalid : a.context.invalid = false)
    (hfine : a.fails = false) : a.context.Answered scope false := by
  have haccepted : (Rules.verdictBy not a.context scope).accepted = true := by
    have h := accepted_of_not_fails hfine
    rwa [verdict, hasks] at h
  obtain ⟨known, hknown, hanswered⟩ := Rules.exists_answered_of_verdictBy hvalid haccepted
  obtain rfl : known = false := (Bool.not_eq_true' known).mp hknown
  exact hanswered

/-- A validator fails when a collaborator of it does, and reports that at the value or at one of its
elements. -/
theorem exists_mem_reports {a : Answer} (translate : Translator) (l : Location)
    (hfails : a.fails = true) :
    ∃ m ∈ a.reports translate l, m.1 = l ∨ ∃ i, m.1 = l ++ [.index i] := by
  rw [reports, if_pos hfails, RunState.failureLocations]
  cases a.verdict.elements with
  | nil => exact ⟨_, List.mem_cons_self, Or.inl rfl⟩
  | cons i rest => exact ⟨_, List.mem_cons_self, Or.inr ⟨_, rfl⟩⟩

theorem fails_of_mem_failures {a : Answer} {l : Location} {f : CollaboratorFailure}
    (h : f ∈ a.failures l) :
    a.fails = true ∧ f.location = l ∧ f.validator = a.validator.name ∧
      f.cause ∈ a.verdict.failures := by
  obtain ⟨cause, hcause, rfl⟩ := List.mem_map.mp h
  have hsome : a.verdict.failures.isEmpty = false :=
    List.isEmpty_eq_false_iff.mpr (List.ne_nil_of_mem hcause)
  exact ⟨by simp [fails, hsome], rfl, rfl, hcause⟩

end Answer

/-- The answer of which an occurrence has a failure. -/
theorem Occurrence.exists_of_mem_failures {o : Occurrence} {f : CollaboratorFailure}
    (h : f ∈ o.failures) :
    ∃ field answers, o = .present field f.location answers ∧ ∃ a ∈ answers, a.fails = true ∧
      f.validator = a.validator.name ∧ f.cause ∈ a.verdict.failures := by
  cases o with
  | absent field l c => contradiction
  | present field l answers =>
    obtain ⟨a, ha, hf⟩ := List.mem_flatMap.mp h
    obtain ⟨hfails, rfl, hname, hcause⟩ := Answer.fails_of_mem_failures hf
    exact ⟨field, answers, rfl, a, ha, hfails, hname, hcause⟩

namespace RunState

variable {options : RunOptions} {field : Field} {l : Location}

/-- All validators of an occurrence are asked in the same call about the same place. -/
theorem context_of_mem_answers {p : Passage} {vs : List Validator} {a : Answer}
    (ha : a ∈ answers options field l p vs) :
    a.context.call = options.call ∧ a.context.location = l := by
  induction vs generalizing p with
  | nil => contradiction
  | cons v vs ih =>
    cases hrunning : p.state.abandoned with
    | true =>
      rw [answers_abandoned options field l hrunning] at ha
      contradiction
    | false =>
      rw [answers_cons options field l hrunning, List.mem_cons] at ha
      rcases ha with rfl | ha
      · exact ⟨rfl, rfl⟩
      · exact ih ha

/-- Where no validator fails, each of them is told that the value is valid so far. -/
theorem invalid_of_mem_answers {p : Passage} {vs : List Validator} (hvalid : p.invalid = false)
    (hfine : ∀ a ∈ answers options field l p vs, a.fails = false) {a : Answer}
    (ha : a ∈ answers options field l p vs) : a.context.invalid = false := by
  induction vs generalizing p with
  | nil => contradiction
  | cons v vs ih =>
    cases hrunning : p.state.abandoned with
    | true =>
      rw [answers_abandoned options field l hrunning] at ha
      contradiction
    | false =>
      rw [answers_cons options field l hrunning] at ha hfine
      obtain ⟨hfirst, hrest⟩ := List.forall_mem_cons.mp hfine
      rcases List.mem_cons.mp ha with rfl | ha
      · exact hvalid
      · have hnext : (p.ask options field l v).invalid = false := by
          rw [ask_invalid options field l hrunning, hvalid, hfirst]
          rfl
        exact ih hnext hrest ha

end RunState

namespace CompiledRules

open RunState

/-- The errors of a run over data that is not null are what its occurrences report. -/
theorem errors_eq_reports (rules : CompiledRules) (options : RunOptions) {data : Value}
    (hdata : data.isNull = false) :
    let reports :=
      (rules.occurrences options data).flatMap (Occurrence.reports options.translate)
    (rules.validate options data).errors =
      if reports = [] then none else some (ErrorTree.ofMessages reports) := by
  intro reports
  have htree : (rules.runState options data).errors = ErrorTree.ofMessages reports :=
    (Records.runState rules hdata).reports.errors
  rw [← ErrorTree.nonEmpty?_ofMessages, ← htree]
  rfl

/-- Every failure is one of an occurrence, and there is a message where it happened. -/
theorem exists_message_of_mem_failures {rules : CompiledRules} {options : RunOptions}
    {data : Value} {f : CollaboratorFailure} (hf : f ∈ (rules.validate options data).failures) :
    (∃ field answers, .present field f.location answers ∈ rules.occurrences options data ∧
      ∃ a ∈ answers, f.validator = a.validator.name ∧ f.cause ∈ a.verdict.failures) ∧
    ∃ tree l, (rules.validate options data).errors = some tree ∧
      (l = f.location ∨ ∃ i, l = f.location ++ [.index i]) ∧ tree.messagesAt l ≠ [] := by
  cases hdata : data.isNull with
  | true =>
    have hnone : (rules.validate options data).failures = [] := by
      rw [validate, runState, if_pos hdata]
      rfl
    rw [hnone] at hf
    contradiction
  | false =>
    have hfailures : (rules.validate options data).failures =
        (rules.occurrences options data).flatMap Occurrence.failures :=
      (Records.runState rules hdata).reports.failures
    rw [hfailures] at hf
    obtain ⟨o, ho, hf⟩ := List.mem_flatMap.mp hf
    obtain ⟨field, answers, rfl, a, ha, hfails, hname, hcause⟩ :=
      Occurrence.exists_of_mem_failures hf
    obtain ⟨m, hm, hplace⟩ := a.exists_mem_reports options.translate f.location hfails
    have hmem : m ∈ (rules.occurrences options data).flatMap
        (Occurrence.reports options.translate) :=
      List.mem_flatMap.mpr ⟨_, ho, List.mem_flatMap.mpr ⟨a, ha, hm⟩⟩
    refine ⟨⟨field, answers, ho, a, ha, hname, hcause⟩, _, m.1, ?_, hplace,
      ErrorTree.messagesAt_ofMessages_ne_nil hmem⟩
    rw [errors_eq_reports rules options hdata, if_neg (List.ne_nil_of_mem hmem)]

/-- A run without messages is one without failures. -/
theorem failures_eq_nil_of_errors {rules : CompiledRules} {options : RunOptions} {data : Value}
    (h : (rules.validate options data).errors = none) :
    (rules.validate options data).failures = [] := by
  rw [List.eq_nil_iff_forall_not_mem]
  intro f hf
  obtain ⟨-, tree, -, htree, -⟩ := exists_message_of_mem_failures hf
  rw [h] at htree
  contradiction

/-- Runs fail closed. Every failure of a collaborator has a message at the place where it happened
or at an element directly below, so a run is valid just when it has no messages. And at a value that
no validator rejects, every rule that asks whether the value is known has got its answer: the lookup
was there, the deadline had not passed, and the answer was the one that the rule demands. All
validators of the field are asked unless the run is abandoned. -/
theorem fails_closed (rules : CompiledRules) (options : RunOptions) (data : Value) :
    let occurrences := rules.occurrences options data
    let outcome := rules.validate options data
    (∀ f ∈ outcome.failures,
      (∃ field answers, .present field f.location answers ∈ occurrences ∧
        ∃ a ∈ answers, f.validator = a.validator.name ∧ f.cause ∈ a.verdict.failures) ∧
      ∃ tree l, outcome.errors = some tree ∧
        (l = f.location ∨ ∃ i, l = f.location ++ [.index i]) ∧ tree.messagesAt l ≠ []) ∧
    (outcome.isValid = true ↔ outcome.errors = none) ∧
    (data.isNull = false → ∀ field l answers, .present field l answers ∈ occurrences →
      (∀ a ∈ answers, a.fails = false) →
        (outcome.abandoned = false → answers.map Answer.validator = field.validators) ∧
        ∀ a ∈ answers, a.context.call = options.call ∧ a.context.location = l ∧ ∀ name scope,
          (a.validator = (Rules.isKnown scope).withId name → a.context.Answered scope true) ∧
          (a.validator = (Rules.isUnknown scope).withId name →
            a.context.Answered scope false)) := by
  intro occurrences outcome
  refine ⟨fun f hf => exists_message_of_mem_failures hf, ?_, ?_⟩
  · rw [Outcome.isValid, Bool.and_eq_true, Option.isNone_iff_eq_none]
    refine ⟨fun h => h.1, fun h => ⟨h, ?_⟩⟩
    rw [failures_eq_nil_of_errors h]
    rfl
  · intro hdata field l answers hpresent hfine
    have hrecords : Records options occurrences { data } (rules.runState options data) :=
      Records.runState rules hdata
    refine ⟨fun hdone => (hrecords.complete hdone).2 _ hpresent, fun a ha => ?_⟩
    obtain ⟨s, rfl⟩ := hrecords.asked _ hpresent
    obtain ⟨hcall, hplace⟩ := context_of_mem_answers ha
    have hvalid : a.context.invalid = false := invalid_of_mem_answers rfl hfine ha
    exact ⟨hcall, hplace, fun name scope =>
      ⟨fun hasks => Answer.answered_of_isKnown hasks hvalid (hfine a ha),
        fun hasks => Answer.answered_of_isUnknown hasks hvalid (hfine a ha)⟩⟩

/-- An address that no other user may have. -/
def addressRules : RuleSet :=
  [("email", .rules [Rules.isUnknown "users"])]

def addressed : Value :=
  .map [("email", .string "ada")]

/-- A call that knows no values. -/
def emptyLookupOptions : RunOptions :=
  { plainOptions with
    call := { plainOptions.call with extras := { lookup := some KnownValues.empty.lookup } } }

/-- Without a lookup there is a message about the address. With one, the address passes because the
lookup does not know it. -/
theorem fails_closed_addressed : ∃ c, compile addressRules = .ok c ∧
    (∃ tree l, (c.validate plainOptions addressed).errors = some tree ∧
      (l = [.key "email"] ∨ ∃ i, l = [.key "email", .index i]) ∧ tree.messagesAt l ≠ []) ∧
    ∃ answers, .present (keyField "email" (Rules.isUnknown "users")) [.key "email"] answers ∈
        c.occurrences emptyLookupOptions addressed ∧
      ∃ a ∈ answers, a.context.value = .string "ada" ∧ a.context.Answered "users" false := by
  obtain ⟨c, hc⟩ := exists_of_isOk (by decide : (compile addressRules).isOk = true)
  obtain rfl : c = ⟨[⟨keyField "email" (Rules.isUnknown "users"), []⟩]⟩ :=
    eq_of_compile hc id (by cbv)
  refine ⟨_, hc, ?_, ?_⟩
  · obtain ⟨hfailures, -⟩ := fails_closed
      ⟨[⟨keyField "email" (Rules.isUnknown "users"), []⟩]⟩ plainOptions addressed
    exact (hfailures ⟨"unique", [.key "email"], .unavailable "no lookup in extras"⟩ (by decide)).2
  · obtain ⟨-, -, hanswers⟩ := fails_closed
      ⟨[⟨keyField "email" (Rules.isUnknown "users"), []⟩]⟩ emptyLookupOptions addressed
    obtain ⟨-, hall⟩ := hanswers rfl _ [.key "email"] _ List.mem_cons_self (by decide)
    obtain ⟨-, -, hasks⟩ := hall _ List.mem_cons_self
    exact ⟨_, List.mem_cons_self, _, List.mem_cons_self, rfl, (hasks _ "users").2 rfl⟩

end CompiledRules

end PathRules

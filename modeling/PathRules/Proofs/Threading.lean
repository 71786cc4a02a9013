import PathRules.Proofs.Freshness
/-!
Threading. The validators of a field are asked one after the other about one value: each sees what
the converting ones before it left, and whether one before it failed. Main statement: in every visit
of a value, all validators are asked once in order, each about the value that has come to it; what
they report is theirs, and the last value stays in the data.
-/

namespace PathRules

/-- The value that goes on behind a validator: what it leaves if it converts, failing or not, and
otherwise what came to it. -/
def Answer.left (w : Value) (a : Answer) : Value :=
  if a.validator.converting then a.verdict.value else w

theorem Answer.fails_iff {a : Answer} :
    a.fails = true ↔ a.verdict.accepted = false ∨ a.verdict.failures ≠ [] := by
  simp [fails]

namespace RunState

variable {options : RunOptions} {field : Field} {l : Location}

theorem ask_value_eq_left {p : Passage} (hrunning : p.state.abandoned = false) (v : Validator) :
    (p.ask options field l v).value = (asking options field l p v).left p.value :=
  ask_value options field l hrunning v

/-- What comes out of a passage is what the validators that were asked leave, one after the
other. -/
theorem foldl_ask_left (p : Passage) (vs : List Validator) :
    (vs.foldl (Passage.ask options field l) p).value =
      (answers options field l p vs).foldl Answer.left p.value := by
  induction vs generalizing p with
  | nil => rfl
  | cons v vs ih =>
    cases hrunning : p.state.abandoned with
    | true =>
      rw [answers_abandoned options field l hrunning,
        foldl_ask_abandoned options field l p (v :: vs) hrunning]
      rfl
    | false =>
      rw [answers_cons options field l hrunning, List.foldl_cons, ih, List.foldl_cons,
        ask_value_eq_left hrunning]

/-- Validators are asked in order, from the first one on. -/
theorem map_validator_answers_prefix (p : Passage) (vs : List Validator) :
    (answers options field l p vs).map Answer.validator <+: vs := by
  induction vs generalizing p with
  | nil => exact List.nil_prefix
  | cons v vs ih =>
    cases hrunning : p.state.abandoned with
    | true =>
      rw [answers_abandoned options field l hrunning]
      exact List.nil_prefix
    | false =>
      rw [answers_cons options field l hrunning]
      exact (List.prefix_cons_inj v).mpr (ih _)

/-- A validator is asked about what those before it left, and is told whether one of them failed. -/
theorem context_of_getElem?_answers {p : Passage} {vs : List Validator} {k : Nat} {a : Answer}
    (h : (answers options field l p vs)[k]? = some a) :
    a.context.location = l ∧
      a.context.value = ((answers options field l p vs).take k).foldl Answer.left p.value ∧
      a.context.invalid =
        (p.invalid || ((answers options field l p vs).take k).any Answer.fails) := by
  induction vs generalizing p k with
  | nil => simp [answers] at h
  | cons v vs ih =>
    cases hrunning : p.state.abandoned with
    | true => simp [answers_abandoned options field l hrunning] at h
    | false =>
      rw [answers_cons options field l hrunning] at h ⊢
      cases k with
      | zero =>
        obtain rfl := Option.some.inj h
        exact ⟨rfl, rfl, (Bool.or_false p.invalid).symm⟩
      | succ k =>
        obtain ⟨hlocation, hvalue, hinvalid⟩ := ih h
        rw [ask_value_eq_left hrunning] at hvalue
        rw [ask_invalid options field l hrunning, Bool.or_assoc] at hinvalid
        exact ⟨hlocation, hvalue, hinvalid⟩

/-- Whether the answers of validators, which are asked about a value in one state and leave another
one, are those of a field that threads the value. -/
structure Threads (options : RunOptions) (field : Field) (l : Location) (w : Value)
    (asked : List Answer) (s t : RunState) : Prop where
  /-- The validators are asked in order, none of them twice. -/
  inOrder : asked.map Answer.validator <+: field.validators
  /-- All of them are asked, unless one abandons the run. -/
  complete : t.abandoned = false → asked.map Answer.validator = field.validators
  /-- Each is asked about the value that the converting ones before it left. -/
  value : ∀ k a, asked[k]? = some a →
    a.context.location = l ∧ a.context.value = (asked.take k).foldl Answer.left w
  /-- Each is told whether one before it did not accept, or reported a failed collaborator. -/
  invalid : ∀ k a, asked[k]? = some a → (a.context.invalid = true ↔
    ∃ b ∈ asked.take k, b.verdict.accepted = false ∨ b.verdict.failures ≠ [])
  log : t.log = s.log ++ asked.map (Answer.invocation field l)
  /-- What failed on behalf of a validator is put down to that one. -/
  failures : t.failures = s.failures ++ asked.flatMap (Answer.failures l)
  /-- So is what it reports about the value or its elements. -/
  errors : t.errors = (asked.flatMap (Answer.reports options.translate l)).foldl
    (fun t m => t.add m.1 m.2) s.errors
  /-- The last value is found at the location. -/
  stays : t.data.get? l = some (asked.foldl Answer.left w)

end RunState

namespace Round

open RunState Value

variable {options : RunOptions} {r : Round} {s : RunState} {l : Location}

/-- What the validators of the field are asked in a visit of a value. -/
def asked (options : RunOptions) (r : Round) (s : RunState) (l : Location) : List Answer :=
  answers options r.field l ((r.entered options s l).entering l) r.field.validators

/-- A visit of a value threads it through the validators of the field. -/
theorem Present.threads (h : r.Present options s l) :
    ∃ w, (r.entered options s l).data.get? l = some w ∧
      Threads options r.field l w (r.asked options s l) (r.entered options s l)
        (visit options r.items r.field s (l, .found)) := by
  obtain ⟨w, rest, after, -, htake, hentering, -, hget, -, hvisit⟩ := h.exchanges
  have hadds := adds_foldl_ask options r.field l ((r.entered options s l).entering l)
    r.field.validators
  refine ⟨w, (take?_eq_some_iff.mp htake).1, ?_⟩
  rw [hvisit, asked]
  rw [hentering] at hadds hget ⊢
  rw [foldl_ask_left] at hget
  constructor
  · exact map_validator_answers_prefix _ _
  · exact fun hrunning => (map_validator_answers hrunning).2
  · intro k a ha
    obtain ⟨hlocation, hvalue, -⟩ := context_of_getElem?_answers ha
    exact ⟨hlocation, hvalue⟩
  · intro k a ha
    obtain ⟨-, -, hinvalid⟩ := context_of_getElem?_answers ha
    rw [hinvalid, Bool.false_or, List.any_eq_true]
    simp only [Answer.fails_iff]
  · exact hadds.log
  · exact hadds.failures
  · exact hadds.errors
  · exact hget

end Round

namespace CompiledRules

open RunState

/-- Values and the flag of earlier failures are threaded through the validators. In every round of a
run, a visit of a value takes what is located there, behind its wrapping and its elements, and asks
the validators of the field about it: each once and in order, about the value that the converting
ones before it left, whether they failed or not. -/
theorem threads_of_mem_rounds {c : CompiledRules} {options : RunOptions} {d : Value} :
    ∀ r ∈ c.rounds options d, ∀ s l, r.Present options s l →
      ∃ v w, s.data.get? l = some v ∧ (r.entered options s l).data.get? l = some w ∧
        (r.items = [] → w = prepared options r.field l v) ∧
        Threads options r.field l w (r.asked options s l) (r.entered options s l)
          (visit options r.items r.field s (l, .found)) := by
  intro r _ s l hpresent
  obtain ⟨w, hw, hthreads⟩ := hpresent.threads
  obtain ⟨v, -, hv, -, hwrapped, -⟩ := hpresent.exists_get?
  refine ⟨v, w, hv, hw, fun hitems => ?_, hthreads⟩
  rw [Round.entered, hitems] at hw
  exact Option.some.inj (hw.symm.trans hwrapped)

/-- A switch that is read as a truth value first, which is then no text. -/
def textSwitchRules : RuleSet :=
  [("on", .rules [Rules.boolean, Rules.string, Rules.required])]

theorem threads_of_mem_rounds_textSwitch : ∃ c, compile textSwitchRules = .ok c ∧
    ∃ r ∈ c.rounds plainOptions (.map [("on", .string "yes")]),
      ∃ s, r.Present plainOptions s [.key "on"] ∧
        Threads plainOptions r.field [.key "on"] (.string "yes")
            (r.asked plainOptions s [.key "on"]) (r.entered plainOptions s [.key "on"])
            (visit plainOptions r.items r.field s ([.key "on"], .found)) ∧
          (r.asked plainOptions s [.key "on"]).map
              (fun a => (a.context.value, a.context.invalid)) =
            [(.string "yes", false), (.bool true, false), (.bool true, true)] := by
  obtain ⟨c, hc⟩ := exists_of_isOk (by decide : (compile textSwitchRules).isOk = true)
  let on : Field :=
    ⟨⟨[.key "on"], 0, [], false, false, false⟩, [Rules.boolean, Rules.string, Rules.required]⟩
  obtain rfl : c = ⟨[⟨on, []⟩]⟩ := eq_of_compile hc id (by cbv)
  let r : Round := ⟨[], on, on.path, [], { data := .map [("on", .string "yes")] }⟩
  have hr : r ∈ rounds ⟨[⟨on, []⟩]⟩ plainOptions (.map [("on", .string "yes")]) :=
    first_mem_rounds ⟨on, []⟩ [] plainOptions rfl
  have hpresent : r.Present plainOptions r.start [.key "on"] :=
    ⟨List.mem_cons_self, rfl, rfl⟩
  obtain ⟨v, w, hv, -, hlocated, hthreads⟩ := threads_of_mem_rounds r hr r.start _ hpresent
  obtain rfl : Value.string "yes" = v := Option.some.inj hv
  rw [hlocated rfl] at hthreads
  exact ⟨_, hc, r, hr, r.start, hpresent, hthreads, rfl⟩

end CompiledRules
end PathRules

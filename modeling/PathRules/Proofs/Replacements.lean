import PathRules.Proofs.Messages
import PathRules.Proofs.Occurrences
/-!
Runs of rules whose validators say the same. Two compiled sets are run side by side; their fields
agree but for validators that leave other values without converting. Main statement: the data, the
failures and the locations of the messages are the same in both runs. The texts of messages are the
same where they do not depend on the value that a validator leaves.
-/

namespace PathRules

/-- Whether one validator says the same as another one in every context, where the texts of their
messages may differ by a relation. What they note down does not count. -/
structure Validator.Follows (translate : Translator) (T : String → String → Prop)
    (v w : Validator) : Prop where
  name : w.name = v.name
  converting : w.converting = v.converting
  requires : w.requires = v.requires
  accepted : ∀ c, (w.check c).accepted = (v.check c).accepted
  failures : ∀ c, (w.check c).failures = (v.check c).failures
  elements : ∀ c, (w.check c).elements = (v.check c).elements
  elapsed : ∀ c, (w.check c).elapsed = (v.check c).elapsed
  abandoned : ∀ c, (w.check c).abandoned = (v.check c).abandoned
  value : v.converting = true → ∀ c, (w.check c).value = (v.check c).value
  required : ∀ c, T (Message.ofFailure translate v c) (Message.ofFailure translate w c)
  message : ∀ c : Context, (Answer.mk v c).fails = true →
    T (Message.ofFailure translate v { c with value := (v.check c).value })
      (Message.ofFailure translate w { c with value := (w.check c).value })

namespace Field

/-- Whether two fields agree but for validators that are related. -/
structure Related (R : Validator → Validator → Prop) (f g : Field) : Prop where
  info : g.info = f.info
  validators : List.Forall₂ R f.validators g.validators

end Field

/-- Whether two chains agree but for validators that are related. -/
structure FieldChain.Related (R : Validator → Validator → Prop) (a b : FieldChain) : Prop where
  head : a.head.Related R b.head
  items : List.Forall₂ (Field.Related R) a.items b.items

/-- Whether two compiled sets agree but for validators that are related. -/
def CompiledRules.Related (R : Validator → Validator → Prop) (c c' : CompiledRules) : Prop :=
  List.Forall₂ (FieldChain.Related R) c.chains c'.chains

namespace RunState

/-- Whether two runs are at the same point, with messages at the same locations one for one. -/
structure Parallel (T : String → String → Prop) (s t : RunState) : Prop where
  data : t.data = s.data
  failures : t.failures = s.failures
  elapsed : t.elapsed = s.elapsed
  abandoned : t.abandoned = s.abandoned
  errors : ∃ ms ns, s.errors = ErrorTree.ofMessages ms ∧ t.errors = ErrorTree.ofMessages ns ∧
    List.Forall₂ (fun m n => n.1 = m.1 ∧ T m.2 n.2) ms ns

/-- Two values that are on their way through validators side by side. -/
structure Passage.Parallel (T : String → String → Prop) (p q : Passage) : Prop where
  state : RunState.Parallel T p.state q.state
  value : q.value = p.value
  invalid : q.invalid = p.invalid

section Steps

variable {T : String → String → Prop} {options : RunOptions} {s t : RunState} {f g : Field}
  {R : Validator → Validator → Prop}

namespace Parallel

theorem start (T : String → String → Prop) (d : Value) : Parallel T { data := d } { data := d } :=
  ⟨rfl, rfl, rfl, rfl, [], [], rfl, rfl, .nil⟩

theorem report (h : Parallel T s t) {message message' : String} (hmessage : T message message')
    (l : Location) : Parallel T (s.report l message) (t.report l message') := by
  obtain ⟨ms, ns, hs, ht, hall⟩ := h.errors
  refine ⟨h.data, h.failures, h.elapsed, h.abandoned, ms ++ [(l, message)], ns ++ [(l, message')],
    ?_, ?_, ?_⟩
  · rw [ErrorTree.ofMessages_append, ← hs]
    rfl
  · rw [ErrorTree.ofMessages_append, ← ht]
    rfl
  · exact List.rel_append hall (.cons ⟨rfl, hmessage⟩ .nil)

theorem foldl_report (h : Parallel T s t) {message message' : String}
    (hmessage : T message message') (ls : List Location) :
    Parallel T (ls.foldl (fun s l => s.report l message) s)
      (ls.foldl (fun t l => t.report l message') t) := by
  induction ls generalizing s t with
  | nil => exact h
  | cons l ls ih => exact ih (h.report hmessage l)

theorem setData (h : Parallel T s t) (data : Value) :
    Parallel T { s with data } { t with data } :=
  ⟨rfl, h.failures, h.elapsed, h.abandoned, h.errors⟩

end Parallel

/-- Fields with related validators are required by validators that are related. -/
theorem rel_requiring? (hR : ∀ v w, R v w → v.Follows options.translate T w) (h : f.Related R g)
    (c : Context) :
    Option.Rel (Validator.Follows options.translate T) (f.requiring? c) (g.requiring? c) := by
  unfold Field.requiring?
  have hvalidators := h.validators
  generalize f.validators = vs, g.validators = ws at hvalidators
  induction hvalidators with
  | nil => exact .none
  | @cons v w vs ws hvalidator _ ih =>
    have hfollows := hR v w hvalidator
    rw [List.find?_cons, List.find?_cons, hfollows.requires]
    split
    · exact .some hfollows
    · exact ih

theorem isSome_requiring? (hR : ∀ v w, R v w → v.Follows options.translate T w)
    (h : f.Related R g) (c : Context) :
    (g.requiring? c).isSome = (f.requiring? c).isSome := by
  have hrel := rel_requiring? hR h c
  generalize f.requiring? c = v, g.requiring? c = w at hrel
  cases hrel <;> rfl

namespace Parallel

theorem context_eq (hR : ∀ v w, R v w → v.Follows options.translate T w) (h : Parallel T s t)
    (hfield : f.Related R g) (l : Location) (v : Value) (invalid : Bool) :
    t.context options g l v invalid = s.context options f l v invalid := by
  unfold context
  dsimp only
  rw [h.data, h.elapsed, hfield.info, isSome_requiring? hR hfield]

theorem absent (hR : ∀ v w, R v w → v.Follows options.translate T w) (h : Parallel T s t)
    (hfield : f.Related R g) (l : Location) :
    Parallel T (s.absent options f l) (t.absent options g l) := by
  unfold RunState.absent
  dsimp only
  rw [h.context_eq hR hfield l .null false]
  generalize s.context options f l .null false = c
  have hrel := rel_requiring? hR hfield { c with required := false }
  generalize f.requiring? { c with required := false } = v,
    g.requiring? { c with required := false } = w at hrel
  cases hrel with
  | none => exact h
  | some hfollows => exact h.report (hfollows.required c) l

theorem isNullAt (h : Parallel T s t) (l : Location) : t.isNullAt l = s.isNullAt l := by
  rw [RunState.isNullAt, h.data, ← RunState.isNullAt]

theorem removeNull (h : Parallel T s t) (l : Location) :
    Parallel T (s.removeNull l) (t.removeNull l) := by
  unfold RunState.removeNull
  rw [h.data]
  split
  · split
    · exact h.setData _
    · exact h
  · exact h

theorem wrapAt (h : Parallel T s t) (hfield : f.Related R g) (l : Location) :
    Parallel T (s.wrapAt options f l) (t.wrapAt options g l) := by
  unfold RunState.wrapAt wrapsAt Field.path
  rw [hfield.info, h.data]
  split
  · exact h.setData _
  · exact h

end Parallel

end Steps

end RunState

namespace Validator.Follows

open RunState

variable {translate : Translator} {T : String → String → Prop} {v w : Validator}

theorem fails_eq (h : v.Follows translate T w) (c : Context) :
    (Answer.mk w c).fails = (Answer.mk v c).fails := by
  change (!(w.check c).accepted || !(w.check c).failures.isEmpty) = _
  rw [h.accepted, h.failures]
  rfl

theorem failureLocations_eq (h : v.Follows translate T w) (c : Context) (l : Location) :
    failureLocations l (Answer.mk w c).verdict = failureLocations l (Answer.mk v c).verdict := by
  change failureLocations l (w.check c) = failureLocations l (v.check c)
  rw [failureLocations, failureLocations, h.elements]

theorem answer_failures_eq (h : v.Follows translate T w) (c : Context) (l : Location) :
    (Answer.mk w c).failures l = (Answer.mk v c).failures l := by
  change (w.check c).failures.map (fun cause => (⟨w.name, l, cause⟩ : CollaboratorFailure)) = _
  rw [h.failures, h.name]
  rfl

/-- Related validators that answer the same question leave runs side by side. -/
theorem answered (h : v.Follows translate T w) {p q : Passage} (hpassage : p.Parallel T q)
    (f g : Field) (l : Location) (c : Context) :
    RunState.Parallel T (RunState.answered f l p ⟨v, c⟩) (RunState.answered g l q ⟨w, c⟩) where
  data := hpassage.state.data
  failures := congrArg₂ (· ++ ·) hpassage.state.failures (h.answer_failures_eq c l)
  elapsed := congrArg₂ (· + ·) hpassage.state.elapsed (h.elapsed c)
  abandoned := h.abandoned c
  errors := hpassage.state.errors

end Validator.Follows

namespace RunState

section Steps

variable {T : String → String → Prop} {options : RunOptions} {s t : RunState} {f g : Field}
  {R : Validator → Validator → Prop}

namespace Passage.Parallel

/-- Related validators that are asked side by side. -/
theorem ask (hR : ∀ v w, R v w → v.Follows options.translate T w) {p q : Passage}
    (h : Passage.Parallel T p q) (hfield : f.Related R g) (l : Location) {v w : Validator}
    (hvalidator : R v w) : Passage.Parallel T (p.ask options f l v) (q.ask options g l w) := by
  have hfollows := hR v w hvalidator
  cases hrunning : p.state.abandoned with
  | true =>
    have hrunning' : q.state.abandoned = true := h.state.abandoned.trans hrunning
    rw [Passage.ask, if_pos hrunning, Passage.ask, if_pos hrunning']
    exact h
  | false =>
    have hrunning' : q.state.abandoned = false := h.state.abandoned.trans hrunning
    have hcontext : q.state.context options g l q.value q.invalid =
        p.state.context options f l p.value p.invalid := by
      rw [h.state.context_eq hR hfield, h.value, h.invalid]
    have hasking : asking options g l q w = ⟨w, (asking options f l p v).context⟩ :=
      congrArg (Answer.mk w) hcontext
    generalize hc : (asking options f l p v).context = c at hasking
    have hasked : asking options f l p v = ⟨v, c⟩ := congrArg (Answer.mk v) hc
    refine ⟨?_, ?_, ?_⟩
    · rw [ask_state options f l hrunning, ask_state options g l hrunning', hasking, hasked,
        hfollows.fails_eq, hfollows.failureLocations_eq]
      have hanswered := hfollows.answered h f g l c
      split
      next hfailing => exact hanswered.foldl_report (hfollows.message c hfailing) _
      next => exact hanswered
    · rw [ask_value options f l hrunning, ask_value options g l hrunning', hasking, hasked,
        hfollows.converting]
      split
      next hconverting => exact hfollows.value hconverting c
      next => exact h.value
    · rw [ask_invalid options f l hrunning, ask_invalid options g l hrunning', hasking, hasked,
        h.invalid, hfollows.fails_eq]

theorem foldl_ask (hR : ∀ v w, R v w → v.Follows options.translate T w) {p q : Passage}
    (h : Passage.Parallel T p q) (hfield : f.Related R g) (l : Location) :
    Passage.Parallel T (f.validators.foldl (Passage.ask options f l) p)
      (g.validators.foldl (Passage.ask options g l) q) := by
  have hvalidators := hfield.validators
  generalize f.validators = vs, g.validators = ws at hvalidators
  induction hvalidators generalizing p q with
  | nil => exact h
  | cons hvalidator _ ih => exact ih (h.ask hR hfield l hvalidator)

end Passage.Parallel

namespace Parallel

theorem validateAt (hR : ∀ v w, R v w → v.Follows options.translate T w) (h : Parallel T s t)
    (hfield : f.Related R g) (l : Location) :
    Parallel T (s.validateAt options f l) (t.validateAt options g l) := by
  have hentering : Passage.Parallel T (s.entering l) (t.entering l) := by
    unfold entering
    rw [h.data]
    exact ⟨h.setData _, rfl, rfl⟩
  have hpassage := hentering.foldl_ask hR hfield l
  have hs : s.validateAt options f l =
      let p := f.validators.foldl (Passage.ask options f l) (s.entering l)
      { p.state with data := (p.state.data.set? l p.value).getD p.state.data } := rfl
  have ht : t.validateAt options g l =
      let q := g.validators.foldl (Passage.ask options g l) (t.entering l)
      { q.state with data := (q.state.data.set? l q.value).getD q.state.data } := rfl
  rw [hs, ht]
  dsimp only
  rw [hpassage.state.data, hpassage.value]
  exact hpassage.state.setData _

theorem foldl {α : Type} {step step' : RunState → α → RunState}
    (hstep : ∀ {s t}, Parallel T s t → ∀ a, Parallel T (step s a) (step' t a))
    (h : Parallel T s t) (as : List α) : Parallel T (as.foldl step s) (as.foldl step' t) := by
  induction as generalizing s t with
  | nil => exact h
  | cons a as ih => exact ih (hstep h a)

theorem visit_of_elements (hR : ∀ v w, R v w → v.Follows options.translate T w)
    {items items' : List Field}
    (helements : ∀ {s t}, Parallel T s t → ∀ l, Parallel T (visitElements options items s l)
      (visitElements options items' t l))
    (h : Parallel T s t) (hfield : f.Related R g) (place : Location × Found) :
    Parallel T (visit options items f s place) (visit options items' g t place) := by
  obtain ⟨l, how⟩ := place
  cases hrunning : s.abandoned with
  | true =>
    rw [visit_abandoned options items f _ hrunning,
      visit_abandoned options items' g _ (h.abandoned.trans hrunning)]
    exact h
  | false =>
    have hrunning' : t.abandoned = false := h.abandoned.trans hrunning
    by_cases hhow : how = .found
    · subst hhow
      rw [visit_found options items f l hrunning, visit_found options items' g l hrunning',
        h.isNullAt, hfield.info]
      split
      · split
        · exact h
        · exact (h.removeNull l).absent hR hfield l
      · exact (helements (h.wrapAt hfield l) l).validateAt hR hfield l
    · rw [visit_of_ne_found options items f l hrunning hhow,
        visit_of_ne_found options items' g l hrunning' hhow]
      exact h.absent hR hfield l

/-- Visits of the same place by related fields. -/
theorem visit (hR : ∀ v w, R v w → v.Follows options.translate T w) {items items' : List Field}
    (hitems : List.Forall₂ (Field.Related R) items items') (h : Parallel T s t)
    (hfield : f.Related R g) (place : Location × Found) :
    Parallel T (visit options items f s place) (visit options items' g t place) := by
  induction hitems generalizing f g s t place with
  | nil =>
    have helements : ∀ {s t}, Parallel T s t → ∀ l, Parallel T (visitElements options [] s l)
        (visitElements options [] t l) := fun h _ => h
    exact visit_of_elements hR helements h hfield place
  | @cons item item' rest rest' hitem _ ih =>
    refine visit_of_elements hR (fun {s t} h l => ?_) h hfield place
    rw [visitElements_cons, visitElements_cons, h.data]
    split
    · exact foldl (fun h place => ih h hitem place) h _
    · exact h

theorem runChain (hR : ∀ v w, R v w → v.Follows options.translate T w) (h : Parallel T s t)
    {chain chain' : FieldChain} (hchain : chain.Related R chain') :
    Parallel T (runChain options s chain) (runChain options t chain') := by
  have hpath : chain'.path = chain.path := congrArg FieldInfo.path hchain.head.info
  rw [RunState.runChain, RunState.runChain, hpath, h.data]
  exact foldl (fun h place => h.visit hR hchain.items hchain.head place) h _

theorem foldl_runChain (hR : ∀ v w, R v w → v.Follows options.translate T w)
    (h : Parallel T s t) {chains chains' : List FieldChain}
    (hchains : List.Forall₂ (FieldChain.Related R) chains chains') :
    Parallel T (chains.foldl (RunState.runChain options) s)
      (chains'.foldl (RunState.runChain options) t) := by
  induction hchains generalizing s t with
  | nil => exact h
  | cons hchain _ ih => exact ih (h.runChain hR hchain)

/-- Runs of related sets over the same data. -/
theorem runState (hR : ∀ v w, R v w → v.Follows options.translate T w)
    (htext : T Message.malformedInput Message.malformedInput) {c c' : CompiledRules}
    (hrules : c.Related R c') (d : Value) :
    Parallel T (c.runState options d) (c'.runState options d) := by
  have hstart := start T d
  unfold CompiledRules.runState
  dsimp only
  split
  · exact hstart.report htext []
  · exact hstart.foldl_runChain hR hrules

end Parallel

end Steps

end RunState

/-- Whether one validator is another one that keeps to the value that it is given: neither converts,
and they say the same in every context, but the one leaves each value as it is. -/
structure Validator.Keeps (v w : Validator) : Prop where
  name : w.name = v.name
  converting : v.converting = false
  converting' : w.converting = false
  kindDependent : w.kindDependent = v.kindDependent
  dependsOn : w.dependsOn = v.dependsOn
  nullable : w.nullable = v.nullable
  array : w.array = v.array
  object : w.object = v.object
  requires : w.requires = v.requires
  placeholders : w.placeholders = v.placeholders
  accepted : ∀ c, (w.check c).accepted = (v.check c).accepted
  failures : ∀ c, (w.check c).failures = (v.check c).failures
  elements : ∀ c, (w.check c).elements = (v.check c).elements
  elapsed : ∀ c, (w.check c).elapsed = (v.check c).elapsed
  abandoned : ∀ c, (w.check c).abandoned = (v.check c).abandoned
  value : ∀ c, (w.check c).value = c.value

namespace Validator

theorem Follows.refl {T : String → String → Prop} (hT : ∀ text, T text text)
    (translate : Translator) (v : Validator) : v.Follows translate T v :=
  ⟨rfl, rfl, rfl, fun _ => rfl, fun _ => rfl, fun _ => rfl, fun _ => rfl, fun _ => rfl,
    fun _ _ => rfl, fun _ => hT _, fun _ _ => hT _⟩

theorem Keeps.ofFailure_eq {v w : Validator} (h : v.Keeps w) (translate : Translator)
    (c : Context) : Message.ofFailure translate w c = Message.ofFailure translate v c := by
  unfold Message.ofFailure Message.key
  rw [h.name, h.kindDependent, h.placeholders]

/-- Whether the message of a validator that fails is the same for the value that it leaves as for
the value that it is given. -/
def SpeaksOfGiven (translate : Translator) (v : Validator) : Prop :=
  ∀ c : Context, (Answer.mk v c).fails = true →
    Message.ofFailure translate v { c with value := (v.check c).value } =
      Message.ofFailure translate v c

theorem speaksOfGiven {v : Validator} (hkind : v.kindDependent = false)
    (hplaceholders : ∀ (c : Context) (value : Value),
      v.placeholders { c with value } = v.placeholders c) (translate : Translator) :
    v.SpeaksOfGiven translate := by
  intro c _
  unfold Message.ofFailure Message.key
  rw [hkind, hplaceholders]
  rfl

theorem Keeps.follows {v w : Validator} (h : v.Keeps w) {T : String → String → Prop}
    (hT : ∀ text, T text text) {translate : Translator}
    (hmessage : ∀ c : Context, (Answer.mk v c).fails = true →
      T (Message.ofFailure translate v { c with value := (v.check c).value })
        (Message.ofFailure translate v c)) : v.Follows translate T w where
  name := h.name
  converting := h.converting'.trans h.converting.symm
  requires := h.requires
  accepted := h.accepted
  failures := h.failures
  elements := h.elements
  elapsed := h.elapsed
  abandoned := h.abandoned
  value hconverting := by
    rw [h.converting] at hconverting
    contradiction
  required c := by
    rw [h.ofFailure_eq]
    exact hT _
  message c hfails := by
    rw [h.ofFailure_eq, h.value]
    exact hmessage c hfails

end Validator

namespace CompiledRules

open RunState

/-- A replacement that is discarded reaches neither the data nor the failures, nor does it move a
message: where validators that do not convert are exchanged for ones that leave the value as it is,
the messages of both runs are at the same locations one for one. It can be seen in the texts, which
are about the value that the validator leaves; where that makes no difference to the texts, the
errors are the same. -/
theorem validate_of_keeps {c c' : CompiledRules}
    (h : c.Related (fun v w => w = v ∨ v.Keeps w) c') (options : RunOptions) (d : Value) :
    let outcome := c.validate options d
    let outcome' := c'.validate options d
    outcome'.data = outcome.data ∧ outcome'.failures = outcome.failures ∧
      outcome'.abandoned = outcome.abandoned ∧
      (∃ ms ns, outcome.errors = (ErrorTree.ofMessages ms).nonEmpty? ∧
        outcome'.errors = (ErrorTree.ofMessages ns).nonEmpty? ∧
          ns.map Prod.fst = ms.map Prod.fst) ∧
      (c.Related (fun v w => w = v ∨ v.Keeps w ∧ v.SpeaksOfGiven options.translate) c' →
        outcome'.errors = outcome.errors) := by
  intro outcome outcome'
  have hany : Parallel (fun _ _ => True) (c.runState options d) (c'.runState options d) := by
    refine Parallel.runState (fun v w hvalidator => ?_) trivial h d
    rcases hvalidator with rfl | hkeeps
    · exact .refl (fun _ => trivial) options.translate w
    · exact hkeeps.follows (fun _ => trivial) fun _ _ => trivial
  obtain ⟨ms, ns, hms, hns, hall⟩ := hany.errors
  refine ⟨hany.data, hany.failures, hany.abandoned, ⟨ms, ns, ?_, ?_, ?_⟩, fun hspeaks => ?_⟩
  · exact congrArg ErrorTree.nonEmpty? hms
  · exact congrArg ErrorTree.nonEmpty? hns
  · rw [← List.forall₂_eq_eq_eq, List.forall₂_map_left_iff, List.forall₂_map_right_iff]
    exact hall.flip.imp fun n m hplace => hplace.1
  · have hsame : Parallel Eq (c.runState options d) (c'.runState options d) := by
      refine Parallel.runState (fun v w hvalidator => ?_) rfl hspeaks d
      rcases hvalidator with rfl | ⟨hkeeps, hmessage⟩
      · exact .refl (fun _ => rfl) options.translate w
      · exact hkeeps.follows (fun _ => rfl) hmessage
    obtain ⟨ms, ns, hms, hns, hall⟩ := hsame.errors
    have heq : ms = ns := by
      rw [← List.forall₂_eq_eq_eq]
      exact hall.imp fun m n hboth => Prod.ext hboth.1.symm hboth.2
    exact congrArg ErrorTree.nonEmpty? (hns.trans (heq ▸ hms.symm))

/-- A validator that rejects every value and leaves a text in its place. -/
def meddler (kindDependent : Bool) : Validator where
  name := "meddle"
  kindDependent
  check _ := { accepted := false, value := .string "x" }

/-- A validator that rejects every value and leaves it. -/
def rejecter (kindDependent : Bool) : Validator where
  name := "meddle"
  kindDependent
  check := Validator.judge fun _ => false

theorem keeps_rejecter (kindDependent : Bool) :
    (meddler kindDependent).Keeps (rejecter kindDependent) := by
  constructor <;> intros <;> rfl

def five : Value :=
  .map [("n", .int 5)]

theorem related_meddler (kindDependent : Bool) {R : Validator → Validator → Prop}
    (h : R (meddler kindDependent) (rejecter kindDependent)) :
    Related R ⟨[⟨keyField "n" (meddler kindDependent), []⟩]⟩
      ⟨[⟨keyField "n" (rejecter kindDependent), []⟩]⟩ :=
  .cons ⟨⟨rfl, .cons h .nil⟩, .nil⟩ .nil

/-- What is left of a number that is rejected does not count, as the message does not depend on
it. -/
theorem validate_of_keeps_five : ∃ c c', compile [("n", .rules [meddler false])] = .ok c ∧
    compile [("n", .rules [rejecter false])] = .ok c' ∧
      c.Related (fun v w => w = v ∨ v.Keeps w) c' ∧
        (c'.validate plainOptions five).data = (c.validate plainOptions five).data ∧
          (c'.validate plainOptions five).errors = (c.validate plainOptions five).errors := by
  obtain ⟨c, hc⟩ :=
    exists_of_isOk (by decide : (compile [("n", .rules [meddler false])]).isOk = true)
  obtain ⟨c', hc'⟩ :=
    exists_of_isOk (by decide : (compile [("n", .rules [rejecter false])]).isOk = true)
  obtain rfl : c = ⟨[⟨keyField "n" (meddler false), []⟩]⟩ := eq_of_compile hc id (by cbv)
  obtain rfl : c' = ⟨[⟨keyField "n" (rejecter false), []⟩]⟩ := eq_of_compile hc' id (by cbv)
  have hkeeps := keeps_rejecter false
  obtain ⟨hdata, -, -, -, herrors⟩ :=
    validate_of_keeps (related_meddler false (Or.inr hkeeps)) plainOptions five
  have hspeaks : (meddler false).SpeaksOfGiven plainOptions.translate :=
    Validator.speaksOfGiven rfl (fun _ _ => rfl) _
  exact ⟨_, _, hc, hc', related_meddler false (Or.inr hkeeps), hdata,
    herrors (related_meddler false (Or.inr ⟨hkeeps, hspeaks⟩))⟩

/-- A discarded replacement is seen in the message of a rule that depends on the kind of the value:
a number that is rejected is spoken of as a text. -/
theorem exists_keeps_errors_ne : ∃ v w c c', v.Keeps w ∧ compile [("n", .rules [v])] = .ok c ∧
    compile [("n", .rules [w])] = .ok c' ∧
      c.Related (fun v w => w = v ∨ v.Keeps w) c' ∧
        ((c.validate plainOptions five).errors.map fun t => t.messagesAt [.key "n"]) =
            some ["validation.rules.meddle.string"] ∧
          ((c'.validate plainOptions five).errors.map fun t => t.messagesAt [.key "n"]) =
            some ["validation.rules.meddle.numeric"] ∧
          (c'.validate plainOptions five).errors ≠ (c.validate plainOptions five).errors := by
  obtain ⟨c, hc⟩ :=
    exists_of_isOk (by decide : (compile [("n", .rules [meddler true])]).isOk = true)
  obtain ⟨c', hc'⟩ :=
    exists_of_isOk (by decide : (compile [("n", .rules [rejecter true])]).isOk = true)
  obtain rfl : c = ⟨[⟨keyField "n" (meddler true), []⟩]⟩ := eq_of_compile hc id (by cbv)
  obtain rfl : c' = ⟨[⟨keyField "n" (rejecter true), []⟩]⟩ := eq_of_compile hc' id (by cbv)
  have htext : ((CompiledRules.validate ⟨[⟨keyField "n" (meddler true), []⟩]⟩ plainOptions
      five).errors.map fun t => t.messagesAt [.key "n"]) =
        some ["validation.rules.meddle.string"] := by decide
  have hnumber : ((CompiledRules.validate ⟨[⟨keyField "n" (rejecter true), []⟩]⟩ plainOptions
      five).errors.map fun t => t.messagesAt [.key "n"]) =
        some ["validation.rules.meddle.numeric"] := by decide
  refine ⟨_, _, _, _, keeps_rejecter true, hc, hc',
    related_meddler true (Or.inr (keeps_rejecter true)), htext, hnumber, fun heq => ?_⟩
  rw [heq, htext] at hnumber
  exact absurd hnumber (by decide)

end CompiledRules

end PathRules

import Mathlib
import PathRules.Proofs.Compiled
import PathRules.Proofs.Questions
/-!
Every rule is asked at every location, once. Without conversions a run changes the data only where
it removes nulls from maps, so the outlines, which decide what is asked, stay as they are. Main
statement: about each location that has the shape of a field's path and holds a value, the log has
the validators of that field in order, and it has nothing else.
-/

namespace PathRules

open Value

/-- An update leaves the outlines in a tree if it leaves those in its node. -/
theorem sameOutline_update? {v w : Value} {f : Value → Option Value} {l : Location}
    (hw : v.update? f l = some w)
    (hf : ∀ c new, v.get? l = some c → f c = some new → SameOutline (some c) (some new)) :
    SameOutline (some v) (some w) := by
  obtain ⟨c, new, hc, hnew, hget⟩ := get?_update? hw
  intro m
  simp only [Option.bind_some]
  by_cases hlm : l <+: m
  · obtain ⟨rest, rfl⟩ := hlm
    rw [get?_append, get?_append, hc, hget]
    exact hf c new hc hnew rest
  · by_cases hml : m <+: l
    · obtain ⟨rest, rfl⟩ := hml
      cases rest with
      | nil => exact absurd (by simp) hlm
      | cons s rest => exact ((spares_update? hw).above m s rest rfl).symm
    · rw [(spares_update? hw).apart m ⟨hlm, hml⟩]

/-- Removing a null from a map leaves the outlines. -/
theorem sameOutline_erase {entries : List (String × Value)} {name : String}
    (hnodup : (Keyed.keys entries).Nodup) (hnull : Keyed.get? entries name = some .null) :
    SameOutline (some (map entries)) (some (map (Keyed.erase entries name))) := by
  intro m
  simp only [Option.bind_some]
  cases m with
  | nil => rfl
  | cons s rest =>
    cases s with
    | index i => rfl
    | key other =>
      by_cases hother : name = other
      · subst hother
        rw [Value.get?, Value.get?, Value.child?, Value.child?, hnull,
          Keyed.get?_erase_self hnodup]
        cases rest <;> rfl
      · rw [Value.get?, Value.get?, Value.child?, Value.child?, Keyed.get?_erase_of_ne _ hother]

theorem remove?_null {d e old : Value} {l : Location} (hwell : d.WellFormed)
    (hnull : d.get? l = some .null) (hremove : d.remove? l = some (old, e)) :
    e.WellFormed ∧ SameOutline (some d) (some e) := by
  obtain ⟨parent, name, entries, rfl, hparent, hold, hupdate⟩ := exists_of_remove? hremove
  have hentry : Keyed.get? entries name = some .null := by
    rw [get?_append, hparent] at hnull
    simpa [Value.get?, Value.child?] using hnull
  obtain ⟨hnodup, hentries⟩ := wellFormed_map_iff.mp (hwell.get? hparent)
  constructor
  · apply hwell.update? hupdate
    intro c new _ _ hnew
    cases hnew
    refine wellFormed_map_iff.mpr ⟨?_, fun e he => hentries e (Keyed.mem_of_mem_erase he)⟩
    rw [Keyed.keys_erase]
    exact hnodup.erase name
  · apply sameOutline_update? hupdate
    intro c new hget hnew
    cases hnew
    cases hparent.symm.trans hget
    exact sameOutline_erase hnodup hentry

namespace RunState

variable {options : RunOptions}

/-- Whether a step leaves a well-formed tree so, with the same outlines. -/
def Keeps (_ : List Question) (s t : RunState) : Prop :=
  s.data.WellFormed → t.data.WellFormed ∧ SameOutline (some s.data) (some t.data)

theorem keeps_of_data_eq {qs : List Question} {s t : RunState} (h : t.data = s.data) :
    Keeps qs s t := by
  intro hwell
  rw [h]
  exact ⟨hwell, fun _ => rfl⟩

/-- Without conversions, the passage of a value leaves the data. -/
theorem validateAt_data {s : RunState} {field : Field} {l : Location} {v : Value}
    (hconverting : ∀ v ∈ field.validators, v.converting = false)
    (hv : s.data.get? l = some v) : (s.validateAt options field l).data = s.data := by
  obtain ⟨data, htake⟩ := exists_take? hv
  rw [validateAt_eq htake]
  dsimp only
  rw [foldl_ask_value options field l _ hconverting, set?_of_take? htake, Option.getD_some]

/-- Without conversions and wrapping, a run keeps the outlines. -/
theorem keeps_rule (hform : options.formEncoded = false) :
    RunRule options (fun f => ∀ v ∈ f.validators, v.converting = false) Keeps where
  refl s := keeps_of_data_eq rfl
  trans h h' hwell := by
    obtain ⟨hmiddle, hfirst⟩ := h hwell
    obtain ⟨hlast, hsecond⟩ := h' hmiddle
    exact ⟨hlast, fun m => (hfirst m).trans (hsecond m)⟩
  abandoned _ := keeps_of_data_eq rfl
  absent s field l := keeps_of_data_eq (s.absent_data options field l)
  removeNull s l hnull := by
    rcases s.removeNull_eq l with h | ⟨old, data, hremove, h⟩
    · exact keeps_of_data_eq (by rw [h])
    · intro hwell
      rw [h]
      exact remove?_null hwell hnull hremove
  wrapAt s field l v _ := keeps_of_data_eq (by simp [RunState.wrapAt, hform])
  validateAt s field l v hfield hv := keeps_of_data_eq (validateAt_data hfield hv)

theorem ask_abandoned {field : Field} {l : Location} {p : Passage} {v : Validator}
    (hv : ∀ x, (v.check x).abandoned = false) (hrunning : p.state.abandoned = false) :
    (p.ask options field l v).state.abandoned = false := by
  unfold Passage.ask
  rw [if_neg (by simp [hrunning])]
  dsimp only
  split
  · obtain ⟨errors, herrors⟩ := foldl_report_eq _ _ _
    rw [herrors]
    exact hv _
  · exact hv _

theorem foldl_ask_running {field : Field} {l : Location} {p : Passage} {vs : List Validator}
    (hvs : ∀ v ∈ vs, ∀ x, (v.check x).abandoned = false) (hrunning : p.state.abandoned = false) :
    (vs.foldl (Passage.ask options field l) p).state.abandoned = false := by
  induction vs generalizing p with
  | nil => exact hrunning
  | cons v vs ih =>
    exact ih (fun w hw => hvs w (List.mem_cons_of_mem v hw))
      (ask_abandoned (hvs v List.mem_cons_self) hrunning)

/-- A run ends unless a validator gives it up. -/
theorem ends_rule (options : RunOptions) :
    RunRule options (fun f => ∀ v ∈ f.validators, ∀ x, (v.check x).abandoned = false)
      fun _ s t => s.abandoned = false → t.abandoned = false where
  refl _ h := h
  trans h h' hs := h' (h hs)
  abandoned _ h := h
  absent s field l h := by
    obtain ⟨errors, herrors⟩ := s.absent_eq options field l
    rwa [herrors]
  removeNull s l _ h := by
    rcases s.removeNull_eq l with heq | ⟨old, data, -, heq⟩
    · rwa [heq]
    · rwa [heq]
  wrapAt s field l v hv h := by
    obtain ⟨data, -, hwrap⟩ := s.wrapAt_eq options field l hv
    rwa [hwrap]
  validateAt s field l v hfield hv h := by
    obtain ⟨data, htake⟩ := exists_take? hv
    rw [validateAt_eq htake]
    exact foldl_ask_running hfield h

end RunState

namespace CompiledRules

open RunState

variable {options : RunOptions} {c : CompiledRules}

/-- What gets into the log of a run without conversions and wrapping, in which order, and all of it
unless the run is abandoned. -/
theorem map_question_log (hform : options.formEncoded = false)
    (hconverting : ∀ f ∈ c.fields, ∀ v ∈ f.validators, v.converting = false) {d : Value}
    (hwell : d.WellFormed) (hnull : d.isNull = false) :
    ((c.validate options d).log.map Invocation.question <+:
      c.chains.flatMap fun chain => chainDue options chain d) ∧
    ((c.validate options d).abandoned = false →
      (c.validate options d).log.map Invocation.question =
        c.chains.flatMap fun chain => chainDue options chain d) := by
  have hfields : ∀ chain ∈ c.chains, ∀ f ∈ chain.fields, ∀ v ∈ f.validators,
      v.converting = false :=
    fun chain hchain f hf => hconverting f (List.mem_flatMap.mpr ⟨chain, hchain, hf⟩)
  obtain ⟨turns, hturns, hsame, hlog⟩ := exists_turns
    (I := fun e => e.WellFormed ∧ SameOutline (some d) (some e))
    (fun chain hchain s hs => by
      obtain ⟨hnext, hsame⟩ := (keeps_rule hform).runChain (hfields chain hchain) s hs.1
      exact ⟨hnext, fun m => (hs.2 m).trans (hsame m)⟩)
    ⟨hwell, fun _ => rfl⟩ hnull
  have hdue : (turns.flatMap fun t => chainDue options t.1 t.2) =
      c.chains.flatMap fun chain => chainDue options chain d := by
    rw [← hturns, List.flatMap_map]
    exact List.flatMap_congr fun t ht => (chainDue_congr hform t.1 (hsame t ht).2).symm
  rwa [hdue] at hlog

theorem validate_abandoned
    (h : ∀ f ∈ c.fields, ∀ v ∈ f.validators, ∀ x, (v.check x).abandoned = false)
    (options : RunOptions) (d : Value) : (c.validate options d).abandoned = false := by
  change (c.runState options d).abandoned = false
  cases hnull : d.isNull with
  | true =>
    rw [runState, if_pos hnull]
    rfl
  | false =>
    obtain ⟨-, -, -, hends⟩ := (ends_rule options).runState (I := fun _ => True) h
      (fun _ _ _ _ => trivial) trivial hnull
    exact hends rfl

theorem exists_getElem?_fields {f : Field} (hf : f ∈ c.fields) :
    ∃ chain ∈ c.chains, ∃ k : Nat, chain.fields[k]? = some f := by
  obtain ⟨chain, hchain, hfchain⟩ := List.mem_flatMap.mp hf
  exact ⟨chain, hchain, List.mem_iff_getElem?.mp hfchain⟩

/-- Of all chains, only the one of a field asks about locations of the shape of its path. -/
theorem filter_flatMap_chainDue (hwell : c.WellFormed) (hform : options.formEncoded = false)
    {f : Field} (hf : f ∈ c.fields) {d w : Value} {l : Location} (hl : l.HasShape f.path)
    (hget : d.get? l = some w) (hnull : w.isNull = false) :
    (c.chains.flatMap fun chain => chainDue options chain d).filter
      (fun q => q.location = l) = questions f l := by
  obtain ⟨chain, hchain, k, hk⟩ := exists_getElem?_fields hf
  have hchains : c.chains.Nodup := (hwell.arranged.nodup_heads hwell.nodup).of_map
  rw [List.filter_flatMap, flatMap_eq_of_unique hchains hchain fun other hother hne => ?_]
  · exact filter_chainDue hform hk (hwell.path_fields hchain hk) hl hget hnull
  · rw [List.filter_eq_nil_iff]
    intro q hq hlocation
    obtain ⟨g, hg, -, hshape, -⟩ := mem_chainDue (fun k g => hwell.path_fields hother) hq
    rw [of_decide_eq_true hlocation] at hshape
    exact hne (hwell.arranged.chain_unique hwell.nodup hother hchain hg
      (List.mem_of_getElem? hk) (hshape.path_unique hl))

/-- Every rule is asked at every location, once: about a location of the shape of a field's path
that holds a value, the log has the validators of the field, each once and in order, or the first of
them if the run is abandoned. It has no other entries. -/
theorem asks_each_once {set : RuleSet} (hcompile : compile set = .ok c)
    (hconverting : ∀ f ∈ c.fields, ∀ v ∈ f.validators, v.converting = false)
    (hform : options.formEncoded = false) {d : Value} (hdata : d.WellFormed)
    (hnull : d.isNull = false) :
    (∀ f ∈ c.fields, ∀ (l : Location) (v : Value), l.HasShape f.path → d.get? l = some v →
      v.isNull = false →
        ((c.validate options d).log.filter fun i => i.location = l).map Invocation.question <+:
            questions f l ∧
        ((c.validate options d).abandoned = false →
          ((c.validate options d).log.filter fun i => i.location = l).map Invocation.question =
            questions f l)) ∧
    ∀ i ∈ (c.validate options d).log, ∃ f ∈ c.fields, i.question ∈ questions f i.location ∧
      i.location.HasShape f.path ∧ ∃ v, d.get? i.location = some v ∧ v.isNull = false := by
  have hwell := wellFormed_of_compile hcompile
  obtain ⟨hsome, hall⟩ := map_question_log hform hconverting hdata hnull
  constructor
  · intro f hf l v hl hget hv
    have hshare := filter_flatMap_chainDue hwell hform hf hl hget hv
    have hfilter : ((c.validate options d).log.filter fun i => i.location = l).map
        Invocation.question =
          ((c.validate options d).log.map Invocation.question).filter
            fun q => q.location = l := by
      rw [List.filter_map]
      rfl
    rw [hfilter, ← hshare]
    refine ⟨hsome.filter _, fun hdone => ?_⟩
    rw [hall hdone]
  · intro i hi
    obtain ⟨chain, hchain, hq⟩ := List.mem_flatMap.mp
      (hsome.subset (List.mem_map_of_mem hi))
    obtain ⟨f, hf, hquestion, hshape, hvalue⟩ :=
      mem_chainDue (fun k g => hwell.path_fields hchain) hq
    exact ⟨f, List.mem_flatMap.mpr ⟨chain, hchain, hf⟩, hquestion, hshape, hvalue hform⟩

/-- Rows of rows of seats, which are objects if they are there. -/
def seatRules : RuleSet :=
  [("rows[][].label", .rules [Rules.nullable]),
    ("rows[][]", .rules [Rules.nullable.withId (.declared 1), Rules.object.withId (.declared 2)])]

/-- A seat that is there, and one that is not. -/
def seats : Value :=
  .map [("rows", .sequence [.sequence [.map [("label", .string "a")], .null]])]

theorem asks_each_once_seats : ∃ c, compile seatRules = .ok c ∧
    ((c.validate plainOptions seats).log.filter
      fun i => i.location = [.key "rows", .index 0, .index 0]).map Invocation.validator =
        [.declared 1, .declared 2] := by
  obtain ⟨c, hc⟩ := exists_of_isOk (by decide : (compile seatRules).isOk = true)
  have hids := eq_of_compile hc (fun c => c.fields.map fun f => (f.path, f.ids))
    (a := [([.key "rows", .each, .each, .key "label"], [.declared 0]),
      ([.key "rows"], [.injected [.key "rows"]]),
      ([.key "rows", .each], [.injected [.key "rows", .each]]),
      ([.key "rows", .each, .each], [.declared 1, .declared 2])]) (by cbv)
  have hvalidators := eq_of_compile hc (fun c => c.fields.flatMap Field.validators)
    (a := [Rules.nullable, Rules.array.withId (.injected [.key "rows"]),
      Rules.array.withId (.injected [.key "rows", .each]), Rules.nullable.withId (.declared 1),
      Rules.object.withId (.declared 2)]) (by cbv)
  have hchecks : ∀ f ∈ c.fields, ∀ v ∈ f.validators,
      v.converting = false ∧ ∀ x, (v.check x).abandoned = false := by
    intro f hf v hv
    have hmem := List.mem_flatMap.mpr ⟨f, hf, hv⟩
    rw [hvalidators] at hmem
    simp only [List.mem_cons, List.not_mem_nil, or_false] at hmem
    rcases hmem with rfl | rfl | rfl | rfl | rfl <;> exact ⟨rfl, fun _ => rfl⟩
  have hdata : seats.WellFormed := by
    simp [seats, Value.WellFormed, Value.WellFormedEntries, Value.WellFormedItems, Keyed.keys]
  obtain ⟨f, hf, hpair⟩ := List.mem_map.mp
    (hids ▸ by simp : ([.key "rows", .each, .each], [.declared 1, .declared 2]) ∈
      c.fields.map fun f => (f.path, f.ids))
  obtain ⟨hpath, hf_ids⟩ := Prod.mk.inj hpair
  refine ⟨c, hc, ?_⟩
  obtain ⟨hall, -⟩ := asks_each_once hc (fun f hf v hv => (hchecks f hf v hv).1)
    (rfl : plainOptions.formEncoded = false) hdata rfl
  have hasked := (hall f hf [.key "rows", .index 0, .index 0] _
    (hpath ▸ by simp [Location.HasShape, Accessor.Fits]) rfl rfl).2
    (validate_abandoned (fun f hf v hv => (hchecks f hf v hv).2) _ _)
  have hvalidator := congrArg (List.map Question.validator) hasked
  rw [List.map_map, questions, hf_ids] at hvalidator
  exact hvalidator

end CompiledRules
end PathRules

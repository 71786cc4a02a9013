import PathRules.Proofs.Threading
import PathRules.Rules.Distinct
/-!
Elements first. The visit of a sequence by a field with an element field opens a round of that one,
which goes over the elements before the sequence passes its own validators. Main statement: the
element field comes to each element once, in order, and the validators of the sequence are handed
the sequence of what it left there.
-/

namespace PathRules

namespace Value

/-- An index leads to the element there. -/
theorem get?_index (vs : List Value) (i : Nat) : (sequence vs).get? [.index i] = vs[i]? := by
  rw [get?_singleton]
  cases hi : vs[i]? with
  | some v => exact child?_sequence.mpr ⟨i, rfl, hi⟩
  | none =>
    refine Option.eq_none_iff_forall_ne_some.mpr fun c hc => ?_
    obtain ⟨n, hn, hget⟩ := child?_sequence.mp hc
    rw [← Int.ofNat.inj hn, hi] at hget
    contradiction

theorem exists_of_outline_sequence {w : Value} {n : Nat} (h : w.outline = some (.sequence n)) :
    ∃ ws, w = sequence ws ∧ ws.length = n := by
  cases w with
  | sequence ws => exact ⟨ws, rfl, Outline.sequence.inj (Option.some.inj h)⟩
  | _ => simp [outline] at h

end Value

namespace RunState

open Value

/-- The places of the elements of a sequence. An empty sequence has one, for the element that it
lacks. -/
theorem places_elements_sequence {data : Value} {l : Location} {vs : List Value}
    (h : data.get? l = some (.sequence vs)) :
    places (Matches.ofPathAt Path.elements data l) =
      if vs = [] then [(l ++ [.missing], .elementNotFound)]
      else (List.range vs.length).map fun (i : Nat) => (l ++ [.index i], .found) := by
  rw [places_ofPathAt h]
  cases vs with
  | nil => rfl
  | cons v vs =>
    have hways : Path.elements.ways (some (.sequence (v :: vs))) =
        (List.range (v :: vs).length).map fun (i : Nat) => [.index i] := by
      simp [Path.elements, Path.ways, Accessor.taken, List.flatMap_map, ← List.map_eq_flatMap]
    rw [if_neg (List.cons_ne_nil v vs), hways, List.map_map]
    refine List.map_congr_left fun i hi => Prod.ext rfl ?_
    rw [Function.comp_apply, Source.found_eq_found_iff, Source.value?_descend]
    exact ⟨_, (get?_index _ i).trans (List.getElem?_eq_getElem (List.mem_range.mp hi))⟩

end RunState

namespace Round

open RunState Value

variable {options : RunOptions} {r e : Round} {s : RunState} {l : Location} {vs : List Value}

/-- The round of the element field in a sequence that a visit comes to. -/
def inSequence (options : RunOptions) (r : Round) (item : Field) (rest : List Field)
    (s : RunState) (l : Location) : Round :=
  ⟨rest, item, Path.elements, l, s.wrapAt options r.field l⟩

/-- In a sequence, the turn of each element finds the element, and the sequence that is left has
what the turns left. -/
theorem exists_finish_sequence (rest : List Field) (item : Field)
    (hsequence : s.data.get? l = some (.sequence vs)) :
    let e : Round := ⟨rest, item, Path.elements, l, s⟩
    ∃ ws : List Value, ws.length = vs.length ∧
      (e.finish options).data.get? l = some (.sequence ws) ∧
      ∀ i < vs.length, ∃ t, (e.visits options)[i]? = some (t, l ++ [.index i], .found) ∧
        t.data.get? (l ++ [.index i]) = vs[i]? ∧
          (visit options rest item t (l ++ [.index i], .found)).data.get? (l ++ [.index i]) =
            ws[i]? := by
  intro e
  have hentered : visitElements options (item :: rest) s l = e.finish options :=
    visitElements_eq_finish (by rw [hsequence]; rfl)
  have houtline := outline_visitElements options (item :: rest) s l
  rw [hsequence, hentered] at houtline
  obtain ⟨w, hw, hsame⟩ := Option.bind_eq_some_iff.mp houtline
  obtain ⟨ws, rfl, hlength⟩ := exists_of_outline_sequence hsame
  refine ⟨ws, hlength, hw, fun i hi => ?_⟩
  have hplace : e.places[i]? = some (l ++ [.index i], .found) := by
    have hne : vs ≠ [] := List.ne_nil_of_length_pos (Nat.zero_lt_of_lt hi)
    rw [Round.places, places_elements_sequence hsequence, if_neg hne]
    simp [hi]
  obtain ⟨t, ht⟩ := getElem?_visits options hplace
  obtain ⟨hstart, hfinish⟩ := get?_of_mem_visits (List.mem_of_getElem? ht)
  refine ⟨t, ht, hstart.trans ?_, hfinish.symm.trans ?_⟩
  · rw [get?_append, hsequence]
    exact get?_index vs i
  · rw [get?_append, hw]
    exact get?_index ws i

/-- Whether a round of an element field is what the visit of a sequence does before its own
validators are asked. -/
structure Precedes (options : RunOptions) (e r : Round) (s : RunState) (l : Location)
    (vs : List Value) : Prop where
  /-- The elements have their turns in the order of their indices. An empty sequence has one match,
  for the element that it lacks. -/
  places : e.places =
    if vs = [] then [(l ++ [.missing], .elementNotFound)]
    else (List.range vs.length).map fun (i : Nat) => (l ++ [.index i], .found)
  /-- The validators of the sequence are asked in the state that the elements leave. -/
  before : visit options r.items r.field s (l, .found) =
    (e.finish options).validateAt options r.field l
  /-- Everything that is asked about the elements is asked before. -/
  log : ∃ inner : List Invocation,
    (∀ i ∈ inner, i.field ∈ (e.field :: e.items).map Field.path ∧ l <+: i.location) ∧
      (visit options r.items r.field s (l, .found)).log =
        s.log ++ inner ++ (r.asked options s l).map (Answer.invocation r.field l)
  /-- If a validator of the sequence is asked, no element was passed over in an abandoned run. -/
  running : r.asked options s l ≠ [] → ∀ t ∈ e.visits options, t.1.abandoned = false
  /-- The first validator is handed as many elements as there were, each as its visit left it. -/
  handed : ∃ ws : List Value, ws.length = vs.length ∧
    (∀ a, (r.asked options s l)[0]? = some a → a.context.value = .sequence ws) ∧
      ∀ i < vs.length, ∃ t, (e.visits options)[i]? = some (t, l ++ [.index i], .found) ∧
        t.data.get? (l ++ [.index i]) = vs[i]? ∧
          (visit options e.items e.field t (l ++ [.index i], .found)).data.get? (l ++ [.index i]) =
            ws[i]?

/-- If a validator is asked in a visit, the run was going on when its elements were done. -/
theorem running_of_asked (hasked : r.asked options s l ≠ []) :
    (r.entered options s l).abandoned = false := by
  rw [← Bool.not_eq_true]
  exact fun habandoned => hasked (answers_abandoned options r.field l habandoned _)

/-- A visit of a sequence checks the elements before the sequence. -/
theorem Present.precedes (h : r.Present options s l) {item : Field} {rest : List Field}
    (hitems : r.items = item :: rest)
    (hsequence : (s.wrapAt options r.field l).data.get? l = some (.sequence vs)) :
    Precedes options (r.inSequence options item rest s l) r s l vs := by
  have hentered : r.entered options s l = (r.inSequence options item rest s l).finish options := by
    rw [entered, hitems]
    exact visitElements_eq_finish (by rw [hsequence]; rfl)
  obtain ⟨w, hw, hthreads⟩ := h.threads
  rw [hentered] at hw hthreads
  constructor
  · exact places_elements_sequence hsequence
  · rw [h.visit_eq, hentered]
  · obtain ⟨inner, hlog, hinner⟩ :=
      grows_finish rest item Path.elements l (s.wrapAt options r.field l)
    refine ⟨inner, fun i hi => of_mem_visited_below (hinner i hi), ?_⟩
    rw [hthreads.log, ← log_wrapAt options r.field s l, ← hlog]
    rfl
  · intro hasked
    have hrunning := running_of_asked hasked
    rw [hentered] at hrunning
    exact running_of_mem_visits hrunning
  · obtain ⟨ws, hlength, hws, hturns⟩ := exists_finish_sequence rest item hsequence
    obtain rfl : w = .sequence ws := Option.some.inj (hw.symm.trans hws)
    exact ⟨ws, hlength, fun a ha => (hthreads.value 0 a ha).2, hturns⟩

end Round

namespace CompiledRules

open RunState

variable {c : CompiledRules} {options : RunOptions} {d : Value}

/-- The element field of a field is the one at its elements. -/
theorem WellFormed.path_item (h : c.WellFormed) {r : Round} (hr : r ∈ c.rounds options d)
    {item : Field} {rest : List Field} (hitems : r.items = item :: rest) :
    item.path = r.field.path ++ [.each] := by
  obtain ⟨chain, hchain, s, hmem, -⟩ := exists_chain_of_mem_rounds hr
  obtain ⟨above, habove⟩ := Round.suffix_of_mem_withElements hmem
  rw [hitems] at habove
  have hfields : chain.fields = above ++ r.field :: item :: rest := habove.symm
  have hfield : chain.fields[above.length]? = some r.field := by simp [hfields]
  have hitem : chain.fields[above.length + 1]? = some item := by simp [hfields]
  rw [h.path_fields hchain hitem, h.path_fields hchain hfield, Path.elementsAt_succ]

/-- A visit of a sequence opens a round of the run. -/
theorem inSequence_mem_rounds {r : Round} (hr : r ∈ c.rounds options d) {item : Field}
    {rest : List Field} (hitems : r.items = item :: rest) {s : RunState} {l : Location}
    (hpresent : r.Present options s l) {vs : List Value}
    (hsequence : (s.wrapAt options r.field l).data.get? l = some (.sequence vs)) :
    r.inSequence options item rest s l ∈ c.rounds options d := by
  obtain ⟨chain, hchain, start, hmem, hall⟩ := exists_chain_of_mem_rounds hr
  refine hall _ (Round.mem_withElements_of_opens hmem hitems hpresent.visits ?_)
  exact Round.opens_iff.mpr
    ⟨hpresent.running, rfl, hpresent.value, by rw [hsequence]; rfl⟩

theorem WellFormed.count_visited (h : c.WellFormed) {r : Round} (hr : r ∈ c.rounds options d)
    {l : Location} {how : Found} (hplace : (l, how) ∈ r.places) :
    (c.visited options d).count (r.field.path, l) = 1 := by
  refine List.count_eq_one_of_mem (h.nodup_visited options d) (List.mem_flatMap.mpr ⟨r, hr, ?_⟩)
  exact List.mem_map.mpr ⟨(l, how), hplace, rfl⟩

/-- Sequences are checked from their elements up. In every run of compiled rules, where a field with
an element field comes to a sequence, wrapped where that is due, the element field has a round in
it: it comes to each element once in the whole run, in the order of the indices and before any
validator of the field is asked about the sequence, to which the field comes once too. The first of
these validators is handed as many elements as there were, each being what its visit left. The
element field may have an element field itself, of which the same can be said. -/
theorem elements_first {set : RuleSet} (hcompile : compile set = .ok c) {r : Round}
    (hr : r ∈ c.rounds options d) {item : Field} {rest : List Field}
    (hitems : r.items = item :: rest) {s : RunState} {l : Location}
    (hpresent : r.Present options s l) {v : Value} {vs : List Value}
    (hv : s.data.get? l = some v) (hsequence : prepared options r.field l v = .sequence vs) :
    let e := r.inSequence options item rest s l
    item.path = r.field.path ++ [.each] ∧ e ∈ c.rounds options d ∧
      e.Precedes options r s l vs ∧ (c.visited options d).count (r.field.path, l) = 1 ∧
        ∀ i < vs.length, (c.visited options d).count (item.path, l ++ [.index i]) = 1 := by
  intro e
  have hwell := wellFormed_of_compile hcompile
  have hwrapped : (s.wrapAt options r.field l).data.get? l = some (.sequence vs) := by
    rw [get?_wrapAt options r.field hv, hsequence]
  have he : e ∈ c.rounds options d := inSequence_mem_rounds hr hitems hpresent hwrapped
  have hprecedes := hpresent.precedes hitems hwrapped
  refine ⟨hwell.path_item hr hitems, he, hprecedes,
    hwell.count_visited hr (mem_of_mem_turns hpresent.visits), fun i hi => ?_⟩
  obtain ⟨ws, -, -, hturns⟩ := hprecedes.handed
  obtain ⟨t, ht, -⟩ := hturns i hi
  exact hwell.count_visited he (mem_of_mem_turns (List.mem_of_getElem? ht))

/-- Words for truth values that must differ. -/
def wordRules : RuleSet :=
  [("words", .rules [Rules.distinct]), ("words[]", .rules [Rules.boolean])]

/-- Two words for one truth value. -/
def sameWords : Value :=
  .map [("words", .sequence [.string "on", .string "yes"])]

/-- What must differ are the truth values, not the words for them. -/
theorem elements_first_sameWords : ∃ c, compile wordRules = .ok c ∧
    ∃ r ∈ c.rounds plainOptions sameWords, ∃ s, r.Present plainOptions s [.key "words"] ∧
      ∃ e ∈ c.rounds plainOptions sameWords,
        e.Precedes plainOptions r s [.key "words"] [.string "on", .string "yes"] ∧
        e.field.path = [.key "words", .each] ∧
        (c.visited plainOptions sameWords).count ([.key "words", .each], [.key "words", .index 1]) =
          1 ∧
        (r.asked plainOptions s [.key "words"]).map (fun a => a.context.value) =
          [.sequence [.bool true, .bool true]] := by
  obtain ⟨c, hc⟩ := exists_of_isOk (by decide : (compile wordRules).isOk = true)
  let words : Field :=
    ⟨⟨[.key "words"], 0, [], false, false, false⟩, [Rules.distinct]⟩
  let word : Field :=
    ⟨⟨[.key "words", .each], 0, [], false, false, false⟩, [Rules.boolean]⟩
  obtain rfl : c = ⟨[⟨words, [word]⟩]⟩ := eq_of_compile hc id (by cbv)
  let r : Round := ⟨[word], words, words.path, [], { data := sameWords }⟩
  have hr : r ∈ rounds ⟨[⟨words, [word]⟩]⟩ plainOptions sameWords :=
    first_mem_rounds ⟨words, [word]⟩ [] plainOptions rfl
  have hpresent : r.Present plainOptions r.start [.key "words"] := ⟨List.mem_cons_self, rfl, rfl⟩
  obtain ⟨hpath, he, hprecedes, -, honce⟩ := elements_first hc hr rfl hpresent rfl rfl
  exact ⟨_, hc, r, hr, r.start, hpresent, _, he, hprecedes, hpath, honce 1 (by decide), rfl⟩

end CompiledRules
end PathRules

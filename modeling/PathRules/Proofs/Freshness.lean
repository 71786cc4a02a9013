import PathRules.Proofs.Occurrences
import PathRules.Proofs.Rounds
import PathRules.Proofs.Independence
import PathRules.Rules.Types
/-!
Fresh matches. The matches of a round are collected before the first of them is visited, while a
visit removes keys, wraps values and puts others in their place. All of that stays at or below the
match that is visited, so a walk beside it goes as before. Main statement: when its turn comes, a
match is one that a fresh walk would report; so a value is there to be taken out, and another one is
put in its place without a new key.
-/

namespace PathRules

namespace Value

open Location

/-- What was taken out leaves a place for another value, and no key is new there. -/
theorem exists_set?_of_take? {v c w : Value} {l : Location} (h : v.take? l = some (c, w))
    (new : Value) : ∃ after, w.set? l new = some after ∧ after.get? l = some new ∧
      ∀ m, ¬ l <+: m → after.keysAt m = w.keysAt m := by
  obtain ⟨hget, hw⟩ := take?_eq_some_iff.mp h
  obtain ⟨after, hafter⟩ := exists_update? (f := fun _ => some new) hget rfl
  obtain ⟨-, last, -, hlast, hnew⟩ := get?_update? hafter
  cases hlast
  refine ⟨after, (set?_eq_update?_of_take? h new).trans hafter, hnew, fun m hm => ?_⟩
  rw [keysAt_update? hafter hm, keysAt_update? hw hm]

end Value

open Value

theorem Accessor.taken_congr {v w : Value} (h : w.outline = v.outline) (a : Accessor)
    (rest : Path) : a.taken (some w) rest = a.taken (some v) rest := by
  cases a with
  | key name => rfl
  | each =>
    cases hsequence : v.isSequence with
    | true =>
      obtain ⟨items, rfl⟩ := isSequence_eq_true_iff.mp hsequence
      obtain ⟨others, rfl⟩ :=
        isSequence_eq_true_iff.mp ((isSequence_of_outline_eq h).trans hsequence)
      have hlength : others.length = items.length := by simpa [outline] using h
      cases items <;> cases others <;> simp_all [taken]
    | false =>
      have hsequence' := (isSequence_of_outline_eq h).trans hsequence
      cases v <;> first | contradiction | (cases w <;> first | rfl | contradiction)

namespace Source

/-- Whether a child is found depends on the outline of what holds it. -/
theorem found_child_congr {source source' : Source} {v w : Value} (hv : source.value? = some v)
    (hw : source'.value? = some w) (houtline : w.outline = v.outline) {s : Segment}
    (hchild : w.child? s = v.child? s) : (source'.child s).found = (source.child s).found := by
  have hentry := found_entry_congr houtline (congrArg Option.isSome hchild)
  unfold child
  rw [hv, hw]
  cases s with
  | key name =>
    simp only [isMap_of_outline_eq houtline]
    split
    · exact hentry
    · rfl
  | index i =>
    simp only [isSequence_of_outline_eq houtline]
    split
    · exact hentry
    · rfl

theorem found_descend_congr {source source' : Source} (hvalue : source'.value? = source.value?)
    (hfound : source'.found = source.found) (l : Location) :
    (source'.descend l).found = (source.descend l).found := by
  cases l with
  | nil => exact hfound
  | cons s rest =>
    have hchild := child_congr hvalue s
    exact congrArg (fun child : Source => (child.descend rest).found) hchild

/-- What is found below a child depends on the child and the outline of what holds it. -/
theorem found_descend_cons_congr {source source' : Source} {v w : Value}
    (hv : source.value? = some v) (hw : source'.value? = some w) (houtline : w.outline = v.outline)
    {s : Segment} (hchild : w.child? s = v.child? s) (l : Location) :
    (source'.descend (s :: l)).found = (source.descend (s :: l)).found := by
  refine found_descend_congr ?_ (found_child_congr hv hw houtline hchild) l
  rw [value?_child, value?_child, hv, hw, Option.bind_some, Option.bind_some, hchild]

/-- Beside a match that is edited, a walk goes on as before. -/
theorem mem_ways_of_spares {p : Path} {source source' : Source} {v w c : Value} {m l : Location}
    (hv : source.value? = some v) (hw : source'.value? = some w) (hm : m.HasShape p)
    (hc : v.get? m = some c) (hspares : Spares m v w) (hl : l ∈ p.ways (some v)) (hne : l ≠ m) :
    l ∈ p.ways (some w) ∧ (source'.descend l).found = (source.descend l).found := by
  induction p generalizing source source' v w m l with
  | nil =>
    rw [List.forall₂_nil_left_iff.mp hm] at hne
    exact absurd (List.forall₂_nil_left_iff.mp (Path.hasShape_of_mem_ways hl)) hne
  | cons a rest ih =>
    obtain ⟨t, l', -, hl', rfl⟩ := List.forall₂_cons_left_iff.mp (Path.hasShape_of_mem_ways hl)
    obtain ⟨s, m', -, hm', rfl⟩ := List.forall₂_cons_left_iff.mp hm
    obtain ⟨htaken, hrest⟩ := Path.cons_mem_ways.mp hl
    rw [Option.bind_some] at hrest
    obtain ⟨node, node', hnode, hnode', houtline⟩ := Spares.exists_get? (l := []) hspares hc
    cases hnode
    cases hnode'
    rw [Path.cons_mem_ways, Accessor.taken_congr houtline, Option.bind_some]
    by_cases hst : s = t
    · subst hst
      have hne' : l' ≠ m' := fun heq => hne (by rw [heq])
      -- The match is not this child itself, or the other location would be that of the match.
      rcases m' with _ | ⟨s', m'⟩
      · rw [List.forall₂_nil_right_iff.mp hm'] at hl'
        exact absurd (List.forall₂_nil_left_iff.mp hl') hne'
      obtain ⟨child, child', hchild, hchild', -⟩ := Spares.exists_get? (l := [s]) hspares hc
      have hbelow := Spares.below (l := [s]) hspares hchild hchild'
      rw [get?_singleton] at hchild hchild'
      rw [get?, hchild, Option.bind_some] at hc
      rw [hchild] at hrest
      rw [hchild']
      have hvalue : (source.child s).value? = some child := by
        rw [value?_child, hv, Option.bind_some, hchild]
      have hvalue' : (source'.child s).value? = some child' := by
        rw [value?_child, hw, Option.bind_some, hchild']
      have hinner := ih hvalue hvalue' hm' hc hbelow hrest hne'
      exact ⟨⟨htaken, hinner.1⟩, hinner.2⟩
    · have hapart : Location.Apart (s :: m') [t] :=
        ⟨fun hpre => hst (List.cons_prefix_cons.mp hpre).1,
          fun hpre => hst (List.cons_prefix_cons.mp hpre).1.symm⟩
      have hchild := hspares.apart [t] hapart
      rw [get?_singleton, get?_singleton] at hchild
      have hfound := found_descend_cons_congr hv hw houtline hchild l'
      rw [hchild]
      exact ⟨⟨htaken, hrest⟩, hfound⟩

end Source

namespace RunState

variable {options : RunOptions}

/-- An edit at a match leaves the other matches of the walk, found or not. -/
theorem mem_places_of_spares {p : Path} {data data' : Value} {base m : Location}
    {q : Location × Found} (hm : (m, .found) ∈ places (Matches.ofPathAt p data base))
    (hspares : Spares m data data') (hq : q ∈ places (Matches.ofPathAt p data base))
    (hne : q.1 ≠ m) : q ∈ places (Matches.ofPathAt p data' base) := by
  obtain ⟨n, c, rfl, hn, hc⟩ := exists_of_mem_foundPlaces (mem_foundPlaces.mpr hm)
  have hnode := hc
  rw [get?_append, Option.bind_eq_some_iff] at hnode
  obtain ⟨node, hnode, -⟩ := hnode
  rw [places_ofPathAt hnode] at hq
  obtain ⟨l, hl, rfl⟩ := List.mem_map.mp hq
  have hne' : l ≠ n := fun heq => hne (by rw [heq])
  rcases n with _ | ⟨s, n⟩
  · rw [List.forall₂_nil_right_iff.mp hn] at hl
    exact absurd (List.forall₂_nil_left_iff.mp (Path.hasShape_of_mem_ways hl)) hne'
  obtain ⟨first, node', hfirst, hnode', -⟩ := hspares.exists_get? hc
  have hbelow := hspares.below hnode hnode'
  rw [get?_append, hnode, Option.bind_some] at hc
  have hroot : ∀ v : Value, (Source.root v).value? = some v := fun _ => rfl
  obtain ⟨hmem, hfound⟩ :=
    Source.mem_ways_of_spares (hroot node) (hroot node') hn hc hbelow hl hne'
  rw [places_ofPathAt hnode']
  exact List.mem_map.mpr ⟨l, hmem, by rw [hfound]⟩

/-- When the turn of a match comes, a walk still reports it. -/
theorem mem_places_of_mem_turns {items : List Field} {field : Field} {p : Path} {base : Location}
    {ps : List (Location × Found)} {s : RunState} (hnodup : (ps.map Prod.fst).Nodup)
    (hps : ∀ q ∈ ps, q ∈ places (Matches.ofPathAt p s.data base)) {t : RunState × Location × Found}
    (ht : t ∈ turns (visit options items field) s ps) :
    t.2 ∈ places (Matches.ofPathAt p t.1.data base) := by
  induction ps generalizing s with
  | nil => simp [turns] at ht
  | cons q ps ih =>
    obtain ⟨l, how⟩ := q
    obtain ⟨hl, hrest⟩ := List.nodup_cons.mp hnodup
    rcases List.mem_cons.mp ht with rfl | ht
    · exact hps (l, how) List.mem_cons_self
    · refine ih hrest (fun q hq => ?_) ht
      have hmem := hps q (List.mem_cons_of_mem _ hq)
      by_cases hhow : how = .found
      · subst hhow
        refine mem_places_of_spares (hps (l, .found) List.mem_cons_self)
          (spares_visit options items field s l) hmem ?_
        intro heq
        have hlocation : q.1 ∈ ps.map Prod.fst := List.mem_map_of_mem hq
        rw [heq] at hlocation
        exact hl hlocation
      · rwa [visit_missing_data options items field s l hhow]

/-- A match is the only one of its walk at its location. -/
theorem filter_places {p : Path} {data : Value} {base l : Location} {how : Found}
    (h : (l, how) ∈ places (Matches.ofPathAt p data base)) :
    (places (Matches.ofPathAt p data base)).filter (fun q => q.1 = l) = [(l, how)] := by
  have hnodup := nodup_places p data base
  obtain ⟨before, after, heq⟩ := List.append_of_mem h
  rw [heq, List.map_append, List.map_cons, List.nodup_middle, List.nodup_cons] at hnodup
  have hothers : ∀ qs : List (Location × Found), qs ⊆ before ++ after →
      qs.filter (fun q => q.1 = l) = [] := by
    intro qs hqs
    refine List.filter_eq_nil_iff.mpr fun q hq hl => hnodup.1 ?_
    have hmem : q.1 ∈ (before ++ after).map Prod.fst := List.mem_map_of_mem (hqs hq)
    rwa [of_decide_eq_true hl, List.map_append] at hmem
  rw [heq, List.filter_append, List.filter_cons, hothers before (List.subset_append_left _ _),
    hothers after (List.subset_append_right _ _), if_pos (by simp), List.nil_append]

end RunState

namespace Round

open RunState

variable {options : RunOptions} {r : Round} {s : RunState} {l : Location}

/-- The state in which the value of a visit passes its validators: it has been wrapped where that is
due, and its elements have been checked. -/
def entered (options : RunOptions) (r : Round) (s : RunState) (l : Location) : RunState :=
  visitElements options r.items (s.wrapAt options r.field l) l

/-- Whether a visit of a round, in a state, comes to a value at a location while the run goes on. -/
structure Present (options : RunOptions) (r : Round) (s : RunState) (l : Location) : Prop where
  visits : (s, l, .found) ∈ r.visits options
  running : s.abandoned = false
  value : s.isNullAt l = false

/-- When the turn of a match comes, a walk still reports it. -/
theorem mem_places_of_mem_visits {how : Found} (h : (s, l, how) ∈ r.visits options) :
    (l, how) ∈ RunState.places (Matches.ofPathAt r.path s.data r.base) :=
  mem_places_of_mem_turns (nodup_places r.path r.start.data r.base) (fun _ hq => hq) h

/-- The value that a visit comes to has its wrapping and its elements behind it when the validators
are asked. -/
theorem Present.exists_get? (h : r.Present options s l) :
    ∃ v w, s.data.get? l = some v ∧ v.isNull = false ∧
      (s.wrapAt options r.field l).data.get? l = some (prepared options r.field l v) ∧
      (r.entered options s l).data.get? l = some w ∧ w.isNull = false := by
  obtain ⟨-, v, -, -, hv⟩ :=
    exists_of_mem_foundPlaces (mem_foundPlaces.mpr (mem_places_of_mem_visits h.visits))
  have hnull : v.isNull = false := by
    rw [← isNullAt_of_get? hv]
    exact h.value
  have hwrapped := get?_wrapAt options r.field hv
  obtain ⟨w, hw, hnull'⟩ := exists_get?_visitElements options r.items hwrapped
    (isNull_prepared options r.field l v hnull)
  exact ⟨v, w, hv, hnull, hwrapped, hw, hnull'⟩

theorem Present.visit_eq (h : r.Present options s l) :
    visit options r.items r.field s (l, .found) =
      (r.entered options s l).validateAt options r.field l := by
  rw [visit_found options r.items r.field l h.running, h.value, if_neg Bool.false_ne_true]
  rfl

/-- A visit of a value takes it out, lets it pass the validators and puts what comes out in its
place. All of this succeeds, and no map gets a key that it did not have. -/
theorem Present.exchanges (h : r.Present options s l) :
    let entered := r.entered options s l
    let p := r.field.validators.foldl (Passage.ask options r.field l) (entered.entering l)
    ∃ w rest after, w.isNull = false ∧ entered.data.take? l = some (w, rest) ∧
      entered.entering l = ⟨{ entered with data := rest }, w, false⟩ ∧
      rest.set? l p.value = some after ∧ after.get? l = some p.value ∧
      (∀ m, ¬ l <+: m → after.keysAt m = rest.keysAt m) ∧
      visit options r.items r.field s (l, .found) = { p.state with data := after } := by
  intro entered p
  obtain ⟨-, w, -, -, -, hw, hnull⟩ := h.exists_get?
  obtain ⟨rest, htake⟩ := exists_take? hw
  have hentering : entered.entering l = ⟨{ entered with data := rest }, w, false⟩ := by
    rw [entering, htake, Option.getD_some]
  obtain ⟨after, hset, hget, hkeys⟩ := exists_set?_of_take? htake p.value
  refine ⟨w, rest, after, hnull, htake, hentering, hset, hget, hkeys, ?_⟩
  rw [h.visit_eq, validateAt_eq htake]
  have hpassage : r.field.validators.foldl (Passage.ask options r.field l)
      ⟨{ entered with data := rest }, w, false⟩ = p := by rw [← hentering]
  dsimp only
  rw [hpassage, hset, Option.getD_some]

end Round

namespace CompiledRules

open RunState

/-- Collected matches never go stale. In every round of a run, of an outermost field or of an
element field, each match that was collected has its turn in order, and when it comes, a walk from
the same node reports at its location just this match, found or not as before. So a visit of a value
finds it to take out, no default stands in for it, and what comes out of the validators is put back
without a new key in any map. -/
theorem fresh_of_mem_rounds {c : CompiledRules} {options : RunOptions} {d : Value} :
    ∀ r ∈ c.rounds options d,
      (r.visits options).map Prod.snd = r.places ∧
      (∀ s l how, (s, l, how) ∈ r.visits options →
        (places (Matches.ofPathAt r.path s.data r.base)).filter (fun q => q.1 = l) = [(l, how)]) ∧
      ∀ s l, r.Present options s l →
        let entered := r.entered options s l
        let p := r.field.validators.foldl (Passage.ask options r.field l) (entered.entering l)
        ∃ w rest after, w.isNull = false ∧ entered.data.take? l = some (w, rest) ∧
          entered.entering l = ⟨{ entered with data := rest }, w, false⟩ ∧
          rest.set? l p.value = some after ∧
          (∀ m, ¬ l <+: m → after.keysAt m = rest.keysAt m) ∧
          visit options r.items r.field s (l, .found) = { p.state with data := after } := by
  intro r _
  refine ⟨r.map_snd_visits options, fun s l how hvisit => ?_, fun s l hpresent => ?_⟩
  · exact filter_places (Round.mem_places_of_mem_visits hvisit)
  · obtain ⟨w, rest, after, hnull, htake, hentering, hset, -, hkeys, hvisit⟩ := hpresent.exchanges
    exact ⟨w, rest, after, hnull, htake, hentering, hset, hkeys, hvisit⟩

/-- A switch in each row. -/
def switchRules : RuleSet :=
  [("rows[].on", .rules [Rules.boolean])]

/-- A switch that is null, and one that is written as a text. -/
def switches : Value :=
  .map [("rows", .sequence [.map [("on", .null)], .map [("on", .string "true")]])]

/-- When the turn of the second switch comes, the key of the first one is gone. -/
theorem fresh_of_mem_rounds_switches : ∃ c, compile switchRules = .ok c ∧
    ∃ r ∈ c.rounds plainOptions switches, ∃ s : RunState,
      let second : Location := [.key "rows", .index 1, .key "on"]
      s.data = .map [("rows", .sequence [.map [], .map [("on", .string "true")]])] ∧
      r.Present plainOptions s second ∧
      (places (Matches.ofPathAt r.path s.data r.base)).filter (fun q => q.1 = second) =
        [(second, .found)] ∧
      ∃ rest, (r.entered plainOptions s second).data.take? second = some (.string "true", rest) ∧
        rest.set? second (.bool true) =
          some (visit plainOptions r.items r.field s (second, .found)).data := by
  obtain ⟨c, hc⟩ := exists_of_isOk (by decide : (compile switchRules).isOk = true)
  let on : Field :=
    ⟨⟨[.key "rows", .each, .key "on"], 0, [], false, false, false⟩, [Rules.boolean]⟩
  let rows : Field :=
    ⟨⟨[.key "rows"], 0, [], false, true, false⟩, [Rules.array.withId (.injected [.key "rows"])]⟩
  obtain rfl : c = ⟨[⟨on, []⟩, ⟨rows, []⟩]⟩ := eq_of_compile hc id (by cbv)
  let r : Round := ⟨[], on, on.path, [], { data := switches }⟩
  have hr : r ∈ rounds ⟨[⟨on, []⟩, ⟨rows, []⟩]⟩ plainOptions switches :=
    first_mem_rounds ⟨on, []⟩ [⟨rows, []⟩] plainOptions rfl
  let s := visit plainOptions [] on r.start ([.key "rows", .index 0, .key "on"], .found)
  have hvisit : (s, [.key "rows", .index 1, .key "on"], .found) ∈ r.visits plainOptions :=
    List.mem_cons_of_mem _ List.mem_cons_self
  have hpresent : r.Present plainOptions s [.key "rows", .index 1, .key "on"] :=
    ⟨hvisit, rfl, rfl⟩
  obtain ⟨-, hfresh, hexchange⟩ := fresh_of_mem_rounds r hr
  obtain ⟨w, rest, after, -, htake, -, hset, -, hdata⟩ := hexchange s _ hpresent
  refine ⟨_, hc, r, hr, s, rfl, hpresent, hfresh s _ _ hvisit, rest, ?_, ?_⟩
  · obtain ⟨hget, -⟩ := Value.take?_eq_some_iff.mp htake
    rw [htake, ← Option.some.inj hget]
  · rw [hdata]
    exact hset

end CompiledRules
end PathRules

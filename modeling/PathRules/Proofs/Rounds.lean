import PathRules.Proofs.Bases
import PathRules.Proofs.Compiled
import PathRules.Proofs.Execution
/-!
Rounds. A field goes over the matches of its path in rounds: once from the root if it is the
outermost of its chain, and once in each sequence that the field above it finds otherwise. The
matches of a round are collected first, and each has its turn in the state that the ones before it
left. Main statements: nothing is asked but where a field comes to in a round, and in a run no field
comes to a location twice.
-/

namespace PathRules

namespace RunState

open Value Location

section Turns

variable {α : Type} {step : RunState → α → RunState} {s t : RunState} {a : α} {as : List α}

/-- The items of a list, each with the state in which its turn comes. -/
def turns (step : RunState → α → RunState) : RunState → List α → List (RunState × α)
  | _, [] => []
  | s, a :: rest => (s, a) :: turns step (step s a) rest

theorem map_snd_turns : (turns step s as).map Prod.snd = as := by
  induction as generalizing s with
  | nil => rfl
  | cons a as ih => rw [turns, List.map_cons, ih]

theorem getElem?_turns (i : Nat) :
    (turns step s as)[i]? = as[i]?.map fun a => ((as.take i).foldl step s, a) := by
  induction as generalizing s i with
  | nil => simp [turns]
  | cons a as ih =>
    cases i with
    | zero => rfl
    | succ i => exact ih i

/-- When the turn of an item comes, those before it have had theirs. -/
theorem mem_turns :
    (t, a) ∈ turns step s as ↔
      ∃ before after, as = before ++ a :: after ∧ t = before.foldl step s := by
  constructor
  · intro h
    obtain ⟨i, hi⟩ := List.mem_iff_getElem?.mp h
    rw [getElem?_turns, Option.map_eq_some_iff] at hi
    obtain ⟨b, hb, heq⟩ := hi
    cases heq
    obtain ⟨hlt, rfl⟩ := List.getElem?_eq_some_iff.mp hb
    refine ⟨as.take i, as.drop (i + 1), ?_, rfl⟩
    rw [← List.drop_eq_getElem_cons hlt, List.take_append_drop]
  · rintro ⟨before, after, rfl, rfl⟩
    refine List.mem_iff_getElem?.mpr ⟨before.length, ?_⟩
    rw [getElem?_turns]
    simp

theorem mem_of_mem_turns (h : (t, a) ∈ turns step s as) : a ∈ as := by
  obtain ⟨before, after, rfl, -⟩ := mem_turns.mp h
  exact List.mem_append_right before List.mem_cons_self

end Turns

/-! ### Places -/

theorem places_eq_visits (ms : Matches) :
    places ms = ms.visits.map fun m => (m.location, m.found) := by
  rw [Matches.visits_eq]
  rfl

/-- From a node on, a path has the places of its ways in the node. -/
theorem places_ofPathAt {data node : Value} {base : Location} (h : data.get? base = some node)
    (p : Path) :
    places (Matches.ofPathAt p data base) =
      (p.ways (some node)).map fun l => (base ++ l, ((Source.root node).descend l).found) := by
  have hways := congrArg (List.map fun m : Location × Option Value × Found =>
    (base ++ m.1, m.2.2)) (Matches.map_toList_ofPath p node)
  rw [places_eq_visits, Matches.visits_ofPathAt h, Matches.visits_eq, List.map_map]
  simpa only [List.map_map, Function.comp_def, Match.below] using hways

/-- Where there is no node to start from, a path has one place. -/
theorem places_ofPathAt_of_none {data : Value} {base : Location} (h : data.get? base = none)
    (p : Path) :
    places (Matches.ofPathAt p data base) = [(base ++ p.behindName.fill, .parentNotFound)] := by
  obtain ⟨m, hfound, -, -, hlocation, hvisits, -⟩ := Matches.exists_lone_visit h p
  rw [places_eq_visits, hvisits, List.map_singleton, hlocation, hfound]

theorem prefix_of_mem_places {p : Path} {data : Value} {base : Location} {q : Location × Found}
    (hq : q ∈ places (Matches.ofPathAt p data base)) : base <+: q.1 := by
  cases hbase : data.get? base with
  | none =>
    rw [places_ofPathAt_of_none hbase, List.mem_singleton] at hq
    rw [hq]
    exact List.prefix_append base _
  | some node =>
    rw [places_ofPathAt hbase] at hq
    obtain ⟨l, -, rfl⟩ := List.mem_map.mp hq
    exact List.prefix_append base l

theorem nodup_places (p : Path) (data : Value) (base : Location) :
    ((places (Matches.ofPathAt p data base)).map Prod.fst).Nodup := by
  cases hbase : data.get? base with
  | none =>
    rw [places_ofPathAt_of_none hbase]
    exact List.nodup_singleton _
  | some node =>
    rw [places_ofPathAt hbase, List.map_map]
    exact (p.nodup_ways _).map (List.append_right_injective base)

theorem pairwise_apart_places (p : Path) (data : Value) (base : Location) :
    (places (Matches.ofPathAt p data base)).Pairwise fun q r =>
      q.2 = .found → r.2 = .found → Apart q.1 r.1 := by
  have hapart := pairwise_apart_foundPlaces p data base
  rw [foundPlaces, List.pairwise_map, List.pairwise_filter] at hapart
  exact hapart.imp fun h hq hr => h (by simp [hq]) (by simp [hr])

end RunState

/-- One going of a field over the matches of a path from a base on, with the element fields below
its own and the state in which the matches are collected. -/
structure Round where
  items : List Field
  field : Field
  path : Path
  base : Location
  start : RunState

namespace Round

open RunState Location

variable {options : RunOptions}

/-- The matches that are collected before the first of them is visited. -/
def places (r : Round) : List (Location × Found) :=
  RunState.places (Matches.ofPathAt r.path r.start.data r.base)

/-- The matches, each with the state in which its turn comes. -/
def visits (options : RunOptions) (r : Round) : List (RunState × Location × Found) :=
  turns (visit options r.items r.field) r.start r.places

/-- The state after all matches were visited. -/
def finish (options : RunOptions) (r : Round) : RunState :=
  r.places.foldl (visit options r.items r.field) r.start

/-- The locations that the field comes to. -/
def visited (r : Round) : List (Path × Location) :=
  r.places.map fun q => (r.field.path, q.1)

/-- Whether a visit of a field comes to a sequence, so that its element field has a round in it. -/
def opens (options : RunOptions) (field : Field) (s : RunState) (place : Location × Found) : Bool :=
  !s.abandoned && place.2 == .found && !s.isNullAt place.1 &&
    ((s.wrapAt options field place.1).data.get? place.1).any Value.isSequence

/-- A round with those of the element fields in its sequences. -/
def withElements (options : RunOptions) :
    List Field → Field → Path → Location → RunState → List Round
  | [], field, path, base, s => [⟨[], field, path, base, s⟩]
  | item :: rest, field, path, base, s =>
    ⟨item :: rest, field, path, base, s⟩ ::
      (visits options ⟨item :: rest, field, path, base, s⟩).flatMap fun t =>
        if opens options field t.1 t.2 then
          withElements options rest item Path.elements t.2.1 (t.1.wrapAt options field t.2.1)
        else []

end Round

/-- The rounds of a run, each with those in its sequences behind it. -/
def CompiledRules.rounds (rules : CompiledRules) (options : RunOptions) (data : Value) :
    List Round :=
  if data.isNull then []
  else
    (RunState.turns (RunState.runChain options) { data } rules.chains).flatMap fun t =>
      Round.withElements options t.2.items t.2.head t.2.path [] t.1

/-- The locations that the fields of a run come to. -/
def CompiledRules.visited (rules : CompiledRules) (options : RunOptions) (data : Value) :
    List (Path × Location) :=
  (rules.rounds options data).flatMap Round.visited

namespace Round

open RunState Location

variable {options : RunOptions}

theorem opens_iff {field : Field} {s : RunState} {l : Location} {how : Found} :
    opens options field s (l, how) = true ↔
      s.abandoned = false ∧ how = .found ∧ s.isNullAt l = false ∧
        ((s.wrapAt options field l).data.get? l).any Value.isSequence = true := by
  simp [opens, and_assoc]

/-- A round that is opened below another one is in a sequence that the other one comes to. -/
theorem mem_withElements_cons {item field : Field} {rest : List Field} {path : Path}
    {base : Location} {s : RunState} {r : Round} :
    r ∈ withElements options (item :: rest) field path base s ↔
      r = ⟨item :: rest, field, path, base, s⟩ ∨
        ∃ t l how, (t, l, how) ∈ visits options ⟨item :: rest, field, path, base, s⟩ ∧
          opens options field t (l, how) = true ∧
          r ∈ withElements options rest item Path.elements l (t.wrapAt options field l) := by
  rw [withElements, List.mem_cons, List.mem_flatMap]
  simp only [List.mem_ite_nil_right, Prod.exists]

theorem self_mem_withElements (options : RunOptions) (items : List Field) (field : Field)
    (path : Path) (base : Location) (s : RunState) :
    (⟨items, field, path, base, s⟩ : Round) ∈ withElements options items field path base s := by
  cases items with
  | nil => exact List.mem_singleton_self _
  | cons item rest => exact List.mem_cons_self

/-- Below a round, the fields are those of one chain. -/
theorem suffix_of_mem_withElements {items : List Field} {field : Field} {path : Path}
    {base : Location} {s : RunState} {r : Round}
    (hr : r ∈ withElements options items field path base s) :
    r.field :: r.items <:+ field :: items := by
  induction items generalizing field path base s with
  | nil =>
    rw [withElements, List.mem_singleton] at hr
    rw [hr]
  | cons item rest ih =>
    rcases mem_withElements_cons.mp hr with rfl | ⟨t, l, how, -, -, hinner⟩
    · exact List.suffix_rfl
    · exact (ih hinner).trans (List.suffix_cons field _)

/-- A visit of a sequence opens a round of the element field. -/
theorem mem_withElements_of_opens {items : List Field} {field : Field} {path : Path}
    {base : Location} {s : RunState} {r : Round}
    (hr : r ∈ withElements options items field path base s) {item : Field} {rest : List Field}
    (hitems : r.items = item :: rest) {t : RunState} {l : Location}
    {how : Found} (hvisit : (t, l, how) ∈ r.visits options)
    (hopens : opens options r.field t (l, how) = true) :
    (⟨rest, item, Path.elements, l, t.wrapAt options r.field l⟩ : Round) ∈
      withElements options items field path base s := by
  induction items generalizing field path base s with
  | nil =>
    rw [withElements, List.mem_singleton] at hr
    rw [hr] at hitems
    contradiction
  | cons first others ih =>
    rcases mem_withElements_cons.mp hr with rfl | ⟨u, m, how', hmem, hopened, hinner⟩
    · cases hitems
      exact mem_withElements_cons.mpr
        (.inr ⟨t, l, how, hvisit, hopens, self_mem_withElements _ _ _ _ _ _⟩)
    · exact mem_withElements_cons.mpr (.inr ⟨u, m, how', hmem, hopened, ih hinner⟩)

theorem nodup_visited (r : Round) : r.visited.Nodup := by
  have hnodup := (nodup_places r.path r.start.data r.base).map
    (Prod.mk_right_injective r.field.path)
  rwa [List.map_map] at hnodup

theorem of_mem_visited {r : Round} {x : Path × Location} (hx : x ∈ r.visited) :
    x.1 = r.field.path ∧ r.base <+: x.2 := by
  obtain ⟨q, hq, rfl⟩ := List.mem_map.mp hx
  exact ⟨rfl, prefix_of_mem_places hq⟩

/-- Below a round, the fields of its chain come to locations below the base. -/
theorem of_mem_visited_below {items : List Field} {field : Field} {path : Path} {base : Location}
    {s : RunState} {x : Path × Location}
    (hx : x ∈ (withElements options items field path base s).flatMap visited) :
    x.1 ∈ (field :: items).map Field.path ∧ base <+: x.2 := by
  induction items generalizing field path base s with
  | nil =>
    rw [withElements, List.flatMap_singleton] at hx
    obtain ⟨hfield, hl⟩ := of_mem_visited hx
    exact ⟨hfield ▸ List.mem_cons_self, hl⟩
  | cons item rest ih =>
    obtain ⟨r, hr, hx⟩ := List.mem_flatMap.mp hx
    rcases mem_withElements_cons.mp hr with rfl | ⟨t, l, how, hvisit, -, hinner⟩
    · obtain ⟨hfield, hl⟩ := of_mem_visited hx
      exact ⟨hfield ▸ List.mem_cons_self, hl⟩
    · obtain ⟨hfield, hl⟩ := ih (List.mem_flatMap.mpr ⟨r, hinner, hx⟩)
      exact ⟨List.mem_cons_of_mem _ hfield,
        (prefix_of_mem_places (mem_of_mem_turns hvisit)).trans hl⟩

theorem map_snd_visits (options : RunOptions) (r : Round) :
    (r.visits options).map Prod.snd = r.places :=
  map_snd_turns

/-- The matches that a round finds are apart. -/
theorem pairwise_apart_visits (r : Round) :
    (r.visits options).Pairwise fun t u =>
      t.2.2 = .found → u.2.2 = .found → Apart t.2.1 u.2.1 := by
  have hapart : r.places.Pairwise fun q q' => q.2 = .found → q'.2 = .found → Apart q.1 q'.1 :=
    pairwise_apart_places r.path r.start.data r.base
  rwa [← r.map_snd_visits options, List.pairwise_map] at hapart

/-- Below a round, no field comes to a location twice: the fields of a chain have paths of their
own, and what is below two sequences is apart. -/
theorem nodup_visited_below {items : List Field} {field : Field}
    (hnodup : ((field :: items).map Field.path).Nodup) (path : Path) (base : Location)
    (s : RunState) : ((withElements options items field path base s).flatMap visited).Nodup := by
  induction items generalizing field path base s with
  | nil =>
    rw [withElements, List.flatMap_singleton]
    exact nodup_visited _
  | cons item rest ih =>
    obtain ⟨hfield, hitems⟩ := List.nodup_cons.mp hnodup
    have hopened : ∀ (t : RunState × Location × Found) (x : Path × Location),
        x ∈ (if opens options field t.1 t.2 then
            withElements options rest item Path.elements t.2.1 (t.1.wrapAt options field t.2.1)
          else []).flatMap visited →
        t.2.2 = .found ∧ x.1 ∈ (item :: rest).map Field.path ∧ t.2.1 <+: x.2 := by
      intro t x hx
      split at hx
      next hopens => exact ⟨(opens_iff.mp hopens).2.1, of_mem_visited_below hx⟩
      next => simp at hx
    rw [withElements, List.flatMap_cons, List.flatMap_assoc, List.nodup_append', List.nodup_flatMap]
    refine ⟨nodup_visited _, ⟨fun t _ => ?_, ?_⟩, fun x hx hx' => ?_⟩
    · split
      · exact ih hitems _ _ _
      · exact List.nodup_nil
    · refine (pairwise_apart_visits _).imp fun {t u} hapart x hx hx' => ?_
      obtain ⟨ht, -, hpre⟩ := hopened t x hx
      obtain ⟨hu, -, hpre'⟩ := hopened u x hx'
      rcases List.prefix_or_prefix_of_prefix hpre hpre' with h | h
      · exact (hapart ht hu).1 h
      · exact (hapart ht hu).2 h
    · obtain ⟨t, -, hx'⟩ := List.mem_flatMap.mp hx'
      rw [← (of_mem_visited hx).1] at hfield
      exact hfield (hopened t x hx').2.1

/-- A round finds the values of its matches as they were when it started, and what it leaves of one
stays there to its end. -/
theorem get?_of_mem_visits {r : Round} {s : RunState} {l : Location}
    (h : (s, l, .found) ∈ r.visits options) :
    s.data.get? l = r.start.data.get? l ∧
      (r.finish options).data.get? l =
        (visit options r.items r.field s (l, .found)).data.get? l := by
  obtain ⟨before, after, hplaces, rfl⟩ := mem_turns.mp h
  have hapart : r.places.Pairwise fun q q' => q.2 = .found → q'.2 = .found → Apart q.1 q'.1 :=
    pairwise_apart_places r.path r.start.data r.base
  rw [hplaces, List.pairwise_append, List.pairwise_cons] at hapart
  obtain ⟨-, ⟨hafter, -⟩, hbefore⟩ := hapart
  constructor
  · exact get?_foldl_visit (fun m hm => hbefore (m, .found) (mem_foundPlaces.mp hm) (l, .found)
      List.mem_cons_self rfl rfl) r.start
  · rw [finish, hplaces, List.foldl_append, List.foldl_cons]
    exact get?_foldl_visit
      (fun m hm => (hafter (m, .found) (mem_foundPlaces.mp hm) rfl rfl).symm) _

/-- If a round ends with the run going on, it went on in all of its turns. -/
theorem running_of_mem_visits {r : Round} (h : (r.finish options).abandoned = false) :
    ∀ t ∈ r.visits options, t.1.abandoned = false := by
  rintro ⟨s, place⟩ ht
  obtain ⟨before, after, hplaces, rfl⟩ := mem_turns.mp ht
  rw [finish, hplaces, List.foldl_append] at h
  exact running_of_foldl h

theorem getElem?_visits (options : RunOptions) {r : Round} {i : Nat} {place : Location × Found}
    (h : r.places[i]? = some place) : ∃ s, (r.visits options)[i]? = some (s, place) := by
  rw [visits, getElem?_turns, h]
  exact ⟨_, rfl⟩

/-- A visit of a sequence goes through the round of its elements first. -/
theorem visitElements_eq_finish {item : Field} {rest : List Field} {s : RunState} {l : Location}
    (hsequence : (s.data.get? l).any Value.isSequence = true) :
    visitElements options (item :: rest) s l =
      finish options ⟨rest, item, Path.elements, l, s⟩ := by
  rw [visitElements_cons, if_pos hsequence]
  rfl

end Round

namespace RunState

variable {options : RunOptions} {P : Invocation → Prop}

/-- Whether the log of one state has more than that of another one, all of it with a property. -/
def Grows (P : Invocation → Prop) (s t : RunState) : Prop :=
  ∃ new, t.log = s.log ++ new ∧ ∀ i ∈ new, P i

namespace Grows

theorem of_log_eq {s t : RunState} (h : t.log = s.log) : Grows P s t :=
  ⟨[], by simp [h], by simp⟩

theorem trans {s t u : RunState} (h : Grows P s t) (h' : Grows P t u) : Grows P s u := by
  obtain ⟨first, hfirst, hP⟩ := h
  obtain ⟨second, hsecond, hP'⟩ := h'
  exact ⟨first ++ second, by rw [hsecond, hfirst, List.append_assoc],
    List.forall_mem_append.mpr ⟨hP, hP'⟩⟩

theorem imp {Q : Invocation → Prop} (hPQ : ∀ i, P i → Q i) {s t : RunState} (h : Grows P s t) :
    Grows Q s t := by
  obtain ⟨new, hlog, hP⟩ := h
  exact ⟨new, hlog, fun i hi => hPQ i (hP i hi)⟩

theorem foldl {α : Type} {step : RunState → α → RunState} {as : List α} {s : RunState}
    (h : ∀ t ∈ turns step s as, Grows P t.1 (step t.1 t.2)) : Grows P s (as.foldl step s) := by
  induction as generalizing s with
  | nil => exact of_log_eq rfl
  | cons a as ih =>
    exact (h (s, a) List.mem_cons_self).trans (ih fun t ht => h t (List.mem_cons_of_mem _ ht))

theorem validateAt {s : RunState} {field : Field} {l : Location}
    (hP : ∀ i : Invocation, i.field = field.path → i.location = l → P i) :
    Grows P s (s.validateAt options field l) := by
  have hpassage : ∀ p : Passage, Grows P p.state
      (field.validators.foldl (Passage.ask options field l) p).state := by
    intro p
    obtain ⟨new, hlog, hpre, -⟩ := (Asks.foldl_ask options field l p field.validators).grows
    refine ⟨new, hlog, fun i hi => ?_⟩
    obtain ⟨v, -, hquestion⟩ :=
      List.mem_map.mp (hpre.subset (List.mem_map_of_mem (f := Invocation.question) hi))
    exact hP i (congrArg Question.field hquestion).symm (congrArg Question.location hquestion).symm
  unfold RunState.validateAt
  exact hpassage _

end Grows

end RunState

namespace Round

open RunState

variable {options : RunOptions}

/-- Whether what was asked is about a field at a location that it comes to in one of some rounds. -/
def Covers (rounds : List Round) (i : Invocation) : Prop :=
  (i.field, i.location) ∈ rounds.flatMap visited

theorem Covers.subset {rounds others : List Round} (h : rounds ⊆ others) {i : Invocation}
    (hi : Covers rounds i) : Covers others i := by
  obtain ⟨r, hr, hi⟩ := List.mem_flatMap.mp hi
  exact List.mem_flatMap.mpr ⟨r, h hr, hi⟩

/-- A visit asks about its own place, and otherwise where its elements are checked. -/
theorem grows_visit {P : Invocation → Prop} {items : List Field} {field : Field} {s : RunState}
    {l : Location} {how : Found}
    (hself : ∀ i : Invocation, i.field = field.path → i.location = l → P i)
    (helements : ∀ item rest, items = item :: rest → opens options field s (l, how) = true →
      Grows P (s.wrapAt options field l)
        (visitElements options items (s.wrapAt options field l) l)) :
    Grows P s (visit options items field s (l, how)) := by
  have habsent : ∀ t : RunState, Grows P t (t.absent options field l) := by
    intro t
    obtain ⟨errors, herrors⟩ := t.absent_eq options field l
    rw [herrors]
    exact .of_log_eq rfl
  cases hrunning : s.abandoned with
  | true =>
    rw [visit_abandoned options items field _ hrunning]
    exact .of_log_eq rfl
  | false =>
    by_cases hhow : how = .found
    case neg =>
      rw [visit_of_ne_found options items field l hrunning hhow]
      exact habsent s
    subst hhow
    rw [visit_found options items field l hrunning]
    cases hnull : s.isNullAt l with
    | true =>
      rw [if_pos rfl]
      split
      · exact .of_log_eq rfl
      · refine .trans (.of_log_eq ?_) (habsent _)
        rcases s.removeNull_eq l with h | ⟨-, data, -, h⟩ <;> rw [h]
    | false =>
      rw [if_neg Bool.false_ne_true]
      have hwrap : Grows P s (s.wrapAt options field l) := .of_log_eq (log_wrapAt options field s l)
      refine (hwrap.trans ?_).trans (.validateAt hself)
      cases items with
      | nil => exact .of_log_eq rfl
      | cons item rest =>
        cases hsequence : ((s.wrapAt options field l).data.get? l).any Value.isSequence with
        | true => exact helements item rest rfl (opens_iff.mpr ⟨hrunning, rfl, hnull, hsequence⟩)
        | false =>
          rw [visitElements_cons, if_neg (by simp [hsequence])]
          exact .of_log_eq rfl

theorem covers_of_mem_visits {items : List Field} {field : Field} {path : Path} {base : Location}
    {s : RunState} {t : RunState × Location × Found}
    (ht : t ∈ visits options ⟨items, field, path, base, s⟩) (i : Invocation)
    (hfield : i.field = field.path) (hlocation : i.location = t.2.1) :
    Covers (withElements options items field path base s) i := by
  refine List.mem_flatMap.mpr ⟨_, self_mem_withElements options items field path base s, ?_⟩
  rw [hfield, hlocation]
  exact List.mem_map_of_mem (f := fun q => (field.path, q.1)) (mem_of_mem_turns ht)

/-- Everything that is asked in a round is asked where a field comes to in it, or in a round of
elements below it. -/
theorem grows_finish (items : List Field) (field : Field) (path : Path) (base : Location)
    (s : RunState) :
    Grows (Covers (withElements options items field path base s)) s
      (finish options ⟨items, field, path, base, s⟩) := by
  induction items generalizing field path base s with
  | nil =>
    refine .foldl fun t ht => grows_visit (covers_of_mem_visits ht) fun item rest hitems => ?_
    contradiction
  | cons first others ih =>
    refine .foldl fun t ht =>
      grows_visit (covers_of_mem_visits ht) fun item rest hitems hopens => ?_
    cases hitems
    rw [visitElements_eq_finish (opens_iff.mp hopens).2.2.2]
    refine (ih first Path.elements t.2.1 _).imp fun i hi => hi.subset fun r hr => ?_
    exact mem_withElements_cons.mpr (.inr ⟨t.1, t.2.1, t.2.2, ht, hopens, hr⟩)

end Round

namespace CompiledRules

open RunState

variable {options : RunOptions} {c : CompiledRules} {d : Value}

theorem rounds_of_not_null (hnull : d.isNull = false) :
    c.rounds options d =
      (turns (runChain options) { data := d } c.chains).flatMap fun t =>
        Round.withElements options t.2.items t.2.head t.2.path [] t.1 := by
  rw [rounds, if_neg (by simp [hnull])]

/-- The first round is that of the first chain, with the data as it came. -/
theorem first_mem_rounds (chain : FieldChain) (rest : List FieldChain) (options : RunOptions)
    (hnull : d.isNull = false) :
    (⟨chain.items, chain.head, chain.path, [], { data := d }⟩ : Round) ∈
      rounds ⟨chain :: rest⟩ options d := by
  rw [rounds_of_not_null hnull]
  exact List.mem_flatMap.mpr ⟨({ data := d }, chain), List.mem_cons_self,
    Round.self_mem_withElements _ _ _ _ _ _⟩

/-- Every round is one of a chain, or below one. -/
theorem exists_chain_of_mem_rounds {r : Round} (hr : r ∈ c.rounds options d) :
    ∃ chain ∈ c.chains, ∃ s,
      r ∈ Round.withElements options chain.items chain.head chain.path [] s ∧
        ∀ r' ∈ Round.withElements options chain.items chain.head chain.path [] s,
          r' ∈ c.rounds options d := by
  cases hnull : d.isNull with
  | true => simp [rounds, hnull] at hr
  | false =>
    rw [rounds_of_not_null hnull] at hr ⊢
    obtain ⟨⟨s, chain⟩, hturn, hr⟩ := List.mem_flatMap.mp hr
    exact ⟨chain, mem_of_mem_turns hturn, s, hr,
      fun r' hr' => List.mem_flatMap.mpr ⟨(s, chain), hturn, hr'⟩⟩

/-- The rounds of a run are all of it: nothing is asked but where a field comes to in one of
them. -/
theorem mem_visited_of_mem_log {i : Invocation} (hi : i ∈ (c.validate options d).log) :
    (i.field, i.location) ∈ c.visited options d := by
  change i ∈ (c.runState options d).log at hi
  rw [runState] at hi
  cases hnull : d.isNull with
  | true =>
    rw [if_pos hnull] at hi
    exact absurd hi List.not_mem_nil
  | false =>
    rw [if_neg (by simp [hnull])] at hi
    have hgrows : Grows (Round.Covers (c.rounds options d)) { data := d }
        (c.chains.foldl (runChain options) { data := d }) := by
      refine .foldl fun t ht => ?_
      refine (Round.grows_finish t.2.items t.2.head t.2.path [] t.1).imp fun i hi => ?_
      rw [rounds_of_not_null hnull]
      exact hi.subset fun r hr => List.mem_flatMap.mpr ⟨t, ht, hr⟩
    obtain ⟨new, hlog, hnew⟩ := hgrows
    rw [hlog, List.nil_append] at hi
    exact hnew i hi

/-- In a run, no field comes to a location twice. -/
theorem WellFormed.nodup_visited (h : c.WellFormed) (options : RunOptions) (d : Value) :
    (c.visited options d).Nodup := by
  cases hnull : d.isNull with
  | true => simp [visited, rounds, hnull]
  | false =>
    have hnodup := h.nodup
    rw [fields, List.map_flatMap, List.nodup_flatMap] at hnodup
    obtain ⟨hchains, hacross⟩ := hnodup
    have hturns : (turns (runChain options) { data := d } c.chains).map Prod.snd = c.chains :=
      map_snd_turns
    rw [← hturns, List.pairwise_map] at hacross
    rw [visited, rounds_of_not_null hnull, List.flatMap_assoc, List.nodup_flatMap]
    refine ⟨fun t ht => ?_, hacross.imp fun {t u} hdisjoint x hx hx' => ?_⟩
    · exact Round.nodup_visited_below (hchains t.2 (mem_of_mem_turns ht)) _ _ _
    · exact hdisjoint (Round.of_mem_visited_below hx).1 (Round.of_mem_visited_below hx').1

end CompiledRules
end PathRules

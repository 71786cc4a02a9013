import PathRules.ErrorTree.Basic
import PathRules.Proofs.Ways
/-!
Stopping a walk. A row is what lies in front of the last index of a location: the matches of one row
are elements of one sequence, or lie in them without a further sequence between. Main statement: a
visitor is shown just those matches in whose row it has not asked to stop, in order.
-/

namespace PathRules

namespace Location

/-- The location of the last sequence on the way. -/
def row (l : Location) : Location :=
  (l.reverse.dropWhile ErrorTree.isKey).tail.reverse

theorem row_append_index (base : Location) (i : Int) {keys : Location}
    (hkeys : ∀ s ∈ keys, ErrorTree.isKey s = true) : row (base ++ .index i :: keys) = base := by
  have hreverse : (base ++ .index i :: keys).reverse =
      keys.reverse ++ .index i :: base.reverse := by simp
  rw [row, hreverse, List.dropWhile_append_of_pos (by simpa using hkeys)]
  simp [List.dropWhile]

theorem HasShape.forall_isKey {l : Location} {p : Path} (h : l.HasShape p)
    (hp : Accessor.each ∉ p) : ∀ s ∈ l, ErrorTree.isKey s = true := by
  induction p generalizing l with
  | nil => simp [List.forall₂_nil_left_iff.mp h]
  | cons a p ih =>
    obtain ⟨s, l, hfits, hrest, rfl⟩ := List.forall₂_cons_left_iff.mp h
    rw [List.mem_cons, not_or] at hp
    cases a with
    | each => exact absurd rfl hp.1
    | key name =>
      cases hfits
      exact List.forall_mem_cons.mpr ⟨rfl, ih hrest hp.2⟩

/-- A path with a marker leads into the rows of the node that it starts from. -/
theorem HasShape.prefix_row {l : Location} {p : Path} (h : l.HasShape p)
    (hp : Accessor.each ∈ p) (base : Location) : base <+: row (base ++ l) := by
  induction p generalizing l base with
  | nil => simp at hp
  | cons a p ih =>
    obtain ⟨s, l, hfits, hrest, rfl⟩ := List.forall₂_cons_left_iff.mp h
    by_cases hmore : Accessor.each ∈ p
    · have hbelow := ih hrest hmore (base ++ [s])
      rw [List.append_assoc] at hbelow
      exact (List.prefix_append base [s]).trans hbelow
    · have ha : Accessor.each = a := (List.mem_cons.mp hp).resolve_right hmore
      subst ha
      obtain ⟨i, rfl⟩ := hfits
      have hrow := row_append_index base i (HasShape.forall_isKey hrest hmore)
      exact ⟨[], (List.append_nil base).trans hrow.symm⟩

end Location

namespace Matches

variable {σ : Type} {f : σ → Match → σ × Bool}

/-- A visitor that notes down the matches it is shown, each with whether it asked to stop there. -/
def noting (f : σ → Match → σ × Bool) (state : σ × List (Match × Bool)) (m : Match) :
    (σ × List (Match × Bool)) × Bool :=
  let (next, stop) := f state.1 m
  ((next, state.2 ++ [(m, stop)]), stop)

/-- The matches that a visitor is shown, each with whether it asked to stop there. -/
def answers (f : σ → Match → σ × Bool) (state : σ) (ms : Matches) : List (Match × Bool) :=
  (ms.visit (noting f) (state, [])).1.2

/-- Whether a visitor has asked to stop in a row. -/
def Stopped (seen : List (Match × Bool)) (row : Location) : Prop :=
  ∃ e ∈ seen, e.2 = true ∧ e.1.location.row = row

instance (seen : List (Match × Bool)) (row : Location) : Decidable (Stopped seen row) :=
  inferInstanceAs (Decidable (∃ e ∈ seen, e.2 = true ∧ e.1.location.row = row))

/-- Shows a match to a visitor unless it has asked to stop in the row. -/
def attend (f : σ → Match → σ × Bool) (state : σ × List (Match × Bool)) (m : Match) :
    σ × List (Match × Bool) :=
  if Stopped state.2 m.location.row then state else (noting f state m).1

theorem stopped_concat {seen : List (Match × Bool)} {m : Match} {stop : Bool} {row : Location} :
    Stopped (seen ++ [(m, stop)]) row ↔
      Stopped seen row ∨ (stop = true ∧ m.location.row = row) := by
  simp only [Stopped, List.mem_append, List.mem_singleton, or_and_right, exists_or,
    exists_eq_left]

mutual

/-- A visitor does the same when it notes down what it is shown. -/
theorem visit_noting (state : σ × List (Match × Bool)) : ∀ ms : Matches,
    ((ms.visit (noting f) state).1.1, (ms.visit (noting f) state).2) = ms.visit f state.1
  | one m => rfl
  | elements branches => by
    rw [visit, visit, visitAll_noting state branches]

theorem visitAll_noting (state : σ × List (Match × Bool)) : ∀ branches : List Matches,
    (visitAll (noting f) state branches).1 = visitAll f state.1 branches
  | [] => rfl
  | b :: rest => by
    rw [visitAll, visitAll, ← visit_noting state b]
    dsimp only
    split
    · rfl
    · exact visitAll_noting _ rest

end

/-! ### Matches one after the other -/

theorem foldl_attend_of_stopped {row : Location} {ms : List Match}
    (hrow : ∀ m ∈ ms, m.location.row = row) {state : σ × List (Match × Bool)}
    (hstopped : Stopped state.2 row) : ms.foldl (attend f) state = state := by
  induction ms with
  | nil => rfl
  | cons m ms ih =>
    have hm : attend f state m = state := by
      rw [attend, hrow m List.mem_cons_self, if_pos hstopped]
    rw [List.foldl_cons, hm]
    exact ih fun m' hm' => hrow m' (List.mem_cons_of_mem m hm')

/-- What is noted down are some of the matches, in order; each of them changes the state. -/
theorem exists_foldl_attend (ms : List Match) (state : σ × List (Match × Bool)) :
    ∃ more, (ms.foldl (attend f) state).2 = state.2 ++ more ∧ (more.map Prod.fst).Sublist ms ∧
      (ms.foldl (attend f) state).1 =
        (more.map Prod.fst).foldl (fun s m => (f s m).1) state.1 := by
  induction ms generalizing state with
  | nil => exact ⟨[], (List.append_nil _).symm, List.Sublist.slnil, rfl⟩
  | cons m ms ih =>
    obtain ⟨more, hmore, hsublist, hstate⟩ := ih (attend f state m)
    rw [List.foldl_cons]
    by_cases hstopped : Stopped state.2 m.location.row
    · have hm : attend f state m = state := if_pos hstopped
      rw [hm] at hmore hstate ⊢
      exact ⟨more, hmore, hsublist.cons m, hstate⟩
    · have hm : attend f state m = (noting f state m).1 := if_neg hstopped
      rw [hm] at hmore hstate ⊢
      refine ⟨(m, (f state.1 m).2) :: more, ?_, hsublist.cons_cons m, hstate⟩
      rw [hmore]
      exact List.append_assoc _ _ _

/-- Whether a match is noted down is settled when it is shown. -/
theorem mem_foldl_attend {ms : List Match} {state : σ × List (Match × Bool)} {e : Match × Bool}
    (he : e.1 ∉ ms) : e ∈ (ms.foldl (attend f) state).2 ↔ e ∈ state.2 := by
  obtain ⟨more, hmore, hsublist, -⟩ := exists_foldl_attend (f := f) ms state
  have hnot : e ∉ more := fun h => he (hsublist.subset (List.mem_map_of_mem h))
  rw [hmore, List.mem_append, or_iff_left hnot]

/-- Of matches that are all different, those are left out in whose row the visitor stopped. -/
theorem not_mem_foldl_attend_iff {front back : List Match} {m : Match}
    (hnodup : (front ++ m :: back).Nodup) (state : σ) :
    let seen := ((front ++ m :: back).foldl (attend f) (state, [])).2
    m ∉ seen.map Prod.fst ↔
      ∃ b ∈ front, (b, true) ∈ seen ∧ b.location.row = m.location.row := by
  intro seen
  let before := front.foldl (attend f) (state, [])
  have hseen : seen = ((m :: back).foldl (attend f) before).2 :=
    congrArg Prod.snd List.foldl_append
  obtain ⟨-, hback, hapart⟩ := List.nodup_append.mp hnodup
  have hback : m ∉ back := (List.nodup_cons.mp hback).1
  have hfront : ∀ {e : Match × Bool}, e.1 ∉ front → e ∉ before.2 := fun he h =>
    List.not_mem_nil ((mem_foldl_attend he).mp h)
  have hstopped : Stopped before.2 m.location.row ↔
      ∃ b ∈ front, (b, true) ∈ seen ∧ b.location.row = m.location.row := by
    have hkept : ∀ b ∈ front, ((b, true) ∈ seen ↔ (b, true) ∈ before.2) := by
      intro b hb
      rw [hseen]
      exact mem_foldl_attend fun h => hapart b hb b h rfl
    constructor
    · rintro ⟨⟨b, stop⟩, he, rfl, hrow⟩
      have hb : b ∈ front := by
        by_contra hb
        exact hfront hb he
      exact ⟨b, hb, (hkept b hb).mpr he, hrow⟩
    · rintro ⟨b, hb, he, hrow⟩
      exact ⟨(b, true), (hkept b hb).mp he, rfl, hrow⟩
  rw [← hstopped, hseen, List.foldl_cons]
  by_cases h : Stopped before.2 m.location.row
  · refine iff_of_true (fun hmem => ?_) h
    obtain ⟨e, he, rfl⟩ := List.mem_map.mp hmem
    rw [attend, if_pos h, mem_foldl_attend hback] at he
    exact hfront (fun hm => hapart _ hm _ List.mem_cons_self rfl) he
  · refine iff_of_false (fun hmem => hmem ?_) h
    rw [attend, if_neg h]
    refine List.mem_map_of_mem (a := (m, (f before.1 m).2)) ((mem_foldl_attend hback).mpr ?_)
    exact List.mem_append_right _ List.mem_cons_self

/-! ### Sequences -/

/-- The matches of one row are shown until the visitor asks to stop. -/
theorem visitAll_row {row : Location} {ms : List Match} (hrow : ∀ m ∈ ms, m.location.row = row)
    {state : σ × List (Match × Bool)} (hstate : ¬ Stopped state.2 row) :
    visitAll (noting f) state (ms.map one) = ms.foldl (attend f) state := by
  induction ms generalizing state with
  | nil => rfl
  | cons m ms ih =>
    have hrest := fun m' hm' => hrow m' (List.mem_cons_of_mem m hm')
    have hm : attend f state m = (noting f state m).1 := by
      rw [attend, hrow m List.mem_cons_self, if_neg hstate]
    rw [List.map_cons, visitAll, List.foldl_cons, hm, visit]
    dsimp only
    split
    · next hstop =>
      refine (foldl_attend_of_stopped hrest ?_).symm
      exact stopped_concat.mpr (Or.inr ⟨hstop, hrow m List.mem_cons_self⟩)
    · next hgoes =>
      refine ih hrest fun h => ?_
      rcases stopped_concat.mp h with h | ⟨hstop, -⟩
      · exact hstate h
      · exact hgoes hstop

/-- Branches whose matches have rows of their own are all visited. -/
theorem visitAll_apart {ss : List Segment} (hnodup : ss.Nodup) {branch : Segment → Matches}
    {base : Location}
    (hvisit : ∀ s ∈ ss, ∀ state : σ × List (Match × Bool),
      (∀ row, base ++ [s] <+: row → ¬ Stopped state.2 row) →
        (branch s).visit (noting f) state =
          ((branch s).toList.foldl (attend f) state, false))
    (hrows : ∀ s ∈ ss, ∀ m ∈ (branch s).toList, base ++ [s] <+: m.location.row)
    {state : σ × List (Match × Bool)}
    (hstate : ∀ s ∈ ss, ∀ row, base ++ [s] <+: row → ¬ Stopped state.2 row) :
    visitAll (noting f) state (ss.map branch) =
      (ss.flatMap fun s => (branch s).toList).foldl (attend f) state := by
  induction ss generalizing state with
  | nil => rfl
  | cons s ss ih =>
    obtain ⟨hnot, hnodup⟩ := List.nodup_cons.mp hnodup
    rw [List.map_cons, visitAll, hvisit s List.mem_cons_self state (hstate s List.mem_cons_self),
      List.flatMap_cons, List.foldl_append]
    apply ih hnodup (fun t ht => hvisit t (List.mem_cons_of_mem s ht))
      fun t ht => hrows t (List.mem_cons_of_mem s ht)
    rintro t ht row hpre ⟨e, he, hstop, hrow⟩
    by_cases hmem : e.1 ∈ (branch s).toList
    · have hbranch := hrows s List.mem_cons_self e.1 hmem
      rw [hrow] at hbranch
      have hlength : (base ++ [s]).length = (base ++ [t]).length := by simp
      have hwithin := List.prefix_of_prefix_length_le hbranch hpre (Nat.le_of_eq hlength)
      have hsame := hwithin.eq_of_length hlength
      have hst : s = t := by simpa using hsame
      exact hnot (hst ▸ ht)
    · have hearly := (mem_foldl_attend hmem).mp he
      exact hstate t (List.mem_cons_of_mem s ht) row hpre ⟨e, hearly, hstop, hrow⟩

theorem fromSource_of_keys {p : Path} (hp : Accessor.each ∉ p) (source : Source)
    (segment : Option Segment) (base : Location) :
    fromSource source segment base p = one (source.matchAt segment base p.fill) := by
  induction p generalizing source segment base with
  | nil =>
    rw [fromSource, Path.fill, Source.matchAt, List.append_nil]
    rfl
  | cons a rest ih =>
    rw [List.mem_cons, not_or] at hp
    cases a with
    | key name => rw [fromSource_key, ih hp.2, Path.fill, Source.matchAt_cons]
    | each => exact absurd rfl hp.1

/-- Below a marker, a visitor never stops more than the row that it is in. -/
theorem visit_fromSource_of_each {p : Path} (hp : Accessor.each ∈ p) (source : Source)
    (segment : Option Segment) (base : Location) {state : σ × List (Match × Bool)}
    (hstate : ∀ row, base <+: row → ¬ Stopped state.2 row) :
    (fromSource source segment base p).visit (noting f) state =
      ((fromSource source segment base p).toList.foldl (attend f) state, false) := by
  induction p generalizing source segment base state with
  | nil => simp at hp
  | cons a rest ih =>
    have hbelow : ∀ s row, base ++ [s] <+: row → ¬ Stopped state.2 row :=
      fun s row hpre => hstate row ((List.prefix_append base [s]).trans hpre)
    cases a with
    | key name =>
      rw [fromSource_key]
      exact ih (by simpa using hp) _ _ _ (hbelow _)
    | each =>
      rw [fromSource_each, visit, toList, toListAll_eq, List.flatMap_map]
      refine congrArg (·, false) ?_
      by_cases hrest : Accessor.each ∈ rest
      · refine visitAll_apart (Accessor.nodup_taken _ _ _) (fun s _ state hs => ih hrest _ _ _ hs)
          (fun s _ m hm => ?_) fun s _ => hbelow s
        rw [toList_fromSource] at hm
        obtain ⟨l, hl, rfl⟩ := List.mem_map.mp hm
        exact (Path.hasShape_of_mem_ways hl).prefix_row hrest (base ++ [s])
      · -- Without a further marker each element has one match, and all of them are in one row.
        let shown (s : Segment) : Match :=
          (source.child s).matchAt (some s) (base ++ [s]) (Path.fill rest)
        have hone : ∀ s, fromSource (source.child s) (some s) (base ++ [s]) rest = one (shown s) :=
          fun s => fromSource_of_keys hrest _ _ _
        have hmap : ∀ ss : List Segment,
            (ss.map fun s => one (shown s)) = (ss.map shown).map one :=
          fun ss => List.map_map.symm
        simp only [hone, toList, ← List.map_eq_flatMap]
        rw [hmap]
        refine visitAll_row (fun m hm => ?_) (hstate base List.prefix_rfl)
        obtain ⟨s, hs, rfl⟩ := List.mem_map.mp hm
        obtain ⟨i, rfl⟩ : ∃ i, s = .index i := by
          rcases Accessor.mem_taken.mp hs with hgoes | ⟨-, rfl, -⟩
          · exact hgoes.1
          · exact ⟨_, rfl⟩
        have hlocation : (shown (.index i)).location = base ++ .index i :: Path.fill rest :=
          List.append_assoc _ _ _
        rw [hlocation]
        exact Location.row_append_index base i
          (Location.HasShape.forall_isKey (Path.hasShape_fill rest) hrest)

/-- A visitor that has asked to stop nowhere is shown the matches of a path one after the other,
those of a row in which it stops left out. -/
theorem visit_fromSource_noting (source : Source) (segment : Option Segment) (base : Location)
    (p : Path) (s : σ) :
    ((fromSource source segment base p).visit (noting f) (s, [])).1 =
      (fromSource source segment base p).toList.foldl (attend f) (s, []) := by
  have hnone : ∀ row, ¬ Stopped [] row := by simp [Stopped]
  by_cases hp : Accessor.each ∈ p
  · rw [visit_fromSource_of_each hp _ _ _ fun row _ => hnone row]
  · rw [fromSource_of_keys hp, visit, toList, List.foldl_cons, List.foldl_nil, attend,
      if_neg (hnone _)]

theorem visit_ofPath_noting (p : Path) (data : Value) (s : σ) :
    ((ofPath p data).visit (noting f) (s, [])).1 =
      (ofPath p data).toList.foldl (attend f) (s, []) := by
  rcases p with _ | ⟨name | _, rest⟩ <;> exact visit_fromSource_noting _ _ _ _ s

/-- A visitor that asks to stop ends the innermost sequence and nothing else. What it is shown are
some of the matches, in order, and a match is left out just where it asked to stop at an earlier one
whose location is the same up to the last index. -/
theorem answers_stop_rows (p : Path) (data : Value) {σ : Type} (f : σ → Match → σ × Bool) (s : σ) :
    let ms := ofPath p data
    let seen := ms.answers f s
    (ms.visit f s).1 = (seen.map Prod.fst).foldl (fun s m => (f s m).1) s ∧
      (seen.map Prod.fst).Sublist ms.visits ∧
      ∀ front m back, ms.visits = front ++ m :: back →
        (m ∉ seen.map Prod.fst ↔
          ∃ b ∈ front, (b, true) ∈ seen ∧ b.location.row = m.location.row) := by
  intro ms seen
  have hrun := visit_ofPath_noting (f := f) p data s
  have hseen : seen = (ms.toList.foldl (attend f) (s, [])).2 := congrArg Prod.snd hrun
  have hnodup : ms.toList.Nodup := by
    refine List.Nodup.of_map Match.location ?_
    rw [map_location_ofPath]
    exact p.nodup_ways _
  obtain ⟨more, hmore, hsublist, hstate⟩ := exists_foldl_attend (f := f) ms.toList (s, [])
  have hmore : seen = more := hseen.trans hmore
  rw [visits_eq]
  refine ⟨?_, hmore ▸ hsublist, fun front m back hsplit => ?_⟩
  · rw [← visit_noting (f := f) (s, []) ms, hrun, hmore]
    exact hstate
  · rw [hseen, hsplit]
    rw [hsplit] at hnodup
    exact not_mem_foldl_attend_iff hnodup s

theorem answers_stop_rows_grid :
    let ms := ofPath [.key "grid", .each, .each]
      (.map [("grid", .sequence [.sequence [.null, .null], .sequence [.null]])])
    let seen := ms.answers (fun (count : Nat) _ => (count + 1, true)) 0
    ∃ front m back, ms.visits = front ++ m :: back ∧
      m.location = [.key "grid", .index 0, .index 1] ∧ m ∉ seen.map Prod.fst := by
  intro ms seen
  obtain ⟨first, m, last, hsplit, hlocation, hstop, hrow⟩ : ∃ first m last,
      ms.visits = [first] ++ m :: [last] ∧ m.location = [.key "grid", .index 0, .index 1] ∧
        (first, true) ∈ seen ∧ first.location.row = m.location.row :=
    ⟨_, _, _, rfl, rfl, List.mem_cons_self, rfl⟩
  obtain ⟨-, -, hskipped⟩ := answers_stop_rows [.key "grid", .each, .each]
    (.map [("grid", .sequence [.sequence [.null, .null], .sequence [.null]])])
    (fun (count : Nat) _ => (count + 1, true)) 0
  exact ⟨[first], m, [last], hsplit, hlocation,
    (hskipped _ _ _ hsplit).mpr ⟨first, List.mem_cons_self, hstop, hrow⟩⟩

end Matches
end PathRules

import Mathlib
import PathRules.Proofs.Dependencies
import PathRules.Proofs.Walks
import PathRules.Rules.Compare
/-!
Comparisons with the values at another path. A comparison leaves a sequence at the first value for
which it fails, and goes on with the sequences around it; what it says no longer changes then. Main
statement: a value is accepted just when the comparison holds with each value that the other path
finds, whatever was left out.
-/

namespace PathRules

namespace Instant

/-- The parts of an instant, the first of which counts most. -/
def parts (t : Instant) : Int ×ₗ Nat ×ₗ Nat :=
  toLex (t.day.number, toLex (t.second, t.nanosecond))

theorem isBefore_iff {t u : Instant} : t.isBefore u = true ↔ t.parts < u.parts := by
  simp [isBefore, parts, Prod.Lex.toLex_lt_toLex]

end Instant

namespace Matches

/-- Whether each match that is found has a value of which something holds. -/
def FoundAll (ms : Matches) (P : Value → Prop) : Prop :=
  ∀ m ∈ ms.visits, m.found = .found → ∃ v, m.value = some v ∧ P v

/-- Whether a visitor keeps its verdict while a condition holds; where the condition fails, its
verdict is no and it asks to stop. -/
def Demands (f : Bool → Match → Bool × Bool) (ok : Match → Bool) : Prop :=
  ∀ holds m, f holds m = if ok m then (holds, false) else (false, true)

mutual

/-- In the end the verdict is that of the condition for all matches, those left out included; and
where the visitor asks to stop, the verdict is no. -/
theorem visit_of_demands {f : Bool → Match → Bool × Bool} (ok : Match → Bool)
    (hf : Demands f ok) (holds : Bool) : ∀ ms : Matches,
      (ms.visit f holds).1 = (holds && ms.toList.all ok) ∧
        ((ms.visit f holds).2 = true → (ms.visit f holds).1 = false)
  | one m => by
    rw [visit, hf, toList]
    cases hm : ok m <;> simp [hm]
  | elements branches => by
    rw [visit, toList]
    exact ⟨visitAll_of_demands ok hf holds branches, fun h => absurd h Bool.false_ne_true⟩

theorem visitAll_of_demands {f : Bool → Match → Bool × Bool} (ok : Match → Bool)
    (hf : Demands f ok) (holds : Bool) : ∀ branches : List Matches,
      visitAll f holds branches = (holds && (toListAll branches).all ok)
  | [] => by simp [visitAll, toListAll]
  | b :: rest => by
    obtain ⟨hfirst, hstop⟩ := visit_of_demands ok hf holds b
    rw [visitAll, toListAll, List.all_append, ← Bool.and_assoc, ← hfirst]
    dsimp only
    split
    next h => rw [hstop h, Bool.false_and]
    next => exact visitAll_of_demands ok hf _ rest

end

/-- A match of a path that is found has a value. -/
theorem exists_value_of_mem_visits {p : Path} {data : Value} {m : Match}
    (hm : m ∈ (ofPath p data).visits) (hfound : m.found = .found) : ∃ v, m.value = some v := by
  rw [visits_eq] at hm
  obtain ⟨below, hshows⟩ := exists_shows_ofPath hm hfound
  exact hshows.found

end Matches

namespace Context

/-- A relative path leads to the matches of what its text denotes behind the scope of the field,
also where the field has noted the path as one that it depends on. -/
theorem related?_of_resolve {c : Context} {f : Field} (hmade : f.Made) (hfield : c.field = f.info)
    {relative : String} {p : Path} (hp : Path.ofString (c.resolve relative) = .ok p) :
    c.related? relative = some (Matches.ofPath p c.data) := by
  obtain ⟨ds, hds, hf⟩ := Field.make_eq_ok_iff.mp hmade
  have hread : f.info.dependencies = ds := congrArg (fun g => g.info.dependencies) hf
  have hnoted : ∀ q, c.field.dependency? relative = some q → q = p := by
    intro q hq
    obtain ⟨d, hd, rfl⟩ := Option.map_eq_some_iff.mp hq
    have hmem := List.mem_of_find?_eq_some hd
    have hrelative : d.relative = relative := by simpa using List.find?_some hd
    rw [hfield, hread] at hmem
    obtain ⟨r, -, hr⟩ := (mem_mapM_iff hds).mp hmem
    obtain ⟨q, hjoined, rfl⟩ := Field.dependency_eq_ok_iff_read.mp hr
    obtain rfl : r = relative := hrelative
    rw [resolve, hfield] at hp
    exact Except.ok.inj (hjoined.symm.trans hp)
  unfold related?
  cases hdependency : c.field.dependency? relative with
  | none => simp [hp, Except.toOption]
  | some q => simp [hnoted q hdependency]

end Context

namespace Rules

variable {c : Context} {other : String} {p : Path}

/-- A condition that is asked of the values at another path holds if it holds for each of them. -/
theorem holdsForAll_iff (h : c.related? other = some (Matches.ofPath p c.data))
    (condition : Value → Bool) :
    holdsForAll c other condition = true ↔
      (Matches.ofPath p c.data).FoundAll fun v => condition v = true := by
  let ok (m : Match) : Bool := (foundValue? m).all condition
  rw [holdsForAll, h]
  dsimp only
  rw [(Matches.visit_of_demands ok ?visitor true _).1, Bool.true_and, List.all_eq_true,
    ← Matches.visits_eq]
  case visitor =>
    intro holds m
    cases hm : foundValue? m <;> simp [ok, hm]
  refine forall₂_congr fun m hm => ?_
  by_cases hfound : m.found = .found
  · obtain ⟨v, hv⟩ := Matches.exists_value_of_mem_visits hm hfound
    simp [ok, foundValue?, hfound, hv]
  · simp [ok, foundValue?, hfound]

theorem datesCompare_iff (h : c.related? other = some (Matches.ofPath p c.data))
    (ordered : Instant → Instant → Bool) :
    datesCompare c other ordered = true ↔
      ∃ t, instantOf? c.value = some t ∧ (Matches.ofPath p c.data).FoundAll fun v =>
        ∃ u, instantOf? v = some u ∧ ordered t u = true := by
  unfold datesCompare
  cases instantOf? c.value with
  | none => simp
  | some t => simp [holdsForAll_iff h, Option.any_eq_true]

/-- Comparisons are with all values at another path. A value is accepted as the same just when each
value that the path finds equals it, and as a date after or before just when it denotes a date and
each value that the path finds denotes one that is earlier or later. A value that denotes no date,
such as null, is found like any other and fails the comparison of dates. What is not found does not
count, so with nothing found only the value itself has to be a date. -/
theorem accepted_iff_foundAll {f : Field} (hmade : f.Made) (hfield : c.field = f.info)
    (hp : Path.ofString (c.resolve other) = .ok p) :
    let ms := Matches.ofPath p c.data
    let isSame := ((same other).check c).accepted = true
    let isAfter := ((after other).check c).accepted = true
    let isBefore := ((before other).check c).accepted = true
    (isSame ↔ ms.FoundAll fun v => (v == c.value) = true) ∧
    (isAfter ↔ ∃ t, instantOf? c.value = some t ∧
      ms.FoundAll fun v => ∃ u, instantOf? v = some u ∧ u.parts < t.parts) ∧
    (isBefore ↔ ∃ t, instantOf? c.value = some t ∧
      ms.FoundAll fun v => ∃ u, instantOf? v = some u ∧ t.parts < u.parts) ∧
    (∀ m ∈ ms.visits, m.found = .found → ∀ v, m.value = some v →
      v = .null ∨ instantOf? v = none → ¬ isAfter ∧ ¬ isBefore) ∧
    ((∀ m ∈ ms.visits, m.found ≠ .found) →
      isSame ∧ (isAfter ↔ ∃ t, instantOf? c.value = some t) ∧
        (isBefore ↔ ∃ t, instantOf? c.value = some t)) := by
  intro ms isSame isAfter isBefore
  have hrelated : c.related? other = some ms := Context.related?_of_resolve hmade hfield hp
  have hsame : isSame ↔ ms.FoundAll fun v => (v == c.value) = true :=
    holdsForAll_iff hrelated fun v => v == c.value
  have hafter : isAfter ↔ ∃ t, instantOf? c.value = some t ∧
      ms.FoundAll fun v => ∃ u, instantOf? v = some u ∧ u.parts < t.parts := by
    simp only [← Instant.isBefore_iff]
    exact datesCompare_iff hrelated fun t u => u.isBefore t
  have hbefore : isBefore ↔ ∃ t, instantOf? c.value = some t ∧
      ms.FoundAll fun v => ∃ u, instantOf? v = some u ∧ t.parts < u.parts := by
    simp only [← Instant.isBefore_iff]
    exact datesCompare_iff hrelated fun t u => t.isBefore u
  refine ⟨hsame, hafter, hbefore, fun m hm hfound v hv hnone => ?_, fun hnothing => ?_⟩
  · have hdate : instantOf? v = none := hnone.elim (fun h => h ▸ rfl) id
    have hfails : ∀ P : Instant → Prop,
        ¬ ms.FoundAll fun v => ∃ u, instantOf? v = some u ∧ P u := by
      intro P hall
      obtain ⟨w, hw, u, hu, -⟩ := hall m hm hfound
      obtain rfl : v = w := Option.some.inj (hv.symm.trans hw)
      rw [hdate] at hu
      contradiction
    rw [hafter, hbefore]
    exact ⟨fun ⟨_, _, hall⟩ => hfails _ hall, fun ⟨_, _, hall⟩ => hfails _ hall⟩
  · have hall : ∀ P : Value → Prop, ms.FoundAll P := fun P m hm hfound =>
      absurd hfound (hnothing m hm)
    rw [hsame, hafter, hbefore]
    exact ⟨hall _, by simp [hall], by simp [hall]⟩

/-- A day that closes after the end of every visit. -/
def closing : Field :=
  ⟨⟨[.key "closing"], 0, [⟨"visits[][].until", [.key "visits", .each, .each, .key "until"]⟩], false,
    false, false⟩, [after "visits[][].until"]⟩

/-- The fifth day is checked as the closing day of some rounds of visits. -/
def closingContext (rounds : List Value) : Context where
  value := .date (.midnight ⟨5⟩)
  data := .map [("visits", .sequence rounds), ("closing", .null)]
  location := [.key "closing"]
  field := closing.info
  call := { now := .midnight ⟨0⟩, extras := .empty, deadline := none, lookupTimeout := .zero }
  elapsed := .zero
  invalid := false
  required := false

/-- A visit that has no end is passed over, one whose end is null is not, though the walk has left
the first round before. -/
theorem accepted_iff_foundAll_closing :
    let ends (day : Int) : Value := .map [("until", .date (.midnight ⟨day⟩))]
    let early := closingContext [.sequence [ends 1, .map []], .sequence [ends 4]]
    let late := closingContext [.sequence [ends 9, ends 1], .sequence [.map [("until", .null)]]]
    ((after "visits[][].until").check early).accepted = true ∧
      ((after "visits[][].until").check late).accepted = false ∧
      ((before "visits[][].until").check late).accepted = false := by
  intro ends early late
  have hmade : closing.Made := by
    unfold Field.Made
    cbv
  have hp : ∀ rounds, Path.ofString ((closingContext rounds).resolve "visits[][].until") =
      .ok [.key "visits", .each, .each, .key "until"] := by
    intro rounds
    cbv
  obtain ⟨-, hafter, -, -, -⟩ := accepted_iff_foundAll (c := early) hmade rfl (hp _)
  obtain ⟨-, -, -, hnone, -⟩ := accepted_iff_foundAll (c := late) hmade rfl (hp _)
  refine ⟨hafter.mpr ⟨_, rfl, ?_⟩, ?_⟩
  · refine List.forall_mem_cons.mpr ⟨fun _ => ⟨_, rfl, _, rfl, ?_⟩,
      List.forall_mem_cons.mpr ⟨fun hfound => ?_,
        List.forall_mem_singleton.mpr fun _ => ⟨_, rfl, _, rfl, ?_⟩⟩⟩
    · exact Instant.isBefore_iff.mp (by decide)
    · contradiction
    · exact Instant.isBefore_iff.mp (by decide)
  · obtain ⟨m, hm, hfound, hvalue⟩ : ∃ m ∈ (Matches.ofPath
        [.key "visits", .each, .each, .key "until"] late.data).visits,
        m.found = .found ∧ m.value = some .null :=
      ⟨_, List.mem_cons_of_mem _ (List.mem_cons_of_mem _ List.mem_cons_self), rfl, rfl⟩
    simpa using hnone m hm hfound _ hvalue (.inl rfl)

end Rules
end PathRules

import Mathlib.Data.List.Basic
import PathRules.Proofs.Places
/-!
What a walk shows. A visitor who never asks to stop sees every match, in order. Main statement: the
matches that are found are at the locations of the path's shape that exist, each once and in
ascending order of their indices, and each match shows the value there and what holds it.
-/

namespace PathRules

namespace Location

/-- The indices on the way. -/
def indices (l : Location) : List Int :=
  l.filterMap fun
    | .index i => some i
    | .key _ => none

end Location

namespace Path

/-- The locations of a path come in ascending lexicographic order of their indices. -/
theorem pairwise_indices_locations (p : Path) (o : Option Value) :
    (p.locations o).Pairwise fun l m => l.indices < m.indices := by
  induction p generalizing o with
  | nil => cases o <;> simp
  | cons a p ih =>
    cases o with
    | none => simp
    | some v =>
      rw [locations_cons, List.pairwise_flatMap]
      cases a with
      | key name =>
        refine ⟨fun s hs => ?_, List.pairwise_singleton _ _⟩
        rw [Accessor.segments, List.mem_singleton] at hs
        subst hs
        exact List.pairwise_map.mpr (ih _)
      | each =>
        cases v with
        | sequence items =>
          simp only [Accessor.segments, List.pairwise_map, List.forall_mem_map]
          constructor
          · intro i _
            refine (ih _).imp fun {l m} hlt => ?_
            exact List.cons_lt_cons_iff.mpr (Or.inr ⟨rfl, hlt⟩)
          · refine List.pairwise_lt_range.imp fun {i j} hij l _ m _ => ?_
            exact List.cons_lt_cons_iff.mpr (Or.inl (Int.ofNat_lt.mpr hij))
        | _ => simp [Accessor.segments]

end Path

/-- Whether a match that was found shows what is at a location below a source: the value there, the
node that holds it and the segment that leads from there to it. -/
structure Match.Shows (m : Match) (source : Source) (segment : Option Segment)
    (base below : Location) : Prop where
  location : m.location = base ++ below
  found : ∃ v, m.value = some v
  value : m.value = source.value?.bind fun v => v.get? below
  parent : m.parent =
    if below = [] then source.parent? else source.value?.bind fun v => v.get? below.parent
  segment : m.segment = below.getLast?.or segment

/-- What a match shows below a child it shows below the node that holds the child. -/
theorem Match.Shows.cons {m : Match} {source : Source} {v : Value} {segment : Option Segment}
    {s : Segment} {base below : Location} (hv : source.value? = some v)
    (h : m.Shows (.entry v s) (some s) (base ++ [s]) below) :
    m.Shows source segment base (s :: below) := by
  refine ⟨?_, h.found, ?_, ?_, ?_⟩
  · rw [h.location, List.append_assoc, List.singleton_append]
  · rw [h.value, hv]
    rfl
  · rw [h.parent, hv, if_neg (List.cons_ne_nil s below)]
    cases below with
    | nil => rfl
    | cons t rest => rfl
  · rw [h.segment]
    cases below with
    | nil => rfl
    | cons t rest => rw [List.getLast?_cons_cons, List.getLast?_cons]; rfl

namespace Matches

theorem mem_toList_elements {m : Match} {branches : List Matches} :
    m ∈ (elements branches).toList ↔ ∃ b ∈ branches, m ∈ b.toList := by
  rw [toList, toListAll_eq, List.mem_flatMap]

/-- Nothing is found below a source that has no value. -/
theorem not_found_of_detached {source : Source} (hnone : source.value? = none)
    {segment : Option Segment} {base : Location} {p : Path} {m : Match}
    (hm : m ∈ (fromSource source segment base p).toList) : m.found ≠ .found := by
  have hlocations := found_fromSource source segment base p
  rw [hnone, Path.locations_none, List.map_nil, found, List.map_eq_nil_iff,
    List.filter_eq_nil_iff] at hlocations
  simpa using hlocations m hm

/-- Each match that is found below a source shows what is at its location. -/
theorem exists_shows_fromSource {p : Path} {source : Source} {segment : Option Segment}
    {base : Location} {m : Match} (hm : m ∈ (fromSource source segment base p).toList)
    (hfound : m.found = .found) : ∃ below, m.Shows source segment base below := by
  induction p generalizing source segment base with
  | nil =>
    rw [fromSource, toList, List.mem_singleton] at hm
    subst hm
    obtain ⟨v, hv⟩ := source.found_eq_found_iff.mp hfound
    exact ⟨[], (List.append_nil base).symm, ⟨v, hv⟩, by simp [hv], rfl, rfl⟩
  | cons a p ih =>
    cases a with
    | key name =>
      rw [fromSource] at hm
      cases hvalue : source.value? with
      | none =>
        rw [hvalue] at hm
        exact absurd hfound (not_found_of_detached rfl hm)
      | some v =>
        simp only [hvalue] at hm
        split at hm
        · obtain ⟨below, hshows⟩ := ih hm
          exact ⟨_, hshows.cons hvalue⟩
        · exact absurd hfound (not_found_of_detached rfl hm)
    | each =>
      rw [fromSource] at hm
      dsimp only at hm
      split at hm
      · obtain ⟨b, hb, hm⟩ := mem_toList_elements.mp hm
        split at hb
        · rw [List.mem_singleton.mp hb] at hm
          exact absurd hfound (not_found_of_detached rfl hm)
        · simp at hb
      · next items _ hvalue =>
        obtain ⟨b, hb, hm⟩ := mem_toList_elements.mp hm
        obtain ⟨i, -, rfl⟩ := List.mem_map.mp hb
        obtain ⟨below, hshows⟩ := ih hm
        exact ⟨_, hshows.cons hvalue⟩
      · obtain ⟨b, hb, hm⟩ := mem_toList_elements.mp hm
        rw [List.mem_singleton.mp hb] at hm
        exact absurd hfound (not_found_of_detached rfl hm)
      · obtain ⟨b, hb, hm⟩ := mem_toList_elements.mp hm
        rw [List.mem_singleton.mp hb] at hm
        exact absurd hfound (not_found_of_detached rfl hm)

/-- Each match that is found shows what is at its location in the data. -/
theorem exists_shows_ofPath {p : Path} {data : Value} {m : Match}
    (hm : m ∈ (ofPath p data).toList) (hfound : m.found = .found) :
    ∃ below, m.Shows (.root data) none [] below := by
  rcases p with _ | ⟨name | _, rest⟩
  · exact exists_shows_fromSource hm hfound
  · obtain ⟨below, hshows⟩ := exists_shows_fromSource hm hfound
    exact ⟨_, Match.Shows.cons rfl hshows⟩
  · exact exists_shows_fromSource hm hfound

mutual

/-- A visitor who never asks to stop sees every match. -/
theorem visit_of_continue {σ : Type} {f : σ → Match → σ × Bool} (hf : ∀ s m, (f s m).2 = false)
    (state : σ) : ∀ ms : Matches,
      visit f state ms = (ms.toList.foldl (fun s m => (f s m).1) state, false)
  | one m => Prod.ext rfl (hf state m)
  | elements branches => by
    rw [visit, visitAll_of_continue hf state branches]
    rfl

/-- A visitor who never asks to stop sees every match of each branch. -/
theorem visitAll_of_continue {σ : Type} {f : σ → Match → σ × Bool}
    (hf : ∀ s m, (f s m).2 = false) (state : σ) : ∀ branches : List Matches,
      visitAll f state branches = (toListAll branches).foldl (fun s m => (f s m).1) state
  | [] => rfl
  | b :: rest => by
    rw [visitAll, visit_of_continue hf state b, toListAll, List.foldl_append]
    exact visitAll_of_continue hf _ rest

end

/-- What a visitor who never asks to stop has seen. -/
def visits (ms : Matches) : List Match :=
  (visit (fun (seen : List Match) m => (seen ++ [m], false)) [] ms).1

theorem visits_eq (ms : Matches) : ms.visits = ms.toList := by
  have happend : ∀ seen ms : List Match,
      ms.foldl (fun seen m => seen ++ [m]) seen = seen ++ ms := by
    intro seen ms
    induction ms generalizing seen with
    | nil => simp
    | cons m ms ih => rw [List.foldl_cons, ih, List.append_assoc, List.singleton_append]
  rw [visits, visit_of_continue fun _ _ => rfl]
  exact happend [] ms.toList

/-- A walk finds just what exists: a visitor who never asks to stop is shown the locations of the
path's shape that have a value, each once and in ascending order of indices. Each match shows the
value at its location, the node that holds it and the last segment; the root has neither of these
two. -/
theorem visits_found (p : Path) (data : Value) :
    let found := (ofPath p data).visits.filter fun m => m.found == .found
    (∀ {σ : Type} (f : σ → Match → σ × Bool), (∀ s m, (f s m).2 = false) → ∀ s,
      (ofPath p data).visit f s =
        ((ofPath p data).visits.foldl (fun s m => (f s m).1) s, false)) ∧
    (∀ l, l ∈ found.map Match.location ↔ l.HasShape p ∧ ∃ v, data.get? l = some v) ∧
    (found.map Match.location).Nodup ∧
    (found.Pairwise fun m n => m.location.indices < n.location.indices) ∧
    ∀ m ∈ found, m.value = data.get? m.location ∧
      m.parent = (if m.location = [] then none else data.get? m.location.parent) ∧
      m.segment = m.location.getLast? := by
  intro found
  have hlocations : found.map Match.location = p.locations (some data) := by
    have hfound := found_ofPathAt p data []
    simp only [List.nil_append, List.map_id'] at hfound
    simp only [found, visits_eq]
    exact hfound
  refine ⟨fun f hf s => ?_, fun l => ?_, ?_, ?_, fun m hm => ?_⟩
  · rw [visit_of_continue hf, visits_eq]
  · rw [hlocations]
    exact Path.mem_locations
  · rw [hlocations]
    exact p.nodup_locations _
  · rw [← List.pairwise_map (f := Match.location) (R := fun l m => l.indices < m.indices),
      hlocations]
    exact p.pairwise_indices_locations _
  · obtain ⟨hmem, hfound⟩ := List.mem_filter.mp hm
    rw [visits_eq] at hmem
    obtain ⟨below, hshows⟩ := exists_shows_ofPath hmem (by simpa using hfound)
    have hlocation : m.location = below := hshows.location
    rw [hlocation]
    exact ⟨hshows.value, hshows.parent, by rw [hshows.segment, Option.or_none]⟩

end Matches
end PathRules

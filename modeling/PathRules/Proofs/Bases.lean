import PathRules.Proofs.Ways
/-!
Walks from a base. The matches of a path from a node on are those of the path in that node, with the
base in front of their locations. Main statement: this holds for every visitor; where there is no
node at the base, there is one match, whose location lacks the first name of the path.
-/

namespace PathRules

/-- The match at its location below a base. -/
def Match.below (m : Match) (base : Location) : Match :=
  { m with location := base ++ m.location }

/-- The path behind its first name. -/
def Path.behindName : Path → Path
  | .key _ :: rest => rest
  | p => p

namespace Matches

variable {σ : Type}

theorem visitAll_congr {α : Type} {f g : σ → Match → σ × Bool} {b c : α → Matches} {as : List α}
    (h : ∀ a ∈ as, ∀ state, (b a).visit f state = (c a).visit g state) (state : σ) :
    visitAll f state (as.map b) = visitAll g state (as.map c) := by
  induction as generalizing state with
  | nil => rfl
  | cons a as ih =>
    have hrest := ih fun a' ha => h a' (List.mem_cons_of_mem a ha)
    simp only [List.map_cons, visitAll, h a List.mem_cons_self, hrest]

/-- A location in front of the one that a walk starts from goes to all of its matches. -/
theorem visit_fromSource_append (f : σ → Match → σ × Bool) (state : σ) (source : Source)
    (segment : Option Segment) (base l : Location) (p : Path) :
    (fromSource source segment (base ++ l) p).visit f state =
      (fromSource source segment l p).visit (fun state m => f state (m.below base)) state := by
  induction p generalizing state source segment l with
  | nil => rfl
  | cons a rest ih =>
    cases a with
    | key name =>
      rw [fromSource_key, fromSource_key, List.append_assoc]
      exact ih state _ _ _
    | each =>
      rw [fromSource_each, fromSource_each, visit, visit]
      refine congrArg (·, false) (visitAll_congr (fun s _ state => ?_) state)
      rw [List.append_assoc]
      exact ih state _ _ _

/-- From a node on, a walk visits what a walk in the node does. -/
theorem visit_ofPathAt {data node : Value} {base : Location} (h : data.get? base = some node)
    (p : Path) (f : σ → Match → σ × Bool) (state : σ) :
    (ofPathAt p data base).visit f state =
      (ofPath p node).visit (fun state m => f state (m.below base)) state := by
  have hroot := visit_fromSource_append f state (.root node) none base [] p
  rw [List.append_nil] at hroot
  unfold ofPathAt
  rw [h]
  rcases p with _ | ⟨name | _, rest⟩
  · exact hroot
  · exact visit_fromSource_append f state _ _ base [.key name] rest
  · exact hroot

/-- Where nothing is there to start from, a visitor sees one match. -/
theorem visit_detached (f : σ → Match → σ × Bool) (state : σ) (segment : Option Segment)
    (base : Location) (p : Path) :
    ((fromSource .detached segment base p).visit f state).1 =
      (f state (Source.detached.matchAt segment base p.fill)).1 := by
  induction p generalizing segment base with
  | nil =>
    rw [fromSource, visit, Path.fill, Source.matchAt, List.append_nil]
    rfl
  | cons a rest ih =>
    cases a with
    | key name =>
      rw [fromSource_key, Path.fill, Source.matchAt_cons]
      exact ih _ _
    | each =>
      rw [fromSource_each, Path.fill, Source.matchAt_cons, visit]
      have hbranches : visitAll f state [fromSource .detached (some .missing)
          (base ++ [.missing]) rest] =
          ((fromSource .detached (some .missing) (base ++ [.missing]) rest).visit f state).1 := by
        rw [visitAll]
        dsimp only
        split <;> rfl
      exact hbranches.trans (ih _ _)

theorem ofPathAt_of_none {data : Value} {base : Location} (h : data.get? base = none) (p : Path) :
    ofPathAt p data base = fromSource .detached none base p.behindName := by
  unfold ofPathAt
  rw [h]
  rcases p with _ | ⟨name | _, rest⟩ <;> rfl

theorem visits_ofPathAt {data node : Value} {base : Location} (h : data.get? base = some node)
    (p : Path) :
    (ofPathAt p data base).visits = (ofPath p node).visits.map fun m => m.below base := by
  rw [visits, visit_ofPathAt h, visit_of_continue fun _ _ => rfl, visits_eq]
  dsimp only
  rw [List.foldl_append_eq_append, List.nil_append, ← List.flatMap_def, ← List.map_eq_flatMap]

theorem hasShape_of_mem_visits {p : Path} {data : Value} {m : Match}
    (h : m ∈ (ofPath p data).visits) : m.location.HasShape p := by
  rw [visits_eq] at h
  have hway := List.mem_map_of_mem (f := Match.location) h
  rw [map_location_ofPath] at hway
  exact Path.hasShape_of_mem_ways hway

/-- Where there is no node at the base, a walk visits one match. -/
theorem exists_lone_visit {data : Value} {base : Location} (h : data.get? base = none)
    (p : Path) : ∃ m : Match,
      m.found = .parentNotFound ∧ m.value = none ∧ m.parent = none ∧
      m.location = base ++ p.behindName.fill ∧ (ofPathAt p data base).visits = [m] ∧
      ∀ {σ : Type} (f : σ → Match → σ × Bool) (state : σ),
        ((ofPathAt p data base).visit f state).1 = (f state m).1 := by
  have hvisit : ∀ {σ : Type} (f : σ → Match → σ × Bool) (state : σ),
      ((ofPathAt p data base).visit f state).1 =
        (f state (Source.detached.matchAt none base p.behindName.fill)).1 := by
    intro σ f state
    rw [ofPathAt_of_none h]
    exact visit_detached f state none base p.behindName
  refine ⟨_, ?_, ?_, ?_, rfl, hvisit _ _, hvisit⟩ <;>
    rw [Source.matchAt, Source.detached_descend] <;> rfl

/-- A walk from a node visits what a walk in that node does, with the base in front of the
locations. Where there is no node at the base, it visits one match, whose containers are missing;
index -1 stands for all markers, and the first name of the path is left out. So what is visited
spells the path behind the base unless the base is missing and the path starts with a name. -/
theorem visits_from_base (p : Path) (data : Value) (base : Location) :
    (∀ node, data.get? base = some node →
      (ofPathAt p data base).visits = (ofPath p node).visits.map (fun m => m.below base) ∧
      ∀ {σ : Type} (f : σ → Match → σ × Bool) (state : σ),
        (ofPathAt p data base).visit f state =
          (ofPath p node).visit (fun state m => f state (m.below base)) state) ∧
    (data.get? base = none → ∃ m : Match,
      m.found = .parentNotFound ∧ m.value = none ∧ m.parent = none ∧
      m.location = base ++ p.behindName.fill ∧ (ofPathAt p data base).visits = [m] ∧
      ∀ {σ : Type} (f : σ → Match → σ × Bool) (state : σ),
        ((ofPathAt p data base).visit f state).1 = (f state m).1) ∧
    ((∀ m ∈ (ofPathAt p data base).visits,
        ∃ l : Location, m.location = base ++ l ∧ l.HasShape p) ↔
      (∃ node, data.get? base = some node) ∨ ∀ name, p.head? ≠ some (.key name)) := by
  refine ⟨fun node hnode => ⟨visits_ofPathAt hnode p, visit_ofPathAt hnode p⟩,
    fun hnone => exists_lone_visit hnone p, ?_⟩
  cases hbase : data.get? base with
  | some node =>
    refine iff_of_true (fun m hm => ?_) (Or.inl ⟨node, rfl⟩)
    rw [visits_ofPathAt hbase] at hm
    obtain ⟨inner, hinner, rfl⟩ := List.mem_map.mp hm
    exact ⟨inner.location, rfl, hasShape_of_mem_visits hinner⟩
  | none =>
    obtain ⟨m, -, -, -, hlocation, hvisits, -⟩ := exists_lone_visit hbase p
    simp only [hvisits, List.forall_mem_singleton, hlocation, List.append_cancel_left_eq,
      exists_eq_left', reduceCtorEq, exists_false, false_or]
    have hfill := p.behindName.hasShape_fill
    constructor
    · intro hshape name hhead
      obtain ⟨rest, rfl⟩ := List.head?_eq_some_iff.mp hhead
      have hlength := hshape.length_eq.symm.trans hfill.length_eq
      simp [Path.behindName] at hlength
    · intro hname
      rcases p with _ | ⟨name | _, rest⟩
      · exact hfill
      · exact absurd rfl (hname name)
      · exact hfill

theorem visits_from_base_rows :
    let data : Value := .map [("rows", .sequence [.bool true])]
    (ofPathAt [.each, .key "seat"] data [.key "rows"]).visits =
        (ofPath [.each, .key "seat"] (.sequence [.bool true])).visits.map
          (fun m => m.below [.key "rows"]) ∧
      ∃ m, (ofPathAt [.each, .key "seat"] data [.key "lines"]).visits = [m] ∧
        m.location = [.key "lines", .missing, .key "seat"] := by
  intro data
  obtain ⟨hnode, -, -⟩ := visits_from_base [.each, .key "seat"] data [.key "rows"]
  obtain ⟨-, hnone, -⟩ := visits_from_base [.each, .key "seat"] data [.key "lines"]
  obtain ⟨m, -, -, -, hlocation, hvisits, -⟩ := hnone rfl
  exact ⟨(hnode _ rfl).1, m, hvisits, hlocation⟩

/-- Below a base that is missing, the location of a match lacks the first name of the path. -/
theorem location_of_missing_base :
    let visits := (ofPathAt [.key "x", .key "y"] (.map []) [.key "missing"]).visits
    visits.map Match.location = [[.key "missing", .key "y"]] ∧
      ¬ ∀ m ∈ visits, ∃ l : Location,
        m.location = [.key "missing"] ++ l ∧ l.HasShape [.key "x", .key "y"] := by
  intro visits
  refine ⟨rfl, fun h => ?_⟩
  obtain ⟨l, hlocation, hshape⟩ := h _ List.mem_cons_self
  have hl : [.key "y"] = l := (List.cons.inj hlocation).2
  have hlength := hshape.length_eq
  rw [← hl] at hlength
  contradiction

end Matches
end PathRules

import PathRules.Proofs.Compiled
/-!
What fields read. A dependency leads from the scope of a field to what its text denotes. Main
statements: a field has a dependency on each path that one of its validators depends on, and on no
other; in another scope, the same validators make a field again, with dependencies that lead on from
there.
-/

namespace PathRules

theorem mem_mapM_iff {α β ε : Type} {f : α → Except ε β} {as : List α} {bs : List β}
    (h : as.mapM f = .ok bs) {b : β} : b ∈ bs ↔ ∃ a ∈ as, f a = .ok b := by
  induction mapM_eq_ok_iff.mp h with
  | nil => simp
  | cons hfirst hrest ih =>
    simp [ih (mapM_eq_ok_iff.mpr hrest), hfirst, eq_comm]

theorem exists_mapM_eq_ok {α β ε : Type} {f : α → Except ε β} {as : List α}
    (h : ∀ a ∈ as, ∃ b, f a = .ok b) : ∃ bs, as.mapM f = .ok bs := by
  simp only [mapM_eq_ok_iff]
  induction as with
  | nil => exact ⟨[], .nil⟩
  | cons a rest ih =>
    obtain ⟨b, hb⟩ := h a List.mem_cons_self
    obtain ⟨bs, hrest⟩ := ih fun a' ha' => h a' (List.mem_cons_of_mem a ha')
    exact ⟨b :: bs, .cons hb hrest⟩

namespace Dependency

/-- A dependency of a field in one scope, as it is in another scope. -/
def rebase (old new : Path) (d : Dependency) : Dependency :=
  ⟨d.relative, new ++ d.absolute.drop old.length⟩

theorem rebase_append {old : Path} {d : Dependency} (h : old <+: d.absolute) (above : Path) :
    d.rebase old (above ++ old) = ⟨d.relative, above ++ d.absolute⟩ := by
  obtain ⟨rest, hrest⟩ := h
  rw [rebase, ← hrest, List.drop_left, List.append_assoc]

end Dependency

namespace Field

theorem dependency_eq_ok_iff_read {scope : Path} {relative : String} {d : Dependency} :
    dependency scope relative = .ok d ↔
      ∃ p, Path.ofString (Path.joinText scope.text relative) = .ok p ∧ d = ⟨relative, p⟩ := by
  unfold dependency
  cases hjoined : Path.ofString (Path.joinText scope.text relative) <;>
    simp [hjoined, eq_comm]

/-- A dependency leads from the scope to what its text denotes, but never to the root. -/
theorem dependency_eq_ok_iff {scope : Path} (hscope : scope.Writable) {relative : String}
    {d : Dependency} :
    dependency scope relative = .ok d ↔
      ∃ r, Path.ofStringOrRoot relative = .ok r ∧ scope ++ r ≠ [] ∧ d = ⟨relative, scope ++ r⟩ := by
  simp only [dependency_eq_ok_iff_read, Path.ofString_eq_ok_iff, Path.ofStringOrRoot_joinText_iff]
  constructor
  · rintro ⟨p, ⟨⟨p', r, hp', hr, rfl⟩, hne⟩, rfl⟩
    rw [Path.ofStringOrRoot_text hscope] at hp'
    cases hp'
    exact ⟨r, hr, hne, rfl⟩
  · rintro ⟨r, hr, hne, rfl⟩
    exact ⟨scope ++ r, ⟨⟨scope, r, Path.ofStringOrRoot_text hscope, hr, rfl⟩, hne⟩, rfl⟩

theorem dependency_rebase {old new : Path} (hold : old.Writable) (hnew : new.Writable)
    (hne : new ≠ []) {relative : String} {d : Dependency} (h : dependency old relative = .ok d) :
    dependency new relative = .ok (d.rebase old new) := by
  obtain ⟨r, hr, -, rfl⟩ := (dependency_eq_ok_iff hold).mp h
  refine (dependency_eq_ok_iff hnew).mpr ⟨r, hr, ?_, ?_⟩
  · simp [hne]
  · rw [Dependency.rebase, List.drop_left]

theorem dependencies_rebase {old new : Path} (hold : old.Writable) (hnew : new.Writable)
    (hne : new ≠ []) {validators : List Validator} {ds : List Dependency}
    (h : dependencies old validators = .ok ds) :
    dependencies new validators = .ok (ds.map (Dependency.rebase old new)) := by
  unfold dependencies at h ⊢
  rw [mapM_eq_ok_iff] at h ⊢
  rw [List.forall₂_map_right_iff]
  exact h.imp fun _ _ hd => dependency_rebase hold hnew hne hd

/-- A field is made when its dependencies are found. -/
theorem make_eq_ok_iff {p : Path} {prefixDepth : Nat} {validators : List Validator} {f : Field} :
    make p prefixDepth validators = .ok f ↔
      ∃ ds, dependencies (p.truncate prefixDepth) validators = .ok ds ∧
        f = ⟨⟨p, prefixDepth, ds, validators.any Validator.nullable,
          validators.any Validator.array, validators.any Validator.object⟩, validators⟩ := by
  unfold make
  cases dependencies (p.truncate prefixDepth) validators <;>
    simp [bind, Except.bind, pure, Except.pure, eq_comm]

/-- Whether one of the validators of a field depends on a path. -/
def DependsOn (f : Field) (p : Path) : Prop :=
  ∃ v ∈ f.validators, ∃ relative, v.dependsOn = some relative ∧
    Path.ofString (Path.joinText f.info.scope.text relative) = .ok p

/-- A field reads just the paths that its validators depend on. -/
theorem Made.reads_iff {f : Field} (h : f.Made) {p : Path} :
    f.reads p = true ↔ f.DependsOn p := by
  obtain ⟨ds, hds, hf⟩ := make_eq_ok_iff.mp h
  have hread : f.info.dependencies = ds := by rw [hf]
  have hmem : ∀ relative, relative ∈ (f.validators.filterMap Validator.dependsOn).eraseDups ↔
      ∃ v ∈ f.validators, v.dependsOn = some relative := by
    intro relative
    rw [List.mem_eraseDups, List.mem_filterMap]
  simp only [reads, hread, List.any_eq_true, beq_iff_eq, mem_mapM_iff hds, hmem]
  constructor
  · rintro ⟨d, ⟨relative, ⟨v, hv, hdepends⟩, hd⟩, rfl⟩
    obtain ⟨p, hp, rfl⟩ := dependency_eq_ok_iff_read.mp hd
    exact ⟨v, hv, relative, hdepends, hp⟩
  · rintro ⟨v, hv, relative, hdepends, hp⟩
    exact ⟨⟨relative, p⟩, ⟨relative, ⟨v, hv, hdepends⟩,
      dependency_eq_ok_iff_read.mpr ⟨p, hp, rfl⟩⟩, rfl⟩

end Field

namespace Declaration

/-- The path of the rule set that validators were declared in. -/
def scope (d : Declaration) : Path :=
  d.path.truncate d.prefixDepth

theorem scope_prefix (d : Declaration) : d.scope <+: d.path :=
  Path.truncate_prefix _ _

theorem scope_of_field {d : Declaration} {f : Field} (h : d.field = .ok f) :
    f.info.scope = d.scope := by
  obtain ⟨hpath, hdepth, -⟩ := Field.make_eq_ok h
  exact congrArg₂ Path.truncate hpath hdepth

theorem dependencies_of_field {d : Declaration} {f : Field} (h : d.field = .ok f) :
    Field.dependencies d.scope d.validators = .ok f.info.dependencies := by
  obtain ⟨ds, hds, rfl⟩ := Field.make_eq_ok_iff.mp h
  exact hds

theorem writable_scope {d : Declaration} (h : d.path.Writable) : d.scope.Writable :=
  h.of_subset d.scope_prefix.subset

/-- The dependencies of a field lead on from its scope, and can be written. -/
theorem dependency_of_field {d : Declaration} (hd : d.path.Writable) {f : Field}
    (h : d.field = .ok f) {read : Dependency} (hread : read ∈ f.info.dependencies) :
    d.scope <+: read.absolute ∧ read.absolute.Writable := by
  have hscope := writable_scope hd
  obtain ⟨relative, -, hdependency⟩ := (mem_mapM_iff (dependencies_of_field h)).mp hread
  obtain ⟨r, hr, -, rfl⟩ := (Field.dependency_eq_ok_iff hscope).mp hdependency
  exact ⟨List.prefix_append _ _, hscope.append (Path.writable_of_ofStringOrRoot hr)⟩

section Moved

variable {d e : Declaration} (hd : d.path.Writable) (he : e.path.Writable) (hroot : e.scope ≠ [])
  (hvalidators : e.validators = d.validators)
include hd he hroot hvalidators

/-- In another scope, the same validators make a field again. -/
theorem exists_field_of_scope {f : Field} (h : d.field = .ok f) : ∃ g, e.field = .ok g := by
  have hread := Field.dependencies_rebase (writable_scope hd) (writable_scope he) hroot
    (dependencies_of_field h)
  rw [← hvalidators] at hread
  exact ⟨_, Field.make_eq_ok_iff.mpr ⟨_, hread, rfl⟩⟩

/-- The dependencies of a field in another scope lead on from there. -/
theorem dependencies_eq_map_rebase {f g : Field} (hf : d.field = .ok f) (hg : e.field = .ok g) :
    g.info.dependencies = f.info.dependencies.map (Dependency.rebase d.scope e.scope) := by
  have hread := Field.dependencies_rebase (writable_scope hd) (writable_scope he) hroot
    (dependencies_of_field hf)
  rw [← hvalidators, dependencies_of_field hg] at hread
  exact Except.ok.inj hread

end Moved

end Declaration

end PathRules

import Mathlib
import PathRules.Proofs.Composition
/-!
Relocation. Main statements: a rule set composed under a path compiles to its own fields below the
path, and to the default fields of the containers of the path. Compiled rules that are written as a
rule set do so as well, but there a scope that starts with a marker ends one accessor later.
-/

namespace PathRules.CompiledRules

/-- Whether a field is what a field of a rule set becomes when the set is composed under a path. -/
structure RelocatedField (set : RuleSet) (k : String) (f g : Field) : Prop where
  path : g.path.text = Path.joinText k f.path.text
  validators : DeclaresAt set f.path → g.validators = f.validators
  scope : DeclaresAt set f.path → g.info.scope.text = Path.joinText k f.info.scope.text
  /-- A container that is not declared has its default field again. -/
  container : ¬ DeclaresAt set f.path → g.validators = [Rules.array.withId (.injected g.path)]
  dependencies : g.info.dependencies.map (fun d => (d.relative, d.absolute.text)) =
    f.info.dependencies.map fun d => (d.relative, Path.joinText k d.absolute.text)

/-- Whether compiled rules are those of a rule set below a path: its fields, each once, and the
default fields of the containers of the path. -/
structure Relocated (set : RuleSet) (k : String) (above : Path) (c moved : CompiledRules) :
    Prop where
  distinct : (moved.fields.map Field.path).Nodup
  below : ∀ f ∈ c.fields, ∃ g ∈ moved.fields, RelocatedField set k f g
  containers : ∀ q rest : Path, above = q ++ .each :: rest → ∃ g ∈ moved.fields, g.path = q ∧
    g.validators = [Rules.array.withId (.injected q)]
  only : ∀ g ∈ moved.fields, (∃ f ∈ c.fields, RelocatedField set k f g) ∨
    ∃ q rest : Path, above = q ++ .each :: rest ∧ g.path = q ∧
      g.validators = [Rules.array.withId (.injected q)]

section Relocation

variable {set : RuleSet} {k : String} {above : Path} {ds : List Declaration}

theorem relocatedField_of_declared (hk : Path.ofString k = .ok above)
    (hflatten : set.flatten = .ok ds) {d : Declaration} (hd : d ∈ ds) {f g : Field}
    (hf : d.field = .ok f) (hg : (d.under above).field = .ok g) : RelocatedField set k f g := by
  have habove := Path.writable_of_ofString hk
  have hne := (Path.ofString_eq_ok_iff.mp hk).2
  have hwritable := RuleSet.writable_of_flatten hflatten hd
  obtain ⟨hfpath, -, hfvalidators⟩ := Field.make_eq_ok hf
  obtain ⟨hgpath, -, hgvalidators⟩ := Field.make_eq_ok hg
  have hdeclared : DeclaresAt set f.path := by
    rw [declaresAt_iff hflatten, hfpath]
    exact List.mem_map_of_mem hd
  constructor
  case path =>
    rw [hgpath, hfpath]
    exact Path.text_append_of_ofString hk hwritable
  case validators => exact fun _ => hgvalidators.trans hfvalidators.symm
  case scope =>
    intro _
    rw [Declaration.scope_of_field hg, Declaration.scope_of_field hf, d.scope_under above]
    exact Path.text_append_of_ofString hk (Declaration.writable_scope hwritable)
  case container => exact fun hundeclared => absurd hdeclared hundeclared
  case dependencies =>
    have hmoved : (d.under above).path.Writable := habove.append hwritable
    have hroot : (d.under above).scope ≠ [] := by simp [d.scope_under above, hne]
    rw [Declaration.dependencies_eq_map_rebase hwritable hmoved hroot rfl hf hg, List.map_map]
    apply List.map_congr_left
    intro read hread
    obtain ⟨hleads, hreadable⟩ := Declaration.dependency_of_field hwritable hf hread
    simp only [Function.comp_apply, d.scope_under above, Dependency.rebase_append hleads,
      Path.text_append_of_ofString hk hreadable]

theorem relocatedField_of_container (hk : Path.ofString k = .ok above)
    (hflatten : set.flatten = .ok ds) {q : Path} (hq : q ∉ ds.map Declaration.path)
    (hcontainer : ∃ e ∈ ds, q ∈ e.path.containers) :
    RelocatedField set k (containerField q) (containerField (above ++ q)) := by
  obtain ⟨e, he, hmem⟩ := hcontainer
  have hwritable := (RuleSet.writable_of_flatten hflatten he).of_mem_containers hmem
  have hundeclared : ¬ DeclaresAt set q := by rwa [declaresAt_iff hflatten]
  constructor
  case path => exact Path.text_append_of_ofString hk hwritable
  case validators => exact fun hdeclared => absurd hdeclared hundeclared
  case scope => exact fun hdeclared => absurd hdeclared hundeclared
  case container => exact fun _ => rfl
  case dependencies => rfl

/-- A rule set that compiles still does so when it is composed under a path. -/
theorem exists_compile_nested {c : CompiledRules} (hset : set.isUnscoped = true)
    (hc : compile set = .ok c) (hk : Path.ofString k = .ok above) :
    ∃ moved, compile [(k, .nested set)] = .ok moved := by
  obtain ⟨ds, hflatten, hds⟩ := compile_eq_ok_iff.mp hc
  obtain ⟨hread, hne⟩ := Path.ofString_eq_ok_iff.mp hk
  apply exists_compile_map (Path.writable_of_ofString hk) hne (Declaration.path_under above)
    (fun _ => rfl) (Declaration.prefix_scope_under above)
    (RuleSet.flatten_under hread hset hflatten)
  · exact fun d hd => RuleSet.writable_of_flatten hflatten hd
  · exact (ofDeclarations_eq_ok_iff.mp hds).1
  · intro d hd
    obtain ⟨f, -, hf⟩ := exists_field_of_mem hc hflatten hd
    exact ⟨f, hf⟩

/-- Rule sets can be relocated: composed under a path, a rule set compiles to its own fields below
the path, and to the default fields of the containers of the path. -/
theorem compile_nested_of_compile {c : CompiledRules} (hset : set.isUnscoped = true)
    (hsome : ∃ text depth validators, set.Declares text depth validators)
    (hc : compile set = .ok c) (hk : Path.ofString k = .ok above) :
    ∃ moved, compile [(k, .nested set)] = .ok moved ∧ Relocated set k above c moved := by
  obtain ⟨ds, hflatten, -⟩ := compile_eq_ok_iff.mp hc
  obtain ⟨moved, hmoved⟩ := exists_compile_nested hset hc hk
  have hunder := RuleSet.flatten_under (Path.ofString_eq_ok_iff.mp hk).1 hset hflatten
  have hmem := mem_fields_iff hc hflatten
  have hmem' := mem_fields_iff hmoved hunder
  have hpath : ∀ d : Declaration, (d.under above).path = above ++ d.path :=
    Declaration.path_under above
  have hds : ds ≠ [] := by
    obtain ⟨text, depth, validators, hdeclares⟩ := hsome
    obtain ⟨d, hd, -⟩ := (RuleSet.lists_of_flatten hflatten).2 text depth validators hdeclares
    exact List.ne_nil_of_mem hd
  refine ⟨moved, hmoved, (wellFormed_of_compile hmoved).nodup, ?below, ?containers, ?only⟩
  case below =>
    intro f hf
    obtain ⟨d, hd, hfield⟩ := (hmem f).mp hf
    rcases mem_withContainers.mp hd with hd | ⟨q, hq, hcontainer, rfl⟩
    · obtain ⟨g, hg, hfield'⟩ := exists_field_of_mem hmoved hunder (List.mem_map_of_mem hd)
      exact ⟨g, hg, relocatedField_of_declared hk hflatten hd hfield hfield'⟩
    · rw [field_containerDeclaration] at hfield
      cases hfield
      exact ⟨containerField (above ++ q), (hmem' _).mpr ⟨_, (mem_withContainers_map hpath).mpr
        (Or.inr (Or.inl ⟨q, hq, hcontainer, rfl⟩)), field_containerDeclaration _⟩,
        relocatedField_of_container hk hflatten hq hcontainer⟩
  case containers =>
    intro q rest habove
    have hcontainer : q ∈ above.containers := Path.mem_containers.mpr ⟨rest, habove⟩
    exact ⟨containerField q, (hmem' _).mpr ⟨_, (mem_withContainers_map hpath).mpr
      (Or.inr (Or.inr ⟨hds, q, hcontainer, rfl⟩)), field_containerDeclaration q⟩, rfl, rfl⟩
  case only =>
    intro g hg
    obtain ⟨d', hd', hfield'⟩ := (hmem' g).mp hg
    rcases (mem_withContainers_map hpath).mp hd' with
      ⟨d, hd, rfl⟩ | ⟨q, hq, hcontainer, rfl⟩ | ⟨-, q, hcontainer, rfl⟩
    · obtain ⟨f, hf, hfield⟩ := exists_field_of_mem hc hflatten hd
      exact Or.inl ⟨f, hf, relocatedField_of_declared hk hflatten hd hfield hfield'⟩
    · rw [field_containerDeclaration] at hfield'
      cases hfield'
      exact Or.inl ⟨containerField q, (hmem _).mpr ⟨_, mem_withContainers.mpr
        (Or.inr ⟨q, hq, hcontainer, rfl⟩), field_containerDeclaration q⟩,
        relocatedField_of_container hk hflatten hq hcontainer⟩
    · rw [field_containerDeclaration] at hfield'
      cases hfield'
      obtain ⟨rest, habove⟩ := Path.mem_containers.mp hcontainer
      exact Or.inr ⟨q, rest, habove, rfl, rfl⟩

/-- Seats that end before they start are refused, wherever they are. -/
def seatTimes : RuleSet :=
  [("[]", .nested [
    ("", .rules [Rules.object]),
    ("from", .rules [Rules.before "until"]),
    ("until", .rules [Rules.after "from"])])]

theorem compile_nested_seatTimes :
    ∃ c moved, compile seatTimes = .ok c ∧
      compile [("rooms[].seats", .nested seatTimes)] = .ok moved ∧
      Relocated seatTimes "rooms[].seats" [.key "rooms", .each, .key "seats"] c moved := by
  obtain ⟨c, hc⟩ := exists_of_isOk (by decide : (compile seatTimes).isOk = true)
  have hsome : seatTimes.Declares "[]" 2 [Rules.object] :=
    .nested rfl List.mem_cons_self (.nested rfl List.mem_cons_self .rules)
  have hk : Path.ofString "rooms[].seats" = .ok [.key "rooms", .each, .key "seats"] := by decide
  obtain ⟨moved, hmoved, hrelocated⟩ := compile_nested_of_compile (by decide) ⟨_, _, _, hsome⟩ hc hk
  exact ⟨c, moved, hc, hmoved, hrelocated⟩

end Relocation

section Reexpression

variable {set : RuleSet} {k : String} {above : Path} {c : CompiledRules}

theorem flatten_nested_toRuleSet (hc : c.WellFormed) (hk : Path.ofStringOrRoot k = .ok above) :
    RuleSet.flatten [(k, .nested c.toRuleSet)] =
      .ok ((c.fields.map Field.declaration).map (Declaration.shifted above)) := by
  rw [List.map_map]
  exact (RuleSet.flatten_nested_iff hk).mpr (flattenAll_entries_below hk _ hc.writable)

/-- Compiled rules, written as a rule set, compile when they are composed under a path. -/
theorem exists_compile_nested_toRuleSet (hc : c.WellFormed) (hk : Path.ofString k = .ok above) :
    ∃ moved, compile [(k, .nested c.toRuleSet)] = .ok moved := by
  obtain ⟨hread, hne⟩ := Path.ofString_eq_ok_iff.mp hk
  have hpaths : (c.fields.map Field.declaration).map Declaration.path = c.fields.map Field.path :=
    List.map_map
  apply exists_compile_map (Path.writable_of_ofString hk) hne (Declaration.path_shifted above)
    (fun _ => rfl) (Declaration.prefix_scope_shifted hne) (flatten_nested_toRuleSet hc hread)
  · intro d hd
    obtain ⟨f, hf, rfl⟩ := List.mem_map.mp hd
    exact hc.writable f hf
  · rw [hpaths]
    exact hc.nodup
  · intro d hd
    obtain ⟨f, hf, rfl⟩ := List.mem_map.mp hd
    exact ⟨f, hc.made f hf⟩

theorem map_absolute_rebase_eq_iff {old new new' : Path} {ds : List Dependency} :
    (ds.map (Dependency.rebase old new)).map Dependency.absolute =
        (ds.map (Dependency.rebase old new')).map Dependency.absolute ↔
      ds = [] ∨ new = new' := by
  cases ds with
  | nil => simp
  | cons d ds =>
    constructor
    · intro h
      have hfirst := (List.cons.inj h).1
      exact Or.inr (List.append_cancel_right hfirst)
    · rintro (hnil | rfl)
      · contradiction
      · rfl

/-- Composed both ways, a declaration has the same dependencies where its scope is the same, or
where it has none. -/
theorem absolute_dependencies_eq_iff (habove : above.Writable) (hne : above ≠ [])
    {d : Declaration} (hd : d.path.Writable) (hdepth : d.prefixDepth = d.scope.scopeDepth)
    {f f₁ f₂ : Field} (hf : d.field = .ok f) (hf₁ : (d.under above).field = .ok f₁)
    (hf₂ : (d.shifted above).field = .ok f₂) :
    f₁.info.dependencies.map Dependency.absolute = f₂.info.dependencies.map Dependency.absolute ↔
      f.info.dependencies = [] ∨ f.info.scope.head? ≠ some .each ∨ f.info.scope = f.path := by
  have hmoved : (above ++ d.path).Writable := habove.append hd
  have hroot₁ : (d.under above).scope ≠ [] := by simp [d.scope_under above, hne]
  have hroot₂ : (d.shifted above).scope ≠ [] := by simp [d.scope_shifted hne, hne]
  rw [Declaration.dependencies_eq_map_rebase hd hmoved hroot₁ rfl hf hf₁,
    Declaration.dependencies_eq_map_rebase hd hmoved hroot₂ rfl hf hf₂,
    map_absolute_rebase_eq_iff, Declaration.scope_under_eq_scope_shifted_iff hne hdepth,
    Declaration.scope_of_field hf, (Field.make_eq_ok hf).1]

/-- Compiled rules that are written as a rule set and composed under a path keep their validators,
as the rule set itself does there. They keep what the validators read, too, except where a field
that reads something was declared in a rule set whose path starts with a marker, and goes on behind
that path: such a path has one step more than it has accessors. -/
theorem compile_nested_toRuleSet (hset : set.isUnscoped = true) (hc : compile set = .ok c)
    (hk : Path.ofString k = .ok above) :
    ∃ c₁ c₂, compile [(k, .nested set)] = .ok c₁ ∧ compile [(k, .nested c.toRuleSet)] = .ok c₂ ∧
      ∀ text depth validators, set.Declares text depth validators →
        ∃ f f₁ f₂, c.get? text = some f ∧ c₁.get? (Path.joinText k text) = some f₁ ∧
          c₂.get? (Path.joinText k text) = some f₂ ∧ f₁.validators = validators ∧
            f₂.validators = validators ∧
              (f₁.info.dependencies.map Dependency.absolute =
                  f₂.info.dependencies.map Dependency.absolute ↔
                f.info.dependencies = [] ∨ f.info.scope.head? ≠ some .each ∨
                  f.info.scope = f.path) := by
  obtain ⟨hread, hne⟩ := Path.ofString_eq_ok_iff.mp hk
  have hwell := wellFormed_of_compile hc
  obtain ⟨ds, hflatten, -⟩ := compile_eq_ok_iff.mp hc
  obtain ⟨c₁, hc₁⟩ := exists_compile_nested hset hc hk
  obtain ⟨c₂, hc₂⟩ := exists_compile_nested_toRuleSet hwell hk
  have hflatten₁ := RuleSet.flatten_under hread hset hflatten
  have hflatten₂ := flatten_nested_toRuleSet hwell hread
  refine ⟨c₁, c₂, hc₁, hc₂, ?_⟩
  intro text depth validators hdeclares
  obtain ⟨d, hd, hdtext, -, rfl⟩ :=
    (RuleSet.lists_of_flatten hflatten).2 text depth validators hdeclares
  obtain ⟨hwritable, rfl⟩ := Path.ofStringOrRoot_eq_ok_iff.mp hdtext
  have htext := Path.text_append_of_ofString hk hwritable
  obtain ⟨f, hget, hfield⟩ := exists_get?_of_mem hc hflatten hd
  obtain ⟨hfpath, hfdepth, hfvalidators⟩ := Field.make_eq_ok hfield
  have hdeclaration : f.declaration = d := by rw [Field.declaration, hfpath, hfdepth, hfvalidators]
  have hd₂ : d.shifted above ∈ (c.fields.map Field.declaration).map (Declaration.shifted above) :=
    List.mem_map_of_mem (hdeclaration ▸ List.mem_map_of_mem (List.mem_of_find?_eq_some hget))
  obtain ⟨f₁, hget₁, hfield₁⟩ := exists_get?_of_mem hc₁ hflatten₁ (List.mem_map_of_mem hd)
  obtain ⟨f₂, hget₂, hfield₂⟩ := exists_get?_of_mem hc₂ hflatten₂ hd₂
  exact ⟨f, f₁, f₂, hget, htext ▸ hget₁, htext ▸ hget₂, (Field.make_eq_ok hfield₁).2.2,
    (Field.make_eq_ok hfield₂).2.2, absolute_dependencies_eq_iff (Path.writable_of_ofString hk) hne
      hwritable (RuleSet.prefixDepth_of_flatten hset hflatten hd) hfield hfield₁ hfield₂⟩

/-- The times of seats have their validators under rooms in both ways. -/
theorem compile_nested_toRuleSet_seatTimes : ∃ c c₁ c₂, compile seatTimes = .ok c ∧
    compile [("rooms", .nested seatTimes)] = .ok c₁ ∧
      compile [("rooms", .nested c.toRuleSet)] = .ok c₂ ∧
        ∃ f₁ f₂, c₁.get? "rooms[].from" = some f₁ ∧ c₂.get? "rooms[].from" = some f₂ ∧
          f₁.validators = [Rules.before "until"] ∧ f₂.validators = [Rules.before "until"] := by
  obtain ⟨c, hc⟩ := exists_of_isOk (by decide : (compile seatTimes).isOk = true)
  have hk : Path.ofString "rooms" = .ok [.key "rooms"] := by decide
  have hdeclares : seatTimes.Declares "[].from" 2 [Rules.before "until"] :=
    .nested rfl List.mem_cons_self (.nested rfl (List.mem_cons_of_mem _ List.mem_cons_self) .rules)
  obtain ⟨c₁, c₂, hc₁, hc₂, hall⟩ := compile_nested_toRuleSet (by decide) hc hk
  obtain ⟨f, f₁, f₂, -, hf₁, hf₂, hvalidators₁, hvalidators₂, -⟩ := hall _ _ _ hdeclares
  have htext : Path.joinText "rooms" "[].from" = "rooms[].from" := by decide
  rw [htext] at hf₁ hf₂
  exact ⟨c, c₁, c₂, hc, hc₁, hc₂, f₁, f₂, hf₁, hf₂, hvalidators₁, hvalidators₂⟩

/-- The paths that the field at a path reads. -/
def readPaths (c : CompiledRules) (text : String) : Option (List Path) :=
  (c.get? text).map fun f => f.info.dependencies.map Dependency.absolute

/-- The times that are compiled before they are composed do not read the same key: what should be a
key beside the start is taken for one of the start itself. -/
theorem readPaths_nested_toRuleSet_seatTimes : ∃ c c₁ c₂, compile seatTimes = .ok c ∧
    compile [("rooms", .nested seatTimes)] = .ok c₁ ∧
      compile [("rooms", .nested c.toRuleSet)] = .ok c₂ ∧
        seatTimes.Declares "[].from" 2 [Rules.before "until"] ∧
          c₁.readPaths "rooms[].from" = some [[.key "rooms", .each, .key "until"]] ∧
            c₂.readPaths "rooms[].from" =
              some [[.key "rooms", .each, .key "from", .key "until"]] := by
  obtain ⟨c, hc⟩ := exists_of_isOk (by decide : (compile seatTimes).isOk = true)
  obtain ⟨c₁, hc₁⟩ :=
    exists_of_isOk (by decide : (compile [("rooms", .nested seatTimes)]).isOk = true)
  have hread : (compile [("rooms", .nested c.toRuleSet)]).toOption.map
      (fun c => c.readPaths "rooms[].from") =
        some (some [[.key "rooms", .each, .key "from", .key "until"]]) :=
    eq_of_compile hc (fun c => (compile [("rooms", .nested c.toRuleSet)]).toOption.map
      fun c => c.readPaths "rooms[].from") (by cbv)
  cases hc₂ : compile [("rooms", .nested c.toRuleSet)] with
  | error e =>
    rw [hc₂] at hread
    contradiction
  | ok c₂ =>
    rw [hc₂] at hread
    refine ⟨c, c₁, c₂, hc, hc₁, hc₂, ?_, ?_, Option.some.inj hread⟩
    · exact .nested rfl List.mem_cons_self
        (.nested rfl (List.mem_cons_of_mem _ List.mem_cons_self) .rules)
    · exact eq_of_compile hc₁ (fun c => c.readPaths "rooms[].from") (by cbv)

end Reexpression

end PathRules.CompiledRules

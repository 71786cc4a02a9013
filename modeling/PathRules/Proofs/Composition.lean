import PathRules.Proofs.Dependencies
/-!
Composition. A rule set that is built from validators and composed rule sets can be composed under
a path as a whole. Main statements: composed under a path, it declares what it declares, below the
path and with its scopes moved along; declarations below a path have their own containers, and those
of the path; declarations that compile still do so below a path.
-/

namespace PathRules

namespace RuleSet

mutual

/-- Whether an entry is built from validators and composed rule sets alone. -/
def entryUnscoped : RuleEntry → Bool
  | .rules _ => true
  | .scoped _ _ => false
  | .nested entries => allUnscoped entries

/-- Whether all entries are built from validators and composed rule sets alone. -/
def allUnscoped : List (String × RuleEntry) → Bool
  | [] => true
  | (_, entry) :: rest => entryUnscoped entry && allUnscoped rest

end

/-- Whether no entry of a rule set, or of one composed into it, keeps a scope of its own. -/
def isUnscoped (set : RuleSet) : Bool :=
  allUnscoped set

end RuleSet

namespace Declaration

/-- A declaration in a rule set that is composed under a path. -/
def under (above : Path) (d : Declaration) : Declaration :=
  ⟨above ++ d.path, (above ++ d.scope).scopeDepth, d.validators⟩

/-- A declaration that keeps its number of steps, in a rule set composed under a path. -/
def shifted (above : Path) (d : Declaration) : Declaration :=
  ⟨above ++ d.path, above.scopeDepth + d.prefixDepth, d.validators⟩

@[simp]
theorem path_under (above : Path) (d : Declaration) : (d.under above).path = above ++ d.path :=
  rfl

@[simp]
theorem path_shifted (above : Path) (d : Declaration) : (d.shifted above).path = above ++ d.path :=
  rfl

theorem scope_under (above : Path) (d : Declaration) :
    (d.under above).scope = above ++ d.scope := by
  obtain ⟨rest, hrest⟩ := d.scope_prefix
  have hpath : (d.under above).path = (above ++ d.scope) ++ rest := by
    rw [List.append_assoc, hrest]
    rfl
  rw [scope, hpath]
  exact Path.truncate_scopeDepth _ _

theorem prefix_scope_under (above : Path) (d : Declaration) : above <+: (d.under above).scope := by
  rw [scope_under]
  exact List.prefix_append _ _

theorem scope_shifted {above : Path} (habove : above ≠ []) (d : Declaration) :
    (d.shifted above).scope = above ++ d.path.take d.prefixDepth := by
  have htruncate := Path.truncate_append habove d.path d.prefixDepth
  rwa [← Path.scopeDepth_of_ne_nil habove] at htruncate

theorem prefix_scope_shifted {above : Path} (habove : above ≠ []) (d : Declaration) :
    above <+: (d.shifted above).scope := by
  rw [scope_shifted habove]
  exact List.prefix_append _ _

/-- Both ways of counting agree on a scope, unless it starts with a marker and there is more behind
it. -/
theorem scope_under_eq_scope_shifted_iff {above : Path} (habove : above ≠ []) {d : Declaration}
    (hdepth : d.prefixDepth = d.scope.scopeDepth) :
    (d.under above).scope = (d.shifted above).scope ↔
      d.scope.head? ≠ some .each ∨ d.scope = d.path := by
  rw [scope_under, scope_shifted habove, List.append_cancel_left_eq, eq_comm, hdepth,
    Path.take_scopeDepth_eq_iff d.scope_prefix]

end Declaration

namespace RuleSet

theorem scopeDepth_of_read {text : String} {p : Path} (h : Path.ofStringOrRoot text = .ok p) :
    (if text.isEmpty then 0 else p.depth) = p.scopeDepth := by
  obtain ⟨hp, rfl⟩ := Path.ofStringOrRoot_eq_ok_iff.mp h
  by_cases hroot : p = []
  · subst hroot
    rfl
  · rw [Path.scopeDepth_of_ne_nil hroot, if_neg]
    rw [String.isEmpty_iff]
    exact Path.text_ne_empty hp hroot

theorem flattenEntry_nested_iff {path : String} {prefixDepth : Nat}
    {entries : List (String × RuleEntry)} {ds : List Declaration} :
    flattenEntry path prefixDepth (.nested entries) = .ok ds ↔
      ∃ p, Path.ofStringOrRoot path = .ok p ∧ flattenAll path p.scopeDepth entries = .ok ds := by
  rw [flattenEntry_nested]
  apply exists_congr
  intro p
  apply and_congr_right
  intro hread
  rw [scopeDepth_of_read hread]

theorem flattenRules_under {k : String} {above : Path} (hk : Path.ofStringOrRoot k = .ok above)
    {path : String} {scope : Path} {validators : List Validator}
    {ds : List Declaration} (hscope : ∀ p, Path.ofStringOrRoot path = .ok p → scope <+: p)
    (h : flattenEntry path scope.scopeDepth (.rules validators) = .ok ds) :
    flattenEntry (Path.joinText k path) (above ++ scope).scopeDepth (.rules validators) =
      .ok (ds.map (Declaration.under above)) := by
  rw [flattenEntry] at h ⊢
  cases hdeclare : declare path scope.scopeDepth validators with
  | error e => simp [hdeclare, Except.map] at h
  | ok d =>
    rw [hdeclare] at h
    cases h
    obtain ⟨p, hread, rfl⟩ := declare_eq_ok_iff.mp hdeclare
    obtain ⟨rest, rfl⟩ := hscope p hread
    have hmoved : declare (Path.joinText k path) (above ++ scope).scopeDepth validators =
        .ok (Declaration.under above ⟨scope ++ rest, scope.scopeDepth, validators⟩) := by
      refine declare_eq_ok_iff.mpr ⟨above ++ (scope ++ rest),
        Path.ofStringOrRoot_joinText_iff.mpr ⟨above, scope ++ rest, hk, hread, rfl⟩, ?_⟩
      rw [Declaration.under, Declaration.scope, Path.truncate_scopeDepth]
    rw [hmoved]
    rfl

mutual

/-- Below another path, an entry declares the same, with its scope moved along. -/
theorem flattenEntry_under {k : String} {above : Path}
    (hk : Path.ofStringOrRoot k = .ok above) :
    ∀ (entry : RuleEntry) (path : String) (scope : Path) (ds : List Declaration),
      entryUnscoped entry = true → (∀ p, Path.ofStringOrRoot path = .ok p → scope <+: p) →
        flattenEntry path scope.scopeDepth entry = .ok ds →
          flattenEntry (Path.joinText k path) (above ++ scope).scopeDepth entry =
            .ok (ds.map (Declaration.under above))
  | .rules validators, path, scope, ds, _, hscope, h => flattenRules_under hk hscope h
  | .scoped own validators, path, scope, ds, hunscoped, _, _ => by
    simp [entryUnscoped] at hunscoped
  | .nested entries, path, scope, ds, hunscoped, _, h => by
    obtain ⟨p, hread, hentries⟩ := flattenEntry_nested_iff.mp h
    rw [entryUnscoped] at hunscoped
    exact flattenEntry_nested_iff.mpr ⟨above ++ p,
      Path.ofStringOrRoot_joinText_iff.mpr ⟨above, p, hk, hread, rfl⟩,
      flattenAll_under hk entries path p ds hunscoped hread hentries⟩

theorem flattenAll_under {k : String} {above : Path} (hk : Path.ofStringOrRoot k = .ok above) :
    ∀ (entries : List (String × RuleEntry)) (parent : String) (p : Path) (ds : List Declaration),
      allUnscoped entries = true → Path.ofStringOrRoot parent = .ok p →
        flattenAll parent p.scopeDepth entries = .ok ds →
          flattenAll (Path.joinText k parent) (above ++ p).scopeDepth entries =
            .ok (ds.map (Declaration.under above))
  | [], parent, p, ds, _, _, h => by
    cases h
    rfl
  | (key, entry) :: rest, parent, p, ds, hunscoped, hread, h => by
    obtain ⟨first, others, hfirst, hothers, rfl⟩ := flattenAll_cons.mp h
    rw [allUnscoped, Bool.and_eq_true] at hunscoped
    have hscope : ∀ q, Path.ofStringOrRoot (Path.joinText parent key) = .ok q → p <+: q := by
      intro q hq
      obtain ⟨p', r, hp', -, rfl⟩ := Path.ofStringOrRoot_joinText_iff.mp hq
      rw [hread] at hp'
      cases hp'
      exact List.prefix_append p r
    refine flattenAll_cons.mpr ⟨first.map (Declaration.under above),
      others.map (Declaration.under above), ?_, ?_, List.map_append⟩
    · rw [Path.joinText_assoc]
      exact flattenEntry_under hk entry (Path.joinText parent key) p first hunscoped.1 hscope hfirst
    · exact flattenAll_under hk rest parent p others hunscoped.2 hread hothers

end

theorem flatten_nested_iff {k : String} {above : Path} (hk : Path.ofStringOrRoot k = .ok above)
    {entries : List (String × RuleEntry)} {ds : List Declaration} :
    flatten [(k, .nested entries)] = .ok ds ↔
      flattenAll k above.scopeDepth entries = .ok ds := by
  rw [flatten, flattenAll_cons, Path.joinText_empty_left]
  constructor
  · rintro ⟨first, others, hfirst, hothers, rfl⟩
    obtain ⟨p, hread, hentries⟩ := flattenEntry_nested_iff.mp hfirst
    rw [hk] at hread
    cases hread
    cases hothers
    rwa [List.append_nil]
  · intro h
    exact ⟨ds, [], flattenEntry_nested_iff.mpr ⟨above, hk, h⟩, rfl, (List.append_nil ds).symm⟩

/-- Composed under a path, a rule set declares what it declares, below the path. -/
theorem flatten_under {k : String} {above : Path} (hk : Path.ofStringOrRoot k = .ok above)
    {set : RuleSet} (hset : set.isUnscoped = true) {ds : List Declaration}
    (h : set.flatten = .ok ds) :
    flatten [(k, .nested set)] = .ok (ds.map (Declaration.under above)) := by
  have hall := flattenAll_under hk set "" [] ds hset rfl h
  rw [Path.joinText_empty_right, List.append_nil] at hall
  exact (flatten_nested_iff hk).mpr hall

/-- Composed under the root, a rule set stays as it is, so each scope is counted from its path. -/
theorem prefixDepth_of_flatten {set : RuleSet} (hset : set.isUnscoped = true)
    {ds : List Declaration} (h : set.flatten = .ok ds) {d : Declaration} (hd : d ∈ ds) :
    d.prefixDepth = d.scope.scopeDepth := by
  have hall := flattenAll_under (k := "") rfl set "" [] ds hset rfl h
  have hsame : ds.map (Declaration.under []) = ds.map id := by
    rw [List.map_id]
    exact Except.ok.inj (hall.symm.trans h)
  exact (congrArg Declaration.prefixDepth (List.map_inj_left.mp hsame d hd)).symm

end RuleSet

namespace CompiledRules

/-- The default field of an undeclared container. -/
def containerField (q : Path) : Field :=
  ⟨⟨q, 0, [], false, true, false⟩, [Rules.array.withId (.injected q)]⟩

theorem field_containerDeclaration (q : Path) :
    (containerDeclaration q).field = .ok (containerField q) :=
  rfl

/-- The fields of compiled rules are those that the declarations make, with the containers. -/
theorem mem_fields_iff {set : RuleSet} {c : CompiledRules} (h : compile set = .ok c)
    {ds : List Declaration} (hflatten : set.flatten = .ok ds) (f : Field) :
    f ∈ c.fields ↔ ∃ d ∈ withContainers ds, d.field = .ok f := by
  obtain ⟨ds', hflatten', hmem⟩ := exists_declarations h
  rw [hflatten] at hflatten'
  cases hflatten'
  have hmade := (wellFormed_of_compile h).made
  constructor
  · intro hf
    exact ⟨f.declaration, (hmem _).mp ⟨f, hf, rfl⟩, hmade f hf⟩
  · rintro ⟨d, hd, hfield⟩
    obtain ⟨g, hg, rfl⟩ := (hmem d).mpr hd
    have hsame : g = f := Except.ok.inj ((hmade g hg).symm.trans hfield)
    exact hsame ▸ hg

/-- Each declaration of a rule set that compiles has made a field. -/
theorem exists_field_of_mem {set : RuleSet} {c : CompiledRules} (h : compile set = .ok c)
    {ds : List Declaration} (hflatten : set.flatten = .ok ds) {d : Declaration} (hd : d ∈ ds) :
    ∃ f ∈ c.fields, d.field = .ok f := by
  obtain ⟨ds', hflatten', hmem⟩ := exists_declarations h
  rw [hflatten] at hflatten'
  cases hflatten'
  obtain ⟨f, hf, rfl⟩ := (hmem d).mpr (mem_withContainers.mpr (Or.inl hd))
  exact ⟨f, hf, (wellFormed_of_compile h).made f hf⟩

theorem exists_get?_of_mem {set : RuleSet} {c : CompiledRules} (h : compile set = .ok c)
    {ds : List Declaration} (hflatten : set.flatten = .ok ds) {d : Declaration} (hd : d ∈ ds) :
    ∃ f, c.get? d.path.text = some f ∧ d.field = .ok f := by
  have hwell := wellFormed_of_compile h
  obtain ⟨f, hf, hfield⟩ := exists_field_of_mem h hflatten hd
  have htext := congrArg Path.text (Field.make_eq_ok hfield).1
  exact ⟨f, (get?_eq_some_iff hwell.nodup hwell.writable).mpr ⟨hf, htext⟩, hfield⟩

/-- Declarations compile when their paths are distinct and each makes a field. -/
theorem exists_compile {set : RuleSet} {ds : List Declaration} (hflatten : set.flatten = .ok ds)
    (hnodup : (ds.map Declaration.path).Nodup) (hfields : ∀ d ∈ ds, ∃ f, d.field = .ok f) :
    ∃ c, compile set = .ok c := by
  have hall : ∀ d ∈ withContainers ds, ∃ f, d.field = .ok f := by
    intro d hd
    rcases mem_withContainers.mp hd with hd | ⟨q, -, -, rfl⟩
    · exact hfields d hd
    · exact ⟨_, field_containerDeclaration q⟩
  obtain ⟨fields, hmapM⟩ := exists_mapM_eq_ok hall
  exact ⟨_, compile_eq_ok_iff.mpr ⟨ds, hflatten,
    ofDeclarations_eq_ok_iff.mpr ⟨hnodup, fields, hmapM, rfl⟩⟩⟩

/-- The containers of a path below another one: those of both. -/
theorem mem_containers_append {p q r : Path} :
    r ∈ Path.containers (p ++ q) ↔ r ∈ p.containers ∨ ∃ s ∈ q.containers, r = p ++ s := by
  simp only [Path.mem_containers]
  constructor
  · rintro ⟨rest, h⟩
    rcases List.append_eq_append_iff.mp h with ⟨s, rfl, hq⟩ | ⟨s, rfl, hrest⟩
    · exact Or.inr ⟨s, ⟨rest, hq⟩, rfl⟩
    · cases s with
      | nil =>
        rw [List.nil_append] at hrest
        exact Or.inr ⟨[], ⟨rest, hrest.symm⟩, by simp⟩
      | cons a s =>
        obtain ⟨rfl, -⟩ := List.cons.inj hrest
        exact Or.inl ⟨s, rfl⟩
  · rintro (⟨rest, rfl⟩ | ⟨s, ⟨rest, rfl⟩, rfl⟩)
    · exact ⟨rest ++ q, by simp⟩
    · exact ⟨rest, by simp⟩

section Moved

variable {above : Path} {move : Declaration → Declaration} {ds : List Declaration}

/-- The containers of declarations below a path: their own below the path, and those of the path. -/
theorem mem_withContainers_map (hpath : ∀ d, (move d).path = above ++ d.path) {d : Declaration} :
    d ∈ withContainers (ds.map move) ↔
      (∃ e ∈ ds, d = move e) ∨
        (∃ q, q ∉ ds.map Declaration.path ∧ (∃ e ∈ ds, q ∈ e.path.containers) ∧
          d = containerDeclaration (above ++ q)) ∨
            ds ≠ [] ∧ ∃ q ∈ above.containers, d = containerDeclaration q := by
  have hmem : ∀ q, q ∈ (ds.map move).map Declaration.path ↔
      ∃ p ∈ ds.map Declaration.path, above ++ p = q := by
    intro q
    simp [hpath]
  rw [mem_withContainers]
  constructor
  · rintro (hd | ⟨q, hq, ⟨e', he', hcontainer⟩, rfl⟩)
    · obtain ⟨e, he, rfl⟩ := List.mem_map.mp hd
      exact Or.inl ⟨e, he, rfl⟩
    · obtain ⟨e, he, rfl⟩ := List.mem_map.mp he'
      rw [hpath, mem_containers_append] at hcontainer
      rcases hcontainer with habove | ⟨s, hs, rfl⟩
      · exact Or.inr (Or.inr ⟨List.ne_nil_of_mem he, q, habove, rfl⟩)
      · refine Or.inr (Or.inl ⟨s, ?_, ⟨e, he, hs⟩, rfl⟩)
        intro hdeclared
        exact hq ((hmem _).mpr ⟨s, hdeclared, rfl⟩)
  · rintro (⟨e, he, rfl⟩ | ⟨q, hq, ⟨e, he, hcontainer⟩, rfl⟩ | ⟨hds, q, habove, rfl⟩)
    · exact Or.inl (List.mem_map_of_mem he)
    · refine Or.inr ⟨above ++ q, ?_, ⟨move e, List.mem_map_of_mem he, ?_⟩, rfl⟩
      · intro hdeclared
        obtain ⟨p, hp, hsame⟩ := (hmem _).mp hdeclared
        exact hq (List.append_cancel_left hsame ▸ hp)
      · rw [hpath, mem_containers_append]
        exact Or.inr ⟨q, hcontainer, rfl⟩
    · obtain ⟨e, he⟩ := List.exists_mem_of_ne_nil ds hds
      refine Or.inr ⟨q, ?_, ⟨move e, List.mem_map_of_mem he, ?_⟩, rfl⟩
      · -- A container of the path is shorter than all that is below the path.
        intro hdeclared
        obtain ⟨p, -, rfl⟩ := (hmem _).mp hdeclared
        obtain ⟨rest, hrest⟩ := Path.mem_containers.mp habove
        have hlength := congrArg List.length hrest
        simp at hlength
      · rw [hpath, mem_containers_append]
        exact Or.inl habove

/-- Declarations that compile still do so below a path. -/
theorem exists_compile_map {set : RuleSet} (habove : above.Writable) (hne : above ≠ [])
    (hpath : ∀ d, (move d).path = above ++ d.path)
    (hvalidators : ∀ d, (move d).validators = d.validators)
    (hscope : ∀ d, above <+: (move d).scope) (hflatten : set.flatten = .ok (ds.map move))
    (hwritable : ∀ d ∈ ds, d.path.Writable) (hnodup : (ds.map Declaration.path).Nodup)
    (hfields : ∀ d ∈ ds, ∃ f, d.field = .ok f) : ∃ c, compile set = .ok c := by
  apply exists_compile hflatten
  · have hpaths : (ds.map move).map Declaration.path =
        (ds.map Declaration.path).map fun p => above ++ p := by
      simp [hpath, Function.comp_def]
    rw [hpaths]
    exact hnodup.map (List.append_right_injective above)
  · intro d' hd'
    obtain ⟨d, hd, rfl⟩ := List.mem_map.mp hd'
    obtain ⟨f, hf⟩ := hfields d hd
    have hmoved : (move d).path.Writable := by
      rw [hpath]
      exact habove.append (hwritable d hd)
    have hroot : (move d).scope ≠ [] := by
      intro hroot
      exact hne (List.prefix_nil.mp (hroot ▸ hscope d))
    exact Declaration.exists_field_of_scope (hwritable d hd) hmoved hroot (hvalidators d) hf

end Moved

end CompiledRules
end PathRules

import PathRules.Proofs.Composition
/-!
Grouping. A rule set may be composed under one path and the result under another one, or at once
under both joined. Either way the declarations are the same, because texts can be joined in any
grouping and scopes are counted anew from the whole path. Main statement: both compile to the same
rules, and neither compiles where the other one does not.
-/

namespace PathRules

namespace RuleSet

/-- A rule set that is composed alone under a key declares what it declares under both paths. The
scope of the entry does not matter, for it is counted anew below. -/
theorem flattenEntry_nested_joined {path key : String} {outer inner : Nat} {set : RuleSet}
    {ds : List Declaration} :
    flattenEntry path outer (.nested [(key, .nested set)]) = .ok ds ↔
      flattenEntry (Path.joinText path key) inner (.nested set) = .ok ds := by
  simp only [flattenEntry_nested_iff, flattenAll_cons]
  constructor
  · rintro ⟨p, -, first, others, ⟨q, hread, hall⟩, hothers, rfl⟩
    cases hothers
    rw [List.append_nil]
    exact ⟨q, hread, hall⟩
  · rintro ⟨q, hread, hall⟩
    -- What can be read of a joined text can be read of its first part.
    obtain ⟨p, -, hp, -, -⟩ := Path.ofStringOrRoot_joinText_iff.mp hread
    exact ⟨p, hp, ds, [], ⟨q, hread, hall⟩, rfl, (List.append_nil ds).symm⟩

/-- Among other entries and below any path, composing in two steps is composing under the joined
path. -/
theorem flattenAll_nested_joined {parent k₁ k₂ : String} {prefixDepth : Nat}
    {before set after : RuleSet} {ds : List Declaration} :
    flattenAll parent prefixDepth (before ++ (k₁, .nested [(k₂, .nested set)]) :: after) = .ok ds ↔
      flattenAll parent prefixDepth (before ++ (Path.joinText k₁ k₂, .nested set) :: after) =
        .ok ds := by
  have hentry : ∀ {first : List Declaration},
      flattenEntry (Path.joinText parent k₁) prefixDepth (.nested [(k₂, .nested set)]) =
          .ok first ↔
        flattenEntry (Path.joinText parent (Path.joinText k₁ k₂)) prefixDepth (.nested set) =
          .ok first := by
    intro first
    rw [← Path.joinText_assoc]
    exact flattenEntry_nested_joined
  simp only [flattenAll_append, flattenAll_cons, hentry]

end RuleSet

namespace CompiledRules

/-- Grouping of composition does not matter: a rule set composed under one key and the result under
another compiles just where it compiles under the joined keys, and to the same rules. The keys may
be malformed or empty. -/
theorem compile_nested_joined (k₁ k₂ : String) (before set after : RuleSet) (c : CompiledRules) :
    compile (before ++ (k₁, .nested [(k₂, .nested set)]) :: after) = .ok c ↔
      compile (before ++ (Path.joinText k₁ k₂, .nested set) :: after) = .ok c := by
  simp only [compile_eq_ok_iff, RuleSet.flatten, RuleSet.flattenAll_nested_joined]

end CompiledRules
end PathRules

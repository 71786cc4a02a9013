import Mathlib
import PathRules.Proofs.Compiled
import PathRules.Proofs.Independence
/-!
Rule sets in another order. Where the entries of a rule set, or of one composed in it, are put in
another order, the declarations come in another order, and the compiled chains are the same ones.
Main statement: where validators are local and the chains of one number of markers are independent,
runs of rules whose declarations were reordered end alike.
-/

namespace PathRules

namespace RuleSet

/-- Whether one rule set has the entries of another one in another order, at any depth. -/
inductive Reordered : RuleSet → RuleSet → Prop
  | perm {set set' : RuleSet} (h : set.Perm set') : Reordered set set'
  | nested {entries entries' before after : RuleSet} {key : String}
      (h : Reordered entries entries') :
      Reordered (before ++ (key, .nested entries) :: after)
        (before ++ (key, .nested entries') :: after)
  | trans {set set' set'' : RuleSet} (h : Reordered set set') (h' : Reordered set' set'') :
      Reordered set set''

/-- Whether all validators of a rule set are local. -/
def Local (set : RuleSet) : Prop :=
  ∀ text depth validators, set.Declares text depth validators → ∀ v ∈ validators, v.Local

theorem local_of_rules {set : RuleSet}
    (h : ∀ e ∈ set, ∃ vs, e.2 = .rules vs ∧ ∀ v ∈ vs, v.Local) : set.Local := by
  rintro text depth validators (_ | _ | ⟨-, hmem, hentry⟩) v hv
  obtain ⟨vs, hvs, hlocal⟩ := h _ hmem
  dsimp only at hvs
  subst hvs
  cases hentry
  exact hlocal v hv

theorem exists_flattenAll_of_perm {parent : String} {prefixDepth : Nat} {set set' : RuleSet}
    (h : set.Perm set') {ds : List Declaration} (hds : flattenAll parent prefixDepth set = .ok ds) :
    ∃ ds', flattenAll parent prefixDepth set' = .ok ds' ∧ ds.Perm ds' := by
  induction h generalizing ds with
  | nil => exact ⟨ds, hds, .refl ds⟩
  | cons e _ ih =>
    obtain ⟨key, entry⟩ := e
    obtain ⟨first, others, hfirst, hothers, rfl⟩ := flattenAll_cons.mp hds
    obtain ⟨others', hothers', hperm⟩ := ih hothers
    exact ⟨first ++ others', flattenAll_cons.mpr ⟨first, others', hfirst, hothers', rfl⟩,
      hperm.append_left first⟩
  | swap e e' rest =>
    obtain ⟨key, entry⟩ := e
    obtain ⟨key', entry'⟩ := e'
    obtain ⟨first, _, hfirst, hrest, rfl⟩ := flattenAll_cons.mp hds
    obtain ⟨second, others, hsecond, hothers, rfl⟩ := flattenAll_cons.mp hrest
    refine ⟨second ++ (first ++ others), flattenAll_cons.mpr ⟨second, first ++ others, hsecond,
      flattenAll_cons.mpr ⟨first, others, hfirst, hothers, rfl⟩, rfl⟩, ?_⟩
    rw [← List.append_assoc, ← List.append_assoc]
    exact List.perm_append_comm.append_right others
  | trans _ _ ih ih' =>
    obtain ⟨middle, hmiddle, hperm⟩ := ih hds
    obtain ⟨ds', hds', hperm'⟩ := ih' hmiddle
    exact ⟨ds', hds', hperm.trans hperm'⟩

/-- Reordered entries declare the same in another order. -/
theorem Reordered.exists_flattenAll {set set' : RuleSet} (h : set.Reordered set') {parent : String}
    {prefixDepth : Nat} {ds : List Declaration}
    (hds : flattenAll parent prefixDepth set = .ok ds) :
    ∃ ds', flattenAll parent prefixDepth set' = .ok ds' ∧ ds.Perm ds' := by
  induction h generalizing parent prefixDepth ds with
  | perm h => exact exists_flattenAll_of_perm h hds
  | nested _ ih =>
    obtain ⟨first, _, hfirst, hrest, rfl⟩ := flattenAll_append.mp hds
    obtain ⟨inner, last, hinner, hlast, rfl⟩ := flattenAll_cons.mp hrest
    obtain ⟨p, hread, hall⟩ := flattenEntry_nested.mp hinner
    obtain ⟨inner', hall', hperm⟩ := ih hall
    refine ⟨first ++ (inner' ++ last), flattenAll_append.mpr ⟨first, inner' ++ last, hfirst,
      flattenAll_cons.mpr ⟨inner', last, flattenEntry_nested.mpr ⟨p, hread, hall'⟩, hlast, rfl⟩,
        rfl⟩, ?_⟩
    exact (hperm.append_right last).append_left first
  | trans _ _ ih ih' =>
    obtain ⟨middle, hmiddle, hperm⟩ := ih hds
    obtain ⟨ds', hds', hperm'⟩ := ih' hmiddle
    exact ⟨ds', hds', hperm.trans hperm'⟩

end RuleSet

theorem exists_mapM_of_perm {α β ε : Type} {f : α → Except ε β} {as as' : List α} {bs : List β}
    (h : as.Perm as') (hbs : as.mapM f = .ok bs) :
    ∃ bs', as'.mapM f = .ok bs' ∧ bs.Perm bs' := by
  obtain ⟨bs', hbs', hperm⟩ := List.perm_comp_forall₂ h.symm (mapM_eq_ok_iff.mp hbs)
  exact ⟨bs', mapM_eq_ok_iff.mpr hbs', hperm.symm⟩

namespace CompiledRules

theorem withContainers_perm {ds ds' : List Declaration} (h : ds.Perm ds')
    (hnodup : (ds.map Declaration.path).Nodup) :
    (withContainers ds).Perm (withContainers ds') := by
  have hnodup' : (ds'.map Declaration.path).Nodup := (h.map _).nodup_iff.mp hnodup
  rw [List.perm_ext_iff_of_nodup (nodup_withContainers hnodup).of_map
    (nodup_withContainers hnodup').of_map]
  intro d
  simp only [mem_withContainers, h.mem_iff, List.mem_map]

/-- Chains of the same fields are the same ones, in whatever order the fields come. -/
theorem Arranged.perm_of_perm {fields fields' : List Field} {chains chains' : List FieldChain}
    (hnodup : (fields.map Field.path).Nodup) (hperm : fields.Perm fields')
    (h : Arranged fields chains) (h' : Arranged fields' chains') : chains.Perm chains' := by
  have hnodup' : (fields'.map Field.path).Nodup := (hperm.map _).nodup_iff.mp hnodup
  have hheads : (chains.map FieldChain.head).Perm (chains'.map FieldChain.head) :=
    h.heads.trans ((hperm.filter _).trans h'.heads.symm)
  have hcomplete : ∀ d ∈ chains', d.Complete fields :=
    fun d hd => complete_congr (fun f => hperm.symm.mem_iff) (h'.complete d hd)
  rw [List.perm_ext_iff_of_nodup (h.nodup_heads hnodup).of_map (h'.nodup_heads hnodup').of_map]
  intro c
  constructor
  · intro hc
    obtain ⟨d, hd, hhead⟩ := List.mem_map.mp (hheads.subset (List.mem_map_of_mem hc))
    rwa [(h.complete c hc).unique hnodup (hcomplete d hd) hhead.symm]
  · intro hc
    obtain ⟨d, hd, hhead⟩ := List.mem_map.mp (hheads.symm.subset (List.mem_map_of_mem hc))
    rwa [(hcomplete c hc).unique hnodup (h.complete d hd) hhead.symm]

/-- Reordered rule sets compile to the same chains, though not in the same order. -/
theorem exists_compile_of_reordered {set set' : RuleSet} {c : CompiledRules}
    (hcompile : compile set = .ok c) (h : set.Reordered set') :
    ∃ c', compile set' = .ok c' ∧ c.chains.Perm c'.chains := by
  obtain ⟨ds, fields, hflatten, hnodup, hfields, hpaths, hcontainers, rfl⟩ :=
    exists_fields_of_compile hcompile
  obtain ⟨ds', hflatten', hperm⟩ := h.exists_flattenAll hflatten
  have hnodup' : (ds'.map Declaration.path).Nodup := (hperm.map _).nodup_iff.mp hnodup
  obtain ⟨fields', hfields', hsame⟩ :=
    exists_mapM_of_perm (withContainers_perm hperm hnodup) hfields
  have hcompile' : compile set' = .ok ⟨order (link fields')⟩ :=
    compile_eq_ok_iff.mpr ⟨ds', hflatten',
      ofDeclarations_eq_ok_iff.mpr ⟨hnodup', fields', hfields', rfl⟩⟩
  have hpaths' : (fields'.map Field.path).Nodup := (hsame.map _).nodup_iff.mp hpaths
  have hcontainers' : ∀ f ∈ fields', ∀ q ∈ f.path.containers, ∃ g ∈ fields', g.path = q := by
    intro f hf q hq
    obtain ⟨g, hg, hgpath⟩ := hcontainers f (hsame.symm.subset hf) q hq
    exact ⟨g, hsame.subset hg, hgpath⟩
  have hlinked : (link fields).Perm (link fields') :=
    (arranged_link hpaths (hasSequences_of_containers hcontainers)).perm_of_perm hpaths hsame
      (arranged_link hpaths' (hasSequences_of_containers hcontainers'))
  exact ⟨_, hcompile', (Schedule.order_perm _ _ _).trans
    (hlinked.trans (Schedule.order_perm _ _ _).symm)⟩

theorem pairwise_arrayDepth_of_compile {set : RuleSet} {c : CompiledRules}
    (hcompile : compile set = .ok c) :
    c.chains.Pairwise fun a b => b.arrayDepth ≤ a.arrayDepth := by
  obtain ⟨-, -, -, -, -, -, -, rfl⟩ := exists_fields_of_compile hcompile
  exact Schedule.pairwise_order_rank _ _ _

/-- The default fields of containers are local too. -/
theorem local_of_compile {set : RuleSet} {c : CompiledRules} (hcompile : compile set = .ok c)
    (hlocal : set.Local) : ∀ f ∈ c.fields, ∀ v ∈ f.validators, v.Local := by
  obtain ⟨ds, hflatten, hmem⟩ := exists_declarations hcompile
  intro f hf v hv
  rcases mem_withContainers.mp ((hmem f.declaration).mp ⟨f, hf, rfl⟩) with hd | ⟨q, -, -, hq⟩
  · obtain ⟨text, -, hdeclares⟩ := (RuleSet.lists_of_flatten hflatten).1 _ hd
    exact hlocal text _ _ hdeclares v hv
  · have hvalidators : f.validators = [Rules.array.withId (.injected q)] :=
      congrArg Declaration.validators hq
    rw [hvalidators, List.mem_singleton] at hv
    subst hv
    constructor <;> intro c data elapsed <;> rfl

/-- Whether of no two chains with the same number of markers one path leads to the other one. -/
def Independent (c : CompiledRules) : Prop :=
  ∀ a ∈ c.chains, ∀ b ∈ c.chains, a ≠ b → a.arrayDepth = b.arrayDepth → ¬ a.path <+: b.path

end CompiledRules

/-- Whether two runs end alike: both are abandoned, or they end with the same data, the same errors
and the same failures in some order. -/
structure Outcome.Alike (a b : Outcome) : Prop where
  abandoned : a.abandoned = b.abandoned
  data : a.abandoned = false → a.data = b.data
  errors : a.abandoned = false → a.errors = b.errors
  failures : a.abandoned = false → a.failures.Perm b.failures

theorem Outcome.alike_of_observed_eq {s t : RunState} (h : s.observed = t.observed) :
    (ofState s).Alike (ofState t) := by
  have habandoned : s.abandoned = t.abandoned := by
    rw [Bool.eq_iff_iff, ← RunState.observed_eq_none_iff, ← RunState.observed_eq_none_iff, h]
  have hseen : s.abandoned = false → s.seen = t.seen := by
    intro hrunning
    rw [RunState.observed_of_running hrunning,
      RunState.observed_of_running (habandoned ▸ hrunning)] at h
    exact Option.some.inj h
  refine ⟨habandoned, fun hs => congrArg Observed.data (hseen hs), fun hs => ?_, fun hs => ?_⟩
  · exact congrArg (fun o : Observed => o.errors.nonEmpty?) (hseen hs)
  · exact Multiset.coe_eq_coe.mp (congrArg Observed.failures (hseen hs))

namespace CompiledRules

open RunState

/-- The order of declarations does not matter for independent fields: where all validators are local
and of no two outermost fields with the same number of markers one path leads to the other one, the
reordered rule set compiles too, and all runs of the two end alike. -/
theorem validate_of_reordered {set set' : RuleSet} {c : CompiledRules}
    (hcompile : compile set = .ok c) (hreordered : set.Reordered set') (hlocal : set.Local)
    (hindependent : c.Independent) :
    ∃ c', compile set' = .ok c' ∧ ∀ options d, (c.validate options d).Alike
      (c'.validate options d) := by
  obtain ⟨c', hcompile', hperm⟩ := exists_compile_of_reordered hcompile hreordered
  refine ⟨c', hcompile', fun options d => Outcome.alike_of_observed_eq ?_⟩
  cases hnull : d.isNull with
  | true => simp only [runState, hnull, if_true]
  | false =>
    simp only [runState, hnull, Bool.false_eq_true, if_false]
    apply observed_eq_of_perm hperm (pairwise_arrayDepth_of_compile hcompile)
      (pairwise_arrayDepth_of_compile hcompile')
    · intro chain hchain f hf
      exact local_of_compile hcompile hlocal f (List.mem_flatMap.mpr ⟨chain, hchain, hf⟩)
    · exact hindependent

/-- A name that is required, and phone numbers. -/
def contactRules : RuleSet :=
  [("name", .rules [Rules.required, Rules.string]), ("phones[]", .rules [Rules.string])]

/-- The same with the phone numbers in front. -/
def phoneRules : RuleSet :=
  [("phones[]", .rules [Rules.string]), ("name", .rules [Rules.required, Rules.string])]

theorem validate_of_reordered_contacts : ∃ c c', compile contactRules = .ok c ∧
    compile phoneRules = .ok c' ∧ c.chains.map FieldChain.path = [[.key "name"], [.key "phones"]] ∧
      c'.chains.map FieldChain.path = [[.key "phones"], [.key "name"]] ∧
        (c.validate plainOptions (.map [("phones", .sequence [.int 5])])).Alike
          (c'.validate plainOptions (.map [("phones", .sequence [.int 5])])) := by
  obtain ⟨c, hc⟩ := exists_of_isOk (by decide : (compile contactRules).isOk = true)
  have hpaths := eq_of_compile hc (fun c => c.chains.map FieldChain.path)
    (a := [[.key "name"], [.key "phones"]]) (by cbv)
  have hlocal : contactRules.Local := by
    rintro text depth validators (_ | _ | ⟨-, hmem, hentry⟩) v hv
    have hrule : v = Rules.required ∨ v = Rules.string := by
      simp only [contactRules, List.mem_cons, Prod.mk.injEq, List.not_mem_nil, or_false] at hmem
      rcases hmem with ⟨-, rfl⟩ | ⟨-, rfl⟩ <;> cases hentry <;> simp_all
    rcases hrule with rfl | rfl <;> constructor <;> intro c data elapsed <;> rfl
  have hindependent : c.Independent := by
    obtain ⟨a, rest, hchains, ha, hrest⟩ := List.map_eq_cons_iff.mp hpaths
    obtain ⟨b, last, rfl, hb, hlast⟩ := List.map_eq_cons_iff.mp hrest
    rw [List.map_eq_nil_iff.mp hlast] at hchains
    simp [Independent, hchains, ha, hb]
  obtain ⟨c', hc', halike⟩ := validate_of_reordered hc (.perm (.swap _ _ _) :
    contactRules.Reordered phoneRules) hlocal hindependent
  exact ⟨c, c', hc, hc', hpaths, eq_of_compile hc' (fun c => c.chains.map FieldChain.path) (by cbv),
    halike _ _⟩

end CompiledRules
end PathRules

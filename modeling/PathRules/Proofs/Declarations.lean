import Mathlib.Data.List.Nodup
import PathRules.Compile
import PathRules.Proofs.PathText
/-!
What a rule set declares. The entries of a rule set are given by a relation that knows nothing of
flattening, and the containers of a path are its prefixes in front of a marker. Main statements:
flattening finds just the entries; the injected declarations are those of the undeclared containers,
each once, and afterwards every container is declared.
-/

namespace PathRules

namespace RuleSet

/-- An entry at a path, in a rule set at the first steps of it, declares validators for the path
with a text, with the number of steps that are their scope. -/
inductive EntryDeclares : String → Nat → RuleEntry → String → Nat → List Validator → Prop
  | rules {path : String} {prefixDepth : Nat} {validators : List Validator} :
      EntryDeclares path prefixDepth (.rules validators) path prefixDepth validators
  | scoped {path : String} {prefixDepth own : Nat} {validators : List Validator} :
      EntryDeclares path prefixDepth (.scoped own validators) path (prefixDepth + own) validators
  | nested {path key text : String} {prefixDepth depth : Nat} {p : Path}
      {entries : List (String × RuleEntry)} {entry : RuleEntry} {validators : List Validator}
      (hread : Path.ofStringOrRoot path = .ok p) (hmem : (key, entry) ∈ entries)
      (hentry : EntryDeclares (Path.joinText path key) (if path.isEmpty then 0 else p.depth) entry
        text depth validators) :
      EntryDeclares path prefixDepth (.nested entries) text depth validators

/-- A rule set declares validators for the path with a text, with the number of steps that are their
scope. -/
def Declares (set : RuleSet) (text : String) (prefixDepth : Nat) (validators : List Validator) :
    Prop :=
  EntryDeclares "" 0 (.nested set) text prefixDepth validators

theorem readPath_eq_ok_iff {text : String} {p : Path} :
    readPath text = .ok p ↔ Path.ofStringOrRoot text = .ok p := by
  unfold readPath
  cases Path.ofStringOrRoot text <;> simp

theorem declare_eq_ok_iff {text : String} {prefixDepth : Nat} {validators : List Validator}
    {d : Declaration} :
    declare text prefixDepth validators = .ok d ↔
      ∃ p, Path.ofStringOrRoot text = .ok p ∧ d = ⟨p, prefixDepth, validators⟩ := by
  simp only [declare, ← readPath_eq_ok_iff]
  cases readPath text <;> simp [Except.map, eq_comm]

theorem flattenEntry_nested {path : String} {prefixDepth : Nat}
    {entries : List (String × RuleEntry)} {ds : List Declaration} :
    flattenEntry path prefixDepth (.nested entries) = .ok ds ↔
      ∃ p, Path.ofStringOrRoot path = .ok p ∧
        flattenAll path (if path.isEmpty then 0 else p.depth) entries = .ok ds := by
  simp only [flattenEntry, ← readPath_eq_ok_iff]
  cases readPath path <;> simp [bind, Except.bind]

theorem flattenAll_cons {parent key : String} {prefixDepth : Nat} {entry : RuleEntry}
    {rest : List (String × RuleEntry)} {ds : List Declaration} :
    flattenAll parent prefixDepth ((key, entry) :: rest) = .ok ds ↔
      ∃ first others, flattenEntry (Path.joinText parent key) prefixDepth entry = .ok first ∧
        flattenAll parent prefixDepth rest = .ok others ∧ ds = first ++ others := by
  rw [flattenAll]
  cases flattenEntry (Path.joinText parent key) prefixDepth entry with
  | error e => simp [bind, Except.bind]
  | ok first =>
    cases flattenAll parent prefixDepth rest <;>
      simp [bind, Except.bind, pure, Except.pure, eq_comm]

theorem flattenAll_append {parent : String} {prefixDepth : Nat} {entries others : RuleSet}
    {ds : List Declaration} :
    flattenAll parent prefixDepth (entries ++ others) = .ok ds ↔
      ∃ first second, flattenAll parent prefixDepth entries = .ok first ∧
        flattenAll parent prefixDepth others = .ok second ∧ ds = first ++ second := by
  induction entries generalizing ds with
  | nil => simp [flattenAll, eq_comm]
  | cons e entries ih =>
    obtain ⟨key, entry⟩ := e
    simp only [List.cons_append, flattenAll_cons, ih]
    constructor
    · rintro ⟨first, _, hfirst, ⟨second, third, hsecond, hthird, rfl⟩, rfl⟩
      exact ⟨first ++ second, third, ⟨first, second, hfirst, hsecond, rfl⟩, hthird,
        (List.append_assoc first second third).symm⟩
    · rintro ⟨_, third, ⟨first, second, hfirst, hsecond, rfl⟩, hthird, rfl⟩
      exact ⟨first, second ++ third, hfirst, ⟨second, third, hsecond, hthird, rfl⟩,
        List.append_assoc first second third⟩

/-- Whether declarations are those of a relation between texts, scopes and validators. -/
def Lists (declares : String → Nat → List Validator → Prop) (ds : List Declaration) : Prop :=
  (∀ d ∈ ds, ∃ text, Path.ofStringOrRoot text = .ok d.path ∧
      declares text d.prefixDepth d.validators) ∧
    ∀ text depth validators, declares text depth validators →
      ∃ d ∈ ds, Path.ofStringOrRoot text = .ok d.path ∧ d.prefixDepth = depth ∧
        d.validators = validators

theorem lists_of_declare {declares : String → Nat → List Validator → Prop} {path : String}
    {depth : Nat} {validators : List Validator} {ds : List Declaration}
    (hdeclares : ∀ text n vs, declares text n vs ↔ text = path ∧ n = depth ∧ vs = validators)
    (h : (declare path depth validators).map (fun d => [d]) = .ok ds) : Lists declares ds := by
  cases hdeclare : declare path depth validators with
  | error e => simp [hdeclare, Except.map] at h
  | ok d =>
    rw [hdeclare] at h
    cases h
    obtain ⟨p, hread, rfl⟩ := declare_eq_ok_iff.mp hdeclare
    constructor
    · intro d hd
      rw [List.mem_singleton.mp hd]
      exact ⟨path, hread, (hdeclares _ _ _).mpr ⟨rfl, rfl, rfl⟩⟩
    · intro text n vs hvs
      obtain ⟨rfl, rfl, rfl⟩ := (hdeclares _ _ _).mp hvs
      exact ⟨_, List.mem_singleton_self _, hread, rfl, rfl⟩

theorem Lists.append {declares others : String → Nat → List Validator → Prop}
    {ds es : List Declaration} (hds : Lists declares ds) (hes : Lists others es) :
    Lists (fun text depth vs => declares text depth vs ∨ others text depth vs) (ds ++ es) := by
  constructor
  · intro d hd
    rcases List.mem_append.mp hd with hd | hd
    · obtain ⟨text, hread, hdeclares⟩ := hds.1 d hd
      exact ⟨text, hread, Or.inl hdeclares⟩
    · obtain ⟨text, hread, hdeclares⟩ := hes.1 d hd
      exact ⟨text, hread, Or.inr hdeclares⟩
  · rintro text depth vs (hdeclares | hdeclares)
    · obtain ⟨d, hd, hrest⟩ := hds.2 text depth vs hdeclares
      exact ⟨d, List.mem_append_left es hd, hrest⟩
    · obtain ⟨d, hd, hrest⟩ := hes.2 text depth vs hdeclares
      exact ⟨d, List.mem_append_right ds hd, hrest⟩

theorem Lists.congr {declares others : String → Nat → List Validator → Prop}
    {ds : List Declaration} (h : Lists declares ds)
    (hiff : ∀ text depth vs, declares text depth vs ↔ others text depth vs) : Lists others ds := by
  have heq : declares = others := by
    funext text depth vs
    exact propext (hiff text depth vs)
  rwa [← heq]

/-- What one of several entries below a path declares. -/
def SomeDeclares (parent : String) (prefixDepth : Nat) (entries : List (String × RuleEntry))
    (text : String) (depth : Nat) (validators : List Validator) : Prop :=
  ∃ key entry, (key, entry) ∈ entries ∧
    EntryDeclares (Path.joinText parent key) prefixDepth entry text depth validators

mutual

/-- Flattening an entry finds just what it declares. -/
theorem lists_of_flattenEntry (path : String) (prefixDepth : Nat) :
    ∀ (entry : RuleEntry) (ds : List Declaration), flattenEntry path prefixDepth entry = .ok ds →
      Lists (EntryDeclares path prefixDepth entry) ds
  | .rules validators, ds, h => by
    refine lists_of_declare (fun text n vs => ⟨?_, ?_⟩) h
    · rintro ⟨⟩
      exact ⟨rfl, rfl, rfl⟩
    · rintro ⟨rfl, rfl, rfl⟩
      exact .rules
  | .scoped own validators, ds, h => by
    refine lists_of_declare (fun text n vs => ⟨?_, ?_⟩) h
    · rintro ⟨⟩
      exact ⟨rfl, rfl, rfl⟩
    · rintro ⟨rfl, rfl, rfl⟩
      exact .scoped
  | .nested entries, ds, h => by
    obtain ⟨p, hread, hall⟩ := flattenEntry_nested.mp h
    refine (lists_of_flattenAll path _ entries ds hall).congr fun text depth vs => ⟨?_, ?_⟩
    · rintro ⟨key, entry, hmem, hentry⟩
      exact .nested hread hmem hentry
    · rintro (_ | _ | ⟨hread', hmem, hentry⟩)
      rw [hread] at hread'
      cases hread'
      exact ⟨_, _, hmem, hentry⟩

/-- Flattening entries finds just what they declare. -/
theorem lists_of_flattenAll (parent : String) (prefixDepth : Nat) :
    ∀ (entries : List (String × RuleEntry)) (ds : List Declaration),
      flattenAll parent prefixDepth entries = .ok ds →
        Lists (SomeDeclares parent prefixDepth entries) ds
  | [], ds, h => by
    cases h
    constructor
    · simp
    · rintro text depth vs ⟨key, entry, hmem, -⟩
      simp at hmem
  | (key, entry) :: rest, ds, h => by
    obtain ⟨first, others, hfirst, hothers, rfl⟩ := flattenAll_cons.mp h
    have hhead := lists_of_flattenEntry (Path.joinText parent key) prefixDepth entry first hfirst
    have htail := lists_of_flattenAll parent prefixDepth rest others hothers
    refine (hhead.append htail).congr fun text depth vs => ⟨?_, ?_⟩
    · rintro (hentry | ⟨key', entry', hmem, hentry⟩)
      · exact ⟨key, entry, List.mem_cons_self, hentry⟩
      · exact ⟨key', entry', List.mem_cons_of_mem _ hmem, hentry⟩
    · rintro ⟨key', entry', hmem, hentry⟩
      rcases List.mem_cons.mp hmem with heq | hmem
      · cases heq
        exact Or.inl hentry
      · exact Or.inr ⟨key', entry', hmem, hentry⟩

end

/-- Flattening a rule set finds just what it declares. -/
theorem lists_of_flatten {set : RuleSet} {ds : List Declaration} (h : set.flatten = .ok ds) :
    Lists set.Declares ds :=
  lists_of_flattenEntry "" 0 (.nested set) ds (flattenEntry_nested.mpr ⟨Path.root, rfl, h⟩)

theorem writable_of_flatten {set : RuleSet} {ds : List Declaration} (h : set.flatten = .ok ds)
    {d : Declaration} (hd : d ∈ ds) : d.path.Writable := by
  obtain ⟨text, hread, -⟩ := (lists_of_flatten h).1 d hd
  exact Path.writable_of_ofStringOrRoot hread

end RuleSet

namespace Path

theorem mem_containers {p q : Path} : q ∈ p.containers ↔ ∃ rest, p = q ++ .each :: rest := by
  simp only [containers, List.mem_filterMap, List.mem_range, Option.ite_none_right_eq_some,
    Option.some.injEq]
  constructor
  · rintro ⟨n, hn, heach, rfl⟩
    refine ⟨p.drop (n + 1), ?_⟩
    have hget : p[n] = .each := by simpa [List.getElem?_eq_getElem hn] using heach
    rw [← hget, ← List.drop_eq_getElem_cons hn, List.take_append_drop]
  · rintro ⟨rest, rfl⟩
    exact ⟨q.length, by simp, by simp, by simp⟩

theorem nodup_containers (p : Path) : p.containers.Nodup := by
  refine List.Nodup.filterMap (fun n m q hn hm => ?_) List.nodup_range
  simp only [Option.mem_def, Option.ite_none_right_eq_some, Option.some.injEq] at hn hm
  obtain ⟨hn, rfl⟩ := hn
  obtain ⟨hm, hlength⟩ := hm
  have hnlt := (List.getElem?_eq_some_iff.mp hn).1
  have hmlt := (List.getElem?_eq_some_iff.mp hm).1
  have heq := congrArg List.length hlength
  simp only [List.length_take] at heq
  omega

theorem containers_subset {p q : Path} (h : q ∈ p.containers) : q.containers ⊆ p.containers := by
  intro r hr
  obtain ⟨rest, rfl⟩ := mem_containers.mp h
  obtain ⟨more, rfl⟩ := mem_containers.mp hr
  exact mem_containers.mpr ⟨more ++ .each :: rest, by simp⟩

theorem Writable.of_mem_containers {p q : Path} (hp : p.Writable) (h : q ∈ p.containers) :
    q.Writable := by
  obtain ⟨rest, rfl⟩ := mem_containers.mp h
  exact hp.of_subset (List.subset_append_left _ _)

end Path

namespace CompiledRules

/-- The declaration of an undeclared container. -/
def containerDeclaration (q : Path) : Declaration :=
  ⟨q, 0, [Rules.array.withId (.injected q)]⟩

theorem mem_injected {known : List Path} {p : Path} {d : Declaration} :
    d ∈ injected known p ↔ ∃ q ∈ p.containers, q ∉ known ∧ d = containerDeclaration q := by
  simp only [injected, List.mem_map, List.mem_filter, Bool.not_eq_true', List.contains_eq_mem,
    decide_eq_false_iff_not, containerDeclaration, and_assoc]
  exact exists_congr fun q => and_congr_right fun _ => and_congr_right fun _ => eq_comm

theorem map_path_injected (known : List Path) (p : Path) :
    (injected known p).map Declaration.path =
      p.containers.filter fun q => !known.contains q := by
  rw [injected, List.map_map]
  exact List.map_id _

theorem mem_inject {known : List Path} {ds : List Declaration} {d : Declaration} :
    d ∈ inject known ds ↔
      d ∈ ds ∨ ∃ q, q ∉ known ∧ (∃ e ∈ ds, q ∈ e.path.containers) ∧ d = containerDeclaration q := by
  induction ds generalizing known with
  | nil => simp [inject]
  | cons e rest ih =>
    rw [inject, List.mem_append, List.mem_cons, ih, mem_injected]
    constructor
    · rintro (⟨q, hq, hknown, rfl⟩ | rfl | hd | ⟨q, hknown, ⟨f, hf, hq⟩, rfl⟩)
      · exact Or.inr ⟨q, hknown, ⟨e, List.mem_cons_self, hq⟩, rfl⟩
      · exact Or.inl List.mem_cons_self
      · exact Or.inl (List.mem_cons_of_mem e hd)
      · rw [List.mem_append, not_or] at hknown
        exact Or.inr ⟨q, hknown.1, ⟨f, List.mem_cons_of_mem e hf, hq⟩, rfl⟩
    · rintro (hd | ⟨q, hknown, ⟨f, hf, hq⟩, rfl⟩)
      · exact Or.inr ((List.mem_cons.mp hd).imp_right Or.inl)
      · -- A container may be injected in front of this declaration already.
        by_cases hfirst : q ∈ e.path.containers
        · exact Or.inl ⟨q, hfirst, hknown, rfl⟩
        · rcases List.mem_cons.mp hf with rfl | hf
          · exact absurd hq hfirst
          · refine Or.inr (Or.inr (Or.inr ⟨q, ?_, ⟨f, hf, hq⟩, rfl⟩))
            rw [List.mem_append, map_path_injected, List.mem_filter, not_or]
            exact ⟨hknown, fun h => hfirst h.1⟩

theorem mem_withContainers {ds : List Declaration} {d : Declaration} :
    d ∈ withContainers ds ↔
      d ∈ ds ∨ ∃ q, q ∉ ds.map Declaration.path ∧ (∃ e ∈ ds, q ∈ e.path.containers) ∧
        d = containerDeclaration q :=
  mem_inject

/-- No path is declared twice afterwards. -/
theorem nodup_inject {known : List Path} {ds : List Declaration}
    (hknown : ∀ d ∈ ds, d.path ∈ known) (hnodup : (ds.map Declaration.path).Nodup) :
    ((inject known ds).map Declaration.path).Nodup := by
  induction ds generalizing known with
  | nil => simp [inject]
  | cons e rest ih =>
    obtain ⟨hfresh, hrest⟩ := List.nodup_cons.mp hnodup
    let new := e.path.containers.filter fun q => !known.contains q
    have hnew : ∀ q ∈ new, q ∉ known := by
      intro q hq
      simpa using (List.mem_filter.mp hq).2
    have htail : ((inject (known ++ new) rest).map Declaration.path).Nodup :=
      ih (fun d hd => List.mem_append_left new (hknown d (List.mem_cons_of_mem e hd))) hrest
    have hmem : ∀ q ∈ (inject (known ++ new) rest).map Declaration.path,
        q ∈ rest.map Declaration.path ∨ q ∉ known ++ new := by
      intro q hq
      obtain ⟨d, hd, rfl⟩ := List.mem_map.mp hq
      rcases mem_inject.mp hd with hd | ⟨r, hr, -, rfl⟩
      · exact Or.inl (List.mem_map_of_mem hd)
      · exact Or.inr hr
    have hrestKnown : ∀ q ∈ rest.map Declaration.path, q ∈ known := by
      intro q hq
      obtain ⟨d, hd, rfl⟩ := List.mem_map.mp hq
      exact hknown d (List.mem_cons_of_mem e hd)
    rw [inject, map_path_injected, List.map_append, map_path_injected, List.map_cons]
    refine List.nodup_append.mpr ⟨(Path.nodup_containers _).filter _,
      List.nodup_cons.mpr ⟨?_, htail⟩, ?_⟩
    · intro hmemE
      rcases hmem _ hmemE with h | h
      · exact hfresh h
      · exact h (List.mem_append_left new (hknown e List.mem_cons_self))
    · rintro q hq r hr rfl
      rcases List.mem_cons.mp hr with rfl | hr
      · exact hnew _ hq (hknown e List.mem_cons_self)
      · rcases hmem _ hr with h | h
        · exact hnew _ hq (hrestKnown _ h)
        · exact h (List.mem_append_right known hq)

theorem nodup_withContainers {ds : List Declaration}
    (hnodup : (ds.map Declaration.path).Nodup) :
    ((withContainers ds).map Declaration.path).Nodup :=
  nodup_inject (fun _ hd => List.mem_map_of_mem hd) hnodup

/-- Every container of a declared path is declared afterwards. -/
theorem exists_mem_withContainers {ds : List Declaration} {d : Declaration}
    (hd : d ∈ withContainers ds) {q : Path} (hq : q ∈ d.path.containers) :
    ∃ e ∈ withContainers ds, e.path = q := by
  have hsource : ∃ e ∈ ds, q ∈ e.path.containers := by
    rcases mem_withContainers.mp hd with hd | ⟨r, -, ⟨e, he, hr⟩, rfl⟩
    · exact ⟨d, hd, hq⟩
    · exact ⟨e, he, Path.containers_subset hr hq⟩
  by_cases hdeclared : q ∈ ds.map Declaration.path
  · obtain ⟨e, he, rfl⟩ := List.mem_map.mp hdeclared
    exact ⟨e, mem_withContainers.mpr (Or.inl he), rfl⟩
  · exact ⟨containerDeclaration q, mem_withContainers.mpr (Or.inr ⟨q, hdeclared, hsource, rfl⟩),
      rfl⟩

/-- Declarations of which all containers are known stay as they are. -/
theorem inject_eq_self {known : List Path} {ds : List Declaration}
    (h : ∀ d ∈ ds, ∀ q ∈ d.path.containers, q ∈ known) : inject known ds = ds := by
  induction ds generalizing known with
  | nil => rfl
  | cons e rest ih =>
    have hnone : injected known e.path = [] := by
      rw [List.eq_nil_iff_forall_not_mem]
      intro d hd
      obtain ⟨q, hq, hknown, -⟩ := mem_injected.mp hd
      exact hknown (h e List.mem_cons_self q hq)
    rw [inject, hnone]
    simp only [List.map_nil, List.append_nil, List.nil_append]
    rw [ih fun d hd => h d (List.mem_cons_of_mem e hd)]

theorem duplicate?_eq_none_iff {seen : List Path} {ds : List Declaration} :
    duplicate? seen ds = none ↔
      (ds.map Declaration.path).Nodup ∧ ∀ d ∈ ds, d.path ∉ seen := by
  induction ds generalizing seen with
  | nil => simp [duplicate?]
  | cons d rest ih =>
    by_cases hseen : d.path ∈ seen
    · simp [duplicate?, hseen]
    · simp only [duplicate?, List.contains_eq_mem, hseen, decide_false, Bool.false_eq_true,
        if_false, ih, List.map_cons, List.nodup_cons, List.mem_cons, not_or, forall_eq_or_imp,
        not_false_eq_true, true_and]
      constructor
      · rintro ⟨hrest, hfresh⟩
        refine ⟨⟨fun hmem => ?_, hrest⟩, fun e he => (hfresh e he).2⟩
        obtain ⟨e, he, heq⟩ := List.mem_map.mp hmem
        exact (hfresh e he).1 heq
      · rintro ⟨⟨hfresh, hrest⟩, hnot⟩
        refine ⟨hrest, fun e he => ⟨fun heq => hfresh ?_, hnot e he⟩⟩
        rw [← heq]
        exact List.mem_map_of_mem he

end CompiledRules
end PathRules

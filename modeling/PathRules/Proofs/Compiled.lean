import PathRules.Proofs.Chains
import PathRules.Proofs.Joining
import PathRules.Rules.Compare
/-!
Compiled rules. What compiling leaves is kept by an invariant: the fields are at distinct paths that
can be written, every container of a path has its field, and the chains are complete and in the
order in which they run. Main statements: compiled rules hold just what was declared and the
containers; their own rule set compiles to them again.
-/

namespace PathRules

theorem mapM_eq_ok_iff {α β ε : Type} {f : α → Except ε β} {as : List α} {bs : List β} :
    as.mapM f = .ok bs ↔ List.Forall₂ (fun a b => f a = .ok b) as bs := by
  induction as generalizing bs with
  | nil => cases bs <;> simp [pure, Except.pure]
  | cons a as ih =>
    rw [List.mapM_cons]
    cases ha : f a with
    | error e => simp [bind, Except.bind, List.forall₂_cons_left_iff, ha]
    | ok b =>
      cases has : as.mapM f with
      | error e =>
        have hnone : ∀ bs, ¬ List.Forall₂ (fun a b => f a = .ok b) as bs := by
          intro bs hbs
          rw [ih.mpr hbs] at has
          contradiction
        simp [bind, Except.bind, List.forall₂_cons_left_iff, hnone]
      | ok rest =>
        simp only [bind, Except.bind, pure, Except.pure, Except.ok.injEq,
          List.forall₂_cons_left_iff, ha]
        constructor
        · rintro rfl
          exact ⟨b, rest, rfl, ih.mp has, rfl⟩
        · rintro ⟨b', rest', rfl, hrest, rfl⟩
          rw [ih.mpr hrest] at has
          cases has
          rfl

namespace Field

/-- The declaration that a field is made from. -/
def declaration (f : Field) : Declaration :=
  ⟨f.path, f.info.prefixDepth, f.validators⟩

/-- Whether a field is as it is made from its path, its scope and its validators. -/
def Made (f : Field) : Prop :=
  make f.path f.info.prefixDepth f.validators = .ok f

theorem make_eq_ok {p : Path} {prefixDepth : Nat} {validators : List Validator} {f : Field}
    (h : make p prefixDepth validators = .ok f) :
    f.path = p ∧ f.info.prefixDepth = prefixDepth ∧ f.validators = validators := by
  unfold make at h
  cases hdependencies : dependencies (p.truncate prefixDepth) validators with
  | error e => simp [hdependencies, bind, Except.bind] at h
  | ok read =>
    rw [hdependencies] at h
    cases h
    exact ⟨rfl, rfl, rfl⟩

theorem made_of_make {p : Path} {prefixDepth : Nat} {validators : List Validator} {f : Field}
    (h : make p prefixDepth validators = .ok f) : f.Made := by
  obtain ⟨rfl, rfl, rfl⟩ := make_eq_ok h
  exact h

end Field

/-- The field that a declaration makes. -/
def Declaration.field (d : Declaration) : Except ConfigError Field :=
  Field.make d.path d.prefixDepth d.validators

namespace CompiledRules

theorem ofDeclarations_eq_ok_iff {ds : List Declaration} {c : CompiledRules} :
    ofDeclarations ds = .ok c ↔ (ds.map Declaration.path).Nodup ∧
      ∃ fields, (withContainers ds).mapM Declaration.field = .ok fields ∧
        c = ⟨order (link fields)⟩ := by
  have hnone : duplicate? [] ds = none ↔ (ds.map Declaration.path).Nodup := by
    simp [duplicate?_eq_none_iff]
  unfold ofDeclarations
  cases hduplicate : duplicate? [] ds with
  | some p => simp [← hnone, hduplicate, bind, Except.bind]
  | none =>
    rw [← hnone]
    change ((withContainers ds).mapM Declaration.field >>= fun fields =>
      pure ⟨order (link fields)⟩) = .ok c ↔ _
    cases (withContainers ds).mapM Declaration.field with
    | error e => simp [bind, Except.bind]
    | ok fields => simp [hduplicate, bind, Except.bind, pure, Except.pure, eq_comm]

theorem compile_eq_ok_iff {set : RuleSet} {c : CompiledRules} :
    compile set = .ok c ↔ ∃ ds, set.flatten = .ok ds ∧ ofDeclarations ds = .ok c := by
  unfold compile
  cases set.flatten <;> simp [Except.bind]

/-- What made fields are like, compared with their declarations. -/
theorem fields_of_declarations {ds : List Declaration} {fields : List Field}
    (h : ds.mapM Declaration.field = .ok fields) :
    fields.map Field.path = ds.map Declaration.path ∧ (∀ f ∈ fields, f.Made) ∧
      ds = fields.map Field.declaration := by
  induction mapM_eq_ok_iff.mp h with
  | nil => simp
  | @cons d f ds fields hmake hrest ih =>
    obtain ⟨hpaths, hmade, hds⟩ := ih (mapM_eq_ok_iff.mpr hrest)
    obtain ⟨hpath, hdepth, hvalidators⟩ := Field.make_eq_ok hmake
    refine ⟨by rw [List.map_cons, List.map_cons, hpath, hpaths], ?_, ?_⟩
    · intro g hg
      rcases List.mem_cons.mp hg with rfl | hg
      · exact Field.made_of_make hmake
      · exact hmade g hg
    · rw [List.map_cons, ← hds, Field.declaration, hpath, hdepth, hvalidators]

theorem complete_congr {fields others : List Field} (h : ∀ f, f ∈ fields ↔ f ∈ others)
    {c : FieldChain} (hc : c.Complete fields) : c.Complete others :=
  ⟨fun f hf => (h f).mp (hc.subset f hf), hc.path_items, fun f hf => hc.maximal f ((h f).mpr hf)⟩

/-- What holds of compiled rules. -/
structure WellFormed (c : CompiledRules) : Prop where
  writable : ∀ f ∈ c.fields, f.path.Writable
  made : ∀ f ∈ c.fields, f.Made
  nodup : (c.fields.map Field.path).Nodup
  containers : ∀ f ∈ c.fields, ∀ q ∈ f.path.containers, ∃ g ∈ c.fields, g.path = q
  arranged : Arranged c.fields c.chains
  ordered : order c.chains = c.chains

theorem hasSequences_of_containers {fields : List Field}
    (h : ∀ f ∈ fields, ∀ q ∈ f.path.containers, ∃ g ∈ fields, g.path = q) :
    HasSequences fields :=
  fun f hf q hpath => h f hf q (Path.mem_containers.mpr ⟨[], hpath⟩)

/-- Ordering the linked chains keeps the fields, though not their order. -/
theorem mem_fields_order_link {fields : List Field} (hnodup : (fields.map Field.path).Nodup)
    (hsequences : HasSequences fields) (f : Field) :
    f ∈ (CompiledRules.mk (order (link fields))).fields ↔ f ∈ fields :=
  ((arranged_link hnodup hsequences).perm (Schedule.order_perm _ _ _)).mem_fields hnodup
    hsequences f

theorem waits_eq_true_iff {a b : FieldChain} :
    waits a b = true ↔ a.arrayDepth = b.arrayDepth ∧ a.head.reads b.path = true := by
  simp [waits]

theorem arrayDepth_eq_of_waits (a b : FieldChain) (h : waits a b = true) :
    a.arrayDepth = b.arrayDepth :=
  (waits_eq_true_iff.mp h).1

theorem order_order (chains : List FieldChain) : order (order chains) = order chains :=
  Schedule.order_order arrayDepth_eq_of_waits chains

/-- What linking and ordering leave of fields that are closed under containers. -/
theorem wellFormed_of_fields {fields : List Field}
    (hwritable : ∀ f ∈ fields, f.path.Writable) (hmade : ∀ f ∈ fields, f.Made)
    (hnodup : (fields.map Field.path).Nodup)
    (hcontainers : ∀ f ∈ fields, ∀ q ∈ f.path.containers, ∃ g ∈ fields, g.path = q) :
    WellFormed ⟨order (link fields)⟩ := by
  have hsequences := hasSequences_of_containers hcontainers
  have harranged := (arranged_link hnodup hsequences).perm
    (Schedule.order_perm waits FieldChain.arrayDepth (link fields))
  have hmem := mem_fields_order_link hnodup hsequences
  have hnodup' : ((mk (order (link fields))).fields.map Field.path).Nodup :=
    harranged.nodup_paths hnodup
  have hperm : fields.Perm (mk (order (link fields))).fields :=
    (List.perm_ext_iff_of_nodup hnodup.of_map hnodup'.of_map).mpr fun f => (hmem f).symm
  refine ⟨fun f hf => hwritable f ((hmem f).mp hf), fun f hf => hmade f ((hmem f).mp hf), hnodup',
    ?_, ?_, order_order _⟩
  · intro f hf q hq
    obtain ⟨g, hg, hpath⟩ := hcontainers f ((hmem f).mp hf) q hq
    exact ⟨g, (hmem g).mpr hg, hpath⟩
  · exact ⟨harranged.heads.trans (hperm.filter _), fun c hc =>
      complete_congr (fun f => (hmem f).symm) (harranged.complete c hc)⟩

/-- The fields that are made of the declarations of a rule set, before they are linked. -/
theorem exists_fields_of_compile {set : RuleSet} {c : CompiledRules} (h : compile set = .ok c) :
    ∃ ds fields, set.flatten = .ok ds ∧ (ds.map Declaration.path).Nodup ∧
      (withContainers ds).mapM Declaration.field = .ok fields ∧
        (fields.map Field.path).Nodup ∧
          (∀ f ∈ fields, ∀ q ∈ f.path.containers, ∃ g ∈ fields, g.path = q) ∧
            c = ⟨order (link fields)⟩ := by
  obtain ⟨ds, hflatten, hds⟩ := compile_eq_ok_iff.mp h
  obtain ⟨hnodup, fields, hfields, rfl⟩ := ofDeclarations_eq_ok_iff.mp hds
  obtain ⟨hpaths, -, hdeclarations⟩ := fields_of_declarations hfields
  refine ⟨ds, fields, hflatten, hnodup, hfields, hpaths ▸ nodup_withContainers hnodup, ?_, rfl⟩
  intro f hf q hq
  have hd : f.declaration ∈ withContainers ds := by
    rw [hdeclarations]
    exact List.mem_map_of_mem hf
  obtain ⟨e, he, rfl⟩ := exists_mem_withContainers hd hq
  rw [← List.mem_map (f := Field.path), hpaths]
  exact List.mem_map_of_mem he

theorem wellFormed_of_compile {set : RuleSet} {c : CompiledRules} (h : compile set = .ok c) :
    c.WellFormed := by
  obtain ⟨ds, fields, hflatten, -, hfields, hnodup, hcontainers, rfl⟩ := exists_fields_of_compile h
  obtain ⟨hpaths, hmade, -⟩ := fields_of_declarations hfields
  refine wellFormed_of_fields (fun f hf => ?_) hmade hnodup hcontainers
  have hmem : f.path ∈ (withContainers ds).map Declaration.path :=
    hpaths ▸ List.mem_map_of_mem hf
  obtain ⟨d, hd, hpath⟩ := List.mem_map.mp hmem
  rw [← hpath]
  rcases mem_withContainers.mp hd with hd | ⟨q, -, ⟨e, he, hq⟩, rfl⟩
  · exact RuleSet.writable_of_flatten hflatten hd
  · exact (RuleSet.writable_of_flatten hflatten he).of_mem_containers hq

/-- Below a path, each entry of the rule set of compiled rules is the declaration of a field, with
its number of steps behind those of the path. -/
theorem flattenAll_entries_below {k : String} {above : Path}
    (hk : Path.ofStringOrRoot k = .ok above) (depth : Nat) {fields : List Field}
    (hwritable : ∀ f ∈ fields, f.path.Writable) :
    RuleSet.flattenAll k depth (fields.map entry) = .ok (fields.map fun f =>
      ⟨above ++ f.path, depth + f.info.prefixDepth, f.validators⟩) := by
  induction fields with
  | nil => rfl
  | cons f fields ih =>
    have hpath := Path.ofStringOrRoot_text (hwritable f List.mem_cons_self)
    have hread : RuleSet.declare (Path.joinText k f.path.text) (depth + f.info.prefixDepth)
        f.validators = .ok ⟨above ++ f.path, depth + f.info.prefixDepth, f.validators⟩ :=
      RuleSet.declare_eq_ok_iff.mpr ⟨above ++ f.path,
        Path.ofStringOrRoot_joinText_iff.mpr ⟨above, f.path, hk, hpath, rfl⟩, rfl⟩
    refine RuleSet.flattenAll_cons.mpr ⟨[_], _, ?_,
      ih fun g hg => hwritable g (List.mem_cons_of_mem f hg), rfl⟩
    rw [RuleSet.flattenEntry, hread]
    rfl

/-- Each entry of the rule set of compiled rules is the declaration of a field. -/
theorem flattenAll_entries {fields : List Field} (hwritable : ∀ f ∈ fields, f.path.Writable) :
    RuleSet.flattenAll "" 0 (fields.map entry) = .ok (fields.map Field.declaration) := by
  have hroot : Path.ofStringOrRoot "" = .ok [] := rfl
  have hall := flattenAll_entries_below hroot 0 hwritable
  simp only [List.nil_append, Nat.zero_add] at hall
  exact hall

theorem mapM_declaration {fields : List Field} (hmade : ∀ f ∈ fields, f.Made) :
    (fields.map Field.declaration).mapM Declaration.field = .ok fields := by
  rw [mapM_eq_ok_iff, List.forall₂_map_left_iff, List.forall₂_same]
  exact hmade

namespace WellFormed

variable {c : CompiledRules}

theorem isElementPath_head (h : c.WellFormed) {chain : FieldChain} (hchain : chain ∈ c.chains) :
    isElementPath chain.path = false :=
  (h.arranged.head_mem hchain).2

theorem path_fields (h : c.WellFormed) {chain : FieldChain} (hchain : chain ∈ c.chains) {i : Nat}
    {f : Field} (hf : chain.fields[i]? = some f) : f.path = chain.path.elementsAt i :=
  (h.arranged.complete chain hchain).path_fields i f hf

/-- Without the element fields, the fields are the outermost ones of the chains in order. -/
theorem filter_fields (h : c.WellFormed) :
    c.fields.filter (fun f => !isElementPath f.path) = c.chains.map FieldChain.head := by
  have hchain : ∀ chain ∈ c.chains,
      chain.fields.filter (fun f => !isElementPath f.path) = [chain.head] := by
    intro chain hchain
    have hhead : isElementPath chain.head.path = false := h.isElementPath_head hchain
    have hitems : chain.items.filter (fun f => !isElementPath f.path) = [] := by
      rw [List.filter_eq_nil_iff]
      intro f hf
      obtain ⟨i, hi⟩ := List.mem_iff_getElem?.mp hf
      rw [(h.arranged.complete chain hchain).path_items i f hi, isElementPath_elementsAt_succ]
      simp
    rw [FieldChain.fields, List.filter_cons_of_pos (by simp [hhead]), hitems]
  have hchains : ∀ chains : List FieldChain, (∀ chain ∈ chains,
      chain.fields.filter (fun f => !isElementPath f.path) = [chain.head]) →
        (chains.flatMap FieldChain.fields).filter (fun f => !isElementPath f.path) =
          chains.map FieldChain.head := by
    intro chains hall
    induction chains with
    | nil => rfl
    | cons chain rest ih =>
      rw [List.flatMap_cons, List.filter_append, hall chain List.mem_cons_self,
        ih fun d hd => hall d (List.mem_cons_of_mem chain hd)]
      rfl
  exact hchains c.chains hchain

/-- Linking the fields again finds the chains again. -/
theorem link_fields (h : c.WellFormed) : link c.fields = c.chains := by
  have hsequences := hasSequences_of_containers h.containers
  apply (arranged_link h.nodup hsequences).eq_of_heads_eq h.nodup h.arranged
  rw [heads_link h.nodup hsequences, h.filter_fields]

theorem compile_toRuleSet (h : c.WellFormed) : compile c.toRuleSet = .ok c := by
  have hpaths : (c.fields.map Field.declaration).map Declaration.path = c.fields.map Field.path :=
    List.map_map
  have hcontainers : withContainers (c.fields.map Field.declaration) =
      c.fields.map Field.declaration := by
    apply inject_eq_self
    intro d hd q hq
    obtain ⟨f, hf, rfl⟩ := List.mem_map.mp hd
    obtain ⟨g, hg, rfl⟩ := h.containers f hf q hq
    rw [hpaths]
    exact List.mem_map_of_mem hg
  refine compile_eq_ok_iff.mpr ⟨_, flattenAll_entries h.writable,
    ofDeclarations_eq_ok_iff.mpr ⟨hpaths ▸ h.nodup, c.fields, ?_, ?_⟩⟩
  · rw [hcontainers, mapM_declaration h.made]
  · rw [h.link_fields, h.ordered]

end WellFormed

/-- Compiling is idempotent: the rule set of compiled rules compiles to just them, chain for chain,
in the same order. -/
theorem compile_toRuleSet_of_compile {set : RuleSet} {c : CompiledRules}
    (h : compile set = .ok c) : compile c.toRuleSet = .ok c :=
  (wellFormed_of_compile h).compile_toRuleSet

theorem exists_of_isOk {set : RuleSet} (h : (compile set).isOk = true) :
    ∃ c, compile set = .ok c := by
  cases hset : compile set with
  | error e =>
    rw [hset] at h
    contradiction
  | ok c => exact ⟨c, rfl⟩

/-- What compiled rules evaluate to. -/
theorem eq_of_compile {α : Type} {set : RuleSet} {c : CompiledRules} (hc : compile set = .ok c)
    (g : CompiledRules → α) {a : α} (h : (compile set).toOption.map g = some a) : g c = a := by
  rw [hc] at h
  exact Option.some.inj h

/-- Dates in sequences of sequences that wait for each other. -/
def crossedDates : RuleSet :=
  [("slots", .nested [
    ("[][].from", .rules [Rules.before "[][].until"]),
    ("[][].until", .rules [Rules.after "[][].from"])])]

theorem compile_toRuleSet_crossedDates :
    ∃ c, compile crossedDates = .ok c ∧ compile c.toRuleSet = .ok c := by
  obtain ⟨c, hc⟩ := exists_of_isOk (by decide : (compile crossedDates).isOk = true)
  exact ⟨c, hc, compile_toRuleSet_of_compile hc⟩

/-- Whether a rule set declares something for a path. -/
def DeclaresAt (set : RuleSet) (p : Path) : Prop :=
  ∃ text depth validators, set.Declares text depth validators ∧ Path.ofStringOrRoot text = .ok p

/-- Whether the chains at a path and at the one of its sequence are both there when the element
field at the path is linked. -/
def Attaches (chains : List FieldChain) (p : Path) : Prop :=
  (∃ c ∈ chains, c.path = p) ∧ ∃ c ∈ chains, c.path = p.dropLast

/-- Whether compiled rules hold what a rule set declares, each once, and besides it only the default
fields of undeclared containers. -/
structure Faithful (set : RuleSet) (c : CompiledRules) : Prop where
  distinct : (c.fields.map Field.path).Nodup
  /-- Each declaration has the one field at its path. -/
  declared : ∀ text depth validators, set.Declares text depth validators →
    ∃ f ∈ c.fields, Path.ofStringOrRoot text = .ok f.path ∧ f.path.text = text ∧
      f.info.prefixDepth = depth ∧ f.validators = validators ∧
        ∀ g ∈ c.fields, g.path = f.path → g = f
  /-- Undeclared paths have a field just where a declared path goes on with a marker. -/
  remaining : ∀ q, ¬ DeclaresAt set q →
    ((∃ f ∈ c.fields, f.path = q) ↔ ∃ rest, DeclaresAt set (q ++ .each :: rest))
  default : ∀ f ∈ c.fields, ¬ DeclaresAt set f.path →
    f.validators = [Rules.array.withId (.injected f.path)] ∧ f.info.prefixDepth = 0
  /-- An element field comes right below the field of its sequence. -/
  elements : ∀ f ∈ c.fields, ∀ q : Path, f.path = q ++ [.each] →
    ∃ chain ∈ c.chains, ∃ i g, chain.fields[i]? = some g ∧ g.path = q ∧
      chain.fields[i + 1]? = some f
  outermost : ∀ chain ∈ c.chains, ∀ q : Path, chain.path ≠ q ++ [.each]
  /-- While the chains are linked, no element field lacks the field of its sequence. -/
  linked : ∃ ds fields, set.flatten = .ok ds ∧
    (withContainers ds).mapM Declaration.field = .ok fields ∧ c.chains = order (link fields) ∧
      ∀ before p after, elementPaths fields = before ++ p :: after →
        Attaches (before.foldl attach (fields.map fun f => ⟨f, []⟩)) p
  found : ∀ text f, c.get? text = some f ↔ f ∈ c.fields ∧ f.path.text = text

theorem attaches_of_attach? {chains next : List FieldChain} {p : Path}
    (h : attach? chains p = some next) : Attaches chains p := by
  unfold attach? at h
  cases htake : Schedule.takeFirst? (fun c => c.path == p) chains with
  | none => simp [htake] at h
  | some found =>
    obtain ⟨c, others⟩ := found
    obtain ⟨before, after, hchains, hothers, hc, -⟩ := Schedule.exists_takeFirst? htake
    simp only [htake, Option.ite_none_right_eq_some, List.any_eq_true] at h
    obtain ⟨⟨d, hd, hdpath⟩, -⟩ := h
    refine ⟨⟨c, ?_, by simpa using hc⟩, d, ?_, by simpa using hdpath⟩
    · rw [hchains]
      simp
    · rw [hothers] at hd
      rw [hchains]
      rcases List.mem_append.mp hd with hd | hd <;> simp [hd]

/-- Linking never meets an element field without the field of its sequence. -/
theorem attaches_of_elementPaths {fields : List Field} (hnodup : (fields.map Field.path).Nodup)
    (hsequences : HasSequences fields) {before after : List Path} {p : Path}
    (hpaths : elementPaths fields = before ++ p :: after) :
    Attaches (before.foldl attach (fields.map fun f => ⟨f, []⟩)) p := by
  have hlinked := (linked_link hnodup hsequences).1
  rw [hpaths, List.foldlM_append, Option.bind_eq_bind, Option.bind_eq_some_iff] at hlinked
  obtain ⟨middle, hmiddle, hrest⟩ := hlinked
  rw [List.foldlM_cons, Option.bind_eq_bind, Option.bind_eq_some_iff] at hrest
  obtain ⟨next, hnext, -⟩ := hrest
  rw [foldl_attach_eq hmiddle]
  exact attaches_of_attach? hnext

/-- The fields of compiled rules are made of the declarations with those of the containers. -/
theorem exists_declarations {set : RuleSet} {c : CompiledRules} (h : compile set = .ok c) :
    ∃ ds, set.flatten = .ok ds ∧
      ∀ d, (∃ f ∈ c.fields, f.declaration = d) ↔ d ∈ withContainers ds := by
  obtain ⟨ds, fields, hflatten, -, hfields, hnodup, hcontainers, rfl⟩ := exists_fields_of_compile h
  obtain ⟨-, -, hdeclarations⟩ := fields_of_declarations hfields
  refine ⟨ds, hflatten, fun d => ?_⟩
  rw [hdeclarations, List.mem_map]
  exact exists_congr fun f => and_congr_left fun _ =>
    mem_fields_order_link hnodup (hasSequences_of_containers hcontainers) f

theorem declaresAt_iff {set : RuleSet} {ds : List Declaration} (h : set.flatten = .ok ds)
    {p : Path} : DeclaresAt set p ↔ p ∈ ds.map Declaration.path := by
  obtain ⟨hsound, hcomplete⟩ := RuleSet.lists_of_flatten h
  constructor
  · rintro ⟨text, depth, validators, hdeclares, hread⟩
    obtain ⟨d, hd, hdread, -, -⟩ := hcomplete text depth validators hdeclares
    rw [hread] at hdread
    cases hdread
    exact List.mem_map_of_mem hd
  · intro hp
    obtain ⟨d, hd, rfl⟩ := List.mem_map.mp hp
    obtain ⟨text, hread, hdeclares⟩ := hsound d hd
    exact ⟨text, d.prefixDepth, d.validators, hdeclares, hread⟩

/-- A field at an undeclared path is the one of a container. -/
theorem undeclared_of_mem {set : RuleSet} {ds : List Declaration} (h : set.flatten = .ok ds)
    {d : Declaration} (hd : d ∈ withContainers ds) (hundeclared : ¬ DeclaresAt set d.path) :
    d = containerDeclaration d.path ∧ ∃ rest, DeclaresAt set (d.path ++ .each :: rest) := by
  rcases mem_withContainers.mp hd with hd | ⟨q, -, ⟨e, he, hq⟩, rfl⟩
  · exact absurd ((declaresAt_iff h).mpr (List.mem_map_of_mem hd)) hundeclared
  · obtain ⟨rest, hrest⟩ := Path.mem_containers.mp hq
    have hpath : DeclaresAt set e.path := (declaresAt_iff h).mpr (List.mem_map_of_mem he)
    exact ⟨rfl, rest, hrest ▸ hpath⟩

theorem get?_eq_some_iff {c : CompiledRules} (hnodup : (c.fields.map Field.path).Nodup)
    (hwritable : ∀ f ∈ c.fields, f.path.Writable) {text : String} {f : Field} :
    c.get? text = some f ↔ f ∈ c.fields ∧ f.path.text = text := by
  constructor
  · intro hf
    exact ⟨List.mem_of_find?_eq_some hf, by simpa using List.find?_some hf⟩
  · rintro ⟨hf, rfl⟩
    cases hget : c.get? f.path.text with
    | none => exact absurd (List.find?_eq_none.mp hget f hf) (by simp)
    | some g =>
      have hg := List.mem_of_find?_eq_some hget
      have htext : g.path.text = f.path.text := by simpa using List.find?_some hget
      have hpath := ((hwritable g hg).text_inj (hwritable f hf)).mp htext
      rw [Field.eq_of_path_eq hnodup hg hf hpath]

/-- Compiling keeps what was declared and adds the containers, nothing else. -/
theorem faithful_of_compile {set : RuleSet} {c : CompiledRules} (h : compile set = .ok c) :
    Faithful set c := by
  have hwell := wellFormed_of_compile h
  obtain ⟨ds, hflatten, hmem⟩ := exists_declarations h
  constructor
  case distinct => exact hwell.nodup
  case declared =>
    intro text depth validators hdeclares
    obtain ⟨d, hd, hread, rfl, rfl⟩ :=
      (RuleSet.lists_of_flatten hflatten).2 text depth validators hdeclares
    obtain ⟨f, hf, rfl⟩ := (hmem d).mpr (mem_withContainers.mpr (Or.inl hd))
    exact ⟨f, hf, hread, Path.text_of_ofStringOrRoot hread, rfl, rfl, fun g hg hpath =>
      Field.eq_of_path_eq hwell.nodup hg hf hpath⟩
  case remaining =>
    intro q hq
    constructor
    · rintro ⟨f, hf, rfl⟩
      exact (undeclared_of_mem hflatten ((hmem _).mp ⟨f, hf, rfl⟩) hq).2
    · rintro ⟨rest, hrest⟩
      obtain ⟨e, he, hpath⟩ := List.mem_map.mp ((declaresAt_iff hflatten).mp hrest)
      obtain ⟨f, hf, hdeclaration⟩ := (hmem (containerDeclaration q)).mpr
        (mem_withContainers.mpr (Or.inr ⟨q, fun hmem => hq ((declaresAt_iff hflatten).mpr hmem),
          ⟨e, he, Path.mem_containers.mpr ⟨rest, hpath⟩⟩, rfl⟩))
      exact ⟨f, hf, congrArg Declaration.path hdeclaration⟩
  case default =>
    intro f hf hq
    have hcontainer := (undeclared_of_mem hflatten ((hmem _).mp ⟨f, hf, rfl⟩) hq).1
    exact ⟨congrArg Declaration.validators hcontainer,
      congrArg Declaration.prefixDepth hcontainer⟩
  case elements =>
    intro f hf q hpath
    obtain ⟨chain, hchain, hfchain⟩ := List.mem_flatMap.mp hf
    obtain ⟨i, hi⟩ := List.mem_iff_getElem?.mp hfchain
    have hfpath := hwell.path_fields hchain hi
    cases i with
    | zero =>
      have helement := hwell.isElementPath_head hchain
      rw [Path.elementsAt_zero, hpath] at hfpath
      rw [← hfpath, isElementPath_iff.mpr ⟨q, rfl⟩] at helement
      contradiction
    | succ i =>
      have hlt : i < chain.fields.length := Nat.lt_of_succ_lt (List.getElem?_eq_some_iff.mp hi).1
      have hg := List.getElem?_eq_getElem hlt
      refine ⟨chain, hchain, i, _, hg, ?_, hi⟩
      rw [hwell.path_fields hchain hg]
      rw [hpath, Path.elementsAt_succ] at hfpath
      exact (List.append_cancel_right hfpath).symm
  case outermost =>
    intro chain hchain q hpath
    have helement := hwell.isElementPath_head hchain
    rw [isElementPath_iff.mpr ⟨q, hpath⟩] at helement
    contradiction
  case linked =>
    obtain ⟨ds, fields, hflatten, -, hfields, hnodup, hcontainers, rfl⟩ :=
      exists_fields_of_compile h
    exact ⟨ds, fields, hflatten, hfields, rfl, fun before p after hpaths =>
      attaches_of_elementPaths hnodup (hasSequences_of_containers hcontainers) hpaths⟩
  case found => exact fun text f => get?_eq_some_iff hwell.nodup hwell.writable

theorem faithful_of_compile_crossedDates : ∃ c, compile crossedDates = .ok c ∧
    Faithful crossedDates c := by
  obtain ⟨c, hc⟩ := exists_of_isOk (by decide : (compile crossedDates).isOk = true)
  exact ⟨c, hc, faithful_of_compile hc⟩

end CompiledRules
end PathRules

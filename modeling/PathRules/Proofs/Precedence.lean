import Mathlib
import PathRules.Proofs.Compiled
import PathRules.Proofs.Questions
/-!
What is asked first. The chains take their turns one after the other, in the order of their
outermost fields; within a turn, elements come before what holds them. Main statement: what a field
reads has been checked before, all of it where the two fields are in different chains and the
outermost ones are in order, and otherwise as far as it lies in the value at hand.
-/

namespace PathRules

/-- Without markers, a path leads to one location only. -/
theorem Location.HasShape.location_unique {l m : Location} {p : Path} (hl : l.HasShape p)
    (hm : m.HasShape p) (harray : p.hasArray = false) : l = m := by
  induction p generalizing l m with
  | nil => rw [List.forall₂_nil_left_iff.mp hl, List.forall₂_nil_left_iff.mp hm]
  | cons a p ih =>
    obtain ⟨s, l', hs, hl', rfl⟩ := List.forall₂_cons_left_iff.mp hl
    obtain ⟨t, m', ht, hm', rfl⟩ := List.forall₂_cons_left_iff.mp hm
    cases a with
    | each => simp [Path.hasArray] at harray
    | key name =>
      rw [ih hl' hm' (by simpa [Path.hasArray] using harray), hs, ht]

/-- In a list where nothing comes before what it is related to, nothing comes before what it is
related to through others. -/
theorem pairwise_of_transGen {α : Type} {R : α → α → Prop} {l : List α} (hnodup : l.Nodup)
    (hpair : l.Pairwise fun x y => ¬ R x y) {a b : α}
    (hab : Relation.TransGen (fun x y => x ∈ l ∧ y ∈ l ∧ R x y) a b) :
    l.Pairwise fun x y => ¬ (x = a ∧ y = b) := by
  classical
  have hstep : ∀ {x y}, x ∈ l → y ∈ l → R x y → l.idxOf y ≤ l.idxOf x := by
    intro x y hx hy hxy
    by_contra hlt
    have hnot := List.pairwise_iff_getElem.mp hpair (l.idxOf x) (l.idxOf y)
      (List.idxOf_lt_length_of_mem hx) (List.idxOf_lt_length_of_mem hy) (Nat.lt_of_not_le hlt)
    rw [List.getElem_idxOf, List.getElem_idxOf] at hnot
    exact hnot hxy
  have hle : l.idxOf b ≤ l.idxOf a := by
    induction hab with
    | single h => exact hstep h.1 h.2.1 h.2.2
    | tail _ h ih => exact (hstep h.1 h.2.1 h.2.2).trans ih
  refine List.pairwise_iff_getElem.mpr fun i j hi hj hlt ⟨ha, hb⟩ => ?_
  rw [← ha, ← hb, hnodup.idxOf_getElem, hnodup.idxOf_getElem] at hle
  omega

namespace CompiledRules

open RunState

variable {options : RunOptions} {c : CompiledRules}

/-- Whether a field reads another one whose values are at least as deep. -/
def Reads (c : CompiledRules) (f g : Field) : Prop :=
  f ∈ c.fields ∧ g ∈ c.fields ∧ f.path ≠ g.path ∧ f.reads g.path = true ∧
    f.arrayDepth ≤ g.arrayDepth

/-- Whether everything in a log about the field at one path comes before everything about the field
at another one. -/
def AllBefore (log : List Invocation) (first second : Path) : Prop :=
  log.Pairwise fun i j => ¬ (i.field = second ∧ j.field = first)

theorem allBefore_iff_map {log : List Invocation} {first second : Path} :
    AllBefore log first second ↔
      (log.map Invocation.field).Pairwise fun p q => ¬ (p = second ∧ q = first) := by
  rw [AllBefore, List.pairwise_map]

/-- Whether one of the chains waits for another one of them. -/
def WaitsAmong (chains : List FieldChain) (a b : FieldChain) : Prop :=
  a ∈ chains ∧ b ∈ chains ∧ waits a b = true

/-- Whether the execution order puts a chain behind another one: the values of the other one are
deeper, or the chain waits for it, directly or through others. -/
def Follows (c : CompiledRules) (F G : FieldChain) : Prop :=
  F.arrayDepth < G.arrayDepth ∨ Relation.TransGen (WaitsAmong c.chains) F G

/-- What holds of any two questions in one turn and in two turns holds of the log. -/
theorem pairwise_log {T : Question → Question → Prop}
    (hturn : ∀ chain ∈ c.chains, ∀ d, (chainDue options chain d).Pairwise T)
    (hturns : c.chains.Pairwise fun a b =>
      ∀ d e, ∀ q ∈ chainDue options a d, ∀ r ∈ chainDue options b e, T q r) (d : Value) :
    (c.validate options d).log.Pairwise fun i j => T i.question j.question := by
  cases hnull : d.isNull with
  | true =>
    have hlog : (c.validate options d).log = [] := by
      rw [validate, runState, if_pos hnull]
      rfl
    rw [hlog]
    exact List.Pairwise.nil
  | false =>
    obtain ⟨turns, hchains, -, hlog, -⟩ := exists_turns (I := fun _ => True)
      (fun _ _ _ _ => trivial) trivial hnull
    rw [← hchains, List.pairwise_map] at hturns
    refine List.pairwise_map.mp (List.Pairwise.sublist hlog.sublist ?_)
    refine List.pairwise_flatMap.mpr ⟨fun t ht => ?_, hturns.imp fun {s t} h => h s.2 t.2⟩
    exact hturn t.1 (hchains ▸ List.mem_map_of_mem ht) t.2

namespace WellFormed

theorem nodup_chains (h : c.WellFormed) : c.chains.Nodup :=
  (h.arranged.nodup_heads h.nodup).of_map

/-- A question about a field is asked in the turn of its chain. -/
theorem chain_eq (h : c.WellFormed) {a F : FieldChain} (ha : a ∈ c.chains) (hF : F ∈ c.chains)
    {f : Field} (hf : f ∈ F.fields) {d : Value} {q : Question} (hq : q ∈ chainDue options a d)
    (hfield : q.field = f.path) : a = F ∧ q.location.HasShape f.path := by
  obtain ⟨g, hg, hquestion, hshape, -⟩ := mem_chainDue (fun k g => h.path_fields ha) hq
  have hpath : g.path = f.path := (mem_questions.mp hquestion).1.symm.trans hfield
  exact ⟨h.arranged.chain_unique h.nodup ha hF hg hf hpath, hpath ▸ hshape⟩

theorem chains_of_deeper (h : c.WellFormed) {F G : FieldChain}
    (hdepth : F.arrayDepth < G.arrayDepth) :
    c.chains.Pairwise fun a b => ¬ (a = F ∧ b = G) := by
  have hrank := Schedule.pairwise_order_rank waits FieldChain.arrayDepth c.chains
  change (order c.chains).Pairwise _ at hrank
  rw [h.ordered] at hrank
  refine hrank.imp fun {a b} hab ⟨ha, hb⟩ => ?_
  rw [ha, hb] at hab
  omega

/-- Where no field reads itself through others, a chain comes behind those that it waits for,
directly or through others. -/
theorem chains_of_waits (h : c.WellFormed) (hacyclic : ∀ f, ¬ Relation.TransGen (Reads c) f f)
    {F G : FieldChain} (hwaits : Relation.TransGen (WaitsAmong c.chains) F G) :
    c.chains.Pairwise fun a b => ¬ (a = F ∧ b = G) := by
  refine pairwise_of_transGen h.nodup_chains ?_ hwaits
  have horder := Schedule.pairwise_order_of_acyclic arrayDepth_eq_of_waits h.nodup_chains ?_
  · change (order c.chains).Pairwise _ at horder
    rw [h.ordered] at horder
    exact horder.imp fun {a b} hab => by simp [hab]
  · intro a hcycle
    refine hacyclic a.head (Relation.TransGen.lift FieldChain.head ?_ _ _ hcycle)
    rintro x y ⟨hne, hx, hy, hxy⟩
    obtain ⟨hdepth, hreads⟩ := waits_eq_true_iff.mp hxy
    refine ⟨(h.arranged.head_mem hx).1, (h.arranged.head_mem hy).1, fun hpath => hne ?_, hreads,
      Nat.le_of_eq hdepth⟩
    exact List.inj_on_of_nodup_map (h.arranged.nodup_heads h.nodup) hx hy hpath

/-- Where a chain has its turn before another one, so have its fields. -/
theorem allBefore_of_chains (h : c.WellFormed) {F G : FieldChain} (hF : F ∈ c.chains)
    (hG : G ∈ c.chains) (hne : F ≠ G) (horder : c.chains.Pairwise fun a b => ¬ (a = F ∧ b = G))
    {f g : Field} (hf : f ∈ F.fields) (hg : g ∈ G.fields) (d : Value) :
    AllBefore (c.validate options d).log g.path f.path := by
  refine pairwise_log (T := fun q r => ¬ (q.field = f.path ∧ r.field = g.path)) ?_ ?_ d
  · intro a ha d
    refine List.pairwise_iff_forall_sublist.mpr fun {q r} hsub ⟨hq, hr⟩ => hne ?_
    rw [← (h.chain_eq ha hF hf (hsub.subset (by simp)) hq).1,
      ← (h.chain_eq ha hG hg (hsub.subset (by simp)) hr).1]
  · refine horder.imp_of_mem fun {a b} ha hb hab d e q hq r hr ⟨hqf, hrg⟩ => hab ?_
    exact ⟨(h.chain_eq ha hF hf hq hqf).1, (h.chain_eq hb hG hg hr hrg).1⟩

/-- A chain that is behind another one has its turn later. -/
theorem allBefore_of_follows (h : c.WellFormed)
    (hacyclic : ∀ f, ¬ Relation.TransGen (Reads c) f f) {F G : FieldChain} (hF : F ∈ c.chains)
    (hG : G ∈ c.chains) (hne : F ≠ G) (hfollows : Follows c F G) {f g : Field}
    (hf : f ∈ F.fields) (hg : g ∈ G.fields) (d : Value) :
    AllBefore (c.validate options d).log g.path f.path := by
  rcases hfollows with hdeeper | hwaits
  · exact h.allBefore_of_chains hF hG hne (h.chains_of_deeper hdeeper) hf hg d
  · exact h.allBefore_of_chains hF hG hne (h.chains_of_waits hacyclic hwaits) hf hg d

theorem arrayDepth_fields (h : c.WellFormed) {chain : FieldChain} (hchain : chain ∈ c.chains)
    {k : Nat} {f : Field} (hf : chain.fields[k]? = some f) :
    f.arrayDepth = chain.arrayDepth + k := by
  rw [Field.arrayDepth, h.path_fields hchain hf, Path.arrayDepth_elementsAt]
  rfl

theorem path_of_le (h : c.WellFormed) {chain : FieldChain} (hchain : chain ∈ c.chains) {i j : Nat}
    {f g : Field} (hf : chain.fields[i]? = some f) (hg : chain.fields[j]? = some g) (hij : i ≤ j) :
    g.path = f.path.elementsAt (j - i) := by
  rw [h.path_fields hchain hf, h.path_fields hchain hg, Path.elementsAt_elementsAt,
    Nat.add_sub_cancel' hij]

/-- A field that reads an outermost field, whose values are at least as deep, is in a chain behind
it. -/
theorem follows_of_reads_head (h : c.WellFormed) {F G : FieldChain} (hF : F ∈ c.chains)
    (hG : G ∈ c.chains) {f : Field} (hf : f ∈ F.fields) (hreads : f.reads G.path = true)
    (hdepth : f.arrayDepth ≤ G.arrayDepth) : Follows c F G := by
  obtain ⟨i, hi⟩ := List.mem_iff_getElem?.mp hf
  rw [h.arrayDepth_fields hF hi] at hdepth
  by_cases hdeeper : F.arrayDepth < G.arrayDepth
  · exact .inl hdeeper
  · obtain rfl : i = 0 := by omega
    obtain rfl : F.head = f := Option.some.inj hi
    exact .inr (.single ⟨hF, hG, waits_eq_true_iff.mpr ⟨by omega, hreads⟩⟩)

/-- Within a turn, what is above a value comes later than what is below it. -/
theorem pairwise_above (h : c.WellFormed) {F : FieldChain} (hF : F ∈ c.chains) {f : Field}
    (hf : f ∈ F.fields) {g : Field} (hg : g ∈ F.fields) {K : Location → Location → Prop}
    (hK : ∀ l m, l.HasShape f.path → m.HasShape g.path → K l m → l <+: m ∧ l ≠ m) (d : Value) :
    (c.validate options d).log.Pairwise fun i j =>
      ¬ (i.field = f.path ∧ j.field = g.path ∧ K i.location j.location) := by
  refine pairwise_log (T := fun q r => ¬ (q.field = f.path ∧ r.field = g.path ∧
    K q.location r.location)) ?_ ?_ d
  · intro a ha d
    refine (pairwise_chainDue a d).imp_of_mem fun {q r} hq hr habove ⟨hqf, hrg, hqr⟩ => habove ?_
    exact hK _ _ (h.chain_eq ha hF hf hq hqf).2 (h.chain_eq ha hF hg hr hrg).2 hqr
  · refine h.nodup_chains.imp_of_mem fun {a b} ha hb hne d e q hq r hr ⟨hqf, hrg, _⟩ => hne ?_
    rw [(h.chain_eq ha hF hf hq hqf).1, (h.chain_eq hb hF hg hr hrg).1]

/-- In one chain, what is deeper comes first wherever it is below, so everywhere if the path of the
field that is less deep has no markers. -/
theorem pairwise_of_deeper (h : c.WellFormed) {F : FieldChain} (hF : F ∈ c.chains) {f g : Field}
    (hf : f ∈ F.fields) (hg : g ∈ F.fields) (hne : f.path ≠ g.path)
    (hdepth : f.arrayDepth ≤ g.arrayDepth) (d : Value) :
    ((c.validate options d).log.Pairwise fun i j =>
      ¬ (i.field = f.path ∧ j.field = g.path ∧ i.location <+: j.location)) ∧
    (f.path.hasArray = false → AllBefore (c.validate options d).log g.path f.path) := by
  obtain ⟨i, hi⟩ := List.mem_iff_getElem?.mp hf
  obtain ⟨j, hj⟩ := List.mem_iff_getElem?.mp hg
  rw [h.arrayDepth_fields hF hi, h.arrayDepth_fields hF hj] at hdepth
  have hij : i < j := by
    apply Nat.lt_of_le_of_ne (by omega)
    rintro rfl
    exact hne (congrArg Field.path (Option.some.inj (hi.symm.trans hj)))
  have hbelow : g.path = f.path.elementsAt (j - i) := h.path_of_le hF hi hj hij.le
  have hapart : ∀ {l m : Location}, l.HasShape f.path → m.HasShape g.path → l ≠ m := by
    rintro l _ hl hm rfl
    have hlength := hl.length_eq.symm.trans hm.length_eq
    rw [hbelow, Path.length_elementsAt] at hlength
    omega
  constructor
  · exact h.pairwise_above hF hf hg (K := fun l m => l <+: m)
      (fun l m hl hm hlm => ⟨hlm, hapart hl hm⟩) d
  · intro harray
    refine (h.pairwise_above hF hf hg (K := fun _ _ => True) (fun l m hl hm _ => ?_) d).imp
      fun {a b} hab ⟨ha, hb⟩ => hab ⟨ha, hb, trivial⟩
    refine ⟨?_, hapart hl hm⟩
    obtain ⟨l', n, rfl, hl', -⟩ := Location.HasShape.exists_append (hbelow ▸ hm)
    rw [hl.location_unique hl' harray]
    exact List.prefix_append l' n

end WellFormed

/-- What a field reads has been checked before it: all of it if that is an outermost field or in a
chain ahead, and otherwise, in the field's own chain, what is in the value at hand. -/
theorem readers_come_later {set : RuleSet} (hcompile : compile set = .ok c)
    (hacyclic : ∀ f, ¬ Relation.TransGen (Reads c) f f) {f g : Field} (hreads : Reads c f g)
    {F G : FieldChain} (hF : F ∈ c.chains) (hG : G ∈ c.chains) (hf : f ∈ F.fields)
    (hg : g ∈ G.fields) (options : RunOptions) (d : Value) :
    (g = G.head → AllBefore (c.validate options d).log g.path f.path) ∧
    (F = G →
      ((c.validate options d).log.Pairwise fun i j =>
        ¬ (i.field = f.path ∧ j.field = g.path ∧ i.location <+: j.location)) ∧
      (f.path.hasArray = false → AllBefore (c.validate options d).log g.path f.path)) ∧
    (F ≠ G → Follows c F G → AllBefore (c.validate options d).log g.path f.path) := by
  have h := wellFormed_of_compile hcompile
  obtain ⟨-, -, hpath, hread, hdepth⟩ := hreads
  refine ⟨?_, ?_, fun hne hfollows =>
    h.allBefore_of_follows hacyclic hF hG hne hfollows hf hg d⟩
  · rintro rfl
    have hne : F ≠ G := by
      rintro rfl
      -- In its own chain, a field that is not the outermost one is deeper than that one.
      obtain ⟨i, hi⟩ := List.mem_iff_getElem?.mp hf
      have hle : F.arrayDepth + i ≤ F.arrayDepth := h.arrayDepth_fields hF hi ▸ hdepth
      obtain rfl : i = 0 := by omega
      exact hpath (congrArg Field.path (Option.some.inj hi).symm)
    have hfollows := h.follows_of_reads_head hF hG hf hread hdepth
    exact h.allBefore_of_follows hacyclic hF hG hne hfollows hf hg d
  · rintro rfl
    exact h.pairwise_of_deeper hF hf hg hpath hdepth d

/-- Where all dependencies are of one path on one other, reading leads to no cycle. -/
theorem exists_reads_of_infos {infos : List FieldInfo} {p q : Path}
    (hinfos : c.fields.map Field.info = infos) (hne : p ≠ q) (hdepth : p.arrayDepth ≤ q.arrayDepth)
    (honly : ∀ i ∈ infos, ∀ e ∈ i.dependencies, i.path = p ∧ e.absolute = q)
    (hreads : ∃ i ∈ infos, ∃ e ∈ i.dependencies, i.path = p ∧ e.absolute = q)
    (hread : ∃ i ∈ infos, i.path = q) :
    (∀ f, ¬ Relation.TransGen (Reads c) f f) ∧ ∃ f g, Reads c f g ∧ f.path = p ∧ g.path = q := by
  subst hinfos
  constructor
  · have hends : ∀ f g, Reads c f g → f.path = p ∧ g.path = q := by
      rintro f g ⟨hf, -, -, hfg, -⟩
      obtain ⟨e, he, hg⟩ := List.any_eq_true.mp hfg
      obtain ⟨hpath, habsolute⟩ := honly f.info (List.mem_map_of_mem hf) e he
      exact ⟨hpath, (eq_of_beq hg).symm.trans habsolute⟩
    intro f hcycle
    obtain ⟨_, hfirst, -⟩ := Relation.TransGen.head'_iff.mp hcycle
    obtain ⟨_, -, hlast⟩ := Relation.TransGen.tail'_iff.mp hcycle
    exact hne ((hends _ _ hfirst).1.symm.trans (hends _ _ hlast).2)
  · obtain ⟨_, hi, e, he, rfl, rfl⟩ := hreads
    obtain ⟨f, hf, rfl⟩ := List.mem_map.mp hi
    obtain ⟨_, hj, hg⟩ := hread
    obtain ⟨g, hgmem, rfl⟩ := List.mem_map.mp hj
    refine ⟨f, g, ⟨hf, hgmem, fun heq => hne (heq.trans hg), ?_, ?_⟩, rfl, hg⟩
    · exact List.any_eq_true.mpr ⟨e, he, beq_iff_eq.mpr hg.symm⟩
    · change f.info.path.arrayDepth ≤ g.info.path.arrayDepth
      rwa [hg]

/-- Rows that read their cells. -/
def matrixRules : RuleSet :=
  [("m[]", .rules [{ Rules.array with dependsOn := some "m[][]" }]),
    ("m[][]", .rules [Rules.required])]

/-- Two rows of one cell each. -/
def matrix : Value :=
  .map [("m", .sequence [.sequence [.bool true], .sequence [.bool true]])]

/-- A total that reads the lines it is the total of. -/
def billRules : RuleSet :=
  [("total", .rules [{ Rules.required with dependsOn := some "lines[]" }]),
    ("lines[]", .rules [Rules.object])]

/-- A total and one line. -/
def bill : Value :=
  .map [("total", .bool true), ("lines", .sequence [.map []])]

theorem exists_reads_matrix (hc : compile matrixRules = .ok c) :
    (∀ f, ¬ Relation.TransGen (Reads c) f f) ∧
      ∃ f g, Reads c f g ∧ f.path = [.key "m", .each] ∧ g.path = [.key "m", .each, .each] := by
  have hinfos := eq_of_compile hc (fun c => c.fields.map Field.info)
    (a := [⟨[.key "m"], 0, [], false, true, false⟩,
      ⟨[.key "m", .each], 0, [⟨"m[][]", [.key "m", .each, .each]⟩], false, true, false⟩,
      ⟨[.key "m", .each, .each], 0, [], false, false, false⟩]) (by cbv)
  exact exists_reads_of_infos hinfos (by decide) (by decide) (by decide) (by decide) (by decide)

theorem exists_reads_bill (hc : compile billRules = .ok c) :
    (∀ f, ¬ Relation.TransGen (Reads c) f f) ∧
      ∃ f g, Reads c f g ∧ f.path = [.key "total"] ∧ g.path = [.key "lines", .each] := by
  have hinfos := eq_of_compile hc (fun c => c.fields.map Field.info)
    (a := [⟨[.key "total"], 0, [⟨"lines[]", [.key "lines", .each]⟩], false, false, false⟩,
      ⟨[.key "lines"], 0, [], false, true, false⟩,
      ⟨[.key "lines", .each], 0, [], false, false, true⟩]) (by cbv)
  exact exists_reads_of_infos hinfos (by decide) (by decide) (by decide) (by decide) (by decide)

/-- Not all that a field reads comes before it where the elements of one value come after another
value, or where the chain of what it reads is not behind that of the field. -/
theorem not_allBefore_matrix_bill :
    (∃ c f g, compile matrixRules = .ok c ∧ (∀ f, ¬ Relation.TransGen (Reads c) f f) ∧
      Reads c f g ∧ ¬ AllBefore (c.validate plainOptions matrix).log g.path f.path) ∧
    ∃ c f g, compile billRules = .ok c ∧ (∀ f, ¬ Relation.TransGen (Reads c) f f) ∧
      Reads c f g ∧ ¬ AllBefore (c.validate plainOptions bill).log g.path f.path := by
  constructor
  · obtain ⟨c, hc⟩ := exists_of_isOk (by decide : (compile matrixRules).isOk = true)
    obtain ⟨hacyclic, f, g, hreads, hf, hg⟩ := exists_reads_matrix hc
    have hlog := eq_of_compile hc
      (fun c => (c.validate plainOptions matrix).log.map Invocation.field)
      (a := [[.key "m", .each, .each], [.key "m", .each], [.key "m", .each, .each],
        [.key "m", .each], [.key "m"]]) (by cbv)
    refine ⟨c, f, g, hc, hacyclic, hreads, ?_⟩
    rw [allBefore_iff_map, hlog, hf, hg]
    decide
  · obtain ⟨c, hc⟩ := exists_of_isOk (by decide : (compile billRules).isOk = true)
    obtain ⟨hacyclic, f, g, hreads, hf, hg⟩ := exists_reads_bill hc
    have hlog := eq_of_compile hc
      (fun c => (c.validate plainOptions bill).log.map Invocation.field)
      (a := [[.key "total"], [.key "lines", .each], [.key "lines"]]) (by cbv)
    refine ⟨c, f, g, hc, hacyclic, hreads, ?_⟩
    rw [allBefore_iff_map, hlog, hf, hg]
    decide

theorem readers_come_later_matrix : ∃ c f g, compile matrixRules = .ok c ∧ Reads c f g ∧
    (c.validate plainOptions matrix).log.Pairwise fun i j =>
      ¬ (i.field = f.path ∧ j.field = g.path ∧ i.location <+: j.location) := by
  obtain ⟨c, hc⟩ := exists_of_isOk (by decide : (compile matrixRules).isOk = true)
  obtain ⟨hacyclic, f, g, hreads, -, -⟩ := exists_reads_matrix hc
  obtain ⟨F, hF, hf⟩ := List.mem_flatMap.mp hreads.1
  obtain ⟨G, hG, hg⟩ := List.mem_flatMap.mp hreads.2.1
  obtain ⟨only, hchains⟩ := List.length_eq_one_iff.mp
    (eq_of_compile hc (fun c => c.chains.length) (a := 1) (by cbv))
  have hsame : F = G := by
    rw [hchains, List.mem_singleton] at hF hG
    rw [hF, hG]
  obtain ⟨-, hturn, -⟩ := readers_come_later hc hacyclic hreads hF hG hf hg plainOptions matrix
  exact ⟨c, f, g, hc, hreads, (hturn hsame).1⟩

end CompiledRules
end PathRules

import PathRules.Proofs.Dependencies
/-!
The order of fields. A list may hold the same field twice, so its fields are told apart by their
positions. Main statement: the order is a permutation in which deeper fields come first, and a field
from which reading leads to no cycle comes behind all fields of its depth that it reads, whatever
cycles there are among the others.
-/

namespace PathRules.CompiledRules

/-- Whether a validator of a field depends on the path of another field of the same depth. Both are
given with their positions in a list. -/
structure ReadsPeer (chains : List FieldChain) (a b : FieldChain × Nat) : Prop where
  reader : a ∈ chains.zipIdx
  peer : b ∈ chains.zipIdx
  distinct : a.2 ≠ b.2
  depth : a.1.arrayDepth = b.1.arrayDepth
  reads : a.1.head.DependsOn b.1.path

/-- Whether reading leads from a field of a list to a cycle. -/
def LeadsToCycle (chains : List FieldChain) (a : FieldChain × Nat) : Prop :=
  ∃ b, Relation.ReflTransGen (ReadsPeer chains) a b ∧ Relation.TransGen (ReadsPeer chains) b b

variable {chains : List FieldChain}

/-- The fields that a field waits for are those of its depth that it reads. -/
theorem waitsIn_iff_readsPeer (hmade : ∀ c ∈ chains, c.head.Made) {a b : FieldChain × Nat} :
    Schedule.WaitsIn (Schedule.waitsFor waits) chains.zipIdx a b ↔ ReadsPeer chains a b := by
  have hwaits : a ∈ chains.zipIdx → (Schedule.waitsFor waits a b = true ↔
      a.2 ≠ b.2 ∧ a.1.arrayDepth = b.1.arrayDepth ∧ a.1.head.DependsOn b.1.path) := by
    intro ha
    have hhead := hmade a.1 (List.fst_mem_of_mem_zipIdx ha)
    rw [Schedule.waitsFor, Bool.and_eq_true, bne_iff_ne, waits_eq_true_iff, hhead.reads_iff]
  constructor
  · rintro ⟨ha, hb, hab⟩
    obtain ⟨hne, hdepth, hreads⟩ := (hwaits ha).mp hab
    exact ⟨ha, hb, hne, hdepth, hreads⟩
  · rintro ⟨ha, hb, hne, hdepth, hreads⟩
    exact ⟨ha, hb, (hwaits ha).mpr ⟨hne, hdepth, hreads⟩⟩

theorem reachesCycle_iff_leadsToCycle (hmade : ∀ c ∈ chains, c.head.Made) {a : FieldChain × Nat} :
    Schedule.ReachesCycle (Schedule.waitsFor waits) chains.zipIdx a ↔ LeadsToCycle chains a := by
  have hsame : Schedule.WaitsIn (Schedule.waitsFor waits) chains.zipIdx = ReadsPeer chains := by
    funext a b
    exact propext (waitsIn_iff_readsPeer hmade)
  rw [Schedule.ReachesCycle, hsame]
  rfl

theorem pair_sublist_or {α : Type} {l : List α} {a b : α} (ha : a ∈ l) (hb : b ∈ l) (hne : a ≠ b) :
    [a, b].Sublist l ∨ [b, a].Sublist l := by
  obtain ⟨before, after, rfl⟩ := List.append_of_mem ha
  have hb' : b ∈ before ∨ b ∈ after := by simpa [hne.symm] using hb
  rcases hb' with hbefore | hafter
  · right
    have hfirst : [a].Sublist (a :: after) := List.singleton_sublist.mpr List.mem_cons_self
    exact (List.singleton_sublist.mpr hbefore).append hfirst
  · left
    exact ((List.singleton_sublist.mpr hafter).cons_cons a).trans (List.sublist_append_right _ _)

/-- The order respects depths and dependencies, next to cycles as well. It is a permutation, also of
the positions, deeper fields come first, and whatever a field reads at its own depth comes before
it, unless reading leads from that field to a cycle. -/
theorem order_respects_reads (hmade : ∀ c ∈ chains, c.head.Made) :
    (order chains).Perm chains ∧ (order chains).Pairwise (fun a b => b.arrayDepth ≤ a.arrayDepth) ∧
      ∃ placed : List (FieldChain × Nat), placed.Perm chains.zipIdx ∧
        order chains = placed.map Prod.fst ∧
          ∀ a b, ReadsPeer chains a b → ¬ LeadsToCycle chains a → [b, a].Sublist placed := by
  obtain ⟨placed, hperm, horder, hpair⟩ :=
    Schedule.exists_order_pairwise arrayDepth_eq_of_waits chains
  refine ⟨Schedule.order_perm waits FieldChain.arrayDepth chains,
    Schedule.pairwise_order_rank waits FieldChain.arrayDepth chains, placed, hperm, horder, ?_⟩
  intro a b hreads hcycle
  have hne : b ≠ a := by
    rintro rfl
    exact hreads.distinct rfl
  rcases pair_sublist_or (hperm.mem_iff.mpr hreads.peer) (hperm.mem_iff.mpr hreads.reader) hne with
    hbefore | hbehind
  · exact hbefore
  · have hwaits := (waitsIn_iff_readsPeer hmade).mpr hreads
    have hreaches := List.pairwise_iff_forall_sublist.mp hpair hbehind hwaits.2.2
    exact absurd ((reachesCycle_iff_leadsToCycle hmade).mp hreaches) hcycle

/-- A date that must be before another one. -/
def dateBefore (name other : String) : FieldChain :=
  ⟨⟨⟨[.key name], 0, [⟨other, [.key other]⟩], false, false, false⟩, [Rules.before other]⟩, []⟩

/-- A date that may be any. -/
def anyDate (name : String) : FieldChain :=
  ⟨⟨⟨[.key name], 0, [], false, false, false⟩, []⟩, []⟩

/-- Two dates that read each other, in front of one that reads the last. -/
def loopedDates : List FieldChain :=
  [dateBefore "first" "second", dateBefore "second" "first", dateBefore "from" "until",
    anyDate "until"]

theorem made_loopedDates : ∀ c ∈ loopedDates, c.head.Made := by
  simp only [loopedDates, List.forall_mem_cons]
  exact ⟨rfl, rfl, rfl, rfl, by simp⟩

/-- The last two dates read only what is behind them, so reading leads from them to no cycle. -/
theorem not_leadsToCycle_loopedDates :
    ¬ LeadsToCycle loopedDates (dateBefore "from" "until", 2) := by
  have hstep : ∀ x ∈ loopedDates.zipIdx, ∀ y ∈ loopedDates.zipIdx, 2 ≤ x.2 →
      Schedule.waitsFor waits x y = true → x.2 < y.2 := by decide
  have hlater : ∀ {x y}, ReadsPeer loopedDates x y → 2 ≤ x.2 → x.2 < y.2 := by
    intro x y hxy hx
    exact hstep x hxy.reader y hxy.peer hx
      ((waitsIn_iff_readsPeer made_loopedDates).mpr hxy).2.2
  rintro ⟨b, hpath, hcycle⟩
  have hb : 2 ≤ b.2 := by
    clear hcycle
    induction hpath with
    | refl => exact Nat.le_refl 2
    | tail _ hxy ih => exact ih.trans (hlater hxy ih).le
  have hbehind : ∀ c, Relation.TransGen (ReadsPeer loopedDates) b c → b.2 < c.2 := by
    intro c hc
    induction hc with
    | single hbc => exact hlater hbc hb
    | tail _ hxy ih => exact ih.trans (hlater hxy (hb.trans ih.le))
  exact Nat.lt_irrefl _ (hbehind b hcycle)

theorem order_respects_reads_loopedDates : (∀ c ∈ loopedDates, c.head.Made) ∧
    ∃ placed : List (FieldChain × Nat), placed.Perm loopedDates.zipIdx ∧
      order loopedDates = placed.map Prod.fst ∧
        [(anyDate "until", 3), (dateBefore "from" "until", 2)].Sublist placed := by
  obtain ⟨-, -, placed, hperm, horder, hbehind⟩ := order_respects_reads made_loopedDates
  refine ⟨made_loopedDates, placed, hperm, horder, ?_⟩
  apply hbehind
  · have hdepends : (dateBefore "from" "until").head.DependsOn (anyDate "until").path :=
      ⟨Rules.before "until", List.mem_cons_self, "until", rfl, by decide⟩
    exact ⟨by simp [loopedDates], by simp [loopedDates], by decide, rfl, hdepends⟩
  · exact not_leadsToCycle_loopedDates

end PathRules.CompiledRules

import PathRules.Proofs.Equality
import PathRules.Rules.Distinct
/-!
The rule that no element of a sequence is repeated. Main statement: it accepts just the sequences
whose elements all differ, and what it reports of the others are the elements to leave out: those
that remain all differ, and each reported one equals one of them that comes before it.
-/

namespace PathRules.Rules

/-! ### The elements that repeat an earlier one -/

/-- Whether the item at a place equals an earlier one. -/
def repeatsAt (items : List Value) (i : Nat) : Bool :=
  (items[i]?).any fun v => (items.take i).any fun w => w == v

theorem repeatsFrom_eq_filter (earlier rest : List Value) :
    repeatsFrom earlier.reverse earlier.length rest =
      (List.range' earlier.length rest.length).filter (repeatsAt (earlier ++ rest)) := by
  induction rest generalizing earlier with
  | nil => rfl
  | cons v rest ih =>
    have hlater := ih (earlier ++ [v])
    rw [List.reverse_append, List.length_append, List.append_assoc] at hlater
    have hhere : repeatsAt (earlier ++ v :: rest) earlier.length =
        earlier.reverse.any fun w => w == v := by
      simp [repeatsAt]
    rw [List.length_cons, List.range'_succ, List.filter_cons, hhere, repeatsFrom]
    split
    · exact congrArg _ hlater
    · exact hlater

theorem repeats_eq_filter (items : List Value) :
    repeats items = (List.range' 0 items.length).filter (repeatsAt items) :=
  repeatsFrom_eq_filter [] items

theorem repeatsAt_iff {items : List Value} {i : Nat} :
    repeatsAt items i = true ↔ ∃ v, items[i]? = some v ∧
      ∃ j w, j < i ∧ items[j]? = some w ∧ (w == v) = true := by
  have hearlier : ∀ w, w ∈ items.take i ↔ ∃ j, j < i ∧ items[j]? = some w := by
    intro w
    simp only [List.mem_iff_getElem?, List.getElem?_take, Option.ite_none_right_eq_some]
  simp only [repeatsAt, Option.any_eq_true, List.any_eq_true, hearlier]
  constructor
  · rintro ⟨v, hv, w, ⟨j, hj, hw⟩, heq⟩
    exact ⟨v, hv, j, w, hj, hw, heq⟩
  · rintro ⟨v, hv, j, w, hj, hw, heq⟩
    exact ⟨v, hv, w, ⟨j, hj, hw⟩, heq⟩

theorem mem_repeats_iff {items : List Value} {i : Nat} :
    i ∈ repeats items ↔ ∃ v, items[i]? = some v ∧
      ∃ j w, j < i ∧ items[j]? = some w ∧ (w == v) = true := by
  rw [repeats_eq_filter, List.mem_filter, repeatsAt_iff, and_iff_right_iff_imp]
  rintro ⟨v, hv, -⟩
  obtain ⟨hi, -⟩ := List.getElem?_eq_some_iff.mp hv
  exact List.mem_range'_1.mpr ⟨Nat.zero_le i, by omega⟩

theorem pairwise_repeats (items : List Value) : (repeats items).Pairwise (· < ·) := by
  rw [repeats_eq_filter]
  exact (List.pairwise_lt_range').filter _

/-- Whether the values at different ones of some places of a list all differ. -/
def DifferAt (items : List Value) (places : Nat → Prop) : Prop :=
  ∀ i j v w, places i → places j → i ≠ j → items[i]? = some v → items[j]? = some w → ¬ v.Equal w

/-- Whether some places, in their order, are those of the superfluous items of a list. -/
structure ReportsRepeats (items : List Value) (reported : List Nat) : Prop where
  ascending : reported.Pairwise (· < ·)
  others : DifferAt items (· ∉ reported)
  repeated {i : Nat} (hi : i ∈ reported) : ∃ v, items[i]? = some v ∧
    ∃ j w, j < i ∧ j ∉ reported ∧ items[j]? = some w ∧ w.Equal v

section Items

variable {items : List Value} (hitems : ∀ v ∈ items, v.WellFormed)

include hitems

theorem mem_repeats_iff_equal {i : Nat} : i ∈ repeats items ↔ ∃ v, items[i]? = some v ∧
    ∃ j w, j < i ∧ items[j]? = some w ∧ w.Equal v := by
  rw [mem_repeats_iff]
  refine exists_congr fun v => and_congr_right fun hv => ?_
  refine exists_congr fun j => exists_congr fun w => and_congr_right fun hj => ?_
  refine and_congr_right fun hw => ?_
  exact Value.beq_iff_equal (hitems w (List.mem_of_getElem? hw))
    (hitems v (List.mem_of_getElem? hv))

theorem mem_repeats_of_equal {i j : Nat} {v w : Value} (hlt : i < j) (hv : items[i]? = some v)
    (hw : items[j]? = some w) (h : v.Equal w) : j ∈ repeats items :=
  (mem_repeats_iff_equal hitems).mpr ⟨w, hw, i, v, hlt, hv, h⟩

theorem differAt_not_repeats : DifferAt items (· ∉ repeats items) := by
  intro i j v w hi hj hne hv hw h
  rcases Nat.lt_or_gt_of_ne hne with hlt | hgt
  · exact hj (mem_repeats_of_equal hitems hlt hv hw h)
  · exact hi (mem_repeats_of_equal hitems hgt hw hv h.symm)

/-- An item that equals an earlier one equals the first such, which equals none before it. -/
theorem exists_first_of_mem_repeats {i : Nat} (hi : i ∈ repeats items) : ∃ v, items[i]? = some v ∧
    ∃ j w, j < i ∧ j ∉ repeats items ∧ items[j]? = some w ∧ w.Equal v := by
  induction i using Nat.strongRecOn with
  | ind i ih =>
    obtain ⟨v, hv, j, w, hlt, hw, h⟩ := (mem_repeats_iff_equal hitems).mp hi
    refine ⟨v, hv, ?_⟩
    by_cases hj : j ∈ repeats items
    · obtain ⟨w', hw', first, u, hfirst, hnot, hu, h'⟩ := ih j hlt hj
      obtain rfl : w = w' := Option.some.inj (hw.symm.trans hw')
      exact ⟨first, u, Nat.lt_trans hfirst hlt, hnot, hu, h'.trans h⟩
    · exact ⟨j, w, hlt, hj, hw, h⟩

theorem reportsRepeats_repeats : ReportsRepeats items (repeats items) where
  ascending := pairwise_repeats items
  others := differAt_not_repeats hitems
  repeated hi := exists_first_of_mem_repeats hitems hi

theorem repeats_eq_nil_iff : repeats items = [] ↔ DifferAt items fun _ => True := by
  constructor
  · intro hnil i j v w _ _
    exact differAt_not_repeats hitems i j v w (by simp [hnil]) (by simp [hnil])
  · intro hdiffer
    refine List.eq_nil_iff_forall_not_mem.mpr fun i hi => ?_
    obtain ⟨v, hv, j, w, hlt, hw, h⟩ := (mem_repeats_iff_equal hitems).mp hi
    exact hdiffer j i w v trivial trivial (by omega) hw hv h

end Items

theorem check_distinct {c : Context} {items : List Value} (hc : c.value = .sequence items) :
    distinct.check c =
      { accepted := (repeats items).isEmpty, value := c.value, elements := repeats items } := by
  simp only [distinct, hc]

/-- The rule accepts just the sequences whose items all differ. Otherwise what it reports is what to
leave out, in ascending order: the items that remain all differ, and each one reported equals one of
them that comes before it. -/
theorem distinct_reports_repeats {c : Context} {items : List Value}
    (hc : c.value = .sequence items) (hv : c.value.WellFormed) :
    ((distinct.check c).accepted = true ↔ DifferAt items fun _ => True) ∧
      ReportsRepeats items (distinct.check c).elements ∧ Value.ComparedAsEqual := by
  have hitems : ∀ v ∈ items, v.WellFormed := by
    rw [hc] at hv
    exact Value.wellFormed_sequence_iff.mp hv
  rw [check_distinct hc]
  refine ⟨?_, reportsRepeats_repeats hitems, Value.comparedAsEqual⟩
  rw [List.isEmpty_iff]
  exact repeats_eq_nil_iff hitems

/-- A list of the same pair twice, apart from the order of its keys, an integer and a double that
are one number, and the pair again. -/
def pairs : List Value :=
  [.map [("a", .int 1), ("b", .null)], .map [("b", .null), ("a", .int 1)], .int 2, .float 2.0,
    .map [("a", .int 1), ("b", .null)]]

def pairsContext : Context where
  value := .sequence pairs
  data := .map [("pairs", .null)]
  location := [.key "pairs"]
  field := ⟨[.key "pairs"], 0, [], false, true, false⟩
  call := { now := .midnight ⟨0⟩, extras := .empty, deadline := none, lookupTimeout := .zero }
  elapsed := .zero
  invalid := false
  required := false

theorem distinct_reports_repeats_pairs :
    pairsContext.value = .sequence pairs ∧ pairsContext.value.WellFormed ∧
      (distinct.check pairsContext).elements = [1, 4] ∧ ReportsRepeats pairs [1, 4] := by
  have hv : pairsContext.value.WellFormed := by
    simp [pairsContext, pairs, Value.WellFormed, Value.WellFormedItems, Value.WellFormedEntries,
      Keyed.keys]
  have helements : (distinct.check pairsContext).elements = [1, 4] := by
    rfl
  obtain ⟨-, hreports, -⟩ := distinct_reports_repeats (c := pairsContext) rfl hv
  exact ⟨rfl, hv, helements, helements ▸ hreports⟩

end PathRules.Rules

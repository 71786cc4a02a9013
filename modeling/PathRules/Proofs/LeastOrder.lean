import PathRules.Proofs.Order
/-!
How far the order moves fields. Main statements: ordering fields a second time changes nothing, and
the lists that ordering leaves alone are those in which each field has its turn where it stands;
where reading leads to no cycle, the fields of one depth come in the least order, by their
positions, of all in which each comes behind those that it reads.
-/

namespace PathRules.Schedule

variable {α : Type}

/-- Placing one job after the other gives the lexicographically least order, by the numbers of the
jobs, of all in which no job comes before one that it waits for. The first job of another order
waits for none, so it has no smaller number than the first job that is ready. -/
theorem Placed.eq_or_lex {waits : α → α → Bool} {jobs placed other : List (α × Nat)}
    (h : Placed (waitsFor waits) jobs placed) (hnumbers : jobs.Pairwise fun a b => a.2 < b.2)
    (hperm : other.Perm jobs) (hother : other.Pairwise fun a b => waitsFor waits a b = false) :
    placed = other ∨ List.Lex (fun a b => a.2 < b.2) placed other := by
  induction h generalizing other with
  | nil => exact .inl hperm.eq_nil.symm
  | @step jobs others placed a hstep hrest ih =>
    cases other with
    | nil => exact absurd (hperm.trans hstep.perm).length_eq (by simp)
    | cons c rest =>
      obtain ⟨hc, hrestOther⟩ := List.pairwise_cons.mp hother
      have hready : isReady (waitsFor waits) jobs c = true := by
        rw [← isReady_of_perm (waitsFor waits) hperm, isReady, List.all_eq_true]
        intro b hb
        rcases List.mem_cons.mp hb with rfl | hb
        · simp [waitsFor]
        · simp [hc b hb]
      have hmem : c ∈ jobs := hperm.subset List.mem_cons_self
      cases hstep with
      | stuck hnone => exact absurd hready (by simp [hnone c hmem])
      | @ready before _ after ha hbefore =>
        by_cases hca : c = a
        · subst hca
          have hothers : rest.Perm (before ++ after) := (hperm.trans List.perm_middle).cons_inv
          have hsub : (before ++ after).Sublist (before ++ c :: after) :=
            (List.sublist_cons_self c after).append_left before
          rcases ih (hnumbers.sublist hsub) hothers hrestOther with rfl | hlex
          · exact .inl rfl
          · exact .inr (.cons hlex)
        · have hnot : c ∉ before := fun hin => absurd hready (by simp [hbefore c hin])
          have hafter : c ∈ after := by simpa [hnot, hca] using hmem
          have hlt := List.rel_of_pairwise_cons (List.pairwise_append.mp hnumbers).2.1 hafter
          exact .inr (.rel hlt)

end PathRules.Schedule

namespace PathRules.CompiledRules

variable {chains : List FieldChain}

/-- Ordering is done once and for all, and just the lists in which each field has its turn stay as
they are. -/
theorem order_eq_self_iff_inOrder (chains : List FieldChain) :
    order (order chains) = order chains ∧
      (order chains = chains ↔ Schedule.InOrder waits FieldChain.arrayDepth chains) := by
  refine ⟨order_order chains, ?_, Schedule.order_of_inOrder arrayDepth_eq_of_waits⟩
  intro h
  have hordered := Schedule.inOrder_order arrayDepth_eq_of_waits chains
  rwa [← order, h] at hordered

/-- Whether a list is an order of the fields of one depth in which each comes behind those that it
reads. -/
structure Respects (chains : List FieldChain) (depth : Nat) (peers : List (FieldChain × Nat)) :
    Prop where
  perm : peers.Perm (chains.zipIdx.filter fun c => c.1.arrayDepth == depth)
  behind : peers.Pairwise fun a b => ¬ ReadsPeer chains a b

/-- Whether a list is the lexicographically least such order, by the positions of the fields. -/
structure LeastRespecting (chains : List FieldChain) (depth : Nat)
    (peers : List (FieldChain × Nat)) : Prop where
  respects : Respects chains depth peers
  least : ∀ other, Respects chains depth other →
    peers = other ∨ List.Lex (fun a b => a.2 < b.2) peers other

/-- Where reading leads to no cycle, the order puts deeper fields first and those of each depth in
the least order that respects what they read. Fields that stand so already stay where they are. -/
theorem order_least (hmade : ∀ c ∈ chains, c.head.Made)
    (hacyclic : ∀ a, ¬ Relation.TransGen (ReadsPeer chains) a a) :
    (∃ placed : List (FieldChain × Nat), placed.Perm chains.zipIdx ∧
      order chains = placed.map Prod.fst ∧
        placed.Pairwise (fun a b => b.1.arrayDepth ≤ a.1.arrayDepth) ∧
          ∀ depth, LeastRespecting chains depth
            (placed.filter fun c => c.1.arrayDepth == depth)) ∧
      (chains.Pairwise (fun a b => b.arrayDepth ≤ a.arrayDepth) →
        (∀ a b, ReadsPeer chains a b → b.2 < a.2) → order chains = chains) := by
  constructor
  · obtain ⟨placed, hperm, horder, hdepths, hplaced⟩ :=
      Schedule.exists_order_placed arrayDepth_eq_of_waits chains
    refine ⟨placed, hperm, horder, hdepths, fun depth => ⟨⟨(hplaced depth).perm, ?_⟩, ?_⟩⟩
    · apply (hplaced depth).pairwise.imp
      intro a b hcycle hreads
      have hwaits := ((waitsIn_iff_readsPeer hmade).mpr hreads).2.2
      have hreaches := (hcycle hwaits).mono (List.filter_subset_self _)
      obtain ⟨c, -, hc⟩ := (reachesCycle_iff_leadsToCycle hmade).mp hreaches
      exact hacyclic c hc
    · rintro other ⟨hother, hbehind⟩
      refine (hplaced depth).eq_or_lex ((Schedule.pairwise_numbers chains).filter _) hother ?_
      apply hbehind.imp_of_mem
      intro a b ha hb hnot
      have hmem : ∀ c ∈ other, c ∈ chains.zipIdx := fun c hc =>
        List.mem_of_mem_filter (hother.subset hc)
      rw [← Bool.not_eq_true]
      exact fun hwaits => hnot ((waitsIn_iff_readsPeer hmade).mp ⟨hmem a ha, hmem b hb, hwaits⟩)
  · intro hdepths hreads
    refine Schedule.order_of_inOrder arrayDepth_eq_of_waits ⟨hdepths, fun a ha => .inl ?_⟩
    intro b hb hlt
    rw [← Bool.not_eq_true]
    intro hwaits
    have hwaitsFor : Schedule.waitsFor waits a b = true := by
      simp [Schedule.waitsFor, hlt.ne, hwaits]
    have hpeer := (waitsIn_iff_readsPeer hmade).mp ⟨ha, List.mem_of_mem_filter hb, hwaitsFor⟩
    exact Nat.lt_asymm hlt (hreads a b hpeer)

/-- Reading leads to no cycle where it always leads upwards. -/
theorem not_transGen_readsPeer (height : FieldChain × Nat → Int)
    (h : ∀ a b, ReadsPeer chains a b → height a < height b) (a : FieldChain × Nat) :
    ¬ Relation.TransGen (ReadsPeer chains) a a := by
  have hrises : ∀ b, Relation.TransGen (ReadsPeer chains) a b → height a < height b := by
    intro b hpath
    induction hpath with
    | single hab => exact h a _ hab
    | tail _ hbc ih => exact ih.trans (h _ _ hbc)
  exact fun hcycle => lt_irrefl _ (hrises a hcycle)

/-- Each of several values, whatever it is. -/
def anyEach (name : String) : FieldChain :=
  ⟨⟨⟨[.key name, .each], 0, [], false, false, false⟩, []⟩, []⟩

/-- A stay, its first date in front of the one that it reads, and its guests behind both. -/
def stay : List FieldChain :=
  [dateBefore "from" "until", anyDate "booked", dateBefore "until" "end", anyEach "guests",
    anyDate "end"]

/-- The fields of a stay as they are ordered. -/
def orderedStay : List FieldChain :=
  [anyEach "guests", anyDate "booked", anyDate "end", dateBefore "until" "end",
    dateBefore "from" "until"]

example : order stay = orderedStay := by cbv

theorem made_stay : ∀ c ∈ stay, c.head.Made := by
  simp only [stay, List.forall_mem_cons]
  exact ⟨rfl, rfl, rfl, rfl, rfl, by simp⟩

theorem made_orderedStay : ∀ c ∈ orderedStay, c.head.Made := by
  simp only [orderedStay, List.forall_mem_cons]
  exact ⟨rfl, rfl, rfl, rfl, rfl, by simp⟩

/-- A field of a stay reads only what is behind it. -/
theorem lt_of_readsPeer_stay {a b : FieldChain × Nat} (h : ReadsPeer stay a b) : a.2 < b.2 := by
  have hwaits : ∀ x ∈ stay.zipIdx, ∀ y ∈ stay.zipIdx,
      Schedule.waitsFor waits x y = true → x.2 < y.2 := by decide
  exact hwaits a h.reader b h.peer ((waitsIn_iff_readsPeer made_stay).mpr h).2.2

/-- Ordered, a field of a stay reads only what is before it. -/
theorem lt_of_readsPeer_orderedStay {a b : FieldChain × Nat} (h : ReadsPeer orderedStay a b) :
    b.2 < a.2 := by
  have hwaits : ∀ x ∈ orderedStay.zipIdx, ∀ y ∈ orderedStay.zipIdx,
      Schedule.waitsFor waits x y = true → y.2 < x.2 := by decide
  exact hwaits a h.reader b h.peer ((waitsIn_iff_readsPeer made_orderedStay).mpr h).2.2

theorem order_least_stay :
    (∀ c ∈ stay, c.head.Made) ∧ (∀ a, ¬ Relation.TransGen (ReadsPeer stay) a a) ∧
      (∃ placed : List (FieldChain × Nat), placed.Perm stay.zipIdx ∧
        order stay = placed.map Prod.fst ∧
          LeastRespecting stay 0 (placed.filter fun c => c.1.arrayDepth == 0)) ∧
        order orderedStay = orderedStay := by
  have hacyclic : ∀ a, ¬ Relation.TransGen (ReadsPeer stay) a a :=
    not_transGen_readsPeer (fun a => a.2) fun _ _ h => Int.ofNat_lt.mpr (lt_of_readsPeer_stay h)
  have hacyclic' : ∀ a, ¬ Relation.TransGen (ReadsPeer orderedStay) a a :=
    not_transGen_readsPeer (fun a => -a.2) fun _ _ h =>
      Int.neg_lt_neg (Int.ofNat_lt.mpr (lt_of_readsPeer_orderedStay h))
  obtain ⟨⟨placed, hperm, horder, -, hleast⟩, -⟩ := order_least made_stay hacyclic
  obtain ⟨-, hstands⟩ := order_least made_orderedStay hacyclic'
  exact ⟨made_stay, hacyclic, ⟨placed, hperm, horder, hleast 0⟩,
    hstands (by decide) fun _ _ => lt_of_readsPeer_orderedStay⟩

end PathRules.CompiledRules

import Mathlib.Data.Fintype.Card
import Mathlib.Data.Set.Finite.List
import Mathlib.Logic.Relation
import Mathlib.Order.WellFounded
import PathRules.Schedule
/-!
Schedules, as a relation between the jobs and the order they are placed in. Main statements: the
order is a permutation of the jobs with higher ranks first; a job that comes before one that it
waits for can reach a cycle; the order is in order, each job having its turn where it stands, and
ordering jobs that are in order changes nothing, with cycles or without.
-/

namespace PathRules.Schedule

variable {α β : Type}

/-! ### One step -/

theorem takeFirst?_eq_none_iff {p : α → Bool} {l : List α} :
    takeFirst? p l = none ↔ ∀ a ∈ l, p a = false := by
  induction l with
  | nil => simp [takeFirst?]
  | cons a rest ih =>
    cases ha : p a with
    | true => simp [takeFirst?, ha]
    | false => simp [takeFirst?, ha, ih]

theorem takeFirst?_append {p : α → Bool} {before : List α} {a : α} (after : List α)
    (hbefore : ∀ b ∈ before, p b = false) (ha : p a = true) :
    takeFirst? p (before ++ a :: after) = some (a, before ++ after) := by
  induction before with
  | nil => simp [takeFirst?, ha]
  | cons b before ih =>
    have hb : p b = false := hbefore b List.mem_cons_self
    have hrest := ih fun c hc => hbefore c (List.mem_cons_of_mem b hc)
    simp [takeFirst?, hb, hrest]

theorem exists_takeFirst? {p : α → Bool} {l : List α} {a : α} {others : List α}
    (h : takeFirst? p l = some (a, others)) :
    ∃ before after, l = before ++ a :: after ∧ others = before ++ after ∧ p a = true ∧
      ∀ b ∈ before, p b = false := by
  induction l generalizing others with
  | nil => simp [takeFirst?] at h
  | cons b rest ih =>
    cases hb : p b with
    | true =>
      simp only [takeFirst?, hb, if_true, Option.some.injEq, Prod.mk.injEq] at h
      obtain ⟨rfl, rfl⟩ := h
      exact ⟨[], rest, rfl, rfl, hb, by simp⟩
    | false =>
      simp only [takeFirst?, hb, Bool.false_eq_true, if_false, Option.map_eq_some_iff,
        Prod.mk.injEq] at h
      obtain ⟨⟨c, left⟩, hc, rfl, rfl⟩ := h
      obtain ⟨before, after, rfl, rfl, ha, hbefore⟩ := ih hc
      refine ⟨b :: before, after, rfl, rfl, ha, ?_⟩
      intro d hd
      rcases List.mem_cons.mp hd with rfl | hd
      · exact hb
      · exact hbefore d hd

/-- Taking one job out: the first that is ready, or the first of all when none is. -/
inductive Step (waits : α → α → Bool) : List α → α → List α → Prop
  | ready {before : List α} {a : α} {after : List α}
      (ha : isReady waits (before ++ a :: after) a = true)
      (hbefore : ∀ b ∈ before, isReady waits (before ++ a :: after) b = false) :
      Step waits (before ++ a :: after) a (before ++ after)
  | stuck {a : α} {rest : List α}
      (hnone : ∀ b ∈ a :: rest, isReady waits (a :: rest) b = false) :
      Step waits (a :: rest) a rest

theorem next?_eq_some_iff {waits : α → α → Bool} {jobs : List α} {a : α} {others : List α} :
    next? waits jobs = some (a, others) ↔ Step waits jobs a others := by
  constructor
  · intro h
    unfold next? at h
    cases hready : takeFirst? (isReady waits jobs) jobs with
    | some found =>
      rw [hready, Option.orElse_some, Option.some.injEq] at h
      rw [h] at hready
      obtain ⟨before, after, rfl, rfl, ha, hbefore⟩ := exists_takeFirst? hready
      exact .ready ha hbefore
    | none =>
      rw [hready, Option.orElse_none] at h
      have hnone := takeFirst?_eq_none_iff.mp hready
      cases jobs with
      | nil => simp [takeFirst?] at h
      | cons b rest =>
        simp only [takeFirst?, if_true, Option.some.injEq, Prod.mk.injEq] at h
        obtain ⟨rfl, rfl⟩ := h
        exact .stuck hnone
  · intro h
    unfold next?
    cases h with
    | ready ha hbefore => rw [takeFirst?_append _ hbefore ha, Option.orElse_some]
    | stuck hnone =>
      rw [takeFirst?_eq_none_iff.mpr hnone, Option.orElse_none]
      simp [takeFirst?]

theorem exists_step (waits : α → α → Bool) {jobs : List α} (hne : jobs ≠ []) :
    ∃ a others, Step waits jobs a others := by
  cases hnext : next? waits jobs with
  | some found => exact ⟨found.1, found.2, next?_eq_some_iff.mp hnext⟩
  | none =>
    obtain ⟨a, rest, rfl⟩ := List.exists_cons_of_ne_nil hne
    simp [next?, takeFirst?] at hnext

theorem Step.perm {waits : α → α → Bool} {jobs others : List α} {a : α}
    (h : Step waits jobs a others) : jobs.Perm (a :: others) := by
  cases h with
  | ready => exact List.perm_middle
  | stuck => exact .refl _

theorem Step.ready_or {waits : α → α → Bool} {jobs others : List α} {a : α}
    (h : Step waits jobs a others) :
    isReady waits jobs a = true ∨ ∀ b ∈ jobs, isReady waits jobs b = false := by
  cases h with
  | ready ha _ => exact .inl ha
  | stuck hnone => exact .inr hnone

theorem step_first_iff {waits : α → α → Bool} {a : α} {rest : List α} :
    Step waits (a :: rest) a rest ↔ isReady waits (a :: rest) a = true ∨
      ∀ b ∈ a :: rest, isReady waits (a :: rest) b = false := by
  refine ⟨Step.ready_or, ?_⟩
  rintro (ha | hnone)
  · exact @Step.ready _ waits [] a rest ha (List.forall_mem_nil _)
  · exact .stuck hnone

/-- There is one job only to take out. -/
theorem Step.unique {waits : α → α → Bool} {jobs others others' : List α} {a a' : α}
    (h : Step waits jobs a others) (h' : Step waits jobs a' others') :
    a = a' ∧ others = others' := by
  have hsame := (next?_eq_some_iff.mpr h).symm.trans (next?_eq_some_iff.mpr h')
  simpa using hsame

/-- Whether a job is ready depends only on which jobs remain. -/
theorem isReady_of_perm (waits : α → α → Bool) {jobs others : List α} (h : jobs.Perm others)
    (a : α) : isReady waits jobs a = isReady waits others a :=
  h.all_eq

/-! ### The whole order -/

/-- The order in which jobs are placed, step by step. -/
inductive Placed (waits : α → α → Bool) : List α → List α → Prop
  | nil : Placed waits [] []
  | step {jobs others placed : List α} {a : α} (hstep : Step waits jobs a others)
      (hrest : Placed waits others placed) : Placed waits jobs (a :: placed)

theorem placed_place (waits : α → α → Bool) {fuel : Nat} {jobs : List α}
    (hfuel : jobs.length ≤ fuel) : Placed waits jobs (place waits fuel jobs) := by
  induction fuel generalizing jobs with
  | zero =>
    rw [List.length_eq_zero_iff.mp (Nat.le_zero.mp hfuel)]
    exact .nil
  | succ fuel ih =>
    by_cases hne : jobs = []
    · subst hne
      exact .nil
    · obtain ⟨a, others, hstep⟩ := exists_step waits hne
      have hlength := hstep.perm.length_eq
      rw [place, next?_eq_some_iff.mpr hstep]
      exact .step hstep (ih (by simp only [List.length_cons] at hlength; omega))

/-- There is one order only. -/
theorem Placed.unique {waits : α → α → Bool} {jobs first second : List α}
    (hfirst : Placed waits jobs first) (hsecond : Placed waits jobs second) : first = second := by
  induction hfirst generalizing second with
  | nil =>
    cases hsecond with
    | nil => rfl
    | step hstep => exact absurd hstep.perm.length_eq (by simp)
  | step hstep _ ih =>
    cases hsecond with
    | nil => exact absurd hstep.perm.length_eq (by simp)
    | step hstep' hrest' =>
      obtain ⟨rfl, rfl⟩ := hstep.unique hstep'
      rw [ih hrest']

theorem Placed.perm {waits : α → α → Bool} {jobs placed : List α}
    (h : Placed waits jobs placed) : placed.Perm jobs := by
  induction h with
  | nil => exact .refl _
  | step hstep _ ih => exact (ih.cons _).trans hstep.perm.symm

/-- Jobs in the order that they were placed in keep it when they are placed again. A job that was
ready still is, and where none was ready the first one goes first again. -/
theorem Placed.self {waits : α → α → Bool} {jobs placed : List α}
    (h : Placed waits jobs placed) : Placed waits placed placed := by
  induction h with
  | nil => exact .nil
  | @step jobs others placed a hstep hrest ih =>
    have hperm : (a :: placed).Perm jobs := (hrest.perm.cons a).trans hstep.perm.symm
    refine .step (step_first_iff.mpr ?_) ih
    simp only [isReady_of_perm waits hperm, hperm.mem_iff]
    exact hstep.ready_or

/-- Renaming the jobs renames the order. -/
theorem Placed.map {waits : α → α → Bool} {waits' : β → β → Bool} {jobs placed : List α}
    (h : Placed waits jobs placed) (f : α → β)
    (hf : ∀ a ∈ jobs, ∀ b ∈ jobs, waits' (f a) (f b) = waits a b) :
    Placed waits' (jobs.map f) (placed.map f) := by
  have hready : ∀ jobs : List α, (∀ a ∈ jobs, ∀ b ∈ jobs, waits' (f a) (f b) = waits a b) →
      ∀ a ∈ jobs, isReady waits' (jobs.map f) (f a) = isReady waits jobs a := by
    intro jobs hjobs a ha
    rw [Bool.eq_iff_iff]
    simp only [isReady, List.all_map, List.all_eq_true, Function.comp_apply]
    exact forall₂_congr fun b hb => by rw [hjobs a ha b hb]
  induction h with
  | nil => exact .nil
  | @step jobs others placed a hstep hrest ih =>
    have hsub : others ⊆ jobs := fun b hb =>
      hstep.perm.symm.subset (List.mem_cons_of_mem a hb)
    refine .step ?_ (ih fun b hb c hc => hf b (hsub hb) c (hsub hc))
    have hready := hready jobs hf
    cases hstep with
    | @ready before _ after ha hbefore =>
      simp only [List.map_append, List.map_cons] at hready ⊢
      refine .ready ((hready a (by simp)).trans ha) ?_
      intro b hb
      obtain ⟨c, hc, rfl⟩ := List.mem_map.mp hb
      exact (hready c (by simp [hc])).trans (hbefore c hc)
    | stuck hnone =>
      rw [List.map_cons] at hready ⊢
      refine .stuck fun b hb => ?_
      rw [← List.map_cons] at hb
      obtain ⟨c, hc, rfl⟩ := List.mem_map.mp hb
      exact (hready c hc).trans (hnone c hc)

/-- Jobs of one kind, none of which waits for one of another kind, are placed as if they were
alone. -/
theorem Placed.filter {waits : α → α → Bool} {jobs placed : List α}
    (h : Placed waits jobs placed) (q : α → Bool)
    (hq : ∀ a b, waits a b = true → q a = q b) :
    Placed waits (jobs.filter q) (placed.filter q) := by
  have hready : ∀ (jobs : List α) (a : α), q a = true →
      isReady waits (jobs.filter q) a = isReady waits jobs a := by
    intro jobs a ha
    rw [Bool.eq_iff_iff]
    simp only [isReady, List.all_eq_true, List.mem_filter, Bool.not_eq_true', and_imp]
    constructor
    · intro hall b hb
      by_contra hwaits
      rw [Bool.not_eq_false] at hwaits
      rw [hall b hb ((hq a b hwaits).symm.trans ha)] at hwaits
      contradiction
    · exact fun hall b hb _ => hall b hb
  induction h with
  | nil => exact .nil
  | @step jobs others placed a hstep hrest ih =>
    cases ha : q a with
    | true =>
      rw [List.filter_cons_of_pos ha]
      refine .step ?_ ih
      cases hstep with
      | @ready before _ after hfirst hbefore =>
        have heq := hready (before ++ a :: after)
        simp only [List.filter_append, List.filter_cons_of_pos ha] at heq ⊢
        refine .ready ((heq a ha).trans hfirst) ?_
        intro b hb
        obtain ⟨hmem, hqb⟩ := List.mem_filter.mp hb
        exact (heq b hqb).trans (hbefore b hmem)
      | stuck hnone =>
        have heq := hready (a :: others)
        rw [List.filter_cons_of_pos ha] at heq ⊢
        refine .stuck fun b hb => ?_
        rw [← List.filter_cons_of_pos ha] at hb
        obtain ⟨hmem, hqb⟩ := List.mem_filter.mp hb
        exact (heq b hqb).trans (hnone b hmem)
    | false =>
      have hsame : jobs.filter q = others.filter q := by
        cases hstep <;> simp [ha]
      rw [List.filter_cons_of_neg (by simp [ha]), hsame]
      exact ih

/-! ### Cycles -/

/-- Whether, among the given jobs, one waits for another one. -/
def WaitsIn (waits : α → α → Bool) (jobs : List α) (a b : α) : Prop :=
  a ∈ jobs ∧ b ∈ jobs ∧ waits a b = true

/-- Whether waiting leads from a job to a cycle among the given jobs. -/
def ReachesCycle (waits : α → α → Bool) (jobs : List α) (a : α) : Prop :=
  ∃ b, Relation.ReflTransGen (WaitsIn waits jobs) a b ∧
    Relation.TransGen (WaitsIn waits jobs) b b

theorem ReachesCycle.mono {waits : α → α → Bool} {jobs others : List α} {a : α}
    (h : ReachesCycle waits jobs a) (hsub : jobs ⊆ others) : ReachesCycle waits others a := by
  obtain ⟨b, hpath, hcycle⟩ := h
  have hwaits : ∀ x y, WaitsIn waits jobs x y → WaitsIn waits others x y :=
    fun x y hxy => ⟨hsub hxy.1, hsub hxy.2.1, hxy.2.2⟩
  exact ⟨b, Relation.ReflTransGen.mono hwaits _ _ hpath,
    Relation.TransGen.mono hwaits _ _ hcycle⟩

/-- Where no job is ready, waiting leads from each job to a cycle: the jobs are finite in number,
and each waits for another one. -/
theorem reachesCycle_of_stuck {waits : α → α → Bool} {jobs : List α}
    (hnone : ∀ b ∈ jobs, isReady waits jobs b = false) {a : α} (ha : a ∈ jobs) :
    ReachesCycle waits jobs a := by
  by_contra hcycle
  let Reached := { b // b ∈ jobs ∧ Relation.ReflTransGen (WaitsIn waits jobs) a b }
  have hfinite : Finite Reached :=
    (Set.Finite.subset (List.finite_toSet jobs) fun b hb => hb.1).to_subtype
  let below (b c : Reached) : Prop := Relation.TransGen (WaitsIn waits jobs) c.1 b.1
  have htrans : IsTrans Reached below := ⟨fun _ _ _ hbc hcd => hcd.trans hbc⟩
  have hirrefl : Std.Irrefl below := ⟨fun b hb => hcycle ⟨b.1, b.2.2, hb⟩⟩
  have hwf : WellFounded below := Finite.wellFounded_of_trans_of_irrefl below
  obtain ⟨last, -, hlast⟩ := hwf.has_min Set.univ ⟨⟨a, ha, .refl⟩, trivial⟩
  have hwaits := hnone last.1 last.2.1
  rw [isReady, List.all_eq_false] at hwaits
  obtain ⟨next, hnext, hlastNext⟩ := hwaits
  have hedge : WaitsIn waits jobs last.1 next := ⟨last.2.1, hnext, by simpa using hlastNext⟩
  exact hlast ⟨next, hnext, last.2.2.tail hedge⟩ trivial (.single hedge)

/-- A job that is placed before one that it waits for can reach a cycle. -/
theorem Placed.pairwise {waits : α → α → Bool} {jobs placed : List α}
    (h : Placed waits jobs placed) :
    placed.Pairwise fun a b => waits a b = true → ReachesCycle waits jobs a := by
  induction h with
  | nil => exact .nil
  | @step jobs others placed a hstep hrest ih =>
    have hsub : others ⊆ jobs := fun b hb =>
      hstep.perm.symm.subset (List.mem_cons_of_mem a hb)
    refine List.pairwise_cons.mpr ⟨?_, ih.imp fun hab hwaits => (hab hwaits).mono hsub⟩
    intro b hb hwaits
    have hbJobs : b ∈ jobs := hsub (hrest.perm.subset hb)
    cases hstep with
    | ready ha _ =>
      have hnot := List.all_eq_true.mp ha b hbJobs
      simp [hwaits] at hnot
    | stuck hnone => exact reachesCycle_of_stuck hnone List.mem_cons_self

/-! ### Ranks -/

/-- Sorting by rank keeps the order of the jobs of each rank. -/
theorem filter_mergeSort (rank : α → Nat) (l : List α) (r : Nat) :
    (l.mergeSort fun a b => rank b ≤ rank a).filter (fun a => rank a == r) =
      l.filter fun a => rank a == r := by
  have hle : (l.filter fun a => rank a == r).Pairwise
      fun a b => decide (rank b ≤ rank a) = true := by
    rw [List.pairwise_filter]
    refine List.pairwise_of_forall fun a b => ?_
    intro ha hb
    simp only [beq_iff_eq] at ha hb
    simp [ha, hb]
  have hsub : (l.filter fun a => rank a == r).Sublist
      (l.mergeSort fun a b => rank b ≤ rank a) := by
    refine List.sublist_mergeSort ?_ ?_ hle List.filter_sublist
    · intro a b c hab hbc
      simp only [decide_eq_true_eq] at hab hbc ⊢
      omega
    · intro a b
      simp only [Bool.or_eq_true, decide_eq_true_eq]
      omega
  have hfilter := hsub.filter fun a => rank a == r
  rw [List.filter_filter] at hfilter
  simp only [Bool.and_self] at hfilter
  exact (hfilter.eq_of_length ((List.mergeSort_perm l _).filter _).length_eq.symm).symm

theorem pairwise_mergeSort_rank (rank : α → Nat) (l : List α) :
    (l.mergeSort fun a b => rank b ≤ rank a).Pairwise fun a b => rank b ≤ rank a := by
  suffices hsorted : (l.mergeSort fun a b => rank b ≤ rank a).Pairwise
      fun a b => decide (rank b ≤ rank a) = true from hsorted.imp fun h => of_decide_eq_true h
  apply List.pairwise_mergeSort
  · intro a b c hab hbc
    simp only [decide_eq_true_eq] at hab hbc ⊢
    omega
  · intro a b
    simp only [Bool.or_eq_true, decide_eq_true_eq]
    omega

/-- If an item fits and none of higher rank does, then the first of its rank that fits is the first
that fits in the sorted list. -/
theorem find?_mergeSort (rank : α → Nat) {l : List α} {fits : α → Bool} {a : α}
    (hranks : ∀ b ∈ l, fits b = true → rank b ≤ rank a)
    (ha : (l.filter fun b => rank b == rank a).find? fits = some a) :
    (l.mergeSort fun a b => rank b ≤ rank a).find? fits = some a := by
  rw [← filter_mergeSort, List.find?_filter, List.find?_eq_some_iff_append] at ha
  obtain ⟨hfits, before, after, hsplit, hbefore⟩ := ha
  have hsorted := pairwise_mergeSort_rank rank l
  rw [hsplit] at hsorted
  rw [List.find?_eq_some_iff_append]
  refine ⟨by simpa using hfits, before, after, hsplit, fun b hb => ?_⟩
  by_contra hnot
  have hb' : fits b = true := by simpa using hnot
  have hmem : b ∈ l := by
    rw [← List.mem_mergeSort, hsplit]
    exact List.mem_append_left _ hb
  have hrank : rank b = rank a :=
    Nat.le_antisymm (hranks b hmem hb') ((List.pairwise_append.mp hsorted).2.2 b hb a
      List.mem_cons_self)
  simpa [hrank, hb'] using hbefore b hb

theorem mem_iff_of_filter_eq (rank : α → Nat) {first second : List α}
    (h : ∀ r, (first.filter fun a => rank a == r) = second.filter fun a => rank a == r) (a : α) :
    a ∈ first ↔ a ∈ second := by
  have ha := congrArg (fun l => a ∈ l) (h (rank a))
  simpa using ha

/-- A list sorted by rank is known from its parts of one rank each. -/
theorem eq_of_filter_eq (rank : α → Nat) {first second : List α}
    (hfirst : first.Pairwise fun a b => rank b ≤ rank a)
    (hsecond : second.Pairwise fun a b => rank b ≤ rank a)
    (h : ∀ r, (first.filter fun a => rank a == r) = second.filter fun a => rank a == r) :
    first = second := by
  induction first generalizing second with
  | nil =>
    cases second with
    | nil => rfl
    | cons b second =>
      exact absurd ((mem_iff_of_filter_eq rank h b).mpr List.mem_cons_self) (by simp)
  | cons a first ih =>
    cases second with
    | nil => exact absurd ((mem_iff_of_filter_eq rank h a).mp List.mem_cons_self) (by simp)
    | cons b second =>
      obtain ⟨ha, hfirstTail⟩ := List.pairwise_cons.mp hfirst
      obtain ⟨hb, hsecondTail⟩ := List.pairwise_cons.mp hsecond
      have hab : rank a = rank b := by
        apply Nat.le_antisymm
        · rcases List.mem_cons.mp ((mem_iff_of_filter_eq rank h a).mp List.mem_cons_self) with
            rfl | hmem
          · exact Nat.le_refl _
          · exact hb a hmem
        · rcases List.mem_cons.mp ((mem_iff_of_filter_eq rank h b).mpr List.mem_cons_self) with
            rfl | hmem
          · exact Nat.le_refl _
          · exact ha b hmem
      have hheads := h (rank a)
      rw [List.filter_cons_of_pos (by simp), List.filter_cons_of_pos (by simp [hab])] at hheads
      obtain ⟨rfl, -⟩ := List.cons.inj hheads
      have htails : ∀ r, (first.filter fun a => rank a == r) =
          second.filter fun a => rank a == r := by
        intro r
        have hr := h r
        by_cases har : rank a = r
        · rw [List.filter_cons_of_pos (by simpa using har),
            List.filter_cons_of_pos (by simpa using har)] at hr
          exact (List.cons.inj hr).2
        · rw [List.filter_cons_of_neg (by simpa using har),
            List.filter_cons_of_neg (by simpa using har)] at hr
          exact hr
      rw [ih hfirstTail hsecondTail htails]

/-- A relation between jobs of one rank holds along a list if it holds along each part of one
rank. -/
theorem pairwise_of_filter (rank : α → Nat) {R : α → α → Prop} {l : List α}
    (hrank : ∀ a b, rank a ≠ rank b → R a b)
    (h : ∀ r, (l.filter fun a => rank a == r).Pairwise R) : l.Pairwise R := by
  rw [List.pairwise_iff_forall_sublist]
  intro a b hab
  by_cases heq : rank a = rank b
  · have hsub := hab.filter fun c => rank c == rank a
    rw [List.filter_cons_of_pos (by simp), List.filter_cons_of_pos (by simp [heq])] at hsub
    exact List.pairwise_iff_forall_sublist.mp (h (rank a)) hsub
  · exact hrank a b heq

/-! ### Orders -/

theorem mergeSort_rank_map (rank : β → Nat) (f : α → β) (l : List α) :
    (l.map f).mergeSort (fun a b => rank b ≤ rank a) =
      (l.mergeSort fun a b => rank (f b) ≤ rank (f a)).map f := by
  rw [List.map_mergeSort (s := fun a b => decide (rank b ≤ rank a))]
  exact fun _ _ _ _ => rfl

theorem nodup_numbers {jobs : List α} {placed : List (α × Nat)}
    (h : placed.Perm jobs.zipIdx) : (placed.map Prod.snd).Nodup := by
  have hperm := h.map Prod.snd
  rw [List.zipIdx_map_snd] at hperm
  exact hperm.nodup_iff.mpr List.nodup_range'

theorem pairwise_numbers (jobs : List α) : jobs.zipIdx.Pairwise fun a b => a.2 < b.2 := by
  rw [← List.pairwise_map, List.zipIdx_map_snd]
  exact List.pairwise_lt_range'

theorem order_perm (waits : α → α → Bool) (rank : α → Nat) (jobs : List α) :
    (order waits rank jobs).Perm jobs := by
  have hlength : jobs.zipIdx.length ≤ jobs.length := Nat.le_of_eq List.length_zipIdx
  have hperm := (placed_place (waitsFor waits) hlength).perm.map Prod.fst
  rw [List.zipIdx_map_fst] at hperm
  exact (List.mergeSort_perm _ _).trans hperm

theorem pairwise_order_rank (waits : α → α → Bool) (rank : α → Nat) (jobs : List α) :
    (order waits rank jobs).Pairwise fun a b => rank b ≤ rank a :=
  pairwise_mergeSort_rank rank (sequence waits jobs)

section OneRank

variable {waits : α → α → Bool} {rank : α → Nat}
  (hrank : ∀ a b, waits a b = true → rank a = rank b)
include hrank

theorem waitsFor_rank (r : Nat) (a b : α × Nat) (h : waitsFor waits a b = true) :
    (rank a.1 == r) = (rank b.1 == r) := by
  simp only [waitsFor, Bool.and_eq_true] at h
  rw [hrank a.1 b.1 h.2]

/-- The order is one of the numbered jobs in which the jobs of each rank stand as if they had been
placed alone. -/
theorem exists_order_placed (jobs : List α) :
    ∃ placed : List (α × Nat), placed.Perm jobs.zipIdx ∧
      order waits rank jobs = placed.map Prod.fst ∧
        placed.Pairwise (fun a b => rank b.1 ≤ rank a.1) ∧
          ∀ r, Placed (waitsFor waits) (jobs.zipIdx.filter fun a => rank a.1 == r)
            (placed.filter fun a => rank a.1 == r) := by
  let rank' (a : α × Nat) : Nat := rank a.1
  let placed := place (waitsFor waits) jobs.length jobs.zipIdx
  have hplaced : Placed (waitsFor waits) jobs.zipIdx placed :=
    placed_place (waitsFor waits) (Nat.le_of_eq List.length_zipIdx)
  refine ⟨placed.mergeSort fun a b => rank' b ≤ rank' a,
    (List.mergeSort_perm placed _).trans hplaced.perm, mergeSort_rank_map rank Prod.fst placed,
    pairwise_mergeSort_rank rank' placed, fun r => ?_⟩
  rw [filter_mergeSort rank' placed r]
  exact hplaced.filter _ (waitsFor_rank hrank r)

end OneRank

/-! ### Jobs in order -/

/-- Whether a job has its turn where it stands among others, all with their positions: it waits for
none behind it, or a cycle is in the way, since from it on each job waits for another one. -/
def HasTurn (waits : α → α → Bool) (jobs : List (α × Nat)) (a : α × Nat) : Prop :=
  (∀ b ∈ jobs, a.2 < b.2 → waits a.1 b.1 = false) ∨
    ∀ b ∈ jobs, a.2 ≤ b.2 → ∃ c ∈ jobs, a.2 ≤ c.2 ∧ waitsFor waits b c = true

/-- Whether the jobs of higher rank come first, and each job has its turn among those of its
rank. -/
structure InOrder (waits : α → α → Bool) (rank : α → Nat) (jobs : List α) : Prop where
  ranks : jobs.Pairwise fun a b => rank b ≤ rank a
  turns : ∀ a ∈ jobs.zipIdx, HasTurn waits (jobs.zipIdx.filter fun b => rank b.1 == rank a.1) a

/-- A job in front takes no part in the turns of those behind it. -/
theorem hasTurn_cons_of_lt {waits : α → α → Bool} {first a : α × Nat} {rest : List (α × Nat)}
    (h : first.2 < a.2) : HasTurn waits (first :: rest) a ↔ HasTurn waits rest a := by
  have hnot : ¬ a.2 < first.2 := Nat.lt_asymm h
  have hnot' : ¬ a.2 ≤ first.2 := Nat.not_le_of_lt h
  simp [HasTurn, hnot, hnot']

theorem hasTurn_cons_self_iff {waits : α → α → Bool} {a : α × Nat} {rest : List (α × Nat)}
    (h : ∀ b ∈ rest, a.2 < b.2) :
    HasTurn waits (a :: rest) a ↔ Step (waitsFor waits) (a :: rest) a rest := by
  have hle : ∀ b ∈ a :: rest, a.2 ≤ b.2 := by
    simpa using fun b hb => (h b hb).le
  have hready : ∀ b ∈ a :: rest,
      (a.2 < b.2 → waits a.1 b.1 = false) ↔ waitsFor waits a b = false := by
    intro b hb
    rcases (hle b hb).eq_or_lt with heq | hlt
    · simp [waitsFor, heq]
    · simp [waitsFor, hlt, hlt.ne]
  rw [step_first_iff, HasTurn]
  simp only [isReady, List.all_eq_true, List.all_eq_false, Bool.not_eq_true', Bool.not_eq_false]
  refine or_congr (forall₂_congr hready) (forall₂_congr fun b hb => ?_)
  simp only [hle b hb, true_implies]
  exact exists_congr fun c => and_congr_right fun hc => by simp [hle c hc]

/-- Jobs with rising numbers are placed as they stand just when each of them has its turn. -/
theorem placed_self_iff {waits : α → α → Bool} {jobs : List (α × Nat)}
    (hnumbers : jobs.Pairwise fun a b => a.2 < b.2) :
    Placed (waitsFor waits) jobs jobs ↔ ∀ a ∈ jobs, HasTurn waits jobs a := by
  induction jobs with
  | nil => simpa using Placed.nil
  | cons first rest ih =>
    obtain ⟨hfirst, hrest⟩ := List.pairwise_cons.mp hnumbers
    rw [List.forall_mem_cons, hasTurn_cons_self_iff hfirst]
    have hbehind : (∀ a ∈ rest, HasTurn waits (first :: rest) a) ↔
        Placed (waitsFor waits) rest rest := by
      rw [ih hrest]
      exact forall₂_congr fun a ha => hasTurn_cons_of_lt (hfirst a ha)
    rw [hbehind]
    constructor
    · intro h
      cases h with
      | step hstep hplaced =>
        have hhead := step_first_iff.mpr hstep.ready_or
        obtain ⟨-, rfl⟩ := hstep.unique hhead
        exact ⟨hhead, hplaced⟩
    · rintro ⟨hstep, hplaced⟩
      exact .step hstep hplaced

/-- Jobs with different numbers, numbered anew by their places. -/
theorem map_renumber {jobs : List (α × Nat)} (hnumbers : (jobs.map Prod.snd).Nodup) :
    (jobs.map fun a => (a.1, (jobs.map Prod.snd).idxOf a.2)) = (jobs.map Prod.fst).zipIdx := by
  apply List.ext_getElem
  · simp
  · intro i hi _
    have hlt : i < (jobs.map Prod.snd).length := by simpa using hi
    have hplace := hnumbers.idxOf_getElem i hlt
    rw [List.getElem_map] at hplace
    simp [hplace]

/-- The order is in order: what is placed is placed again as it stands, and only the numbers of the
jobs are different. -/
theorem inOrder_order {waits : α → α → Bool} {rank : α → Nat}
    (hrank : ∀ a b, waits a b = true → rank a = rank b) (jobs : List α) :
    InOrder waits rank (order waits rank jobs) := by
  obtain ⟨placed, hperm, horder, -, hplaced⟩ := exists_order_placed hrank jobs
  refine ⟨pairwise_order_rank waits rank jobs, fun a ha => ?_⟩
  let peers := placed.filter fun b => rank b.1 == rank a.1
  let renumber (b : α × Nat) : α × Nat := (b.1, (placed.map Prod.snd).idxOf b.2)
  have hwaits : ∀ b ∈ peers, ∀ c ∈ peers,
      waitsFor waits (renumber b) (renumber c) = waitsFor waits b c := by
    intro b hb c hc
    have hnumber : (renumber b).2 = (renumber c).2 ↔ b.2 = c.2 :=
      List.idxOf_inj (List.mem_map_of_mem (List.mem_of_mem_filter hb))
    simp only [waitsFor, bne, Bool.beq_eq_decide_eq, hnumber, renumber]
  have hpeers : ((order waits rank jobs).zipIdx.filter fun b => rank b.1 == rank a.1) =
      peers.map renumber := by
    rw [horder, ← map_renumber (nodup_numbers hperm), List.filter_map]
    rfl
  have hagain : Placed (waitsFor waits) (peers.map renumber) (peers.map renumber) :=
    (hplaced (rank a.1)).self.map renumber hwaits
  rw [← hpeers, placed_self_iff ((pairwise_numbers _).filter _)] at hagain
  exact hagain a (List.mem_filter.mpr ⟨ha, beq_self_eq_true _⟩)

/-- Jobs in order are left as they are. -/
theorem order_of_inOrder {waits : α → α → Bool} {rank : α → Nat}
    (hrank : ∀ a b, waits a b = true → rank a = rank b) {jobs : List α}
    (h : InOrder waits rank jobs) : order waits rank jobs = jobs := by
  obtain ⟨placed, -, horder, hranks, hplaced⟩ := exists_order_placed hrank jobs
  have hranks' : jobs.zipIdx.Pairwise fun a b => rank b.1 ≤ rank a.1 := by
    rw [← List.pairwise_map (R := fun a b => rank b ≤ rank a), List.zipIdx_map_fst]
    exact h.ranks
  have hsame : placed = jobs.zipIdx := by
    refine eq_of_filter_eq (fun a : α × Nat => rank a.1) hranks hranks' fun r => ?_
    refine (hplaced r).unique ((placed_self_iff ((pairwise_numbers jobs).filter _)).mpr ?_)
    intro a ha
    obtain ⟨hmem, hr⟩ := List.mem_filter.mp ha
    rw [← beq_iff_eq.mp hr]
    exact h.turns a hmem
  rw [horder, hsame, List.zipIdx_map_fst]

/-- Ordering jobs that are in order changes nothing. -/
theorem order_order {waits : α → α → Bool} {rank : α → Nat}
    (hrank : ∀ a b, waits a b = true → rank a = rank b) (jobs : List α) :
    order waits rank (order waits rank jobs) = order waits rank jobs :=
  order_of_inOrder hrank (inOrder_order hrank jobs)

/-! ### Cycles and the order -/

/-- Jobs with different numbers are different, where no job comes twice. -/
theorem ne_of_mem_zipIdx {jobs : List α} (hnodup : jobs.Nodup) {a b : α × Nat}
    (ha : a ∈ jobs.zipIdx) (hb : b ∈ jobs.zipIdx) (hne : a.2 ≠ b.2) : a.1 ≠ b.1 := by
  rw [List.mem_zipIdx_iff_getElem?] at ha hb
  intro heq
  refine hne ((List.getElem?_inj (List.getElem?_eq_some_iff.mp ha).1 hnodup).mp ?_)
  rw [ha, hb, heq]

/-- In the order, as in the placing, a job that comes before one that it waits for can reach a
cycle: sorting keeps the order of the jobs of one rank. -/
theorem exists_order_pairwise {waits : α → α → Bool} {rank : α → Nat}
    (hrank : ∀ a b, waits a b = true → rank a = rank b) (jobs : List α) :
    ∃ placed : List (α × Nat), placed.Perm jobs.zipIdx ∧
      order waits rank jobs = placed.map Prod.fst ∧
        placed.Pairwise fun a b =>
          waitsFor waits a b = true → ReachesCycle (waitsFor waits) jobs.zipIdx a := by
  obtain ⟨placed, hperm, horder, -, hplaced⟩ := exists_order_placed hrank jobs
  refine ⟨placed, hperm, horder, ?_⟩
  apply pairwise_of_filter fun a : α × Nat => rank a.1
  · intro a b hab hwaits
    simp only [waitsFor, Bool.and_eq_true] at hwaits
    exact absurd (hrank a.1 b.1 hwaits.2) hab
  · intro r
    exact (hplaced r).pairwise.imp fun hab hwaits => (hab hwaits).mono (List.filter_subset_self _)

/-- Where waiting leads to no cycle, no job comes before one that it waits for. -/
theorem pairwise_order_of_acyclic {waits : α → α → Bool} {rank : α → Nat}
    (hrank : ∀ a b, waits a b = true → rank a = rank b) {jobs : List α} (hnodup : jobs.Nodup)
    (hacyclic : ∀ a, ¬ Relation.TransGen (fun a b => a ≠ b ∧ WaitsIn waits jobs a b) a a) :
    (order waits rank jobs).Pairwise fun a b => waits a b = false := by
  obtain ⟨placed, hperm, horder, hpair⟩ := exists_order_pairwise hrank jobs
  have hnumbers := List.pairwise_map.mp (nodup_numbers hperm)
  rw [horder, List.pairwise_map]
  apply (hpair.and hnumbers).imp
  intro a b h
  obtain ⟨hcycle, hne⟩ := h
  rw [← Bool.not_eq_true]
  intro hwaits
  obtain ⟨c, -, hc⟩ := hcycle (by simp [waitsFor, hne, hwaits])
  refine hacyclic c.1 (Relation.TransGen.lift Prod.fst ?_ _ _ hc)
  rintro x y ⟨hx, hy, hxy⟩
  simp only [waitsFor, Bool.and_eq_true, bne_iff_ne] at hxy
  exact ⟨ne_of_mem_zipIdx hnodup hx hy hxy.1, List.fst_mem_of_mem_zipIdx hx,
    List.fst_mem_of_mem_zipIdx hy, hxy.2⟩

end PathRules.Schedule

import PathRules.Proofs.Actions
import PathRules.Proofs.Questions
/-!
Independent chains. Where neither of two paths leads to the other, a visit of one chain leaves the
matches of the other one as they are, found or not, so the turns of the two chains can be taken in
any order. Main statement: chains of local validators that come in two orders, more markers first,
run to the same end if those of one number of markers are independent.
-/

namespace PathRules

/-- Whether two steps, each of which may have no result, can be taken in any order. -/
def Swaps {σ : Type} (f g : σ → Option σ) : Prop :=
  ∀ s, (f s).bind g = (g s).bind f

namespace Swaps

variable {σ α : Type} {f g : σ → Option σ} {step : σ → α → Option σ}

theorem symm (h : Swaps f g) : Swaps g f :=
  fun s => (h s).symm

theorem foldlM {as : List α} (h : ∀ a ∈ as, Swaps f fun s => step s a) :
    Swaps f fun s => as.foldlM step s := by
  induction as with
  | nil => exact fun s => Option.bind_fun_some (f s)
  | cons a as ih =>
    intro s
    have hfirst := h a List.mem_cons_self
    have hrest := ih fun b hb => h b (List.mem_cons_of_mem a hb)
    calc (f s).bind (fun s => (a :: as).foldlM step s)
        = ((f s).bind fun s => step s a).bind fun s => as.foldlM step s := by
          rw [Option.bind_assoc]
          rfl
      _ = (step s a).bind fun s => (f s).bind fun s => as.foldlM step s := by
          rw [hfirst s, Option.bind_assoc]
      _ = (step s a).bind fun s => (as.foldlM step s).bind f :=
          congrArg _ (funext fun s => hrest s)
      _ = ((a :: as).foldlM step s).bind f := by
          rw [List.foldlM_cons, Option.bind_eq_bind, Option.bind_assoc]

/-- Two orders of the same steps, both by rank, have the same result if steps of one rank can be
taken in any order. -/
theorem foldlM_eq_of_perm {rank : α → Nat} {first second : List α} (hperm : first.Perm second)
    (hfirst : first.Pairwise fun a b => rank b ≤ rank a)
    (hsecond : second.Pairwise fun a b => rank b ≤ rank a)
    (h : ∀ a ∈ first, ∀ b ∈ first, a ≠ b → rank a = rank b →
      Swaps (fun s => step s a) fun s => step s b) (s : σ) :
    first.foldlM step s = second.foldlM step s := by
  induction first generalizing second s with
  | nil => rw [List.nil_perm.mp hperm]
  | cons a first ih =>
    obtain ⟨before, after, rfl⟩ := List.append_of_mem (hperm.subset List.mem_cons_self)
    obtain ⟨ha, hrest⟩ := List.pairwise_cons.mp hfirst
    have hothers : first.Perm (before ++ after) :=
      (List.perm_cons a).mp (hperm.trans List.perm_middle)
    have hsorted : (before ++ after).Pairwise fun a b => rank b ≤ rank a :=
      hsecond.sublist ((List.sublist_cons_self a after).append_left before)
    have hrun := fun s => ih hothers hrest hsorted
      (fun b hb c hc => h b (List.mem_cons_of_mem a hb) c (List.mem_cons_of_mem a hc)) s
    -- What comes before the first step in the second order is of its rank.
    have hfront : Swaps (fun s => step s a) fun s => before.foldlM step s := by
      apply foldlM
      intro b hb
      by_cases hab : a = b
      · subst hab
        exact fun s => rfl
      · have hmem : b ∈ first := hothers.symm.subset (List.mem_append_left after hb)
        have hle := (List.pairwise_append.mp hsecond).2.2 b hb a List.mem_cons_self
        exact h a List.mem_cons_self b (List.mem_cons_of_mem a hmem) hab
          (Nat.le_antisymm hle (ha b hmem))
    calc (a :: first).foldlM step s
        = (step s a).bind fun s => (before ++ after).foldlM step s := by
          rw [List.foldlM_cons, Option.bind_eq_bind]
          exact congrArg _ (funext hrun)
      _ = ((step s a).bind fun s => before.foldlM step s).bind fun s => after.foldlM step s := by
          simp only [List.foldlM_append, Option.bind_eq_bind, Option.bind_assoc]
      _ = ((before.foldlM step s).bind fun s => step s a).bind fun s => after.foldlM step s := by
          rw [hfront s]
      _ = (before ++ a :: after).foldlM step s := by
          simp only [List.foldlM_append, List.foldlM_cons, Option.bind_eq_bind, Option.bind_assoc]

end Swaps

namespace Location

/-- Where a location leads to another one, so do the paths of their shapes. -/
theorem HasShape.prefix_of_prefix {l m : Location} {p q : Path} (hl : l.HasShape p)
    (hm : m.HasShape q) (h : l <+: m) : p <+: q := by
  obtain ⟨rest, rfl⟩ := h
  have htake : l.HasShape (q.take l.length) := List.forall₂_take_append q l rest hm
  rw [hl.path_unique htake]
  exact List.take_prefix l.length q

/-- Locations of two shapes are apart where neither path leads to the other. -/
theorem HasShape.apart {l m : Location} {p q : Path} (hl : l.HasShape p) (hm : m.HasShape q)
    (hpq : ¬ p <+: q) (hqp : ¬ q <+: p) : Apart l m :=
  ⟨fun h => hpq (hl.prefix_of_prefix hm h), fun h => hqp (hm.prefix_of_prefix hl h)⟩

end Location

namespace Value

theorem outline_assignChild (v : Value) (s : Segment) (x : Option Value) :
    (v.assignChild s x).outline = v.outline := by
  cases x with
  | some c => exact outline_putChild v s c
  | none => cases v <;> cases s <;> rfl

theorem isSome_assign {x o : Option Value} {l : Location} (hl : l ≠ []) :
    (assign x l o).isSome = o.isSome := by
  cases l with
  | nil => contradiction
  | cons s rest => exact Option.isSome_map

theorem isMap_of_outline_eq {v w : Value} (h : v.outline = w.outline) : v.isMap = w.isMap := by
  cases v <;> cases w <;> simp_all [outline, isMap]

theorem isSequence_of_outline_eq {v w : Value} (h : v.outline = w.outline) :
    v.isSequence = w.isSequence := by
  cases v <;> cases w <;> simp_all [outline, isSequence]

theorem isSequence_eq_true_iff {v : Value} : v.isSequence = true ↔ ∃ items, v = sequence items := by
  cases v <;> simp [isSequence]

end Value

/-- Whether an entry is found depends on the outline of what holds it. -/
theorem Source.found_entry_congr {v w : Value} {s : Segment} (h : v.outline = w.outline)
    (hchild : (v.child? s).isSome = (w.child? s).isSome) :
    (Source.entry v s).found = (Source.entry w s).found := by
  cases v <;> cases w <;> cases s <;> simp_all [Value.outline, found]

namespace RunState

open Value Location Matches

variable {options : RunOptions}

/-- The places of matches depend on the value that they start from. -/
theorem places_congr {source source' : Source} (hvalue : source'.value? = source.value?)
    (hfound : source'.found = source.found) (segment : Option Segment) (base : Location)
    (q : Path) :
    places (fromSource source' segment base q) = places (fromSource source segment base q) := by
  rcases q with _ | ⟨name | _, rest⟩
  · simp [fromSource, places, toList, hfound]
  · rw [fromSource, fromSource, hvalue]
  · rw [fromSource, fromSource, hvalue]

theorem places_ofPath (q : Path) (data : Value) :
    places (ofPath q data) = places (fromSource (.root data) none [] q) := by
  rcases q with _ | ⟨name | _, rest⟩
  · rfl
  · change places (fromSource (.entry data (.key name)) (some (.key name)) [.key name] rest) =
      places (fromSource (if data.isMap then Source.entry data (.key name) else .detached)
        (some (.key name)) [.key name] rest)
    apply places_congr <;> cases data <;> rfl
  · rfl

theorem places_each_of_cons {source : Source} {item : Value} {items : List Value}
    (hvalue : source.value? = some (.sequence (item :: items))) (segment : Option Segment)
    (base : Location) (q : Path) :
    places (fromSource source segment base (.each :: q)) =
      (List.range (item :: items).length).flatMap fun (i : Nat) =>
        places (fromSource (.entry (.sequence (item :: items)) (.index i)) (some (.index i))
          (base ++ [.index i]) q) := by
  rw [fromSource, hvalue]
  simp only [places_elements, List.flatMap_map]

theorem places_each_of_misshapen {source : Source} {v : Value} (hvalue : source.value? = some v)
    (hv : v.isSequence = false) (segment : Option Segment) (base : Location) (q : Path) :
    places (fromSource source segment base (.each :: q)) =
      places (fromSource (.misshapen v) (some .missing) (base ++ [.missing]) q) := by
  rw [fromSource, hvalue]
  cases v with
  | sequence items => contradiction
  | _ => simp only [places_elements, List.flatMap_cons, List.flatMap_nil, List.append_nil]

/-- Values of one outline have the same places if what they hold has. -/
theorem places_cons_congr {a : Accessor} {q : Path} {source source' : Source} {v w : Value}
    (hv : source.value? = some v) (hw : source'.value? = some w) (houtline : w.outline = v.outline)
    (hbelow : ∀ s, a.Fits s → ∀ base,
      places (fromSource (.entry w s) (some s) base q) =
        places (fromSource (.entry v s) (some s) base q))
    (segment : Option Segment) (base : Location) :
    places (fromSource source' segment base (a :: q)) =
      places (fromSource source segment base (a :: q)) := by
  cases a with
  | key name =>
    rw [fromSource, fromSource, hv, hw]
    dsimp only
    rw [isMap_of_outline_eq houtline]
    split
    · exact hbelow _ rfl _
    · rfl
  | each =>
    cases hsequence : v.isSequence with
    | false =>
      have hsequence' := (isSequence_of_outline_eq houtline).trans hsequence
      rw [places_each_of_misshapen hw hsequence', places_each_of_misshapen hv hsequence]
      apply places_congr <;> rfl
    | true =>
      obtain ⟨items, rfl⟩ := isSequence_eq_true_iff.mp hsequence
      obtain ⟨others, rfl⟩ :=
        isSequence_eq_true_iff.mp ((isSequence_of_outline_eq houtline).trans hsequence)
      have hlength : others.length = items.length := by simpa [outline] using houtline
      cases items with
      | nil =>
        rw [List.length_eq_zero_iff.mp hlength] at hw
        rw [fromSource, fromSource, hv, hw]
      | cons item items =>
        cases others with
        | nil => contradiction
        | cons other others =>
          rw [places_each_of_cons hv, places_each_of_cons hw, hlength]
          exact List.flatMap_congr fun i _ => hbelow _ ⟨_, rfl⟩ _

/-- An assignment at a location of another shape leaves the places of matches. -/
theorem places_assign {p q : Path} {l : Location} (hl : l.HasShape p) (hpq : ¬ p <+: q)
    (hqp : ¬ q <+: p) (x : Option Value) {source source' : Source}
    (hvalue : source'.value? = assign x l source.value?) (hfound : source'.found = source.found)
    (segment : Option Segment) (base : Location) :
    places (fromSource source' segment base q) = places (fromSource source segment base q) := by
  induction q generalizing p l source source' segment base with
  | nil => exact absurd List.nil_prefix hqp
  | cons a q ih =>
    cases hv : source.value? with
    | none =>
      rw [hv, assign_none] at hvalue
      exact places_congr (hvalue.trans hv.symm) hfound segment base _
    | some v =>
      rcases p with _ | ⟨b, p⟩
      · exact absurd List.nil_prefix hpq
      obtain ⟨s, rest, hs, hrest, rfl⟩ := List.forall₂_cons_left_iff.mp hl
      rw [hv, assign_cons] at hvalue
      have houtline := outline_assignChild v s (assign x rest (v.child? s))
      apply places_cons_congr hv hvalue houtline
      intro t ht base
      by_cases hst : s = t
      · subst hst
        rw [hs.unique ht, List.prefix_cons_inj] at hpq hqp
        have hne : rest ≠ [] := by
          rintro rfl
          rw [List.forall₂_nil_right_iff.mp hrest] at hpq
          exact hpq List.nil_prefix
        have hchild := child?_assignChild_assign v s (x := x) (Or.inr hne)
        apply ih hrest hpq hqp
        · exact hchild
        · exact Source.found_entry_congr houtline (by rw [hchild, isSome_assign hne])
      · have hchild : (v.assignChild s (assign x rest (v.child? s))).child? t = v.child? t :=
          child?_assignChild_of_ne isSome_of_isSome_assign hst
        apply places_congr
        · exact hchild
        · exact Source.found_entry_congr houtline (by rw [hchild])

theorem places_ofPath_assign {p q : Path} {l : Location} (hl : l.HasShape p) (hpq : ¬ p <+: q)
    (hqp : ¬ q <+: p) {x : Option Value} {data new : Value}
    (hnew : some new = assign x l (some data)) :
    places (ofPath q new) = places (ofPath q data) := by
  rw [places_ofPath, places_ofPath]
  apply places_assign hl hpq hqp x
  · exact hnew
  · rfl

/-- What the visits of a chain do at their places: an effect that depends on the value there, or
none if the run is abandoned. -/
abbrev Reaction := Location × Found → Option Value → Option Effect

/-- Whether a chain reacts so to what it visits. A place counts as found only if there is a
value. -/
def Reacts (options : RunOptions) (chain : FieldChain) (reaction : Reaction) : Prop :=
  ∀ place o, (place.2 = .found → o.isSome) →
    Acts place.1 o (reaction place o) fun s => visit options chain.items chain.head s place

/-- A reaction at one place. -/
def react (reaction : Reaction) (o : Observed) (place : Location × Found) : Option Observed :=
  (reaction place (o.data.get? place.1)).map fun e => e.apply place.1 o

/-- The turn of a chain, as far as it can be told apart. -/
def turn (reaction : FieldChain → Reaction) (o : Observed) (chain : FieldChain) :
    Option Observed :=
  (places (ofPath chain.path o.data)).foldlM (react (reaction chain)) o

theorem exists_reacts (options : RunOptions) : ∃ reaction : FieldChain → Reaction,
    ∀ chain : FieldChain, (∀ f ∈ chain.fields, ∀ v ∈ f.validators, v.Local) →
      Reacts options chain (reaction chain) := by
  have hreaction : ∀ (chain : FieldChain) (place : Location × Found) (o : Option Value), ∃ e,
      (∀ f ∈ chain.fields, ∀ v ∈ f.validators, v.Local) → (place.2 = .found → o.isSome) →
        Acts place.1 o e fun s => visit options chain.items chain.head s place := by
    intro chain place o
    by_cases h : (∀ f ∈ chain.fields, ∀ v ∈ f.validators, v.Local) ∧
        (place.2 = .found → o.isSome)
    · obtain ⟨e, he⟩ := exists_acts_visit options h.1 place.1 place.2 o h.2
      exact ⟨e, fun _ _ => he⟩
    · exact ⟨none, fun hlocal ho => absurd ⟨hlocal, ho⟩ h⟩
  choose reaction hreaction using hreaction
  exact ⟨reaction, fun chain hlocal place o => hreaction chain place o hlocal⟩

theorem observed_visit {chain : FieldChain} {reaction : Reaction}
    (hreacts : Reacts options chain reaction) (s : RunState) (place : Location × Found)
    (hsome : place.2 = .found → (s.data.get? place.1).isSome) :
    (visit options chain.items chain.head s place).observed =
      s.observed.bind fun o => react reaction o place := by
  cases hrunning : s.abandoned with
  | true =>
    rw [visit_abandoned options _ _ place hrunning, observed_of_abandoned hrunning]
    rfl
  | false =>
    rw [observed_of_running hrunning]
    exact hreacts place (s.data.get? place.1) hsome s hrunning rfl

/-- Going over places that are apart is reacting at each of them. -/
theorem observed_foldl_visit {chain : FieldChain} {reaction : Reaction}
    (hreacts : Reacts options chain reaction) (ps : List (Location × Found)) {s : RunState}
    (hexists : ∀ l ∈ foundPlaces ps, ∃ v, s.data.get? l = some v)
    (hapart : (foundPlaces ps).Pairwise Apart) :
    (ps.foldl (visit options chain.items chain.head) s).observed =
      s.observed.bind fun o => ps.foldlM (react reaction) o := by
  let R (ps : List (Location × Found)) (s t : RunState) : Prop :=
    t.observed = s.observed.bind fun o => ps.foldlM (react reaction) o
  refine foldl_places_induction (R := R)
    (fun s l how hhow => visit_missing_data options _ _ s l hhow) (spares_visit options _ _)
    (fun s => (Option.bind_fun_some s.observed).symm)
    (fun l how ps s t hhow hrest => ?_) (fun l v ps s t hv _ hrest => ?_) ps hexists hapart
  · have hvisit := observed_visit hreacts s (l, how) fun h => absurd h hhow
    simp only [R] at hrest ⊢
    rw [hrest, hvisit, Option.bind_assoc]
    rfl
  · have hvisit := observed_visit hreacts s (l, .found) fun _ => by rw [hv]; rfl
    simp only [R] at hrest ⊢
    rw [hrest, hvisit, Option.bind_assoc]
    rfl

/-- The turn of a chain of local validators. -/
theorem observed_runChain {reaction : FieldChain → Reaction} {chain : FieldChain}
    (hreacts : Reacts options chain (reaction chain)) (s : RunState) :
    (runChain options s chain).observed = s.observed.bind fun o => turn reaction o chain := by
  have hfold := observed_foldl_visit hreacts (places (ofPath chain.path s.data)) (s := s)
    (fun l hl => by
      obtain ⟨-, w, -, -, hw⟩ := exists_of_mem_foundPlaces hl
      exact ⟨w, hw⟩)
    (pairwise_apart_foundPlaces chain.path s.data [])
  cases hrunning : s.abandoned with
  | true =>
    rw [runChain, hfold, observed_of_abandoned hrunning]
    rfl
  | false =>
    rw [runChain, hfold, observed_of_running hrunning]
    rfl

theorem observed_foldl_runChain {reaction : FieldChain → Reaction} {chains : List FieldChain}
    (hreacts : ∀ chain ∈ chains, Reacts options chain (reaction chain)) (s : RunState) :
    (chains.foldl (runChain options) s).observed =
      s.observed.bind fun o => chains.foldlM (turn reaction) o := by
  induction chains generalizing s with
  | nil => exact (Option.bind_fun_some s.observed).symm
  | cons chain chains ih =>
    rw [List.foldl_cons, ih (fun c hc => hreacts c (List.mem_cons_of_mem chain hc)),
      observed_runChain (hreacts chain List.mem_cons_self), Option.bind_assoc]
    rfl

/-- Reactions at places that are apart can come in any order. -/
theorem swaps_react (r r' : Reaction) {place place' : Location × Found}
    (h : Apart place.1 place'.1) :
    Swaps (fun o => react r o place) fun o => react r' o place' := by
  intro o
  dsimp only [react]
  cases he : r place (o.data.get? place.1) with
  | none =>
    cases he' : r' place' (o.data.get? place'.1) with
    | none => rfl
    | some e' => simp [e'.get?_apply_of_apart h.symm, he]
  | some e =>
    cases he' : r' place' (o.data.get? place'.1) with
    | none => simp [e.get?_apply_of_apart h, he']
    | some e' =>
      simp [e.get?_apply_of_apart h, e'.get?_apply_of_apart h.symm, he, he',
        e.apply_comm e' h]

theorem hasShape_places (q : Path) (data : Value) :
    ∀ place ∈ places (ofPath q data), place.1.HasShape q := by
  intro place hplace
  rw [places_ofPath] at hplace
  obtain ⟨n, hn, hshape⟩ := exists_of_mem_places hplace
  rw [hn]
  exact hshape

/-- Reactions at places of one path leave the places of another one. -/
theorem places_of_foldlM_react {p q : Path} (hpq : ¬ p <+: q) (hqp : ¬ q <+: p)
    {reaction : Reaction} {ps : List (Location × Found)} (hps : ∀ place ∈ ps, place.1.HasShape p)
    {o o' : Observed} (h : ps.foldlM (react reaction) o = some o') :
    places (ofPath q o'.data) = places (ofPath q o.data) := by
  induction ps generalizing o with
  | nil =>
    cases h
    rfl
  | cons place ps ih =>
    rw [List.foldlM_cons, Option.bind_eq_bind, Option.bind_eq_some_iff] at h
    obtain ⟨next, hstep, hrest⟩ := h
    obtain ⟨e, -, rfl⟩ := Option.map_eq_some_iff.mp hstep
    have hshape := hps place List.mem_cons_self
    have hne : place.1 ≠ [] := by
      intro hnil
      rw [hnil] at hshape
      rw [List.forall₂_nil_right_iff.mp hshape] at hpq
      exact hpq List.nil_prefix
    rw [ih (fun m hm => hps m (List.mem_cons_of_mem place hm)) hrest]
    exact places_ofPath_assign hshape hpq hqp (e.some_apply_data (Or.inr hne) o)

/-- Chains of which neither path leads to the other one can take their turns in any order. -/
theorem swaps_turn (reaction : FieldChain → Reaction) {chain other : FieldChain}
    (hpath : ¬ chain.path <+: other.path) (hpath' : ¬ other.path <+: chain.path) :
    Swaps (fun o => turn reaction o chain) fun o => turn reaction o other := by
  intro o
  have hshape := hasShape_places chain.path o.data
  have hshape' := hasShape_places other.path o.data
  have hswaps : Swaps (fun o' => (places (ofPath chain.path o.data)).foldlM
      (react (reaction chain)) o') fun o' => (places (ofPath other.path o.data)).foldlM
        (react (reaction other)) o' := by
    apply Swaps.foldlM
    intro place' hplace'
    apply Swaps.symm
    apply Swaps.foldlM
    intro place hplace
    exact (swaps_react _ _ ((hshape place hplace).apart (hshape' place' hplace') hpath hpath')).symm
  calc (turn reaction o chain).bind (fun o => turn reaction o other)
      = (turn reaction o chain).bind fun o' => (places (ofPath other.path o.data)).foldlM
          (react (reaction other)) o' := by
        apply Option.bind_congr
        intro o' ho'
        rw [turn, places_of_foldlM_react hpath hpath' hshape ho']
    _ = (turn reaction o other).bind fun o' => (places (ofPath chain.path o.data)).foldlM
          (react (reaction chain)) o' := hswaps o
    _ = (turn reaction o other).bind fun o => turn reaction o chain := by
        apply Option.bind_congr
        intro o' ho'
        rw [turn, places_of_foldlM_react hpath' hpath hshape' ho']

/-- Chains that come in two orders, more markers first, run to the same end: chains of one number of
markers are independent, and the others keep their order. -/
theorem observed_eq_of_perm {first second : List FieldChain} (hperm : first.Perm second)
    (hfirst : first.Pairwise fun a b => b.arrayDepth ≤ a.arrayDepth)
    (hsecond : second.Pairwise fun a b => b.arrayDepth ≤ a.arrayDepth)
    (hlocal : ∀ chain ∈ first, ∀ f ∈ chain.fields, ∀ v ∈ f.validators, v.Local)
    (hapart : ∀ a ∈ first, ∀ b ∈ first, a ≠ b → a.arrayDepth = b.arrayDepth →
      ¬ a.path <+: b.path) (s : RunState) :
    (first.foldl (runChain options) s).observed = (second.foldl (runChain options) s).observed := by
  obtain ⟨reaction, hreaction⟩ := exists_reacts options
  have hreacts : ∀ chain ∈ first, Reacts options chain (reaction chain) :=
    fun chain hchain => hreaction chain (hlocal chain hchain)
  rw [observed_foldl_runChain hreacts,
    observed_foldl_runChain fun chain hchain => hreacts chain (hperm.symm.subset hchain)]
  apply Option.bind_congr
  intro o _
  apply Swaps.foldlM_eq_of_perm hperm hfirst hsecond
  intro a ha b hb hab hdepth
  exact swaps_turn reaction (hapart a ha b hb hab hdepth) (hapart b hb a ha hab.symm hdepth.symm)

end RunState
end PathRules

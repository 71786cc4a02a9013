import PathRules.Proofs.Gaps
import PathRules.Proofs.Reordering
import PathRules.Proofs.Settling
/-!
Running rules over what they left. The turn of a chain is about the values that the run is going to
end with: chains that come later write neither at its places nor below, and open no gaps in its
path. Main statement: where the fields accept what they leave, a run without messages ends with data
that another run leaves as it is, again without messages.
-/

namespace PathRules

namespace Value

variable {free gone : Location → Prop} {l : Location}

theorem ConfinedItems.eq_self {items others : List Value} {i : Nat}
    (h : ConfinedItems free gone l i items others)
    (hitems : ∀ v ∈ items, ∀ s w, Confined free gone (l ++ [s]) v w → w = v) : others = items := by
  induction items generalizing i others with
  | nil => exact h
  | cons v items ih =>
    obtain ⟨w, rest, rfl, hw, hrest⟩ := h
    obtain ⟨hfirst, hitems⟩ := List.forall_mem_cons.mp hitems
    rw [hfirst _ w hw, ih hrest hitems]

theorem ConfinedEntries.eq_self {entries others : List (String × Value)}
    (h : ConfinedEntries free gone l entries others)
    (hentries : ∀ e ∈ entries, ∀ s w, Confined free gone (l ++ [s]) e.2 w → w = e.2)
    (hgone : ∀ s, ¬ gone (l ++ [s])) : others = entries := by
  induction entries generalizing others with
  | nil => exact h
  | cons e entries ih =>
    obtain ⟨name, v⟩ := e
    obtain ⟨hfirst, hentries⟩ := List.forall_mem_cons.mp hentries
    rcases h with ⟨w, rest, rfl, hw, hrest⟩ | ⟨-, hm, -⟩
    · rw [hfirst _ w hw, ih hrest hentries]
    · exact absurd hm (hgone _)

theorem forall_not_below {P : Location → Prop} (h : ∀ n, ¬ P (l ++ n)) (s : Segment) :
    ∀ n, ¬ P (l ++ [s] ++ n) :=
  fun n => by simpa using h (s :: n)

/-- Where nothing is free and nothing goes, everything stays. -/
theorem Confined.eq_self {v w : Value} (h : Confined free gone l v w)
    (hfree : ∀ n, ¬ free (l ++ n)) (hgone : ∀ n, ¬ gone (l ++ n)) : w = v := by
  induction v using tree_induction generalizing l w with
  | leaf v hsequence hmap =>
    exact ((confined_iff_of_leaf hsequence hmap).mp h).resolve_left fun h =>
      hfree [] (by simpa using h.1)
  | sequence items ih =>
    obtain ⟨others, rfl, hothers⟩ := (confined_sequence.mp h).resolve_left
      (by simpa using hfree [])
    rw [hothers.eq_self fun v hv s w hw =>
      ih v hv hw (forall_not_below hfree s) (forall_not_below hgone s)]
  | map entries ih =>
    obtain ⟨others, rfl, hothers⟩ := (confined_map.mp h).resolve_left (by simpa using hfree [])
    rw [hothers.eq_self (fun e he s w hw =>
      ih e he hw (forall_not_below hfree s) (forall_not_below hgone s)) fun s => hgone [s]]

/-- What is gone from a map was null. -/
theorem ConfinedEntries.null_of_get?_eq_none {entries others : List (String × Value)}
    (h : ConfinedEntries free gone l entries others) {name : String} {v : Value}
    (hv : Keyed.get? entries name = some v) (hnone : Keyed.get? others name = none) :
    v = .null ∧ gone (l ++ [Segment.key name]) := by
  induction entries generalizing others with
  | nil => contradiction
  | cons e entries ih =>
    obtain ⟨other, u⟩ := e
    by_cases hname : other = name
    · subst hname
      rw [Keyed.get?, if_pos rfl] at hv
      cases hv
      rcases h with ⟨w, others, rfl, -, -⟩ | ⟨hnull, hgone, -⟩
      · rw [Keyed.get?, if_pos rfl] at hnone
        contradiction
      · exact ⟨hnull, hgone⟩
    · rw [Keyed.get?, if_neg hname] at hv
      rcases h with ⟨w, others, rfl, -, hothers⟩ | ⟨-, -, hothers⟩
      · rw [Keyed.get?, if_neg hname] at hnone
        exact ih hothers hv hnone
      · exact ih hothers hv hnone

theorem Confined.null_of_child?_eq_none {v w c : Value} (h : Confined free gone l v w)
    (hfree : ¬ free l) {s : Segment} (hc : v.child? s = some c) (hnone : w.child? s = none) :
    c = .null ∧ gone (l ++ [s]) := by
  rcases child?_eq_some_iff.mp hc with ⟨entries, name, rfl, rfl, hget⟩ | ⟨items, n, rfl, rfl, hn⟩
  · obtain ⟨others, rfl, hothers⟩ := (confined_map.mp h).resolve_left hfree
    exact hothers.null_of_get?_eq_none hget hnone
  · obtain ⟨others, rfl, hothers⟩ := (confined_sequence.mp h).resolve_left hfree
    obtain ⟨w, hw, -⟩ := hothers.getElem? hn
    rw [child?_sequence.mpr ⟨n, rfl, hw⟩] at hnone
    contradiction

theorem Confined.outline_eq {v w : Value} (h : Confined free gone l v w) (hfree : ¬ free l) :
    w.outline = v.outline := by
  cases v with
  | sequence items =>
    obtain ⟨others, rfl, hothers⟩ := (confined_sequence.mp h).resolve_left hfree
    rw [outline, outline, hothers.length_eq]
  | map entries =>
    obtain ⟨others, rfl, -⟩ := (confined_map.mp h).resolve_left hfree
    rfl
  | _ => rw [((confined_iff_of_leaf rfl rfl).mp h).resolve_left fun h => hfree h.1]

end Value

namespace Path

open Value

theorem gaps_each_of_not_sequence {v : Value} (hv : v.isSequence = false) (p : Path) :
    gaps (.each :: p) (some v) = (gaps p none).map fun l => .missing :: l := by
  cases v <;> first | rfl | contradiction

theorem mem_gaps_each {items : List Value} (hitems : items ≠ []) {p : Path} {l : Location} :
    l ∈ gaps (.each :: p) (some (.sequence items)) ↔
      ∃ (n : Nat) (rest : Location), n < items.length ∧
        rest ∈ gaps p ((Value.sequence items).child? (.index n)) ∧ l = .index n :: rest := by
  obtain ⟨item, items, rfl⟩ := List.exists_cons_of_ne_nil hitems
  have hgaps : gaps (.each :: p) (some (.sequence (item :: items))) =
      (List.range (item :: items).length).flatMap fun (n : Nat) =>
        (gaps p ((Value.sequence (item :: items)).child? (.index n))).map fun l =>
          .index n :: l := rfl
  rw [hgaps]
  simp only [List.mem_flatMap, List.mem_range, List.mem_map]
  constructor
  · rintro ⟨n, hn, rest, hrest, rfl⟩
    exact ⟨n, rest, hn, hrest, rfl⟩
  · rintro ⟨n, rest, hn, hrest, rfl⟩
    exact ⟨n, hn, rest, hrest, rfl⟩

theorem ne_nil_of_mem_gaps {a : Accessor} {p : Path} {o : Option Value} {l : Location}
    (h : l ∈ gaps (a :: p) o) : l ≠ [] := by
  rintro rfl
  cases a with
  | key name => simp [gaps] at h
  | each =>
    rw [gaps.eq_def] at h
    dsimp only at h
    split at h
    · split at h <;> simp at h
    · simp at h
    · simp at h

/-- Values of one outline have the same gaps below elements, but for those in the elements
themselves. -/
theorem mem_gaps_each_of_outline {v w : Value} (h : w.outline = v.outline) {p : Path}
    {s : Segment} {m : Location} (hm : s :: m ∈ gaps (.each :: p) (some w)) :
    s :: m ∈ gaps (.each :: p) (some v) ∨
      ∃ c, w.child? s = some c ∧ m ∈ gaps p (some c) ∧
        (m ∈ gaps p (v.child? s) → s :: m ∈ gaps (.each :: p) (some v)) := by
  have hsequence := isSequence_of_outline_eq h
  cases hv : v.isSequence with
  | false =>
    rw [gaps_each_of_not_sequence (hsequence.trans hv)] at hm
    rw [gaps_each_of_not_sequence hv]
    exact Or.inl hm
  | true =>
    obtain ⟨items, rfl⟩ := isSequence_eq_true_iff.mp hv
    obtain ⟨others, rfl⟩ := isSequence_eq_true_iff.mp (hsequence.trans hv)
    have hlength : others.length = items.length := by simpa [outline] using h
    by_cases hitems : items = []
    · rw [hitems] at hlength ⊢
      rw [List.length_eq_zero_iff.mp hlength] at hm
      exact Or.inl hm
    · have hothers : others ≠ [] := by
        rintro rfl
        exact hitems (List.length_eq_zero_iff.mp hlength.symm)
      obtain ⟨n, rest, hn, hrest, heq⟩ := (mem_gaps_each hothers).mp hm
      obtain ⟨rfl, rfl⟩ := List.cons.inj heq
      have hchild : (Value.sequence others).child? (.index n) = some others[n] :=
        child?_sequence.mpr ⟨n, rfl, List.getElem?_eq_getElem hn⟩
      refine Or.inr ⟨_, hchild, hchild ▸ hrest, fun hgap => ?_⟩
      exact (mem_gaps_each hitems).mpr ⟨n, m, hlength ▸ hn, hgap, rfl⟩

/-- A confined change opens no gaps but where nulls are gone. -/
theorem mem_gaps_of_confined {free gone : Location → Prop} {p : Path} {base l : Location}
    {v w : Value} (h : Confined free gone base v w) (hv : DistinctTo l v)
    (hfree : ∀ n, n <+: l → n ≠ l → ¬ free (base ++ n)) (hl : l ∈ p.gaps (some w)) :
    l ∈ p.gaps (some v) ∨ v.get? l = some .null ∧ gone (base ++ l) := by
  induction p generalizing base l v w with
  | nil => contradiction
  | cons a rest ih =>
    obtain ⟨s, m, rfl⟩ := List.exists_cons_of_ne_nil (ne_nil_of_mem_gaps hl)
    obtain ⟨hnodup, hdistinct⟩ := hv
    obtain ⟨hhere, hbelow⟩ := not_free_of_cons hfree
    -- What stays of a child opens no gaps in it either.
    have hstep : ∀ c', w.child? s = some c' → m ∈ gaps rest (some c') →
        m ∈ gaps rest (v.child? s) ∨
          v.get? (s :: m) = some .null ∧ gone (base ++ s :: m) := by
      intro c' hc' hm
      obtain ⟨c, d, hc, hd, hconfined⟩ := (h.child? hhere hnodup s).resolve_left (by simp [hc'])
      cases hc'.symm.trans hd
      rw [hc, Value.get?, hc]
      simpa using ih hconfined (hdistinct c hc) hbelow hm
    cases a with
    | key name =>
      simp only [gaps, Option.bind_some, List.mem_map, List.cons.injEq, existsAndEq, and_true]
        at hl ⊢
      obtain ⟨hm, rfl⟩ := hl
      cases hw : w.child? (.key name) with
      | some c' => exact (hstep c' hw (hw ▸ hm)).imp_left fun hgap => ⟨hgap, rfl⟩
      | none =>
        rw [hw] at hm
        cases hc : v.child? (.key name) with
        | none => exact Or.inl ⟨hm, rfl⟩
        | some c =>
          obtain ⟨rfl, hgone⟩ := h.null_of_child?_eq_none hhere hc hw
          -- A null is as good as nothing, unless the path ends at it.
          rcases rest with _ | ⟨b, rest⟩
          · rw [List.mem_singleton.mp hm]
            exact Or.inr ⟨by rw [Value.get?, hc]; rfl, hgone⟩
          · refine Or.inl ⟨?_, rfl⟩
            cases b <;> exact hm
    | each =>
      rcases mem_gaps_each_of_outline (h.outline_eq hhere) hl with hgap | ⟨c, hc, hm, hback⟩
      · exact Or.inl hgap
      · exact (hstep c hc hm).imp_left hback

open CompiledRules in
/-- Where a path that does not end with elements leads to elements of another one, it leads to that
one. -/
theorem prefix_of_prefix_elementsAt {p q : Path} (hp : isElementPath p = false) {k : Nat}
    (h : p <+: q.elementsAt k) : p <+: q := by
  induction k with
  | zero => rwa [elementsAt_zero] at h
  | succ k ih =>
    rw [elementsAt_succ, List.prefix_concat_iff] at h
    rcases h with rfl | h
    · rw [← elementsAt_succ, isElementPath_elementsAt_succ] at hp
      contradiction
    · exact ih h

theorem arrayDepth_le_of_prefix {p q : Path} (h : p <+: q) : p.arrayDepth ≤ q.arrayDepth :=
  h.sublist.count_le _

end Path

namespace RunState

open Value Matches

variable {options : RunOptions}

theorem silent_of_foldl_runChain {chains : List FieldChain} {s : RunState}
    (h : Silent (chains.foldl (runChain options) s)) : Silent s :=
  ((Records.collect Records.runChain s chains).silent h).1

/-- Where all places of all chains keep a run as it is, it ends as it started. -/
theorem foldl_runChain_still {chains : List FieldChain} {s : RunState}
    (hrunning : s.abandoned = false)
    (h : ∀ chain ∈ chains, ∀ place ∈ places (ofPath chain.path s.data),
      Still options chain.items chain.head place (s.data.get? place.1)) :
    (chains.foldl (runChain options) s).observed = s.observed := by
  induction chains generalizing s with
  | nil => rfl
  | cons chain chains ih =>
    obtain ⟨hfirst, hrest⟩ := List.forall_mem_cons.mp h
    have hturn : (runChain options s chain).observed = s.observed := foldl_still hrunning hfirst
    obtain ⟨hrunning', hdata⟩ := of_observed_eq hturn hrunning
    rw [List.foldl_cons, ih hrunning' (hdata ▸ hrest), hturn]

end RunState

namespace CompiledRules

open RunState Value Matches

variable {c : CompiledRules} {options : RunOptions}

/-- Whether rules leave what they left: outermost fields with the same number of markers are apart,
only innermost fields convert, and all of them accept what they leave. -/
structure Steady (options : RunOptions) (c : CompiledRules) : Prop where
  independent : c.Independent
  keeps : ∀ f ∈ c.fields, ∀ g ∈ c.fields, f.path <+: g.path → f.path ≠ g.path →
    ∀ v ∈ f.validators, v.converting = false
  stable : ∀ f ∈ c.fields, f.Stable options

/-- What is known of compiled rules whose runs are repeated. -/
structure Repeatable (options : RunOptions) (c : CompiledRules) : Prop extends
    Steady options c where
  wellFormed : c.WellFormed
  descending : c.chains.Pairwise fun a b => b.arrayDepth ≤ a.arrayDepth
  validatorsLocal : ∀ f ∈ c.fields, ∀ v ∈ f.validators, v.Local
  plain : options.formEncoded = false

theorem fields_subset_of_sublist {chains : List FieldChain} (h : chains.Sublist c.chains) :
    chains.flatMap FieldChain.fields ⊆ c.fields := by
  intro f hf
  obtain ⟨chain, hchain, hf⟩ := List.mem_flatMap.mp hf
  exact List.mem_flatMap.mpr ⟨chain, h.subset hchain, hf⟩

theorem fields_subset_of_mem {chain : FieldChain} (h : chain ∈ c.chains) :
    chain.fields ⊆ c.fields :=
  fun _ hf => List.mem_flatMap.mpr ⟨chain, h, hf⟩

namespace Repeatable

/-- No value above the place of a field is converted. -/
theorem not_converts_above (h : c.Repeatable options) {f : Field} (hf : f ∈ c.fields)
    {l n : Location} (hl : l.HasShape f.path) (hn : n <+: l) (hne : n ≠ l) {fields : List Field}
    (hfields : fields ⊆ c.fields) : ¬ Converts fields n := by
  rintro ⟨g, hg, ⟨v, hv, hconverting⟩, hshape⟩
  have hpath : g.path ≠ f.path := by
    intro heq
    rw [heq] at hshape
    exact hne (hn.eq_of_length (hshape.length_eq.trans hl.length_eq.symm))
  rw [h.keeps g (hfields hg) f hf (hshape.prefix_of_prefix hl hn) hpath v hv] at hconverting
  contradiction

/-- A field with element fields does not convert. -/
theorem keeps_chain (h : c.Repeatable options) {chain : FieldChain} (hchain : chain ∈ c.chains) :
    ∀ f ∈ chain.fields.dropLast, ∀ v ∈ f.validators, v.converting = false := by
  intro f hf
  obtain ⟨k, hk, hkf⟩ := List.mem_iff_getElem.mp hf
  rw [List.length_dropLast] at hk
  rw [List.getElem_dropLast] at hkf
  have hnext : k + 1 < chain.fields.length := by omega
  have hfields := fields_subset_of_mem hchain
  have hfpath := h.wellFormed.path_fields hchain (List.getElem?_eq_some_iff.mpr ⟨by omega, hkf⟩)
  have hgpath := h.wellFormed.path_fields hchain (List.getElem?_eq_getElem hnext)
  rw [Path.elementsAt_succ, ← hfpath] at hgpath
  refine h.keeps f (hfields (List.mem_of_mem_dropLast hf)) _ (hfields (List.getElem_mem hnext))
    ?_ ?_
  · rw [hgpath]
    exact List.prefix_append f.path [.each]
  · rw [hgpath]
    simp

/-- The turns of some chains, in their order, are confined to their fields. -/
theorem confined_turns (h : c.Repeatable options) {chains : List FieldChain}
    (hsub : chains.Sublist c.chains) (s : RunState) :
    Confined (Converts (chains.flatMap FieldChain.fields))
      (Drops (chains.flatMap FieldChain.fields)) [] s.data
      (chains.foldl (runChain options) s).data :=
  confined_foldl_runChain h.plain
    (fun _ hchain _ _ => h.wellFormed.path_fields (hsub.subset hchain))
    (h.wellFormed.pairwise_paths.sublist hsub) s

section Turn

variable {before after : List FieldChain} {chain : FieldChain} {l : Location} {s : RunState}
  {v : Value}

/-- The path of a chain leads to no field of a later one. -/
theorem not_prefix_of_later (h : c.Repeatable options)
    (hchains : c.chains = before ++ chain :: after) {f : Field}
    (hf : f ∈ after.flatMap FieldChain.fields) : ¬ chain.path <+: f.path := by
  obtain ⟨other, hother, hf⟩ := List.mem_flatMap.mp hf
  have hmem : chain ∈ c.chains := by simp [hchains]
  have hothermem : other ∈ c.chains := by simp [hchains, hother]
  obtain ⟨k, hk⟩ := List.mem_iff_getElem?.mp hf
  have hdistinct := h.wellFormed.pairwise_paths
  have hdepth := h.descending
  rw [hchains, List.pairwise_append, List.pairwise_cons] at hdistinct hdepth
  intro hprefix
  rw [h.wellFormed.path_fields hothermem hk] at hprefix
  have hpaths := Path.prefix_of_prefix_elementsAt (h.wellFormed.isElementPath_head hmem) hprefix
  refine h.independent chain hmem other hothermem ?_ ?_ hpaths
  · rintro rfl
    exact hdistinct.2.1.1 chain hother chain.head List.mem_cons_self chain.head
      List.mem_cons_self rfl
  · exact Nat.le_antisymm (Path.arrayDepth_le_of_prefix hpaths) (hdepth.2.1.1 other hother)

/-- What is at the place of a chain in the end was there after its turn. -/
theorem get?_of_later (h : c.Repeatable options) (hchains : c.chains = before ++ chain :: after)
    (hl : l.HasShape chain.path) (hkeys : DistinctTo l s.data)
    (hv : (after.foldl (runChain options) s).data.get? l = some v) : s.data.get? l = some v := by
  have hmem : chain ∈ c.chains := by simp [hchains]
  have hhead : chain.head ∈ c.fields := fields_subset_of_mem hmem List.mem_cons_self
  have hafter : after.Sublist c.chains := by
    rw [hchains]
    exact (List.sublist_cons_self chain after).trans (List.sublist_append_right before _)
  have hnot : ∀ f ∈ after.flatMap FieldChain.fields, ∀ n, ¬ (l ++ n).HasShape f.path :=
    fun f hf n hshape => h.not_prefix_of_later hchains hf
      (hl.prefix_of_prefix hshape (List.prefix_append l n))
  obtain ⟨u, w, hu, hw, hsame⟩ := ((h.confined_turns hafter s).get? hkeys fun n hn hne =>
    h.not_converts_above hhead hl hn hne (fields_subset_of_sublist hafter)).resolve_left
      fun hnone => Option.some_ne_none v (hv.symm.trans hnone)
  cases hv.symm.trans hw
  rw [hu, hsame.eq_self]
  · rintro n ⟨f, hf, -, hshape⟩
    exact hnot f hf n hshape
  · rintro n ⟨-, f, hf, -, hshape⟩
    exact hnot f hf n hshape

/-- A null at a place of a chain that stays to the end is one that the field allows, unless it is
not at a key. -/
theorem absence_of_null (h : c.Repeatable options) {turns : List FieldChain}
    (hturns : turns.Sublist c.chains) (hchain : chain ∈ turns) (hl : l.HasShape chain.path)
    (hkeys : DistinctTo l s.data) (hrunning : (turns.foldl (runChain options) s).abandoned = false)
    (hv : (turns.foldl (runChain options) s).data.get? l = some v)
    (hnull : s.data.get? l = some .null) (hnullable : chain.head.info.nullable = false) :
    absence l = some .null := by
  have hhead : chain.head ∈ c.fields :=
    fields_subset_of_mem (hturns.subset hchain) List.mem_cons_self
  unfold absence
  split
  next name hlast =>
    obtain ⟨parent, rfl⟩ := List.getLast?_eq_some_iff.mp hlast
    have hgone := get?_foldl_runChain_of_null h.plain
      (fun a ha k f => h.wellFormed.path_fields (hturns.subset ha))
      (h.wellFormed.pairwise_paths.sublist hturns) hchain hnullable hl hnull hkeys
      (fun m hm => h.not_converts_above hhead hl (hm.trans (List.prefix_append _ _))
        (fun heq => by simpa [heq] using hm.length_le) (fields_subset_of_sublist hturns)) hrunning
    rw [hv] at hgone
    contradiction
  next => rfl

/-- What a silent run leaves at a place of a chain is as null as what its turn found there, and
another visit leaves it. -/
theorem settles_of_silent (h : c.Repeatable options) (hchains : c.chains = before ++ chain :: after)
    (hl : l.HasShape chain.path) (hkeys : DistinctTo l s.data)
    (hsilent : Silent ((chain :: after).foldl (runChain options) s))
    (hv : ((chain :: after).foldl (runChain options) s).data.get? l = some v) :
    ∃ u, s.data.get? l = some u ∧ v.isNull = u.isNull ∧
      Still options chain.items chain.head (l, .found) (some v) := by
  have hmem : chain ∈ c.chains := by simp [hchains]
  have hturns : (chain :: after).Sublist c.chains := by
    rw [hchains]
    exact List.sublist_append_right before _
  have hfields := fields_subset_of_mem hmem
  have hhead : chain.head ∈ c.fields := hfields List.mem_cons_self
  obtain ⟨u, -, hu, -, -⟩ := ((h.confined_turns hturns s).get? hkeys fun n hn hne =>
    h.not_converts_above hhead hl hn hne (fields_subset_of_sublist hturns)).resolve_left
      fun hnone => Option.some_ne_none v (hv.symm.trans hnone)
  have hturn : Silent (runChain options s chain) := silent_of_foldl_runChain hsilent
  obtain ⟨r, hr, hvisit⟩ := exists_visit_of_mem (pairwise_apart_foundPlaces chain.path s.data [])
    hturn (mem_foundPlaces.mp (mem_foundPlaces_ofPath.mpr ⟨hl, u, hu⟩))
  obtain ⟨hstart, hend⟩ := hvisit rfl
  have hpaths := fun k f => h.wellFormed.path_fields (i := k) (f := f) hmem
  have hkeys' : DistinctTo l (runChain options s chain).data :=
    (confined_runChain h.plain hpaths s).distinctTo hkeys fun n hn hne =>
      h.not_converts_above hhead hl hn hne hfields
  have hleft := h.get?_of_later hchains hl hkeys' hv
  have hsettles := visit_settles h.plain hpaths (fun f hf => h.validatorsLocal f (hfields hf))
    (h.keeps_chain hmem) (fun f hf => h.stable f (hfields hf)) hl (hstart.trans hu)
    (fun hnull hnullable => h.absence_of_null hturns List.mem_cons_self hl hkeys hsilent.running hv
      (hnull ▸ hu) hnullable) hr (hend.trans hleft)
  exact ⟨u, hu, hsettles⟩

/-- What a silent run misses at a place of a chain is never reported. -/
theorem absenceTexts_of_gap (h : c.Repeatable options)
    (hchains : c.chains = before ++ chain :: after) (hl : l.HasShape chain.path)
    (hkeys : DistinctTo l s.data) (hsilent : Silent ((chain :: after).foldl (runChain options) s))
    (hgap : l ∈ chain.path.gaps (some ((chain :: after).foldl (runChain options) s).data)) :
    absenceTexts options chain.head l = [] := by
  have hturns : (chain :: after).Sublist c.chains := by
    rw [hchains]
    exact List.sublist_append_right before _
  have hfields := fields_subset_of_sublist hturns
  have hhead : chain.head ∈ c.fields :=
    fields_subset_of_mem (hturns.subset List.mem_cons_self) List.mem_cons_self
  have hturn : Silent (runChain options s chain) := silent_of_foldl_runChain hsilent
  have hvisit := fun (how : Found) (hplace : (l, how) ∈ places (ofPath chain.path s.data)) =>
    exists_visit_of_mem (pairwise_apart_foundPlaces chain.path s.data []) hturn hplace
  rcases Path.mem_gaps_of_confined (h.confined_turns hturns s) hkeys (fun n hn hne =>
      h.not_converts_above hhead hl hn hne hfields) hgap with
    hgap | ⟨hnull, -, f, hf, hnullable, hshape⟩
  · rw [← missingPlaces_ofPath, mem_missingPlaces] at hgap
    obtain ⟨how, hhow, hplace⟩ := hgap
    obtain ⟨r, hr, -⟩ := hvisit how hplace
    exact absenceTexts_of_missing (h.validatorsLocal _ hhead) hhow hr
  · have hfield : f = chain.head := Field.eq_of_path_eq h.wellFormed.nodup (hfields hf) hhead
      (hshape.path_unique hl)
    obtain ⟨r, hr, hfound⟩ := hvisit .found
      (mem_foundPlaces.mp (mem_foundPlaces_ofPath.mpr ⟨hl, .null, hnull⟩))
    exact absenceTexts_of_null (h.validatorsLocal _ hhead) ((hfound rfl).1.trans hnull)
      (hfield ▸ hnullable) hr

end Turn

section Run

variable {d : Value}

/-- At the end of a silent run, all places keep the run as it is. -/
theorem still_of_silent (h : c.Repeatable options) (hd : d.WellFormed)
    (hsilent : Silent (c.chains.foldl (runChain options) { data := d })) {chain : FieldChain}
    (hchain : chain ∈ c.chains) :
    ∀ place ∈ places (ofPath chain.path (c.chains.foldl (runChain options) { data := d }).data),
      Still options chain.items chain.head place
        ((c.chains.foldl (runChain options) { data := d }).data.get? place.1) := by
  rintro ⟨l, how⟩ hplace
  have hl : l.HasShape chain.path := hasShape_places _ _ _ hplace
  have hhead : chain.head ∈ c.fields := fields_subset_of_mem hchain List.mem_cons_self
  obtain ⟨before, after, hchains⟩ := List.append_of_mem hchain
  have hbefore : before.Sublist c.chains := by
    rw [hchains]
    exact List.sublist_append_left before _
  rw [hchains, List.foldl_append] at hsilent hplace ⊢
  have hkeys : DistinctTo l (before.foldl (runChain options) { data := d }).data :=
    (h.confined_turns hbefore { data := d }).distinctTo (hd.distinctTo l) fun n hn hne =>
      h.not_converts_above hhead hl hn hne (fields_subset_of_sublist hbefore)
  by_cases hhow : how = .found
  · subst hhow
    obtain ⟨-, v, hv⟩ := mem_foundPlaces_ofPath.mp (mem_foundPlaces.mpr hplace)
    obtain ⟨-, -, -, hstill⟩ := h.settles_of_silent hchains hl hkeys hsilent hv
    rw [hv]
    exact hstill
  · have hgap := mem_missingPlaces.mpr ⟨how, hhow, hplace⟩
    rw [missingPlaces_ofPath] at hgap
    exact still_missing (h.validatorsLocal _ hhead) hhow
      (h.absenceTexts_of_gap hchains hl hkeys hsilent hgap) _ _

/-- A silent run over data that is not null leaves no null. -/
theorem isNull_of_silent (h : c.Repeatable options) (hnull : d.isNull = false)
    (hsilent : Silent (c.chains.foldl (runChain options) { data := d })) :
    (c.chains.foldl (runChain options) { data := d }).data.isNull = false := by
  have hstays : ∀ chains : List FieldChain, chains.Sublist c.chains →
      ¬ Converts (chains.flatMap FieldChain.fields) [] →
        (chains.foldl (runChain options) { data := d }).data.isNull = false := by
    intro chains hsub hnot
    by_contra hend
    rw [Bool.not_eq_false, isNull_eq_true_iff] at hend
    have hconfined := h.confined_turns hsub { data := d }
    rw [hend] at hconfined
    have hstart : d = .null := hconfined.eq_null hnot
    rw [hstart] at hnull
    contradiction
  by_cases hconverts : Converts c.fields []
  · -- Only the field of the root may convert it; no chain before has one.
    obtain ⟨f, hf, -, hshape⟩ := hconverts
    have hpath : f.path = [] := List.forall₂_nil_right_iff.mp hshape
    obtain ⟨chain, hchain, rfl⟩ := h.wellFormed.arranged.exists_head hf (by rw [hpath]; rfl)
    obtain ⟨before, after, hchains⟩ := List.append_of_mem hchain
    rw [hchains, List.foldl_append] at hsilent ⊢
    obtain ⟨u, hu, hsame, -⟩ := h.settles_of_silent hchains hshape trivial hsilent rfl
    rw [hsame, ← Option.some.inj hu]
    have hbefore : before.Sublist c.chains := by
      rw [hchains]
      exact List.sublist_append_left before _
    apply hstays before hbefore
    rintro ⟨g, hg, -, hgshape⟩
    obtain ⟨other, hother, hg⟩ := List.mem_flatMap.mp hg
    have hdistinct := h.wellFormed.pairwise_paths
    rw [hchains, List.pairwise_append] at hdistinct
    exact hdistinct.2.2 other hother chain List.mem_cons_self g hg chain.head List.mem_cons_self
      (hgshape.path_unique hshape)
  · exact hstays c.chains (List.Sublist.refl _) hconverts

end Run

end Repeatable

/-- A run without errors that was not abandoned has nothing in its tree. -/
theorem silent_of_validate {d : Value} (hnull : d.isNull = false)
    (hrunning : (c.validate options d).abandoned = false)
    (herrors : (c.validate options d).errors = none) : Silent (c.runState options d) := by
  refine ⟨hrunning, ?_⟩
  have htree : (c.runState options d).errors = ErrorTree.ofMessages _ :=
    (Records.runState c hnull).reports.errors
  have hnone : (c.runState options d).errors.nonEmpty? = none := herrors
  rw [htree, ErrorTree.nonEmpty?_ofMessages] at hnone
  split at hnone
  next hmessages =>
    rw [htree, hmessages]
    rfl
  next => contradiction

/-- What an error-free run leaves is a fixed point. Where validators are local, outermost fields
with the same number of markers are apart, only innermost fields convert, and all fields accept what
they leave of values, a run that is not form-encoded and ends without errors leaves data that
another run with the same options ends with as well, again without errors and failures. -/
theorem validate_of_validate {set : RuleSet} (hcompile : compile set = .ok c)
    (hlocal : set.Local) (hsteady : c.Steady options) (hform : options.formEncoded = false)
    {d : Value} (hd : d.WellFormed) (hrunning : (c.validate options d).abandoned = false)
    (herrors : (c.validate options d).errors = none) :
    let again := c.validate options (c.validate options d).data
    again.data = (c.validate options d).data ∧ again.errors = none ∧ again.failures = [] ∧
      again.abandoned = false := by
  have h : c.Repeatable options :=
    { hsteady with
      wellFormed := wellFormed_of_compile hcompile
      descending := pairwise_arrayDepth_of_compile hcompile
      validatorsLocal := local_of_compile hcompile hlocal
      plain := hform }
  cases hnull : d.isNull with
  | true =>
    rw [isNull_eq_true_iff.mp hnull] at herrors
    contradiction
  | false =>
    have hrun : ∀ v : Value, v.isNull = false →
        c.runState options v = c.chains.foldl (runChain options) { data := v } := by
      intro v hv
      rw [runState, if_neg (by simp [hv])]
    have hsilent := silent_of_validate hnull hrunning herrors
    rw [hrun d hnull] at hsilent
    have hleft := h.isNull_of_silent hnull hsilent
    have hagain : (c.chains.foldl (runChain options)
        { data := (c.chains.foldl (runChain options) { data := d }).data }).observed = _ :=
      foldl_runChain_still rfl fun chain hchain => h.still_of_silent hd hsilent hchain
    rw [← hrun _ hleft, ← hrun d hnull] at hagain
    obtain ⟨hrunning', hseen⟩ :=
      observed_eq_some_iff.mp (hagain.trans (observed_of_running rfl))
    refine ⟨congrArg Observed.data hseen, ?_, ?_, hrunning'⟩
    · exact congrArg (fun o : Observed => o.errors.nonEmpty?) hseen
    · exact (Multiset.coe_eq_zero _).mp (congrArg Observed.failures hseen)

/-- A name, and ages that may be given as text. -/
def ageRules : RuleSet :=
  [("name", .rules [Rules.required, Rules.string]), ("ages[]", .rules [Rules.integer])]

/-- The rules for ages when compiled. -/
def compiledAges : CompiledRules :=
  ⟨[⟨⟨⟨[.key "name"], 0, [], false, false, false⟩, [Rules.required, Rules.string]⟩, []⟩,
    ⟨⟨⟨[.key "ages"], 0, [], false, true, false⟩, [Rules.array.withId (.injected [.key "ages"])]⟩,
      [⟨⟨[.key "ages", .each], 0, [], false, false, false⟩, [Rules.integer]⟩]⟩]⟩

/-- Ages, one of which is a text. -/
def ages : Value :=
  .map [("name", .string "Ada"), ("ages", .sequence [.string "7", .int 36])]

theorem validate_of_validate_ages : ∃ c, compile ageRules = .ok c ∧
    (c.validate plainOptions ages).data =
      .map [("name", .string "Ada"), ("ages", .sequence [.int 7, .int 36])] ∧
    (c.validate plainOptions (c.validate plainOptions ages).data).data =
      (c.validate plainOptions ages).data ∧
    (c.validate plainOptions (c.validate plainOptions ages).data).errors = none := by
  obtain ⟨c, hc⟩ := exists_of_isOk (by decide : (compile ageRules).isOk = true)
  obtain rfl : c = compiledAges := eq_of_compile hc id (by cbv)
  have hlocal : ageRules.Local := by
    have hrequired : Rules.required.Local := by constructor <;> intro c data elapsed <;> rfl
    have hstring : Rules.string.Local := by constructor <;> intro c data elapsed <;> rfl
    have hinteger : Rules.integer.Local := by constructor <;> intro c data elapsed <;> rfl
    apply RuleSet.local_of_rules
    simp [ageRules, hrequired, hstring, hinteger]
  have hsteady : compiledAges.Steady plainOptions := by
    constructor
    · simp [Independent, compiledAges, FieldChain.path, Field.path]
    · decide
    · have hkeeps : ∀ f ∈ compiledAges.fields, f.path ≠ [.key "ages", .each] →
          ∀ v ∈ f.validators, v.converting = false := by decide
      intro f hf
      by_cases hpath : f.path = [.key "ages", .each]
      · have hrule : f.validators = [Rules.integer] := by
          have hall : ∀ f ∈ compiledAges.fields, f.path = [.key "ages", .each] →
              f.validators = [Rules.integer] := by
            simp [compiledAges, fields, FieldChain.fields, Field.path]
          exact hall f hf hpath
        exact Field.stable_of_coercion (k := .integer) hrule
      · exact Field.stable_of_keeps (hkeeps f hf hpath)
  have hages : ages.WellFormed := by
    simp [ages, Value.WellFormed, Value.WellFormedEntries, Value.WellFormedItems, Keyed.keys]
  obtain ⟨hdata, herrors, -, -⟩ := validate_of_validate hc hlocal hsteady rfl hages (by cbv)
    (by cbv)
  exact ⟨_, hc, by cbv, hdata, herrors⟩

end CompiledRules

end PathRules

import Mathlib.Data.List.Perm.Basic
import PathRules.Proofs.Declarations
import PathRules.Proofs.Schedule
/-!
Chains of fields. A chain is complete when its element fields are those below its outermost field,
at every depth, as many as there are. Linking moves one element field after the other, the longest
path first; the invariant says that what was moved so far sits in complete chains. Main statement:
where every element field has the field of its sequence, linking leaves one complete chain for each
other field, in order, and none is left over.
-/

namespace PathRules

namespace Path

/-- The path of the elements at a depth below a path. -/
def elementsAt (p : Path) (depth : Nat) : Path :=
  p ++ List.replicate depth .each

@[simp] theorem elementsAt_zero (p : Path) : p.elementsAt 0 = p := by
  simp [elementsAt]

theorem elementsAt_succ (p : Path) (depth : Nat) :
    p.elementsAt (depth + 1) = p.elementsAt depth ++ [.each] := by
  simp [elementsAt, List.replicate_succ']

theorem elementsAt_elementsAt (p : Path) (n m : Nat) :
    (p.elementsAt n).elementsAt m = p.elementsAt (n + m) := by
  simp [elementsAt]

theorem length_elementsAt (p : Path) (depth : Nat) :
    (p.elementsAt depth).length = p.length + depth := by
  simp [elementsAt]

theorem arrayDepth_elementsAt (p : Path) (depth : Nat) :
    (p.elementsAt depth).arrayDepth = p.arrayDepth + depth := by
  simp [elementsAt, arrayDepth]

/-- Going through a marker makes the text longer. -/
theorem utf8ByteSize_text_each (p : Path) :
    (text (p ++ [.each])).utf8ByteSize = (text p).utf8ByteSize + 2 := by
  have htext : text (p ++ [.each]) = text p ++ "[]" := by
    apply String.toList_inj.mp
    rw [toList_text_concat, String.toList_append]
    rfl
  rw [htext, String.utf8ByteSize_append]
  rfl

end Path

namespace CompiledRules

theorem isElementPath_iff {p : Path} : isElementPath p = true ↔ ∃ q : Path, p = q ++ [.each] := by
  rw [isElementPath, beq_iff_eq, List.getLast?_eq_some_iff]

theorem isElementPath_elementsAt_succ (p : Path) (depth : Nat) :
    isElementPath (p.elementsAt (depth + 1)) = true :=
  isElementPath_iff.mpr ⟨_, p.elementsAt_succ depth⟩

/-- Every path is one at some depth below a path that leads to no elements. -/
theorem exists_elementsAt (p : Path) :
    ∃ (q : Path) (depth : Nat), isElementPath q = false ∧ p = q.elementsAt depth := by
  induction p using List.reverseRecOn with
  | nil => exact ⟨[], 0, rfl, rfl⟩
  | append_singleton rest a ih =>
    cases a with
    | key name => exact ⟨rest ++ [.key name], 0, by simp [isElementPath], by simp⟩
    | each =>
      obtain ⟨q, depth, hq, hrest⟩ := ih
      exact ⟨q, depth + 1, hq, by rw [q.elementsAt_succ, ← hrest]⟩

/-- There is only one such path and depth. -/
theorem elementsAt_inj {p q : Path} (hp : isElementPath p = false) (hq : isElementPath q = false)
    {n m : Nat} (h : p.elementsAt n = q.elementsAt m) : p = q ∧ n = m := by
  induction n generalizing m with
  | zero =>
    cases m with
    | zero => exact ⟨by simpa using h, rfl⟩
    | succ m =>
      rw [Path.elementsAt_zero] at h
      rw [h, isElementPath_elementsAt_succ] at hp
      contradiction
  | succ n ih =>
    cases m with
    | zero =>
      rw [Path.elementsAt_zero] at h
      rw [← h, isElementPath_elementsAt_succ] at hq
      contradiction
    | succ m =>
      rw [Path.elementsAt_succ, Path.elementsAt_succ] at h
      obtain ⟨hpath, hdepth⟩ := ih (List.append_cancel_right h)
      exact ⟨hpath, by rw [hdepth]⟩

end CompiledRules

namespace FieldChain

/-- Whether a chain consists of fields and its element fields are those below its outermost field,
as many as there are. -/
structure Complete (fields : List Field) (c : FieldChain) : Prop where
  subset : ∀ f ∈ c.items, f ∈ fields
  path_items : ∀ (i : Nat) (f : Field), c.items[i]? = some f → f.path = c.path.elementsAt (i + 1)
  maximal : ∀ f ∈ fields, f.path ≠ c.path.elementsAt (c.items.length + 1)

theorem Complete.path_fields {fields : List Field} {c : FieldChain} (h : c.Complete fields)
    (i : Nat) (f : Field) (hf : c.fields[i]? = some f) : f.path = c.path.elementsAt i := by
  cases i with
  | zero =>
    simp only [FieldChain.fields, List.getElem?_cons_zero, Option.some.injEq] at hf
    rw [← hf, Path.elementsAt_zero]
    rfl
  | succ i =>
    simp only [FieldChain.fields, List.getElem?_cons_succ] at hf
    exact h.path_items i f hf

end FieldChain

/-- Fields with one path are the same field, where no path comes twice. -/
theorem Field.eq_of_path_eq {fields : List Field} (hnodup : (fields.map Field.path).Nodup)
    {f g : Field} (hf : f ∈ fields) (hg : g ∈ fields) (h : f.path = g.path) : f = g :=
  (List.inj_on_of_nodup_map hnodup) hf hg h

namespace FieldChain

/-- A complete chain is known from its outermost field. -/
theorem Complete.unique {fields : List Field} (hnodup : (fields.map Field.path).Nodup)
    {c d : FieldChain} (hc : c.Complete fields) (hd : d.Complete fields) (hhead : c.head = d.head) :
    c = d := by
  have hpath : c.path = d.path := congrArg Field.path hhead
  have hle : ∀ {c d : FieldChain}, c.Complete fields → d.Complete fields → c.path = d.path →
      c.items.length ≤ d.items.length := by
    intro c d hc hd hpath
    by_contra hlt
    have hmem := List.getElem?_eq_getElem (Nat.lt_of_not_ge hlt)
    apply hd.maximal _ (hc.subset _ (List.mem_of_getElem? hmem))
    rw [← hpath]
    exact hc.path_items _ _ hmem
  have hlength := Nat.le_antisymm (hle hc hd hpath) (hle hd hc hpath.symm)
  have hitems : c.items = d.items := by
    apply List.ext_getElem hlength
    intro i hi hi'
    have hci := List.getElem?_eq_getElem hi
    have hdi := List.getElem?_eq_getElem hi'
    refine Field.eq_of_path_eq hnodup (hc.subset _ (List.mem_of_getElem? hci))
      (hd.subset _ (List.mem_of_getElem? hdi)) ?_
    rw [hc.path_items i _ hci, hd.path_items i _ hdi, hpath]
  cases c
  cases d
  simp_all

end FieldChain

namespace CompiledRules

/-- Whether every element field has the field of its sequence. -/
def HasSequences (fields : List Field) : Prop :=
  ∀ f ∈ fields, ∀ q : Path, f.path = q ++ [.each] → ∃ g ∈ fields, g.path = q

/-- The fields that are at given paths. -/
def fieldsAt (fields : List Field) (paths : List Path) : List Field :=
  fields.filter fun f => paths.contains f.path

/-- How far linking has come when the element fields at some paths have moved: the others are the
outermost fields of chains, in order, and those that moved complete the chains. -/
structure Linked (fields : List Field) (moved : List Path) (chains : List FieldChain) : Prop where
  heads : chains.map FieldChain.head = fields.filter fun f => !moved.contains f.path
  complete : ∀ c ∈ chains, c.Complete (fieldsAt fields moved)

theorem linked_nil (fields : List Field) : Linked fields [] (fields.map fun f => ⟨f, []⟩) := by
  constructor
  · simp [Function.comp_def]
  · intro c hc
    obtain ⟨f, -, rfl⟩ := List.mem_map.mp hc
    exact ⟨by simp, by simp, by simp [fieldsAt]⟩

theorem mem_fieldsAt {fields : List Field} {paths : List Path} {f : Field} :
    f ∈ fieldsAt fields paths ↔ f ∈ fields ∧ f.path ∈ paths := by
  simp [fieldsAt]

/-- Moves an element field as `attach` does, where it is present and so is the field of its
sequence. -/
def attach? (chains : List FieldChain) (p : Path) : Option (List FieldChain) :=
  match Schedule.takeFirst? (fun c => c.path == p) chains with
  | none => none
  | some (c, others) =>
    if others.any fun d => d.path == p.dropLast then
      some (others.map fun d => if d.path == p.dropLast then { d with items := c.fields } else d)
    else none

theorem attach_eq_of_attach? {chains next : List FieldChain} {p : Path}
    (h : attach? chains p = some next) : attach chains p = next := by
  unfold attach? at h
  unfold attach
  cases htake : Schedule.takeFirst? (fun c => c.path == p) chains with
  | none => simp [htake] at h
  | some found =>
    simp only [htake, Option.ite_none_right_eq_some, Option.some.injEq] at h ⊢
    rw [if_pos h.1, h.2]

theorem foldl_attach_eq {paths : List Path} {chains next : List FieldChain}
    (h : paths.foldlM attach? chains = some next) : paths.foldl attach chains = next := by
  induction paths generalizing chains with
  | nil => simpa using h
  | cons p paths ih =>
    rw [List.foldlM_cons, Option.bind_eq_bind, Option.bind_eq_some_iff] at h
    obtain ⟨middle, hmiddle, hrest⟩ := h
    rw [List.foldl_cons, attach_eq_of_attach? hmiddle, ih hrest]

theorem attach?_append {before after : List FieldChain} {c d : FieldChain} {q : Path}
    (hbefore : ∀ b ∈ before, b.path ≠ q ++ [.each]) (hc : c.path = q ++ [.each])
    (hd : d ∈ before ++ after) (hdpath : d.path = q) :
    attach? (before ++ c :: after) (q ++ [.each]) =
      some ((before ++ after).map fun d =>
        if d.path = q then { d with items := c.fields } else d) := by
  have htake : Schedule.takeFirst? (fun c => c.path == q ++ [Accessor.each])
      (before ++ c :: after) = some (c, before ++ after) :=
    Schedule.takeFirst?_append after (fun b hb => by simpa using hbefore b hb) (by simpa using hc)
  have hany : ((before ++ after).any fun d => d.path == q) = true :=
    List.any_eq_true.mpr ⟨d, hd, by simpa using hdpath⟩
  unfold attach?
  rw [htake]
  simp only [List.dropLast_concat, hany, if_true, beq_iff_eq]

/-- The chain above a moved element field takes in its whole chain. -/
theorem complete_attached {fields : List Field} {moved : List Path} {c d : FieldChain} {q : Path}
    (hcmem : c.head ∈ fields) (hc : c.Complete (fieldsAt fields moved))
    (hcpath : c.path = q ++ [.each]) (hdpath : d.path = q) :
    FieldChain.Complete (fieldsAt fields (moved ++ [q ++ [.each]]))
      { d with items := c.fields } := by
  have helements : ∀ n, c.path.elementsAt n = q.elementsAt (n + 1) := by
    intro n
    rw [hcpath, ← Path.elementsAt_zero q, ← Path.elementsAt_succ, Path.elementsAt_elementsAt,
      Path.elementsAt_zero, Nat.add_comm]
  refine ⟨?_, ?_, ?_⟩
  · intro e he
    rcases List.mem_cons.mp he with rfl | he
    · exact mem_fieldsAt.mpr ⟨hcmem, List.mem_append_right _ (List.mem_singleton.mpr hcpath)⟩
    · obtain ⟨hfields, hmoved⟩ := mem_fieldsAt.mp (hc.subset e he)
      exact mem_fieldsAt.mpr ⟨hfields, List.mem_append_left _ hmoved⟩
  · intro i e he
    change e.path = d.path.elementsAt (i + 1)
    rw [hc.path_fields i e he, helements, hdpath]
  · intro e he
    obtain ⟨hfields, hmoved⟩ := mem_fieldsAt.mp he
    change e.path ≠ d.path.elementsAt (c.fields.length + 1)
    rw [hdpath, ← helements]
    rcases List.mem_append.mp hmoved with hmoved | hlast
    · exact hc.maximal e (mem_fieldsAt.mpr ⟨hfields, hmoved⟩)
    · intro heq
      have hlength := congrArg List.length heq
      rw [Path.length_elementsAt, List.mem_singleton.mp hlast, ← hcpath] at hlength
      simp [FieldChain.fields] at hlength

/-- The other chains stay complete: none of them ends right above the moved field. -/
theorem complete_unattached {fields : List Field} {moved : List Path} {d : FieldChain} {q : Path}
    (hd : d.Complete (fieldsAt fields moved)) (hdpath : d.path ≠ q) (hq : q ∉ moved) :
    d.Complete (fieldsAt fields (moved ++ [q ++ [.each]])) := by
  refine ⟨?_, hd.path_items, ?_⟩
  · intro e he
    obtain ⟨hfields, hmoved⟩ := mem_fieldsAt.mp (hd.subset e he)
    exact mem_fieldsAt.mpr ⟨hfields, List.mem_append_left _ hmoved⟩
  · intro e he heq
    obtain ⟨hfields, hmoved⟩ := mem_fieldsAt.mp he
    rcases List.mem_append.mp hmoved with hmoved | hlast
    · exact hd.maximal e (mem_fieldsAt.mpr ⟨hfields, hmoved⟩) heq
    · rw [List.mem_singleton.mp hlast, Path.elementsAt_succ] at heq
      have hend : q = d.path.elementsAt d.items.length := List.append_cancel_right heq
      cases hlength : d.items.length with
      | zero =>
        rw [hlength, Path.elementsAt_zero] at hend
        exact hdpath hend.symm
      | succ n =>
        have hlast := List.getElem?_eq_getElem (l := d.items) (i := n) (by omega)
        have hpath := hd.path_items n _ hlast
        rw [← hlength, ← hend] at hpath
        exact hq (hpath ▸ (mem_fieldsAt.mp (hd.subset _ (List.mem_of_getElem? hlast))).2)

/-- Moving the element field at a path. The path of its sequence is shorter, so it has not moved
yet. -/
theorem Linked.attach {fields : List Field} (hnodup : (fields.map Field.path).Nodup)
    {moved : List Path} {chains : List FieldChain} (h : Linked fields moved chains) {q : Path}
    {f g : Field} (hf : f ∈ fields) (hfpath : f.path = q ++ [.each]) (hg : g ∈ fields)
    (hgpath : g.path = q) (hfresh : q ++ [.each] ∉ moved) (hq : q ∉ moved) :
    ∃ next, attach? chains (q ++ [.each]) = some next ∧
      Linked fields (moved ++ [q ++ [.each]]) next := by
  have hhead : ∀ c ∈ chains, c.head ∈ fields := by
    intro c hc
    have hmem : c.head ∈ chains.map FieldChain.head := List.mem_map_of_mem hc
    rw [h.heads] at hmem
    exact (List.mem_filter.mp hmem).1
  have hchain : ∀ e ∈ fields, e.path ∉ moved → ∃ c ∈ chains, c.head = e := by
    intro e he hnot
    have hmem : e ∈ chains.map FieldChain.head := by
      rw [h.heads, List.mem_filter]
      exact ⟨he, by simpa using hnot⟩
    exact List.mem_map.mp hmem
  have hpaths : (chains.map FieldChain.path).Nodup := by
    have hsub := (List.filter_sublist (p := fun f => !moved.contains f.path) (l := fields)).map
      Field.path
    rw [← h.heads, List.map_map] at hsub
    exact hsub.nodup hnodup
  obtain ⟨c, hc, rfl⟩ := hchain f hf (hfpath ▸ hfresh)
  obtain ⟨d, hd, rfl⟩ := hchain g hg (hgpath ▸ hq)
  obtain ⟨before, after, rfl⟩ := List.append_of_mem hc
  rw [List.map_append, List.map_cons] at hpaths
  have hothers : ∀ b ∈ before ++ after, b.path ≠ q ++ [.each] := by
    intro b hb hbpath
    have hnot := (List.nodup_middle.mp hpaths)
    rw [List.nodup_cons, ← List.map_append] at hnot
    refine hnot.1 (List.mem_map.mpr ⟨b, hb, ?_⟩)
    exact hbpath.trans hfpath.symm
  have hdothers : d ∈ before ++ after := by
    rcases List.mem_append.mp hd with hd | hd
    · exact List.mem_append_left after hd
    · rcases List.mem_cons.mp hd with rfl | hd
      · exact absurd (hgpath.symm.trans hfpath) (by simp)
      · exact List.mem_append_right before hd
  refine ⟨_, attach?_append (fun b hb => hothers b (List.mem_append_left after hb)) hfpath hdothers
    hgpath, ?_⟩
  constructor
  · have hkeep : ∀ l : List FieldChain, (∀ b ∈ l, b.path ≠ q ++ [.each]) →
        (l.map FieldChain.head).filter (fun f => f.path != q ++ [.each]) =
          l.map FieldChain.head := by
      intro l hl
      rw [List.filter_eq_self]
      intro e he
      obtain ⟨b, hb, rfl⟩ := List.mem_map.mp he
      exact bne_iff_ne.mpr (hl b hb)
    calc ((before ++ after).map fun d =>
          if d.path = q then { d with items := c.fields } else d).map FieldChain.head
        = (before ++ after).map FieldChain.head := by
          rw [List.map_map]
          apply List.map_congr_left
          intro b _
          simp only [Function.comp_apply]
          split <;> rfl
      _ = ((before ++ c :: after).map FieldChain.head).filter
            (fun f => f.path != q ++ [.each]) := by
          have hc' : (c.head.path != q ++ [.each]) = false := by simpa using hfpath
          rw [← hkeep _ hothers, List.map_append, List.map_append, List.map_cons,
            List.filter_append, List.filter_append, List.filter_cons_of_neg (by simp [hc'])]
      _ = fields.filter fun f => !(moved ++ [q ++ [Accessor.each]]).contains f.path := by
          rw [h.heads, List.filter_filter]
          apply List.filter_congr
          intro f _
          simp [bne, Bool.and_comm, Bool.beq_eq_decide_eq]
  · intro e he
    obtain ⟨b, hb, rfl⟩ := List.mem_map.mp he
    have hbcomplete : b.Complete (fieldsAt fields moved) := h.complete b (by
      rcases List.mem_append.mp hb with hb | hb <;> simp [hb])
    by_cases hbpath : b.path = q
    · rw [if_pos hbpath]
      exact complete_attached (hhead c hc) (h.complete c hc) hfpath hbpath
    · rw [if_neg hbpath]
      exact complete_unattached hbcomplete hbpath hq

/-- Moving further element fields, the longest path first. -/
theorem Linked.foldlM {fields : List Field} (hnodup : (fields.map Field.path).Nodup)
    (hsequences : HasSequences fields) {moved rest : List Path} {chains : List FieldChain}
    (h : Linked fields moved chains)
    (hsorted : (moved ++ rest).Pairwise fun p q => q.text.utf8ByteSize ≤ p.text.utf8ByteSize)
    (hdistinct : (moved ++ rest).Nodup)
    (hrest : ∀ p ∈ rest, isElementPath p = true ∧ ∃ f ∈ fields, f.path = p) :
    ∃ next, rest.foldlM attach? chains = some next ∧ Linked fields (moved ++ rest) next := by
  induction rest generalizing moved chains with
  | nil => exact ⟨chains, rfl, by simpa using h⟩
  | cons p rest ih =>
    obtain ⟨helement, f, hf, hfpath⟩ := hrest p List.mem_cons_self
    obtain ⟨q, rfl⟩ := isElementPath_iff.mp helement
    obtain ⟨g, hg, hgpath⟩ := hsequences f hf q hfpath
    have hfresh : q ++ [.each] ∉ moved := fun hmem =>
      (List.nodup_append.mp hdistinct).2.2 _ hmem _ List.mem_cons_self rfl
    have hq : q ∉ moved := by
      intro hmem
      have hle := (List.pairwise_append.mp hsorted).2.2 q hmem _ List.mem_cons_self
      rw [Path.utf8ByteSize_text_each] at hle
      omega
    obtain ⟨middle, hattach, hstep⟩ := h.attach hnodup hf hfpath hg hgpath hfresh hq
    have hassoc : moved ++ (q ++ [.each]) :: rest = (moved ++ [q ++ [.each]]) ++ rest := by simp
    rw [hassoc] at hsorted hdistinct ⊢
    obtain ⟨next, hnext, hlinked⟩ := ih hstep hsorted hdistinct fun p hp =>
      hrest p (List.mem_cons_of_mem _ hp)
    refine ⟨next, ?_, hlinked⟩
    rw [List.foldlM_cons, hattach]
    exact hnext

theorem mem_elementPaths {fields : List Field} {p : Path} :
    p ∈ elementPaths fields ↔ isElementPath p = true ∧ ∃ f ∈ fields, f.path = p := by
  simp only [elementPaths, List.mem_mergeSort, List.mem_filter, List.mem_map]
  exact And.comm

theorem elementPaths_sorted (fields : List Field) :
    (elementPaths fields).Pairwise fun p q => q.text.utf8ByteSize ≤ p.text.utf8ByteSize :=
  Schedule.pairwise_mergeSort_rank (fun p : Path => p.text.utf8ByteSize) _

/-- Linking moves every element field to the field of its sequence. -/
theorem linked_link {fields : List Field} (hnodup : (fields.map Field.path).Nodup)
    (hsequences : HasSequences fields) :
    (elementPaths fields).foldlM attach? (fields.map fun f => ⟨f, []⟩) = some (link fields) ∧
      Linked fields (elementPaths fields) (link fields) := by
  have hdistinct : (elementPaths fields).Nodup :=
    (List.mergeSort_perm _ _).nodup_iff.mpr (hnodup.filter _)
  obtain ⟨next, hnext, hlinked⟩ := (linked_nil fields).foldlM hnodup hsequences
    (elementPaths_sorted fields) hdistinct fun p hp => mem_elementPaths.mp hp
  have hlink : link fields = next := foldl_attach_eq hnext
  rw [hlink]
  exact ⟨hnext, hlinked⟩

theorem contains_elementPaths {fields : List Field} {f : Field} (hf : f ∈ fields) :
    (elementPaths fields).contains f.path = isElementPath f.path := by
  rw [Bool.eq_iff_iff, List.contains_iff_mem, mem_elementPaths]
  exact ⟨fun h => h.1, fun h => ⟨h, f, hf, rfl⟩⟩

/-- Linking leaves the chains of the fields that are no element fields, in order. -/
theorem heads_link {fields : List Field} (hnodup : (fields.map Field.path).Nodup)
    (hsequences : HasSequences fields) :
    (link fields).map FieldChain.head = fields.filter fun f => !isElementPath f.path := by
  rw [(linked_link hnodup hsequences).2.heads]
  exact List.filter_congr fun f hf => by rw [contains_elementPaths hf]

theorem complete_link {fields : List Field} (hnodup : (fields.map Field.path).Nodup)
    (hsequences : HasSequences fields) {c : FieldChain} (hc : c ∈ link fields) :
    c.Complete fields := by
  obtain ⟨hsubset, hpaths, hmaximal⟩ := (linked_link hnodup hsequences).2.complete c hc
  refine ⟨fun f hf => (mem_fieldsAt.mp (hsubset f hf)).1, hpaths, fun f hf heq => ?_⟩
  refine hmaximal f (mem_fieldsAt.mpr ⟨hf, mem_elementPaths.mpr ⟨?_, f, hf, rfl⟩⟩) heq
  rw [heq]
  exact isElementPath_elementsAt_succ _ _

/-- Whether chains are those of some fields: complete, and one for each field that is no element
field. -/
structure Arranged (fields : List Field) (chains : List FieldChain) : Prop where
  heads : (chains.map FieldChain.head).Perm (fields.filter fun f => !isElementPath f.path)
  complete : ∀ c ∈ chains, c.Complete fields

theorem arranged_link {fields : List Field} (hnodup : (fields.map Field.path).Nodup)
    (hsequences : HasSequences fields) : Arranged fields (link fields) :=
  ⟨heads_link hnodup hsequences ▸ .refl _, fun _ hc => complete_link hnodup hsequences hc⟩

namespace Arranged

variable {fields : List Field} {chains : List FieldChain}

theorem perm (h : Arranged fields chains) {others : List FieldChain}
    (hperm : others.Perm chains) : Arranged fields others :=
  ⟨(hperm.map _).trans h.heads, fun c hc => h.complete c (hperm.subset hc)⟩

theorem head_mem (h : Arranged fields chains) {c : FieldChain} (hc : c ∈ chains) :
    c.head ∈ fields ∧ isElementPath c.path = false := by
  have hmem := List.mem_filter.mp (h.heads.subset (List.mem_map_of_mem hc))
  exact ⟨hmem.1, by simpa [FieldChain.path] using hmem.2⟩

theorem exists_head (h : Arranged fields chains) {f : Field} (hf : f ∈ fields)
    (hpath : isElementPath f.path = false) : ∃ c ∈ chains, c.head = f :=
  List.mem_map.mp (h.heads.symm.subset (List.mem_filter.mpr ⟨hf, by simpa using hpath⟩))

/-- The fields of the chains are the fields. A field below a sequence is found in the chain of the
sequence: the fields in between are all there, so the chain does not end before it. -/
theorem mem_fields (h : Arranged fields chains) (hnodup : (fields.map Field.path).Nodup)
    (hsequences : HasSequences fields) (f : Field) :
    f ∈ chains.flatMap FieldChain.fields ↔ f ∈ fields := by
  constructor
  · intro hf
    obtain ⟨c, hc, hf⟩ := List.mem_flatMap.mp hf
    rcases List.mem_cons.mp hf with rfl | hf
    · exact (h.head_mem hc).1
    · exact (h.complete c hc).subset f hf
  · intro hf
    obtain ⟨q, depth, hq, hpath⟩ := exists_elementsAt f.path
    have hbetween : ∀ n ≤ depth, ∃ g ∈ fields, g.path = q.elementsAt n := by
      intro n hn
      induction hn using Nat.decreasingInduction with
      | self => exact ⟨f, hf, hpath⟩
      | of_succ k _ ih =>
        obtain ⟨g, hg, hgpath⟩ := ih
        exact hsequences g hg _ (hgpath.trans (q.elementsAt_succ k))
    obtain ⟨e, he, hepath⟩ := hbetween 0 (Nat.zero_le depth)
    rw [Path.elementsAt_zero] at hepath
    obtain ⟨c, hc, rfl⟩ := h.exists_head he (hepath ▸ hq)
    have hcpath : c.path = q := hepath
    have hcomplete := h.complete c hc
    have hlength : depth ≤ c.items.length := by
      by_contra hlt
      obtain ⟨g, hg, hgpath⟩ := hbetween (c.items.length + 1) (by omega)
      exact hcomplete.maximal g hg (hcpath ▸ hgpath)
    refine List.mem_flatMap.mpr ⟨c, hc, ?_⟩
    have hlt : depth < c.fields.length := by
      simp only [FieldChain.fields, List.length_cons]
      omega
    have hget := List.getElem?_eq_getElem hlt
    have hsame : c.fields[depth] = f := by
      have hmem := List.mem_of_getElem? hget
      refine Field.eq_of_path_eq hnodup ?_ hf ?_
      · rcases List.mem_cons.mp hmem with heq | hmem
        · rw [heq]
          exact he
        · exact hcomplete.subset _ hmem
      · rw [hcomplete.path_fields depth _ hget, hcpath, hpath]
    exact hsame ▸ List.mem_of_getElem? hget

theorem nodup_heads (h : Arranged fields chains) (hnodup : (fields.map Field.path).Nodup) :
    (chains.map FieldChain.path).Nodup := by
  have hperm := h.heads.map Field.path
  rw [List.map_map] at hperm
  exact hperm.nodup_iff.mpr ((List.filter_sublist.map _).nodup hnodup)

/-- A path tells the chain that it comes in. -/
theorem chain_unique (h : Arranged fields chains) (hnodup : (fields.map Field.path).Nodup)
    {c d : FieldChain} (hc : c ∈ chains) (hd : d ∈ chains) {f g : Field} (hf : f ∈ c.fields)
    (hg : g ∈ d.fields) (hpath : f.path = g.path) : c = d := by
  obtain ⟨i, hi⟩ := List.mem_iff_getElem?.mp hf
  obtain ⟨j, hj⟩ := List.mem_iff_getElem?.mp hg
  rw [(h.complete c hc).path_fields i f hi, (h.complete d hd).path_fields j g hj] at hpath
  exact List.inj_on_of_nodup_map (h.nodup_heads hnodup) hc hd
    (elementsAt_inj (h.head_mem hc).2 (h.head_mem hd).2 hpath).1

/-- No path comes twice in the chains: a path tells the outermost field and the depth below it. -/
theorem nodup_paths (h : Arranged fields chains) (hnodup : (fields.map Field.path).Nodup) :
    ((chains.flatMap FieldChain.fields).map Field.path).Nodup := by
  have hheads := h.nodup_heads hnodup
  rw [List.map_flatMap, List.nodup_flatMap]
  constructor
  · intro c hc
    rw [List.nodup_iff_injective_getElem]
    intro i j hij
    have hcpath := (h.head_mem hc).2
    have hi := (h.complete c hc).path_fields i _ (List.getElem?_eq_getElem (by simpa using i.2))
    have hj := (h.complete c hc).path_fields j _ (List.getElem?_eq_getElem (by simpa using j.2))
    simp only [List.getElem_map] at hij
    exact Fin.ext (elementsAt_inj hcpath hcpath (hi.symm.trans (hij.trans hj))).2
  · refine (List.pairwise_map.mp hheads).imp_of_mem fun {c d} hc hd hne p hp hp' => hne ?_
    obtain ⟨f, hf, rfl⟩ := List.mem_map.mp hp
    obtain ⟨g, hg, hpath⟩ := List.mem_map.mp hp'
    rw [h.chain_unique hnodup hc hd hf hg hpath.symm]

/-- Chains of the same fields with the same outermost fields in the same order are the same. -/
theorem eq_of_heads_eq (hnodup : (fields.map Field.path).Nodup) {others : List FieldChain}
    (h : Arranged fields chains) (h' : Arranged fields others)
    (hheads : chains.map FieldChain.head = others.map FieldChain.head) : chains = others := by
  have hlength : chains.length = others.length := by
    simpa using congrArg List.length hheads
  apply List.ext_getElem hlength
  intro i hi hi'
  apply (h.complete _ (List.getElem_mem hi)).unique hnodup (h'.complete _ (List.getElem_mem hi'))
  have hget := congrArg (fun l => l[i]?) hheads
  simpa [hi, hi'] using hget

end Arranged

end CompiledRules
end PathRules

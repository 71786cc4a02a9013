import Mathlib
import PathRules.Proofs.Edits
/-!
Equality of values. Values are equal when they are of one kind and alike all the way down, where
maps are compared key by key and doubles as numbers. Main statements: comparing two values decides
this, and equality is symmetric and transitive, though not reflexive, since NaN is equal to nothing.
-/

namespace PathRules

namespace Value

/-- Whether two values are equal: of one kind, and alike all the way down. The order of the keys of
a map does not count, and doubles are compared as numbers. -/
inductive Equal : Value → Value → Prop
  | null : Equal null null
  | bool (b : Bool) : Equal (bool b) (bool b)
  | int (n : Int64) : Equal (int n) (int n)
  | float {x y : Float} (equal : (x == y) = true) : Equal (float x) (float y)
  | string (s : String) : Equal (string s) (string s)
  | date (t : Instant) : Equal (date t) (date t)
  | sequence {items others : List Value} (equal : List.Forall₂ Equal items others) :
      Equal (sequence items) (sequence others)
  | map {entries others : List (String × Value)}
      (equal : ∀ key, Option.Rel Equal (Keyed.get? entries key) (Keyed.get? others key)) :
      Equal (map entries) (map others)
  | handle (h : Handle) : Equal (handle h) (handle h)

theorem equal_sequence_iff {items : List Value} {w : Value} :
    Equal (sequence items) w ↔ ∃ others, w = sequence others ∧ List.Forall₂ Equal items others := by
  constructor
  · intro h
    cases h with
    | sequence equal => exact ⟨_, rfl, equal⟩
  · rintro ⟨others, rfl, equal⟩
    exact .sequence equal

theorem equal_map_iff {entries : List (String × Value)} {w : Value} :
    Equal (map entries) w ↔ ∃ others, w = map others ∧
      ∀ key, Option.Rel Equal (Keyed.get? entries key) (Keyed.get? others key) := by
  constructor
  · intro h
    cases h with
    | map equal => exact ⟨_, rfl, equal⟩
  · rintro ⟨others, rfl, equal⟩
    exact .map equal

/-! ### Symmetry and transitivity -/

section Lifting

variable {α : Type} {R : α → α → Prop}

theorem forall₂_symm {as bs : List α} (h : List.Forall₂ R as bs)
    (hR : ∀ a ∈ as, ∀ b, R a b → R b a) : List.Forall₂ R bs as := by
  induction h with
  | nil => exact .nil
  | cons hfirst hrest ih =>
    refine .cons (hR _ List.mem_cons_self _ hfirst) (ih fun a ha => ?_)
    exact hR a (List.mem_cons_of_mem _ ha)

theorem forall₂_trans {as bs cs : List α} (h : List.Forall₂ R as bs) (h' : List.Forall₂ R bs cs)
    (hR : ∀ a ∈ as, ∀ b c, R a b → R b c → R a c) : List.Forall₂ R as cs := by
  induction h generalizing cs with
  | nil => exact h'
  | cons hfirst hrest ih =>
    cases h' with
    | cons hfirst' hrest' =>
      refine .cons (hR _ List.mem_cons_self _ _ hfirst hfirst') (ih hrest' fun a ha => ?_)
      exact hR a (List.mem_cons_of_mem _ ha)

theorem rel_symm {a b : Option α} (h : Option.Rel R a b) (hR : ∀ x ∈ a, ∀ y, R x y → R y x) :
    Option.Rel R b a := by
  cases h with
  | none => exact .none
  | some hvalue => exact .some (hR _ rfl _ hvalue)

theorem rel_trans {a b c : Option α} (h : Option.Rel R a b) (h' : Option.Rel R b c)
    (hR : ∀ x ∈ a, ∀ y z, R x y → R y z → R x z) : Option.Rel R a c := by
  cases h with
  | none => exact h'
  | some hvalue =>
    cases h' with
    | some hvalue' => exact .some (hR _ rfl _ _ hvalue hvalue')

theorem rel_some_iff {a : α} {b : Option α} :
    Option.Rel R (some a) b ↔ ∃ x, b = some x ∧ R a x := by
  constructor
  · intro h
    cases h with
    | some hvalue => exact ⟨_, rfl, hvalue⟩
  · rintro ⟨x, rfl, hvalue⟩
    exact .some hvalue

theorem eq_none_iff_of_rel {a b : Option α} (h : Option.Rel R a b) : a = none ↔ b = none := by
  cases h <;> simp

end Lifting

theorem Equal.symm {v w : Value} (h : Equal v w) : Equal w v := by
  induction v using tree_induction generalizing w with
  | leaf v hsequence hmap =>
    cases h with
    | float equal => exact .float (BEq.symm equal)
    | sequence => cases hsequence
    | map => cases hmap
    | _ => constructor
  | sequence items ih =>
    obtain ⟨others, rfl, equal⟩ := equal_sequence_iff.mp h
    exact .sequence (forall₂_symm equal fun v hv w => ih v hv)
  | map entries ih =>
    obtain ⟨others, rfl, equal⟩ := equal_map_iff.mp h
    exact .map fun key => rel_symm (equal key) fun v hv w => ih (key, v) (Keyed.mem_of_get? hv)

theorem Equal.trans {u v w : Value} (h : Equal u v) (h' : Equal v w) : Equal u w := by
  induction u using tree_induction generalizing v w with
  | leaf u hsequence hmap =>
    cases h with
    | float equal =>
      cases h' with
      | float equal' => exact .float (BEq.trans equal equal')
    | sequence => cases hsequence
    | map => cases hmap
    | _ => exact h'
  | sequence items ih =>
    obtain ⟨others, rfl, equal⟩ := equal_sequence_iff.mp h
    obtain ⟨third, rfl, equal'⟩ := equal_sequence_iff.mp h'
    exact .sequence (forall₂_trans equal equal' fun u hu v w => ih u hu)
  | map entries ih =>
    obtain ⟨others, rfl, equal⟩ := equal_map_iff.mp h
    obtain ⟨third, rfl, equal'⟩ := equal_map_iff.mp h'
    refine .map fun key => rel_trans (equal key) (equal' key) fun u hu v w => ?_
    exact ih (key, u) (Keyed.mem_of_get? hu)

/-! ### Deciding equality -/

theorem eqItems_iff {items others : List Value} :
    eqItems items others = true ↔ List.Forall₂ (fun v w => eq v w = true) items others := by
  induction items generalizing others with
  | nil => cases others <;> simp [eqItems]
  | cons v items ih =>
    cases others with
    | nil => simp [eqItems]
    | cons w others => simp [eqItems, ih]

theorem entriesIn_iff {entries others : List (String × Value)} :
    entriesIn entries others = true ↔
      ∀ e ∈ entries, ∃ w, Keyed.get? others e.1 = some w ∧ eq e.2 w = true := by
  induction entries with
  | nil => simp [entriesIn]
  | cons e entries ih =>
    obtain ⟨key, v⟩ := e
    rw [entriesIn, Bool.and_eq_true, ih, List.forall_mem_cons]
    cases Keyed.get? others key with
    | none => simp
    | some w => simp

theorem forall₂_iff_of_mem {R S : Value → Value → Prop} {items others : List Value}
    (h : ∀ v ∈ items, ∀ w ∈ others, R v w ↔ S v w) :
    List.Forall₂ R items others ↔ List.Forall₂ S items others := by
  induction items generalizing others with
  | nil => cases others <;> simp
  | cons v items ih =>
    cases others with
    | nil => simp
    | cons w others =>
      rw [List.forall₂_cons, List.forall₂_cons, h v List.mem_cons_self w List.mem_cons_self,
        ih fun v hv w hw => h v (List.mem_cons_of_mem _ hv) w (List.mem_cons_of_mem _ hw)]

section Keys

variable {R : Value → Value → Prop} {entries others : List (String × Value)}
  (hentries : (Keyed.keys entries).Nodup) (hothers : (Keyed.keys others).Nodup)

include hentries

theorem perm_keys_of_values (hlength : entries.length = others.length)
    (hvalues : ∀ e ∈ entries, ∃ w, Keyed.get? others e.1 = some w ∧ R e.2 w) :
    (Keyed.keys entries).Perm (Keyed.keys others) := by
  have hkeys : Keyed.keys entries ⊆ Keyed.keys others := by
    intro name hname
    obtain ⟨e, he, rfl⟩ := List.mem_map.mp hname
    obtain ⟨w, hw, -⟩ := hvalues e he
    exact List.mem_map.mpr ⟨_, Keyed.mem_of_get? hw, rfl⟩
  refine (hentries.subperm hkeys).perm_of_length_le ?_
  rw [Keyed.keys, Keyed.keys, List.length_map, List.length_map, hlength]

include hothers

theorem perm_keys_of_rel
    (hrel : ∀ key, Option.Rel R (Keyed.get? entries key) (Keyed.get? others key)) :
    (Keyed.keys entries).Perm (Keyed.keys others) := by
  refine (List.perm_ext_iff_of_nodup hentries hothers).mpr fun key => not_iff_not.mp ?_
  rw [← Keyed.get?_eq_none_iff, ← Keyed.get?_eq_none_iff]
  exact eq_none_iff_of_rel (hrel key)

/-- Two maps with as many keys have related values at the keys of the first one just when they have
related values at all keys. -/
theorem rel_get?_iff :
    (entries.length = others.length ∧
        ∀ e ∈ entries, ∃ w, Keyed.get? others e.1 = some w ∧ R e.2 w) ↔
      ∀ key, Option.Rel R (Keyed.get? entries key) (Keyed.get? others key) := by
  constructor
  · rintro ⟨hlength, hvalues⟩ key
    have hperm := perm_keys_of_values hentries hlength hvalues
    cases hget : Keyed.get? entries key with
    | none =>
      rw [Keyed.get?_eq_none_iff, hperm.mem_iff, ← Keyed.get?_eq_none_iff] at hget
      rw [hget]
      exact .none
    | some v => exact rel_some_iff.mpr (hvalues (key, v) (Keyed.mem_of_get? hget))
  · intro hrel
    refine ⟨?_, fun e he => ?_⟩
    · simpa [Keyed.keys] using (perm_keys_of_rel hentries hothers hrel).length_eq
    · exact rel_some_iff.mp (Keyed.get?_of_mem hentries he ▸ hrel e.1)

end Keys

/-- Comparing two values decides whether they are equal. -/
theorem beq_iff_equal {v w : Value} (hv : v.WellFormed) (hw : w.WellFormed) :
    (v == w) = true ↔ Equal v w := by
  change eq v w = true ↔ Equal v w
  induction v using tree_induction generalizing w with
  | leaf v hsequence hmap =>
    constructor
    · intro h
      unfold eq at h
      split at h
      · exact .null
      · exact eq_of_beq h ▸ .bool _
      · exact eq_of_beq h ▸ .int _
      · exact .float h
      · exact eq_of_beq h ▸ .string _
      · exact eq_of_beq h ▸ .date _
      · cases hsequence
      · cases hmap
      · exact eq_of_beq h ▸ .handle _
      · cases h
    · intro h
      cases h with
      | float equal => simpa [eq] using equal
      | sequence => cases hsequence
      | map => cases hmap
      | _ => simp [eq]
  | sequence items ih =>
    rw [equal_sequence_iff]
    cases w with
    | sequence others =>
      have hitems := wellFormed_sequence_iff.mp hv
      have hothers := wellFormed_sequence_iff.mp hw
      simp only [eq, eqItems_iff, sequence.injEq, exists_eq_left']
      exact forall₂_iff_of_mem fun v hv w hw => ih v hv (hitems v hv) (hothers w hw)
    | _ => simp [eq]
  | map entries ih =>
    rw [equal_map_iff]
    cases w with
    | map others =>
      obtain ⟨hentries, hvalues⟩ := wellFormed_map_iff.mp hv
      obtain ⟨hothers, hvalues'⟩ := wellFormed_map_iff.mp hw
      simp only [eq, Bool.and_eq_true, beq_iff_eq, entriesIn_iff, map.injEq, exists_eq_left']
      rw [← rel_get?_iff hentries hothers]
      refine and_congr_right fun _ => forall₂_congr fun e he => exists_congr fun w => ?_
      refine and_congr_right fun hw => ?_
      exact ih e he (hvalues e he) (hvalues' _ (Keyed.mem_of_get? hw))
    | _ => simp [eq]

/-! ### What comparing says -/

theorem get?_eq_of_perm {entries others : List (String × Value)} (h : entries.Perm others)
    (hnodup : (Keyed.keys entries).Nodup) (key : String) :
    Keyed.get? entries key = Keyed.get? others key := by
  have hnodup' : (Keyed.keys others).Nodup := (h.map _).nodup_iff.mp hnodup
  refine Option.ext fun v => ⟨fun hv => ?_, fun hv => ?_⟩
  · exact Keyed.get?_of_mem (e := (key, v)) hnodup' (h.mem_iff.mp (Keyed.mem_of_get? hv))
  · exact Keyed.get?_of_mem (e := (key, v)) hnodup (h.mem_iff.mpr (Keyed.mem_of_get? hv))

/-- Maps are equal to the same values when they have the same entries, in whatever order. -/
theorem equal_map_iff_of_perm {entries others : List (String × Value)} (h : entries.Perm others)
    (hnodup : (Keyed.keys entries).Nodup) (w : Value) :
    Equal (map entries) w ↔ Equal (map others) w := by
  simp only [equal_map_iff, get?_eq_of_perm h hnodup]

theorem wellFormed_map_of_perm {entries others : List (String × Value)} (h : entries.Perm others)
    (hentries : (map entries).WellFormed) : (map others).WellFormed := by
  obtain ⟨hnodup, hvalues⟩ := wellFormed_map_iff.mp hentries
  refine wellFormed_map_iff.mpr ⟨(h.map _).nodup_iff.mp hnodup, fun e he => ?_⟩
  exact hvalues e (h.mem_iff.mpr he)

/-- When values compare as equal: when they are alike all the way down, whatever the order of the
keys of maps. An integer equals no double, NaN equals nothing, and a handle equals itself only. -/
structure ComparedAsEqual : Prop where
  structural {v w : Value} (hv : v.WellFormed) (hw : w.WellFormed) : (v == w) = true ↔ Equal v w
  unordered {entries others : List (String × Value)} (h : entries.Perm others)
    (hentries : (map entries).WellFormed) {w : Value} (hw : w.WellFormed) :
    (map entries == w) = (map others == w)
  intAndFloat (n : Int64) (x : Float) : (int n == float x) = false ∧ (float x == int n) = false
  nan {x : Float} (h : x.isNaN = true) : (float x == float x) = false
  handles (h k : Handle) : (handle h == handle k) = true ↔ h = k

theorem comparedAsEqual : ComparedAsEqual where
  structural := beq_iff_equal
  unordered h hentries w hw := by
    rw [Bool.eq_iff_iff, beq_iff_equal hentries hw,
      beq_iff_equal (wellFormed_map_of_perm h hentries) hw]
    exact equal_map_iff_of_perm h (wellFormed_map_iff.mp hentries).1 w
  intAndFloat n x := ⟨rfl, rfl⟩
  nan {x} h := by
    change (x == x) = false
    rw [Float.isNaN_eq_decide_eq_nan, decide_eq_true_eq] at h
    exact Float.beq_self_eq_false_iff.mpr h
  handles h k := by
    change (h == k) = true ↔ h = k
    exact beq_iff_eq

end Value
end PathRules

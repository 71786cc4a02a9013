import PathRules.Proofs.Chains
import PathRules.Proofs.Execution
/-!
The questions that are due. Each is about a location of the shape of its field's path, and no
location comes before one below it. Where nothing is wrapped, the questions depend on the outlines
of the data only, and there is one of each validator about each location that has a value.
-/

namespace PathRules

theorem Accessor.Fits.unique {a b : Accessor} {s : Segment} (ha : a.Fits s) (hb : b.Fits s) :
    a = b := by
  cases a <;> cases b <;> simp_all [Accessor.Fits]

namespace Location

/-- A location has one shape. -/
theorem HasShape.path_unique {l : Location} {p q : Path} (hp : l.HasShape p) (hq : l.HasShape q) :
    p = q := by
  induction l generalizing p q with
  | nil =>
    rw [List.forall₂_nil_right_iff.mp hp, List.forall₂_nil_right_iff.mp hq]
  | cons s l ih =>
    obtain ⟨a, p', ha, hp', rfl⟩ := List.forall₂_cons_right_iff.mp hp
    obtain ⟨b, q', hb, hq', rfl⟩ := List.forall₂_cons_right_iff.mp hq
    rw [ha.unique hb, ih hp' hq']

theorem HasShape.append {l m : Location} {p q : Path} (hl : l.HasShape p) (hm : m.HasShape q) :
    HasShape (l ++ m) (p ++ q) :=
  List.rel_append hl hm

theorem HasShape.exists_append {l : Location} {p q : Path} (h : l.HasShape (p ++ q)) :
    ∃ m n, l = m ++ n ∧ m.HasShape p ∧ n.HasShape q := by
  induction p generalizing l with
  | nil => exact ⟨[], l, rfl, .nil, h⟩
  | cons a p ih =>
    obtain ⟨s, rest, hs, hrest, rfl⟩ := List.forall₂_cons_left_iff.mp h
    obtain ⟨m, n, rfl, hm, hn⟩ := ih hrest
    exact ⟨s :: m, n, rfl, .cons hs hm, hn⟩

end Location

/-- Whether two trees have values of the same outlines at the same locations. -/
def SameOutline (o o' : Option Value) : Prop :=
  ∀ m, (o.bind fun v => v.get? m).bind Value.outline =
    (o'.bind fun v => v.get? m).bind Value.outline

namespace SameOutline

theorem outline_eq {o o' : Option Value} (h : SameOutline o o') :
    o.bind Value.outline = o'.bind Value.outline := by
  have hroot := h []
  cases o <;> cases o' <;> exact hroot

theorem get? {o o' : Option Value} (h : SameOutline o o') (m : Location) :
    SameOutline (o.bind fun v => v.get? m) (o'.bind fun v => v.get? m) := by
  intro n
  have happend := h (m ++ n)
  simpa only [Value.get?_append, Option.bind_assoc] using happend

theorem child? {v w : Value} (h : SameOutline (some v) (some w)) (s : Segment) :
    SameOutline (v.child? s) (w.child? s) :=
  fun m => h (s :: m)

end SameOutline

theorem Accessor.segments_congr (a : Accessor) {v w : Value} (h : v.outline = w.outline) :
    a.segments v = a.segments w := by
  cases a with
  | key name => rfl
  | each => cases v <;> cases w <;> simp_all [segments, Value.outline]

theorem flatMap_locations_absent {β : Type} {f : Option Value → Location → List β}
    (hf : ∀ o o' m, SameOutline o o' → f o m = f o' m) (hnone : ∀ m, f none m = []) (p : Path)
    {o : Option Value} (h : SameOutline o none) :
    (p.locations o).flatMap (fun m => f (o.bind fun v => v.get? m) m) = [] := by
  rw [List.flatMap_eq_nil_iff]
  intro m _
  rw [hf _ none m (h.get? m), hnone]

/-- What is gathered over the locations of a path depends on outlines only, if what is gathered at
each location does and absent values give nothing. -/
theorem flatMap_locations_congr {β : Type} {f : Option Value → Location → List β}
    (hf : ∀ o o' m, SameOutline o o' → f o m = f o' m) (hnone : ∀ m, f none m = []) (p : Path)
    {o o' : Option Value} (h : SameOutline o o') :
    (p.locations o).flatMap (fun m => f (o.bind fun v => v.get? m) m) =
      (p.locations o').flatMap fun m => f (o'.bind fun v => v.get? m) m := by
  induction p generalizing f o o' with
  | nil =>
    cases o with
    | none => exact (flatMap_locations_absent hf hnone [] fun m => (h m).symm).symm
    | some v =>
      cases o' with
      | none => exact flatMap_locations_absent hf hnone [] h
      | some w =>
        simp only [Path.locations_nil, List.flatMap_cons, List.flatMap_nil, List.append_nil]
        exact hf _ _ _ h
  | cons a p ih =>
    cases o with
    | none => exact (flatMap_locations_absent hf hnone (a :: p) fun m => (h m).symm).symm
    | some v =>
      cases o' with
      | none => exact flatMap_locations_absent hf hnone (a :: p) h
      | some w =>
        rw [Path.locations_cons, Path.locations_cons, a.segments_congr h.outline_eq,
          List.flatMap_assoc, List.flatMap_assoc]
        apply List.flatMap_congr
        intro s _
        rw [List.flatMap_map, List.flatMap_map]
        exact ih (f := fun o m => f o (s :: m)) (fun o o' m => hf o o' (s :: m))
          (fun m => hnone (s :: m)) (h.child? s)

namespace RunState

open Value

variable {options : RunOptions}

theorem mem_questions {q : Question} {field : Field} {l : Location} :
    q ∈ questions field l ↔ q.field = field.path ∧ q.validator ∈ field.ids ∧ q.location = l := by
  simp only [questions, List.mem_map]
  constructor
  · rintro ⟨id, hid, rfl⟩
    exact ⟨rfl, hid, rfl⟩
  · rintro ⟨hfield, hvalidator, hlocation⟩
    exact ⟨q.validator, hvalidator, by rw [← hfield, ← hlocation]⟩

theorem prepared_of_not_formEncoded (hform : options.formEncoded = false) (field : Field)
    (l : Location) (v : Value) : prepared options field l v = v := by
  simp [prepared, hform]

theorem mem_elementsDue {items : List Field} {v : Value} {l : Location} {q : Question} :
    q ∈ elementsDue options items v l ↔ ∃ item rest m, items = item :: rest ∧
      m ∈ Path.locations Path.elements (some v) ∧
        q ∈ due options rest item (v.get? m) (l ++ m) := by
  cases items with
  | nil => simp [elementsDue]
  | cons item rest =>
    rw [elementsDue, List.mem_flatMap]
    constructor
    · rintro ⟨m, hm, hq⟩
      exact ⟨item, rest, m, rfl, hm, hq⟩
    · rintro ⟨item, rest, m, heq, hm, hq⟩
      cases heq
      exact ⟨m, hm, hq⟩

/-- Each question is one of a field of the chain, as far below the location as the field is below
the first one. -/
theorem mem_due {items : List Field} {field : Field} {v : Value} {l : Location} {q : Question}
    (hq : q ∈ due options items field (some v) l) :
    ∃ k g m, (field :: items)[k]? = some g ∧ q ∈ questions g (l ++ m) ∧
      m.HasShape (List.replicate k .each) ∧
        (options.formEncoded = false → ∃ w, v.get? m = some w ∧ w.isNull = false) := by
  induction items generalizing field v l with
  | nil =>
    rw [due_some] at hq
    cases hnull : v.isNull with
    | true => simp [hnull] at hq
    | false =>
      simp only [hnull, elementsDue, List.nil_append] at hq
      exact ⟨0, field, [], rfl, by simpa using hq, .nil, fun _ => ⟨v, rfl, hnull⟩⟩
  | cons item rest ih =>
    rw [due_some] at hq
    cases hnull : v.isNull with
    | true => simp [hnull] at hq
    | false =>
      simp only [hnull, Bool.false_eq_true, if_false, List.mem_append] at hq
      rcases hq with hq | hq
      · obtain ⟨_, _, m, heq, hm, hq⟩ := mem_elementsDue.mp hq
        cases heq
        obtain ⟨hshape, c, hc⟩ := Path.mem_locations.mp hm
        rw [hc] at hq
        obtain ⟨k, g, n, hg, hq, hn, hvalue⟩ := ih hq
        refine ⟨k + 1, g, m ++ n, hg, by simpa using hq, hshape.append hn, fun hform => ?_⟩
        obtain ⟨w, hw, hwnull⟩ := hvalue hform
        rw [prepared_of_not_formEncoded hform] at hc
        exact ⟨w, by rw [get?_append, hc, Option.bind_some, hw], hwnull⟩
      · exact ⟨0, field, [], rfl, by simpa using hq, .nil, fun _ => ⟨v, rfl, hnull⟩⟩

theorem prefix_of_mem_due {items : List Field} {field : Field} {o : Option Value} {l : Location}
    {q : Question} (hq : q ∈ due options items field o l) : l <+: q.location := by
  cases o with
  | none => simp [due] at hq
  | some v =>
    obtain ⟨k, g, m, -, hq, -, -⟩ := mem_due hq
    rw [(mem_questions.mp hq).2.2]
    exact List.prefix_append l m

/-- Whether a question is about a location strictly above the one of another question. -/
def Above (q r : Question) : Prop :=
  q.location <+: r.location ∧ q.location ≠ r.location

/-- Questions that are about different branches are not above each other. -/
theorem pairwise_flatMap_locations {p : Path} {o : Option Value} {l : Location}
    {f : Location → List Question} (hbelow : ∀ m, ∀ q ∈ f m, l ++ m <+: q.location)
    (hf : ∀ m, (f m).Pairwise fun q r => ¬ Above q r) :
    ((p.locations o).flatMap f).Pairwise fun q r => ¬ Above q r := by
  cases o with
  | none => simp
  | some v =>
    refine List.pairwise_flatMap.mpr ⟨fun m _ => hf m, ?_⟩
    refine (p.nodup_locations (some v)).imp_of_mem fun {m n} hm hn hne q hq r hr habove => hne ?_
    have hlength : (l ++ m).length = (l ++ n).length := by
      rw [List.length_append, List.length_append, (Path.mem_locations.mp hm).1.length_eq,
        (Path.mem_locations.mp hn).1.length_eq]
    have hm' := (hbelow m q hq).trans habove.1
    rcases List.prefix_or_prefix_of_prefix hm' (hbelow n r hr) with h | h
    · exact List.append_cancel_left (h.eq_of_length hlength)
    · exact List.append_cancel_left (h.eq_of_length hlength.symm).symm

theorem pairwise_due_of_elements {items : List Field} {l : Location}
    (hitems : ∀ v, (elementsDue options items v l).Pairwise fun q r => ¬ Above q r)
    (hbelow : ∀ v, ∀ q ∈ elementsDue options items v l, l <+: q.location) (field : Field)
    (o : Option Value) : (due options items field o l).Pairwise fun q r => ¬ Above q r := by
  cases o with
  | none => simp [due]
  | some v =>
    rw [due_some]
    split
    · exact .nil
    · refine List.pairwise_append.mpr ⟨hitems _, ?_, fun q hq r hr habove => ?_⟩
      · exact List.pairwise_map.mpr (List.pairwise_of_forall fun _ _ habove => habove.2 rfl)
      · have hr' := (mem_questions.mp hr).2.2
        have hq' := hbelow _ q hq
        rw [Above, hr'] at habove
        exact habove.2 (habove.1.eq_of_length_le hq'.length_le)

/-- Questions about elements come before those about what holds them. -/
theorem pairwise_due (items : List Field) (field : Field) (o : Option Value) (l : Location) :
    (due options items field o l).Pairwise fun q r => ¬ Above q r := by
  induction items generalizing field o l with
  | nil => exact pairwise_due_of_elements (fun _ => .nil) (by simp [elementsDue]) field o
  | cons item rest ih =>
    refine pairwise_due_of_elements (fun v => ?_) (fun v q hq => ?_) field o
    · exact pairwise_flatMap_locations (fun m q hq => prefix_of_mem_due hq) fun m => ih _ _ _
    · obtain ⟨_, _, m, heq, -, hq⟩ := mem_elementsDue.mp hq
      exact (List.prefix_append l m).trans (prefix_of_mem_due hq)

theorem pairwise_chainDue (chain : FieldChain) (data : Value) :
    (chainDue options chain data).Pairwise fun q r => ¬ Above q r :=
  pairwise_flatMap_locations (l := []) (fun _ _ hq => prefix_of_mem_due hq)
    fun _ => pairwise_due _ _ _ _

/-- The questions of a chain are those of its fields, each about a location of the field's shape. -/
theorem mem_chainDue {chain : FieldChain} {data : Value} {q : Question}
    (hpaths : ∀ (k : Nat) (g : Field), chain.fields[k]? = some g →
      g.path = chain.path.elementsAt k)
    (hq : q ∈ chainDue options chain data) :
    ∃ g ∈ chain.fields, q ∈ questions g q.location ∧ q.location.HasShape g.path ∧
      (options.formEncoded = false →
        ∃ w, data.get? q.location = some w ∧ w.isNull = false) := by
  obtain ⟨l, hl, hq⟩ := List.mem_flatMap.mp hq
  obtain ⟨hshape, v, hv⟩ := Path.mem_locations.mp hl
  rw [hv] at hq
  obtain ⟨k, g, m, hg, hq, hm, hvalue⟩ := mem_due hq
  have hlocation := (mem_questions.mp hq).2.2
  refine ⟨g, List.mem_of_getElem? hg, hlocation ▸ hq, ?_, fun hform => ?_⟩
  · rw [hlocation, hpaths k g hg]
    exact hshape.append hm
  · obtain ⟨w, hw, hwnull⟩ := hvalue hform
    exact ⟨w, by rw [hlocation, get?_append, hv, Option.bind_some, hw], hwnull⟩

theorem due_of_outline_eq_none {items : List Field} {field : Field} {o : Option Value}
    {l : Location} (h : o.bind outline = none) : due options items field o l = [] := by
  cases o with
  | none => simp [due]
  | some v => rw [due_some, if_pos (isNull_eq_true_iff.mpr (outline_eq_none_iff.mp h))]

theorem due_congr_of_elements (hform : options.formEncoded = false) {items : List Field}
    {l : Location} (helements : ∀ v w, SameOutline (some v) (some w) →
      elementsDue options items v l = elementsDue options items w l) (field : Field)
    {o o' : Option Value} (h : SameOutline o o') :
    due options items field o l = due options items field o' l := by
  have houtline := h.outline_eq
  cases hsome : o.bind outline with
  | none =>
    rw [due_of_outline_eq_none hsome, due_of_outline_eq_none (houtline.symm.trans hsome)]
  | some shape =>
    rw [hsome] at houtline
    obtain ⟨v, rfl, hv⟩ := Option.bind_eq_some_iff.mp hsome
    obtain ⟨w, rfl, hw⟩ := Option.bind_eq_some_iff.mp houtline.symm
    rw [due_some, due_some, isNull_of_outline hv, isNull_of_outline hw,
      prepared_of_not_formEncoded hform, prepared_of_not_formEncoded hform, helements v w h]

/-- Where nothing is wrapped, the questions due depend on the outlines of the data only. -/
theorem due_congr (hform : options.formEncoded = false) (items : List Field) (field : Field)
    (l : Location) {o o' : Option Value} (h : SameOutline o o') :
    due options items field o l = due options items field o' l := by
  induction items generalizing field o o' l with
  | nil => exact due_congr_of_elements hform (fun _ _ _ => rfl) field h
  | cons item rest ih =>
    refine due_congr_of_elements hform (fun v w hvw => ?_) field h
    exact flatMap_locations_congr (f := fun o m => due options rest item o (l ++ m))
      (fun _ _ m ho => ih item (l ++ m) ho) (fun m => by simp [due]) Path.elements hvw

theorem chainDue_congr (hform : options.formEncoded = false) (chain : FieldChain)
    {d e : Value} (h : SameOutline (some d) (some e)) :
    chainDue options chain d = chainDue options chain e :=
  flatMap_locations_congr (f := fun o m => due options chain.items chain.head o m)
    (fun _ _ m ho => due_congr hform _ _ m ho) (fun m => by simp [due]) chain.path h

/-- Of what is gathered below a base, only one location's share is about a location further down. -/
theorem filter_flatMap_locations {p : Path} {v : Value} {l m n : Location}
    {f : Location → List Question} (hbelow : ∀ m, ∀ q ∈ f m, l ++ m <+: q.location)
    (hm : m ∈ p.locations (some v)) :
    ((p.locations (some v)).flatMap f).filter (fun q => q.location = l ++ (m ++ n)) =
      (f m).filter fun q => q.location = l ++ (m ++ n) := by
  rw [List.filter_flatMap]
  apply flatMap_eq_of_unique (p.nodup_locations (some v)) hm
  intro m' hm' hne
  rw [List.filter_eq_nil_iff]
  intro q hq hlocation
  have hq' : l ++ m' <+: l ++ (m ++ n) := of_decide_eq_true hlocation ▸ hbelow m' q hq
  have hpre := (List.prefix_append_right_inj l).mp hq'
  have hlength : m'.length = m.length := by
    rw [(Path.mem_locations.mp hm').1.length_eq, (Path.mem_locations.mp hm).1.length_eq]
  rcases List.prefix_or_prefix_of_prefix hpre (List.prefix_append m n) with h | h
  · exact hne (h.eq_of_length hlength)
  · exact hne (h.eq_of_length hlength.symm).symm

theorem filter_questions (field : Field) (l : Location) :
    (questions field l).filter (fun q => q.location = l) = questions field l := by
  rw [List.filter_eq_self]
  intro q hq
  exact decide_eq_true (mem_questions.mp hq).2.2

theorem filter_questions_of_ne (field : Field) {l m : Location} (hne : l ≠ m) :
    (questions field l).filter (fun q => q.location = m) = [] := by
  rw [List.filter_eq_nil_iff]
  intro q hq hlocation
  exact hne ((mem_questions.mp hq).2.2.symm.trans (of_decide_eq_true hlocation))

theorem isNull_of_get? {v w : Value} {m : Location} (hget : v.get? m = some w)
    (hnull : w.isNull = false) : v.isNull = false := by
  cases m with
  | nil =>
    cases hget
    exact hnull
  | cons s m =>
    obtain ⟨c, hc, -⟩ := Option.bind_eq_some_iff.mp hget
    rcases child?_eq_some_iff.mp hc with ⟨entries, name, rfl, -⟩ | ⟨items, n, rfl, -⟩
    · rfl
    · rfl

/-- About a location that has a value, a chain asks just the questions of the one field that is at
the location's depth. -/
theorem filter_due (hform : options.formEncoded = false) {k : Nat} {items : List Field}
    {field g : Field} (hg : (field :: items)[k]? = some g) {v w : Value} {l m : Location}
    (hm : m.HasShape (List.replicate k .each)) (hget : v.get? m = some w)
    (hnull : w.isNull = false) :
    (due options items field (some v) l).filter (fun q => q.location = l ++ m) =
      questions g (l ++ m) := by
  induction k generalizing items field v l m with
  | zero =>
    cases List.forall₂_nil_left_iff.mp hm
    obtain rfl : field = g := Option.some.inj hg
    have helements : (elementsDue options items (prepared options field l v) l).filter
        (fun q => q.location = l) = [] := by
      rw [List.filter_eq_nil_iff]
      intro q hq hlocation
      obtain ⟨_, _, m, -, hm, hq⟩ := mem_elementsDue.mp hq
      have hlength := (prefix_of_mem_due hq).length_le
      rw [of_decide_eq_true hlocation, List.length_append,
        (Path.mem_locations.mp hm).1.length_eq] at hlength
      exact absurd hlength (by simp [Path.elements])
    rw [List.append_nil, due_some, isNull_of_get? hget hnull, if_neg Bool.false_ne_true,
      List.filter_append, helements, filter_questions, List.nil_append]
  | succ k ih =>
    cases items with
    | nil => simp at hg
    | cons item rest =>
      obtain ⟨s, n, hs, hn, rfl⟩ := List.forall₂_cons_left_iff.mp hm
      obtain ⟨c, hc, hcget⟩ := Option.bind_eq_some_iff.mp hget
      have hchild : v.get? [s] = some c := (get?_singleton v s).trans hc
      have hmem : [s] ∈ Path.locations Path.elements (some v) :=
        Path.mem_locations.mpr ⟨.cons hs .nil, c, hchild⟩
      have hne : l ≠ l ++ ([s] ++ n) := by simp
      change (due options (item :: rest) field (some v) l).filter
        (fun q => q.location = l ++ ([s] ++ n)) = questions g (l ++ ([s] ++ n))
      rw [due_some, isNull_of_get? hget hnull, if_neg Bool.false_ne_true,
        prepared_of_not_formEncoded hform, List.filter_append, filter_questions_of_ne field hne,
        List.append_nil, elementsDue,
        filter_flatMap_locations (fun m q hq => prefix_of_mem_due hq) hmem, hchild,
        ← List.append_assoc]
      exact ih hg hn hcget

/-- The share of one location in the questions of a chain. -/
theorem filter_chainDue (hform : options.formEncoded = false) {chain : FieldChain} {k : Nat}
    {g : Field} (hg : chain.fields[k]? = some g) (hpath : g.path = chain.path.elementsAt k)
    {d w : Value} {l : Location} (hl : l.HasShape g.path) (hget : d.get? l = some w)
    (hnull : w.isNull = false) :
    (chainDue options chain d).filter (fun q => q.location = l) = questions g l := by
  rw [hpath] at hl
  obtain ⟨m, n, rfl, hm, hn⟩ := hl.exists_append
  obtain ⟨v, hv, hnget⟩ := Option.bind_eq_some_iff.mp ((d.get?_append m n).symm.trans hget)
  have hmem : m ∈ chain.path.locations (some d) := Path.mem_locations.mpr ⟨hm, v, hv⟩
  have hfilter := filter_flatMap_locations (l := []) (n := n)
    (f := fun m => due options chain.items chain.head (d.get? m) m)
    (fun m q hq => prefix_of_mem_due hq) hmem
  rw [List.nil_append] at hfilter
  rw [chainDue, hfilter, hv]
  exact filter_due hform hg hn hnget hnull

end RunState
end PathRules

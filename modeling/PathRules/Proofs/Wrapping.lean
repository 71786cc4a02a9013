import PathRules.Proofs.Independence
/-!
Wrapping of lone values. A field of a sequence at the root wraps a lone value when its turn comes.
Main statements: a turn over form-encoded data is a turn over other data, before which the key of
the chain is wrapped; wrapping a key and assigning a location below another key can come in any
order.
-/

namespace PathRules

namespace Value

/-- The sequence of a lone value. A null stays. -/
def wrapLone (v : Value) : Value :=
  if v.isNull then v else RunState.wrapped v

/-- Wraps the lone value of a key. -/
def wrapKey (v : Value) (name : String) : Value :=
  v.assignChild (.key name) ((v.child? (.key name)).map wrapLone)

/-- Wraps the lone values of keys. -/
def wrapKeys (v : Value) (names : List String) : Value :=
  names.foldl wrapKey v

theorem wrapLone_of_leaf {v : Value} (h : v.outline = some .leaf) : v.wrapLone = sequence [v] := by
  cases v <;> first | rfl | simp [outline] at h

theorem wrapLone_of_not_leaf {v : Value} (h : v.outline ≠ some .leaf) : v.wrapLone = v := by
  cases v <;> first | rfl | simp [outline] at h

theorem wrapLone_wrapLone (v : Value) : v.wrapLone.wrapLone = v.wrapLone := by
  by_cases h : v.outline = some .leaf
  · rw [wrapLone_of_leaf h]
    rfl
  · rw [wrapLone_of_not_leaf h, wrapLone_of_not_leaf h]

theorem child?_wrapKey_self (v : Value) (name : String) :
    (v.wrapKey name).child? (.key name) = (v.child? (.key name)).map wrapLone := by
  unfold wrapKey
  cases hchild : v.child? (.key name) with
  | none => rw [Option.map_none, ← hchild, assignChild_child?, hchild]
  | some c => exact child?_assignChild_self hchild _

theorem child?_wrapKey_of_ne (v : Value) {name : String} {s : Segment} (hne : .key name ≠ s) :
    (v.wrapKey name).child? s = v.child? s :=
  child?_assignChild_of_ne (fun h => by simpa using h) hne

theorem outline_wrapKey (v : Value) (name : String) : (v.wrapKey name).outline = v.outline :=
  outline_assignChild v (.key name) _

/-- A key whose value is not lone stays as it is. -/
theorem wrapKey_eq_self {v : Value} {name : String}
    (h : ∀ c, v.child? (.key name) = some c → c.outline ≠ some .leaf) : v.wrapKey name = v := by
  have hsame : (v.child? (.key name)).map wrapLone = v.child? (.key name) := by
    cases hchild : v.child? (.key name) with
    | none => rfl
    | some c => rw [Option.map_some, wrapLone_of_not_leaf (h c hchild)]
  rw [wrapKey, hsame, assignChild_child?]

theorem outline_wrapKeys (v : Value) (names : List String) :
    (v.wrapKeys names).outline = v.outline := by
  unfold wrapKeys
  induction names generalizing v with
  | nil => rfl
  | cons name names ih => rw [List.foldl_cons, ih, outline_wrapKey]

theorem child?_wrapKeys_of_not_mem (v : Value) {names : List String} {s : Segment}
    (h : ∀ name ∈ names, .key name ≠ s) : (v.wrapKeys names).child? s = v.child? s := by
  unfold wrapKeys
  induction names generalizing v with
  | nil => rfl
  | cons name names ih =>
    rw [List.foldl_cons, ih _ fun other hother => h other (List.mem_cons_of_mem name hother),
      child?_wrapKey_of_ne v (h name List.mem_cons_self)]

theorem child?_wrapKeys_of_mem (v : Value) {names : List String} {name : String}
    (h : name ∈ names) :
    (v.wrapKeys names).child? (.key name) = (v.child? (.key name)).map wrapLone := by
  unfold wrapKeys
  induction names generalizing v with
  | nil => contradiction
  | cons other names ih =>
    rw [List.foldl_cons]
    by_cases hmem : name ∈ names
    · rw [ih _ hmem]
      by_cases hname : other = name
      · rw [hname, child?_wrapKey_self, Option.map_map]
        exact Option.map_congr fun c _ => wrapLone_wrapLone c
      · rw [child?_wrapKey_of_ne v fun h => hname (Segment.key.inj h)]
    · obtain rfl : name = other := (List.mem_cons.mp h).resolve_right hmem
      have hothers : ∀ other ∈ names, Segment.key other ≠ .key name := by
        intro other hother heq
        exact hmem (Segment.key.inj heq ▸ hother)
      rw [← wrapKeys, child?_wrapKeys_of_not_mem _ hothers, child?_wrapKey_self]

/-- Wrapping a key and assigning a location below another key can come in any order. -/
theorem wrapKey_assign {v new : Value} {x : Option Value} {name : String} {s : Segment}
    {rest : Location} (hne : .key name ≠ s) (hnew : assign x (s :: rest) (some v) = some new) :
    assign x (s :: rest) (some (v.wrapKey name)) = some (new.wrapKey name) := by
  rw [assign_cons, Option.some.injEq] at hnew
  subst hnew
  have hchild := child?_assignChild_of_ne (t := .key name)
    (isSome_of_isSome_assign (x := x) (l := rest) (o := v.child? s)) hne.symm
  rw [assign_cons, child?_wrapKey_of_ne v hne, wrapKey, wrapKey, hchild,
    assignChild_comm hne (fun h => by simpa using h) isSome_of_isSome_assign]

/-- Wrapping keys and assigning a location below a key can come in any order, if the key is none of
them or its value is not lone, neither before nor after. -/
theorem wrapKeys_assign {v new : Value} {x : Option Value} {names : List String} {name : String}
    {rest : Location}
    (hkeep : name ∈ names → (∀ c, v.child? (.key name) = some c → c.outline ≠ some .leaf) ∧
      ∀ c, new.child? (.key name) = some c → c.outline ≠ some .leaf)
    (hnew : assign x (.key name :: rest) (some v) = some new) :
    assign x (.key name :: rest) (some (v.wrapKeys names)) = some (new.wrapKeys names) := by
  unfold wrapKeys
  induction names generalizing v new with
  | nil => exact hnew
  | cons other names ih =>
    rw [List.foldl_cons, List.foldl_cons]
    by_cases hname : other = name
    · subst hname
      obtain ⟨hv, hw⟩ := hkeep List.mem_cons_self
      rw [wrapKey_eq_self hv, wrapKey_eq_self hw]
      exact ih (fun _ => ⟨hv, hw⟩) hnew
    · have hne : Segment.key other ≠ .key name := fun h => hname (Segment.key.inj h)
      refine ih (fun hmem => ?_) (wrapKey_assign hne hnew)
      rw [child?_wrapKey_of_ne v hne, child?_wrapKey_of_ne new hne]
      exact hkeep (List.mem_cons_of_mem other hmem)

end Value

/-- The same call about data that is not form-encoded. -/
def RunOptions.plain (options : RunOptions) : RunOptions :=
  { options with formEncoded := false }

/-- The key of which a chain wraps a lone value. -/
def FieldChain.wrappedKey? (chain : FieldChain) : Option String :=
  match chain.path with
  | [.key name] => if chain.head.info.array then some name else none
  | _ => none

theorem FieldChain.wrappedKey?_eq_some_iff {chain : FieldChain} {name : String} :
    chain.wrappedKey? = some name ↔ chain.path = [.key name] ∧ chain.head.info.array = true := by
  unfold wrappedKey?
  split
  next other hpath => simp [hpath, and_comm]
  next hpath => simpa using fun h => absurd h (hpath name)

namespace RunState

open Value

variable {options : RunOptions}

theorem wrapAt_of_not_wrapsAt {field : Field} {l : Location} (h : wrapsAt field l = false)
    (options : RunOptions) (s : RunState) : s.wrapAt options field l = s := by
  rw [wrapAt, if_neg (by simp [h])]

theorem wrapAt_plain (s : RunState) (field : Field) (l : Location) :
    s.wrapAt options.plain field l = s :=
  wrapAt_of_not_formEncoded rfl s field l

theorem absent_plain (s : RunState) (field : Field) (l : Location) :
    s.absent options.plain field l = s.absent options field l := rfl

theorem validateAt_plain (s : RunState) (field : Field) (l : Location) :
    s.validateAt options.plain field l = s.validateAt options field l := rfl

/-- A visit does not depend on the encoding but for what is wrapped. -/
theorem visit_plain_of_elements {items : List Field} {l : Location}
    (helements : ∀ s, visitElements options items s l = visitElements options.plain items s l)
    (field : Field) (s : RunState) (how : Found) (hwraps : wrapsAt field l = false) :
    visit options items field s (l, how) = visit options.plain items field s (l, how) := by
  cases hrunning : s.abandoned with
  | true => rw [visit_abandoned _ _ _ _ hrunning, visit_abandoned _ _ _ _ hrunning]
  | false =>
    by_cases hhow : how = .found
    · subst hhow
      rw [visit_found _ _ _ _ hrunning, visit_found _ _ _ _ hrunning,
        wrapAt_of_not_wrapsAt hwraps, wrapAt_of_not_wrapsAt hwraps, helements, absent_plain,
        validateAt_plain]
    · rw [visit_of_ne_found _ _ _ _ hrunning hhow, visit_of_ne_found _ _ _ _ hrunning hhow,
        absent_plain]

theorem wrapsAt_of_length {l : Location} (h : 1 < l.length) (field : Field) :
    wrapsAt field l = false := by
  have hlength : (l.length == 1) = false := beq_eq_false_iff_ne.mpr (by omega)
  rw [wrapsAt, hlength, Bool.and_false]

theorem visitElements_plain (items : List Field) (s : RunState) {l : Location} (hl : l ≠ []) :
    visitElements options items s l = visitElements options.plain items s l := by
  induction items generalizing s l with
  | nil => rfl
  | cons item rest ih =>
    rw [visitElements_cons, visitElements_cons]
    split
    next hsequence =>
      obtain ⟨v, hv, -⟩ := (Option.any_eq_true _ _).mp hsequence
      apply List.foldl_ext
      rintro s ⟨m, how⟩ hplace
      rw [places_elements_eq hv] at hplace
      obtain ⟨i, hm⟩ := exists_index_of_mem_places hplace
      dsimp only at hm
      subst hm
      have hlength : 1 < (l ++ [Segment.index i]).length := by
        rw [List.length_append, List.length_singleton]
        exact Nat.lt_add_of_pos_left (List.length_pos_iff.mpr hl)
      exact visit_plain_of_elements (fun s => ih s (List.append_ne_nil_of_left_ne_nil hl _)) item s
        how (wrapsAt_of_length hlength item)
    next => rfl

/-- Where nothing is wrapped at a location below the root, nothing is wrapped further below. -/
theorem visit_plain (items : List Field) {field : Field} (s : RunState) {l : Location}
    (how : Found) (hl : l ≠ []) (hwraps : wrapsAt field l = false) :
    visit options items field s (l, how) = visit options.plain items field s (l, how) :=
  visit_plain_of_elements (fun s => visitElements_plain items s hl) field s how hwraps

/-- The state in which a chain takes its turn over data that is not form-encoded: the lone value of
its key is wrapped before. -/
def prepare (s : RunState) (chain : FieldChain) : RunState :=
  { s with data := s.data.wrapKeys chain.wrappedKey?.toList }

/-- Wrapping the value of a key that is there and not null. -/
theorem wrapAt_key (hform : options.formEncoded = true) {field : Field} {name : String}
    (hwraps : wrapsAt field [.key name] = true) {s : RunState} {v : Value}
    (hv : s.data.child? (.key name) = some v) (hnull : v.isNull = false) :
    s.wrapAt options field [.key name] = { s with data := s.data.wrapKey name } := by
  have hlone : v.wrapLone = wrapped v := by rw [wrapLone, if_neg (by simp [hnull])]
  rw [wrapAt, if_pos (by simp [hform, hwraps]), wrapKey, hv, Option.map_some, hlone, update?_cons,
    hv]
  rfl

/-- The only place of a key of the root. -/
theorem places_key (name : String) (data : Value) :
    places (Matches.ofPath [.key name] data) =
      [([.key name], (Source.entry data (.key name)).found)] := rfl

/-- The visit of a key whose lone value is wrapped. -/
theorem visit_of_wraps (hform : options.formEncoded = true) (items : List Field) {field : Field}
    {name : String} (hwraps : wrapsAt field [.key name] = true) {s : RunState}
    (hrunning : s.abandoned = false) {how : Found}
    (hhow : how = .found ↔ ∃ v, s.data.child? (.key name) = some v) :
    visit options items field s ([.key name], how) =
      visit options.plain items field { s with data := s.data.wrapKey name }
        ([.key name], how) := by
  have hget : ∀ data : Value, data.get? [.key name] = data.child? (.key name) :=
    fun data => Option.bind_fun_some (data.child? (.key name))
  cases hv : s.data.child? (.key name) with
  | none =>
    have hmissing : how ≠ .found := fun h => by simp [hv] at hhow; exact hhow h
    rw [wrapKey_eq_self (by simp [hv]), visit_of_ne_found _ _ _ _ hrunning hmissing,
      visit_of_ne_found _ _ _ _ hrunning hmissing, absent_plain]
  | some v =>
    obtain rfl : how = .found := hhow.mpr ⟨v, hv⟩
    have hs : s.isNullAt [.key name] = v.isNull := isNullAt_of_get? ((hget s.data).trans hv)
    cases hnull : v.isNull with
    | true =>
      have hkeep : s.data.wrapKey name = s.data := by
        apply wrapKey_eq_self
        rw [isNull_eq_true_iff.mp hnull] at hv
        simp [hv, outline]
      rw [hkeep, visit_found _ _ _ _ hrunning, visit_found _ _ _ _ hrunning, hs, hnull, if_pos rfl,
        if_pos rfl, absent_plain]
    | false =>
      let t : RunState := { s with data := s.data.wrapKey name }
      have hlone : v.wrapLone.isNull = false := by
        cases v <;> first | rfl | contradiction
      have ht : t.isNullAt [.key name] = false := by
        rw [← hlone]
        apply isNullAt_of_get?
        rw [hget, child?_wrapKey_self, hv, Option.map_some]
      have hrunning' : t.abandoned = false := hrunning
      change _ = visit options.plain items field t _
      rw [visit_found _ _ _ _ hrunning, visit_found _ _ _ _ hrunning', hs, hnull, ht,
        wrapAt_key hform hwraps hv hnull, wrapAt_plain, visitElements_plain items _ (by simp),
        validateAt_plain]
      rfl

/-- The turn of a chain that wraps a key. -/
theorem runChain_of_wraps (hform : options.formEncoded = true) {chain : FieldChain} {name : String}
    (hpath : chain.path = [.key name]) (harray : chain.head.info.array = true) {s : RunState}
    (hrunning : s.abandoned = false) :
    runChain options s chain =
      runChain options.plain { s with data := s.data.wrapKey name } chain := by
  have hwraps : wrapsAt chain.head [.key name] = true := by
    have hhead : chain.head.path = [.key name] := hpath
    rw [wrapsAt, harray, hhead]
    rfl
  have hfound : (Source.entry (s.data.wrapKey name) (.key name)).found =
      (Source.entry s.data (.key name)).found := by
    apply Source.found_entry_congr (outline_wrapKey s.data name)
    rw [child?_wrapKey_self, Option.isSome_map]
  rw [runChain, runChain, hpath, places_key, places_key, hfound, List.foldl_cons, List.foldl_nil,
    List.foldl_cons, List.foldl_nil]
  exact visit_of_wraps hform chain.items hwraps hrunning (Source.found_eq_found_iff _)

/-- The turn of a chain that wraps nothing. -/
theorem runChain_of_not_wraps {chain : FieldChain} (hpath : chain.path ≠ [])
    (hwraps : ∀ l, Location.HasShape l chain.path → wrapsAt chain.head l = false)
    (s : RunState) : runChain options s chain = runChain options.plain s chain := by
  apply List.foldl_ext
  intro s place hplace
  obtain ⟨l, how⟩ := place
  have hshape := hasShape_places chain.path _ _ hplace
  refine visit_plain chain.items s how ?_ (hwraps l hshape)
  rintro rfl
  exact hpath (List.forall₂_nil_right_iff.mp hshape)

/-- The turn of a chain over form-encoded data is one over data of which the lone value of its key
is wrapped before. -/
theorem runChain_plain (hform : options.formEncoded = true) {chain : FieldChain} {name : String}
    {rest : Path} (hpath : chain.path = .key name :: rest) {s : RunState}
    (hrunning : s.abandoned = false) :
    runChain options s chain = runChain options.plain (s.prepare chain) chain := by
  unfold prepare
  cases hkey : chain.wrappedKey? with
  | some other =>
    obtain ⟨hother, harray⟩ := FieldChain.wrappedKey?_eq_some_iff.mp hkey
    exact runChain_of_wraps hform hother harray hrunning
  | none =>
    apply runChain_of_not_wraps (by simp [hpath])
    intro l _
    have hhead : chain.head.path = .key name :: rest := hpath
    have hnot : ¬ (chain.path = [.key name] ∧ chain.head.info.array = true) := by
      intro h
      rw [FieldChain.wrappedKey?_eq_some_iff.mpr h] at hkey
      contradiction
    cases rest with
    | nil =>
      have harray : chain.head.info.array = false := by simpa [hpath] using hnot
      rw [wrapsAt, harray]
      rfl
    | cons a rest =>
      have hdepth : (chain.head.path.depth == 1) = false := by
        rw [hhead]
        simp [Path.depth]
      rw [wrapsAt, hdepth, Bool.and_false]
      rfl

end RunState

end PathRules

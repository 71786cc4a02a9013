import PathRules.Proofs.Execution
/-!
Assignments. Whatever a visit does to the data, it leaves the location that it is about another
value or takes its key out of the map. Main statements: assignments at one location are one, those
at locations that are apart commute, and one below a location is one at it; removing a null and
passing the validators of a field are assignments.
-/

namespace PathRules

namespace Keyed

variable {κ α : Type} [DecidableEq κ]

theorem erase_of_get?_eq_none {entries : List (κ × α)} {key : κ} (h : get? entries key = none) :
    erase entries key = entries := by
  induction entries with
  | nil => rfl
  | cons e rest ih =>
    obtain ⟨k, v⟩ := e
    by_cases hk : k = key
    · simp [get?, hk] at h
    · rw [get?, if_neg hk] at h
      rw [erase, if_neg hk, ih h]

theorem erase_put_comm (entries : List (κ × α)) {key other : κ} (hne : key ≠ other) (value : α) :
    erase (put entries other value) key = put (erase entries key) other value := by
  induction entries with
  | nil => simp [put, erase, hne.symm]
  | cons e rest ih =>
    obtain ⟨k, v⟩ := e
    by_cases hkey : k = key
    · subst hkey
      simp [put, erase, hne]
    · by_cases hother : k = other
      · subst hother
        simp [put, erase, hkey]
      · simp [put, erase, hkey, hother, ih]

theorem erase_erase_comm (entries : List (κ × α)) (key other : κ) :
    erase (erase entries key) other = erase (erase entries other) key := by
  induction entries with
  | nil => rfl
  | cons e rest ih =>
    obtain ⟨k, v⟩ := e
    by_cases hkey : k = key
    · subst hkey
      by_cases hother : k = other
      · rw [hother]
      · simp [erase, hother]
    · by_cases hother : k = other
      · subst hother
        simp [erase, hkey]
      · simp [erase, hkey, hother, ih]

/-- Keys that are there can be given values in any order. -/
theorem put_put_comm {entries : List (κ × α)} {key other : κ} (hne : key ≠ other) {old : α}
    (h : get? entries key = some old) (first second : α) :
    put (put entries key first) other second = put (put entries other second) key first := by
  induction entries with
  | nil => simp at h
  | cons e rest ih =>
    obtain ⟨k, v⟩ := e
    by_cases hkey : k = key
    · subst hkey
      simp [put, hne]
    · rw [get?, if_neg hkey] at h
      by_cases hother : k = other
      · subst hother
        simp [put, hkey]
      · simp [put, hkey, hother, ih h]

end Keyed

namespace Location

theorem apart_cons_iff {s : Segment} {l m : Location} :
    Apart (s :: l) (s :: m) ↔ Apart l m := by
  simp only [Apart, List.prefix_cons_inj]

theorem Apart.ne_nil {l m : Location} (h : Apart l m) : l ≠ [] := by
  rintro rfl
  exact h.1 List.nil_prefix

end Location

namespace Value

open Location

/-- Leaves the child at a segment another value, or takes the key out. Elements stay. -/
def assignChild (v : Value) (s : Segment) : Option Value → Value
  | some c => v.putChild s c
  | none =>
    match v, s with
    | map entries, .key name => map (Keyed.erase entries name)
    | v, _ => v

/-- Leaves the location of a value another value, or takes its key out. Where there is no value,
nothing changes. -/
def assign (x : Option Value) : Location → Option Value → Option Value
  | [], o => o.bind fun _ => x
  | s :: rest, o => o.map fun v => v.assignChild s (assign x rest (v.child? s))

theorem assignChild_child? (v : Value) (s : Segment) : v.assignChild s (v.child? s) = v := by
  cases hchild : v.child? s with
  | some c => exact putChild_child? hchild
  | none =>
    cases v <;> cases s <;> simp only [assignChild]
    case map.key entries name => exact congrArg map (Keyed.erase_of_get?_eq_none hchild)

theorem child?_assignChild_self {v c : Value} {s : Segment} (h : v.child? s = some c) (w : Value) :
    (v.assignChild s (some w)).child? s = some w :=
  child?_putChild_self h w

theorem child?_assignChild_of_ne {v : Value} {s t : Segment} {x : Option Value}
    (h : x.isSome → (v.child? s).isSome) (hne : s ≠ t) :
    (v.assignChild s x).child? t = v.child? t := by
  cases x with
  | some w =>
    obtain ⟨c, hc⟩ := Option.isSome_iff_exists.mp (h rfl)
    exact child?_putChild_of_ne hc hne w
  | none =>
    cases v <;> cases s <;> try rfl
    case map.key entries name =>
      cases t with
      | key other => exact Keyed.get?_erase_of_ne entries fun heq => hne (congrArg _ heq)
      | index j => rfl

/-- Children at two segments can be assigned in any order. -/
theorem assignChild_comm {v : Value} {s t : Segment} {x y : Option Value} (hne : s ≠ t)
    (hx : x.isSome → (v.child? s).isSome) (hy : y.isSome → (v.child? t).isSome) :
    (v.assignChild s x).assignChild t y = (v.assignChild t y).assignChild s x := by
  cases v with
  | map entries =>
    cases s with
    | index i => cases x <;> cases t <;> cases y <;> rfl
    | key name =>
      cases t with
      | index i => cases x <;> cases y <;> rfl
      | key other =>
        have hnames : name ≠ other := fun heq => hne (congrArg _ heq)
        cases x with
        | none =>
          cases y with
          | none => exact congrArg map (Keyed.erase_erase_comm entries name other)
          | some d => exact congrArg map (Keyed.erase_put_comm entries hnames d).symm
        | some c =>
          cases y with
          | none => exact congrArg map (Keyed.erase_put_comm entries hnames.symm c)
          | some d =>
            obtain ⟨old, hold⟩ := Option.isSome_iff_exists.mp (hx rfl)
            exact congrArg map (Keyed.put_put_comm hnames hold c d)
  | sequence items =>
    cases s with
    | key name => cases x <;> cases t <;> cases y <;> rfl
    | index i =>
      cases t with
      | key other => cases x <;> cases y <;> rfl
      | index j =>
        cases x with
        | none => cases y <;> rfl
        | some c =>
          cases y with
          | none => rfl
          | some d =>
            obtain ⟨c', hc⟩ := Option.isSome_iff_exists.mp (hx rfl)
            obtain ⟨d', hd⟩ := Option.isSome_iff_exists.mp (hy rfl)
            obtain ⟨n, rfl, -⟩ := child?_sequence.mp hc
            obtain ⟨m, rfl, -⟩ := child?_sequence.mp hd
            have hplaces : n ≠ m := by
              rintro rfl
              exact hne rfl
            exact congrArg sequence (List.set_comm c d hplaces)
  | _ => cases x <;> cases y <;> rfl

@[simp] theorem assign_nil (x o : Option Value) : assign x [] o = o.bind fun _ => x := rfl

@[simp] theorem assign_none (x : Option Value) (l : Location) : assign x l none = none := by
  cases l <;> rfl

theorem assign_cons (x : Option Value) (s : Segment) (rest : Location) (v : Value) :
    assign x (s :: rest) (some v) = some (v.assignChild s (assign x rest (v.child? s))) := rfl

theorem isSome_of_isSome_assign {x o : Option Value} {l : Location}
    (h : (assign x l o).isSome) : o.isSome := by
  cases o with
  | none => simp at h
  | some v => rfl

theorem eq_none_of_assign_eq_none {x o : Option Value} {l : Location}
    (hl : x.isSome ∨ l ≠ []) (h : assign x l o = none) : o = none := by
  cases l with
  | nil =>
    obtain ⟨w, rfl⟩ := Option.isSome_iff_exists.mp (by simpa using hl)
    cases o with
    | none => rfl
    | some v => contradiction
  | cons s rest => exact Option.map_eq_none_iff.mp h

theorem exists_assign (w : Value) (l : Location) (v : Value) :
    ∃ new, assign (some w) l (some v) = some new :=
  Option.ne_none_iff_exists'.mp fun hnone =>
    Option.some_ne_none v (eq_none_of_assign_eq_none (Or.inl rfl) hnone)

/-- A child is what an assignment below it made of it. -/
theorem child?_assignChild_assign (v : Value) (s : Segment) {x : Option Value} {rest : Location}
    (hrest : x.isSome ∨ rest ≠ []) :
    (v.assignChild s (assign x rest (v.child? s))).child? s = assign x rest (v.child? s) := by
  cases hnew : assign x rest (v.child? s) with
  | none =>
    have hchild := eq_none_of_assign_eq_none hrest hnew
    rw [← hchild, assignChild_child?]
  | some new =>
    have hsome : (assign x rest (v.child? s)).isSome := by
      rw [hnew]
      rfl
    obtain ⟨c, hc⟩ := Option.isSome_iff_exists.mp (isSome_of_isSome_assign hsome)
    exact child?_assignChild_self hc new

theorem assignChild_assignChild {v : Value} {s : Segment} {x y : Option Value}
    (hx : x = none → v.child? s = none) (hy : y = none → x = none) :
    (v.assignChild s x).assignChild s y = v.assignChild s y := by
  cases x with
  | none =>
    have hsame : v.assignChild s none = v := by
      rw [← hx rfl, assignChild_child?]
    rw [hsame]
  | some c =>
    cases y with
    | none => exact absurd (hy rfl) (Option.some_ne_none c)
    | some d => exact putChild_putChild v s c d

/-- What a location has already, it can be assigned. -/
theorem assign_get? (v : Value) (l : Location) : assign (v.get? l) l (some v) = some v := by
  induction l generalizing v with
  | nil => rfl
  | cons s rest ih =>
    rw [assign_cons, Value.get?]
    cases hchild : v.child? s with
    | none => rw [assign_none, ← hchild, assignChild_child?]
    | some c => rw [Option.bind_some, ih c, ← hchild, assignChild_child?]

theorem get?_assign_self (w : Value) (l : Location) (o : Option Value) :
    (assign (some w) l o).bind (fun v => v.get? l) =
      (o.bind fun v => v.get? l).map fun _ => w := by
  induction l generalizing o with
  | nil => cases o <;> rfl
  | cons s rest ih =>
    cases o with
    | none => rfl
    | some v =>
      rw [assign_cons, Option.bind_some, Option.bind_some, Value.get?, Value.get?,
        child?_assignChild_assign v s (Or.inl rfl), ih]

/-- An assignment leaves the locations that are apart. -/
theorem get?_assign_of_apart (x : Option Value) {l m : Location} (h : Apart l m)
    (o : Option Value) :
    (assign x l o).bind (fun v => v.get? m) = o.bind fun v => v.get? m := by
  induction l generalizing m o with
  | nil => exact absurd List.nil_prefix h.1
  | cons s rest ih =>
    cases m with
    | nil => exact absurd List.nil_prefix h.2
    | cons t others =>
      cases o with
      | none => rfl
      | some v =>
        rw [assign_cons, Option.bind_some, Option.bind_some, Value.get?, Value.get?]
        by_cases hst : s = t
        · subst hst
          have hbelow := apart_cons_iff.mp h
          rw [child?_assignChild_assign v s (Or.inr hbelow.ne_nil), ih hbelow]
        · rw [child?_assignChild_of_ne isSome_of_isSome_assign hst]

/-- An assignment below a location is one at it. -/
theorem assign_append (x : Option Value) (l m : Location) (o : Option Value) :
    assign x (l ++ m) o = assign (assign x m (o.bind fun v => v.get? l)) l o := by
  induction l generalizing o with
  | nil => cases o <;> simp
  | cons s rest ih =>
    cases o with
    | none => simp
    | some v => rw [List.cons_append, assign_cons, assign_cons, ih, Option.bind_some, Value.get?]

/-- Of two values that a location is left one after the other, the second counts. -/
theorem assign_assign (w w' : Value) (l : Location) (o : Option Value) :
    assign (some w') l (assign (some w) l o) = assign (some w') l o := by
  induction l generalizing o with
  | nil => cases o <;> rfl
  | cons s rest ih =>
    cases o with
    | none => rfl
    | some v =>
      rw [assign_cons, assign_cons, assign_cons, child?_assignChild_assign v s (Or.inl rfl), ih,
        assignChild_assignChild (eq_none_of_assign_eq_none (Or.inl rfl))]
      intro hnone
      rw [eq_none_of_assign_eq_none (Or.inl rfl) hnone, assign_none]

/-- Assignments at locations that are apart can be made in any order. -/
theorem assign_comm (x y : Option Value) {l m : Location} (h : Apart l m) (o : Option Value) :
    assign y m (assign x l o) = assign x l (assign y m o) := by
  induction l generalizing m o with
  | nil => exact absurd List.nil_prefix h.1
  | cons s rest ih =>
    cases m with
    | nil => exact absurd List.nil_prefix h.2
    | cons t others =>
      cases o with
      | none => rfl
      | some v =>
        rw [assign_cons, assign_cons, assign_cons, assign_cons]
        by_cases hst : s = t
        · subst hst
          have hbelow := apart_cons_iff.mp h
          have hfirst := hbelow.ne_nil
          have hsecond := hbelow.symm.ne_nil
          rw [child?_assignChild_assign v s (Or.inr hfirst),
            child?_assignChild_assign v s (Or.inr hsecond), ih hbelow,
            assignChild_assignChild (eq_none_of_assign_eq_none (Or.inr hfirst)),
            assignChild_assignChild (eq_none_of_assign_eq_none (Or.inr hsecond))]
          · exact fun hnone => eq_none_of_assign_eq_none (Or.inr hfirst) hnone
          · rw [← ih hbelow]
            exact fun hnone => eq_none_of_assign_eq_none (Or.inr hsecond) hnone
        · rw [child?_assignChild_of_ne isSome_of_isSome_assign hst,
            child?_assignChild_of_ne isSome_of_isSome_assign (Ne.symm hst),
            assignChild_comm hst isSome_of_isSome_assign isSome_of_isSome_assign]

/-- An update is an assignment. -/
theorem assign_of_update? {v w : Value} {f : Value → Option Value} {l : Location}
    (h : v.update? f l = some w) :
    ∃ c, v.get? l = some c ∧ assign (f c) l (some v) = some w := by
  induction l generalizing v w with
  | nil => exact ⟨v, rfl, h⟩
  | cons s rest ih =>
    obtain ⟨child, new, hchild, hnew, rfl⟩ := update?_cons_eq_some_iff.mp h
    obtain ⟨c, hc, hassign⟩ := ih hnew
    refine ⟨c, ?_, ?_⟩
    · rw [Value.get?, hchild]
      exact hc
    · rw [assign_cons, hchild, hassign]
      rfl

/-- Setting what was taken out is an assignment. -/
theorem set?_take?_eq {v c w : Value} {l : Location} (h : v.take? l = some (c, w)) (new : Value) :
    w.set? l new = assign (some new) l (some v) := by
  obtain ⟨hget, -⟩ := take?_eq_some_iff.mp h
  obtain ⟨result, hresult⟩ := exists_update? (f := fun _ => some new) hget rfl
  obtain ⟨-, -, hassign⟩ := assign_of_update? hresult
  rw [set?_eq_update?_of_take? h, hresult, hassign]

/-- Removing a key is an assignment. -/
theorem remove?_eq_of_get? {v c : Value} {parent : Location} {name : String}
    {entries : List (String × Value)} (hparent : v.get? parent = some (map entries))
    (hc : Keyed.get? entries name = some c) :
    ∃ w, v.remove? (parent ++ [.key name]) = some (c, w) ∧
      assign none (parent ++ [.key name]) (some v) = some w := by
  obtain ⟨w, hw⟩ := exists_update? (f := fun _ => some (map (Keyed.erase entries name))) hparent rfl
  obtain ⟨node, hnode, hassign⟩ := assign_of_update? hw
  have hget : v.get? (parent ++ [.key name]) = some c := by
    rw [get?_append, hparent]
    simp [Value.get?, child?, hc]
  refine ⟨w, ?_, ?_⟩
  · rw [remove?, List.getLast?_concat, List.dropLast_concat, hget]
    refine Option.bind_eq_some_iff.mpr ⟨_, rfl, Option.bind_eq_some_iff.mpr ⟨c, rfl, ?_⟩⟩
    rw [← update?_congr (f := fun p => match p, Segment.key name with
      | map entries, .key name => some (map (Keyed.erase entries name))
      | _, _ => none) hparent rfl] at hw
    exact Option.bind_eq_some_iff.mpr ⟨w, hw, rfl⟩
  · rw [assign_append, Option.bind_some, hparent, assign_cons, child?, hc, ← hassign]
    rfl

end Value

namespace RunState

open Value

/-- What is left at a location when its null counts as absent: keys go, elements stay. -/
def absence (l : Location) : Option Value :=
  match l.getLast? with
  | some (.key _) => none
  | _ => some .null

/-- Removing a null is an assignment. -/
theorem removeNull_assign {s : RunState} {l : Location} (h : s.data.get? l = some .null) :
    some (s.removeNull l).data = assign (absence l) l (some s.data) := by
  have hstays : assign (some .null) l (some s.data) = some s.data := by
    rw [← h, assign_get?]
  rcases List.eq_nil_or_concat l with rfl | ⟨parent, segment, rfl⟩
  · have hroot : s.data.get? (Location.parent []) = some .null := h
    unfold removeNull
    rw [hroot]
    exact hstays.symm
  · rw [List.concat_eq_append] at h hstays ⊢
    rw [get?_append, Option.bind_eq_some_iff] at h
    obtain ⟨node, hnode, hchild⟩ := h
    have hparent : s.data.get? (Location.parent (parent ++ [segment])) = some node := by
      rw [Location.parent, List.dropLast_concat, hnode]
    rw [get?_singleton] at hchild
    unfold removeNull
    rw [hparent]
    rcases child?_eq_some_iff.mp hchild with
      ⟨entries, name, rfl, rfl, hc⟩ | ⟨items, n, rfl, rfl, hn⟩
    · obtain ⟨w, hremove, hassign⟩ := remove?_eq_of_get? hnode hc
      simp only [hremove, absence, List.getLast?_concat, hassign]
    · simp only [absence, List.getLast?_concat, hstays]

/-- The passage of a value through a field leaves its location the value that comes out. -/
theorem validateAt_assign {s : RunState} {l : Location} {v : Value} (hv : s.data.get? l = some v)
    (options : RunOptions) (field : Field) :
    ∃ (data : Value) (p : Passage),
      p = field.validators.foldl (Passage.ask options field l) ⟨{ s with data }, v, false⟩ ∧
      s.validateAt options field l =
        { p.state with data := (s.validateAt options field l).data } ∧
      some (s.validateAt options field l).data = assign (some p.value) l (some s.data) := by
  obtain ⟨data, htake⟩ := exists_take? hv
  refine ⟨data, _, rfl, by rw [validateAt_eq htake], ?_⟩
  obtain ⟨new, hnew⟩ := exists_assign (field.validators.foldl (Passage.ask options field l)
    ⟨{ s with data }, v, false⟩).value l s.data
  rw [validateAt_eq htake]
  dsimp only
  rw [set?_take?_eq htake, hnew, Option.getD_some]

end RunState
end PathRules

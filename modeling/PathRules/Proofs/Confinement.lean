import PathRules.Proofs.Assignment
import PathRules.Proofs.Coverage
/-!
What a run can write. A relation says that a tree differs from another one only below locations that
are free, and by nulls that are gone from maps; it holds across an assignment, and across two runs
in a row unless the second takes out what the first was free to write. Main statement: the data
after a run differs from the data before only below values that a field may convert, and by the
nulls of fields that do not allow them, all of which are gone.
-/

namespace PathRules

namespace Value

mutual

/-- Whether the second of two values at a location is the first one but for other values at free
locations that were not null, and for nulls that are gone from maps. -/
def Confined (free gone : Location → Prop) (l : Location) (v w : Value) : Prop :=
  (free l ∧ v.isNull = false) ∨
    match v with
    | .sequence items => ∃ others, w = .sequence others ∧ ConfinedItems free gone l 0 items others
    | .map entries => ∃ others, w = .map others ∧ ConfinedEntries free gone l entries others
    | v => w = v

/-- Whether there are as many items as before, each confined. -/
def ConfinedItems (free gone : Location → Prop) (l : Location) :
    Nat → List Value → List Value → Prop
  | _, [], others => others = []
  | i, v :: items, others =>
    ∃ w rest, others = w :: rest ∧ Confined free gone (l ++ [Segment.index i]) v w ∧
      ConfinedItems free gone l (i + 1) items rest

/-- Whether the entries are those from before in order, each confined, but for nulls. -/
def ConfinedEntries (free gone : Location → Prop) (l : Location) :
    List (String × Value) → List (String × Value) → Prop
  | [], others => others = []
  | (name, v) :: entries, others =>
    (∃ w rest, others = (name, w) :: rest ∧ Confined free gone (l ++ [Segment.key name]) v w ∧
      ConfinedEntries free gone l entries rest) ∨
    (v = .null ∧ gone (l ++ [Segment.key name]) ∧ ConfinedEntries free gone l entries others)

end

variable {free gone : Location → Prop} {l : Location}

theorem confined_iff_of_leaf {v w : Value} (hsequence : v.isSequence = false)
    (hmap : v.isMap = false) :
    Confined free gone l v w ↔ (free l ∧ v.isNull = false) ∨ w = v := by
  rw [Confined.eq_def]
  cases v <;> first | rfl | contradiction

theorem confined_sequence {items : List Value} {w : Value} :
    Confined free gone l (sequence items) w ↔
      free l ∨ ∃ others, w = sequence others ∧ ConfinedItems free gone l 0 items others := by
  simp [Confined, isNull]

theorem confined_map {entries : List (String × Value)} {w : Value} :
    Confined free gone l (map entries) w ↔
      free l ∨ ∃ others, w = map others ∧ ConfinedEntries free gone l entries others := by
  simp [Confined, isNull]

theorem confinedItems_refl {items : List Value}
    (h : ∀ v ∈ items, ∀ l, Confined free gone l v v) (l : Location) (i : Nat) :
    ConfinedItems free gone l i items items := by
  induction items generalizing i with
  | nil => rw [ConfinedItems]
  | cons v items ih =>
    rw [ConfinedItems]
    exact ⟨v, items, rfl, h v List.mem_cons_self _,
      ih (fun w hw => h w (List.mem_cons_of_mem v hw)) (i + 1)⟩

theorem confinedEntries_refl {entries : List (String × Value)}
    (h : ∀ e ∈ entries, ∀ l, Confined free gone l e.2 e.2) (l : Location) :
    ConfinedEntries free gone l entries entries := by
  induction entries with
  | nil => rw [ConfinedEntries]
  | cons e entries ih =>
    obtain ⟨name, v⟩ := e
    rw [ConfinedEntries]
    exact Or.inl ⟨v, entries, rfl, h (name, v) List.mem_cons_self _,
      ih fun w hw => h w (List.mem_cons_of_mem _ hw)⟩

theorem confined_refl (v : Value) (l : Location) : Confined free gone l v v := by
  induction v using tree_induction generalizing l with
  | leaf v hsequence hmap => exact (confined_iff_of_leaf hsequence hmap).mpr (Or.inr rfl)
  | sequence items ih =>
    exact confined_sequence.mpr (Or.inr ⟨items, rfl, confinedItems_refl ih l 0⟩)
  | map entries ih => exact confined_map.mpr (Or.inr ⟨entries, rfl, confinedEntries_refl ih l⟩)

/-- A value at a free location that was not null may be any other one. -/
theorem confined_of_free {v : Value} (hfree : free l) (hnull : v.isNull = false) (w : Value) :
    Confined free gone l v w := by
  rw [Confined.eq_def]
  exact Or.inl ⟨hfree, hnull⟩

theorem confined_null {w : Value} : Confined free gone l null w ↔ w = null := by
  simp [Confined, isNull]

/-- Null is only left for what was null or could be anything. -/
theorem Confined.eq_null {v : Value} (h : Confined free gone l v null) (hfree : ¬ free l) :
    v = null := by
  rw [Confined.eq_def] at h
  rcases h with ⟨h, -⟩ | h
  · exact absurd h hfree
  · cases v <;> simp at h ⊢

section Trans

variable {free' gone' : Location → Prop}

theorem ConfinedItems.imp {items others : List Value}
    (h : ∀ v ∈ items, ∀ l w, Confined free gone l v w → Confined free' gone' l v w) {i : Nat}
    (hitems : ConfinedItems free gone l i items others) :
    ConfinedItems free' gone' l i items others := by
  induction items generalizing i others with
  | nil => exact hitems
  | cons v items ih =>
    obtain ⟨w, rest, rfl, hw, hrest⟩ := hitems
    exact ⟨w, rest, rfl, h v List.mem_cons_self _ _ hw,
      ih (fun u hu => h u (List.mem_cons_of_mem v hu)) hrest⟩

theorem ConfinedEntries.imp {entries others : List (String × Value)}
    (h : ∀ e ∈ entries, ∀ l w, Confined free gone l e.2 w → Confined free' gone' l e.2 w)
    (hgone : ∀ m, gone m → gone' m) (hentries : ConfinedEntries free gone l entries others) :
    ConfinedEntries free' gone' l entries others := by
  induction entries generalizing others with
  | nil => exact hentries
  | cons e entries ih =>
    have hmore : ∀ {others}, ConfinedEntries free gone l entries others →
        ConfinedEntries free' gone' l entries others :=
      ih fun u hu => h u (List.mem_cons_of_mem e hu)
    obtain ⟨name, v⟩ := e
    rcases hentries with ⟨w, rest, rfl, hw, hrest⟩ | ⟨hv, hm, hrest⟩
    · exact Or.inl ⟨w, rest, rfl, h (name, v) List.mem_cons_self _ _ hw, hmore hrest⟩
    · exact Or.inr ⟨hv, hgone _ hm, hmore hrest⟩

/-- What is confined to some locations is confined to more. -/
theorem Confined.imp {v w : Value} (h : Confined free gone l v w) (hfree : ∀ m, free m → free' m)
    (hgone : ∀ m, gone m → gone' m) : Confined free' gone' l v w := by
  induction v using tree_induction generalizing l w with
  | leaf v hsequence hmap =>
    rw [confined_iff_of_leaf hsequence hmap] at h ⊢
    exact h.imp_left fun h => ⟨hfree l h.1, h.2⟩
  | sequence items ih =>
    rw [confined_sequence] at h ⊢
    rcases h with h | ⟨others, hw, hitems⟩
    · exact Or.inl (hfree l h)
    · exact Or.inr ⟨others, hw, hitems.imp fun v hv l w h => ih v hv h⟩
  | map entries ih =>
    rw [confined_map] at h ⊢
    rcases h with h | ⟨others, hw, hentries⟩
    · exact Or.inl (hfree l h)
    · exact Or.inr ⟨others, hw, hentries.imp (fun e he l w h => ih e he h) hgone⟩

/-- Whether two changes in a row are one that may do what either may. -/
def Composes (free gone free' gone' : Location → Prop) (u : Value) : Prop :=
  ∀ l v w, Confined free gone l u v → Confined free' gone' l v w →
    Confined (fun m => free m ∨ free' m) (fun m => gone m ∨ gone' m) l u w

theorem ConfinedItems.trans {items others more : List Value}
    (h : ∀ u ∈ items, Composes free gone free' gone' u) {i : Nat}
    (hfirst : ConfinedItems free gone l i items others)
    (hsecond : ConfinedItems free' gone' l i others more) :
    ConfinedItems (fun m => free m ∨ free' m) (fun m => gone m ∨ gone' m) l i items more := by
  induction items generalizing i others more with
  | nil =>
    have hothers : others = [] := hfirst
    rw [hothers] at hsecond
    exact hsecond
  | cons u items ih =>
    obtain ⟨v, others, rfl, hv, hothers⟩ := hfirst
    obtain ⟨w, more, rfl, hw, hmore⟩ := hsecond
    exact ⟨w, more, rfl, h u List.mem_cons_self _ _ _ hv hw,
      ih (fun u hu => h u (List.mem_cons_of_mem _ hu)) hothers hmore⟩

theorem ConfinedEntries.trans {entries others more : List (String × Value)}
    (h : ∀ e ∈ entries, Composes free gone free' gone' e.2) (hgone : ∀ m, gone' m → ¬ free m)
    (hfirst : ConfinedEntries free gone l entries others)
    (hsecond : ConfinedEntries free' gone' l others more) :
    ConfinedEntries (fun m => free m ∨ free' m) (fun m => gone m ∨ gone' m) l entries more := by
  induction entries generalizing others more with
  | nil =>
    have hothers : others = [] := hfirst
    rw [hothers] at hsecond
    exact hsecond
  | cons e entries ih =>
    have hrest : ∀ {others more}, ConfinedEntries free gone l entries others →
        ConfinedEntries free' gone' l others more →
          ConfinedEntries (fun m => free m ∨ free' m) (fun m => gone m ∨ gone' m) l entries more :=
      ih fun u hu => h u (List.mem_cons_of_mem e hu)
    obtain ⟨name, u⟩ := e
    rcases hfirst with ⟨v, others, rfl, hv, hothers⟩ | ⟨hu, hm, hothers⟩
    · rcases hsecond with ⟨w, more, rfl, hw, hmore⟩ | ⟨rfl, hm, hmore⟩
      · exact Or.inl ⟨w, more, rfl, h (name, u) List.mem_cons_self _ _ _ hv hw,
          hrest hothers hmore⟩
      · -- What the second change takes out was null before the first one.
        exact Or.inr ⟨hv.eq_null (hgone _ hm), Or.inr hm, hrest hothers hmore⟩
    · exact Or.inr ⟨hu, Or.inl hm, hrest hothers hsecond⟩

/-- Two changes in a row, if the second takes nothing out that the first was free to change. -/
theorem Confined.trans {u v w : Value} (h : Confined free gone l u v)
    (h' : Confined free' gone' l v w) (hgone : ∀ m, gone' m → ¬ free m) :
    Confined (fun m => free m ∨ free' m) (fun m => gone m ∨ gone' m) l u w := by
  induction u using tree_induction generalizing l v w with
  | leaf u hsequence hmap =>
    rcases (confined_iff_of_leaf hsequence hmap).mp h with ⟨hfree, hnull⟩ | rfl
    · exact confined_of_free (Or.inl hfree) hnull w
    · exact h'.imp (fun _ => Or.inr) fun _ => Or.inr
  | sequence items ih =>
    rcases confined_sequence.mp h with hfree | ⟨others, rfl, hothers⟩
    · exact confined_of_free (Or.inl hfree) rfl w
    · rcases confined_sequence.mp h' with hfree | ⟨more, rfl, hmore⟩
      · exact confined_of_free (Or.inr hfree) rfl w
      · exact confined_sequence.mpr (Or.inr ⟨more, rfl,
          hothers.trans (fun u hu l v w h h' => ih u hu h h') hmore⟩)
  | map entries ih =>
    rcases confined_map.mp h with hfree | ⟨others, rfl, hothers⟩
    · exact confined_of_free (Or.inl hfree) rfl w
    · rcases confined_map.mp h' with hfree | ⟨more, rfl, hmore⟩
      · exact confined_of_free (Or.inr hfree) rfl w
      · exact confined_map.mpr (Or.inr ⟨more, rfl,
          hothers.trans (fun e he l v w h h' => ih e he h h') hgone hmore⟩)

end Trans

section Assign

theorem confinedEntries_put {entries : List (String × Value)} {name : String} {v w : Value}
    (hv : Keyed.get? entries name = some v)
    (hw : Confined free gone (l ++ [Segment.key name]) v w) :
    ConfinedEntries free gone l entries (Keyed.put entries name w) := by
  induction entries with
  | nil => contradiction
  | cons e entries ih =>
    obtain ⟨other, u⟩ := e
    have hsame : ConfinedEntries free gone l entries entries :=
      confinedEntries_refl (fun e _ l => confined_refl e.2 l) l
    by_cases hname : other = name
    · subst hname
      rw [Keyed.get?, if_pos rfl] at hv
      cases hv
      rw [Keyed.put, if_pos rfl]
      exact Or.inl ⟨w, entries, rfl, hw, hsame⟩
    · rw [Keyed.get?, if_neg hname] at hv
      rw [Keyed.put, if_neg hname]
      exact Or.inl ⟨u, _, rfl, confined_refl u _, ih hv⟩

theorem confinedEntries_erase {entries : List (String × Value)} {name : String}
    (hnull : Keyed.get? entries name = some .null) (hgone : gone (l ++ [Segment.key name])) :
    ConfinedEntries free gone l entries (Keyed.erase entries name) := by
  induction entries with
  | nil => contradiction
  | cons e entries ih =>
    obtain ⟨other, u⟩ := e
    have hsame : ConfinedEntries free gone l entries entries :=
      confinedEntries_refl (fun e _ l => confined_refl e.2 l) l
    by_cases hname : other = name
    · subst hname
      rw [Keyed.get?, if_pos rfl] at hnull
      cases hnull
      rw [Keyed.erase, if_pos rfl]
      exact Or.inr ⟨rfl, hgone, hsame⟩
    · rw [Keyed.get?, if_neg hname] at hnull
      rw [Keyed.erase, if_neg hname]
      exact Or.inl ⟨u, _, rfl, confined_refl u _, ih hnull⟩

theorem confinedItems_set {items : List Value} {i n : Nat} {v w : Value}
    (hv : items[n]? = some v)
    (hw : Confined free gone (l ++ [Segment.index ((i + n : Nat) : Int)]) v w) :
    ConfinedItems free gone l i items (items.set n w) := by
  induction items generalizing i n with
  | nil => contradiction
  | cons u items ih =>
    cases n with
    | zero =>
      cases hv
      exact ⟨w, items, rfl, hw, confinedItems_refl (fun v _ l => confined_refl v l) l (i + 1)⟩
    | succ n =>
      rw [List.getElem?_cons_succ] at hv
      refine ⟨u, _, rfl, confined_refl u _, ih hv ?_⟩
      rwa [show i + 1 + n = i + (n + 1) by omega]

/-- An assignment is confined to its location. -/
theorem confined_assign {v w c : Value} {x : Option Value} {m : Location}
    (hc : v.get? m = some c) (hw : assign x m (some v) = some w)
    (hnew : ∀ new, x = some new → Confined free gone (l ++ m) c new)
    (hgone : x = none → c = .null ∧ gone (l ++ m)) : Confined free gone l v w := by
  induction m generalizing l v w with
  | nil =>
    cases hc
    rw [assign_nil, Option.bind_some] at hw
    have hconfined := hnew w hw
    rwa [List.append_nil] at hconfined
  | cons s rest ih =>
    obtain ⟨child, hchild, hrest⟩ := Option.bind_eq_some_iff.mp hc
    rw [assign_cons, hchild] at hw
    have hbelow : ∀ new, assign x rest (some child) = some new →
        Confined free gone (l ++ [s]) child new := by
      intro new hassign
      apply ih hrest hassign
      · simpa using hnew
      · simpa using hgone
    cases hw
    rcases child?_eq_some_iff.mp hchild with
      ⟨entries, name, rfl, rfl, hget⟩ | ⟨items, n, rfl, rfl, hn⟩
    · apply confined_map.mpr
      cases hassign : assign x rest (some child) with
      | some new =>
        exact Or.inr ⟨_, rfl, confinedEntries_put hget (hbelow new hassign)⟩
      | none =>
        have hlast : ¬ (x.isSome ∨ rest ≠ []) := fun hl =>
          Option.some_ne_none child (eq_none_of_assign_eq_none hl hassign)
        simp only [not_or, Option.not_isSome_iff_eq_none, not_not] at hlast
        obtain ⟨rfl, rfl⟩ := hlast
        obtain ⟨rfl, hallowed⟩ := hgone rfl
        cases hrest
        exact Or.inr ⟨_, rfl, confinedEntries_erase hget hallowed⟩
    · cases hassign : assign x rest (some child) with
      | some new =>
        refine confined_sequence.mpr (Or.inr ⟨_, rfl, confinedItems_set hn ?_⟩)
        simpa using hbelow new hassign
      | none => exact confined_refl _ _

end Assign

section Reading

theorem ConfinedEntries.keys_sublist {entries others : List (String × Value)}
    (h : ConfinedEntries free gone l entries others) :
    (Keyed.keys others).Sublist (Keyed.keys entries) := by
  induction entries generalizing others with
  | nil =>
    have hothers : others = [] := h
    rw [hothers]
  | cons e entries ih =>
    obtain ⟨name, v⟩ := e
    rcases h with ⟨w, rest, rfl, -, hrest⟩ | ⟨-, -, hrest⟩
    · exact (ih hrest).cons_cons name
    · exact (ih hrest).cons name

theorem ConfinedEntries.get?_eq_none {entries others : List (String × Value)}
    (h : ConfinedEntries free gone l entries others) {name : String}
    (hname : Keyed.get? entries name = none) : Keyed.get? others name = none := by
  rw [Keyed.get?_eq_none_iff] at hname ⊢
  exact fun hmem => hname (h.keys_sublist.subset hmem)

/-- Where no key is repeated, an entry is gone or confined. -/
theorem ConfinedEntries.get? {entries others : List (String × Value)}
    (h : ConfinedEntries free gone l entries others) (hnodup : (Keyed.keys entries).Nodup)
    {name : String} {v : Value} (hv : Keyed.get? entries name = some v) :
    Keyed.get? others name = none ∨
      ∃ w, Keyed.get? others name = some w ∧ Confined free gone (l ++ [Segment.key name]) v w := by
  induction entries generalizing others with
  | nil => contradiction
  | cons e entries ih =>
    obtain ⟨other, u⟩ := e
    obtain ⟨hother, hrest⟩ := List.nodup_cons.mp hnodup
    by_cases hname : other = name
    · subst hname
      rw [Keyed.get?, if_pos rfl] at hv
      cases hv
      rcases h with ⟨w, others, rfl, hw, -⟩ | ⟨-, -, hothers⟩
      · exact Or.inr ⟨w, by rw [Keyed.get?, if_pos rfl], hw⟩
      · exact Or.inl (hothers.get?_eq_none ((Keyed.get?_eq_none_iff _ _).mpr hother))
    · rw [Keyed.get?, if_neg hname] at hv
      rcases h with ⟨w, others, rfl, -, hothers⟩ | ⟨-, -, hothers⟩
      · rw [Keyed.get?, if_neg hname]
        exact ih hothers hrest hv
      · exact ih hothers hrest hv

theorem ConfinedItems.length_eq {items others : List Value} {i : Nat}
    (h : ConfinedItems free gone l i items others) : others.length = items.length := by
  induction items generalizing i others with
  | nil =>
    have hothers : others = [] := h
    rw [hothers]
  | cons v items ih =>
    obtain ⟨w, rest, rfl, -, hrest⟩ := h
    rw [List.length_cons, List.length_cons, ih hrest]

theorem ConfinedItems.getElem? {items others : List Value} {i n : Nat} {v : Value}
    (h : ConfinedItems free gone l i items others) (hv : items[n]? = some v) :
    ∃ w, others[n]? = some w ∧
      Confined free gone (l ++ [Segment.index ((i + n : Nat) : Int)]) v w := by
  induction items generalizing i n others with
  | nil => contradiction
  | cons u items ih =>
    obtain ⟨w, rest, rfl, hw, hrest⟩ := h
    cases n with
    | zero =>
      cases hv
      exact ⟨w, rfl, hw⟩
    | succ n =>
      rw [List.getElem?_cons_succ] at hv ⊢
      rw [show i + (n + 1) = i + 1 + n by omega]
      exact ih hrest hv

/-- Whether the maps on the way to a location hold no key twice. -/
def DistinctTo : Location → Value → Prop
  | [], _ => True
  | s :: rest, v =>
    (∀ entries, v = map entries → (Keyed.keys entries).Nodup) ∧
      ∀ c, v.child? s = some c → DistinctTo rest c

theorem WellFormed.distinctTo {v : Value} (h : v.WellFormed) (m : Location) : DistinctTo m v := by
  induction m generalizing v with
  | nil => trivial
  | cons s rest ih =>
    constructor
    · rintro entries rfl
      exact (wellFormed_map_iff.mp h).1
    · exact fun c hc => ih (h.child? hc)

/-- Where a value may not be any other, its children are gone or confined. -/
theorem Confined.child? {v w : Value} (h : Confined free gone l v w) (hfree : ¬ free l)
    (hnodup : ∀ entries, v = map entries → (Keyed.keys entries).Nodup) (s : Segment) :
    w.child? s = none ∨
      ∃ c c', v.child? s = some c ∧ w.child? s = some c' ∧ Confined free gone (l ++ [s]) c c' := by
  cases v with
  | sequence items =>
    obtain ⟨others, rfl, hothers⟩ := (confined_sequence.mp h).resolve_left hfree
    cases hchild : (sequence others).child? s with
    | none => exact Or.inl rfl
    | some c' =>
      rcases child?_eq_some_iff.mp hchild with ⟨_, _, heq, -⟩ | ⟨_, n, heq, rfl, hn⟩
      · contradiction
      · cases heq
        have hlt : n < items.length := by
          rw [← hothers.length_eq]
          exact (List.getElem?_eq_some_iff.mp hn).1
        obtain ⟨w, hw, hconfined⟩ := hothers.getElem? (List.getElem?_eq_getElem hlt)
        cases hn.symm.trans hw
        refine Or.inr ⟨_, _, child?_sequence.mpr ⟨n, rfl, List.getElem?_eq_getElem hlt⟩, rfl, ?_⟩
        simpa using hconfined
  | map entries =>
    obtain ⟨others, rfl, hothers⟩ := (confined_map.mp h).resolve_left hfree
    cases s with
    | index i => exact Or.inl rfl
    | key name =>
      cases hname : Keyed.get? entries name with
      | none => exact Or.inl (hothers.get?_eq_none hname)
      | some c =>
        rcases hothers.get? (hnodup entries rfl) hname with hnone | ⟨c', hc', hconfined⟩
        · exact Or.inl hnone
        · exact Or.inr ⟨c, c', hname, hc', hconfined⟩
  | _ =>
    have hsame := ((confined_iff_of_leaf rfl rfl).mp h).resolve_left fun h => hfree h.1
    subst hsame
    exact Or.inl rfl

/-- What stays a map was one, and none of its keys is new. -/
theorem Confined.exists_map {v : Value} {others : List (String × Value)}
    (h : Confined free gone l v (map others)) (hfree : ¬ free l) :
    ∃ entries, v = map entries ∧ (Keyed.keys others).Sublist (Keyed.keys entries) := by
  cases v with
  | map entries =>
    obtain ⟨others', heq, hothers⟩ := (confined_map.mp h).resolve_left hfree
    cases heq
    exact ⟨entries, rfl, hothers.keys_sublist⟩
  | sequence items =>
    obtain ⟨others', heq, -⟩ := (confined_sequence.mp h).resolve_left hfree
    contradiction
  | _ =>
    have hsame := ((confined_iff_of_leaf rfl rfl).mp h).resolve_left fun h => hfree h.1
    contradiction

variable {m : Location}

theorem not_free_of_cons {s : Segment} (hfree : ∀ n, n <+: s :: m → n ≠ s :: m → ¬ free (l ++ n)) :
    ¬ free l ∧ ∀ n, n <+: m → n ≠ m → ¬ free (l ++ [s] ++ n) := by
  constructor
  · simpa using hfree [] List.nil_prefix (List.cons_ne_nil s m).symm
  · intro n hn hne
    simpa using hfree (s :: n) ((List.prefix_cons_inj s).mpr hn) (by simpa using hne)

theorem Confined.distinctTo {v w : Value} (h : Confined free gone l v w) (hv : DistinctTo m v)
    (hfree : ∀ n, n <+: m → n ≠ m → ¬ free (l ++ n)) : DistinctTo m w := by
  induction m generalizing l v w with
  | nil => trivial
  | cons s rest ih =>
    obtain ⟨hnodup, hrest⟩ := hv
    obtain ⟨hhere, hbelow⟩ := not_free_of_cons hfree
    constructor
    · rintro others rfl
      obtain ⟨entries, rfl, hkeys⟩ := h.exists_map hhere
      exact (hnodup entries rfl).sublist hkeys
    · intro c' hc'
      rcases h.child? hhere hnodup s with hnone | ⟨c, d, hc, hd, hconfined⟩
      · rw [hnone] at hc'
        contradiction
      · cases hc'.symm.trans hd
        exact ih hconfined (hrest c hc) hbelow

/-- What a confined change leaves at a location that is below no free one. -/
theorem Confined.get? {v w : Value} (h : Confined free gone l v w) (hv : DistinctTo m v)
    (hfree : ∀ n, n <+: m → n ≠ m → ¬ free (l ++ n)) :
    w.get? m = none ∨
      ∃ c c', v.get? m = some c ∧ w.get? m = some c' ∧ Confined free gone (l ++ m) c c' := by
  induction m generalizing l v w with
  | nil => exact Or.inr ⟨v, w, rfl, rfl, by rwa [List.append_nil]⟩
  | cons s rest ih =>
    obtain ⟨hnodup, hrest⟩ := hv
    obtain ⟨hhere, hbelow⟩ := not_free_of_cons hfree
    rw [Value.get?, Value.get?]
    rcases h.child? hhere hnodup s with hnone | ⟨c, c', hc, hc', hconfined⟩
    · rw [hnone]
      exact Or.inl rfl
    · rw [hc, hc']
      simpa using ih hconfined (hrest c hc) hbelow

/-- Where there is no value, none comes. -/
theorem Confined.get?_eq_none {v w : Value} (h : Confined free gone l v w) (hv : DistinctTo m v)
    (hfree : ∀ n, n <+: m → n ≠ m → ¬ free (l ++ n)) (hnone : v.get? m = none) :
    w.get? m = none := by
  rcases h.get? hv hfree with hw | ⟨c, -, hc, -⟩
  · exact hw
  · rw [hnone] at hc
    contradiction

/-- A null stays or goes. -/
theorem Confined.get?_of_null {v w : Value} (h : Confined free gone l v w) (hv : DistinctTo m v)
    (hfree : ∀ n, n <+: m → n ≠ m → ¬ free (l ++ n)) (hnull : v.get? m = some .null) :
    w.get? m = none ∨ w.get? m = some .null := by
  rcases h.get? hv hfree with hw | ⟨c, c', hc, hc', hconfined⟩
  · exact Or.inl hw
  · cases hnull.symm.trans hc
    rw [confined_null.mp hconfined] at hc'
    exact Or.inr hc'

/-- A key that is taken out of a map without repeated keys is gone. -/
theorem get?_assign_none {v w : Value} {name : String} (hv : DistinctTo (m ++ [Segment.key name]) v)
    (hw : assign none (m ++ [Segment.key name]) (some v) = some w) :
    w.get? (m ++ [Segment.key name]) = none := by
  induction m generalizing v w with
  | nil =>
    rw [List.nil_append, assign_cons] at hw
    cases hw
    cases v with
    | map entries =>
      have herase : (assign none [] ((map entries).child? (.key name))) = none := by
        cases (map entries).child? (.key name) <;> rfl
      rw [List.nil_append, herase, Value.get?, assignChild, Value.child?,
        Keyed.get?_erase_self (hv.1 entries rfl)]
      rfl
    | _ => simp [Value.get?, assignChild, child?]
  | cons s rest ih =>
    rw [List.cons_append, assign_cons] at hw
    cases hw
    rw [List.cons_append, Value.get?, child?_assignChild_assign v s (Or.inr (by simp))]
    cases hchild : v.child? s with
    | none => rw [assign_none, Option.bind_none]
    | some c =>
      obtain ⟨new, hnew⟩ : ∃ new, assign none (rest ++ [Segment.key name]) (some c) = some new := by
        cases rest <;> exact ⟨_, rfl⟩
      rw [hnew, Option.bind_some]
      exact ih (hv.2 c hchild) hnew

end Reading

section Trimming

open Classical

mutual

/-- A tree at a location without the nulls of maps at some locations. -/
noncomputable def trimmed (gone : Location → Prop) (l : Location) : Value → Value
  | .sequence items => .sequence (trimmedItems gone l 0 items)
  | .map entries => .map (trimmedEntries gone l entries)
  | v => v

noncomputable def trimmedItems (gone : Location → Prop) (l : Location) :
    Nat → List Value → List Value
  | _, [] => []
  | i, v :: items => trimmed gone (l ++ [Segment.index i]) v :: trimmedItems gone l (i + 1) items

noncomputable def trimmedEntries (gone : Location → Prop) (l : Location) :
    List (String × Value) → List (String × Value)
  | [] => []
  | (name, v) :: entries =>
    if v.isNull ∧ gone (l ++ [Segment.key name]) then trimmedEntries gone l entries
    else (name, trimmed gone (l ++ [Segment.key name]) v) :: trimmedEntries gone l entries

end

/-- Whether the nulls at some locations are gone from a tree. -/
def Drained (gone : Location → Prop) (l : Location) (v w : Value) : Prop :=
  ∀ m name, v.get? (m ++ [Segment.key name]) = some .null → gone (l ++ (m ++ [Segment.key name])) →
    w.get? (m ++ [Segment.key name]) = none

theorem Drained.child {v w c c' : Value} {s : Segment} (h : Drained gone l v w)
    (hc : v.child? s = some c) (hc' : w.child? s = some c') :
    Drained gone (l ++ [s]) c c' := by
  intro m name hnull hgone
  have hbelow := h (s :: m) name
  rw [List.cons_append, Value.get?, hc, Value.get?, hc'] at hbelow
  exact hbelow hnull (by simpa using hgone)

variable {gone : Location → Prop}

/-- What is confined to no values and drained is trimmed. -/
def Trims (gone : Location → Prop) (v : Value) : Prop :=
  ∀ l w, v.WellFormed → Confined (fun _ => False) gone l v w → Drained gone l v w →
    w = trimmed gone l v

theorem ConfinedItems.eq_trimmed {items others : List Value} (hitems : ∀ v ∈ items, Trims gone v)
    (hwell : ∀ v ∈ items, v.WellFormed) {i : Nat}
    (h : ConfinedItems (fun _ => False) gone l i items others)
    (hdrained : ∀ (n : Nat) (v w : Value), items[n]? = some v → others[n]? = some w →
      Drained gone (l ++ [Segment.index ((i + n : Nat) : Int)]) v w) :
    others = trimmedItems gone l i items := by
  induction items generalizing i others with
  | nil =>
    have hothers : others = [] := h
    rw [hothers, trimmedItems]
  | cons v items ih =>
    obtain ⟨w, rest, rfl, hw, hrest⟩ := h
    have htail := ih (fun u hu => hitems u (List.mem_cons_of_mem v hu))
      (fun u hu => hwell u (List.mem_cons_of_mem v hu)) hrest fun n u x hu hx => by
        rw [show i + 1 + n = i + (n + 1) by omega]
        exact hdrained (n + 1) u x hu hx
    rw [trimmedItems, ← htail, ← hitems v List.mem_cons_self _ w (hwell v List.mem_cons_self) hw
      (hdrained 0 v w rfl rfl)]

theorem ConfinedEntries.eq_trimmed {entries others : List (String × Value)}
    (hentries : ∀ e ∈ entries, Trims gone e.2) (hwell : ∀ e ∈ entries, e.2.WellFormed)
    (hnodup : (Keyed.keys entries).Nodup)
    (h : ConfinedEntries (fun _ => False) gone l entries others)
    (hdrained : ∀ name v w, Keyed.get? entries name = some v → Keyed.get? others name = some w →
      ¬ (v.isNull ∧ gone (l ++ [Segment.key name])) ∧ Drained gone (l ++ [Segment.key name]) v w) :
    others = trimmedEntries gone l entries := by
  induction entries generalizing others with
  | nil =>
    have hothers : others = [] := h
    rw [hothers, trimmedEntries]
  | cons e entries ih =>
    have htail := fun others => @ih others
      (fun e' he' => hentries e' (List.mem_cons_of_mem e he'))
      (fun e' he' => hwell e' (List.mem_cons_of_mem e he'))
    have htrims := hentries e List.mem_cons_self
    have hvalue := hwell e List.mem_cons_self
    obtain ⟨name, v⟩ := e
    obtain ⟨hname, hkeys⟩ := List.nodup_cons.mp hnodup
    have hother : ∀ other u, Keyed.get? entries other = some u → name ≠ other :=
      fun other u hu heq => hname (List.mem_map.mpr ⟨_, Keyed.mem_of_get? hu, heq.symm⟩)
    rw [trimmedEntries]
    rcases h with ⟨w, rest, rfl, hw, hrest⟩ | ⟨rfl, hgone, hrest⟩
    · obtain ⟨hstays, hbelow⟩ := hdrained name v w (by rw [Keyed.get?, if_pos rfl])
        (by rw [Keyed.get?, if_pos rfl])
      rw [if_neg hstays, ← htrims _ w hvalue hw hbelow,
        ← htail rest hkeys hrest fun other u x hu hx => ?_]
      apply hdrained
      · rwa [Keyed.get?, if_neg (hother other u hu)]
      · rwa [Keyed.get?, if_neg (hother other u hu)]
    · rw [if_pos ⟨rfl, hgone⟩, ← htail others hkeys hrest fun other u x hu hx => ?_]
      apply hdrained other u x ?_ hx
      rwa [Keyed.get?, if_neg (hother other u hu)]

theorem Confined.eq_trimmed {v w : Value} (hv : v.WellFormed)
    (h : Confined (fun _ => False) gone l v w) (hdrained : Drained gone l v w) :
    w = trimmed gone l v := by
  have htrims : Trims gone v := by
    clear h hdrained hv
    induction v using tree_induction with
    | leaf v hsequence hmap =>
      intro l w _ h _
      rw [((confined_iff_of_leaf hsequence hmap).mp h).resolve_left fun h => h.1]
      rw [trimmed.eq_def]
      cases v <;> first | rfl | contradiction
    | sequence items ih =>
      intro l w hwell h hdrained
      obtain ⟨others, rfl, hothers⟩ := (confined_sequence.mp h).resolve_left id
      rw [trimmed, ← hothers.eq_trimmed ih (wellFormed_sequence_iff.mp hwell)]
      intro n v w hv hw
      simpa using hdrained.child (child?_sequence.mpr ⟨n, rfl, hv⟩)
        (child?_sequence.mpr ⟨n, rfl, hw⟩)
    | map entries ih =>
      intro l w hwell h hdrained
      obtain ⟨others, rfl, hothers⟩ := (confined_map.mp h).resolve_left id
      obtain ⟨hnodup, hentries⟩ := wellFormed_map_iff.mp hwell
      rw [trimmed, ← hothers.eq_trimmed ih hentries hnodup]
      intro name v w hv hw
      refine ⟨?_, hdrained.child hv hw⟩
      rintro ⟨hnull, hgone⟩
      have hnone := hdrained [] name
      rw [List.nil_append, Value.get?, Value.get?, Value.child?, Value.child?, hv, hw] at hnone
      have hv := RunState.isNull_eq_true_iff.mp hnull
      exact Option.some_ne_none w (hnone (congrArg some hv) hgone)
  exact htrims l w hv h hdrained

end Trimming

end Value
end PathRules

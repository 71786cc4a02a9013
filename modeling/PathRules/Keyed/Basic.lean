/-!
Keyed lists: lists of pairs in which a key has at most one value. `put` keeps the place of a key
that is present and appends one that is new, so the order of the keys is the order in which they
came. Main statements: what `get?` answers after `put` and `erase`, and the keys after each.
-/

namespace PathRules.Keyed

variable {κ α : Type} [DecidableEq κ]

def keys (entries : List (κ × α)) : List κ :=
  entries.map Prod.fst

def get? : List (κ × α) → κ → Option α
  | [], _ => none
  | (k, v) :: rest, key => if k = key then some v else get? rest key

def has (entries : List (κ × α)) (key : κ) : Bool :=
  (get? entries key).isSome

/-- Gives a key its value: at its place if it is present, at the end otherwise. -/
def put : List (κ × α) → κ → α → List (κ × α)
  | [], key, value => [(key, value)]
  | (k, v) :: rest, key, value =>
    if k = key then (k, value) :: rest else (k, v) :: put rest key value

/-- Removes a key and keeps the order of the others. -/
def erase : List (κ × α) → κ → List (κ × α)
  | [], _ => []
  | (k, v) :: rest, key => if k = key then rest else (k, v) :: erase rest key

/-- The keyed list of pairs given one after the other: a repeated key keeps its first place and its
last value. -/
def ofPairs (pairs : List (κ × α)) : List (κ × α) :=
  pairs.foldl (fun acc p => put acc p.1 p.2) []

@[simp] theorem get?_nil (key : κ) : get? ([] : List (κ × α)) key = none := rfl

theorem get?_put_self (entries : List (κ × α)) (key : κ) (value : α) :
    get? (put entries key value) key = some value := by
  induction entries with
  | nil => simp [put, get?]
  | cons e rest ih =>
    obtain ⟨k, v⟩ := e
    by_cases h : k = key <;> simp [put, get?, h, ih]

theorem get?_put_of_ne (entries : List (κ × α)) {key other : κ} (value : α) (h : key ≠ other) :
    get? (put entries key value) other = get? entries other := by
  induction entries with
  | nil => simp [put, get?, h]
  | cons e rest ih =>
    obtain ⟨k, v⟩ := e
    by_cases hk : k = key
    · subst hk; simp [put, get?, h]
    · rw [put, if_neg hk]
      by_cases ho : k = other <;> simp [get?, ho, ih]

theorem get?_eq_none_iff (entries : List (κ × α)) (key : κ) :
    get? entries key = none ↔ key ∉ keys entries := by
  induction entries with
  | nil => simp [get?, keys]
  | cons e rest ih =>
    obtain ⟨k, v⟩ := e
    by_cases h : k = key
    · simp [get?, keys, h]
    · simp only [get?, h, if_false, keys, List.map_cons, List.mem_cons, not_or, ih]
      exact ⟨fun hn => ⟨fun he => h he.symm, hn⟩, fun hn => hn.2⟩

theorem keys_put_of_mem (entries : List (κ × α)) {key : κ} (value : α)
    (h : key ∈ keys entries) : keys (put entries key value) = keys entries := by
  induction entries with
  | nil => simp [keys] at h
  | cons e rest ih =>
    obtain ⟨k, v⟩ := e
    by_cases hk : k = key
    · simp [put, keys, hk]
    · have hr : key ∈ keys rest := by
        simp only [keys, List.map_cons, List.mem_cons] at h
        exact h.resolve_left fun he => hk he.symm
      have := ih hr
      simp only [keys] at this
      simp [put, keys, hk, this]

theorem put_of_not_mem (entries : List (κ × α)) {key : κ} (value : α)
    (h : key ∉ keys entries) : put entries key value = entries ++ [(key, value)] := by
  induction entries with
  | nil => rfl
  | cons e rest ih =>
    obtain ⟨k, v⟩ := e
    simp only [keys, List.map_cons, List.mem_cons, not_or] at h
    rw [put, if_neg (Ne.symm h.1), ih h.2, List.cons_append]

theorem keys_put_of_not_mem (entries : List (κ × α)) {key : κ} (value : α)
    (h : key ∉ keys entries) : keys (put entries key value) = keys entries ++ [key] := by
  rw [put_of_not_mem entries value h, keys, List.map_append]
  rfl

/-- Pairs whose keys are all different make up the list as they are. -/
theorem ofPairs_of_nodup {pairs : List (κ × α)} (h : (keys pairs).Nodup) :
    ofPairs pairs = pairs := by
  suffices hfold : ∀ before after : List (κ × α), (keys (before ++ after)).Nodup →
      after.foldl (fun acc p => put acc p.1 p.2) before = before ++ after from hfold [] pairs h
  intro before after
  induction after generalizing before with
  | nil => simp
  | cons p rest ih =>
    intro hnodup
    have hnew : p.1 ∉ keys before := by
      intro hmem
      rw [keys, List.map_append, List.nodup_append] at hnodup
      exact hnodup.2.2 p.1 hmem p.1 List.mem_cons_self rfl
    rw [List.foldl_cons, put_of_not_mem before p.2 hnew, ih _ (by simpa using hnodup)]
    simp

theorem keys_erase (entries : List (κ × α)) (key : κ) :
    keys (erase entries key) = (keys entries).erase key := by
  induction entries with
  | nil => simp [erase, keys]
  | cons e rest ih =>
    obtain ⟨k, v⟩ := e
    by_cases hk : k = key
    · simp [erase, keys, hk]
    · simp only [keys] at ih
      simp [erase, keys, hk, ih]

end PathRules.Keyed

import Mathlib.Algebra.Order.Group.Multiset
import Mathlib.Data.String.Basic
import PathRules.Proofs.Assignment
/-!
Effects of visits. A validator is local if it looks at nothing of the data but the value that it is
asked about. What a field of local validators does at a location is an effect: it assigns the
location and adds messages and failures. Main statement: effects at locations that are apart can
take place in any order.
-/

namespace PathRules

namespace Keyed

variable {κ α : Type} [DecidableEq κ] {isBefore : κ → κ → Bool}

theorem upsert_upsert (f g : Option α → α) (entries : List (κ × α)) (key : κ) :
    upsert isBefore f (upsert isBefore g entries key) key =
      upsert isBefore (fun o => f (some (g o))) entries key := by
  induction entries with
  | nil => simp [upsert]
  | cons e rest ih =>
    obtain ⟨k, v⟩ := e
    by_cases hk : k = key
    · simp [upsert, hk]
    · by_cases hbefore : isBefore key k = true
      · simp [upsert, hk, hbefore]
      · simp [upsert, hk, hbefore, ih]

/-- Whether one key comes before another one in a strict order of all keys. -/
structure StrictOrder (isBefore : κ → κ → Bool) : Prop where
  trans : ∀ {a b c}, isBefore a b = true → isBefore b c = true → isBefore a c = true
  asymm : ∀ {a b}, isBefore a b = true → isBefore b a = false
  total : ∀ {a b}, a ≠ b → isBefore a b = false → isBefore b a = true

/-- Changes of two keys can be made in any order. -/
theorem upsert_comm (h : StrictOrder isBefore) (f g : Option α → α) (entries : List (κ × α))
    {key other : κ} (hne : key ≠ other) :
    upsert isBefore f (upsert isBefore g entries other) key =
      upsert isBefore g (upsert isBefore f entries key) other := by
  -- Two keys that are both new where the entries come from are put in order.
  have hnew : ∀ rest : List (κ × α), upsert isBefore f rest key = (key, f none) :: rest →
      upsert isBefore g rest other = (other, g none) :: rest →
        upsert isBefore f (upsert isBefore g rest other) key =
          upsert isBefore g (upsert isBefore f rest key) other := by
    intro rest hf hg
    rw [hf, hg]
    cases hbefore : isBefore key other with
    | true => simp [upsert, hne, hne.symm, hbefore, h.asymm hbefore, hg]
    | false => simp [upsert, hne, hne.symm, hbefore, h.total hne hbefore, hf]
  induction entries with
  | nil => exact hnew [] rfl rfl
  | cons e rest ih =>
    obtain ⟨k, v⟩ := e
    by_cases hkey : k = key
    · subst hkey
      cases hbefore : isBefore other k with
      | true => simp [upsert, hne, hne.symm, hbefore, h.asymm hbefore]
      | false => simp [upsert, hne, hbefore]
    · by_cases hother : k = other
      · subst hother
        cases hbefore : isBefore key k with
        | true => simp [upsert, hkey, hne, hbefore, h.asymm hbefore]
        | false => simp [upsert, hkey, hbefore]
      · cases hk : isBefore key k with
        | true =>
          cases ho : isBefore other k with
          | true => exact hnew _ (by simp [upsert, hkey, hk]) (by simp [upsert, hother, ho])
          | false =>
            have hlast : isBefore other key = false := by
              by_contra hbefore
              rw [Bool.not_eq_false] at hbefore
              rw [h.trans hbefore hk] at ho
              contradiction
            simp [upsert, hkey, hother, hk, ho, hne, hlast]
        | false =>
          cases ho : isBefore other k with
          | true =>
            have hlast : isBefore key other = false := by
              by_contra hbefore
              rw [Bool.not_eq_false] at hbefore
              rw [h.trans hbefore ho] at hk
              contradiction
            simp [upsert, hkey, hother, hk, ho, hne.symm, hlast]
          | false => simp [upsert, hkey, hother, hk, ho, ih]

end Keyed

theorem Segment.strictOrder_isBefore : Keyed.StrictOrder Segment.isBefore where
  trans {a b c} hab hbc := by
    cases a <;> cases b <;> cases c <;>
      simp only [isBefore, decide_eq_true_eq, Bool.false_eq_true] at hab hbc ⊢
    · exact lt_trans hab hbc
    · exact lt_trans hab hbc
  asymm {a b} hab := by
    cases a <;> cases b <;>
      simp only [isBefore, decide_eq_true_eq, decide_eq_false_iff_not, Bool.false_eq_true] at hab ⊢
    · exact lt_asymm hab
    · exact lt_asymm hab
  total {a b} hne hab := by
    cases a <;> cases b <;>
      simp only [isBefore, decide_eq_true_eq, decide_eq_false_iff_not, not_lt,
        Bool.true_eq_false] at hab ⊢
    · exact lt_of_le_of_ne hab fun h => hne (congrArg key h.symm)
    · exact lt_of_le_of_ne hab fun h => hne (congrArg index h.symm)

namespace ErrorTree

theorem updateChild_updateChild (f g : ErrorTree → ErrorTree) (s : Segment) (t : ErrorTree) :
    updateChild f s (updateChild g s t) = updateChild (fun t => f (g t)) s t := by
  obtain ⟨errors, isObject, isArray, children⟩ := t
  simp [updateChild, Keyed.upsert_upsert]

theorem updateChild_comm (f g : ErrorTree → ErrorTree) {s t : Segment} (hne : s ≠ t)
    (tree : ErrorTree) :
    updateChild f s (updateChild g t tree) = updateChild g t (updateChild f s tree) := by
  obtain ⟨errors, isObject, isArray, children⟩ := tree
  simp only [updateChild, Keyed.upsert_comm Segment.strictOrder_isBefore _ _ children hne,
    Bool.or_right_comm]

/-- Messages at two locations can be added in any order. -/
theorem add_comm (t : ErrorTree) {l m : Location} (hne : l ≠ m) (a b : String) :
    (t.add l a).add m b = (t.add m b).add l a := by
  unfold add
  induction l generalizing m t with
  | nil =>
    cases m with
    | nil => contradiction
    | cons s rest =>
      obtain ⟨errors, isObject, isArray, children⟩ := t
      rfl
  | cons s rest ih =>
    cases m with
    | nil =>
      obtain ⟨errors, isObject, isArray, children⟩ := t
      rfl
    | cons u others =>
      rw [update, update]
      by_cases hsegment : s = u
      · subst hsegment
        have hbelow : rest ≠ others := fun h => hne (congrArg _ h)
        rw [updateChild_updateChild, updateChild_updateChild]
        exact congrArg (fun f => updateChild f s t) (funext fun c => ih c hbelow)
      · exact updateChild_comm _ _ (Ne.symm hsegment) t

end ErrorTree

/-- Whether a validator looks at nothing of the data but the value that it is asked about, nor at
the time that has passed. What it notes down and how long it takes does not count. -/
structure Validator.Local (v : Validator) : Prop where
  requires : ∀ c data elapsed, v.requires { c with data, elapsed } = v.requires c
  placeholders : ∀ c data elapsed, v.placeholders { c with data, elapsed } = v.placeholders c
  accepted : ∀ c data elapsed, (v.check { c with data, elapsed }).accepted = (v.check c).accepted
  value : ∀ c data elapsed, (v.check { c with data, elapsed }).value = (v.check c).value
  failures : ∀ c data elapsed, (v.check { c with data, elapsed }).failures = (v.check c).failures
  elements : ∀ c data elapsed, (v.check { c with data, elapsed }).elements = (v.check c).elements
  abandoned : ∀ c data elapsed,
    (v.check { c with data, elapsed }).abandoned = (v.check c).abandoned

theorem Message.ofFailure_local {v : Validator} (h : v.Local) (translate : Translator) (c : Context)
    (data : Value) (elapsed : Duration) :
    ofFailure translate v { c with data, elapsed } = ofFailure translate v c := by
  unfold ofFailure
  rw [h.placeholders]
  rfl

theorem Field.requiring?_local {f : Field} (h : ∀ v ∈ f.validators, v.Local) (c : Context)
    (data : Value) (elapsed : Duration) :
    f.requiring? { c with data, elapsed } = f.requiring? c := by
  unfold requiring?
  generalize f.validators = vs at h
  induction vs with
  | nil => rfl
  | cons v vs ih =>
    rw [List.find?_cons, List.find?_cons, (h v List.mem_cons_self).requires,
      ih fun w hw => h w (List.mem_cons_of_mem v hw)]

/-- What a part of a run does where it takes place: the value that it leaves there, none if it takes
the key out, and what it adds to the messages, each at a location below, and to the failures. -/
structure Effect where
  value : Option Value
  messages : List (Location × String)
  failures : List CollaboratorFailure

/-- What can be told apart after a run that was not abandoned; the order of failures does not
count. -/
@[ext]
structure Observed where
  data : Value
  errors : ErrorTree
  failures : Multiset CollaboratorFailure

namespace Effect

open Value Location

def report (e : Effect) (l : Location) (t : ErrorTree) : ErrorTree :=
  e.messages.foldl (fun t m => t.add (l ++ m.1) m.2) t

/-- An effect that takes place at a location. -/
def apply (e : Effect) (l : Location) (o : Observed) : Observed where
  data := (assign e.value l (some o.data)).getD o.data
  errors := e.report l o.errors
  failures := o.failures + e.failures

/-- A message and a report that are apart can be made in any order. -/
theorem report_add (e : Effect) {l m : Location} (h : Apart l m) (t : ErrorTree) (n : Location)
    (message : String) :
    e.report m (t.add (l ++ n) message) = (e.report m t).add (l ++ n) message := by
  unfold report
  induction e.messages generalizing t with
  | nil => rfl
  | cons first rest ih =>
    have hne : l ++ n ≠ m ++ first.1 := by
      intro heq
      rcases List.prefix_or_prefix_of_prefix (List.prefix_append l n)
        (heq ▸ List.prefix_append m first.1) with hlm | hml
      · exact h.1 hlm
      · exact h.2 hml
    rw [List.foldl_cons, List.foldl_cons, t.add_comm hne, ih]

/-- Reports at locations that are apart can be made in any order. -/
theorem report_comm (e e' : Effect) {l m : Location} (h : Apart l m) (t : ErrorTree) :
    e.report l (e'.report m t) = e'.report m (e.report l t) := by
  rw [report.eq_def e, report.eq_def e]
  induction e.messages generalizing t with
  | nil => rfl
  | cons first rest ih => rw [List.foldl_cons, List.foldl_cons, ← report_add e' h, ih]

theorem some_apply_data (e : Effect) {l : Location} (hl : e.value.isSome ∨ l ≠ [])
    (o : Observed) : some (e.apply l o).data = assign e.value l (some o.data) := by
  cases hassign : assign e.value l (some o.data) with
  | none => exact absurd (eq_none_of_assign_eq_none hl hassign) (Option.some_ne_none _)
  | some new => simp [apply, hassign]

/-- Effects at locations that are apart can take place in any order. -/
theorem apply_comm (e e' : Effect) {l m : Location} (h : Apart l m) (o : Observed) :
    e.apply l (e'.apply m o) = e'.apply m (e.apply l o) := by
  ext1
  · apply Option.some.inj
    have hl : e.value.isSome ∨ l ≠ [] := Or.inr h.ne_nil
    have hm : e'.value.isSome ∨ m ≠ [] := Or.inr h.symm.ne_nil
    rw [e.some_apply_data hl, e'.some_apply_data hm, e'.some_apply_data hm, e.some_apply_data hl,
      assign_comm _ _ h]
  · exact e.report_comm e' h o.errors
  · exact add_right_comm o.failures _ _

theorem get?_apply_of_apart (e : Effect) {l m : Location} (h : Apart l m) (o : Observed) :
    (e.apply l o).data.get? m = o.data.get? m := by
  have hget := get?_assign_of_apart e.value h (some o.data)
  rw [← e.some_apply_data (Or.inr h.ne_nil)] at hget
  exact hget

end Effect

end PathRules

import Mathlib
import PathRules.Rules.Standard
/-!
The texts of declared patterns. A declaration is cut at its commas and its parts are trimmed before
a rule joins them again, so a pattern loses the blanks beside its commas and nothing else. Main
statement: the rules of dates and of regular expressions get the declared pattern without these
blanks, which is the pattern itself just when no blank stands beside a comma.
-/

namespace PathRules

namespace Text

/-- Whether a text neither begins nor ends with a blank. -/
def Trimmed (cs : List Char) : Prop :=
  (∀ c ∈ cs.head?, isBlank c = false) ∧ ∀ c ∈ cs.getLast?, isBlank c = false

instance (cs : List Char) : Decidable (Trimmed cs) :=
  decidable_of_iff (cs.head?.all (!isBlank ·) ∧ cs.getLast?.all (!isBlank ·))
    (by simp [Trimmed, Option.all_eq_true])

theorem trimStart_eq_self_iff {cs : List Char} :
    trimStart cs = cs ↔ ∀ c ∈ cs.head?, isBlank c = false := by
  rw [trimStart, List.dropWhile_eq_self_iff]
  cases cs <;> simp

theorem trimEnd_eq_self_iff {cs : List Char} :
    trimEnd cs = cs ↔ ∀ c ∈ cs.getLast?, isBlank c = false := by
  have hreverse : trimEnd cs = cs ↔ trimStart cs.reverse = cs.reverse := List.reverse_eq_iff
  rw [hreverse, trimStart_eq_self_iff, List.head?_reverse]

theorem trimList_eq_self_iff {cs : List Char} : trimList cs = cs ↔ Trimmed cs := by
  constructor
  · intro h
    have hsuffix : trimStart cs <:+ cs := List.dropWhile_suffix _
    have hprefix : trimEnd (trimStart cs) <+: trimStart cs := by
      have hdropped := List.dropWhile_suffix isBlank (l := (trimStart cs).reverse)
      simpa [trimEnd] using List.reverse_prefix.mpr hdropped
    -- What is as long as the text has lost nothing at either end.
    have hlength := congrArg List.length h
    have hstart : trimStart cs = cs :=
      hsuffix.eq_of_length_le (hlength.symm.le.trans hprefix.length_le)
    refine ⟨trimStart_eq_self_iff.mp hstart, trimEnd_eq_self_iff.mp ?_⟩
    rwa [trimList, hstart] at h
  · rintro ⟨hstart, hend⟩
    rw [trimList, trimStart_eq_self_iff.mpr hstart, trimEnd_eq_self_iff.mpr hend]

theorem mem_of_mem_trimList {c : Char} {cs : List Char} (h : c ∈ trimList cs) : c ∈ cs := by
  have hstart : c ∈ trimStart cs :=
    List.mem_reverse.mp ((List.dropWhile_suffix _).subset (List.mem_reverse.mp h))
  exact (List.dropWhile_suffix _).subset hstart

/-! ### Pieces between commas -/

/-- Whether no blank stands directly before or behind a comma. -/
def NoBlankAtComma (cs : List Char) : Prop :=
  cs.IsChain fun c d => (d = ',' → isBlank c = false) ∧ (c = ',' → isBlank d = false)

instance (cs : List Char) : Decidable (NoBlankAtComma cs) :=
  inferInstanceAs (Decidable (List.IsChain _ _))

/-- A text without the blanks beside its commas and at its ends. -/
def tighten (cs : List Char) : List Char :=
  [','].intercalate ((cs.splitOn ',').map trimList)

/-- A text is a piece without commas, or such a piece, a comma and a text. -/
theorem comma_induction {motive : List Char → Prop} (piece : ∀ p, ',' ∉ p → motive p)
    (more : ∀ p rest, ',' ∉ p → motive rest → motive (p ++ ',' :: rest)) (cs : List Char) :
    motive cs := by
  by_cases hcomma : ',' ∈ cs
  · obtain ⟨p, rest, hcs, hp⟩ := List.eq_append_cons_of_mem hcomma
    rw [hcs]
    exact more p rest hp (comma_induction piece more rest)
  · exact piece cs hcomma
termination_by cs.length
decreasing_by
  simp only [hcs, List.length_append, List.length_cons]
  omega

theorem comma_not_mem_of_mem_splitOn (cs : List Char) : ∀ p ∈ cs.splitOn ',', ',' ∉ p := by
  induction cs using comma_induction with
  | piece p hp =>
    rw [List.splitOn_eq_singleton hp]
    exact List.forall_mem_singleton.mpr hp
  | more p rest hp ih =>
    rw [List.splitOn_append_cons_self_of_not_mem hp]
    exact List.forall_mem_cons.mpr ⟨hp, ih⟩

theorem noBlankAtComma_piece {p : List Char} (hp : ',' ∉ p) : NoBlankAtComma p := by
  refine (List.pairwise_of_forall_mem_list fun c hc d hd => ?_).isChain
  exact ⟨fun h => absurd (h ▸ hd) hp, fun h => absurd (h ▸ hc) hp⟩

theorem noBlankAtComma_append {p rest : List Char} (hp : ',' ∉ p) :
    NoBlankAtComma (p ++ ',' :: rest) ↔ (∀ c ∈ p.getLast?, isBlank c = false) ∧
      (∀ c ∈ rest.head?, isBlank c = false) ∧ NoBlankAtComma rest := by
  have hcomma : isBlank ',' = false := by decide
  have hpiece : NoBlankAtComma p := noBlankAtComma_piece hp
  rw [NoBlankAtComma] at hpiece ⊢
  rw [List.isChain_append, List.isChain_cons, NoBlankAtComma, and_iff_right hpiece]
  simp only [List.head?_cons, Option.mem_some_iff, forall_eq', hcomma, implies_true, and_true,
    true_and, forall_const]
  exact and_comm

theorem trimmed_append {p rest : List Char} :
    Trimmed (p ++ ',' :: rest) ↔ (∀ c ∈ p.head?, isBlank c = false) ∧
      ∀ c ∈ rest.getLast?, isBlank c = false := by
  have hcomma : isBlank ',' = false := by decide
  refine and_congr ?_ ?_
  · cases p with
    | nil => simpa using hcomma
    | cons d p => simp
  · cases hlast : rest.getLast? with
    | none => simpa [List.getLast?_cons, hlast] using hcomma
    | some d => simp [List.getLast?_cons, hlast]

/-- The pieces of a text are trimmed just when the text is and no blank stands beside a comma. -/
theorem trimmed_pieces_iff (cs : List Char) :
    (∀ p ∈ cs.splitOn ',', Trimmed p) ↔ Trimmed cs ∧ NoBlankAtComma cs := by
  induction cs using comma_induction with
  | piece p hp =>
    rw [List.splitOn_eq_singleton hp, List.forall_mem_singleton]
    exact (and_iff_left (noBlankAtComma_piece hp)).symm
  | more p rest hp ih =>
    rw [List.splitOn_append_cons_self_of_not_mem hp, List.forall_mem_cons, ih,
      noBlankAtComma_append hp, trimmed_append, Trimmed, Trimmed]
    tauto

theorem splitOn_tighten (cs : List Char) :
    (tighten cs).splitOn ',' = (cs.splitOn ',').map trimList := by
  refine List.splitOn_intercalate ',' ?_ ?_
  · intro piece hpiece
    obtain ⟨p, hp, rfl⟩ := List.mem_map.mp hpiece
    exact fun hcomma => comma_not_mem_of_mem_splitOn cs p hp (mem_of_mem_trimList hcomma)
  · simp

/-- A text is tight just when it is trimmed and no blank stands beside a comma. -/
theorem tighten_eq_self_iff {cs : List Char} :
    tighten cs = cs ↔ Trimmed cs ∧ NoBlankAtComma cs := by
  have hpieces : tighten cs = cs ↔ (cs.splitOn ',').map trimList = (cs.splitOn ',').map id := by
    rw [List.map_id]
    constructor
    · intro h
      rw [← splitOn_tighten, h]
    · intro h
      rw [tighten, h, List.intercalate_splitOn]
  rw [hpieces, List.map_inj_left, ← trimmed_pieces_iff]
  exact forall₂_congr fun p _ => trimList_eq_self_iff

theorem tighten_ne_nil {cs : List Char} (htrimmed : Trimmed cs) (hne : cs ≠ []) :
    tighten cs ≠ [] := by
  intro h
  by_cases hcomma : ',' ∈ cs
  · -- A text with a comma has as many pieces as before.
    obtain ⟨p, rest, rfl, hp⟩ := List.eq_append_cons_of_mem hcomma
    have hsplit := splitOn_tighten (p ++ ',' :: rest)
    rw [h, List.splitOn_append_cons_self_of_not_mem hp] at hsplit
    simp at hsplit
  · rw [tighten, List.splitOn_eq_singleton hcomma] at h
    have htrim : trimList cs = [] := by simpa using h
    exact hne ((trimList_eq_self_iff.mpr htrimmed).symm.trans htrim)

/-- A text without the blanks beside its commas and at its ends. -/
def tightened (s : String) : String :=
  String.ofList (tighten s.toList)

theorem tightened_eq_self_iff {s : String} (h : Trimmed s.toList) :
    tightened s = s ↔ NoBlankAtComma s.toList := by
  rw [tightened, ← String.toList_inj, String.toList_ofList, tighten_eq_self_iff, and_iff_right h]

theorem tightened_ne_empty {s : String} (h : Trimmed s.toList) (hne : s ≠ "") :
    tightened s ≠ "" := by
  have hlist : s.toList ≠ [] := String.toList_eq_nil_iff.not.mpr hne
  rw [tightened, ne_eq, ← String.toList_inj, String.toList_ofList]
  exact tighten_ne_nil h hlist

end Text

namespace RuleCall

theorem splitAt_eq_splitOn (mark : Char) (cs : List Char) : splitAt mark cs = cs.splitOn mark := by
  induction cs with
  | nil => rfl
  | cons c rest ih =>
    rw [splitAt, List.splitOn_cons_eq_if_modifyHead, ih]
    by_cases hmark : c = mark
    · simp [hmark]
    · have hne := List.splitOn_ne_nil mark rest
      generalize rest.splitOn mark = parts at *
      cases parts <;> simp_all

/-- Arguments that are joined again are the text that was cut, but tight. -/
theorem joinedArguments_argumentsOf (cs : List Char) :
    Rules.joinedArguments (argumentsOf cs) = String.ofList (Text.tighten cs) := by
  rw [Rules.joinedArguments, argumentsOf, splitAt_eq_splitOn, Text.tighten, ← String.toList_inj]
  simp [Function.comp_def]

theorem splitName_append {name : List Char} (hname : ':' ∉ name) (rest : List Char) :
    splitName (name ++ ':' :: rest) = (name, some rest) := by
  have hall : ∀ c ∈ name, (c != ':') = true :=
    fun c hc => bne_iff_ne.mpr fun h => hname (h ▸ hc)
  have htake : (name ++ ':' :: rest).takeWhile (· != ':') = name := by
    rw [List.takeWhile_append_of_pos hall]
    simp
  simp [splitName, htake]

theorem ofString_append (name : String) {t : String} (hne : name ≠ "") (hcolon : ':' ∉ name.toList)
    (hname : Text.Trimmed name.toList) (ht : Text.Trimmed t.toList) (htne : t ≠ "") :
    ofString (name ++ ":" ++ t) = .ok ⟨name, argumentsOf t.toList⟩ := by
  have hlist : (name ++ ":" ++ t).toList = name.toList ++ ':' :: t.toList := by
    simp
  have hwhole : Text.Trimmed (name.toList ++ ':' :: t.toList) := by
    have hnil : name.toList ≠ [] := String.toList_eq_nil_iff.not.mpr hne
    have htnil : t.toList ≠ [] := String.toList_eq_nil_iff.not.mpr htne
    refine ⟨?_, ?_⟩
    · rw [List.head?_append_of_ne_nil _ hnil]
      exact hname.1
    · rw [List.getLast?_append_of_ne_nil _ (List.cons_ne_nil _ _),
        List.getLast?_cons_of_ne_nil htnil]
      exact ht.2
  have hempty : (String.ofList name.toList).isEmpty = false := by
    simpa using hne
  rw [ofString, hlist, Text.trimList_eq_self_iff.mpr hwhole]
  simp only [splitName_append hcolon, Text.trimList_eq_self_iff.mpr hname, hempty]
  simp

end RuleCall

namespace Rules

open Text

/-- The outcome of a declared pattern of regular expressions. -/
def declaredRegex (pattern : String) : Except ConfigError Validator :=
  (regex pattern).mapError (ConfigError.invalidArguments "regex")

theorem makeDate_argumentsOf {t : String} (hne : t ≠ "") (ht : Trimmed t.toList) :
    makeDate (RuleCall.argumentsOf t.toList) = .ok (date (some (tightened t))) := by
  have harguments : RuleCall.argumentsOf t.toList ≠ [] := by
    simp [RuleCall.argumentsOf, RuleCall.splitAt_eq_splitOn]
  have hempty : (tightened t).isEmpty = false := by
    simpa using tightened_ne_empty ht hne
  have hjoined : joinedArguments (RuleCall.argumentsOf t.toList) = tightened t :=
    RuleCall.joinedArguments_argumentsOf _
  rw [makeDate, hjoined, hempty]
  · rfl
  · exact harguments

theorem makeRegex_argumentsOf {t : String} (hne : t ≠ "") (ht : Trimmed t.toList) :
    makeRegex (RuleCall.argumentsOf t.toList) = declaredRegex (tightened t) := by
  have hempty : (tightened t).isEmpty = false := by
    simpa using tightened_ne_empty ht hne
  have hjoined : joinedArguments (RuleCall.argumentsOf t.toList) = tightened t :=
    RuleCall.joinedArguments_argumentsOf _
  rw [makeRegex, hjoined, hempty, declaredRegex]
  cases regex (tightened t) <;> rfl

theorem get?_standard_date : Keyed.get? standard.factories "date" = some makeDate := by
  rfl

theorem get?_standard_regex : Keyed.get? standard.factories "regex" = some makeRegex := by
  rfl

theorem build_date {t : String} (hne : t ≠ "") (ht : Trimmed t.toList) :
    standard.build ("date:" ++ t) = .ok (date (some (tightened t))) := by
  have hname : Trimmed "date".toList := by
    rw [show "date".toList = ['d', 'a', 't', 'e'] by simp]
    decide
  have hcall : RuleCall.ofString ("date:" ++ t) = .ok ⟨"date", RuleCall.argumentsOf t.toList⟩ :=
    RuleCall.ofString_append "date" (by simp) (by simp) hname ht hne
  rw [Registry.build, hcall]
  simp only [Except.bind, bind, get?_standard_date]
  exact makeDate_argumentsOf hne ht

theorem build_regex {t : String} (hne : t ≠ "") (ht : Trimmed t.toList) :
    standard.build ("regex:" ++ t) = declaredRegex (tightened t) := by
  have hname : Trimmed "regex".toList := by
    rw [show "regex".toList = ['r', 'e', 'g', 'e', 'x'] by simp]
    decide
  have hcall : RuleCall.ofString ("regex:" ++ t) = .ok ⟨"regex", RuleCall.argumentsOf t.toList⟩ :=
    RuleCall.ofString_append "regex" (by simp) (by simp) hname ht hne
  rw [Registry.build, hcall]
  simp only [Except.bind, bind, get?_standard_regex]
  exact makeRegex_argumentsOf hne ht

/-- A declared pattern reaches its rule without the blanks beside its commas: the rule of dates
reads by it and shows it, and the rule of regular expressions is made of it. It is the declared
pattern itself just when no blank stands beside a comma. -/
theorem declared_text_tightened {t : String} (hne : t ≠ "") (ht : Trimmed t.toList) :
    standard.build ("date:" ++ t) = .ok (date (some (tightened t))) ∧
      standard.build ("regex:" ++ t) = declaredRegex (tightened t) ∧
      (tightened t = t ↔ NoBlankAtComma t.toList) :=
  ⟨build_date hne ht, build_regex hne ht, tightened_eq_self_iff ht⟩

/-- A pattern with a colon, a comma and a blank within is kept. -/
theorem declared_text_tightened_clock :
    "%H:%M,%d %b" ≠ "" ∧ Trimmed "%H:%M,%d %b".toList ∧ NoBlankAtComma "%H:%M,%d %b".toList ∧
      standard.build "date:%H:%M,%d %b" = .ok (date (some "%H:%M,%d %b")) ∧
      standard.build "regex:%H:%M,%d %b" = declaredRegex "%H:%M,%d %b" := by
  have hne : "%H:%M,%d %b" ≠ "" := by simp
  have hlist : "%H:%M,%d %b".toList =
      ['%', 'H', ':', '%', 'M', ',', '%', 'd', ' ', '%', 'b'] := by
    simp
  have ht : Trimmed "%H:%M,%d %b".toList := by
    rw [hlist]
    decide
  have hnone : NoBlankAtComma "%H:%M,%d %b".toList := by
    rw [hlist]
    decide
  obtain ⟨hdate, hregex, hself⟩ := declared_text_tightened hne ht
  have hkept : tightened "%H:%M,%d %b" = "%H:%M,%d %b" := hself.mpr hnone
  rw [hkept] at hdate hregex
  exact ⟨hne, ht, hnone, hdate, hregex⟩

/-- A null value at the root of a document that is nothing else. -/
def rootContext : Context where
  value := .null
  data := .null
  location := []
  field := ⟨.root, 0, [], false, false, false⟩
  call := { now := .midnight ⟨0⟩, extras := .empty, deadline := none, lookupTimeout := .zero }
  elapsed := .zero
  invalid := false
  required := false

theorem date_injective {s t : String} (h : date (some s) = date (some t)) : s = t := by
  have hplaceholders := congrFun (congrArg Validator.placeholders h) rootContext
  simpa [date] using hplaceholders

/-- A day and a month with a comma and a blank between them lose the blank. -/
theorem exists_declared_text_changed :
    ¬ ∀ t : String, t ≠ "" → Trimmed t.toList →
      standard.build ("date:" ++ t) = .ok (date (some t)) ∧
        standard.build ("regex:" ++ t) = declaredRegex t := by
  intro h
  have hne : "%d, %m" ≠ "" := by simp
  have hlist : "%d, %m".toList = ['%', 'd', ',', ' ', '%', 'm'] := by
    simp
  have ht : Trimmed "%d, %m".toList := by
    rw [hlist]
    decide
  have hblank : ¬ NoBlankAtComma "%d, %m".toList := by
    rw [hlist]
    decide
  obtain ⟨hdate, -⟩ := h "%d, %m" hne ht
  rw [build_date hne ht] at hdate
  have hself : tightened "%d, %m" = "%d, %m" := date_injective (Except.ok.inj hdate)
  exact hblank ((tightened_eq_self_iff ht).mp hself)

end Rules
end PathRules

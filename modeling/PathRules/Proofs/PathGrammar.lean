import Mathlib
import PathRules.Proofs.PathText
/-!
The grammar of paths, and the chain of steps that a path is. A path is written as a name with
markers behind it or as markers alone, and goes on with names behind points, each with markers
behind it. Main statement: the texts of this form are those that can be read; reading and writing
are inverse to each other, also for the paths to the values on the way. Text, number of markers and
truncation of a path are those of its chain.
-/

namespace PathRules

open Computability

/-- The number of places in a text at which a word stands. -/
def Text.occurrences (word text : List Char) : Nat :=
  text.tails.countP word.isPrefixOf

/-- Whether one step of a chain may come right before another one: a name is looked up in a map, an
element has no name, and nothing comes behind the value that the path leads to. -/
def Step.LeadsTo (s t : Step) : Prop :=
  match s.kind with
  | .element => False
  | .object => t.name.isSome = true
  | .array => t.name = none

/-- What a step adds to the text of a path: its name, and how the way goes on. -/
def Step.text (s : Step) : String :=
  match s.kind with
  | .element => s.name.getD ""
  | .object => s.name.getD "" ++ "."
  | .array => s.name.getD "" ++ "[]"

/-- A step as the last one of a chain. -/
def Step.leaf (s : Step) : Step :=
  { s with kind := .element }

namespace Path

/-! ### Texts of paths -/

def names : Language Char :=
  {cs | cs ≠ [] ∧ ∀ c ∈ cs, IsNameChar c}

def marker : Language Char :=
  {['[', ']']}

def point : Language Char :=
  {['.']}

/-- What may stand behind a name or a marker. -/
def tails : Language Char :=
  marker∗ * (point * (names * marker∗))∗

/-- The texts of paths other than the root. -/
def grammar : Language Char :=
  (names * marker∗ + marker * marker∗) * (point * (names * marker∗))∗

theorem grammar_eq : grammar = (names + marker) * tails := by
  rw [grammar, tails, ← add_mul, mul_assoc]

theorem toList_mem_names {name : String} : name.toList ∈ names ↔ IsName name := by
  have hempty : name.toList ≠ [] ↔ name ≠ "" := by
    rw [Ne, Ne, ← String.toList_inj]
    simp
  exact and_congr_left fun _ => hempty

theorem nil_mem_tails : [] ∈ tails :=
  Language.append_mem_mul (Language.nil_mem_kstar _) (Language.nil_mem_kstar _)

theorem marker_mul_tails : marker * tails ≤ tails := by
  rw [tails, ← mul_assoc]
  exact mul_le_mul_left mul_kstar_le_kstar _

theorem point_mul_tails : point * (names * tails) ≤ tails := by
  calc point * (names * tails)
      = point * (names * marker∗) * (point * (names * marker∗))∗ := by
        rw [tails, mul_assoc, mul_assoc]
    _ ≤ (point * (names * marker∗))∗ := mul_kstar_le_kstar
    _ = 1 * (point * (names * marker∗))∗ := (one_mul _).symm
    _ ≤ tails := mul_le_mul_left one_le_kstar _

theorem tailText_mem_tails {p : Path} (hp : p.Writable) : (tailText p).toList ∈ tails := by
  induction p with
  | nil => simpa [tailText] using nil_mem_tails
  | cons a rest ih =>
    obtain ⟨ha, hrest⟩ := writable_cons.mp hp
    cases a with
    | each =>
      have hmem : ['[', ']'] ++ (tailText rest).toList ∈ tails :=
        marker_mul_tails (Language.append_mem_mul rfl (ih hrest))
      simpa [tailText] using hmem
    | key name =>
      have hname := toList_mem_names.mpr (ha name rfl)
      have hmem : ['.'] ++ (name.toList ++ (tailText rest).toList) ∈ tails :=
        point_mul_tails (Language.append_mem_mul rfl (Language.append_mem_mul hname (ih hrest)))
      simpa [tailText] using hmem

/-- The texts that paths have behind a name or a marker. -/
def tailTexts : Language Char :=
  {cs | ∃ p : Path, p.Writable ∧ (tailText p).toList = cs}

theorem marker_mul_tailTexts : marker * tailTexts ≤ tailTexts := by
  rintro _ ⟨_, rfl, _, ⟨p, hp, rfl⟩, rfl⟩
  exact ⟨.each :: p, writable_cons.mpr ⟨by simp, hp⟩, by simp [tailText]⟩

theorem writable_cons_key {cs : List Char} (hcs : cs ∈ names) {p : Path} (hp : p.Writable) :
    Writable (.key (String.ofList cs) :: p) := by
  refine writable_cons.mpr ⟨?_, hp⟩
  rintro _ ⟨⟩
  exact toList_mem_names.mp (by simpa using hcs)

theorem point_mul_tailTexts : point * (names * tailTexts) ≤ tailTexts := by
  rintro _ ⟨_, rfl, _, ⟨cs, hcs, _, ⟨p, hp, rfl⟩, rfl⟩, rfl⟩
  exact ⟨.key (String.ofList cs) :: p, writable_cons_key hcs hp, by simp [tailText]⟩

/-- What may stand behind a name or a marker is written by a path. -/
theorem tails_le_tailTexts : tails ≤ tailTexts := by
  have hmarkers : marker∗ * tailTexts ≤ tailTexts := kstar_mul_le_self marker_mul_tailTexts
  refine kstar_mul_le ?_ marker_mul_tailTexts
  apply kstar_le_of_mul_le_right
  · rintro _ rfl
    exact ⟨[], writable_nil, by simp [tailText]⟩
  · calc point * (names * marker∗) * tailTexts
        = point * (names * (marker∗ * tailTexts)) := by
          rw [mul_assoc, mul_assoc]
      _ ≤ point * (names * tailTexts) := mul_le_mul_right (mul_le_mul_right hmarkers _) _
      _ ≤ tailTexts := point_mul_tailTexts

/-- The grammar has the texts of the paths that can be written. -/
theorem mem_grammar_iff {cs : List Char} :
    cs ∈ grammar ↔ ∃ p : Path, p.Writable ∧ p ≠ [] ∧ p.text.toList = cs := by
  rw [grammar_eq]
  constructor
  · rintro ⟨first, hfirst, rest, hrest, rfl⟩
    obtain ⟨p, hp, rfl⟩ := tails_le_tailTexts hrest
    rcases hfirst with hname | rfl
    · exact ⟨.key (String.ofList first) :: p, writable_cons_key hname hp, by simp, by simp [text]⟩
    · refine ⟨.each :: p, writable_cons.mpr ⟨by simp, hp⟩, by simp, by simp [text, tailText]⟩
  · rintro ⟨p, hp, hne, rfl⟩
    cases p with
    | nil => exact absurd rfl hne
    | cons a rest =>
      obtain ⟨ha, hrest⟩ := writable_cons.mp hp
      have hmem := tailText_mem_tails hrest
      cases a with
      | key name =>
        have hname : name.toList ∈ names + marker := Or.inl (toList_mem_names.mpr (ha name rfl))
        simpa [text] using Language.append_mem_mul hname hmem
      | each =>
        have hmarker : ['[', ']'] ∈ names + marker := Or.inr rfl
        simpa [text, tailText] using Language.append_mem_mul hmarker hmem

/-! ### Chains of steps -/

/-- The first accessor decides about the first step and about the name of the next one. -/
theorem exists_stepsFrom_cons (name : Option String) (a : Accessor) :
    ∃ s next, ∀ rest, stepsFrom name (a :: rest) = s :: stepsFrom next rest := by
  cases a <;> exact ⟨_, _, fun _ => rfl⟩

theorem exists_steps_eq (p : Path) : ∃ front name, p.steps = front ++ [⟨.element, name⟩] := by
  have hfrom : ∀ (name : Option String) (p : Path), ∃ front last,
      stepsFrom name p = front ++ [⟨.element, last⟩] := by
    intro name p
    induction p generalizing name with
    | nil => exact ⟨[], name, rfl⟩
    | cons a rest ih =>
      obtain ⟨s, next, hcons⟩ := exists_stepsFrom_cons name a
      obtain ⟨front, last, hrest⟩ := ih next
      exact ⟨s :: front, last, by rw [hcons, hrest, List.cons_append]⟩
  unfold steps
  split
  · exact hfrom _ _
  · exact hfrom _ _

theorem head?_stepsFrom (name : Option String) (p : Path) :
    ∃ s, (stepsFrom name p).head? = some s ∧ s.name = name := by
  rcases p with _ | ⟨_ | _, rest⟩ <;> exact ⟨_, rfl, rfl⟩

theorem isChain_stepsFrom (name : Option String) (p : Path) :
    (stepsFrom name p).IsChain Step.LeadsTo := by
  induction p generalizing name with
  | nil => exact List.isChain_singleton _
  | cons a rest ih =>
    cases a with
    | key k =>
      obtain ⟨s, hs, hname⟩ := head?_stepsFrom (some k) rest
      refine List.isChain_cons.mpr ⟨fun t ht => ?_, ih (some k)⟩
      rw [hs, Option.mem_some_iff] at ht
      simp [Step.LeadsTo, ← ht, hname]
    | each =>
      obtain ⟨s, hs, hname⟩ := head?_stepsFrom none rest
      refine List.isChain_cons.mpr ⟨fun t ht => ?_, ih none⟩
      rw [hs, Option.mem_some_iff] at ht
      simp [Step.LeadsTo, ← ht, hname]

/-- Each step of a path leads to the next one. -/
theorem isChain_steps (p : Path) : p.steps.IsChain Step.LeadsTo := by
  unfold steps
  split <;> exact isChain_stepsFrom _ _

theorem join_stepsFrom (name : Option String) (p : Path) :
    String.join ((stepsFrom name p).map Step.text) = name.getD "" ++ tailText p := by
  induction p generalizing name with
  | nil => simp [stepsFrom, Step.text, tailText]
  | cons a rest ih => cases a <;> simp [stepsFrom, Step.text, tailText, ih, String.append_assoc]

/-- A path is written step by step. -/
theorem join_steps (p : Path) : String.join (p.steps.map Step.text) = p.text := by
  unfold steps text
  split
  · exact join_stepsFrom _ _
  · rw [join_stepsFrom, Option.getD_none, String.empty_append]

theorem countP_stepsFrom (name : Option String) (p : Path) :
    (stepsFrom name p).countP (·.kind = .array) = p.arrayDepth := by
  induction p generalizing name with
  | nil => rfl
  | cons a rest ih => cases a <;> simp [stepsFrom, arrayDepth, ih]

theorem countP_steps (p : Path) : p.steps.countP (·.kind = .array) = p.arrayDepth := by
  unfold steps
  split
  · rw [countP_stepsFrom]
    simp [arrayDepth]
  · exact countP_stepsFrom _ _

theorem modifyLast_leaf_cons (s : Step) {chain : List Step} (h : chain ≠ []) :
    (s :: chain).modifyLast Step.leaf = s :: chain.modifyLast Step.leaf :=
  List.modifyLast_append_of_right_ne_nil Step.leaf [s] chain h

theorem take_stepsFrom_ne_nil (name : Option String) (p : Path) (n : Nat) :
    (stepsFrom name p).take (n + 1) ≠ [] := by
  rcases p with _ | ⟨_ | _, rest⟩ <;> simp [stepsFrom]

theorem stepsFrom_take (name : Option String) (p : Path) (n : Nat) :
    stepsFrom name (p.take n) = ((stepsFrom name p).take (n + 1)).modifyLast Step.leaf := by
  induction n generalizing name p with
  | zero => rcases p with _ | ⟨_ | _, rest⟩ <;> rfl
  | succ n ih =>
    cases p with
    | nil => rfl
    | cons a rest =>
      obtain ⟨s, next, hcons⟩ := exists_stepsFrom_cons name a
      rw [List.take_succ_cons, hcons, hcons, List.take_succ_cons,
        modifyLast_leaf_cons s (take_stepsFrom_ne_nil next rest n), ih]

/-- The path of the first steps has these steps, the last of them as a leaf. -/
theorem steps_truncate (p : Path) (n : Nat) :
    (p.truncate (n + 1)).steps = (p.steps.take (n + 1)).modifyLast Step.leaf := by
  rcases p with _ | ⟨k | _, rest⟩
  · simpa [truncate, steps] using stepsFrom_take none [] n
  · exact stepsFrom_take (some k) rest n
  · have hsteps : steps ((.each :: rest).take n) = stepsFrom none ((.each :: rest).take n) := by
      cases n <;> rfl
    exact hsteps.trans (stepsFrom_take none (.each :: rest) n)

/-! ### Markers -/

theorem occurrences_cons (word : List Char) (c : Char) (cs : List Char) :
    Text.occurrences word (c :: cs) =
      Text.occurrences word cs + if word.isPrefixOf (c :: cs) then 1 else 0 := by
  rw [Text.occurrences, List.tails_cons, List.countP_cons]
  rfl

theorem occurrences_marker_cons_of_ne {c : Char} (hc : c ≠ '[') (cs : List Char) :
    Text.occurrences ['[', ']'] (c :: cs) = Text.occurrences ['[', ']'] cs := by
  rw [occurrences_cons, if_neg, Nat.add_zero]
  simp [List.isPrefixOf, hc.symm]

theorem occurrences_marker_append {cs : List Char} (hcs : ∀ c ∈ cs, c ≠ '[') (rest : List Char) :
    Text.occurrences ['[', ']'] (cs ++ rest) = Text.occurrences ['[', ']'] rest := by
  induction cs with
  | nil => rfl
  | cons c cs ih =>
    rw [List.cons_append, occurrences_marker_cons_of_ne (hcs c List.mem_cons_self),
      ih fun d hd => hcs d (List.mem_cons_of_mem c hd)]

theorem occurrences_marker_each (cs : List Char) :
    Text.occurrences ['[', ']'] ('[' :: ']' :: cs) = Text.occurrences ['[', ']'] cs + 1 := by
  rw [occurrences_cons, occurrences_marker_cons_of_ne (by decide)]
  simp [List.isPrefixOf]

theorem IsName.forall_ne_bracket {name : String} (h : IsName name) : ∀ c ∈ name.toList, c ≠ '[' :=
  fun c hc => (h.2 c hc).2.1

theorem occurrences_tailText {p : Path} (hp : p.Writable) :
    Text.occurrences ['[', ']'] (tailText p).toList = p.arrayDepth := by
  induction p with
  | nil => simp [tailText, Text.occurrences, arrayDepth]
  | cons a rest ih =>
    obtain ⟨ha, hrest⟩ := writable_cons.mp hp
    cases a with
    | each =>
      have htext : (tailText (.each :: rest)).toList = '[' :: ']' :: (tailText rest).toList := by
        simp [tailText]
      rw [htext, occurrences_marker_each, ih hrest]
      simp [arrayDepth]
    | key name =>
      have htext : (tailText (.key name :: rest)).toList =
          '.' :: (name.toList ++ (tailText rest).toList) := by
        simp [tailText]
      rw [htext, occurrences_marker_cons_of_ne (by decide),
        occurrences_marker_append (ha name rfl).forall_ne_bracket, ih hrest]
      simp [arrayDepth]

/-- The markers of a path are those in its text. -/
theorem occurrences_text {p : Path} (hp : p.Writable) :
    Text.occurrences ['[', ']'] p.text.toList = p.arrayDepth := by
  rcases p with _ | ⟨name | _, rest⟩
  · exact occurrences_tailText hp
  · obtain ⟨ha, hrest⟩ := writable_cons.mp hp
    have htext : (text (.key name :: rest)).toList = name.toList ++ (tailText rest).toList := by
      simp [text]
    rw [htext, occurrences_marker_append (ha name rfl).forall_ne_bracket,
      occurrences_tailText hrest]
    simp [arrayDepth]
  · exact occurrences_tailText hp

/-! ### Reading -/

theorem truncate_subset (p : Path) (depth : Nat) : p.truncate depth ⊆ p := by
  unfold truncate
  split
  · exact List.nil_subset p
  · exact List.cons_subset_cons _ (List.take_subset _ _)
  · exact List.take_subset _ _

theorem exists_ofString_iff {s : String} :
    (∃ p, ofString s = .ok p) ↔ s.toList ∈ grammar := by
  rw [mem_grammar_iff]
  constructor
  · rintro ⟨p, hread⟩
    refine ⟨p, writable_of_ofString hread, ?_, by rw [text_of_ofString hread]⟩
    rintro rfl
    have hs : s = "" := (text_of_ofString hread).symm
    rw [hs] at hread
    cases hread
  · rintro ⟨p, hp, hne, htext⟩
    refine ⟨p, ?_⟩
    rw [← String.toList_inj.mp htext]
    exact ofString_text hp hne

/-- Reading accepts the grammar and nothing else. What is read is written as it was, step by step,
has a marker for each one in the text, and is a chain of steps in which each leads to the next one.
Its truncations are the first steps of this chain with a leaf at the end, and each of them other
than the root is read back from its own text. -/
theorem ofString_grammar (s : String) :
    ((∃ p, ofString s = .ok p) ↔ s.toList ∈ grammar) ∧
      ∀ p, ofString s = .ok p →
        p.text = s ∧
        String.join (p.steps.map Step.text) = s ∧
        (∃ front name, p.steps = front ++ [⟨.element, name⟩]) ∧
        p.steps.IsChain Step.LeadsTo ∧
        p.arrayDepth = Text.occurrences ['[', ']'] s.toList ∧
        p.steps.countP (·.kind = .array) = p.arrayDepth ∧
        (∀ n, (p.truncate (n + 1)).steps = (p.steps.take (n + 1)).modifyLast Step.leaf) ∧
        ∀ depth, p.truncate depth ≠ root →
          ofString (p.truncate depth).text = .ok (p.truncate depth) := by
  refine ⟨exists_ofString_iff, fun p hread => ?_⟩
  have hp := writable_of_ofString hread
  have htext := text_of_ofString hread
  have hmarkers : p.arrayDepth = Text.occurrences ['[', ']'] s.toList := by
    rw [← htext, occurrences_text hp]
  refine ⟨htext, (join_steps p).trans htext, exists_steps_eq p, isChain_steps p, hmarkers,
    countP_steps p, steps_truncate p, fun depth hroot => ?_⟩
  exact ofString_text (hp.of_subset (truncate_subset p depth)) hroot

theorem ofString_grammar_orders :
    "orders[][].id".toList ∈ grammar ∧
      ofString "orders[][].id" = .ok [.key "orders", .each, .each, .key "id"] ∧
      ofString "orders[]" = .ok [.key "orders", .each] := by
  have hread : ofString "orders[][].id" = .ok [.key "orders", .each, .each, .key "id"] := by cbv
  obtain ⟨hgrammar, hpath⟩ := ofString_grammar "orders[][].id"
  obtain ⟨-, -, -, -, -, -, -, htruncate⟩ := hpath _ hread
  exact ⟨hgrammar.mp ⟨_, hread⟩, hread, htruncate 2 (by decide)⟩

end Path
end PathRules

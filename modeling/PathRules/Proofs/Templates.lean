import Mathlib
import PathRules.Message
import PathRules.Proofs.Edits
import PathRules.Proofs.Schedule
/-!
Templates. A template is cut from left to right into the names of placeholders and the characters
between them; the longest name that stands at a colon is cut off. Main statement: there is just one
such cut, whatever the values of the placeholders are, and the text of a key is what the pieces of
the cut of its template are replaced with.
-/

namespace PathRules

namespace Message

/-- A piece of a template. -/
inductive Piece where
  | copied (c : Char)
  | placed (name : String)
  deriving DecidableEq, Repr

namespace Piece

/-- What a piece is in the template. -/
def source : Piece → List Char
  | copied c => [c]
  | placed name => name.toList

/-- What a piece becomes: a name becomes the value of the first placeholder of this name. -/
def text (placeholders : List (String × String)) : Piece → String
  | copied c => String.singleton c
  | placed name => (Keyed.get? placeholders name).getD ""

end Piece

/-- Whether a name is the longest of those that stand at the start of a text. -/
structure IsLongest (names : List String) (text : List Char) (name : String) : Prop where
  mem : name ∈ names
  stands : name.toList <+: text
  longest : ∀ other ∈ names, other.toList <+: text → other.length ≤ name.length

/-- The cut of a text at the names of placeholders. -/
inductive Cut (names : List String) : List Char → List Piece → Prop
  | done : Cut names [] []
  | copy {c : Char} {rest : List Char} {pieces : List Piece}
      (hnone : c = ':' → ∀ name ∈ names, ¬ name.toList <+: c :: rest)
      (hrest : Cut names rest pieces) : Cut names (c :: rest) (.copied c :: pieces)
  | place {rest : List Char} {name : String} {pieces : List Piece}
      (hlongest : IsLongest names (':' :: rest) name)
      (hrest : Cut names ((':' :: rest).drop name.length) pieces) :
      Cut names (':' :: rest) (.placed name :: pieces)

variable {names : List String} {text : List Char} {name : String}

theorem IsLongest.unique {other : String} (h : IsLongest names text name)
    (h' : IsLongest names text other) : other = name := by
  have hlength : other.toList.length = name.toList.length := by
    rw [String.length_toList, String.length_toList]
    exact Nat.le_antisymm (h.longest other h'.mem h'.stands) (h'.longest name h.mem h.stands)
  have hbegins := List.prefix_of_prefix_length_le h'.stands h.stands hlength.le
  exact String.toList_inj.mp (hbegins.eq_of_length hlength)

theorem IsLongest.ne_empty (h : IsLongest names text name) (hnames : "" ∉ names) : name ≠ "" := by
  rintro rfl
  exact hnames h.mem

theorem exists_isLongest (h : name ∈ names) (hstands : name.toList <+: text) :
    ∃ other, IsLongest names text other := by
  have hmem : name ∈ (names.filter (·.toList <+: text)).toFinset := by simp [h, hstands]
  obtain ⟨other, hother, hlongest⟩ := Finset.exists_max_image _ String.length ⟨name, hmem⟩
  simp only [List.mem_toFinset, List.mem_filter, decide_eq_true_eq] at hother hlongest
  exact ⟨other, hother.1, hother.2, fun third hthird hbegins => hlongest third ⟨hthird, hbegins⟩⟩

/-- Every text has a cut, unless a placeholder has no name. -/
theorem exists_cut (hnames : "" ∉ names) (text : List Char) : ∃ pieces, Cut names text pieces := by
  induction hlength : text.length using Nat.strong_induction_on generalizing text with
  | _ length ih =>
    cases text with
    | nil => exact ⟨[], .done⟩
    | cons c rest =>
      by_cases hsome : c = ':' ∧ ∃ name ∈ names, name.toList <+: c :: rest
      · obtain ⟨rfl, name, hname, hstands⟩ := hsome
        obtain ⟨name, hlongest⟩ := exists_isLongest hname hstands
        -- What is left behind the name is shorter, since the name is not empty.
        have hname : 0 < name.length := by
          rw [Nat.pos_iff_ne_zero, Ne, String.length_eq_zero_iff]
          exact hlongest.ne_empty hnames
        have htext : 0 < length := by simp [← hlength]
        have hshorter : ((':' :: rest).drop name.length).length < length := by
          rw [List.length_drop, hlength]
          omega
        obtain ⟨pieces, hpieces⟩ := ih _ hshorter _ rfl
        exact ⟨.placed name :: pieces, .place hlongest hpieces⟩
      · have hnone : c = ':' → ∀ name ∈ names, ¬ name.toList <+: c :: rest :=
          fun hc name hname hstands => hsome ⟨hc, name, hname, hstands⟩
        obtain ⟨pieces, hpieces⟩ := ih rest.length (by simp [← hlength]) rest rfl
        exact ⟨.copied c :: pieces, .copy hnone hpieces⟩

/-- A text has at most one cut. -/
theorem Cut.unique {pieces others : List Piece} (h : Cut names text pieces)
    (h' : Cut names text others) : others = pieces := by
  induction h generalizing others with
  | done =>
    cases h'
    rfl
  | copy hnone hrest ih =>
    cases h' with
    | copy hnone' hrest' => rw [ih hrest']
    | place hlongest' hrest' => exact absurd hlongest'.stands (hnone rfl _ hlongest'.mem)
  | place hlongest hrest ih =>
    cases h' with
    | copy hnone' hrest' => exact absurd hlongest.stands (hnone' rfl _ hlongest.mem)
    | place hlongest' hrest' =>
      obtain rfl := hlongest.unique hlongest'
      rw [ih hrest']

/-- The pieces of a cut make up the text. -/
theorem Cut.flatMap_source {pieces : List Piece} (h : Cut names text pieces) :
    pieces.flatMap Piece.source = text := by
  induction h with
  | done => rfl
  | copy hnone hrest ih => rw [List.flatMap_cons, ih]; rfl
  | @place rest name pieces hlongest hrest ih =>
    rw [List.flatMap_cons, ih, Piece.source]
    obtain ⟨after, hafter⟩ := hlongest.stands
    rw [← hafter, ← String.length_toList, List.drop_left]

/-! ### The placeholder that is tried first -/

theorem exists_append_of_prefix {name other : String} (h : name.toList <+: other.toList) :
    ∃ after, name ++ after = other := by
  obtain ⟨after, hafter⟩ := h
  exact ⟨String.ofList after, String.toList_inj.mp (by simp [hafter])⟩

theorem utf8ByteSize_le_of_prefix {name other : String} (h : name.toList <+: other.toList) :
    name.utf8ByteSize ≤ other.utf8ByteSize := by
  obtain ⟨after, rfl⟩ := exists_append_of_prefix h
  rw [String.utf8ByteSize_append]
  exact Nat.le_add_right _ _

/-- Of the names that stand at one place, no two are of one size. -/
theorem eq_of_utf8ByteSize_eq {other : String} (h : name.toList <+: text)
    (h' : other.toList <+: text) (hsize : name.utf8ByteSize = other.utf8ByteSize) :
    name = other := by
  have hlonger : ∀ {a b : String}, a.toList <+: b.toList → a.utf8ByteSize = b.utf8ByteSize →
      a = b := by
    intro a b hbegins hsize
    obtain ⟨after, rfl⟩ := exists_append_of_prefix hbegins
    have hafter : after = "" := by
      rw [String.utf8ByteSize_append] at hsize
      exact String.utf8ByteSize_eq_zero_iff.mp (by omega)
    rw [hafter, String.append_empty]
  rcases List.prefix_or_prefix_of_prefix h h' with hbegins | hbegins
  · exact hlonger hbegins hsize
  · exact (hlonger hbegins hsize.symm).symm

/-- Of the placeholders in the order in which they are tried, the first that fits is the first one
of the longest name that stands there. -/
theorem IsLongest.placeholderAt? {placeholders : List (String × String)}
    (h : IsLongest (placeholders.map Prod.fst) text name) (hname : name ≠ "") :
    placeholderAt? (byLength placeholders) text =
      some (name, (Keyed.get? placeholders name).getD "") := by
  refine Schedule.find?_mergeSort (fun e : String × String => e.1.utf8ByteSize) ?_ ?_
  · rintro ⟨other, value⟩ hmem hstands
    simp only [Bool.and_eq_true, List.isPrefixOf_iff_prefix] at hstands
    have hlength := h.longest other (List.mem_map_of_mem hmem) hstands.2
    rw [← String.length_toList, ← String.length_toList] at hlength
    exact utf8ByteSize_le_of_prefix (List.prefix_of_prefix_length_le hstands.2 h.stands hlength)
  · -- Among the names of one size, only the name itself stands there.
    have hfits : ∀ e : String × String, (e.1.utf8ByteSize == name.utf8ByteSize &&
        (!e.1.isEmpty && e.1.toList.isPrefixOf text)) = decide (e.1 = name) := by
      intro e
      rw [Bool.eq_iff_iff]
      simp only [Bool.and_eq_true, beq_iff_eq, Bool.not_eq_true', decide_eq_true_eq,
        List.isPrefixOf_iff_prefix]
      constructor
      · rintro ⟨hsize, -, hstands⟩
        exact eq_of_utf8ByteSize_eq hstands h.stands hsize
      · rintro rfl
        exact ⟨rfl, by simpa using hname, h.stands⟩
    rw [List.find?_filter]
    simp only [Bool.decide_and, Bool.decide_eq_true, hfits]
    obtain ⟨value, hvalue⟩ : ∃ value, Keyed.get? placeholders name = some value :=
      Option.ne_none_iff_exists'.mp fun hnone => (Keyed.get?_eq_none_iff _ _).mp hnone h.mem
    rw [Keyed.find?_key, hvalue]
    rfl

theorem placeholderAt?_eq_none {placeholders : List (String × String)}
    (h : ∀ name ∈ placeholders.map Prod.fst, ¬ name.toList <+: text) :
    placeholderAt? (byLength placeholders) text = none := by
  rw [placeholderAt?, List.find?_eq_none]
  rintro ⟨name, value⟩ hmem
  have hplaceholder : (name, value) ∈ placeholders := (List.mergeSort_perm _ _).subset hmem
  have hnot := h name (List.mem_map_of_mem hplaceholder)
  simp [hnot]

/-! ### Filling -/

theorem fillFrom_eq_drop (placeholders : List (String × String)) (skip : Nat) (text : List Char) :
    fillFrom placeholders skip text = fillFrom placeholders 0 (text.drop skip) := by
  induction text generalizing skip with
  | nil => simp [fillFrom]
  | cons c rest ih =>
    cases skip with
    | zero => rfl
    | succ skip => rw [fillFrom, ih, List.drop_succ_cons]

/-- A text is filled piece by piece. -/
theorem Cut.fillFrom {placeholders : List (String × String)} {pieces : List Piece}
    (hnames : "" ∉ placeholders.map Prod.fst)
    (h : Cut (placeholders.map Prod.fst) text pieces) :
    fillFrom (byLength placeholders) 0 text =
      (String.join (pieces.map (Piece.text placeholders))).toList := by
  induction h with
  | done => rfl
  | @copy c rest pieces hnone hrest ih =>
    rw [List.map_cons, String.join_cons, String.toList_append, ← ih, Message.fillFrom, Piece.text,
      String.toList_singleton]
    split
    next hc =>
      simp only [placeholderAt?_eq_none (hnone hc)]
      rw [hc]
      rfl
    next => rfl
  | @place rest name pieces hlongest hrest ih =>
    have hname := hlongest.ne_empty hnames
    obtain ⟨n, hn⟩ : ∃ n, name.length = n + 1 :=
      Nat.exists_eq_succ_of_ne_zero (mt String.length_eq_zero_iff.mp hname)
    rw [List.map_cons, String.join_cons, String.toList_append, ← ih, Message.fillFrom, if_pos rfl]
    simp only [hlongest.placeholderAt? hname, hn, Nat.add_sub_cancel, List.drop_succ_cons]
    rw [fillFrom_eq_drop, Piece.text]

/-- For the names of placeholders, every template has just one cut, and the text of its key is what
the pieces of the cut are replaced with. -/
theorem table_fills_cut (names : List String) (hnames : "" ∉ names) (template : String) :
    ∃ pieces, Cut names template.toList pieces ∧
      (∀ others, Cut names template.toList others → others = pieces) ∧
      pieces.flatMap Piece.source = template.toList ∧
      ∀ (templates placeholders : List (String × String)) (key : String),
        Keyed.get? templates key = some template → placeholders.map Prod.fst = names →
          table templates key placeholders =
            String.join (pieces.map (Piece.text placeholders)) := by
  obtain ⟨pieces, hpieces⟩ := exists_cut hnames template.toList
  refine ⟨pieces, hpieces, fun others => hpieces.unique, hpieces.flatMap_source, ?_⟩
  rintro templates placeholders key hkey rfl
  rw [table, hkey]
  simp only
  rw [fill, hpieces.fillFrom hnames, String.ofList_toList]

/-- Names that begin one another, one given twice, and values that look like names. -/
def overlapping : List (String × String) :=
  [(":min", "1"), (":field", "note :min"), (":minimum", ":least"), (":min", "2")]

theorem table_fills_cut_overlapping :
    let template := ":field:: :minimum:min, :max é:min"
    "" ∉ overlapping.map Prod.fst ∧
      ∃ pieces, Cut (overlapping.map Prod.fst) template.toList pieces ∧
        table [("between", template)] "between" overlapping =
          String.join (pieces.map (Piece.text overlapping)) ∧
        String.join (pieces.map (Piece.text overlapping)) = "note :min:: :least1, :max é1" := by
  intro template
  have hnames : "" ∉ overlapping.map Prod.fst := by decide
  obtain ⟨pieces, hpieces, -, -, htable⟩ :=
    table_fills_cut (overlapping.map Prod.fst) hnames template
  have hfilled := htable [("between", template)] overlapping "between" rfl rfl
  have hvalue : table [("between", template)] "between" overlapping =
      "note :min:: :least1, :max é1" := by
    cbv
  exact ⟨hnames, pieces, hpieces, hfilled, hfilled.symm.trans hvalue⟩

end Message
end PathRules

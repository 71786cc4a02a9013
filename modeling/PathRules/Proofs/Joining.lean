import PathRules.Proofs.PathText
/-!
Joined paths. Behind another text, the text of a path is attached with a point, or directly where it
starts with a marker. Main statements: a joined text denotes the path that its first part denotes
with that of the second behind it, and denotes none where one of them does not; the steps of a path
are the first ones of what is behind it.
-/

namespace PathRules.Path

/-- The characters of a text as it stands behind another one. -/
def attached (s : String) : List Char :=
  if s.toList.head? = some '[' then s.toList else '.' :: s.toList

theorem attached_inj {s t : String} (h : attached s = attached t) : s = t := by
  have hdot : ∀ {s t : String}, s.toList.head? = some '[' → s.toList ≠ '.' :: t.toList := by
    intro s t hs heq
    rw [heq] at hs
    simp at hs
  unfold attached at h
  split at h
  · next hs =>
    split at h
    · exact String.toList_inj.mp h
    · exact absurd h (hdot hs)
  · split at h
    · next ht => exact absurd h.symm (hdot ht)
    · exact String.toList_inj.mp (List.cons.inj h).2

/-- An attached text starts with a point or a bracket. -/
theorem exists_attached_eq (s : String) :
    ∃ c rest, attached s = c :: rest ∧ (c = '.' ∨ c = '[') := by
  unfold attached
  split
  · next hs =>
    obtain ⟨rest, hrest⟩ := List.head?_eq_some_iff.mp hs
    exact ⟨'[', rest, hrest, Or.inr rfl⟩
  · exact ⟨'.', s.toList, rfl, Or.inl rfl⟩

theorem joinText_empty_left (s : String) : joinText "" s = s := by
  simp [joinText]

theorem joinText_empty_right (s : String) : joinText s "" = s := by
  unfold joinText
  split
  · next hs => exact (String.isEmpty_iff.mp hs).symm
  · simp

theorem toList_joinText {s t : String} (hs : s ≠ "") (ht : t ≠ "") :
    (joinText s t).toList = s.toList ++ attached t := by
  simp only [joinText, attached, String.isEmpty_iff, hs, ht, if_false]
  split <;> simp

theorem joinText_ne_empty {s : String} (hs : s ≠ "") (t : String) : joinText s t ≠ "" := by
  by_cases ht : t = ""
  · rwa [ht, joinText_empty_right]
  · intro hempty
    have hlist := toList_joinText hs ht
    rw [hempty] at hlist
    simp [hs] at hlist

theorem attached_joinText {s t : String} (hs : s ≠ "") (ht : t ≠ "") :
    attached (joinText s t) = attached s ++ attached t := by
  have hne : s.toList ≠ [] := by simpa using hs
  have hlist := toList_joinText hs ht
  have hhead : (joinText s t).toList.head? = s.toList.head? := by
    rw [hlist, List.head?_append, List.head?_eq_some_head hne, Option.some_or]
  rw [attached, hhead, hlist, attached.eq_def s]
  split <;> rfl

/-- Texts can be joined in any grouping. -/
theorem joinText_assoc (s t u : String) :
    joinText (joinText s t) u = joinText s (joinText t u) := by
  by_cases hs : s = ""
  · rw [hs, joinText_empty_left, joinText_empty_left]
  by_cases ht : t = ""
  · rw [ht, joinText_empty_right, joinText_empty_left]
  by_cases hu : u = ""
  · rw [hu, joinText_empty_right, joinText_empty_right]
  apply String.toList_inj.mp
  rw [toList_joinText (joinText_ne_empty hs t) hu, toList_joinText hs ht,
    toList_joinText hs (joinText_ne_empty ht u), attached_joinText ht hu, List.append_assoc]

/-- The paths that a text denotes are those that are written as it is. -/
theorem ofStringOrRoot_eq_ok_iff {s : String} {p : Path} :
    ofStringOrRoot s = .ok p ↔ p.Writable ∧ p.text = s := by
  constructor
  · exact fun h => ⟨writable_of_ofStringOrRoot h, text_of_ofStringOrRoot h⟩
  · rintro ⟨hp, rfl⟩
    exact ofStringOrRoot_text hp

theorem ofString_eq_ok_iff {s : String} {p : Path} :
    ofString s = .ok p ↔ ofStringOrRoot s = .ok p ∧ p ≠ [] := by
  constructor
  · intro h
    have hp := writable_of_ofString h
    have htext := text_of_ofString h
    refine ⟨ofStringOrRoot_eq_ok_iff.mpr ⟨hp, htext⟩, ?_⟩
    rintro rfl
    rw [← htext] at h
    cases h
  · rintro ⟨h, hne⟩
    obtain ⟨hp, rfl⟩ := ofStringOrRoot_eq_ok_iff.mp h
    exact ofString_text hp hne

/-- Behind a name or a marker, the text of a path is attached. -/
theorem toList_tailText {p : Path} (hp : p.Writable) (hne : p ≠ []) :
    (tailText p).toList = attached p.text := by
  cases p with
  | nil => exact absurd rfl hne
  | cons a rest =>
    cases a with
    | each => simp [attached, text, tailText]
    | key name =>
      obtain ⟨hname, hchars⟩ := (writable_cons.mp hp).1 name rfl
      cases hlist : name.toList with
      | nil => exact absurd (String.toList_inj.mp (by simpa using hlist)) hname
      | cons c cs =>
        have hc := (hchars c (hlist ▸ List.mem_cons_self)).2.1
        simp [attached, text, tailText, hlist, hc]

/-- A path with another one behind it is written as the joined texts. -/
theorem text_append_eq_joinText {p q : Path} (hp : p.Writable) (hq : q.Writable) :
    text (p ++ q) = joinText p.text q.text := by
  by_cases hpne : p = []
  · subst hpne
    exact (joinText_empty_left _).symm
  by_cases hqne : q = []
  · subst hqne
    rw [List.append_nil]
    exact (joinText_empty_right _).symm
  apply String.toList_inj.mp
  rw [text_append hpne, String.toList_append, toList_tailText hq hqne,
    toList_joinText (text_ne_empty hp hpne) (text_ne_empty hq hqne)]

/-- A path behind the one that a text denotes is written behind that text. -/
theorem text_append_of_ofString {s : String} {p q : Path} (hs : ofString s = .ok p)
    (hq : q.Writable) : text (p ++ q) = joinText s q.text := by
  rw [text_append_eq_joinText (writable_of_ofString hs) hq, text_of_ofString hs]

/-- Of the text of one accessor, only the first character is a point or an opening bracket. -/
theorem separator_of_mem_tail {a : Accessor} (ha : ∀ name, a = .key name → IsName name) {c : Char}
    (hc : c ∈ (tailText [a]).toList.tail) : c ≠ '.' ∧ c ≠ '[' := by
  cases a with
  | each =>
    have hclose : c = ']' := by simpa [tailText] using hc
    rw [hclose]
    decide
  | key name =>
    have hname : c ∈ name.toList := by simpa [tailText] using hc
    have hchar := (ha name rfl).2 c hname
    exact ⟨hchar.1, hchar.2.1⟩

/-- A path whose text goes on with a point or a bracket goes on with an accessor there. -/
theorem exists_append_of_tailText {q : Path} (hq : q.Writable) {c : Char}
    (hc : c = '.' ∨ c = '[') {cs rest : List Char} (h : (tailText q).toList = cs ++ c :: rest) :
    ∃ p r : Path, q = p ++ r ∧ (tailText p).toList = cs ∧ (tailText r).toList = c :: rest := by
  induction q generalizing cs with
  | nil => simp [tailText] at h
  | cons a q ih =>
    have ha := writable_cons.mp hq
    have htext : ∀ p : Path,
        (tailText (a :: p)).toList = (tailText [a]).toList ++ (tailText p).toList := by
      intro p
      rw [← List.singleton_append, tailText_append, String.toList_append]
    have hbelow : ∀ more, (tailText q).toList = more ++ c :: rest →
        (tailText [a]).toList ++ more = cs → ∃ p r : Path, a :: q = p ++ r ∧
          (tailText p).toList = cs ∧ (tailText r).toList = c :: rest := by
      intro more hmore hcs
      obtain ⟨p, r, rfl, hp, hr⟩ := ih ha.2 hmore
      exact ⟨a :: p, r, rfl, by rw [htext, hp, hcs], hr⟩
    have hsame := h
    rw [htext, List.append_eq_append_iff] at hsame
    rcases hsame with ⟨more, hcs, hmore⟩ | ⟨more, hfirst, hrest⟩
    · exact hbelow more hmore hcs.symm
    · cases more with
      | nil =>
        rw [List.append_nil] at hfirst
        exact hbelow [] hrest.symm (by rw [hfirst, List.append_nil])
      | cons d more =>
        obtain ⟨rfl, -⟩ := List.cons.inj hrest
        cases cs with
        | nil => exact ⟨[], a :: q, rfl, rfl, h⟩
        | cons e cs =>
          have hmem : c ∈ (tailText [a]).toList.tail := by simp [hfirst]
          have hno := separator_of_mem_tail ha.1 hmem
          rcases hc with rfl | rfl
          · exact absurd rfl hno.1
          · exact absurd rfl hno.2

theorem exists_of_text_eq_joinText {q : Path} (hq : q.Writable) {s t : String} (hs : s ≠ "")
    (ht : t ≠ "") (h : q.text = joinText s t) :
    ∃ p r : Path, q = p ++ r ∧ p.text = s ∧ r.text = t := by
  have hne : q ≠ [] := by
    rintro rfl
    exact joinText_ne_empty hs t h.symm
  obtain ⟨c, rest, hrest, hc⟩ := exists_attached_eq t
  have htail : (tailText q).toList = attached s ++ c :: rest := by
    rw [toList_tailText hq hne, h, attached_joinText hs ht, hrest]
  obtain ⟨p, r, rfl, hp, hr⟩ := exists_append_of_tailText hq hc htail
  have htext : ∀ {p : Path} {s : String}, p.Writable → (tailText p).toList = attached s →
      p.text = s := by
    intro p s hp hps
    apply attached_inj
    rw [← hps, toList_tailText hp]
    rintro rfl
    obtain ⟨c, rest, hrest, -⟩ := exists_attached_eq s
    rw [hrest] at hps
    simp [tailText] at hps
  exact ⟨p, r, rfl, htext (hq.of_subset (by simp)) hp,
    htext (hq.of_subset (by simp)) (hr.trans hrest.symm)⟩

/-- A joined text denotes the path that its first part denotes with that of the second behind it. -/
theorem ofStringOrRoot_joinText_iff {s t : String} {q : Path} :
    ofStringOrRoot (joinText s t) = .ok q ↔
      ∃ p r, ofStringOrRoot s = .ok p ∧ ofStringOrRoot t = .ok r ∧ q = p ++ r := by
  constructor
  · intro h
    by_cases hs : s = ""
    · subst hs
      rw [joinText_empty_left] at h
      exact ⟨[], q, rfl, h, rfl⟩
    by_cases ht : t = ""
    · subst ht
      rw [joinText_empty_right] at h
      exact ⟨q, [], h, rfl, (List.append_nil q).symm⟩
    obtain ⟨hq, htext⟩ := ofStringOrRoot_eq_ok_iff.mp h
    obtain ⟨p, r, rfl, rfl, rfl⟩ := exists_of_text_eq_joinText hq hs ht htext
    exact ⟨p, r, ofStringOrRoot_text (hq.of_subset (by simp)),
      ofStringOrRoot_text (hq.of_subset (by simp)), rfl⟩
  · rintro ⟨p, r, hread, hread', rfl⟩
    obtain ⟨hp, rfl⟩ := ofStringOrRoot_eq_ok_iff.mp hread
    obtain ⟨hr, rfl⟩ := ofStringOrRoot_eq_ok_iff.mp hread'
    exact ofStringOrRoot_eq_ok_iff.mpr ⟨hp.append hr, text_append_eq_joinText hp hr⟩

theorem ofStringOrRoot_of_ne_empty {s : String} (hs : s ≠ "") :
    ofStringOrRoot s = ofString s := by
  rw [ofStringOrRoot, if_neg (by simpa using hs)]

/-- A text joined of two that are not empty can be read where both of them can. -/
theorem ofString_joinText_iff {s t : String} (hs : s ≠ "") (ht : t ≠ "") {q : Path} :
    ofString (joinText s t) = .ok q ↔
      ∃ p r, ofString s = .ok p ∧ ofString t = .ok r ∧ q = p ++ r := by
  rw [← ofStringOrRoot_of_ne_empty (joinText_ne_empty hs t), ← ofStringOrRoot_of_ne_empty hs,
    ← ofStringOrRoot_of_ne_empty ht]
  exact ofStringOrRoot_joinText_iff

/-! ### Steps -/

/-- The number of steps of a path that a rule set composed under it has in front of its own. -/
def scopeDepth (p : Path) : Nat :=
  if p.isRoot then 0 else p.depth

theorem scopeDepth_of_ne_nil {p : Path} (hp : p ≠ []) : p.scopeDepth = p.depth := by
  simp [scopeDepth, isRoot, hp]

/-- The steps of a path and some more lead as far into what is behind it. -/
theorem truncate_append {p : Path} (hp : p ≠ []) (q : Path) (n : Nat) :
    (p ++ q).truncate (p.depth + n) = p ++ q.take n := by
  rcases p with _ | ⟨_ | _, rest⟩
  · exact absurd rfl hp
  · have hsteps : rest.length + 1 + n = rest.length + n + 1 := by omega
    simp [depth, truncate, hsteps, List.take_append, List.take_of_length_le]
  · have hsteps : rest.length + 1 + 1 + n = rest.length + 1 + n + 1 := by omega
    have htake : rest.length + 1 + n = rest.length + n + 1 := by omega
    simp [depth, truncate, hsteps, htake, List.take_append, List.take_of_length_le]

theorem truncate_scopeDepth (p q : Path) : (p ++ q).truncate p.scopeDepth = p := by
  by_cases hp : p = []
  · subst hp
    rfl
  · rw [scopeDepth_of_ne_nil hp]
    have h := truncate_append hp q 0
    rwa [Nat.add_zero, List.take_zero, List.append_nil] at h

theorem truncate_prefix (p : Path) (n : Nat) : p.truncate n <+: p := by
  unfold truncate
  split
  · exact List.nil_prefix
  · exact (List.prefix_cons_inj _).mpr (List.take_prefix _ _)
  · exact List.take_prefix _ _

/-- Of two truncations one after the other, the one to fewer steps counts. -/
theorem truncate_truncate (p : Path) (m n : Nat) :
    (p.truncate m).truncate n = p.truncate (min m n) := by
  cases m with
  | zero =>
    rw [Nat.zero_min]
    rcases n with _ | n <;> simp [truncate, root]
  | succ m =>
    cases n with
    | zero => simp [truncate]
    | succ n =>
      rw [Nat.succ_min_succ]
      rcases p with _ | ⟨name | _, rest⟩
      · simp [truncate]
      · simp [truncate, List.take_take, Nat.min_comm]
      · rcases m with _ | m
        · simp [truncate]
        · calc (truncate (.each :: rest) (m + 1 + 1)).truncate (n + 1)
              = (List.take (m + 1) (.each :: rest)).take n := rfl
            _ = truncate (.each :: rest) (min (m + 1) n + 1) := by
              rw [List.take_take, Nat.min_comm]
              rfl

/-- As many accessors as a path has steps are the path itself, unless it starts with a marker: then
they are one more where there is one. -/
theorem take_scopeDepth_eq_iff {p q : Path} (h : p <+: q) :
    q.take p.scopeDepth = p ↔ p.head? ≠ some .each ∨ p = q := by
  obtain ⟨rest, rfl⟩ := h
  rcases p with _ | ⟨_ | _, p⟩
  · simp [scopeDepth, isRoot]
  · simp [scopeDepth, isRoot, depth]
  · cases rest <;> simp [scopeDepth, isRoot, depth, List.take_append, List.take_of_length_le]

/-- Truncation undoes joining. Texts can be joined in any grouping; a joined text can be read just
where both of its parts can, and then the path of the first part is its first steps and its markers
are those of both. A truncation to fewer steps can be made in two. -/
theorem truncate_joined :
    (∀ s t u, joinText (joinText s t) u = joinText s (joinText t u)) ∧
    (∀ s t, s ≠ "" → t ≠ "" →
      ((∃ q, ofString (joinText s t) = .ok q) ↔
        (∃ p, ofString s = .ok p) ∧ ∃ r, ofString t = .ok r) ∧
      ∀ q p r, ofString (joinText s t) = .ok q → ofString s = .ok p → ofString t = .ok r →
        q.truncate p.depth = p ∧ q.arrayDepth = p.arrayDepth + r.arrayDepth) ∧
    ∀ (p : Path) (m n : Nat), (p.truncate m).truncate n = p.truncate (min m n) := by
  refine ⟨joinText_assoc, fun s t hs ht => ⟨?_, ?_⟩, truncate_truncate⟩
  · constructor
    · rintro ⟨q, hq⟩
      obtain ⟨p, r, hp, hr, -⟩ := (ofString_joinText_iff hs ht).mp hq
      exact ⟨⟨p, hp⟩, r, hr⟩
    · rintro ⟨⟨p, hp⟩, r, hr⟩
      exact ⟨p ++ r, (ofString_joinText_iff hs ht).mpr ⟨p, r, hp, hr, rfl⟩⟩
  · intro q p r hq hp hr
    have hjoined := (ofString_joinText_iff hs ht).mpr ⟨p, r, hp, hr, rfl⟩
    rw [Except.ok.inj (hq.symm.trans hjoined)]
    have hne : p ≠ [] := (ofString_eq_ok_iff.mp hp).2
    exact ⟨by simpa using truncate_append hne r 0, List.count_append⟩

theorem truncate_joined_orders :
    joinText "orders[]" "[].id" = "orders[][].id" ∧
      ofString "orders[]" = .ok [.key "orders", .each] ∧
      ofString "[].id" = .ok [.each, .key "id"] ∧
      truncate [.key "orders", .each, .each, .key "id"] (depth [.key "orders", .each]) =
        [.key "orders", .each] := by
  have hjoin : joinText "orders[]" "[].id" = "orders[][].id" := by decide
  have hfirst : ofString "orders[]" = .ok [.key "orders", .each] := rfl
  have hsecond : ofString "[].id" = .ok [.each, .key "id"] := rfl
  have hjoined : ofString "orders[][].id" = .ok [.key "orders", .each, .each, .key "id"] := rfl
  have hread := (truncate_joined.2.1 "orders[]" "[].id" (by decide) (by decide)).2
  rw [hjoin] at hread
  exact ⟨hjoin, hfirst, hsecond, (hread _ _ _ hjoined hfirst hsecond).1⟩

end PathRules.Path

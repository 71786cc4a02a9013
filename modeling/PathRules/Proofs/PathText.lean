import PathRules.Path.Reading
/-!
The text of a path. A name can be written when it is not empty and free of points and brackets.
Main statements: a path whose names can be written is read back from its text; what the reader
returns is such a path, and its text is the one that was read. So two such paths with one text are
the same path.
-/

namespace PathRules.Path

/-- Whether a character may stand in a name. -/
def IsNameChar (c : Char) : Prop :=
  c ≠ '.' ∧ c ≠ '[' ∧ c ≠ ']'

/-- Whether a name can be written. -/
def IsName (name : String) : Prop :=
  name ≠ "" ∧ ∀ c ∈ name.toList, IsNameChar c

/-- Whether all names of a path can be written. -/
def Writable (p : Path) : Prop :=
  ∀ name, Accessor.key name ∈ p → IsName name

theorem writable_nil : Writable [] := by
  intro name hname
  simp at hname

theorem writable_cons {a : Accessor} {p : Path} :
    Writable (a :: p) ↔ (∀ name, a = .key name → IsName name) ∧ Writable p := by
  simp only [Writable, List.mem_cons]
  constructor
  · intro h
    exact ⟨fun name ha => h name (Or.inl ha.symm), fun name hp => h name (Or.inr hp)⟩
  · rintro ⟨ha, hp⟩ name (hname | hname)
    · exact ha name hname.symm
    · exact hp name hname

theorem Writable.of_subset {p q : Path} (hp : p.Writable) (hsub : q ⊆ p) : q.Writable :=
  fun name hname => hp name (hsub hname)

theorem Writable.append {p q : Path} (hp : p.Writable) (hq : q.Writable) :
    (p ++ q).Writable := by
  intro name hname
  rcases List.mem_append.mp hname with h | h
  · exact hp name h
  · exact hq name h

theorem tailText_append (p q : Path) : tailText (p ++ q) = tailText p ++ tailText q := by
  induction p with
  | nil => simp [tailText]
  | cons a rest ih => cases a <;> simp [tailText, ih, String.append_assoc]

theorem text_append {p : Path} (hp : p ≠ []) (q : Path) :
    text (p ++ q) = text p ++ tailText q := by
  cases p with
  | nil => exact absurd rfl hp
  | cons a rest => cases a <;> simp [text, tailText, tailText_append, String.append_assoc]

/-- Writing one more accessor: a name goes behind a point unless it is the first. -/
theorem toList_text_concat (p : Path) (a : Accessor) :
    (text (p ++ [a])).toList =
      match a with
      | .key name => (if p = [] then [] else (text p).toList ++ ['.']) ++ name.toList
      | .each => (text p).toList ++ ['[', ']'] := by
  by_cases hp : p = []
  · subst hp
    cases a <;> simp [text, tailText]
  · rw [text_append hp]
    cases a <;> simp [tailText, hp]

namespace Reader

/-- The characters read so far. -/
def written (r : Reader) (done : List Accessor) : List Char :=
  match r with
  | dot => (text done.reverse).toList ++ ['.']
  | r => (text (r.finish done).reverse).toList

/-- What holds of the reader between two characters: a point or a marker has something in front of
it, and a name has a first letter. -/
def Sound (r : Reader) (done : List Accessor) : Prop :=
  Writable done ∧
    match r with
    | start => done = []
    | dot => done ≠ []
    | name letters => letters ≠ [] ∧ ∀ c ∈ letters, IsNameChar c
    | marker => done ≠ []

theorem Sound.writable_finish {r : Reader} {done : List Accessor} (h : r.Sound done) :
    Writable (r.finish done) := by
  rcases h with ⟨hdone, hr⟩
  cases r with
  | name letters =>
    refine writable_cons.mpr ⟨?_, hdone⟩
    intro name hname
    cases hname
    refine ⟨fun hempty => hr.1 ?_, fun c hc => hr.2 c ?_⟩
    · simpa using congrArg String.toList hempty
    · simpa using hc
  | _ => exact hdone

theorem Sound.finish_ne_nil {r : Reader} {done : List Accessor} (h : r.Sound done)
    (hstart : r ≠ start) : r.finish done ≠ [] := by
  rcases h with ⟨-, hr⟩
  cases r with
  | start => exact absurd rfl hstart
  | name letters => simp [finish]
  | dot => exact hr
  | marker => exact hr

theorem written_of_ne_dot {r : Reader} {done : List Accessor} (hdot : r ≠ dot) :
    r.written done = (text (r.finish done).reverse).toList := by
  cases r with
  | dot => exact absurd rfl hdot
  | _ => rfl

/-- A marker is written behind what was read, unless a point came last. -/
theorem written_marker {r : Reader} {done : List Accessor} (hdot : r ≠ dot) :
    marker.written (.each :: r.finish done) = r.written done ++ ['[', ']'] := by
  rw [written_of_ne_dot hdot]
  simp only [written, finish, List.reverse_cons]
  exact toList_text_concat _ .each

theorem written_name (letters : List Char) (done : List Accessor) :
    (name letters).written done =
      (if done = [] then [] else (text done.reverse).toList ++ ['.']) ++ letters.reverse := by
  simp only [written, finish, List.reverse_cons]
  rw [toList_text_concat]
  simp

end Reader

/-- What the reader returns can be written, and is written as what was read and what was left. -/
theorem readFrom_sound {r : Reader} {position : Nat} {done : List Accessor} {cs : List Char}
    {p : Path} (hr : r.Sound done) (h : readFrom r position done cs = .ok p) :
    p.Writable ∧ (text p).toList = r.written done ++ cs := by
  fun_induction readFrom r position done cs with
  | case3 position done r hstart hdot =>
    cases h
    refine ⟨hr.writable_finish.of_subset (by simp), ?_⟩
    rw [Reader.written_of_ne_dot hdot, List.append_nil]
  | case6 position done rest r hstart hdot ih =>
    have hdone : Reader.Sound .dot (r.finish done) := ⟨hr.writable_finish, hr.finish_ne_nil hstart⟩
    obtain ⟨hp, htext⟩ := ih hdone h
    refine ⟨hp, htext.trans ?_⟩
    rw [Reader.written_of_ne_dot hdot]
    simp [Reader.written]
  | case8 position done rest r hdot ih =>
    have hdone : Reader.Sound .marker (.each :: r.finish done) :=
      ⟨writable_cons.mpr ⟨by simp, hr.writable_finish⟩, by simp⟩
    obtain ⟨hp, htext⟩ := ih hdone h
    refine ⟨hp, htext.trans ?_⟩
    rw [Reader.written_marker hdot]
    simp
  | case14 position done c rest hpoint _ hopen hclose letters ih =>
    have hname : Reader.Sound (.name (c :: letters)) done := by
      refine ⟨hr.1, by simp, ?_⟩
      intro d hd
      rcases List.mem_cons.mp hd with rfl | hd
      · exact ⟨hpoint, hopen, hclose⟩
      · exact hr.2.2 d hd
    obtain ⟨hp, htext⟩ := ih hname h
    refine ⟨hp, htext.trans ?_⟩
    simp [Reader.written_name]
  | case15 r position done c rest hpoint _ hopen hclose hmarker hnoname ih =>
    have hname : Reader.Sound (.name [c]) done := by
      refine ⟨hr.1, by simp, ?_⟩
      intro d hd
      rw [List.mem_singleton.mp hd]
      exact ⟨hpoint, hopen, hclose⟩
    obtain ⟨hp, htext⟩ := ih hname h
    refine ⟨hp, htext.trans ?_⟩
    rw [Reader.written_name]
    cases r with
    | start => simp [Reader.written, Reader.finish, hr.2, text, tailText]
    | dot => simp [Reader.written, show done ≠ [] from hr.2]
    | name letters => exact (hnoname letters rfl).elim
    | marker => exact (hmarker rfl).elim
  | _ => simp at h

/-- A path read from a text can be written. -/
theorem writable_of_ofString {s : String} {p : Path} (h : ofString s = .ok p) : p.Writable :=
  (readFrom_sound (r := .start) ⟨writable_nil, rfl⟩ h).1

/-- A path is written as the text that it was read from. -/
theorem text_of_ofString {s : String} {p : Path} (h : ofString s = .ok p) : p.text = s := by
  have htext := (readFrom_sound (r := .start) ⟨writable_nil, rfl⟩ h).2
  apply String.toList_inj.mp
  simpa [Reader.written, Reader.finish, text, tailText] using htext

/-- Reading the rest of a name. -/
theorem readFrom_letters {cs : List Char} (hcs : ∀ c ∈ cs, IsNameChar c) (letters : List Char)
    (position : Nat) (done : List Accessor) (rest : List Char) :
    ∃ next, readFrom (.name letters) position done (cs ++ rest) =
      readFrom (.name (cs.reverse ++ letters)) next done rest := by
  induction cs generalizing letters position with
  | nil => exact ⟨position, rfl⟩
  | cons c cs ih =>
    obtain ⟨hpoint, hopen, hclose⟩ := hcs c List.mem_cons_self
    obtain ⟨next, hnext⟩ := ih (fun d hd => hcs d (List.mem_cons_of_mem c hd)) (c :: letters)
      (position + c.utf8Size)
    refine ⟨next, ?_⟩
    rw [List.cons_append, readFrom.eq_def]
    simp [hopen, hnext]

/-- Reading a name at the start or behind a point. -/
theorem readFrom_name {name : String} (hname : IsName name) {r : Reader}
    (hr : r = .start ∨ r = .dot) (position : Nat) (done : List Accessor) (rest : List Char) :
    ∃ next, readFrom r position done (name.toList ++ rest) =
      readFrom (.name name.toList.reverse) next done rest := by
  obtain ⟨hne, hchars⟩ := hname
  cases hlist : name.toList with
  | nil => exact absurd (String.toList_inj.mp (by simpa using hlist)) hne
  | cons c cs =>
    rw [hlist] at hchars
    obtain ⟨hpoint, hopen, hclose⟩ := hchars c List.mem_cons_self
    obtain ⟨next, hnext⟩ := readFrom_letters (fun d hd => hchars d (List.mem_cons_of_mem c hd))
      [c] (position + c.utf8Size) done rest
    refine ⟨next, ?_⟩
    rw [List.cons_append, readFrom.eq_def]
    rcases hr with rfl | rfl <;> simp [hopen, hnext]

/-- Reading the text of the rest of a path, behind a name or a marker. -/
theorem readFrom_tailText {p : Path} (hp : p.Writable) {r : Reader} (hstart : r ≠ .start)
    (hdot : r ≠ .dot) (position : Nat) (done : List Accessor) :
    readFrom r position done (tailText p).toList = .ok ((r.finish done).reverse ++ p) := by
  induction p generalizing r position done with
  | nil =>
    cases r with
    | start => exact absurd rfl hstart
    | dot => exact absurd rfl hdot
    | _ => simp [tailText, readFrom]
  | cons a rest ih =>
    obtain ⟨ha, hrest⟩ := writable_cons.mp hp
    cases a with
    | each =>
      have hnext := ih hrest (r := .marker) (by simp) (by simp) (position + 2)
        (.each :: r.finish done)
      have hstep : readFrom r position done (tailText (.each :: rest)).toList =
          readFrom .marker (position + 2) (.each :: r.finish done) (tailText rest).toList := by
        cases r with
        | dot => exact absurd rfl hdot
        | _ => simp [tailText, readFrom]
      rw [hstep, hnext]
      simp [Reader.finish]
    | key name =>
      have hstep : readFrom r position done (tailText (.key name :: rest)).toList =
          readFrom .dot (position + 1) (r.finish done) (name.toList ++ (tailText rest).toList) := by
        cases r with
        | start => exact absurd rfl hstart
        | dot => exact absurd rfl hdot
        | _ => simp [tailText, readFrom]
      obtain ⟨next, hnext⟩ := readFrom_name (ha name rfl) (Or.inr rfl) (position + 1)
        (r.finish done) (tailText rest).toList
      rw [hstep, hnext, ih hrest (by simp) (by simp)]
      simp [Reader.finish]

/-- A path other than the root is read back from its text. -/
theorem ofString_text {p : Path} (hp : p.Writable) (hne : p ≠ []) :
    ofString p.text = .ok p := by
  cases p with
  | nil => exact absurd rfl hne
  | cons a rest =>
    obtain ⟨ha, hrest⟩ := writable_cons.mp hp
    unfold ofString
    cases a with
    | each =>
      have hstep : readFrom .start 0 [] (text (.each :: rest)).toList =
          readFrom .marker 2 [.each] (tailText rest).toList := by
        simp [text, tailText, readFrom, Reader.finish]
      rw [hstep, readFrom_tailText hrest (by simp) (by simp)]
      simp [Reader.finish]
    | key name =>
      obtain ⟨next, hnext⟩ := readFrom_name (ha name rfl) (Or.inl rfl) 0 [] (tailText rest).toList
      have htext : (text (.key name :: rest)).toList = name.toList ++ (tailText rest).toList := by
        simp [text]
      rw [htext, hnext, readFrom_tailText hrest (by simp) (by simp)]
      simp [Reader.finish]

theorem text_ne_empty {p : Path} (hp : p.Writable) (hne : p ≠ []) : p.text ≠ "" := by
  intro hempty
  have hread := ofString_text hp hne
  rw [hempty] at hread
  cases hread

/-- A path is read back from its text, where the empty text is the root. -/
theorem ofStringOrRoot_text {p : Path} (hp : p.Writable) : ofStringOrRoot p.text = .ok p := by
  unfold ofStringOrRoot
  by_cases hne : p = []
  · subst hne
    rfl
  · rw [if_neg (by simpa using text_ne_empty hp hne), ofString_text hp hne]

theorem writable_of_ofStringOrRoot {s : String} {p : Path} (h : ofStringOrRoot s = .ok p) :
    p.Writable := by
  unfold ofStringOrRoot at h
  split at h
  · cases h
    exact writable_nil
  · exact writable_of_ofString h

theorem text_of_ofStringOrRoot {s : String} {p : Path} (h : ofStringOrRoot s = .ok p) :
    p.text = s := by
  unfold ofStringOrRoot at h
  split at h
  · next hempty =>
    cases h
    exact (String.isEmpty_iff.mp hempty).symm
  · exact text_of_ofString h

/-- Two paths with one text are the same path. -/
theorem Writable.text_inj {p q : Path} (hp : p.Writable) (hq : q.Writable) :
    p.text = q.text ↔ p = q := by
  constructor
  · intro htext
    have hread := ofStringOrRoot_text hp
    rw [htext, ofStringOrRoot_text hq] at hread
    exact (Except.ok.inj hread).symm
  · exact congrArg text

end PathRules.Path

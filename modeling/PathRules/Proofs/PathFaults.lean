import Mathlib
import PathRules.Proofs.PathText
/-!
Faults of texts that are no paths. A reader passes over characters until it is stuck at one of them
or at the end of the text. Main statement: a text that cannot be read is the beginning of one that
can just when the fault is that it ends too early, and what stands before the place of a fault
always is such a beginning.
-/

namespace PathRules

/-- The byte that a fault names. -/
def PathError.position? : PathError → Option Nat
  | empty => none
  | leadingDot => none
  | trailingDot => none
  | consecutiveDots position => some position
  | unclosedBracket position => some position
  | unopenedBracket position => some position
  | nonEmptyBracket position => some position
  | unexpectedCharacter _ position => some position

namespace Text

/-- The number of bytes of some characters. -/
def byteCount (cs : List Char) : Nat :=
  (String.ofList cs).utf8ByteSize

@[simp] theorem byteCount_nil : byteCount [] = 0 := rfl

@[simp] theorem byteCount_cons (c : Char) (cs : List Char) :
    byteCount (c :: cs) = c.utf8Size + byteCount cs := by
  rw [byteCount, byteCount, ← List.singleton_append, String.ofList_append,
    String.utf8ByteSize_append, ← String.singleton_eq_ofList, String.utf8ByteSize_singleton]

theorem byteCount_append (cs ds : List Char) :
    byteCount (cs ++ ds) = byteCount cs + byteCount ds := by
  rw [byteCount, String.ofList_append, String.utf8ByteSize_append]
  rfl

/-- Two beginnings of a text with as many bytes are the same. -/
theorem eq_of_append_eq {front front' rest rest' : String} (h : front ++ rest = front' ++ rest')
    (hsize : front.utf8ByteSize = front'.utf8ByteSize) : front = front' := by
  have hbytes :
      front.toByteArray ++ rest.toByteArray = front'.toByteArray ++ rest'.toByteArray := by
    simpa using congrArg String.toByteArray h
  exact String.toByteArray_inj.mp (ByteArray.append_inj_left hbytes hsize)

end Text

namespace Path

open Text

/-- Whether a text is the beginning of one that can be read. -/
def Extensible (s : String) : Prop :=
  ∃ more p, ofString (s ++ more) = .ok p

namespace Reader

/-- Whether a reader goes from one state to another over some characters, whatever comes behind
them. -/
def Passes (r : Reader) (position : Nat) (done : List Accessor) (front : List Char) (r' : Reader)
    (done' : List Accessor) : Prop :=
  ∀ more, readFrom r position done (front ++ more) =
    readFrom r' (position + byteCount front) done' more

/-- Whether a reader finds a fault in front of some characters. -/
inductive Stuck : Reader → Nat → List Char → PathError → Prop
  | empty (position : Nat) : Stuck start position [] .empty
  | trailingDot (position : Nat) : Stuck dot position [] .trailingDot
  | leadingDot (position : Nat) (rest : List Char) :
      Stuck start position ('.' :: rest) .leadingDot
  | consecutiveDots (position : Nat) (rest : List Char) :
      Stuck dot position ('.' :: rest) (.consecutiveDots position)
  | markerBehindDot (position : Nat) (rest : List Char) :
      Stuck dot position ('[' :: rest) (.unexpectedCharacter '[' position)
  | nonEmptyBracket {r : Reader} (position : Nat) {rest : List Char} (hr : r ≠ dot)
      (hnext : rest.head? ≠ some ']') (hclose : ']' ∈ rest) :
      Stuck r position ('[' :: rest) (.nonEmptyBracket position)
  | unclosedBracket {r : Reader} (position : Nat) {rest : List Char} (hr : r ≠ dot)
      (hclose : ']' ∉ rest) : Stuck r position ('[' :: rest) (.unclosedBracket position)
  | unopenedBracket (r : Reader) (position : Nat) (rest : List Char) :
      Stuck r position (']' :: rest) (.unopenedBracket position)
  | nameBehindMarker (position : Nat) {c : Char} (hc : IsNameChar c) (rest : List Char) :
      Stuck marker position (c :: rest) (.unexpectedCharacter c position)

theorem Passes.refl (r : Reader) (position : Nat) (done : List Accessor) :
    Passes r position done [] r done :=
  fun _ => rfl

theorem Passes.trans {r r' r'' : Reader} {position : Nat} {done done' done'' : List Accessor}
    {front front' : List Char} (h : Passes r position done front r' done')
    (h' : Passes r' (position + byteCount front) done' front' r'' done'') :
    Passes r position done (front ++ front') r'' done'' := by
  intro more
  rw [List.append_assoc, h, h', byteCount_append, Nat.add_assoc]

theorem passes_dot {r : Reader} (hstart : r ≠ start) (hdot : r ≠ dot) (position : Nat)
    (done : List Accessor) : Passes r position done ['.'] dot (r.finish done) := by
  intro more
  cases r with
  | start => exact absurd rfl hstart
  | dot => exact absurd rfl hdot
  | _ => rfl

theorem passes_marker {r : Reader} (hdot : r ≠ dot) (position : Nat) (done : List Accessor) :
    Passes r position done ['[', ']'] marker (.each :: r.finish done) := by
  intro more
  cases r with
  | dot => exact absurd rfl hdot
  | _ => rfl

theorem passes_letter {c : Char} (hc : IsNameChar c) (letters : List Char) (position : Nat)
    (done : List Accessor) :
    Passes (name letters) position done [c] (name (c :: letters)) done := by
  obtain ⟨hpoint, hopen, hclose⟩ := hc
  intro more
  rw [List.singleton_append, readFrom.eq_def]
  simp [hopen]

theorem passes_first {r : Reader} (hr : r = start ∨ r = dot) {c : Char} (hc : IsNameChar c)
    (position : Nat) (done : List Accessor) : Passes r position done [c] (name [c]) done := by
  obtain ⟨hpoint, hopen, hclose⟩ := hc
  intro more
  rw [List.singleton_append, readFrom.eq_def]
  rcases hr with rfl | rfl <;> simp [hopen]

/-- Whether a reader passes over some characters and finds a fault in front of the others. -/
def Stops (r : Reader) (position : Nat) (done : List Accessor) (cs : List Char) (e : PathError) :
    Prop :=
  ∃ front rest r' done', cs = front ++ rest ∧ Passes r position done front r' done' ∧
    r'.Stuck (position + byteCount front) rest e

theorem Stuck.stops {r : Reader} {position : Nat} {cs : List Char} {e : PathError}
    (h : r.Stuck position cs e) (done : List Accessor) : r.Stops position done cs e :=
  ⟨[], cs, r, done, rfl, .refl r position done, h⟩

theorem Stops.of_passes {r s : Reader} {position : Nat} {done done' : List Accessor}
    {front cs : List Char} {e : PathError} (hpasses : Passes r position done front s done')
    (h : s.Stops (position + byteCount front) done' cs e) :
    r.Stops position done (front ++ cs) e := by
  obtain ⟨front', rest, r', done'', rfl, hlater, hstuck⟩ := h
  refine ⟨front ++ front', rest, r', done'', by simp, hpasses.trans hlater, ?_⟩
  rwa [byteCount_append, ← Nat.add_assoc]

/-- A reader that fails stops at the fault. -/
theorem stops_of_readFrom {r : Reader} {position : Nat} {done : List Accessor} {cs : List Char}
    {e : PathError} (h : readFrom r position done cs = .error e) : r.Stops position done cs e := by
  fun_induction readFrom r position done cs with
  | case1 position done =>
    cases h
    exact (Stuck.empty position).stops done
  | case2 position done =>
    cases h
    exact (Stuck.trailingDot position).stops done
  | case3 position done r hstart hdot => cases h
  | case4 position done rest =>
    cases h
    exact (Stuck.leadingDot position rest).stops done
  | case5 position done rest =>
    cases h
    exact (Stuck.consecutiveDots position rest).stops done
  | case6 position done rest r hstart hdot ih =>
    exact Stops.of_passes (passes_dot hstart hdot position done) (ih h)
  | case7 position done rest =>
    cases h
    exact (Stuck.markerBehindDot position _).stops done
  | case8 position done rest r hdot ih =>
    exact Stops.of_passes (passes_marker hdot position done) (ih h)
  | case9 position done rest hnext =>
    cases h
    exact (Stuck.markerBehindDot position _).stops done
  | case10 position done rest hnext r hdot hclose =>
    cases h
    refine (Stuck.nonEmptyBracket position hdot ?_ (by simpa using hclose)).stops done
    intro hhead
    obtain ⟨rest', hrest⟩ := List.head?_eq_some_iff.mp hhead
    exact hnext rest' hrest
  | case11 position done rest hnext r hdot hclose =>
    cases h
    exact (Stuck.unclosedBracket position hdot (by simpa using hclose)).stops done
  | case12 r position done rest =>
    cases h
    exact (Stuck.unopenedBracket r position rest).stops done
  | case13 position done c rest hpoint _ hopen hclose =>
    cases h
    exact (Stuck.nameBehindMarker position ⟨hpoint, hopen, hclose⟩ rest).stops done
  | case14 position done c rest hpoint _ hopen hclose letters ih =>
    have hpasses := passes_letter ⟨hpoint, hopen, hclose⟩ letters position done
    exact Stops.of_passes hpasses (by simpa using ih h)
  | case15 r position done c rest hpoint _ hopen hclose hmarker hname ih =>
    have hr : r = start ∨ r = dot := by
      cases r with
      | start => exact .inl rfl
      | dot => exact .inr rfl
      | name letters => exact (hname letters rfl).elim
      | marker => exact (hmarker rfl).elim
    have hpasses := passes_first hr ⟨hpoint, hopen, hclose⟩ position done
    exact Stops.of_passes hpasses (by simpa using ih h)

/-- Every reader can be led to a path. -/
theorem exists_readFrom (r : Reader) (position : Nat) (done : List Accessor) :
    ∃ more p, readFrom r position done more = .ok p := by
  cases r with
  | start => exact ⟨['a'], _, rfl⟩
  | dot => exact ⟨['a'], _, rfl⟩
  | name letters => exact ⟨[], _, rfl⟩
  | marker => exact ⟨[], _, rfl⟩

/-- A fault that names a byte names the one it is found at. -/
theorem Stuck.position_eq {r : Reader} {position n : Nat} {cs : List Char} {e : PathError}
    (h : r.Stuck position cs e) (he : e.position? = some n) : n = position := by
  cases h <;> cases he <;> rfl

theorem readFrom_dot_open (position : Nat) (done : List Accessor) (cs : List Char) :
    readFrom dot position done ('[' :: cs) = .error (.unexpectedCharacter '[' position) := by
  by_cases hnext : ∃ rest, cs = ']' :: rest
  · obtain ⟨rest, rfl⟩ := hnext
    rfl
  · rw [readFrom]
    exact fun rest hrest => hnext ⟨rest, hrest⟩

/-- An opening bracket with a character behind it that does not close it is a fault. -/
theorem readFrom_open_ne_ok (r : Reader) (position : Nat) (done : List Accessor) {c : Char}
    (hc : c ≠ ']') (cs : List Char) (p : Path) :
    readFrom r position done ('[' :: c :: cs) ≠ .ok p := by
  have hnext : ∀ rest, c :: cs = ']' :: rest → False :=
    fun rest hrest => hc (List.cons.inj hrest).1
  by_cases hdot : r = dot
  · simp [hdot, readFrom_dot_open]
  · rw [readFrom]
    · split <;> simp
    · exact hnext
    · exact hdot

theorem readFrom_marker_letter {c : Char} (hc : IsNameChar c) (position : Nat)
    (done : List Accessor) (cs : List Char) :
    readFrom marker position done (c :: cs) = .error (.unexpectedCharacter c position) := by
  obtain ⟨hpoint, hopen, hclose⟩ := hc
  rw [readFrom.eq_def]
  simp [hopen]

/-- Nothing can be put behind what a reader is stuck at, unless the text ends there or in the first
half of a marker. -/
theorem Stuck.exists_readFrom_iff {r : Reader} {position : Nat} {cs : List Char} {e : PathError}
    (h : r.Stuck position cs e) (done : List Accessor) :
    (∃ more p, readFrom r position done (cs ++ more) = .ok p) ↔
      e = .empty ∨ e = .trailingDot ∨ cs = ['['] ∧ e = .unclosedBracket position := by
  cases h with
  | empty => simpa using exists_readFrom start position done
  | trailingDot => simpa using exists_readFrom dot position done
  | leadingDot => simp [readFrom]
  | consecutiveDots => simp [readFrom]
  | markerBehindDot rest => simp [readFrom_dot_open]
  | @nonEmptyBracket _ _ rest hr hnext hclose =>
    cases rest with
    | nil => simp at hclose
    | cons c rest =>
      have hc : c ≠ ']' := fun heq => hnext (congrArg some heq)
      simp [readFrom_open_ne_ok r position done hc]
  | @unclosedBracket _ _ rest hr hclose =>
    cases rest with
    | nil =>
      obtain ⟨more, p, hread⟩ := exists_readFrom marker (position + 2) (.each :: r.finish done)
      have hmarker := passes_marker hr position done more
      exact iff_of_true ⟨']' :: more, p, hmarker.trans hread⟩ (by simp)
    | cons c rest =>
      have hc : c ≠ ']' := by
        rintro rfl
        exact hclose List.mem_cons_self
      simp [readFrom_open_ne_ok r position done hc]
  | unopenedBracket => simp [readFrom]
  | nameBehindMarker _ hc rest => simp [readFrom_marker_letter hc]

end Reader

/-- A reader that passes over a text has something to put behind it. -/
theorem Reader.Passes.extensible {front : List Char} {r : Reader} {done : List Accessor}
    (h : Reader.Passes .start 0 [] front r done) : Extensible (String.ofList front) := by
  obtain ⟨more, p, hread⟩ := Reader.exists_readFrom r (0 + byteCount front) done
  refine ⟨String.ofList more, p, ?_⟩
  rw [ofString, String.toList_append, String.toList_ofList, String.toList_ofList, h, hread]

/-- A text that cannot be read is the beginning of one that can just when it is empty, ends in a
point or ends in the bracket that its fault says is not closed. A byte that a fault names is a
boundary between characters, and the text before it is the beginning of one that can be read. -/
theorem extensible_iff_incomplete {s : String} {e : PathError} (h : ofString s = .error e) :
    (Extensible s ↔ e = .empty ∨ e = .trailingDot ∨
      ∃ front c, s = front ++ String.singleton c ∧ e = .unclosedBracket front.utf8ByteSize) ∧
    ∀ n, e.position? = some n →
      ∃ front rest, s = front ++ rest ∧ front.utf8ByteSize = n ∧ Extensible front := by
  obtain ⟨front, rest, r, done, hs, hpasses, hstuck⟩ := Reader.stops_of_readFrom h
  rw [Nat.zero_add] at hstuck
  have htext : s = String.ofList front ++ String.ofList rest := by
    rw [← String.ofList_append, ← hs, String.ofList_toList]
  refine ⟨?_, fun n hn => ?_⟩
  · have hread : ∀ more, ofString (s ++ more) =
        readFrom r (byteCount front) done (rest ++ more.toList) := by
      intro more
      rw [ofString, String.toList_append, hs, List.append_assoc, hpasses, Nat.zero_add]
    have hlast : rest = ['['] ∧ e = .unclosedBracket (byteCount front) ↔
        ∃ front c, s = front ++ String.singleton c ∧
          e = .unclosedBracket front.utf8ByteSize := by
      constructor
      · rintro ⟨rfl, he⟩
        exact ⟨String.ofList front, '[', htext, he⟩
      · rintro ⟨front', c, hfront', rfl⟩
        -- The last character stands behind as many bytes as what the reader is stuck at.
        have hsize : front'.utf8ByteSize = byteCount front := hstuck.position_eq rfl
        obtain rfl := eq_of_append_eq (hfront'.symm.trans htext) hsize
        rw [hfront', String.append_right_inj] at htext
        obtain rfl : rest = [c] := by simpa using (congrArg String.toList htext).symm
        cases hstuck
        exact ⟨rfl, rfl⟩
    rw [← hlast, ← hstuck.exists_readFrom_iff done]
    constructor
    · rintro ⟨more, p, hmore⟩
      exact ⟨more.toList, p, (hread more).symm.trans hmore⟩
    · rintro ⟨more, p, hmore⟩
      refine ⟨String.ofList more, p, ?_⟩
      rw [hread, String.toList_ofList, hmore]
  · exact ⟨_, _, htext, (hstuck.position_eq hn).symm, hpasses.extensible⟩

theorem extensible_iff_incomplete_orders :
    ofString "größe[].[]" = .error (.unexpectedCharacter '[' 10) ∧ ¬ Extensible "größe[].[]" ∧
      Extensible "größe[]." := by
  have hread : ofString "größe[].[]" = .error (.unexpectedCharacter '[' 10) := by cbv
  obtain ⟨hextensible, hposition⟩ := extensible_iff_incomplete hread
  obtain ⟨front, rest, hs, hsize, hfront⟩ := hposition 10 rfl
  refine ⟨hread, ?_, ?_⟩
  · rw [hextensible]
    simp
  · have hsplit : front ++ rest = "größe[]." ++ "[]" := hs.symm.trans (by decide)
    rwa [eq_of_append_eq hsplit (hsize.trans (by decide))] at hfront

end Path
end PathRules

import PathRules.Value.Json
/-!
Values and their documents. Main statements: writing a value to a document gives the document of the
value, and writing it to text gives the text of that document; the document of a value denotes the
value just when it has no date, no handle and no infinity or NaN, and what it denotes stays the same
from then on.
-/

namespace PathRules

open Float.Model.UnpackedFloat in
/-- The doubles that have parts are the finite ones. -/
theorem Decimal.isSome_ofFloat?_iff (x : Float) :
    (Binary.ofFloat? x).isSome = true ↔ x.isFinite = true := by
  let exponent : BitVec 11 := @unpackExponent .binary64 x.toBits.toBitVec
  have hexponent : exponent = -1#11 ↔ x.toBits.toNat / Nat.pow 2 52 % 2048 = 2047 := by
    have hbits : exponent.toNat = x.toBits.toNat / Nat.pow 2 52 % 2048 := by
      simp [exponent, unpackExponent, Nat.shiftRight_eq_div_pow]
    rw [← hbits, BitVec.toNat_eq]
    rfl
  have hparts : (Binary.ofFloat? x).isSome = true ↔ exponent ≠ -1#11 := by
    rw [ne_eq, hexponent, Binary.ofFloat?]
    split
    · simp_all
    · split <;> simp_all
  have hfinite : x.isFinite = true ↔ exponent ≠ -1#11 := by
    have hunpack : x.isFinite = (unpack .binary64 x.toBits.toBitVec).isFinite := rfl
    rw [hunpack]
    by_cases hones : exponent = -1#11
    · have hspecial : unpack .binary64 x.toBits.toBitVec = _ := if_pos hones
      rw [hspecial]
      refine iff_of_false ?_ (not_not_intro hones)
      split <;> exact Bool.false_ne_true
    · have hordinary : unpack .binary64 x.toBits.toBitVec = _ := if_neg hones
      rw [hordinary]
      refine iff_of_true (iteInduction (motive := fun u => isFinite u = true) ?_ ?_) hones
      · intro hsmall
        exact (apply_dite isFinite _ _ _).trans (dite_eq_ite.trans (ite_self true))
      · exact fun _ => rfl
  rw [hparts, hfinite]

namespace Value

/-- The document that a value is written to is its document. -/
theorem write_document {v : Value} (h : v.WellFormed) : v.write Sink.document = v.toJson := by
  induction v using tree_induction with
  | leaf v hsequence hmap => cases v <;> first | rfl | contradiction
  | sequence items ih =>
    have hitems : items.map (write Sink.document) = items.map toJson :=
      List.map_congr_left fun v hv => ih v hv (wellFormed_sequence_iff.mp h v hv)
    rw [write, toJson, writeItems_eq_map, toJsonItems_eq_map, hitems]
    rfl
  | map entries ih =>
    obtain ⟨hnodup, hentries⟩ := wellFormed_map_iff.mp h
    have hmembers : (entries.map fun e => (e.1, write Sink.document e.2)) =
        entries.map fun e => (e.1, toJson e.2) :=
      List.map_congr_left fun e he => by rw [ih e he (hentries e he)]
    have hkeys : (Keyed.keys (entries.map fun e => (e.1, toJson e.2))).Nodup := by
      simpa [Keyed.keys, Function.comp_def] using hnodup
    rw [write, toJson, writeEntries_eq_map, toJsonEntries_eq_map, hmembers]
    exact congrArg Json.object (Keyed.ofPairs_of_nodup hkeys)

/-- The text that a value is written to is the text of its document. -/
theorem render_toJson (v : Value) : v.toJson.render = v.jsonText := by
  unfold jsonText
  induction v using tree_induction with
  | leaf v hsequence hmap =>
    cases v with
    | float x =>
      rw [toJson, write]
      split
      next => rfl
      next h =>
        have hnone := Option.not_isSome_iff_eq_none.mp h
        simp [Json.render, Sink.text, Json.realText, Decimal.documentText?, hnone]
    | _ => first | rfl | contradiction
  | sequence items ih =>
    have hitems : items.map (Json.render ∘ toJson) = items.map (write Sink.text) :=
      List.map_congr_left ih
    rw [toJson, write, writeItems_eq_map, toJsonItems_eq_map, Json.render, Json.renderItems_eq_map,
      List.map_map, hitems]
    rfl
  | map entries ih =>
    have hmembers : (entries.map fun e => Json.quote e.1 ++ ":" ++ e.2.toJson.render) =
        entries.map fun e => Json.quote e.1 ++ ":" ++ e.2.write Sink.text :=
      List.map_congr_left fun e he => by rw [ih e he]
    rw [toJson, write, writeEntries_eq_map, toJsonEntries_eq_map, Json.render,
      Json.renderMembers_eq_map, List.map_map]
    simp only [Sink.text, List.map_map, Function.comp_def, hmembers]

/-- Whether a value has no date, no handle and no infinity or NaN anywhere. -/
inductive Plain : Value → Prop
  | null : Plain null
  | bool (b : Bool) : Plain (bool b)
  | int (n : Int64) : Plain (int n)
  | float {x : Float} (finite : x.isFinite = true) : Plain (float x)
  | string (s : String) : Plain (string s)
  | sequence {items : List Value} (items_plain : ∀ v ∈ items, Plain v) : Plain (sequence items)
  | map {entries : List (String × Value)} (values : ∀ e ∈ entries, Plain e.2) : Plain (map entries)

/-- What the document of a value denotes. -/
def reread (v : Value) : Value :=
  ofJson v.toJson

theorem reread_int (n : Int64) : (int n).reread = int n := by
  rw [reread, toJson, ofJson, ofInteger, if_pos (Text.fitsInt64_toInt n), Int64.ofInt_toInt]

theorem reread_float_of_finite {x : Float} (h : x.isFinite = true) :
    (float x).reread = float x := by
  rw [reread, toJson, if_pos ((Decimal.isSome_ofFloat?_iff x).mpr h), ofJson]

theorem reread_float_of_not_finite {x : Float} (h : ¬ x.isFinite = true) :
    (float x).reread = null := by
  rw [reread, toJson, if_neg (mt (Decimal.isSome_ofFloat?_iff x).mp h), ofJson]

theorem reread_sequence (items : List Value) :
    (sequence items).reread = sequence (items.map reread) := by
  rw [reread, toJson, ofJson, toJsonItems_eq_map, ofJsonItems_eq_map, List.map_map]
  rfl

theorem reread_map (entries : List (String × Value)) :
    (map entries).reread = map (entries.map fun e => (e.1, e.2.reread)) := by
  rw [reread, toJson, ofJson, toJsonEntries_eq_map, ofJsonMembers_eq_map, List.map_map]
  rfl

/-- The document of a plain value denotes the value. -/
theorem Plain.reread_eq {v : Value} (h : v.Plain) : v.reread = v := by
  induction h with
  | null => rfl
  | bool b => rfl
  | int n => exact reread_int n
  | float finite => exact reread_float_of_finite finite
  | string s => rfl
  | sequence _ ih => rw [reread_sequence, List.map_congr_left ih, List.map_id']
  | map _ ih =>
    rw [reread_map, List.map_congr_left fun e he => by rw [ih e he], List.map_id']

/-- What a document of a value denotes is plain. -/
theorem plain_reread (v : Value) : v.reread.Plain := by
  induction v using tree_induction with
  | leaf v hsequence hmap =>
    cases v with
    | null => exact .null
    | bool b => exact .bool b
    | int n =>
      rw [reread_int]
      exact .int n
    | float x =>
      by_cases hfinite : x.isFinite = true
      · rw [reread_float_of_finite hfinite]
        exact .float hfinite
      · rw [reread_float_of_not_finite hfinite]
        exact .null
    | string s => exact .string s
    | date t => exact .string t.text
    | handle h => exact .null
    | sequence items => contradiction
    | map entries => contradiction
  | sequence items ih =>
    rw [reread_sequence]
    exact .sequence (List.forall_mem_map.mpr ih)
  | map entries ih =>
    rw [reread_map]
    exact .map (List.forall_mem_map.mpr ih)

/-- Values have one document, however they are written, and its text is the one that they write
themselves. The document denotes the value just when that is plain, and what it denotes has a
document that denotes the same. -/
theorem documents_agree {v : Value} (h : v.WellFormed) :
    v.write Sink.document = v.toJson ∧ v.jsonText = v.toJson.render ∧
      (ofJson v.toJson = v ↔ v.Plain) ∧ ofJson (ofJson v.toJson).toJson = ofJson v.toJson := by
  refine ⟨write_document h, (render_toJson v).symm, ⟨?_, Plain.reread_eq⟩, ?_⟩
  · intro hsame
    rw [← hsame]
    exact plain_reread v
  · exact (plain_reread v).reread_eq

/-- A booking with numbers of both kinds and values inside a sequence. -/
def booking : Value :=
  map [("guest", string "Ada"), ("nights", int (-3)), ("price", float 2.0),
    ("notes", sequence [null, map [("late", bool true)]])]

theorem plain_booking : booking.Plain := by
  have hnotes : ∀ v ∈ [null, map [("late", bool true)]], v.Plain :=
    List.forall_mem_cons.mpr ⟨.null, List.forall_mem_singleton.mpr
      (.map (List.forall_mem_singleton.mpr (.bool true)))⟩
  refine .map ?_
  simp only [List.forall_mem_cons]
  exact ⟨.string _, .int _, .float (by decide), .sequence hnotes, by simp⟩

theorem documents_agree_booking :
    booking.WellFormed ∧ booking.write Sink.document = booking.toJson ∧
      booking.jsonText = booking.toJson.render ∧ ofJson booking.toJson = booking := by
  have hwellFormed : booking.WellFormed := by
    simp [booking, WellFormed, WellFormedItems, WellFormedEntries, Keyed.keys]
  obtain ⟨hdocument, htext, hplain, -⟩ := documents_agree hwellFormed
  exact ⟨hwellFormed, hdocument, htext, hplain.mpr plain_booking⟩

end Value

end PathRules

import Bitfrost.Convert
import Bitfrost.Lib.Lines

/-!
Files of events (`stream.rs`, and the writer of `fixtures.rs`): one event a
line, blank lines skipped, a line that does not parse kept with its text.
The two directions of `serde_json` are parameters.
-/

namespace Bitfrost

open Bitfrost.Lib

class BoundaryEvent (T : Type) where
  venue : Venue
  intoRaw : T → RawEvent

instance : BoundaryEvent HlEvent := ⟨.hl, .hl⟩
instance : BoundaryEvent PmEvent := ⟨.pm, .pm⟩

section Reader

variable {T : Type} [BoundaryEvent T] (fromStr : String → Except String T) (render : T → String)

/-- What the reader makes of a line. -/
def readLine (line : List Char) : RawLine :=
  { venue := BoundaryEvent.venue T
    text := String.ofList line
    parsed := (fromStr (String.ofList line)).map BoundaryEvent.intoRaw }

/-- The reader, on the text of the file. -/
def readNdjson (input : String) : List RawLine :=
  ((lines input.toList).filter fun line => ¬ (trim line).isEmpty).map (readLine fromStr)

/-- The writer, to the text of the file. -/
def writeNdjson (values : List T) : String :=
  String.ofList (values.flatMap fun value => (render value).toList ++ ['\n'])

/-- `serde_json` writes the value on one line, and reads it back. -/
structure SerdeRoundTrip (value : T) : Prop where
  parsed : fromStr (render value) = .ok value
  oneLine : '\n' ∉ (render value).toList
  ended : (render value).toList.getLast? ≠ some '\r'
  visible : trim (render value).toList ≠ []

variable {fromStr render}

theorem readNdjson_append (front text : List Char) :
    readNdjson fromStr (String.ofList (front ++ '\n' :: text)) =
      readNdjson fromStr (String.ofList (front ++ ['\n'])) ++
        readNdjson fromStr (String.ofList text) := by
  rw [readNdjson, String.toList_ofList, lines_append_newline, List.filter_append,
    List.map_append, readNdjson, readNdjson, String.toList_ofList, String.toList_ofList]

theorem trim_blank {blank : List Char} (h : ∀ c ∈ blank, isWhitespace c = true) :
    trim blank = [] := by
  have hfront : blank.dropWhile isWhitespace = [] := List.dropWhile_eq_nil_iff.mpr h
  rw [trim, hfront]
  rfl

/-- A blank line is not read. -/
theorem readNdjson_blank (front text : List Char) {blank : List Char}
    (h : ∀ c ∈ blank, isWhitespace c = true ∧ c ≠ '\n') :
    readNdjson fromStr (String.ofList (front ++ '\n' :: (blank ++ '\n' :: text))) =
      readNdjson fromStr (String.ofList (front ++ '\n' :: text)) := by
  have hnl : '\n' ∉ blank := fun hmem => (h _ hmem).2 rfl
  have hskip : readNdjson fromStr (String.ofList (blank ++ '\n' :: text)) =
      readNdjson fromStr (String.ofList text) := by
    have hchomp : trim (chomp blank) = [] := by
      refine trim_blank fun c hc => ?_
      rw [chomp] at hc
      split at hc
      · exact (h c (List.mem_of_mem_dropLast hc)).1
      · exact (h c hc).1
    rw [readNdjson, readNdjson, String.toList_ofList, String.toList_ofList, lines_newline hnl,
      List.filter_cons_of_neg (by simp [hchomp])]
  rw [readNdjson_append, hskip, ← readNdjson_append]

theorem readNdjson_toCrlf {text : List Char} (h : '\r' ∉ text) :
    readNdjson fromStr (String.ofList (toCrlf text)) =
      readNdjson fromStr (String.ofList text) := by
  rw [readNdjson, readNdjson, String.toList_ofList, String.toList_ofList, lines_toCrlf h]

/-- A written value is read as one line. -/
theorem readNdjson_line {value : T} (h : SerdeRoundTrip fromStr render value) :
    readNdjson fromStr (String.ofList ((render value).toList ++ ['\n'])) =
      [⟨BoundaryEvent.venue T, render value, .ok (BoundaryEvent.intoRaw value)⟩] := by
  have hlines : lines ((render value).toList ++ ['\n']) = [(render value).toList] := by
    rw [lines_newline h.oneLine [], chomp, if_neg h.ended]
    rfl
  simp [readNdjson, hlines, readLine, h.visible, h.parsed, Except.map]

/-- What was written is read back, event for event. -/
theorem read_write {values : List T} (h : ∀ value ∈ values, SerdeRoundTrip fromStr render value) :
    readNdjson fromStr (writeNdjson render values) = values.map fun value =>
      ⟨BoundaryEvent.venue T, render value, .ok (BoundaryEvent.intoRaw value)⟩ := by
  induction values with
  | nil => rfl
  | cons value values ih =>
    have ih := ih fun other hother => h other (List.mem_cons_of_mem _ hother)
    have hline := readNdjson_line (h value List.mem_cons_self)
    rw [writeNdjson, List.flatMap_cons, List.append_assoc, List.singleton_append,
      readNdjson_append, hline, List.map_cons, ← ih, writeNdjson]
    rfl

end Reader

end Bitfrost

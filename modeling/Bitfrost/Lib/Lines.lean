import Mathlib

/-!
The lines of a text, as `str::lines` cuts them: at every newline, with the
carriage return before it dropped, and nothing after the last newline unless
something is there. Cutting at a newline cuts the list of lines in two, and
the two ways to end a line give the same lines.
-/

namespace Bitfrost.Lib

/-- One carriage return at the end is dropped. -/
def chomp (line : List Char) : List Char :=
  if line.getLast? = some '\r' then line.dropLast else line

/-- The lines of `text` when `line` was already read. -/
def linesAfter (line : List Char) : List Char → List (List Char)
  | [] => if line = [] then [] else [line]
  | c :: text =>
    if c = '\n' then chomp line :: linesAfter [] text else linesAfter (line ++ [c]) text

def lines (text : List Char) : List (List Char) := linesAfter [] text

theorem linesAfter_append {line front : List Char} (h : '\n' ∉ front) (text : List Char) :
    linesAfter line (front ++ text) = linesAfter (line ++ front) text := by
  induction front generalizing line with
  | nil => simp
  | cons c front ih =>
    have hc : c ≠ '\n' := fun hc => h (hc ▸ List.mem_cons_self)
    have hfront : '\n' ∉ front := fun hmem => h (List.mem_cons_of_mem _ hmem)
    simp [linesAfter, hc, ih hfront]

/-- A line up to its newline. -/
theorem lines_newline {line : List Char} (h : '\n' ∉ line) (text : List Char) :
    lines (line ++ '\n' :: text) = chomp line :: lines text := by
  simp [lines, linesAfter_append h, linesAfter]

/-- The lines before a newline and those after it. -/
theorem lines_append_newline (front text : List Char) :
    lines (front ++ '\n' :: text) = lines (front ++ ['\n']) ++ lines text := by
  have hafter : ∀ line, linesAfter line (front ++ '\n' :: text) =
      linesAfter line (front ++ ['\n']) ++ lines text := by
    induction front with
    | nil => simp [linesAfter, lines]
    | cons c front ih =>
      intro line
      by_cases hc : c = '\n' <;> simp [linesAfter, hc, ih]
  exact hafter []

/-- Every line ended by a carriage return and a newline. -/
def toCrlf (text : List Char) : List Char :=
  text.flatMap fun c => if c = '\n' then ['\r', '\n'] else [c]

theorem chomp_concat (line : List Char) : chomp (line ++ ['\r']) = line := by
  simp [chomp]

theorem chomp_of_notMem {line : List Char} (h : '\r' ∉ line) : chomp line = line := by
  refine if_neg fun hlast => h ?_
  exact List.mem_of_getLast? hlast

/-- The ending of the lines does not matter. -/
theorem lines_toCrlf {text : List Char} (h : '\r' ∉ text) : lines (toCrlf text) = lines text := by
  have hafter : ∀ line, '\r' ∉ line → linesAfter line (toCrlf text) = linesAfter line text := by
    induction text with
    | nil => simp [toCrlf]
    | cons c text ih =>
      intro line hline
      have hc : c ≠ '\r' := fun hc => h (hc ▸ List.mem_cons_self)
      have ih := ih fun hmem => h (List.mem_cons_of_mem _ hmem)
      rw [toCrlf, List.flatMap_cons, ← toCrlf]
      by_cases hnl : c = '\n'
      · simp [linesAfter, hnl, chomp_concat, chomp_of_notMem hline, ih]
      · have hnext : '\r' ∉ line ++ [c] := by simp [hline, Ne.symm hc]
        simp [linesAfter, hnl, ih _ hnext]
  exact hafter [] List.not_mem_nil

end Bitfrost.Lib

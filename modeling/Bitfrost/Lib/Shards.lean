import Bitfrost.Lib.Run

/-!
Machines that work on one cell at a time. When every operation names a key,
looks at the cell of that key alone and leaves the other cells as they are,
the operations on a key run as if there were no others.
-/

namespace Bitfrost.Lib

universe u
variable {σ ι ω κ ν : Type u} [DecidableEq κ]

/-- Answer and effect of an operation are those of its own cell. -/
structure Sharded (step : σ → ι → ω × σ) (key : ι → κ) (cell : σ → κ → ν) : Prop where
  local_ : ∀ s s' i, cell s (key i) = cell s' (key i) →
    (step s i).1 = (step s' i).1 ∧ cell (step s i).2 (key i) = cell (step s' i).2 (key i)
  frame : ∀ s i k, key i ≠ k → cell (step s i).2 k = cell s k

variable {step : σ → ι → ω × σ} {key : ι → κ} {cell : σ → κ → ν}

/-- A run, seen from one cell, is the run of the operations on it. -/
theorem Sharded.run (h : Sharded step key cell) (k : κ) {s s' : σ} (hcell : cell s k = cell s' k)
    (ops : List ι) :
    (trace step s ops).filter (key ·.1 = k) = trace step s' (ops.filter (key · = k)) ∧
      cell (exec step s ops) k = cell (exec step s' (ops.filter (key · = k))) k := by
  induction ops generalizing s s' with
  | nil => exact ⟨rfl, hcell⟩
  | cons i ops ih =>
    by_cases hk : key i = k
    · subst hk
      obtain ⟨hanswer, hnext⟩ := h.local_ s s' i hcell
      obtain ⟨htrace, hend⟩ := ih hnext
      rw [trace_cons, List.filter_cons_of_pos (by simp), List.filter_cons_of_pos (by simp),
        trace_cons, exec_cons, exec_cons, htrace, hanswer]
      exact ⟨rfl, hend⟩
    · obtain ⟨htrace, hend⟩ := ih ((h.frame s i k hk).trans hcell)
      rw [trace_cons, List.filter_cons_of_neg (by simpa using hk),
        List.filter_cons_of_neg (by simpa using hk), exec_cons]
      exact ⟨htrace, hend⟩

/-- Runs with the same operations on a key answer them the same and leave the same cell. -/
theorem Sharded.run_congr (h : Sharded step key cell) {k : κ} {s : σ} {ops ops' : List ι}
    (hops : ops.filter (key · = k) = ops'.filter (key · = k)) :
    (trace step s ops).filter (key ·.1 = k) = (trace step s ops').filter (key ·.1 = k) ∧
      cell (exec step s ops) k = cell (exec step s ops') k := by
  obtain ⟨htrace, hend⟩ := h.run k (rfl : cell s k = cell s k) ops
  obtain ⟨htrace', hend'⟩ := h.run k (rfl : cell s k = cell s k) ops'
  rw [htrace, htrace', hend, hend', hops]
  exact ⟨rfl, rfl⟩

end Bitfrost.Lib

import Mathlib

/-!
Deterministic machines that answer every operation, their runs, and the rule
that carries an invariant of one step to a whole run.
-/

namespace Bitfrost.Lib

universe u
variable {σ ι ω : Type u}

/-- The state after the operations. -/
def exec (step : σ → ι → ω × σ) (s : σ) (ops : List ι) : σ :=
  ops.foldl (fun s i => (step s i).2) s

/-- Every operation with its answer, in order. -/
def trace (step : σ → ι → ω × σ) (s : σ) : List ι → List (ι × ω)
  | [] => []
  | i :: ops => (i, (step s i).1) :: trace step (step s i).2 ops

/-- What one more entry adds to a projection of a history. -/
theorem filterMap_cons_toList {α β : Type*} (f : α → Option β) (a : α) (l : List α) :
    (a :: l).filterMap f = (f a).toList ++ l.filterMap f := by
  cases h : f a <;> simp [h]

variable (step : σ → ι → ω × σ)

@[simp] theorem exec_nil (s : σ) : exec step s [] = s := rfl

@[simp] theorem exec_cons (s : σ) (i : ι) (ops : List ι) :
    exec step s (i :: ops) = exec step (step s i).2 ops := rfl

theorem exec_concat (s : σ) (ops : List ι) (i : ι) :
    exec step s (ops ++ [i]) = (step (exec step s ops) i).2 := by
  simp [exec]

@[simp] theorem trace_nil (s : σ) : trace step s [] = [] := rfl

@[simp] theorem trace_cons (s : σ) (i : ι) (ops : List ι) :
    trace step s (i :: ops) = (i, (step s i).1) :: trace step (step s i).2 ops := rfl

theorem trace_append (s : σ) (ops ops' : List ι) :
    trace step s (ops ++ ops') = trace step s ops ++ trace step (exec step s ops) ops' := by
  induction ops generalizing s with
  | nil => rfl
  | cons i ops ih => simp [ih]

theorem trace_concat (s : σ) (ops : List ι) (i : ι) :
    trace step s (ops ++ [i]) = trace step s ops ++ [(i, (step (exec step s ops) i).1)] := by
  simp [trace_append]

theorem trace_map_fst (s : σ) (ops : List ι) : (trace step s ops).map Prod.fst = ops := by
  induction ops generalizing s with
  | nil => rfl
  | cons i ops ih => simp [ih]

/-- An invariant of history and state that every step keeps holds after every run. -/
theorem run_invariant (Inv : List (ι × ω) → σ → Prop) {s₀ : σ} (init : Inv [] s₀)
    (keep : ∀ hist s i, Inv hist s → Inv (hist ++ [(i, (step s i).1)]) (step s i).2)
    (ops : List ι) : Inv (trace step s₀ ops) (exec step s₀ ops) := by
  induction ops using List.reverseRecOn with
  | nil => exact init
  | append_singleton ops i ih =>
    rw [trace_concat, exec_concat]
    exact keep _ _ _ ih

end Bitfrost.Lib

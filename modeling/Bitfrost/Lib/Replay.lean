import Bitfrost.Lib.Keyed
import Bitfrost.Lib.Run

/-!
Journals of a keyed store. A machine whose steps either leave its map alone
or write one cell and emit an entry for it can be rebuilt from what it
emitted, and every entry names what its cell held when it was written.
-/

namespace Bitfrost.Lib

open Std

section Replay

variable {κ ν ε : Type} {cmp : κ → κ → Ordering} [TransCmp cmp]

/-- The map the entries write, in order, from the empty one. -/
def replay (cmp : κ → κ → Ordering) [TransCmp cmp] (key : ε → κ) (value : ε → ν)
    (entries : List ε) : ExtTreeMap κ ν cmp :=
  entries.foldl (fun m e => m.insert (key e) (value e)) ∅

theorem replay_concat (key : ε → κ) (value : ε → ν) (entries : List ε) (e : ε) :
    replay cmp key value (entries ++ [e]) =
      (replay cmp key value entries).insert (key e) (value e) := by
  simp [replay]

/-- Every entry holds what the entries before it left in its cell. -/
def Chained [Inhabited ν] (cmp : κ → κ → Ordering) [TransCmp cmp] (key : ε → κ)
    (before after : ε → ν) (entries : List ε) : Prop :=
  ∀ earlier e later, entries = earlier ++ e :: later →
    before e = (replay cmp key after earlier)[key e]?.getD default

variable [Inhabited ν] {key : ε → κ} {before after : ε → ν} {entries : List ε}

theorem Chained.nil : Chained cmp key before after [] := by
  intro earlier e later h
  exact absurd h.symm (by simp)

theorem Chained.concat {e : ε} (h : Chained cmp key before after entries)
    (he : before e = (replay cmp key after entries)[key e]?.getD default) :
    Chained cmp key before after (entries ++ [e]) := by
  intro earlier e' later hsplit
  rcases List.eq_nil_or_concat later with rfl | ⟨later, last, rfl⟩
  · obtain ⟨rfl, hlast⟩ := List.append_inj' hsplit rfl
    cases hlast
    exact he
  · rw [List.concat_eq_append, ← List.cons_append, ← List.append_assoc] at hsplit
    exact h earlier e' later (List.append_inj' hsplit rfl).1

/-! ## Machines that keep a journal -/

variable {σ ι ω : Type} (step : σ → ι → ω × σ) (store : σ → ExtTreeMap κ ν cmp)
  (emit : ω → Option ε)

/-- The entries of a run, in order. -/
def emitted (hist : List (ι × ω)) : List ε := hist.filterMap fun entry => emit entry.2

/-- A step that emits nothing leaves the map alone; one that emits an entry read the cell of its
key and wrote it. -/
structure KeepsJournal (key : ε → κ) (before after : ε → ν) : Prop where
  silent : ∀ s i, emit (step s i).1 = none → store (step s i).2 = store s
  reads : ∀ s i e, emit (step s i).1 = some e → before e = (store s)[key e]?.getD default
  writes : ∀ s i e, emit (step s i).1 = some e →
    store (step s i).2 = (store s).insert (key e) (after e)

variable {step store emit}

theorem KeepsJournal.run (h : KeepsJournal step store emit key before after) {s₀ : σ}
    (hs₀ : store s₀ = ∅) (ops : List ι) :
    replay cmp key after (emitted emit (trace step s₀ ops)) = store (exec step s₀ ops) ∧
      Chained cmp key before after (emitted emit (trace step s₀ ops)) := by
  apply run_invariant step fun hist s =>
    replay cmp key after (emitted emit hist) = store s ∧
      Chained cmp key before after (emitted emit hist)
  · exact ⟨hs₀.symm, Chained.nil⟩
  · intro hist s i ⟨hreplay, hchained⟩
    cases he : emit (step s i).1 with
    | none =>
      have hsame : emitted emit (hist ++ [(i, (step s i).1)]) = emitted emit hist := by
        simp [emitted, he]
      rw [hsame, h.silent s i he]
      exact ⟨hreplay, hchained⟩
    | some e =>
      have hmore : emitted emit (hist ++ [(i, (step s i).1)]) = emitted emit hist ++ [e] := by
        simp [emitted, he]
      rw [hmore, replay_concat, hreplay, h.writes s i e he]
      refine ⟨rfl, hchained.concat ?_⟩
      rw [hreplay]
      exact h.reads s i e he

end Replay

end Bitfrost.Lib

import Bitfrost.Conservation

/-!
What one `drain_ready` releases. The loop looks at the global head only and
stops at the first one that is blocked; since every lane is in stamp order
and behind its own frontier, nothing that could be released is hidden behind
a blocked head, and the other lane is then empty.
-/

namespace Bitfrost.Sequencer

open Bitfrost.Lib

/-! ## The gate -/

/-- A buffered event is due when no lane can still deliver an event that sorts before it. -/
def due (front : Venue → UInt64) : Venue → UInt64 → Bool
  | .hl, recvTs => recvTs ≤ front .pm
  | .pm, recvTs => recvTs < front .hl

theorem emittable_eq_due (s : Sequencer) (v : Venue) (t : UInt64) :
    s.emittable v t = due (fun w => (s.lanes w).frontier) v t := by
  have hlt : ¬ Venue.pm < Venue.hl := by decide
  have hlt' : Venue.hl < Venue.pm := by decide
  cases v <;> simp [emittable, due, Venue.all, hlt, hlt']

/-- What precedes a due event of its lane is due. -/
theorem due_of_le {front : Venue → UInt64} {v : Venue} {t u : UInt64} (h : t ≤ u)
    (hu : due front v u = true) : due front v t = true := by
  cases v with
  | hl =>
    simp only [due, decide_eq_true_eq] at hu ⊢
    exact h.trans hu
  | pm =>
    simp only [due, decide_eq_true_eq] at hu ⊢
    exact h.trans_lt hu

/-- The gate in terms of the other lane: strict where that lane wins ties. -/
theorem due_eq_false {front : Venue → UInt64} {v w : Venue} (hw : w ≠ v) {t : UInt64} :
    due front v t = false ↔ front w < t ∨ front w = t ∧ w < v := by
  cases v with
  | hl =>
    cases w with
    | hl => exact absurd rfl hw
    | pm =>
      have hlt : ¬ Venue.pm < Venue.hl := by decide
      simp [due, hlt]
  | pm =>
    cases w with
    | hl =>
      have hlt : Venue.hl < Venue.pm := by decide
      simp [due, hlt, le_iff_lt_or_eq]
    | pm => exact absurd rfl hw

/-- An event is not due exactly when the other lane may still take one that sorts before it. -/
theorem not_due_iff {front : Venue → UInt64} {v w : Venue} (hw : w ≠ v) {p : UInt64 × Fill}
    (hp : p.2.venue = v) {f : Fill} (hf : f.venue = w) :
    due front v p.1 = false ↔ ∃ t, front w ≤ t ∧ sortKey (t, f) < sortKey p := by
  have hkey : ∀ t, sortKey (t, f) < sortKey p ↔ t < p.1 ∨ t = p.1 ∧ w < v := by
    intro t
    simp [sortKey_lt, hp, hf, hw]
  rw [due_eq_false hw]
  constructor
  · intro h
    exact ⟨front w, le_rfl, (hkey _).mpr h⟩
  · rintro ⟨t, hle, hlt⟩
    rcases (hkey t).mp hlt with hlt | ⟨rfl, hwv⟩
    · exact .inl (hle.trans_lt hlt)
    · exact hle.lt_or_eq.imp_right fun h => ⟨h, hwv⟩

section Drain

variable {acc : Venue → List (UInt64 × Fill)} {pub : List (UInt64 × Fill)} {s : Sequencer}

/-- A gated drain releases only what is due. -/
theorem Merged.drained_due (h : Merged acc pub s) :
    ∀ e ∈ (s.drain true).1, due (fun w => (s.lanes w).frontier) e.fill.venue e.recvTs = true := by
  have hrun := drainLoop_keeps true
    (fun out t => Merged acc (pub ++ out.map stamped) t ∧
      (∀ v, (t.lanes v).frontier = (s.lanes v).frontier) ∧
      ∀ e ∈ out, due (fun w => (s.lanes w).frontier) e.fill.venue e.recvTs = true)
    (by
      rintro out t e t' ⟨hm, hfront, hdue⟩ hd
      obtain ⟨v, rest, hbuf, -, ht', -, hemit⟩ := drainStep_eq_some hd
      have hv : e.fill.venue = v :=
        hm.ownVenue v (e.recvTs, e.fill) (hm.mem_acc_of_buffer (by simp [hbuf]))
      refine ⟨by simpa using (hm.drainStep (.inl rfl) hd).1, fun w => ?_, fun e' he' => ?_⟩
      · rw [← hfront w, ht']
        show ((t.setLane v _).lanes w).frontier = _
        rw [setLane_lanes]
        split
        · next hw => rw [hw]
        · rfl
      · rcases List.mem_append.mp he' with he' | he'
        · exact hdue e' he'
        · rw [List.mem_singleton.mp he', hv, ← hemit rfl, emittable_eq_due]
          exact congrArg (fun front => due front v e.recvTs) (funext fun w => (hfront w).symm))
    s.depth [] s ⟨by simpa using h, fun _ => rfl, fun e he => by cases he⟩
  simpa [Sequencer.drain] using hrun.2.2

/-- When the loop stops, one lane at most has events, and none of them is due. -/
theorem Merged.stopped (h : Merged acc pub s) (hstop : Sequencer.drainStep true s = none) :
    (∃ v, ∀ w, w ≠ v → (s.lanes w).buffer = []) ∧
      ∀ v, ∀ p ∈ (s.lanes v).buffer, due (fun w => (s.lanes w).frontier) v p.1 = false := by
  rcases drainStep_eq_none.mp hstop with hempty | ⟨-, v, t, hbest, hblocked⟩
  · exact ⟨⟨.hl, fun w _ => hempty w⟩, fun v p hp => by rw [hempty v] at hp; cases hp⟩
  · obtain ⟨⟨f, rest, hbuf⟩, hmin⟩ := best_eq_some hbest
    rw [emittable_eq_due] at hblocked
    have hothers : ∀ w, w ≠ v → (s.lanes w).buffer = [] := by
      intro w hw
      by_contra hne
      obtain ⟨q, tail, hcons⟩ := List.exists_cons_of_ne_nil hne
      obtain ⟨hle, hlt⟩ := hmin w q (by simp [hcons]) hw
      have hreach := h.reached w q (h.mem_acc_of_buffer (by simp [hcons]))
      rcases (due_eq_false hw).mp hblocked with hbehind | ⟨htie, hwv⟩
      · exact absurd (hle.trans hreach) hbehind.not_ge
      · exact absurd ((hlt hwv).trans_le hreach) htie.not_gt
    refine ⟨⟨v, hothers⟩, fun w p hp => ?_⟩
    by_cases hw : w = v
    · subst hw
      have hge : t ≤ p.1 := by
        have horder := (List.pairwise_append.mp (h.conserve w ▸ h.laneOrder w)).2.1
        rw [hbuf] at hp horder
        rcases List.mem_cons.mp hp with rfl | htail
        · exact le_rfl
        · exact (List.rel_of_pairwise_cons horder htail).1
      rw [Bool.eq_false_iff]
      intro hdue
      rw [due_of_le hge hdue] at hblocked
      cases hblocked
    · rw [hothers w hw] at hp
      cases hp

/-- The entries a drain takes from a lane, and those it leaves there. -/
theorem Merged.drain_conserve (h : Merged acc pub s) (v : Venue) :
    ((s.drain true).1.map stamped).filter (·.2.venue = v) ++ ((s.drain true).2.lanes v).buffer =
      (s.lanes v).buffer := by
  have hbefore := h.conserve v
  have hafter := (h.drain true (.inl rfl)).1.conserve v
  rw [List.filter_append, List.append_assoc, ← hbefore] at hafter
  exact List.append_cancel_left hafter

/-- A gated drain takes from every lane exactly what is due. -/
theorem Merged.drain_exact (h : Merged acc pub s) (v : Venue) :
    ((s.drain true).1.map stamped).filter (·.2.venue = v) =
      (s.lanes v).buffer.filter (fun p => due (fun w => (s.lanes w).frontier) v p.1) ∧
    ((s.drain true).2.lanes v).buffer =
      (s.lanes v).buffer.filter (fun p => !due (fun w => (s.lanes w).frontier) v p.1) := by
  have hfront : (fun w => ((s.drain true).2.lanes w).frontier) = fun w => (s.lanes w).frontier :=
    funext fun w => (drain_guards true s w).1
  have hcut := filter_of_cut (q := fun p => due (fun w => (s.lanes w).frontier) v p.1)
    (h.drain_conserve v) ?_ ?_
  · exact ⟨hcut.1.symm, hcut.2.symm⟩
  · intro p hp
    obtain ⟨hmem, hv⟩ := List.mem_filter.mp hp
    obtain ⟨e, he, rfl⟩ := List.mem_map.mp hmem
    have hdue := h.drained_due e he
    rw [show e.fill.venue = v from of_decide_eq_true hv] at hdue
    exact hdue
  · intro p hp
    rw [← hfront]
    exact ((h.drain true (.inl rfl)).1.stopped (drain_done true s)).2 v p hp

/-- What a gated drain takes, it publishes in `SORT_KEY` order. -/
theorem Merged.drain_sorted (h : Merged acc pub s) :
    (s.drain true).1.map stamped =
      (Venue.all.flatMap fun v => (s.lanes v).buffer.filter fun p =>
        due (fun w => (s.lanes w).frontier) v p.1).mergeSort
          (fun p q => sortKey p ≤ sortKey q) := by
  apply eq_mergeSort_of_sorted sortKey
  · exact (List.pairwise_append.mp (h.drain true (.inl rfl)).1.ordered).2.1
  · apply perm_of_filter_eq (fun p : UInt64 × Fill => p.2.venue)
    intro v
    rw [(h.drain_exact v).1]
    have hown : ∀ w, ∀ p ∈ (s.lanes w).buffer, p.2.venue = w := fun w p hp =>
      h.ownVenue w p (h.mem_acc_of_buffer hp)
    have hlane : ∀ w, ((s.lanes w).buffer.filter fun p =>
        due (fun w => (s.lanes w).frontier) w p.1).filter (·.2.venue = v) =
        if w = v then (s.lanes w).buffer.filter fun p =>
          due (fun w => (s.lanes w).frontier) w p.1 else [] := by
      intro w
      split
      · next hw =>
        refine List.filter_eq_self.mpr fun p hp => ?_
        simp [hown w p (List.mem_filter.mp hp).1, hw]
      · next hw =>
        refine List.filter_eq_nil_iff.mpr fun p hp => ?_
        simp [hown w p (List.mem_filter.mp hp).1, hw]
    rw [Venue.all, List.flatMap_cons, List.flatMap_cons, List.flatMap_nil, List.append_nil,
      List.filter_append, hlane, hlane]
    cases v <;> simp

/-- The gate of a lane does not look at the lane's own frontier. -/
theorem emittable_tick_self (s : Sequencer) (v : Venue) (now t : UInt64) :
    (s.tick v now).emittable v t = s.emittable v t := by
  rw [emittable_eq_due, emittable_eq_due]
  cases v with
  | hl => simp [due, tick_lanes]
  | pm => simp [due, tick_lanes]

end Drain

end Bitfrost.Sequencer

namespace Bitfrost.Ingester

open Bitfrost.Lib
open Bitfrost.Sequencer (Merged stamped sortKey due)

/-- `drain_ready` in the state `self`, whose lanes were stamped up to `front`: what is returned and
what is left. -/
structure ReleasesExactly {S : Type} (front : Venue → UInt64) (self : Ingester S) : Prop where
  returned : self.drainReady.1.map stamped =
    ((self.sequencer.lanes .hl).buffer.filter (fun p => p.1 ≤ front .pm) ++
      (self.sequencer.lanes .pm).buffer.filter (fun p => p.1 < front .hl)).mergeSort
        (fun p q => sortKey p ≤ sortKey q)
  leftHl : (self.drainReady.2.sequencer.lanes .hl).buffer =
    (self.sequencer.lanes .hl).buffer.filter (fun p => front .pm < p.1)
  leftPm : (self.drainReady.2.sequencer.lanes .pm).buffer =
    (self.sequencer.lanes .pm).buffer.filter (fun p => front .hl ≤ p.1)
  behind : ∀ v w, w ≠ v → ∀ p ∈ (self.sequencer.lanes v).buffer, ∀ fill : Fill, fill.venue = w →
    (p ∈ (self.drainReady.2.sequencer.lanes v).buffer ↔
      ∃ recvTs, front w ≤ recvTs ∧ sortKey (recvTs, fill) < sortKey p)
  oneLane : ∃ v, ∀ w, w ≠ v → (self.drainReady.2.sequencer.lanes w).buffer = []
  ownFrontier : ∀ v, ∀ p ∈ (self.drainReady.2.sequencer.lanes v).buffer.head?, p.1 ≤ front v ∧
    ∀ now, (self.drainReady.2.sequencer.tick v now).emittable v p.1 = false

/-- `drain_ready` releases exactly what is provably safe, at every point of every run. -/
theorem drain_ready_exact {S : Type} [InstrumentSource S] (instruments : S) (ops : List Op) :
    ReleasesExactly (frontierOf · ops.reverse) (exec step (new instruments) ops) := by
  have hfront : (fun v => ((exec step (new instruments) ops).sequencer.lanes v).frontier) =
      (frontierOf · ops.reverse) := funext (summary_run instruments ops).frontier
  have hm := (conserved_run instruments ops).lanes.merged
  have hafter := (hm.drain true (.inl rfl)).1
  have hexact := hm.drain_exact
  have hsorted := hm.drain_sorted
  have hstop := hafter.stopped (Sequencer.drain_done true _)
  have hkeep := fun v => (Sequencer.drain_guards true
    (exec step (new instruments) ops).sequencer v).1
  simp only [hfront] at hexact hsorted
  refine ⟨?_, ?_, ?_, fun v w hw p hp fill hfill => ?_, hstop.1, fun v p hp => ⟨?_, fun now => ?_⟩⟩
  · simp only [Venue.all, List.flatMap_cons, List.flatMap_nil, List.append_nil, due] at hsorted
    exact hsorted
  · refine (hexact .hl).2.trans (List.filter_congr fun p _ => ?_)
    rw [due, ← decide_not, decide_eq_decide, not_le]
  · refine (hexact .pm).2.trans (List.filter_congr fun p _ => ?_)
    rw [due, ← decide_not, decide_eq_decide, not_lt]
  · have hv : p.2.venue = v := hm.ownVenue v p (hm.mem_acc_of_buffer hp)
    have hdue : due (frontierOf · ops.reverse) v p.1 = false ↔ _ :=
      Sequencer.not_due_iff hw hv hfill
    rw [← hdue]
    show p ∈ (((exec step (new instruments) ops).sequencer.drain true).2.lanes v).buffer ↔ _
    rw [(hexact v).2, List.mem_filter]
    simp [hp]
  · have hreach := hafter.reached v p (hafter.mem_acc_of_buffer (List.mem_of_mem_head? hp))
    rw [hkeep v] at hreach
    exact (congrFun hfront v) ▸ hreach
  · rw [Sequencer.emittable_tick_self, Sequencer.emittable_eq_due]
    exact hstop.2 v p (List.mem_of_mem_head? hp)

end Bitfrost.Ingester

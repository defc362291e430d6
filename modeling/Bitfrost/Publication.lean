import Bitfrost.Isolation
import Bitfrost.Release

/-!
When a fill is published. An accepted fill waits for the first drain at which
the stamps of the other venue have passed it, or for `flush`; no call in
between can hold it back or let it go. Two ticks past all stamps therefore
finish the tape without a flush.
-/

namespace Bitfrost.Ingester

open Bitfrost.Lib
open Bitfrost.Sequencer (Merged stamped sortKey number due)

/-! ## The statement -/

/-- The call, made after `past`, lets go of what waits on the lane of `venue` at `recvTs`. -/
def Op.releases (venue : Venue) (recvTs : UInt64) (past : List Op) : Op → Bool
  | .drainReady => due (frontierOf · past) venue recvTs
  | .flush => true
  | _ => false

/-- One of the calls, made after `past`, does. -/
def released (venue : Venue) (recvTs : UInt64) : List Op → List Op → Bool
  | _, [] => false
  | past, op :: ops => op.releases venue recvTs past || released venue recvTs (op :: past) ops

theorem released_concat (v : Venue) (t : UInt64) (past ops : List Op) (op : Op) :
    released v t past (ops ++ [op]) =
      (released v t past ops || op.releases v t (ops.reverse ++ past)) := by
  induction ops generalizing past with
  | nil => exact Bool.or_false _
  | cons first ops ih =>
    rw [List.cons_append, released, ih, released, Bool.or_assoc, List.reverse_cons,
      List.append_assoc]
    rfl

theorem released_iff {v : Venue} {t : UInt64} {past ops : List Op} :
    released v t past ops = true ↔
      ∃ earlier op later, ops = earlier ++ op :: later ∧
        op.releases v t (earlier.reverse ++ past) = true := by
  induction ops generalizing past with
  | nil => simp [released]
  | cons first ops ih =>
    rw [released, Bool.or_eq_true, ih]
    constructor
    · rintro (hnow | ⟨earlier, op, later, rfl, hop⟩)
      · exact ⟨[], first, ops, rfl, hnow⟩
      · refine ⟨first :: earlier, op, later, rfl, ?_⟩
        rwa [List.reverse_cons, List.append_assoc]
    · rintro ⟨earlier, op, later, hops, hop⟩
      cases earlier with
      | nil =>
        obtain ⟨rfl, rfl⟩ := List.cons.inj hops
        exact .inl hop
      | cons head earlier =>
        obtain ⟨rfl, rfl⟩ := List.cons.inj hops
        rw [List.reverse_cons, List.append_assoc] at hop
        exact .inr ⟨earlier, op, later, rfl, hop⟩

section Publication

variable {S : Type} [InstrumentSource S] {instruments : S} {ops : List Op} {v : Venue}
  {p : UInt64 × Fill}

/-! ## One call -/

/-- What has an entry on a lane keeps it. -/
theorem mem_laneOn_append {arrived : List Arrival} (h : p ∈ laneOn instruments v arrived)
    (later : List Arrival) : p ∈ laneOn instruments v (arrived ++ later) := by
  rw [laneOn, List.filterMap_append]
  exact List.mem_append_left _ h

theorem merged_run (instruments : S) (ops : List Op) :
    Merged (laneOn instruments · (arrivals (trace step (new instruments) ops)))
      ((tape (trace step (new instruments) ops)).map stamped)
      (exec step (new instruments) ops).sequencer := by
  have h := (conserved_run instruments ops).lanes.merged
  rwa [source_run] at h

theorem frontier_run (instruments : S) (ops : List Op) :
    (fun v => ((exec step (new instruments) ops).sequencer.lanes v).frontier) =
      (frontierOf · ops.reverse) := funext (summary_run instruments ops).frontier

theorem tape_concat (ops : List Op) (op : Op) :
    tape (trace step (new instruments) (ops ++ [op])) =
      tape (trace step (new instruments) ops) ++
        (step (exec step (new instruments) ops) op).1.published := by
  rw [trace_concat, tape_append]
  exact congrArg _ (List.append_nil _)

/-- A call publishes an entry of a lane exactly when it releases its stamp. -/
theorem mem_tape_concat
    (hp : p ∈ laneOn instruments v (arrivals (trace step (new instruments) ops)))
    (op : Op) :
    p ∈ (tape (trace step (new instruments) (ops ++ [op]))).map stamped ↔
      p ∈ (tape (trace step (new instruments) ops)).map stamped ∨
        op.releases v p.1 ops.reverse = true := by
  have hm := merged_run instruments ops
  have hv : p.2.venue = v := hm.ownVenue v p hp
  have hcall : (tape (trace step (new instruments) (ops ++ [op]))).map stamped =
      (tape (trace step (new instruments) ops)).map stamped ++
        ((step (exec step (new instruments) ops) op).1.published).map stamped := by
    rw [tape_concat, List.map_append]
  cases op with
  | fillCaught recvTs line => simp [hcall, step, Reply.published, Op.releases]
  | tick venue nowTs => simp [hcall, step, Reply.published, Op.releases]
  | drainReady =>
    have hfront := frontier_run instruments ops
    have hout : p ∈ (step (exec step (new instruments) ops) .drainReady).1.published.map stamped ↔
        p ∈ ((exec step (new instruments) ops).sequencer.lanes v).buffer ∧
          due (frontierOf · ops.reverse) v p.1 = true := by
      have hexact := (hm.drain_exact v).1
      rw [hfront] at hexact
      have hmem := congrArg (p ∈ ·) hexact
      simp only [List.mem_filter, hv, decide_true, and_true] at hmem
      exact iff_of_eq hmem
    rw [hcall, List.mem_append, hout, Op.releases]
    constructor
    · rintro (hpub | ⟨-, hdue⟩)
      · exact .inl hpub
      · exact .inr hdue
    · rintro (hpub | hdue)
      · exact .inl hpub
      · rw [← hm.conserve v] at hp
        rcases List.mem_append.mp hp with hpub | hbuffer
        · exact .inl (List.mem_filter.mp hpub).1
        · exact .inr ⟨hbuffer, hdue⟩
  | flush =>
    have hlane := tape_lane_flushed instruments ops v
    have hmem : p ∈ laneOn instruments v
        (arrivals (trace step (new instruments) (ops ++ [Op.flush]))) := by
      rw [trace_concat, arrivals_append]
      exact mem_laneOn_append hp _
    rw [← hlane] at hmem
    simp only [Op.releases, or_true, iff_true]
    exact (List.mem_filter.mp hmem).1

/-! ## Whole runs -/

/-- A freshly accepted fill is the last of its lane, and not on the tape. -/
theorem accepted_waits {before : List Op} {recvTs : UInt64} {line : RawLine} {event : RawEvent}
    {fill : Fill} (hp : line.parsed = .ok event) (hfill : event.canonicalize instruments = .ok fill)
    (hacc : ((exec step (new instruments) before).fillCaught recvTs line).1 = .accepted) :
    (recvTs, fill) ∈ laneOn instruments event.venue
        (arrivals (trace step (new instruments) (before ++ [.fillCaught recvTs line]))) ∧
      (recvTs, fill) ∉ (tape (trace step (new instruments)
        (before ++ [.fillCaught recvTs line]))).map stamped := by
  have hm := merged_run instruments (before ++ [.fillCaught recvTs line])
  have hlane : laneOn instruments event.venue
      (arrivals (trace step (new instruments) (before ++ [.fillCaught recvTs line]))) =
      laneOn instruments event.venue (arrivals (trace step (new instruments) before)) ++
        [(recvTs, fill)] := by
    have harrived : arrivals (trace step (new instruments) (before ++ [.fillCaught recvTs line])) =
        arrivals (trace step (new instruments) before) ++ [⟨recvTs, line, .accepted⟩] := by
      rw [trace_concat, arrivals_append, ← hacc]
      rfl
    have hentry : entryOn instruments event.venue ⟨recvTs, line, .accepted⟩ =
        some (recvTs, fill) := by
      simp [entryOn, attributed_of_ok hp, canonicalFill, hp, hfill, Except.toOption]
    rw [harrived, laneOn, List.filterMap_append, List.filterMap_cons_some hentry]
    rfl
  have horder := hm.laneOrder event.venue
  rw [hlane] at horder
  refine ⟨by simp [hlane], fun hpub => ?_⟩
  -- The tape did not grow, so the fill would have been on the lane before it was pushed.
  have hquiet : (tape (trace step (new instruments) (before ++ [.fillCaught recvTs line]))) =
      tape (trace step (new instruments) before) := by
    rw [tape_concat]
    exact List.append_nil _
  rw [hquiet] at hpub
  have hearlier := (merged_run instruments before).mem_acc_of_pub hpub
  have hvenue := (RawEvent.canonicalize_identity hfill).1
  rw [show ((recvTs, fill) : UInt64 × Fill).2.venue = event.venue from hvenue] at hearlier
  have hlt := (List.pairwise_append.mp horder).2.2 _ hearlier _ (List.mem_singleton_self _)
  exact absurd hlt.2 (lt_irrefl _)

/-- An accepted fill is on the tape exactly when one of the later calls released it: a flush, or a
drain after the other venue was stamped past it. -/
theorem published_when_released (instruments : S) (before after : List Op) (recvTs : UInt64)
    (line : RawLine) (event : RawEvent) (fill : Fill) (hp : line.parsed = .ok event)
    (hfill : event.canonicalize instruments = .ok fill)
    (hacc : ((exec step (new instruments) before).fillCaught recvTs line).1 = .accepted) :
    (recvTs, fill) ∈ (tape (trace step (new instruments)
        (before ++ .fillCaught recvTs line :: after))).map stamped ↔
      ∃ earlier op later, after = earlier ++ op :: later ∧
        op.releases event.venue recvTs
          (earlier.reverse ++ .fillCaught recvTs line :: before.reverse) = true := by
  obtain ⟨hlane, hwaits⟩ := accepted_waits hp hfill hacc
  rw [← released_iff]
  induction after using List.reverseRecOn with
  | nil => exact ⟨fun hpub => absurd hpub hwaits, fun h => by cases h⟩
  | append_singleton after op ih =>
    have hmem : (recvTs, fill) ∈ laneOn instruments event.venue (arrivals (trace step
        (new instruments) (before ++ .fillCaught recvTs line :: after))) := by
      rw [List.append_cons, trace_append, arrivals_append]
      exact mem_laneOn_append hlane _
    have hpast : (before ++ .fillCaught recvTs line :: after).reverse =
        after.reverse ++ .fillCaught recvTs line :: before.reverse := by
      rw [List.append_cons, List.reverse_append, List.reverse_concat]
    rw [released_concat, Bool.or_eq_true, ← ih, ← hpast, ← mem_tape_concat hmem op,
      List.append_assoc, List.cons_append]

/-- At equal stamps a perpetual fill need not wait for more from the other venue. -/
theorem published_when_released_tie :
    let fill : Fill := ⟨.hl, "e", 1, 1, "account", "BTC-PERP", "BTC-PERP", .perp, .buy, 200, 20, 0⟩
    (1, fill) ∈ (tape (trace step (new Registry.standard) ([] ++ .fillCaught 1
      (hlLine "e" 1 "0.002") :: [.fillCaught 1 (pmLine "p" 1), .drainReady]))).map stamped := by
  intro fill
  refine (published_when_released Registry.standard [] _ 1 (hlLine "e" 1 "0.002") _ fill rfl
    (by decide +kernel) (by decide +kernel)).mpr ?_
  exact ⟨[.fillCaught 1 (pmLine "p" 1)], .drainReady, [], rfl, by decide +kernel⟩

/-! ## Liveness -/

/-- With every lane stamped past what waits on the other one, `drain_ready` finishes the tape. -/
theorem drained_of_due
    (hdue : ∀ w, ∀ q ∈ ((exec step (new instruments) ops).sequencer.lanes w).buffer,
      due (frontierOf · ops.reverse) w q.1 = true) :
    (exec step (new instruments) (ops ++ [Op.drainReady])).sequencer.depth = 0 := by
  rw [Sequencer.depth_eq_zero]
  intro w
  have hleft := ((merged_run instruments ops).drain_exact w).2
  rw [frontier_run] at hleft
  rw [exec_concat]
  refine hleft.trans (List.filter_eq_nil_iff.mpr fun q hq => ?_)
  rw [hdue w q hq]
  exact Bool.false_ne_true

/-- What waits on a lane was stamped on it. -/
theorem mem_stamps_of_buffer {q : UInt64 × Fill}
    (hq : q ∈ ((exec step (new instruments) ops).sequencer.lanes v).buffer) :
    q.1 ∈ stamps v ops := by
  have hmem := (merged_run instruments ops).mem_acc_of_buffer hq
  obtain ⟨a, ha, hentry⟩ := List.mem_filterMap.mp hmem
  obtain ⟨entry, hin, hof⟩ := List.mem_filterMap.mp ha
  have hop : entry.1 ∈ ops := by
    have hfst := List.mem_map_of_mem (f := Prod.fst) hin
    rwa [trace_map_fst] at hfst
  obtain ⟨op, reply⟩ := entry
  cases op with
  | fillCaught recvTs line =>
    cases reply with
    | caught outcome =>
      cases hof
      rw [entryOn] at hentry
      split at hentry
      · next hon =>
        obtain ⟨fill, -, rfl⟩ := Option.map_eq_some_iff.mp hentry
        exact List.mem_filterMap.mpr ⟨_, hop, if_pos hon.2⟩
      · cases hentry
    | ticked => cases hof
    | drained out => cases hof
  | tick venue nowTs => cases hof
  | drainReady => cases hof
  | flush => cases hof

/-- Ticks past all stamps finish the tape: the lanes are empty, the tape is the one a flush would
have left, and a flush has nothing to add. -/
theorem ticks_finish_tape (instruments : S) (ops : List Op) (nowHl nowPm : UInt64)
    (hhl : ∀ stamp ∈ stamps .pm ops, stamp < nowHl)
    (hpm : ∀ stamp ∈ stamps .hl ops, stamp ≤ nowPm) :
    let ticked := ops ++ [Op.tick .hl nowHl, Op.tick .pm nowPm, Op.drainReady]
    let self := exec step (new instruments) ticked
    self.sequencer.depth = 0 ∧
      tape (trace step (new instruments) ticked) =
        tape (trace step (new instruments) (ops ++ [Op.flush])) ∧
      self.flush.1 = [] := by
  intro ticked self
  have hsplit : ticked = (ops ++ [Op.tick .hl nowHl, Op.tick .pm nowPm]) ++ [Op.drainReady] := by
    rw [List.append_assoc]
    rfl
  have hbuffer : ∀ w, ((exec step (new instruments)
      (ops ++ [Op.tick .hl nowHl, Op.tick .pm nowPm])).sequencer.lanes w).buffer =
      ((exec step (new instruments) ops).sequencer.lanes w).buffer := by
    intro w
    rw [List.append_cons, exec_concat, exec_concat]
    simp [step, Ingester.tick, Sequencer.tick_lanes]
  have hfrontHl : frontierOf .hl (ops ++ [Op.tick .hl nowHl, Op.tick .pm nowPm]).reverse =
      max nowHl (frontierOf .hl ops.reverse) := by
    rw [List.reverse_append]
    rfl
  have hfrontPm : frontierOf .pm (ops ++ [Op.tick .hl nowHl, Op.tick .pm nowPm]).reverse =
      max nowPm (frontierOf .pm ops.reverse) := by
    rw [List.reverse_append]
    rfl
  have hempty : self.sequencer.depth = 0 := by
    show (exec step (new instruments) ticked).sequencer.depth = 0
    rw [hsplit]
    refine drained_of_due fun w q hq => ?_
    rw [hbuffer] at hq
    have hstamp := mem_stamps_of_buffer hq
    cases w with
    | hl =>
      rw [due, hfrontPm]
      exact decide_eq_true ((hpm _ hstamp).trans (le_max_left _ _))
    | pm =>
      rw [due, hfrontHl]
      exact decide_eq_true ((hhl _ hstamp).trans_le (le_max_left _ _))
  have hnone : self.flush.1 = [] := by
    show (Sequencer.drain false { self.sequencer with «sealed» := true }).1 = []
    rw [Sequencer.drain_of_empty (s := { self.sequencer with «sealed» := true }) false
      (Sequencer.depth_eq_zero.mp hempty)]
  refine ⟨hempty, ?_, hnone⟩
  -- A flush adds nothing to the ticked run, and finds the lanes of the plain one.
  have hflushed : tape (trace step (new instruments) (ticked ++ [Op.flush])) =
      tape (trace step (new instruments) ticked) := by
    rw [tape_concat]
    show _ ++ self.flush.1 = _
    rw [hnone, List.append_nil]
  rw [← hflushed]
  apply tape_eq_of_lanes_eq
  intro w
  congr 1
  rw [trace_append, trace_append, trace_append, arrivals_append, arrivals_append, arrivals_append]
  exact List.append_nil _

/-- One fill on each lane at the same stamp. -/
def tied : List Op := [.fillCaught 1 (pmLine "p" 1), .fillCaught 1 (hlLine "e" 1 "0.002")]

theorem ticks_finish_tape_tied :
    let ticked := tied ++ [Op.tick .hl 2, Op.tick .pm 1, Op.drainReady]
    let self := exec step (new Registry.standard) ticked
    self.sequencer.depth = 0 ∧
      tape (trace step (new Registry.standard) ticked) =
        tape (trace step (new Registry.standard) (tied ++ [Op.flush])) ∧
      self.flush.1 = [] := by
  have hhl : stamps .hl tied = [1] := by decide
  have hpm : stamps .pm tied = [1] := by decide
  exact ticks_finish_tape Registry.standard tied 2 1 (by simp [hpm]) (by simp [hhl])

end Publication

end Bitfrost.Ingester

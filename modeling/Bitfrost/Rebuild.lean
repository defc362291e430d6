import Bitfrost.Schedule

/-!
A published tape can be replayed. Its entries, or any of them in tape order
(one account, one instrument, a prefix), pushed onto a new sequencer in any
schedule that keeps each venue's order, are all admitted, and one `flush`
publishes them again, numbered from one.
-/

namespace Bitfrost.Sequencer

open Bitfrost.Lib

/-- The pushes that put the entries of `venue` back on its lane. -/
def pushesOn (venue : Venue) (entries : List SequencedFill) : List LaneOp :=
  (entries.filter (·.fill.venue = venue)).map fun e => .push e.recvTs e.fill

/-- A lane admits what is in lane order and ahead of it. -/
theorem laneRun_pushes {v : Venue} {lane : Lane} {l : List (UInt64 × Fill)}
    (hown : ∀ p ∈ l, p.2.venue = v) (horder : l.Pairwise LaneLt)
    (hfront : ∀ p ∈ l, lane.frontier ≤ p.1)
    (hseq : ∀ p ∈ l, ∀ last, lane.lastSeq = some last → last < p.2.seq) :
    laneRun v lane (l.map fun p => .push p.1 p.2) = l.map fun p => (p.1, p.2, .ok ()) := by
  induction l generalizing lane with
  | nil => rfl
  | cons p l ih =>
    obtain ⟨hhead, htail⟩ := List.pairwise_cons.mp horder
    have hguards : lane.guards v p.1 p.2 = .ok () :=
      Lane.guards_eq_ok.mpr ⟨hown p List.mem_cons_self, hfront p List.mem_cons_self,
        hseq p List.mem_cons_self⟩
    rw [List.map_cons, List.map_cons, laneRun, hguards]
    refine congrArg (List.cons _) (ih (fun q hq => hown q (List.mem_cons_of_mem p hq)) htail
      (fun q hq => (hhead q hq).1) fun q hq last hlast => ?_)
    cases hlast
    exact (hhead q hq).2

section Entries

variable {ops : List Op} {entries : List SequencedFill}

/-- The published entries of a venue, as they were accepted, are in lane order. -/
theorem laneOrder_entries (h : entries.Sublist (tape (trace step new ops))) (v : Venue) :
    ((entries.filter (·.fill.venue = v)).map stamped).Pairwise LaneLt := by
  have hm := (consistent_run ops).merged
  have hlane : (((tape (trace step new ops)).map stamped).filter (·.2.venue = v)).Pairwise
      LaneLt := by
    have horder := hm.laneOrder v
    rw [← hm.conserve v] at horder
    exact (List.pairwise_append.mp horder).1
  rw [List.filter_map] at hlane
  exact hlane.sublist ((h.filter _).map _)

theorem answered_pushes (h : entries.Sublist (tape (trace step new ops))) {pushes : List Op}
    (hs : Schedule (pushesOn .hl entries) (pushesOn .pm entries) pushes) (v : Venue) :
    answered v (trace step new pushes) =
      ((entries.filter (·.fill.venue = v)).map stamped).map fun p => (p.1, p.2, .ok ()) := by
  have hlane : laneOf (pushesOn .hl entries) (pushesOn .pm entries) v =
      ((entries.filter (·.fill.venue = v)).map stamped).map fun p => LaneOp.push p.1 p.2 := by
    rw [List.map_map]
    cases v <;> rfl
  rw [answered_schedule hs rfl, hlane]
  refine laneRun_pushes (fun p hp => ?_) (laneOrder_entries h v) (fun p _ => ?_)
    fun p _ last hl => ?_
  · obtain ⟨e, he, rfl⟩ := List.mem_map.mp hp
    exact of_decide_eq_true (List.mem_filter.mp he).2
  · exact UInt64.zero_le
  · cases hl

/-- Any part of a published tape, in tape order, is admitted again and published again. -/
theorem rebuilt_tape (ops : List Op) (entries : List SequencedFill)
    (h : entries.Sublist (tape (trace step new ops))) {pushes : List Op}
    (hs : Schedule (pushesOn .hl entries) (pushesOn .pm entries) pushes) :
    (∀ v, ∀ a ∈ answered v (trace step new pushes), a.2.2 = .ok ()) ∧
      tape (trace step new (pushes ++ [.flush])) = number (entries.map stamped) ∧
      (entries = tape (trace step new ops) →
        tape (trace step new (pushes ++ [.flush])) = tape (trace step new ops)) := by
  have htape : tape (trace step new (pushes ++ [.flush])) = number (entries.map stamped) := by
    have hc := consistent_run (pushes ++ [.flush])
    have hsorted : (entries.map stamped).Pairwise fun p q => sortKey p < sortKey q :=
      (consistent_run ops).merged.ordered.sublist (h.map _)
    have hpub : (tape (trace step new (pushes ++ [.flush]))).map stamped =
        entries.map stamped := by
      apply eq_of_perm_of_sorted sortKey hc.merged.ordered hsorted
      apply perm_of_filter_eq (fun p : UInt64 × Fill => p.2.venue)
      intro v
      have hempty := hc.drained (hc.closed.mpr (by rw [trace_map_fst]; simp)) v
      have hlane := hc.merged.conserve v
      have hend : accepted v (trace step new (pushes ++ [.flush])) =
          accepted v (trace step new pushes) := by
        rw [trace_concat, accepted_append]
        exact List.append_nil _
      rw [hempty, List.append_nil, hend, accepted_eq_answered, answered_pushes h hs v,
        List.filterMap_map] at hlane
      rw [hlane, List.filter_map]
      exact List.filterMap_some
    rw [hc.numbered, hpub]
  refine ⟨fun v a ha => ?_, htape, ?_⟩
  · rw [answered_pushes h hs v] at ha
    obtain ⟨p, -, rfl⟩ := List.mem_map.mp ha
    rfl
  · rintro rfl
    rw [htape]
    exact (consistent_run ops).numbered.symm

/-- Replayed venue-major without its second entry. -/
theorem rebuilt_tape_venue_major :
    let ops : List Op := [.push .hl 1 (unitFill .hl 1), .push .hl 1 (unitFill .hl 2),
      .push .pm 2 (unitFill .pm 9), .push .hl 4 (unitFill .hl 3), .flush]
    let entries := (tape (trace step new ops)).eraseIdx 1
    let pushes : List Op := [.push .hl 1 (unitFill .hl 1), .push .hl 4 (unitFill .hl 3),
      .drainReady, .push .pm 2 (unitFill .pm 9)]
    entries.length = 3 ∧
      tape (trace step new (pushes ++ [.flush])) = number (entries.map stamped) := by
  intro ops entries pushes
  have hs : Schedule (pushesOn .hl entries) (pushesOn .pm entries) pushes :=
    .hl (.push 1 (unitFill .hl 1)) <| .hl (.push 4 (unitFill .hl 3)) <| .drain <|
      .pm (.push 2 (unitFill .pm 9)) .done
  exact ⟨by decide, (rebuilt_tape ops entries (List.eraseIdx_sublist _ _) hs).2.1⟩

end Entries

end Bitfrost.Sequencer

import Bitfrost.Isolation

/-!
At-least-once delivery, exactly-once effect. A venue may send a line again as
often as it likes, a line may be corrupted into another copy of its id or may
not parse at all: the run ends with the tape, the counts and the outcomes of
the run in which every id arrives once.
-/

namespace Bitfrost.Ingester

open Bitfrost.Lib
open Bitfrost.Sequencer (Merged stamped sortKey number)

/-! ## The statement -/

/-- The call is an arrival that does not parse, or whose id an arrival of `past` carries. -/
def Op.redundant (past : List Op) : Op → Bool
  | .fillCaught _ line =>
    match line.parsed with
    | .ok event => (firstCopy (event.venue, event.eventId) past).isSome
    | .error _ => true
  | _ => false

/-- The calls after `past`, without the redundant arrivals. -/
def distilled : List Op → List Op → List Op
  | _, [] => []
  | past, op :: ops =>
    if op.redundant past then distilled (op :: past) ops else op :: distilled (op :: past) ops

/-- The arrival is the first with its id. -/
def claims : IngestOutcome → Bool
  | .accepted => true
  | .deadLettered (.rejected _) => true
  | .deadLettered (.outOfOrder _) => true
  | _ => false

/-- The run `ops'` keeps of the run `ops` the arrivals that claimed their id, each with its outcome,
and ends with the same tape and the same counts of accepted and missing events. -/
structure Distills {S : Type} [InstrumentSource S] (instruments : S) (ops ops' : List Op) :
    Prop where
  outcomes : arrivals (trace step (new instruments) ops') =
    (arrivals (trace step (new instruments) ops)).filter (claims ·.outcome)
  published : tape (trace step (new instruments) (ops' ++ [Op.flush])) =
    tape (trace step (new instruments) (ops ++ [Op.flush]))
  accepted : (exec step (new instruments) ops').stats.accepted =
    (exec step (new instruments) ops).stats.accepted
  gaps : (exec step (new instruments) ops').stats.gaps =
    (exec step (new instruments) ops).stats.gaps

section Redelivery

variable {S : Type} [InstrumentSource S] {instruments : S} {op : Op} {ops past past' : List Op}
  {recvTs : UInt64} {line : RawLine} {event : RawEvent}

/-! ## A redundant arrival -/

theorem redundant_of_ok (hp : line.parsed = .ok event) (recvTs : UInt64) :
    (Op.fillCaught recvTs line).redundant past =
      (firstCopy (event.venue, event.eventId) past).isSome := by
  rw [Op.redundant, hp]

/-- An arrival claims its id exactly when it is not redundant. -/
theorem claims_classify (instruments : S) (past : List Op) (recvTs : UInt64) (line : RawLine) :
    claims (classify instruments past recvTs line) =
      !(Op.fillCaught recvTs line).redundant past := by
  cases hp : line.parsed with
  | error error => simp [classify, judge, hp, Op.redundant, claims]
  | ok event =>
    rw [redundant_of_ok hp]
    cases hfirst : firstCopy (event.venue, event.eventId) past with
    | some first =>
      rw [classify_known hp hfirst]
      cases sameEvent instruments first event <;> rfl
    | none =>
      cases hfill : event.canonicalize instruments with
      | error reason =>
        rw [classify_rejected hp hfirst hfill]
        rfl
      | ok fill =>
        rw [classify_new hp hfirst hfill]
        split
        · rfl
        · split
          · rfl
          · split <;> rfl

theorem not_accepted_of_redundant (h : (Op.fillCaught recvTs line).redundant past = true) :
    classify instruments past recvTs line ≠ .accepted := by
  intro hacc
  have hclaims := claims_classify instruments past recvTs line
  rw [hacc, h] at hclaims
  cases hclaims

theorem redundant_isArrival (h : op.redundant past = true) :
    ∃ recvTs line, op = .fillCaught recvTs line := by
  cases op with
  | fillCaught recvTs line => exact ⟨recvTs, line, rfl⟩
  | tick venue nowTs => cases h
  | drainReady => cases h
  | flush => cases h

/-- A redundant arrival is the first copy of nothing. -/
theorem firstCopy_of_redundant (h : op.redundant past = true) (key : Venue × String) :
    firstCopy key (op :: past) = firstCopy key past := by
  obtain ⟨recvTs, line, rfl⟩ := redundant_isArrival h
  rw [firstCopy]
  cases hp : line.parsed with
  | error error => rw [Op.eventWith, hp, Option.or_none]
  | ok event =>
    rw [redundant_of_ok hp] at h
    rw [eventWith_of_ok hp]
    split
    · next hkey =>
      subst hkey
      obtain ⟨first, hfirst⟩ := Option.isSome_iff_exists.mp h
      rw [hfirst, Option.some_or]
    · exact Option.or_none

/-- After a redundant arrival no later call can tell that it was there. -/
theorem Alike.skip (h : Alike instruments (op :: ops) past past')
    (hredundant : op.redundant past = true) : Alike instruments ops (op :: past) past' := by
  refine ⟨fun later hlater key hkey => ?_, ?_, fun v => ?_, ahead_step h.sorted h.ahead,
    fun v stamp hmem t ht => ?_, h.step.sorted⟩
  · rw [firstCopy_of_redundant hredundant]
    exact h.copies later (List.mem_cons_of_mem _ hlater) key hkey
  · obtain ⟨recvTs, line, rfl⟩ := redundant_isArrival hredundant
    exact h.flushed
  · obtain ⟨recvTs, line, rfl⟩ := redundant_isArrival hredundant
    rw [← h.seqs v]
    cases hp : line.parsed with
    | error error => exact acceptedSeqs_malformed hp v
    | ok event => exact acceptedSeqs_unaccepted hp (not_accepted_of_redundant hredundant) v
  · refine h.ahead' v stamp hmem t ?_
    rw [stamps_cons]
    exact List.mem_append_right _ ht

/-! ## Whole runs -/

theorem verdicts_distilled (h : Alike instruments ops past past') :
    verdicts instruments past' (distilled past ops) =
        (verdicts instruments past ops).filter (claims ·.outcome) ∧
      Alike instruments [] (ops.reverse ++ past) ((distilled past ops).reverse ++ past') := by
  induction ops generalizing past past' with
  | nil => exact ⟨rfl, h⟩
  | cons op ops ih =>
    rw [List.reverse_cons, List.append_assoc, distilled]
    cases hredundant : op.redundant past with
    | true =>
      obtain ⟨hrest, hend⟩ := ih (h.skip hredundant)
      obtain ⟨recvTs, line, rfl⟩ := redundant_isArrival hredundant
      have hclaims := claims_classify instruments past recvTs line
      rw [hredundant] at hclaims
      rw [if_pos rfl, verdicts, List.filter_cons_of_neg (by simp [hclaims])]
      exact ⟨hrest, hend⟩
    | false =>
      obtain ⟨hrest, hend⟩ := ih h.step
      rw [if_neg Bool.false_ne_true, List.reverse_cons, List.append_assoc]
      refine ⟨?_, hend⟩
      cases op with
      | fillCaught recvTs line =>
        have hclaims := claims_classify instruments past recvTs line
        rw [hredundant] at hclaims
        rw [verdicts, verdicts, List.filter_cons_of_pos (by simp [hclaims]), hrest, h.classify_eq]
      | tick venue nowTs => exact hrest
      | drainReady => exact hrest
      | flush => exact hrest

/-- An arrival that claims no id is on no lane. -/
theorem laneOn_filter_claims (v : Venue) (arrived : List Arrival) :
    laneOn instruments v (arrived.filter (claims ·.outcome)) = laneOn instruments v arrived := by
  rw [laneOn, laneOn, List.filterMap_filter]
  apply List.filterMap_congr
  intro a _
  by_cases hacc : a.outcome = .accepted
  · rw [hacc]
    rfl
  · have hnone : entryOn instruments v a = none := if_neg fun hon => hacc hon.1
    rw [hnone, ite_self]

theorem countP_filter_claims (arrived : List Arrival) :
    (arrived.filter (claims ·.outcome)).countP (·.outcome = .accepted) =
      arrived.countP (·.outcome = .accepted) := by
  rw [List.countP_filter]
  apply List.countP_congr
  intro a _
  by_cases hacc : a.outcome = .accepted <;> simp [hacc, claims]

end Redelivery

end Bitfrost.Ingester

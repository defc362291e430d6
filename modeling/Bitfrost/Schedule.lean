import Bitfrost.Tape

/-!
The merge is a function of the lanes. Two schedules of the same lane
operations, with drains wherever they like, give every push the same answer
and end, after `flush`, with the same tape.
-/

namespace Bitfrost.Sequencer

open Bitfrost.Lib

/-- What one producer does to its own lane. -/
inductive LaneOp
  | push (recvTs : UInt64) (fill : Fill)
  | tick (nowTs : UInt64)

def LaneOp.on (venue : Venue) : LaneOp → Op
  | .push recvTs fill => .push venue recvTs fill
  | .tick nowTs => .tick venue nowTs

/-- `Schedule hls pms ops`: the run `ops` interleaves the two lists, each in its own order,
with `drain_ready` calls anywhere. -/
inductive Schedule : List LaneOp → List LaneOp → List Op → Prop
  | done : Schedule [] [] []
  | hl {hls pms ops} (op : LaneOp) :
      Schedule hls pms ops → Schedule (op :: hls) pms (op.on .hl :: ops)
  | pm {hls pms ops} (op : LaneOp) :
      Schedule hls pms ops → Schedule hls (op :: pms) (op.on .pm :: ops)
  | drain {hls pms ops} : Schedule hls pms ops → Schedule hls pms (.drainReady :: ops)

/-- A push with its answer. -/
abbrev Answered := UInt64 × Fill × Except SequencerError Unit

def answers (venue : Venue) : Op × Reply → Option Answered
  | (.push lane recvTs fill, .pushed result) =>
    if lane = venue then some (recvTs, fill, result) else none
  | _ => none

/-- The pushes on the lane of `venue`, each with its answer, in order. -/
def answered (venue : Venue) (hist : History) : List Answered := hist.filterMap (answers venue)

/-- What a lane answers when nothing else is going on. -/
def laneRun (venue : Venue) : Lane → List LaneOp → List Answered
  | _, [] => []
  | lane, .tick nowTs :: ops =>
    laneRun venue { lane with frontier := max lane.frontier nowTs } ops
  | lane, .push recvTs fill :: ops =>
    match lane.guards venue recvTs fill with
    | .ok () => (recvTs, fill, .ok ()) :: laneRun venue (lane.enqueue recvTs fill) ops
    | .error error => (recvTs, fill, .error error) :: laneRun venue lane ops

@[simp] theorem answered_cons (v : Venue) (entry : Op × Reply) (hist : History) :
    answered v (entry :: hist) = (answers v entry).toList ++ answered v hist :=
  filterMap_cons_toList _ entry hist

@[simp] theorem answered_nil (v : Venue) : answered v [] = [] := rfl

/-- The accepted pushes are those answered `Ok`. -/
theorem accepted_eq_answered (v : Venue) (hist : History) :
    accepted v hist =
      (answered v hist).filterMap fun a =>
        match a with
        | (recvTs, fill, .ok ()) => some (recvTs, fill)
        | _ => none := by
  induction hist with
  | nil => rfl
  | cons entry hist ih =>
    rw [accepted_cons, answered_cons, List.filterMap_append, ← ih]
    congr 1
    obtain ⟨op, reply⟩ := entry
    cases op with
    | push lane t f =>
      cases reply with
      | pushed result =>
        by_cases hl : lane = v <;> cases result <;> simp [accepts, answers, hl]
      | ticked => rfl
      | drained out => rfl
    | tick lane t => rfl
    | drainReady => rfl
    | flush => rfl

/-- The answers do not depend on what is buffered. -/
theorem laneRun_congr (v : Venue) {l l' : Lane} (hf : l.frontier = l'.frontier)
    (hs : l.lastSeq = l'.lastSeq) (ops : List LaneOp) : laneRun v l ops = laneRun v l' ops := by
  induction ops generalizing l l' with
  | nil => rfl
  | cons op ops ih =>
    cases op with
    | tick t =>
      simp only [laneRun]
      exact ih (by simp [hf]) hs
    | push t f =>
      have ha : l.guards v t f = l'.guards v t f := by simp [Lane.guards, hf, hs]
      simp only [laneRun, ha]
      cases l'.guards v t f with
      | ok u =>
        have hrest : laneRun v (l.enqueue t f) ops = laneRun v (l'.enqueue t f) ops := ih rfl rfl
        exact congrArg (List.cons _) hrest
      | error e => exact congrArg _ (ih hf hs)

theorem drain_guards (gated : Bool) (s : Sequencer) (v : Venue) :
    ((s.drain gated).2.lanes v).frontier = (s.lanes v).frontier ∧
      ((s.drain gated).2.lanes v).lastSeq = (s.lanes v).lastSeq ∧
      (s.drain gated).2.sealed = s.sealed := by
  refine drainLoop_keeps gated
    (fun _ t => (t.lanes v).frontier = (s.lanes v).frontier ∧
      (t.lanes v).lastSeq = (s.lanes v).lastSeq ∧ t.sealed = s.sealed)
    ?_ s.depth [] s ⟨rfl, rfl, rfl⟩
  intro out t e t' h hd
  obtain ⟨w, rest, -, -, rfl, -⟩ := drainStep_eq_some hd
  by_cases hw : v = w
  · subst hw
    simpa using h
  · simpa [setLane_lanes, hw] using h

/-- A lane operation on an open sequencer touches, and is answered by, its own lane alone. -/
theorem step_on {s : Sequencer} (hs : s.sealed = false) (w : Venue) (op : LaneOp) :
    (step s (op.on w)).2.sealed = false ∧
    (∀ v, v ≠ w → (step s (op.on w)).2.lanes v = s.lanes v ∧
      answers v (op.on w, (step s (op.on w)).1) = none) ∧
    (∀ ops, (answers w (op.on w, (step s (op.on w)).1)).toList ++
        laneRun w ((step s (op.on w)).2.lanes w) ops =
      laneRun w (s.lanes w) (op :: ops)) := by
  cases op with
  | tick t =>
    refine ⟨hs, ?_, ?_⟩
    · intro v hv
      simp [LaneOp.on, step, tick_lanes, hv, answers]
    · intro ops
      simp [LaneOp.on, step, tick_lanes, answers, laneRun]
  | push t f =>
    simp only [LaneOp.on, step, push, hs, Bool.false_eq_true, ↓reduceIte, laneRun]
    cases ha : (s.lanes w).guards w t f with
    | error e =>
      refine ⟨hs, ?_, ?_⟩
      · intro v hv
        simp [answers, Ne.symm hv]
      · intro ops
        simp [answers]
    | ok u =>
      refine ⟨hs, ?_, ?_⟩
      · intro v hv
        simp [answers, Ne.symm hv, setLane_lanes, hv]
      · intro ops
        simp [answers]

/-- The operations of one venue in a schedule. -/
def laneOf (hls pms : List LaneOp) : Venue → List LaneOp
  | .hl => hls
  | .pm => pms

/-- Whatever the schedule, each lane is answered as if it ran alone. -/
theorem answered_schedule {hls pms : List LaneOp} {ops : List Op} (h : Schedule hls pms ops)
    {s : Sequencer} (hs : s.sealed = false) (v : Venue) :
    answered v (trace step s ops) = laneRun v (s.lanes v) (laneOf hls pms v) := by
  induction h generalizing s with
  | done => cases v <;> rfl
  | hl op _ ih =>
    obtain ⟨hs', hother, hown⟩ := step_on hs .hl op
    rw [trace_cons, answered_cons, ih hs']
    cases v with
    | hl => exact hown _
    | pm =>
      obtain ⟨hl, ha⟩ := hother .pm (by decide)
      rw [hl, ha]
      rfl
  | pm op _ ih =>
    obtain ⟨hs', hother, hown⟩ := step_on hs .pm op
    rw [trace_cons, answered_cons, ih hs']
    cases v with
    | hl =>
      obtain ⟨hl, ha⟩ := hother .hl (by decide)
      rw [hl, ha]
      rfl
    | pm => exact hown _
  | drain _ ih =>
    obtain ⟨hf, hl, hsealed⟩ := drain_guards true s v
    rw [trace_cons, answered_cons]
    exact (ih (hsealed.trans hs)).trans (laneRun_congr v hf hl _)

/-- After `flush` the tape is the numbered sort of what the lanes accepted. -/
theorem tape_eq_of_accepted_eq {ops ops' : List Op}
    (h : ∀ v, accepted v (trace step Sequencer.new ops) =
      accepted v (trace step Sequencer.new ops'))
    (hflush : Op.flush ∈ ops) (hflush' : Op.flush ∈ ops') :
    tape (trace step Sequencer.new ops) = tape (trace step Sequencer.new ops') := by
  have lanes : ∀ ops, Op.flush ∈ ops → ∀ v,
      ((tape (trace step Sequencer.new ops)).map stamped).filter (·.2.venue = v) =
        accepted v (trace step Sequencer.new ops) := by
    intro ops hf v
    have hc := consistent_run ops
    have hempty := hc.drained (hc.closed.mpr (by rwa [trace_map_fst])) v
    simpa [hempty] using hc.merged.conserve v
  have hc := consistent_run ops
  have hc' := consistent_run ops'
  have hpub : (tape (trace step Sequencer.new ops)).map stamped =
      (tape (trace step Sequencer.new ops')).map stamped := by
    apply eq_of_perm_of_sorted sortKey hc.merged.ordered hc'.merged.ordered
    apply perm_of_filter_eq (fun p : UInt64 × Fill => p.2.venue)
    intro v
    rw [lanes ops hflush v, lanes ops' hflush' v, h v]
  rw [hc.numbered, hc'.numbered, hpub]

/-- Schedule independence of the merge. -/
theorem schedule_independent {hls pms : List LaneOp} {ops ops' : List Op}
    (h : Schedule hls pms ops) (h' : Schedule hls pms ops') :
    (∀ v, answered v (trace step Sequencer.new (ops ++ [.flush])) =
      answered v (trace step Sequencer.new (ops' ++ [.flush]))) ∧
    tape (trace step Sequencer.new (ops ++ [.flush])) =
      tape (trace step Sequencer.new (ops' ++ [.flush])) := by
  have hanswered : ∀ v, answered v (trace step Sequencer.new (ops ++ [.flush])) =
      answered v (trace step Sequencer.new (ops' ++ [.flush])) := by
    intro v
    have hend : ∀ ops, answered v (trace step Sequencer.new (ops ++ [.flush])) =
        answered v (trace step Sequencer.new ops) := by
      intro ops
      simp [trace_concat, answered, answers]
    rw [hend, hend, answered_schedule h rfl, answered_schedule h' rfl]
  refine ⟨hanswered, tape_eq_of_accepted_eq ?_ (by simp) (by simp)⟩
  intro v
  rw [accepted_eq_answered, accepted_eq_answered, hanswered]

/-- The fill of the sequencer's own unit tests. -/
def unitFill (venue : Venue) (seq : UInt64) : Fill :=
  { venue := venue, eventId := "event", seq := seq, tsMs := 1, account := "acct"
    instrument := "instrument", symbol := "symbol", kind := .perp, side := .buy
    price := 100, qty := 1, fee := 0 }

/-- Eager drains after every push against venue-major pushes and one flush. -/
theorem schedule_independent_eager_lazy :
    let hl (t seq : UInt64) : Op := .push .hl t (unitFill .hl seq)
    let pm (t seq : UInt64) : Op := .push .pm t (unitFill .pm seq)
    let eager := [hl 1 1, .drainReady, pm 1 10, .drainReady, hl 3 2, .drainReady, pm 4 11,
      .drainReady, hl 4 5, .drainReady]
    let lazy := [hl 1 1, hl 3 2, hl 4 5, pm 1 10, pm 4 11]
    (∀ v, answered v (trace step Sequencer.new (eager ++ [.flush])) =
      answered v (trace step Sequencer.new (lazy ++ [.flush]))) ∧
    tape (trace step Sequencer.new (eager ++ [.flush])) =
      tape (trace step Sequencer.new (lazy ++ [.flush])) :=
  schedule_independent
    (.hl (.push 1 (unitFill .hl 1)) <| .drain <| .pm (.push 1 (unitFill .pm 10)) <| .drain <|
      .hl (.push 3 (unitFill .hl 2)) <| .drain <| .pm (.push 4 (unitFill .pm 11)) <| .drain <|
      .hl (.push 4 (unitFill .hl 5)) <| .drain .done)
    (.hl (.push 1 (unitFill .hl 1)) <| .hl (.push 3 (unitFill .hl 2)) <|
      .hl (.push 4 (unitFill .hl 5)) <| .pm (.push 1 (unitFill .pm 10)) <|
      .pm (.push 4 (unitFill .pm 11)) .done)

end Bitfrost.Sequencer

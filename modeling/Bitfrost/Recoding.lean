import Bitfrost.Publication

/-!
Two runs on different payloads that tell the ingester the same story. A change
of payloads that keeps venues, ids and sequence numbers, and that amounts to a
change of canonical fills, changes nothing else: the same outcomes, the same
counts, letters and alerts, and the same tape but for the changed fills.
-/

namespace Bitfrost.Ingester

open Bitfrost.Lib
open Bitfrost.Sequencer (Merged stamped sortKey number due)

/-! ## The statement -/

/-- The change `onEvent` of payloads is the change `onFill` of canonical fills, and keeps what the
ingester looks at. -/
structure Recoding {S : Type} [InstrumentSource S] (instruments : S)
    (onEvent : RawEvent → RawEvent) (onFill : Fill → Fill) : Prop where
  venue : ∀ event, (onEvent event).venue = event.venue
  eventId : ∀ event, (onEvent event).eventId = event.eventId
  same : ∀ a b, (onEvent a == onEvent b) = (a == b)
  canonical : ∀ event, (onEvent event).canonicalize instruments =
    (event.canonicalize instruments).map onFill
  fillVenue : ∀ fill, (onFill fill).venue = fill.venue
  fillSeq : ∀ fill, (onFill fill).seq = fill.seq
  injective : ∀ (a b : RawEvent) (f g : Fill), a.canonicalize instruments = .ok f →
    b.canonicalize instruments = .ok g → onFill f = onFill g → f = g
  seq : ∀ event, (onEvent event).seq = event.seq

def recodeLine (onEvent : RawEvent → RawEvent) (onText : String → String) (line : RawLine) :
    RawLine :=
  { line with text := onText line.text, parsed := line.parsed.map onEvent }

def Op.recode (onEvent : RawEvent → RawEvent) (onText : String → String) : Op → Op
  | .fillCaught recvTs line => .fillCaught recvTs (recodeLine onEvent onText line)
  | op => op

def Arrival.recode (onEvent : RawEvent → RawEvent) (onText : String → String)
    (arrival : Arrival) : Arrival :=
  { arrival with line := recodeLine onEvent onText arrival.line }

def recodeEntry (onFill : Fill → Fill) (entry : SequencedFill) : SequencedFill :=
  { entry with fill := onFill entry.fill }

/-- The run on changed payloads ends as the run `ops`, but for the payloads. -/
structure Recoded {S : Type} [InstrumentSource S] (instruments : S)
    (onEvent : RawEvent → RawEvent) (onFill : Fill → Fill) (onText : String → String)
    (ops : List Op) : Prop where
  outcomes : arrivals (trace step (new instruments) (ops.map (Op.recode onEvent onText))) =
    (arrivals (trace step (new instruments) ops)).map (Arrival.recode onEvent onText)
  published : tape (trace step (new instruments) (ops.map (Op.recode onEvent onText))) =
    (tape (trace step (new instruments) ops)).map (recodeEntry onFill)
  stats : (exec step (new instruments) (ops.map (Op.recode onEvent onText))).stats =
    (exec step (new instruments) ops).stats
  letters : (exec step (new instruments) (ops.map (Op.recode onEvent onText))).deadLetters =
    (exec step (new instruments) ops).deadLetters.map
      fun letter => { letter with text := letter.text.map onText }
  alerts : (exec step (new instruments) (ops.map (Op.recode onEvent onText))).alerts =
    (exec step (new instruments) ops).alerts

attribute [ext] IngestStats

section Recoding

variable {S : Type} [InstrumentSource S] {instruments : S} {onEvent : RawEvent → RawEvent}
  {onFill : Fill → Fill} {onText : String → String} {past ops : List Op}

/-! ## The history -/

theorem parsed_recodeLine (line : RawLine) :
    (recodeLine onEvent onText line).parsed = line.parsed.map onEvent := rfl

theorem isFlush_recode (past : List Op) :
    (past.map (Op.recode onEvent onText)).any Op.isFlush = past.any Op.isFlush := by
  rw [List.any_map]
  congr 1
  funext op
  cases op <;> rfl

theorem number_map (onFill : Fill → Fill) (l : List (UInt64 × Fill)) :
    number (l.map (Prod.map id onFill)) = (number l).map (recodeEntry onFill) := by
  induction l using List.reverseRecOn with
  | nil => rfl
  | append_singleton l p ih =>
    rw [List.map_append, List.map_singleton, Sequencer.number_concat, ih,
      Sequencer.number_concat, List.map_append, List.length_map]
    rfl

/-- A flush takes the lanes, whole. -/
theorem flush_lane {acc : Venue → List (UInt64 × Fill)} {pub : List (UInt64 × Fill)}
    {s : Sequencer} (h : Merged acc pub s) (v : Venue) :
    (s.flush.1.map stamped).filter (·.2.venue = v) = (s.lanes v).buffer := by
  have hafter := (h.seal.drain false (.inr rfl)).1.conserve v
  have hempty : ((Sequencer.drain false { s with «sealed» := true }).2.lanes v).buffer = [] :=
    Sequencer.flush_empty s v
  rw [hempty, List.append_nil, List.filter_append, ← h.conserve v] at hafter
  exact List.append_cancel_left hafter

section Facts

variable (h : Recoding instruments onEvent onFill)

include h

theorem Recoding.attributed_eq (line : RawLine) :
    attributed (recodeLine onEvent onText line) = attributed line := by
  rw [attributed, attributed, parsed_recodeLine]
  cases line.parsed with
  | error error => rfl
  | ok event => exact h.venue event

theorem Recoding.stampOn_eq (v : Venue) (op : Op) :
    (op.recode onEvent onText).stampOn v = op.stampOn v := by
  cases op with
  | fillCaught recvTs line => rw [Op.recode, Op.stampOn, Op.stampOn, h.attributed_eq]
  | tick lane nowTs => rfl
  | drainReady => rfl
  | flush => rfl

theorem Recoding.stamps_eq (v : Venue) (past : List Op) :
    stamps v (past.map (Op.recode onEvent onText)) = stamps v past := by
  rw [stamps, stamps, List.filterMap_map]
  exact List.filterMap_congr fun op _ => h.stampOn_eq v op

theorem Recoding.frontierOf_eq (v : Venue) (past : List Op) :
    frontierOf v (past.map (Op.recode onEvent onText)) = frontierOf v past := by
  rw [frontierOf, frontierOf, h.stamps_eq]

theorem Recoding.firstCopy_eq (key : Venue × String) (past : List Op) :
    firstCopy key (past.map (Op.recode onEvent onText)) =
      (firstCopy key past).map onEvent := by
  have hone : ∀ op : Op, (op.recode onEvent onText).eventWith key =
      (op.eventWith key).map onEvent := by
    intro op
    cases op with
    | fillCaught recvTs line =>
      rw [Op.recode, Op.eventWith, Op.eventWith, parsed_recodeLine]
      cases line.parsed with
      | error error => rfl
      | ok event =>
        show (if ((onEvent event).venue, (onEvent event).eventId) = key then _ else _) = _
        rw [h.venue, h.eventId]
        dsimp only
        split <;> rfl
    | tick lane nowTs => rfl
    | drainReady => rfl
    | flush => rfl
  induction past with
  | nil => rfl
  | cons op past ih =>
    rw [List.map_cons, firstCopy, firstCopy, ih, hone]
    cases firstCopy key past <;> rfl

theorem Recoding.sameEvent_eq (first event : RawEvent) :
    sameEvent instruments (onEvent first) (onEvent event) =
      sameEvent instruments first event := by
  rw [sameEvent, sameEvent, h.canonical, h.canonical]
  cases hf : first.canonicalize instruments with
  | error reason => exact h.same first event
  | ok f =>
    cases hg : event.canonicalize instruments with
    | error reason => exact h.same first event
    | ok g =>
      show decide (onFill f = onFill g) = decide (f = g)
      rw [decide_eq_decide]
      exact ⟨h.injective first event f g hf hg, congrArg onFill⟩

theorem Recoding.judge_eq (past : List Op) (seqs : List UInt64) (recvTs : UInt64) (line : RawLine) :
    judge instruments (past.map (Op.recode onEvent onText)) seqs recvTs
        (recodeLine onEvent onText line) =
      judge instruments past seqs recvTs line := by
  cases hp : line.parsed with
  | error error => simp only [judge, parsed_recodeLine, hp, Except.map]
  | ok event =>
    simp only [judge, parsed_recodeLine, hp, Except.map, h.venue, h.eventId, h.firstCopy_eq,
      h.stamps_eq, h.frontierOf_eq, h.seq, h.canonical, isFlush_recode]
    cases hfirst : firstCopy (event.venue, event.eventId) past with
    | some first => simp only [Option.map_some, h.sameEvent_eq]
    | none =>
      cases hfill : event.canonicalize instruments with
      | error reason => rfl
      | ok fill => rfl

theorem Recoding.acceptedSeqs_eq (v : Venue) (past : List Op) :
    acceptedSeqs instruments v (past.map (Op.recode onEvent onText)) =
      acceptedSeqs instruments v past := by
  induction past with
  | nil => rfl
  | cons op past ih =>
    cases op with
    | fillCaught recvTs line =>
      rw [List.map_cons, Op.recode, acceptedSeqs, acceptedSeqs]
      simp only [ih, h.judge_eq, parsed_recodeLine]
      cases line.parsed with
      | error error => rfl
      | ok event => simp only [Except.map, h.venue, h.seq]
    | tick lane nowTs => exact ih
    | drainReady => exact ih
    | flush => exact ih

theorem Recoding.classify_eq (past : List Op) (recvTs : UInt64) (line : RawLine) :
    classify instruments (past.map (Op.recode onEvent onText)) recvTs
        (recodeLine onEvent onText line) =
      classify instruments past recvTs line := by
  rw [classify, classify, h.attributed_eq, h.acceptedSeqs_eq, h.judge_eq]

theorem Recoding.verdicts_eq (past ops : List Op) :
    verdicts instruments (past.map (Op.recode onEvent onText))
        (ops.map (Op.recode onEvent onText)) =
      (verdicts instruments past ops).map (Arrival.recode onEvent onText) := by
  induction ops generalizing past with
  | nil => rfl
  | cons op ops ih =>
    have ih := ih (op :: past)
    cases op with
    | fillCaught recvTs line =>
      rw [List.map_cons, Op.recode, verdicts, verdicts, h.classify_eq,
        List.map_cons]
      exact congrArg _ ih
    | tick lane nowTs => exact ih
    | drainReady => exact ih
    | flush => exact ih

theorem Recoding.arrivals_eq (ops : List Op) :
    arrivals (trace step (new instruments) (ops.map (Op.recode onEvent onText))) =
      (arrivals (trace step (new instruments) ops)).map (Arrival.recode onEvent onText) := by
  rw [arrivals_run, arrivals_run]
  exact h.verdicts_eq [] ops

/-! ## The lanes -/

theorem Recoding.laneOn_eq (v : Venue) (arrived : List Arrival) :
    laneOn instruments v (arrived.map (Arrival.recode onEvent onText)) =
      (laneOn instruments v arrived).map (Prod.map id onFill) := by
  have hfill : ∀ line, canonicalFill instruments (recodeLine onEvent onText line) =
      (canonicalFill instruments line).map onFill := by
    intro line
    rw [canonicalFill, canonicalFill, parsed_recodeLine]
    cases line.parsed with
    | error error => rfl
    | ok event =>
      show ((onEvent event).canonicalize instruments).toOption = _
      rw [h.canonical]
      dsimp only
      cases event.canonicalize instruments <;> rfl
  rw [laneOn, laneOn, List.filterMap_map, List.map_filterMap]
  apply List.filterMap_congr
  intro a _
  show entryOn instruments v (a.recode onEvent onText) = _
  rw [entryOn, entryOn, Arrival.recode, h.attributed_eq, hfill]
  split
  · rw [Option.map_map, Option.map_map]
    rfl
  · rfl

theorem Recoding.sortKey_eq (p : UInt64 × Fill) :
    sortKey (Prod.map id onFill p) = sortKey p := by
  show toLex (p.1, toLex ((onFill p.2).venue, (onFill p.2).seq)) = _
  rw [h.fillVenue, h.fillSeq]
  rfl

theorem Recoding.sorted {l : List (UInt64 × Fill)}
    (hl : l.Pairwise fun p q => sortKey p < sortKey q) :
    (l.map (Prod.map id onFill)).Pairwise
      fun p q => sortKey p < sortKey q := by
  rw [List.pairwise_map]
  simpa only [h.sortKey_eq] using hl

theorem Recoding.filter_venue (v : Venue) (l : List (UInt64 × Fill)) :
    (l.map (Prod.map id onFill)).filter (·.2.venue = v) =
      (l.filter (·.2.venue = v)).map (Prod.map id onFill) := by
  rw [List.filter_map]
  congr 1
  apply List.filter_congr
  intro p _
  show decide ((onFill p.2).venue = v) = _
  rw [h.fillVenue]

/-- The lanes of the changed run hold the changed fills, if the tapes so far do. -/
theorem Recoding.buffer_eq
    (htape : (tape (trace step (new instruments) (ops.map (Op.recode onEvent onText)))).map
        stamped = ((tape (trace step (new instruments) ops)).map stamped).map (Prod.map id onFill))
    (v : Venue) :
    ((exec step (new instruments) (ops.map (Op.recode onEvent onText))).sequencer.lanes v).buffer =
      (((exec step (new instruments) ops).sequencer.lanes v).buffer).map
        (Prod.map id onFill) := by
  have hlane := (merged_run instruments (ops.map (Op.recode onEvent onText))).conserve v
  rw [htape, h.filter_venue, h.arrivals_eq, h.laneOn_eq, ← (merged_run instruments ops).conserve v,
    List.map_append] at hlane
  exact List.append_cancel_left hlane

theorem Recoding.tape_eq (ops : List Op) :
    (tape (trace step (new instruments) (ops.map (Op.recode onEvent onText)))).map stamped =
      ((tape (trace step (new instruments) ops)).map stamped).map (Prod.map id onFill) := by
  induction ops using List.reverseRecOn with
  | nil => rfl
  | append_singleton ops op ih =>
    have hbuffer := h.buffer_eq ih
    have hm := merged_run instruments ops
    have hm' := merged_run instruments (ops.map (Op.recode onEvent onText))
    rw [List.map_append, List.map_singleton, tape_concat, tape_concat, List.map_append,
      List.map_append, List.map_append, ih]
    congr 1
    cases op with
    | fillCaught recvTs line => rfl
    | tick lane nowTs => rfl
    | drainReady =>
      have hfront : (fun w => ((exec step (new instruments)
          (ops.map (Op.recode onEvent onText))).sequencer.lanes w).frontier) =
          fun w => ((exec step (new instruments) ops).sequencer.lanes w).frontier := by
        rw [frontier_run, frontier_run, ← List.map_reverse]
        exact funext fun w => h.frontierOf_eq w ops.reverse
      apply eq_of_perm_of_sorted sortKey
      · exact (List.pairwise_append.mp (hm'.drain true (.inl rfl)).1.ordered).2.1
      · exact h.sorted (List.pairwise_append.mp (hm.drain true (.inl rfl)).1.ordered).2.1
      apply perm_of_filter_eq (fun p : UInt64 × Fill => p.2.venue)
      intro v
      refine (hm'.drain_exact v).1.trans ?_
      rw [hbuffer, hfront, h.filter_venue, List.filter_map]
      exact congrArg _ (hm.drain_exact v).1.symm
    | flush =>
      apply eq_of_perm_of_sorted sortKey
      · exact (List.pairwise_append.mp (hm'.seal.drain false (.inr rfl)).1.ordered).2.1
      · exact h.sorted (List.pairwise_append.mp (hm.seal.drain false (.inr rfl)).1.ordered).2.1
      apply perm_of_filter_eq (fun p : UInt64 × Fill => p.2.venue)
      intro v
      refine (flush_lane hm' v).trans ?_
      rw [hbuffer, h.filter_venue]
      exact congrArg _ (flush_lane hm v).symm

/-! ## Whole runs -/

theorem Recoding.letter_eq (a : Arrival) :
    (a.recode onEvent onText).letter =
      a.letter.map fun letter => { letter with text := letter.text.map onText } := by
  have hid : eventIdOf (recodeLine onEvent onText a.line) = eventIdOf a.line := by
    rw [eventIdOf, eventIdOf, parsed_recodeLine]
    cases a.line.parsed with
    | error error => rfl
    | ok event => exact h.eventId event
  rw [Arrival.letter, Arrival.letter, Arrival.recode, h.attributed_eq, hid]
  cases a.outcome <;> rfl

/-- The ingester cannot tell changed payloads from the payloads. -/
theorem Recoding.run (onText : String → String) (ops : List Op) :
    Recoded instruments onEvent onFill onText ops := by
  have hall := (conserved_run instruments ops).accounted
  have hchanged := (conserved_run instruments (ops.map (Op.recode onEvent onText))).accounted
  have harrived : arrivals (trace step (new instruments) (ops.map (Op.recode onEvent onText))) =
      (arrivals (trace step (new instruments) ops)).map (Arrival.recode onEvent onText) :=
    h.arrivals_eq ops
  have hletters : (exec step (new instruments) (ops.map (Op.recode onEvent onText))).deadLetters =
      (exec step (new instruments) ops).deadLetters.map
        fun letter => { letter with text := letter.text.map onText } := by
    rw [hchanged.letters, hall.letters, harrived, List.filterMap_map, List.map_filterMap]
    exact List.filterMap_congr fun a _ => h.letter_eq a
  have halerts : (exec step (new instruments) (ops.map (Op.recode onEvent onText))).alerts =
      (exec step (new instruments) ops).alerts := by
    rw [hchanged.alerts, hall.alerts, hletters, List.filterMap_map]
    rfl
  have hcount : ∀ outcome : IngestOutcome,
      (arrivals (trace step (new instruments) (ops.map (Op.recode onEvent onText)))).countP
          (·.outcome = outcome) =
        (arrivals (trace step (new instruments) ops)).countP (·.outcome = outcome) := by
    intro outcome
    rw [harrived, List.countP_map]
    rfl
  refine ⟨harrived, ?_, ?_, hletters, halerts⟩
  · calc tape (trace step (new instruments) (ops.map (Op.recode onEvent onText)))
        = number ((tape (trace step (new instruments) (ops.map (Op.recode onEvent onText)))).map
            stamped) := numbered_run _ _
      _ = number (((tape (trace step (new instruments) ops)).map stamped).map
            (Prod.map id onFill)) := by rw [h.tape_eq]
      _ = (number ((tape (trace step (new instruments) ops)).map stamped)).map
            (recodeEntry onFill) := number_map onFill _
      _ = (tape (trace step (new instruments) ops)).map (recodeEntry onFill) := by
          rw [← numbered_run]
  · ext1
    · rw [hchanged.accepted, hall.accepted, hcount]
    · rw [hchanged.duplicates, hall.duplicates, hcount]
    · rw [hchanged.byzantine, hall.byzantine, halerts]
    · rw [hchanged.deadLettered, hall.deadLettered, hletters, List.length_map]
    · rw [hchanged.outOfOrder, hall.outOfOrder, hletters, List.countP_map]
      rfl
    · rw [counted_run, counted_run]
      congr 1
      apply totalGaps_congr
      intro v
      rw [← List.map_reverse, h.acceptedSeqs_eq]

end Facts

end Recoding

end Bitfrost.Ingester

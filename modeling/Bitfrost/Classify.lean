import Bitfrost.Ingester
import Bitfrost.Lib.Run
import Bitfrost.Schedule

/-!
The outcome of an arrival as a function of the calls alone. The ingester
decides from a compressed state: the first copies, the lane frontiers, the
last sequence numbers, the seal. `Summary` says that this state summarises
the history, and every call keeps it.

Histories are lists of calls, the latest first.
-/

namespace Bitfrost.Ingester

open Bitfrost.Lib
open Std (ExtTreeMap)

/-! ## The specification -/

/-- The venue an arrival belongs to: the payload's, or the wrapper's label when it did not
parse. -/
def attributed (line : RawLine) : Venue :=
  match line.parsed with
  | .ok event => event.venue
  | .error _ => line.venue

/-- The stamp a call gives to the lane of `venue`. -/
def Op.stampOn (venue : Venue) : Op → Option UInt64
  | .fillCaught recvTs line => if attributed line = venue then some recvTs else none
  | .tick lane nowTs => if lane = venue then some nowTs else none
  | _ => none

def stamps (venue : Venue) (past : List Op) : List UInt64 := past.filterMap (Op.stampOn venue)

/-- The maximum of zero and all stamps of the venue. -/
def frontierOf (venue : Venue) (past : List Op) : UInt64 := (stamps venue past).foldr max 0

/-- The parsed event of an arrival with this key. -/
def Op.eventWith (key : Venue × String) : Op → Option RawEvent
  | .fillCaught _ line =>
    match line.parsed with
    | .ok event => if (event.venue, event.eventId) = key then some event else none
    | .error _ => none
  | _ => none

/-- The first arrival of the history with this key. -/
def firstCopy (key : Venue × String) : List Op → Option RawEvent
  | [] => none
  | op :: past => (firstCopy key past).or (op.eventWith key)

def Op.isFlush : Op → Bool
  | .flush => true
  | _ => false

variable {S : Type} [InstrumentSource S]

/-- Two copies are the same when both canonicalize to equal fills, or one of them does not
canonicalize and the raw events are equal. -/
def sameEvent (instruments : S) (first event : RawEvent) : Bool :=
  match first.canonicalize instruments, event.canonicalize instruments with
  | .ok firstFill, .ok fill => firstFill = fill
  | _, _ => first == event

/-- The outcome of an arrival after `past`, when `seqs` are the sequence numbers accepted on its
venue. -/
def judge (instruments : S) (past : List Op) (seqs : List UInt64) (recvTs : UInt64)
    (line : RawLine) : IngestOutcome :=
  match line.parsed with
  | .error error => .deadLettered (.malformed error)
  | .ok event =>
    let venue := event.venue
    match firstCopy (venue, event.eventId) past with
    | some first =>
      if sameEvent instruments first event then .duplicate else .deadLettered .byzantine
    | none =>
      match event.canonicalize instruments with
      | .error reason => .deadLettered (.rejected reason)
      | .ok _ =>
        if past.any Op.isFlush then .deadLettered (.outOfOrder (.sealed venue))
        else if ∃ stamp ∈ stamps venue past, recvTs < stamp then
          .deadLettered (.outOfOrder (.recvTsWalkback venue (frontierOf venue past) recvTs))
        else if ∃ seq ∈ seqs, event.seq ≤ seq then
          .deadLettered (.outOfOrder (.seqWalkback venue (seqs.foldr max 0) event.seq))
        else .accepted

/-- The sequence numbers of the accepted arrivals of `venue`, the latest first. -/
def acceptedSeqs (instruments : S) (venue : Venue) : List Op → List UInt64
  | [] => []
  | .fillCaught recvTs line :: past =>
    let seqs := acceptedSeqs instruments venue past
    match line.parsed with
    | .ok event =>
      if event.venue = venue ∧ judge instruments past seqs recvTs line = .accepted then
        event.seq :: seqs
      else seqs
    | .error _ => seqs
  | _ :: past => acceptedSeqs instruments venue past

/-- The outcome of an arrival, from the history of calls alone. -/
def classify (instruments : S) (past : List Op) (recvTs : UInt64) (line : RawLine) :
    IngestOutcome :=
  judge instruments past (acceptedSeqs instruments (attributed line) past) recvTs line

/-! ## Maxima -/

theorem lt_foldr_max {t : UInt64} {l : List UInt64} :
    t < l.foldr max 0 ↔ ∃ s ∈ l, t < s := by
  induction l with
  | nil => simp
  | cons a l ih => simp [ih]

theorem foldr_max_of_descending {l : List UInt64} (h : l.Pairwise (· > ·)) {last : UInt64}
    (hlast : l.head? = some last) : l.foldr max 0 = last := by
  cases l with
  | nil => cases hlast
  | cons a l =>
    obtain rfl : a = last := by simpa using hlast
    have hle : l.foldr max 0 ≤ a := by
      apply not_lt.mp
      rintro hlt
      obtain ⟨s, hs, has⟩ := lt_foldr_max.mp hlt
      exact absurd has (List.rel_of_pairwise_cons h hs).not_gt
    rw [List.foldr_cons, max_eq_left hle]

/-- Against descending numbers only the latest matters. -/
theorem exists_le_iff_head {seq : UInt64} {l : List UInt64} (h : l.Pairwise (· > ·)) :
    (∃ s ∈ l, seq ≤ s) ↔ ∃ last, l.head? = some last ∧ seq ≤ last := by
  cases l with
  | nil => simp
  | cons a l =>
    simp only [List.head?_cons, Option.some.injEq, exists_eq_left', List.mem_cons]
    constructor
    · rintro ⟨s, rfl | hs, hle⟩
      · exact hle
      · exact hle.trans (List.rel_of_pairwise_cons h hs).le
    · intro hle
      exact ⟨a, .inl rfl, hle⟩

/-! ## The summary -/

/-- What `seen` remembers of a first copy. -/
def seenAs (instruments : S) (event : RawEvent) : Seen :=
  ⟨event, (event.canonicalize instruments).toOption⟩

/-- The state summarises the history. -/
structure Summary (instruments : S) (past : List Op) (ingester : Ingester S) : Prop where
  source : ingester.instruments = instruments
  seen : ∀ key, ingester.seen[key]? = (firstCopy key past).map (seenAs instruments)
  frontier : ∀ v, (ingester.sequencer.lanes v).frontier = frontierOf v past
  lastSeq : ∀ v, (ingester.sequencer.lanes v).lastSeq = (acceptedSeqs instruments v past).head?
  maxSeq : ∀ v, ingester.maxSeq[v]? = (acceptedSeqs instruments v past).head?
  descending : ∀ v, (acceptedSeqs instruments v past).Pairwise (· > ·)
  closed : ingester.sequencer.sealed = past.any Op.isFlush

theorem summary_new (instruments : S) : Summary instruments [] (new instruments) where
  source := rfl
  seen _ := Std.ExtTreeMap.getElem?_empty
  frontier _ := rfl
  lastSeq _ := rfl
  maxSeq _ := Std.ExtTreeMap.getElem?_empty
  descending _ := List.Pairwise.nil
  closed := rfl

section Cons

variable {instruments : S} {past : List Op} {recvTs : UInt64} {line : RawLine} {event : RawEvent}

theorem attributed_of_ok (hp : line.parsed = .ok event) : attributed line = event.venue := by
  rw [attributed, hp]

theorem frontierOf_cons (op : Op) (v : Venue) :
    frontierOf v (op :: past) =
      match op.stampOn v with
      | some t => max t (frontierOf v past)
      | none => frontierOf v past := by
  unfold frontierOf stamps
  rw [List.filterMap_cons]
  cases op.stampOn v <;> rfl

/-- An arrival adds its sequence number exactly when it is accepted. -/
theorem acceptedSeqs_arrival (hp : line.parsed = .ok event) (v : Venue) :
    acceptedSeqs instruments v (.fillCaught recvTs line :: past) =
      if event.venue = v ∧ classify instruments past recvTs line = .accepted then
        event.seq :: acceptedSeqs instruments v past
      else acceptedSeqs instruments v past := by
  rw [acceptedSeqs, hp]
  dsimp only
  by_cases hv : event.venue = v
  · rw [classify, attributed_of_ok hp, hv]
  · rw [if_neg (fun h => hv h.1), if_neg (fun h => hv h.1)]

theorem acceptedSeqs_unaccepted (hp : line.parsed = .ok event)
    (hout : classify instruments past recvTs line ≠ .accepted) (v : Venue) :
    acceptedSeqs instruments v (.fillCaught recvTs line :: past) =
      acceptedSeqs instruments v past := by
  rw [acceptedSeqs_arrival hp, if_neg fun h => hout h.2]

theorem acceptedSeqs_malformed {error : String} (hp : line.parsed = .error error) (v : Venue) :
    acceptedSeqs instruments v (.fillCaught recvTs line :: past) =
      acceptedSeqs instruments v past := by
  rw [acceptedSeqs, hp]

theorem seenAs_of_ok {fill : Fill} (h : event.canonicalize instruments = .ok fill) :
    seenAs instruments event = ⟨event, some fill⟩ := by
  rw [seenAs, h]
  rfl

theorem sameCopy_seenAs (first event : RawEvent) :
    sameCopy (seenAs instruments first) event (event.canonicalize instruments) =
      sameEvent instruments first event := by
  unfold sameCopy seenAs sameEvent
  cases first.canonicalize instruments <;> cases event.canonicalize instruments <;> rfl

end Cons

section Arrival

variable {instruments : S} {past : List Op} {self : Ingester S} {recvTs : UInt64}
  {line : RawLine} {event : RawEvent}

theorem Summary.ticked (h : Summary instruments past self) {op : Op} {w : Venue} {t : UInt64}
    (hop : ∀ v, op.stampOn v = if w = v then some t else none) (v : Venue) :
    ((self.sequencer.tick w t).lanes v).frontier = frontierOf v (op :: past) := by
  rw [Sequencer.tick_lanes, frontierOf_cons, hop v, h.frontier v]
  by_cases hv : v = w
  · subst hv
    simp [max_comm]
  · simp [hv, Ne.symm hv]

theorem Summary.firstCopy_none (h : Summary instruments past self) {key : Venue × String}
    (hseen : self.seen[key]? = none) : firstCopy key past = none := by
  rw [h.seen key, Option.map_eq_none_iff] at hseen
  exact hseen

theorem Summary.firstCopy_some (h : Summary instruments past self) {key : Venue × String}
    {previous : Seen} (hseen : self.seen[key]? = some previous) :
    ∃ first, firstCopy key past = some first ∧ previous = seenAs instruments first := by
  rw [h.seen key, Option.map_eq_some_iff] at hseen
  obtain ⟨first, hfirst, hprev⟩ := hseen
  exact ⟨first, hfirst, hprev.symm⟩

theorem eventWith_of_ok (hp : line.parsed = .ok event) (k : Venue × String) :
    (Op.fillCaught recvTs line).eventWith k =
      if (event.venue, event.eventId) = k then some event else none := by
  rw [Op.eventWith, hp]

/-- A known key keeps its first copy. -/
theorem Summary.seen_known (h : Summary instruments past self) (hp : line.parsed = .ok event)
    {first : RawEvent} (hknown : firstCopy (event.venue, event.eventId) past = some first)
    (k : Venue × String) :
    self.seen[k]? = (firstCopy k (.fillCaught recvTs line :: past)).map (seenAs instruments) := by
  rw [firstCopy, eventWith_of_ok hp, h.seen k]
  by_cases hk : k = (event.venue, event.eventId)
  · rw [hk, hknown, Option.some_or]
  · rw [if_neg (Ne.symm hk), Option.or_none]

/-- A new key gets its first copy. -/
theorem Summary.seen_insert (h : Summary instruments past self) (hp : line.parsed = .ok event)
    (hnew : firstCopy (event.venue, event.eventId) past = none) (k : Venue × String) :
    (self.seen.insert (event.venue, event.eventId) (seenAs instruments event))[k]? =
      (firstCopy k (.fillCaught recvTs line :: past)).map (seenAs instruments) := by
  rw [getElem?_insert_eq, firstCopy, eventWith_of_ok hp, h.seen k]
  by_cases hk : k = (event.venue, event.eventId)
  · subst hk
    simp [hnew]
  · simp [hk, Ne.symm hk]

/-- A call that only ticks its lane, besides what it does to `seen`. -/
theorem Summary.of_ticked (h : Summary instruments past self) {op : Op} {w : Venue} {t : UInt64}
    (hop : ∀ v, op.stampOn v = if w = v then some t else none) (hflush : op.isFlush = false)
    (hseqs : ∀ v, acceptedSeqs instruments v (op :: past) = acceptedSeqs instruments v past)
    {next : Ingester S} (hsource : next.instruments = self.instruments)
    (hseq : next.sequencer = self.sequencer.tick w t) (hmax : next.maxSeq = self.maxSeq)
    (hseen : ∀ k, next.seen[k]? = (firstCopy k (op :: past)).map (seenAs instruments)) :
    Summary instruments (op :: past) next := by
  refine ⟨hsource.trans h.source, hseen, fun v => ?_, fun v => ?_, fun v => ?_, fun v => ?_, ?_⟩
  · rw [hseq]
    exact h.ticked hop v
  · rw [hseq, Sequencer.tick_lanes, hseqs]
    exact h.lastSeq v
  · rw [hmax, hseqs]
    exact h.maxSeq v
  · rw [hseqs]
    exact h.descending v
  · rw [hseq, Sequencer.tick_sealed, List.any_cons, hflush, Bool.false_or]
    exact h.closed

theorem stampOn_arrival (hp : line.parsed = .ok event) (v : Venue) :
    (Op.fillCaught recvTs line).stampOn v = if event.venue = v then some recvTs else none := by
  rw [Op.stampOn, attributed_of_ok hp]

/-- On a frontier that includes the arrival's own stamp, the walkback check is one against the
stamps before it. -/
theorem Summary.behind_iff (h : Summary instruments past self) (v : Venue) :
    recvTs < ((self.sequencer.tick v recvTs).lanes v).frontier ↔
      ∃ stamp ∈ stamps v past, recvTs < stamp := by
  rw [Sequencer.tick_frontier, h.frontier v, lt_max_iff, or_iff_left (lt_irrefl recvTs)]
  exact lt_foldr_max

section Judged

variable (hp : line.parsed = .ok event)
  (hnew : firstCopy (event.venue, event.eventId) past = none)

include hp

theorem classify_known {first : RawEvent}
    (hknown : firstCopy (event.venue, event.eventId) past = some first) :
    classify instruments past recvTs line =
      if sameEvent instruments first event then .duplicate else .deadLettered .byzantine := by
  rw [classify, judge, hp]
  dsimp only
  rw [hknown]

include hnew

theorem classify_rejected {reason : RejectReason}
    (hfill : event.canonicalize instruments = .error reason) :
    classify instruments past recvTs line = .deadLettered (.rejected reason) := by
  rw [classify, judge, hp]
  dsimp only
  rw [hnew, hfill]

theorem classify_new {fill : Fill} (hfill : event.canonicalize instruments = .ok fill) :
    classify instruments past recvTs line =
      if past.any Op.isFlush then .deadLettered (.outOfOrder (.sealed event.venue))
      else if ∃ stamp ∈ stamps event.venue past, recvTs < stamp then
        .deadLettered (.outOfOrder
          (.recvTsWalkback event.venue (frontierOf event.venue past) recvTs))
      else if ∃ seq ∈ acceptedSeqs instruments event.venue past, event.seq ≤ seq then
        .deadLettered (.outOfOrder (.seqWalkback event.venue
          ((acceptedSeqs instruments event.venue past).foldr max 0) event.seq))
      else .accepted := by
  rw [classify, attributed_of_ok hp, judge, hp]
  dsimp only
  rw [hnew, hfill]

/-- A lane that fails a new fill fails it for the reason the history gives. -/
theorem Summary.classify_outOfOrder (h : Summary instruments past self) {fill : Fill}
    {error : SequencerError} (hfill : event.canonicalize instruments = .ok fill)
    (hpush : (self.sequencer.tick event.venue recvTs).push event.venue recvTs fill =
      (.error error, self.sequencer.tick event.venue recvTs)) :
    classify instruments past recvTs line = .deadLettered (.outOfOrder error) := by
  obtain ⟨hvenue, -, hseq⟩ := RawEvent.canonicalize_identity hfill
  rw [classify_new hp hnew hfill, ← h.closed]
  rcases Sequencer.push_eq_error hpush with ⟨hsealed, rfl⟩ | ⟨hopen, hguards⟩
  · rw [Sequencer.tick_sealed] at hsealed
    rw [if_pos hsealed]
  · rw [Sequencer.tick_sealed] at hopen
    rw [hopen, if_neg Bool.false_ne_true]
    rcases Lane.guards_eq_error hvenue hguards with ⟨hbehind, rfl⟩ |
      ⟨hahead, last, hlast, hle, rfl⟩
    · have hstamp := (h.behind_iff event.venue).mp hbehind
      rw [if_pos hstamp, Sequencer.tick_frontier, h.frontier]
      rw [max_eq_left (show recvTs ≤ frontierOf _ _ from (lt_foldr_max.mpr hstamp).le)]
    · have hdesc := h.descending event.venue
      rw [Sequencer.tick_lanes, h.lastSeq] at hlast
      rw [hseq] at hle
      rw [if_neg (mt (h.behind_iff event.venue).mpr hahead.not_gt),
        if_pos ((exists_le_iff_head hdesc).mpr ⟨last, hlast, hle⟩),
        foldr_max_of_descending hdesc hlast, hseq]

theorem Summary.classify_accepted (h : Summary instruments past self) {fill : Fill}
    (hfill : event.canonicalize instruments = .ok fill)
    (hsealed : self.sequencer.sealed = false)
    (hguards : ((self.sequencer.tick event.venue recvTs).lanes event.venue).guards event.venue
      recvTs fill = .ok ()) : classify instruments past recvTs line = .accepted := by
  obtain ⟨-, -, hseq⟩ := RawEvent.canonicalize_identity hfill
  obtain ⟨-, hahead, hlast⟩ := Lane.guards_eq_ok.mp hguards
  rw [classify_new hp hnew hfill, ← h.closed, hsealed, if_neg Bool.false_ne_true,
    if_neg (mt (h.behind_iff event.venue).mpr hahead.not_gt), if_neg]
  rw [exists_le_iff_head (h.descending event.venue)]
  rintro ⟨last, hhead, hle⟩
  have hlt := hlast last (by rw [Sequencer.tick_lanes]; exact (h.lastSeq _).trans hhead)
  rw [hseq] at hlt
  exact absurd hle hlt.not_ge

/-- An accepted arrival sets its lane's frontier and becomes the venue's latest number. -/
theorem Summary.of_accepted (h : Summary instruments past self) {fill : Fill}
    (hfill : event.canonicalize instruments = .ok fill)
    (hout : classify instruments past recvTs line = .accepted)
    (hsealed : self.sequencer.sealed = false)
    (hguards : ((self.sequencer.tick event.venue recvTs).lanes event.venue).guards event.venue
      recvTs fill = .ok ()) {stats : IngestStats} :
    Summary instruments (.fillCaught recvTs line :: past)
      { self with
        sequencer := ((self.sequencer.tick event.venue recvTs).push event.venue recvTs fill).2
        maxSeq := self.maxSeq.insert event.venue fill.seq
        seen := self.seen.insert (event.venue, event.eventId) ⟨event, some fill⟩
        stats := stats } := by
  obtain ⟨-, -, hseq⟩ := RawEvent.canonicalize_identity hfill
  obtain ⟨-, hahead, hlast⟩ := Lane.guards_eq_ok.mp hguards
  have hseqs : ∀ v, acceptedSeqs instruments v (.fillCaught recvTs line :: past) =
      if event.venue = v then event.seq :: acceptedSeqs instruments v past
      else acceptedSeqs instruments v past := by
    intro v
    rw [acceptedSeqs_arrival hp, hout]
    simp
  have hpush := Sequencer.push_eq_ok
    (s := self.sequencer.tick event.venue recvTs) hsealed hguards
  refine ⟨h.source, fun k => ?_, fun v => ?_, fun v => ?_, fun v => ?_, fun v => ?_, ?_⟩
  · exact (seenAs_of_ok hfill) ▸ h.seen_insert hp hnew k
  · rw [hpush, Sequencer.setLane_lanes, ← h.ticked (stampOn_arrival hp) v]
    split
    · next hv =>
      rw [hv]
      show recvTs = _
      apply le_antisymm _ hahead
      rw [Sequencer.tick_frontier]
      exact le_max_right _ _
    · rfl
  · rw [hpush, Sequencer.setLane_lanes, hseqs]
    by_cases hv : v = event.venue
    · rw [if_pos hv, if_pos hv.symm, List.head?_cons, ← hseq]
      rfl
    · rw [if_neg hv, if_neg (Ne.symm hv), Sequencer.tick_lanes]
      exact h.lastSeq v
  · rw [getElem?_insert_eq, hseqs]
    by_cases hv : v = event.venue
    · rw [if_pos hv, if_pos hv.symm, List.head?_cons, hseq]
    · rw [if_neg hv, if_neg (Ne.symm hv)]
      exact h.maxSeq v
  · rw [hseqs]
    split
    · next hv =>
      subst hv
      refine List.pairwise_cons.mpr ⟨fun seq hmem => ?_, h.descending _⟩
      rw [classify_new hp hnew hfill] at hout
      by_contra hle
      rw [if_pos (c := ∃ seq ∈ acceptedSeqs instruments event.venue past, event.seq ≤ seq)
        ⟨seq, hmem, not_lt.mp hle⟩] at hout
      split at hout
      · cases hout
      · split at hout <;> cases hout
    · exact h.descending v
  · rw [hpush]
    exact h.closed

end Judged

/-- `fillCaught` returns what the history says, and keeps the summary. -/
theorem Summary.caught (h : Summary instruments past self) {r : IngestOutcome × Ingester S}
    (hc : Caught self recvTs line r) :
    r.1 = classify instruments past recvTs line ∧
      Summary instruments (.fillCaught recvTs line :: past) r.2 := by
  cases hc with
  | malformed error hp =>
    have hout : classify instruments past recvTs line = .deadLettered (.malformed error) := by
      rw [classify, judge, hp]
    refine ⟨hout.symm, h.of_ticked (w := line.venue) (t := recvTs) (fun v => ?_) rfl
      (acceptedSeqs_malformed hp) rfl rfl rfl fun k => ?_⟩
    · rw [Op.stampOn, attributed, hp]
    · rw [firstCopy, Op.eventWith, hp, Option.or_none]
      exact h.seen k
  | duplicate event previous hp hseen hsame =>
    obtain ⟨first, hfirst, rfl⟩ := h.firstCopy_some hseen
    rw [h.source, sameCopy_seenAs] at hsame
    have hout : classify instruments past recvTs line = .duplicate := by
      rw [classify_known hp hfirst, if_pos hsame]
    exact ⟨hout.symm, h.of_ticked (stampOn_arrival hp) rfl
      (acceptedSeqs_unaccepted hp (by simp [hout])) rfl rfl rfl (h.seen_known hp hfirst)⟩
  | byzantine event previous hp hseen hdiff =>
    obtain ⟨first, hfirst, rfl⟩ := h.firstCopy_some hseen
    rw [h.source, sameCopy_seenAs] at hdiff
    have hout : classify instruments past recvTs line = .deadLettered .byzantine := by
      rw [classify_known hp hfirst, if_neg (by rw [hdiff]; exact Bool.false_ne_true)]
    exact ⟨hout.symm, h.of_ticked (stampOn_arrival hp) rfl
      (acceptedSeqs_unaccepted hp (by simp [hout])) rfl rfl rfl (h.seen_known hp hfirst)⟩
  | rejected event reason hp hseen hfill =>
    have hnew := h.firstCopy_none hseen
    rw [h.source] at hfill
    have hout : classify instruments past recvTs line = .deadLettered (.rejected reason) :=
      classify_rejected hp hnew hfill
    have hcopy : seenAs instruments event = ⟨event, none⟩ := by
      rw [seenAs, hfill]
      rfl
    exact ⟨hout.symm, h.of_ticked (stampOn_arrival hp) rfl
      (acceptedSeqs_unaccepted hp (by simp [hout])) rfl rfl rfl
      (hcopy ▸ h.seen_insert hp hnew)⟩
  | accepted event fill hp hseen hfill hsealed hguards =>
    have hnew := h.firstCopy_none hseen
    rw [h.source] at hfill
    have hout := h.classify_accepted hp hnew hfill hsealed hguards
    exact ⟨hout.symm, h.of_accepted hp hnew hfill hout hsealed hguards⟩
  | outOfOrder event fill error hp hseen hfill hpush =>
    have hnew := h.firstCopy_none hseen
    rw [h.source] at hfill
    have hout := h.classify_outOfOrder hp hnew hfill hpush
    exact ⟨hout.symm, h.of_ticked (stampOn_arrival hp) rfl
      (acceptedSeqs_unaccepted hp (by simp [hout])) rfl rfl rfl
      (seenAs_of_ok hfill ▸ h.seen_insert hp hnew)⟩

end Arrival

/-! ## Runs -/

/-- A call that leaves the history's facts alone, and drains lanes at most. -/
theorem Summary.of_drained {instruments : S} {past : List Op} {self : Ingester S}
    (h : Summary instruments past self) {op : Op} (hstamp : ∀ v, op.stampOn v = none)
    (hevent : ∀ key, op.eventWith key = none)
    (hseqs : ∀ v, acceptedSeqs instruments v (op :: past) = acceptedSeqs instruments v past)
    {sequencer : Sequencer}
    (hlanes : ∀ v, (sequencer.lanes v).frontier = (self.sequencer.lanes v).frontier ∧
      (sequencer.lanes v).lastSeq = (self.sequencer.lanes v).lastSeq)
    (hsealed : sequencer.sealed = (op.isFlush || self.sequencer.sealed)) :
    Summary instruments (op :: past) { self with sequencer := sequencer } where
  source := h.source
  seen key := by
    rw [firstCopy, hevent key, Option.or_none]
    exact h.seen key
  frontier v := by
    rw [(hlanes v).1, frontierOf_cons, hstamp v]
    exact h.frontier v
  lastSeq v := by
    rw [(hlanes v).2, hseqs v]
    exact h.lastSeq v
  maxSeq v := by
    rw [hseqs v]
    exact h.maxSeq v
  descending v := by
    rw [hseqs v]
    exact h.descending v
  closed := by
    rw [hsealed, List.any_cons, h.closed]

theorem Summary.step {instruments : S} {past : List Op} {self : Ingester S}
    (h : Summary instruments past self) (op : Op) :
    Summary instruments (op :: past) (step self op).2 := by
  cases op with
  | fillCaught recvTs line => exact (h.caught (caught_fillCaught self recvTs line)).2
  | tick venue nowTs =>
    refine h.of_ticked (w := venue) (t := nowTs) (fun v => rfl) rfl (fun v => rfl) rfl rfl rfl
      fun k => ?_
    show _ = ((firstCopy k past).or none).map _
    rw [Option.or_none]
    exact h.seen k
  | drainReady =>
    have hd := Sequencer.drain_guards true self.sequencer
    exact h.of_drained (fun v => rfl) (fun k => rfl) (fun v => rfl)
      (fun v => ⟨(hd v).1, (hd v).2.1⟩) (hd .hl).2.2
  | flush =>
    have hd := Sequencer.drain_guards false { self.sequencer with «sealed» := true }
    exact h.of_drained (fun v => rfl) (fun k => rfl) (fun v => rfl)
      (fun v => ⟨(hd v).1, (hd v).2.1⟩) (hd .hl).2.2

theorem summary_run (instruments : S) (ops : List Op) :
    Summary instruments ops.reverse (exec step (new instruments) ops) := by
  induction ops using List.reverseRecOn with
  | nil => exact summary_new instruments
  | append_singleton ops op ih =>
    rw [List.reverse_append, exec_concat]
    exact ih.step op

/-- The ingester classifies every arrival as the history alone does. -/
theorem classification (registry : Registry) (ops : List Op) (recvTs : UInt64) (line : RawLine) :
    ((exec step (new registry) ops).fillCaught recvTs line).1 =
      classify registry ops.reverse recvTs line :=
  ((summary_run registry ops).caught (caught_fillCaught _ recvTs line)).1

end Bitfrost.Ingester

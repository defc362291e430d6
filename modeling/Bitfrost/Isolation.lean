import Bitfrost.Gaps

/-!
Bad traffic does not reach good traffic. An arrival that was not accepted
still moves its venue's frontier, and with it what the drains publish and
when; but a run without it classifies every other arrival the same, and ends
with the same tape.
-/

namespace Bitfrost.Ingester

open Bitfrost.Lib
open Bitfrost.Sequencer (Merged stamped sortKey number)

variable {S : Type} [InstrumentSource S]

/-! ## The statement -/

/-- No later arrival of `after` carries the key of the line. -/
def Unclaimed (line : RawLine) (after : List Op) : Prop :=
  ∀ event, line.parsed = .ok event → ∀ op ∈ after,
    op.eventWith (event.venue, event.eventId) = none

/-- An arrival with this outcome can be left out: it claims no id, or one that nothing carries
later. -/
def Removable (line : RawLine) (after : List Op) : IngestOutcome → Prop
  | .accepted => False
  | .duplicate => True
  | .deadLettered (.malformed _) => True
  | .deadLettered .byzantine => True
  | .deadLettered (.rejected _) => Unclaimed line after
  | .deadLettered (.outOfOrder _) => Unclaimed line after

/-- The alerts that go with some arrivals. -/
def alertsOf (arrived : List Arrival) : List Alert :=
  (arrived.filterMap Arrival.letter).filterMap alertOf

/-- The runs `ops` and `ops'` differ in one arrival: `ops'` has the others, `earlier` and `later`,
with the same outcomes, letters and alerts, counts the same and publishes the same. -/
structure Isolated (instruments : S) (ops ops' : List Op) (earlier : List Arrival)
    (arrival : Arrival) (later : List Arrival) : Prop where
  outcomes : arrivals (trace step (new instruments) ops) = earlier ++ arrival :: later
  otherOutcomes : arrivals (trace step (new instruments) ops') = earlier ++ later
  letters : (exec step (new instruments) ops).deadLetters =
    earlier.filterMap Arrival.letter ++ arrival.letter.toList ++ later.filterMap Arrival.letter
  otherLetters : (exec step (new instruments) ops').deadLetters =
    earlier.filterMap Arrival.letter ++ later.filterMap Arrival.letter
  alerts : (exec step (new instruments) ops).alerts =
    alertsOf earlier ++ alertsOf [arrival] ++ alertsOf later
  otherAlerts : (exec step (new instruments) ops').alerts = alertsOf earlier ++ alertsOf later
  accepted : (exec step (new instruments) ops').stats.accepted =
    (exec step (new instruments) ops).stats.accepted
  gaps : (exec step (new instruments) ops').stats.gaps =
    (exec step (new instruments) ops).stats.gaps
  published : tape (trace step (new instruments) ops') = tape (trace step (new instruments) ops)

/-! ## The arrivals of a run, from its calls -/

/-- The arrivals of `ops` after the history `past`. -/
def verdicts (instruments : S) : List Op → List Op → List Arrival
  | _, [] => []
  | past, op :: ops =>
    match op with
    | .fillCaught recvTs line =>
      ⟨recvTs, line, classify instruments past recvTs line⟩ :: verdicts instruments (op :: past) ops
    | _ => verdicts instruments (op :: past) ops

theorem verdicts_append (instruments : S) (past ops ops' : List Op) :
    verdicts instruments past (ops ++ ops') =
      verdicts instruments past ops ++ verdicts instruments (ops.reverse ++ past) ops' := by
  induction ops generalizing past with
  | nil => rfl
  | cons op ops ih =>
    have ih := ih (op :: past)
    rw [List.reverse_cons, List.append_assoc, List.singleton_append]
    cases op with
    | fillCaught recvTs line => exact congrArg (List.cons _) ih
    | tick venue nowTs => exact ih
    | drainReady => exact ih
    | flush => exact ih

theorem Summary.arrivals_trace {instruments : S} {past : List Op} {self : Ingester S}
    (h : Summary instruments past self) (ops : List Op) :
    arrivals (trace Ingester.step self ops) = verdicts instruments past ops := by
  induction ops generalizing past self with
  | nil => rfl
  | cons op ops ih =>
    have ih := ih (h.step op)
    cases op with
    | fillCaught recvTs line =>
      have hout := (h.caught (caught_fillCaught self recvTs line)).1
      rw [verdicts, ← ih, ← hout]
      rfl
    | tick venue nowTs => exact ih
    | drainReady => exact ih
    | flush => exact ih

theorem arrivals_run (instruments : S) (ops : List Op) :
    arrivals (trace step (new instruments) ops) = verdicts instruments [] ops :=
  (summary_new instruments).arrivals_trace ops

/-! ## Histories that later calls cannot tell apart -/

/-- No call of `ops` can tell the histories apart: they agree on the ids the calls carry, on the
seal and on the accepted sequence numbers, and no stamp of theirs is ahead of the calls. -/
structure Alike (instruments : S) (ops past past' : List Op) : Prop where
  copies : ∀ op ∈ ops, ∀ key, op.eventWith key ≠ none → firstCopy key past = firstCopy key past'
  flushed : past.any Op.isFlush = past'.any Op.isFlush
  seqs : ∀ v, acceptedSeqs instruments v past = acceptedSeqs instruments v past'
  ahead : ∀ v, ∀ stamp ∈ stamps v past, ∀ t ∈ stamps v ops, stamp ≤ t
  ahead' : ∀ v, ∀ stamp ∈ stamps v past', ∀ t ∈ stamps v ops, stamp ≤ t
  sorted : ∀ v, (stamps v ops).Pairwise (· ≤ ·)

section Alike

variable {instruments : S} {op : Op} {ops past past' : List Op} {recvTs : UInt64} {line : RawLine}

theorem stamps_cons (v : Venue) (op : Op) (past : List Op) :
    stamps v (op :: past) = (op.stampOn v).toList ++ stamps v past :=
  filterMap_cons_toList _ op past

theorem Alike.classify_eq (h : Alike instruments (.fillCaught recvTs line :: ops) past past') :
    classify instruments past recvTs line = classify instruments past' recvTs line := by
  cases hp : line.parsed with
  | error error => simp only [classify, judge, hp]
  | ok event =>
    have hcopy : firstCopy (event.venue, event.eventId) past =
        firstCopy (event.venue, event.eventId) past' := by
      apply h.copies _ List.mem_cons_self
      rw [eventWith_of_ok hp, if_pos rfl]
      exact Option.some_ne_none event
    have hstamp : recvTs ∈ stamps event.venue (.fillCaught recvTs line :: ops) := by
      rw [stamps_cons, stampOn_arrival hp, if_pos rfl]
      exact List.mem_cons_self
    have hahead : ¬ ∃ stamp ∈ stamps event.venue past, recvTs < stamp := by
      rintro ⟨stamp, hmem, hlt⟩
      exact absurd hlt (h.ahead _ stamp hmem recvTs hstamp).not_gt
    have hahead' : ¬ ∃ stamp ∈ stamps event.venue past', recvTs < stamp := by
      rintro ⟨stamp, hmem, hlt⟩
      exact absurd hlt (h.ahead' _ stamp hmem recvTs hstamp).not_gt
    simp only [classify, attributed_of_ok hp, judge, hp, hcopy, h.flushed, h.seqs,
      if_neg hahead, if_neg hahead']

theorem ahead_step (hsorted : ∀ v, (stamps v (op :: ops)).Pairwise (· ≤ ·))
    (hahead : ∀ v, ∀ stamp ∈ stamps v past, ∀ t ∈ stamps v (op :: ops), stamp ≤ t) (v : Venue) :
    ∀ stamp ∈ stamps v (op :: past), ∀ t ∈ stamps v ops, stamp ≤ t := by
  intro stamp hmem t ht
  have hsorted := hsorted v
  have hahead := hahead v
  rw [stamps_cons] at hmem hsorted hahead
  rcases List.mem_append.mp hmem with hmem | hmem
  · exact (List.pairwise_append.mp hsorted).2.2 stamp hmem t ht
  · exact hahead stamp hmem t (List.mem_append_right _ ht)

theorem Alike.step (h : Alike instruments (op :: ops) past past') :
    Alike instruments ops (op :: past) (op :: past') := by
  refine ⟨fun later hlater key hkey => ?_, ?_, fun v => ?_, ahead_step h.sorted h.ahead,
    ahead_step h.sorted h.ahead', fun v => ?_⟩
  · rw [firstCopy, firstCopy, h.copies later (List.mem_cons_of_mem _ hlater) key hkey]
  · rw [List.any_cons, List.any_cons, h.flushed]
  · cases op with
    | fillCaught recvTs line =>
      cases hp : line.parsed with
      | error error => rw [acceptedSeqs_malformed hp, acceptedSeqs_malformed hp, h.seqs]
      | ok event => rw [acceptedSeqs_arrival hp, acceptedSeqs_arrival hp, h.classify_eq, h.seqs]
    | tick venue nowTs => exact h.seqs v
    | drainReady => exact h.seqs v
    | flush => exact h.seqs v
  · have hsorted := h.sorted v
    rw [stamps_cons] at hsorted
    exact (List.pairwise_append.mp hsorted).2.1

theorem Alike.verdicts_eq (h : Alike instruments ops past past') :
    verdicts instruments past ops = verdicts instruments past' ops ∧
      Alike instruments [] (ops.reverse ++ past) (ops.reverse ++ past') := by
  induction ops generalizing past past' with
  | nil => exact ⟨rfl, h⟩
  | cons op ops ih =>
    obtain ⟨hrest, hend⟩ := ih h.step
    rw [List.reverse_cons, List.append_assoc, List.append_assoc]
    refine ⟨?_, hend⟩
    cases op with
    | fillCaught recvTs line =>
      rw [verdicts, verdicts, h.classify_eq, hrest]
    | tick venue nowTs => exact hrest
    | drainReady => exact hrest
    | flush => exact hrest

end Alike

/-! ## Leaving one arrival out -/

section Removed

variable {instruments : S} {before after past : List Op} {recvTs : UInt64} {line : RawLine}
  {event : RawEvent}

theorem Removable.not_accepted {outcome : IngestOutcome} (h : Removable line after outcome) :
    outcome ≠ .accepted := by
  rintro rfl
  exact h

/-- A removable arrival has a first copy before it, or claims an id that nothing carries later. -/
theorem Removable.known_or_unclaimed (hp : line.parsed = .ok event)
    (h : Removable line after (classify instruments past recvTs line)) :
    firstCopy (event.venue, event.eventId) past ≠ none ∨ Unclaimed line after := by
  cases hfirst : firstCopy (event.venue, event.eventId) past with
  | some first => exact .inl (Option.some_ne_none first)
  | none =>
    right
    cases hfill : event.canonicalize instruments with
    | error reason =>
      rw [classify_rejected hp hfirst hfill] at h
      exact h
    | ok fill =>
      rw [classify_new hp hfirst hfill] at h
      split at h
      · exact h
      · split at h
        · exact h
        · split at h
          · exact h
          · exact absurd rfl h.not_accepted

/-- A removable arrival is not the first copy of anything that comes later. -/
theorem Removable.firstCopy_eq (h : Removable line after (classify instruments past recvTs line))
    {op : Op} (hop : op ∈ after ++ [Op.flush]) {key : Venue × String}
    (hkey : op.eventWith key ≠ none) :
    firstCopy key (.fillCaught recvTs line :: past) = firstCopy key past := by
  rw [firstCopy]
  cases hp : line.parsed with
  | error error => rw [Op.eventWith, hp, Option.or_none]
  | ok event =>
    rw [eventWith_of_ok hp]
    split
    · next hk =>
      subst hk
      rcases h.known_or_unclaimed hp with hknown | hunclaimed
      · obtain ⟨first, hfirst⟩ := Option.ne_none_iff_exists'.mp hknown
        rw [hfirst, Option.some_or]
      · rcases List.mem_append.mp hop with hop | hop
        · exact absurd (hunclaimed event hp op hop) hkey
        · rw [List.mem_singleton.mp hop] at hkey
          exact absurd rfl hkey
    · exact Option.or_none

theorem stamps_append (v : Venue) (past past' : List Op) :
    stamps v (past ++ past') = stamps v past ++ stamps v past' := List.filterMap_append

/-- After a removable arrival no later call can tell that it was there. -/
theorem alike_of_removable
    (hsorted : ∀ v, (stamps v (before ++ Op.fillCaught recvTs line :: after)).Pairwise (· ≤ ·))
    (hbad : Removable line after (classify instruments before.reverse recvTs line)) :
    Alike instruments (after ++ [Op.flush]) (.fillCaught recvTs line :: before.reverse)
      before.reverse := by
  have hrev : ∀ v stamp, stamp ∈ stamps v before.reverse → stamp ∈ stamps v before := by
    intro v stamp hmem
    rw [stamps, List.filterMap_reverse] at hmem
    exact List.mem_reverse.mp hmem
  have hend : ∀ v, stamps v (after ++ [Op.flush]) = stamps v after := by
    intro v
    rw [stamps_append]
    exact List.append_nil _
  have hparts : ∀ v, (stamps v before ++ ((Op.fillCaught recvTs line).stampOn v).toList ++
      stamps v after).Pairwise (· ≤ ·) := by
    intro v
    have h := hsorted v
    rwa [stamps_append, stamps_cons, ← List.append_assoc] at h
  have hahead : ∀ v, ∀ stamp ∈ stamps v (.fillCaught recvTs line :: before.reverse),
      ∀ t ∈ stamps v (after ++ [Op.flush]), stamp ≤ t := by
    intro v stamp hmem t ht
    rw [hend] at ht
    refine (List.pairwise_append.mp (hparts v)).2.2 stamp ?_ t ht
    rw [stamps_cons] at hmem
    rcases List.mem_append.mp hmem with hmem | hmem
    · exact List.mem_append_right _ hmem
    · exact List.mem_append_left _ (hrev v stamp hmem)
  refine ⟨fun op hop key hkey => hbad.firstCopy_eq hop hkey, ?_, fun v => ?_, hahead,
    fun v stamp hmem => ?_, fun v => ?_⟩
  · rfl
  · cases hp : line.parsed with
    | error error => exact acceptedSeqs_malformed hp v
    | ok event => exact acceptedSeqs_unaccepted hp hbad.not_accepted v
  · refine hahead v stamp ?_
    rw [stamps_cons]
    exact List.mem_append_right _ hmem
  · rw [hend]
    exact (List.pairwise_append.mp (hparts v)).2.1

end Removed

/-! ## The tape of a flushed run -/

/-- The tape is numbered from one, whatever the calls. -/
theorem numbered_run (instruments : S) (ops : List Op) :
    tape (trace step (new instruments) ops) =
      number ((tape (trace step (new instruments) ops)).map stamped) := by
  induction ops using List.reverseRecOn with
  | nil => rfl
  | append_singleton ops op ih =>
    have hmerged := (conserved_run instruments ops).lanes.merged
    have hlast : ∀ entry : Op × Reply, tape [entry] = entry.2.published := fun entry =>
      List.append_nil _
    rw [trace_concat, tape_append, hlast, List.map_append]
    cases op with
    | fillCaught recvTs line =>
      show _ ++ [] = number (_ ++ [])
      rw [List.append_nil, List.append_nil, ← ih]
    | tick venue nowTs =>
      show _ ++ [] = number (_ ++ [])
      rw [List.append_nil, List.append_nil, ← ih]
    | drainReady =>
      have hdrain := (hmerged.drain true (.inl rfl)).2.2
      rw [← ih] at hdrain
      exact hdrain
    | flush =>
      have hdrain := (hmerged.seal.drain false (.inr rfl)).2.2
      rw [← ih] at hdrain
      exact hdrain

/-- After `flush` the tape has every lane, whole. -/
theorem tape_lane_flushed (instruments : S) (ops : List Op) (v : Venue) :
    ((tape (trace step (new instruments) (ops ++ [Op.flush]))).map stamped).filter
        (·.2.venue = v) =
      laneOn instruments v (arrivals (trace step (new instruments) (ops ++ [Op.flush]))) := by
  have h := conserved_run instruments (ops ++ [Op.flush])
  have hempty : ((exec step (new instruments) (ops ++ [Op.flush])).sequencer.lanes v).buffer =
      [] := by
    rw [exec_concat]
    exact Sequencer.flush_empty _ v
  have hconserve := h.lanes.merged.conserve v
  rw [hempty, List.append_nil, source_run] at hconserve
  exact hconserve

/-- Flushed runs with the same lanes have the same tape. -/
theorem tape_eq_of_lanes_eq {instruments : S} {ops ops' : List Op}
    (h : ∀ v, laneOn instruments v (arrivals (trace step (new instruments) (ops ++ [Op.flush]))) =
      laneOn instruments v (arrivals (trace step (new instruments) (ops' ++ [Op.flush])))) :
    tape (trace step (new instruments) (ops ++ [Op.flush])) =
      tape (trace step (new instruments) (ops' ++ [Op.flush])) := by
  have hpub : (tape (trace step (new instruments) (ops ++ [Op.flush]))).map stamped =
      (tape (trace step (new instruments) (ops' ++ [Op.flush]))).map stamped := by
    apply eq_of_perm_of_sorted sortKey (conserved_run instruments _).lanes.merged.ordered
      (conserved_run instruments _).lanes.merged.ordered
    apply perm_of_filter_eq (fun p : UInt64 × Fill => p.2.venue)
    intro v
    rw [tape_lane_flushed, tape_lane_flushed, h v]
  rw [numbered_run, hpub, ← numbered_run]

/-! ## Isolation -/

/-- Bad traffic does not influence good traffic: a run without a removable arrival ends as the
run with it, but for what that arrival contributed. -/
theorem bad_traffic_isolated (instruments : S) (before after : List Op) (recvTs : UInt64)
    (line : RawLine)
    (hsorted : ∀ v, (stamps v (before ++ Op.fillCaught recvTs line :: after)).Pairwise (· ≤ ·))
    (hbad : Removable line after
      ((exec step (new instruments) before).fillCaught recvTs line).1) :
    ∃ later, Isolated instruments ((before ++ Op.fillCaught recvTs line :: after) ++ [Op.flush])
      ((before ++ after) ++ [Op.flush]) (arrivals (trace step (new instruments) before))
      ⟨recvTs, line, ((exec step (new instruments) before).fillCaught recvTs line).1⟩ later := by
  have hout := ((summary_run instruments before).caught
    (caught_fillCaught (exec step (new instruments) before) recvTs line)).1
  rw [hout] at hbad ⊢
  obtain ⟨hsame, hend⟩ := (alike_of_removable hsorted hbad).verdicts_eq
  have hwith : arrivals (trace step (new instruments)
      ((before ++ Op.fillCaught recvTs line :: after) ++ [Op.flush])) =
      arrivals (trace step (new instruments) before) ++
        ⟨recvTs, line, classify instruments before.reverse recvTs line⟩ ::
          verdicts instruments before.reverse (after ++ [Op.flush]) := by
    rw [List.append_assoc, List.cons_append, arrivals_run, arrivals_run, verdicts_append,
      List.append_nil, verdicts, hsame]
  have hwithout : arrivals (trace step (new instruments) ((before ++ after) ++ [Op.flush])) =
      arrivals (trace step (new instruments) before) ++
        verdicts instruments before.reverse (after ++ [Op.flush]) := by
    rw [List.append_assoc, arrivals_run, arrivals_run, verdicts_append, List.append_nil]
  have hall := (conserved_run instruments
    ((before ++ Op.fillCaught recvTs line :: after) ++ [Op.flush])).accounted
  have hothers := (conserved_run instruments ((before ++ after) ++ [Op.flush])).accounted
  refine ⟨verdicts instruments before.reverse (after ++ [Op.flush]), hwith, hwithout, ?_, ?_, ?_,
    ?_, ?_, ?_, ?_⟩
  · rw [hall.letters, hwith, List.filterMap_append, filterMap_cons_toList, List.append_assoc]
  · rw [hothers.letters, hwithout, List.filterMap_append]
  · rw [hall.alerts, hall.letters, hwith, List.append_cons, List.filterMap_append,
      List.filterMap_append, List.filterMap_append, List.filterMap_append]
    rfl
  · rw [hothers.alerts, hothers.letters, hwithout, List.filterMap_append, List.filterMap_append]
    rfl
  · rw [hothers.accepted, hall.accepted, hwith, hwithout, List.countP_append, List.countP_append,
      List.countP_cons_of_neg (by simpa using hbad.not_accepted)]
  · rw [counted_run, counted_run]
    congr 1
    apply totalGaps_congr
    intro v
    have hseqs := hend.seqs v
    simpa using hseqs.symm
  · apply tape_eq_of_lanes_eq
    intro v
    rw [hwith, hwithout, laneOn, laneOn, List.filterMap_append, List.filterMap_append,
      List.filterMap_cons_none]
    rw [entryOn, if_neg fun h => hbad.not_accepted h.1]

/-- A malformed line that lets the drain publish early. -/
theorem bad_traffic_isolated_malformed :
    let before : List Op := [.fillCaught 1 (hlLine "e" 1 "0.002")]
    let after : List Op := [.drainReady, .fillCaught 3 (pmLine "e" 9), .tick .hl 4]
    let hist := trace step (new Registry.standard)
      ((before ++ Op.fillCaught 2 (malformedLine .pm) :: after) ++ [Op.flush])
    (tape hist).length = 2 ∧
      ∃ later, Isolated Registry.standard
        ((before ++ Op.fillCaught 2 (malformedLine .pm) :: after) ++ [Op.flush])
        ((before ++ after) ++ [Op.flush]) (arrivals (trace step (new Registry.standard) before))
        ⟨2, malformedLine .pm, ((exec step (new Registry.standard) before).fillCaught 2
          (malformedLine .pm)).1⟩ later :=
  ⟨by decide +kernel, bad_traffic_isolated Registry.standard _ _ 2 (malformedLine .pm)
    (fun v => by cases v <;> decide) trivial⟩

end Bitfrost.Ingester

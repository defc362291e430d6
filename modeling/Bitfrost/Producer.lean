import Bitfrost.Lib.Firsts
import Bitfrost.Pipeline
import Bitfrost.Publication

/-!
A producer that keeps its contract. The first copies of its ids come in order
of their sequence numbers; lines may be sent again at any time, spoilt or
interleaved at will. Then nothing is quarantined as out of order, and the
tape has exactly the first copy of every id that canonicalizes, in order.
-/

namespace Bitfrost.Ingester

open Bitfrost.Lib

/-! ## The contract -/

def Op.eventOn (venue : Venue) : Op → Option RawEvent
  | .fillCaught _ line => line.parsed.toOption.filter (·.venue = venue)
  | _ => none

/-- The parsed events of a venue, in order of arrival. -/
def eventsOn (venue : Venue) (ops : List Op) : List RawEvent := ops.filterMap (Op.eventOn venue)

/-- A new id comes with a sequence number above those of the first copies before it. -/
def InOrder (events : List RawEvent) : Prop :=
  (firsts (·.eventId) events).Pairwise (·.seq < ·.seq)

instance (events : List RawEvent) : Decidable (InOrder events) :=
  inferInstanceAs (Decidable (List.Pairwise _ _))

/-- The outcome of an event that no lane can refuse, after `earlier` events of its venue. -/
def verdict {S : Type} [InstrumentSource S] (instruments : S) (earlier : List RawEvent)
    (event : RawEvent) : IngestOutcome :=
  match earlier.find? (·.eventId = event.eventId) with
  | some first =>
    if sameEvent instruments first event then .duplicate else .deadLettered .byzantine
  | none =>
    match event.canonicalize instruments with
    | .ok _ => .accepted
    | .error reason => .deadLettered (.rejected reason)

section Contract

variable {S : Type} [InstrumentSource S] {instruments : S} {past ops : List Op} {recvTs : UInt64}
  {line : RawLine} {event : RawEvent}

theorem eventOn_of_ok (hp : line.parsed = .ok event) (v : Venue) :
    (Op.fillCaught recvTs line).eventOn v = if event.venue = v then some event else none := by
  rw [Op.eventOn, hp]
  by_cases hv : event.venue = v <;> simp [Except.toOption, Option.filter, hv]

theorem eventOn_venue {op : Op} {v : Venue} (h : op.eventOn v = some event) :
    event.venue = v := by
  cases op with
  | fillCaught recvTs line => simpa using (Option.filter_eq_some_iff.mp h).2
  | tick lane nowTs => cases h
  | drainReady => cases h
  | flush => cases h

theorem exists_of_eventOn {op : Op} {v : Venue} (h : op.eventOn v = some event) :
    ∃ recvTs line, op = .fillCaught recvTs line ∧ line.parsed = .ok event := by
  cases op with
  | fillCaught recvTs line =>
    refine ⟨recvTs, line, rfl, ?_⟩
    have hparsed := (Option.filter_eq_some_iff.mp h).1
    cases hp : line.parsed with
    | error error => simp [hp, Except.toOption] at hparsed
    | ok found => simpa [hp, Except.toOption] using hparsed
  | tick lane nowTs => cases h
  | drainReady => cases h
  | flush => cases h

/-- The first copy of an id is the first event of its venue with the id. -/
theorem firstCopy_eq_find (v : Venue) (id : String) (past : List Op) :
    firstCopy (v, id) past = (eventsOn v past.reverse).find? (·.eventId = id) := by
  induction past with
  | nil => rfl
  | cons op past ih =>
    have hone : op.eventWith (v, id) = (op.eventOn v).filter (·.eventId = id) := by
      cases op with
      | fillCaught recvTs line =>
        cases hp : line.parsed with
        | error error => simp [Op.eventWith, Op.eventOn, hp, Except.toOption]
        | ok event =>
          rw [eventWith_of_ok hp, eventOn_of_ok hp]
          by_cases hv : event.venue = v <;> by_cases hid : event.eventId = id <;>
            simp [hv, hid, Option.filter]
      | tick lane nowTs => rfl
      | drainReady => rfl
      | flush => rfl
    rw [firstCopy, ih, hone, List.reverse_cons, eventsOn, eventsOn, List.filterMap_append,
      List.find?_append]
    congr 1
    cases hop : op.eventOn v with
    | none => simp [hop]
    | some found =>
      by_cases hid : found.eventId = id <;> simp [hop, Option.filter, hid]

theorem eventsOn_concat (v : Venue) (ops : List Op) (op : Op) :
    eventsOn v (ops ++ [op]) = eventsOn v ops ++ (op.eventOn v).toList := by
  have hlast := filterMap_cons_toList (Op.eventOn v) op []
  rw [List.filterMap_nil, List.append_nil] at hlast
  rw [eventsOn, List.filterMap_append, hlast, ← eventsOn]

/-- An event whose id is new is a first copy. -/
theorem firsts_of_new {v : Venue} (h : firstCopy (v, event.eventId) past = none) :
    firsts (·.eventId) (eventsOn v past.reverse ++ [event]) =
      firsts (·.eventId) (eventsOn v past.reverse) ++ [event] := by
  rw [firstCopy_eq_find, List.find?_eq_none] at h
  rw [firsts_concat, if_pos fun earlier hearlier => by simpa using h earlier hearlier]

/-- Only first copies are accepted. -/
theorem mem_acceptedSeqs {v : Venue} {seq : UInt64} (h : seq ∈ acceptedSeqs instruments v past) :
    ∃ event ∈ firsts (·.eventId) (eventsOn v past.reverse), event.seq = seq := by
  induction past with
  | nil => cases h
  | cons op past ih =>
    have hearlier : seq ∈ acceptedSeqs instruments v past →
        ∃ event ∈ firsts (·.eventId) (eventsOn v (op :: past).reverse), event.seq = seq :=
      fun hseq => by
        obtain ⟨event, hevent, heq⟩ := ih hseq
        refine ⟨event, ?_, heq⟩
        rw [List.reverse_cons, eventsOn, List.filterMap_append]
        exact (firsts_sublist_append _ _ _).subset hevent
    cases op with
    | fillCaught recvTs line =>
      cases hp : line.parsed with
      | error error =>
        rw [acceptedSeqs_malformed hp] at h
        exact hearlier h
      | ok event =>
        rw [acceptedSeqs_arrival hp] at h
        split at h
        · next hacc =>
          rcases List.mem_cons.mp h with rfl | hseq
          · obtain ⟨rfl, haccepted⟩ := hacc
            have hnew : firstCopy (event.venue, event.eventId) past = none := by
              by_contra hknown
              obtain ⟨first, hfirst⟩ := Option.ne_none_iff_exists'.mp hknown
              rw [classify_known hp hfirst] at haccepted
              split at haccepted <;> cases haccepted
            have hlast : (Op.fillCaught recvTs line).eventOn event.venue = some event := by
              rw [eventOn_of_ok hp, if_pos rfl]
            refine ⟨event, ?_, rfl⟩
            rw [List.reverse_cons, eventsOn_concat, hlast, Option.toList_some, firsts_of_new hnew]
            exact List.mem_append_right _ (List.mem_singleton_self _)
          · exact hearlier hseq
        · exact hearlier h
    | tick lane nowTs => exact hearlier h
    | drainReady => exact hearlier h
    | flush => exact hearlier h

/-- Against the contract the lanes have nothing to refuse. -/
theorem classify_inOrder (hp : line.parsed = .ok event)
    (hopen : past.any Op.isFlush = false)
    (hstamps : ∀ stamp ∈ stamps event.venue past, stamp ≤ recvTs)
    (hcontract : InOrder (eventsOn event.venue past.reverse ++ [event])) :
    classify instruments past recvTs line =
      verdict instruments (eventsOn event.venue past.reverse) event := by
  have hfirst := firstCopy_eq_find event.venue event.eventId past
  rw [verdict, ← hfirst]
  cases hcopy : firstCopy (event.venue, event.eventId) past with
  | some first => exact classify_known hp hcopy
  | none =>
    cases hfill : event.canonicalize instruments with
    | error reason => exact classify_rejected hp hcopy hfill
    | ok fill =>
      rw [classify_new hp hcopy hfill, hopen, if_neg Bool.false_ne_true, if_neg, if_neg]
      · rintro ⟨seq, hseq, hle⟩
        obtain ⟨earlier, hearlier, rfl⟩ := mem_acceptedSeqs hseq
        rw [InOrder, firsts_of_new hcopy] at hcontract
        exact absurd hle ((List.pairwise_append.mp hcontract).2.2 earlier hearlier event
          (List.mem_singleton_self _)).not_ge
      · rintro ⟨stamp, hstamp, hlt⟩
        exact absurd hlt (hstamps stamp hstamp).not_gt

/-! ## The run -/

/-- The canonical fills of the first copies. -/
def valid (instruments : S) (events : List RawEvent) : List Fill :=
  (firsts (·.eventId) events).filterMap fun event => (event.canonicalize instruments).toOption

/-- One more event is one more fill when it is a first copy that canonicalizes. -/
theorem valid_concat (events : List RawEvent) (event : RawEvent) :
    valid instruments (events ++ [event]) = valid instruments events ++
      if verdict instruments events event = .accepted then
        (event.canonicalize instruments).toOption.toList
      else [] := by
  have hnew : (∀ b ∈ events, b.eventId ≠ event.eventId) ↔
      events.find? (·.eventId = event.eventId) = none := by
    simp [List.find?_eq_none]
  rw [valid, firsts_concat, List.filterMap_append, verdict]
  congr 1
  cases hfind : events.find? (·.eventId = event.eventId) with
  | some first =>
    rw [if_neg (mt hnew.mp (by simp [hfind]))]
    cases hsame : sameEvent instruments first event <;> simp [hsame]
  | none =>
    rw [if_pos (hnew.mpr hfind)]
    cases hfill : event.canonicalize instruments <;> simp [hfill, Except.toOption]

/-- A call without an event of the venue leaves its lane alone. -/
theorem laneOn_other {op : Op} {v : Venue} (h : op.eventOn v = none) (self : Ingester S) :
    laneOn instruments v (arrivals [(op, (step self op).1)]) = [] := by
  cases op with
  | fillCaught recvTs line =>
    refine List.filterMap_eq_nil_iff.mpr fun a ha => ?_
    obtain rfl : a = ⟨recvTs, line, (self.fillCaught recvTs line).1⟩ := List.mem_singleton.mp ha
    cases hp : line.parsed with
    | error error => simp [entryOn, canonicalFill, hp]
    | ok event =>
      rw [entryOn, if_neg]
      rintro ⟨-, hv⟩
      rw [eventOn_of_ok hp, if_pos ((attributed_of_ok hp).symm.trans hv)] at h
      cases h
  | tick lane nowTs => rfl
  | drainReady => rfl
  | flush => rfl

theorem laneOn_event (hp : line.parsed = .ok event) (outcome : IngestOutcome) :
    (laneOn instruments event.venue [⟨recvTs, line, outcome⟩]).map (·.2) =
      if outcome = .accepted then (event.canonicalize instruments).toOption.toList else [] := by
  have hentry : entryOn instruments event.venue ⟨recvTs, line, outcome⟩ =
      if outcome = .accepted then (event.canonicalize instruments).toOption.map (recvTs, ·)
      else none := by
    simp [entryOn, canonicalFill, hp, attributed_of_ok hp]
  rw [laneOn, List.filterMap_cons, hentry]
  split
  · next hnone =>
    split at hnone
    · rw [Option.map_eq_none_iff.mp hnone]
      simp_all
    · simp_all
  · next hsome =>
    split at hsome
    · obtain ⟨fill, hfill, rfl⟩ := Option.map_eq_some_iff.mp hsome
      simp_all
    · cases hsome

theorem Feed.init {later : List Op} (h : Feed (ops ++ later)) : Feed ops := by
  have hopen := h.unflushed
  rw [List.any_append, Bool.or_eq_false_iff] at hopen
  exact ⟨hopen.1, (List.pairwise_append.mp h.ordered).1⟩

theorem InOrder.init {v : Venue} {later : List Op} (h : InOrder (eventsOn v (ops ++ later))) :
    InOrder (eventsOn v ops) := by
  rw [eventsOn, List.filterMap_append] at h
  exact h.sublist (firsts_sublist_append _ _ _)

/-- The next event of a producer that keeps the contract is judged by the events before it. -/
theorem fillCaught_inOrder (hp : line.parsed = .ok event)
    (hfeed : Feed (ops ++ [Op.fillCaught recvTs line]))
    (hcontract : InOrder (eventsOn event.venue (ops ++ [Op.fillCaught recvTs line]))) :
    ((exec step (new instruments) ops).fillCaught recvTs line).1 =
      verdict instruments (eventsOn event.venue ops) event := by
  have hopen := hfeed.init.unflushed
  have hord := (List.pairwise_append.mp hfeed.ordered).2.2
  have hstamps := stamps_le fun earlier hearlier =>
    hord earlier (List.mem_reverse.mp hearlier) _ (List.mem_singleton_self _)
  rw [attributed_of_ok hp] at hstamps
  rw [eventsOn_concat, eventOn_of_ok hp, if_pos rfl, Option.toList_some] at hcontract
  have hverdict : classify instruments ops.reverse recvTs line = _ :=
    classify_inOrder hp (by rw [List.any_reverse]; exact hopen) hstamps
      (by rw [List.reverse_reverse]; exact hcontract)
  rw [List.reverse_reverse] at hverdict
  rw [← hverdict]
  exact ((summary_run instruments ops).caught (caught_fillCaught _ recvTs line)).1

/-- The lane of a venue carries the canonical fills of its first copies. -/
theorem laneOn_valid (hfeed : Feed ops) (v : Venue) (hcontract : InOrder (eventsOn v ops)) :
    (laneOn instruments v (arrivals (trace step (new instruments) ops))).map (·.2) =
      valid instruments (eventsOn v ops) := by
  induction ops using List.reverseRecOn with
  | nil => rfl
  | append_singleton ops op ih =>
    have ih := ih hfeed.init hcontract.init
    have hlane : ∀ last, laneOn instruments v
        (arrivals (trace step (new instruments) ops) ++ last) =
        laneOn instruments v (arrivals (trace step (new instruments) ops)) ++
          laneOn instruments v last := fun last => List.filterMap_append
    rw [trace_concat, arrivals_append, hlane, List.map_append, ih, eventsOn_concat]
    cases hop : op.eventOn v with
    | none =>
      rw [laneOn_other hop, Option.toList_none, List.append_nil]
      exact List.append_nil _
    | some event =>
      obtain ⟨recvTs, line, rfl, hp⟩ := exists_of_eventOn hop
      obtain rfl := eventOn_venue hop
      rw [Option.toList_some, valid_concat, ← fillCaught_inOrder hp hfeed hcontract]
      congr 1
      exact laneOn_event hp _

theorem verdict_not_outOfOrder (earlier : List RawEvent) (error : SequencerError) :
    verdict instruments earlier event ≠ .deadLettered (.outOfOrder error) := by
  rw [verdict]
  split
  · split <;> simp
  · split <;> simp

theorem outcome_of_letter {arrival : Arrival} {letter : DeadLetter}
    (h : arrival.letter = some letter) (hout : isOutOfOrder letter = true) :
    ∃ error, arrival.outcome = .deadLettered (.outOfOrder error) := by
  rw [Arrival.letter] at h
  split at h
  · next reason hreason =>
    cases h
    cases reason with
    | outOfOrder error => exact ⟨error, hreason⟩
    | malformed error => cases hout
    | rejected error => cases hout
    | byzantine => cases hout
  · cases h

theorem outOfOrder_letters (hfeed : Feed ops) (hcontract : ∀ v, InOrder (eventsOn v ops)) :
    ∀ a ∈ arrivals (trace step (new instruments) ops), ∀ error,
      a.outcome ≠ .deadLettered (.outOfOrder error) := by
  induction ops using List.reverseRecOn with
  | nil => simp [arrivals]
  | append_singleton ops op ih =>
    have ih := ih hfeed.init fun v => (hcontract v).init
    rw [trace_concat, arrivals_append]
    intro a ha error
    rcases List.mem_append.mp ha with hearlier | hlast
    · exact ih a hearlier error
    · cases op with
      | fillCaught recvTs line =>
        obtain rfl : a = _ := List.mem_singleton.mp hlast
        have hout := ((summary_run instruments ops).caught (caught_fillCaught _ recvTs line)).1
        show ((exec step (new instruments) ops).fillCaught recvTs line).1 ≠ _
        cases hp : line.parsed with
        | error reason =>
          rw [hout, classify, judge, hp]
          simp
        | ok event =>
          rw [fillCaught_inOrder hp hfeed (hcontract _)]
          exact verdict_not_outOfOrder _ error
      | tick lane nowTs => cases hlast
      | drainReady => cases hlast
      | flush => cases hlast

end Contract

/-- A producer that keeps its contract is never quarantined. Every event is judged by the events of
its venue alone, no arrival is out of order, and after the flush the tape has, on each venue, the
canonical fills of the first copies that have one, in the order they were sent. -/
theorem contract_honoured {S : Type} [InstrumentSource S] (instruments : S) (ops : List Op)
    (hfeed : Feed ops) (hcontract : ∀ v, InOrder (eventsOn v ops)) :
    (∀ earlier recvTs line later event, ops = earlier ++ Op.fillCaught recvTs line :: later →
      line.parsed = .ok event →
        ((exec step (new instruments) earlier).fillCaught recvTs line).1 =
          verdict instruments (eventsOn event.venue earlier) event) ∧
    (∀ v, ((tape (trace step (new instruments) (ops ++ [Op.flush]))).map (·.fill)).filter
      (·.venue = v) = valid instruments (eventsOn v ops)) ∧
    (exec step (new instruments) ops).stats.outOfOrder = 0 := by
  refine ⟨?_, fun v => ?_, ?_⟩
  · intro earlier recvTs line later event hops hp
    rw [hops, ← List.singleton_append, ← List.append_assoc] at hfeed hcontract
    exact fillCaught_inOrder hp hfeed.init (hcontract _).init
  · have hheld := (conserved_run instruments (ops ++ [Op.flush])).heldOn_eq v
    have harrivals : arrivals (trace step (new instruments) (ops ++ [Op.flush])) =
        arrivals (trace step (new instruments) ops) := by
      rw [trace_concat, arrivals_append]
      exact List.append_nil _
    rw [source_run, exec_concat, heldOn_flush, harrivals] at hheld
    rw [hheld, laneOn_valid hfeed v (hcontract v)]
  · have haccounted := (conserved_run instruments ops).accounted
    rw [haccounted.outOfOrder, haccounted.letters, List.countP_eq_zero.mpr]
    · rfl
    · intro letter hletter
      obtain ⟨a, ha, hreason⟩ := List.mem_filterMap.mp hletter
      intro hout
      obtain ⟨error, herror⟩ := outcome_of_letter hreason hout
      exact outOfOrder_letters hfeed hcontract a ha error herror

/-- A copy sent again at once and again after a newer id, a copy that differs, a line that does not
parse, a quantity off its lot. -/
theorem contract_honoured_noisy :
    let ops : List Op := [.fillCaught 1 (hlLine "e" 1 "0.002"),
      .fillCaught 1 (hlLine "e" 1 "0.002"), .drainReady, .fillCaught 2 ⟨.hl, "not-json", .error "expected value"⟩, .tick .pm 2,
      .fillCaught 2 (hlLine "e" 7 "0.004"), .fillCaught 3 (hlLine "f" 9 "0.00001"),
      .fillCaught 3 (hlLine "g" 12 "0.001"), .fillCaught 3 (hlLine "e" 1 "0.002"), .drainReady]
    (((tape (trace step (new Registry.standard) (ops ++ [Op.flush]))).map (·.fill)).filter
      (·.venue = .hl)).map (·.eventId) = ["e", "g"] := by
  intro ops
  have hcontract : ∀ v, InOrder (eventsOn v ops) := by
    rintro (_ | _)
    · decide
    · decide
  rw [(contract_honoured Registry.standard ops ⟨rfl, by decide⟩ hcontract).2.1 .hl]
  decide +kernel

end Bitfrost.Ingester

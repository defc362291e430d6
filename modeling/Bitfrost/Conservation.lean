import Bitfrost.Classify
import Bitfrost.Tape

/-!
Nothing is lost and nothing is published twice. Every arrival ends in one
counter; a dead letter, an alert or a lane entry goes with it. The lanes and
the tape hold the canonical fills of the accepted arrivals, each id once.
-/

namespace Bitfrost.Ingester

open Bitfrost.Lib
open Bitfrost.Sequencer (Merged stamped)

/-! ## The arrivals of a history -/

/-- An arrival with its outcome. -/
structure Arrival where
  recvTs : UInt64
  line : RawLine
  outcome : IngestOutcome

def arrivalOf : Op × Reply → Option Arrival
  | (.fillCaught recvTs line, .caught outcome) => some ⟨recvTs, line, outcome⟩
  | _ => none

def arrivals (hist : History) : List Arrival := hist.filterMap arrivalOf

def Op.isArrival : Op → Bool
  | .fillCaught _ _ => true
  | _ => false

/-- The id of the event, empty when the line did not parse. -/
def eventIdOf (line : RawLine) : String :=
  match line.parsed with
  | .ok event => event.eventId
  | .error _ => ""

def Arrival.letter (arrival : Arrival) : Option DeadLetter :=
  match arrival.outcome with
  | .deadLettered reason =>
    some ⟨attributed arrival.line, eventIdOf arrival.line, reason, some arrival.line.text⟩
  | _ => none

/-- The alert a dead letter goes with. -/
def alertOf (letter : DeadLetter) : Option Alert :=
  if letter.reason = .byzantine then some ⟨letter.venue, letter.eventId, .byzantineDuplicate⟩
  else none

def isOutOfOrder (letter : DeadLetter) : Bool :=
  match letter.reason with
  | .outOfOrder _ => true
  | _ => false

/-- The canonical fill of a line that has one. -/
def canonicalFill {S : Type} [InstrumentSource S] (instruments : S) (line : RawLine) :
    Option Fill :=
  match line.parsed with
  | .ok event => (event.canonicalize instruments).toOption
  | .error _ => none

theorem canonicalize_of_canonicalFill {S : Type} [InstrumentSource S] {instruments : S}
    {line : RawLine} {event : RawEvent} {fill : Fill} (hp : line.parsed = .ok event)
    (hfill : canonicalFill instruments line = some fill) :
    event.canonicalize instruments = .ok fill := by
  rw [canonicalFill, hp] at hfill
  dsimp only at hfill
  cases hc : event.canonicalize instruments with
  | error reason => simp [hc, Except.toOption] at hfill
  | ok found =>
    rw [hc] at hfill
    exact congrArg Except.ok (Option.some.inj hfill)

/-- The accepted arrivals of a venue. -/
def acceptedOn (venue : Venue) (arrived : List Arrival) : List Arrival :=
  arrived.filter fun a => a.outcome = .accepted ∧ attributed a.line = venue

/-- What an arrival puts on the lane of `venue`. -/
def entryOn {S : Type} [InstrumentSource S] (instruments : S) (venue : Venue)
    (arrival : Arrival) : Option (UInt64 × Fill) :=
  if arrival.outcome = .accepted ∧ attributed arrival.line = venue then
    (canonicalFill instruments arrival.line).map (arrival.recvTs, ·)
  else none

/-- The lane of `venue` after `arrived`, published or not. -/
def laneOn {S : Type} [InstrumentSource S] (instruments : S) (venue : Venue)
    (arrived : List Arrival) : List (UInt64 × Fill) :=
  arrived.filterMap (entryOn instruments venue)

variable {S : Type}

/-- The fills published or still buffered, venue by venue in the buffers. -/
def held (hist : History) (self : Ingester S) : List Fill :=
  (tape hist).map (·.fill) ++
    Venue.all.flatMap fun v => (self.sequencer.lanes v).buffer.map (·.2)

/-- The fills of a venue, published or still buffered, in order. -/
def heldOn (venue : Venue) (hist : History) (self : Ingester S) : List Fill :=
  ((tape hist).map (·.fill)).filter (·.venue = venue) ++
    (self.sequencer.lanes venue).buffer.map (·.2)

@[simp] theorem arrivals_append (hist hist' : History) :
    arrivals (hist ++ hist') = arrivals hist ++ arrivals hist' := by simp [arrivals]

theorem length_arrivals [InstrumentSource S] (self : Ingester S) (ops : List Op) :
    (arrivals (trace step self ops)).length = ops.countP Op.isArrival := by
  induction ops generalizing self with
  | nil => rfl
  | cons op ops ih =>
    rw [trace_cons, List.countP_cons, ← ih (step self op).2]
    cases op <;> rfl

/-- Every arrival is accepted, a duplicate, or leaves a letter. -/
theorem length_eq_counts (arrived : List Arrival) :
    arrived.length = arrived.countP (·.outcome = .accepted) +
      arrived.countP (·.outcome = .duplicate) + (arrived.filterMap Arrival.letter).length := by
  induction arrived with
  | nil => rfl
  | cons a arrived ih =>
    cases h : a.outcome <;>
      simp only [List.length_cons, List.countP_cons, List.filterMap_cons, Arrival.letter, h,
        reduceCtorEq, decide_true, decide_false, if_true, Bool.false_eq_true, if_false] <;>
      omega

/-! ## Counters, letters and alerts -/

/-- The containers and counters after `arrived`. -/
structure Accounted (arrived : List Arrival) (ingester : Ingester S) : Prop where
  accepted : ingester.stats.accepted =
    UInt64.ofNat (arrived.countP (·.outcome = .accepted))
  duplicates : ingester.stats.duplicates =
    UInt64.ofNat (arrived.countP (·.outcome = .duplicate))
  letters : ingester.deadLetters = arrived.filterMap Arrival.letter
  deadLettered : ingester.stats.deadLettered = UInt64.ofNat ingester.deadLetters.length
  alerts : ingester.alerts = ingester.deadLetters.filterMap alertOf
  byzantine : ingester.stats.byzantine = UInt64.ofNat ingester.alerts.length
  outOfOrder : ingester.stats.outOfOrder =
    UInt64.ofNat (ingester.deadLetters.countP isOutOfOrder)

theorem accounted_new (instruments : S) : Accounted [] (new instruments) :=
  ⟨rfl, rfl, rfl, rfl, rfl, rfl, rfl⟩

section Arrive

variable {arrived : List Arrival} {self next : Ingester S} {recvTs : UInt64} {line : RawLine}

/-- One more arrival adds one to the counter of its outcome, with the letter and the alert that
go with it. -/
theorem Accounted.arrive (h : Accounted arrived self) (a : Arrival)
    (hstats : next.stats = {
      accepted := self.stats.accepted + UInt64.ofNat ([a].countP (·.outcome = .accepted))
      duplicates := self.stats.duplicates + UInt64.ofNat ([a].countP (·.outcome = .duplicate))
      byzantine := self.stats.byzantine + UInt64.ofNat (a.letter.toList.filterMap alertOf).length
      deadLettered := self.stats.deadLettered + UInt64.ofNat a.letter.toList.length
      outOfOrder := self.stats.outOfOrder + UInt64.ofNat (a.letter.toList.countP isOutOfOrder)
      gaps := next.stats.gaps })
    (hletters : next.deadLetters = self.deadLetters ++ a.letter.toList)
    (halerts : next.alerts = self.alerts ++ a.letter.toList.filterMap alertOf) :
    Accounted (arrived ++ [a]) next := by
  refine ⟨?_, ?_, ?_, ?_, ?_, ?_, ?_⟩
  · rw [hstats, List.countP_append, UInt64.ofNat_add, h.accepted]
  · rw [hstats, List.countP_append, UInt64.ofNat_add, h.duplicates]
  · rw [hletters, h.letters, List.filterMap_append]
    cases hl : a.letter <;> simp [hl]
  · rw [hstats, hletters, List.length_append, UInt64.ofNat_add, h.deadLettered]
  · rw [halerts, hletters, List.filterMap_append, h.alerts]
  · rw [hstats, halerts, List.length_append, UInt64.ofNat_add, h.byzantine]
  · rw [hstats, hletters, List.countP_append, UInt64.ofNat_add, h.outOfOrder]

theorem letter_of_ok {event : RawEvent} (hp : line.parsed = .ok event) (recvTs : UInt64)
    (reason : DeadLetterReason) :
    (⟨recvTs, line, .deadLettered reason⟩ : Arrival).letter =
      some ⟨event.venue, event.eventId, reason, some line.text⟩ := by
  simp only [Arrival.letter, attributed_of_ok hp, eventIdOf, hp]

theorem Accounted.caught [InstrumentSource S] (h : Accounted arrived self)
    {r : IngestOutcome × Ingester S} (hc : Caught self recvTs line r) :
    Accounted (arrived ++ [⟨recvTs, line, r.1⟩]) r.2 := by
  cases hc with
  | malformed error hp =>
    have hletter : (⟨recvTs, line, .deadLettered (.malformed error)⟩ : Arrival).letter =
        some ⟨line.venue, "", .malformed error, some line.text⟩ := by
      simp only [Arrival.letter, attributed, eventIdOf, hp]
    refine h.arrive _ ?_ ?_ ?_ <;> simp [deadLetter, tick, hletter, alertOf, isOutOfOrder]
  | duplicate event previous hp hseen hsame =>
    refine h.arrive _ ?_ ?_ ?_ <;> simp [tick, Arrival.letter]
  | byzantine event previous hp hseen hdiff =>
    have hletter := letter_of_ok hp recvTs .byzantine
    refine h.arrive _ ?_ ?_ ?_ <;> simp [deadLetter, tick, hletter, alertOf, isOutOfOrder]
  | rejected event reason hp hseen hfill =>
    have hletter := letter_of_ok hp recvTs (.rejected reason)
    refine h.arrive _ ?_ ?_ ?_ <;> simp [deadLetter, tick, hletter, alertOf, isOutOfOrder]
  | accepted event fill hp hseen hfill hsealed hguards =>
    refine h.arrive _ ?_ ?_ ?_ <;> simp [Arrival.letter]
  | outOfOrder event fill error hp hseen hfill hpush =>
    have hletter := letter_of_ok hp recvTs (.outOfOrder error)
    refine h.arrive _ ?_ ?_ ?_ <;> simp [deadLetter, tick, hletter, alertOf, isOutOfOrder]

end Arrive

/-! ## Lanes and tape -/

/-- The sequencer holds the lanes of `arrived`, of which `pub` is published, and every id on a
lane is claimed, once. -/
structure Held [InstrumentSource S] (arrived : List Arrival) (pub : List (UInt64 × Fill))
    (ingester : Ingester S) : Prop where
  merged : Merged (laneOn ingester.instruments · arrived) pub ingester.sequencer
  canonical : ∀ a ∈ arrived, a.outcome = .accepted →
    (canonicalFill ingester.instruments a.line).isSome
  claimed : ∀ v, ∀ p ∈ laneOn ingester.instruments v arrived,
    (ingester.seen[(v, p.2.eventId)]?).isSome
  distinct : ∀ v, (laneOn ingester.instruments v arrived).Pairwise
    fun p q => p.2.eventId ≠ q.2.eventId

section Held

variable [InstrumentSource S] {arrived : List Arrival} {pub : List (UInt64 × Fill)}
  {self next : Ingester S} {recvTs : UInt64} {line : RawLine}

theorem held_new (instruments : S) : Held [] [] (new instruments) where
  merged := Sequencer.merged_new
  canonical a ha := by cases ha
  claimed v p hp := by cases hp
  distinct v := List.Pairwise.nil

/-- A step that pushes nothing. -/
theorem Held.quiet (h : Held arrived pub self) (later : List Arrival)
    {pub' : List (UInt64 × Fill)} (hlater : ∀ a ∈ later, a.outcome ≠ .accepted)
    (hsource : next.instruments = self.instruments)
    (hmerged : ∀ acc, Merged acc pub self.sequencer → Merged acc pub' next.sequencer)
    (hseen : ∀ k : Venue × String, (self.seen[k]?).isSome → (next.seen[k]?).isSome) :
    Held (arrived ++ later) pub' next := by
  have hnone : ∀ v, laneOn self.instruments v (arrived ++ later) =
      laneOn self.instruments v arrived := by
    intro v
    have hquiet : later.filterMap (entryOn self.instruments v) = [] := by
      rw [List.filterMap_eq_nil_iff]
      intro a ha
      rw [entryOn, if_neg (fun hout => hlater a ha hout.1)]
    rw [laneOn, List.filterMap_append, hquiet, List.append_nil]
    rfl
  refine ⟨?_, ?_, ?_, ?_⟩
  · simp only [hsource, hnone]
    exact hmerged _ h.merged
  · intro a ha hout
    rw [hsource]
    rcases List.mem_append.mp ha with ha | ha
    · exact h.canonical a ha hout
    · exact absurd hout (hlater a ha)
  · intro v p hp
    rw [hsource, hnone] at hp
    exact hseen _ (h.claimed v p hp)
  · intro v
    rw [hsource, hnone]
    exact h.distinct v

theorem isSome_insert {seen : Std.ExtTreeMap (Venue × String) Seen venueStringCmp}
    (key : Venue × String) (copy : Seen) (k : Venue × String) (h : (seen[k]?).isSome) :
    ((seen.insert key copy)[k]?).isSome := by
  rw [getElem?_insert_eq]
  split
  · rfl
  · exact h

/-- An accepted arrival goes to the end of its lane under an id that no lane entry has. -/
theorem Held.accept (h : Held arrived pub self) {event : RawEvent} {fill : Fill}
    (hp : line.parsed = .ok event)
    (hnew : self.seen[(event.venue, event.eventId)]? = none)
    (hfill : event.canonicalize self.instruments = .ok fill)
    (hsource : next.instruments = self.instruments)
    (hmerged : ∀ acc, Merged acc pub self.sequencer →
      Merged (Function.update acc event.venue (acc event.venue ++ [(recvTs, fill)])) pub
        next.sequencer)
    (hseen : next.seen = self.seen.insert (event.venue, event.eventId) ⟨event, some fill⟩) :
    Held (arrived ++ [⟨recvTs, line, .accepted⟩]) pub next := by
  obtain ⟨-, hid, -⟩ := RawEvent.canonicalize_identity hfill
  have hcanonical : canonicalFill self.instruments line = some fill := by
    rw [canonicalFill, hp]
    dsimp only
    rw [hfill]
    rfl
  have hlane : ∀ v, laneOn self.instruments v (arrived ++ [⟨recvTs, line, .accepted⟩]) =
      if event.venue = v then laneOn self.instruments v arrived ++ [(recvTs, fill)]
      else laneOn self.instruments v arrived := by
    intro v
    rw [laneOn, List.filterMap_append]
    by_cases hv : event.venue = v <;>
      simp [laneOn, entryOn, attributed_of_ok hp, hcanonical, hv]
  have hfresh : ∀ p ∈ laneOn self.instruments event.venue arrived, p.2.eventId ≠ fill.eventId := by
    intro p hmem heq
    have hclaimed := h.claimed event.venue p hmem
    rw [heq, hid, hnew] at hclaimed
    cases hclaimed
  refine ⟨?_, ?_, ?_, ?_⟩
  · have hacc : (laneOn self.instruments · (arrived ++ [⟨recvTs, line, .accepted⟩])) =
        Function.update (laneOn self.instruments · arrived) event.venue
          (laneOn self.instruments event.venue arrived ++ [(recvTs, fill)]) := by
      funext v
      rw [hlane, Function.update_apply]
      by_cases hv : v = event.venue
      · rw [if_pos hv.symm, if_pos hv, hv]
      · rw [if_neg (Ne.symm hv), if_neg hv]
    rw [hsource, hacc]
    exact hmerged _ h.merged
  · intro a ha hout
    rw [hsource]
    rcases List.mem_append.mp ha with ha | ha
    · exact h.canonical a ha hout
    · rw [List.mem_singleton.mp ha, hcanonical]
      rfl
  · intro v p hmem
    rw [hsource, hlane] at hmem
    rw [hseen]
    split at hmem
    · next hv =>
      rcases List.mem_append.mp hmem with hmem | hmem
      · exact isSome_insert _ _ _ (h.claimed v p hmem)
      · rw [List.mem_singleton.mp hmem, getElem?_insert_eq, if_pos (by rw [hid, hv])]
        rfl
    · exact isSome_insert _ _ _ (h.claimed v p hmem)
  · intro v
    rw [hsource, hlane]
    split
    · next hv =>
      subst hv
      refine List.pairwise_append.mpr ⟨h.distinct _, List.pairwise_singleton _ _, ?_⟩
      intro p hmem q hq
      rw [List.mem_singleton.mp hq]
      exact hfresh p hmem
    · exact h.distinct v

theorem Held.caught (h : Held arrived pub self) {r : IngestOutcome × Ingester S}
    (hc : Caught self recvTs line r) : Held (arrived ++ [⟨recvTs, line, r.1⟩]) pub r.2 := by
  cases hc with
  | malformed error hp =>
    exact h.quiet [_] (by simp [deadLetter]) rfl (fun _ hm => hm.tick _ _) fun _ hk => hk
  | duplicate event previous hp hseen hsame =>
    exact h.quiet [_] (by simp) rfl (fun _ hm => hm.tick _ _) fun _ hk => hk
  | byzantine event previous hp hseen hdiff =>
    exact h.quiet [_] (by simp [deadLetter]) rfl (fun _ hm => hm.tick _ _) fun _ hk => hk
  | rejected event reason hp hseen hfill =>
    exact h.quiet [_] (by simp [deadLetter]) rfl (fun _ hm => hm.tick _ _) (isSome_insert _ _)
  | accepted event fill hp hseen hfill hsealed hguards =>
    refine h.accept hp hseen hfill rfl (fun acc hm => ?_) rfl
    rw [Sequencer.push_eq_ok (s := self.sequencer.tick event.venue recvTs) hsealed hguards]
    exact (hm.tick _ _).push hsealed hguards
  | outOfOrder event fill error hp hseen hfill hpush =>
    exact h.quiet [_] (by simp [deadLetter]) rfl (fun _ hm => hm.tick _ _) (isSome_insert _ _)

end Held

/-! ## Whole runs -/

/-- What the history says about the ingester it leads to. -/
structure Conserved [InstrumentSource S] (hist : History) (ingester : Ingester S) : Prop where
  accounted : Accounted (arrivals hist) ingester
  lanes : Held (arrivals hist) ((tape hist).map stamped) ingester

theorem Accounted.congr {arrived : List Arrival} {self next : Ingester S}
    (h : Accounted arrived self) (hstats : next.stats = self.stats)
    (hletters : next.deadLetters = self.deadLetters) (halerts : next.alerts = self.alerts) :
    Accounted arrived next := by
  refine ⟨?_, ?_, hletters.trans h.letters, ?_, ?_, ?_, ?_⟩
  · rw [hstats, h.accepted]
  · rw [hstats, h.duplicates]
  · rw [hstats, hletters, h.deadLettered]
  · rw [halerts, hletters, h.alerts]
  · rw [hstats, halerts, h.byzantine]
  · rw [hstats, hletters, h.outOfOrder]

/-- A call that is no arrival: it may publish, and leaves the books alone. -/
theorem Conserved.quiet [InstrumentSource S] {hist : History} {self next : Ingester S}
    (h : Conserved hist self) (op : Op) (reply : Reply) (harrive : op.isArrival = false)
    {sequencer : Sequencer} (hnext : next = { self with sequencer := sequencer })
    (hmerged : ∀ acc pub, Merged acc pub self.sequencer →
      Merged acc (pub ++ reply.published.map stamped) sequencer) :
    Conserved (hist ++ [(op, reply)]) next := by
  subst hnext
  have hnone : arrivals [(op, reply)] = [] := by
    cases op <;> first | rfl | cases harrive
  refine ⟨?_, ?_⟩
  · rw [arrivals_append, hnone, List.append_nil]
    exact h.accounted.congr rfl rfl rfl
  · rw [arrivals_append, hnone, tape_append, List.map_append]
    refine h.lanes.quiet [] (by simp) rfl (fun acc hm => ?_) fun _ hk => hk
    simpa [tape] using hmerged acc _ hm

theorem Conserved.step [InstrumentSource S] {hist : History} {self : Ingester S}
    (h : Conserved hist self) (op : Op) :
    Conserved (hist ++ [(op, (step self op).1)]) (step self op).2 := by
  cases op with
  | fillCaught recvTs line =>
    have hc := caught_fillCaught self recvTs line
    refine ⟨?_, ?_⟩
    · rw [arrivals_append]
      exact h.accounted.caught hc
    · have hquiet :
          tape [(.fillCaught recvTs line, (Ingester.step self (.fillCaught recvTs line)).1)] = [] :=
        rfl
      rw [arrivals_append, tape_append, hquiet, List.append_nil]
      exact h.lanes.caught hc
  | tick venue nowTs =>
    refine h.quiet _ _ rfl rfl fun acc pub hm => ?_
    simpa [Ingester.step, Reply.published] using hm.tick venue nowTs
  | drainReady =>
    exact h.quiet _ _ rfl rfl fun acc pub hm => (hm.drain true (.inl rfl)).1
  | flush =>
    exact h.quiet _ _ rfl rfl fun acc pub hm => (hm.seal.drain false (.inr rfl)).1

theorem conserved_run [InstrumentSource S] (instruments : S) (ops : List Op) :
    Conserved (trace step (new instruments) ops) (exec step (new instruments) ops) := by
  apply run_invariant step Conserved
  · exact ⟨accounted_new instruments, held_new instruments⟩
  · rintro hist self op h
    exact h.step op

section Fills

variable [InstrumentSource S] {hist : History} {self : Ingester S}

/-- Every accepted arrival has one entry on its lane, in order. -/
theorem laneOn_fills {instruments : S} {arrived : List Arrival}
    (h : ∀ a ∈ arrived, a.outcome = .accepted → (canonicalFill instruments a.line).isSome)
    (v : Venue) :
    (laneOn instruments v arrived).map (fun p => some p.2) =
      (acceptedOn v arrived).map fun a => canonicalFill instruments a.line := by
  induction arrived with
  | nil => rfl
  | cons a arrived ih =>
    have htail := ih fun b hb => h b (List.mem_cons_of_mem a hb)
    rw [laneOn] at htail ⊢
    rw [acceptedOn] at htail ⊢
    by_cases hon : a.outcome = .accepted ∧ attributed a.line = v
    · obtain ⟨fill, hfill⟩ := Option.isSome_iff_exists.mp (h a List.mem_cons_self hon.1)
      have hentry : entryOn instruments v a = some (a.recvTs, fill) := by
        rw [entryOn, if_pos hon, hfill]
        rfl
      rw [List.filterMap_cons_some hentry, List.filter_cons_of_pos (by simpa using hon),
        List.map_cons, List.map_cons, htail, hfill]
    · have hentry : entryOn instruments v a = none := by rw [entryOn, if_neg hon]
      rw [List.filterMap_cons_none hentry, List.filter_cons_of_neg (by simpa using hon), htail]

theorem Conserved.heldOn_eq (h : Conserved hist self) (v : Venue) :
    heldOn v hist self = (laneOn self.instruments v (arrivals hist)).map (·.2) := by
  have hc := congrArg (List.map (·.2)) (h.lanes.merged.conserve v)
  rw [List.map_append] at hc
  rw [heldOn, ← hc, List.filter_map, List.filter_map, List.map_map]
  rfl

theorem Conserved.heldOn_fills (h : Conserved hist self) (v : Venue) :
    (heldOn v hist self).map some =
      (acceptedOn v (arrivals hist)).map fun a => canonicalFill self.instruments a.line := by
  rw [h.heldOn_eq v, List.map_map]
  exact laneOn_fills h.lanes.canonical v

/-- The fills of one venue among those held are those of its lane. -/
theorem Conserved.filter_held (h : Conserved hist self) (v : Venue) :
    (held hist self).filter (·.venue = v) =
      (laneOn self.instruments v (arrivals hist)).map (·.2) := by
  have hbuffer : ∀ w, ((self.sequencer.lanes w).buffer.map (·.2)).filter (·.venue = v) =
      if w = v then (self.sequencer.lanes w).buffer.map (·.2) else [] := by
    intro w
    have hown : ∀ f ∈ (self.sequencer.lanes w).buffer.map (·.2), f.venue = w := by
      intro f hf
      obtain ⟨p, hp, rfl⟩ := List.mem_map.mp hf
      exact h.lanes.merged.ownVenue w p (h.lanes.merged.mem_acc_of_buffer hp)
    split
    · next hw => exact List.filter_eq_self.mpr fun f hf => by simp [hown f hf, hw]
    · next hw => exact List.filter_eq_nil_iff.mpr fun f hf => by simp [hown f hf, hw]
  rw [← h.heldOn_eq v, held, List.filter_append, heldOn]
  congr 1
  cases v <;> simp [Venue.all, hbuffer]

theorem Conserved.held_distinct (h : Conserved hist self) :
    (held hist self).Pairwise fun f g => (f.venue, f.eventId) ≠ (g.venue, g.eventId) := by
  apply pairwise_of_filter (·.venue)
  · rintro f g hne heq
    exact hne (congrArg Prod.fst heq)
  · intro v
    rw [h.filter_held v, List.pairwise_map]
    exact (h.lanes.distinct v).imp fun hne heq => hne (congrArg Prod.snd heq)

end Fills

theorem source_run [InstrumentSource S] (instruments : S) (ops : List Op) :
    (exec step (new instruments) ops).instruments = instruments :=
  (summary_run instruments ops).source

theorem Accounted.byzantine_letters {arrived : List Arrival} {self : Ingester S}
    (h : Accounted arrived self) :
    self.alerts.length = self.deadLetters.countP (·.reason = .byzantine) := by
  rw [h.alerts, List.length_filterMap_eq_countP]
  apply List.countP_congr
  rintro letter -
  by_cases hr : letter.reason = .byzantine <;> simp [alertOf, hr]

/-- Every arrival is in one counter, every failed one in the dead letters; the lanes and the tape
hold the fills of the accepted ones, each once. -/
structure Lossless [InstrumentSource S] (instruments : S) (hist : History)
    (ingester : Ingester S) : Prop where
  counted : hist.countP (·.1.isArrival) = ingester.stats.accepted.toNat +
    ingester.stats.duplicates.toNat + ingester.stats.deadLettered.toNat
  letters : ingester.deadLetters = (arrivals hist).filterMap Arrival.letter
  byzantine : ingester.stats.byzantine.toNat = ingester.alerts.length
  byzantine_letters : ingester.alerts.length =
    ingester.deadLetters.countP (·.reason = .byzantine)
  alerts : ingester.alerts = ingester.deadLetters.filterMap alertOf
  outOfOrder : ingester.stats.outOfOrder.toNat = ingester.deadLetters.countP isOutOfOrder
  fills : ∀ v, (heldOn v hist ingester).map some =
    (acceptedOn v (arrivals hist)).map fun a => canonicalFill instruments a.line
  once : (held hist ingester).Pairwise fun f g => (f.venue, f.eventId) ≠ (g.venue, g.eventId)

theorem Conserved.lossless [InstrumentSource S] {hist : History} {self : Ingester S}
    (h : Conserved hist self) (hanswered : hist.countP (·.1.isArrival) = (arrivals hist).length)
    (hcount : (arrivals hist).length < 2 ^ 64) : Lossless self.instruments hist self := by
  have hsum := length_eq_counts (arrivals hist)
  rw [← h.accounted.letters] at hsum
  have hbyz := h.accounted.byzantine_letters
  have hbyzLe : self.deadLetters.countP (·.reason = .byzantine) ≤ self.deadLetters.length :=
    List.countP_le_length
  have hoooLe : self.deadLetters.countP isOutOfOrder ≤ self.deadLetters.length :=
    List.countP_le_length
  have hword : ∀ n, n ≤ (arrivals hist).length → (UInt64.ofNat n).toNat = n := fun n hn =>
    UInt64.toNat_ofNat_of_lt' (by simp only [UInt64.size]; omega)
  refine ⟨?_, h.accounted.letters, ?_, hbyz, h.accounted.alerts, ?_, h.heldOn_fills,
    h.held_distinct⟩
  · rw [h.accounted.accepted, h.accounted.duplicates, h.accounted.deadLettered,
      hword _ (by omega), hword _ (by omega), hword _ (by omega), hanswered]
    exact hsum
  · rw [h.accounted.byzantine, hword _ (by omega)]
  · rw [h.accounted.outOfOrder, hword _ (by omega)]

/-- No silent loss and exactly-once publication, at every point of every run. -/
theorem no_silent_loss [InstrumentSource S] (instruments : S) (ops : List Op)
    (hcount : ops.countP Op.isArrival < 2 ^ 64) :
    Lossless instruments (trace step (new instruments) ops)
      (exec step (new instruments) ops) := by
  have hlen := length_arrivals (new instruments) ops
  have hcalls : (trace step (new instruments) ops).countP (·.1.isArrival) =
      ops.countP Op.isArrival := by
    have hfst := congrArg (List.countP Op.isArrival) (trace_map_fst step (new instruments) ops)
    rw [List.countP_map] at hfst
    exact hfst
  have hlossless := (conserved_run instruments ops).lossless (hcalls.trans hlen.symm)
    (lt_of_eq_of_lt hlen hcount)
  rw [source_run] at hlossless
  exact hlossless

/-- The perpetual event of the ingester's own unit tests. -/
def hlLine (eventId : String) (seq : UInt64) (qty : String) : RawLine :=
  ⟨.hl, "raw", .ok (.hl ⟨seq, eventId, 1, "account", "BTC-PERP", "buy", "100.0", qty, "0.0"⟩)⟩

def pmLine (eventId : String) (seq : UInt64) : RawLine :=
  ⟨.pm, "raw", .ok (.pm ⟨seq, eventId, 1, "account", "FED-CUT-SEP", "YES", "BUY", 0.5, 1, 0⟩)⟩

def malformedLine (venue : Venue) : RawLine :=
  ⟨venue, "not json", .error "expected ident at line 1 column 2"⟩

/-- Every branch once, with drains in between. -/
theorem no_silent_loss_mixed :
    let ops : List Op := [.fillCaught 1 (hlLine "e" 1 "0.002"),
      .fillCaught 2 (hlLine "e" 1 "0.002"), .tick .pm 3, .drainReady,
      .fillCaught 3 (hlLine "e" 1 "0.004"), .fillCaught 4 (hlLine "off-lot" 2 "0.00001"),
      .fillCaught 4 (hlLine "back" 1 "0.002"), .fillCaught 4 (malformedLine .pm),
      .fillCaught 5 (pmLine "e" 9), .flush]
    let hist := trace step (new Registry.standard) ops
    let s := exec step (new Registry.standard) ops
    (s.stats.accepted = 2 ∧ (tape hist).length = 2 ∧ s.deadLetters.length = 4) ∧
      Lossless Registry.standard hist s :=
  ⟨by decide +kernel, no_silent_loss Registry.standard _ (by decide)⟩

end Bitfrost.Ingester

import Bitfrost.Convert
import Bitfrost.Registry
import Bitfrost.Sequencer

/-!
The ingester (`ingester`): `fillCaught` stamps the venue's lane, canonicalizes
the event, decides its identity against the first copy seen, and pushes what
survives onto the sequencer. Everything else ends in a counter, a dead letter
or an alert.
-/

namespace Bitfrost

open Bitfrost.Lib
open Std (ExtTreeMap LawfulEqCmp)

/-- The first observed copy of an event id; `fill` is `none` for a rejected payload. -/
structure Seen where
  event : RawEvent
  fill : Option Fill

inductive Identity
  | new
  | retransmit
  | conflict
deriving DecidableEq

structure Ingester (S : Type) where
  instruments : S
  sequencer : Sequencer
  seen : ExtTreeMap (Venue × String) Seen venueStringCmp
  maxSeq : ExtTreeMap Venue UInt64 compare
  deadLetters : List DeadLetter
  alerts : List Alert
  stats : IngestStats

namespace Ingester

variable {S : Type} [InstrumentSource S]

def new (instruments : S) : Ingester S :=
  ⟨instruments, Sequencer.new, ∅, ∅, [], [], default⟩

/-- Two valid copies compare as canonical fills, any others as raw payloads. -/
def sameCopy (previous : Seen) (event : RawEvent) (fill : Except RejectReason Fill) : Bool :=
  match previous.fill, fill with
  | some previousFill, .ok fill => previousFill = fill
  | _, _ => previous.event == event

def identityOf (previous : Option Seen) (event : RawEvent) (fill : Except RejectReason Fill) :
    Identity :=
  match previous with
  | none => .new
  | some previous => if sameCopy previous event fill then .retransmit else .conflict

/-- `dead_letter`: count it, keep it with its text, and return the outcome. -/
def deadLetter (self : Ingester S) (venue : Venue) (eventId : String) (reason : DeadLetterReason)
    (text : String) : IngestOutcome × Ingester S :=
  (.deadLettered reason,
    { self with
      stats := { self.stats with deadLettered := self.stats.deadLettered + 1 }
      deadLetters := self.deadLetters ++ [⟨venue, eventId, reason, some text⟩] })

def tick (self : Ingester S) (venue : Venue) (nowTs : UInt64) : Ingester S :=
  { self with sequencer := self.sequencer.tick venue nowTs }

/-- `stats.gaps` after an accepted sequence number; words wrap, as in a release build. -/
def gapsAfter (self : Ingester S) (venue : Venue) (seq : UInt64) : UInt64 :=
  match self.maxSeq[venue]? with
  | some last => self.stats.gaps + (seq - last - 1)
  | none => self.stats.gaps

/-- A new event that canonicalized goes to its lane; the lane may quarantine it. -/
def pushNew (self : Ingester S) (recvTs : UInt64) (event : RawEvent) (fill : Fill)
    (text : String) : IngestOutcome × Ingester S :=
  let venue := event.venue
  let key := (venue, event.eventId)
  match self.sequencer.push venue recvTs fill with
  | (.ok (), sequencer) =>
    (.accepted,
      { self with
        sequencer := sequencer
        maxSeq := self.maxSeq.insert venue fill.seq
        seen := self.seen.insert key ⟨event, some fill⟩
        stats := { self.stats with
          gaps := self.gapsAfter venue fill.seq, accepted := self.stats.accepted + 1 } })
  | (.error error, sequencer) =>
    deadLetter
      { self with
        sequencer := sequencer
        seen := self.seen.insert key ⟨event, some fill⟩
        stats := { self.stats with outOfOrder := self.stats.outOfOrder + 1 } }
      venue event.eventId (.outOfOrder error) text

/-- The ingest task body; `recvTs` is the receive stamp. -/
def fillCaught (self : Ingester S) (recvTs : UInt64) (line : RawLine) :
    IngestOutcome × Ingester S :=
  match line.parsed with
  | .error error =>
    -- A bad arrival still moves its venue's frontier.
    (self.tick line.venue recvTs).deadLetter line.venue "" (.malformed error) line.text
  | .ok event =>
    let venue := event.venue
    let self := self.tick venue recvTs
    let eventId := event.eventId
    let fill := event.canonicalize self.instruments
    let key := (venue, eventId)
    match identityOf self.seen[key]? event fill with
    | .retransmit =>
      (.duplicate,
        { self with stats := { self.stats with duplicates := self.stats.duplicates + 1 } })
    | .conflict =>
      deadLetter
        { self with
          alerts := self.alerts ++ [⟨venue, eventId, .byzantineDuplicate⟩]
          stats := { self.stats with byzantine := self.stats.byzantine + 1 } }
        venue eventId .byzantine line.text
    | .new =>
      match fill with
      | .error reason =>
        deadLetter { self with seen := self.seen.insert key ⟨event, none⟩ } venue eventId
          (.rejected reason) line.text
      | .ok fill => self.pushNew recvTs event fill line.text

def drainReady (self : Ingester S) : List SequencedFill × Ingester S :=
  let (out, sequencer) := self.sequencer.drainReady
  (out, { self with sequencer := sequencer })

def flush (self : Ingester S) : List SequencedFill × Ingester S :=
  let (out, sequencer) := self.sequencer.flush
  (out, { self with sequencer := sequencer })

/-! ## Operations as one machine -/

inductive Op
  | fillCaught (recvTs : UInt64) (line : RawLine)
  | tick (venue : Venue) (nowTs : UInt64)
  | drainReady
  | flush

inductive Reply
  | caught (outcome : IngestOutcome)
  | ticked
  | drained (out : List SequencedFill)

def step (self : Ingester S) : Op → Reply × Ingester S
  | .fillCaught recvTs line =>
    let (outcome, next) := self.fillCaught recvTs line
    (.caught outcome, next)
  | .tick venue nowTs => (.ticked, self.tick venue nowTs)
  | .drainReady =>
    let (out, next) := self.drainReady
    (.drained out, next)
  | .flush =>
    let (out, next) := self.flush
    (.drained out, next)

abbrev History := List (Op × Reply)

def Reply.published : Reply → List SequencedFill
  | .drained out => out
  | _ => []

/-- Everything the drains have returned so far. -/
def tape (hist : History) : List SequencedFill := hist.flatMap (·.2.published)

@[simp] theorem tape_append (hist hist' : History) :
    tape (hist ++ hist') = tape hist ++ tape hist' := by simp [tape]

/-! ## What `fillCaught` does -/

/-- Every way `fillCaught` can end, with the state it leaves. -/
inductive Caught (self : Ingester S) (recvTs : UInt64) (line : RawLine) :
    IngestOutcome × Ingester S → Prop
  | malformed (error : String) (hp : line.parsed = .error error) :
    Caught self recvTs line
      ((self.tick line.venue recvTs).deadLetter line.venue "" (.malformed error) line.text)
  | duplicate (event : RawEvent) (previous : Seen) (hp : line.parsed = .ok event)
    (hseen : self.seen[(event.venue, event.eventId)]? = some previous)
    (hsame : sameCopy previous event (event.canonicalize self.instruments) = true) :
    Caught self recvTs line
      (.duplicate,
        { self.tick event.venue recvTs with
          stats := { self.stats with duplicates := self.stats.duplicates + 1 } })
  | byzantine (event : RawEvent) (previous : Seen) (hp : line.parsed = .ok event)
    (hseen : self.seen[(event.venue, event.eventId)]? = some previous)
    (hdiff : sameCopy previous event (event.canonicalize self.instruments) = false) :
    Caught self recvTs line
      (deadLetter
        { self.tick event.venue recvTs with
          alerts := self.alerts ++ [⟨event.venue, event.eventId, .byzantineDuplicate⟩]
          stats := { self.stats with byzantine := self.stats.byzantine + 1 } }
        event.venue event.eventId .byzantine line.text)
  | rejected (event : RawEvent) (reason : RejectReason) (hp : line.parsed = .ok event)
    (hseen : self.seen[(event.venue, event.eventId)]? = none)
    (hfill : event.canonicalize self.instruments = .error reason) :
    Caught self recvTs line
      (deadLetter
        { self.tick event.venue recvTs with
          seen := self.seen.insert (event.venue, event.eventId) ⟨event, none⟩ }
        event.venue event.eventId (.rejected reason) line.text)
  | accepted (event : RawEvent) (fill : Fill) (hp : line.parsed = .ok event)
    (hseen : self.seen[(event.venue, event.eventId)]? = none)
    (hfill : event.canonicalize self.instruments = .ok fill)
    (hsealed : self.sequencer.sealed = false)
    (hguards : ((self.sequencer.tick event.venue recvTs).lanes event.venue).guards event.venue
      recvTs fill = .ok ()) :
    Caught self recvTs line
      (.accepted,
        { self with
          sequencer := ((self.sequencer.tick event.venue recvTs).push event.venue recvTs fill).2
          maxSeq := self.maxSeq.insert event.venue fill.seq
          seen := self.seen.insert (event.venue, event.eventId) ⟨event, some fill⟩
          stats := { self.stats with
            gaps := self.gapsAfter event.venue fill.seq, accepted := self.stats.accepted + 1 } })
  | outOfOrder (event : RawEvent) (fill : Fill) (error : SequencerError)
    (hp : line.parsed = .ok event)
    (hseen : self.seen[(event.venue, event.eventId)]? = none)
    (hfill : event.canonicalize self.instruments = .ok fill)
    (hpush : (self.sequencer.tick event.venue recvTs).push event.venue recvTs fill =
      (.error error, self.sequencer.tick event.venue recvTs)) :
    Caught self recvTs line
      (deadLetter
        { self.tick event.venue recvTs with
          seen := self.seen.insert (event.venue, event.eventId) ⟨event, some fill⟩
          stats := { self.stats with outOfOrder := self.stats.outOfOrder + 1 } }
        event.venue event.eventId (.outOfOrder error) line.text)

/-- The tick before the decision changes neither what was seen nor the instruments. -/
theorem identityOf_tick (self : Ingester S) (recvTs : UInt64) (event : RawEvent) :
    identityOf (self.tick event.venue recvTs).seen[(event.venue, event.eventId)]? event
        (event.canonicalize (self.tick event.venue recvTs).instruments) =
      identityOf self.seen[(event.venue, event.eventId)]? event
        (event.canonicalize self.instruments) := rfl

theorem caught_fillCaught (self : Ingester S) (recvTs : UInt64) (line : RawLine) :
    Caught self recvTs line (self.fillCaught recvTs line) := by
  unfold fillCaught
  cases hp : line.parsed with
  | error error => exact .malformed error hp
  | ok event =>
    dsimp only
    rw [identityOf_tick]
    cases hseen : self.seen[(event.venue, event.eventId)]? with
    | some previous =>
      cases hsame : sameCopy previous event (event.canonicalize self.instruments) with
      | true =>
        simp only [identityOf, hsame, if_true]
        exact .duplicate event previous hp hseen hsame
      | false =>
        simp only [identityOf, hsame, Bool.false_eq_true, if_false]
        exact .byzantine event previous hp hseen hsame
    | none =>
      show Caught self recvTs line (match event.canonicalize self.instruments with
        | .error reason => _
        | .ok fill => _)
      cases hfill : event.canonicalize self.instruments with
      | error reason => exact .rejected event reason hp hseen hfill
      | ok fill =>
        show Caught self recvTs line (match (self.sequencer.tick event.venue recvTs).push _ _ _ with
          | (.ok (), sequencer) => _
          | (.error error, sequencer) => _)
        rcases Sequencer.push_cases (self.sequencer.tick event.venue recvTs) event.venue recvTs
          fill with ⟨error, hpush⟩ | ⟨hsealed, hguards, hpush⟩
        · rw [hpush]
          exact .outOfOrder event fill error hp hseen hfill hpush
        · have hcaught := Caught.accepted event fill hp hseen hfill hsealed hguards
          rw [hpush] at hcaught ⊢
          exact hcaught

end Ingester

end Bitfrost

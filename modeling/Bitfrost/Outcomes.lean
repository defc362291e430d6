import Bitfrost.Recoding
import Bitfrost.Mirror
import Bitfrost.Pipeline
import Bitfrost.Shards

/-!
Exchanging YES and NO in every binary event of a run. The lines are accepted,
refused and counted as before; the tape carries the complementary fills in the
same places; and the keeper ends with complementary positions on the binaries
and with the same positions on the perpetuals.
-/

namespace Bitfrost

open Bitfrost.Lib

/-! ## The exchange -/

def otherOutcome : String → String
  | "YES" => "NO"
  | "NO" => "YES"
  | other => other

def PmEvent.exchanged (self : PmEvent) : PmEvent :=
  { self with outcome := otherOutcome self.outcome }

def RawEvent.exchanged : RawEvent → RawEvent
  | .hl event => .hl event
  | .pm event => .pm event.exchanged

/-- The payout in ticks of the binary that a symbol stands for. -/
def Registry.fullOf (registry : Registry) (symbol : String) : Ticks :=
  match InstrumentSource.lookup registry .pm symbol with
  | some spec => SInt.wrap (Registry.full spec)
  | none => 0

/-- The complementary fill on a binary; other fills stay. -/
def Fill.exchanged (registry : Registry) (self : Fill) : Fill :=
  match self.venue with
  | .hl => self
  | .pm => self.mirror (registry.fullOf self.symbol)

theorem otherOutcome_cases (outcome : String) :
    (outcome = "YES" ∧ otherOutcome outcome = "NO") ∨
      (outcome = "NO" ∧ otherOutcome outcome = "YES") ∨
      (outcome ≠ "YES" ∧ outcome ≠ "NO" ∧ otherOutcome outcome = outcome) := by
  unfold otherOutcome
  split <;> simp_all

theorem otherOutcome_otherOutcome (outcome : String) :
    otherOutcome (otherOutcome outcome) = outcome := by
  rcases otherOutcome_cases outcome with ⟨rfl, h⟩ | ⟨rfl, h⟩ | ⟨-, -, h⟩
  · rfl
  · rfl
  · rw [h, h]

theorem RawEvent.exchanged_exchanged (event : RawEvent) : event.exchanged.exchanged = event := by
  cases event with
  | hl event => rfl
  | pm event => simp [RawEvent.exchanged, PmEvent.exchanged, otherOutcome_otherOutcome]

theorem PmEvent.beq_eq (a b : PmEvent) :
    (a == b) = (a.sequence == b.sequence && (a.id == b.id && (a.timestampMs == b.timestampMs &&
      (a.user == b.user && (a.market == b.market && (a.outcome == b.outcome &&
        (a.action == b.action && (a.price == b.price && (a.size == b.size &&
          a.feeBps == b.feeBps))))))))) := by
  cases a
  cases b
  rfl

/-- The exchange keeps equal what was equal, prices that compare as floats included. -/
theorem RawEvent.exchanged_beq (a b : RawEvent) : (a.exchanged == b.exchanged) = (a == b) := by
  cases a with
  | hl a => cases b <;> rfl
  | pm a =>
    cases b with
    | hl b => rfl
    | pm b =>
      have houtcome : (otherOutcome a.outcome == otherOutcome b.outcome) =
          (a.outcome == b.outcome) := by
        rw [Bool.eq_iff_iff, beq_iff_eq, beq_iff_eq]
        constructor
        · intro h
          rw [← otherOutcome_otherOutcome a.outcome, h, otherOutcome_otherOutcome]
        · exact congrArg otherOutcome
      show (a.exchanged == b.exchanged) = (a == b)
      rw [PmEvent.beq_eq, PmEvent.beq_eq, PmEvent.exchanged, PmEvent.exchanged, houtcome]

/-! ## Canonical fills -/

section Canonical

variable {registry : Registry}

theorem fullOf_eq (hw : registry.WellFormed) {symbol : String} {spec : InstrumentSpec}
    (hl : InstrumentSource.lookup registry .pm symbol = some spec) {full : I64}
    (hfull : SInt.tryFrom ((1000000 : I128) / spec.tickMicro).toInt = some full) :
    registry.fullOf symbol = full := by
  obtain ⟨-, -, hs⟩ := hw.named hl
  have hvalue : full.toInt = Registry.full spec := by
    rw [SInt.tryFrom_eq_some.mp hfull]
    exact SInt.toInt_div_of_nonneg (by decide) (by decide) hs.tick_pos
  rw [Registry.fullOf, hl]
  show SInt.wrap (Registry.full spec) = full
  rw [← hvalue]
  exact SInt.wrap_toInt full (by decide)

/-- The complement of the complement is the price. -/
theorem sub_sub_price {full price : I64} (hfull : 0 ≤ full.toInt) (hprice : 0 ≤ price.toInt)
    (hle : price ≤ full) : full - (full - price) = price := by
  have hle := SInt.toInt_le.mpr hle
  have htop := full.bounds.2
  have hsub : (full - price).toInt = full.toInt - price.toInt :=
    SInt.toInt_sub_of_mem (by decide) (by norm_num; omega) (by norm_num; omega)
  rw [← SInt.toInt_inj, SInt.toInt_sub_of_mem (by decide) (by norm_num; omega)
    (by norm_num; omega), hsub]
  omega

theorem flip_flip (side : Side) : side.flip.flip = side := by
  cases side <;> rfl

theorem foldOutcome_other (outcome : String) (action : Side) {full rawTicks : I64}
    (hfull : 0 ≤ full.toInt) (hraw : 0 ≤ rawTicks.toInt) (hle : rawTicks ≤ full) :
    foldOutcome (otherOutcome outcome) action full rawTicks =
      (foldOutcome outcome action full rawTicks).map
        fun p => (p.1.flip, full - p.2) := by
  rcases otherOutcome_cases outcome with ⟨rfl, h⟩ | ⟨rfl, h⟩ | ⟨hyes, hno, h⟩
  · rfl
  · rw [h, foldOutcome, foldOutcome]
    simp only [Except.map, flip_flip, sub_sub_price hfull hraw hle]
  · rw [h]
    unfold foldOutcome
    split
    · exact absurd rfl hyes
    · exact absurd rfl hno
    · rfl

theorem pm_canonicalize_exchanged (hw : registry.WellFormed)
    (toTicks : Float → I128 → String → Except RejectReason I64) (event : PmEvent) :
    event.exchanged.canonicalizeWith toTicks registry =
      (event.canonicalizeWith toTicks registry).map (Fill.exchanged registry) := by
  refine map_bind_congr fun spec hspec => map_bind_congr fun action _ => map_bind_congr fun _ _ =>
    map_bind_congr fun _ _ => map_bind_congr fun rawTicks _ => map_bind_congr fun full hfull =>
    map_bind_congr fun _ hwindow => map_bind_congr fun notional _ =>
    map_bind_congr fun scaled _ => ?_
  have hl := PositionKeeper.resolveSpec_eq_ok hspec
  obtain ⟨-, -, hs⟩ := hw.named hl
  have hkind := hw.kind_of_pm hl
  obtain ⟨-, -, -, hpos⟩ := hs.binary hkind
  obtain ⟨hfullv, hlo, hhi⟩ := PositionKeeper.window_eq hs hkind (okOr_eq_ok.mp hfull)
  rw [rejectIf_eq_ok, not_or, not_lt, not_lt, ← SInt.toInt_le, ← SInt.toInt_le, hlo, hhi] at hwindow
  have hfold := foldOutcome_other event.outcome action (by omega : 0 ≤ full.toInt)
    (by omega : 0 ≤ rawTicks.toInt) (by rw [← SInt.toInt_le]; omega)
  show (foldOutcome (otherOutcome event.outcome) action full rawTicks >>= _) = _
  rw [hfold]
  cases foldOutcome event.outcome action full rawTicks with
  | error reason => rfl
  | ok folded =>
    have hpayout : registry.fullOf event.market = full := fullOf_eq hw hl (okOr_eq_ok.mp hfull)
    show Except.ok _ = Except.ok (Fill.mirror (registry.fullOf event.market) _)
    rw [hpayout]
    rfl

theorem canonicalize_exchanged (hw : registry.WellFormed) (event : RawEvent) :
    event.exchanged.canonicalize registry =
      (event.canonicalize registry).map (Fill.exchanged registry) := by
  cases event with
  | pm event =>
    show event.exchanged.canonicalizeWith priceToTicks registry = _
    rw [pm_canonicalize_exchanged hw]
    rfl
  | hl event =>
    show RawEvent.canonicalize (.hl event) registry = _
    cases hfill : RawEvent.canonicalize (.hl event) registry with
    | error reason => rfl
    | ok fill =>
      have hvenue : fill.venue = .hl := (RawEvent.canonicalize_identity hfill).1
      rw [Except.map, Fill.exchanged, hvenue]

/-- The exchange is a change of payloads that the ingester cannot see. -/
theorem recoding_exchanged (hw : registry.WellFormed) :
    Ingester.Recoding registry RawEvent.exchanged (Fill.exchanged registry) where
  venue event := by cases event <;> rfl
  eventId event := by cases event <;> rfl
  seq event := by cases event <;> rfl
  same := RawEvent.exchanged_beq
  canonical := canonicalize_exchanged hw
  fillVenue fill := by
    unfold Fill.exchanged
    split <;> rfl
  fillSeq fill := by
    unfold Fill.exchanged
    split <;> rfl
  injective a b f g hf hg h := by
    -- Twice exchanged is unchanged, on events and so on their fills.
    have hback : ∀ (event : RawEvent) (fill : Fill), event.canonicalize registry = .ok fill →
        (fill.exchanged registry).exchanged registry = fill := by
      intro event fill hfill
      have htwice := canonicalize_exchanged hw event.exchanged
      rw [RawEvent.exchanged_exchanged, canonicalize_exchanged hw, hfill] at htwice
      exact (Except.ok.inj htwice).symm
    rw [← hback a f hf, ← hback b g hg, h]

end Canonical

/-! ## Positions -/

namespace Ingester

variable {registry : Registry}

/-- The fills published in a run. -/
def published (registry : Registry) (ops : List Op) : List Fill :=
  (tape (trace step (new registry) ops)).map (·.fill)

theorem canonical_of_published {ops : List Op} {fill : Fill} (h : fill ∈ published registry ops) :
    Canonical priceToTicks registry fill := by
  have hmem : fill ∈ (tape (Pipeline.ingested registry ops)).map (·.fill) := by
    rw [Pipeline.ingested, tape_concat, List.map_append]
    exact List.mem_append_left _ h
  exact Pipeline.canonical_of_mem_tape hmem

theorem published_exchanged (hw : registry.WellFormed) (onText : String → String) (ops : List Op) :
    published registry (ops.map (Op.recode RawEvent.exchanged onText)) =
      (published registry ops).map (Fill.exchanged registry) := by
  rw [published, ((recoding_exchanged hw).run onText ops).published, published, List.map_map,
    List.map_map]
  rfl

theorem keyOf_exchanged (fill : Fill) :
    PositionKeeper.keyOf (fill.exchanged registry) = PositionKeeper.keyOf fill := by
  unfold Fill.exchanged
  split <;> rfl

theorem filter_exchanged (key : PositionKey) (fills : List Fill) :
    (fills.map (Fill.exchanged registry)).filter (PositionKeeper.keyOf · = key) =
      (fills.filter (PositionKeeper.keyOf · = key)).map (Fill.exchanged registry) := by
  rw [List.filter_map]
  congr 1
  apply List.filter_congr
  intro fill _
  show decide (PositionKeeper.keyOf (fill.exchanged registry) = key) = _
  rw [keyOf_exchanged]

theorem mem_published_on (hw : registry.WellFormed) {ops : List Op} {venue : Venue}
    {symbol account : String} {spec : InstrumentSpec}
    (hl : InstrumentSource.lookup registry venue symbol = some spec) {fill : Fill}
    (hf : fill ∈ (published registry ops).filter
      (PositionKeeper.keyOf · = ⟨account, spec.instrument⟩)) :
    fill.venue = venue ∧ ∃ spec', InstrumentSource.lookup registry fill.venue fill.symbol =
      some spec' ∧ spec'.instrument = spec.instrument := by
  obtain ⟨hmem, hkey⟩ := List.mem_filter.mp hf
  have hinst : fill.instrument = spec.instrument :=
    congrArg PositionKey.instrument (of_decide_eq_true hkey)
  obtain ⟨spec', hl', hv⟩ := PositionKeeper.validated_of_canonical hw (canonical_of_published hmem)
  have hsame : spec'.instrument = spec.instrument :=
    (PositionKeeper.validateFill_proper hv).2.1.symm.trans hinst
  exact ⟨hw.venue_eq hl' hl hsame, spec', hl', hsame⟩

/-- On a binary the exchange is the mirror. -/
theorem exchanged_eq_mirror (hw : registry.WellFormed) {ops : List Op} {symbol account : String}
    {spec : InstrumentSpec} (hl : InstrumentSource.lookup registry .pm symbol = some spec)
    {full : Ticks} (hfull : full.toInt = Registry.full spec) {fill : Fill}
    (hf : fill ∈ (published registry ops).filter
      (PositionKeeper.keyOf · = ⟨account, spec.instrument⟩)) :
    fill.exchanged registry = fill.mirror full := by
  obtain ⟨hvenue, spec', hl', hsame⟩ := mem_published_on hw hl hf
  rw [hvenue] at hl'
  have hpayout : registry.fullOf fill.symbol = full := by
    rw [Registry.fullOf, hl']
    show SInt.wrap (Registry.full spec') = full
    rw [Registry.full, (hw.economics hl' hl hsame).tick, ← Registry.full, ← hfull]
    exact SInt.wrap_toInt full (by decide)
  rw [Fill.exchanged, hvenue]
  exact congrArg fill.mirror hpayout

open PositionKeeper (after journal AllApplied Mirrored)

/-- How a run with YES and NO exchanged ends. -/
structure OutcomesExchanged (registry : Registry) (onText : String → String) (ops ops' : List Op) :
    Prop where
  recoded : Recoded registry RawEvent.exchanged (Fill.exchanged registry) onText ops
  perps : ∀ symbol spec account, InstrumentSource.lookup registry .hl symbol = some spec →
    (after registry (published registry ops')).positions[
        (⟨account, spec.instrument⟩ : PositionKey)]? =
      (after registry (published registry ops)).positions[
        (⟨account, spec.instrument⟩ : PositionKey)]?
  binaries : AllApplied (journal registry (published registry ops)) →
    AllApplied (journal registry (published registry ops')) →
    ∀ symbol spec account (full : Ticks),
      InstrumentSource.lookup registry .pm symbol = some spec →
      full.toInt = Registry.full spec →
      Mirrored full ((after registry (published registry ops)).standing ⟨account, spec.instrument⟩)
        ((after registry (published registry ops')).standing ⟨account, spec.instrument⟩)

/-- Exchanging YES and NO everywhere complements the binary positions and nothing else. -/
theorem outcomes_exchanged {specs : List InstrumentSpec} {registry : Registry}
    (h : Registry.tryFromSpecs specs = .ok registry) (onText : String → String) (ops : List Op) :
    OutcomesExchanged registry onText ops (ops.map (Op.recode RawEvent.exchanged onText)) := by
  have hw := Registry.wellFormed_of_tryFromSpecs h
  have hpublished := published_exchanged hw onText ops
  refine ⟨(recoding_exchanged hw).run onText ops, ?_, ?_⟩
  · intro symbol spec account hl
    refine PositionKeeper.standing_eq_of_filter ?_
    rw [hpublished, filter_exchanged]
    refine (List.map_congr_left fun fill hf => ?_).trans (List.map_id _)
    rw [Fill.exchanged, (mem_published_on hw hl hf).1, id]
  · intro hall hall' symbol spec account full hl hfull
    refine PositionKeeper.mirrored_of_booked hw (hw.named hl).2.2
      ⟨.pm, symbol, spec, hl, rfl, rfl⟩ (hw.kind_of_pm hl) hfull
      (PositionKeeper.booked_after hw _) (PositionKeeper.booked_after hw _) ?_
    have hto : ∀ fills, AllApplied (journal registry fills) →
        PositionKeeper.appliedTo ⟨account, spec.instrument⟩ (journal registry fills) =
          fills.filter (PositionKeeper.keyOf · = ⟨account, spec.instrument⟩) := by
      intro fills hfills
      rw [PositionKeeper.appliedTo, PositionKeeper.applied_of_allApplied hfills, journal,
        trace_map_fst]
    rw [hto _ hall, hto _ hall', hpublished, filter_exchanged]
    exact List.map_congr_left fun fill hf => exchanged_eq_mirror hw hl hfull hf

/-- A contract bought and crossed by two of the other outcome, amid a perpetual, a copy and noise. -/
theorem outcomes_exchanged_mixed :
    let crossing : PmEvent := ⟨2, "q", 1, "account", "FED-CUT-SEP", "NO", "BUY", 0.3, 2, 20⟩
    let ops : List Op := [.fillCaught 1 (pmLine "p" 1), .fillCaught 1 (hlLine "e" 1 "0.002"),
      .fillCaught 2 (pmLine "p" 1), .drainReady, .fillCaught 3 (malformedLine .pm),
      .fillCaught 4 ⟨.pm, "raw", .ok (.pm crossing)⟩, .flush]
    let ops' := ops.map (Op.recode RawEvent.exchanged id)
    let key : PositionKey := ⟨"account", "FED-CUT-SEP"⟩
    OutcomesExchanged Registry.standard id ops ops' ∧
      ((after Registry.standard (published Registry.standard ops)).standing key).netQty =
        SInt.wrap (-1) ∧
      Mirrored 10000 ((after Registry.standard (published Registry.standard ops)).standing key)
        ((after Registry.standard (published Registry.standard ops')).standing key) := by
  intro crossing ops ops' key
  have hexchanged := outcomes_exchanged Registry.tryFromSpecs_standard id ops
  have hfull : (10000 : Ticks).toInt =
      Registry.full ⟨"FED-CUT-SEP", "FED-CUT-SEP", .pm, .binary, 100, 1000000000, 100⟩ := by
    decide
  have hall : AllApplied (journal Registry.standard (published Registry.standard ops)) := by
    decide +kernel
  have hall' : AllApplied (journal Registry.standard (published Registry.standard ops')) := by
    decide +kernel
  exact ⟨hexchanged, by decide +kernel, hexchanged.binaries hall hall' "FED-CUT-SEP"
    ⟨"FED-CUT-SEP", "FED-CUT-SEP", .pm, .binary, 100, 1000000000, 100⟩ "account" 10000 (by decide)
    hfull⟩

end Ingester

end Bitfrost

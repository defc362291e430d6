import Bitfrost.Admission
import Bitfrost.Conservation

/-!
The whole pipeline: arrivals through the ingester, its tape through the
keeper. When no arrival walks back, a venue is answered as if its lines came
alone, so the interleave of the venues reaches neither the outcomes nor the
positions.
-/

namespace Bitfrost.Ingester

open Bitfrost.Lib

/-! ## Feeds -/

/-- An arrival is not stamped before what its venue was stamped with earlier. -/
def Orderly (earlier later : Op) : Prop :=
  match later with
  | .fillCaught recvTs line => ∀ stamp ∈ earlier.stampOn (attributed line), stamp ≤ recvTs
  | _ => True

instance (earlier later : Op) : Decidable (Orderly earlier later) :=
  match later with
  | .fillCaught recvTs line =>
    decidable_of_iff ((earlier.stampOn (attributed line)).all (· ≤ recvTs) = true)
      (by simp [Orderly, Option.all_eq_true])
  | .tick _ _ => .isTrue trivial
  | .drainReady => .isTrue trivial
  | .flush => .isTrue trivial

/-- The calls of a pipeline run before its `flush`. -/
structure Feed (ops : List Op) : Prop where
  unflushed : ops.any Op.isFlush = false
  ordered : ops.Pairwise Orderly

def Op.lineOn (venue : Venue) : Op → Option RawLine
  | .fillCaught _ line => if attributed line = venue then some line else none
  | _ => none

/-- The lines of one venue. -/
def linesOn (venue : Venue) (ops : List Op) : List RawLine := ops.filterMap (Op.lineOn venue)

/-- The lines of one venue with their outcomes. -/
def outcomesOn (venue : Venue) (hist : History) : List (RawLine × IngestOutcome) :=
  ((arrivals hist).filter (attributed ·.line = venue)).map fun a => (a.line, a.outcome)

theorem outcomesOn_append (v : Venue) (hist hist' : History) :
    outcomesOn v (hist ++ hist') = outcomesOn v hist ++ outcomesOn v hist' := by
  simp [outcomesOn]

theorem outcomesOn_arrival (recvTs : UInt64) (line : RawLine) (outcome : IngestOutcome) :
    outcomesOn (attributed line) [(.fillCaught recvTs line, .caught outcome)] =
      [(line, outcome)] := by
  simp [outcomesOn, arrivals, arrivalOf]

/-! ## A venue alone -/

/-- Arrivals with no stamps to speak of. -/
def solo (lines : List RawLine) : List Op := lines.map (Op.fillCaught 0)

theorem linesOn_cons (v : Venue) (op : Op) (past : List Op) :
    linesOn v (op :: past) = (op.lineOn v).toList ++ linesOn v past :=
  filterMap_cons_toList _ op past

theorem stamps_solo {v : Venue} {lines : List RawLine} {stamp : UInt64}
    (h : stamp ∈ stamps v (solo lines)) : stamp = 0 := by
  obtain ⟨op, hop, hstamp⟩ := List.mem_filterMap.mp h
  obtain ⟨line, -, rfl⟩ := List.mem_map.mp hop
  rw [Op.stampOn] at hstamp
  split at hstamp
  · exact (Option.some.inj hstamp).symm
  · cases hstamp

theorem any_isFlush_solo (lines : List RawLine) : (solo lines).any Op.isFlush = false := by
  simp [solo, Op.isFlush]

/-- An event has its line's venue in its key. -/
theorem eventWith_of_lineOn_none {op : Op} {v : Venue} (h : op.lineOn v = none) (id : String) :
    op.eventWith (v, id) = none := by
  cases op with
  | fillCaught recvTs line =>
    cases hp : line.parsed with
    | error error => rw [Op.eventWith, hp]
    | ok event =>
      rw [Op.lineOn, attributed_of_ok hp] at h
      rw [eventWith_of_ok hp, if_neg]
      rintro hkey
      rw [if_pos (congrArg Prod.fst hkey)] at h
      cases h
  | tick lane nowTs => rfl
  | drainReady => rfl
  | flush => rfl

theorem lineOn_cases (v : Venue) (op : Op) :
    op.lineOn v = none ∨ ∃ recvTs line, op = .fillCaught recvTs line ∧ attributed line = v := by
  cases op with
  | fillCaught recvTs line =>
    by_cases hv : attributed line = v
    · exact .inr ⟨recvTs, line, rfl, hv⟩
    · exact .inl (if_neg hv)
  | tick lane nowTs => exact .inl rfl
  | drainReady => exact .inl rfl
  | flush => exact .inl rfl

theorem lineOn_arrival {v : Venue} {recvTs : UInt64} {line : RawLine}
    (hv : attributed line = v) : (Op.fillCaught recvTs line).lineOn v = some line := if_pos hv

theorem firstCopy_solo (v : Venue) (id : String) (past : List Op) :
    firstCopy (v, id) (solo (linesOn v past)) = firstCopy (v, id) past := by
  induction past with
  | nil => rfl
  | cons op past ih =>
    rw [linesOn_cons, firstCopy]
    rcases lineOn_cases v op with hnone | ⟨recvTs, line, rfl, hv⟩
    · rw [hnone, eventWith_of_lineOn_none hnone, Option.or_none]
      exact ih
    · rw [lineOn_arrival hv, ← ih]
      rfl

section Alone

variable {S : Type} [InstrumentSource S] (instruments : S)

/-- Without a seal and without a stamp ahead, an arrival is judged by its venue's lines. -/
theorem judge_solo {past : List Op} {recvTs : UInt64} {line : RawLine}
    (hopen : past.any Op.isFlush = false)
    (hstamps : ∀ stamp ∈ stamps (attributed line) past, stamp ≤ recvTs) (seqs : List UInt64) :
    judge instruments past seqs recvTs line =
      judge instruments (solo (linesOn (attributed line) past)) seqs 0 line := by
  cases hp : line.parsed with
  | error error => rw [judge, judge, hp]
  | ok event =>
    rw [attributed_of_ok hp] at hstamps ⊢
    have hahead : ¬ ∃ stamp ∈ stamps event.venue past, recvTs < stamp := by
      rintro ⟨stamp, hmem, hlt⟩
      exact absurd hlt (hstamps stamp hmem).not_gt
    have hzero : ¬ ∃ stamp ∈ stamps event.venue (solo (linesOn event.venue past)), 0 < stamp := by
      rintro ⟨stamp, hmem, hlt⟩
      exact absurd (stamps_solo hmem) hlt.ne'
    simp only [judge, hp, firstCopy_solo, hopen, any_isFlush_solo, if_neg hahead, if_neg hzero]

/-- The stamps of earlier calls are not ahead of the next arrival's. -/
theorem stamps_le {past : List Op} {recvTs : UInt64} {line : RawLine}
    (h : ∀ earlier ∈ past, Orderly earlier (.fillCaught recvTs line)) :
    ∀ stamp ∈ stamps (attributed line) past, stamp ≤ recvTs := by
  intro stamp hmem
  obtain ⟨earlier, hearlier, hstamp⟩ := List.mem_filterMap.mp hmem
  exact h earlier hearlier stamp hstamp

theorem classify_solo_of_seqs {past : List Op} {recvTs : UInt64} {line : RawLine}
    (hopen : past.any Op.isFlush = false)
    (hord : ∀ earlier ∈ past, Orderly earlier (.fillCaught recvTs line))
    (hseqs : acceptedSeqs instruments (attributed line) (solo (linesOn (attributed line) past)) =
      acceptedSeqs instruments (attributed line) past) :
    classify instruments past recvTs line =
      classify instruments (solo (linesOn (attributed line) past)) 0 line := by
  rw [classify, classify, hseqs]
  exact judge_solo instruments hopen (stamps_le hord) _

theorem acceptedSeqs_of_lineOn_none {op : Op} {v : Venue} (h : op.lineOn v = none)
    (past : List Op) :
    acceptedSeqs instruments v (op :: past) = acceptedSeqs instruments v past := by
  cases op with
  | fillCaught recvTs line =>
    cases hp : line.parsed with
    | error error => exact acceptedSeqs_malformed hp v
    | ok event =>
      rw [acceptedSeqs_arrival hp, if_neg]
      rintro ⟨hv, -⟩
      rw [Op.lineOn, attributed_of_ok hp, if_pos hv] at h
      cases h
  | tick lane nowTs => rfl
  | drainReady => rfl
  | flush => rfl

theorem acceptedSeqs_solo (v : Venue) {past : List Op} (hopen : past.any Op.isFlush = false)
    (hord : past.Pairwise fun later earlier => Orderly earlier later) :
    acceptedSeqs instruments v (solo (linesOn v past)) = acceptedSeqs instruments v past := by
  induction past with
  | nil => rfl
  | cons op past ih =>
    obtain ⟨hop, htail⟩ := List.pairwise_cons.mp hord
    rw [List.any_cons, Bool.or_eq_false_iff] at hopen
    have ih := ih hopen.2 htail
    rw [linesOn_cons]
    rcases lineOn_cases v op with hnone | ⟨recvTs, line, rfl, rfl⟩
    · rw [hnone, acceptedSeqs_of_lineOn_none instruments hnone]
      exact ih
    · have hc := classify_solo_of_seqs instruments hopen.2 hop ih
      rw [lineOn_arrival rfl]
      show acceptedSeqs instruments _ (.fillCaught 0 line :: solo (linesOn _ past)) = _
      cases hp : line.parsed with
      | error error => rw [acceptedSeqs_malformed hp, acceptedSeqs_malformed hp, ih]
      | ok event => rw [acceptedSeqs_arrival hp, acceptedSeqs_arrival hp, ih, hc]

/-- An arrival of a feed is classified by the lines of its venue alone. -/
theorem classify_solo {past : List Op} {recvTs : UInt64} {line : RawLine}
    (hopen : past.any Op.isFlush = false)
    (hord : (Op.fillCaught recvTs line :: past).Pairwise
      fun later earlier => Orderly earlier later) :
    classify instruments past recvTs line =
      classify instruments (solo (linesOn (attributed line) past)) 0 line := by
  obtain ⟨hop, htail⟩ := List.pairwise_cons.mp hord
  exact classify_solo_of_seqs instruments hopen hop (acceptedSeqs_solo instruments _ hopen htail)

/-- The outcomes of lines that come alone, the latest first. -/
def soloOutcomes : List RawLine → List (RawLine × IngestOutcome)
  | [] => []
  | line :: past => (line, classify instruments (solo past) 0 line) :: soloOutcomes past

theorem outcomesOn_other {op : Op} {v : Venue} (h : op.lineOn v = none) (self : Ingester S) :
    outcomesOn v [(op, (step self op).1)] = [] := by
  cases op with
  | fillCaught recvTs line =>
    have hv : attributed line ≠ v := by
      rintro rfl
      rw [lineOn_arrival rfl] at h
      cases h
    simp [outcomesOn, arrivals, arrivalOf, step, hv]
  | tick lane nowTs => rfl
  | drainReady => rfl
  | flush => rfl

/-- In a feed every venue is answered as if its lines came alone. -/
theorem outcomesOn_feed (v : Venue) {ops : List Op} (h : Feed ops) :
    outcomesOn v (trace step (new instruments) ops) =
      (soloOutcomes instruments (linesOn v ops).reverse).reverse := by
  induction ops using List.reverseRecOn with
  | nil => rfl
  | append_singleton ops op ih =>
    have hopen := h.unflushed
    rw [List.any_append, Bool.or_eq_false_iff] at hopen
    have hord : (op :: ops.reverse).Pairwise fun later earlier => Orderly earlier later := by
      rw [← List.reverse_concat, List.pairwise_reverse]
      exact h.ordered
    have hlines : (linesOn v (ops ++ [op])).reverse =
        (op.lineOn v).toList ++ linesOn v ops.reverse := by
      rw [← linesOn_cons, linesOn, linesOn, ← List.filterMap_reverse, List.reverse_append]
      rfl
    have hrev : linesOn v ops.reverse = (linesOn v ops).reverse := List.filterMap_reverse
    have ih := ih ⟨hopen.1, (List.pairwise_append.mp h.ordered).1⟩
    rw [trace_concat, outcomesOn_append, ih, hlines]
    rcases lineOn_cases v op with hnone | ⟨recvTs, line, rfl, rfl⟩
    · rw [outcomesOn_other hnone, hnone, hrev, List.append_nil]
      rfl
    · have hout := ((summary_run instruments ops).caught (caught_fillCaught _ recvTs line)).1
      rw [classify_solo instruments (by rw [List.any_reverse]; exact hopen.1) hord] at hout
      rw [lineOn_arrival rfl]
      show _ = (soloOutcomes instruments (line :: linesOn (attributed line) ops.reverse)).reverse
      rw [soloOutcomes, List.reverse_cons, ← hrev, ← hout]
      exact congrArg _ (outcomesOn_arrival recvTs line _)

end Alone

/-! ## Fills -/

section Fills

variable {S : Type} [InstrumentSource S] {hist : History} {self : Ingester S}

/-- The fills of a venue are determined by its outcomes. -/
theorem Conserved.fills_of_outcomes (h : Conserved hist self) (v : Venue) :
    (heldOn v hist self).map some = ((outcomesOn v hist).filter (·.2 = .accepted)).map
      fun p => canonicalFill self.instruments p.1 := by
  rw [h.heldOn_fills v, acceptedOn, outcomesOn, List.filter_map, List.map_map, List.filter_filter]
  simp [Function.comp_def, Bool.decide_and]

/-- After `flush` the fills of a venue are on the tape. -/
theorem heldOn_flush (v : Venue) (hist : History) (self : Ingester S) :
    heldOn v hist (step self .flush).2 = ((tape hist).map (·.fill)).filter (·.venue = v) := by
  have hempty : ((step self .flush).2.sequencer.lanes v).buffer = [] :=
    Sequencer.flush_empty self.sequencer v
  rw [heldOn, hempty, List.map_nil, List.append_nil]

end Fills

theorem canonical_of_canonicalFill {registry : Registry} {line : RawLine} {fill : Fill}
    (h : canonicalFill registry line = some fill) : Canonical priceToTicks registry fill := by
  cases hp : line.parsed with
  | error error => simp [canonicalFill, hp] at h
  | ok event =>
    have hok := canonicalize_of_canonicalFill hp h
    cases event with
    | hl event => exact .inl ⟨event, hok⟩
    | pm event => exact .inr ⟨event, hok⟩

end Bitfrost.Ingester

namespace Bitfrost

open Bitfrost.Lib
open Std (ExtTreeMap)

namespace PositionKeeper

/-- Canonical instruments are venue-disjoint. -/
theorem venue_of_instrument {registry : Registry} (hw : registry.WellFormed)
    {toTicks : Float → I128 → String → Except RejectReason I64} {f g : Fill}
    (hf : Canonical toTicks registry f) (hg : Canonical toTicks registry g)
    (h : f.instrument = g.instrument) : f.venue = g.venue := by
  obtain ⟨spec, hl, hv⟩ := validated_of_canonical hw hf
  obtain ⟨spec', hl', hv'⟩ := validated_of_canonical hw hg
  have hi := (validateFill_proper hv).2.1
  have hi' := (validateFill_proper hv').2.1
  exact hw.venue_eq hl hl' (hi.symm.trans (h.trans hi'))

/-- The position a fill leaves in its cell, if it is booked. -/
def bookIn (registry : Registry) (fill : Fill) (position : Option Position) : Option Position :=
  (deltaOf registry fill position).toOption.map (·.after)

theorem positions_exec (self : PositionKeeper Registry) (fills : List Fill) :
    (exec apply self fills).positions =
      fills.foldl (cellStep keyOf (bookIn self.instruments)) self.positions := by
  induction fills generalizing self with
  | nil => rfl
  | cons fill fills ih =>
    rw [exec_cons, ih, List.foldl_cons]
    rcases apply_eq self fill with ⟨delta, hd, heq⟩ | ⟨reason, hd, heq⟩
    · rw [heq, cellStep, bookIn, hd]
      rfl
    · rw [heq, cellStep, bookIn, hd]
      rfl

/-- Sequences of canonical fills that agree on each venue leave the same positions. -/
theorem positions_of_venues {registry : Registry} (hw : registry.WellFormed)
    {toTicks : Float → I128 → String → Except RejectReason I64} {fills fills' : List Fill}
    (hc : ∀ f ∈ fills ++ fills', Canonical toTicks registry f)
    (h : ∀ v, fills.filter (·.venue = v) = fills'.filter (·.venue = v)) :
    (after registry fills).positions = (after registry fills').positions := by
  rw [after, after, positions_exec, positions_exec]
  apply foldl_cellStep_congr
  intro key
  apply filter_eq_of_lane (·.venue) _ h
  intro f hf g hg hkf hkg
  have hfk : keyOf f = key := by simpa using hkf
  have hgk : keyOf g = key := by simpa using hkg
  exact venue_of_instrument hw (hc f hf) (hc g hg)
    (congrArg PositionKey.instrument (hfk.trans hgk.symm))

end PositionKeeper

namespace Pipeline

open Ingester

/-- A feed, ended by `flush`. -/
def ingested (registry : Registry) (ops : List Ingester.Op) : Ingester.History :=
  trace step (new registry) (ops ++ [.flush])

/-- The positions a new keeper ends with on the tape. -/
def positions (registry : Registry) (ops : List Ingester.Op) :
    ExtTreeMap PositionKey Position positionKeyCmp :=
  (PositionKeeper.after registry ((tape (ingested registry ops)).map (·.fill))).positions

theorem outcomesOn_ingested (registry : Registry) (ops : List Ingester.Op) (v : Venue) :
    outcomesOn v (ingested registry ops) = outcomesOn v (trace step (new registry) ops) := by
  rw [ingested, trace_concat, outcomesOn_append]
  exact List.append_nil _

/-- The fills of a venue on the tape are the canonical fills of its accepted lines. -/
theorem tape_fills (registry : Registry) (ops : List Ingester.Op) (v : Venue) :
    (((tape (ingested registry ops)).map (·.fill)).filter (·.venue = v)).map some =
      ((outcomesOn v (ingested registry ops)).filter (·.2 = .accepted)).map
        fun p => canonicalFill registry p.1 := by
  have h := conserved_run registry (ops ++ [.flush])
  have hfills := h.fills_of_outcomes v
  rw [source_run, exec_concat, heldOn_flush] at hfills
  exact hfills

theorem canonical_of_mem_tape {registry : Registry} {ops : List Ingester.Op} {fill : Fill}
    (h : fill ∈ (tape (ingested registry ops)).map (·.fill)) :
    Canonical priceToTicks registry fill := by
  have hmem : some fill ∈ (((tape (ingested registry ops)).map (·.fill)).filter
      (·.venue = fill.venue)).map some :=
    List.mem_map_of_mem (List.mem_filter.mpr ⟨h, by simp⟩)
  rw [tape_fills] at hmem
  obtain ⟨p, -, hp⟩ := List.mem_map.mp hmem
  exact canonical_of_canonicalFill hp

/-- Outcomes and final positions do not depend on the cross-venue interleave. -/
theorem interleave_independent {specs : List InstrumentSpec} {registry : Registry}
    (h : Registry.tryFromSpecs specs = .ok registry) {ops ops' : List Ingester.Op}
    (hfeed : Feed ops) (hfeed' : Feed ops') (hlines : ∀ v, linesOn v ops = linesOn v ops') :
    (∀ v, outcomesOn v (ingested registry ops) = outcomesOn v (ingested registry ops')) ∧
      positions registry ops = positions registry ops' := by
  have hout : ∀ v,
      outcomesOn v (ingested registry ops) = outcomesOn v (ingested registry ops') := by
    intro v
    rw [outcomesOn_ingested, outcomesOn_ingested, outcomesOn_feed _ v hfeed,
      outcomesOn_feed _ v hfeed', hlines v]
  have hcanonical : ∀ f ∈ (tape (ingested registry ops)).map (·.fill) ++
      (tape (ingested registry ops')).map (·.fill), Canonical priceToTicks registry f := by
    intro f hf
    rcases List.mem_append.mp hf with hf | hf
    · exact canonical_of_mem_tape hf
    · exact canonical_of_mem_tape hf
  refine ⟨hout, PositionKeeper.positions_of_venues (Registry.wellFormed_of_tryFromSpecs h)
    hcanonical fun v => ?_⟩
  apply List.map_injective_iff.mpr (Option.some_injective Fill)
  rw [tape_fills, tape_fills, hout v]

/-- Riffled arrivals with drains and a tick, against the venues one after the other. -/
theorem interleave_independent_riffled :
    let riffled : List Ingester.Op := [.fillCaught 1 (hlLine "e" 1 "0.002"), .tick .pm 2,
      .fillCaught 2 (pmLine "p" 1), .drainReady, .fillCaught 3 (hlLine "e" 1 "0.004"),
      .fillCaught 3 (pmLine "q" 5), .drainReady, .fillCaught 4 (hlLine "f" 3 "0.001")]
    let sequential : List Ingester.Op := [.fillCaught 7 (pmLine "p" 1),
      .fillCaught 7 (pmLine "q" 5), .fillCaught 0 (hlLine "e" 1 "0.002"),
      .fillCaught 9 (hlLine "e" 1 "0.004"), .fillCaught 9 (hlLine "f" 3 "0.001")]
    (∀ v, outcomesOn v (ingested Registry.standard riffled) =
      outcomesOn v (ingested Registry.standard sequential)) ∧
    positions Registry.standard riffled = positions Registry.standard sequential :=
  interleave_independent Registry.tryFromSpecs_standard ⟨rfl, by decide⟩ ⟨rfl, by decide⟩
    (by rintro (_ | _) <;> rfl)

end Pipeline

end Bitfrost

import Bitfrost.Lib.Run
import Bitfrost.Transition

/-!
Runs of the position keeper. After any sequence of fills the position of a
key is the cost-basis book of the fills that were applied to it; the ledger
identity of the books is then the keeper's.
-/

namespace Bitfrost

open Bitfrost.Lib

namespace PositionKeeper

/-- Every fill given to a keeper with the reply of `apply`. -/
abbrev Journal := List (Fill × Except RejectReason PositionDelta)

/-- The keeper after a sequence of fills, rejected ones included. -/
def after (registry : Registry) (fills : List Fill) : PositionKeeper Registry :=
  exec apply (new registry) fills

def journal (registry : Registry) (fills : List Fill) : Journal :=
  trace apply (new registry) fills

/-- The fills that were applied, in order. -/
def applied (journal : Journal) : List Fill :=
  journal.filterMap fun (fill, reply) =>
    match reply with
    | .ok _ => some fill
    | .error _ => none

def appliedTo (key : PositionKey) (journal : Journal) : List Fill :=
  (applied journal).filter (keyOf · = key)

/-- `micro_per_tick_lot` of the fill's instrument. -/
def scaleOf (registry : Registry) (fill : Fill) : ℤ :=
  match InstrumentSource.lookup registry fill.venue fill.symbol with
  | some spec => spec.microPerTickLot.toInt
  | none => 0

/-- `price * qty * micro_per_tick_lot`. -/
def notionalOf (registry : Registry) (fill : Fill) : ℤ :=
  fill.price.toInt * fill.qty.toInt * scaleOf registry fill

def tradeIn (registry : Registry) (fill : Fill) : Trade ℤ := fill.trade (scaleOf registry fill)

/-! ## One fill -/

theorem validateFill_proper {fill : Fill} {spec : InstrumentSpec}
    (h : validateFill fill spec = .ok ()) :
    fill.venue = spec.venue ∧ fill.instrument = spec.instrument ∧ fill.Proper := by
  simp only [validateFill, bind_eq_ok, rejectIf_eq_ok, not_or, not_not, not_le, not_lt] at h
  obtain ⟨-, ⟨hv, -, hi⟩, -, ⟨hp, hq, hfee⟩, -⟩ := h
  exact ⟨hv, hi, hp, hq, hfee⟩

/-- A validated fill is proper, and its spec is one of its instrument's. -/
theorem scales_of_validated {registry : Registry} {fill : Fill} {spec : InstrumentSpec}
    (hl : InstrumentSource.lookup registry fill.venue fill.symbol = some spec)
    (hv : validateFill fill spec = .ok ()) :
    fill.Proper ∧ registry.Scales fill.instrument spec.microPerTickLot.toInt := by
  obtain ⟨-, hi, hf⟩ := validateFill_proper hv
  exact ⟨hf, fill.venue, fill.symbol, spec, hl, hi.symm, rfl⟩

theorem apply_eq (self : PositionKeeper Registry) (fill : Fill) :
    (∃ delta, deltaOf self.instruments fill self.positions[keyOf fill]? = .ok delta ∧
      self.apply fill = (.ok delta,
        { self with positions := self.positions.insert (keyOf fill) delta.after })) ∨
    (∃ reason, deltaOf self.instruments fill self.positions[keyOf fill]? = .error reason ∧
      self.apply fill = (.error reason, self)) := by
  unfold apply
  cases h : deltaOf self.instruments fill self.positions[keyOf fill]? with
  | ok delta => exact .inl ⟨delta, rfl, rfl⟩
  | error reason => exact .inr ⟨reason, rfl, rfl⟩

theorem standing_insert (self : PositionKeeper Registry) (key key' : PositionKey) (p : Position) :
    standing { self with positions := self.positions.insert key p } key' =
      if key' = key then p else self.standing key' := by
  unfold standing position
  rw [getElem?_insert_eq]
  split <;> rfl

/-- A fill that `deltaOf` books is proper, and its delta is that of the cost-basis step. -/
theorem deltaOf_eq_ok {registry : Registry} (hw : registry.WellFormed) {fill : Fill}
    {position : Option Position} {delta : PositionDelta}
    (hb : ∀ scale, registry.Scales fill.instrument scale → (position.getD default).Healthy scale)
    (h : deltaOf registry fill position = .ok delta) :
    fill.Proper ∧ registry.Scales fill.instrument (scaleOf registry fill) ∧
      DeltaOf (scaleOf registry fill) (keyOf fill) (position.getD default) fill delta := by
  simp only [deltaOf, bind_eq_ok, okOr_eq_ok] at h
  obtain ⟨spec, hl, _, hv, ht⟩ := h
  obtain ⟨hf, hscales⟩ := scales_of_validated hl hv
  have hscale : scaleOf registry fill = spec.microPerTickLot.toInt := by rw [scaleOf, hl]
  rw [hscale]
  exact ⟨hf, hscales,
    (transition_exits _ hf (hw.scales_pos hscales) (hb _ hscales)).of_ok ht⟩

/-! ## Whole runs -/

/-- Every position is the book of the fills applied to its key. -/
structure Booked (registry : Registry) (journal : Journal) (keeper : PositionKeeper Registry) :
    Prop where
  source : keeper.instruments = registry
  proper : ∀ fill ∈ applied journal,
    fill.Proper ∧ registry.Scales fill.instrument (scaleOf registry fill)
  book : ∀ key, (keeper.standing key).book =
    Book.run Book.halfEven ((appliedTo key journal).map (tradeIn registry))
  fees : ∀ key, (keeper.standing key).fees.toInt =
    ((appliedTo key journal).map fun fill => fill.fee.toInt).sum
  healthy : ∀ key scale, registry.Scales key.instrument scale →
    (keeper.standing key).Healthy scale
  untouched : ∀ key, keeper.positions[key]? = none ↔ appliedTo key journal = []

section Journal

variable {journal : Journal} {fill : Fill} {key : PositionKey}

theorem applied_concat_ok (delta : PositionDelta) :
    applied (journal ++ [(fill, .ok delta)]) = applied journal ++ [fill] := by
  simp [applied]

theorem applied_concat_error (reason : RejectReason) :
    applied (journal ++ [(fill, .error reason)]) = applied journal := by
  simp [applied]

theorem appliedTo_concat_ok (delta : PositionDelta) :
    appliedTo key (journal ++ [(fill, .ok delta)]) =
      if key = keyOf fill then appliedTo key journal ++ [fill] else appliedTo key journal := by
  rw [appliedTo, applied_concat_ok, List.filter_append]
  by_cases hk : key = keyOf fill
  · simp [appliedTo, hk]
  · simp [appliedTo, hk, Ne.symm hk]

theorem appliedTo_concat_error (reason : RejectReason) :
    appliedTo key (journal ++ [(fill, .error reason)]) = appliedTo key journal := by
  rw [appliedTo, applied_concat_error, appliedTo]

end Journal

theorem booked_apply {registry : Registry} (hw : registry.WellFormed) (journal : Journal)
    (self : PositionKeeper Registry) (fill : Fill) (h : Booked registry journal self) :
    Booked registry (journal ++ [(fill, (self.apply fill).1)]) (self.apply fill).2 := by
  rcases apply_eq self fill with ⟨delta, hd, heq⟩ | ⟨reason, -, heq⟩
  · rw [h.source] at hd
    obtain ⟨hf, hscales, hdelta⟩ := deltaOf_eq_ok hw (h.healthy (keyOf fill)) hd
    rw [heq]
    refine ⟨h.source, ?_, fun key => ?_, fun key => ?_, fun key scale hs => ?_, fun key => ?_⟩
    · rw [applied_concat_ok]
      intro g hg
      rcases List.mem_append.mp hg with hg | hg
      · exact h.proper g hg
      · rw [List.mem_singleton.mp hg]
        exact ⟨hf, hscales⟩
    · rw [standing_insert, appliedTo_concat_ok]
      split
      · next hk =>
        rw [hdelta.book, List.map_append, List.map_singleton, Book.run_concat, hk, ← h.book]
        rfl
      · exact h.book key
    · rw [standing_insert, appliedTo_concat_ok]
      split
      · next hk =>
        rw [hdelta.fees, List.map_append, List.sum_append, hk, ← h.fees]
        simp [standing, position]
      · exact h.fees key
    · rw [standing_insert]
      split
      · next hk =>
        subst hk
        rw [hw.scales_unique hs hscales]
        exact hdelta.healthy
      · exact h.healthy key scale hs
    · rw [getElem?_insert_eq, appliedTo_concat_ok]
      split
      · simp
      · exact h.untouched key
  · rw [heq]
    constructor
    · exact h.source
    · rw [applied_concat_error]
      exact h.proper
    · simp only [appliedTo_concat_error]
      exact h.book
    · simp only [appliedTo_concat_error]
      exact h.fees
    · exact h.healthy
    · simp only [appliedTo_concat_error]
      exact h.untouched

theorem booked_after {registry : Registry} (hw : registry.WellFormed) (fills : List Fill) :
    Booked registry (journal registry fills) (after registry fills) := by
  apply run_invariant apply (Booked registry) _ (booked_apply hw)
  exact ⟨rfl, by simp [applied], fun key => rfl, fun key => rfl,
    fun key scale _ => Position.healthy_default scale,
    fun key => ⟨fun _ => rfl, fun _ => Std.ExtTreeMap.getElem?_empty⟩⟩

section Facts

variable {registry : Registry} {journal : Journal} {keeper : PositionKeeper Registry}
  {key : PositionKey} {scale : ℤ}

theorem Booked.of_mem (h : Booked registry journal keeper) {fill : Fill}
    (hf : fill ∈ appliedTo key journal) :
    fill.Proper ∧ keyOf fill = key ∧ registry.Scales key.instrument (scaleOf registry fill) := by
  obtain ⟨hm, hk⟩ := List.mem_filter.mp hf
  obtain ⟨hp, hs⟩ := h.proper fill hm
  have hkey := of_decide_eq_true hk
  subst hkey
  exact ⟨hp, rfl, hs⟩

theorem Booked.net (h : Booked registry journal keeper) (key : PositionKey) :
    (keeper.standing key).netQty.toInt = netOf Fill.signedQty (appliedTo key journal) := by
  have hnet := congrArg Book.net (h.book key)
  rw [Book.run_net, netOf_map] at hnet
  exact hnet

/-- An open position has a fill behind it. -/
theorem Booked.exists_of_open (h : Booked registry journal keeper)
    (hnet : (keeper.standing key).netQty.toInt ≠ 0) : ∃ fill, fill ∈ appliedTo key journal := by
  rw [h.net key] at hnet
  apply List.exists_mem_of_ne_nil
  rintro hnil
  exact hnet (by rw [hnil, netOf_nil])

theorem Booked.sound (h : Booked registry journal keeper) (key : PositionKey) :
    (keeper.standing key).book.Sound := by
  rw [h.book key]
  exact Book.sound_run _ _

theorem Booked.average_flat (h : Booked registry journal keeper)
    (hnet : (keeper.standing key).netQty.toInt = 0) :
    (keeper.standing key).avgEntryPrice = none := by
  rcases List.eq_nil_or_concat (appliedTo key journal) with hnil | ⟨fs, fill, hfs⟩
  · rw [standing, position, (h.untouched key).mpr hnil]
    rfl
  · have hmem : fill ∈ appliedTo key journal := by simp [hfs]
    obtain ⟨-, -, hs⟩ := h.of_mem hmem
    exact (h.healthy key _ hs).averaged.flat hnet

end Facts

/-- The delta that `apply` returns, on a keeper that ran. -/
theorem Booked.delta_of_apply {registry : Registry} {journal : Journal}
    {keeper : PositionKeeper Registry} (hw : registry.WellFormed)
    (h : Booked registry journal keeper) {fill : Fill} {delta : PositionDelta}
    (happly : (keeper.apply fill).1 = .ok delta) :
    DeltaOf (scaleOf registry fill) (keyOf fill) (keeper.standing (keyOf fill)) fill delta ∧
      (keeper.apply fill).2.standing (keyOf fill) = delta.after := by
  rcases apply_eq keeper fill with ⟨found, hd, heq⟩ | ⟨reason, -, heq⟩
  · rw [heq] at happly ⊢
    cases happly
    rw [h.source] at hd
    exact ⟨(deltaOf_eq_ok hw (h.healthy (keyOf fill)) hd).2.2,
      by rw [standing_insert, if_pos rfl]⟩
  · rw [heq] at happly
    cases happly

/-! ## Runs without a rejection -/

section AllApplied

variable (registry : Registry)

/-- Every fill of the journal was applied. -/
def AllApplied (journal : Journal) : Prop := ∀ entry ∈ journal, entry.2.isOk

instance (journal : Journal) : Decidable (AllApplied journal) :=
  inferInstanceAs (Decidable (∀ entry ∈ journal, entry.2.isOk))

theorem exists_ok {reply : Except RejectReason PositionDelta} (h : reply.isOk) :
    ∃ delta, reply = .ok delta := by
  cases reply with
  | ok delta => exact ⟨delta, rfl⟩
  | error reason => cases h

theorem applied_of_allApplied {journal : Journal} (h : AllApplied journal) :
    applied journal = journal.map Prod.fst := by
  induction journal with
  | nil => rfl
  | cons entry journal ih =>
    obtain ⟨fill, reply⟩ := entry
    obtain ⟨delta, hok⟩ := exists_ok (h _ (List.mem_cons_self ..))
    have hrest := ih fun e he => h e (List.mem_cons_of_mem _ he)
    simp only at hok
    rw [applied, List.filterMap_cons, hok] at *
    exact congrArg (fill :: ·) hrest

variable {registry}

theorem appliedTo_of_allApplied {fills : List Fill} {key : PositionKey}
    (h : AllApplied (journal registry fills)) (hkey : ∀ fill ∈ fills, keyOf fill = key) :
    appliedTo key (journal registry fills) = fills := by
  have hall := applied_of_allApplied h
  rw [journal, trace_map_fst] at hall
  rw [appliedTo, journal, hall, List.filter_eq_self]
  exact fun fill hf => decide_eq_true (hkey fill hf)

theorem AllApplied.of_prefix {fills earlier : List Fill} (h : AllApplied (journal registry fills))
    (hpre : earlier <+: fills) : AllApplied (journal registry earlier) := by
  obtain ⟨rest, rfl⟩ := hpre
  intro entry he
  apply h entry
  rw [journal, trace_append]
  exact List.mem_append_left _ he

theorem AllApplied.apply_ok {earlier : List Fill} {fill : Fill}
    (h : AllApplied (journal registry (earlier ++ [fill]))) :
    ∃ delta, ((after registry earlier).apply fill).1 = .ok delta := by
  rw [journal, trace_concat] at h
  exact exists_ok (h (fill, _) (by simp [after]))

end AllApplied

/-! ## The ledger identity -/

section Identity

variable (registry : Registry)

def onSide (side : Side) (fills : List Fill) : List Fill := fills.filter (·.side = side)

/-- The total of a quantity over the fills of one side. -/
def totalOn (side : Side) (value : Fill → ℤ) (fills : List Fill) : ℤ :=
  ((onSide side fills).map value).sum

/-- The position that a list of applied fills leaves, by totals over the fills alone. -/
structure Accounts (fills : List Fill) (position : Position) : Prop where
  net : position.netQty.toInt =
    totalOn .buy (·.qty.toInt) fills - totalOn .sell (·.qty.toInt) fills
  fees : position.fees.toInt = (fills.map (·.fee.toInt)).sum
  realized : position.realizedPnl.toInt =
    totalOn .sell (notionalOf registry) fills - totalOn .buy (notionalOf registry) fills +
      position.netQty.toInt.sign * position.openCost.toInt
  cost_flat : position.openCost = 0 ↔ position.netQty = 0
  average_flat : position.avgEntryPrice = none ↔ position.netQty = 0
  average : position.netQty ≠ 0 → ∀ fill ∈ fills, ∃ price, position.avgEntryPrice = some price ∧
    IsHalfEven position.openCost.toInt (|position.netQty.toInt| * scaleOf registry fill)
      price.toInt

theorem totalOn_sub (value : Fill → ℤ) (fills : List Fill) :
    totalOn .buy value fills - totalOn .sell value fills =
      (fills.map fun fill => fill.side.sign * value fill).sum := by
  induction fills with
  | nil => rfl
  | cons fill fills ih =>
    rw [List.map_cons, List.sum_cons, ← ih]
    cases hside : fill.side with
    | buy =>
      simp [totalOn, onSide, hside, Side.sign]
      ring
    | sell =>
      simp [totalOn, onSide, hside, Side.sign]
      ring

theorem sum_neg_signed (value : Fill → ℤ) (fills : List Fill) :
    (fills.map fun fill => -(fill.side.sign * value fill)).sum =
      totalOn .sell value fills - totalOn .buy value fills := by
  rw [← neg_sub, totalOn_sub, List.sum_neg, List.map_map]
  rfl

theorem signed_value_eq (fills : List Fill) :
    ((fills.map (tradeIn registry)).map fun t => t.qty * t.unit).sum =
      totalOn .buy (notionalOf registry) fills - totalOn .sell (notionalOf registry) fills := by
  rw [totalOn_sub, List.map_map]
  congr 1
  apply List.map_congr_left
  intro fill _
  simp only [Function.comp_apply, tradeIn, Fill.trade, Fill.signedQty, notionalOf]
  ring

variable {registry}

theorem Booked.accounts {journal : Journal} {keeper : PositionKeeper Registry}
    (hw : registry.WellFormed) (h : Booked registry journal keeper) (key : PositionKey) :
    Accounts registry (appliedTo key journal) (keeper.standing key) := by
  have hledger := Book.run_ledger Book.halfEven ((appliedTo key journal).map (tradeIn registry))
  simp only [Int.cast_id] at hledger
  rw [← h.book key, signed_value_eq] at hledger
  have hopen : (keeper.standing key).netQty.toInt ≠ 0 →
      0 < (keeper.standing key).openCost.toInt ∧
        ∃ price, (keeper.standing key).avgEntryPrice = some price := by
    intro hnet
    obtain ⟨fill, hfill⟩ := h.exists_of_open hnet
    obtain ⟨-, -, hs⟩ := h.of_mem hfill
    obtain ⟨hcost, price, hprice, -⟩ :=
      (h.healthy key _ hs).average_pos (hw.scales_pos hs) hnet
    exact ⟨hcost, price, hprice⟩
  refine ⟨?_, h.fees key, ?_, ⟨fun hcost => ?_, fun hnet => ?_⟩, ⟨fun hnone => ?_, fun hnet => ?_⟩,
    fun hnet fill hfill => ?_⟩
  · rw [totalOn_sub, h.net key]
    rfl
  · simp only [Position.book] at hledger
    rw [hledger]
    ring
  · by_contra hnet
    have hpos := (hopen (mt SInt.toInt_eq_zero.mp hnet)).1
    rw [hcost, SInt.toInt_zero] at hpos
    exact lt_irrefl 0 hpos
  · exact SInt.toInt_eq_zero.mp (h.sound key (SInt.toInt_eq_zero.mpr hnet))
  · by_contra hnet
    obtain ⟨-, price, hprice⟩ := hopen (mt SInt.toInt_eq_zero.mp hnet)
    rw [hnone] at hprice
    cases hprice
  · exact h.average_flat (SInt.toInt_eq_zero.mpr hnet)
  · obtain ⟨-, -, hs⟩ := h.of_mem hfill
    have hn := mt SInt.toInt_eq_zero.mp hnet
    obtain ⟨price, hprice, hval⟩ := (h.healthy key _ hs).averaged.open_ hn
    refine ⟨price, hprice, ?_⟩
    rw [hval]
    exact roundHalfEven_spec _ (mul_pos (abs_pos.mpr hn) (hw.scales_pos hs))

/-- Summing over the positions of some accounts is summing over the fills applied to them. -/
theorem Booked.sum_positions {journal : Journal} {keeper : PositionKeeper Registry}
    (h : Booked registry journal keeper) (accounts : String → Bool) (g : Fill → ℤ) :
    ((keeper.positions.toList.filter fun entry => accounts entry.1.account).map fun entry =>
        ((appliedTo entry.1 journal).map g).sum).sum =
      (((applied journal).filter fun fill => accounts fill.account).map g).sum := by
  have hnodup : ((keeper.positions.toList.filter fun entry =>
      accounts entry.1.account).map Prod.fst).Nodup := by
    have hkeys := Std.ExtTreeMap.distinct_keys_toList (t := keeper.positions)
    refine List.Pairwise.map _ (fun a b hab heq => hab ?_) (hkeys.filter _)
    rw [heq]
    exact Std.ReflCmp.compare_self
  rw [← sum_groups keyOf g hnodup, List.map_map]
  · congr 1
    apply List.map_congr_left
    intro entry hentry
    have hacc := (List.mem_filter.mp hentry).2
    simp only [Function.comp_apply, appliedTo, List.filter_filter]
    congr 2
    apply List.filter_congr
    intro fill _
    by_cases hk : keyOf fill = entry.1
    · have : accounts fill.account = true := by rw [← hacc, ← hk]; rfl
      simp [hk, this]
    · simp [hk]
  · intro fill hfill
    obtain ⟨hmem, hacc⟩ := List.mem_filter.mp hfill
    cases hp : keeper.positions[keyOf fill]? with
    | none =>
      have hnil := (h.untouched (keyOf fill)).mp hp
      have : fill ∈ appliedTo (keyOf fill) journal := List.mem_filter.mpr ⟨hmem, by simp⟩
      rw [hnil] at this
      cases this
    | some p =>
      have hentry := Std.ExtTreeMap.mem_toList_iff_getElem?_eq_some.mpr hp
      exact List.mem_map.mpr ⟨_, List.mem_filter.mpr ⟨hentry, hacc⟩, rfl⟩

/-- The ledger identity of the keeper, for every key after every run; and over any set of flat
accounts whose buys and sells match in value, the realized profit sums to nothing. -/
theorem ledger_identity {specs : List InstrumentSpec}
    (h : Registry.tryFromSpecs specs = .ok registry) (fills : List Fill) :
    (∀ key, Accounts registry (appliedTo key (journal registry fills))
      ((after registry fills).standing key)) ∧
    (∀ accounts : String → Bool,
      let theirs := (applied (journal registry fills)).filter fun fill => accounts fill.account
      let rows :=
        (after registry fills).positions.toList.filter fun entry => accounts entry.1.account
      (∀ entry ∈ rows, entry.2.netQty = 0) →
      totalOn .buy (notionalOf registry) theirs = totalOn .sell (notionalOf registry) theirs →
      (rows.map fun entry => entry.2.realizedPnl.toInt).sum = 0) := by
  have hw := Registry.wellFormed_of_tryFromSpecs h
  have hb := booked_after hw fills
  refine ⟨hb.accounts hw, ?_⟩
  intro accounts theirs rows hflat hmatched
  have hsum := hb.sum_positions accounts fun fill => -(fill.side.sign * notionalOf registry fill)
  have hentry : ∀ entry ∈ rows, entry.2.realizedPnl.toInt =
      ((appliedTo entry.1 (journal registry fills)).map fun fill =>
        -(fill.side.sign * notionalOf registry fill)).sum := by
    intro entry he
    have hp := Std.ExtTreeMap.mem_toList_iff_getElem?_eq_some.mp (List.mem_filter.mp he).1
    have hacc := (hb.accounts hw entry.1).realized
    rw [standing, position, hp] at hacc
    simp only [Option.getD_some, hflat entry he, SInt.toInt_zero, Int.sign_zero, zero_mul] at hacc
    rw [hacc, sum_neg_signed]
    ring
  rw [List.map_congr_left hentry, hsum, sum_neg_signed]
  linarith

/-- A trade of one account in a standard perpetual. -/
def perpFill (account : String) (side : Side) (price : Ticks) (qty : Lots) : Fill :=
  { venue := .hl, eventId := "e", seq := 0, tsMs := 0, account := account
    instrument := "BTC-PERP", symbol := "BTC-PERP", kind := .perp, side := side
    price := price, qty := qty, fee := 7 }

theorem ledger_identity_matched :
    let fills := [perpFill "a" .buy 100 3, perpFill "b" .sell 100 3, perpFill "a" .sell 107 3,
      perpFill "b" .buy 107 3]
    applied (journal Registry.standard fills) = fills ∧
    (∀ key, Accounts Registry.standard (appliedTo key (journal Registry.standard fills))
      ((after Registry.standard fills).standing key)) ∧
    (((after Registry.standard fills).positions.toList.filter fun _ => true).map
      fun entry => entry.2.realizedPnl.toInt).sum = 0 := by
  intro fills
  obtain ⟨hkeys, hsum⟩ := ledger_identity Registry.tryFromSpecs_standard fills
  exact ⟨by decide, hkeys, hsum (fun _ => true) (by decide) (by decide)⟩

end Identity

end PositionKeeper

end Bitfrost

import Bitfrost.Ledger
import Bitfrost.Lib.Replay

/-!
Position deltas as journal entries. A fill that fails changes nothing; one
that is applied changes the position of its key only, as its delta says, and
the quantities of the delta account for the fill. Replaying the deltas of a
run rebuilds the positions.
-/

namespace Bitfrost

open Bitfrost.Lib

namespace PositionKeeper

/-! ## Quantities -/

section Quantities

variable {net qty : ℤ}

theorem closedBy_of_opens (h : Opens net qty) : closedBy net qty = 0 := if_pos h

theorem closedBy_of_opposes (h : Opposes net qty) : closedBy net qty = min |net| |qty| :=
  if_neg h.not_opens

theorem closedBy_mem (net qty : ℤ) :
    0 ≤ closedBy net qty ∧ closedBy net qty ≤ |net| ∧ closedBy net qty ≤ |qty| := by
  rcases opens_or_opposes net qty with ho | hop
  · rw [closedBy_of_opens ho]
    exact ⟨le_rfl, abs_nonneg _, abs_nonneg _⟩
  · rw [closedBy_of_opposes hop]
    exact ⟨le_min (abs_nonneg _) (abs_nonneg _), min_le_left _ _, min_le_right _ _⟩

/-- A trade that is not flat opposes a position exactly when the signs are opposite. -/
theorem opposes_iff (hq : qty ≠ 0) : Opposes net qty ↔ net * qty < 0 := by
  rw [mul_neg_iff, Opposes]
  constructor
  · rintro (⟨hn, h⟩ | ⟨hn, h⟩)
    · exact .inl ⟨hn, lt_of_le_of_ne h hq⟩
    · exact .inr ⟨hn, lt_of_le_of_ne h hq.symm⟩
  · rintro (⟨hn, h⟩ | ⟨hn, h⟩)
    · exact .inl ⟨hn, h.le⟩
    · exact .inr ⟨hn, h.le⟩

theorem closedBy_eq (hq : qty ≠ 0) :
    closedBy net qty = if net * qty < 0 then min |net| |qty| else 0 := by
  rcases opens_or_opposes net qty with ho | hop
  · rw [closedBy_of_opens ho, if_neg (mt (opposes_iff hq).mpr fun hop => hop.not_opens ho)]
  · rw [closedBy_of_opposes hop, if_pos ((opposes_iff hq).mp hop)]

/-- What a trade leaves is what it does not close plus what it opens. -/
theorem abs_add_eq (net qty : ℤ) :
    |net + qty| = |net| - closedBy net qty + (|qty| - closedBy net qty) := by
  rcases opens_or_opposes net qty with ho | hop
  · rw [closedBy_of_opens ho, ho.abs_add]
    ring
  · rw [closedBy_of_opposes hop]
    rcases lt_or_ge |qty| |net| with hlt | hle
    · rw [min_eq_right hlt.le, hop.abs_add_of_lt hlt]
      ring
    · rw [min_eq_left hle, hop.abs_add_of_le hle]
      ring

/-- Only a trade that closes all of a position and more can change its side. -/
theorem closedBy_of_sign_ne (hsign : (net + qty).sign ≠ net.sign) (hopen : net + qty ≠ 0) :
    closedBy net qty = |net| ∧ 0 < |qty| - closedBy net qty := by
  have habs := abs_pos.mpr hopen
  rw [abs_add_eq] at habs
  rcases opens_or_opposes net qty with ho | hop
  · -- A trade that adds keeps the side, unless there was none.
    rcases ho with rfl | hs
    · rw [closedBy_of_opens (.inl rfl), abs_zero] at habs ⊢
      exact ⟨rfl, by omega⟩
    · exact absurd ((Opens.sign_add (.inr hs)).trans hs.symm) hsign
  · have hle : |net| ≤ |qty| := by
      by_contra hlt
      exact hsign (hop.sign_add_of_lt (not_le.mp hlt))
    have hclosed : closedBy net qty = |net| := by
      rw [closedBy_of_opposes hop, min_eq_left hle]
    exact ⟨hclosed, by omega⟩

end Quantities

/-- A trade that closes nothing realizes nothing. -/
theorem realized_of_closedBy_eq_zero {b : Book ℤ} {t : Trade ℤ} (hq : t.qty ≠ 0)
    (h : closedBy b.net t.qty = 0) : (Book.step Book.halfEven b t).realized = b.realized := by
  rcases opens_or_opposes b.net t.qty with ho | hop
  · rw [Book.step_of_opens _ ho]
  · have hpos := lt_min (abs_pos.mpr hop.net_ne_zero) (abs_pos.mpr hq)
    rw [closedBy_of_opposes hop] at h
    exact absurd h hpos.ne'

/-! ## One entry -/

/-- The delta accounts for the fill: what it closed and opened, and where that left the
position of its key. -/
structure Faithful (keeper : PositionKeeper Registry) (fill : Fill) (delta : PositionDelta) :
    Prop where
  key_eq : delta.key = keyOf fill
  before_eq : delta.before = keeper.positions[delta.key]?.getD default
  split : delta.closedQty.toInt + delta.openedQty.toInt = fill.qty.toInt
  closed_nonneg : 0 ≤ delta.closedQty.toInt
  opened_nonneg : 0 ≤ delta.openedQty.toInt
  closed : delta.closedQty.toInt =
    if delta.before.netQty.toInt * fill.signedQty < 0 then
      min |delta.before.netQty.toInt| fill.qty.toInt
    else 0
  size : |delta.after.netQty.toInt| =
    |delta.before.netQty.toInt| - delta.closedQty.toInt + delta.openedQty.toInt
  net : delta.after.netQty.toInt = delta.before.netQty.toInt + fill.side.sign * fill.qty.toInt
  side_kept : delta.after.netQty.toInt ≠ 0 →
    delta.after.netQty.toInt.sign ≠ delta.before.netQty.toInt.sign →
    delta.closedQty.toInt = |delta.before.netQty.toInt| ∧ 0 < delta.openedQty.toInt
  realized : delta.realizedPnlDelta.toInt =
    delta.after.realizedPnl.toInt - delta.before.realizedPnl.toInt
  realized_zero : delta.closedQty.toInt = 0 → delta.realizedPnlDelta.toInt = 0
  fee : delta.feeDelta.toInt = delta.after.fees.toInt - delta.before.fees.toInt

theorem DeltaOf.faithful {scale : ℤ} {keeper : PositionKeeper Registry} {fill : Fill}
    {delta : PositionDelta} (hf : fill.Proper)
    (h : DeltaOf scale (keyOf fill) (keeper.standing (keyOf fill)) fill delta) :
    Faithful keeper fill delta := by
  have habs := hf.abs_signedQty
  have hq : fill.signedQty ≠ 0 := abs_pos.mp (habs ▸ hf.qty_pos)
  have hnet : delta.after.netQty.toInt = delta.before.netQty.toInt + fill.signedQty := by
    rw [h.before_eq]
    exact (congrArg Book.net h.book).trans (Book.step_net ..)
  have hclosed := h.closed
  have hopened := h.opened
  have hrealized := h.realized
  rw [← h.before_eq] at hclosed hopened hrealized
  obtain ⟨hc0, hcn, hcq⟩ := closedBy_mem delta.before.netQty.toInt fill.signedQty
  refine ⟨h.key_eq, ?_, by omega, by omega, by omega, ?_, ?_, hnet, ?_, hrealized, ?_, ?_⟩
  · rw [h.before_eq, h.key_eq]
    rfl
  · rw [hclosed, closedBy_eq hq, habs]
  · rw [hnet, abs_add_eq, hclosed, hopened, habs]
  · intro hopen hsign
    rw [hnet] at hopen hsign
    rw [hclosed, hopened, ← habs]
    exact closedBy_of_sign_ne hsign hopen
  · intro hzero
    rw [h.closed] at hzero
    rw [h.realized, sub_eq_zero]
    exact (congrArg Book.realized h.book).trans
      (realized_of_closedBy_eq_zero (t := fill.trade scale) hq hzero)
  · rw [h.fee, h.fees, h.before_eq]
    ring

/-- `apply` is atomic: a fill that fails changes nothing, and one that is applied changes the
position of its key as its delta says. -/
structure Atomic (keeper : PositionKeeper Registry) (fill : Fill) : Prop where
  failed : ∀ reason, (keeper.apply fill).1 = .error reason → (keeper.apply fill).2 = keeper
  wrote : ∀ delta, (keeper.apply fill).1 = .ok delta →
    (keeper.apply fill).2.instruments = keeper.instruments ∧
      ∀ key, (keeper.apply fill).2.positions[key]? =
        if key = delta.key then some delta.after else keeper.positions[key]?
  faithful : ∀ delta, (keeper.apply fill).1 = .ok delta → Faithful keeper fill delta

theorem Booked.atomic {registry : Registry} {journal : Journal} {keeper : PositionKeeper Registry}
    (hw : registry.WellFormed) (hb : Booked registry journal keeper) (fill : Fill) :
    Atomic keeper fill := by
  rcases apply_eq keeper fill with ⟨delta, hd, heq⟩ | ⟨reason, -, heq⟩
  · rw [hb.source] at hd
    obtain ⟨hf, -, hdelta⟩ := deltaOf_eq_ok hw (hb.healthy (keyOf fill)) hd
    refine ⟨?_, ?_, ?_⟩ <;> rw [heq]
    · intro reason h
      cases h
    · rintro _ ⟨⟩
      refine ⟨rfl, fun key => ?_⟩
      rw [getElem?_insert_eq, hdelta.key_eq]
    · rintro _ ⟨⟩
      exact DeltaOf.faithful hf hdelta
  · refine ⟨?_, ?_, ?_⟩ <;> rw [heq]
    · intro _ _
      rfl
    · rintro _ ⟨⟩
    · rintro _ ⟨⟩

/-! ## The journal -/

/-- The deltas a run emits, in order. -/
def deltas (journal : Journal) : List PositionDelta := emitted Except.toOption journal

/-- The positions that setting every key to the `after` of its deltas builds. -/
def replayed (deltas : List PositionDelta) :
    Std.ExtTreeMap PositionKey Position positionKeyCmp :=
  replay positionKeyCmp PositionDelta.key PositionDelta.after deltas

theorem deltaOf_identity {registry : Registry} {fill : Fill} {position : Option Position}
    {delta : PositionDelta} (h : deltaOf registry fill position = .ok delta) :
    delta.key = keyOf fill ∧ delta.before = position.getD default := by
  simp only [deltaOf, transition, bind_eq_ok] at h
  obtain ⟨_, -, _, -, _, -, _, -, _, -, _, -, _, -, _, -, _, -, hok⟩ := h
  cases hok
  exact ⟨rfl, rfl⟩

theorem apply_keepsJournal : KeepsJournal (apply (S := Registry)) positions Except.toOption
    PositionDelta.key PositionDelta.before PositionDelta.after := by
  refine ⟨?_, ?_, ?_⟩
  · intro keeper fill h
    rcases apply_eq keeper fill with ⟨delta, -, heq⟩ | ⟨reason, -, heq⟩
    · rw [heq] at h
      cases h
    · rw [heq]
  · intro keeper fill delta h
    rcases apply_eq keeper fill with ⟨found, hd, heq⟩ | ⟨reason, -, heq⟩
    · rw [heq] at h
      cases h
      obtain ⟨hkey, hbefore⟩ := deltaOf_identity hd
      rw [hkey, hbefore]
    · rw [heq] at h
      cases h
  · intro keeper fill delta h
    rcases apply_eq keeper fill with ⟨found, hd, heq⟩ | ⟨reason, -, heq⟩
    · rw [heq] at h ⊢
      cases h
      rw [(deltaOf_identity hd).1]
    · rw [heq] at h
      cases h

/-- After every run the next fill is booked atomically and its delta is faithful; and the deltas
of the run, replayed, are the positions. -/
theorem delta_faithful {specs : List InstrumentSpec} {registry : Registry}
    (h : Registry.tryFromSpecs specs = .ok registry) (fills : List Fill) :
    (∀ fill, Atomic (after registry fills) fill) ∧
      replayed (deltas (journal registry fills)) = (after registry fills).positions ∧
      ∀ earlier delta later, deltas (journal registry fills) = earlier ++ delta :: later →
        delta.before = (replayed earlier)[delta.key]?.getD default := by
  have hw := Registry.wellFormed_of_tryFromSpecs h
  have hempty : (new registry).positions = ∅ := rfl
  obtain ⟨hreplay, hchained⟩ := apply_keepsJournal.run hempty fills
  exact ⟨(booked_after hw fills).atomic hw, hreplay, hchained⟩

theorem delta_faithful_crossing :
    let keeper := after Registry.standard [perpFill "a" .buy 100 3, perpFill "b" .sell 0 1]
    let delta : PositionDelta :=
      { key := ⟨"a", "BTC-PERP"⟩, before := ⟨3, some 100, 15000, 0, 7⟩
        after := ⟨SInt.wrap (-2), some 110, 11000, 1500, 14⟩, closedQty := 3, openedQty := 2
        realizedPnlDelta := 1500, feeDelta := 7 }
    (keeper.apply (perpFill "a" .sell 110 5)).1 = .ok delta ∧
      Faithful keeper (perpFill "a" .sell 110 5) delta ∧
      replayed (deltas (journal Registry.standard
        [perpFill "a" .buy 100 3, perpFill "b" .sell 0 1])) = keeper.positions := by
  intro keeper delta
  have hok : (keeper.apply (perpFill "a" .sell 110 5)).1 = .ok delta := by decide
  obtain ⟨hatomic, hreplay, -⟩ := delta_faithful Registry.tryFromSpecs_standard
    [perpFill "a" .buy 100 3, perpFill "b" .sell 0 1]
  exact ⟨hok, (hatomic _).faithful delta hok, hreplay⟩

end PositionKeeper

end Bitfrost

import Bitfrost.Lib.Shards
import Bitfrost.Ledger

/-!
The keeper is one small keeper for each account and instrument. Replies and
positions of a key are those of its own fills, whatever comes in between; so
the order of fills matters within a key only.
-/

namespace Bitfrost.PositionKeeper

open Bitfrost.Lib
open Std (ExtTreeMap)

variable {S : Type} [InstrumentSource S]

/-- `positions().len()`. -/
def len (self : PositionKeeper S) : Nat := self.positions.size

/-- The keys of the fills that were applied. -/
def bookedKeys (hist : List (Fill × Except RejectReason PositionDelta)) : Finset PositionKey :=
  ((hist.filter (·.2.isOk)).map fun entry => keyOf entry.1).toFinset

/-- `apply` works on the cell of its key. -/
theorem sharded_apply : Sharded (apply (S := S)) keyOf
    fun self key => (self.instruments, self.positions[key]?) where
  local_ self self' fill h := by
    obtain ⟨hinstruments, hposition⟩ := Prod.mk.inj h
    unfold apply
    rw [hinstruments, hposition]
    cases deltaOf self'.instruments fill self'.positions[keyOf fill]? with
    | ok delta => simp
    | error reason => simp [hinstruments, hposition]
  frame self fill key h := by
    unfold apply
    cases deltaOf self.instruments fill self.positions[keyOf fill]? with
    | ok delta => simp [getElem?_insert_eq, Ne.symm h]
    | error reason => rfl

theorem standing_eq_of_filter {instruments : S} {fills fills' : List Fill} {key : PositionKey}
    (h : fills.filter (keyOf · = key) = fills'.filter (keyOf · = key)) :
    (exec apply (new instruments) fills).positions[key]? =
      (exec apply (new instruments) fills').positions[key]? :=
  congrArg Prod.snd (sharded_apply.run_congr h).2

/-- A key has a position exactly when a fill of it was applied. -/
theorem booked_run (instruments : S) (fills : List Fill) :
    (∀ key, ((exec apply (new instruments) fills).positions[key]?).isSome ↔
      key ∈ bookedKeys (trace apply (new instruments) fills)) ∧
    (exec apply (new instruments) fills).len =
      (bookedKeys (trace apply (new instruments) fills)).card := by
  apply run_invariant apply fun hist self =>
    (∀ key, (self.positions[key]?).isSome ↔ key ∈ bookedKeys hist) ∧
      self.len = (bookedKeys hist).card
  · exact ⟨fun key => by simp [new, bookedKeys], rfl⟩
  · rintro hist self fill ⟨hkeys, hlen⟩
    unfold apply
    cases deltaOf self.instruments fill self.positions[keyOf fill]? with
    | error reason =>
      have hsame : bookedKeys (hist ++ [(fill, .error reason)]) = bookedKeys hist := by
        simp [bookedKeys, Except.isOk, Except.toBool]
      rw [hsame]
      exact ⟨hkeys, hlen⟩
    | ok delta =>
      have hmore : bookedKeys (hist ++ [(fill, .ok delta)]) =
          insert (keyOf fill) (bookedKeys hist) := by
        ext key
        simp [bookedKeys, Except.isOk, Except.toBool]
      rw [hmore]
      refine ⟨fun key => ?_, ?_⟩
      · rw [getElem?_insert_eq, Finset.mem_insert]
        split
        · next h => simp [h]
        · next h => rw [hkeys key]; simp [h]
      · rw [len, ExtTreeMap.size_insert]
        by_cases hmem : keyOf fill ∈ self.positions
        · have hbooked : keyOf fill ∈ bookedKeys hist :=
            (hkeys _).mp (ExtTreeMap.mem_iff_isSome_getElem?.mp hmem)
          rw [if_pos (ExtTreeMap.mem_iff_contains.mp hmem), Finset.insert_eq_of_mem hbooked]
          exact hlen
        · have hfresh : keyOf fill ∉ bookedKeys hist :=
            fun hbooked => hmem (ExtTreeMap.mem_iff_isSome_getElem?.mpr ((hkeys _).mpr hbooked))
          rw [if_neg (mt ExtTreeMap.mem_iff_contains.mpr hmem), Finset.card_insert_of_notMem hfresh,
            ← hlen]
          rfl

/-! ## Whole runs -/

/-- A keeper answers and stores, key by key, what a keeper for that key alone would. -/
structure KeyedAlone (instruments : S) (fills : List Fill) : Prop where
  answers : ∀ key, (trace apply (new instruments) fills).filter (keyOf ·.1 = key) =
    trace apply (new instruments) (fills.filter (keyOf · = key))
  stored : ∀ key, (exec apply (new instruments) fills).positions[key]? =
    (exec apply (new instruments) (fills.filter (keyOf · = key))).positions[key]?
  booked : ∀ key, ((exec apply (new instruments) fills).positions[key]?).isSome ↔
    key ∈ bookedKeys (trace apply (new instruments) fills)
  counted : (exec apply (new instruments) fills).len =
    (bookedKeys (trace apply (new instruments) fills)).card

/-- Keys do not interact: sequences with the same fills on every key, in whatever order across
keys, are answered the same key by key and leave the same positions. -/
theorem keys_do_not_interact (instruments : S) (fills : List Fill) :
    KeyedAlone instruments fills ∧
    ∀ fills' : List Fill, (∀ key, fills'.filter (keyOf · = key) = fills.filter (keyOf · = key)) →
      (∀ key, (trace apply (new instruments) fills').filter (keyOf ·.1 = key) =
        (trace apply (new instruments) fills).filter (keyOf ·.1 = key)) ∧
      (exec apply (new instruments) fills').positions =
        (exec apply (new instruments) fills).positions := by
  have hrun := fun key => sharded_apply.run key (rfl :
    ((new instruments).instruments, (new instruments).positions[key]?) = _) fills
  obtain ⟨hbooked, hcounted⟩ := booked_run instruments fills
  refine ⟨⟨fun key => (hrun key).1, fun key => congrArg Prod.snd (hrun key).2, hbooked, hcounted⟩,
    fun fills' h => ⟨fun key => (sharded_apply.run_congr (h key)).1, ?_⟩⟩
  apply ExtTreeMap.ext_getElem?
  intro key
  exact standing_eq_of_filter (h key)

theorem keys_do_not_interact_traded :
    let fills := [perpFill "a" .buy 100 3, perpFill "b" .sell 90 2, perpFill "a" .sell 110 5]
    let fills' := [perpFill "b" .sell 90 2, perpFill "a" .buy 100 3, perpFill "a" .sell 110 5]
    (∀ key, (trace apply (new Registry.standard) fills').filter (keyOf ·.1 = key) =
        (trace apply (new Registry.standard) fills).filter (keyOf ·.1 = key)) ∧
      (exec apply (new Registry.standard) fills').positions =
        (exec apply (new Registry.standard) fills).positions := by
  refine (keys_do_not_interact Registry.standard _).2 _ fun key => ?_
  by_cases ha : PositionKey.mk "a" "BTC-PERP" = key
  · subst ha
    decide
  · by_cases hb : PositionKey.mk "b" "BTC-PERP" = key
    · subst hb
      decide
    · simp [keyOf, perpFill, ha, hb]

end Bitfrost.PositionKeeper

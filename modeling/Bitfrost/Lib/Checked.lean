import Bitfrost.Lib.Failing

/-!
Signed integers of a fixed width with checked arithmetic.

An `SInt w` is an integer together with the proof that it fits `w` bits, so a
value out of range cannot be built. Checked operations return `none` exactly
when the mathematical result does not fit; the plain operators wrap.
-/

namespace Bitfrost.Lib

/-- A two's-complement integer of `w` bits. -/
@[ext]
structure SInt (w : Nat) where
  toInt : Int
  lower : -2 ^ (w - 1) ≤ toInt
  upper : toInt < 2 ^ (w - 1)
deriving DecidableEq

namespace SInt

variable {w v : Nat}

theorem toInt_injective : Function.Injective (toInt : SInt w → Int) := fun _ _ => SInt.ext

instance : LinearOrder (SInt w) := LinearOrder.lift' toInt toInt_injective

@[simp] theorem toInt_le {a b : SInt w} : a.toInt ≤ b.toInt ↔ a ≤ b := Iff.rfl
@[simp] theorem toInt_lt {a b : SInt w} : a.toInt < b.toInt ↔ a < b := Iff.rfl
@[simp] theorem toInt_inj {a b : SInt w} : a.toInt = b.toInt ↔ a = b := SInt.ext_iff.symm

theorem toInt_min (a b : SInt w) : (min a b).toInt = min a.toInt b.toInt :=
  Monotone.map_min fun _ _ h => h

theorem bmod_mem (w : Nat) (z : Int) :
    -2 ^ (w - 1) ≤ Int.bmod z (2 ^ w) ∧ Int.bmod z (2 ^ w) < 2 ^ (w - 1) := by
  have hl := Int.le_bmod (x := z) (m := 2 ^ w) (by positivity)
  have hu := Int.bmod_lt (x := z) (m := 2 ^ w) (by positivity)
  generalize Int.bmod z (2 ^ w) = r at hl hu ⊢
  cases w with
  | zero => simp at hl hu ⊢; omega
  | succ w =>
    rw [Nat.add_sub_cancel]
    push_cast [pow_succ] at hl hu
    omega

/-- The value of `w` bits congruent to `z` modulo `2 ^ w`. -/
def wrap (z : Int) : SInt w := ⟨Int.bmod z (2 ^ w), (bmod_mem w z).1, (bmod_mem w z).2⟩

/-- `some` exactly when `z` fits `w` bits: `try_from`, and the end of every checked operation. -/
def tryFrom (z : Int) : Option (SInt w) :=
  if h : -2 ^ (w - 1) ≤ z ∧ z < 2 ^ (w - 1) then some ⟨z, h.1, h.2⟩ else none

theorem tryFrom_eq_some {z : Int} {a : SInt w} : tryFrom z = some a ↔ a.toInt = z := by
  unfold tryFrom
  split
  · simp only [Option.some.injEq, SInt.ext_iff]
    exact eq_comm
  · next h =>
    simp only [reduceCtorEq, false_iff]
    rintro rfl
    exact h ⟨a.lower, a.upper⟩

theorem exists_tryFrom {z : Int} (hl : -2 ^ (w - 1) ≤ z) (hu : z < 2 ^ (w - 1)) :
    ∃ a : SInt w, tryFrom z = some a ∧ a.toInt = z :=
  ⟨⟨z, hl, hu⟩, tryFrom_eq_some.mpr rfl, rfl⟩

theorem wrap_toInt (a : SInt w) (hw : 0 < w) : wrap a.toInt = a := by
  apply SInt.ext
  obtain ⟨w, rfl⟩ : ∃ k, w = k + 1 := ⟨w - 1, by omega⟩
  have hl := a.lower
  have hu := a.upper
  simp only [Nat.add_sub_cancel] at hl hu
  apply Int.bmod_eq_of_le <;> push_cast [pow_succ] <;> omega

/-- A checked operation fails only when its mathematical result does not fit. -/
theorem exits_tryFrom {ε : Type*} {z : Int} {e : ε} {E : ε → Prop}
    (h : ¬ (-2 ^ (w - 1) ≤ z ∧ z < 2 ^ (w - 1)) → E e) :
    Exits (okOr (tryFrom z : Option (SInt w)) e) (fun a => a.toInt = z) E := by
  refine exits_okOr (fun a ha => tryFrom_eq_some.mp ha) fun hnone => h fun hfits => ?_
  rw [tryFrom, dif_pos hfits] at hnone
  cases hnone

/-- Above zero a value that does not fit cannot come back: a step upwards fails with it. -/
theorem tryFrom_bind_of_le {z z' : Int} {f : SInt w → Option (SInt w)} (hz : 0 ≤ z)
    (hle : z ≤ z') (hf : ∀ a : SInt w, a.toInt = z → f a = tryFrom z') :
    (tryFrom z).bind f = tryFrom z' := by
  cases h : (tryFrom z : Option (SInt w)) with
  | some a => exact hf a (tryFrom_eq_some.mp h)
  | none =>
    unfold tryFrom at h ⊢
    have hp : (0 : Int) < 2 ^ (w - 1) := by positivity
    split at h
    · cases h
    · next hout => rw [dif_neg (by omega), Option.bind_none]

def checkedAdd (a b : SInt w) : Option (SInt w) := tryFrom (a.toInt + b.toInt)
def checkedSub (a b : SInt w) : Option (SInt w) := tryFrom (a.toInt - b.toInt)
def checkedMul (a b : SInt w) : Option (SInt w) := tryFrom (a.toInt * b.toInt)
def checkedNeg (a : SInt w) : Option (SInt w) := tryFrom (-a.toInt)
def checkedAbs (a : SInt w) : Option (SInt w) := tryFrom |a.toInt|

def signum (a : SInt w) : Int := a.toInt.sign

instance (n : Nat) : OfNat (SInt w) n := ⟨wrap n⟩
@[simp] theorem toInt_zero : (0 : SInt w).toInt = 0 := Int.zero_bmod

@[simp] theorem toInt_eq_zero {a : SInt w} : a.toInt = 0 ↔ a = 0 := by
  rw [← toInt_inj, toInt_zero]

@[simp] theorem toInt_pos {a : SInt w} : 0 < a.toInt ↔ 0 < a := by rw [← toInt_lt, toInt_zero]

@[simp] theorem toInt_nonneg {a : SInt w} : 0 ≤ a.toInt ↔ 0 ≤ a := by rw [← toInt_le, toInt_zero]

instance : Inhabited (SInt w) := ⟨0⟩
instance : Sub (SInt w) := ⟨fun a b => wrap (a.toInt - b.toInt)⟩
instance : Mul (SInt w) := ⟨fun a b => wrap (a.toInt * b.toInt)⟩
/-- Division truncates toward zero. -/
instance : Div (SInt w) := ⟨fun a b => wrap (a.toInt.tdiv b.toInt)⟩
instance : Mod (SInt w) := ⟨fun a b => wrap (a.toInt.tmod b.toInt)⟩

theorem toInt_wrap_of_mem {z : Int} (hw : 0 < w) (hl : -2 ^ (w - 1) ≤ z) (hu : z < 2 ^ (w - 1)) :
    (wrap z : SInt w).toInt = z := by
  have h := wrap_toInt ⟨z, hl, hu⟩ hw
  exact congrArg toInt h

theorem toInt_sub_of_mem {a b : SInt w} (hw : 0 < w) (hl : -2 ^ (w - 1) ≤ a.toInt - b.toInt)
    (hu : a.toInt - b.toInt < 2 ^ (w - 1)) : (a - b).toInt = a.toInt - b.toInt :=
  toInt_wrap_of_mem hw hl hu

theorem toInt_mul_of_mem {a b : SInt w} (hw : 0 < w) (hl : -2 ^ (w - 1) ≤ a.toInt * b.toInt)
    (hu : a.toInt * b.toInt < 2 ^ (w - 1)) : (a * b).toInt = a.toInt * b.toInt :=
  toInt_wrap_of_mem hw hl hu

/-- Division by a positive number does not wrap. -/
theorem toInt_tdiv_of_pos {a b : SInt w} (hw : 0 < w) (hb : 0 < b.toInt) :
    (a / b).toInt = a.toInt.tdiv b.toInt ∧ (a % b).toInt = a.toInt.tmod b.toInt := by
  have hl := a.lower
  have hu := a.upper
  have hbu := b.upper
  have hp : (0 : Int) < 2 ^ (w - 1) := by positivity
  have hquot := Int.natAbs_tdiv_le_natAbs a.toInt b.toInt
  have hquotient : -2 ^ (w - 1) ≤ a.toInt.tdiv b.toInt ∧ a.toInt.tdiv b.toInt < 2 ^ (w - 1) := by
    rcases le_total 0 a.toInt with ha | ha
    · have := Int.tdiv_nonneg ha hb.le
      omega
    · have := Int.tdiv_nonneg (Int.neg_nonneg.mpr ha) hb.le
      rw [Int.neg_tdiv] at this
      omega
  have hlow := Int.lt_tmod_of_pos a.toInt hb
  have hhigh := Int.tmod_lt_of_pos a.toInt hb
  exact ⟨toInt_wrap_of_mem hw hquotient.1 hquotient.2,
    toInt_wrap_of_mem hw (by omega) (by omega)⟩

theorem toInt_div_of_nonneg {a b : SInt w} (hw : 0 < w) (ha : 0 ≤ a.toInt) (hb : 0 < b.toInt) :
    (a / b).toInt = a.toInt / b.toInt := by
  have hq : a.toInt.tdiv b.toInt = a.toInt / b.toInt := Int.tdiv_eq_ediv_of_nonneg ha
  have h0 : 0 ≤ a.toInt / b.toInt := Int.ediv_nonneg ha hb.le
  have hle : a.toInt / b.toInt ≤ a.toInt := Int.ediv_le_self _ ha
  have hp : (0 : Int) < 2 ^ (w - 1) := by positivity
  have hu := a.upper
  show (wrap _ : SInt w).toInt = _
  rw [hq]
  exact toInt_wrap_of_mem hw (by omega) (by omega)

theorem toInt_mod_of_nonneg {a b : SInt w} (hw : 0 < w) (ha : 0 ≤ a.toInt) (hb : 0 < b.toInt) :
    (a % b).toInt = a.toInt % b.toInt := by
  have hq : a.toInt.tmod b.toInt = a.toInt % b.toInt := Int.tmod_eq_emod_of_nonneg ha
  have h0 : 0 ≤ a.toInt % b.toInt := Int.emod_nonneg _ hb.ne'
  have hlt : a.toInt % b.toInt < b.toInt := Int.emod_lt_of_pos _ hb
  have hp : (0 : Int) < 2 ^ (w - 1) := by positivity
  have hu := b.upper
  show (wrap _ : SInt w).toInt = _
  rw [hq]
  exact toInt_wrap_of_mem hw (by omega) (by omega)

end SInt

abbrev I64 := SInt 64
abbrev I128 := SInt 128

/-- `x as i128`. -/
def I64.toI128 (x : I64) : I128 :=
  ⟨x.toInt, by have := x.lower; simp at this ⊢; omega, by have := x.upper; simp at this ⊢; omega⟩

@[simp] theorem I64.toInt_toI128 (x : I64) : x.toI128.toInt = x.toInt := rfl

theorem I64.bounds (x : I64) : -2 ^ 63 ≤ x.toInt ∧ x.toInt < 2 ^ 63 := ⟨x.lower, x.upper⟩
theorem I128.bounds (x : I128) : -2 ^ 127 ≤ x.toInt ∧ x.toInt < 2 ^ 127 := ⟨x.lower, x.upper⟩

theorem exits_i64 {ε : Type*} {z : Int} {e : ε} {E : ε → Prop}
    (h : z < -2 ^ 63 ∨ 2 ^ 63 ≤ z → E e) :
    Exits (okOr (SInt.tryFrom z : Option I64) e) (fun a => a.toInt = z) E :=
  SInt.exits_tryFrom fun hz => h (by norm_num at hz ⊢; omega)

theorem exits_i128 {ε : Type*} {z : Int} {e : ε} {E : ε → Prop}
    (h : z < -2 ^ 127 ∨ 2 ^ 127 ≤ z → E e) :
    Exits (okOr (SInt.tryFrom z : Option I128) e) (fun a => a.toInt = z) E :=
  SInt.exits_tryFrom fun hz => h (by norm_num at hz ⊢; omega)

/-! ## Unsigned 64-bit words -/

/-- The order on machine words is that of their values. -/
instance instLinearOrderWord : LinearOrder UInt64 where
  le_refl := UInt64.le_refl
  le_trans _ _ _ := UInt64.le_trans
  le_antisymm _ _ := UInt64.le_antisymm
  le_total := UInt64.le_total
  lt_iff_le_not_ge a b := by grind
  toDecidableLE := inferInstance
  toDecidableEq := inferInstance
  toDecidableLT := inferInstance
  min_def _ _ := rfl
  max_def _ _ := rfl
  compare_eq_compareOfLessAndEq _ _ := rfl

end Bitfrost.Lib

import Mathlib

/-!
Decimal texts and the rational numbers they denote: an optional minus, ASCII
digits, at most one point, at least one digit. The main fact is how a text
scales by a power of ten: the digits the scale keeps, padded when they are
too few, and a fraction below one that is zero exactly when the digits it
drops are.
-/

namespace Bitfrost.Lib

def digitValue (c : Char) : Nat := c.toNat - '0'.toNat

/-- The number a list of digits denotes, the most significant first. -/
def numeral (digits : List Char) : Nat := Nat.ofDigits 10 (digits.reverse.map digitValue)

theorem isDigit_iff {c : Char} : c.isDigit = true ↔ 48 ≤ c.toNat ∧ c.toNat ≤ 57 := by
  simp only [Char.isDigit, ge_iff_le, Bool.and_eq_true, decide_eq_true_eq, UInt32.le_iff_toNat_le]
  rfl

theorem digitValue_lt {c : Char} (h : c.isDigit = true) : digitValue c < 10 := by
  have hc := isDigit_iff.mp h
  show c.toNat - 48 < 10
  omega

theorem digitValue_eq_zero {c : Char} (h : c.isDigit = true) : digitValue c = 0 ↔ c = '0' := by
  have hc := isDigit_iff.mp h
  constructor
  · intro hz
    have hz' : c.toNat - 48 = 0 := hz
    exact Char.toNat_inj.mp (show c.toNat = 48 by omega)
  · rintro rfl
    rfl

@[simp] theorem numeral_nil : numeral [] = 0 := rfl

theorem numeral_append (ds ds' : List Char) :
    numeral (ds ++ ds') = numeral ds * 10 ^ ds'.length + numeral ds' := by
  rw [numeral, List.reverse_append, List.map_append, Nat.ofDigits_append, List.length_map,
    List.length_reverse, numeral, numeral]
  ring

theorem numeral_cons (c : Char) (ds : List Char) :
    numeral (c :: ds) = digitValue c * 10 ^ ds.length + numeral ds := by
  have h := numeral_append [c] ds
  rwa [show numeral [c] = digitValue c by simp [numeral]] at h

theorem numeral_lt {ds : List Char} (h : ∀ c ∈ ds, c.isDigit = true) :
    numeral ds < 10 ^ ds.length := by
  have hlt := Nat.ofDigits_lt_base_pow_length (b := 10) (l := ds.reverse.map digitValue)
    (by decide) (by
      intro n hn
      obtain ⟨c, hc, rfl⟩ := List.mem_map.mp hn
      exact digitValue_lt (h c (List.mem_reverse.mp hc)))
  simpa [numeral] using hlt

theorem numeral_eq_zero {ds : List Char} (h : ∀ c ∈ ds, c.isDigit = true) :
    numeral ds = 0 ↔ ∀ c ∈ ds, c = '0' := by
  induction ds with
  | nil => simp
  | cons c ds ih =>
    have hc := digitValue_eq_zero (h c List.mem_cons_self)
    have hds := ih fun c hc => h c (List.mem_cons_of_mem _ hc)
    rw [numeral_cons, Nat.add_eq_zero_iff, Nat.mul_eq_zero, hds, hc]
    simp

/-- A decimal number as it is written. -/
structure Decimal where
  negative : Bool
  whole : List Char
  frac : List Char
  whole_digits : ∀ c ∈ whole, c.isDigit = true
  frac_digits : ∀ c ∈ frac, c.isDigit = true
  nonempty : whole ++ frac ≠ []

namespace Decimal

def sign (x : Decimal) : List Char := if x.negative then ['-'] else []

/-- The text spells the number: the point may be left out when no digit follows it. -/
def Spells (x : Decimal) (text : List Char) : Prop :=
  text = x.sign ++ x.whole ∧ x.frac = [] ∨ text = x.sign ++ (x.whole ++ '.' :: x.frac)

def magnitude (x : Decimal) : ℚ := numeral x.whole + numeral x.frac / 10 ^ x.frac.length

/-- The rational number the text denotes. -/
def value (x : Decimal) : ℚ := if x.negative then -x.magnitude else x.magnitude

/-- The whole part of the magnitude times `10 ^ scale`, from the digits the scale keeps. -/
def kept (x : Decimal) (scale : Nat) : Nat :=
  numeral (x.whole ++ x.frac.take scale) * 10 ^ (scale - x.frac.length)

/-- Scaling by a power of ten: what is kept, and a fraction of the dropped digits. -/
theorem magnitude_mul_pow (x : Decimal) (scale : Nat) :
    x.magnitude * 10 ^ scale =
      x.kept scale + numeral (x.frac.drop scale) / 10 ^ (x.frac.drop scale).length := by
  rcases le_total x.frac.length scale with hle | hle
  · -- Every digit is kept, and the number is padded.
    obtain ⟨pad, rfl⟩ := Nat.exists_eq_add_of_le hle
    rw [kept, List.take_of_length_le hle, List.drop_eq_nil_of_le hle, numeral_append,
      Nat.add_sub_cancel_left, magnitude, numeral_nil]
    push_cast
    field_simp
    ring
  · -- The number is cut after `scale` digits.
    have hfrac : numeral x.frac = numeral (x.frac.take scale) *
        10 ^ (x.frac.drop scale).length + numeral (x.frac.drop scale) := by
      rw [← numeral_append, List.take_append_drop]
    have hlen : x.frac.length = scale + (x.frac.drop scale).length := by
      rw [List.length_drop]
      omega
    rw [kept, numeral_append, List.length_take_of_le hle, Nat.sub_eq_zero_of_le hle, magnitude,
      hfrac, hlen]
    push_cast
    field_simp
    ring

/-- A scaled magnitude is whole exactly when the digits it drops are zeros. -/
theorem magnitude_mul_pow_eq_iff (x : Decimal) (scale : Nat) (n : ℤ) :
    x.magnitude * 10 ^ scale = n ↔
      (∀ c ∈ x.frac.drop scale, c = '0') ∧ (x.kept scale : ℤ) = n := by
  have hdigits : ∀ c ∈ x.frac.drop scale, c.isDigit = true := fun c hc =>
    x.frac_digits c (List.mem_of_mem_drop hc)
  have hlt : (numeral (x.frac.drop scale) : ℚ) < 10 ^ (x.frac.drop scale).length := by
    exact_mod_cast numeral_lt hdigits
  have hpos : (0 : ℚ) < 10 ^ (x.frac.drop scale).length := by positivity
  rw [x.magnitude_mul_pow, ← numeral_eq_zero hdigits]
  constructor
  · intro h
    have hnonneg : (0 : ℚ) ≤ numeral (x.frac.drop scale) / 10 ^ (x.frac.drop scale).length := by
      positivity
    have hone : (numeral (x.frac.drop scale) / 10 ^ (x.frac.drop scale).length : ℚ) < 1 :=
      (div_lt_one hpos).mpr hlt
    have hge : (x.kept scale : ℤ) ≤ n := by
      have hq : ((x.kept scale : ℤ) : ℚ) ≤ n := by
        push_cast
        linarith
      exact_mod_cast hq
    have hle : n < (x.kept scale : ℤ) + 1 := by
      have hq : (n : ℚ) < ((x.kept scale : ℤ) + 1 : ℤ) := by
        push_cast
        linarith
      exact_mod_cast hq
    have hn : (x.kept scale : ℤ) = n := by omega
    refine ⟨?_, hn⟩
    have hzero : (numeral (x.frac.drop scale) / 10 ^ (x.frac.drop scale).length : ℚ) = 0 := by
      rw [← hn] at h
      push_cast at h
      linarith
    exact_mod_cast (div_eq_zero_iff.mp hzero).resolve_right hpos.ne'
  · rintro ⟨hzero, rfl⟩
    rw [hzero]
    push_cast
    ring

end Decimal

end Bitfrost.Lib

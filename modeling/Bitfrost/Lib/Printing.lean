import Bitfrost.Lib.Decimal

/-!
Printed integers, plain and padded with zeros: their digits, the numbers these
digits denote, and the length of a number that fits its field.
-/

namespace Bitfrost.Lib

/-- `{n:0width$}`: the sign, zeros up to the width, then the digits. -/
def padded (width : Nat) (n : ℤ) : String :=
  let sign := if n < 0 then "-" else ""
  let digits := n.natAbs.repr
  sign ++ String.ofList (List.replicate (width - (sign.length + digits.length)) '0') ++ digits

/-! ## Digits -/

/-- The digits of `n`, with leading zeros up to `width`. -/
def digitsTo (width n : Nat) : List Char :=
  List.replicate (width - (Nat.toDigits 10 n).length) '0' ++ Nat.toDigits 10 n

theorem toList_padded_nat (width n : Nat) : (padded width n).toList = digitsTo width n := by
  have hsign : ¬ (n : ℤ) < 0 := (Int.natCast_nonneg n).not_gt
  simp [padded, digitsTo, hsign, ← String.length_toList]

/-- The sign takes a place of the field. -/
theorem toList_padded_neg (width : Nat) {n : ℤ} (h : n < 0) :
    (padded width n).toList = '-' :: digitsTo (width - 1) n.natAbs := by
  have hpad : width - (1 + (Nat.toDigits 10 n.natAbs).length) =
      width - 1 - (Nat.toDigits 10 n.natAbs).length := by omega
  simp [padded, digitsTo, h, ← String.length_toList, hpad]

theorem mem_padded {width : Nat} {n : ℤ} {c : Char} (h : c ∈ (padded width n).toList) :
    c = '-' ∨ c.isDigit = true := by
  simp only [padded, String.toList_append, List.mem_append, String.toList_ofList,
    Nat.toList_repr] at h
  rcases h with (hsign | hzero) | hdigit
  · split at hsign
    · exact .inl (List.mem_singleton.mp hsign)
    · cases hsign
  · rw [List.eq_of_mem_replicate hzero]
    exact .inr rfl
  · exact .inr (Nat.isDigit_of_mem_toDigits (by decide) (by decide) hdigit)

theorem toList_toString (n : ℤ) :
    (toString n).toList = (if n < 0 then ['-'] else []) ++ Nat.toDigits 10 n.natAbs := by
  rw [Int.toString_eq_repr, Int.repr_eq_if]
  by_cases h : 0 ≤ n
  · rw [if_pos h, if_neg h.not_gt, Nat.toList_repr, List.nil_append]
    congr 1
    omega
  · rw [if_neg h, if_pos (not_le.mp h), String.toList_append, Nat.toList_repr]
    have habs : (-n).toNat = n.natAbs := by omega
    rw [habs]
    rfl

theorem isDigit_of_mem_digitsTo {width n : Nat} {c : Char} (h : c ∈ digitsTo width n) :
    c.isDigit = true := by
  rcases List.mem_append.mp h with hzero | hdigit
  · rw [List.eq_of_mem_replicate hzero]
    rfl
  · exact Nat.isDigit_of_mem_toDigits (by decide) (by decide) hdigit

theorem digitsTo_zero (n : Nat) : digitsTo 0 n = Nat.toDigits 10 n := by
  rw [digitsTo, Nat.zero_sub]
  rfl

/-! ## Values -/

theorem numeral_eq_ofDigitChars (ds : List Char) : numeral ds = Nat.ofDigitChars 10 ds 0 := by
  induction ds with
  | nil => rfl
  | cons c ds ih =>
    have hinit := @Nat.ofDigitChars_eq_ofDigitChars_zero ds (digitValue c)
    rw [numeral_cons, ih, Nat.ofDigitChars_cons, mul_zero, zero_add, mul_comm]
    exact hinit.symm

/-- Leading zeros do not count. -/
theorem numeral_digitsTo (width n : Nat) : numeral (digitsTo width n) = n := by
  rw [numeral_eq_ofDigitChars, digitsTo, Nat.ofDigitChars_append, Nat.ofDigitChars_replicate_zero,
    mul_zero, Nat.ofDigitChars_ten_toDigits]

theorem length_digitsTo {width n : Nat} (hw : 0 < width) (hn : n < 10 ^ width) :
    (digitsTo width n).length = width := by
  have hlen := (Nat.length_toDigits_le_iff (by decide) hw).mpr hn
  rw [digitsTo, List.length_append, List.length_replicate]
  omega

theorem digitsTo_ne_nil (width n : Nat) : digitsTo width n ≠ [] := by
  intro h
  exact Nat.toDigits_ne_nil (List.append_eq_nil_iff.mp h).2

/-- Distinct integers print distinct texts, whatever the width. -/
theorem padded_injective (width : Nat) : Function.Injective (padded width) := by
  have hsign : ∀ {m n : ℤ}, padded width m = padded width n → m < 0 → n < 0 := by
    intro m n h hm
    by_contra hn
    lift n to ℕ using not_lt.mp hn
    have hminus : '-' ∈ (padded width m).toList := by
      rw [toList_padded_neg width hm]
      exact List.mem_cons_self
    rw [h, toList_padded_nat] at hminus
    exact absurd (isDigit_of_mem_digitsTo hminus) (by decide)
  intro m n h
  have hiff : m < 0 ↔ n < 0 := ⟨hsign h, hsign h.symm⟩
  -- With one sign the digits are those of the absolute values.
  have hvalue : ∀ k : ℤ, numeral ((padded width k).toList.drop (if k < 0 then 1 else 0)) =
      k.natAbs := by
    intro k
    have hzeros := fun pad : Nat => @Nat.ofDigitChars_append 10 (List.replicate pad '0')
      (Nat.toDigits 10 k.natAbs) 0
    simp only [Nat.ofDigitChars_replicate_zero, mul_zero, Nat.ofDigitChars_ten_toDigits] at hzeros
    by_cases hk : k < 0 <;> simp [padded, hk, numeral_eq_ofDigitChars, hzeros]
  have habs : m.natAbs = n.natAbs := by
    rw [← hvalue m, ← hvalue n, h]
    simp only [hiff]
  omega

end Bitfrost.Lib

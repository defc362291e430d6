import Bitfrost.Decimals

/-!
The decimal parser on the UTF-8 bytes, where the source runs: its checks and
its digit loop read bytes, and it cuts the fraction at a byte offset. Written
with its panics, it never reaches one, and agrees with the parser on
characters.
-/

namespace Bitfrost

open Bitfrost.Lib

/-! ## The parser with its panics

The outer `none` is a panic. -/

/-- `str::bytes`. -/
def bytes (l : List Char) : List UInt8 := l.flatMap String.utf8EncodeChar

/-- `u8::is_ascii_digit`. -/
def isAsciiDigitByte (b : UInt8) : Bool := 48 ≤ b && b ≤ 57

/-- `str::split_at`, which panics at an offset that is no character boundary. -/
def splitAt : Nat → List Char → Option (List Char × List Char)
  | 0, l => some ([], l)
  | _ + 1, [] => none
  | n + 1, c :: l =>
    if c.utf8Size ≤ n + 1 then
      (splitAt (n + 1 - c.utf8Size) l).map fun parts => (c :: parts.1, parts.2)
    else none

/-- `digit - b'0'`, which panics when it underflows. -/
def digitOfByte (digit : UInt8) : Option Nat :=
  if digit < 48 then none else some (digit - 48).toNat

abbrev MayPanic := ExceptT RejectReason Option

/-- The fraction cut to `scale` bytes, if what is cut off is zeros. -/
def keepFraction (malformed : RejectReason) (fracPart : List Char) (scale : Nat) :
    MayPanic (List Char) := do
  if scale < (bytes fracPart).length then
    let (kept, overflow) ← splitAt scale fracPart
    rejectIf (¬ (bytes overflow).all (· = 48)) malformed
    return kept
  else return fracPart

/-- One turn of the digit loop. -/
def pushByte (malformed : RejectReason) (value : I128) (digit : UInt8) : MayPanic I128 := do
  let value ← okOr (value.checkedMul 10) malformed
  let digit ← digitOfByte digit
  okOr (value.checkedAdd (SInt.wrap digit)) malformed

def parseFixedBytes (s : String) (scale : UInt32) : MayPanic I128 := do
  let malformed := RejectReason.malformedDecimal s
  let t := trim s.toList
  rejectIf (t = []) malformed
  let (neg, body) := stripMinus t
  let (intPart, fracPart) := splitPoint body
  rejectIf (intPart = [] ∧ fracPart = []) malformed
  rejectIf (¬ (bytes intPart).all isAsciiDigitByte ∨ ¬ (bytes fracPart).all isAsciiDigitByte)
    malformed
  let scale := scale.toNat
  let fracPart ← keepFraction malformed fracPart scale
  let value ← (bytes intPart ++ bytes fracPart).foldlM (pushByte malformed) 0
  let value ← okOr (padZeros (scale - (bytes fracPart).length) value) malformed
  if neg then okOr value.checkedNeg malformed else return value

/-! ## Digits are single bytes -/

theorem isAsciiDigitByte_ofNat {n : Nat} (h : n < 256) :
    isAsciiDigitByte (UInt8.ofNat n) = (decide (48 ≤ n) && decide (n ≤ 57)) := by
  simp only [isAsciiDigitByte, UInt8.le_iff_toNat_le, UInt8.toNat_ofNat_of_lt' h]
  rfl

theorem utf8EncodeChar_ascii {c : Char} (h : c.toNat ≤ 127) :
    String.utf8EncodeChar c = [UInt8.ofNat c.toNat] := by
  rw [String.utf8EncodeChar, if_pos (show c.val.toNat ≤ 127 from h)]
  rfl

/-- A character is an ASCII digit exactly when all its bytes are: any other character starts with
a byte above the digits. -/
theorem all_utf8EncodeChar (c : Char) :
    (String.utf8EncodeChar c).all isAsciiDigitByte = isAsciiDigit c := by
  by_cases h : c.toNat ≤ 127
  · rw [utf8EncodeChar_ascii h, List.all_cons, List.all_nil, Bool.and_true,
      isAsciiDigitByte_ofNat (by omega)]
    rw [Bool.eq_iff_iff, Bool.and_eq_true, decide_eq_true_eq, decide_eq_true_eq]
    exact isDigit_iff.symm
  · have hdigit : isAsciiDigit c = false := by
      rw [Bool.eq_false_iff]
      intro hd
      have hc := isDigit_iff.mp hd
      omega
    have hlead : ∀ n, 57 < n → n < 256 → isAsciiDigitByte (UInt8.ofNat n) = false := by
      intro n hlo hhi
      rw [isAsciiDigitByte_ofNat hhi, decide_eq_false (p := n ≤ 57) (by omega), Bool.and_false]
    rw [hdigit, String.utf8EncodeChar, if_neg (show ¬ c.val.toNat ≤ 127 from h)]
    split
    · rw [List.all_cons, hlead _ (by omega) (by omega), Bool.false_and]
    · split
      · rw [List.all_cons, hlead _ (by omega) (by omega), Bool.false_and]
      · rw [List.all_cons, hlead _ (by omega) (by omega), Bool.false_and]

theorem all_bytes (l : List Char) : (bytes l).all isAsciiDigitByte = l.all isAsciiDigit := by
  induction l with
  | nil => rfl
  | cons c l ih => rw [bytes, List.flatMap_cons, List.all_append, all_utf8EncodeChar, ← bytes, ih,
      List.all_cons]

section Digits

variable {l : List Char} (h : ∀ c ∈ l, c.isDigit = true)

include h

theorem bytes_digits : bytes l = l.map fun c => UInt8.ofNat c.toNat := by
  induction l with
  | nil => rfl
  | cons c l ih =>
    have hc := isDigit_iff.mp (h c List.mem_cons_self)
    rw [bytes, List.flatMap_cons, utf8EncodeChar_ascii (by omega), ← bytes,
      ih fun c hc => h c (List.mem_cons_of_mem _ hc)]
    rfl

theorem length_bytes : (bytes l).length = l.length := by
  rw [bytes_digits h, List.length_map]

theorem all_zero_bytes : (bytes l).all (· = 48) = l.all (· = '0') := by
  rw [bytes_digits h, List.all_map, Bool.eq_iff_iff, List.all_eq_true, List.all_eq_true]
  refine forall₂_congr fun c hc => ?_
  have hd := isDigit_iff.mp (h c hc)
  have hbyte : (UInt8.ofNat c.toNat).toNat = c.toNat :=
    UInt8.toNat_ofNat_of_lt' (by simp only [UInt8.size]; omega)
  simp only [Function.comp_apply, decide_eq_true_eq, ← UInt8.toNat_inj, hbyte,
    ← Char.toNat_inj]
  rfl

/-- Every byte offset of a string of digits is a character boundary. -/
theorem splitAt_digits {n : Nat} (hn : n ≤ l.length) :
    splitAt n l = some (l.take n, l.drop n) := by
  induction l generalizing n with
  | nil =>
    rw [List.length_nil, Nat.le_zero] at hn
    rw [hn]
    rfl
  | cons c l ih =>
    cases n with
    | zero => rfl
    | succ n =>
      have hc := isDigit_iff.mp (h c List.mem_cons_self)
      have hsize : c.utf8Size = 1 := by
        rw [Char.utf8Size_eq_one_iff, UInt32.le_iff_toNat_le]
        exact hc.2.trans (by decide)
      rw [splitAt, hsize, if_pos (Nat.le_add_left 1 n), Nat.add_sub_cancel,
        ih (fun c hc => h c (List.mem_cons_of_mem _ hc)) (Nat.le_of_succ_le_succ hn)]
      rfl

end Digits

/-- No digit underflows. -/
theorem digitOfByte_digit {c : Char} (h : c.isDigit = true) :
    digitOfByte (UInt8.ofNat c.toNat) = some (digitValue c) := by
  have hc := isDigit_iff.mp h
  have hbyte : (UInt8.ofNat c.toNat).toNat = c.toNat :=
    UInt8.toNat_ofNat_of_lt' (by simp only [UInt8.size]; omega)
  have hle : 48 ≤ UInt8.ofNat c.toNat := by
    rw [UInt8.le_iff_toNat_le, hbyte]
    exact hc.1
  rw [digitOfByte, if_neg (UInt8.not_lt.mpr hle), UInt8.toNat_sub_of_le _ _ hle, hbyte]
  rfl

/-! ## The two parsers agree -/

section Lift

variable {ε α β : Type}

/-- Checked steps are the same with panics around them. -/
theorem lift_bind (x : Except ε α) (f : α → Except ε β) :
    (liftM (x >>= f) : ExceptT ε Option β) =
      (liftM x : ExceptT ε Option α) >>= fun a => liftM (f a) := by
  cases x <;> rfl

/-- What follows a check may use that it passed. -/
theorem lift_rejectIf_congr {c : Prop} [Decidable c] {e : ε} {x y : ExceptT ε Option β}
    (h : ¬ c → x = y) :
    ((liftM (rejectIf c e : Except ε PUnit) : ExceptT ε Option PUnit) >>= fun _ => x) =
      (liftM (rejectIf c e : Except ε PUnit) : ExceptT ε Option PUnit) >>= fun _ => y := by
  by_cases hc : c
  · rw [rejectIf, if_pos hc]
    rfl
  · rw [h hc]

end Lift

theorem pushByte_digit (malformed : RejectReason) (value : I128) {c : Char}
    (h : c.isDigit = true) :
    pushByte malformed value (UInt8.ofNat c.toNat) =
      liftM (okOr (pushDigit value c) malformed) := by
  have hc := isDigit_iff.mp h
  have hval : (c.toNat : Int) - ('0'.toNat : Int) = digitValue c := (Int.ofNat_sub hc.1).symm
  rw [pushByte, digitOfByte_digit h]
  show _ = liftM (okOr ((value.checkedMul 10).bind fun value =>
    value.checkedAdd (SInt.wrap ((c.toNat : Int) - ('0'.toNat : Int)))) malformed)
  rw [okOr_bind, lift_bind, hval]
  rfl

theorem foldlM_pushByte (malformed : RejectReason) {l : List Char}
    (h : ∀ c ∈ l, c.isDigit = true) (value : I128) :
    (bytes l).foldlM (pushByte malformed) value =
      liftM (okOr (l.foldlM pushDigit value) malformed) := by
  rw [bytes_digits h]
  induction l generalizing value with
  | nil => rfl
  | cons c l ih =>
    rw [List.map_cons, List.foldlM_cons, pushByte_digit malformed value (h c List.mem_cons_self),
      List.foldlM_cons]
    show _ = liftM (okOr ((pushDigit value c).bind fun value => l.foldlM pushDigit value) malformed)
    rw [okOr_bind, lift_bind]
    exact bind_congr fun value => ih (fun c hc => h c (List.mem_cons_of_mem _ hc)) value

theorem keepFraction_digits (malformed : RejectReason) {fracPart : List Char}
    (h : ∀ c ∈ fracPart, c.isDigit = true) (scale : Nat) :
    keepFraction malformed fracPart scale = (do
      rejectIf (scale < fracPart.length ∧ ¬ (fracPart.drop scale).all (· = '0')) malformed
      return fracPart.take scale) := by
  have hdrop : ∀ c ∈ fracPart.drop scale, c.isDigit = true := fun c hc =>
    h c (List.mem_of_mem_drop hc)
  rw [keepFraction, length_bytes h]
  by_cases hlt : scale < fracPart.length
  · rw [if_pos hlt, splitAt_digits h hlt.le]
    show (do
      rejectIf (¬ (bytes (fracPart.drop scale)).all (· = 48)) malformed
      return fracPart.take scale : MayPanic (List Char)) = _
    rw [all_zero_bytes hdrop]
    simp only [hlt, true_and]
  · rw [if_neg hlt, List.take_of_length_le (not_lt.mp hlt), rejectIf_of_not fun hc => hlt hc.1]
    rfl

/-- The parser never panics, and reads bytes as it reads characters. -/
theorem parseFixedBytes_eq (s : String) (scale : UInt32) :
    parseFixedBytes s scale = liftM (parseFixed s scale) := by
  obtain ⟨neg, body, hstrip⟩ : ∃ neg body, stripMinus (trim s.toList) = (neg, body) := ⟨_, _, rfl⟩
  obtain ⟨whole, frac, hsplit⟩ : ∃ whole frac, splitPoint body = (whole, frac) := ⟨_, _, rfl⟩
  unfold parseFixedBytes parseFixed
  simp only [hstrip, hsplit, lift_bind, all_bytes]
  refine bind_congr fun _ => bind_congr fun _ => lift_rejectIf_congr fun hdigits => ?_
  simp only [not_or, not_not, all_isAsciiDigit] at hdigits
  obtain ⟨hwhole, hfrac⟩ := hdigits
  have htake : ∀ c ∈ frac.take scale.toNat, c.isDigit = true := fun c hc =>
    hfrac c (List.mem_of_mem_take hc)
  have hall : ∀ c ∈ whole ++ frac.take scale.toNat, c.isDigit = true := fun c hc =>
    (List.mem_append.mp hc).elim (hwhole c) (htake c)
  have hbytes : bytes whole ++ bytes (frac.take scale.toNat) =
      bytes (whole ++ frac.take scale.toNat) := List.flatMap_append.symm
  rw [keepFraction_digits _ hfrac, bind_assoc]
  refine bind_congr fun _ => ?_
  rw [pure_bind, hbytes, foldlM_pushByte _ hall, length_bytes htake]
  refine bind_congr fun value => bind_congr fun value => ?_
  cases neg with
  | true => rfl
  | false => rfl

/-- `parse_fixed` accepts exactly its grammar, computes the exact scaled value, reports anything
else under the text it was given, and never panics. -/
theorem parse_fixed_exact (s : String) (scale : UInt32) :
    (∀ v, parseFixed s scale = .ok v ↔ ∃ x : Decimal, x.Spells (trim s.toList) ∧
      x.value * 10 ^ scale.toNat = v.toInt ∧ |v.toInt| ≤ 2 ^ 127 - 1) ∧
    (∀ reason, parseFixed s scale = .error reason → reason = .malformedDecimal s) ∧
    (parseFixedBytes s scale).run = some (parseFixed s scale) := by
  refine ⟨parseFixed_eq_ok s scale, fun reason => parseFixed_error, ?_⟩
  rw [parseFixedBytes_eq]
  rfl

end Bitfrost

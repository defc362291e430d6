import Bitfrost.Convert
import Bitfrost.Lib.Decimal

/-!
The decimal parser accepts exactly its grammar and is exact. The digit and
padding loops compute the digits the scale keeps, or overflow when they do
not fit; and on the bytes, where the source runs, no step can panic.
-/

namespace Bitfrost

open Bitfrost.Lib

/-! ## The loops -/

theorem all_isAsciiDigit {l : List Char} :
    l.all isAsciiDigit = true ↔ ∀ c ∈ l, c.isDigit = true := by
  rw [List.all_eq_true]
  exact Iff.rfl

theorem pushDigit_eq {value : I128} {digit : Char} (hv : 0 ≤ value.toInt)
    (hd : digit.isDigit = true) :
    pushDigit value digit = SInt.tryFrom (value.toInt * 10 + digitValue digit) := by
  have hc := isDigit_iff.mp hd
  have hten : (10 : I128).toInt = 10 := by decide
  have hdigit : (SInt.wrap (digit.toNat - '0'.toNat) : I128).toInt = digitValue digit := by
    have hval : ((digit.toNat : Int) - ('0'.toNat : Int)) = digitValue digit :=
      (Int.ofNat_sub hc.1).symm
    have hlt := digitValue_lt hd
    rw [hval]
    exact SInt.toInt_wrap_of_mem (by decide) (by norm_num) (by norm_num; omega)
  show (value.checkedMul 10).bind _ = _
  rw [SInt.checkedMul, hten]
  apply SInt.tryFrom_bind_of_le (by omega) (by omega)
  intro a ha
  rw [SInt.checkedAdd, ha, hdigit]

theorem foldlM_pushDigit {digits : List Char} {value : I128} (hv : 0 ≤ value.toInt)
    (hd : ∀ c ∈ digits, c.isDigit = true) :
    digits.foldlM pushDigit value =
      SInt.tryFrom (value.toInt * 10 ^ digits.length + numeral digits) := by
  induction digits generalizing value with
  | nil =>
    rw [List.foldlM_nil, List.length_nil, pow_zero, mul_one, numeral_nil, Nat.cast_zero, add_zero]
    exact (SInt.tryFrom_eq_some.mpr rfl).symm
  | cons c digits ih =>
    rw [List.foldlM_cons, pushDigit_eq hv (hd c List.mem_cons_self), List.length_cons,
      numeral_cons]
    have hpow : (1 : Int) ≤ 10 ^ digits.length := one_le_pow₀ (by decide)
    have hhead : 0 ≤ value.toInt * 10 + digitValue c := by omega
    have hnext : value.toInt * 10 ^ (digits.length + 1) +
        ((digitValue c * 10 ^ digits.length + numeral digits : Nat) : Int) =
        (value.toInt * 10 + digitValue c) * 10 ^ digits.length + numeral digits := by
      push_cast
      ring
    rw [hnext]
    apply SInt.tryFrom_bind_of_le hhead
    · nlinarith [Int.natCast_nonneg (numeral digits)]
    · intro a ha
      rw [ih (ha ▸ hhead) fun c hc => hd c (List.mem_cons_of_mem _ hc), ha]

theorem padZeros_eq {n : Nat} {value : I128} (hv : 0 ≤ value.toInt) :
    padZeros n value = SInt.tryFrom (value.toInt * 10 ^ n) := by
  induction n generalizing value with
  | zero =>
    rw [padZeros, pow_zero, mul_one]
    exact (SInt.tryFrom_eq_some.mpr rfl).symm
  | succ n ih =>
    have hten : (10 : I128).toInt = 10 := by decide
    have hpow : (1 : Int) ≤ 10 ^ n := one_le_pow₀ (by decide)
    have hnext : value.toInt * 10 ^ (n + 1) = value.toInt * 10 * 10 ^ n := by ring
    show (value.checkedMul 10).bind _ = _
    rw [SInt.checkedMul, hten, hnext]
    apply SInt.tryFrom_bind_of_le (by omega)
    · nlinarith
    · intro a ha
      rw [ih (by omega), ha]

/-! ## The text -/

theorem splitPoint_eq {body whole frac : List Char} (h : splitPoint body = (whole, frac)) :
    body = whole ∧ frac = [] ∨ body = whole ++ '.' :: frac := by
  induction body generalizing whole frac with
  | nil =>
    cases h
    exact .inl ⟨rfl, rfl⟩
  | cons c body ih =>
    unfold splitPoint at h
    split at h
    · next hc =>
      cases h
      exact .inr (by rw [hc, List.nil_append])
    · cases h
      rcases ih rfl with ⟨hw, hf⟩ | hw
      · exact .inl ⟨congrArg (c :: ·) hw, hf⟩
      · exact .inr (congrArg (c :: ·) hw)

theorem splitPoint_digits {whole : List Char} (h : ∀ c ∈ whole, c.isDigit = true) :
    splitPoint whole = (whole, []) ∧
      ∀ frac, splitPoint (whole ++ '.' :: frac) = (whole, frac) := by
  induction whole with
  | nil => exact ⟨rfl, fun frac => rfl⟩
  | cons c whole ih =>
    obtain ⟨hplain, hpoint⟩ := ih fun d hd => h d (List.mem_cons_of_mem _ hd)
    have hc : c ≠ '.' := by
      rintro rfl
      exact absurd (h '.' List.mem_cons_self) (by decide)
    constructor
    · rw [splitPoint, if_neg hc, hplain]
    · intro frac
      rw [List.cons_append, splitPoint, if_neg hc, hpoint]

theorem stripMinus_cases (text : List Char) :
    (∃ body, text = '-' :: body ∧ stripMinus text = (true, body)) ∨
      stripMinus text = (false, text) := by
  unfold stripMinus
  split
  · next body => exact .inl ⟨body, rfl, rfl⟩
  · exact .inr rfl

theorem stripMinus_unsigned {whole rest : List Char} (hw : ∀ c ∈ whole, c.isDigit = true)
    (hr : rest.head? ≠ some '-') : stripMinus (whole ++ rest) = (false, whole ++ rest) := by
  rcases stripMinus_cases (whole ++ rest) with ⟨body, hbody, -⟩ | h
  · cases whole with
    | nil =>
      rw [List.nil_append] at hbody
      exact absurd (by rw [hbody]; rfl) hr
    | cons c whole =>
      obtain ⟨rfl, -⟩ := List.cons.inj hbody
      exact absurd (hw '-' List.mem_cons_self) (by decide)
  · exact h

/-- The text spells the number exactly when the parser's cuts find its parts. -/
theorem spells_iff (x : Decimal) (text : List Char) :
    x.Spells text ↔ (stripMinus text).1 = x.negative ∧
      splitPoint (stripMinus text).2 = (x.whole, x.frac) := by
  obtain ⟨hplain, hpoint⟩ := splitPoint_digits x.whole_digits
  constructor
  · intro h
    cases hneg : x.negative with
    | true =>
      rw [Decimal.Spells, Decimal.sign, if_pos hneg] at h
      rcases h with ⟨rfl, hf⟩ | rfl
      · exact ⟨rfl, by rw [hf]; exact hplain⟩
      · exact ⟨rfl, hpoint x.frac⟩
    | false =>
      rw [Decimal.Spells, Decimal.sign, if_neg (by rw [hneg]; exact Bool.false_ne_true),
        List.nil_append, List.nil_append] at h
      rcases h with ⟨rfl, hf⟩ | rfl
      · have hstrip : stripMinus (x.whole ++ []) = (false, x.whole ++ []) :=
          stripMinus_unsigned x.whole_digits (by simp)
        rw [List.append_nil] at hstrip
        rw [hstrip]
        exact ⟨rfl, hf ▸ hplain⟩
      · rw [stripMinus_unsigned x.whole_digits (by simp)]
        exact ⟨rfl, hpoint x.frac⟩
  · rintro ⟨hneg, hsplit⟩
    rcases stripMinus_cases text with ⟨body, rfl, hstrip⟩ | hstrip
    · rw [hstrip] at hneg hsplit
      rw [Decimal.Spells, Decimal.sign, if_pos hneg.symm]
      rcases splitPoint_eq hsplit with ⟨rfl, hf⟩ | rfl
      · exact .inl ⟨rfl, hf⟩
      · exact .inr rfl
    · rw [hstrip] at hneg hsplit
      rw [Decimal.Spells, Decimal.sign, if_neg (by rw [← hneg]; exact Bool.false_ne_true),
        List.nil_append, List.nil_append]
      exact splitPoint_eq hsplit

/-! ## `parse_fixed` -/

section Parse

variable {s : String} {scale : UInt32}

/-- The digit loop and the padding loop compute the digits the scale keeps, or overflow. -/
theorem loops_eq (x : Decimal) (scale : Nat) :
    ((x.whole ++ x.frac.take scale).foldlM pushDigit 0).bind
        (padZeros (scale - (x.frac.take scale).length)) =
      (SInt.tryFrom (x.kept scale) : Option I128) := by
  have hkept : ∀ c ∈ x.whole ++ x.frac.take scale, c.isDigit = true := by
    intro c hc
    rcases List.mem_append.mp hc with hc | hc
    · exact x.whole_digits c hc
    · exact x.frac_digits c (List.mem_of_mem_take hc)
  have hpad : scale - (x.frac.take scale).length = scale - x.frac.length := by
    rw [List.length_take]
    omega
  have hpow : (1 : Int) ≤ 10 ^ (scale - x.frac.length) := one_le_pow₀ (by decide)
  rw [foldlM_pushDigit (by decide) hkept, SInt.toInt_zero, zero_mul, zero_add, hpad, Decimal.kept]
  push_cast
  apply SInt.tryFrom_bind_of_le (Int.natCast_nonneg _)
  · exact le_mul_of_one_le_right (Int.natCast_nonneg _) hpow
  · intro a ha
    rw [padZeros_eq (by rw [ha]; exact Int.natCast_nonneg _), ha]

/-- On a text that spells a number the parser computes the digits the scale keeps. -/
theorem parseFixed_spelled {x : Decimal} (h : x.Spells (trim s.toList)) :
    parseFixed s scale = (do
      rejectIf (¬ (x.frac.drop scale.toNat).all (· = '0')) (.malformedDecimal s)
      let value ← okOr (SInt.tryFrom (x.kept scale.toNat)) (.malformedDecimal s)
      if x.negative then okOr value.checkedNeg (.malformedDecimal s) else .ok value) := by
  obtain ⟨hneg, hsplit⟩ := (spells_iff x _).mp h
  obtain ⟨body, hstrip⟩ : ∃ body, stripMinus (trim s.toList) = (x.negative, body) :=
    ⟨_, Prod.ext hneg rfl⟩
  rw [hstrip] at hsplit
  have htext : trim s.toList ≠ [] := by
    intro hnil
    have hbody : [] = body := by
      rw [hnil] at hstrip
      exact congrArg Prod.snd hstrip
    rw [← hbody] at hsplit
    obtain ⟨hw, hf⟩ := Prod.mk.inj hsplit
    exact x.nonempty (by rw [← hw, ← hf]; rfl)
  have hparts : ¬ (x.whole = [] ∧ x.frac = []) := by
    rintro ⟨hw, hf⟩
    exact x.nonempty (by rw [hw, hf]; rfl)
  have hdigits : ¬ (¬ x.whole.all isAsciiDigit ∨ ¬ x.frac.all isAsciiDigit) := by
    simp only [all_isAsciiDigit, not_or, not_not]
    exact ⟨x.whole_digits, x.frac_digits⟩
  have hover : (scale.toNat < x.frac.length ∧ ¬ (x.frac.drop scale.toNat).all (· = '0')) ↔
      ¬ (x.frac.drop scale.toNat).all (· = '0') := by
    refine and_iff_right_of_imp fun hall => ?_
    by_contra hle
    exact hall (by rw [List.drop_eq_nil_of_le (not_lt.mp hle)]; rfl)
  unfold parseFixed
  simp only [hstrip, hsplit, rejectIf_of_not htext, rejectIf_of_not hparts,
    rejectIf_of_not hdigits, ok_bind, hover, ← loops_eq, okOr_bind, bind_assoc]

/-- A text that passes the parser's checks spells a number. -/
theorem spelled_of_ok {v : I128} (h : parseFixed s scale = .ok v) :
    ∃ x : Decimal, x.Spells (trim s.toList) := by
  unfold parseFixed at h
  obtain ⟨-, -, h⟩ := bind_eq_ok.mp h
  obtain ⟨neg, body, hstrip⟩ : ∃ neg body, stripMinus (trim s.toList) = (neg, body) := ⟨_, _, rfl⟩
  obtain ⟨whole, frac, hsplit⟩ : ∃ whole frac, splitPoint body = (whole, frac) := ⟨_, _, rfl⟩
  simp only [hstrip, hsplit, bind_eq_ok, rejectIf_eq_ok, not_or, not_not, all_isAsciiDigit] at h
  obtain ⟨-, hparts, -, ⟨hwhole, hfrac⟩, -⟩ := h
  have hnonempty : whole ++ frac ≠ [] := fun hnil => hparts (List.append_eq_nil_iff.mp hnil)
  refine ⟨⟨neg, whole, frac, hwhole, hfrac, hnonempty⟩, (spells_iff _ _).mpr ?_⟩
  rw [hstrip]
  exact ⟨rfl, hsplit⟩

/-- The parser reads a text that spells a number exactly when the scaled number is an integer of
the machine. -/
theorem parseFixed_spelled_eq_ok {x : Decimal} (h : x.Spells (trim s.toList)) (v : I128) :
    parseFixed s scale = .ok v ↔
      x.value * 10 ^ scale.toNat = v.toInt ∧ |v.toInt| ≤ 2 ^ 127 - 1 := by
  have hscaled : x.value * 10 ^ scale.toNat = v.toInt ↔
      (∀ c ∈ x.frac.drop scale.toNat, c = '0') ∧
        (x.kept scale.toNat : Int) = if x.negative then -v.toInt else v.toInt := by
    rw [← x.magnitude_mul_pow_eq_iff, Decimal.value]
    split
    · push_cast
      rw [neg_mul, neg_eq_iff_eq_neg]
    · rfl
  rw [parseFixed_spelled h, hscaled]
  simp only [bind_eq_ok, rejectIf_eq_ok, okOr_eq_ok, not_not, List.all_eq_true, decide_eq_true_eq,
    SInt.tryFrom_eq_some]
  have hkept := Int.natCast_nonneg (x.kept scale.toNat)
  constructor
  · rintro ⟨-, hzeros, value, hvalue, hsign⟩
    have hbounds := I128.bounds value
    cases hneg : x.negative with
    | true =>
      rw [if_pos hneg, okOr_eq_ok] at hsign
      have hv : v.toInt = -value.toInt := SInt.tryFrom_eq_some.mp hsign
      rw [hv, abs_neg, abs_of_nonneg (hvalue ▸ hkept), if_pos rfl, neg_neg]
      exact ⟨⟨hzeros, hvalue.symm⟩, by omega⟩
    | false =>
      rw [if_neg (by rw [hneg]; exact Bool.false_ne_true)] at hsign
      rw [← Except.ok.inj hsign, abs_of_nonneg (hvalue ▸ hkept), if_neg Bool.false_ne_true]
      exact ⟨⟨hzeros, hvalue.symm⟩, by omega⟩
  · rintro ⟨⟨hzeros, hvalue⟩, hfits⟩
    have hmax : (x.kept scale.toNat : Int) ≤ 2 ^ 127 - 1 := by
      rw [hvalue]
      split
      · exact (neg_le_abs _).trans hfits
      · exact (le_abs_self _).trans hfits
    obtain ⟨value, -, hval⟩ := SInt.exists_tryFrom (w := 128) (z := x.kept scale.toNat)
      (by norm_num) (by norm_num at hmax ⊢; omega)
    refine ⟨⟨⟩, hzeros, value, hval, ?_⟩
    cases hneg : x.negative with
    | true =>
      rw [hneg, if_pos rfl] at hvalue
      rw [if_pos rfl, okOr_eq_ok, SInt.checkedNeg, SInt.tryFrom_eq_some]
      omega
    | false =>
      rw [hneg, if_neg Bool.false_ne_true] at hvalue
      rw [if_neg Bool.false_ne_true]
      exact congrArg Except.ok (SInt.ext (hval.trans hvalue))

theorem parseFixed_eq_ok (s : String) (scale : UInt32) (v : I128) :
    parseFixed s scale = .ok v ↔ ∃ x : Decimal, x.Spells (trim s.toList) ∧
      x.value * 10 ^ scale.toNat = v.toInt ∧ |v.toInt| ≤ 2 ^ 127 - 1 := by
  constructor
  · intro h
    obtain ⟨x, hx⟩ := spelled_of_ok h
    exact ⟨x, hx, (parseFixed_spelled_eq_ok hx v).mp h⟩
  · rintro ⟨x, hx, hvalue⟩
    exact (parseFixed_spelled_eq_ok hx v).mpr hvalue

/-- Every error of the parser carries the text it was given. -/
theorem parseFixed_error {reason : RejectReason} (h : parseFixed s scale = .error reason) :
    reason = .malformedDecimal s := by
  have hexits : Exits (parseFixed s scale) (fun _ => True) (· = .malformedDecimal s) := by
    unfold parseFixed
    refine Exits.bind (exits_rejectIf fun _ => rfl) fun _ _ => ?_
    refine Exits.bind (exits_rejectIf fun _ => rfl) fun _ _ => ?_
    refine Exits.bind (exits_rejectIf fun _ => rfl) fun _ _ => ?_
    refine Exits.bind (exits_rejectIf fun _ => rfl) fun _ _ => ?_
    refine Exits.bind (exits_okOr (fun _ _ => trivial) fun _ => rfl) fun _ _ => ?_
    refine Exits.bind (exits_okOr (fun _ _ => trivial) fun _ => rfl) fun _ _ => ?_
    split
    · exact exits_okOr (fun _ _ => trivial) fun _ => rfl
    · exact trivial
  exact hexits.of_error h

end Parse

end Bitfrost

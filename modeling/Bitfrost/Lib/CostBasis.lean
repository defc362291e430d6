import Bitfrost.Lib.Episode

/-!
Cost-basis accounting of one signed position, over any ring of money and any
rule that allocates cost to a partial close. Adding accumulates cost, a
partial close releases the allocated part and realizes the difference, and a
trade through zero closes everything and reopens the rest.

The ledger identity holds for every allocation rule; the bounds need one that
keeps the cost per unit within the bounds it had.
-/

namespace Bitfrost.Lib

/-- A trade of `qty` units, positive for a buy, at `unit` each. -/
structure Trade (R : Type*) where
  qty : ℤ
  unit : R

def Trade.value {R : Type*} [CommRing R] (t : Trade R) : R := (|t.qty| : ℤ) * t.unit

/-- A signed position with the cost of its open units and the profit realized so far. -/
@[ext]
structure Book (R : Type*) where
  net : ℤ
  cost : R
  realized : R

namespace Book

/-! ## The algorithm -/

section Accounting

variable {R : Type*} [CommRing R]

def flat : Book R := ⟨0, 0, 0⟩

/-- One trade; `alloc cost k n` is the part of `cost`, held by `n` units, that `k` of them
release. -/
def step (alloc : R → ℤ → ℤ → R) (b : Book R) (t : Trade R) : Book R :=
  if Opens b.net t.qty then
    { net := b.net + t.qty, cost := b.cost + (|t.qty| : ℤ) * t.unit, realized := b.realized }
  else if |t.qty| < |b.net| then
    let released := alloc b.cost |t.qty| |b.net|
    { net := b.net + t.qty, cost := b.cost - released
      realized := b.realized + b.net.sign * ((|t.qty| : ℤ) * t.unit - released) }
  else
    { net := b.net + t.qty, cost := (|b.net + t.qty| : ℤ) * t.unit
      realized := b.realized + b.net.sign * ((|b.net| : ℤ) * t.unit - b.cost) }

def run (alloc : R → ℤ → ℤ → R) (ts : List (Trade R)) : Book R := ts.foldl (step alloc) flat

variable (alloc : R → ℤ → ℤ → R) (b : Book R) (t : Trade R) (ts : List (Trade R))

@[simp] theorem run_nil : run alloc [] = flat := rfl

@[simp] theorem run_concat : run alloc (ts ++ [t]) = step alloc (run alloc ts) t := by simp [run]

variable {b t} in
theorem step_of_opens (h : Opens b.net t.qty) :
    step alloc b t = ⟨b.net + t.qty, b.cost + (|t.qty| : ℤ) * t.unit, b.realized⟩ := by
  rw [step, if_pos h]

variable {b t} in
theorem step_of_lt (h : Opposes b.net t.qty) (hlt : |t.qty| < |b.net|) :
    step alloc b t =
      ⟨b.net + t.qty, b.cost - alloc b.cost |t.qty| |b.net|,
        b.realized + b.net.sign *
          ((|t.qty| : ℤ) * t.unit - alloc b.cost |t.qty| |b.net|)⟩ := by
  rw [step, if_neg h.not_opens, if_pos hlt]

variable {b t} in
theorem step_of_le (h : Opposes b.net t.qty) (hle : |b.net| ≤ |t.qty|) :
    step alloc b t =
      ⟨b.net + t.qty, (|b.net + t.qty| : ℤ) * t.unit,
        b.realized + b.net.sign * ((|b.net| : ℤ) * t.unit - b.cost)⟩ := by
  rw [step, if_neg h.not_opens, if_neg hle.not_gt]

theorem step_cases :
    (Opens b.net t.qty ∧ step alloc b t =
      ⟨b.net + t.qty, b.cost + (|t.qty| : ℤ) * t.unit, b.realized⟩) ∨
    (Opposes b.net t.qty ∧ |t.qty| < |b.net| ∧ step alloc b t =
      ⟨b.net + t.qty, b.cost - alloc b.cost |t.qty| |b.net|,
        b.realized + b.net.sign * ((|t.qty| : ℤ) * t.unit - alloc b.cost |t.qty| |b.net|)⟩) ∨
    (Opposes b.net t.qty ∧ |b.net| ≤ |t.qty| ∧ step alloc b t =
      ⟨b.net + t.qty, (|b.net + t.qty| : ℤ) * t.unit,
        b.realized + b.net.sign * ((|b.net| : ℤ) * t.unit - b.cost)⟩) := by
  rcases opens_or_opposes b.net t.qty with ho | hop
  · exact .inl ⟨ho, step_of_opens alloc ho⟩
  · rcases lt_or_ge |t.qty| |b.net| with hlt | hle
    · exact .inr (.inl ⟨hop, hlt, step_of_lt alloc hop hlt⟩)
    · exact .inr (.inr ⟨hop, hle, step_of_le alloc hop hle⟩)

@[simp] theorem step_net : (step alloc b t).net = b.net + t.qty := by
  rcases step_cases alloc b t with ⟨-, h⟩ | ⟨-, -, h⟩ | ⟨-, -, h⟩ <;> rw [h]

theorem run_net : (run alloc ts).net = netOf Trade.qty ts := by
  induction ts using List.reverseRecOn with
  | nil => rfl
  | append_singleton ts t ih => rw [run_concat, step_net, netOf_concat, ih]

/-! ## The ledger identity -/

theorem cast_sign_mul_abs (z : ℤ) : (z.sign : R) * (|z| : ℤ) = z := by
  exact_mod_cast congrArg (Int.cast : ℤ → R) (Int.sign_mul_abs z)

/-- A flat position has no cost. -/
def Sound (b : Book R) : Prop := b.net = 0 → b.cost = 0

variable {b} in
theorem Sound.step (h : b.Sound) : (Book.step alloc b t).Sound := by
  intro hnet
  rw [step_net] at hnet
  rcases step_cases alloc b t with ⟨ho, heq⟩ | ⟨hop, hlt, heq⟩ | ⟨hop, hle, heq⟩
  · have habs := ho.abs_add
    rw [hnet, abs_zero] at habs
    have h0 := abs_nonneg b.net
    have h1 := abs_nonneg t.qty
    have hflat : b.net = 0 := abs_eq_zero.mp (by omega)
    have hnone : |t.qty| = 0 := by omega
    rw [heq]
    simp [h hflat, hnone]
  · exact absurd hnet (hop.add_ne_zero_of_lt hlt)
  · rw [heq]
    simp [hnet]

theorem sound_run : (run alloc ts).Sound := by
  induction ts using List.reverseRecOn with
  | nil => exact fun _ => rfl
  | append_singleton ts t ih =>
    rw [run_concat]
    exact ih.step alloc t

/-- Realized profit less the signed cost of what is open. -/
def balance (b : Book R) : R := b.realized - b.net.sign * b.cost

variable {b} in
/-- Every trade moves the balance by its signed value, however cost is allocated. -/
theorem Sound.balance_step (h : b.Sound) :
    (Book.step alloc b t).balance = b.balance - t.qty * t.unit := by
  have hq := cast_sign_mul_abs (R := R) t.qty
  rcases step_cases alloc b t with ⟨ho, heq⟩ | ⟨hop, hlt, heq⟩ | ⟨hop, hle, heq⟩
  · have hcost : (b.net.sign : R) * b.cost = t.qty.sign * b.cost := by
      rcases ho with hnet | hs
      · rw [h hnet]
        ring
      · rw [hs]
    rw [heq]
    simp only [balance, ho.sign_add]
    linear_combination hcost - t.unit * hq
  · have hval : (t.qty : R) = -(b.net.sign * (|t.qty| : ℤ)) := by
      exact_mod_cast congrArg (Int.cast : ℤ → R) hop.qty_eq
    rw [heq]
    simp only [balance, hop.sign_add_of_lt hlt]
    linear_combination t.unit * hval
  · have hn := cast_sign_mul_abs (R := R) b.net
    have hrest := cast_sign_mul_abs (R := R) (b.net + t.qty)
    push_cast at hrest
    rw [heq]
    simp only [balance]
    linear_combination t.unit * hn - t.unit * hrest

/-- The ledger identity: money in, money out and the cost of what is open account for the
realized profit exactly. -/
theorem run_ledger :
    (run alloc ts).realized =
      (run alloc ts).net.sign * (run alloc ts).cost -
        (ts.map fun t => (t.qty : R) * t.unit).sum := by
  have h : (run alloc ts).balance = -(ts.map fun t => (t.qty : R) * t.unit).sum := by
    induction ts using List.reverseRecOn with
    | nil => simp [flat, balance]
    | append_singleton ts t ih =>
      rw [run_concat, (sound_run alloc ts).balance_step, ih]
      simp
      ring
  unfold balance at h
  linear_combination h

/-! ## Totals -/

/-- The value traded on the side of sign `s`. -/
def traded (s : ℤ) (ts : List (Trade R)) : R :=
  ((ts.filter fun t => t.qty.sign = s).map Trade.value).sum

/-- The value traded on both sides. -/
def turnover (ts : List (Trade R)) : R := (ts.map Trade.value).sum

theorem traded_concat (s : ℤ) (ts : List (Trade R)) (t : Trade R) :
    traded s (ts ++ [t]) =
      traded s ts + if t.qty.sign = s then t.value else 0 := by
  rw [traded, traded, List.filter_append, List.map_append, List.sum_append]
  by_cases h : t.qty.sign = s <;> simp [h]

@[simp] theorem turnover_concat (ts : List (Trade R)) (t : Trade R) :
    turnover (ts ++ [t]) = turnover ts + t.value := by
  simp [turnover]

theorem turnover_eq (ts : List (Trade R)) : turnover ts = traded 1 ts + traded (-1) ts := by
  induction ts using List.reverseRecOn with
  | nil => simp [turnover, traded]
  | append_singleton ts t ih =>
    rw [turnover_concat, traded_concat, traded_concat, ih]
    rcases lt_trichotomy t.qty 0 with hq | hq | hq
    · simp [Int.sign_eq_neg_one_of_neg hq]
      ring
    · simp [hq, Trade.value]
    · simp [Int.sign_eq_one_of_pos hq]
      ring

theorem signed_sum_eq (ts : List (Trade R)) :
    (ts.map fun t => (t.qty : R) * t.unit).sum = traded 1 ts - traded (-1) ts := by
  induction ts using List.reverseRecOn with
  | nil => simp [traded]
  | append_singleton ts t ih =>
    rw [List.map_append, List.sum_append, traded_concat, traded_concat, ih]
    rcases lt_trichotomy t.qty 0 with hq | hq | hq
    · simp [Int.sign_eq_neg_one_of_neg hq, Trade.value, abs_of_neg hq]
      ring
    · simp [hq]
    · simp [Int.sign_eq_one_of_pos hq, Trade.value, abs_of_pos hq]
      ring

end Accounting

/-! ## Bounds -/

section Bounds

variable {R : Type*} [CommRing R] [LinearOrder R] [IsStrictOrderedRing R]

/-- What a partial close leaves keeps the bounds per unit that the whole had. -/
structure Fair (alloc : R → ℤ → ℤ → R) : Prop where
  lower : ∀ {cost u : R} {k n : ℤ}, 0 ≤ k → k < n → u * n ≤ cost →
    u * (n - k) ≤ cost - alloc cost k n
  upper : ∀ {cost u : R} {k n : ℤ}, 0 ≤ k → k < n → cost ≤ u * n →
    cost - alloc cost k n ≤ u * (n - k)
  nonneg : ∀ {cost : R} {k n : ℤ}, 0 ≤ k → k < n → 0 ≤ cost → 0 ≤ alloc cost k n

/-- The cost per open unit lies between `lo` and `hi`. -/
structure Within (lo hi : R) (b : Book R) : Prop where
  lower : lo * (|b.net| : ℤ) ≤ b.cost
  upper : b.cost ≤ hi * (|b.net| : ℤ)

omit [IsStrictOrderedRing R] in
theorem Sound.within {b : Book R} (h : b.Sound) (hnet : b.net = 0) (lo hi : R) :
    b.Within lo hi := by
  constructor <;> simp [hnet, h hnet]

variable {alloc : R → ℤ → ℤ → R} {b : Book R} {t : Trade R} {lo hi : R}

/-- Adding within the bounds and closing a part keep the bounds. -/
theorem Within.step (hfair : Fair alloc) (h : b.Within lo hi)
    (hkeep : Opens b.net t.qty ∧ lo ≤ t.unit ∧ t.unit ≤ hi ∨
      Opposes b.net t.qty ∧ |t.qty| < |b.net|) : (Book.step alloc b t).Within lo hi := by
  have hq : (0 : R) ≤ (|t.qty| : ℤ) := by exact_mod_cast abs_nonneg t.qty
  rcases step_cases alloc b t with ⟨ho, heq⟩ | ⟨hop, hlt, heq⟩ | ⟨hop, hle, heq⟩
  · rcases hkeep with ⟨-, hlo, hhi⟩ | ⟨hop, -⟩
    · have hl := mul_le_mul_of_nonneg_left hlo hq
      have hu := mul_le_mul_of_nonneg_left hhi hq
      rw [heq]
      constructor
      · simp only [ho.abs_add, Int.cast_add]
        linarith [h.lower]
      · simp only [ho.abs_add, Int.cast_add]
        linarith [h.upper]
    · exact absurd ho hop.not_opens
  · rw [heq]
    constructor
    · simp only [hop.abs_add_of_lt hlt, Int.cast_sub]
      exact hfair.lower (abs_nonneg _) hlt h.lower
    · simp only [hop.abs_add_of_lt hlt, Int.cast_sub]
      exact hfair.upper (abs_nonneg _) hlt h.upper
  · rcases hkeep with ⟨ho, -⟩ | ⟨-, hlt⟩
    · exact absurd ho hop.not_opens
    · exact absurd hle hlt.not_ge

/-- Crossing zero starts afresh at the price of the crossing trade. -/
theorem within_of_le (hop : Opposes b.net t.qty) (hle : |b.net| ≤ |t.qty|)
    (hlo : lo ≤ t.unit) (hhi : t.unit ≤ hi) : (step alloc b t).Within lo hi := by
  have hrest : (0 : R) ≤ (|b.net + t.qty| : ℤ) := by exact_mod_cast abs_nonneg _
  have hl := mul_le_mul_of_nonneg_left hlo hrest
  have hu := mul_le_mul_of_nonneg_left hhi hrest
  rw [step_of_le alloc hop hle]
  constructor
  · simp only
    linarith
  · simp only
    linarith

/-- A trade within the bounds keeps them, whatever it does to the position. -/
theorem Within.step_of_unit (hfair : Fair alloc) (h : b.Within lo hi) (hlo : lo ≤ t.unit)
    (hhi : t.unit ≤ hi) : (Book.step alloc b t).Within lo hi := by
  rcases opens_or_opposes b.net t.qty with ho | hop
  · exact h.step hfair (.inl ⟨ho, hlo, hhi⟩)
  · rcases lt_or_ge |t.qty| |b.net| with hlt | hle
    · exact h.step hfair (.inr ⟨hop, hlt⟩)
    · exact within_of_le hop hle hlo hhi

/-- However many partial closes there were, the cost per unit stays within the units of the
trades that built the position. -/
theorem run_within (hfair : Fair alloc) (ts : List (Trade R))
    (h : ∀ t ∈ entries Trade.qty ts, lo ≤ t.unit ∧ t.unit ≤ hi) :
    (run alloc ts).Within lo hi := by
  induction ts using List.reverseRecOn with
  | nil => exact (sound_run alloc []).within rfl lo hi
  | append_singleton ts t ih =>
    have hnet := run_net alloc ts
    by_cases hflat : (run alloc (ts ++ [t])).net = 0
    · exact (sound_run alloc (ts ++ [t])).within hflat lo hi
    · rw [run_net, netOf_concat] at hflat
      rw [run_concat]
      rcases opens_or_opposes (netOf Trade.qty ts) t.qty with ho | hop
      · rw [entries_of_opens ho hflat] at h
        refine (ih fun u hu => h u (List.mem_append_left _ hu)).step hfair (.inl ⟨?_, ?_⟩)
        · rwa [hnet]
        · exact h t (by simp)
      · rcases lt_or_ge |t.qty| |netOf Trade.qty ts| with hlt | hle
        · rw [entries_of_lt hop hlt] at h
          exact (ih h).step hfair (.inr (by rw [hnet]; exact ⟨hop, hlt⟩))
        · rw [entries_of_le hop hle hflat] at h
          obtain ⟨hlo, hhi⟩ := h t (by simp)
          exact within_of_le (by rwa [hnet]) (by rwa [hnet]) hlo hhi

theorem value_nonneg {t : Trade R} (ht : 0 ≤ t.unit) : 0 ≤ t.value :=
  mul_nonneg (by exact_mod_cast abs_nonneg t.qty) ht

theorem traded_nonneg (s : ℤ) {ts : List (Trade R)} (h : ∀ t ∈ ts, 0 ≤ t.unit) :
    0 ≤ traded s ts := by
  apply List.sum_nonneg
  simp only [List.mem_map, List.mem_filter]
  rintro v ⟨t, ⟨ht, -⟩, rfl⟩
  exact value_nonneg (h t ht)

/-- What is open cost no more than what was traded on its side. -/
theorem run_cost_le (hfair : Fair alloc) (ts : List (Trade R)) (h : ∀ t ∈ ts, 0 ≤ t.unit) :
    0 ≤ (run alloc ts).cost ∧ (run alloc ts).cost ≤ traded (run alloc ts).net.sign ts := by
  induction ts using List.reverseRecOn with
  | nil => simp [flat, traded]
  | append_singleton ts t ih =>
    have hts : ∀ t ∈ ts, 0 ≤ t.unit := fun u hu => h u (List.mem_append_left _ hu)
    obtain ⟨h0, hle⟩ := ih hts
    have hv := value_nonneg (h t (by simp))
    unfold Trade.value at hv
    rw [run_concat]
    generalize hb : run alloc ts = b at h0 hle ⊢
    have hs : b.Sound := hb ▸ sound_run alloc ts
    rcases step_cases alloc b t with ⟨ho, heq⟩ | ⟨hop, hlt, heq⟩ | ⟨hop, hge, heq⟩
    · rw [heq]
      refine ⟨by simp only; linarith, ?_⟩
      simp only [ho.sign_add, traded_concat, if_true, Trade.value]
      rcases ho with hflat | hsame
      · rw [hs hflat]
        linarith [traded_nonneg t.qty.sign hts]
      · rw [hsame] at hle
        linarith
    · have hkeep := hfair.lower (u := 0) (abs_nonneg t.qty) hlt (by simpa using h0)
      have hpart := hfair.nonneg (abs_nonneg t.qty) hlt h0
      rw [heq]
      refine ⟨by simpa using hkeep, ?_⟩
      simp only [hop.sign_add_of_lt hlt, traded_concat, if_neg hop.sign_ne]
      linarith
    · have hu : 0 ≤ t.unit := h t (by simp)
      have hrest : ((|b.net + t.qty| : ℤ) : R) ≤ (|t.qty| : ℤ) := by
        rw [hop.abs_add_of_le hge]
        exact_mod_cast sub_le_self _ (abs_nonneg b.net)
      have hrest0 : (0 : R) ≤ (|b.net + t.qty| : ℤ) := by exact_mod_cast abs_nonneg _
      rw [heq]
      refine ⟨mul_nonneg hrest0 hu, ?_⟩
      by_cases hflat : b.net + t.qty = 0
      · simp only [hflat, abs_zero, Int.cast_zero, zero_mul]
        exact traded_nonneg _ h
      · simp only [hop.sign_add_of_le hge hflat, traded_concat, if_true, Trade.value]
        linarith [mul_le_mul_of_nonneg_right hrest hu, traded_nonneg t.qty.sign hts]

theorem run_cost_le_turnover (hfair : Fair alloc) (ts : List (Trade R))
    (h : ∀ t ∈ ts, 0 ≤ t.unit) : (run alloc ts).cost ≤ turnover ts := by
  obtain ⟨-, hle⟩ := run_cost_le hfair ts h
  have hb := traded_nonneg 1 h
  have hs := traded_nonneg (-1) h
  rw [turnover_eq]
  rcases lt_trichotomy (run alloc ts).net 0 with hn | hn | hn
  · rw [Int.sign_eq_neg_one_of_neg hn] at hle
    linarith
  · rw [sound_run alloc ts hn]
    linarith
  · rw [Int.sign_eq_one_of_pos hn] at hle
    linarith

/-- The realized profit never exceeds the turnover, in either direction. -/
theorem abs_run_realized_le (hfair : Fair alloc) (ts : List (Trade R))
    (h : ∀ t ∈ ts, 0 ≤ t.unit) : |(run alloc ts).realized| ≤ turnover ts := by
  obtain ⟨h0, hle⟩ := run_cost_le hfair ts h
  have hb := traded_nonneg 1 h
  have hs := traded_nonneg (-1) h
  rw [run_ledger, signed_sum_eq, turnover_eq, abs_le]
  rcases lt_trichotomy (run alloc ts).net 0 with hn | hn | hn
  · rw [Int.sign_eq_neg_one_of_neg hn] at hle ⊢
    constructor <;> push_cast <;> linarith
  · rw [hn]
    constructor <;> simp <;> linarith
  · rw [Int.sign_eq_one_of_pos hn] at hle ⊢
    constructor <;> push_cast <;> linarith

end Bounds

end Book

end Bitfrost.Lib

import Bitfrost.Lib.CostBasis
import Bitfrost.Lib.HalfEven

/-!
Rules of cost allocation: symmetric ones, under which a position and its
complement mirror each other; ones close to the exact proportion, whose books
track the exact books; and the half-even rule, which is all of these.
-/

namespace Bitfrost.Lib

namespace Book

/-! ## The mirror

The same trades seen from the complementary outcome: a unit and its
complement together pay `m`. -/

section Mirror

variable {R : Type*} [CommRing R] {alloc : R → ℤ → ℤ → R} {m : R}

def mirrorTrade (m : R) (t : Trade R) : Trade R := ⟨-t.qty, m - t.unit⟩

def mirror (m : R) (b : Book R) : Book R := ⟨-b.net, m * (|b.net| : ℤ) - b.cost, b.realized⟩

/-- The allocation splits the complementary cost in the complementary way. -/
def Symmetric (alloc : R → ℤ → ℤ → R) (m : R) : Prop :=
  ∀ (cost : R) (k n : ℤ), 0 ≤ k → k < n → alloc (m * n - cost) k n = m * k - alloc cost k n

theorem step_mirror (h : Symmetric alloc m) (b : Book R) (t : Trade R) :
    step alloc (b.mirror m) (mirrorTrade m t) = (step alloc b t).mirror m := by
  have hneg : -b.net + -t.qty = -(b.net + t.qty) := by ring
  rcases step_cases alloc b t with ⟨ho, heq⟩ | ⟨hop, hlt, heq⟩ | ⟨hop, hle, heq⟩
  · rw [heq, step_of_opens alloc (by exact ho.neg)]
    simp only [mirror, mirrorTrade, abs_neg, ho.abs_add, hneg, Int.cast_add]
    congr 1
    ring
  · have hsym := h b.cost _ _ (abs_nonneg t.qty) hlt
    rw [heq, step_of_lt alloc (by exact hop.neg) (by simpa [mirror, mirrorTrade])]
    simp only [mirror, mirrorTrade, abs_neg, hop.abs_add_of_lt hlt, hneg, hsym, Int.cast_sub,
      Int.sign_neg, Int.cast_neg]
    congr 1 <;> ring
  · rw [heq, step_of_le alloc (by exact hop.neg) (by simpa [mirror, mirrorTrade])]
    simp only [mirror, mirrorTrade, abs_neg, hneg, Int.sign_neg, Int.cast_neg]
    congr 1 <;> ring

theorem run_mirror (h : Symmetric alloc m) (ts : List (Trade R)) :
    run alloc (ts.map (mirrorTrade m)) = (run alloc ts).mirror m := by
  induction ts using List.reverseRecOn with
  | nil => simp [flat, mirror]
  | append_singleton ts t ih =>
    rw [List.map_append, List.map_singleton, run_concat, run_concat, ih, step_mirror h]

end Mirror

/-! ## Tracking the exact proportion -/

section Tracking

variable {K : Type*} [Field K] [LinearOrder K] [IsStrictOrderedRing K]

/-- `k` of `n` units release exactly their share of the cost. -/
def exact (cost : K) (k n : ℤ) : K := cost * k / n

def castTrade (t : Trade ℤ) : Trade K := ⟨t.qty, t.unit⟩

/-- Every allocation is within `ε` of the exact share. -/
def Near (alloc : ℤ → ℤ → ℤ → ℤ) (ε : K) : Prop :=
  ∀ cost k n : ℤ, 0 ≤ k → k < n → |(alloc cost k n : K) - exact (cost : K) k n| ≤ ε

variable {alloc : ℤ → ℤ → ℤ → ℤ} {ε : K}

omit [LinearOrder K] [IsStrictOrderedRing K] in
theorem run_net_cast (alloc : ℤ → ℤ → ℤ → ℤ) (ts : List (Trade ℤ)) :
    (run exact (ts.map castTrade) : Book K).net = (run alloc ts).net := by
  rw [run_net, run_net, netOf_map]
  rfl

/-- A partial close scales the distance from the exact cost down and adds at most `ε`. -/
theorem abs_partial_sub_le (h : Near alloc ε) {cost k n : ℤ} {ref d : K} (hk : 0 ≤ k)
    (hkn : k < n) (hd : |(cost : K) - ref| ≤ d) :
    |((cost - alloc cost k n : ℤ) : K) - (ref - exact ref k n)| ≤ d + ε := by
  have hn : (0 : K) < n := by exact_mod_cast hk.trans_lt hkn
  have hk0 : (0 : K) ≤ k := by exact_mod_cast hk
  have hkn' : (k : K) ≤ n := by exact_mod_cast hkn.le
  have hshare : |1 - (k : K) / n| ≤ 1 := by
    rw [abs_le]
    have h0 : 0 ≤ (k : K) / n := by positivity
    have h1 : (k : K) / n ≤ 1 := (div_le_one hn).mpr hkn'
    constructor <;> linarith
  have hsplit : ((cost - alloc cost k n : ℤ) : K) - (ref - exact ref k n) =
      ((cost : K) - ref) * (1 - k / n) - ((alloc cost k n : K) - exact (cost : K) k n) := by
    unfold exact
    push_cast
    field_simp
    ring
  calc |((cost - alloc cost k n : ℤ) : K) - (ref - exact ref k n)|
      ≤ |((cost : K) - ref) * (1 - k / n)| + |(alloc cost k n : K) - exact (cost : K) k n| := by
        rw [hsplit]
        exact abs_sub _ _
    _ ≤ d * 1 + ε := by
        rw [abs_mul]
        exact add_le_add
          (mul_le_mul hd hshare (abs_nonneg _) ((abs_nonneg _).trans hd)) (h _ _ _ hk hkn)
    _ = d + ε := by rw [mul_one]

/-- The cost drifts from the exact one by at most `ε` for every partial close of the episode. -/
theorem run_cost_near (h : Near alloc ε) (ts : List (Trade ℤ)) :
    |((run alloc ts).cost : K) - (run exact (ts.map castTrade) : Book K).cost| ≤
      partialCloses Trade.qty ts * ε := by
  induction ts using List.reverseRecOn with
  | nil => simp [flat, partialCloses, episode]
  | append_singleton ts t ih =>
    have hnet := run_net alloc ts
    have hnet' := (run_net_cast (K := K) alloc ts).trans hnet
    rw [List.map_append, List.map_singleton, run_concat, run_concat]
    rcases opens_or_opposes (netOf Trade.qty ts) t.qty with ho | hop
    · rw [partialCloses_of_opens ho, step_of_opens _ (by rwa [hnet]),
        step_of_opens _ (by rw [hnet']; exact ho)]
      simpa [castTrade] using ih
    · rcases lt_or_ge |t.qty| |netOf Trade.qty ts| with hlt | hle
      · rw [partialCloses_of_lt hop hlt, step_of_lt _ (by rwa [hnet]) (by rwa [hnet]),
          step_of_lt _ (by rw [hnet']; exact hop) (by rw [hnet']; exact hlt)]
        have hstep := abs_partial_sub_le h (abs_nonneg t.qty) hlt ih
        simp only [hnet, hnet', castTrade] at hstep ⊢
        refine hstep.trans_eq ?_
        push_cast
        ring
      · rw [partialCloses_of_le hop hle, step_of_le _ (by rwa [hnet]) (by rwa [hnet]),
          step_of_le _ (by rw [hnet']; exact hop) (by rw [hnet']; exact hle)]
        simp [castTrade, hnet, hnet']

/-- The same amounts feed cost and realized profit, so the profit drifts no further. -/
theorem run_realized_near (h : Near alloc ε) (ts : List (Trade ℤ)) :
    |((run alloc ts).realized : K) - (run exact (ts.map castTrade) : Book K).realized| ≤
      partialCloses Trade.qty ts * ε := by
  have hsum : ((ts.map castTrade).map fun t : Trade K => (t.qty : K) * t.unit).sum =
      (((ts.map fun t => (t.qty : ℤ) * t.unit).sum : ℤ) : K) := by
    rw [List.map_map, Int.cast_list_sum, List.map_map]
    congr 1
    apply List.map_congr_left
    intro t _
    simp [castTrade]
  have hsign : |(((run alloc ts).net.sign : ℤ) : K)| ≤ 1 := by
    rcases Int.sign_trichotomy (run alloc ts).net with hs | hs | hs <;> simp [hs]
  have hdrift : ((run alloc ts).realized : K) - (run exact (ts.map castTrade) : Book K).realized =
      (run alloc ts).net.sign *
        ((run alloc ts).cost - (run exact (ts.map castTrade) : Book K).cost) := by
    rw [run_ledger, run_ledger, hsum, run_net_cast alloc]
    push_cast
    ring
  rw [hdrift, abs_mul]
  exact (mul_le_of_le_one_left (abs_nonneg _) hsign).trans (run_cost_near h ts)

end Tracking

/-! ## The half-even rule -/

/-- The share of the cost rounded to the nearest integer, ties to even. -/
def halfEven (cost k n : ℤ) : ℤ := roundHalfEven (cost * k) n

theorem fair_halfEven : Fair halfEven where
  lower {cost u k n} hk hkn h := by
    have hn : 0 < n := hk.trans_lt hkn
    have hle : cost * k ≤ (cost - u * (n - k)) * n := by
      rw [Int.cast_id] at h
      linarith [mul_le_mul_of_nonneg_right h (sub_nonneg.mpr hkn.le)]
    have hround := roundHalfEven_le hn hle
    simp only [halfEven, Int.cast_id]
    linarith
  upper {cost u k n} hk hkn h := by
    have hn : 0 < n := hk.trans_lt hkn
    have hle : (cost - u * (n - k)) * n ≤ cost * k := by
      rw [Int.cast_id] at h
      linarith [mul_le_mul_of_nonneg_right h (sub_nonneg.mpr hkn.le)]
    have hround := le_roundHalfEven hn hle
    simp only [halfEven, Int.cast_id]
    linarith
  nonneg {cost k n} hk hkn h := by
    refine le_roundHalfEven (hk.trans_lt hkn) ?_
    rw [zero_mul]
    exact mul_nonneg h hk

theorem symmetric_halfEven {m : ℤ} (hm : Even m) : Symmetric halfEven m := by
  intro cost k n hk hkn
  have hval : (m * n - cost) * k = m * k * n - cost * k := by ring
  simp only [halfEven, Int.cast_id]
  rw [hval, roundHalfEven_sub (hk.trans_lt hkn) (hm.mul_right k)]

theorem near_halfEven {K : Type*} [Field K] [LinearOrder K] [IsStrictOrderedRing K] :
    Near halfEven (1 / 2 : K) := by
  intro cost k n hk hkn
  have h := abs_roundHalfEven_sub_le (K := K) (cost * k) (hk.trans_lt hkn)
  rwa [Int.cast_mul] at h

end Book

end Bitfrost.Lib

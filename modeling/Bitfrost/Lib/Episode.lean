import Mathlib

/-!
Signed positions and the trades that build them. A trade opens or opposes a
position; an episode is what happened to a position since it was last flat or
last crossed zero, the crossing trade included.
-/

namespace Bitfrost.Lib

/-! ## Signs -/

/-- A trade of `qty` opens or adds to a position of `net`. -/
def Opens (net qty : ℤ) : Prop := net = 0 ∨ net.sign = qty.sign

/-- A trade of `qty` is not on the side of the open position `net`. -/
def Opposes (net qty : ℤ) : Prop := (0 < net ∧ qty ≤ 0) ∨ (net < 0 ∧ 0 ≤ qty)

instance (net qty : ℤ) : Decidable (Opens net qty) := inferInstanceAs (Decidable (_ ∨ _))

section Signs

variable {net qty : ℤ}

theorem opens_or_opposes (net qty : ℤ) : Opens net qty ∨ Opposes net qty := by
  unfold Opens Opposes
  rcases lt_trichotomy net 0 with hn | hn | hn
  · rcases lt_or_ge qty 0 with hq | hq
    · exact .inl (.inr (by rw [Int.sign_eq_neg_one_of_neg hn, Int.sign_eq_neg_one_of_neg hq]))
    · exact .inr (.inr ⟨hn, hq⟩)
  · exact .inl (.inl hn)
  · rcases le_or_gt qty 0 with hq | hq
    · exact .inr (.inl ⟨hn, hq⟩)
    · exact .inl (.inr (by rw [Int.sign_eq_one_of_pos hn, Int.sign_eq_one_of_pos hq]))

theorem Opposes.not_opens (h : Opposes net qty) : ¬ Opens net qty := by
  rintro (rfl | hs)
  · rcases h with ⟨hn, -⟩ | ⟨hn, -⟩ <;> exact lt_irrefl 0 hn
  · rcases h with ⟨hn, hq⟩ | ⟨hn, hq⟩
    · rw [Int.sign_eq_one_of_pos hn, eq_comm, Int.sign_eq_one_iff_pos] at hs
      omega
    · rw [Int.sign_eq_neg_one_of_neg hn, eq_comm, Int.sign_eq_neg_one_iff_neg] at hs
      omega

theorem Opens.sign_add (h : Opens net qty) : (net + qty).sign = qty.sign := by
  rcases h with rfl | h
  · rw [zero_add]
  · rcases lt_trichotomy qty 0 with hq | rfl | hq
    · rw [Int.sign_eq_neg_one_of_neg hq, Int.sign_eq_neg_one_iff_neg] at h
      rw [Int.sign_eq_neg_one_of_neg hq, Int.sign_eq_neg_one_of_neg (by omega)]
    · simpa using h
    · rw [Int.sign_eq_one_of_pos hq, Int.sign_eq_one_iff_pos] at h
      rw [Int.sign_eq_one_of_pos hq, Int.sign_eq_one_of_pos (by omega)]

theorem Opens.abs_add (h : Opens net qty) : |net + qty| = |net| + |qty| := by
  rcases h with rfl | h
  · simp
  · rw [abs_add_eq_add_abs_iff]
    rcases lt_trichotomy qty 0 with hq | rfl | hq
    · rw [Int.sign_eq_neg_one_of_neg hq, Int.sign_eq_neg_one_iff_neg] at h
      exact .inr ⟨h.le, hq.le⟩
    · simp only [Int.sign_zero, Int.sign_eq_zero_iff_zero] at h
      exact .inl ⟨h.ge, le_rfl⟩
    · rw [Int.sign_eq_one_of_pos hq, Int.sign_eq_one_iff_pos] at h
      exact .inl ⟨h.le, hq.le⟩

theorem Opens.neg (h : Opens net qty) : Opens (-net) (-qty) := by
  rcases h with rfl | h
  · exact .inl neg_zero
  · exact .inr (by rw [Int.sign_neg, Int.sign_neg, h])

theorem Opposes.neg (h : Opposes net qty) : Opposes (-net) (-qty) := by
  rcases h with ⟨hn, hq⟩ | ⟨hn, hq⟩
  · exact .inr ⟨by omega, by omega⟩
  · exact .inl ⟨by omega, by omega⟩

theorem Opposes.net_ne_zero (h : Opposes net qty) : net ≠ 0 := by
  rcases h with ⟨hn, -⟩ | ⟨hn, -⟩ <;> omega

theorem Opposes.qty_eq (h : Opposes net qty) : qty = -(net.sign * |qty|) := by
  rcases h with ⟨hn, hq⟩ | ⟨hn, hq⟩
  · rw [Int.sign_eq_one_of_pos hn, abs_of_nonpos hq]
    ring
  · rw [Int.sign_eq_neg_one_of_neg hn, abs_of_nonneg hq]
    ring

theorem Opposes.sign_ne (h : Opposes net qty) : qty.sign ≠ net.sign := fun hs =>
  h.not_opens (.inr hs.symm)

/-- A partial close stays on its side. -/
theorem Opposes.sign_add_of_lt (h : Opposes net qty) (hlt : |qty| < |net|) :
    (net + qty).sign = net.sign := by
  rcases h with ⟨hn, hq⟩ | ⟨hn, hq⟩
  · rw [abs_of_nonpos hq, abs_of_pos hn] at hlt
    rw [Int.sign_eq_one_of_pos hn, Int.sign_eq_one_of_pos (by omega)]
  · rw [abs_of_nonneg hq, abs_of_neg hn] at hlt
    rw [Int.sign_eq_neg_one_of_neg hn, Int.sign_eq_neg_one_of_neg (by omega)]

theorem Opposes.abs_add_of_lt (h : Opposes net qty) (hlt : |qty| < |net|) :
    |net + qty| = |net| - |qty| := by
  rcases h with ⟨hn, hq⟩ | ⟨hn, hq⟩
  · rw [abs_of_nonpos hq, abs_of_pos hn] at hlt ⊢
    rw [abs_of_pos (by omega)]
    omega
  · rw [abs_of_nonneg hq, abs_of_neg hn] at hlt ⊢
    rw [abs_of_neg (by omega)]
    omega

theorem Opposes.add_ne_zero_of_lt (h : Opposes net qty) (hlt : |qty| < |net|) :
    net + qty ≠ 0 := by
  rw [← abs_pos, h.abs_add_of_lt hlt]
  omega

/-- A trade at least as large as the position leaves the rest on its own side. -/
theorem Opposes.sign_add_of_le (h : Opposes net qty) (hle : |net| ≤ |qty|)
    (hne : net + qty ≠ 0) : (net + qty).sign = qty.sign := by
  rcases h with ⟨hn, hq⟩ | ⟨hn, hq⟩
  · rw [abs_of_nonpos hq, abs_of_pos hn] at hle
    rw [Int.sign_eq_neg_one_of_neg (by omega), Int.sign_eq_neg_one_of_neg (by omega)]
  · rw [abs_of_nonneg hq, abs_of_neg hn] at hle
    rw [Int.sign_eq_one_of_pos (by omega), Int.sign_eq_one_of_pos (by omega)]

theorem Opposes.abs_add_of_le (h : Opposes net qty) (hle : |net| ≤ |qty|) :
    |net + qty| = |qty| - |net| := by
  rcases h with ⟨hn, hq⟩ | ⟨hn, hq⟩
  · rw [abs_of_nonpos hq, abs_of_pos hn] at hle ⊢
    rw [abs_of_nonpos (by omega)]
    omega
  · rw [abs_of_nonneg hq, abs_of_neg hn] at hle ⊢
    rw [abs_of_nonneg (by omega)]
    omega

end Signs

/-! ## Episodes -/

section Episodes

variable {ι κ : Type*} (qty : ι → ℤ)

def netOf (ts : List ι) : ℤ := (ts.map qty).sum

def episodeStep (s : ℤ × List ι) (t : ι) : ℤ × List ι :=
  (s.1 + qty t,
    if s.1 + qty t = 0 then []
    else if (s.1 + qty t).sign = s.1.sign then s.2 ++ [t]
    else [t])

def episode (ts : List ι) : List ι := (ts.foldl (episodeStep qty) (0, [])).2

/-- The trades of the episode on the side of the position: they opened it or added to it. -/
def entries (ts : List ι) : List ι :=
  (episode qty ts).filter fun t => (qty t).sign = (netOf qty ts).sign

/-- The number of trades of the episode against the position. -/
def partialCloses (ts : List ι) : ℕ :=
  ((episode qty ts).filter fun t => (qty t).sign ≠ (netOf qty ts).sign).length

variable (ts : List ι) (t : ι)

@[simp] theorem netOf_nil : netOf qty [] = 0 := rfl

@[simp] theorem netOf_concat : netOf qty (ts ++ [t]) = netOf qty ts + qty t := by simp [netOf]

theorem netOf_map (f : κ → ι) (ts : List κ) : netOf qty (ts.map f) = netOf (qty ∘ f) ts := by
  simp [netOf]

theorem abs_netOf_le : |netOf qty ts| ≤ (ts.map fun t => |qty t|).sum := by
  induction ts with
  | nil => simp
  | cons t ts ih =>
    rw [netOf, List.map_cons, List.sum_cons, List.map_cons, List.sum_cons]
    exact (abs_add_le _ _).trans (add_le_add_right ih _)

theorem episode_fold : ts.foldl (episodeStep qty) (0, []) = (netOf qty ts, episode qty ts) := by
  refine Prod.ext ?_ rfl
  induction ts using List.reverseRecOn with
  | nil => rfl
  | append_singleton ts t ih =>
    rw [List.foldl_concat, netOf_concat]
    exact congrArg (· + qty t) ih

theorem episode_concat :
    episode qty (ts ++ [t]) =
      if netOf qty ts + qty t = 0 then []
      else if (netOf qty ts + qty t).sign = (netOf qty ts).sign then episode qty ts ++ [t]
      else [t] := by
  rw [episode, List.foldl_concat, episode_fold]
  rfl

theorem episode_map (f : κ → ι) (ts : List κ) :
    episode qty (ts.map f) = (episode (qty ∘ f) ts).map f := by
  induction ts using List.reverseRecOn with
  | nil => rfl
  | append_singleton ts t ih =>
    rw [List.map_append, List.map_singleton, episode_concat, episode_concat, netOf_map, ih]
    simp only [Function.comp_apply]
    split
    · rfl
    · split <;> simp

theorem entries_map (f : κ → ι) (ts : List κ) :
    entries qty (ts.map f) = (entries (qty ∘ f) ts).map f := by
  rw [entries, episode_map, netOf_map, List.filter_map]
  rfl

theorem partialCloses_map (f : κ → ι) (ts : List κ) :
    partialCloses qty (ts.map f) = partialCloses (qty ∘ f) ts := by
  rw [partialCloses, episode_map, netOf_map, List.filter_map, List.length_map]
  rfl

variable {qty ts t}

theorem episode_flat (h : netOf qty ts = 0) : episode qty ts = [] := by
  cases ts using List.reverseRecOn with
  | nil => rfl
  | append_singleton ts t =>
    rw [netOf_concat] at h
    rw [episode_concat, if_pos h]

theorem episode_of_opens (h : Opens (netOf qty ts) (qty t)) (hne : netOf qty ts + qty t ≠ 0) :
    episode qty (ts ++ [t]) = episode qty ts ++ [t] := by
  rw [episode_concat, if_neg hne]
  rcases h with hflat | hs
  · rw [episode_flat hflat, List.nil_append, ite_self]
  · rw [if_pos (by rw [Opens.sign_add (.inr hs), hs])]

theorem episode_of_lt (h : Opposes (netOf qty ts) (qty t))
    (hlt : |qty t| < |netOf qty ts|) : episode qty (ts ++ [t]) = episode qty ts ++ [t] := by
  rw [episode_concat, if_neg (h.add_ne_zero_of_lt hlt), if_pos (h.sign_add_of_lt hlt)]

theorem episode_of_le (h : Opposes (netOf qty ts) (qty t))
    (hle : |netOf qty ts| ≤ |qty t|) (hne : netOf qty ts + qty t ≠ 0) :
    episode qty (ts ++ [t]) = [t] := by
  rw [episode_concat, if_neg hne, if_neg]
  rw [h.sign_add_of_le hle hne]
  exact h.sign_ne

theorem entries_of_opens (h : Opens (netOf qty ts) (qty t)) (hne : netOf qty ts + qty t ≠ 0) :
    entries qty (ts ++ [t]) = entries qty ts ++ [t] := by
  rw [entries, episode_of_opens h hne, netOf_concat, h.sign_add, List.filter_append]
  rcases h with hflat | hs
  · simp [entries, episode_flat hflat]
  · simp [entries, hs]

theorem entries_of_lt (h : Opposes (netOf qty ts) (qty t))
    (hlt : |qty t| < |netOf qty ts|) : entries qty (ts ++ [t]) = entries qty ts := by
  rw [entries, episode_of_lt h hlt, netOf_concat, h.sign_add_of_lt hlt, List.filter_append]
  simp [entries, h.sign_ne]

theorem entries_of_le (h : Opposes (netOf qty ts) (qty t))
    (hle : |netOf qty ts| ≤ |qty t|) (hne : netOf qty ts + qty t ≠ 0) :
    entries qty (ts ++ [t]) = [t] := by
  rw [entries, episode_of_le h hle hne, netOf_concat, h.sign_add_of_le hle hne]
  simp

/-- An open position has an entry. -/
theorem entries_ne_nil (h : netOf qty ts ≠ 0) : entries qty ts ≠ [] := by
  induction ts using List.reverseRecOn with
  | nil => exact absurd rfl h
  | append_singleton ts t ih =>
    rw [netOf_concat] at h
    rcases opens_or_opposes (netOf qty ts) (qty t) with ho | hop
    · rw [entries_of_opens ho h]
      simp
    · rcases lt_or_ge |qty t| |netOf qty ts| with hlt | hle
      · rw [entries_of_lt hop hlt]
        exact ih hop.net_ne_zero
      · rw [entries_of_le hop hle h]
        simp

theorem partialCloses_of_opens (h : Opens (netOf qty ts) (qty t)) :
    partialCloses qty (ts ++ [t]) = partialCloses qty ts := by
  by_cases hne : netOf qty ts + qty t = 0
  · have habs := h.abs_add
    have hflat : netOf qty ts = 0 := by
      rw [hne, abs_zero] at habs
      have := abs_nonneg (netOf qty ts)
      have := abs_nonneg (qty t)
      exact abs_eq_zero.mp (by omega)
    rw [partialCloses, partialCloses, episode_flat (by rw [netOf_concat, hne]), episode_flat hflat]
    rfl
  · rw [partialCloses, episode_of_opens h hne, netOf_concat, h.sign_add, List.filter_append]
    rcases h with hflat | hs
    · simp [partialCloses, episode_flat hflat]
    · simp [partialCloses, hs]

theorem partialCloses_of_lt (h : Opposes (netOf qty ts) (qty t))
    (hlt : |qty t| < |netOf qty ts|) :
    partialCloses qty (ts ++ [t]) = partialCloses qty ts + 1 := by
  rw [partialCloses, episode_of_lt h hlt, netOf_concat, h.sign_add_of_lt hlt,
    List.filter_append]
  simp [partialCloses, h.sign_ne]

theorem partialCloses_of_le (h : Opposes (netOf qty ts) (qty t))
    (hle : |netOf qty ts| ≤ |qty t|) : partialCloses qty (ts ++ [t]) = 0 := by
  by_cases hne : netOf qty ts + qty t = 0
  · rw [partialCloses, episode_flat (by rw [netOf_concat, hne])]
    rfl
  · rw [partialCloses, episode_of_le h hle hne, netOf_concat, h.sign_add_of_le hle hne]
    simp

theorem partialCloses_flat (h : netOf qty ts = 0) : partialCloses qty ts = 0 := by
  rw [partialCloses, episode_flat h]
  rfl

end Episodes

end Bitfrost.Lib

import Bitfrost.Lib.Lanes
import Bitfrost.Sequencer

/-!
The published tape. The abstract merger keeps, for each lane, the accepted
events, and the events published so far; the sequencer refines it: what is
published is sorted by `SORT_KEY`, precedes everything that is buffered or
can still arrive, and nothing is lost.
-/

namespace Bitfrost.Sequencer

open Bitfrost.Lib

/-- `SORT_KEY = (recv_ts, venue priority, venue_seq)`. -/
def sortKey (p : UInt64 × Fill) : UInt64 ×ₗ (Venue ×ₗ UInt64) :=
  toLex (p.1, toLex (p.2.venue, p.2.seq))

def stamped (e : SequencedFill) : UInt64 × Fill := (e.recvTs, e.fill)

/-- The tape of a list of events: `global_seq` counts from one. -/
def number (pub : List (UInt64 × Fill)) : List SequencedFill :=
  pub.mapIdx fun i p => ⟨UInt64.ofNat (i + 1), p.1, p.2⟩

theorem sortKey_lt {p q : UInt64 × Fill} :
    sortKey p < sortKey q ↔
      p.1 < q.1 ∨ p.1 = q.1 ∧
        (p.2.venue < q.2.venue ∨ p.2.venue = q.2.venue ∧ p.2.seq < q.2.seq) := by
  simp [sortKey, Prod.Lex.toLex_lt_toLex]

theorem number_concat (pub : List (UInt64 × Fill)) (p : UInt64 × Fill) :
    number (pub ++ [p]) = number pub ++ [⟨UInt64.ofNat (pub.length + 1), p.1, p.2⟩] := by
  simp [number, List.mapIdx_concat]

/-- Events of one lane arrive in stamp order, with increasing sequence numbers. -/
def LaneLt (p q : UInt64 × Fill) : Prop := p.1 ≤ q.1 ∧ p.2.seq < q.2.seq

/-- The sequencer `s` has accepted `acc` on its lanes and published `pub`. -/
structure Merged (acc : Venue → List (UInt64 × Fill)) (pub : List (UInt64 × Fill))
    (s : Sequencer) : Prop where
  conserve : ∀ v, pub.filter (·.2.venue = v) ++ (s.lanes v).buffer = acc v
  ownVenue : ∀ v, ∀ p ∈ acc v, p.2.venue = v
  laneOrder : ∀ v, (acc v).Pairwise LaneLt
  reached : ∀ v, ∀ p ∈ acc v, p.1 ≤ (s.lanes v).frontier
  lastSeq : ∀ v, (s.lanes v).lastSeq = (acc v).getLast?.map (·.2.seq)
  ordered : pub.Pairwise fun p q => sortKey p < sortKey q
  ahead : ∀ p ∈ pub, ∀ v, ∀ q ∈ (s.lanes v).buffer, sortKey p < sortKey q
  barrier : s.sealed = false → ∀ p ∈ pub, ∀ v, v ≠ p.2.venue →
    p.1 ≤ (s.lanes v).frontier ∧ (v < p.2.venue → p.1 < (s.lanes v).frontier)
  next : s.nextGlobalSeq = UInt64.ofNat (pub.length + 1)

section Steps

variable {acc : Venue → List (UInt64 × Fill)} {pub : List (UInt64 × Fill)} {s : Sequencer}

theorem Merged.mem_acc_of_pub (h : Merged acc pub s) {p : UInt64 × Fill} (hp : p ∈ pub) :
    p ∈ acc p.2.venue := by
  rw [← h.conserve]
  exact List.mem_append_left _ (List.mem_filter.mpr ⟨hp, by simp⟩)

theorem Merged.mem_acc_of_buffer (h : Merged acc pub s) {v : Venue} {p : UInt64 × Fill}
    (hp : p ∈ (s.lanes v).buffer) : p ∈ acc v := by
  rw [← h.conserve]
  exact List.mem_append_right _ hp

/-- Every accepted event of the lane is at or below its last sequence number. -/
theorem Merged.seq_le_lastSeq (h : Merged acc pub s) {v : Venue} {p : UInt64 × Fill}
    (hp : p ∈ acc v) : ∃ l, (s.lanes v).lastSeq = some l ∧ p.2.seq ≤ l := by
  rw [h.lastSeq]
  have ho := h.laneOrder v
  rcases List.eq_nil_or_concat (acc v) with hnil | ⟨pre, q, hcat⟩
  · simp [hnil] at hp
  · rw [hcat, List.concat_eq_append] at hp ho ⊢
    refine ⟨q.2.seq, by simp, ?_⟩
    rcases List.mem_append.mp hp with hpre | hlast
    · exact ((List.pairwise_append.mp ho).2.2 p hpre q (by simp)).2.le
    · rw [List.mem_singleton.mp hlast]

theorem merged_new : Merged (fun _ => []) [] Sequencer.new where
  conserve v := rfl
  ownVenue v p hp := by cases hp
  laneOrder v := List.Pairwise.nil
  reached v p hp := by cases hp
  lastSeq v := rfl
  ordered := List.Pairwise.nil
  ahead p hp := by cases hp
  barrier _ p hp := by cases hp
  next := rfl

/-- An admitted event sorts after everything published: its own lane is in order, and the
frontier of every other lane has been passed. -/
theorem Merged.pub_lt_admitted (h : Merged acc pub s) (hs : s.sealed = false) {v : Venue}
    {t : UInt64} {f : Fill} (ha : (s.lanes v).guards v t f = .ok ()) {p : UInt64 × Fill}
    (hp : p ∈ pub) : sortKey p < sortKey (t, f) := by
  obtain ⟨hv, hf, hseq⟩ := Lane.guards_eq_ok.mp ha
  rw [sortKey_lt]
  by_cases hpv : p.2.venue = v
  · have hacc := hpv ▸ h.mem_acc_of_pub hp
    have hle : p.1 ≤ t := le_trans (h.reached v p hacc) hf
    obtain ⟨l, hl, hpl⟩ := h.seq_le_lastSeq hacc
    rcases hle.lt_or_eq with hlt | heq
    · exact .inl hlt
    · exact .inr ⟨heq, .inr ⟨hpv.trans hv.symm, lt_of_le_of_lt hpl (hseq l hl)⟩⟩
  · obtain ⟨hle, hlt⟩ := h.barrier hs p hp v (Ne.symm hpv)
    rcases lt_or_gt_of_ne hpv with hvp | hvp
    · rcases (le_trans hle hf).lt_or_eq with hlt' | heq
      · exact .inl hlt'
      · exact .inr ⟨heq, .inl (hv ▸ hvp)⟩
    · exact .inl (lt_of_lt_of_le (hlt hvp) hf)

theorem Merged.push (h : Merged acc pub s) (hs : s.sealed = false) {v : Venue} {t : UInt64}
    {f : Fill} (ha : (s.lanes v).guards v t f = .ok ()) :
    Merged (Function.update acc v (acc v ++ [(t, f)])) pub
      (s.setLane v ((s.lanes v).enqueue t f)) := by
  obtain ⟨hv, hf, hseq⟩ := Lane.guards_eq_ok.mp ha
  refine ⟨?_, ?_, ?_, ?_, ?_, h.ordered, ?_, ?_, h.next⟩
  · intro w
    by_cases hw : w = v
    · subst hw
      simp [Lane.enqueue, ← h.conserve]
    · simp [setLane_lanes, hw, h.conserve]
  · intro w p hp
    by_cases hw : w = v
    · subst hw
      simp only [Function.update_self, List.mem_append, List.mem_singleton] at hp
      rcases hp with hp | rfl
      · exact h.ownVenue w p hp
      · exact hv
    · rw [Function.update_of_ne hw] at hp
      exact h.ownVenue w p hp
  · intro w
    by_cases hw : w = v
    · subst hw
      rw [Function.update_self, List.pairwise_append]
      refine ⟨h.laneOrder w, List.pairwise_singleton _ _, ?_⟩
      intro p hp q hq
      rw [List.mem_singleton.mp hq]
      obtain ⟨l, hl, hpl⟩ := h.seq_le_lastSeq hp
      exact ⟨le_trans (h.reached w p hp) hf, lt_of_le_of_lt hpl (hseq l hl)⟩
    · rw [Function.update_of_ne hw]
      exact h.laneOrder w
  · intro w p hp
    by_cases hw : w = v
    · subst hw
      simp only [Function.update_self, List.mem_append, List.mem_singleton] at hp
      rw [setLane_lanes_self]
      rcases hp with hp | rfl
      · exact le_trans (h.reached w p hp) hf
      · exact le_rfl
    · rw [Function.update_of_ne hw] at hp
      rw [setLane_lanes, if_neg hw]
      exact h.reached w p hp
  · intro w
    by_cases hw : w = v
    · subst hw
      simp [Lane.enqueue]
    · simp [setLane_lanes, hw, h.lastSeq]
  · intro p hp w q hq
    by_cases hw : w = v
    · subst hw
      simp only [setLane_lanes_self, Lane.enqueue, List.mem_append, List.mem_singleton] at hq
      rcases hq with hq | rfl
      · exact h.ahead p hp w q hq
      · exact h.pub_lt_admitted hs ha hp
    · rw [setLane_lanes, if_neg hw] at hq
      exact h.ahead p hp w q hq
  · intro _ p hp w hw
    obtain ⟨hle, hlt⟩ := h.barrier hs p hp w hw
    by_cases hwv : w = v
    · subst hwv
      rw [setLane_lanes_self]
      exact ⟨le_trans hle hf, fun hwp => lt_of_lt_of_le (hlt hwp) hf⟩
    · rw [setLane_lanes, if_neg hwv]
      exact ⟨hle, hlt⟩

theorem Merged.tick (h : Merged acc pub s) (v : Venue) (t : UInt64) :
    Merged acc pub (s.tick v t) := by
  have hmono : ∀ w, (s.lanes w).frontier ≤ ((s.tick v t).lanes w).frontier := by
    intro w
    rw [tick_lanes]
    dsimp only
    split
    · exact le_max_left _ _
    · exact le_rfl
  refine ⟨?_, h.ownVenue, h.laneOrder, ?_, ?_, h.ordered, ?_, ?_, h.next⟩
  · intro w
    rw [tick_lanes]
    exact h.conserve w
  · intro w p hp
    exact le_trans (h.reached w p hp) (hmono w)
  · intro w
    rw [tick_lanes]
    exact h.lastSeq w
  · intro p hp w q hq
    rw [tick_lanes] at hq
    exact h.ahead p hp w q hq
  · intro hs p hp w hw
    obtain ⟨hle, hlt⟩ := h.barrier hs p hp w hw
    exact ⟨le_trans hle (hmono w), fun hwp => lt_of_lt_of_le (hlt hwp) (hmono w)⟩

/-- The popped head sorts before everything left in the buffers. -/
theorem Merged.head_lt_buffered (h : Merged acc pub s) {v : Venue} {p : UInt64 × Fill}
    {rest : List (UInt64 × Fill)} (hbuf : (s.lanes v).buffer = p :: rest)
    (hmin : ∀ w q, q ∈ (s.lanes w).buffer.head? → w ≠ v → p.1 ≤ q.1 ∧ (w < v → p.1 < q.1))
    {w : Venue} {q : UInt64 × Fill} (hq : q ∈ if w = v then rest else (s.lanes w).buffer) :
    sortKey p < sortKey q := by
  have hbuffer : ∀ u, (s.lanes u).buffer.Pairwise LaneLt := fun u =>
    (List.pairwise_append.mp (h.conserve u ▸ h.laneOrder u)).2.1
  have hpv : p.2.venue = v := h.ownVenue v p (h.mem_acc_of_buffer (by simp [hbuf]))
  rw [sortKey_lt]
  by_cases hw : w = v
  · rw [if_pos hw] at hq
    have hqv : q.2.venue = v := h.ownVenue v q (h.mem_acc_of_buffer (by simp [hbuf, hq]))
    obtain ⟨hle, hseq⟩ := List.rel_of_pairwise_cons (hbuf ▸ hbuffer v) hq
    rcases hle.lt_or_eq with hlt | heq
    · exact .inl hlt
    · exact .inr ⟨heq, .inr ⟨hpv.trans hqv.symm, hseq⟩⟩
  · rw [if_neg hw] at hq
    have hqw : q.2.venue = w := h.ownVenue w q (h.mem_acc_of_buffer hq)
    obtain ⟨r, tail, hcons⟩ := List.exists_cons_of_ne_nil (List.ne_nil_of_mem hq)
    obtain ⟨hle, hlt⟩ := hmin w r (by simp [hcons]) hw
    have hrq : r.1 ≤ q.1 := by
      rw [hcons] at hq
      rcases List.mem_cons.mp hq with rfl | htail
      · exact le_rfl
      · exact (List.rel_of_pairwise_cons (hcons ▸ hbuffer w) htail).1
    rcases lt_or_gt_of_ne hw with hwv | hvw
    · exact .inl (lt_of_lt_of_le (hlt hwv) hrq)
    · rcases (le_trans hle hrq).lt_or_eq with hlt' | heq
      · exact .inl hlt'
      · exact .inr ⟨heq, .inl (by rw [hpv, hqw]; exact hvw)⟩

theorem Merged.drainStep {gated : Bool} (h : Merged acc pub s)
    (hg : gated = true ∨ s.sealed = true) {e : SequencedFill} {s' : Sequencer}
    (hd : Sequencer.drainStep gated s = some (e, s')) :
    Merged acc (pub ++ [stamped e]) s' ∧ s'.sealed = s.sealed ∧
      e.globalSeq = UInt64.ofNat (pub.length + 1) := by
  obtain ⟨v, rest, hbuf, hgs, rfl, hmin, hemit⟩ := drainStep_eq_some hd
  change (s.lanes v).buffer = stamped e :: rest at hbuf
  have hmem : stamped e ∈ (s.lanes v).buffer := by simp [hbuf]
  have hev : e.fill.venue = v := h.ownVenue v _ (h.mem_acc_of_buffer hmem)
  have hlanes : ∀ w, (s.setLane v { s.lanes v with buffer := rest }).lanes w =
      { s.lanes w with buffer := if w = v then rest else (s.lanes w).buffer } := by
    intro w
    rw [setLane_lanes]
    split
    · next hw => subst hw; rfl
    · rfl
  refine ⟨⟨?_, h.ownVenue, h.laneOrder, ?_, ?_, ?_, ?_, ?_, ?_⟩, rfl, hgs.trans h.next⟩
  · intro w
    dsimp only
    rw [hlanes, ← h.conserve]
    by_cases hw : w = v
    · subst hw
      simp [hbuf, stamped, hev]
    · have hne : e.fill.venue ≠ w := fun he => hw (he.symm.trans hev)
      simp [hw, stamped, hne]
  · intro w p hp
    dsimp only
    rw [hlanes]
    exact h.reached w p hp
  · intro w
    dsimp only
    rw [hlanes]
    exact h.lastSeq w
  · rw [List.pairwise_append]
    refine ⟨h.ordered, List.pairwise_singleton _ _, ?_⟩
    intro p hp q hq
    rw [List.mem_singleton.mp hq]
    exact h.ahead p hp v _ hmem
  · intro p hp w q hq
    dsimp only at hq
    rw [hlanes] at hq
    rcases List.mem_append.mp hp with hp | hp
    · refine h.ahead p hp w q ?_
      by_cases hw : w = v
      · subst hw
        rw [hbuf]
        exact List.mem_cons_of_mem _ (by simpa using hq)
      · simpa [hw] using hq
    · rw [List.mem_singleton.mp hp]
      exact h.head_lt_buffered hbuf hmin hq
  · intro hs p hp w hw
    dsimp only at hs ⊢
    rw [hlanes]
    rcases List.mem_append.mp hp with hp | hp
    · exact h.barrier hs p hp w hw
    · rw [List.mem_singleton.mp hp] at hw ⊢
      rcases hg with hg | hg
      · have hall := (emittable_iff s v e.recvTs).mp (hemit hg)
        obtain ⟨hle, hlt⟩ := hall w (by rw [← hev]; exact hw)
        exact ⟨hle, fun h => hlt (hev ▸ h)⟩
      · rw [setLane_sealed, hg] at hs
        cases hs
  · dsimp only
    rw [h.next]
    simp [UInt64.ofNat_add]

/-- A whole drain publishes a numbered continuation of the tape. -/
theorem Merged.drain (gated : Bool) (h : Merged acc pub s)
    (hg : gated = true ∨ s.sealed = true) :
    Merged acc (pub ++ (s.drain gated).1.map stamped) (s.drain gated).2 ∧
      (s.drain gated).2.sealed = s.sealed ∧
      number pub ++ (s.drain gated).1 = number (pub ++ (s.drain gated).1.map stamped) := by
  have hrun := drainLoop_keeps gated
    (fun out t => Merged acc (pub ++ out.map stamped) t ∧ t.sealed = s.sealed ∧
      number pub ++ out = number (pub ++ out.map stamped))
    (by
      intro out t e t' ⟨hm, hs, hn⟩ hd
      obtain ⟨hm', hs', he⟩ := hm.drainStep (hs ▸ hg) hd
      refine ⟨by simpa using hm', hs'.trans hs, ?_⟩
      rw [List.map_append, List.map_singleton, ← List.append_assoc, ← List.append_assoc,
        number_concat, hn, ← he]
      rfl)
    s.depth [] s ⟨by simpa using h, rfl, by simp⟩
  simpa [Sequencer.drain] using hrun

theorem Merged.seal (h : Merged acc pub s) : Merged acc pub { s with «sealed» := true } :=
  ⟨h.conserve, h.ownVenue, h.laneOrder, h.reached, h.lastSeq, h.ordered, h.ahead,
    fun hs => absurd hs (by simp), h.next⟩

end Steps

/-! ## Whole runs -/

/-- The `(recv_ts, fill)` of a successful push, on whichever lane. -/
def acceptsAny : Op × Reply → Option (UInt64 × Fill)
  | (.push _ recvTs fill, .pushed (.ok ())) => some (recvTs, fill)
  | _ => none

/-- All successful pushes, in push order. -/
def pushed (hist : History) : List (UInt64 × Fill) := hist.filterMap acceptsAny

/-- An entry is a successful push, or accepts nothing on any lane. -/
theorem accepts_cases (entry : Op × Reply) :
    (∃ lane t f, entry = (.push lane t f, .pushed (.ok ()))) ∨
      (acceptsAny entry = none ∧ ∀ v, accepts v entry = none) := by
  obtain ⟨op, reply⟩ := entry
  cases op with
  | push lane t f =>
    cases reply with
    | pushed result =>
      cases result with
      | ok u => exact .inl ⟨lane, t, f, rfl⟩
      | error e => exact .inr ⟨rfl, fun _ => rfl⟩
    | ticked => exact .inr ⟨rfl, fun _ => rfl⟩
    | drained out => exact .inr ⟨rfl, fun _ => rfl⟩
  | tick lane t => exact .inr ⟨rfl, fun _ => rfl⟩
  | drainReady => exact .inr ⟨rfl, fun _ => rfl⟩
  | flush => exact .inr ⟨rfl, fun _ => rfl⟩

theorem filter_pushed {hist : History} (h : ∀ v, ∀ p ∈ accepted v hist, p.2.venue = v)
    (v : Venue) : (pushed hist).filter (·.2.venue = v) = accepted v hist := by
  induction hist with
  | nil => rfl
  | cons entry hist ih =>
    have htail := ih fun w p hp => h w p (by simp [hp])
    rw [pushed] at htail ⊢
    rcases accepts_cases entry with ⟨lane, t, f, rfl⟩ | ⟨hany, hnone⟩
    · have hv : f.venue = lane := h lane (t, f) (by simp [accepts])
      have hany : acceptsAny (.push lane t f, .pushed (.ok ())) = some (t, f) := rfl
      rw [List.filterMap_cons_some hany, List.filter_cons, accepted_cons, htail]
      by_cases hl : lane = v <;> simp [accepts, hv, hl]
    · rw [List.filterMap_cons_none hany, htail, accepted_cons, hnone]
      rfl

/-- What the history says about the state it leads to. -/
structure Consistent (hist : History) (s : Sequencer) : Prop where
  merged : Merged (accepted · hist) ((tape hist).map stamped) s
  numbered : tape hist = number ((tape hist).map stamped)
  closed : s.sealed = true ↔ Op.flush ∈ hist.map Prod.fst
  drained : s.sealed = true → ∀ v, (s.lanes v).buffer = []

theorem drain_of_empty (gated : Bool) {s : Sequencer} (h : ∀ v, (s.lanes v).buffer = []) :
    s.drain gated = ([], s) := by
  simp [drain, depth_eq_zero.mpr h, drainLoop]

theorem flush_empty (s : Sequencer) (v : Venue) : (s.flush.2.lanes v).buffer = [] := by
  have hdone := drain_done false { s with «sealed» := true }
  rcases drainStep_eq_none.mp hdone with h | ⟨hg, -⟩
  · exact h v
  · cases hg

theorem consistent_push {hist : History} {s : Sequencer} (h : Consistent hist s) (v : Venue)
    (t : UInt64) (f : Fill) :
    Consistent (hist ++ [(.push v t f, (step s (.push v t f)).1)]) (step s (.push v t f)).2 := by
  simp only [step]
  rcases push_cases s v t f with ⟨e, hp⟩ | ⟨hs, ha, hp⟩
  · rw [hp]
    refine ⟨?_, ?_, ?_, h.drained⟩
    · simpa [accepts, Reply.published] using h.merged
    · simpa [Reply.published] using h.numbered
    · simpa using h.closed
  · rw [hp]
    have hacc : (accepted · (hist ++ [(.push v t f, .pushed (.ok ()))])) =
        Function.update (accepted · hist) v (accepted v hist ++ [(t, f)]) := by
      funext w
      by_cases hw : w = v
      · subst hw
        simp [accepts]
      · simp [accepts, hw, Ne.symm hw]
    refine ⟨?_, ?_, ?_, ?_⟩
    · rw [hacc]
      simpa [Reply.published] using h.merged.push hs ha
    · simpa [Reply.published] using h.numbered
    · simpa using h.closed
    · intro hs'
      rw [setLane_sealed, hs] at hs'
      cases hs'

theorem consistent_tick {hist : History} {s : Sequencer} (h : Consistent hist s) (v : Venue)
    (t : UInt64) : Consistent (hist ++ [(.tick v t, .ticked)]) (s.tick v t) := by
  refine ⟨?_, ?_, ?_, ?_⟩
  · simpa [accepts, Reply.published] using h.merged.tick v t
  · simpa [Reply.published] using h.numbered
  · simpa using h.closed
  · intro hs w
    rw [tick_lanes]
    exact h.drained hs w

theorem consistent_drainReady {hist : History} {s : Sequencer} (h : Consistent hist s) :
    Consistent (hist ++ [(.drainReady, .drained s.drainReady.1)]) s.drainReady.2 := by
  obtain ⟨hm, hs, hn⟩ := h.merged.drain true (.inl rfl)
  refine ⟨?_, ?_, ?_, ?_⟩
  · simpa [accepts, Reply.published, drainReady] using hm
  · rw [← h.numbered] at hn
    simpa [Reply.published, drainReady] using hn
  · simpa [drainReady, hs] using h.closed
  · intro hsealed v
    have hempty := h.drained (by rw [← hs]; exact hsealed)
    rw [drainReady, drain_of_empty true hempty]
    exact hempty v

theorem consistent_flush {hist : History} {s : Sequencer} (h : Consistent hist s) :
    Consistent (hist ++ [(.flush, .drained s.flush.1)]) s.flush.2 := by
  obtain ⟨hm, hs, hn⟩ := h.merged.seal.drain false (.inr rfl)
  refine ⟨?_, ?_, ?_, fun _ => flush_empty s⟩
  · simpa [accepts, Reply.published, flush] using hm
  · rw [← h.numbered] at hn
    simpa [Reply.published, flush] using hn
  · simp [flush, hs]

theorem consistent_run (ops : List Op) :
    Consistent (trace step Sequencer.new ops) (exec step Sequencer.new ops) := by
  apply run_invariant step Consistent
  · exact ⟨merged_new, rfl, by simp [Sequencer.new], fun _ v => rfl⟩
  · intro hist s op h
    cases op with
    | push v t f => exact consistent_push h v t f
    | tick v t => exact consistent_tick h v t
    | drainReady => exact consistent_drainReady h
    | flush => exact consistent_flush h

/-- A sealed, empty sequencer publishes nothing more, whatever is called. -/
theorem sealed_quiet {s : Sequencer} (hs : s.sealed = true) (he : ∀ v, (s.lanes v).buffer = [])
    (ops : List Op) : tape (trace step s ops) = [] := by
  induction ops generalizing s with
  | nil => rfl
  | cons op ops ih =>
    have hstep : (step s op).1.published = [] ∧ (step s op).2.sealed = true ∧
        ∀ v, ((step s op).2.lanes v).buffer = [] := by
      cases op with
      | push v t f => simp [step, push, hs, he, Reply.published]
      | tick v t => simp [step, Reply.published, hs, tick_lanes, he]
      | drainReady => simp [step, drainReady, drain_of_empty true he, Reply.published, hs, he]
      | flush =>
        have hd := drain_of_empty (s := { s with «sealed» := true }) false he
        simp [step, flush, hd, Reply.published, he]
    obtain ⟨hp, hs', he'⟩ := hstep
    simpa [hp] using ih hs' he'

/-- Published tape order and conservation, at every point of every run. -/
theorem published_tape (ops : List Op) :
    let hist := trace step Sequencer.new ops
    let s := exec step Sequencer.new ops
    ((tape hist).length < 2 ^ 64 →
      (tape hist).map (·.globalSeq.toNat) = List.range' 1 (tape hist).length) ∧
    (tape hist).Pairwise (fun e e' => sortKey (stamped e) < sortKey (stamped e')) ∧
    (∀ v, ((tape hist).map stamped).filter (·.2.venue = v) ++ (s.lanes v).buffer =
      accepted v hist) ∧
    (Op.flush ∈ ops →
      (∀ v, (s.lanes v).buffer = []) ∧
      (tape hist).map stamped = (pushed hist).mergeSort (fun p q => sortKey p ≤ sortKey q) ∧
      ∀ later, tape (trace step Sequencer.new (ops ++ later)) = tape hist) := by
  intro hist s
  have h : Consistent hist s := consistent_run ops
  refine ⟨?_, ?_, h.merged.conserve, ?_⟩
  · intro hlen
    rw [h.numbered]
    apply List.ext_getElem
    · simp [number]
    · intro i hi _
      simp only [number, List.length_map, List.length_mapIdx] at hi
      simp only [number, List.getElem_map, List.getElem_mapIdx, List.getElem_range']
      rw [UInt64.toNat_ofNat_of_lt' (by simp [UInt64.size]; omega)]
      omega
  · have ho := h.merged.ordered
    rwa [List.pairwise_map] at ho
  · intro hflush
    have hsealed : s.sealed = true := h.closed.mpr (by rwa [trace_map_fst])
    have hempty := h.drained hsealed
    refine ⟨hempty, ?_, ?_⟩
    · apply eq_mergeSort_of_sorted sortKey h.merged.ordered
      apply perm_of_filter_eq (fun p : UInt64 × Fill => p.2.venue)
      intro v
      have hc := h.merged.conserve v
      rw [hempty v, List.append_nil] at hc
      rw [hc, filter_pushed h.merged.ownVenue]
    · intro later
      rw [trace_append, tape_append, sealed_quiet hsealed hempty, List.append_nil]

end Bitfrost.Sequencer

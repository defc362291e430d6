import Bitfrost.Lib.Run
import Bitfrost.Types

/-!
The merger of `ingester/src/sequencer.rs`: one FIFO lane for each venue, a
frontier of receive stamps for each lane, and the single writer of
`global_seq`. `next_global_seq` is a word and wraps.
-/

namespace Bitfrost

open Bitfrost.Lib

structure Lane where
  buffer : List (UInt64 × Fill)
  frontier : UInt64
  lastSeq : Option UInt64

def Lane.new : Lane := ⟨[], 0, none⟩

/-- The lane guards of `push`, in the order the source tests them. -/
def Lane.guards (lane : Lane) (venue : Venue) (recvTs : UInt64) (fill : Fill) :
    Except SequencerError Unit := do
  rejectIf (fill.venue ≠ venue) (.venueMismatch venue fill.venue)
  rejectIf (recvTs < lane.frontier) (.recvTsWalkback venue lane.frontier recvTs)
  match lane.lastSeq with
  | some lastSeq => rejectIf (fill.seq ≤ lastSeq) (.seqWalkback venue lastSeq fill.seq)
  | none => .ok ()

theorem Lane.guards_eq_ok {lane : Lane} {v : Venue} {t : UInt64} {f : Fill} :
    lane.guards v t f = .ok () ↔
      f.venue = v ∧ lane.frontier ≤ t ∧ ∀ l, lane.lastSeq = some l → l < f.seq := by
  unfold Lane.guards
  cases h : lane.lastSeq with
  | none => simp [bind_eq_ok]
  | some l => simp [bind_eq_ok]

theorem Lane.guards_eq_error {lane : Lane} {v : Venue} {t : UInt64} {f : Fill}
    {e : SequencerError} (hv : f.venue = v) (h : lane.guards v t f = .error e) :
    (t < lane.frontier ∧ e = .recvTsWalkback v lane.frontier t) ∨
      (lane.frontier ≤ t ∧ ∃ l, lane.lastSeq = some l ∧ f.seq ≤ l ∧
        e = .seqWalkback v l f.seq) := by
  unfold Lane.guards at h
  rw [bind_eq_error] at h
  rcases h with hvenue | ⟨_, -, h⟩
  · exact absurd hv (rejectIf_eq_error.mp hvenue).1
  rw [bind_eq_error] at h
  rcases h with hbehind | ⟨_, hahead, h⟩
  · obtain ⟨hlt, rfl⟩ := rejectIf_eq_error.mp hbehind
    exact .inl ⟨hlt, rfl⟩
  · have hle := not_lt.mp (rejectIf_eq_ok.mp hahead)
    cases hl : lane.lastSeq with
    | none => simp [hl] at h
    | some l =>
      rw [hl] at h
      obtain ⟨hseq, rfl⟩ := rejectIf_eq_error.mp h
      exact .inr ⟨hle, l, rfl, hseq, rfl⟩

def Lane.enqueue (lane : Lane) (recvTs : UInt64) (fill : Fill) : Lane :=
  { buffer := lane.buffer ++ [(recvTs, fill)], frontier := recvTs, lastSeq := some fill.seq }

structure Sequencer where
  lanes : Venue → Lane
  nextGlobalSeq : UInt64
  «sealed» : Bool

namespace Sequencer

def new : Sequencer := ⟨fun _ => Lane.new, 1, false⟩

def setLane (self : Sequencer) (venue : Venue) (lane : Lane) : Sequencer :=
  { self with lanes := Function.update self.lanes venue lane }

def push (self : Sequencer) (venue : Venue) (recvTs : UInt64) (fill : Fill) :
    Except SequencerError Unit × Sequencer :=
  if self.sealed then (.error (.sealed venue), self)
  else
    match (self.lanes venue).guards venue recvTs fill with
    | .error error => (.error error, self)
    | .ok () => (.ok (), self.setLane venue ((self.lanes venue).enqueue recvTs fill))

def tick (self : Sequencer) (venue : Venue) (nowTs : UInt64) : Sequencer :=
  let lane := self.lanes venue
  self.setLane venue { lane with frontier := max lane.frontier nowTs }

/-- Events currently buffered across all lanes. -/
def depth (self : Sequencer) : Nat := (Venue.all.map fun v => (self.lanes v).buffer.length).sum

/-- Higher-priority lanes must be strictly past `recvTs`, lower ones only at it. -/
def emittable (self : Sequencer) (venue : Venue) (recvTs : UInt64) : Bool :=
  Venue.all.all fun other =>
    if other < venue then recvTs < (self.lanes other).frontier
    else other = venue || recvTs ≤ (self.lanes other).frontier

/-- The head scan: the earliest stamp, the earlier lane on ties. -/
def best (self : Sequencer) : Option (Venue × UInt64) :=
  Venue.all.foldl
    (fun best venue =>
      match (self.lanes venue).buffer.head? with
      | some (recvTs, _) => if best.all (fun b => recvTs < b.2) then some (venue, recvTs) else best
      | none => best)
    none

/-- One turn of the drain loop; `none` is the `break`. -/
def drainStep (gated : Bool) (self : Sequencer) : Option (SequencedFill × Sequencer) :=
  match self.best with
  | none => none
  | some (venue, recvTs) =>
    if gated && !self.emittable venue recvTs then none
    else
      let lane := self.lanes venue
      match lane.buffer with
      | [] => none
      | (recvTs, fill) :: rest =>
        some (⟨self.nextGlobalSeq, recvTs, fill⟩,
          { self.setLane venue { lane with buffer := rest } with
            nextGlobalSeq := self.nextGlobalSeq + 1 })

/-- The drain loop, at most `fuel` turns. -/
def drainLoop (gated : Bool) : Nat → Sequencer → List SequencedFill × Sequencer
  | 0, self => ([], self)
  | fuel + 1, self =>
    match drainStep gated self with
    | none => ([], self)
    | some (entry, next) =>
      let (out, last) := drainLoop gated fuel next
      (entry :: out, last)

/-- Every turn pops one event, so `depth` turns are enough (`drain_done`). -/
def drain (gated : Bool) (self : Sequencer) : List SequencedFill × Sequencer :=
  drainLoop gated self.depth self

def drainReady (self : Sequencer) : List SequencedFill × Sequencer := self.drain true

def flush (self : Sequencer) : List SequencedFill × Sequencer :=
  drain false { self with «sealed» := true }

/-! ## Operations as one machine -/

inductive Op
  | push (venue : Venue) (recvTs : UInt64) (fill : Fill)
  | tick (venue : Venue) (nowTs : UInt64)
  | drainReady
  | flush
deriving DecidableEq

inductive Reply
  | pushed (result : Except SequencerError Unit)
  | ticked
  | drained (out : List SequencedFill)

def step (self : Sequencer) : Op → Reply × Sequencer
  | .push venue recvTs fill =>
    let (result, next) := self.push venue recvTs fill
    (.pushed result, next)
  | .tick venue nowTs => (.ticked, self.tick venue nowTs)
  | .drainReady =>
    let (out, next) := self.drainReady
    (.drained out, next)
  | .flush =>
    let (out, next) := self.flush
    (.drained out, next)

abbrev History := List (Op × Reply)

def Reply.published : Reply → List SequencedFill
  | .drained out => out
  | _ => []

/-- Everything the drains have returned so far. -/
def tape (hist : History) : List SequencedFill := hist.flatMap (·.2.published)

/-- The `(recv_ts, fill)` an operation put on the lane of `venue`. -/
def accepts (venue : Venue) : Op × Reply → Option (UInt64 × Fill)
  | (.push lane recvTs fill, .pushed (.ok ())) => if lane = venue then some (recvTs, fill) else none
  | _ => none

/-- The successful pushes on the lane of `venue`, in push order. -/
def accepted (venue : Venue) (hist : History) : List (UInt64 × Fill) :=
  hist.filterMap (accepts venue)

@[simp] theorem tape_append (hist hist' : History) :
    tape (hist ++ hist') = tape hist ++ tape hist' := by simp [tape]

@[simp] theorem tape_cons (entry : Op × Reply) (hist : History) :
    tape (entry :: hist) = entry.2.published ++ tape hist := rfl

@[simp] theorem tape_nil : tape [] = [] := rfl

@[simp] theorem accepted_append (v : Venue) (hist hist' : History) :
    accepted v (hist ++ hist') = accepted v hist ++ accepted v hist' := by simp [accepted]

@[simp] theorem accepted_cons (v : Venue) (entry : Op × Reply) (hist : History) :
    accepted v (entry :: hist) = (accepts v entry).toList ++ accepted v hist :=
  filterMap_cons_toList _ entry hist

@[simp] theorem accepted_nil (v : Venue) : accepted v [] = [] := rfl

/-! ## What each operation does -/

@[simp] theorem setLane_lanes_self (s : Sequencer) (v : Venue) (l : Lane) :
    (s.setLane v l).lanes v = l := by simp [setLane]

theorem setLane_lanes (s : Sequencer) (v w : Venue) (l : Lane) :
    (s.setLane v l).lanes w = if w = v then l else s.lanes w := by
  simp [setLane, Function.update_apply]

@[simp] theorem setLane_sealed (s : Sequencer) (v : Venue) (l : Lane) :
    (s.setLane v l).sealed = s.sealed := rfl

theorem push_eq_ok {s : Sequencer} {v : Venue} {t : UInt64} {f : Fill} (hs : s.sealed = false)
    (hg : (s.lanes v).guards v t f = .ok ()) :
    s.push v t f = (.ok (), s.setLane v ((s.lanes v).enqueue t f)) := by
  simp [push, hs, hg]

/-- A push either fails and changes nothing, or appends to its own lane. -/
theorem push_cases (s : Sequencer) (v : Venue) (t : UInt64) (f : Fill) :
    (∃ e, s.push v t f = (.error e, s)) ∨
    (s.sealed = false ∧ (s.lanes v).guards v t f = .ok () ∧
      s.push v t f = (.ok (), s.setLane v ((s.lanes v).enqueue t f))) := by
  cases hs : s.sealed with
  | true => exact .inl ⟨.sealed v, by simp [push, hs]⟩
  | false =>
    cases hg : (s.lanes v).guards v t f with
    | error e => exact .inl ⟨e, by simp [push, hs, hg]⟩
    | ok u => exact .inr ⟨rfl, rfl, push_eq_ok hs hg⟩

/-- A push fails on a sealed sequencer, or on a guard of its lane. -/
theorem push_eq_error {s s' : Sequencer} {v : Venue} {t : UInt64} {f : Fill} {e : SequencerError}
    (h : s.push v t f = (.error e, s')) :
    (s.sealed = true ∧ e = .sealed v) ∨
      (s.sealed = false ∧ (s.lanes v).guards v t f = .error e) := by
  unfold push at h
  cases hs : s.sealed with
  | true =>
    simp only [hs, if_true, Prod.mk.injEq, Except.error.injEq] at h
    exact .inl ⟨rfl, h.1.symm⟩
  | false =>
    cases hg : (s.lanes v).guards v t f with
    | error e' =>
      simp only [hs, hg, Bool.false_eq_true, if_false, Prod.mk.injEq, Except.error.injEq] at h
      exact .inr ⟨rfl, congrArg Except.error h.1⟩
    | ok u => simp [hs, hg] at h

theorem tick_lanes (s : Sequencer) (v w : Venue) (t : UInt64) :
    (s.tick v t).lanes w =
      { s.lanes w with
        frontier := if w = v then max (s.lanes w).frontier t else (s.lanes w).frontier } := by
  unfold tick
  by_cases h : w = v
  · subst h
    simp
  · simp [setLane_lanes, h]

theorem tick_frontier (s : Sequencer) (v : Venue) (t : UInt64) :
    ((s.tick v t).lanes v).frontier = max (s.lanes v).frontier t := by
  rw [tick_lanes]
  exact if_pos rfl

@[simp] theorem tick_sealed (s : Sequencer) (v : Venue) (t : UInt64) :
    (s.tick v t).sealed = s.sealed := rfl

theorem emittable_iff (s : Sequencer) (v : Venue) (t : UInt64) :
    s.emittable v t = true ↔
      ∀ w, w ≠ v → t ≤ (s.lanes w).frontier ∧ (w < v → t < (s.lanes w).frontier) := by
  have hall : ∀ w : Venue, w ∈ Venue.all := by intro w; cases w <;> simp [Venue.all]
  unfold emittable
  rw [List.all_eq_true]
  constructor
  · intro h w hw
    have hp := h w (hall w)
    by_cases hlt : w < v
    · simp only [hlt, ↓reduceIte, decide_eq_true_eq] at hp
      exact ⟨hp.le, fun _ => hp⟩
    · simp only [hlt, ↓reduceIte, hw, decide_false, Bool.false_or, decide_eq_true_eq] at hp
      exact ⟨hp, fun h => absurd h hlt⟩
  · intro h w _
    by_cases hw : w = v
    · simp [hw]
    · by_cases hlt : w < v
      · simpa [hlt] using (h w hw).2 hlt
      · simpa [hlt, hw] using (h w hw).1

theorem best_eq_none {s : Sequencer} : s.best = none ↔ ∀ v, (s.lanes v).buffer = [] := by
  unfold best Venue.all
  constructor
  · intro h v
    cases hl : (s.lanes .hl).buffer <;> cases hp : (s.lanes .pm).buffer <;>
      cases v <;> simp_all
    all_goals (revert h; split <;> simp)
  · intro h
    simp [h .hl, h .pm]

/-- The head scan finds the front of a lane that precedes, or is, the front of every lane. -/
theorem best_eq_some {s : Sequencer} {v : Venue} {t : UInt64} (h : s.best = some (v, t)) :
    (∃ f rest, (s.lanes v).buffer = (t, f) :: rest) ∧
      ∀ w p, p ∈ (s.lanes w).buffer.head? → w ≠ v → t ≤ p.1 ∧ (w < v → t < p.1) := by
  unfold best Venue.all at h
  cases hl : (s.lanes .hl).buffer with
  | nil =>
    cases hp : (s.lanes .pm).buffer with
    | nil => simp [hl, hp] at h
    | cons q rest =>
      simp only [List.foldl_cons, hl, List.head?_nil, hp, List.head?_cons, Option.all_none,
        ↓reduceIte, List.foldl_nil, Option.some.injEq, Prod.mk.injEq] at h
      obtain ⟨rfl, rfl⟩ := h
      refine ⟨⟨q.2, rest, hp⟩, ?_⟩
      intro w p hw hne
      cases w <;> simp_all
  | cons q rest =>
    cases hp : (s.lanes .pm).buffer with
    | nil =>
      simp only [List.foldl_cons, hl, List.head?_cons, Option.all_none, ↓reduceIte, hp,
        List.head?_nil, List.foldl_nil, Option.some.injEq, Prod.mk.injEq] at h
      obtain ⟨rfl, rfl⟩ := h
      refine ⟨⟨q.2, rest, hl⟩, ?_⟩
      intro w p hw hne
      cases w <;> simp_all
    | cons r rest' =>
      simp only [List.foldl_cons, hl, List.head?_cons, Option.all_none, ↓reduceIte, hp,
        Option.all_some, decide_eq_true_eq, List.foldl_nil] at h
      split at h
      · next hlt =>
        simp only [Option.some.injEq, Prod.mk.injEq] at h
        obtain ⟨rfl, rfl⟩ := h
        refine ⟨⟨r.2, rest', hp⟩, ?_⟩
        intro w p hw hne
        cases w with
        | hl =>
          simp only [hl, List.head?_cons, Option.mem_def, Option.some.injEq] at hw
          subst hw
          exact ⟨hlt.le, fun _ => hlt⟩
        | pm => exact absurd rfl hne
      · next hle =>
        simp only [Option.some.injEq, Prod.mk.injEq] at h
        obtain ⟨rfl, rfl⟩ := h
        refine ⟨⟨q.2, rest, hl⟩, ?_⟩
        intro w p hw hne
        cases w with
        | hl => exact absurd rfl hne
        | pm =>
          simp only [hp, List.head?_cons, Option.mem_def, Option.some.injEq] at hw
          subst hw
          exact ⟨not_lt.mp hle, fun hlt => absurd hlt (by decide)⟩

/-- A turn of the drain loop pops the least head; gated, no other lane may still precede it. -/
theorem drainStep_eq_some {gated : Bool} {s s' : Sequencer} {e : SequencedFill}
    (h : drainStep gated s = some (e, s')) :
    ∃ v rest, (s.lanes v).buffer = (e.recvTs, e.fill) :: rest ∧
      e.globalSeq = s.nextGlobalSeq ∧
      s' = { s.setLane v { s.lanes v with buffer := rest } with
              nextGlobalSeq := s.nextGlobalSeq + 1 } ∧
      (∀ w p, p ∈ (s.lanes w).buffer.head? → w ≠ v →
        e.recvTs ≤ p.1 ∧ (w < v → e.recvTs < p.1)) ∧
      (gated = true → s.emittable v e.recvTs = true) := by
  unfold drainStep at h
  cases hb : s.best with
  | none => simp [hb] at h
  | some b =>
    obtain ⟨v, t⟩ := b
    obtain ⟨⟨f, rest, hbuf⟩, hmin⟩ := best_eq_some hb
    simp only [hb, hbuf] at h
    split at h
    · cases h
    · next hg =>
      simp only [Option.some.injEq, Prod.mk.injEq] at h
      obtain ⟨rfl, rfl⟩ := h
      refine ⟨v, rest, hbuf, rfl, rfl, hmin, ?_⟩
      intro hgated
      simpa [hgated] using hg

theorem drainStep_eq_none {gated : Bool} {s : Sequencer} :
    drainStep gated s = none ↔
      (∀ v, (s.lanes v).buffer = []) ∨
        (gated = true ∧ ∃ v t, s.best = some (v, t) ∧ s.emittable v t = false) := by
  unfold drainStep
  cases hb : s.best with
  | none => simp [best_eq_none.mp hb]
  | some b =>
    obtain ⟨v, t⟩ := b
    obtain ⟨⟨f, rest, hbuf⟩, -⟩ := best_eq_some hb
    have hne : ¬ ∀ v, (s.lanes v).buffer = [] := fun h => by simp [h v] at hbuf
    simp only [hbuf, hne, false_or, Option.some.injEq, Prod.mk.injEq]
    cases gated <;> cases he : s.emittable v t <;> simp [he]

theorem depth_drainStep {gated : Bool} {s s' : Sequencer} {e : SequencedFill}
    (h : drainStep gated s = some (e, s')) : s.depth = s'.depth + 1 := by
  obtain ⟨v, rest, hbuf, -, rfl, -⟩ := drainStep_eq_some h
  cases v <;> simp [depth, Venue.all, setLane_lanes, hbuf] <;> omega

theorem depth_eq_zero {s : Sequencer} : s.depth = 0 ↔ ∀ v, (s.lanes v).buffer = [] := by
  constructor
  · intro h v
    simp only [depth, Venue.all, List.map_cons, List.map_nil, List.sum_cons, List.sum_nil,
      Nat.add_zero, Nat.add_eq_zero_iff, List.length_eq_zero_iff] at h
    cases v
    · exact h.1
    · exact h.2
  · intro h
    simp [depth, Venue.all, h]

/-- The drain loop ends at its `break`, never for want of turns. -/
theorem drainLoop_done (gated : Bool) (fuel : Nat) (s : Sequencer) (hf : s.depth ≤ fuel) :
    drainStep gated (drainLoop gated fuel s).2 = none := by
  induction fuel generalizing s with
  | zero =>
    exact drainStep_eq_none.mpr (.inl (depth_eq_zero.mp (Nat.le_zero.mp hf)))
  | succ fuel ih =>
    unfold drainLoop
    cases h : drainStep gated s with
    | none => exact h
    | some r =>
      have hd := depth_drainStep h
      exact ih r.2 (by omega)

theorem drain_done (gated : Bool) (s : Sequencer) : drainStep gated (s.drain gated).2 = none :=
  drainLoop_done gated s.depth s le_rfl

/-- What every turn keeps, the loop keeps. -/
theorem drainLoop_keeps (gated : Bool) (P : List SequencedFill → Sequencer → Prop)
    (keep : ∀ out s e s', P out s → drainStep gated s = some (e, s') → P (out ++ [e]) s')
    (fuel : Nat) (out : List SequencedFill) (s : Sequencer) (h : P out s) :
    P (out ++ (drainLoop gated fuel s).1) (drainLoop gated fuel s).2 := by
  induction fuel generalizing out s with
  | zero => simpa [drainLoop] using h
  | succ fuel ih =>
    unfold drainLoop
    cases hs : drainStep gated s with
    | none => simpa using h
    | some r =>
      have hk := ih (out ++ [r.1]) r.2 (keep out s r.1 r.2 h hs)
      simpa using hk

end Sequencer

end Bitfrost

import Bitfrost.Conservation
import Bitfrost.Lib.Missing

/-!
The gap counter. `stats.gaps` is updated from `max_seq`, which shadows the
lane's own guard; it counts, modulo the word, the sequence numbers that the
accepted fills of each venue jump over. The count is exact as long as the
number of missing sequence numbers, over both venues, fits the word.
-/

namespace Bitfrost.Ingester

open Bitfrost.Lib

variable {S : Type} [InstrumentSource S]

/-- How many numbers between the first and the last accepted one of `venue` were not accepted. -/
def gapsOn (instruments : S) (venue : Venue) (past : List Op) : Nat :=
  (missing ((acceptedSeqs instruments venue past).map UInt64.toNat)).card

/-- The missing sequence numbers of all venues. -/
def totalGaps (instruments : S) (past : List Op) : Nat :=
  (Venue.all.map fun v => gapsOn instruments v past).sum

/-- The arithmetic of the gap count in one call: when an accepted fill follows `last`, neither
the subtraction nor the addition leaves the word. -/
def CountsGap (self : Ingester S) : Op → Prop
  | .fillCaught recvTs line => ∀ fill last, (self.fillCaught recvTs line).1 = .accepted →
      canonicalFill self.instruments line = some fill → self.maxSeq[fill.venue]? = some last →
      last.toNat + 1 ≤ fill.seq.toNat ∧
        self.stats.gaps.toNat + (fill.seq.toNat - last.toNat - 1) < 2 ^ 64
  | _ => True

/-- The gap counter is exact in every state of the run `ops`, and in every call of it. -/
structure GapsExact (instruments : S) (ops : List Op) : Prop where
  agree : ∀ past, past <+: ops → ∀ v,
    (exec step (new instruments) past).maxSeq[v]? =
      ((exec step (new instruments) past).sequencer.lanes v).lastSeq
  counts : ∀ past op, past ++ [op] <+: ops → CountsGap (exec step (new instruments) past) op
  exact : ∀ past, past <+: ops →
    (exec step (new instruments) past).stats.gaps.toNat = totalGaps instruments past.reverse

/-! ## One call -/

section Step

variable {instruments : S} {past : List Op} {self : Ingester S} {recvTs : UInt64} {line : RawLine}
  {event : RawEvent}

theorem totalGaps_congr {past' : List Op}
    (h : ∀ v, acceptedSeqs instruments v past' = acceptedSeqs instruments v past) :
    totalGaps instruments past' = totalGaps instruments past := by
  simp only [totalGaps, gapsOn, h]

/-- The length of the jump an accepted number makes. -/
def jump (last : Option UInt64) (seq : UInt64) : Nat :=
  match last with
  | some last => seq.toNat - last.toNat - 1
  | none => 0

/-- What an accepted number adds to the missing ones of its venue. -/
theorem card_missing_accept {seq : UInt64} {seqs : List UInt64}
    (h : (seq :: seqs).Pairwise (· > ·)) :
    (missing ((seq :: seqs).map UInt64.toNat)).card =
      (missing (seqs.map UInt64.toNat)).card + jump seqs.head? seq := by
  cases seqs with
  | nil => simp [jump]
  | cons last seqs =>
    have hnat : ((seq :: last :: seqs).map UInt64.toNat).Pairwise (· > ·) :=
      List.pairwise_map.mpr (h.imp fun hlt => UInt64.lt_iff_toNat_lt.mp hlt)
    exact card_missing_cons hnat

theorem totalGaps_accept
    (hseqs : ∀ v, acceptedSeqs instruments v (.fillCaught recvTs line :: past) =
      if event.venue = v then event.seq :: acceptedSeqs instruments v past
      else acceptedSeqs instruments v past)
    (hdesc : (acceptedSeqs instruments event.venue
      (.fillCaught recvTs line :: past)).Pairwise (· > ·)) :
    totalGaps instruments (.fillCaught recvTs line :: past) = totalGaps instruments past +
      jump (acceptedSeqs instruments event.venue past).head? event.seq := by
  rw [hseqs, if_pos rfl] at hdesc
  have hcard := card_missing_accept hdesc
  simp only [totalGaps, gapsOn, Venue.all, List.map_cons, List.map_nil, List.sum_cons,
    List.sum_nil, hseqs]
  cases hv : event.venue <;> rw [hv] at hcard <;>
    simp only [reduceCtorEq, if_true, if_false] <;> omega

/-- The word the source adds is the jump. -/
theorem ofNat_jump {seq last : UInt64} (h : last < seq) :
    UInt64.ofNat (seq.toNat - last.toNat - 1) = seq - last - 1 := by
  have hlt := UInt64.lt_iff_toNat_lt.mp h
  have hseq := seq.toNat_lt
  apply UInt64.toNat_inj.mp
  rw [UInt64.toNat_sub_of_le, UInt64.toNat_sub_of_le, UInt64.toNat_ofNat_of_lt'] <;>
    simp [UInt64.le_iff_toNat_le, UInt64.size, UInt64.toNat_sub_of_le, h.le] <;> omega

/-- The counter holds the number of missing sequence numbers, as a word. -/
def Counted (instruments : S) (past : List Op) (ingester : Ingester S) : Prop :=
  ingester.stats.gaps = UInt64.ofNat (totalGaps instruments past)

/-- An accepted arrival, as the history sees it. -/
theorem Summary.accepted_next (h : Summary instruments past self)
    {r : IngestOutcome × Ingester S} (hc : Caught self recvTs line r) (hout : r.1 = .accepted)
    (hp : line.parsed = .ok event) :
    (∀ v, acceptedSeqs instruments v (.fillCaught recvTs line :: past) =
      if event.venue = v then event.seq :: acceptedSeqs instruments v past
      else acceptedSeqs instruments v past) ∧
    (acceptedSeqs instruments event.venue
      (.fillCaught recvTs line :: past)).Pairwise (· > ·) := by
  obtain ⟨hclass, hnext⟩ := h.caught hc
  refine ⟨fun v => ?_, hnext.descending event.venue⟩
  rw [acceptedSeqs_arrival hp, ← hclass, hout]
  simp

/-- Any other arrival adds no sequence number. -/
theorem Summary.unaccepted_next (h : Summary instruments past self)
    {r : IngestOutcome × Ingester S} (hc : Caught self recvTs line r) (hout : r.1 ≠ .accepted)
    (v : Venue) :
    acceptedSeqs instruments v (.fillCaught recvTs line :: past) =
      acceptedSeqs instruments v past := by
  cases hp : line.parsed with
  | error error => exact acceptedSeqs_malformed hp v
  | ok event => exact acceptedSeqs_unaccepted hp ((h.caught hc).1 ▸ hout) v

theorem Summary.gapsAfter_eq (h : Summary instruments past self)
    (hcount : Counted instruments past self) (v : Venue) {seq : UInt64}
    (hdesc : (seq :: acceptedSeqs instruments v past).Pairwise (· > ·)) :
    self.gapsAfter v seq = UInt64.ofNat (totalGaps instruments past +
      jump (acceptedSeqs instruments v past).head? seq) := by
  rw [gapsAfter, h.maxSeq v, hcount]
  cases hseqs : acceptedSeqs instruments v past with
  | nil => rfl
  | cons last seqs =>
    rw [hseqs] at hdesc
    have hlt : last < seq := List.rel_of_pairwise_cons hdesc List.mem_cons_self
    show _ + (seq - last - 1) = _
    rw [UInt64.ofNat_add, List.head?_cons, jump, ofNat_jump hlt]

theorem Counted.caught (hcount : Counted instruments past self)
    (h : Summary instruments past self) {r : IngestOutcome × Ingester S}
    (hc : Caught self recvTs line r) :
    Counted instruments (.fillCaught recvTs line :: past) r.2 := by
  have hquiet : r.1 ≠ .accepted → r.2.stats.gaps = self.stats.gaps →
      Counted instruments (.fillCaught recvTs line :: past) r.2 := by
    intro hout hgaps
    rw [Counted, hgaps, totalGaps_congr (h.unaccepted_next hc hout)]
    exact hcount
  cases hc with
  | malformed error hp => exact hquiet (by simp [deadLetter]) rfl
  | duplicate event previous hp hseen hsame => exact hquiet (by simp) rfl
  | byzantine event previous hp hseen hdiff => exact hquiet (by simp [deadLetter]) rfl
  | rejected event reason hp hseen hfill => exact hquiet (by simp [deadLetter]) rfl
  | outOfOrder event fill error hp hseen hfill hpush => exact hquiet (by simp [deadLetter]) rfl
  | accepted event fill hp hseen hfill hsealed hguards =>
    have hc := Caught.accepted event fill hp hseen hfill hsealed hguards
    obtain ⟨hseqs, hdesc⟩ := h.accepted_next hc rfl hp
    obtain ⟨-, -, hseq⟩ := RawEvent.canonicalize_identity hfill
    rw [Counted, totalGaps_accept hseqs hdesc]
    rw [hseqs, if_pos rfl] at hdesc
    show self.gapsAfter event.venue fill.seq = _
    rw [hseq]
    exact h.gapsAfter_eq hcount event.venue hdesc

end Step

/-! ## Whole runs -/

theorem Counted.step {instruments : S} {past : List Op} {self : Ingester S}
    (hcount : Counted instruments past self) (h : Summary instruments past self) (op : Op) :
    Counted instruments (op :: past) (step self op).2 := by
  cases op with
  | fillCaught recvTs line => exact hcount.caught h (caught_fillCaught self recvTs line)
  | tick venue nowTs => exact hcount
  | drainReady => exact hcount
  | flush => exact hcount

/-- The counter is the number of missing sequence numbers, modulo the word. -/
theorem counted_run (instruments : S) (ops : List Op) :
    Counted instruments ops.reverse (exec step (new instruments) ops) := by
  induction ops using List.reverseRecOn with
  | nil => rfl
  | append_singleton ops op ih =>
    rw [List.reverse_append, exec_concat]
    exact ih.step (summary_run instruments ops) op

/-- Missing numbers never come back. -/
theorem totalGaps_le_step (instruments : S) (ops : List Op) (op : Op) :
    totalGaps instruments ops.reverse ≤ totalGaps instruments (op :: ops.reverse) := by
  have h := summary_run instruments ops
  cases op with
  | fillCaught recvTs line =>
    have hc := caught_fillCaught (exec step (new instruments) ops) recvTs line
    by_cases hout : ((exec step (new instruments) ops).fillCaught recvTs line).1 = .accepted
    · cases hp : line.parsed with
      | error error => exact (totalGaps_congr (acceptedSeqs_malformed hp)).ge
      | ok event =>
        obtain ⟨hseqs, hdesc⟩ := h.accepted_next hc hout hp
        rw [totalGaps_accept hseqs hdesc]
        exact Nat.le_add_right _ _
    · exact (totalGaps_congr (h.unaccepted_next hc hout)).ge
  | tick venue nowTs => exact (totalGaps_congr fun v => rfl).ge
  | drainReady => exact (totalGaps_congr fun v => rfl).ge
  | flush => exact (totalGaps_congr fun v => rfl).ge

theorem totalGaps_mono (instruments : S) {past ops : List Op} (h : past <+: ops) :
    totalGaps instruments past.reverse ≤ totalGaps instruments ops.reverse := by
  obtain ⟨later, rfl⟩ := h
  induction later using List.reverseRecOn with
  | nil => rw [List.append_nil]
  | append_singleton later op ih =>
    refine ih.trans ?_
    have hrev : (past ++ (later ++ [op])).reverse = op :: (past ++ later).reverse := by
      rw [← List.append_assoc, List.reverse_append]
      rfl
    rw [hrev]
    exact totalGaps_le_step instruments (past ++ later) op

theorem toNat_gaps (instruments : S) (ops : List Op)
    (hfits : totalGaps instruments ops.reverse < 2 ^ 64) :
    (exec step (new instruments) ops).stats.gaps.toNat = totalGaps instruments ops.reverse := by
  rw [counted_run instruments ops, UInt64.toNat_ofNat_of_lt' (by simpa [UInt64.size] using hfits)]

/-- An accepted number is above the one it follows. -/
theorem lt_of_accepted (instruments : S) (past : List Op) {recvTs : UInt64} {line : RawLine}
    {fill : Fill} {last : UInt64}
    (hout : ((exec step (new instruments) past).fillCaught recvTs line).1 = .accepted)
    (hfill : canonicalFill (exec step (new instruments) past).instruments line = some fill)
    (hlast : (exec step (new instruments) past).maxSeq[fill.venue]? = some last) :
    last.toNat + 1 ≤ fill.seq.toNat := by
  have h := summary_run instruments past
  cases hp : line.parsed with
  | error error => simp [canonicalFill, hp] at hfill
  | ok event =>
    obtain ⟨hvenue, -, hseq⟩ :=
      RawEvent.canonicalize_identity (canonicalize_of_canonicalFill hp hfill)
    obtain ⟨hseqs, hdesc⟩ := h.accepted_next (caught_fillCaught _ recvTs line) hout hp
    rw [hseqs, if_pos rfl] at hdesc
    rw [hvenue, h.maxSeq] at hlast
    rw [hseq]
    exact UInt64.lt_iff_toNat_lt.mp (List.rel_of_pairwise_cons hdesc (List.mem_of_head? hlast))

theorem countsGap_of_fits (instruments : S) (past : List Op) (op : Op)
    (hfits : totalGaps instruments (op :: past.reverse) < 2 ^ 64) :
    CountsGap (exec step (new instruments) past) op := by
  cases op with
  | tick venue nowTs => trivial
  | drainReady => trivial
  | flush => trivial
  | fillCaught recvTs line =>
    intro fill last hout hfill hlast
    refine ⟨lt_of_accepted instruments past hout hfill hlast, ?_⟩
    have h := summary_run instruments past
    cases hp : line.parsed with
    | error error => simp [canonicalFill, hp] at hfill
    | ok event =>
      obtain ⟨hvenue, -, hseq⟩ :=
        RawEvent.canonicalize_identity (canonicalize_of_canonicalFill hp hfill)
      obtain ⟨hseqs, hdesc⟩ := h.accepted_next (caught_fillCaught _ recvTs line) hout hp
      rw [hvenue, h.maxSeq] at hlast
      rw [totalGaps_accept hseqs hdesc, hlast, jump] at hfits
      rw [hseq, toNat_gaps instruments past (by omega)]
      exact hfits

/-- In every run `max_seq` is the lane's last number and the subtraction stays in the word; the gap
counter is exact if and only if the missing sequence numbers of both venues together fit it. -/
theorem gaps_exact_iff (instruments : S) (ops : List Op) :
    (∀ v, (exec step (new instruments) ops).maxSeq[v]? =
      ((exec step (new instruments) ops).sequencer.lanes v).lastSeq) ∧
    (∀ recvTs line fill last,
      ((exec step (new instruments) ops).fillCaught recvTs line).1 = .accepted →
      canonicalFill (exec step (new instruments) ops).instruments line = some fill →
      (exec step (new instruments) ops).maxSeq[fill.venue]? = some last →
      last.toNat + 1 ≤ fill.seq.toNat) ∧
    (GapsExact instruments ops ↔ totalGaps instruments ops.reverse < 2 ^ 64) := by
  have hagree : ∀ past v, (exec step (new instruments) past).maxSeq[v]? =
      ((exec step (new instruments) past).sequencer.lanes v).lastSeq := by
    intro past v
    have h := summary_run instruments past
    rw [h.maxSeq, h.lastSeq]
  refine ⟨hagree ops, fun _ _ _ _ => lt_of_accepted instruments ops, fun h => ?_, fun hfits => ?_⟩
  · rw [← h.exact ops List.prefix_rfl]
    exact UInt64.toNat_lt _
  · refine ⟨fun past _ => hagree past, fun past op hpre => ?_, fun past hpre => ?_⟩
    · apply countsGap_of_fits
      have hle := totalGaps_mono instruments hpre
      rw [List.reverse_append] at hle
      exact hle.trans_lt hfits
    · exact toNat_gaps instruments past ((totalGaps_mono instruments hpre).trans_lt hfits)

/-- Both venues jump over all but the ends of the word: the second addition overflows, and the
wrapped counter is four short of zero. -/
theorem gaps_overflow :
    let ops : List Op := [.fillCaught 1 (hlLine "a" 0 "0.002"),
      .fillCaught 2 (hlLine "b" 18446744073709551615 "0.002"), .fillCaught 3 (pmLine "a" 0),
      .fillCaught 4 (pmLine "b" 18446744073709551615)]
    (exec step (new Registry.standard) ops).stats.gaps.toNat = 2 ^ 64 - 4 ∧
      totalGaps Registry.standard ops.reverse = (2 ^ 64 - 2) + (2 ^ 64 - 2) ∧
      ¬ GapsExact Registry.standard ops := by
  intro ops
  have hseqs : ∀ v, acceptedSeqs Registry.standard v ops.reverse =
      [18446744073709551615, 0] := by
    intro v
    cases v with
    | hl => decide +kernel
    | pm => decide +kernel
  have hcard : ∀ v, gapsOn Registry.standard v ops.reverse = 2 ^ 64 - 2 := by
    intro v
    rw [gapsOn, hseqs]
    exact card_missing_cons (by decide)
  have htotal : totalGaps Registry.standard ops.reverse = (2 ^ 64 - 2) + (2 ^ 64 - 2) := by
    simp only [totalGaps, Venue.all, List.map_cons, List.map_nil, hcard]
    rfl
  refine ⟨by decide +kernel, htotal, ?_⟩
  intro h
  have hexact := h.exact ops List.prefix_rfl
  have hlt := UInt64.toNat_lt (exec step (new Registry.standard) ops).stats.gaps
  omega

end Bitfrost.Ingester

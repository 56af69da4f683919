import IsisMulticast.Counter
import IsisMulticast.Ordered
import IsisMulticast.Agreement

/-!
# The numbers in a run

The final number of a message is a number that its proposer proposed for it (`Decision.proposer`), and a process
proposes a number for one message only. So the pair of final number and proposer names the message
(`final_numbers_distinct`). A counter goes up by a fresh proposal, or to a final number, which is another process's
proposal; hence no number in the system exceeds the number of fresh proposals made by all
processes together (`numbers_bounded`).
-/

namespace IsisMulticast
open Lib

variable {cfg : Config} {s s' : Sys} {l : Label} {ls : List Label}

namespace Sys.Inv

theorem counted_step (h : s.Inv cfg) (hs : Step cfg s l s') (hl : NoWrap s l) {q : Word} (hq : q.toNat < cfg.n)
    (hc : (s.servers q).Counted) : (s'.servers q).Counted := by
  have hh := h.handles hs q
  generalize s'.servers q = sv' at hh ⊢
  cases hh with
  | idle => exact hc
  | data hlab hlq hm hs hreq =>
    subst hlab hlq
    exact hc.acceptData (h.server _ hq).queue _ fun hnone => h.noWrap_data hl hq hm hreq hnone
  | seq => exact hc.acceptSeq _ _

theorem counted (hd : DistinctIds ls) (hw : cfg.lts.Along NoWrap ls) (hrun : cfg.lts.Run ls s) {q : Word}
    (hq : q.toNat < cfg.n) : (s.servers q).Counted :=
  induction (P := fun s => (s.servers q).Counted) (Server.counted_init _ _ _)
    (fun _ _ _ h hc hl hs => h.counted_step hs hl hq hc) hd hw hrun

/-- The final number stands in an ack of its proposer. -/
theorem ack_of_decided (h : s.Inv cfg) {m : SeqMessage} (hm : s.Decided m) :
    m.finalSeqProposer.toNat < cfg.n ∧
      ∃ a ∈ acks (s.log m.finalSeqProposer), a.key = m.key ∧ a.proposedSeq = m.finalSeq := by
  have hdec := h.decision hm
  exact ⟨hdec.proposer_lt, mem_proposals.1 (mem_proposals_of_firstProposal hdec.proposer)⟩

theorem final_pair_ne (h : s.Inv cfg) (hc : ∀ q, q.toNat < cfg.n → (s.servers q).Counted) {m m' : SeqMessage}
    (hm : s.Decided m) (hm' : s.Decided m') (hk : m.key ≠ m'.key) :
    (m.finalSeq, m.finalSeqProposer) ≠ (m'.finalSeq, m'.finalSeqProposer) := by
  intro heq
  obtain ⟨hseq, hprop⟩ := Prod.mk.inj heq
  obtain ⟨hlt, a, ha, hak, hav⟩ := h.ack_of_decided hm
  obtain ⟨-, b, hb, hbk, hbv⟩ := h.ack_of_decided hm'
  rw [← hprop] at hb
  exact hk (hak.symm.trans (((hc _ hlt).ack_inj a ha b hb (by rw [hav, hbv, hseq])).trans hbk))

end Sys.Inv

/-- Different messages have different pairs of final number and proposer, as decided by their senders and as
reported by the deliveries of any processes. The final numbers alone may coincide. -/
theorem final_numbers_distinct :
    (∀ (cfg : Config) (ls : List Label) (s : Sys), DistinctIds ls → cfg.lts.Along NoWrap ls → cfg.lts.Run ls s →
      (∀ m m', s.Decided m → s.Decided m' → m.key ≠ m'.key →
        (m.finalSeq, m.finalSeqProposer) ≠ (m'.finalSeq, m'.finalSeqProposer)) ∧
      ∀ p q, p.toNat < cfg.n → q.toNat < cfg.n → ∀ d ∈ deliveries (s.log p), ∀ d' ∈ deliveries (s.log q),
        d.key ≠ d'.key → (d.finalSeq, d.finalSeqProposer) ≠ (d'.finalSeq, d'.finalSeqProposer)) ∧
    ∃ (cfg : Config) (ls : List Label) (s : Sys), DistinctIds ls ∧ cfg.lts.Along NoWrap ls ∧ cfg.lts.Run ls s ∧
      ∃ m m', s.Decided m ∧ s.Decided m' ∧ m.key ≠ m'.key ∧ m.finalSeq = m'.finalSeq := by
  refine ⟨fun cfg ls s hd hw hrun => ?_, ?_⟩
  · have h := Sys.Inv.of_run hd hrun
    have hc : ∀ q, q.toNat < cfg.n → (s.servers q).Counted := fun q hq => Sys.Inv.counted hd hw hrun hq
    refine ⟨fun m m' hm hm' hk => h.final_pair_ne hc hm hm' hk, fun p q hp hq d hdel d' hdel' hk => ?_⟩
    exact h.final_pair_ne hc (h.decided_of_delivered hp hdel) (h.decided_of_delivered hq hdel') hk
  · obtain ⟨s, hrun, hdel, -⟩ := exists_run_pairRun
    have h := Sys.Inv.of_run distinctIds_pairRun hrun
    have hmem : ∀ m ∈ [pairFirst, pairSecond], s.Decided m := fun m hm =>
      h.decided_of_delivered (q := 0) (by decide) (hdel ▸ hm)
    exact ⟨pair, pairRun, s, distinctIds_pairRun, noWrap_pairRun, hrun, pairFirst, pairSecond, hmem _ (by simp),
      hmem _ (by simp), by decide, rfl⟩

/-! ### The bound -/

/-- The step is a fresh proposal: the data message is new to the server and is inserted. -/
def Sys.proposing (s : Sys) : Label → Bool
  | .serve lk j _ => ((s.requests lk)[j]?).any (s.servers lk.server).process.proposes
  | _ => false

/-- How many fresh proposals the processes have made together. -/
def freshProposals (cfg : Config) (ls : List Label) : Nat := cfg.lts.count Sys.proposing ls

/-- A number that was drawn in a run with `K` fresh proposals. -/
def Numbered (K : Nat) (x : Word) : Prop := 1 ≤ x.toNat ∧ x.toNat ≤ K

/-- All counters are bounded by `K`. -/
structure Sys.Bounded (cfg : Config) (K : Nat) (s : Sys) : Prop where
  counted : ∀ q, q.toNat < cfg.n → (s.servers q).Counted
  counter : ∀ q, q.toNat < cfg.n → (s.servers q).process.seqCounter.toNat ≤ K

namespace Sys.Bounded
variable {K : Nat}

theorem ack (hb : s.Bounded cfg K) {q : Word} (hq : q.toNat < cfg.n) {a : AckMessage} (ha : a ∈ acks (s.log q)) :
    Numbered K a.proposedSeq := by
  have hpos := (hb.counted q hq).ack_pos a ha
  have hle := (hb.counted q hq).ack_le a ha
  rw [UInt32.lt_iff_toNat_lt] at hpos
  rw [UInt32.le_iff_toNat_le] at hle
  exact ⟨hpos, Nat.le_trans hle (hb.counter q hq)⟩

theorem decided (hb : s.Bounded cfg K) (h : s.Inv cfg) {m : SeqMessage} (hm : s.Decided m) :
    Numbered K m.finalSeq := by
  obtain ⟨hlt, a, ha, -, hav⟩ := h.ack_of_decided hm
  exact hav ▸ hb.ack hlt ha

theorem pending (hb : s.Bounded cfg K) {q : Word} (hq : q.toNat < cfg.n) {k : PendingMessageKey}
    {v : PendingMessageSeq} (hv : (s.servers q).pending k = some v) :
    Numbered K v.seq ∧ v.seq ≤ (s.servers q).process.seqCounter := by
  obtain ⟨a, ha, -, hav⟩ := (hb.counted q hq).pending k v hv
  exact hav ▸ ⟨hb.ack hq ha, (hb.counted q hq).ack_le a ha⟩

/-- An undeliverable entry has the number of a pending message, a deliverable one a final number. -/
theorem entry (hb : s.Bounded cfg K) (h : s.Inv cfg) {q : Word} (hq : q.toNat < cfg.n) {e : PendingMessage}
    (he : e ∈ (s.servers q).queue.ordering) :
    Numbered K e.pms.seq ∧ e.pms.seq ≤ (s.servers q).process.seqCounter := by
  have hsv := h.server q hq
  cases hd : e.deliverable with
  | false => exact hb.pending hq (hsv.queue.lookup_of_mem he hd)
  | true =>
    have hfinal := hsv.deliverable e he hd
    exact ⟨hb.decided h (h.handledSeq q hq _ hfinal).1, (hb.counted q hq).final_le _ hfinal⟩

theorem step (hb : s.Bounded cfg K) (h : s.Inv cfg) (hs : Step cfg s l s')
    (hK : K + (if s.proposing l then 1 else 0) < 2 ^ 32) : s'.Bounded cfg (K + if s.proposing l then 1 else 0) := by
  have hle : K ≤ K + if s.proposing l then 1 else 0 := Nat.le_add_right _ _
  suffices hall : ∀ q, q.toNat < cfg.n → (s'.servers q).Counted ∧
      (s'.servers q).process.seqCounter.toNat ≤ K + if s.proposing l then 1 else 0 from
    ⟨fun q hq => (hall q hq).1, fun q hq => (hall q hq).2⟩
  intro q hq
  have hc := hb.counted q hq
  have hcounter := hb.counter q hq
  have hh := h.handles hs q
  generalize s'.servers q = sv' at hh ⊢
  cases hh with
  | idle => exact ⟨hc, hcounter.trans hle⟩
  | @data lk j junk m hlab hlq hm hsender hreq =>
    rcases Process.acceptData_cases (h.server q hq).queue { m with type := kDataMessageType } with
      ⟨v, hv, heq⟩ | ⟨hnone, heq⟩ <;> rw [heq]
    · exact ⟨hc.replay hv, hcounter.trans hle⟩
    · have hprop : s.proposing l = true := by
        rw [hlab, Sys.proposing, hreq, hlq]
        exact h.proposes_data hq hm _ hnone
      rw [if_pos hprop] at hK ⊢
      have hw : (s.servers q).process.seqCounter.toNat + 1 < 2 ^ 32 := by omega
      refine ⟨hc.fresh hw _, ?_⟩
      show ((s.servers q).process.seqCounter + 1).toNat ≤ K + 1
      rw [toNat_add_one hw]
      omega
  | @seq lk j junk m hlab hlq hm =>
    refine ⟨hc.acceptSeq _ _, ?_⟩
    rw [Server.seqCounter_acceptSeq]
    exact (Process.toNat_forwardSeqNum_le (hb.decided h hm).2 hcounter).trans hle

end Sys.Bounded

theorem bounded (hd : DistinctIds ls) (hrun : cfg.lts.Run ls s) (hK : freshProposals cfg ls < 2 ^ 32) :
    s.Bounded cfg (freshProposals cfg ls) := by
  refine hd.along.induction (P := fun ls s => freshProposals cfg ls < 2 ^ 32 → s.Bounded cfg (freshProposals cfg ls))
    ?_ ?_ hrun hK
  · intro _
    exact ⟨fun q _ => Server.counted_init _ _ _, fun q _ => Nat.zero_le _⟩
  · intro ls s l s' hrun hf ih _ hs hK
    rw [freshProposals, Lts.count_concat hrun] at hK ⊢
    exact (ih (Nat.lt_of_le_of_lt (Nat.le_add_right _ _) hK)).step (Sys.Inv.of_along hf hrun) (step_iff.1 hs) hK

/-- As long as the processes together have made fewer than 2^32 fresh proposals, no counter and no number in a queue,
an ack or a sequence message exceeds the number of fresh proposals; the numbers of messages are at least 1, and the
counter of a process is at least every number in its queue. -/
theorem numbers_bounded (hd : DistinctIds ls) (hrun : cfg.lts.Run ls s) (hK : freshProposals cfg ls < 2 ^ 32) :
    (∀ q, q.toNat < cfg.n →
      (s.servers q).process.seqCounter.toNat ≤ freshProposals cfg ls ∧
      (∀ k v, (s.servers q).queue.pendingSeqs.lookup k = some v →
        Numbered (freshProposals cfg ls) v.seq ∧ v.seq ≤ (s.servers q).process.seqCounter) ∧
      (∀ e ∈ (s.servers q).queue.ordering,
        Numbered (freshProposals cfg ls) e.pms.seq ∧ e.pms.seq ≤ (s.servers q).process.seqCounter) ∧
      (∀ a ∈ acks (s.log q), Numbered (freshProposals cfg ls) a.proposedSeq) ∧
      ∀ d ∈ deliveries (s.log q), Numbered (freshProposals cfg ls) d.finalSeq) ∧
    (∀ lk, ∀ ans ∈ s.answers lk, ∀ a, ackMsgFromBuf (cfg.host lk.client) ans.buf = some a →
      Numbered (freshProposals cfg ls) a.proposedSeq) ∧
    (∀ m, s.SeqSent cfg m → Numbered (freshProposals cfg ls) m.finalSeq) ∧
    ∀ m, s.Decided m → Numbered (freshProposals cfg ls) m.finalSeq := by
  have h := Sys.Inv.of_run hd hrun
  have hb := bounded hd hrun hK
  refine ⟨fun q hq => ⟨hb.counter q hq, fun k v hv => hb.pending hq hv, fun e he => hb.entry h hq he,
    fun a ha => hb.ack hq ha, fun d hdel => hb.decided h (h.decided_of_delivered hq hdel)⟩,
    fun lk ans hans a ha => ?_, fun m hm => ?_, fun m hm => hb.decided h hm⟩
  · obtain ⟨b, hreq, hanswered⟩ := h.answer lk ans hans
    have hq := (h.request lk b (List.mem_of_getElem? hreq)).1
    generalize ans.buf = buf at hanswered ha
    cases hanswered with
    | data hm hs hack hk =>
      rw [ackMsgFromBuf_sendAckMsg, Option.some.injEq] at ha
      have hnum := hb.ack hq hack
      exact ha ▸ hnum
    | seq => simp at ha
  · have hnum := hb.decided h (h.decided_of_seqSent hm)
    exact hnum

/-- In `pairRun` there are four fresh proposals, and the counters of both processes are at most 4. -/
theorem numbers_bounded_pairRun : freshProposals pair pairRun = 4 ∧ ∃ s, pair.lts.Run pairRun s ∧
    (s.servers 0).process.seqCounter.toNat ≤ 4 ∧ (s.servers 1).process.seqCounter.toNat ≤ 4 := by
  have hK : freshProposals pair pairRun = 4 := by decide
  obtain ⟨s, hrun, -⟩ := exists_run_pairRun
  have hb := (numbers_bounded distinctIds_pairRun hrun (by rw [hK]; decide)).1
  rw [hK] at hb
  exact ⟨hK, s, hrun, (hb 0 (by decide)).1, (hb 1 (by decide)).1⟩

end IsisMulticast

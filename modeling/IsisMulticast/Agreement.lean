import IsisMulticast.SysInv

/-!
# Agreement on the final number

All sequence messages of a message carry the same numbers, because there is one thread for it and a
thread decides once. `final_number_agreement` says which numbers they are, and that every delivery
reports them.
-/

namespace IsisMulticast
open Lib

/-- A sequence message that has been sent, as its receiver reads it. -/
def Sys.SeqSent (cfg : Config) (s : Sys) (m : SeqMessage) : Prop :=
  ∃ lk, ∃ b ∈ s.requests lk, seqMsgFromBuf (cfg.host lk.server) b = some { m with type := kSeqMessageType }

variable {cfg : Config} {s : Sys} {ls : List Label}

namespace Sys.Inv

theorem decided_of_seqSent (h : s.Inv cfg) {m : SeqMessage} (hm : s.SeqSent cfg m) : s.Decided m.untyped := by
  obtain ⟨lk, b, hb, hdec⟩ := hm
  cases (h.request lk b hb).2 with
  | data => simp at hdec
  | @seq m' hm' hs =>
    obtain rfl : m' = m.untyped := by
      rw [← (h.decision hm').untyped]
      simpa [SeqMessage.untyped] using hdec
    exact hm'

theorem seqSent_of_handled (h : s.Inv cfg) {q : Word} (hq : q.toNat < cfg.n) {m : SeqMessage}
    (hm : m ∈ finals (s.log q)) : s.SeqSent cfg m :=
  ⟨_, _, (h.handledSeq q hq m hm).2, seqMsgFromBuf_sendSeqMsg _ _ _⟩

theorem decided_of_delivered (h : s.Inv cfg) {q : Word} (hq : q.toNat < cfg.n) {m : SeqMessage}
    (hm : m ∈ deliveries (s.log q)) : s.Decided m :=
  (h.handledSeq q hq m ((h.server q hq).delivered m hm)).1

theorem launched_of_decided (h : s.Inv cfg) {m : SeqMessage} (hm : s.Decided m) :
    ∃ d, s.Launched d ∧ d.key = m.key := by
  obtain ⟨tid, t, ht, hdec⟩ := hm
  exact ⟨t.dataMsg, ⟨tid, t, ht, rfl⟩, ((h.thread tid t ht).2.2.decision hdec).1.symm⟩

end Sys.Inv

/-- All sequence messages ever sent for a message carry the same numbers: the largest of the numbers
that the processes proposed first, and the smallest process that proposed it. Every delivery reports
these numbers, of a message that its sender has multicast. -/
theorem final_number_agreement (hd : DistinctIds ls) (hrun : cfg.lts.Run ls s) :
    (∀ m m', s.SeqSent cfg m → s.SeqSent cfg m' → m.key = m'.key →
      m.finalSeq = m'.finalSeq ∧ m.finalSeqProposer = m'.finalSeqProposer) ∧
    (∀ m, s.SeqSent cfg m →
      (∀ q, q.toNat < cfg.n → ∃ x, firstProposal (s.log q) m.key = some x ∧ x ≤ m.finalSeq) ∧
      m.finalSeqProposer.toNat < cfg.n ∧ firstProposal (s.log m.finalSeqProposer) m.key = some m.finalSeq ∧
      ∀ q, q.toNat < cfg.n → firstProposal (s.log q) m.key = some m.finalSeq → m.finalSeqProposer ≤ q) ∧
    ∀ q, q.toNat < cfg.n → ∀ d ∈ deliveries (s.log q),
      (∃ m, s.Launched m ∧ m.sender = d.sender ∧ m.msgId = d.msgId) ∧
      s.SeqSent cfg d ∧ ∀ m, s.SeqSent cfg m → m.key = d.key → m.untyped = d := by
  have h := Sys.Inv.of_run hd hrun
  refine ⟨fun m m' hm hm' hk => ?_, fun m hm => ?_, fun q hq d hdel => ⟨?_, ?_, fun m hm hk => ?_⟩⟩
  · have heq := h.decided_unique (h.decided_of_seqSent hm) (h.decided_of_seqSent hm') hk
    simp only [SeqMessage.untyped, SeqMessage.mk.injEq] at heq
    exact ⟨heq.2.2.2.1, heq.2.2.2.2⟩
  · have hdec := h.decision (h.decided_of_seqSent hm)
    refine ⟨hdec.proposed, hdec.proposer_lt, hdec.proposer, fun q _ hx => ?_⟩
    by_contra hlt
    exact UInt32.lt_irrefl _ (hdec.smallest q (UInt32.not_le.1 hlt) m.finalSeq hx)
  · obtain ⟨m, hm, hk⟩ := h.launched_of_decided (h.decided_of_delivered hq hdel)
    obtain ⟨hs, hi⟩ := PendingMessageKey.mk.inj hk
    exact ⟨m, hm, hs, hi⟩
  · exact h.seqSent_of_handled hq ((h.server q hq).delivered d hdel)
  · exact h.decided_unique (h.decided_of_seqSent hm) (h.decided_of_delivered hq hdel) hk

/-- In `pairRun` every sequence message of the message of process 0 carries the number 2 of process 1. -/
theorem final_number_agreement_pairRun : ∃ s, pair.lts.Run pairRun s ∧
    ∀ m, s.SeqSent pair m → m.key = ⟨0, 7⟩ → m.untyped = pairFirst := by
  obtain ⟨s, hrun, hdel, -⟩ := exists_run_pairRun
  obtain ⟨-, -, hreport⟩ := final_number_agreement distinctIds_pairRun hrun
  exact ⟨s, hrun, (hreport 0 (by decide) pairFirst (by simp [hdel])).2.2⟩

end IsisMulticast

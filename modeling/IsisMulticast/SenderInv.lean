import IsisMulticast.History

/-!
# What a sender thread has achieved

`Sender.Resumed` says what a thread can do when `recvfrom` returns: go round the loop of
`SendWithAck` again, or accept an ack, or accept a sequence ack. `Sender.Progress` is what holds of a
thread in terms of the histories of the servers: in the data phase it has recorded the first proposal
of each process before `pid`, afterwards its sequence message carries the largest of the first
proposals of all processes (`Decision`), and each process before `pid` has handled it.
-/

namespace IsisMulticast

namespace Sender

variable {t t' : Sender} {h : HostOrder} {n : Nat} {r : Received}

/-! ### The steps of a thread -/

@[simp] theorem decided_setPc (t : Sender) (pc : Pc) : (t.setPc pc).decided = t.decided := by
  cases t with | mk id msgId data phase => cases phase <;> rfl

def Unlimited (t : Sender) : Prop := ∀ l, t.pc = some (.send l) ∨ t.pc = some (.recv l) → l.Unlimited

theorem Unlimited.setPc {pc : Pc} (hpc : ∀ l, pc = .send l ∨ pc = .recv l → l.Unlimited) :
    (t.setPc pc).Unlimited := by
  intro l hl
  refine hpc l ?_
  cases t with | mk id msgId data phase => cases phase <;> simp_all [Sender.setPc, Sender.pc]

theorem handleAck_cases (h : HostOrder) (id msgId pid : Word) (seqs : List Word) (buf : Buf) :
    (∃ a, ackMsgFromBuf h buf = some a ∧ validAckMsg a id msgId pid ∧
      handleAck h id msgId pid seqs buf = (.stop, seqs.set pid.toNat a.proposedSeq)) ∨
    ((¬ ∃ a, ackMsgFromBuf h buf = some a ∧ validAckMsg a id msgId pid) ∧
      handleAck h id msgId pid seqs buf = (.cont, seqs)) := by
  unfold handleAck
  cases ackMsgFromBuf h buf with
  | none => simp
  | some a => cases hv : validAckMsg a id msgId pid <;> simp [hv]

theorem isValidAck_cases (h : HostOrder) (m : SeqMessage) (buf : Buf) :
    (∃ a, seqAckMsgFromBuf h buf = some a ∧ validSeqAckMsg a m ∧ isValidAck h m buf = .stop) ∨
    ((¬ ∃ a, seqAckMsgFromBuf h buf = some a ∧ validSeqAckMsg a m) ∧ isValidAck h m buf = .cont) := by
  unfold isValidAck
  cases seqAckMsgFromBuf h buf with
  | none => simp
  | some a => cases hv : validSeqAckMsg a m <;> simp [hv]

/-- The callback of the current call of `SendWithAck` takes the datagram for an answer. -/
def Accepts (h : HostOrder) (t : Sender) (buf : Buf) : Prop :=
  match t.phase with
  | .data pid _ _ => ∃ a, ackMsgFromBuf h buf = some a ∧ validAckMsg a t.id t.msgId pid
  | .seq _ seqMsg _ => ∃ a, seqAckMsgFromBuf h buf = some a ∧ validSeqAckMsg a seqMsg
  | .finished _ => False

/-- What a thread does when `recvfrom` returns: another round, or the end of the call on an accepted
datagram, in the data phase with the number of the ack recorded. -/
inductive Resumed (h : HostOrder) (n : Nat) (t : Sender) : Received → Sender → Prop
  | again {r : Received} {l : SendLoop} (hin : t.inSession = true) (hl : l.Unlimited)
      (hr : ∀ buf, r = .datagram buf → ¬ t.Accepts h buf) : Resumed h n t r (t.setPc (.send l))
  | data {pid : Word} {seqs : List Word} {pc : Pc} {buf : Buf} {a : AckMessage} (hp : t.phase = .data pid seqs pc)
      (ha : ackMsgFromBuf h buf = some a) (hv : validAckMsg a t.id t.msgId pid) :
      Resumed h n t (.datagram buf) { t with phase := dataLoop n t (pid + 1) (seqs.set pid.toNat a.proposedSeq) }
  | seq {pid : Word} {m : SeqMessage} {pc : Pc} {buf : Buf} {a : SeqAckMessage} (hp : t.phase = .seq pid m pc)
      (ha : seqAckMsgFromBuf h buf = some a) (hv : validSeqAckMsg a m) :
      Resumed h n t (.datagram buf) { t with phase := seqLoop n (pid + 1) m }

theorem resumed_of_afterReceive (hu : t.Unlimited) (ht : t.afterReceive h n r = some t') :
    t.Resumed h n r t' := by
  obtain ⟨id, msgId, data, phase⟩ := t
  unfold afterReceive at ht
  match phase, hu, ht with
  | .data pid seqs (.recv l), hu, ht =>
    have hl : l.Unlimited := hu l (.inr rfl)
    rcases hl.afterReceive_cases (handleAck h id msgId pid) seqs r with
      ⟨-, heq⟩ | ⟨l', hl', rfl, heq⟩ | ⟨buf, rfl, ⟨hstop, heq⟩ | ⟨hcont, l', hl', heq⟩⟩ <;>
      simp only [heq, reduceCtorEq, Option.some.injEq] at ht
    · subst ht
      exact .again rfl hl' (by simp)
    · subst ht
      rcases handleAck_cases h id msgId pid seqs buf with ⟨a, ha, hv, hset⟩ | ⟨-, hset⟩
      · rw [hset]; exact .data rfl ha hv
      · simp [hset] at hstop
    · subst ht
      rcases handleAck_cases h id msgId pid seqs buf with ⟨a, -, -, hset⟩ | ⟨hn, hset⟩
      · simp [hset] at hcont
      · rw [hset]; exact .again rfl hl' fun _ hb => by cases hb; exact hn
  | .seq pid m (.recv l), hu, ht =>
    have hl : l.Unlimited := hu l (.inr rfl)
    rcases hl.afterReceive_cases (fun _ buf => (isValidAck h m buf, ())) () r with
      ⟨-, heq⟩ | ⟨l', hl', rfl, heq⟩ | ⟨buf, rfl, ⟨hstop, heq⟩ | ⟨hcont, l', hl', heq⟩⟩ <;>
      simp only [heq, reduceCtorEq, Option.some.injEq] at ht
    · subst ht
      exact .again rfl hl' (by simp)
    · subst ht
      rcases isValidAck_cases h m buf with ⟨a, ha, hv, -⟩ | ⟨-, hc⟩
      · exact .seq rfl ha hv
      · simp [hc] at hstop
    · subst ht
      rcases isValidAck_cases h m buf with ⟨a, -, -, hs⟩ | ⟨hn, -⟩
      · simp [hs] at hcont
      · exact .again rfl hl' fun _ hb => by cases hb; exact hn

/-- A later state of the same thread. -/
structure Evolves (t t' : Sender) : Prop where
  id : t'.id = t.id
  dataMsg : t'.dataMsg = t.dataMsg
  decided : ∀ m, t.decided = some m → t'.decided = some m

theorem Evolves.refl (t : Sender) : t.Evolves t := ⟨rfl, rfl, fun _ hm => hm⟩

theorem Evolves.key (h : t.Evolves t') : t'.key = t.key := congrArg DataMessage.key h.dataMsg

theorem evolves_setPc (t : Sender) (pc : Pc) : t.Evolves (t.setPc pc) :=
  ⟨rfl, rfl, fun m hm => by rw [decided_setPc, hm]⟩

theorem evolves_of_afterReceive (ht : t.afterReceive h n r = some t') : t.Evolves t' := by
  obtain ⟨id, msgId, data, phase⟩ := t
  unfold afterReceive at ht
  match phase, ht with
  | .data pid seqs (.recv l), ht =>
    simp only at ht
    split at ht <;> simp only [Option.some.injEq, reduceCtorEq] at ht
    all_goals subst ht; exact ⟨rfl, rfl, fun m hm => by cases hm⟩
  | .seq pid m (.recv l), ht =>
    simp only at ht
    split at ht <;> simp only [Option.some.injEq, reduceCtorEq] at ht
    · subst ht; exact ⟨rfl, rfl, fun _ hm => hm⟩
    · subst ht
      refine ⟨rfl, rfl, fun m' hm => ?_⟩
      rw [← hm]
      simp only [decided, seqLoop]
      split_ifs <;> rfl

end Sender

/-! ### Decisions -/

/-- The final number is the largest of the numbers the processes first proposed, and its proposer the
smallest process that proposed it. -/
structure Decision (cfg : Config) (logs : Word → List Effect) (m : SeqMessage) : Prop where
  untyped : m.untyped = m
  proposed : ∀ q, q.toNat < cfg.n → ∃ x, firstProposal (logs q) m.key = some x ∧ x ≤ m.finalSeq
  proposer_lt : m.finalSeqProposer.toNat < cfg.n
  proposer : firstProposal (logs m.finalSeqProposer) m.key = some m.finalSeq
  smallest : ∀ q, q < m.finalSeqProposer → ∀ x, firstProposal (logs q) m.key = some x → x < m.finalSeq

variable {cfg : Config} {logs logs' : Word → List Effect}

theorem Decision.mono {m : SeqMessage} (hlogs : ∀ q, logs q <+: logs' q) (h : Decision cfg logs m) :
    Decision cfg logs' m := by
  have hfirst : ∀ q x, firstProposal (logs q) m.key = some x → firstProposal (logs' q) m.key = some x := by
    intro q x hx
    obtain ⟨log', hlog'⟩ := hlogs q
    rw [← hlog']
    exact firstProposal_append hx log'
  refine ⟨h.untyped, fun q hq => ?_, h.proposer_lt, hfirst _ _ h.proposer, fun q hq x hx => ?_⟩
  · obtain ⟨x, hx, hle⟩ := h.proposed q hq
    exact ⟨x, hfirst q x hx, hle⟩
  · -- the first proposal of `q` has not changed since the decision
    obtain ⟨y, hy, -⟩ := h.proposed q (Nat.lt_trans (UInt32.lt_iff_toNat_lt.1 hq) h.proposer_lt)
    obtain rfl : y = x := Option.some.inj ((hfirst q y hy).symm.trans hx)
    exact h.smallest q hq y hy

namespace Sender

variable {t : Sender}

theorem decision_mkSeqMsg {seqs : List Word} (hn : 0 < cfg.n) (hlen : seqs.length = cfg.n)
    (hseqs : ∀ i : Word, i.toNat < cfg.n → ∃ x, firstProposal (logs i) t.key = some x ∧ seqs[i.toNat]? = some x) :
    Decision cfg logs (t.mkSeqMsg seqs) := by
  have hne : seqs ≠ [] := by rintro rfl; simp at hlen; omega
  obtain ⟨hall, hat, hbefore⟩ := maxSeq_largest hne (by rw [hlen]; exact cfg.n_lt)
  have hlt : (maxSeq seqs 0 0 0).2.toNat < cfg.n := by
    rw [← hlen]
    by_contra hge
    rw [List.getElem?_eq_none (by omega)] at hat
    cases hat
  refine ⟨rfl, fun q hq => ?_, hlt, ?_, fun q hq x hx => ?_⟩
  · obtain ⟨x, hx, hget⟩ := hseqs q hq
    exact ⟨x, hx, hall x (List.mem_of_getElem? hget)⟩
  · obtain ⟨x, hx, hget⟩ := hseqs _ hlt
    obtain rfl : x = (maxSeq seqs 0 0 0).1 := Option.some.inj (hget.symm.trans hat)
    exact hx
  · have hq : q.toNat < (maxSeq seqs 0 0 0).2.toNat := UInt32.lt_iff_toNat_lt.1 hq
    obtain ⟨y, hy, hget⟩ := hseqs q (by omega)
    obtain rfl : y = x := Option.some.inj (hy.symm.trans hx)
    exact hbefore _ y hq hget

/-- What the servers have done for the thread so far. -/
def Progress (cfg : Config) (logs : Word → List Effect) (t : Sender) : Prop :=
  match t.phase with
  | .data pid seqs _ => pid.toNat < cfg.n ∧ seqs.length = cfg.n ∧
      ∀ i < pid, ∃ x, firstProposal (logs i) t.key = some x ∧ seqs[i.toNat]? = some x
  | .seq pid m _ => pid.toNat < cfg.n ∧ m.key = t.key ∧ Decision cfg logs m ∧
      ∀ q < pid, HandledSeq (logs q) t.key
  | .finished m => m.key = t.key ∧ Decision cfg logs m ∧ ∀ q, q.toNat < cfg.n → HandledSeq (logs q) t.key

theorem Progress.mono (hlogs : ∀ q, logs q <+: logs' q) (h : t.Progress cfg logs) : t.Progress cfg logs' := by
  have hseq : ∀ q, HandledSeq (logs q) t.key → HandledSeq (logs' q) t.key := by
    intro q hq
    obtain ⟨log', hlog'⟩ := hlogs q
    rw [← hlog']
    exact hq.append log'
  unfold Progress at h ⊢
  cases hp : t.phase with
  | data pid seqs pc =>
    simp only [hp] at h ⊢
    refine ⟨h.1, h.2.1, fun i hi => ?_⟩
    obtain ⟨x, hx, hget⟩ := h.2.2 i hi
    obtain ⟨log', hlog'⟩ := hlogs i
    rw [← hlog']
    exact ⟨x, firstProposal_append hx log', hget⟩
  | seq pid m pc =>
    simp only [hp] at h ⊢
    exact ⟨h.1, h.2.1, h.2.2.1.mono hlogs, fun q hq => hseq q (h.2.2.2 q hq)⟩
  | finished m =>
    simp only [hp] at h ⊢
    exact ⟨h.1, h.2.1.mono hlogs, fun q hq => hseq q (h.2.2 q hq)⟩

theorem Progress.setPc (h : t.Progress cfg logs) (pc : Pc) : (t.setPc pc).Progress cfg logs := by
  obtain ⟨id, msgId, data, phase⟩ := t
  cases phase <;> exact h

theorem Progress.decision (h : t.Progress cfg logs) {m : SeqMessage} (hm : t.decided = some m) :
    m.key = t.key ∧ Decision cfg logs m := by
  unfold Progress at h
  unfold decided at hm
  cases hp : t.phase with
  | data pid seqs pc => simp [hp] at hm
  | seq pid m' pc =>
    simp only [hp, Option.some.injEq] at h hm
    subst hm
    exact ⟨h.2.1, h.2.2.1⟩
  | finished m' =>
    simp only [hp, Option.some.injEq] at h hm
    subst hm
    exact ⟨h.1, h.2.1⟩

theorem progress_seqLoop {pid : Word} {m : SeqMessage} (hk : m.key = t.key) (hm : Decision cfg logs m)
    (hpid : pid.toNat ≤ cfg.n) (hseq : ∀ q < pid, HandledSeq (logs q) t.key) :
    Progress cfg logs { t with phase := seqLoop cfg.n pid m } := by
  unfold seqLoop
  split_ifs with hlt
  · exact ⟨hlt, hk, hm, hseq⟩
  · refine ⟨hk, hm, fun q hq => hseq q ?_⟩
    rw [UInt32.lt_iff_toNat_lt]; omega

theorem progress_dataLoop {pid : Word} {seqs : List Word} (hn : 0 < cfg.n) (hlen : seqs.length = cfg.n)
    (hpid : pid.toNat ≤ cfg.n)
    (hseqs : ∀ i < pid, ∃ x, firstProposal (logs i) t.key = some x ∧ seqs[i.toNat]? = some x) :
    Progress cfg logs { t with phase := dataLoop cfg.n t pid seqs } := by
  unfold dataLoop
  split_ifs with hlt
  · exact ⟨hlt, hlen, hseqs⟩
  · refine progress_seqLoop rfl (decision_mkSeqMsg hn hlen fun i hi => hseqs i ?_) (by simp) (by simp)
    rw [UInt32.lt_iff_toNat_lt]; omega

theorem progress_launch {id msgId data : Word} (hn : 0 < cfg.n) :
    (launch cfg.n id msgId data).Progress cfg logs :=
  progress_dataLoop hn (by simp) (by simp) (by simp)

theorem unlimited_dataLoop (t : Sender) (n : Nat) (pid : Word) (seqs : List Word) :
    Unlimited { t with phase := dataLoop n t pid seqs } := by
  intro l hl
  simp only [pc, dataLoop, seqLoop] at hl
  split_ifs at hl <;> simp at hl

theorem unlimited_seqLoop (t : Sender) (n : Nat) (pid : Word) (m : SeqMessage) :
    Unlimited { t with phase := seqLoop n pid m } := by
  intro l hl
  simp only [pc, seqLoop] at hl
  split_ifs at hl <;> simp at hl

end Sender

end IsisMulticast

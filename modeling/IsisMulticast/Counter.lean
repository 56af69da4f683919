import IsisMulticast.Listener

/-!
# The sequence counter of a process

`Server.Counted`: as long as the counter does not wrap it is at least every number the process has proposed and
every final number it has been told, and a number is proposed for one message only. `README.md` and
`process.h` rely on the first part: a fresh proposal is greater than all numbers seen. It holds exactly as long
as no fresh proposal is made at the largest word (`fresh_proposal_iff`), and a single sequence message can
take the counter there (`largest_final_wraps`).
-/

namespace IsisMulticast
open Lib

namespace Server

structure Counted (sv : Server) : Prop where
  pending : ∀ k v, sv.pending k = some v → ∃ a ∈ acks sv.log, a.key = k ∧ a.proposedSeq = v.seq
  ack_pos : ∀ a ∈ acks sv.log, 0 < a.proposedSeq
  ack_le : ∀ a ∈ acks sv.log, a.proposedSeq ≤ sv.process.seqCounter
  ack_inj : ∀ a ∈ acks sv.log, ∀ b ∈ acks sv.log, a.proposedSeq = b.proposedSeq → a.key = b.key
  final_le : ∀ m ∈ finals sv.log, m.finalSeq ≤ sv.process.seqCounter

variable {id : Word} {n : Nat} {host : HostOrder} {sv : Server} {ds : List (Buf × Word)} {d : Buf × Word}

theorem counted_init (id : Word) (n : Nat) (host : HostOrder) : Counted ⟨.init id n host, true, []⟩ where
  pending k v h := by simp [Server.pending, Server.queue, Process.init, HoldBackQueue.empty] at h
  ack_pos a h := by simp [acks] at h
  ack_le a h := by simp [acks] at h
  ack_inj a h := by simp [acks] at h
  final_le m h := by simp [finals] at h

/-- A replay repeats an earlier ack. -/
theorem Counted.replay (h : sv.Counted) {m : DataMessage} {v : PendingMessageSeq} (hp : sv.pending m.key = some v) :
    (sv.after { process := sv.process, effects := [.receivedData m, .sendAck
      { sender := m.sender, msgId := m.msgId, proposedSeq := v.seq, proposer := v.seqProposer }] }).Counted := by
  obtain ⟨b, hb, hbk, hbv⟩ := h.pending _ _ hp
  set a : AckMessage := { sender := m.sender, msgId := m.msgId, proposedSeq := v.seq, proposer := v.seqProposer }
  have hold : ∀ c ∈ acks (sv.log ++ [.receivedData m, .sendAck a]),
      ∃ c' ∈ acks sv.log, c'.key = c.key ∧ c'.proposedSeq = c.proposedSeq := by
    intro c hc
    rcases mem_acks_data.1 hc with hc | rfl
    · exact ⟨c, hc, rfl, rfl⟩
    · exact ⟨b, hb, hbk, hbv⟩
  refine ⟨fun k w hw => ?_, fun c hc => ?_, fun c hc => ?_, fun c hc c' hc' heq => ?_, fun f hf => ?_⟩
  · obtain ⟨c, hc, hcw⟩ := h.pending k w hw
    exact ⟨c, by simp [Server.after, hc], hcw⟩
  · obtain ⟨c', hc', -, heq⟩ := hold c hc
    exact heq ▸ h.ack_pos c' hc'
  · obtain ⟨c', hc', -, heq⟩ := hold c hc
    exact heq ▸ h.ack_le c' hc'
  · obtain ⟨e, he, hek, hev⟩ := hold c hc
    obtain ⟨e', he', hek', hev'⟩ := hold c' hc'
    rw [← hek, ← hek', h.ack_inj e he e' he' (by rw [hev, hev', heq])]
  · exact h.final_le f (by simpa [Server.after] using hf)

/-- A fresh proposal is above everything. -/
theorem Counted.lt_fresh (h : sv.Counted) (hw : sv.process.seqCounter.toNat + 1 < 2 ^ 32) (m : DataMessage) :
    (∀ a ∈ acks sv.log, a.proposedSeq < (sv.process.freshAck m).proposedSeq) ∧
      ∀ f ∈ finals sv.log, f.finalSeq < (sv.process.freshAck m).proposedSeq :=
  ⟨fun a ha => UInt32.lt_of_le_of_lt (h.ack_le a ha) (lt_add_one hw),
    fun f hf => UInt32.lt_of_le_of_lt (h.final_le f hf) (lt_add_one hw)⟩

theorem Counted.fresh (h : sv.Counted) (hw : sv.process.seqCounter.toNat + 1 < 2 ^ 32) (m : DataMessage) :
    (sv.after { process := sv.process.insertFresh m, effects :=
      [.receivedData m, .sendAck (sv.process.freshAck m)] }).Counted := by
  obtain ⟨hack, hfinal⟩ := h.lt_fresh hw m
  refine ⟨fun k w hw => ?_, fun c hc => ?_, fun c hc => ?_, fun c hc c' hc' heq => ?_, fun f hf => ?_⟩
  · have hw : (sv.queue.addPending (sv.process.freshAck m) m.data).pendingSeqs.lookup k = some w := hw
    rw [HoldBackQueue.lookup_addPending] at hw
    split_ifs at hw with hk
    · exact ⟨_, by simp [Server.after], hk.symm, by rw [← Option.some.inj hw]⟩
    · obtain ⟨c, hc, hcw⟩ := h.pending k w hw
      exact ⟨c, by simp [Server.after, hc], hcw⟩
  · rcases mem_acks_data.1 hc with hc | rfl
    · exact h.ack_pos c hc
    · exact UInt32.lt_of_le_of_lt UInt32.zero_le (lt_add_one hw)
  · rcases mem_acks_data.1 hc with hc | rfl
    · exact UInt32.le_of_lt (hack c hc)
    · exact UInt32.le_refl _
  · rcases mem_acks_data.1 hc with hc | rfl <;> rcases mem_acks_data.1 hc' with hc' | rfl
    · exact h.ack_inj c hc c' hc' heq
    · exact absurd (hack c hc) (heq ▸ UInt32.lt_irrefl _)
    · exact absurd (hack c' hc') (heq ▸ UInt32.lt_irrefl _)
    · rfl
  · exact UInt32.le_of_lt (hfinal f (by simpa [Server.after] using hf))

theorem Counted.acceptData (h : sv.Counted) (hq : sv.queue.Inv) (m : DataMessage)
    (hw : sv.pending m.key = none → sv.process.seqCounter.toNat + 1 < 2 ^ 32) :
    (sv.after (sv.process.acceptData m)).Counted := by
  rcases Process.acceptData_cases hq m with ⟨v, hv, heq⟩ | ⟨hnone, heq⟩ <;> rw [heq]
  · exact h.replay hv
  · exact h.fresh (hw hnone) m

theorem seqCounter_acceptSeq (sv : Server) (m : SeqMessage) (junk : Word) :
    (sv.after (sv.process.acceptSeq m junk)).process.seqCounter =
      (sv.process.forwardSeqNum m.finalSeq).seqCounter := rfl

theorem Counted.acceptSeq (h : sv.Counted) (m : SeqMessage) (junk : Word) :
    (sv.after (sv.process.acceptSeq m junk)).Counted := by
  obtain ⟨hm, hold⟩ := sv.process.le_forwardSeqNum m.finalSeq
  refine ⟨fun k v hv => ?_, fun a ha => ?_, fun a ha => ?_, fun a ha b hb => ?_, fun f hf => ?_⟩
  · rw [pending_acceptSeq] at hv
    split_ifs at hv
    rw [acks_acceptSeq]
    exact h.pending k v hv
  · rw [acks_acceptSeq] at ha
    exact h.ack_pos a ha
  · rw [acks_acceptSeq] at ha
    rw [seqCounter_acceptSeq]
    exact UInt32.le_trans (h.ack_le a ha) hold
  · rw [acks_acceptSeq] at ha hb
    exact h.ack_inj a ha b hb
  · rw [finals_acceptSeq, List.mem_append, List.mem_singleton] at hf
    rw [seqCounter_acceptSeq]
    rcases hf with hf | rfl
    · exact UInt32.le_trans (h.final_le f hf) hold
    · exact hm

/-- The counter of a server that has proposed nothing and been told nothing. -/
theorem seqCounter_eq_zero (hrun : (listener id n host).Run ds sv) (ha : acks sv.log = []) (hf : finals sv.log = []) :
    sv.process.seqCounter = 0 := by
  refine hears_induction (P := fun sv => acks sv.log = [] → finals sv.log = [] → sv.process.seqCounter = 0)
    (G := fun _ _ => True) (fun _ _ => rfl) ?_ (fun _ _ _ _ _ _ => trivial) hrun ha hf
  intro sv d sv' ih _ hh ha hf
  cases hh with
  | replay | fresh => simp [Server.after] at ha
  | seq => simp at hf
  | drop => exact ih (by simpa [Server.after] using ha) (by simpa [Server.after] using hf)

/-- A fresh proposal is not made at the largest word. -/
def BelowMax (sv : Server) (d : Buf × Word) : Prop :=
  sv.process.proposes d.1 → sv.process.seqCounter.toNat + 1 < 2 ^ 32

theorem counted (hb : (listener id n host).Along BelowMax ds) (hrun : (listener id n host).Run ds sv) :
    sv.Counted := by
  refine hears_induction (P := Counted) (counted_init id n host) ?_ hb hrun
  intro sv d sv' h hd hh
  cases hh with
  | replay hbuf hm hp => exact h.replay hp
  | @fresh m hbuf hm hp => exact h.fresh (hd ((Process.proposes_iff hbuf hm).2 hp)) m
  | seq => exact h.acceptSeq _ _
  | drop =>
    rw [Server.after, List.append_nil]
    exact ⟨h.pending, h.ack_pos, h.ack_le, h.ack_inj, h.final_le⟩

/-- The ack of a fresh proposal. -/
theorem acks_onReceive (hl : sv.Listens id n host) (hd : sv.process.proposes d.1) :
    ∃ m, acks (sv.process.onReceive d.1 d.2).effects = [sv.process.freshAck m] := by
  have hr := sv.process.reacts d.1 d.2
  by_cases hbuf : IsDataRequest sv.process.processCount d.1
  · generalize sv.process.onReceive d.1 d.2 = o at hr ⊢
    cases hr with
    | @data m _ hm =>
      have hp := (Process.proposes_iff hbuf hm).1 hd
      rcases Process.acceptData_cases hl.queue m with ⟨v, hv, -⟩ | ⟨-, heq⟩
      · cases hp.symm.trans hv
      · exact ⟨m, by rw [heq]; rfl⟩
    | seq hs =>
      have hlen := hbuf.1.symm.trans hs.1
      omega
    | drop hno => exact absurd (.inl hbuf) hno
  · rw [Process.proposes_eq_false hbuf] at hd
    cases hd

end Server

/-- A fresh proposal is greater than every number proposed and every final number accepted before, at every
datagram of a sequence, if and only if no fresh proposal of the sequence is made with the counter at the largest
word. -/
theorem fresh_proposal_iff (id : Word) (n : Nat) (host : HostOrder) (ds : List (Buf × Word)) :
    (∀ ds₁ d ds₂ sv, ds = ds₁ ++ d :: ds₂ → (listener id n host).Run ds₁ sv → sv.process.proposes d.1 = true →
      ∃ a, acks (sv.process.onReceive d.1 d.2).effects = [a] ∧ (∀ b ∈ acks sv.log, b.proposedSeq < a.proposedSeq) ∧
        ∀ m ∈ finals sv.log, m.finalSeq < a.proposedSeq) ↔
      (listener id n host).Along Server.BelowMax ds := by
  constructor
  · intro hall ds₁ d ds₂ sv heq hrun hd
    obtain ⟨m, hfresh⟩ := Server.acks_onReceive (Server.listens hrun) hd
    obtain ⟨a, ha, hack, hfinal⟩ := hall ds₁ d ds₂ sv heq hrun hd
    obtain rfl := List.singleton_inj.1 (ha.symm.trans hfresh)
    by_contra hmax
    -- the proposal is 0, so nothing was seen before, and the counter cannot have moved
    have hzero : (sv.process.freshAck m).proposedSeq = 0 := by
      have := sv.process.seqCounter.toNat_lt
      apply UInt32.toNat_inj.1
      show (sv.process.seqCounter + 1).toNat = 0
      rw [UInt32.toNat_add, UInt32.toNat_one]
      omega
    have hno : ∀ x : Word, ¬ x < (sv.process.freshAck m).proposedSeq := by
      intro x
      rw [hzero, UInt32.lt_iff_toNat_lt]
      exact Nat.not_lt_zero _
    have hacks : acks sv.log = [] := List.eq_nil_iff_forall_not_mem.2 fun b hb => hno _ (hack b hb)
    have hfinals : finals sv.log = [] := List.eq_nil_iff_forall_not_mem.2 fun f hf => hno _ (hfinal f hf)
    rw [Server.seqCounter_eq_zero hrun hacks hfinals] at hmax
    exact hmax (by decide)
  · rintro hb ds₁ d ds₂ sv rfl hrun hd
    obtain ⟨m, hfresh⟩ := Server.acks_onReceive (Server.listens hrun) hd
    exact ⟨_, hfresh, (Server.counted hb.append_left hrun).lt_fresh (hb ds₁ d ds₂ sv rfl hrun hd) m⟩

/-- A sequence message of any peer with the largest number, and then a data message. -/
def largestFinalDatagrams : List (Buf × Word) :=
  [(sendSeqMsg .little { sender := 1, msgId := 7, finalSeq := 4294967295, finalSeqProposer := 1 }, 0),
    (sendDataMsg .little { sender := 1, msgId := 8, data := 60 }, 0)]

theorem largest_final_wraps : ∃ sv, (listener 0 2 .little).Run largestFinalDatagrams sv ∧
    finals sv.log = [{ sender := 1, msgId := 7, finalSeq := 4294967295, finalSeqProposer := 1 }] ∧
    acks sv.log = [{ sender := 1, msgId := 8, proposedSeq := 0, proposer := 0 }] := by
  have h : ((listener 0 2 .little).exec largestFinalDatagrams).map (fun sv => (finals sv.log, acks sv.log)) =
      some ([{ sender := 1, msgId := 7, finalSeq := 4294967295, finalSeqProposer := 1 }],
        [{ sender := 1, msgId := 8, proposedSeq := 0, proposer := 0 }]) := by decide
  obtain ⟨sv, hrun, heq⟩ := Option.map_eq_some_iff.1 h
  exact ⟨sv, hrun, Prod.mk.inj heq⟩

end IsisMulticast

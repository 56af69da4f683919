import IsisMulticast.ServerInv
import IsisMulticast.Runs
import IsisMulticast.QueueRuns

/-!
# One process under any datagrams

`listener` is a process with its `Listen` loop alone: it is handed datagrams one after the other, of any bytes
and any length, whoever sent them. `Process.reacts` says what the callback makes of a datagram: it
accepts a data message, accepts a sequence message or drops it. Which of them is decided by the
bytes alone (`IsRequest`), so the datagrams that are dropped can be deleted (`reacts_to_requests`).
-/

namespace IsisMulticast
open Lib

def IsDataRequest (n : Nat) (buf : Buf) : Prop :=
  buf.length = 16 ∧ wordAt .big buf 0 = 1 ∧ (wordAt .big buf 1).toNat < n

def IsSeqRequest (n : Nat) (buf : Buf) : Prop :=
  buf.length = 20 ∧ wordAt .big buf 0 = 3 ∧ (wordAt .big buf 1).toNat < n ∧ (wordAt .big buf 4).toNat < n

instance (n : Nat) (buf : Buf) : Decidable (IsDataRequest n buf) := inferInstanceAs (Decidable (_ ∧ _))
instance (n : Nat) (buf : Buf) : Decidable (IsSeqRequest n buf) := inferInstanceAs (Decidable (_ ∧ _))

/-- The datagrams of `n` processes that a server should react to. -/
def IsRequest (n : Nat) (buf : Buf) : Prop := IsDataRequest n buf ∨ IsSeqRequest n buf

instance (n : Nat) (buf : Buf) : Decidable (IsRequest n buf) := inferInstanceAs (Decidable (_ ∨ _))

section
variable {h : HostOrder} {n : Nat} {buf : Buf}

theorem dataMsgFromBuf_eq_some {m : DataMessage} : dataMsgFromBuf h buf = some m ↔ buf.length = 16 ∧
    m = ⟨wordAt .big buf 0, wordAt .big buf 1, wordAt .big buf 2, wordAt .big buf 3⟩ := by
  simp [dataMsgFromBuf, sizeofDataMessage, ntohl_wordAt, eq_comm]

theorem seqMsgFromBuf_eq_some {m : SeqMessage} : seqMsgFromBuf h buf = some m ↔ buf.length = 20 ∧
    m = ⟨wordAt .big buf 0, wordAt .big buf 1, wordAt .big buf 2, wordAt .big buf 3, wordAt .big buf 4⟩ := by
  simp [seqMsgFromBuf, sizeofSeqMessage, ntohl_wordAt, eq_comm]

theorem isDataRequest_iff : IsDataRequest n buf ↔ ∃ m, dataMsgFromBuf h buf = some m ∧ validDataMsg m n := by
  simp only [dataMsgFromBuf_eq_some, validDataMsg_iff, IsDataRequest]
  constructor
  · rintro ⟨hlen, ht, hs⟩
    exact ⟨_, ⟨hlen, rfl⟩, ht, hs⟩
  · rintro ⟨m, ⟨hlen, rfl⟩, ht, hs⟩
    exact ⟨hlen, ht, hs⟩

theorem isSeqRequest_iff : IsSeqRequest n buf ↔ ∃ m, seqMsgFromBuf h buf = some m ∧ validSeqMsg m n := by
  simp only [seqMsgFromBuf_eq_some, validSeqMsg_iff, IsSeqRequest]
  constructor
  · rintro ⟨hlen, ht, hs, hp⟩
    exact ⟨_, ⟨hlen, rfl⟩, ht, hs, hp⟩
  · rintro ⟨m, ⟨hlen, rfl⟩, ht, hs, hp⟩
    exact ⟨hlen, ht, hs, hp⟩

end

namespace Process
variable {p : Process} {buf : Buf} {junk : Word}

/-- What the callback makes of a datagram. -/
inductive Reacts (p : Process) (buf : Buf) (junk : Word) : Outcome → Prop
  | data {m : DataMessage} (hbuf : IsDataRequest p.processCount buf) (hm : dataMsgFromBuf p.host buf = some m) :
      Reacts p buf junk (p.acceptData m)
  | seq {m : SeqMessage} (hbuf : IsSeqRequest p.processCount buf) (hm : seqMsgFromBuf p.host buf = some m) :
      Reacts p buf junk (p.acceptSeq m junk)
  | drop (hbuf : ¬ IsRequest p.processCount buf) : Reacts p buf junk { process := p, effects := [] }

theorem reacts_handleDataMsg (ht : wordAt .big buf 0 = kDataMessageType) :
    p.Reacts buf junk (p.handleDataMsg buf) := by
  have hseq : ¬ IsSeqRequest p.processCount buf := fun hs => absurd (ht.symm.trans hs.2.1) (by decide)
  have hdrop : ¬ IsDataRequest p.processCount buf → p.Reacts buf junk { process := p, effects := [] } :=
    fun hd => .drop (not_or.2 ⟨hd, hseq⟩)
  cases hm : dataMsgFromBuf p.host buf with
  | none =>
    simp only [handleDataMsg, hm]
    refine hdrop fun hd => ?_
    obtain ⟨m, hm', -⟩ := (isDataRequest_iff (h := p.host)).1 hd
    simp [hm] at hm'
  | some m =>
    simp only [handleDataMsg, hm]
    split_ifs with hv
    · refine hdrop fun hd => ?_
      obtain ⟨m', hm', hv'⟩ := (isDataRequest_iff (h := p.host)).1 hd
      obtain rfl := Option.some.inj (hm.symm.trans hm')
      simp [hv'] at hv
    · exact .data (isDataRequest_iff.2 ⟨m, hm, by simpa using hv⟩) hm

theorem reacts_handleSeqMsg (ht : wordAt .big buf 0 = kSeqMessageType) :
    p.Reacts buf junk (p.handleSeqMsg buf junk) := by
  have hdata : ¬ IsDataRequest p.processCount buf := fun hd => absurd (ht.symm.trans hd.2.1) (by decide)
  have hdrop : ¬ IsSeqRequest p.processCount buf → p.Reacts buf junk { process := p, effects := [] } :=
    fun hs => .drop (not_or.2 ⟨hdata, hs⟩)
  cases hm : seqMsgFromBuf p.host buf with
  | none =>
    simp only [handleSeqMsg, hm]
    refine hdrop fun hs => ?_
    obtain ⟨m, hm', -⟩ := (isSeqRequest_iff (h := p.host)).1 hs
    simp [hm] at hm'
  | some m =>
    simp only [handleSeqMsg, hm]
    split_ifs with hv
    · refine hdrop fun hs => ?_
      obtain ⟨m', hm', hv'⟩ := (isSeqRequest_iff (h := p.host)).1 hs
      obtain rfl := Option.some.inj (hm.symm.trans hm')
      simp [hv'] at hv
    · exact .seq (isSeqRequest_iff.2 ⟨m, hm, by simpa using hv⟩) hm

theorem reacts (p : Process) (buf : Buf) (junk : Word) : p.Reacts buf junk (p.onReceive buf junk) := by
  rw [onReceive, messageTypeFromBuf, ntohl_wordAt]
  by_cases hlen : buf.length < 4
  · rw [if_pos hlen]
    refine .drop ?_
    rintro (hd | hs)
    · have := hd.1; omega
    · have := hs.1; omega
  · simp only [if_neg hlen]
    split_ifs with hdata hseq
    · exact reacts_handleDataMsg hdata
    · exact reacts_handleSeqMsg hseq
    · refine .drop ?_
      rintro (hd | hs)
      · exact hdata hd.2.1
      · exact hseq hs.2.1

theorem onReceive_of_not_isRequest (hbuf : ¬ IsRequest p.processCount buf) :
    p.onReceive buf junk = { process := p, effects := [] } := by
  have hr := p.reacts buf junk
  generalize p.onReceive buf junk = o at hr
  cases hr with
  | data hd => exact absurd (.inl hd) hbuf
  | seq hs => exact absurd (.inr hs) hbuf
  | drop => rfl

theorem proposes_eq_false (hbuf : ¬ IsDataRequest p.processCount buf) : p.proposes buf = false := by
  unfold proposes
  split
  · rfl
  · rename_i m hm
    have hv : validDataMsg m p.processCount = false :=
      Bool.eq_false_iff.2 fun hv => hbuf (isDataRequest_iff.2 ⟨m, hm, hv⟩)
    rw [hv, Bool.false_and]

theorem proposes_iff {m : DataMessage} (hbuf : IsDataRequest p.processCount buf)
    (hm : dataMsgFromBuf p.host buf = some m) :
    p.proposes buf = true ↔ p.holdBackQueue.pendingSeqs.lookup m.key = none := by
  obtain ⟨m', hm', hv⟩ := (isDataRequest_iff (h := p.host)).1 hbuf
  obtain rfl := Option.some.inj (hm.symm.trans hm')
  simp [proposes, hm, hv, HoldBackQueue.lookup_eq_none]

end Process

/-- A process alone with its `Listen` loop. Each datagram comes with the indeterminate value that handling it
may pick up. -/
def listener (id : Word) (n : Nat) (host : HostOrder) : Lts Server (Buf × Word) where
  init := ⟨.init id n host, true, []⟩
  step sv d := if sv.listening then some (sv.after (sv.process.onReceive d.1 d.2)) else none

/-- The discipline of `HandleDataMsg`: it inserts only what `Lookup` did not find. -/
def HoldBackQueue.LookedUp (q : HoldBackQueue) : QueueCall → Prop
  | .insertUndeliverable a _ => q.pendingSeqs.lookup a.key = none
  | _ => True

namespace Server
open HoldBackQueue (machine LookedUp reached)

variable {id : Word} {n : Nat} {host : HostOrder} {sv sv' : Server} {ds : List (Buf × Word)} {d : Buf × Word}
  {buf : Buf} {junk : Word}

/-- One more datagram, by what it was. -/
inductive Hears (sv : Server) (buf : Buf) (junk : Word) : Server → Prop
  | replay {m : DataMessage} {v : PendingMessageSeq} (hbuf : IsDataRequest sv.process.processCount buf)
      (hm : dataMsgFromBuf sv.process.host buf = some m) (hp : sv.pending m.key = some v) :
      Hears sv buf junk (sv.after { process := sv.process, effects := [.receivedData m, .sendAck
        { sender := m.sender, msgId := m.msgId, proposedSeq := v.seq, proposer := v.seqProposer }] })
  | fresh {m : DataMessage} (hbuf : IsDataRequest sv.process.processCount buf)
      (hm : dataMsgFromBuf sv.process.host buf = some m) (hp : sv.pending m.key = none) :
      Hears sv buf junk (sv.after
        { process := sv.process.insertFresh m, effects := [.receivedData m, .sendAck (sv.process.freshAck m)] })
  | seq {m : SeqMessage} (hbuf : IsSeqRequest sv.process.processCount buf)
      (hm : seqMsgFromBuf sv.process.host buf = some m) : Hears sv buf junk (sv.after (sv.process.acceptSeq m junk))
  | drop (hbuf : ¬ IsRequest sv.process.processCount buf) :
      Hears sv buf junk (sv.after { process := sv.process, effects := [] })

theorem hears (hq : sv.queue.Inv) (buf : Buf) (junk : Word) :
    sv.Hears buf junk (sv.after (sv.process.onReceive buf junk)) := by
  have hr := sv.process.reacts buf junk
  generalize sv.process.onReceive buf junk = o at hr ⊢
  cases hr with
  | @data m hbuf hm =>
    rcases Process.acceptData_cases hq m with ⟨v, hv, heq⟩ | ⟨hnone, heq⟩ <;> rw [heq]
    · exact .replay hbuf hm hv
    · exact .fresh hbuf hm hnone
  | seq hbuf hm => exact .seq hbuf hm
  | drop hbuf => exact .drop hbuf

/-- A server between two datagrams: it listens, its parameters are as they were, and its queue was
used with discipline. -/
structure Listens (id : Word) (n : Nat) (host : HostOrder) (sv : Server) : Prop where
  listening : sv.listening = true
  id_eq : sv.process.id = id
  count_eq : sv.process.processCount = n
  host_eq : sv.process.host = host
  calls : ∃ calls, machine.Along LookedUp calls ∧ sv.queue = reached calls

theorem Listens.queue (h : sv.Listens id n host) : sv.queue.Inv := by
  obtain ⟨calls, -, heq⟩ := h.calls
  exact heq ▸ HoldBackQueue.inv_reached calls

theorem listens_init (id : Word) (n : Nat) (host : HostOrder) : (listener id n host).init.Listens id n host :=
  ⟨rfl, rfl, rfl, rfl, [], fun _ _ _ _ h => by simp at h, rfl⟩

/-- One more call of the queue. -/
theorem exists_calls_concat {q : HoldBackQueue} {c : QueueCall} (hc : q.LookedUp c)
    (h : ∃ calls, machine.Along LookedUp calls ∧ q = reached calls) :
    ∃ calls, machine.Along LookedUp calls ∧ (q.call c).2 = reached calls := by
  obtain ⟨calls, halong, rfl⟩ := h
  have hrun := HoldBackQueue.run_reached calls
  exact ⟨calls ++ [c], (Lts.along_concat hrun).2 ⟨halong, hc⟩, HoldBackQueue.reached_concat.symm⟩

theorem Listens.after (h : sv.Listens id n host) (buf : Buf) (junk : Word) :
    (sv.after (sv.process.onReceive buf junk)).Listens id n host := by
  have hh := hears h.queue buf junk
  generalize sv.after (sv.process.onReceive buf junk) = sv' at hh ⊢
  cases hh with
  | replay | drop => exact ⟨rfl, h.id_eq, h.count_eq, h.host_eq, h.calls⟩
  | @fresh m hbuf hm hp =>
    refine ⟨rfl, h.id_eq, h.count_eq, h.host_eq, ?_⟩
    have hins := HoldBackQueue.insertUndeliverable_of_none (a := sv.process.freshAck m) h.queue m.data hp
    have hcall := exists_calls_concat (c := .insertUndeliverable (sv.process.freshAck m) m.data) hp h.calls
    rwa [HoldBackQueue.call, hins] at hcall
  | @seq m hbuf hm =>
    refine ⟨rfl, ?_, ?_, ?_, ?_⟩
    · simpa [Server.after, Process.acceptSeq] using h.id_eq
    · simpa [Server.after, Process.acceptSeq] using h.count_eq
    · simpa [Server.after, Process.acceptSeq] using h.host_eq
    · rw [queue_acceptSeq]
      exact exists_calls_concat (c := .setDeliverable m junk) trivial h.calls

theorem step_listener (h : sv.Listens id n host) :
    (listener id n host).step sv d = some (sv.after (sv.process.onReceive d.1 d.2)) :=
  if_pos h.listening

theorem listens (hrun : (listener id n host).Run ds sv) : sv.Listens id n host := by
  refine hrun.induction (P := fun _ sv => sv.Listens id n host) (listens_init id n host) ?_
  intro _ sv d sv' _ h hs
  rw [step_listener h, Option.some.injEq] at hs
  exact hs ▸ h.after d.1 d.2

/-- The loop never ends. -/
theorem exists_run (id : Word) (n : Nat) (host : HostOrder) (ds : List (Buf × Word)) :
    ∃ sv, (listener id n host).Run ds sv := by
  induction ds using List.reverseRecOn with
  | nil => exact ⟨_, rfl⟩
  | append_singleton ds d ih =>
    obtain ⟨sv, hrun⟩ := ih
    exact ⟨_, Lts.run_concat.2 ⟨sv, hrun, step_listener (listens hrun)⟩⟩

/-- The invariant rule: what a datagram does to a server is one of the cases of `Hears`. -/
theorem hears_induction {P : Server → Prop} {G : Server → Buf × Word → Prop} (hinit : P (listener id n host).init)
    (hstep : ∀ sv d sv', P sv → G sv d → sv.Hears d.1 d.2 sv' → P sv') (hG : (listener id n host).Along G ds)
    (hrun : (listener id n host).Run ds sv) : P sv := by
  refine hG.induction (P := fun _ sv => P sv) hinit ?_ hrun
  intro _ sv d sv' hrun _ hP hd hs
  have hl := listens hrun
  rw [step_listener hl, Option.some.injEq] at hs
  exact hstep sv d sv' hP hd (hs ▸ hears hl.queue d.1 d.2)

theorem after_drop (hl : sv.listening = true) : sv.after { process := sv.process, effects := [] } = sv := by
  obtain ⟨p, l, log⟩ := sv
  simp only at hl
  simp [Server.after, hl]

/-- A dropped datagram leaves no trace. -/
theorem Listens.after_of_not_isRequest (h : sv.Listens id n host) (hbuf : ¬ IsRequest n buf) :
    sv.after (sv.process.onReceive buf junk) = sv := by
  rw [Process.onReceive_of_not_isRequest (h.count_eq ▸ hbuf), after_drop h.listening]

theorem run_filter_isRequest (hrun : (listener id n host).Run ds sv) :
    (listener id n host).Run (ds.filter fun d => IsRequest n d.1) sv := by
  refine hrun.induction (P := fun ds sv => (listener id n host).Run (ds.filter fun d => IsRequest n d.1) sv) rfl ?_
  intro ds sv d sv' hrun ih hs
  have h := listens hrun
  rw [step_listener h, Option.some.injEq] at hs
  subst hs
  rw [List.filter_append]
  by_cases hd : IsRequest n d.1
  · rw [List.filter_cons_of_pos (by simpa using hd), List.filter_nil]
    exact Lts.run_concat.2 ⟨sv, ih, step_listener h⟩
  · rw [List.filter_cons_of_neg (by simpa using hd), List.filter_nil, List.append_nil, h.after_of_not_isRequest hd]
    exact ih

/-- A data message is answered once, whatever its number. -/
theorem Listens.answer_data (h : sv.Listens id n host) (junk : Word) (hbuf : IsDataRequest n buf) :
    (sv.process.onReceive buf junk).action = .cont ∧ (sv.process.onReceive buf junk).thrown = none ∧
      ∃ a : AckMessage, a.sender = wordAt .big buf 1 ∧ a.msgId = wordAt .big buf 2 ∧
        (sv.process.onReceive buf junk).datagrams = [sendAckMsg host a] := by
  have hr := sv.process.reacts buf junk
  generalize sv.process.onReceive buf junk = o at hr ⊢
  cases hr with
  | @data m _ hm =>
    obtain ⟨-, hm⟩ := dataMsgFromBuf_eq_some.1 hm
    have hs : m.sender = wordAt .big buf 1 := by rw [hm]
    have hi : m.msgId = wordAt .big buf 2 := by rw [hm]
    rcases Process.acceptData_cases h.queue m with ⟨v, hv, heq⟩ | ⟨-, heq⟩ <;> rw [heq]
    · refine ⟨rfl, rfl, ?_⟩
      refine ⟨{ sender := m.sender, msgId := m.msgId, proposedSeq := v.seq, proposer := v.seqProposer }, hs, hi, ?_⟩
      rw [Outcome.datagrams, filterMap_datagram_data, h.host_eq]
    · refine ⟨rfl, rfl, sv.process.freshAck m, hs, hi, ?_⟩
      rw [Outcome.datagrams, filterMap_datagram_data, Process.insertFresh, h.host_eq]
  | seq hs =>
    have hlen := hbuf.1.symm.trans hs.1
    omega
  | drop hno => exact absurd (.inl (h.count_eq ▸ hbuf)) hno

theorem Listens.answer_seq (h : sv.Listens id n host) (junk : Word) (hbuf : IsSeqRequest n buf) :
    (sv.process.onReceive buf junk).action = .cont ∧ (sv.process.onReceive buf junk).thrown = none ∧
      (sv.process.onReceive buf junk).datagrams =
        [sendSeqAckMsg host { sender := wordAt .big buf 1, msgId := wordAt .big buf 2 }] := by
  have hr := sv.process.reacts buf junk
  generalize sv.process.onReceive buf junk = o at hr ⊢
  cases hr with
  | data hd =>
    have hlen := hbuf.1.symm.trans hd.1
    omega
  | @seq m _ hm =>
    obtain ⟨-, hm⟩ := seqMsgFromBuf_eq_some.1 hm
    refine ⟨rfl, rfl, ?_⟩
    rw [datagrams_acceptSeq, h.host_eq, hm]
  | drop hno => exact absurd (.inr (h.count_eq ▸ hbuf)) hno

theorem Listens.thrown_onReceive (h : sv.Listens id n host) (buf : Buf) (junk : Word) :
    (sv.process.onReceive buf junk).thrown = none := by
  by_cases hbuf : IsRequest n buf
  · rcases hbuf with hd | hs
    · exact (h.answer_data junk hd).2.1
    · exact (h.answer_seq junk hs).2.1
  · rw [Process.onReceive_of_not_isRequest (h.count_eq ▸ hbuf)]

end Server

/-- The server reacts to the requests and to nothing else: any other datagram changes nothing, sends nothing
and delivers nothing, a request is answered by one datagram that names its message, and so deleting the
other datagrams from a sequence leaves the final state and the whole history of answers and
deliveries as they were. -/
theorem reacts_to_requests (id : Word) (n : Nat) (host : HostOrder) (ds : List (Buf × Word)) :
    ∃ sv, (listener id n host).Run ds sv ∧ (listener id n host).Run (ds.filter fun d => IsRequest n d.1) sv ∧
      (∀ buf junk, ¬ IsRequest n buf → sv.process.onReceive buf junk = { process := sv.process, effects := [] }) ∧
      (∀ buf junk, IsRequest n buf →
        (sv.process.onReceive buf junk).action = .cont ∧ (sv.process.onReceive buf junk).thrown = none) ∧
      (∀ buf junk, IsDataRequest n buf → ∃ a : AckMessage,
        a.sender = wordAt .big buf 1 ∧ a.msgId = wordAt .big buf 2 ∧
        (sv.process.onReceive buf junk).datagrams = [sendAckMsg host a]) ∧
      ∀ buf junk, IsSeqRequest n buf → (sv.process.onReceive buf junk).datagrams =
        [sendSeqAckMsg host { sender := wordAt .big buf 1, msgId := wordAt .big buf 2 }] := by
  obtain ⟨sv, hrun⟩ := Server.exists_run id n host ds
  have h := Server.listens hrun
  refine ⟨sv, hrun, Server.run_filter_isRequest hrun, fun buf junk hbuf => ?_, fun buf junk hbuf => ?_,
    fun buf junk hbuf => (h.answer_data junk hbuf).2.2, fun buf junk hbuf => (h.answer_seq junk hbuf).2.2⟩
  · exact Process.onReceive_of_not_isRequest (h.count_eq ▸ hbuf)
  · rcases hbuf with hd | hs
    · exact ⟨(h.answer_data junk hd).1, h.thrown_onReceive buf junk⟩
    · exact ⟨(h.answer_seq junk hs).1, h.thrown_onReceive buf junk⟩

/-- `InsertUndeliverable` throws exactly on a pending message and then leaves the queue as it was, after any
calls. In the server it never throws, whatever the datagrams. -/
theorem insertUndeliverable_atomic :
    (∀ calls a data, (∃ e, ((HoldBackQueue.reached calls).insertUndeliverable a data).1 = .error e) ↔
      a.key ∈ (HoldBackQueue.reached calls).pendingSeqs) ∧
    (∀ calls a data e, ((HoldBackQueue.reached calls).insertUndeliverable a data).1 = .error e →
      ((HoldBackQueue.reached calls).insertUndeliverable a data).2 = HoldBackQueue.reached calls) ∧
    ∀ id n host ds, ∃ sv, (listener id n host).Run ds sv ∧
      ∀ buf junk, (sv.process.onReceive buf junk).thrown = none := by
  refine ⟨fun calls a data => ?_, fun calls a data e he => ?_, fun id n host ds => ?_⟩
  · rw [HoldBackQueue.mem_pendingSeqs]
    cases hp : (HoldBackQueue.reached calls).pendingSeqs.lookup a.key with
    | none => simp [HoldBackQueue.insertUndeliverable_of_none (HoldBackQueue.inv_reached calls) data hp]
    | some v => simp [HoldBackQueue.insertUndeliverable_of_some hp]
  · cases hp : (HoldBackQueue.reached calls).pendingSeqs.lookup a.key with
    | none => simp [HoldBackQueue.insertUndeliverable_of_none (HoldBackQueue.inv_reached calls) data hp] at he
    | some v => rw [HoldBackQueue.insertUndeliverable_of_some hp]
  · obtain ⟨sv, hrun⟩ := Server.exists_run id n host ds
    exact ⟨sv, hrun, (Server.listens hrun).thrown_onReceive⟩

end IsisMulticast

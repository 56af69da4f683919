import IsisMulticast.Codec
import IsisMulticast.HoldBackQueue
import IsisMulticast.Udp

/-!
# The server of a process (`process.cc`: `TotalOrder`, `HandleDataMsg`, `HandleSeqMsg`)

`onReceive` is the callback the server runs on every datagram. Its state is touched by no other
thread. What it does besides changing the state is the list of its `Effect`s, in order: the lines it
logs for the messages it accepts, the answers it sends and the calls of `deliver`.

On a message it has not seen, `HandleDataMsg` writes the fields of the answer through the disengaged
`optional` that `Lookup` returned; it is read here as a fresh `AckMessage`.
-/

namespace IsisMulticast

open HoldBackQueue (InvalidArgument)

structure Process where
  id : Word
  /-- `processes_.size()`. -/
  processCount : Nat
  host : HostOrder
  seqCounter : Word
  holdBackQueue : HoldBackQueue

inductive Effect where
  | receivedData (m : DataMessage)
  | receivedSeq (m : SeqMessage)
  | sendAck (m : AckMessage)
  | sendSeqAck (m : SeqAckMessage)
  | deliver (m : SeqMessage)
deriving DecidableEq, Repr

/-- The state a callback leaves, what it did, its return value and the exception it ended with. -/
structure Outcome where
  process : Process
  effects : List Effect
  action : ServerAction := .cont
  thrown : Option InvalidArgument := none

namespace Process

def init (id : Word) (processCount : Nat) (host : HostOrder) : Process :=
  { id := id, processCount := processCount, host := host, seqCounter := 0, holdBackQueue := .empty }

def nextSeqNum (p : Process) : Word × Process :=
  let p := { p with seqCounter := p.seqCounter + 1 }
  (p.seqCounter, p)

def forwardSeqNum (p : Process) (seen : Word) : Process :=
  if seen > p.seqCounter then { p with seqCounter := seen } else p

/-- `HandleDataMsg` on a message that passed the checks. -/
def acceptData (p : Process) (dataMsg : DataMessage) : Outcome :=
  match p.holdBackQueue.lookup dataMsg with
  | some ackMsg => { process := p, effects := [.receivedData dataMsg, .sendAck ackMsg] }
  | none =>
    let (seq, p) := p.nextSeqNum
    let ackMsg : AckMessage :=
      { sender := dataMsg.sender, msgId := dataMsg.msgId, proposedSeq := seq, proposer := p.id }
    match p.holdBackQueue.insertUndeliverable ackMsg dataMsg.data with
    | (.ok (), q) =>
      { process := { p with holdBackQueue := q }, effects := [.receivedData dataMsg, .sendAck ackMsg] }
    | (.error e, q) =>
      { process := { p with holdBackQueue := q }, effects := [.receivedData dataMsg], thrown := some e }

def handleDataMsg (p : Process) (buf : Buf) : Outcome :=
  match dataMsgFromBuf p.host buf with
  | none => { process := p, effects := [] }
  | some dataMsg =>
    if !validDataMsg dataMsg p.processCount then { process := p, effects := [] } else p.acceptData dataMsg

/-- `HandleSeqMsg` on a message that passed the checks. The answer is sent before the queue is
touched. -/
def acceptSeq (p : Process) (seqMsg : SeqMessage) (junk : Word) : Outcome :=
  let p := p.forwardSeqNum seqMsg.finalSeq
  let seqAckMsg : SeqAckMessage := { sender := seqMsg.sender, msgId := seqMsg.msgId }
  let (delivered, q) := p.holdBackQueue.setDeliverable seqMsg junk
  { process := { p with holdBackQueue := q }
    effects := .receivedSeq seqMsg :: .sendSeqAck seqAckMsg :: delivered.map .deliver }

def handleSeqMsg (p : Process) (buf : Buf) (junk : Word) : Outcome :=
  match seqMsgFromBuf p.host buf with
  | none => { process := p, effects := [] }
  | some seqMsg =>
    if !validSeqMsg seqMsg p.processCount then { process := p, effects := [] } else p.acceptSeq seqMsg junk

/-- The callback `TotalOrder` passes to `Listen`. -/
def onReceive (p : Process) (buf : Buf) (junk : Word) : Outcome :=
  match messageTypeFromBuf p.host buf with
  | none => { process := p, effects := [] }
  | some type =>
    if type = kDataMessageType then p.handleDataMsg buf
    else if type = kSeqMessageType then p.handleSeqMsg buf junk
    else { process := p, effects := [] }

/-! ### On the datagrams of well-behaved senders -/

variable {p : Process}

theorem onReceive_sendDataMsg {m : DataMessage} (h : HostOrder) (junk : Word) (hs : m.sender.toNat < p.processCount) :
    p.onReceive (sendDataMsg h m) junk = p.acceptData { m with type := kDataMessageType } := by
  have ht : messageTypeFromBuf p.host (sendDataMsg h m) = some kDataMessageType :=
    messageTypeFromBuf_networkBytes _ _ _ _
  have hv : validDataMsg { m with type := kDataMessageType } p.processCount = true := validDataMsg_iff.2 ⟨rfl, hs⟩
  simp only [onReceive, ht, if_true, handleDataMsg, dataMsgFromBuf_sendDataMsg, hv, Bool.not_true, Bool.false_eq_true,
    if_false]

theorem onReceive_sendSeqMsg {m : SeqMessage} (h : HostOrder) (junk : Word) (hs : m.sender.toNat < p.processCount)
    (hp : m.finalSeqProposer.toNat < p.processCount) :
    p.onReceive (sendSeqMsg h m) junk = p.acceptSeq { m with type := kSeqMessageType } junk := by
  have ht : messageTypeFromBuf p.host (sendSeqMsg h m) = some kSeqMessageType :=
    messageTypeFromBuf_networkBytes _ _ _ _
  have hne : kSeqMessageType ≠ kDataMessageType := by decide
  have hv : validSeqMsg { m with type := kSeqMessageType } p.processCount = true := validSeqMsg_iff.2 ⟨rfl, hs, hp⟩
  simp only [onReceive, ht, if_neg hne, if_true, handleSeqMsg, seqMsgFromBuf_sendSeqMsg, hv, Bool.not_true,
    Bool.false_eq_true, if_false]

def freshAck (p : Process) (m : DataMessage) : AckMessage :=
  { sender := m.sender, msgId := m.msgId, proposedSeq := p.seqCounter + 1, proposer := p.id }

def insertFresh (p : Process) (m : DataMessage) : Process :=
  { p with
    seqCounter := p.seqCounter + 1
    holdBackQueue := p.holdBackQueue.addPending (p.freshAck m) m.data }

/-- The two cases of a data message: a replay of a pending message, which is answered with the numbers
of its entry and changes nothing, or a new entry. The insertion does not throw. -/
theorem acceptData_cases (hq : p.holdBackQueue.Inv) (m : DataMessage) :
    (∃ v, p.holdBackQueue.pendingSeqs.lookup m.key = some v ∧
      p.acceptData m = { process := p, effects := [.receivedData m, .sendAck
        { sender := m.sender, msgId := m.msgId, proposedSeq := v.seq, proposer := v.seqProposer }] }) ∨
    (p.holdBackQueue.pendingSeqs.lookup m.key = none ∧
      p.acceptData m =
        { process := p.insertFresh m, effects := [.receivedData m, .sendAck (p.freshAck m)] }) := by
  cases hp : p.holdBackQueue.pendingSeqs.lookup m.key with
  | some v =>
    refine .inl ⟨v, rfl, ?_⟩
    have hl := HoldBackQueue.lookup_eq_some.2 ⟨v, hp, rfl⟩
    simp only [acceptData, hl]
  | none =>
    refine .inr ⟨rfl, ?_⟩
    have hl := HoldBackQueue.lookup_eq_none.2 hp
    have hins := HoldBackQueue.insertUndeliverable_of_none hq m.data (a := p.freshAck m) hp
    simp only [freshAck] at hins
    simp only [acceptData, hl, nextSeqNum, hins, insertFresh, freshAck]

/-! ### The counter -/

@[simp] theorem forwardSeqNum_id (x : Word) : (p.forwardSeqNum x).id = p.id := by
  unfold forwardSeqNum; split <;> rfl

@[simp] theorem forwardSeqNum_processCount (x : Word) : (p.forwardSeqNum x).processCount = p.processCount := by
  unfold forwardSeqNum; split <;> rfl

@[simp] theorem forwardSeqNum_host (x : Word) : (p.forwardSeqNum x).host = p.host := by
  unfold forwardSeqNum; split <;> rfl

@[simp] theorem forwardSeqNum_holdBackQueue (x : Word) : (p.forwardSeqNum x).holdBackQueue = p.holdBackQueue := by
  unfold forwardSeqNum; split <;> rfl

theorem le_forwardSeqNum (x : Word) :
    x ≤ (p.forwardSeqNum x).seqCounter ∧ p.seqCounter ≤ (p.forwardSeqNum x).seqCounter := by
  unfold forwardSeqNum
  split <;> grind

theorem toNat_forwardSeqNum_le {x : Word} {K : Nat} (hx : x.toNat ≤ K) (hp : p.seqCounter.toNat ≤ K) :
    (p.forwardSeqNum x).seqCounter.toNat ≤ K := by
  unfold forwardSeqNum
  split
  exacts [hx, hp]

end Process

end IsisMulticast

import IsisMulticast.Message

/-!
# The wire format (`process.cc`: `*MsgFromBuf`, `Send*Msg`, `Valid*Msg`)

Each send function overwrites the type word with the constant of its kind, converts every field to
network order and sends the struct; here it is the datagram it sends. Each decoder checks nothing
but the length; the type is compared by the `valid*Msg` checks. `Kind` ranges over the four kinds
so that what they have in common is stated once (`wire_format`).
-/

namespace IsisMulticast

def sizeofDataMessage : Nat := 16
def sizeofAckMessage : Nat := 20
def sizeofSeqMessage : Nat := 20
def sizeofSeqAckMessage : Nat := 12

/-! ### Decoders -/

def messageTypeFromBuf (h : HostOrder) (buf : Buf) : Option Word :=
  if buf.length < 4 then none else some (ntohl h (wordAt h buf 0))

def dataMsgFromBuf (h : HostOrder) (buf : Buf) : Option DataMessage :=
  if buf.length ≠ sizeofDataMessage then none
  else some
    { type := ntohl h (wordAt h buf 0)
      sender := ntohl h (wordAt h buf 1)
      msgId := ntohl h (wordAt h buf 2)
      data := ntohl h (wordAt h buf 3) }

def ackMsgFromBuf (h : HostOrder) (buf : Buf) : Option AckMessage :=
  if buf.length ≠ sizeofAckMessage then none
  else some
    { type := ntohl h (wordAt h buf 0)
      sender := ntohl h (wordAt h buf 1)
      msgId := ntohl h (wordAt h buf 2)
      proposedSeq := ntohl h (wordAt h buf 3)
      proposer := ntohl h (wordAt h buf 4) }

def seqMsgFromBuf (h : HostOrder) (buf : Buf) : Option SeqMessage :=
  if buf.length ≠ sizeofSeqMessage then none
  else some
    { type := ntohl h (wordAt h buf 0)
      sender := ntohl h (wordAt h buf 1)
      msgId := ntohl h (wordAt h buf 2)
      finalSeq := ntohl h (wordAt h buf 3)
      finalSeqProposer := ntohl h (wordAt h buf 4) }

def seqAckMsgFromBuf (h : HostOrder) (buf : Buf) : Option SeqAckMessage :=
  if buf.length ≠ sizeofSeqAckMessage then none
  else some
    { type := ntohl h (wordAt h buf 0)
      sender := ntohl h (wordAt h buf 1)
      msgId := ntohl h (wordAt h buf 2) }

/-! ### Encoders -/

def sendDataMsg (h : HostOrder) (m : DataMessage) : Buf :=
  networkBytes h [kDataMessageType, m.sender, m.msgId, m.data]

def sendAckMsg (h : HostOrder) (m : AckMessage) : Buf :=
  networkBytes h [kAckMessageType, m.sender, m.msgId, m.proposedSeq, m.proposer]

def sendSeqMsg (h : HostOrder) (m : SeqMessage) : Buf :=
  networkBytes h [kSeqMessageType, m.sender, m.msgId, m.finalSeq, m.finalSeqProposer]

def sendSeqAckMsg (h : HostOrder) (m : SeqAckMessage) : Buf :=
  networkBytes h [kSeqAckMessageType, m.sender, m.msgId]

/-! ### Validation -/

def validDataMsg (m : DataMessage) (processCount : Nat) : Bool :=
  if m.type ≠ kDataMessageType then false
  else if processCount ≤ m.sender.toNat then false
  else true

def validAckMsg (m : AckMessage) (expSender expMsgId expProposer : Word) : Bool :=
  if m.type ≠ kAckMessageType then false
  else if m.sender ≠ expSender then false
  else if m.msgId ≠ expMsgId then false
  else if m.proposer ≠ expProposer then false
  else true

def validSeqMsg (m : SeqMessage) (processCount : Nat) : Bool :=
  if m.type ≠ kSeqMessageType then false
  else if processCount ≤ m.sender.toNat then false
  else if processCount ≤ m.finalSeqProposer.toNat then false
  else true

def validSeqAckMsg (m : SeqAckMessage) (seqMsg : SeqMessage) : Bool :=
  if m.type ≠ kSeqAckMessageType then false
  else if m.sender ≠ seqMsg.sender then false
  else if m.msgId ≠ seqMsg.msgId then false
  else true

theorem validDataMsg_iff {m : DataMessage} {n : Nat} :
    validDataMsg m n ↔ m.type = kDataMessageType ∧ m.sender.toNat < n := by
  simp [validDataMsg]

theorem validAckMsg_iff {m : AckMessage} {s i p : Word} :
    validAckMsg m s i p ↔ m.type = kAckMessageType ∧ m.sender = s ∧ m.msgId = i ∧ m.proposer = p := by
  simp [validAckMsg]

theorem validSeqMsg_iff {m : SeqMessage} {n : Nat} :
    validSeqMsg m n ↔ m.type = kSeqMessageType ∧ m.sender.toNat < n ∧ m.finalSeqProposer.toNat < n := by
  simp [validSeqMsg]

theorem validSeqAckMsg_iff {m : SeqAckMessage} {q : SeqMessage} :
    validSeqAckMsg m q ↔ m.type = kSeqAckMessageType ∧ m.sender = q.sender ∧ m.msgId = q.msgId := by
  simp [validSeqAckMsg]

/-! ### Round trips -/

section
variable (h h' : HostOrder)

@[simp] theorem messageTypeFromBuf_networkBytes (w : Word) (ws : List Word) :
    messageTypeFromBuf h (networkBytes h' (w :: ws)) = some w := by
  have hlen : ¬ (networkBytes h' (w :: ws)).length < 4 := by
    rw [length_networkBytes, List.length_cons]; omega
  rw [messageTypeFromBuf, if_neg hlen, ntohl_wordAt_networkBytes h h' (w :: ws) (by simp)]
  simp

@[simp] theorem dataMsgFromBuf_sendDataMsg (m : DataMessage) :
    dataMsgFromBuf h (sendDataMsg h' m) = some { m with type := kDataMessageType } := by
  simp [dataMsgFromBuf, sendDataMsg, sizeofDataMessage, ntohl_wordAt_networkBytes]

@[simp] theorem ackMsgFromBuf_sendAckMsg (m : AckMessage) :
    ackMsgFromBuf h (sendAckMsg h' m) = some { m with type := kAckMessageType } := by
  simp [ackMsgFromBuf, sendAckMsg, sizeofAckMessage, ntohl_wordAt_networkBytes]

@[simp] theorem seqMsgFromBuf_sendSeqMsg (m : SeqMessage) :
    seqMsgFromBuf h (sendSeqMsg h' m) = some { m with type := kSeqMessageType } := by
  simp [seqMsgFromBuf, sendSeqMsg, sizeofSeqMessage, ntohl_wordAt_networkBytes]

@[simp] theorem seqAckMsgFromBuf_sendSeqAckMsg (m : SeqAckMessage) :
    seqAckMsgFromBuf h (sendSeqAckMsg h' m) = some { m with type := kSeqAckMessageType } := by
  simp [seqAckMsgFromBuf, sendSeqAckMsg, sizeofSeqAckMessage, ntohl_wordAt_networkBytes]

end

section
variable (h h' : HostOrder)

@[simp] theorem dataMsgFromBuf_sendSeqMsg (m : SeqMessage) : dataMsgFromBuf h (sendSeqMsg h' m) = none := by
  simp [dataMsgFromBuf, sendSeqMsg, sizeofDataMessage]

@[simp] theorem seqMsgFromBuf_sendDataMsg (m : DataMessage) : seqMsgFromBuf h (sendDataMsg h' m) = none := by
  simp [seqMsgFromBuf, sendDataMsg, sizeofSeqMessage]

@[simp] theorem ackMsgFromBuf_sendSeqAckMsg (m : SeqAckMessage) : ackMsgFromBuf h (sendSeqAckMsg h' m) = none := by
  simp [ackMsgFromBuf, sendSeqAckMsg, sizeofAckMessage]

@[simp] theorem seqAckMsgFromBuf_sendAckMsg (m : AckMessage) : seqAckMsgFromBuf h (sendAckMsg h' m) = none := by
  simp [seqAckMsgFromBuf, sendAckMsg, sizeofSeqAckMessage]

end

section
variable {h h' : HostOrder}

theorem sendSeqMsg_ne_sendDataMsg (m : SeqMessage) (m' : DataMessage) : sendSeqMsg h m ≠ sendDataMsg h' m' := by
  intro heq
  simpa using congrArg (dataMsgFromBuf h) heq

theorem sendDataMsg_inj {m m' : DataMessage} (heq : sendDataMsg h m = sendDataMsg h' m') :
    { m with type := kDataMessageType } = { m' with type := kDataMessageType } := by
  simpa using congrArg (dataMsgFromBuf h) heq

theorem sendSeqMsg_inj {m m' : SeqMessage} (heq : sendSeqMsg h m = sendSeqMsg h' m') : m.untyped = m'.untyped := by
  simpa [SeqMessage.untyped] using congrArg (seqMsgFromBuf h) heq

end

/-! ### The four kinds together -/

inductive Kind where
  | data
  | ack
  | seq
  | seqAck
deriving DecidableEq, Repr

inductive Message where
  | data (m : DataMessage)
  | ack (m : AckMessage)
  | seq (m : SeqMessage)
  | seqAck (m : SeqAckMessage)
deriving DecidableEq, Repr

namespace Kind

def type : Kind → Word
  | data => kDataMessageType
  | ack => kAckMessageType
  | seq => kSeqMessageType
  | seqAck => kSeqAckMessageType

def size : Kind → Nat
  | data => sizeofDataMessage
  | ack => sizeofAckMessage
  | seq => sizeofSeqMessage
  | seqAck => sizeofSeqAckMessage

def fromBuf (h : HostOrder) : Kind → Buf → Option Message
  | data, buf => (dataMsgFromBuf h buf).map .data
  | ack, buf => (ackMsgFromBuf h buf).map .ack
  | seq, buf => (seqMsgFromBuf h buf).map .seq
  | seqAck, buf => (seqAckMsgFromBuf h buf).map .seqAck

end Kind

/-- The values the `valid*Msg` checks compare with: the number of processes, the sender, message id
and proposer expected of an ack, and the message a `SeqAckMessage` should acknowledge. -/
structure Expected where
  processCount : Nat
  sender : Word
  msgId : Word
  proposer : Word
  seqMsg : SeqMessage

namespace Message

def kind : Message → Kind
  | data _ => .data
  | ack _ => .ack
  | seq _ => .seq
  | seqAck _ => .seqAck

/-- The datagram the send function of the message's kind emits. -/
def send (h : HostOrder) : Message → Buf
  | data m => sendDataMsg h m
  | ack m => sendAckMsg h m
  | seq m => sendSeqMsg h m
  | seqAck m => sendSeqAckMsg h m

/-- The message with its type word set to the constant of its kind. -/
def typed : Message → Message
  | data m => data { m with type := kDataMessageType }
  | ack m => ack { m with type := kAckMessageType }
  | seq m => seq { m with type := kSeqMessageType }
  | seqAck m => seqAck { m with type := kSeqAckMessageType }

/-- The `valid*Msg` check of the message's kind. -/
def valid (e : Expected) : Message → Bool
  | data m => validDataMsg m e.processCount
  | ack m => validAckMsg m e.sender e.msgId e.proposer
  | seq m => validSeqMsg m e.processCount
  | seqAck m => validSeqAckMsg m e.seqMsg

end Message

def Kind.accepts (h : HostOrder) (e : Expected) (k : Kind) (buf : Buf) : Bool :=
  (k.fromBuf h buf).any (·.valid e)

theorem Message.fromBuf_send (h h' : HostOrder) (m : Message) :
    m.kind.fromBuf h (m.send h') = some m.typed := by
  cases m <;> simp [Message.kind, Message.send, Message.typed, Kind.fromBuf]

theorem Kind.isSome_fromBuf (h : HostOrder) (k : Kind) (buf : Buf) :
    (k.fromBuf h buf).isSome ↔ buf.length = k.size := by
  cases k <;> simp [Kind.fromBuf, Kind.size, dataMsgFromBuf, ackMsgFromBuf, seqMsgFromBuf, seqAckMsgFromBuf]

theorem Kind.type_of_accepts {h : HostOrder} {e : Expected} {k : Kind} {buf : Buf}
    (ha : k.accepts h e buf) : ntohl h (wordAt h buf 0) = k.type := by
  cases k with
  | data =>
    simp only [accepts, fromBuf, dataMsgFromBuf] at ha
    split_ifs at ha
    · simp at ha
    · exact (validDataMsg_iff.1 ha).1
  | ack =>
    simp only [accepts, fromBuf, ackMsgFromBuf] at ha
    split_ifs at ha
    · simp at ha
    · exact (validAckMsg_iff.1 ha).1
  | seq =>
    simp only [accepts, fromBuf, seqMsgFromBuf] at ha
    split_ifs at ha
    · simp at ha
    · exact (validSeqMsg_iff.1 ha).1
  | seqAck =>
    simp only [accepts, fromBuf, seqAckMsgFromBuf] at ha
    split_ifs at ha
    · simp at ha
    · exact (validSeqAckMsg_iff.1 ha).1

theorem Message.type_send (h h' : HostOrder) (m : Message) :
    ntohl h (wordAt h (m.send h') 0) = m.kind.type := by
  cases m <;>
    simp [Message.send, Message.kind, Kind.type, sendDataMsg, sendAckMsg, sendSeqMsg, sendSeqAckMsg,
      ntohl_wordAt_networkBytes]

theorem Kind.type_injective : Function.Injective Kind.type := by
  intro k k'
  cases k <;> cases k' <;> decide

/-- Re-encoding what a decoder read from a buffer with the right type word gives the buffer back. -/
theorem Kind.send_fromBuf (h h' : HostOrder) {k : Kind} {buf : Buf} {m : Message}
    (ht : ntohl h (wordAt h buf 0) = k.type) (hm : k.fromBuf h buf = some m) : m.send h' = buf := by
  have hlen : buf.length = k.size := (k.isSome_fromBuf h buf).1 (by simp [hm])
  cases k with
  | data =>
    rw [← networkBytes_wordAt h h' 4 buf hlen]
    simp only [fromBuf, dataMsgFromBuf, ne_eq, ite_not, hlen, size, if_true, Option.map_some,
      Option.some.injEq] at hm
    subst hm
    simp [Message.send, sendDataMsg, List.range_succ, ht, type]
  | ack =>
    rw [← networkBytes_wordAt h h' 5 buf hlen]
    simp only [fromBuf, ackMsgFromBuf, ne_eq, ite_not, hlen, size, if_true, Option.map_some,
      Option.some.injEq] at hm
    subst hm
    simp [Message.send, sendAckMsg, List.range_succ, ht, type]
  | seq =>
    rw [← networkBytes_wordAt h h' 5 buf hlen]
    simp only [fromBuf, seqMsgFromBuf, ne_eq, ite_not, hlen, size, if_true, Option.map_some,
      Option.some.injEq] at hm
    subst hm
    simp [Message.send, sendSeqMsg, List.range_succ, ht, type]
  | seqAck =>
    rw [← networkBytes_wordAt h h' 3 buf hlen]
    simp only [fromBuf, seqAckMsgFromBuf, ne_eq, ite_not, hlen, size, if_true, Option.map_some,
      Option.some.injEq] at hm
    subst hm
    simp [Message.send, sendSeqAckMsg, List.range_succ, ht, type]

/-- The wire format. Whatever the byte orders of the two hosts: decoding what a send function emits
gives the message back with its type set; re-encoding what a decoder reads from a buffer of the
right size and type gives the buffer back; a decoder answers exactly on the buffers of its size; and
no message passes the decoder and check of another kind, though an ack and a sequence message have
the same length. -/
theorem wire_format (h h' : HostOrder) :
    (∀ m : Message, m.kind.fromBuf h (m.send h') = some m.typed) ∧
    (∀ (k : Kind) (buf : Buf), buf.length = k.size → wordAt .big buf 0 = k.type →
      ∃ m, k.fromBuf h buf = some m ∧ m.send h' = buf) ∧
    (∀ (k : Kind) (buf : Buf), (k.fromBuf h buf).isSome ↔ buf.length = k.size) ∧
    (∀ (m : Message) (k : Kind) (e : Expected), k ≠ m.kind → k.accepts h e (m.send h') = false) := by
  refine ⟨Message.fromBuf_send h h', fun k buf hlen ht => ?_, Kind.isSome_fromBuf h, fun m k e hne => ?_⟩
  · obtain ⟨m, hm⟩ := Option.isSome_iff_exists.1 ((k.isSome_fromBuf h buf).2 hlen)
    have ht' : ntohl h (wordAt h buf 0) = k.type := by rw [← ht, ntohl_wordAt]
    exact ⟨m, hm, k.send_fromBuf h h' ht' hm⟩
  · refine Bool.eq_false_iff.2 fun ha => hne ?_
    exact Kind.type_injective ((k.type_of_accepts ha).symm.trans (m.type_send h h'))

end IsisMulticast

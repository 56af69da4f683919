import IsisMulticast.Codec
import IsisMulticast.HoldBackQueue
import IsisMulticast.Udp

/-!
# The multicast sender (`process.cc`: `LaunchMulticastSender`)

A sender thread first sends its data message to every process in turn, each time until it has read
a valid ack, and records the proposed numbers; it then takes the largest of them as the final number
and sends the sequence message to every process in turn. Each of these sends is a call of
`SendWithAck` on the client for that process. `Phase` is the place of the thread between the points
where it meets the rest of the system: taking the mutex of the socket, sending, and receiving.
-/

namespace IsisMulticast

/-- Where a thread is in a call of `SendWithAck`: before it has the mutex of the socket, at the top of
the loop body, or in `recvfrom`. -/
inductive Pc where
  | enter
  | send (l : SendLoop)
  | recv (l : SendLoop)
deriving DecidableEq, Repr

inductive Phase where
  | data (pid : Word) (seqs : List Word) (pc : Pc)
  | seq (pid : Word) (seqMsg : SeqMessage) (pc : Pc)
  | finished (seqMsg : SeqMessage)
deriving DecidableEq, Repr

structure Sender where
  /-- `id_` of the process that launched the thread. -/
  id : Word
  msgId : Word
  data : Word
  phase : Phase
deriving DecidableEq, Repr

/-! ### The callbacks and the final number -/

def handleAck (h : HostOrder) (id msgId pid : Word) (seqs : List Word) (buf : Buf) : ServerAction × List Word :=
  match ackMsgFromBuf h buf with
  | none => (.cont, seqs)
  | some ackMsg =>
    if !validAckMsg ackMsg id msgId pid then (.cont, seqs)
    else (.stop, seqs.set pid.toNat ackMsg.proposedSeq)

def isValidAck (h : HostOrder) (seqMsg : SeqMessage) (buf : Buf) : ServerAction :=
  let valid := match seqAckMsgFromBuf h buf with
    | none => false
    | some seqAckMsg => validSeqAckMsg seqAckMsg seqMsg
  if !valid then .cont else .stop

/-- The loop that determines the final number and its proposer, from process `pid` on. -/
def maxSeq : List Word → Word → Word → Word → Word × Word
  | [], _, finalSeq, finalSeqProposer => (finalSeq, finalSeqProposer)
  | seq :: seqs, pid, finalSeq, finalSeqProposer =>
    if seq > finalSeq then maxSeq seqs (pid + 1) seq pid
    else maxSeq seqs (pid + 1) finalSeq finalSeqProposer

theorem lt_of_getElem?_cons {y b : Word} {seqs : List Word} {i : Nat} (hy : y < b)
    (h : ∀ j x, j < i → seqs[j]? = some x → x < b) : ∀ j x, j < i + 1 → (y :: seqs)[j]? = some x → x < b := by
  intro j x hj hx
  cases j with
  | zero =>
    obtain rfl : y = x := by simpa using hx
    exact hy
  | succ j => exact h j x (by omega) (by simpa using hx)

/-- The loop keeps the numbers it started with, or ends with the first place of the largest number of
the list, which is larger than the one it started with. -/
theorem maxSeq_spec (seqs : List Word) (pid f fp : Word) (hlen : pid.toNat + seqs.length < 2 ^ 32) :
    (∀ x ∈ seqs, x ≤ (maxSeq seqs pid f fp).1) ∧ f ≤ (maxSeq seqs pid f fp).1 ∧
    (maxSeq seqs pid f fp = (f, fp) ∨
      ∃ i, (maxSeq seqs pid f fp).2.toNat = pid.toNat + i ∧ seqs[i]? = some (maxSeq seqs pid f fp).1 ∧
        f < (maxSeq seqs pid f fp).1 ∧ ∀ j x, j < i → seqs[j]? = some x → x < (maxSeq seqs pid f fp).1) := by
  induction seqs generalizing pid f fp with
  | nil => exact ⟨by simp, UInt32.le_refl _, .inl rfl⟩
  | cons y seqs ih =>
    rw [List.length_cons] at hlen
    have hpid : (pid + 1).toNat = pid.toNat + 1 := toNat_add_one (by omega)
    have hlen' : (pid + 1).toNat + seqs.length < 2 ^ 32 := by omega
    rw [maxSeq]
    split_ifs with hy
    · -- `y` is the largest so far
      obtain ⟨hall, hle, hat⟩ := ih (pid + 1) y pid hlen'
      refine ⟨fun x hx => ?_, by grind, .inr ?_⟩
      · rcases List.mem_cons.1 hx with rfl | hx
        · exact hle
        · exact hall x hx
      · rcases hat with heq | ⟨i, hi, hget, hlt, hbefore⟩
        · exact ⟨0, by rw [heq]; rfl, by rw [heq]; rfl, by rw [heq]; exact hy, by simp⟩
        · exact ⟨i + 1, by omega, by simpa using hget, by grind, lt_of_getElem?_cons hlt hbefore⟩
    · obtain ⟨hall, hle, hat⟩ := ih (pid + 1) f fp hlen'
      refine ⟨fun x hx => ?_, hle, ?_⟩
      · rcases List.mem_cons.1 hx with rfl | hx
        · grind
        · exact hall x hx
      · rcases hat with heq | ⟨i, hi, hget, hlt, hbefore⟩
        · exact .inl heq
        · have hylt : y < (maxSeq seqs (pid + 1) f fp).1 := UInt32.lt_of_le_of_lt (UInt32.not_lt.1 hy) hlt
          exact .inr ⟨i + 1, by omega, by simpa using hget, hlt, lt_of_getElem?_cons hylt hbefore⟩

/-- The final number is the largest of a nonempty list of numbers and its proposer the first process
that proposed it, also when all of them are zero. -/
theorem maxSeq_largest {seqs : List Word} (hne : seqs ≠ []) (hlen : seqs.length < 2 ^ 32) :
    (∀ x ∈ seqs, x ≤ (maxSeq seqs 0 0 0).1) ∧
      seqs[(maxSeq seqs 0 0 0).2.toNat]? = some (maxSeq seqs 0 0 0).1 ∧
      ∀ j x, j < (maxSeq seqs 0 0 0).2.toNat → seqs[j]? = some x → x < (maxSeq seqs 0 0 0).1 := by
  obtain ⟨hall, -, hat⟩ := maxSeq_spec seqs 0 0 0 (by simpa using hlen)
  refine ⟨hall, ?_⟩
  rcases hat with heq | ⟨i, hi, hget, -, hbefore⟩
  · obtain ⟨y, ys, rfl⟩ := List.exists_cons_of_ne_nil hne
    have hy := hall y (by simp)
    rw [heq] at hy ⊢
    obtain rfl : y = 0 := by grind
    exact ⟨rfl, by simp⟩
  · obtain rfl : (maxSeq seqs 0 0 0).2.toNat = i := by simpa using hi
    exact ⟨hget, hbefore⟩

namespace Sender

def key (t : Sender) : PendingMessageKey := ⟨t.id, t.msgId⟩

def dataMsg (t : Sender) : DataMessage := { sender := t.id, msgId := t.msgId, data := t.data }

/-- The sequence message built once every process has answered. -/
def mkSeqMsg (t : Sender) (seqs : List Word) : SeqMessage :=
  { sender := t.id
    msgId := t.msgId
    finalSeq := (maxSeq seqs 0 0 0).1
    finalSeqProposer := (maxSeq seqs 0 0 0).2 }

-- The two loops over the processes, at process `pid` of `n`.
def seqLoop (n : Nat) (pid : Word) (seqMsg : SeqMessage) : Phase :=
  if pid.toNat < n then .seq pid seqMsg .enter else .finished seqMsg

def dataLoop (n : Nat) (t : Sender) (pid : Word) (seqs : List Word) : Phase :=
  if pid.toNat < n then .data pid seqs .enter else seqLoop n 0 (t.mkSeqMsg seqs)

/-- A new thread among `n` processes, with the message id and data it has drawn. -/
def launch (n : Nat) (id msgId data : Word) : Sender :=
  let t : Sender := ⟨id, msgId, data, .data 0 [] .enter⟩
  { t with phase := dataLoop n t 0 (List.replicate n 0) }

/-- The process whose client the thread is using or about to use. -/
def target (t : Sender) : Option Word :=
  match t.phase with
  | .data pid _ _ => some pid
  | .seq pid _ _ => some pid
  | .finished _ => none

def pc (t : Sender) : Option Pc :=
  match t.phase with
  | .data _ _ pc => some pc
  | .seq _ _ pc => some pc
  | .finished _ => none

def inSession (t : Sender) : Bool :=
  match t.pc with
  | some (.send _) => true
  | some (.recv _) => true
  | _ => false

def setPc (t : Sender) (pc : Pc) : Sender :=
  { t with phase := match t.phase with
      | .data pid seqs _ => .data pid seqs pc
      | .seq pid seqMsg _ => .seq pid seqMsg pc
      | .finished seqMsg => .finished seqMsg }

def datagram (h : HostOrder) (t : Sender) : Option Buf :=
  match t.phase with
  | .data _ _ _ => some (sendDataMsg h t.dataMsg)
  | .seq _ seqMsg _ => some (sendSeqMsg h seqMsg)
  | .finished _ => none

/-- The thread after `recvfrom` has returned, among `n` processes. An exception would end it. -/
def afterReceive (h : HostOrder) (n : Nat) (t : Sender) (r : Received) : Option Sender :=
  match t.phase with
  | .data pid seqs (.recv l) =>
    match l.afterReceive (handleAck h t.id t.msgId pid) seqs r with
    | .again l seqs => some { t with phase := .data pid seqs (.send l) }
    | .returned seqs => some { t with phase := dataLoop n t (pid + 1) seqs }
    | .threw => none
  | .seq pid seqMsg (.recv l) =>
    match l.afterReceive (fun _ buf => (isValidAck h seqMsg buf, ())) () r with
    | .again l _ => some { t with phase := .seq pid seqMsg (.send l) }
    | .returned _ => some { t with phase := seqLoop n (pid + 1) seqMsg }
    | .threw => none
  | _ => none

def decided (t : Sender) : Option SeqMessage :=
  match t.phase with
  | .data _ _ _ => none
  | .seq _ seqMsg _ => some seqMsg
  | .finished seqMsg => some seqMsg

def isFinished (t : Sender) : Bool :=
  match t.phase with
  | .finished _ => true
  | _ => false

end Sender

end IsisMulticast

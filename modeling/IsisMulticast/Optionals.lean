import IsisMulticast.Listener

/-!
# Access to optionals

The callbacks once more, with `*` and `->` on an `optional` as the source has them: on a disengaged one they are
an error. Everywhere but in one place an access stands behind a test of the same `optional`. The place is the
branch of `HandleDataMsg` for a message that `Lookup` has not found, which fills in the fields of the disengaged
result. So the server fails on every message that would be new to it, and the first data message is new:
its callback is free of the error exactly as long as no data message arrives (`optionals_engaged`).
-/

namespace IsisMulticast
open Lib

/-- The error of an access to a disengaged `optional`. -/
structure Disengaged where
deriving DecidableEq, Repr

namespace Checked

/-- `*o`, and `o->` in an expression. -/
def deref {α : Type} : Option α → Except Disengaged α
  | none => .error {}
  | some a => .ok a

/-- An assignment to a field through `o->`. -/
def assign {α : Type} (o : Option α) (write : α → α) : Except Disengaged (Option α) := do
  let a ← deref o
  return some (write a)

def handleDataMsg (p : Process) (buf : Buf) : Except Disengaged Outcome := do
  let dataMsg := dataMsgFromBuf p.host buf
  if !dataMsg.isSome then return { process := p, effects := [] }
  if !validDataMsg (← deref dataMsg) p.processCount then return { process := p, effects := [] }
  let received := Effect.receivedData (← deref dataMsg)
  let ackMsg := p.holdBackQueue.lookup (← deref dataMsg)
  if !ackMsg.isSome then
    let sender := (← deref dataMsg).sender
    let ackMsg ← assign ackMsg fun a => { a with sender := sender }
    let msgId := (← deref dataMsg).msgId
    let ackMsg ← assign ackMsg fun a => { a with msgId := msgId }
    let (seq, p) := p.nextSeqNum
    let ackMsg ← assign ackMsg fun a => { a with proposedSeq := seq }
    let ackMsg ← assign ackMsg fun a => { a with proposer := p.id }
    match p.holdBackQueue.insertUndeliverable (← deref ackMsg) (← deref dataMsg).data with
    | (.ok (), q) =>
      return { process := { p with holdBackQueue := q }, effects := [received, .sendAck (← deref ackMsg)] }
    | (.error e, q) => return { process := { p with holdBackQueue := q }, effects := [received], thrown := some e }
  else
    return { process := p, effects := [received, .sendAck (← deref ackMsg)] }

def handleSeqMsg (p : Process) (buf : Buf) (junk : Word) : Except Disengaged Outcome := do
  let seqMsg := seqMsgFromBuf p.host buf
  if !seqMsg.isSome then return { process := p, effects := [] }
  if !validSeqMsg (← deref seqMsg) p.processCount then return { process := p, effects := [] }
  let received := Effect.receivedSeq (← deref seqMsg)
  let p := p.forwardSeqNum (← deref seqMsg).finalSeq
  let seqAckMsg : SeqAckMessage := { sender := (← deref seqMsg).sender, msgId := (← deref seqMsg).msgId }
  let (delivered, q) := p.holdBackQueue.setDeliverable (← deref seqMsg) junk
  return { process := { p with holdBackQueue := q }
           effects := received :: .sendSeqAck seqAckMsg :: delivered.map .deliver }

def onReceive (p : Process) (buf : Buf) (junk : Word) : Except Disengaged Outcome := do
  let dataType := messageTypeFromBuf p.host buf
  if !dataType.isSome then return { process := p, effects := [] }
  let type ← deref dataType
  if type = kDataMessageType then handleDataMsg p buf
  else if type = kSeqMessageType then handleSeqMsg p buf junk
  else if type = kAckMessageType ∨ type = kSeqAckMessageType then return { process := p, effects := [] }
  else
    -- the default case logs `*data_type`
    let _ ← deref dataType
    return { process := p, effects := [] }

def handleAck (h : HostOrder) (id msgId pid : Word) (seqs : List Word) (buf : Buf) :
    Except Disengaged (ServerAction × List Word) := do
  let ackMsg := ackMsgFromBuf h buf
  if !ackMsg.isSome then return (.cont, seqs)
  if !validAckMsg (← deref ackMsg) id msgId pid then return (.cont, seqs)
  return (.stop, seqs.set pid.toNat (← deref ackMsg).proposedSeq)

def isValidAck (h : HostOrder) (seqMsg : SeqMessage) (buf : Buf) : Except Disengaged ServerAction := do
  let seqAckMsg := seqAckMsgFromBuf h buf
  let valid ← if seqAckMsg.isSome then do pure (validSeqAckMsg (← deref seqAckMsg) seqMsg) else pure false
  if !valid then return .cont
  return .stop

/-! ### Tested accesses -/

@[simp] theorem deref_some_bind {α β : Type} (a : α) (f : α → Except Disengaged β) :
    (deref (some a) >>= f) = f a := rfl

theorem handleAck_eq (h : HostOrder) (id msgId pid : Word) (seqs : List Word) (buf : Buf) :
    handleAck h id msgId pid seqs buf = .ok (IsisMulticast.handleAck h id msgId pid seqs buf) := by
  unfold handleAck IsisMulticast.handleAck
  cases ackMsgFromBuf h buf with
  | none => rfl
  | some a =>
    simp only [Option.isSome_some, Bool.not_true, Bool.false_eq_true, if_false, deref_some_bind]
    split <;> rfl

theorem isValidAck_eq (h : HostOrder) (seqMsg : SeqMessage) (buf : Buf) :
    isValidAck h seqMsg buf = .ok (IsisMulticast.isValidAck h seqMsg buf) := by
  unfold isValidAck IsisMulticast.isValidAck
  cases seqAckMsgFromBuf h buf with
  | none => rfl
  | some a =>
    simp only [Option.isSome_some, if_true, deref_some_bind, pure_bind]
    split <;> rfl

section
variable (p : Process) (buf : Buf) (junk : Word)

theorem handleSeqMsg_eq : handleSeqMsg p buf junk = .ok (p.handleSeqMsg buf junk) := by
  unfold handleSeqMsg Process.handleSeqMsg
  cases seqMsgFromBuf p.host buf with
  | none => rfl
  | some m =>
    simp only [Option.isSome_some, Bool.not_true, Bool.false_eq_true, if_false, deref_some_bind]
    split <;> rfl

/-- The access that is not tested is made for the messages that get a fresh proposal. -/
theorem handleDataMsg_eq :
    handleDataMsg p buf = if p.proposes buf then .error {} else .ok (p.handleDataMsg buf) := by
  unfold handleDataMsg Process.handleDataMsg Process.proposes
  cases dataMsgFromBuf p.host buf with
  | none => rfl
  | some m =>
    simp only [Option.isSome_some, Bool.not_true, Bool.false_eq_true, if_false, deref_some_bind]
    cases hv : validDataMsg m p.processCount with
    | false => rfl
    | true =>
      cases ha : p.holdBackQueue.lookup m with
      | none => rfl
      | some a =>
        simp only [Process.acceptData, ha]
        rfl

theorem onReceive_eq : onReceive p buf junk = if p.proposes buf then .error {} else .ok (p.onReceive buf junk) := by
  -- only the data branch makes the access, and only a data message gets a proposal
  have hdata : messageTypeFromBuf p.host buf ≠ some kDataMessageType → p.proposes buf = false := by
    intro hne
    refine Process.proposes_eq_false fun hd => hne ?_
    rw [messageTypeFromBuf, if_neg (by rw [hd.1]; decide), ntohl_wordAt, hd.2.1]
    rfl
  unfold onReceive Process.onReceive
  cases ht : messageTypeFromBuf p.host buf with
  | none =>
    rw [hdata (by simp [ht])]
    rfl
  | some type =>
    simp only [Option.isSome_some, Bool.not_true, Bool.false_eq_true, if_false, deref_some_bind]
    by_cases hd : type = kDataMessageType
    · rw [if_pos hd, if_pos hd, handleDataMsg_eq]
    · rw [if_neg hd, if_neg hd, hdata (by simpa [ht] using hd), if_neg Bool.false_ne_true, handleSeqMsg_eq]
      split_ifs <;> rfl

end

end Checked

namespace Server
variable {id : Word} {n : Nat} {host : HostOrder} {sv : Server} {ds : List (Buf × Word)}

/-- As long as the error is not reached no message is pending. -/
theorem pending_eq_none_of_along
    (hok : (listener id n host).Along (fun sv d => sv.process.proposes d.1 = false) ds)
    (hrun : (listener id n host).Run ds sv) (k : PendingMessageKey) : sv.pending k = none := by
  refine hears_induction (P := fun sv => ∀ k, sv.pending k = none) (fun k => rfl) ?_ hok hrun k
  intro sv d sv' hp hok hh k
  cases hh with
  | replay | drop => exact hp k
  | fresh hbuf hm hnone =>
    rw [(Process.proposes_iff hbuf hm).2 hnone] at hok
    cases hok
  | seq =>
    rw [pending_acceptSeq]
    split_ifs
    · rfl
    · exact hp k

theorem along_not_proposes_iff (id : Word) (n : Nat) (host : HostOrder) (ds : List (Buf × Word)) :
    (listener id n host).Along (fun sv d => sv.process.proposes d.1 = false) ds ↔
      ∀ d ∈ ds, ¬ IsDataRequest n d.1 := by
  constructor
  · intro hok d hd hreq
    obtain ⟨ds₁, ds₂, rfl⟩ := List.append_of_mem hd
    obtain ⟨sv, hrun⟩ := exists_run id n host ds₁
    have hfresh := pending_eq_none_of_along hok.append_left hrun
    have hreq : IsDataRequest sv.process.processCount d.1 := (listens hrun).count_eq ▸ hreq
    obtain ⟨m, hm, -⟩ := (isDataRequest_iff (h := sv.process.host)).1 hreq
    have hprop := (Process.proposes_iff hreq hm).2 (hfresh m.key)
    rw [hok ds₁ d ds₂ sv rfl hrun] at hprop
    cases hprop
  · rintro hno ds₁ d ds₂ sv rfl hrun
    exact Process.proposes_eq_false ((listens hrun).count_eq ▸ hno d (by simp))

end Server

/-- Where the callbacks access a disengaged `optional`. Over a sequence of datagrams the server never does so if
and only if there is no data message among them. In the state it has reached it does so exactly when it handles a
message that is to get a fresh proposal, and otherwise does what `Process.onReceive` does. The callbacks of the
senders never do. -/
theorem optionals_engaged (id : Word) (n : Nat) (host : HostOrder) (ds : List (Buf × Word)) :
    ((listener id n host).Along (fun sv d => ∃ o, Checked.onReceive sv.process d.1 d.2 = .ok o) ds ↔
      ∀ d ∈ ds, ¬ IsDataRequest n d.1) ∧
    (∀ sv, (listener id n host).Run ds sv → ∀ buf junk, Checked.onReceive sv.process buf junk =
      if sv.process.proposes buf then .error {} else .ok (sv.process.onReceive buf junk)) ∧
    (∀ msgId pid seqs buf,
      Checked.handleAck host id msgId pid seqs buf = .ok (handleAck host id msgId pid seqs buf)) ∧
    ∀ seqMsg buf, Checked.isValidAck host seqMsg buf = .ok (isValidAck host seqMsg buf) := by
  refine ⟨?_, fun sv _ => Checked.onReceive_eq sv.process, Checked.handleAck_eq host id, Checked.isValidAck_eq host⟩
  rw [← Server.along_not_proposes_iff id n host]
  have hguard : ∀ (sv : Server) (d : Buf × Word),
      (∃ o, Checked.onReceive sv.process d.1 d.2 = .ok o) ↔ sv.process.proposes d.1 = false := by
    intro sv d
    rw [Checked.onReceive_eq]
    cases sv.process.proposes d.1 <;> simp
  exact ⟨Lts.Along.mono fun sv d => (hguard sv d).1, Lts.Along.mono fun sv d => (hguard sv d).2⟩

/-- The first data message a process gets. -/
theorem first_data_disengaged :
    IsDataRequest 1 (sendDataMsg .little { sender := 0, msgId := 7, data := 50 }) ∧
    Checked.onReceive (listener 0 1 .little).init.process
      (sendDataMsg .little { sender := 0, msgId := 7, data := 50 }) 0 = .error {} :=
  ⟨by decide, rfl⟩

end IsisMulticast

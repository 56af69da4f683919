import IsisMulticast.System
import IsisMulticast.Lib.Firsts

/-!
# Histories

What the results speak about is read off the history of effects of a server: the data messages it
has handled (`dataKeys`), the final numbers it has been told (`finals`), the answers it has given
to data messages (`acks`, `proposals`) and the calls of `deliver` (`deliveries`). `Sys.Launched` and
`Sys.Decided` are the messages of the sender threads.
-/

namespace IsisMulticast
open Lib

def dataKeys (log : List Effect) : List PendingMessageKey := log.filterMap fun
  | .receivedData m => some m.key
  | _ => none

/-- The handled `SeqMessage`s, without their type word. -/
def finals (log : List Effect) : List SeqMessage := log.filterMap fun
  | .receivedSeq m => some m.untyped
  | _ => none

def acks (log : List Effect) : List AckMessage := log.filterMap fun
  | .sendAck a => some a
  | _ => none

def deliveries (log : List Effect) : List SeqMessage := log.filterMap fun
  | .deliver m => some m
  | _ => none

/-- The numbers proposed for a message, one for each of its acks. -/
def proposals (log : List Effect) (k : PendingMessageKey) : List Word :=
  ((acks log).filter (·.key = k)).map (·.proposedSeq)

/-- The number proposed when the `DataMessage` was first handled. -/
def firstProposal (log : List Effect) (k : PendingMessageKey) : Option Word := (proposals log k).head?

def HandledSeq (log : List Effect) (k : PendingMessageKey) : Prop := ∃ m ∈ finals log, m.key = k

def Delivered (log : List Effect) (k : PendingMessageKey) : Prop := ∃ m ∈ deliveries log, m.key = k

instance (log : List Effect) (k : PendingMessageKey) : Decidable (HandledSeq log k) :=
  inferInstanceAs (Decidable (∃ m ∈ finals log, m.key = k))

instance (log : List Effect) (k : PendingMessageKey) : Decidable (Delivered log k) :=
  inferInstanceAs (Decidable (∃ m ∈ deliveries log, m.key = k))

/-- The first delivery of each message, in order. -/
def firstDeliveries (log : List Effect) : List SeqMessage := firstsBy SeqMessage.key (deliveries log)

section
variable (log log' : List Effect)

@[simp] theorem dataKeys_append : dataKeys (log ++ log') = dataKeys log ++ dataKeys log' := List.filterMap_append
@[simp] theorem finals_append : finals (log ++ log') = finals log ++ finals log' := List.filterMap_append
@[simp] theorem acks_append : acks (log ++ log') = acks log ++ acks log' := List.filterMap_append
@[simp] theorem deliveries_append : deliveries (log ++ log') = deliveries log ++ deliveries log' :=
  List.filterMap_append

@[simp] theorem proposals_append (k : PendingMessageKey) :
    proposals (log ++ log') k = proposals log k ++ proposals log' k := by
  simp [proposals]

end

theorem HandledSeq.append {log : List Effect} {k : PendingMessageKey} (h : HandledSeq log k)
    (log' : List Effect) : HandledSeq (log ++ log') k := by
  obtain ⟨m, hm, hk⟩ := h
  exact ⟨m, by simp [hm], hk⟩

theorem Delivered.append {log : List Effect} {k : PendingMessageKey} (h : Delivered log k)
    (log' : List Effect) : Delivered (log ++ log') k := by
  obtain ⟨m, hm, hk⟩ := h
  exact ⟨m, by simp [hm], hk⟩

theorem firstProposal_append {log : List Effect} {k : PendingMessageKey} {x : Word}
    (h : firstProposal log k = some x) (log' : List Effect) : firstProposal (log ++ log') k = some x := by
  rw [firstProposal] at h ⊢
  rw [proposals_append, List.head?_append, h, Option.some_or]

theorem mem_proposals_of_firstProposal {log : List Effect} {k : PendingMessageKey} {x : Word}
    (h : firstProposal log k = some x) : x ∈ proposals log k := List.mem_of_head? h

theorem mem_proposals {log : List Effect} {k : PendingMessageKey} {x : Word} :
    x ∈ proposals log k ↔ ∃ a ∈ acks log, a.key = k ∧ a.proposedSeq = x := by
  simp [proposals, and_assoc]

/-! ### The effects of the two handlers -/

section
variable (m : DataMessage) (a : AckMessage)

@[simp] theorem dataKeys_data : dataKeys [.receivedData m, .sendAck a] = [m.key] := rfl
@[simp] theorem finals_data : finals [.receivedData m, .sendAck a] = [] := rfl
@[simp] theorem acks_data : acks [.receivedData m, .sendAck a] = [a] := rfl
@[simp] theorem deliveries_data : deliveries [.receivedData m, .sendAck a] = [] := rfl

@[simp] theorem proposals_data (k : PendingMessageKey) :
    proposals [.receivedData m, .sendAck a] k = if a.key = k then [a.proposedSeq] else [] := by
  by_cases h : a.key = k <;> simp [proposals, h]

variable {m a} {log : List Effect} {k : PendingMessageKey}

theorem mem_dataKeys_data :
    k ∈ dataKeys (log ++ [.receivedData m, .sendAck a]) ↔ k ∈ dataKeys log ∨ k = m.key := by
  rw [dataKeys_append, dataKeys_data, List.mem_append, List.mem_singleton]

theorem mem_acks_data {b : AckMessage} :
    b ∈ acks (log ++ [.receivedData m, .sendAck a]) ↔ b ∈ acks log ∨ b = a := by
  rw [acks_append, acks_data, List.mem_append, List.mem_singleton]

theorem mem_proposals_data {x : Word} :
    x ∈ proposals (log ++ [.receivedData m, .sendAck a]) k ↔ x ∈ proposals log k ∨ a.key = k ∧ x = a.proposedSeq := by
  rw [proposals_append, proposals_data, List.mem_append]
  split_ifs with hk <;> simp [hk]

end

/-- An ack is a first proposal only if there was none. -/
theorem firstProposal_data {log : List Effect} {m : DataMessage} {a : AckMessage} {k : PendingMessageKey} {x : Word}
    (h : firstProposal (log ++ [.receivedData m, .sendAck a]) k = some x) :
    firstProposal log k = some x ∨ proposals log k = [] ∧ a.key = k ∧ a.proposedSeq = x := by
  rw [firstProposal, proposals_append, proposals_data] at h
  cases hl : proposals log k with
  | cons y ys =>
    left
    simpa [firstProposal, hl] using h
  | nil =>
    right
    rw [hl, List.nil_append] at h
    split_ifs at h with hk
    · exact ⟨rfl, hk, by simpa using h⟩
    · simp at h

section
variable (m : SeqMessage) (a : SeqAckMessage) (ds : List SeqMessage)

@[simp] theorem dataKeys_seq : dataKeys (.receivedSeq m :: .sendSeqAck a :: ds.map .deliver) = [] := by
  simp [dataKeys]

@[simp] theorem finals_seq : finals (.receivedSeq m :: .sendSeqAck a :: ds.map .deliver) = [m.untyped] := by
  simp [finals]

@[simp] theorem acks_seq : acks (.receivedSeq m :: .sendSeqAck a :: ds.map .deliver) = [] := by
  simp [acks]

@[simp] theorem deliveries_seq : deliveries (.receivedSeq m :: .sendSeqAck a :: ds.map .deliver) = ds := by
  simp [deliveries]

end

/-! ### States -/

namespace Sys

def log (s : Sys) (q : Word) : List Effect := (s.servers q).log

def Launched (s : Sys) (m : DataMessage) : Prop := ∃ tid t, s.senders tid = some t ∧ t.dataMsg = m

def Decided (s : Sys) (m : SeqMessage) : Prop := ∃ tid t, s.senders tid = some t ∧ t.decided = some m

end Sys

end IsisMulticast

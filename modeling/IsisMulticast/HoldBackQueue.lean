import IsisMulticast.Message
import IsisMulticast.Lib.OrdSet
import Mathlib.Data.List.AList

/-!
# The hold-back queue (`process.h`, `process.cc`: `HoldBackQueue`)

`pendingSeqs` is the hash map from the key of a message to the numbers proposed for it, `ordering`
the ordered set the messages are delivered from. `HoldBackQueue.Inv` ties the two together: the map
holds exactly the undeliverable entries of the set, and the first entry of the set, if there is one,
is undeliverable. What the operations do to such a queue is said by `insertUndeliverable_of_none`, `addPending`
and the lemmas on `setDeliverable`, and later modules use these instead of the definitions.
-/

namespace IsisMulticast
open Lib

structure PendingMessageKey where
  sender : Word
  msgId : Word
deriving DecidableEq, Repr

structure PendingMessageSeq where
  seq : Word
  seqProposer : Word
deriving DecidableEq, Repr

structure PendingMessage where
  pmk : PendingMessageKey
  pms : PendingMessageSeq
  data : Word
  deliverable : Bool
deriving DecidableEq, Repr

def DataMessage.key (m : DataMessage) : PendingMessageKey := ⟨m.sender, m.msgId⟩
def AckMessage.key (m : AckMessage) : PendingMessageKey := ⟨m.sender, m.msgId⟩
def SeqMessage.key (m : SeqMessage) : PendingMessageKey := ⟨m.sender, m.msgId⟩
def SeqAckMessage.key (m : SeqAckMessage) : PendingMessageKey := ⟨m.sender, m.msgId⟩

namespace PendingMessage

/-- `operator<`. -/
def less (lhs rhs : PendingMessage) : Bool :=
  if lhs.pms.seq ≠ rhs.pms.seq then lhs.pms.seq < rhs.pms.seq
  else if lhs.deliverable ≠ rhs.deliverable then !lhs.deliverable
  else if lhs.pmk.sender ≠ rhs.pmk.sender then lhs.pmk.sender < rhs.pmk.sender
  else if lhs.pmk.msgId ≠ rhs.pmk.msgId then lhs.pmk.msgId < rhs.pmk.msgId
  else false

def Lt (lhs rhs : PendingMessage) : Prop := less lhs rhs

instance : DecidableRel Lt := fun lhs rhs => inferInstanceAs (Decidable (less lhs rhs = true))

variable {a b : PendingMessage}

/-- The comparator does not look at the proposer and the data. -/
theorem equivalent_iff :
    Equivalent Lt a b ↔ a.pms.seq = b.pms.seq ∧ a.deliverable = b.deliverable ∧ a.pmk = b.pmk := by
  obtain ⟨⟨as, am⟩, ⟨aq, ap⟩, ad, av⟩ := a
  obtain ⟨⟨bs, bm⟩, ⟨bq, bp⟩, bd, bv⟩ := b
  simp only [Equivalent, Lt, less, PendingMessageKey.mk.injEq]
  cases av <;> cases bv <;> grind

instance : IsStrictWeakOrder PendingMessage Lt where
  irrefl a := (equivalent_iff.2 ⟨rfl, rfl, rfl⟩).1
  trans := by
    rintro ⟨⟨as, am⟩, ⟨aq, ap⟩, ad, av⟩ ⟨⟨bs, bm⟩, ⟨bq, bp⟩, bd, bv⟩ ⟨⟨cs, cm⟩, ⟨cq, cp⟩, cd, cv⟩
    simp only [Lt, less]
    cases av <;> cases bv <;> cases cv <;> grind
  incomp_trans a b c hab hbc := by
    rw [← Equivalent, equivalent_iff] at *
    exact ⟨hab.1.trans hbc.1, hab.2.1.trans hbc.2.1, hab.2.2.trans hbc.2.2⟩

/-- A deliverable entry stands before an undeliverable one exactly when its number is smaller: on
equal numbers the undeliverable one comes first. -/
theorem lt_undeliverable (ha : a.deliverable = true) (hb : b.deliverable = false) :
    Lt a b ↔ a.pms.seq < b.pms.seq := by
  simp only [Lt, less, ha, hb]
  grind

theorem undeliverable_lt (ha : a.deliverable = false) (hb : b.deliverable = true) :
    Lt a b ↔ a.pms.seq ≤ b.pms.seq := by
  simp only [Lt, less, ha, hb]
  grind

def toDeliver (pm : PendingMessage) : SeqMessage :=
  { sender := pm.pmk.sender
    msgId := pm.pmk.msgId
    finalSeq := pm.pms.seq
    finalSeqProposer := pm.pms.seqProposer }

end PendingMessage

/-- The order of delivery: by `(final_seq, sender, msg_id)`. -/
def SeqMessage.Before (a b : SeqMessage) : Prop :=
  a.finalSeq < b.finalSeq ∨ a.finalSeq = b.finalSeq ∧
    (a.sender < b.sender ∨ a.sender = b.sender ∧ a.msgId < b.msgId)

instance : DecidableRel SeqMessage.Before := fun _ _ => inferInstanceAs (Decidable (_ ∨ _))

namespace SeqMessage.Before
variable {a b : SeqMessage}

theorem asymm (h : a.Before b) : ¬ b.Before a := by
  simp only [SeqMessage.Before] at h ⊢
  grind

theorem trichotomy (hk : a.key ≠ b.key) : a.Before b ∨ b.Before a := by
  simp only [SeqMessage.Before, SeqMessage.key, ne_eq, PendingMessageKey.mk.injEq] at hk ⊢
  grind

theorem of_finalSeq_lt (h : a.finalSeq < b.finalSeq) : a.Before b := .inl h

end SeqMessage.Before

instance : Std.Asymm SeqMessage.Before := ⟨fun _ _ h => h.asymm⟩

theorem PendingMessage.lt_deliverable {a b : PendingMessage} (ha : a.deliverable = true)
    (hb : b.deliverable = true) : Lt a b ↔ a.toDeliver.Before b.toDeliver := by
  simp only [Lt, less, SeqMessage.Before, toDeliver, ha, hb]
  grind

structure HoldBackQueue where
  pendingSeqs : AList (fun _ : PendingMessageKey => PendingMessageSeq)
  ordering : OrdSet PendingMessage.Lt

namespace HoldBackQueue

def empty : HoldBackQueue := ⟨∅, .empty⟩

def lookup (q : HoldBackQueue) (dataMsg : DataMessage) : Option AckMessage :=
  match q.pendingSeqs.lookup dataMsg.key with
  | none => none
  | some oldPms => some
      { sender := dataMsg.sender
        msgId := dataMsg.msgId
        proposedSeq := oldPms.seq
        proposer := oldPms.seqProposer }

abbrev InvalidArgument := String

def existingPending : InvalidArgument := "existing pending message in HoldBackQueue"

/-- The result and the state the call leaves behind, also when it throws: the second check stands
after the map has been written. -/
def insertUndeliverable (q : HoldBackQueue) (ackMsg : AckMessage) (data : Word) :
    Except InvalidArgument Unit × HoldBackQueue :=
  let pmk := ackMsg.key
  if pmk ∈ q.pendingSeqs then (.error existingPending, q)
  else
    let pms : PendingMessageSeq := ⟨ackMsg.proposedSeq, ackMsg.proposer⟩
    let q := { q with pendingSeqs := q.pendingSeqs.insert pmk pms }
    let pm : PendingMessage := ⟨pmk, pms, data, false⟩
    if q.ordering.count pm ≠ 0 then (.error existingPending, q)
    else (.ok (), { q with ordering := q.ordering.insert pm })

/-- The deliver calls and the queue they leave. The entry put back into `ordering` is a new struct
whose `data` field is never assigned: `junk` is the indeterminate value it has. -/
def setDeliverable (q : HoldBackQueue) (seqMsg : SeqMessage) (junk : Word) :
    List SeqMessage × HoldBackQueue :=
  let pmk := seqMsg.key
  match q.pendingSeqs.lookup pmk with
  | none => ([], q)
  | some oldPms =>
    let pendingSeqs := q.pendingSeqs.erase pmk
    let pm : PendingMessage := ⟨pmk, oldPms, junk, false⟩
    let ordering := q.ordering.erase pm
    let pms : PendingMessageSeq := ⟨seqMsg.finalSeq, seqMsg.finalSeqProposer⟩
    let pm := { pm with pms := pms, deliverable := true }
    let ordering := ordering.insert pm
    let (delivered, ordering) := ordering.popWhile (·.deliverable)
    (delivered.map (·.toDeliver), ⟨pendingSeqs, ordering⟩)

/-! ### The representation invariant -/

structure Inv (q : HoldBackQueue) : Prop where
  pending_iff : ∀ k v, q.pendingSeqs.lookup k = some v ↔
    ∃ e ∈ q.ordering, e.deliverable = false ∧ e.pmk = k ∧ e.pms = v
  head : ∀ e, q.ordering.toList.head? = some e → e.deliverable = false

variable {q : HoldBackQueue}

theorem inv_empty : empty.Inv := by
  refine ⟨fun k v => ?_, fun e he => ?_⟩
  · simp [empty]
  · simp [empty] at he

namespace Inv

theorem lookup_of_mem (h : q.Inv) {e : PendingMessage} (he : e ∈ q.ordering) (hd : e.deliverable = false) :
    q.pendingSeqs.lookup e.pmk = some e.pms :=
  (h.pending_iff e.pmk e.pms).2 ⟨e, he, hd, rfl, rfl⟩

theorem undeliverable_unique (h : q.Inv) {e e' : PendingMessage} (he : e ∈ q.ordering) (he' : e' ∈ q.ordering)
    (hd : e.deliverable = false) (hd' : e'.deliverable = false) (hk : e.pmk = e'.pmk) : e = e' := by
  have hpms : e.pms = e'.pms := by
    rw [← Option.some.injEq, ← h.lookup_of_mem he hd, hk, h.lookup_of_mem he' hd']
  exact OrdSet.eq_of_equivalent he he' (PendingMessage.equivalent_iff.2 ⟨by rw [hpms], hd.trans hd'.symm, hk⟩)

theorem exists_undeliverable_le (h : q.Inv) {e : PendingMessage} (he : e ∈ q.ordering) :
    ∃ u ∈ q.ordering, u.deliverable = false ∧ u.pms.seq ≤ e.pms.seq := by
  obtain ⟨u, us, hus⟩ := List.exists_cons_of_ne_nil (List.ne_nil_of_mem (OrdSet.mem_def.1 he))
  have hu : u.deliverable = false := h.head u (by simp [hus])
  refine ⟨u, by rw [OrdSet.mem_def, hus]; simp, hu, ?_⟩
  rw [OrdSet.mem_def, hus, List.mem_cons] at he
  rcases he with rfl | he
  · exact UInt32.le_refl _
  · have hlt : PendingMessage.Lt u e := (List.pairwise_cons.1 (hus ▸ q.ordering.sorted)).1 e he
    simp only [PendingMessage.Lt, PendingMessage.less] at hlt
    grind

theorem ordering_eq_nil (h : q.Inv) (hp : ∀ k, q.pendingSeqs.lookup k = none) : q.ordering.toList = [] := by
  by_contra hne
  obtain ⟨e, he⟩ := List.exists_mem_of_ne_nil _ hne
  obtain ⟨u, hu, hd, -⟩ := h.exists_undeliverable_le he
  cases (hp u.pmk).symm.trans (h.lookup_of_mem hu hd)

end Inv

theorem pendingSeqs_eq_empty (hp : ∀ k, q.pendingSeqs.lookup k = none) : q.pendingSeqs = ∅ := by
  apply AList.ext
  by_contra hne
  obtain ⟨⟨k, v⟩, hkv⟩ := List.exists_mem_of_ne_nil _ hne
  have := AList.mem_lookup_iff.2 hkv
  simp [hp k] at this

/-! ### `lookup` and `insertUndeliverable` -/

theorem lookup_eq_none {m : DataMessage} : q.lookup m = none ↔ q.pendingSeqs.lookup m.key = none := by
  unfold lookup; cases q.pendingSeqs.lookup m.key <;> simp

theorem lookup_eq_some {m : DataMessage} {a : AckMessage} :
    q.lookup m = some a ↔ ∃ v, q.pendingSeqs.lookup m.key = some v ∧
      a = { sender := m.sender, msgId := m.msgId, proposedSeq := v.seq, proposer := v.seqProposer } := by
  unfold lookup; cases q.pendingSeqs.lookup m.key <;> simp [eq_comm]

theorem mem_pendingSeqs {k : PendingMessageKey} : k ∈ q.pendingSeqs ↔ q.pendingSeqs.lookup k ≠ none := by
  rw [← AList.lookup_isSome, Option.isSome_iff_ne_none]

theorem insertUndeliverable_of_some {a : AckMessage} {data : Word} {v : PendingMessageSeq}
    (hp : q.pendingSeqs.lookup a.key = some v) :
    q.insertUndeliverable a data = (.error existingPending, q) := by
  rw [insertUndeliverable, if_pos (mem_pendingSeqs.2 (by simp [hp]))]

def newEntry (a : AckMessage) (data : Word) : PendingMessage :=
  ⟨a.key, ⟨a.proposedSeq, a.proposer⟩, data, false⟩

def addPending (q : HoldBackQueue) (a : AckMessage) (data : Word) : HoldBackQueue :=
  ⟨q.pendingSeqs.insert a.key ⟨a.proposedSeq, a.proposer⟩, q.ordering.insert (newEntry a data)⟩

theorem Inv.not_equivalent_newEntry (h : q.Inv) {a : AckMessage} {data : Word}
    (hp : q.pendingSeqs.lookup a.key = none) {e : PendingMessage} (he : e ∈ q.ordering) :
    ¬ Equivalent PendingMessage.Lt e (newEntry a data) := by
  rw [PendingMessage.equivalent_iff]
  rintro ⟨-, hd, hk⟩
  rw [← show e.pmk = a.key from hk, h.lookup_of_mem he hd] at hp
  cases hp

/-- The second check of `insertUndeliverable` never fires: an equivalent entry would be undeliverable
and so in the map. -/
theorem insertUndeliverable_of_none (h : q.Inv) {a : AckMessage} (data : Word)
    (hp : q.pendingSeqs.lookup a.key = none) :
    q.insertUndeliverable a data = (.ok (), q.addPending a data) := by
  have hc : q.ordering.count (newEntry a data) = 0 := by
    rw [OrdSet.count, if_neg]
    rintro ⟨e, he, heq⟩
    exact h.not_equivalent_newEntry hp he heq
  rw [insertUndeliverable, if_neg (by simpa [mem_pendingSeqs] using hp)]
  simp only [addPending, newEntry] at hc ⊢
  simp [hc]

theorem Inv.perm_addPending (h : q.Inv) {a : AckMessage} {data : Word} (hp : q.pendingSeqs.lookup a.key = none) :
    (q.addPending a data).ordering.toList.Perm (newEntry a data :: q.ordering.toList) :=
  OrdSet.perm_insert fun _ he => h.not_equivalent_newEntry hp he

theorem Inv.mem_addPending (h : q.Inv) {a : AckMessage} {data : Word}
    (hp : q.pendingSeqs.lookup a.key = none) {e : PendingMessage} :
    e ∈ (q.addPending a data).ordering ↔ e = newEntry a data ∨ e ∈ q.ordering :=
  (h.perm_addPending hp).mem_iff.trans List.mem_cons

theorem lookup_addPending (q : HoldBackQueue) (a : AckMessage) (data : Word) (k : PendingMessageKey) :
    (q.addPending a data).pendingSeqs.lookup k =
      if k = a.key then some ⟨a.proposedSeq, a.proposer⟩ else q.pendingSeqs.lookup k := by
  split_ifs with hk
  · subst hk; exact AList.lookup_insert _
  · exact AList.lookup_insert_ne hk

theorem Inv.addPending (h : q.Inv) {a : AckMessage} {data : Word} (hp : q.pendingSeqs.lookup a.key = none) :
    (q.addPending a data).Inv := by
  refine ⟨fun k v => ?_, fun e he => ?_⟩
  · by_cases hk : k = a.key
    · subst hk
      rw [lookup_addPending, if_pos rfl, Option.some.injEq]
      constructor
      · rintro rfl
        exact ⟨newEntry a data, (h.mem_addPending hp).2 (.inl rfl), rfl, rfl, rfl⟩
      · rintro ⟨e, he, hd, hk, rfl⟩
        rcases (h.mem_addPending hp).1 he with rfl | he
        · rfl
        · rw [← hk, h.lookup_of_mem he hd] at hp
          cases hp
    · rw [lookup_addPending, if_neg hk, h.pending_iff k v]
      simp only [h.mem_addPending hp]
      constructor
      · rintro ⟨e, he, hrest⟩
        exact ⟨e, .inr he, hrest⟩
      · rintro ⟨e, rfl | he, hd, hek, hv⟩
        · exact absurd hek.symm hk
        · exact ⟨e, he, hd, hek, hv⟩
  · -- the new first entry is the inserted one or the old first entry
    rcases hl : q.ordering.toList with _ | ⟨y, ys⟩
    · simp only [HoldBackQueue.addPending, OrdSet.insert, hl, OrdSet.insertList, List.head?_cons,
        Option.some.injEq] at he
      subst he; rfl
    · have hy : y.deliverable = false := h.head y (by simp [hl])
      simp only [HoldBackQueue.addPending, OrdSet.insert, hl, OrdSet.insertList] at he
      split_ifs at he <;> simp only [List.head?_cons, Option.some.injEq] at he <;> subst he
      exacts [rfl, hy, hy]

theorem Inv.insertUndeliverable (h : q.Inv) (a : AckMessage) (data : Word) :
    (q.insertUndeliverable a data).2.Inv := by
  cases hp : q.pendingSeqs.lookup a.key with
  | none => rw [insertUndeliverable_of_none h data hp]; exact h.addPending hp
  | some v => rw [insertUndeliverable_of_some hp]; exact h

/-! ### `setDeliverable` -/

def finalEntry (m : SeqMessage) (junk : Word) : PendingMessage :=
  ⟨m.key, ⟨m.finalSeq, m.finalSeqProposer⟩, junk, true⟩

/-- The ordered set when the delivery loop starts. -/
def marked (q : HoldBackQueue) (m : SeqMessage) (oldPms : PendingMessageSeq) (junk : Word) :
    OrdSet PendingMessage.Lt :=
  (q.ordering.erase ⟨m.key, oldPms, junk, false⟩).insert (finalEntry m junk)

theorem setDeliverable_of_none {m : SeqMessage} {junk : Word} (hp : q.pendingSeqs.lookup m.key = none) :
    q.setDeliverable m junk = ([], q) := by
  simp [setDeliverable, hp]

theorem setDeliverable_of_some {m : SeqMessage} {junk : Word} {v : PendingMessageSeq}
    (hp : q.pendingSeqs.lookup m.key = some v) :
    q.setDeliverable m junk =
      (((q.marked m v junk).popWhile (·.deliverable)).1.map (·.toDeliver),
        ⟨q.pendingSeqs.erase m.key, ((q.marked m v junk).popWhile (·.deliverable)).2⟩) := by
  simp [setDeliverable, hp, marked, finalEntry]

section
variable {m : SeqMessage} {v : PendingMessageSeq} {junk : Word} {e : PendingMessage}

/-- The erasure hits the undeliverable entry of the message and nothing else. -/
theorem Inv.mem_erase_pending (h : q.Inv) (hp : q.pendingSeqs.lookup m.key = some v) :
    e ∈ q.ordering.erase ⟨m.key, v, junk, false⟩ ↔ e ∈ q.ordering ∧ ¬ (e.deliverable = false ∧ e.pmk = m.key) := by
  rw [OrdSet.mem_erase, PendingMessage.equivalent_iff]
  constructor
  · rintro ⟨he, hne⟩
    refine ⟨he, fun ⟨hd, hk⟩ => hne ⟨?_, hd, hk⟩⟩
    have heq := h.lookup_of_mem he hd
    rw [hk, hp, Option.some.injEq] at heq
    rw [heq]
  · rintro ⟨he, hne⟩
    exact ⟨he, fun ⟨_, hd, hk⟩ => hne ⟨hd, hk⟩⟩

/-- The erasure in terms of the entry it hits. -/
theorem Inv.toList_erase_pending (h : q.Inv) (junk : Word) (he : e ∈ q.ordering) (hd : e.deliverable = false)
    (hk : e.pmk = m.key) :
    (q.ordering.erase ⟨m.key, e.pms, junk, false⟩).toList = q.ordering.toList.erase e := by
  rw [OrdSet.toList_erase, q.ordering.nodup.erase_eq_filter]
  apply List.filter_congr
  intro c hc
  have heq : Equivalent PendingMessage.Lt c ⟨m.key, e.pms, junk, false⟩ ↔ c = e := by
    rw [PendingMessage.equivalent_iff]
    constructor
    · rintro ⟨-, hcd, hck⟩
      exact h.undeliverable_unique hc he hcd hd (hck.trans hk.symm)
    · rintro rfl
      exact ⟨rfl, hd, hk⟩
  rw [Bool.eq_iff_iff]; simp [heq]

theorem Inv.mem_marked_of_mem (h : q.Inv) (hp : q.pendingSeqs.lookup m.key = some v) (he : e ∈ q.ordering)
    (hne : ¬ (e.deliverable = false ∧ e.pmk = m.key)) : e ∈ q.marked m v junk :=
  OrdSet.mem_insert_of_mem ((h.mem_erase_pending hp).2 ⟨he, hne⟩)

theorem Inv.of_mem_marked (h : q.Inv) (hp : q.pendingSeqs.lookup m.key = some v)
    (he : e ∈ q.marked m v junk) :
    e = finalEntry m junk ∨ e ∈ q.ordering ∧ ¬ (e.deliverable = false ∧ e.pmk = m.key) := by
  rcases OrdSet.eq_or_mem_of_mem_insert he with rfl | he
  · exact .inl rfl
  · exact .inr ((h.mem_erase_pending hp).1 he)

/-- When the delivery loop starts the message has a deliverable entry under its final number. It is
the new entry, or one that was there before and made the insertion a no-op. -/
theorem exists_final_mem_marked (q : HoldBackQueue) (m : SeqMessage) (v : PendingMessageSeq) (junk : Word) :
    ∃ e ∈ q.marked m v junk, e.deliverable = true ∧ e.pmk = m.key ∧ e.pms.seq = m.finalSeq := by
  rcases OrdSet.mem_insert_self_or (q.ordering.erase ⟨m.key, v, junk, false⟩) (finalEntry m junk) with hm | ⟨e, -, he, heq⟩
  · exact ⟨_, hm, rfl, rfl, rfl⟩
  · obtain ⟨hs, hd, hk⟩ := PendingMessage.equivalent_iff.1 heq
    exact ⟨e, he, hd, hk, hs⟩

theorem mem_popWhile_undeliverable {o : OrdSet PendingMessage.Lt} (hd : e.deliverable = false) :
    e ∈ (o.popWhile (·.deliverable)).2 ↔ e ∈ o := by
  refine ⟨fun he => OrdSet.mem_iff_mem_popWhile.2 (.inr he), fun he => ?_⟩
  rcases OrdSet.mem_iff_mem_popWhile.1 he with he | he
  · have hpop : e.deliverable = true := OrdSet.popWhile_popped he
    simp [hd] at hpop
  · exact he

theorem Inv.setDeliverable (h : q.Inv) (m : SeqMessage) (junk : Word) : (q.setDeliverable m junk).2.Inv := by
  cases hp : q.pendingSeqs.lookup m.key with
  | none => rw [setDeliverable_of_none hp]; exact h
  | some v =>
    rw [setDeliverable_of_some hp]
    refine ⟨fun k w => ?_, fun e he => ?_⟩
    · by_cases hk : k = m.key
      · subst hk
        simp only [AList.lookup_erase, reduceCtorEq, false_iff]
        rintro ⟨e, he, hd, hk, -⟩
        rcases h.of_mem_marked hp ((mem_popWhile_undeliverable hd).1 he) with rfl | ⟨-, hne⟩
        · simp [finalEntry] at hd
        · exact hne ⟨hd, hk⟩
      · simp only [AList.lookup_erase_ne hk, h.pending_iff k w]
        constructor
        · rintro ⟨e, he, hd, hek, hw⟩
          refine ⟨e, (mem_popWhile_undeliverable hd).2 (h.mem_marked_of_mem hp he fun hc => hk ?_), hd, hek, hw⟩
          exact hek.symm.trans hc.2
        · rintro ⟨e, he, hd, hek, hw⟩
          rcases h.of_mem_marked hp ((mem_popWhile_undeliverable hd).1 he) with rfl | ⟨he, -⟩
          · simp [finalEntry] at hd
          · exact ⟨e, he, hd, hek, hw⟩
    · have hne : (q.marked m v junk).toList.dropWhile (·.deliverable) ≠ [] := by
        rintro hnil
        simp [OrdSet.popWhile, hnil] at he
      have hhead := List.head_dropWhile_not PendingMessage.deliverable hne
      simp only [OrdSet.popWhile, List.head?_eq_some_head hne, Option.some.injEq] at he
      rw [he] at hhead
      simpa using hhead

/-- A message leaves the queue only by being delivered. -/
theorem Inv.setDeliverable_entry (h : q.Inv) (m : SeqMessage) (junk : Word) (he : e ∈ q.ordering) :
    (∃ e' ∈ (q.setDeliverable m junk).2.ordering, e'.pmk = e.pmk) ∨
      ∃ d ∈ (q.setDeliverable m junk).1, d.key = e.pmk := by
  cases hp : q.pendingSeqs.lookup m.key with
  | none => rw [setDeliverable_of_none hp]; exact .inl ⟨e, he, rfl⟩
  | some v =>
    rw [setDeliverable_of_some hp]
    have hmarked : ∃ e' ∈ q.marked m v junk, e'.pmk = e.pmk := by
      by_cases hne : e.deliverable = false ∧ e.pmk = m.key
      · obtain ⟨e', he', -, hk, -⟩ := exists_final_mem_marked q m v junk
        exact ⟨e', he', hk.trans hne.2.symm⟩
      · exact ⟨e, h.mem_marked_of_mem hp he hne, rfl⟩
    obtain ⟨e', he', hk⟩ := hmarked
    rcases OrdSet.mem_iff_mem_popWhile.1 he' with he' | he'
    · exact .inr ⟨_, List.mem_map_of_mem he', hk⟩
    · exact .inl ⟨e', he', hk⟩

theorem Inv.setDeliverable_delivered (h : q.Inv) {d : SeqMessage} (hd : d ∈ (q.setDeliverable m junk).1) :
    d = m.untyped ∨ ∃ e ∈ q.ordering, e.deliverable = true ∧ e.toDeliver = d := by
  cases hp : q.pendingSeqs.lookup m.key with
  | none => rw [setDeliverable_of_none hp] at hd; simp at hd
  | some v =>
    rw [setDeliverable_of_some hp] at hd
    obtain ⟨e, he, rfl⟩ := List.mem_map.1 hd
    have hdel : e.deliverable = true := OrdSet.popWhile_popped he
    rcases h.of_mem_marked hp (OrdSet.mem_iff_mem_popWhile.2 (.inl he)) with rfl | ⟨he, -⟩
    · exact .inl rfl
    · exact .inr ⟨e, he, hdel, rfl⟩

theorem Inv.setDeliverable_deliverable (h : q.Inv) (he : e ∈ (q.setDeliverable m junk).2.ordering)
    (hd : e.deliverable = true) : e.toDeliver = m.untyped ∨ e ∈ q.ordering := by
  cases hp : q.pendingSeqs.lookup m.key with
  | none => rw [setDeliverable_of_none hp] at he; exact .inr he
  | some v =>
    rw [setDeliverable_of_some hp] at he
    rcases h.of_mem_marked hp (OrdSet.mem_iff_mem_popWhile.2 (.inr he)) with rfl | ⟨he, -⟩
    · exact .inl rfl
    · exact .inr he

theorem Inv.setDeliverable_undeliverable (h : q.Inv) (he : e ∈ (q.setDeliverable m junk).2.ordering)
    (hd : e.deliverable = false) : e ∈ q.ordering := by
  cases hp : q.pendingSeqs.lookup m.key with
  | none => rw [setDeliverable_of_none hp] at he; exact he
  | some v =>
    rw [setDeliverable_of_some hp] at he
    rcases h.of_mem_marked hp ((mem_popWhile_undeliverable hd).1 he) with rfl | ⟨he, -⟩
    · simp [finalEntry] at hd
    · exact he

theorem Inv.setDeliverable_keeps (h : q.Inv) (m : SeqMessage) (junk : Word) (he : e ∈ q.ordering)
    (hd : e.deliverable = true) :
    e ∈ (q.setDeliverable m junk).2.ordering ∨ e.toDeliver ∈ (q.setDeliverable m junk).1 := by
  cases hp : q.pendingSeqs.lookup m.key with
  | none => rw [setDeliverable_of_none hp]; exact .inl he
  | some v =>
    rw [setDeliverable_of_some hp]
    have hm : e ∈ q.marked m v junk := h.mem_marked_of_mem hp he (by simp [hd])
    rcases OrdSet.mem_iff_mem_popWhile.1 hm with hm | hm
    · exact .inr (List.mem_map_of_mem hm)
    · exact .inl hm

/-- A pending message is deliverable or delivered afterwards, under its final number or under the entry it
had with the same number. -/
theorem Inv.setDeliverable_final (h : q.Inv) (junk : Word) (hp : q.pendingSeqs.lookup m.key = some v) :
    ∃ e, e.deliverable = true ∧ e.pmk = m.key ∧ (e = finalEntry m junk ∨ e ∈ q.ordering) ∧
      (e ∈ (q.setDeliverable m junk).2.ordering ∨ e.toDeliver ∈ (q.setDeliverable m junk).1) := by
  obtain ⟨e, he, hd, hk, -⟩ := exists_final_mem_marked q m v junk
  refine ⟨e, hd, hk, (h.of_mem_marked hp he).imp_right And.left, ?_⟩
  rw [setDeliverable_of_some hp]
  rcases OrdSet.mem_iff_mem_popWhile.1 he with he | he
  · exact .inr (List.mem_map_of_mem he)
  · exact .inl he

/-! ### What becomes of the entries -/

/-- The entry of the message is replaced by the final one. Only a deliverable entry of the message with
the final number would make the insertion a no-op. -/
theorem Inv.perm_marked (h : q.Inv) (junk : Word) (he : e ∈ q.ordering) (hd : e.deliverable = false)
    (hk : e.pmk = m.key)
    (hnew : ∀ c ∈ q.ordering, c.deliverable = true → c.pmk = m.key → c.pms.seq ≠ m.finalSeq) :
    (q.marked m e.pms junk).toList.Perm (finalEntry m junk :: q.ordering.toList.erase e) := by
  rw [← h.toList_erase_pending junk he hd hk]
  refine OrdSet.perm_insert fun c hc heq => ?_
  obtain ⟨hs, hcd, hck⟩ := PendingMessage.equivalent_iff.1 heq
  exact hnew c (OrdSet.mem_erase.1 hc).1 hcd hck hs

theorem Inv.exists_perm_setDeliverable (h : q.Inv) (junk : Word) (hp : q.pendingSeqs.lookup m.key = some v)
    (hnew : ∀ c ∈ q.ordering, c.deliverable = true → c.pmk = m.key → c.pms.seq ≠ m.finalSeq) :
    ∃ e ∈ q.ordering, e.deliverable = false ∧ e.pmk = m.key ∧ ∃ popped : List PendingMessage,
      (q.setDeliverable m junk).1 = popped.map (·.toDeliver) ∧ (∀ c ∈ popped, c.deliverable = true) ∧
      (popped ++ (q.setDeliverable m junk).2.ordering.toList).Perm
        (finalEntry m junk :: q.ordering.toList.erase e) := by
  obtain ⟨e, he, hd, hk, rfl⟩ := (h.pending_iff _ _).1 hp
  refine ⟨e, he, hd, hk, ((q.marked m e.pms junk).popWhile (·.deliverable)).1, ?_,
    fun c hc => OrdSet.popWhile_popped hc, ?_⟩
  · rw [setDeliverable_of_some hp]
  · rw [setDeliverable_of_some hp]
    exact (List.takeWhile_append_dropWhile ▸ h.perm_marked junk he hd hk hnew)

/-- Every message keeps its entry until it is delivered: the keys delivered and left are the keys there were. -/
theorem Inv.perm_keys_setDeliverable (h : q.Inv) (m : SeqMessage) (junk : Word)
    (hnew : ∀ v, q.pendingSeqs.lookup m.key = some v →
      ∀ c ∈ q.ordering, c.deliverable = true → c.pmk = m.key → c.pms.seq ≠ m.finalSeq) :
    ((q.setDeliverable m junk).1.map SeqMessage.key ++
      (q.setDeliverable m junk).2.ordering.toList.map PendingMessage.pmk).Perm
        (q.ordering.toList.map PendingMessage.pmk) := by
  cases hp : q.pendingSeqs.lookup m.key with
  | none => rw [setDeliverable_of_none hp]; exact .refl _
  | some v =>
    obtain ⟨e, he, -, hk, popped, hpop, -, hperm⟩ := h.exists_perm_setDeliverable junk hp (hnew v hp)
    have hkeys : (popped.map (·.toDeliver)).map SeqMessage.key = popped.map PendingMessage.pmk := by
      rw [List.map_map]; rfl
    rw [hpop, hkeys, ← List.map_append]
    refine (hperm.map PendingMessage.pmk).trans ?_
    rw [List.map_cons, show (finalEntry m junk).pmk = e.pmk from hk.symm, ← List.map_cons]
    exact ((List.perm_cons_erase (OrdSet.mem_def.1 he)).map _).symm

/-- The deliverable entries, as they will be delivered. -/
def deliverables (q : HoldBackQueue) : List SeqMessage :=
  (q.ordering.toList.filter (·.deliverable)).map (·.toDeliver)

theorem mem_deliverables {d : SeqMessage} :
    d ∈ q.deliverables ↔ ∃ e ∈ q.ordering, e.deliverable = true ∧ e.toDeliver = d := by
  simp [deliverables, OrdSet.mem_def, and_assoc]

theorem Inv.perm_deliverables_addPending (h : q.Inv) {a : AckMessage} (data : Word)
    (hp : q.pendingSeqs.lookup a.key = none) : (q.addPending a data).deliverables.Perm q.deliverables :=
  ((h.perm_addPending hp).filter PendingMessage.deliverable).map PendingMessage.toDeliver

theorem Inv.perm_deliverables_setDeliverable (h : q.Inv) (junk : Word) (hp : q.pendingSeqs.lookup m.key = some v)
    (hnew : ∀ c ∈ q.ordering, c.deliverable = true → c.pmk = m.key → c.pms.seq ≠ m.finalSeq) :
    ((q.setDeliverable m junk).1 ++ (q.setDeliverable m junk).2.deliverables).Perm (m.untyped :: q.deliverables) := by
  obtain ⟨e, he, hd, -, popped, hpop, hdel, hperm⟩ := h.exists_perm_setDeliverable junk hp hnew
  have hfilter : (q.ordering.toList.erase e).filter (·.deliverable) = q.ordering.toList.filter (·.deliverable) := by
    rw [← List.erase_filter, List.erase_of_not_mem (by simp [hd])]
  have := (hperm.filter (·.deliverable)).map (·.toDeliver)
  rw [List.filter_append, List.filter_eq_self.2 hdel, List.map_append, List.filter_cons_of_pos rfl, hfilter] at this
  rwa [hpop]

/-! ### The order of delivery -/

theorem pairwise_popWhile_toDeliver (o : OrdSet PendingMessage.Lt) :
    ((o.popWhile (·.deliverable)).1.map (·.toDeliver)).Pairwise SeqMessage.Before := by
  refine List.pairwise_map.2 ((OrdSet.pairwise_popWhile _ o).imp_of_mem fun ha hb hab => ?_)
  exact (PendingMessage.lt_deliverable (OrdSet.popWhile_popped ha) (OrdSet.popWhile_popped hb)).1 hab

theorem pairwise_setDeliverable (q : HoldBackQueue) (m : SeqMessage) (junk : Word) :
    (q.setDeliverable m junk).1.Pairwise SeqMessage.Before := by
  cases hp : q.pendingSeqs.lookup m.key with
  | none => rw [setDeliverable_of_none hp]; exact .nil
  | some v =>
    rw [setDeliverable_of_some hp]
    exact pairwise_popWhile_toDeliver _

theorem exists_lt_of_setDeliverable {d : SeqMessage} (hd : d ∈ (q.setDeliverable m junk).1)
    (he : e ∈ (q.setDeliverable m junk).2.ordering) :
    ∃ c : PendingMessage, c.deliverable = true ∧ c.toDeliver = d ∧ PendingMessage.Lt c e := by
  cases hp : q.pendingSeqs.lookup m.key with
  | none => rw [setDeliverable_of_none hp] at hd; simp at hd
  | some v =>
    rw [setDeliverable_of_some hp] at hd he
    obtain ⟨c, hc, rfl⟩ := List.mem_map.1 hd
    exact ⟨c, OrdSet.popWhile_popped hc, rfl, OrdSet.popWhile_lt hc he⟩

theorem lt_of_setDeliverable {d : SeqMessage} (hd : d ∈ (q.setDeliverable m junk).1)
    (he : e ∈ (q.setDeliverable m junk).2.ordering) (hu : e.deliverable = false) : d.finalSeq < e.pms.seq := by
  obtain ⟨c, hc, rfl, hlt⟩ := exists_lt_of_setDeliverable hd he
  exact (PendingMessage.lt_undeliverable hc hu).1 hlt

theorem before_of_setDeliverable {d : SeqMessage} (hd : d ∈ (q.setDeliverable m junk).1)
    (he : e ∈ (q.setDeliverable m junk).2.ordering) (hu : e.deliverable = true) : d.Before e.toDeliver := by
  obtain ⟨c, hc, rfl, hlt⟩ := exists_lt_of_setDeliverable hd he
  exact (PendingMessage.lt_deliverable hc hu).1 hlt

theorem lookup_setDeliverable {k : PendingMessageKey} :
    (q.setDeliverable m junk).2.pendingSeqs.lookup k = if k = m.key then none else q.pendingSeqs.lookup k := by
  cases hp : q.pendingSeqs.lookup m.key with
  | none =>
    rw [setDeliverable_of_none hp]
    split_ifs with hk
    · rw [hk]; exact hp
    · rfl
  | some v =>
    rw [setDeliverable_of_some hp]
    split_ifs with hk
    · rw [hk]; exact AList.lookup_erase _ _
    · exact AList.lookup_erase_ne hk

end

end HoldBackQueue

end IsisMulticast

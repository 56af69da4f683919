import IsisMulticast.HoldBackQueue
import IsisMulticast.Lib.Lts
import Mathlib.Data.List.Sort

/-!
# The hold-back queue refines a plain queue

`PlainQueue` says what the hold-back queue is for without the hash map and the comparator: an
unordered collection of entries searched from end to end, from which a call of `setDeliverable`
delivers, in the order of their final numbers, the deliverable entries whose number is below that of
every undeliverable one. It is a specification, not a translation of the source. `Sim` relates a
queue to a collection with the same entries; `outputs_call_eq` says that no sequence of calls tells
the two apart.
-/

namespace IsisMulticast
open Lib

namespace PlainQueue

structure Entry where
  sender : Word
  msgId : Word
  seq : Word
  proposer : Word
  deliverable : Bool
deriving DecidableEq, Repr

namespace Entry

def isPending (k : PendingMessageKey) (e : Entry) : Bool :=
  !e.deliverable && e.sender == k.sender && e.msgId == k.msgId

def isFinal (m : SeqMessage) (e : Entry) : Bool :=
  e.deliverable && e.seq == m.finalSeq && e.sender == m.sender && e.msgId == m.msgId

def toDeliver (e : Entry) : SeqMessage :=
  { sender := e.sender, msgId := e.msgId, finalSeq := e.seq, finalSeqProposer := e.proposer }

end Entry

/-- `e` can be delivered from `l`: its number is below the number of every undeliverable entry. -/
def ready (l : List Entry) (e : Entry) : Bool :=
  e.deliverable && l.all fun u => u.deliverable || e.seq < u.seq

def lookup (l : List Entry) (m : DataMessage) : Option AckMessage :=
  (l.find? (Entry.isPending m.key)).map fun e =>
    { sender := e.sender, msgId := e.msgId, proposedSeq := e.seq, proposer := e.proposer }

def insertUndeliverable (l : List Entry) (a : AckMessage) :
    Except HoldBackQueue.InvalidArgument Unit × List Entry :=
  if l.any (Entry.isPending a.key) then (.error HoldBackQueue.existingPending, l)
  else (.ok (), ⟨a.sender, a.msgId, a.proposedSeq, a.proposer, false⟩ :: l)

def addFinal (l : List Entry) (m : SeqMessage) : List Entry :=
  if l.any (Entry.isFinal m) then l else ⟨m.sender, m.msgId, m.finalSeq, m.finalSeqProposer, true⟩ :: l

def setDeliverable (l : List Entry) (m : SeqMessage) : List SeqMessage × List Entry :=
  match l.find? (Entry.isPending m.key) with
  | none => ([], l)
  | some e =>
    let l := addFinal (l.erase e) m
    (((l.filter (ready l)).map (·.toDeliver)).insertionSort (fun a b => ¬ b.Before a),
      l.filter (fun e => !ready l e))

end PlainQueue

/-! ### Calls -/

/-- The public operations, with the indeterminate value a call of `setDeliverable` picks up. -/
inductive QueueCall where
  | lookup (m : DataMessage)
  | insertUndeliverable (a : AckMessage) (data : Word)
  | setDeliverable (m : SeqMessage) (junk : Word)
deriving Repr

inductive QueueAnswer where
  | lookup (r : Option AckMessage)
  | insertUndeliverable (r : Except HoldBackQueue.InvalidArgument Unit)
  | setDeliverable (delivered : List SeqMessage)

def HoldBackQueue.call (q : HoldBackQueue) : QueueCall → QueueAnswer × HoldBackQueue
  | .lookup m => (.lookup (q.lookup m), q)
  | .insertUndeliverable a data =>
    (.insertUndeliverable (q.insertUndeliverable a data).1, (q.insertUndeliverable a data).2)
  | .setDeliverable m junk => (.setDeliverable (q.setDeliverable m junk).1, (q.setDeliverable m junk).2)

def PlainQueue.call (l : List PlainQueue.Entry) : QueueCall → QueueAnswer × List PlainQueue.Entry
  | .lookup m => (.lookup (lookup l m), l)
  | .insertUndeliverable a _ => (.insertUndeliverable (insertUndeliverable l a).1, (insertUndeliverable l a).2)
  | .setDeliverable m _ => (.setDeliverable (setDeliverable l m).1, (setDeliverable l m).2)

/-! ### The simulation -/

open PlainQueue

def PendingMessage.toEntry (pm : PendingMessage) : Entry :=
  ⟨pm.pmk.sender, pm.pmk.msgId, pm.pms.seq, pm.pms.seqProposer, pm.deliverable⟩

section
variable {pm : PendingMessage}

@[simp] theorem PendingMessage.toEntry_deliverable : pm.toEntry.deliverable = pm.deliverable := rfl

@[simp] theorem PendingMessage.toEntry_seq : pm.toEntry.seq = pm.pms.seq := rfl

theorem PendingMessage.isPending_toEntry {k : PendingMessageKey} :
    pm.toEntry.isPending k ↔ pm.deliverable = false ∧ pm.pmk = k := by
  obtain ⟨ks, ki⟩ := k
  obtain ⟨⟨s, i⟩, v, d, b⟩ := pm
  simp [Entry.isPending, toEntry, and_assoc]

theorem PendingMessage.isFinal_toEntry {m : SeqMessage} {junk : Word} :
    pm.toEntry.isFinal m ↔ Equivalent PendingMessage.Lt pm (HoldBackQueue.finalEntry m junk) := by
  obtain ⟨⟨s, i⟩, v, d, b⟩ := pm
  simp [Entry.isFinal, toEntry, PendingMessage.equivalent_iff, HoldBackQueue.finalEntry, SeqMessage.key]
  tauto

end

/-- The collection holds exactly the entries of the ordered set. -/
structure Sim (q : HoldBackQueue) (l : List Entry) : Prop where
  inv : q.Inv
  perm : l.Perm (q.ordering.toList.map (·.toEntry))

namespace Sim
variable {q : HoldBackQueue} {l : List Entry}

theorem mem_iff (h : Sim q l) {e : Entry} : e ∈ l ↔ ∃ pm ∈ q.ordering, pm.toEntry = e := by
  rw [h.perm.mem_iff, List.mem_map]; rfl

theorem find?_isPending (h : Sim q l) (k : PendingMessageKey) :
    l.find? (Entry.isPending k) =
      (q.pendingSeqs.lookup k).map fun v => ⟨k.sender, k.msgId, v.seq, v.seqProposer, false⟩ := by
  cases hp : q.pendingSeqs.lookup k with
  | none =>
    rw [Option.map_none, List.find?_eq_none]
    intro e he hpend
    obtain ⟨pm, hpm, rfl⟩ := h.mem_iff.1 he
    obtain ⟨hd, hk⟩ := PendingMessage.isPending_toEntry.1 hpend
    rw [← hk, h.inv.lookup_of_mem hpm hd] at hp
    cases hp
  | some v =>
    obtain ⟨pm, hpm, hd, hk, rfl⟩ := (h.inv.pending_iff k v).1 hp
    have hsome : (l.find? (Entry.isPending k)).isSome :=
      List.find?_isSome.2 ⟨pm.toEntry, h.mem_iff.2 ⟨pm, hpm, rfl⟩, PendingMessage.isPending_toEntry.2 ⟨hd, hk⟩⟩
    obtain ⟨e, he⟩ := Option.isSome_iff_exists.1 hsome
    obtain ⟨pm', hpm', rfl⟩ := h.mem_iff.1 (List.mem_of_find?_eq_some he)
    obtain ⟨hd', hk'⟩ := PendingMessage.isPending_toEntry.1 (List.find?_some he)
    obtain rfl := h.inv.undeliverable_unique hpm' hpm hd' hd (hk'.trans hk.symm)
    rw [he, Option.map_some]
    simp [PendingMessage.toEntry, hk, hd]

theorem lookup_eq (h : Sim q l) (m : DataMessage) : q.lookup m = PlainQueue.lookup l m := by
  rw [PlainQueue.lookup, h.find?_isPending, HoldBackQueue.lookup]
  cases q.pendingSeqs.lookup m.key <;> rfl

theorem insertUndeliverable (h : Sim q l) (a : AckMessage) (data : Word) :
    (q.insertUndeliverable a data).1 = (PlainQueue.insertUndeliverable l a).1 ∧
      Sim (q.insertUndeliverable a data).2 (PlainQueue.insertUndeliverable l a).2 := by
  have hany : l.any (Entry.isPending a.key) = (q.pendingSeqs.lookup a.key).isSome := by
    rw [Bool.eq_iff_iff, List.any_eq_true, ← List.find?_isSome, h.find?_isPending, Option.isSome_map]
  rw [PlainQueue.insertUndeliverable, hany]
  cases hp : q.pendingSeqs.lookup a.key with
  | some v =>
    rw [HoldBackQueue.insertUndeliverable_of_some hp]
    exact ⟨rfl, h⟩
  | none =>
    have hinv := h.inv.insertUndeliverable a data
    rw [HoldBackQueue.insertUndeliverable_of_none h.inv data hp] at hinv ⊢
    exact ⟨rfl, hinv, (h.perm.cons _).trans ((h.inv.perm_addPending hp).map PendingMessage.toEntry).symm⟩

theorem perm_erase (h : Sim q l) {m : SeqMessage} {v : PendingMessageSeq} (junk : Word)
    (hp : q.pendingSeqs.lookup m.key = some v) :
    (l.erase ⟨m.sender, m.msgId, v.seq, v.seqProposer, false⟩).Perm
      ((q.ordering.erase ⟨m.key, v, junk, false⟩).toList.map (·.toEntry)) := by
  obtain ⟨pm, hpm, hd, hk, rfl⟩ := (h.inv.pending_iff m.key v).1 hp
  have hentry : (⟨m.sender, m.msgId, pm.pms.seq, pm.pms.seqProposer, false⟩ : Entry) = pm.toEntry := by
    simp [PendingMessage.toEntry, hk, hd, SeqMessage.key]
  rw [hentry, h.inv.toList_erase_pending junk hpm hd hk]
  have hcons : (q.ordering.toList.map (·.toEntry)).Perm (pm.toEntry :: (q.ordering.toList.erase pm).map (·.toEntry)) :=
    (List.perm_cons_erase (OrdSet.mem_def.1 hpm)).map _
  simpa using (h.perm.trans hcons).erase pm.toEntry

theorem perm_addFinal {l : List Entry} {o : OrdSet PendingMessage.Lt} (hperm : l.Perm (o.toList.map (·.toEntry)))
    (m : SeqMessage) (junk : Word) :
    (addFinal l m).Perm ((o.insert (HoldBackQueue.finalEntry m junk)).toList.map (·.toEntry)) := by
  have hany : l.any (Entry.isFinal m) ↔ ∃ e ∈ o, Equivalent PendingMessage.Lt e (HoldBackQueue.finalEntry m junk) := by
    rw [List.any_eq_true]
    constructor
    · rintro ⟨e, he, hf⟩
      obtain ⟨pm, hpm, rfl⟩ := List.mem_map.1 (hperm.mem_iff.1 he)
      exact ⟨pm, hpm, PendingMessage.isFinal_toEntry.1 hf⟩
    · rintro ⟨pm, hpm, heq⟩
      exact ⟨pm.toEntry, hperm.mem_iff.2 (List.mem_map_of_mem hpm), PendingMessage.isFinal_toEntry.2 heq⟩
  rw [addFinal]
  split_ifs with hf
  · obtain ⟨e, he, heq⟩ := hany.1 hf
    rwa [OrdSet.insert_of_equivalent he heq]
  · have hins : (o.insert (HoldBackQueue.finalEntry m junk)).toList.Perm (HoldBackQueue.finalEntry m junk :: o.toList) :=
      OrdSet.perm_insert fun e he heq => hf (hany.2 ⟨e, he, heq⟩)
    exact (hperm.cons _).trans (hins.map PendingMessage.toEntry).symm

end Sim

/-! ### The delivery loop -/

section
variable {o : OrdSet PendingMessage.Lt} {l : List Entry} {e : PendingMessage}

theorem ready_of_popped (hperm : l.Perm (o.toList.map (·.toEntry))) (he : e ∈ (o.popWhile (·.deliverable)).1) :
    ready l e.toEntry := by
  have hd : e.deliverable = true := OrdSet.popWhile_popped he
  simp only [ready, PendingMessage.toEntry_deliverable, hd, Bool.true_and, List.all_eq_true, Bool.or_eq_true,
    decide_eq_true_eq]
  intro u hu
  obtain ⟨pm, hpm, rfl⟩ := List.mem_map.1 (hperm.mem_iff.1 hu)
  refine or_iff_not_imp_left.2 fun hu => ?_
  have hu : pm.deliverable = false := by simpa using hu
  exact (PendingMessage.lt_undeliverable hd hu).1
    (OrdSet.popWhile_lt he ((HoldBackQueue.mem_popWhile_undeliverable hu).2 hpm))

theorem not_ready_of_rest (hperm : l.Perm (o.toList.map (·.toEntry))) (he : e ∈ (o.popWhile (·.deliverable)).2) :
    ¬ ready l e.toEntry := by
  intro hr
  simp only [ready, PendingMessage.toEntry_deliverable, Bool.and_eq_true, List.all_eq_true, Bool.or_eq_true,
    decide_eq_true_eq] at hr
  obtain ⟨u, hu, hd, hle⟩ := OrdSet.popWhile_rest he
  have hd : u.deliverable = false := by simpa using hd
  have hmem : u.toEntry ∈ l :=
    hperm.mem_iff.2 (List.mem_map_of_mem (OrdSet.mem_iff_mem_popWhile.2 (.inr hu)))
  rcases hr.2 _ hmem with hu | hlt
  · simp [hd] at hu
  · rcases hle with rfl | hle
    · simp at hlt
    · have := (PendingMessage.undeliverable_lt hd hr.1).1 hle
      simp only [PendingMessage.toEntry_seq] at hlt
      grind

theorem filter_ready (hperm : l.Perm (o.toList.map (·.toEntry))) :
    o.toList.filter (fun e => ready l e.toEntry) = (o.popWhile (·.deliverable)).1 ∧
      o.toList.filter (fun e => !ready l e.toEntry) = (o.popWhile (·.deliverable)).2.toList := by
  have h1 : ∀ e ∈ o.toList.takeWhile (·.deliverable), ready l e.toEntry = true :=
    fun e he => ready_of_popped hperm he
  have h2 : ∀ e ∈ o.toList.dropWhile (·.deliverable), ready l e.toEntry = false :=
    fun e he => by simpa using not_ready_of_rest hperm he
  have hsplit := List.takeWhile_append_dropWhile (p := PendingMessage.deliverable) (l := o.toList)
  constructor
  · conv_lhs => rw [← hsplit, List.filter_append]
    rw [List.filter_eq_self.2 h1, List.filter_eq_nil_iff.2 (by simpa using h2), List.append_nil]
    rfl
  · conv_lhs => rw [← hsplit, List.filter_append]
    rw [List.filter_eq_nil_iff.2 (by simpa using h1), List.filter_eq_self.2 (by simpa using h2), List.nil_append]
    rfl

end

instance : Std.Total (fun a b : SeqMessage => ¬ b.Before a) := ⟨fun a b => by
  simp only [SeqMessage.Before]; grind⟩

instance : IsTrans SeqMessage (fun a b : SeqMessage => ¬ b.Before a) := ⟨fun a b c => by
  simp only [SeqMessage.Before]; grind⟩

/-- Sorting the messages of the ready entries gives them in the order of the loop. -/
theorem insertionSort_ready {o : OrdSet PendingMessage.Lt} {l : List Entry}
    (hperm : l.Perm (o.toList.map (·.toEntry))) :
    ((l.filter (ready l)).map (·.toDeliver)).insertionSort (fun a b => ¬ b.Before a) =
      (o.popWhile (·.deliverable)).1.map (·.toDeliver) := by
  have hready : (l.filter (ready l)).Perm ((o.popWhile (·.deliverable)).1.map (·.toEntry)) := by
    have := hperm.filter (ready l)
    rwa [List.filter_map, Function.comp_def, (filter_ready hperm).1] at this
  have hsort := (List.perm_insertionSort (fun a b : SeqMessage => ¬ b.Before a) _).trans
    (hready.map (·.toDeliver))
  rw [List.map_map] at hsort
  refine hsort.eq_of_pairwise (fun a b ha hb hab hba => ?_) (List.pairwise_insertionSort _ _)
    ((HoldBackQueue.pairwise_popWhile_toDeliver o).imp SeqMessage.Before.asymm)
  -- two messages neither of which is before the other are one entry of the set
  obtain ⟨x, hx, rfl⟩ := List.mem_map.1 (hsort.mem_iff.1 ha)
  obtain ⟨y, hy, rfl⟩ := List.mem_map.1 hb
  have hxd : x.deliverable = true := OrdSet.popWhile_popped hx
  have hyd : y.deliverable = true := OrdSet.popWhile_popped hy
  have hequiv : Equivalent PendingMessage.Lt x y :=
    ⟨fun h => hba ((PendingMessage.lt_deliverable hxd hyd).1 h),
      fun h => hab ((PendingMessage.lt_deliverable hyd hxd).1 h)⟩
  rw [OrdSet.eq_of_equivalent (OrdSet.mem_iff_mem_popWhile.2 (.inl hx))
    (OrdSet.mem_iff_mem_popWhile.2 (.inl hy)) hequiv]
  rfl

namespace Sim
variable {q : HoldBackQueue} {l : List Entry}

theorem setDeliverable (h : Sim q l) (m : SeqMessage) (junk : Word) :
    (q.setDeliverable m junk).1 = (PlainQueue.setDeliverable l m).1 ∧
      Sim (q.setDeliverable m junk).2 (PlainQueue.setDeliverable l m).2 := by
  cases hp : q.pendingSeqs.lookup m.key with
  | none =>
    rw [HoldBackQueue.setDeliverable_of_none hp, PlainQueue.setDeliverable, h.find?_isPending, hp]
    exact ⟨rfl, h⟩
  | some v =>
    have hinv := h.inv.setDeliverable m junk
    rw [HoldBackQueue.setDeliverable_of_some hp] at hinv ⊢
    rw [PlainQueue.setDeliverable, h.find?_isPending, hp]
    have hperm := perm_addFinal (h.perm_erase junk hp) m junk
    refine ⟨(insertionSort_ready hperm).symm, hinv, ?_⟩
    have hrest := hperm.filter (fun e => !ready (addFinal (l.erase ⟨m.sender, m.msgId, v.seq, v.seqProposer, false⟩) m) e)
    rwa [List.filter_map, Function.comp_def, (filter_ready hperm).2] at hrest

end Sim

/-- No sequence of calls, with whatever arguments, tells the hold-back queue from the plain queue:
the lookups, the exceptions and the deliver calls are the same. -/
theorem outputs_call_eq (calls : List QueueCall) :
    outputs HoldBackQueue.call .empty calls = outputs PlainQueue.call [] calls := by
  refine outputs_eq_of_simulation (R := Sim) (fun q l c h => ?_) ⟨HoldBackQueue.inv_empty, .nil⟩ calls
  cases c with
  | lookup m => exact ⟨congrArg QueueAnswer.lookup (h.lookup_eq m), h⟩
  | insertUndeliverable a data =>
    obtain ⟨hans, hsim⟩ := h.insertUndeliverable a data
    exact ⟨congrArg QueueAnswer.insertUndeliverable hans, hsim⟩
  | setDeliverable m junk =>
    obtain ⟨hans, hsim⟩ := h.setDeliverable m junk
    exact ⟨congrArg QueueAnswer.setDeliverable hans, hsim⟩

end IsisMulticast

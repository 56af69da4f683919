import IsisMulticast.QueueSpec

/-!
# The hold-back queue over whole sequences of calls

`reached calls` is the queue after the calls, whatever they are and also if some of them throw. Every such queue
has the representation invariant. `Conforms M calls` is what a correct system does to the queue of one
process until all messages of `M` are final; the calls of `deliver` are then determined by the final
numbers alone (`delivery_sequence`).
-/

namespace IsisMulticast
open Lib

namespace QueueAnswer

def delivered : QueueAnswer → List SeqMessage
  | .setDeliverable ds => ds
  | _ => []

end QueueAnswer

/-- The acks of the messages inserted by the calls. -/
def inserts (calls : List QueueCall) : List AckMessage := calls.filterMap fun
  | .insertUndeliverable a _ => some a
  | _ => none

/-- The messages passed to `setDeliverable`, without their type word. -/
def sets (calls : List QueueCall) : List SeqMessage := calls.filterMap fun
  | .setDeliverable m _ => some m.untyped
  | _ => none

section
variable (calls calls' : List QueueCall)

theorem inserts_append : inserts (calls ++ calls') = inserts calls ++ inserts calls' := List.filterMap_append

theorem sets_append : sets (calls ++ calls') = sets calls ++ sets calls' := List.filterMap_append

end

namespace HoldBackQueue

/-- The queue as a system whose steps are the calls. -/
def machine : Lts HoldBackQueue QueueCall := ⟨.empty, fun q c => some (q.call c).2⟩

def reached (calls : List QueueCall) : HoldBackQueue := calls.foldl (fun q c => (q.call c).2) .empty

/-- The calls of `deliver`, in order. -/
def delivered (calls : List QueueCall) : List SeqMessage :=
  (outputs HoldBackQueue.call .empty calls).flatMap QueueAnswer.delivered

variable {q : HoldBackQueue} {calls calls' : List QueueCall} {c : QueueCall} {m : SeqMessage} {junk : Word}

theorem reached_concat : reached (calls ++ [c]) = ((reached calls).call c).2 := by
  simp [reached]

theorem delivered_concat : delivered (calls ++ [c]) = delivered calls ++ ((reached calls).call c).1.delivered := by
  simp [delivered, outputs_concat, reached]

theorem run_reached (calls : List QueueCall) : machine.Run calls (reached calls) := by
  induction calls using List.reverseRecOn with
  | nil => rfl
  | append_singleton calls c ih => exact Lts.run_concat.2 ⟨_, ih, by rw [reached_concat]; rfl⟩

theorem Inv.call (h : q.Inv) (c : QueueCall) : (q.call c).2.Inv := by
  cases c with
  | lookup m => exact h
  | insertUndeliverable a data => exact h.insertUndeliverable a data
  | setDeliverable m junk => exact h.setDeliverable m junk

theorem inv_reached (calls : List QueueCall) : (reached calls).Inv := by
  induction calls using List.reverseRecOn with
  | nil => exact inv_empty
  | append_singleton calls c ih => rw [reached_concat]; exact ih.call c

/-- The map holds exactly the undeliverable entries of the set, one for each key, and the first entry is
undeliverable, after any calls. -/
theorem representation_invariant (calls : List QueueCall) :
    (∀ k v, (reached calls).pendingSeqs.lookup k = some v ↔
      ∃ e ∈ (reached calls).ordering, e.deliverable = false ∧ e.pmk = k ∧ e.pms = v) ∧
    (∀ k v, (reached calls).pendingSeqs.lookup k = some v →
      ∃! e, e ∈ (reached calls).ordering ∧ e.deliverable = false ∧ e.pmk = k) ∧
    (∀ e, (reached calls).ordering.toList.head? = some e → e.deliverable = false) ∧
    ((reached calls).pendingSeqs = ∅ → (reached calls).ordering.toList = []) := by
  have h := inv_reached calls
  refine ⟨h.pending_iff, fun k v hv => ?_, h.head, fun hempty => h.ordering_eq_nil fun k => by rw [hempty]; rfl⟩
  obtain ⟨e, he, hd, hk, -⟩ := (h.pending_iff k v).1 hv
  exact ⟨e, ⟨he, hd, hk⟩, fun e' he' => h.undeliverable_unique he'.1 he he'.2.1 hd (he'.2.2.trans hk.symm)⟩

/-! ### The order of delivery depends on the final numbers only -/

end HoldBackQueue

/-- What the later of two calls may be: a message is inserted before it is final, and with a number greater than
the final numbers the queue has seen. -/
def QueueCall.InOrder : QueueCall → QueueCall → Prop
  | .setDeliverable m _, .insertUndeliverable a _ => a.key ≠ m.key ∧ m.finalSeq < a.proposedSeq
  | _, _ => True

instance : DecidableRel QueueCall.InOrder
  | .setDeliverable _ _, .insertUndeliverable _ _ => inferInstanceAs (Decidable (_ ∧ _))
  | .setDeliverable _ _, .setDeliverable _ _ | .setDeliverable _ _, .lookup _ => .isTrue trivial
  | .lookup _, _ | .insertUndeliverable _ _, _ => .isTrue trivial

/-- The calls insert every message of `M` once, with a number up to its final one, and then set it deliverable
once. -/
structure Conforms (M : List SeqMessage) (calls : List QueueCall) : Prop where
  inserted : ((inserts calls).map AckMessage.key).Perm (M.map SeqMessage.key)
  final : (sets calls).Perm M
  proposed : ∀ a ∈ inserts calls, ∀ m ∈ M, a.key = m.key → a.proposedSeq ≤ m.finalSeq
  order : calls.Pairwise QueueCall.InOrder

namespace HoldBackQueue
variable {q : HoldBackQueue} {D : List SeqMessage} {calls : List QueueCall} {m : SeqMessage}

/-- The queue after the first calls of a conforming sequence, with the messages delivered so far. -/
structure Progress (calls : List QueueCall) (D : List SeqMessage) (q : HoldBackQueue) : Prop where
  inv : q.Inv
  pending : ∀ k, q.pendingSeqs.lookup k ≠ none ↔
    k ∈ (inserts calls).map AckMessage.key ∧ k ∉ (sets calls).map SeqMessage.key
  proposal : ∀ k v, q.pendingSeqs.lookup k = some v → ∃ a ∈ inserts calls, a.key = k ∧ a.proposedSeq = v.seq
  perm : (D ++ q.deliverables).Perm (sets calls)
  sorted : D.Pairwise SeqMessage.Before
  below : ∀ d ∈ D, ∀ k v, q.pendingSeqs.lookup k = some v → d.finalSeq < v.seq
  before : ∀ d ∈ D, ∀ d' ∈ q.deliverables, d.Before d'

theorem progress_nil : Progress [] [] empty where
  inv := inv_empty
  pending := by simp [inserts, empty]
  proposal := by simp [empty]
  perm := .refl _
  sorted := .nil
  below := by simp
  before := by simp

section
variable (h : Progress calls D q)
include h

theorem Progress.lookup (m : DataMessage) : Progress (calls ++ [.lookup m]) D q := by
  have hi : inserts (calls ++ [.lookup m]) = inserts calls := by simp [inserts]
  have hs : sets (calls ++ [.lookup m]) = sets calls := by simp [sets]
  exact ⟨h.inv, hi ▸ hs ▸ h.pending, hi ▸ h.proposal, hs ▸ h.perm, h.sorted, h.below, h.before⟩

theorem Progress.insertUndeliverable {a : AckMessage} (data : Word)
    (hnew : a.key ∉ (inserts calls).map AckMessage.key)
    (horder : ∀ m ∈ sets calls, a.key ≠ m.key ∧ m.finalSeq < a.proposedSeq) :
    Progress (calls ++ [.insertUndeliverable a data]) D (q.insertUndeliverable a data).2 := by
  have hp : q.pendingSeqs.lookup a.key = none := by
    by_contra hp
    exact hnew ((h.pending _).1 hp).1
  have hi : inserts (calls ++ [.insertUndeliverable a data]) = inserts calls ++ [a] := by simp [inserts]
  have hs : sets (calls ++ [.insertUndeliverable a data]) = sets calls := by simp [sets]
  have hset : a.key ∉ (sets calls).map SeqMessage.key := by
    intro hk
    obtain ⟨m, hm, hk⟩ := List.mem_map.1 hk
    exact (horder m hm).1 hk.symm
  have hdel := h.inv.perm_deliverables_addPending data hp
  rw [insertUndeliverable_of_none h.inv data hp]
  refine ⟨h.inv.addPending hp, fun k => ?_, fun k v hv => ?_, ?_, h.sorted, fun d hd k v hv => ?_,
    fun d hd d' hd' => ?_⟩
  · rw [lookup_addPending, hi, hs]
    split_ifs with hk
    · subst hk
      simp [hset]
    · rw [h.pending k, List.map_append, List.mem_append, List.map_singleton, List.mem_singleton, or_iff_left hk]
  · rw [lookup_addPending] at hv
    rw [hi]
    split_ifs at hv with hk
    · exact ⟨a, by simp, hk.symm, by rw [← Option.some.inj hv]⟩
    · obtain ⟨b, hb, hbk⟩ := h.proposal k v hv
      exact ⟨b, by simp [hb], hbk⟩
  · rw [hs]
    exact (hdel.append_left D).trans h.perm
  · rw [lookup_addPending] at hv
    split_ifs at hv with hk
    · rw [← Option.some.inj hv]
      exact (horder d (h.perm.mem_iff.1 (List.mem_append_left _ hd))).2
    · exact h.below d hd k v hv
  · exact h.before d hd d' (hdel.mem_iff.1 hd')

/-- What was delivered comes before a message that is now made deliverable: its own number was already above. -/
theorem Progress.before_final {v : PendingMessageSeq} (hp : q.pendingSeqs.lookup m.key = some v)
    (hle : ∀ a ∈ inserts calls, a.key = m.key → a.proposedSeq ≤ m.finalSeq) :
    ∀ d ∈ D, ∀ d' ∈ m.untyped :: q.deliverables, d.Before d' := by
  intro d hd d' hd'
  rcases List.mem_cons.1 hd' with rfl | hd'
  · obtain ⟨a, ha, hak, hav⟩ := h.proposal _ _ hp
    have hlt : d.finalSeq < a.proposedSeq := hav ▸ h.below d hd _ _ hp
    exact .of_finalSeq_lt (UInt32.lt_of_lt_of_le hlt (hle a ha hak))
  · exact h.before d hd d' hd'

theorem Progress.setDeliverable (junk : Word) (hins : m.key ∈ (inserts calls).map AckMessage.key)
    (hnew : m.key ∉ (sets calls).map SeqMessage.key)
    (hle : ∀ a ∈ inserts calls, a.key = m.key → a.proposedSeq ≤ m.finalSeq) :
    Progress (calls ++ [.setDeliverable m junk]) (D ++ (q.setDeliverable m junk).1) (q.setDeliverable m junk).2 := by
  obtain ⟨v, hp⟩ := Option.ne_none_iff_exists'.1 ((h.pending m.key).2 ⟨hins, hnew⟩)
  have hi : inserts (calls ++ [.setDeliverable m junk]) = inserts calls := by simp [inserts]
  have hs : sets (calls ++ [.setDeliverable m junk]) = sets calls ++ [m.untyped] := by simp [sets]
  have hfresh : ∀ c ∈ q.ordering, c.deliverable = true → c.pmk = m.key → c.pms.seq ≠ m.finalSeq := by
    intro c hc hcd hck
    have hmem := h.perm.mem_iff.1 (List.mem_append_right D (mem_deliverables.2 ⟨c, hc, hcd, rfl⟩))
    exact absurd (List.mem_map.2 ⟨_, hmem, hck⟩) hnew
  have hdel := h.inv.perm_deliverables_setDeliverable junk hp hfresh
  have hold := h.before_final hp hle
  refine ⟨h.inv.setDeliverable m junk, fun k => ?_, fun k w hw => ?_, ?_, ?_, fun d hd k w hw => ?_,
    fun d hd d' hd' => ?_⟩
  · rw [lookup_setDeliverable, hi, hs]
    split_ifs with hk
    · subst hk
      simp [SeqMessage.key, SeqMessage.untyped]
    · have hk' : k ≠ m.untyped.key := hk
      rw [h.pending k, List.map_append, List.mem_append, List.map_singleton, List.mem_singleton, or_iff_left hk']
  · rw [lookup_setDeliverable] at hw
    rw [hi]
    split_ifs at hw
    exact h.proposal k w hw
  · rw [hs, List.append_assoc]
    refine (hdel.append_left D).trans (List.perm_middle.trans ?_)
    exact ((h.perm.cons _).trans (List.perm_append_singleton _ _).symm)
  · refine List.pairwise_append.2 ⟨h.sorted, pairwise_setDeliverable _ _ _, fun d hd d' hd' => hold d hd d' ?_⟩
    exact hdel.mem_iff.1 (List.mem_append_left _ hd')
  · rcases List.mem_append.1 hd with hd | hd
    · rw [lookup_setDeliverable] at hw
      split_ifs at hw
      exact h.below d hd k w hw
    · obtain ⟨e, he, hed, -, rfl⟩ := ((h.inv.setDeliverable m junk).pending_iff k w).1 hw
      exact lt_of_setDeliverable hd he hed
  · rcases List.mem_append.1 hd with hd | hd
    · exact hold d hd d' (hdel.mem_iff.1 (List.mem_append_right _ hd'))
    · obtain ⟨e, he, hed, rfl⟩ := mem_deliverables.1 hd'
      exact before_of_setDeliverable hd he hed

end

end HoldBackQueue

theorem exists_setDeliverable {calls : List QueueCall} {m : SeqMessage} (hm : m ∈ sets calls) :
    ∃ m' junk, .setDeliverable m' junk ∈ calls ∧ m = m'.untyped := by
  obtain ⟨c, hc, heq⟩ := List.mem_filterMap.1 hm
  cases c with
  | setDeliverable m' junk => exact ⟨m', junk, hc, (Option.some.inj heq).symm⟩
  | lookup | insertUndeliverable => cases heq

theorem exists_insertUndeliverable {calls : List QueueCall} {a : AckMessage} (ha : a ∈ inserts calls) :
    ∃ data, .insertUndeliverable a data ∈ calls := by
  obtain ⟨c, hc, heq⟩ := List.mem_filterMap.1 ha
  cases c with
  | insertUndeliverable a' data => exact ⟨data, Option.some.inj heq ▸ hc⟩
  | lookup | setDeliverable => cases heq

open HoldBackQueue (reached delivered)

namespace Conforms
variable {M : List SeqMessage} {calls calls₁ calls₂ : List QueueCall} {a : AckMessage} {m : SeqMessage}
  {data junk : Word}

section
variable (hM : (M.map SeqMessage.key).Nodup)
include hM

theorem insert_new (h : Conforms M calls) (heq : calls = calls₁ ++ .insertUndeliverable a data :: calls₂) :
    a.key ∉ (inserts calls₁).map AckMessage.key := by
  have hnodup := h.inserted.nodup_iff.2 hM
  rw [heq, inserts_append, List.map_append] at hnodup
  intro hmem
  exact (List.nodup_append.1 hnodup).2.2 _ hmem _ (List.mem_cons_self ..) rfl

theorem set_new (h : Conforms M calls) (heq : calls = calls₁ ++ .setDeliverable m junk :: calls₂) :
    m.key ∉ (sets calls₁).map SeqMessage.key := by
  have hnodup := (h.final.map SeqMessage.key).nodup_iff.2 hM
  rw [heq, sets_append, List.map_append] at hnodup
  intro hmem
  exact (List.nodup_append.1 hnodup).2.2 _ hmem _ (List.mem_cons_self ..) rfl

end

theorem insert_order (h : Conforms M calls) (heq : calls = calls₁ ++ .insertUndeliverable a data :: calls₂) :
    ∀ m ∈ sets calls₁, a.key ≠ m.key ∧ m.finalSeq < a.proposedSeq := by
  intro m hm
  obtain ⟨m', junk, hmem, rfl⟩ := exists_setDeliverable hm
  have horder := h.order
  rw [heq] at horder
  exact (List.pairwise_append.1 horder).2.2 _ hmem _ (List.mem_cons_self ..)

/-- The message was inserted, and not later. -/
theorem set_inserted (h : Conforms M calls) (heq : calls = calls₁ ++ .setDeliverable m junk :: calls₂) :
    m.key ∈ (inserts calls₁).map AckMessage.key := by
  have hset : m.untyped ∈ sets calls := by rw [heq]; simp [sets]
  have hmem := h.inserted.mem_iff.2 (List.mem_map_of_mem (h.final.mem_iff.1 hset))
  rw [heq, inserts_append, List.map_append, List.mem_append] at hmem
  refine hmem.resolve_right fun hlater => ?_
  obtain ⟨a, (ha : a ∈ inserts calls₂), hak⟩ := List.mem_map.1 hlater
  obtain ⟨data, ha⟩ := exists_insertUndeliverable ha
  have horder := h.order
  rw [heq] at horder
  exact ((List.pairwise_cons.1 (List.pairwise_append.1 horder).2.1).1 _ ha).1 hak

theorem set_proposed (h : Conforms M calls) (heq : calls = calls₁ ++ .setDeliverable m junk :: calls₂) :
    ∀ a ∈ inserts calls₁, a.key = m.key → a.proposedSeq ≤ m.finalSeq := by
  intro a ha hak
  refine h.proposed a ?_ m.untyped (h.final.mem_iff.1 ?_) hak
  · rw [heq, inserts_append]
    exact List.mem_append_left _ ha
  · rw [heq]; simp [sets]

/-- One call after the other keeps `Progress`. -/
theorem progress (hM : (M.map SeqMessage.key).Nodup) (h : Conforms M calls) (heq : calls = calls₁ ++ calls₂) :
    HoldBackQueue.Progress calls₁ (delivered calls₁) (reached calls₁) := by
  induction calls₁ using List.reverseRecOn generalizing calls₂ with
  | nil => exact HoldBackQueue.progress_nil
  | append_singleton calls₁ c ih =>
    rw [List.append_assoc, List.singleton_append] at heq
    rw [HoldBackQueue.delivered_concat, HoldBackQueue.reached_concat]
    cases c with
    | lookup m =>
      rw [show ((reached calls₁).call (.lookup m)).1.delivered = [] from rfl, List.append_nil]
      exact (ih heq).lookup m
    | insertUndeliverable a data =>
      rw [show ((reached calls₁).call (.insertUndeliverable a data)).1.delivered = [] from rfl, List.append_nil]
      exact (ih heq).insertUndeliverable data (h.insert_new hM heq) (h.insert_order heq)
    | setDeliverable m junk =>
      exact (ih heq).setDeliverable junk (h.set_inserted heq) (h.set_new hM heq) (h.set_proposed heq)

theorem reached_eq_empty (hM : (M.map SeqMessage.key).Nodup) (h : Conforms M calls) :
    reached calls = .empty := by
  have hp := h.progress hM (List.append_nil calls).symm
  have hnone : ∀ k, (reached calls).pendingSeqs.lookup k = none := by
    intro k
    by_contra hk
    obtain ⟨hins, hset⟩ := (hp.pending k).1 hk
    exact hset ((h.inserted.trans (h.final.map _).symm).mem_iff.1 hins)
  have hnil := hp.inv.ordering_eq_nil hnone
  have hmap := HoldBackQueue.pendingSeqs_eq_empty hnone
  generalize reached calls = q at hnil hmap
  obtain ⟨pendingSeqs, toList, sorted⟩ := q
  subst hmap hnil
  rfl

theorem perm_delivered (hM : (M.map SeqMessage.key).Nodup) (h : Conforms M calls) :
    (delivered calls).Perm M := by
  have hp := (h.progress hM (List.append_nil calls).symm).perm
  rw [h.reached_eq_empty hM] at hp
  simpa [HoldBackQueue.deliverables, HoldBackQueue.empty] using hp.trans h.final

theorem pairwise_delivered (hM : (M.map SeqMessage.key).Nodup) (h : Conforms M calls) :
    (delivered calls).Pairwise SeqMessage.Before :=
  (h.progress hM (List.append_nil calls).symm).sorted

end Conforms

/-- Whatever the proposals and the interleavings, the messages are delivered once each in the order of
`(final_seq, sender, msg_id)`, and the queue is left empty. -/
theorem delivery_sequence {M : List SeqMessage} {calls calls' : List QueueCall} (hM : (M.map SeqMessage.key).Nodup)
    (h : Conforms M calls) (h' : Conforms M calls') :
    delivered calls = delivered calls' ∧
      delivered calls = M.insertionSort (fun a b => ¬ b.Before a) ∧
      (delivered calls).Perm M ∧ (delivered calls).Pairwise SeqMessage.Before ∧
      reached calls = .empty ∧ reached calls' = .empty := by
  have hperm := h.perm_delivered hM
  have hsorted := h.pairwise_delivered hM
  refine ⟨?_, ?_, hperm, hsorted, h.reached_eq_empty hM, h'.reached_eq_empty hM⟩
  · refine (hperm.trans (h'.perm_delivered hM).symm).eq_of_pairwise (fun a b _ _ hab hba => ?_) hsorted
      (h'.pairwise_delivered hM)
    exact absurd hba hab.asymm
  · refine (hperm.trans (List.perm_insertionSort _ _).symm).eq_of_pairwise (fun a b ha hb hab hba => ?_)
      (hsorted.imp SeqMessage.Before.asymm) (List.pairwise_insertionSort _ _)
    -- neither is before the other, so they have one key
    by_contra hne
    have hk : a.key ≠ b.key := fun hk =>
      hne (List.inj_on_of_nodup_map hM (hperm.mem_iff.1 ha) ((List.perm_insertionSort _ _).mem_iff.1 hb) hk)
    exact (SeqMessage.Before.trichotomy hk).elim hba hab

/-- Two messages that tie at their final number, inserted and made final in the one order and in the other. -/
def tied : List SeqMessage :=
  [{ sender := 0, msgId := 7, finalSeq := 2, finalSeqProposer := 1 },
    { sender := 1, msgId := 7, finalSeq := 2, finalSeqProposer := 0 }]

def tiedZeroFirst : List QueueCall :=
  [.insertUndeliverable { sender := 0, msgId := 7, proposedSeq := 1, proposer := 0 } 50,
    .insertUndeliverable { sender := 1, msgId := 7, proposedSeq := 2, proposer := 0 } 60] ++
  tied.map (.setDeliverable · 0)

def tiedOneFirst : List QueueCall :=
  [.insertUndeliverable { sender := 1, msgId := 7, proposedSeq := 1, proposer := 1 } 60,
    .insertUndeliverable { sender := 0, msgId := 7, proposedSeq := 2, proposer := 1 } 50] ++
  tied.reverse.map (.setDeliverable · 5)

theorem delivery_sequence_tied : Conforms tied tiedZeroFirst ∧ Conforms tied tiedOneFirst ∧
    delivered tiedZeroFirst = delivered tiedOneFirst := by
  have h : Conforms tied tiedZeroFirst := ⟨by decide, by decide, by decide, by decide⟩
  have h' : Conforms tied tiedOneFirst := ⟨by decide, by decide, by decide, by decide⟩
  exact ⟨h, h', (delivery_sequence (by decide) h h').1⟩

end IsisMulticast

import IsisMulticast.History

/-!
# What a server keeps, whatever it is sent

`Server.Inv`: the facts about a server that need nothing of its peers, only that the messages it
handles passed the checks. An entry of the queue stays until it is delivered; as long as no sequence
message has been handled for a message its proposals are all the number of the pending entry; and
what is deliverable or delivered carries numbers of a handled sequence message. A replayed data
message that comes after the sequence message does get a new entry and a new number: nothing here
says otherwise.
-/

namespace IsisMulticast
open Lib

namespace Server

def queue (sv : Server) : HoldBackQueue := sv.process.holdBackQueue

def pending (sv : Server) (k : PendingMessageKey) : Option PendingMessageSeq := sv.queue.pendingSeqs.lookup k

structure Inv (cfg : Config) (id : Word) (sv : Server) : Prop where
  listening : sv.listening = true
  id_eq : sv.process.id = id
  count_eq : sv.process.processCount = cfg.n
  host_eq : sv.process.host = cfg.host id
  queue : sv.queue.Inv
  pending : ∀ k v, sv.pending k = some v → v.seqProposer = id ∧ v.seq ∈ proposals sv.log k
  ack : ∀ a ∈ acks sv.log, a.proposer = id ∧ a.key ∈ dataKeys sv.log
  proposed : ∀ k ∈ dataKeys sv.log, proposals sv.log k ≠ []
  /-- Before its sequence message a message has one number. -/
  first : ∀ k, ¬ HandledSeq sv.log k → ∀ x ∈ proposals sv.log k, sv.pending k = some ⟨x, id⟩
  /-- A message stays in the queue until it is delivered. -/
  entry : ∀ k ∈ dataKeys sv.log, (∃ e ∈ sv.queue.ordering, e.pmk = k) ∨ Delivered sv.log k
  deliverable : ∀ e ∈ sv.queue.ordering, e.deliverable = true → e.toDeliver ∈ finals sv.log
  delivered : ∀ m ∈ deliveries sv.log, m ∈ finals sv.log

variable {cfg : Config} {id : Word} {sv : Server}

theorem inv_init (cfg : Config) (id : Word) : Inv cfg id ⟨.init id cfg.n (cfg.host id), true, []⟩ where
  listening := rfl
  id_eq := rfl
  count_eq := rfl
  host_eq := rfl
  queue := HoldBackQueue.inv_empty
  pending k v h := by simp [Server.pending, Server.queue, Process.init, HoldBackQueue.empty] at h
  ack a h := by simp [acks] at h
  proposed k h := by simp [dataKeys] at h
  first k _ x h := by simp [proposals, acks] at h
  entry k h := by simp [dataKeys] at h
  deliverable e h := absurd h (OrdSet.not_mem_empty e)
  delivered m h := by simp [deliveries] at h

theorem queue_acceptSeq (sv : Server) (m : SeqMessage) (junk : Word) :
    (sv.after (sv.process.acceptSeq m junk)).queue = (sv.queue.setDeliverable m junk).2 := by
  simp [Server.after, Process.acceptSeq, Server.queue]

theorem pending_acceptSeq (sv : Server) (m : SeqMessage) (junk : Word) (k : PendingMessageKey) :
    (sv.after (sv.process.acceptSeq m junk)).pending k = if k = m.key then none else sv.pending k := by
  rw [Server.pending, queue_acceptSeq, HoldBackQueue.lookup_setDeliverable, Server.pending]

theorem log_acceptSeq (sv : Server) (m : SeqMessage) (junk : Word) :
    (sv.after (sv.process.acceptSeq m junk)).log = sv.log ++ (.receivedSeq m ::
      .sendSeqAck { sender := m.sender, msgId := m.msgId } :: (sv.queue.setDeliverable m junk).1.map .deliver) := by
  simp [Server.after, Process.acceptSeq, Server.queue]

section
variable (sv : Server) (m : SeqMessage) (junk : Word)

@[simp] theorem dataKeys_acceptSeq : dataKeys (sv.after (sv.process.acceptSeq m junk)).log = dataKeys sv.log := by
  rw [log_acceptSeq, dataKeys_append, dataKeys_seq, List.append_nil]

@[simp] theorem acks_acceptSeq : acks (sv.after (sv.process.acceptSeq m junk)).log = acks sv.log := by
  rw [log_acceptSeq, acks_append, acks_seq, List.append_nil]

@[simp] theorem proposals_acceptSeq (k : PendingMessageKey) :
    proposals (sv.after (sv.process.acceptSeq m junk)).log k = proposals sv.log k := by
  rw [proposals, acks_acceptSeq, proposals]

@[simp] theorem finals_acceptSeq :
    finals (sv.after (sv.process.acceptSeq m junk)).log = finals sv.log ++ [m.untyped] := by
  rw [log_acceptSeq, finals_append, finals_seq]

@[simp] theorem deliveries_acceptSeq : deliveries (sv.after (sv.process.acceptSeq m junk)).log =
    deliveries sv.log ++ (sv.queue.setDeliverable m junk).1 := by
  rw [log_acceptSeq, deliveries_append, deliveries_seq]

end

/-- One more handled data message `m`, answered with `a`, when afterwards the message is pending under
the number of the answer and nothing else has changed in the queue. -/
theorem Inv.of_data (h : sv.Inv cfg id) {m : DataMessage} {a : AckMessage} {p : Process} (hk : a.key = m.key)
    (ha : a.proposer = id) (hid : p.id = sv.process.id) (hcount : p.processCount = sv.process.processCount)
    (hhost : p.host = sv.process.host) (hq : p.holdBackQueue.Inv)
    (hpend : ∀ k, p.holdBackQueue.pendingSeqs.lookup k = if k = m.key then some ⟨a.proposedSeq, id⟩ else sv.pending k)
    (hold : ∀ v, sv.pending m.key = some v → v.seq = a.proposedSeq)
    (hmem : ∀ e ∈ sv.queue.ordering, e ∈ p.holdBackQueue.ordering)
    (hdel : ∀ e ∈ p.holdBackQueue.ordering, e.deliverable = true → e ∈ sv.queue.ordering) :
    (sv.after { process := p, effects := [.receivedData m, .sendAck a] }).Inv cfg id where
  listening := rfl
  id_eq := hid.trans h.id_eq
  count_eq := hcount.trans h.count_eq
  host_eq := hhost.trans h.host_eq
  queue := hq
  pending k v hv := by
    have hv : (if k = m.key then some ⟨a.proposedSeq, id⟩ else sv.pending k) = some v := (hpend k).symm.trans hv
    split_ifs at hv with hkm
    · obtain rfl := Option.some.inj hv
      exact ⟨rfl, mem_proposals_data.2 (.inr ⟨hk.trans hkm.symm, rfl⟩)⟩
    · exact ⟨(h.pending k v hv).1, mem_proposals_data.2 (.inl (h.pending k v hv).2)⟩
  ack b hb := by
    rcases mem_acks_data.1 hb with hb | rfl
    · exact ⟨(h.ack b hb).1, mem_dataKeys_data.2 (.inl (h.ack b hb).2)⟩
    · exact ⟨ha, mem_dataKeys_data.2 (.inr hk)⟩
  proposed k hkd := by
    rcases mem_dataKeys_data.1 hkd with hkd | rfl
    · obtain ⟨x, hx⟩ := List.exists_mem_of_ne_nil _ (h.proposed k hkd)
      exact List.ne_nil_of_mem (mem_proposals_data.2 (.inl hx))
    · exact List.ne_nil_of_mem (mem_proposals_data.2 (.inr ⟨hk, rfl⟩))
  first k hns x hx := by
    have hns' : ¬ HandledSeq sv.log k := fun hs => hns (hs.append _)
    show p.holdBackQueue.pendingSeqs.lookup k = _
    rw [hpend k]
    rcases mem_proposals_data.1 hx with hx | ⟨hak, rfl⟩
    · have hpk := h.first k hns' x hx
      split_ifs with hkm
      · subst hkm; rw [← hold _ hpk]
      · exact hpk
    · rw [if_pos (hak.symm.trans hk)]
  entry k hkd := by
    rcases mem_dataKeys_data.1 hkd with hkd | rfl
    · rcases h.entry k hkd with ⟨e, he, hek⟩ | hd
      · exact .inl ⟨e, hmem e he, hek⟩
      · exact .inr (hd.append _)
    · obtain ⟨e, he, -, hek, -⟩ := (hq.pending_iff m.key ⟨a.proposedSeq, id⟩).1 (by rw [hpend, if_pos rfl])
      exact .inl ⟨e, he, hek⟩
  deliverable e he hd := by
    simpa [Server.after] using h.deliverable e (hdel e he hd) hd
  delivered d hd := by
    simp only [Server.after, deliveries_append, deliveries_data, List.append_nil, finals_append, finals_data] at hd ⊢
    exact h.delivered d hd

theorem Inv.acceptData (h : sv.Inv cfg id) (m : DataMessage) :
    (sv.after (sv.process.acceptData m)).Inv cfg id := by
  rcases Process.acceptData_cases h.queue m with ⟨v, hv, heq⟩ | ⟨hnone, heq⟩ <;> rw [heq]
  · -- a replay: the answer repeats the pending number
    have hprop := (h.pending m.key v hv).1
    refine h.of_data rfl hprop rfl rfl rfl h.queue (fun k => ?_) (fun w hw => ?_) (fun e he => he) (fun e he _ => he)
    · split_ifs with hk
      · subst hk; rw [hv, ← hprop]
      · rfl
    · obtain rfl := Option.some.inj (hv.symm.trans hw)
      rfl
  · -- a new entry
    have hp : sv.queue.pendingSeqs.lookup (sv.process.freshAck m).key = none := hnone
    refine h.of_data rfl h.id_eq rfl rfl rfl (h.queue.addPending hp) (fun k => ?_) (fun w hw => ?_)
      (fun e he => (h.queue.mem_addPending hp).2 (.inr he)) (fun e he hd => ?_)
    · rw [← h.id_eq]
      exact HoldBackQueue.lookup_addPending _ _ _ k
    · cases hnone.symm.trans hw
    · rcases (h.queue.mem_addPending hp).1 he with rfl | he
      · simp [HoldBackQueue.newEntry] at hd
      · exact he

theorem Inv.pending_eq_none (h : sv.Inv cfg id) {k : PendingMessageKey} :
    sv.pending k = none ↔ ∀ e ∈ sv.queue.ordering, e.pmk = k → e.deliverable = true := by
  constructor
  · intro hp e he hk
    refine Bool.of_not_eq_false fun hd => ?_
    rw [Server.pending, ← hk, h.queue.lookup_of_mem he hd] at hp
    cases hp
  · intro hall
    refine Option.eq_none_iff_forall_ne_some.2 fun v hv => ?_
    obtain ⟨e, he, hd, hk, -⟩ := (h.queue.pending_iff k v).1 hv
    simp [hall e he hk] at hd

theorem Inv.pending_acceptData_self (h : sv.Inv cfg id) (m : DataMessage) :
    (sv.after (sv.process.acceptData m)).pending m.key ≠ none := by
  rcases Process.acceptData_cases h.queue m with ⟨v, hv, heq⟩ | ⟨-, heq⟩ <;> rw [heq]
  · exact Option.ne_none_iff_exists'.2 ⟨v, hv⟩
  · exact Option.ne_none_iff_exists'.2 ⟨_, (HoldBackQueue.lookup_addPending _ _ _ _).trans (if_pos rfl)⟩

theorem Inv.pending_acceptData_of_ne (h : sv.Inv cfg id) {m : DataMessage} {k : PendingMessageKey} (hk : k ≠ m.key) :
    (sv.after (sv.process.acceptData m)).pending k = sv.pending k := by
  rcases Process.acceptData_cases h.queue m with ⟨v, hv, heq⟩ | ⟨-, heq⟩ <;> rw [heq]
  · rfl
  · exact (HoldBackQueue.lookup_addPending _ _ _ _).trans (if_neg hk)

theorem Inv.mem_acceptData (h : sv.Inv cfg id) (m : DataMessage) {e : PendingMessage} (he : e ∈ sv.queue.ordering) :
    e ∈ (sv.after (sv.process.acceptData m)).queue.ordering := by
  rcases Process.acceptData_cases h.queue m with ⟨v, hv, heq⟩ | ⟨hnone, heq⟩ <;> rw [heq]
  · exact he
  · exact OrdSet.mem_insert_of_mem he

theorem Inv.acceptSeq (h : sv.Inv cfg id) (m : SeqMessage) (junk : Word) :
    (sv.after (sv.process.acceptSeq m junk)).Inv cfg id where
  listening := rfl
  id_eq := by simpa [Server.after, Process.acceptSeq] using h.id_eq
  count_eq := by simpa [Server.after, Process.acceptSeq] using h.count_eq
  host_eq := by simpa [Server.after, Process.acceptSeq] using h.host_eq
  queue := by simpa [Server.after, Process.acceptSeq, Server.queue] using h.queue.setDeliverable m junk
  pending k v hv := by
    rw [pending_acceptSeq] at hv
    split_ifs at hv
    rw [proposals_acceptSeq]
    exact h.pending k v hv
  ack a ha := by
    rw [acks_acceptSeq] at ha
    rw [dataKeys_acceptSeq]
    exact h.ack a ha
  proposed k hk := by
    rw [dataKeys_acceptSeq] at hk
    rw [proposals_acceptSeq]
    exact h.proposed k hk
  first k hns x hx := by
    rw [proposals_acceptSeq] at hx
    rw [pending_acceptSeq, if_neg]
    · refine h.first k (fun hs => hns ?_) x hx
      rw [log_acceptSeq]; exact hs.append _
    · rintro rfl
      exact hns ⟨m.untyped, by simp, rfl⟩
  entry k hk := by
    rw [dataKeys_acceptSeq] at hk
    rcases h.entry k hk with ⟨e, he, rfl⟩ | hd
    · rcases h.queue.setDeliverable_entry m junk he with ⟨e', he', hk'⟩ | ⟨d, hd, hdk⟩
      · exact .inl ⟨e', by rw [queue_acceptSeq]; exact he', hk'⟩
      · exact .inr ⟨d, by simp [hd], hdk⟩
    · rw [log_acceptSeq]; exact .inr (hd.append _)
  deliverable e he hd := by
    rw [queue_acceptSeq] at he
    rw [finals_acceptSeq, List.mem_append, List.mem_singleton]
    rcases h.queue.setDeliverable_deliverable he hd with heq | he
    · exact .inr heq
    · exact .inl (h.deliverable e he hd)
  delivered d hd := by
    rw [deliveries_acceptSeq, List.mem_append] at hd
    rw [finals_acceptSeq, List.mem_append, List.mem_singleton]
    rcases hd with hd | hd
    · exact .inl (h.delivered d hd)
    · rcases h.queue.setDeliverable_delivered hd with rfl | ⟨e, he, hed, rfl⟩
      · exact .inr rfl
      · exact .inl (h.deliverable e he hed)

/-- The number of a message before its sequence message is its first proposal. -/
theorem Inv.pending_eq_firstProposal (h : sv.Inv cfg id) {k : PendingMessageKey} (hns : ¬ HandledSeq sv.log k)
    (hk : k ∈ dataKeys sv.log) : ∃ x, firstProposal sv.log k = some x ∧ sv.pending k = some ⟨x, id⟩ := by
  obtain ⟨x, hx⟩ := Option.isSome_iff_exists.1 (List.isSome_head?.2 (h.proposed k hk))
  exact ⟨x, hx, h.first k hns x (mem_proposals_of_firstProposal hx)⟩

/-! ### The answers -/

theorem filterMap_datagram_data (h : HostOrder) (m : DataMessage) (a : AckMessage) :
    [Effect.receivedData m, .sendAck a].filterMap (Effect.datagram h) = [sendAckMsg h a] := rfl

theorem filterMap_datagram_seq (h : HostOrder) (m : SeqMessage) (a : SeqAckMessage) (ds : List SeqMessage) :
    (Effect.receivedSeq m :: .sendSeqAck a :: ds.map .deliver).filterMap (Effect.datagram h) =
      [sendSeqAckMsg h a] := by
  have hds : (ds.map Effect.deliver).filterMap (Effect.datagram h) = [] := by
    simp [List.filterMap_eq_nil_iff, Effect.datagram]
  simp only [List.filterMap_cons, Effect.datagram, hds]

theorem datagrams_acceptSeq (p : Process) (m : SeqMessage) (junk : Word) :
    (p.acceptSeq m junk).datagrams = [sendSeqAckMsg p.host { sender := m.sender, msgId := m.msgId }] := by
  simp only [Outcome.datagrams, Process.acceptSeq, filterMap_datagram_seq, Process.forwardSeqNum_host]

/-- A data message is answered by one ack, replay or not. -/
theorem Inv.answer_acceptData (h : sv.Inv cfg id) (m : DataMessage) :
    ∃ a, (sv.process.acceptData m).effects = [.receivedData m, .sendAck a] ∧ a.key = m.key ∧ a.proposer = id ∧
      (sv.process.acceptData m).datagrams = [sendAckMsg (cfg.host id) a] := by
  rcases Process.acceptData_cases h.queue m with ⟨v, hv, heq⟩ | ⟨-, heq⟩ <;> rw [heq]
  · refine ⟨_, rfl, rfl, (h.pending m.key v hv).1, ?_⟩
    rw [Outcome.datagrams, filterMap_datagram_data, h.host_eq]
  · refine ⟨_, rfl, rfl, h.id_eq, ?_⟩
    rw [Outcome.datagrams, filterMap_datagram_data, Process.insertFresh, h.host_eq]

theorem Inv.log_acceptData (h : sv.Inv cfg id) (m : DataMessage) :
    ∃ a, (sv.after (sv.process.acceptData m)).log = sv.log ++ [.receivedData m, .sendAck a] ∧ a.key = m.key := by
  obtain ⟨a, heff, hk, -⟩ := h.answer_acceptData m
  exact ⟨a, by rw [Server.after, heff], hk⟩

theorem Inv.finals_acceptData (h : sv.Inv cfg id) (m : DataMessage) :
    finals (sv.after (sv.process.acceptData m)).log = finals sv.log := by
  obtain ⟨a, hlog, -⟩ := h.log_acceptData m
  rw [hlog, finals_append, finals_data, List.append_nil]

theorem Inv.deliveries_acceptData (h : sv.Inv cfg id) (m : DataMessage) :
    deliveries (sv.after (sv.process.acceptData m)).log = deliveries sv.log := by
  obtain ⟨a, hlog, -⟩ := h.log_acceptData m
  rw [hlog, deliveries_append, deliveries_data, List.append_nil]

/-- A sequence message is answered by one sequence ack, also when the message is not in the queue. -/
theorem Inv.answer_acceptSeq (h : sv.Inv cfg id) (m : SeqMessage) (junk : Word) :
    (sv.process.acceptSeq m junk).datagrams =
      [sendSeqAckMsg (cfg.host id) { sender := m.sender, msgId := m.msgId }] := by
  rw [datagrams_acceptSeq, h.host_eq]

end Server

end IsisMulticast

import IsisMulticast.Completion

/-!
# Message ids that coincide

`UniqueID` is a random word and no code compares it with the ids drawn before, though `process.h` calls it
unique. When two threads of a process draw the same id, the servers take the second message for a
replay of the first and deliver one message for the two (`equal_draws_deliver_once`). If no two draws of a process
coincide, then on links that keep the order every message has an entry of its own at every process
until it is delivered, and there are as many deliveries as multicasts. Both are said of a process outside its callback
(`multicasts_separate`): when all threads have finished, a callback may still have messages to deliver.
-/

namespace IsisMulticast
open Lib

/-- The keys of the multicasts, one for each launched thread. -/
def launches (ls : List Label) : List PendingMessageKey := ls.filterMap fun
  | .launch _ id msgId _ => some ⟨id, msgId⟩
  | _ => none

namespace Server
variable {cfg : Config} {id : Word} {sv : Server}

/-- Every message has one entry or one delivery. -/
def Separate (sv : Server) : Prop :=
  ((deliveries sv.log).map SeqMessage.key ++ sv.queue.ordering.toList.map PendingMessage.pmk).Nodup

theorem separate_init (id : Word) (n : Nat) (host : HostOrder) : Separate ⟨.init id n host, true, []⟩ :=
  List.nodup_nil

/-- A message that is not pending, but in the queue or delivered, has had its sequence message. -/
theorem Inv.handledSeq_of_key (h : sv.Inv cfg id) {k : PendingMessageKey} (hp : sv.pending k = none)
    (hk : k ∈ (deliveries sv.log).map SeqMessage.key ++ sv.queue.ordering.toList.map PendingMessage.pmk) :
    HandledSeq sv.log k := by
  rcases List.mem_append.1 hk with hk | hk
  · obtain ⟨d, hd, rfl⟩ := List.mem_map.1 hk
    exact ⟨d, h.delivered d hd, rfl⟩
  · obtain ⟨e, he, rfl⟩ := List.mem_map.1 hk
    exact ⟨e.toDeliver, h.deliverable e he (h.pending_eq_none.1 hp e he rfl), rfl⟩

theorem Separate.acceptData (hsep : sv.Separate) (h : sv.Inv cfg id) {m : DataMessage}
    (hnot : ¬ HandledSeq sv.log m.key) : (sv.after (sv.process.acceptData m)).Separate := by
  rw [Separate, h.deliveries_acceptData]
  rcases Process.acceptData_cases h.queue m with ⟨v, hv, heq⟩ | ⟨hnone, heq⟩ <;> rw [heq]
  · exact hsep
  · have hperm : (sv.queue.addPending (sv.process.freshAck m) m.data).ordering.toList.Perm _ :=
      h.queue.perm_addPending (a := sv.process.freshAck m) hnone
    have hnew : m.key ∉ (deliveries sv.log).map SeqMessage.key ++ sv.queue.ordering.toList.map PendingMessage.pmk :=
      fun hk => hnot (h.handledSeq_of_key hnone hk)
    refine (((hperm.map PendingMessage.pmk).append_left _).nodup_iff).2 ?_
    exact (List.perm_middle.nodup_iff).2 (List.nodup_cons.2 ⟨hnew, hsep⟩)

/-- A pending message has no other entry. -/
theorem Separate.eq_of_key (hsep : sv.Separate) {e e' : PendingMessage} (he : e ∈ sv.queue.ordering)
    (he' : e' ∈ sv.queue.ordering) (hk : e.pmk = e'.pmk) : e = e' :=
  List.inj_on_of_nodup_map (List.nodup_append.1 hsep).2.1 he he' hk

theorem Separate.acceptSeq (hsep : sv.Separate) (h : sv.Inv cfg id) (m : SeqMessage) (junk : Word) :
    (sv.after (sv.process.acceptSeq m junk)).Separate := by
  rw [Separate, deliveries_acceptSeq, queue_acceptSeq, List.map_append, List.append_assoc]
  have hperm := h.queue.perm_keys_setDeliverable m junk fun v hv c hc hcd hck => ?_
  · exact ((hperm.append_left _).nodup_iff).2 hsep
  obtain ⟨e, he, hed, hek, -⟩ := (h.queue.pending_iff _ _).1 hv
  rw [hsep.eq_of_key hc he (hck.trans hek.symm), hed] at hcd
  cases hcd

end Server

variable {cfg : Config} {s s' : Sys} {l : Label} {ls : List Label}

theorem Sys.Inv.separate_step (h : s.Inv cfg) (hs : Step cfg s l s') (hl : NotLate cfg s l) {q : Word}
    (hq : q.toNat < cfg.n) (hsep : (s.servers q).Separate) : (s'.servers q).Separate := by
  have hh := h.handles hs q
  generalize s'.servers q = sv' at hh ⊢
  cases hh with
  | idle => exact hsep
  | data hlab hlq hm hs hreq =>
    subst hlab hlq
    exact hsep.acceptData (h.server _ hq) (hl _ hreq _ (dataMsgFromBuf_sendDataMsg _ _ _))
  | seq => exact hsep.acceptSeq (h.server _ hq) _ _

theorem separate (hd : DistinctIds ls) (hf : Fifo ls) (hrun : cfg.lts.Run ls s) {q : Word} (hq : q.toNat < cfg.n) :
    (s.servers q).Separate :=
  Sys.Inv.induction (P := fun s => (s.servers q).Separate) (Server.separate_init _ _ _)
    (fun _ _ _ h hsep hl hs => h.separate_step hs hl hq hsep) hd (notLate_of_fifo hd hf) hrun

theorem nodup_launches (hd : DistinctIds ls) : (launches ls).Nodup := by
  refine List.pairwise_filterMap.2 (hd.imp fun {l l'} hne k hk k' hk' heq => ?_)
  cases l <;> cases hk
  cases l' <;> cases hk'
  exact hne (PendingMessageKey.mk.inj heq)

/-- The multicasts of a run are the launched messages of its last state. -/
theorem mem_launches_iff (hrun : cfg.lts.Run ls s) {k : PendingMessageKey} :
    k ∈ launches ls ↔ ∃ m, s.Launched m ∧ m.key = k := by
  constructor
  · refine hrun.induction (P := fun ls s => k ∈ launches ls → ∃ m, s.Launched m ∧ m.key = k)
      (fun hk => by cases hk) ?_
    intro ls s l s' _ ih hs hk
    have hs := step_iff.1 hs
    rw [launches, List.filterMap_append, List.mem_append] at hk
    rcases hk with hk | hk
    · obtain ⟨m, hm, hmk⟩ := ih hk
      exact ⟨m, hs.le.launched m hm, hmk⟩
    · cases hs with
      | @launch tid id msgId data hid ht =>
        obtain rfl : k = ⟨id, msgId⟩ := by simpa using hk
        exact ⟨_, ⟨tid, _, Function.update_self .., rfl⟩, rfl⟩
      | _ => simp at hk
  · rintro ⟨m, ⟨tid, t, ht, rfl⟩, rfl⟩
    obtain ⟨id, msgId, data, hmem, hk⟩ := exists_launch hrun ht
    exact List.mem_filterMap.2 ⟨_, hmem, congrArg some hk.symm⟩

section
variable (hd : DistinctIds ls) (hf : Fifo ls) (hrun : cfg.lts.Run ls s) (hfin : s.AllFinished) {q : Word}
  (hq : q.toNat < cfg.n)
include hd hf hrun hfin hq

theorem perm_launches : ((deliveries (s.log q)).map SeqMessage.key).Perm (launches ls) := by
  have h := Sys.Inv.of_run hd hrun
  have hone := single_of_notLate hd (notLate_of_fifo hd hf) hrun hq
  have hnodup := (List.nodup_append.1 (separate hd hf hrun hq)).1
  refine (List.perm_ext_iff_of_nodup hnodup (nodup_launches hd)).2 fun k => ?_
  rw [mem_launches_iff hrun, List.mem_map]
  constructor
  · rintro ⟨d, hdel, rfl⟩
    exact h.launched_of_decided (h.decided_of_delivered hq hdel)
  · rintro ⟨m, hm, rfl⟩
    exact h.delivered_of_allFinished hfin hq hone hm

/-- When all threads have finished over links that keep the order, every queue is empty and every process has delivered
every message once. -/
theorem drained_of_allFinished : (s.servers q).queue.pendingSeqs = ∅ ∧ (s.servers q).queue.ordering.toList = [] ∧
    ((deliveries (s.log q)).map SeqMessage.key).Perm (launches ls) := by
  have h := Sys.Inv.of_run hd hrun
  have hone := single_of_notLate hd (notLate_of_fifo hd hf) hrun hq
  exact ⟨HoldBackQueue.pendingSeqs_eq_empty (h.pending_of_allFinished hfin hq hone),
    h.ordering_of_allFinished hfin hq hone, perm_launches hd hf hrun hfin hq⟩

end

/-- If no process draws an id twice, then on links that keep the order, at a process that is outside its callback, the
messages held and delivered are all different, every message it has handled is among them, and when all threads have
finished it has delivered as many messages as there were multicasts. -/
theorem multicasts_separate {c : CallbackSys} {ls : List CallbackLabel}
    (hd : DistinctIds (ls.filterMap CallbackLabel.label)) (hf : Fifo (ls.filterMap CallbackLabel.label))
    (hrun : cfg.callbacks.Run ls c) {q : Word} (hq : q.toNat < cfg.n) (hout : c.inside q = none) :
    ((deliveries (c.sys.log q)).map SeqMessage.key ++
        (c.sys.servers q).queue.ordering.toList.map PendingMessage.pmk).Nodup ∧
    (∀ k ∈ dataKeys (c.sys.log q), k ∈ (deliveries (c.sys.log q)).map SeqMessage.key ++
        (c.sys.servers q).queue.ordering.toList.map PendingMessage.pmk) ∧
    (c.sys.AllFinished →
      (deliveries (c.sys.log q)).length = (launches (ls.filterMap CallbackLabel.label)).length) := by
  have hrun' := run_completed hrun
  have hsv := CallbackSys.servers_completed hout
  have hlog := CallbackSys.log_completed hout
  refine ⟨?_, fun k hk => ?_, fun hfin => ?_⟩
  · have hsep := separate hd hf hrun' hq
    rwa [hsv] at hsep
  · have h := (Sys.Inv.of_run hd hrun').server q hq
    rw [hsv] at h
    rw [List.mem_append, List.mem_map, List.mem_map]
    exact (h.entry k hk).symm
  · have hperm := perm_launches hd hf hrun' hfin hq
    rw [hlog] at hperm
    rw [← hperm.length_eq, List.length_map]

theorem multicasts_separate_pairAnswered : ∃ c, pair.callbacks.Run pairAnswered c ∧ c.sys.AllFinished ∧
    c.inside 0 = none ∧ (deliveries (c.sys.log 0)).length = 2 := by
  obtain ⟨c, hrun, hout, -⟩ := exists_run_pairAnswered
  have hfin := allFinished_pairAnswered hrun
  have hsep := multicasts_separate distinctIds_pairAnswered fifo_pairAnswered hrun (q := 0) (by decide) hout
  exact ⟨c, hrun, hfin, hout, hsep.2.2 hfin⟩

/-! ### Two equal draws -/

def Label.isServe (lk : Link) : Label → Bool
  | .serve lk' _ _ => lk' = lk
  | _ => false

def Label.isReceive (lk : Link) : Label → Bool
  | .receive _ lk' _ => lk' = lk
  | _ => false

/-- Two threads of the only process draw the id 7. The data message of the second is handled before the
sequence message of the first. -/
def equalDrawsRun : List Label :=
  [.launch 0 0 7 50, .launch 1 0 7 60] ++ callAnswered 0 ⟨0, 0⟩ 0 ++ callAnswered 1 ⟨0, 0⟩ 1 ++
    callAnswered 0 ⟨0, 0⟩ 2 ++ callAnswered 1 ⟨0, 0⟩ 3

/-- Every datagram was read, once and in order. Two messages were multicast, and one was delivered, with no callback
running. -/
theorem equal_draws_deliver_once : Fifo equalDrawsRun ∧ (launches equalDrawsRun).length = 2 ∧
    ∃ ls c, ls.filterMap CallbackLabel.label = equalDrawsRun ∧ single.callbacks.Run ls c ∧ (∀ q, c.inside q = none) ∧
      c.sys.AllFinished ∧
      (c.sys.requests ⟨0, 0⟩).length = equalDrawsRun.countP (·.isServe ⟨0, 0⟩) ∧
      (c.sys.answers ⟨0, 0⟩).length = equalDrawsRun.countP (·.isReceive ⟨0, 0⟩) ∧
      deliveries (c.sys.log 0) = [{ sender := 0, msgId := 7, finalSeq := 1, finalSeqProposer := 0 }] := by
  refine ⟨by decide, rfl, ?_⟩
  have h : (single.lts.exec equalDrawsRun).map (fun s => (s.finishedAll equalDrawsRun, (s.requests ⟨0, 0⟩).length,
      (s.answers ⟨0, 0⟩).length, deliveries (s.log 0))) =
      some (true, 4, 4, [{ sender := 0, msgId := 7, finalSeq := 1, finalSeqProposer := 0 }]) := by decide
  obtain ⟨s, hrun, heq⟩ := Option.map_eq_some_iff.1 h
  simp only [Prod.mk.injEq] at heq
  obtain ⟨hfin, hreq, hans, hdel⟩ := heq
  obtain ⟨ls, hrun', hlabels⟩ := exists_callbacks_run hrun
  exact ⟨ls, _, hlabels, hrun', fun _ => rfl, allFinished_of_finishedAll hrun hfin, hreq, hans, hdel⟩

end IsisMulticast

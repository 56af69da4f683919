import IsisMulticast.AtMostOnce
import IsisMulticast.Callbacks
import Mathlib.Data.List.Sort

/-!
# Completion

On links that keep the order no data message is late: a thread sends its data messages before its sequence
messages (`Sys.Inv.order`), and they are handled in the order in which they were sent. So when all threads
have finished and the callbacks are at their end, every queue is empty and every process has delivered every
message once, in the same order (`completed_of_allFinished`).

A thread finishes on answers that are sent before the messages are delivered, so the last callbacks may still be
running then (`finished_before_delivery`); a process that is outside its callback has delivered everything
(`completion`).
-/

namespace IsisMulticast
open Lib

variable {cfg : Config} {s s' : Sys} {l : Label} {ls : List Label}

theorem exists_serve_of_final (hd : DistinctIds ls) (hrun : cfg.lts.Run ls s) {q : Word} (hq : q.toNat < cfg.n)
    {m : SeqMessage} (hm : m ∈ finals (s.log q)) : ∃ j junk, .serve ⟨m.sender, q⟩ j junk ∈ ls ∧
      (s.requests ⟨m.sender, q⟩)[j]? = some (sendSeqMsg (cfg.host m.sender) m) := by
  refine hd.along.induction (P := fun ls s => m ∈ finals (s.log q) → ∃ j junk, .serve ⟨m.sender, q⟩ j junk ∈ ls ∧
    (s.requests ⟨m.sender, q⟩)[j]? = some (sendSeqMsg (cfg.host m.sender) m)) ?_ ?_ hrun hm
  · intro hm
    simp [Config.lts, Sys.init, Sys.log, finals] at hm
  · intro ls s l s' hrun hf ih _ hs hm
    have hs := step_iff.1 hs
    have h := Sys.Inv.of_along hf hrun
    have hold : m ∈ finals (s.log q) → ∃ j junk, .serve ⟨m.sender, q⟩ j junk ∈ ls ++ [l] ∧
        (s'.requests ⟨m.sender, q⟩)[j]? = some (sendSeqMsg (cfg.host m.sender) m) := by
      intro hm
      obtain ⟨j, junk, hmem, hreq⟩ := ih hm
      exact ⟨j, junk, List.mem_append_left _ hmem, hs.le.getElem?_requests hreq⟩
    have hh := h.handles hs q
    rw [Sys.log] at hm
    generalize hsv' : s'.servers q = sv' at hh hm
    cases hh with
    | idle => exact hold hm
    | data =>
      rw [(h.server q hq).finals_acceptData] at hm
      exact hold hm
    | @seq lk j junk m' hlab hlq hdec hsender hreq =>
      obtain ⟨client, server⟩ := lk
      obtain rfl : server = q := hlq
      obtain rfl : m'.sender = client := hsender
      rw [Server.finals_acceptSeq, List.mem_append, List.mem_singleton] at hm
      rcases hm with hm | rfl
      · exact hold hm
      · rw [show SeqMessage.untyped { m' with type := kSeqMessageType } = m' from (h.decision hdec).untyped]
        exact ⟨j, junk, by simp [hlab], hs.le.getElem?_requests hreq⟩

theorem notLate_of_fifo (hd : DistinctIds ls) (hf : Fifo ls) : cfg.lts.Along (NotLate cfg) ls := by
  rintro ls₁ l ls₂ s rfl hrun
  match l with
  | .serve lk j junk =>
    rintro b hb m hm ⟨m', hm', hk⟩
    have h := Sys.Inv.of_run hd.append_left hrun
    obtain ⟨hq, hreq⟩ := h.request lk b (List.mem_of_getElem? hb)
    cases hreq with
    | seq => simp at hm
    | @data d hlaunched hs =>
      obtain ⟨client, server⟩ := lk
      obtain rfl : d.sender = client := hs
      rw [Option.mem_def, dataMsgFromBuf_sendDataMsg, Option.some.injEq] at hm
      subst hm
      have hsender : m'.sender = d.sender := congrArg PendingMessageKey.sender hk
      obtain ⟨j', junk', hmem, hreq'⟩ := exists_serve_of_final hd.append_left hrun hq hm'
      rw [hsender] at hmem hreq'
      -- the sequence message was handled earlier, so it was sent earlier
      have hlt : j' < j := (List.pairwise_append.1 hf).2.2 _ hmem _ (List.mem_cons_self ..) rfl
      obtain ⟨hj', hget'⟩ := List.getElem?_eq_some_iff.1 hreq'
      obtain ⟨hj, hget⟩ := List.getElem?_eq_some_iff.1 hb
      exact List.pairwise_iff_getElem.1 (h.order _) j' j hj' hj hlt m' d hget' hget hk
  | .launch _ _ _ _ | .lock _ | .send _ | .timeout _ | .receive _ _ _ => trivial

namespace Sys

def AllFinished (s : Sys) : Prop := ∀ tid t, s.senders tid = some t → t.isFinished = true

namespace Inv

section
variable (h : s.Inv cfg) (hfin : s.AllFinished) {q : Word} (hq : q.toNat < cfg.n)
include h hfin hq

/-- Every process has handled the sequence message of every thread. -/
theorem decided_of_allFinished {m : DataMessage} (hm : s.Launched m) :
    (∃ d, s.Decided d ∧ d.key = m.key) ∧ HandledSeq (s.log q) m.key := by
  obtain ⟨tid, t, ht, rfl⟩ := hm
  have hp := (h.thread tid t ht).2.2
  have hf := hfin tid t ht
  cases hph : t.phase with
  | finished d =>
    simp only [Sender.Progress, hph] at hp
    exact ⟨⟨d, ⟨tid, t, ht, by simp [Sender.decided, hph]⟩, hp.1⟩, hp.2.2 q hq⟩
  | data => simp [Sender.isFinished, hph] at hf
  | seq => simp [Sender.isFinished, hph] at hf

theorem pending_of_allFinished (hone : (s.servers q).Single) (k : PendingMessageKey) :
    (s.servers q).pending k = none := by
  refine Option.eq_none_iff_forall_ne_some.2 fun v hv => ?_
  have hsv := h.server q hq
  obtain ⟨a, ha, hak, -⟩ := mem_proposals.1 (hsv.pending k v hv).2
  obtain ⟨m, hm, hmk, -⟩ := h.handledData q hq k (hak ▸ (hsv.ack a ha).2)
  have hnone := hone.settled k (hmk ▸ (h.decided_of_allFinished hfin hq hm).2)
  simp [hnone] at hv

theorem ordering_of_allFinished (hone : (s.servers q).Single) : (s.servers q).queue.ordering.toList = [] :=
  (h.server q hq).queue.ordering_eq_nil (h.pending_of_allFinished hfin hq hone)

theorem delivered_of_allFinished (hone : (s.servers q).Single) {m : DataMessage} (hm : s.Launched m) :
    Delivered (s.log q) m.key := by
  obtain ⟨⟨d, hd, hdk⟩, -⟩ := h.decided_of_allFinished hfin hq hm
  rcases h.entry_of_decided hd hq with ⟨e, he, -⟩ | hdel
  · rw [OrdSet.mem_def, h.ordering_of_allFinished hfin hq hone] at he
    simp at he
  · exact hdk ▸ hdel

end

end Inv

end Sys

/-- If all threads have finished, and no callback is running, every queue is empty, every process has delivered every
message exactly once and nothing else, and all have delivered the same sequence, in increasing order. -/
theorem completed_of_allFinished (hd : DistinctIds ls) (hw : cfg.lts.Along NoWrap ls) (hf : Fifo ls) (hrun : cfg.lts.Run ls s)
    (hfin : s.AllFinished) :
    (∀ q, q.toNat < cfg.n → (s.servers q).queue.pendingSeqs = ∅ ∧ (s.servers q).queue.ordering.toList = [] ∧
      (∀ m, s.Launched m → ((deliveries (s.log q)).map SeqMessage.key).count m.key = 1) ∧
      (∀ d ∈ deliveries (s.log q), ∃ m, s.Launched m ∧ m.key = d.key) ∧
      (deliveries (s.log q)).Pairwise SeqMessage.Before) ∧
    ∀ p q, p.toNat < cfg.n → q.toNat < cfg.n → deliveries (s.log p) = deliveries (s.log q) := by
  have h := Sys.Inv.of_run hd hrun
  have hnot : cfg.lts.Along (NotLate cfg) ls := notLate_of_fifo hd hf
  have hone : ∀ q, q.toNat < cfg.n → (s.servers q).Single := fun q hq => single_of_notLate hd hnot hrun hq
  have hkeys : ∀ q, q.toNat < cfg.n → ((deliveries (s.log q)).map SeqMessage.key).Nodup := fun q hq =>
    (h.nodup_keys_iff hq).2 (Sys.Inv.nodup_deliveries hd hw (notReinserted_of_notLate hd hnot) hrun hq)
  have hsorted : ∀ q, q.toNat < cfg.n → (deliveries (s.log q)).Pairwise SeqMessage.Before := fun q hq => by
    rw [← firstsBy_eq_self (hkeys q hq)]
    exact (Sys.Inv.ordered hd hw hrun hq).sorted
  have hlaunched : ∀ q, q.toNat < cfg.n → ∀ d ∈ deliveries (s.log q), ∃ m, s.Launched m ∧ m.key = d.key :=
    fun q hq d hdel => h.launched_of_decided (h.decided_of_delivered hq hdel)
  refine ⟨fun q hq => ⟨?_, h.ordering_of_allFinished hfin hq (hone q hq), fun m hm => ?_, hlaunched q hq, hsorted q hq⟩,
    fun p q hp hq => ?_⟩
  · exact HoldBackQueue.pendingSeqs_eq_empty (h.pending_of_allFinished hfin hq (hone q hq))
  · obtain ⟨d, hdel, hk⟩ := h.delivered_of_allFinished hfin hq (hone q hq) hm
    exact List.count_eq_one_of_mem (hkeys q hq) (hk ▸ List.mem_map_of_mem hdel)
  · -- both are sorted and hold the same messages
    have hsub : ∀ {p q}, p.toNat < cfg.n → q.toNat < cfg.n → ∀ d ∈ deliveries (s.log p), d ∈ deliveries (s.log q) := by
      intro p q hp hq d hdel
      obtain ⟨m, hm, hmk⟩ := hlaunched p hp d hdel
      obtain ⟨d', hdel', hk'⟩ := h.delivered_of_allFinished hfin hq (hone q hq) hm
      rwa [h.decided_unique (h.decided_of_delivered hp hdel) (h.decided_of_delivered hq hdel') (hmk.symm.trans hk'.symm)]
    exact (hsorted p hp).eq_of_mem_iff (hsorted q hq) fun d => ⟨hsub hp hq d, hsub hq hp d⟩

/-- The threads that `ls` launched have finished, as a computation. -/
def Sys.finishedAll (s : Sys) (ls : List Label) : Bool := ls.all fun
  | .launch tid _ _ _ => (s.senders tid).all (·.isFinished)
  | _ => true

theorem allFinished_of_finishedAll (hrun : cfg.lts.Run ls s) (h : s.finishedAll ls = true) : s.AllFinished := by
  intro tid t ht
  obtain ⟨id, msgId, data, hmem, -⟩ := exists_launch hrun ht
  simpa [ht] using List.all_eq_true.1 h _ hmem

theorem allFinished_pairRun (hrun : pair.lts.Run pairRun s) : s.AllFinished := by
  have h : (pair.lts.exec pairRun).map (fun s => s.finishedAll pairRun) = some true := by decide
  obtain ⟨s', hrun', hfin⟩ := Option.map_eq_some_iff.1 h
  obtain rfl := hrun.unique hrun'
  exact allFinished_of_finishedAll hrun hfin

/-! ### When callbacks are running -/

/-- Completion. If the links keep the order, then whenever all threads have finished, a process that is outside its
callback has an empty queue and has delivered every multicast message exactly once and nothing else, in increasing
order. All such processes have delivered the same sequence, and one inside its callback an initial part of it. -/
theorem completion {c : CallbackSys} {ls : List CallbackLabel} (hd : DistinctIds (ls.filterMap CallbackLabel.label))
    (hw : cfg.callbacks.Along CallbackSys.NoWrap ls) (hf : Fifo (ls.filterMap CallbackLabel.label))
    (hrun : cfg.callbacks.Run ls c) (hfin : c.sys.AllFinished) :
    (∀ q, q.toNat < cfg.n → c.inside q = none →
      (c.sys.servers q).queue.pendingSeqs = ∅ ∧ (c.sys.servers q).queue.ordering.toList = [] ∧
      (∀ m, c.sys.Launched m → ((deliveries (c.sys.log q)).map SeqMessage.key).count m.key = 1) ∧
      (∀ d ∈ deliveries (c.sys.log q), ∃ m, c.sys.Launched m ∧ m.key = d.key) ∧
      (deliveries (c.sys.log q)).Pairwise SeqMessage.Before) ∧
    ∀ p q, p.toNat < cfg.n → q.toNat < cfg.n → c.inside q = none →
      deliveries (c.sys.log p) <+: deliveries (c.sys.log q) ∧
      (c.inside p = none → deliveries (c.sys.log p) = deliveries (c.sys.log q)) := by
  obtain ⟨hempty, hsame⟩ := completed_of_allFinished hd (noWrap_completed hw hrun) hf (run_completed hrun) hfin
  refine ⟨fun q hq hout => ?_, fun p q hp hq hout => ?_⟩
  · have h := hempty q hq
    rw [CallbackSys.servers_completed hout, CallbackSys.log_completed hout] at h
    exact h
  · have h := hsame p q hp hq
    rw [CallbackSys.log_completed hout] at h
    refine ⟨h ▸ (c.log_prefix_completed p).filterMap _, fun hout' => ?_⟩
    rw [← h, CallbackSys.log_completed hout']

/-- Both threads of `pairAnswered` have finished. -/
theorem allFinished_pairAnswered {c : CallbackSys} (hrun : pair.callbacks.Run pairAnswered c) : c.sys.AllFinished :=
  allFinished_pairRun (s := c.completed) (label_pairAnswered ▸ run_completed hrun)

/-- Both threads have finished, every datagram was read once and in order, and process 1 holds both messages and has
delivered none. -/
theorem finished_before_delivery : DistinctIds (pairAnswered.filterMap CallbackLabel.label) ∧
    Fifo (pairAnswered.filterMap CallbackLabel.label) ∧ pair.callbacks.Along CallbackSys.NoWrap pairAnswered ∧
    ∃ c, pair.callbacks.Run pairAnswered c ∧ c.sys.AllFinished ∧
      (c.sys.servers 1).queue.ordering.toList.map PendingMessage.pmk = [⟨0, 7⟩, ⟨1, 7⟩] ∧
      deliveries (c.sys.log 1) = [] ∧ deliveries (c.sys.log 0) = [pairFirst, pairSecond] := by
  obtain ⟨c, hrun, -, -, hdel, hnone, hheld⟩ := exists_run_pairAnswered
  exact ⟨distinctIds_pairAnswered, fifo_pairAnswered, noWrap_pairAnswered, c, hrun, allFinished_pairAnswered hrun, hheld,
    hnone, hdel⟩

theorem completion_pairAnswered : ∃ c, pair.callbacks.Run pairAnswered c ∧ c.sys.AllFinished ∧ c.inside 0 = none ∧
    (c.sys.servers 0).queue.ordering.toList = [] ∧ deliveries (c.sys.log 1) <+: deliveries (c.sys.log 0) := by
  obtain ⟨c, hrun, hout, -⟩ := exists_run_pairAnswered
  have hfin := allFinished_pairAnswered hrun
  obtain ⟨hempty, hsame⟩ := completion distinctIds_pairAnswered noWrap_pairAnswered fifo_pairAnswered hrun hfin
  exact ⟨c, hrun, hfin, hout, (hempty 0 (by decide) hout).2.1, (hsame 1 0 (by decide) (by decide) hout).1⟩

end IsisMulticast

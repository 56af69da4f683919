import IsisMulticast.SysInv

/-!
# Requests and answers

All threads of a process that send to one server share its socket, and nothing drains it: a call of
`SendWithAck` can read the answers to the datagrams of earlier calls. `requests_answered` says that a
call ends exactly on the answers to copies of its own message of its own phase.
-/

namespace IsisMulticast
open Lib

variable {cfg : Config} {s s' : Sys} {ls : List Label}

/-- The datagram is a copy of the message of the thread and of its phase, as a process on host `h` reads
it. -/
def Sender.IsCopy (h : HostOrder) (t : Sender) (b : Buf) : Prop :=
  match t.phase with
  | .data _ _ _ => ∃ m, dataMsgFromBuf h b = some m ∧ m.type = kDataMessageType ∧ m.key = t.key
  | .seq _ _ _ => ∃ m, seqMsgFromBuf h b = some m ∧ m.type = kSeqMessageType ∧ m.key = t.key
  | .finished _ => False

theorem Sender.Resumed.inSession_iff {h : HostOrder} {n : Nat} {t t' : Sender} {buf : Buf}
    (hr : t.Resumed h n (.datagram buf) t') : t'.inSession = false ↔ t.Accepts h buf := by
  cases hr with
  | @again _ l hin hl hr =>
    refine iff_of_false ?_ (hr buf rfl)
    obtain ⟨id, msgId, data, phase⟩ := t
    cases phase <;> simp_all [Sender.setPc, Sender.inSession, Sender.pc]
  | data hp ha hv =>
    refine iff_of_true ?_ ?_
    · simp only [Sender.inSession, Sender.pc, Sender.dataLoop, Sender.seqLoop]
      split_ifs <;> rfl
    · simp only [Sender.Accepts, hp]
      exact ⟨_, ha, hv⟩
  | seq hp ha hv =>
    refine iff_of_true ?_ ?_
    · simp only [Sender.inSession, Sender.pc, Sender.seqLoop]
      split_ifs <;> rfl
    · simp only [Sender.Accepts, hp]
      exact ⟨_, ha, hv⟩

namespace Sys.Inv

/-- An answer is accepted exactly when the request it answers is a copy of what the thread sends. -/
theorem accepts_iff (h : s.Inv cfg) {tid : Nat} {t : Sender} {lk : Link} {a : Answer} {hst : HostOrder}
    (ht : s.senders tid = some t) (hlk : t.link = some lk) (ha : a ∈ s.answers lk) :
    t.Accepts hst a.buf ↔ ∃ b, (s.requests lk)[a.request]? = some b ∧ t.IsCopy (cfg.host lk.server) b := by
  obtain ⟨b, hb, hab⟩ := h.answer lk a ha
  have hsv := h.server _ (h.request lk b (List.mem_of_getElem? hb)).1
  have hp := (h.thread tid t ht).2.2
  obtain ⟨q, hq, rfl⟩ := Option.map_eq_some_iff.1 hlk
  simp only [hb, Option.some.injEq, exists_eq_left']
  generalize hbuf : a.buf = buf at hab
  cases hph : t.phase with
  | data pid seqs pc =>
    obtain rfl : pid = q := by simpa [Sender.target, hph] using hq
    simp only [Sender.Accepts, Sender.IsCopy, hph]
    cases hab with
    | @data m a' hm hs ha' hk =>
      have hproposer : a'.proposer = pid := (hsv.ack a' ha').1
      simp only [ackMsgFromBuf_sendAckMsg, dataMsgFromBuf_sendDataMsg, Option.some.injEq, exists_eq_left',
        validAckMsg_iff, true_and, hproposer, and_true]
      rw [show DataMessage.key { m with type := kDataMessageType } = a'.key from hk.symm]
      simp [AckMessage.key, Sender.key]
    | seq => simp
  | seq pid m pc =>
    obtain rfl : pid = q := by simpa [Sender.target, hph] using hq
    simp only [Sender.Progress, hph] at hp
    simp only [Sender.Accepts, Sender.IsCopy, hph]
    cases hab with
    | data => simp
    | @seq m' hm hs hh =>
      simp only [seqAckMsgFromBuf_sendSeqAckMsg, seqMsgFromBuf_sendSeqMsg, Option.some.injEq, exists_eq_left',
        validSeqAckMsg_iff, true_and, ← hp.2.1]
      simp [SeqMessage.key]
  | finished m => simp [Sender.target, hph] at hq

end Sys.Inv

theorem Sys.answers_served {lk : Link} {o : Outcome} {buf : Buf} (ho : o.datagrams = [buf]) (s : Sys) (j : Nat) :
    (s.served lk j o).answers = Function.update s.answers lk (s.answers lk ++ [⟨j, buf⟩]) := by
  rw [Sys.served, ho]; rfl

/-- Every request can be handled and is answered by one datagram, an ack or a sequence ack for its
message, whatever the state of the server. A call of `SendWithAck` that reads an answer ends exactly
if it answers a copy of the message the call is about, of the same phase. -/
theorem requests_answered (hd : DistinctIds ls) (hrun : cfg.lts.Run ls s) :
    (∀ lk j b junk, (s.requests lk)[j]? = some b → ∃ s' buf, s.step cfg (.serve lk j junk) = some s' ∧
      s'.answers = Function.update s.answers lk (s.answers lk ++ [⟨j, buf⟩]) ∧
      ((∃ m a, dataMsgFromBuf (cfg.host lk.server) b = some m ∧ m.type = kDataMessageType ∧
          buf = sendAckMsg (cfg.host lk.server) a ∧ a.key = m.key ∧ a.proposer = lk.server) ∨
        ∃ m a, seqMsgFromBuf (cfg.host lk.server) b = some m ∧ m.type = kSeqMessageType ∧
          buf = sendSeqAckMsg (cfg.host lk.server) a ∧ a.key = m.key)) ∧
    ∀ tid t lk j a s', s.senders tid = some t → (s.answers lk)[j]? = some a →
      s.step cfg (.receive tid lk j) = some s' → ∃ t', s'.senders tid = some t' ∧
        (t'.inSession = false ↔ ∃ b, (s.requests lk)[a.request]? = some b ∧ t.IsCopy (cfg.host lk.server) b) := by
  have h := Sys.Inv.of_run hd hrun
  refine ⟨fun lk j b junk hb => ?_, fun tid t lk j a s' ht ha hs => ?_⟩
  · have hq := (h.request lk b (List.mem_of_getElem? hb)).1
    have hsv := h.server _ hq
    have hstep : s.step cfg (.serve lk j junk) = some _ := step_iff.2 (.serve hb hq hsv.listening)
    have hserves := h.serves hb junk
    generalize s.served lk j _ = s' at hstep hserves
    cases hserves with
    | @data m hm hs hreq =>
      obtain ⟨a, -, hk, hprop, hdg⟩ := hsv.answer_acceptData { m with type := kDataMessageType }
      obtain rfl := Option.some.inj (hb.symm.trans hreq)
      exact ⟨_, _, hstep, Sys.answers_served hdg s j, .inl ⟨_, a, dataMsgFromBuf_sendDataMsg _ _ _, rfl, rfl, hk, hprop⟩⟩
    | @seq m hm hs hreq =>
      obtain rfl := Option.some.inj (hb.symm.trans hreq)
      exact ⟨_, _, hstep, Sys.answers_served (hsv.answer_acceptSeq _ _) s j,
        .inr ⟨_, _, seqMsgFromBuf_sendSeqMsg _ _ _, rfl, rfl, rfl⟩⟩
  · cases step_iff.1 hs with
    | @receive _ _ t₀ t' _ a₀ ht₀ hlk ha₀ ht' =>
      obtain rfl := Option.some.inj (ht.symm.trans ht₀)
      obtain rfl := Option.some.inj (ha.symm.trans ha₀)
      have hres := Sender.resumed_of_afterReceive (h.thread tid t ht).2.1 ht'
      refine ⟨t', Function.update_self .., ?_⟩
      rw [hres.inSession_iff, h.accepts_iff ht hlk (List.mem_of_getElem? ha)]

/-- The data message was sent twice because of a timeout; the thread is in its second phase and the
second ack has not been read. -/
def staleAckRun : List Label :=
  [.launch 0 0 7 9, .lock 0, .send 0, .timeout 0, .send 0, .serve ⟨0, 0⟩ 0 0, .serve ⟨0, 0⟩ 1 0,
    .receive 0 ⟨0, 0⟩ 0, .lock 0, .send 0]

/-- The stale ack at the end of `staleAckRun` does not end the call of the second phase. -/
theorem requests_answered_staleAckRun : ∃ s s' t', single.lts.Run staleAckRun s ∧
    s.step single (.receive 0 ⟨0, 0⟩ 1) = some s' ∧ s'.senders 0 = some t' ∧ t'.inSession = true := by
  let data : DataMessage := { sender := 0, msgId := 7, data := 9 }
  let ack : AckMessage := { sender := 0, msgId := 7, proposedSeq := 1, proposer := 0 }
  let seqMsg : SeqMessage := { sender := 0, msgId := 7, finalSeq := 1, finalSeqProposer := 0 }
  have h : (single.lts.exec staleAckRun).map (fun s => (s.senders 0, (s.answers ⟨0, 0⟩)[1]?, (s.requests ⟨0, 0⟩)[1]?,
      (s.step single (.receive 0 ⟨0, 0⟩ 1)).isSome)) =
      some (some ⟨0, 7, 9, .seq 0 seqMsg (.recv (.start kUnlimitedAttempts))⟩, some ⟨1, sendAckMsg .little ack⟩,
        some (sendDataMsg .little data), true) := by decide
  obtain ⟨s, hrun, heq⟩ := Option.map_eq_some_iff.1 h
  simp only [Prod.mk.injEq] at heq
  obtain ⟨ht, ha, hb, hs⟩ := heq
  obtain ⟨s', hs⟩ := Option.isSome_iff_exists.1 hs
  obtain ⟨t', ht', hiff⟩ := (requests_answered (by decide) hrun).2 _ _ _ _ _ _ ht ha hs
  refine ⟨s, s', t', hrun, hs, ht', Bool.not_eq_false _ ▸ fun hout => ?_⟩
  obtain ⟨b, hb', m, hm, -⟩ := hiff.1 hout
  obtain rfl := Option.some.inj (hb.symm.trans hb')
  simp [data] at hm

end IsisMulticast

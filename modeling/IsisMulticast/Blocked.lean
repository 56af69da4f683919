import IsisMulticast.FinalNumbers
import IsisMulticast.Draws
import IsisMulticast.Sessions

/-!
# What holds a message back

A message whose sequence message was handled is delivered unless a pending message stands before it
(`delivered_iff_unblocked`): the queue delivers as early as its order allows. Conversely, as long as no sequence
message comes for a pending message, the process delivers nothing from its number on, and so nothing that it received
first when the message was pending already (`Sys.Inv.blocked`). A late copy of a data message makes a process wait for
a sequence message that nobody will send again (`late_copy_blocks`).
-/

namespace IsisMulticast
open Lib

namespace Server

variable {cfg : Config} {id : Word} {sv : Server} {x : Word} {k : PendingMessageKey}

/-- The counter has reached `x`, and the first proposal for `k`, if there is one yet, is above `x`. -/
structure Above (x : Word) (k : PendingMessageKey) (sv : Server) : Prop where
  le_counter : x ≤ sv.process.seqCounter
  lt_first : ∀ y, firstProposal sv.log k = some y → x < y

theorem Above.acceptData (h : sv.Above x k) (hinv : sv.Inv cfg id) {d : DataMessage}
    (hwrap : sv.pending d.key = none → sv.process.seqCounter.toNat + 1 < 2 ^ 32) :
    (sv.after (sv.process.acceptData d)).Above x k := by
  rcases Process.acceptData_cases hinv.queue d with ⟨v, hv, heq⟩ | ⟨hnone, heq⟩ <;> rw [heq]
  · refine ⟨h.le_counter, fun y hy => ?_⟩
    rcases firstProposal_data hy with hy | ⟨hnil, hk, -⟩
    · exact h.lt_first y hy
    · -- the message would be pending, but nothing was proposed for it
      have hmem := (hinv.pending d.key v hv).2
      rw [show d.key = k from hk, hnil] at hmem
      simp at hmem
  · have hlt := UInt32.lt_of_le_of_lt h.le_counter (lt_add_one (hwrap hnone))
    refine ⟨UInt32.le_of_lt hlt, fun y hy => ?_⟩
    rcases firstProposal_data hy with hy | ⟨-, -, hnew⟩
    · exact h.lt_first y hy
    · obtain rfl : sv.process.seqCounter + 1 = y := hnew
      exact hlt

theorem Above.acceptSeq (h : sv.Above x k) (m : SeqMessage) (junk : Word) :
    (sv.after (sv.process.acceptSeq m junk)).Above x k := by
  refine ⟨?_, fun y hy => h.lt_first y ?_⟩
  · rw [seqCounter_acceptSeq]
    exact UInt32.le_trans h.le_counter (Process.le_forwardSeqNum m.finalSeq).2
  · rwa [firstProposal, proposals_acceptSeq] at hy

variable {v : PendingMessageSeq}

theorem Inv.pending_acceptData_of_some (h : sv.Inv cfg id) (hv : sv.pending k = some v) (d : DataMessage) :
    (sv.after (sv.process.acceptData d)).pending k = some v := by
  by_cases hk : k = d.key
  · subst hk
    rcases Process.acceptData_cases h.queue d with ⟨w, hw, heq⟩ | ⟨hnone, -⟩
    · rw [heq]
      exact hv
    · exact absurd (hv.symm.trans hnone) (by simp)
  · rw [h.pending_acceptData_of_ne hk]
    exact hv

theorem Inv.acceptSeq_of_some (h : sv.Inv cfg id) (hv : sv.pending k = some v) {m : SeqMessage} (hk : k ≠ m.key)
    (junk : Word) :
    (sv.after (sv.process.acceptSeq m junk)).pending k = some v ∧
      ∀ d ∈ (sv.queue.setDeliverable m junk).1, d.finalSeq < v.seq := by
  have hv' : (sv.after (sv.process.acceptSeq m junk)).pending k = some v := by
    rw [pending_acceptSeq]
    exact (if_neg hk).trans hv
  -- `k` stays in the queue, undeliverable, behind what is delivered
  obtain ⟨e, he, hu, -, hpms⟩ := ((h.acceptSeq m junk).queue.pending_iff k v).1 hv'
  rw [queue_acceptSeq] at he
  exact ⟨hv', fun d hd => hpms ▸ HoldBackQueue.lt_of_setDeliverable hd he hu⟩

end Server

variable {cfg : Config} {s s' : Sys} {l : Label} {ls ls' : List Label} {p : Word} {k : PendingMessageKey}
  {v : PendingMessageSeq}

namespace Sys.Inv

theorem above (hd : DistinctIds (ls ++ ls')) (hw : cfg.lts.Along NoWrap (ls ++ ls')) (hrun : cfg.lts.Run ls s)
    (hrun' : cfg.lts.Run (ls ++ ls') s') (hp : p.toNat < cfg.n) {x : Word} (hx : (s.servers p).Above x k) :
    (s'.servers p).Above x k := by
  refine induction_from (P := fun s => (s.servers p).Above x k) hrun hx ?_ hd hw hrun'
  intro s l s' h hx hl hs
  have hh := h.handles hs p
  generalize s'.servers p = sv' at hh ⊢
  cases hh with
  | idle => exact hx
  | data hlab hlq hm hs hreq =>
    subst hlab hlq
    exact hx.acceptData (h.server _ hp) fun hnone => h.noWrap_data hl hp hm hreq hnone
  | seq => exact hx.acceptSeq _ _

theorem above_of_pending (hd : DistinctIds ls) (hw : cfg.lts.Along NoWrap ls) (hrun : cfg.lts.Run ls s)
    (hp : p.toNat < cfg.n) (hv : (s.servers p).pending k = some v) {k' : PendingMessageKey}
    (hk' : k' ∉ dataKeys (s.log p)) : (s.servers p).Above v.seq k' := by
  have hc := counted hd hw hrun hp
  obtain ⟨a, ha, -, hseq⟩ := hc.pending k v hv
  refine ⟨hseq ▸ hc.ack_le a ha, fun y hy => ?_⟩
  obtain ⟨b, hb, hbk, -⟩ := mem_proposals.1 (mem_proposals_of_firstProposal hy)
  exact absurd (hbk ▸ (((of_run hd hrun).server p hp).ack b hb).2) hk'

theorem delivered_below (hd : DistinctIds (ls ++ ls')) (hrun : cfg.lts.Run ls s) (hrun' : cfg.lts.Run (ls ++ ls') s')
    (hp : p.toNat < cfg.n) (hv : (s.servers p).pending k = some v)
    (hns : ∀ m ∈ (finals (s'.log p)).drop (finals (s.log p)).length, m.key ≠ k) :
    (s'.servers p).pending k = some v ∧
      ∃ ds, deliveries (s'.log p) = deliveries (s.log p) ++ ds ∧ ∀ d ∈ ds, d.finalSeq < v.seq := by
  let n := (finals (s.log p)).length
  refine induction_from (G := fun _ _ => True) (P := fun s' => n ≤ (finals (s'.log p)).length ∧
    ((∀ m ∈ (finals (s'.log p)).drop n, m.key ≠ k) → (s'.servers p).pending k = some v ∧
      ∃ ds, deliveries (s'.log p) = deliveries (s.log p) ++ ds ∧ ∀ d ∈ ds, d.finalSeq < v.seq)) hrun
    ⟨Nat.le_refl _, fun _ => ⟨hv, [], by simp, by simp⟩⟩ ?_ hd (fun _ _ _ _ _ _ => trivial) hrun' |>.2 hns
  rintro s₁ l s₂ h ⟨hlen, ih⟩ - hs
  have hsv := h.server p hp
  have hh := h.handles hs p
  simp only [Sys.log] at hlen ih ⊢
  generalize s₂.servers p = sv' at hh ⊢
  cases hh with
  | idle => exact ⟨hlen, ih⟩
  | @data lk j junk m hlab hlq hm hs hreq =>
    rw [hsv.finals_acceptData, hsv.deliveries_acceptData]
    refine ⟨hlen, fun hns => ?_⟩
    obtain ⟨hpend, hds⟩ := ih hns
    exact ⟨hsv.pending_acceptData_of_some hpend _, hds⟩
  | @seq lk j junk m hlab hlq hm hs hreq =>
    rw [Server.finals_acceptSeq, Server.deliveries_acceptSeq, List.length_append]
    refine ⟨by omega, fun hns => ?_⟩
    rw [List.drop_append_of_le_length hlen] at hns
    have hk : k ≠ m.key := fun hk => hns _ (List.mem_append_right _ (List.mem_singleton_self _)) hk.symm
    obtain ⟨hpend, ds, hds, hlt⟩ := ih fun m' hm' => hns m' (List.mem_append_left _ hm')
    obtain ⟨hpend', hnew⟩ := hsv.acceptSeq_of_some hpend (m := { m with type := kSeqMessageType }) hk junk
    refine ⟨hpend', ds ++ _, by rw [hds, List.append_assoc], fun d hd => ?_⟩
    rcases List.mem_append.1 hd with hd | hd
    · exact hlt d hd
    · exact hnew d hd

/-- As long as `p` handles no sequence message for the pending message `k`, it stays pending, and what `p` delivers
has smaller final numbers and was received before. -/
theorem blocked (hd : DistinctIds (ls ++ ls')) (hw : cfg.lts.Along NoWrap (ls ++ ls')) (hrun : cfg.lts.Run ls s)
    (hrun' : cfg.lts.Run (ls ++ ls') s') (hp : p.toNat < cfg.n) (hv : (s.servers p).pending k = some v)
    (hns : ∀ m ∈ (finals (s'.log p)).drop (finals (s.log p)).length, m.key ≠ k) :
    (s'.servers p).pending k = some v ∧ ∃ ds, deliveries (s'.log p) = deliveries (s.log p) ++ ds ∧
      ∀ d ∈ ds, d.finalSeq < v.seq ∧ d.key ∈ dataKeys (s.log p) := by
  obtain ⟨hpend, ds, hds, hlt⟩ := delivered_below hd hrun hrun' hp hv hns
  refine ⟨hpend, ds, hds, fun d hmem => ⟨hlt d hmem, by_contra fun hk => ?_⟩⟩
  have h' := of_run hd hrun'
  have hdec := h'.decided_of_delivered hp (m := d) (by rw [hds]; exact List.mem_append_right _ hmem)
  obtain ⟨y, hy, hle⟩ := (h'.decision hdec).proposed p hp
  have habove := above hd hw hrun hrun' hp (above_of_pending hd.append_left hw.append_left hrun hp hv hk)
  have hlt' := UInt32.lt_of_lt_of_le (habove.lt_first y hy) hle
  exact UInt32.lt_irrefl _ (UInt32.lt_of_lt_of_le hlt' (UInt32.le_of_lt (hlt d hmem)))

theorem delivered_iff (hd : DistinctIds ls) (hw : cfg.lts.Along NoWrap ls) (hrun : cfg.lts.Run ls s)
    (hp : p.toNat < cfg.n) {m : SeqMessage} (hm : m ∈ finals (s.log p)) :
    m ∈ deliveries (s.log p) ↔ ∀ k v, (s.servers p).pending k = some v → m.finalSeq < v.seq := by
  have hsv := (of_run hd hrun).server p hp
  have ho := ordered hd hw hrun hp
  constructor
  · intro hdel k v hv
    obtain ⟨e, he, hu, -, rfl⟩ := (hsv.queue.pending_iff k v).1 hv
    exact ho.lt_pending m hdel e he hu
  · intro hall
    rcases ho.final m hm with hdel | ⟨e, he, hed, rfl⟩
    · exact hdel
    · -- a deliverable entry stands behind an undeliverable one
      obtain ⟨u, hu, hud, hle⟩ := hsv.queue.exists_undeliverable_le he
      have hlt := hall u.pmk u.pms ((hsv.queue.pending_iff _ _).2 ⟨u, hu, hud, rfl, rfl⟩)
      exact absurd (UInt32.lt_of_lt_of_le hlt hle) (UInt32.lt_irrefl _)

theorem unfinished_of_pending (hd : DistinctIds ls) (hf : Fifo ls) (hrun : cfg.lts.Run ls s) (hp : p.toNat < cfg.n)
    (hk : (s.servers p).pending k ≠ none) : ¬ HandledSeq (s.log p) k ∧
      ∃ tid t, s.senders tid = some t ∧ t.key = k ∧ t.isFinished = false := by
  have h := of_run hd hrun
  have hsv := h.server p hp
  have hns : ¬ HandledSeq (s.log p) k := fun hs =>
    hk ((single_of_notLate hd (notLate_of_fifo hd hf) hrun hp).settled k hs)
  obtain ⟨v, hv⟩ := Option.ne_none_iff_exists'.1 hk
  obtain ⟨a, ha, hak, -⟩ := mem_proposals.1 (hsv.pending k v hv).2
  obtain ⟨m, ⟨tid, t, ht, rfl⟩, hmk, -⟩ := h.handledData p hp k (hak ▸ (hsv.ack a ha).2)
  refine ⟨hns, tid, t, ht, hmk, Bool.eq_false_iff.2 fun hfin => hns ?_⟩
  have hprog := (h.thread tid t ht).2.2
  cases hph : t.phase with
  | finished d =>
    simp only [Sender.Progress, hph] at hprog
    exact hmk ▸ hprog.2.2 p hp
  | data => simp [Sender.isFinished, hph] at hfin
  | seq => simp [Sender.isFinished, hph] at hfin

end Sys.Inv

/-- A process that is outside its callback and has handled the sequence message `m` has delivered `m` exactly if it has
no pending message with a number up to that of `m`. Over links that keep the order, what holds messages back are the
multicasts that have not ended: whose sequence message the process has not handled. -/
theorem delivered_iff_unblocked {c : CallbackSys} {ls : List CallbackLabel}
    (hd : DistinctIds (ls.filterMap CallbackLabel.label)) (hw : cfg.callbacks.Along CallbackSys.NoWrap ls)
    (hrun : cfg.callbacks.Run ls c) (hp : p.toNat < cfg.n) (hout : c.inside p = none) :
    (∀ m ∈ finals (c.sys.log p), m ∈ deliveries (c.sys.log p) ↔
      ∀ k v, (c.sys.servers p).pending k = some v → m.finalSeq < v.seq) ∧
    (Fifo (ls.filterMap CallbackLabel.label) → ∀ k, (c.sys.servers p).pending k ≠ none →
      ¬ HandledSeq (c.sys.log p) k ∧ ∃ tid t, c.sys.senders tid = some t ∧ t.key = k ∧ t.isFinished = false) := by
  have hrun' := run_completed hrun
  have hw' := noWrap_completed hw hrun
  rw [← CallbackSys.servers_completed hout, ← CallbackSys.log_completed hout]
  exact ⟨fun m hm => Sys.Inv.delivered_iff hd hw' hrun' hp hm,
    fun hf k hk => Sys.Inv.unfinished_of_pending hd hf hrun' hp hk⟩

/-- Process 0 has handled one of the two sequence messages of `pairAnswered`, and holds the message back for the
other. -/
theorem delivered_iff_unblocked_pairAnswered : ∃ c, pair.callbacks.Run (pairAnswered.take 29) c ∧ c.inside 0 = none ∧
    pairSecond ∈ finals (c.sys.log 0) ∧ pairSecond ∉ deliveries (c.sys.log 0) ∧
    ∃ tid t, c.sys.senders tid = some t ∧ t.key = ⟨0, 7⟩ ∧ t.isFinished = false := by
  have h : (pair.callbacks.exec (pairAnswered.take 29)).map (fun c =>
      (c.inside 0, finals (c.sys.log 0), (c.sys.servers 0).pending ⟨0, 7⟩)) =
      some (none, [pairSecond], some ⟨1, 0⟩) := by decide
  obtain ⟨c, hrun, hc⟩ := Option.map_eq_some_iff.1 h
  simp only [Prod.mk.injEq] at hc
  obtain ⟨hout, hfin, hpend⟩ := hc
  have hd : DistinctIds ((pairAnswered.take 29).filterMap CallbackLabel.label) := by decide
  obtain ⟨hiff, hopen⟩ := delivered_iff_unblocked (p := 0) hd (by decide) hrun (by decide) hout
  have hmem : pairSecond ∈ finals (c.sys.log 0) := by simp [hfin]
  refine ⟨c, hrun, hout, hmem, fun hdel => ?_, (hopen (by decide) _ (by simp [hpend])).2⟩
  exact absurd ((hiff _ hmem).1 hdel _ _ hpend) (by decide)

/-! ### Late copies -/

theorem exists_serve_of_new_final (hd : DistinctIds (ls ++ ls')) (hrun : cfg.lts.Run ls s)
    (hrun' : cfg.lts.Run (ls ++ ls') s') (hp : p.toNat < cfg.n) {m : SeqMessage}
    (hm : m ∈ (finals (s'.log p)).drop (finals (s.log p)).length) : ∃ j junk, .serve ⟨m.sender, p⟩ j junk ∈ ls' ∧
      (s'.requests ⟨m.sender, p⟩)[j]? = some (sendSeqMsg (cfg.host m.sender) m) := by
  induction ls' using List.reverseRecOn generalizing s' with
  | nil =>
    rw [List.append_nil] at hrun'
    obtain rfl := hrun.unique hrun'
    simp at hm
  | append_singleton ls' l ih =>
    rw [← List.append_assoc] at hd hrun'
    obtain ⟨s₁, hrun₁, hs⟩ := Lts.run_concat.1 hrun'
    have hs := step_iff.1 hs
    have h := Sys.Inv.of_run hd.append_left hrun₁
    have hold : m ∈ (finals (s₁.log p)).drop (finals (s.log p)).length →
        ∃ j junk, .serve ⟨m.sender, p⟩ j junk ∈ ls' ++ [l] ∧
          (s'.requests ⟨m.sender, p⟩)[j]? = some (sendSeqMsg (cfg.host m.sender) m) := by
      intro hm
      obtain ⟨j, junk, hmem, hreq⟩ := ih hd.append_left hrun₁ hm
      exact ⟨j, junk, List.mem_append_left _ hmem, hs.le.getElem?_requests hreq⟩
    have hh := h.handles hs p
    simp only [Sys.log] at hm hold
    generalize s'.servers p = sv' at hh hm
    cases hh with
    | idle => exact hold hm
    | data =>
      rw [(h.server p hp).finals_acceptData] at hm
      exact hold hm
    | @seq lk j junk m' hlab hlq hdec hsender hreq =>
      obtain ⟨client, server⟩ := lk
      obtain rfl : server = p := hlq
      obtain rfl : m'.sender = client := hsender
      rw [Server.finals_acceptSeq, List.drop_append] at hm
      rcases List.mem_append.1 hm with hm | hm
      · exact hold hm
      · obtain rfl : m = m' := (List.mem_singleton.1 (List.mem_of_mem_drop hm)).trans (h.decision hdec).untyped
        exact ⟨j, junk, by simp [hlab], hs.le.getElem?_requests hreq⟩

theorem Sender.pc_of_isFinished {t : Sender} (ht : t.isFinished = true) : t.pc = none := by
  cases t with | mk id msgId data phase => cases phase <;> simp_all [Sender.isFinished, Sender.pc]

theorem Step.finished_stays (hs : Step cfg s l s') {tid : Nat} {t : Sender} (ht : s.senders tid = some t)
    (hfin : t.isFinished = true) : s'.senders tid = some t := by
  have hpc := Sender.pc_of_isFinished hfin
  have hother : ∀ {i : Nat} {u u' : Sender}, s.senders i = some u → u.pc ≠ none →
      Function.update s.senders i (some u') tid = some t := by
    intro i u u' hu hne
    rw [Function.update_of_ne, ht]
    rintro rfl
    obtain rfl := Option.some.inj (ht.symm.trans hu)
    exact hne hpc
  cases hs with
  | @launch i id msgId data hid hnone =>
    have hi : tid ≠ i := by rintro rfl; simp [ht] at hnone
    simp [Function.update_of_ne hi, ht]
  | lock hu _ hu' => exact hother hu (by simp [hu'])
  | send hu _ _ hu' => exact hother hu (by simp [hu'])
  | timeout hu _ hu' =>
    obtain ⟨l₀, hl₀⟩ := Sender.exists_recv_of_afterReceive hu'
    exact hother hu (by simp [hl₀])
  | receive hu _ _ hu' =>
    obtain ⟨l₀, hl₀⟩ := Sender.exists_recv_of_afterReceive hu'
    exact hother hu (by simp [hl₀])
  | serve => exact ht

theorem Sys.Inv.key_of_datagram (h : s.Inv cfg) {tid : Nat} {t : Sender} (ht : s.senders tid = some t)
    {m : SeqMessage} (hm : t.datagram (cfg.host t.id) = some (sendSeqMsg (cfg.host t.id) m)) : m.key = t.key := by
  have hp := (h.thread tid t ht).2.2
  cases hph : t.phase with
  | data pid seqs pc =>
    simp only [Sender.datagram, hph, Option.some.injEq] at hm
    exact absurd hm.symm (sendSeqMsg_ne_sendDataMsg _ _)
  | seq pid m' pc =>
    simp only [Sender.datagram, hph, Option.some.injEq] at hm
    simp only [Sender.Progress, hph] at hp
    have hk : m.key = m'.key := (congrArg SeqMessage.key (sendSeqMsg_inj hm)).symm
    exact hk.trans hp.2.1
  | finished m' => simp [Sender.datagram, hph] at hm

theorem key_ne_of_new_request (hd : DistinctIds (ls ++ ls')) (hrun : cfg.lts.Run ls s)
    (hrun' : cfg.lts.Run (ls ++ ls') s') {tid : Nat} {t : Sender} (ht : s.senders tid = some t)
    (hfin : t.isFinished = true) {lk : Link} {j : Nat} {m : SeqMessage} (hj : (s.requests lk).length ≤ j)
    (hm : (s'.requests lk)[j]? = some (sendSeqMsg (cfg.host lk.client) m)) : m.key ≠ t.key := by
  refine (Sys.Inv.induction_from (P := fun s' => s'.senders tid = some t ∧ ∀ m,
    (s'.requests lk)[j]? = some (sendSeqMsg (cfg.host lk.client) m) → m.key ≠ t.key) (G := fun _ _ => True) hrun
    ⟨ht, fun m hm => ?_⟩ ?_ hd (fun _ _ _ _ _ _ => trivial) hrun').2 m hm
  · rw [List.getElem?_eq_none hj] at hm
    cases hm
  · rintro s₁ l s₂ h ⟨ht₁, ih⟩ - hs
    refine ⟨hs.finished_stays ht₁ hfin, fun m hm => ?_⟩
    cases hs with
    | @send i u lk' l₀ b hu hlu hb hpc =>
      have hm : (Function.update s₁.requests lk' (s₁.requests lk' ++ [b]) lk)[j]? =
        some (sendSeqMsg (cfg.host lk.client) m) := hm
      by_cases hl : lk = lk'
      · subst hl
        rw [Function.update_self] at hm
        obtain ⟨hlt, -⟩ := List.getElem?_eq_some_iff.1 hm
        by_cases hold : j < (s₁.requests lk).length
        · exact ih m (by rwa [List.getElem?_append_left hold] at hm)
        · -- the new request is of a thread that has not finished
          obtain rfl : b = sendSeqMsg (cfg.host lk.client) m := by
            rw [List.length_append, List.length_singleton] at hlt
            obtain rfl : j = (s₁.requests lk).length := by omega
            simpa using hm
          obtain ⟨q, -, rfl⟩ := Option.map_eq_some_iff.1 hlu
          intro hk
          obtain rfl := h.thread_unique hu ht₁ ((h.key_of_datagram hu hb).symm.trans hk)
          simp [Sender.pc_of_isFinished hfin] at hpc
      · exact ih m (by rwa [Function.update_of_ne hl] at hm)
    | launch | lock | timeout | receive | serve => exact ih m hm

/-- The thread of `k` has finished, and `p` holds `k` again because of a late copy of its data message. As long as
the network brings `p` no more of the old datagrams of that link, `k` stays in the queue for good, and with it
everything from its number on: `p` delivers nothing that it had not received before, whatever is multicast. -/
theorem late_copy_blocks (hd : DistinctIds (ls ++ ls')) (hw : cfg.lts.Along NoWrap (ls ++ ls'))
    (hrun : cfg.lts.Run ls s) (hrun' : cfg.lts.Run (ls ++ ls') s') (hp : p.toNat < cfg.n) {tid : Nat} {t : Sender}
    (ht : s.senders tid = some t) (hfin : t.isFinished = true) (hv : (s.servers p).pending t.key = some v)
    (hnew : ∀ j junk, .serve ⟨t.id, p⟩ j junk ∈ ls' → (s.requests ⟨t.id, p⟩).length ≤ j) :
    (s'.servers p).pending t.key = some v ∧ ∃ ds, deliveries (s'.log p) = deliveries (s.log p) ++ ds ∧
      ∀ d ∈ ds, d.finalSeq < v.seq ∧ d.key ∈ dataKeys (s.log p) := by
  refine Sys.Inv.blocked hd hw hrun hrun' hp hv fun m hm hk => ?_
  obtain ⟨j, junk, hserve, hreq⟩ := exists_serve_of_new_final hd hrun hrun' hp hm
  have hid : m.sender = t.id := congrArg PendingMessageKey.sender hk
  rw [hid] at hserve hreq
  exact key_ne_of_new_request hd hrun hrun' ht hfin (hnew j junk hserve) hreq hk

/-- A multicast after `lateDataRun`, which reads the answers after that to the late copy. -/
def nextMulticast : List Label :=
  [.launch 1 0 8 9, .lock 1, .send 1, .serve ⟨0, 0⟩ 2 0, .receive 1 ⟨0, 0⟩ 3, .lock 1, .send 1, .serve ⟨0, 0⟩ 3 0,
    .receive 1 ⟨0, 0⟩ 4]

/-- After a late copy of the first message the second one is answered in both phases and never delivered. -/
theorem late_copy_blocks_nextMulticast : ∃ s, single.lts.Run (lateDataRun ++ nextMulticast) s ∧ s.AllFinished ∧
    HandledSeq (s.log 0) ⟨0, 8⟩ ∧ ¬ Delivered (s.log 0) ⟨0, 8⟩ := by
  have h : (single.lts.exec lateDataRun).map (fun s => (s.senders 0, (s.servers 0).pending ⟨0, 7⟩)) =
      some (some ⟨0, 7, 9, .finished ⟨0, 0, 7, 1, 0⟩⟩, some ⟨2, 0⟩) := by decide
  have hkeys : ∀ s ∈ single.lts.exec lateDataRun, (s.requests ⟨0, 0⟩).length = 2 ∧
      ⟨0, 8⟩ ∉ dataKeys (s.log 0) ++ (deliveries (s.log 0)).map SeqMessage.key := by decide
  have h' : (single.lts.exec (lateDataRun ++ nextMulticast)).map (fun s =>
      (s.finishedAll (lateDataRun ++ nextMulticast), decide (HandledSeq (s.log 0) ⟨0, 8⟩))) = some (true, true) := by
    decide
  obtain ⟨s, hrun, hs⟩ := Option.map_eq_some_iff.1 h
  obtain ⟨s', hrun', hs'⟩ := Option.map_eq_some_iff.1 h'
  obtain ⟨ht, hv⟩ := Prod.mk.inj hs
  obtain ⟨hfin, hh⟩ := Prod.mk.inj hs'
  obtain ⟨hlen, hnot⟩ := hkeys s hrun
  have hnew : ∀ j junk, .serve ⟨0, 0⟩ j junk ∈ nextMulticast → (s.requests ⟨0, 0⟩).length ≤ j := by
    intro j junk hmem
    rw [hlen]
    simp only [nextMulticast, List.mem_cons, Label.serve.injEq, reduceCtorEq, List.not_mem_nil, false_or, or_false,
      true_and] at hmem
    omega
  obtain ⟨-, ds, hds, hold⟩ := late_copy_blocks (p := 0) (by decide) (by decide) hrun hrun' (by decide) ht rfl hv hnew
  refine ⟨s', hrun', allFinished_of_finishedAll hrun' hfin, of_decide_eq_true hh, fun ⟨d, hd, hk⟩ => hnot ?_⟩
  rw [hds] at hd
  rcases List.mem_append.1 hd with hd | hd
  · exact List.mem_append_right _ (hk ▸ List.mem_map_of_mem hd)
  · exact List.mem_append_left _ (hk ▸ (hold d hd).2)

end IsisMulticast

import IsisMulticast.NoLoss

/-!
# Deliveries in order

`Server.Ordered` is what makes the deliveries of a server come in the order of their final numbers: all
that is still in the queue stands after what was delivered. A new entry gets a number above every
final number seen, and the entry of a message moves to a final number that is at least the number it had.
A message that is inserted again after its sequence message is delivered a second time at once, or
keeps the deliverable entry it has; so the first deliveries stay in order even then.

The counters must not wrap (`NoWrap`), and a sequence message must come after the data message, with a number
that is at least the first proposal and is the same in all copies: this is what the system provides
(`Sys.Inv.ordered_step`).
-/

namespace IsisMulticast
open Lib

namespace Server

structure Ordered (sv : Server) : Prop where
  final_le : ∀ m ∈ finals sv.log, m.finalSeq ≤ sv.process.seqCounter
  /-- A message whose sequence message was handled is delivered or deliverable. -/
  final : ∀ m ∈ finals sv.log, m ∈ deliveries sv.log ∨
    ∃ e ∈ sv.queue.ordering, e.deliverable = true ∧ e.toDeliver = m
  lt_pending : ∀ d ∈ deliveries sv.log, ∀ e ∈ sv.queue.ordering, e.deliverable = false → d.finalSeq < e.pms.seq
  before_deliverable : ∀ d ∈ deliveries sv.log, ∀ e ∈ sv.queue.ordering, e.deliverable = true →
    d.Before e.toDeliver
  sorted : (firstDeliveries sv.log).Pairwise SeqMessage.Before

variable {cfg : Config} {id : Word} {sv : Server}

theorem ordered_init (p : Process) (b : Bool) : Ordered ⟨p, b, []⟩ where
  final_le m h := by simp [finals] at h
  final m h := by simp [finals] at h
  lt_pending d h := by simp [deliveries] at h
  before_deliverable d h := by simp [deliveries] at h
  sorted := .nil

/-- One more handled data message, when the only new entry is undeliverable and has a number above the
counter. -/
theorem Ordered.of_data (h : sv.Ordered) (hinv : sv.Inv cfg id) {m : DataMessage} {a : AckMessage} {p : Process}
    (hc : sv.process.seqCounter ≤ p.seqCounter) (hold : ∀ e ∈ sv.queue.ordering, e ∈ p.holdBackQueue.ordering)
    (hnew : ∀ e ∈ p.holdBackQueue.ordering,
      e ∈ sv.queue.ordering ∨ e.deliverable = false ∧ sv.process.seqCounter < e.pms.seq) :
    (sv.after { process := p, effects := [.receivedData m, .sendAck a] }).Ordered := by
  have hfin : finals (sv.log ++ [.receivedData m, .sendAck a]) = finals sv.log := by simp
  have hdel : deliveries (sv.log ++ [.receivedData m, .sendAck a]) = deliveries sv.log := by simp
  refine ⟨fun m' hm => ?_, fun m' hm => ?_, fun d hd e he hu => ?_, fun d hd e he hu => ?_, ?_⟩
  · exact UInt32.le_trans (h.final_le m' (hfin ▸ hm)) hc
  · rcases h.final m' (hfin ▸ hm) with hd | ⟨e, he, hrest⟩
    · exact .inl (hdel ▸ hd)
    · exact .inr ⟨e, hold e he, hrest⟩
  · have hd : d ∈ deliveries sv.log := hdel ▸ hd
    rcases hnew e he with he | ⟨-, hlt⟩
    · exact h.lt_pending d hd e he hu
    · exact UInt32.lt_of_le_of_lt (h.final_le d (hinv.delivered d hd)) hlt
  · rcases hnew e he with he | ⟨hf, -⟩
    · exact h.before_deliverable d (hdel ▸ hd) e he hu
    · simp [hf] at hu
  · have hsorted := h.sorted
    rw [firstDeliveries, ← hdel] at hsorted
    exact hsorted

theorem Ordered.acceptData (h : sv.Ordered) (hinv : sv.Inv cfg id) {m : DataMessage}
    (hwrap : sv.pending m.key = none → sv.process.seqCounter.toNat + 1 < 2 ^ 32) :
    (sv.after (sv.process.acceptData m)).Ordered := by
  rcases Process.acceptData_cases hinv.queue m with ⟨v, hv, heq⟩ | ⟨hnone, heq⟩ <;> rw [heq]
  · exact h.of_data hinv (UInt32.le_refl _) (fun _ he => he) (fun _ he => .inl he)
  · have hlt := lt_add_one (hwrap hnone)
    refine h.of_data hinv (UInt32.le_of_lt hlt) (fun e he => OrdSet.mem_insert_of_mem he) (fun e he => ?_)
    rcases OrdSet.eq_or_mem_of_mem_insert he with rfl | he
    · exact .inr ⟨rfl, hlt⟩
    · exact .inl he

/-- What the system provides when the server handles the sequence message `m`. -/
structure Conforming (sv : Server) (m : SeqMessage) : Prop where
  received : m.key ∈ dataKeys sv.log
  first_le : ∀ x, firstProposal sv.log m.key = some x → x ≤ m.finalSeq
  agree : ∀ m' ∈ finals sv.log, m'.key = m.key → m' = m.untyped

variable {m : SeqMessage}

/-- What was delivered stands before a message that becomes deliverable now and was not delivered. -/
theorem Ordered.before_final (h : sv.Ordered) (hinv : sv.Inv cfg id) (hm : sv.Conforming m)
    (hnd : m.untyped ∉ deliveries sv.log) {d : SeqMessage} (hd : d ∈ deliveries sv.log) : d.Before m.untyped := by
  by_cases hs : HandledSeq sv.log m.key
  · -- a copy of the sequence message has been handled: the message is deliverable
    obtain ⟨m', hm', hmk⟩ := hs
    obtain rfl := hm.agree m' hm' hmk
    rcases h.final _ hm' with hdel | ⟨e, he, hed, heq⟩
    · exact absurd hdel hnd
    · exact heq ▸ h.before_deliverable d hd e he hed
  · -- the first one: the entry of the message has its first proposal
    obtain ⟨x, hx, hp⟩ := hinv.pending_eq_firstProposal hs hm.received
    obtain ⟨e, he, hu, -, hpms⟩ := (hinv.queue.pending_iff m.key _).1 hp
    have hlt : d.finalSeq < x := by simpa [hpms] using h.lt_pending d hd e he hu
    exact .of_finalSeq_lt (UInt32.lt_of_lt_of_le hlt (hm.first_le x hx))

/-- A message that was delivered is not left in the queue under its final number. -/
theorem Ordered.not_delivered_of_left (h : sv.Ordered) (hinv : sv.Inv cfg id) {junk : Word} {e : PendingMessage}
    (he : e ∈ (sv.queue.setDeliverable m junk).2.ordering) (heq : e.toDeliver = m.untyped) :
    m.untyped ∉ deliveries sv.log := by
  intro hd
  -- an undeliverable entry stands before `e`, but all of them are above what was delivered
  obtain ⟨u, hu, hud, hle⟩ := (hinv.queue.setDeliverable m junk).exists_undeliverable_le he
  have hlt := h.lt_pending _ hd u (hinv.queue.setDeliverable_undeliverable hu hud) hud
  have hseq : e.pms.seq = m.finalSeq := congrArg SeqMessage.finalSeq heq
  exact UInt32.lt_irrefl _ (UInt32.lt_of_lt_of_le hlt (hseq ▸ hle))

/-- A pending message is deliverable or delivered after its sequence message, under its final number. -/
theorem Conforming.final_of_pending (hm : sv.Conforming m) (hinv : sv.Inv cfg id) (junk : Word) {v : PendingMessageSeq}
    (hp : sv.pending m.key = some v) : m.untyped ∈ (sv.queue.setDeliverable m junk).1 ∨
      ∃ e ∈ (sv.queue.setDeliverable m junk).2.ordering, e.deliverable = true ∧ e.toDeliver = m.untyped := by
  obtain ⟨e, hed, hek, hcase, hin⟩ := hinv.queue.setDeliverable_final junk hp
  have heq : e.toDeliver = m.untyped := by
    rcases hcase with rfl | he
    · rfl
    · exact hm.agree _ (hinv.deliverable e he hed) hek
  rcases hin with hin | hin
  · exact .inr ⟨e, hin, hed, heq⟩
  · exact .inl (heq ▸ hin)

theorem Ordered.final_setDeliverable (h : sv.Ordered) (hinv : sv.Inv cfg id) (hm : sv.Conforming m) (junk : Word)
    {m' : SeqMessage} (hm' : m' ∈ finals sv.log ∨ m' = m.untyped) :
    (m' ∈ deliveries sv.log ∨ m' ∈ (sv.queue.setDeliverable m junk).1) ∨
      ∃ e ∈ (sv.queue.setDeliverable m junk).2.ordering, e.deliverable = true ∧ e.toDeliver = m' := by
  by_cases hs : m' ∈ finals sv.log
  · rcases h.final m' hs with hd | ⟨e, he, hed, rfl⟩
    · exact .inl (.inl hd)
    · rcases hinv.queue.setDeliverable_keeps m junk he hed with he | hd
      · exact .inr ⟨e, he, hed, rfl⟩
      · exact .inl (.inr hd)
  · obtain rfl := hm'.resolve_left hs
    have hns : ¬ HandledSeq sv.log m.key := by
      rintro ⟨m', hm', hmk⟩
      exact hs (hm.agree m' hm' hmk ▸ hm')
    obtain ⟨x, -, hp⟩ := hinv.pending_eq_firstProposal hns hm.received
    exact (hm.final_of_pending hinv junk hp).imp_left .inr

theorem Ordered.acceptSeq (h : sv.Ordered) (hinv : sv.Inv cfg id) (hm : sv.Conforming m) (junk : Word) :
    (sv.after (sv.process.acceptSeq m junk)).Ordered := by
  refine ⟨fun m' hm' => ?_, fun m' hm' => ?_, fun d hd e he hu => ?_, fun d hd e he hu => ?_, ?_⟩
  · obtain ⟨hnew, hold⟩ := Process.le_forwardSeqNum (p := sv.process) m.finalSeq
    rw [finals_acceptSeq, List.mem_append, List.mem_singleton] at hm'
    rcases hm' with hm' | rfl
    · exact UInt32.le_trans (h.final_le m' hm') hold
    · exact hnew
  · rw [finals_acceptSeq, List.mem_append, List.mem_singleton] at hm'
    rw [queue_acceptSeq, deliveries_acceptSeq, List.mem_append]
    exact h.final_setDeliverable hinv hm junk hm'
  · rw [queue_acceptSeq] at he
    rw [deliveries_acceptSeq, List.mem_append] at hd
    rcases hd with hd | hd
    · exact h.lt_pending d hd e (hinv.queue.setDeliverable_undeliverable he hu) hu
    · exact HoldBackQueue.lt_of_setDeliverable hd he hu
  · rw [queue_acceptSeq] at he
    rw [deliveries_acceptSeq, List.mem_append] at hd
    rcases hd with hd | hd
    · rcases hinv.queue.setDeliverable_deliverable he hu with heq | hold
      · rw [heq]
        exact h.before_final hinv hm (h.not_delivered_of_left hinv he heq) hd
      · exact h.before_deliverable d hd e hold hu
    · exact HoldBackQueue.before_of_setDeliverable hd he hu
  · rw [firstDeliveries, deliveries_acceptSeq]
    refine pairwise_firstsBy_append h.sorted (HoldBackQueue.pairwise_setDeliverable _ _ _) fun d hd => ?_
    rcases hinv.queue.setDeliverable_delivered hd with rfl | ⟨e, he, hed, rfl⟩
    · by_cases hmd : m.untyped ∈ deliveries sv.log
      · exact .inl (List.mem_map_of_mem hmd)
      · exact .inr fun b hb => h.before_final hinv hm hmd (firstsBy_sublist.subset hb)
    · exact .inr fun b hb => h.before_deliverable b (firstsBy_sublist.subset hb) e he hed

end Server

/-! ### Runs -/

namespace Sys.Inv

variable {cfg : Config} {s s' : Sys} {l : Label}

theorem conforming (h : s.Inv cfg) {m : SeqMessage} (hm : s.Decided m) {q : Word} (hq : q.toNat < cfg.n) (w : Word) :
    (s.servers q).Conforming { m with type := w } := by
  have hdec := h.decision hm
  refine ⟨h.mem_dataKeys_of_decided hm hq, fun x hx => ?_, fun m' hm' hk => ?_⟩
  · obtain ⟨y, hy, hle⟩ := hdec.proposed q hq
    obtain rfl := Option.some.inj (hy.symm.trans hx)
    exact hle
  · rw [h.decided_unique (h.handledSeq q hq m' hm').1 hm hk]
    exact hdec.untyped.symm

theorem proposes_data (h : s.Inv cfg) {q : Word} (hq : q.toNat < cfg.n) {m : DataMessage} (hm : s.Launched m)
    (hst : HostOrder) (hnone : (s.servers q).pending m.key = none) :
    (s.servers q).process.proposes (sendDataMsg hst m) = true := by
  refine Process.proposes_sendDataMsg _ ?_ hnone
  obtain ⟨tid, t, ht, rfl⟩ := hm
  rw [(h.server _ hq).count_eq]
  exact (h.thread tid t ht).1

/-- What `NoWrap` says when the request is a data message. -/
theorem noWrap_data (h : s.Inv cfg) {lk : Link} {j : Nat} {junk : Word} (hl : NoWrap s (.serve lk j junk))
    (hq : lk.server.toNat < cfg.n) {m : DataMessage} (hm : s.Launched m)
    (hreq : (s.requests lk)[j]? = some (sendDataMsg (cfg.host lk.client) m))
    (hnone : (s.servers lk.server).pending m.key = none) :
    (s.servers lk.server).process.seqCounter.toNat + 1 < 2 ^ 32 :=
  hl _ hreq (h.proposes_data hq hm _ hnone)

theorem ordered_step (h : s.Inv cfg) (hs : Step cfg s l s') (hl : NoWrap s l) {q : Word} (hq : q.toNat < cfg.n)
    (ho : (s.servers q).Ordered) : (s'.servers q).Ordered := by
  have hsv := h.server q hq
  have hh := h.handles hs q
  generalize s'.servers q = sv' at hh ⊢
  cases hh with
  | idle => exact ho
  | data hlab hlq hm hs hreq =>
    subst hlab hlq
    exact ho.acceptData hsv fun hnone => h.noWrap_data hl hq hm hreq hnone
  | seq hlab hlq hm => exact ho.acceptSeq hsv (h.conforming hm hq _) _

theorem ordered {ls : List Label} (hd : DistinctIds ls) (hw : cfg.lts.Along NoWrap ls) (hrun : cfg.lts.Run ls s)
    {q : Word} (hq : q.toNat < cfg.n) : (s.servers q).Ordered :=
  induction (P := fun s => (s.servers q).Ordered) (Server.ordered_init _ _)
    (fun _ _ _ h ho hl hs => h.ordered_step hs hl hq ho) hd hw hrun

end Sys.Inv

end IsisMulticast

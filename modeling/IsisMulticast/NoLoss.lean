import IsisMulticast.Agreement

/-!
# No message is lost

A final number is decided only after every process has handled the data message, and a message that a
server has handled stays in its queue until it is delivered (`Server.Inv.entry`). So as soon as there
is a sequence message for it anywhere, every process holds the message or has delivered it.
-/

namespace IsisMulticast
open Lib

variable {cfg : Config} {s s' : Sys} {l : Label} {ls : List Label}

namespace Sys.Inv

theorem mem_dataKeys_of_decided (h : s.Inv cfg) {m : SeqMessage} (hm : s.Decided m) {q : Word}
    (hq : q.toNat < cfg.n) : m.key ∈ dataKeys (s.log q) := by
  obtain ⟨x, hx, -⟩ := (h.decision hm).proposed q hq
  obtain ⟨a, ha, hk, -⟩ := mem_proposals.1 (mem_proposals_of_firstProposal hx)
  exact hk ▸ ((h.server q hq).ack a ha).2

theorem entry_of_decided (h : s.Inv cfg) {m : SeqMessage} (hm : s.Decided m) {q : Word} (hq : q.toNat < cfg.n) :
    (∃ e ∈ (s.servers q).queue.ordering, e.pmk = m.key) ∨ Delivered (s.log q) m.key :=
  (h.server q hq).entry m.key (h.mem_dataKeys_of_decided hm hq)

/-- A step that takes the last entry of a message from a queue delivers the message. -/
theorem entry_step (h : s.Inv cfg) (hs : Step cfg s l s') {q : Word} (hq : q.toNat < cfg.n) {e : PendingMessage}
    (he : e ∈ (s.servers q).queue.ordering) :
    (∃ e' ∈ (s'.servers q).queue.ordering, e'.pmk = e.pmk) ∨
      ∃ ds, deliveries (s'.log q) = deliveries (s.log q) ++ ds ∧ ∃ d ∈ ds, d.key = e.pmk := by
  have hsv := h.server q hq
  have hh := h.handles hs q
  rw [Sys.log, Sys.log]
  generalize s'.servers q = sv' at hh ⊢
  cases hh with
  | idle => exact .inl ⟨e, he, rfl⟩
  | data => exact .inl ⟨e, hsv.mem_acceptData _ he, rfl⟩
  | @seq lk j junk m =>
    rw [Server.queue_acceptSeq, Server.deliveries_acceptSeq]
    rcases hsv.queue.setDeliverable_entry _ junk he with hin | hout
    · exact .inl hin
    · exact .inr ⟨_, rfl, hout⟩

end Sys.Inv

/-- Once a message is delivered somewhere, or a sequence message of it was sent or handled, every process
has it in its queue or has delivered it. An entry leaves a queue only by being delivered: the step
that takes the last entry of a message delivers it. -/
theorem no_message_lost (hd : DistinctIds ls) (hrun : cfg.lts.Run ls s) :
    (∀ k, ((∃ p, p.toNat < cfg.n ∧ Delivered (s.log p) k) ∨ (∃ m, s.SeqSent cfg m ∧ m.key = k) ∨
        ∃ p, p.toNat < cfg.n ∧ HandledSeq (s.log p) k) →
      ∀ q, q.toNat < cfg.n → (∃ e ∈ (s.servers q).queue.ordering, e.pmk = k) ∨ Delivered (s.log q) k) ∧
    ∀ l s', s.step cfg l = some s' → ∀ q, q.toNat < cfg.n → ∀ e ∈ (s.servers q).queue.ordering,
      (∃ e' ∈ (s'.servers q).queue.ordering, e'.pmk = e.pmk) ∨
        ∃ ds, deliveries (s'.log q) = deliveries (s.log q) ++ ds ∧ ∃ d ∈ ds, d.key = e.pmk := by
  have h := Sys.Inv.of_run hd hrun
  refine ⟨fun k hk q hq => ?_, fun l s' hs q hq e he => h.entry_step (step_iff.1 hs) hq he⟩
  rcases hk with ⟨p, hp, m, hm, rfl⟩ | ⟨m, hm, rfl⟩ | ⟨p, hp, m, hm, rfl⟩
  · exact h.entry_of_decided (h.decided_of_delivered hp hm) hq
  · exact h.entry_of_decided (h.decided_of_seqSent hm) hq
  · exact h.entry_of_decided (h.handledSeq p hp m hm).1 hq

/-- When process 0 has delivered the first message of `pairRun`, process 1 holds it or has delivered it. -/
theorem no_message_lost_pairRun : ∃ s, pair.lts.Run pairRun s ∧ Delivered (s.log 0) ⟨0, 7⟩ ∧
    ((∃ e ∈ (s.servers 1).queue.ordering, e.pmk = ⟨0, 7⟩) ∨ Delivered (s.log 1) ⟨0, 7⟩) := by
  obtain ⟨s, hrun, hdel, -⟩ := exists_run_pairRun
  have h0 : Delivered (s.log 0) ⟨0, 7⟩ := ⟨pairFirst, by simp [hdel], rfl⟩
  exact ⟨s, hrun, h0, (no_message_lost distinctIds_pairRun hrun).1 ⟨0, 7⟩ (.inl ⟨0, by decide, h0⟩) 1 (by decide)⟩

end IsisMulticast

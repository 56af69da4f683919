import IsisMulticast.Listener

/-!
# What `Lookup` recognises

`Lookup` reads the map, and `SetDeliverable` takes a message out of the map when it becomes deliverable, not when
it leaves the queue. So a deliverable message that is held back by another one is in the queue and
not recognised, and a further copy of its data message gets a second entry
(`held_back_not_recognised`). `Lookup` recognises what is in the queue exactly as long as no message is held
back (`lookup_recognises_iff`).
-/

namespace IsisMulticast
open Lib

namespace HoldBackQueue

/-- `Lookup` answers exactly for the messages in the queue, and each of them has one entry. -/
structure Recognises (q : HoldBackQueue) : Prop where
  lookup_iff : ∀ m : DataMessage, (q.lookup m).isSome ↔ ∃ e ∈ q.ordering, e.pmk = m.key
  unique : ∀ e ∈ q.ordering, ∀ e' ∈ q.ordering, e.pmk = e'.pmk → e = e'

/-- The call makes no message deliverable that another pending message holds back. -/
def DeliversAtOnce (q : HoldBackQueue) : QueueCall → Prop
  | .setDeliverable m _ => m.key ∈ q.pendingSeqs →
      ∀ u ∈ q.ordering.toList, u.deliverable = false → u.pmk ≠ m.key → m.finalSeq < u.pms.seq
  | _ => True

variable {q : HoldBackQueue} {m : SeqMessage} {junk : Word}

theorem isSome_lookup {m : DataMessage} : (q.lookup m).isSome ↔ ∃ v, q.pendingSeqs.lookup m.key = some v := by
  unfold lookup
  cases q.pendingSeqs.lookup m.key <;> simp

theorem Inv.recognises_iff (h : q.Inv) : q.Recognises ↔ ∀ e ∈ q.ordering, e.deliverable = false := by
  constructor
  · intro hr e he
    have hsome := (hr.lookup_iff { sender := e.pmk.sender, msgId := e.pmk.msgId, data := 0 }).2 ⟨e, he, rfl⟩
    obtain ⟨v, hv⟩ := isSome_lookup.1 hsome
    obtain ⟨u, hu, hd, hk, -⟩ := (h.pending_iff _ _).1 hv
    rw [hr.unique e he u hu hk.symm]
    exact hd
  · intro hall
    refine ⟨fun m => ?_, fun e he e' he' => h.undeliverable_unique he he' (hall e he) (hall e' he')⟩
    rw [isSome_lookup]
    constructor
    · rintro ⟨v, hv⟩
      obtain ⟨e, he, -, hk, -⟩ := (h.pending_iff _ _).1 hv
      exact ⟨e, he, hk⟩
    · rintro ⟨e, he, hk⟩
      exact ⟨e.pms, hk ▸ h.lookup_of_mem he (hall e he)⟩

section
variable (h : q.Inv) (hall : ∀ e ∈ q.ordering, e.deliverable = false)
include h hall

theorem lt_of_undeliverable_setDeliverable (hp : m.key ∈ q.pendingSeqs)
    (hall' : ∀ e ∈ (q.setDeliverable m junk).2.ordering, e.deliverable = false) {u : PendingMessage}
    (hu : u ∈ q.ordering) (hk : u.pmk ≠ m.key) : m.finalSeq < u.pms.seq := by
  obtain ⟨v, hv⟩ := Option.ne_none_iff_exists'.1 (mem_pendingSeqs.1 hp)
  -- the message is not left in the queue, so it was delivered
  have hdel : m.untyped ∈ (q.setDeliverable m junk).1 := by
    obtain ⟨e, hd, -, rfl | he, hleft | hdel⟩ := h.setDeliverable_final junk hv
    · exact absurd (hall' _ hleft) (by simp [hd])
    · exact hdel
    · exact absurd (hall e he) (by simp [hd])
    · exact absurd (hall e he) (by simp [hd])
  have hpend : (q.setDeliverable m junk).2.pendingSeqs.lookup u.pmk = some u.pms := by
    rw [lookup_setDeliverable, if_neg hk]
    exact h.lookup_of_mem hu (hall u hu)
  obtain ⟨e, he, hd, -, hpms⟩ := ((h.setDeliverable m junk).pending_iff _ _).1 hpend
  rw [← hpms]
  show m.untyped.finalSeq < e.pms.seq
  exact lt_of_setDeliverable hdel he hd

theorem undeliverable_setDeliverable (hlt : ∀ u ∈ q.ordering, u.pmk ≠ m.key → m.finalSeq < u.pms.seq) :
    ∀ e ∈ (q.setDeliverable m junk).2.ordering, e.deliverable = false := by
  intro e he
  refine Bool.eq_false_iff.2 fun hd => ?_
  rcases h.setDeliverable_deliverable he hd with heq | hold
  · have hseq : e.pms.seq = m.finalSeq := congrArg SeqMessage.finalSeq heq
    -- something undeliverable stands before it
    obtain ⟨u, hu, hud, hle⟩ := (h.setDeliverable m junk).exists_undeliverable_le he
    have hk : u.pmk ≠ m.key := by
      intro hk
      have hpend := (h.setDeliverable m junk).lookup_of_mem hu hud
      rw [lookup_setDeliverable, if_pos hk] at hpend
      cases hpend
    have := hlt u (h.setDeliverable_undeliverable hu hud) hk
    rw [← hseq] at this
    exact absurd hle (UInt32.not_le.2 this)
  · simp [hall e hold] at hd

/-- One call keeps the queue free of held back messages exactly if it meets its guard. -/
theorem undeliverable_call_iff (c : QueueCall) :
    (∀ e ∈ (q.call c).2.ordering, e.deliverable = false) ↔ q.DeliversAtOnce c := by
  cases c with
  | lookup m => exact iff_of_true hall trivial
  | insertUndeliverable a data =>
    refine iff_of_true (fun e he => ?_) trivial
    cases hp : q.pendingSeqs.lookup a.key with
    | some v =>
      rw [call, insertUndeliverable_of_some hp] at he
      exact hall e he
    | none =>
      rw [call, insertUndeliverable_of_none h data hp] at he
      rcases (h.mem_addPending hp).1 he with rfl | he
      · rfl
      · exact hall e he
  | setDeliverable m junk =>
    by_cases hp : m.key ∈ q.pendingSeqs
    · constructor
      · intro hall' _ u hu _ hk
        exact lt_of_undeliverable_setDeliverable h hall hp hall' hu hk
      · intro hlt
        exact undeliverable_setDeliverable h hall fun u hu hk => hlt hp u hu (hall u hu) hk
    · refine iff_of_true ?_ fun hc => absurd hc hp
      rw [call, setDeliverable_of_none (by simpa [mem_pendingSeqs] using hp)]
      exact hall

end

/-- `Lookup` recognises exactly the queued messages, in every state the calls lead through, if and only if every
message that is made deliverable has a final number below the number of every other pending one. -/
theorem lookup_recognises_iff (calls : List QueueCall) :
    (∀ calls₁, calls₁ <+: calls → (reached calls₁).Recognises) ↔ machine.Along DeliversAtOnce calls := by
  rw [← Lts.along_iff_forall (M := machine) (P := fun q => ∀ e ∈ q.ordering, e.deliverable = false) ?_ ?_
    (run_reached calls)]
  · refine forall_congr' fun calls₁ => ?_
    rw [(inv_reached calls₁).recognises_iff]
    constructor
    · intro hall q hpre hrun
      rw [hrun.unique (run_reached calls₁)]
      exact hall hpre
    · intro hall hpre
      exact hall _ hpre (run_reached calls₁)
  · intro e he
    exact absurd he (OrdSet.not_mem_empty e)
  · intro calls₁ q c q' _ hrun hs hall
    obtain rfl := Option.some.inj hs
    obtain rfl := hrun.unique (run_reached calls₁)
    exact undeliverable_call_iff (inv_reached calls₁) hall c

end HoldBackQueue

/-- Two messages are multicast by process 0, and the second becomes final while the first is pending. -/
def heldBackDatagrams : List (Buf × Word) :=
  [(sendDataMsg .little { sender := 0, msgId := 7, data := 50 }, 0),
    (sendDataMsg .little { sender := 0, msgId := 8, data := 60 }, 0),
    (sendSeqMsg .little { sender := 0, msgId := 8, finalSeq := 2, finalSeqProposer := 0 }, 0)]

/-- The second message is in the queue and `Lookup` does not find it; when a copy of its data message is
handled, it is in the queue twice. -/
theorem held_back_not_recognised : ∃ sv, (listener 0 2 .little).Run heldBackDatagrams sv ∧
    (∃ calls, HoldBackQueue.machine.Along HoldBackQueue.LookedUp calls ∧ sv.queue = HoldBackQueue.reached calls) ∧
    sv.queue.lookup { sender := 0, msgId := 8, data := 60 } = none ∧ (∃ e ∈ sv.queue.ordering, e.pmk = ⟨0, 8⟩) ∧
    ∃ sv', (listener 0 2 .little).Run
        (heldBackDatagrams ++ [(sendDataMsg .little { sender := 0, msgId := 8, data := 60 }, 0)]) sv' ∧
      sv'.queue.ordering.toList.map PendingMessage.pmk = [⟨0, 7⟩, ⟨0, 8⟩, ⟨0, 8⟩] := by
  have h : ((listener 0 2 .little).exec heldBackDatagrams).map (fun sv =>
      (sv.queue.lookup { sender := 0, msgId := 8, data := 60 }, sv.queue.ordering.toList.map PendingMessage.pmk)) =
      some (none, [⟨0, 7⟩, ⟨0, 8⟩]) := by decide
  have h' : ((listener 0 2 .little).exec
      (heldBackDatagrams ++ [(sendDataMsg .little { sender := 0, msgId := 8, data := 60 }, 0)])).map
      (fun sv => sv.queue.ordering.toList.map PendingMessage.pmk) = some [⟨0, 7⟩, ⟨0, 8⟩, ⟨0, 8⟩] := by decide
  obtain ⟨sv, hrun, heq⟩ := Option.map_eq_some_iff.1 h
  obtain ⟨hnone, hkeys⟩ := Prod.mk.inj heq
  refine ⟨sv, hrun, (Server.listens hrun).calls, hnone, ?_, Option.map_eq_some_iff.1 h'⟩
  have hmem : (⟨0, 8⟩ : PendingMessageKey) ∈ sv.queue.ordering.toList.map PendingMessage.pmk := by simp [hkeys]
  exact List.mem_map.1 hmem

end IsisMulticast

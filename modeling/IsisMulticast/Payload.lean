import IsisMulticast.QueueRuns

/-!
# The payload in the hold-back queue

An entry of the queue has the `data` of its message. `SetDeliverable` does not take the entry of a message over, it
makes a new one from the key and the final numbers and never assigns its `data`: from then on the payload
is whatever was in memory (`payload_lost`). `StemsFrom` follows an entry back to the call that inserted its
message. While it is undeliverable it has the `data` of that call; it keeps it until it is delivered exactly if
the indeterminate value happens to be that `data` (`payload_survives_iff`).
-/

namespace IsisMulticast
open Lib

namespace HoldBackQueue

/-- The entries that a call hands to `deliver`. -/
def handed (q : HoldBackQueue) : QueueCall → List PendingMessage
  | .setDeliverable m junk =>
    match q.pendingSeqs.lookup m.key with
    | none => []
    | some v => ((q.marked m v junk).popWhile (·.deliverable)).1
  | _ => []

/-- After the calls, the entry `e` is of a message that was inserted with the data `d`. -/
inductive StemsFrom : List QueueCall → PendingMessage → Word → Prop
  | insert {calls : List QueueCall} {a : AckMessage} {data : Word}
      (hp : (reached calls).pendingSeqs.lookup a.key = none) :
      StemsFrom (calls ++ [.insertUndeliverable a data]) (newEntry a data) data
  | final {calls : List QueueCall} {m : SeqMessage} {junk d : Word} {e : PendingMessage}
      (he : e ∈ (reached calls).ordering) (hd : e.deliverable = false) (hk : e.pmk = m.key)
      (h : StemsFrom calls e d) : StemsFrom (calls ++ [.setDeliverable m junk]) (finalEntry m junk) d
  | stay {calls : List QueueCall} {c : QueueCall} {d : Word} {e : PendingMessage}
      (he : e ∈ (reached calls).ordering) (h : StemsFrom calls e d) : StemsFrom (calls ++ [c]) e d

/-- The call finds the data of the message in the memory of the new entry. It does not matter if the message has a
deliverable entry with the final number already, since the new one is then not inserted. -/
def PicksUp (q : HoldBackQueue) : QueueCall → Prop
  | .setDeliverable m junk => ∀ u ∈ q.ordering.toList, u.deliverable = false → u.pmk = m.key → u.data = junk ∨
      ∃ c ∈ q.ordering.toList, c.deliverable = true ∧ c.pmk = m.key ∧ c.pms.seq = m.finalSeq
  | _ => True

variable {q : HoldBackQueue} {calls : List QueueCall} {c : QueueCall} {e : PendingMessage} {d : Word}
  {m : SeqMessage} {junk : Word} {v : PendingMessageSeq}

theorem delivered_eq_map_handed (q : HoldBackQueue) (c : QueueCall) :
    (q.call c).1.delivered = (q.handed c).map PendingMessage.toDeliver := by
  cases c with
  | lookup | insertUndeliverable => rfl
  | setDeliverable m junk =>
    cases hp : q.pendingSeqs.lookup m.key with
    | none => simp [call, handed, hp, QueueAnswer.delivered, setDeliverable_of_none hp]
    | some v => simp [call, handed, hp, QueueAnswer.delivered, setDeliverable_of_some hp]

/-- When the delivery loop has run, the entries it started with are handed over or left. -/
theorem mem_marked_iff (hp : q.pendingSeqs.lookup m.key = some v) :
    e ∈ q.marked m v junk ↔
      e ∈ (q.call (.setDeliverable m junk)).2.ordering ∨ e ∈ q.handed (.setDeliverable m junk) := by
  have hleft : (q.call (.setDeliverable m junk)).2.ordering = ((q.marked m v junk).popWhile (·.deliverable)).2 := by
    rw [call, setDeliverable_of_some hp]
  have hhanded : q.handed (.setDeliverable m junk) = ((q.marked m v junk).popWhile (·.deliverable)).1 := by
    simp only [handed, hp]
  rw [hleft, hhanded, or_comm]
  exact OrdSet.mem_iff_mem_popWhile

/-- The entries in the course of a call: old ones, a new one, or the final one of a pending message. -/
theorem Inv.mem_call (h : q.Inv) (he : e ∈ (q.call c).2.ordering ∨ e ∈ q.handed c) :
    e ∈ q.ordering ∨
    (∃ a data, c = .insertUndeliverable a data ∧ q.pendingSeqs.lookup a.key = none ∧ e = newEntry a data) ∨
    ∃ m junk v, c = .setDeliverable m junk ∧ q.pendingSeqs.lookup m.key = some v ∧ e = finalEntry m junk := by
  cases c with
  | lookup m => exact .inl (he.resolve_right List.not_mem_nil)
  | insertUndeliverable a data =>
    have he := he.resolve_right List.not_mem_nil
    cases hp : q.pendingSeqs.lookup a.key with
    | some v =>
      rw [HoldBackQueue.call, insertUndeliverable_of_some hp] at he
      exact .inl he
    | none =>
      rw [HoldBackQueue.call, insertUndeliverable_of_none h data hp] at he
      rcases (h.mem_addPending hp).1 he with rfl | he
      · exact .inr (.inl ⟨a, data, rfl, hp, rfl⟩)
      · exact .inl he
  | setDeliverable m junk =>
    cases hp : q.pendingSeqs.lookup m.key with
    | none =>
      have hh : q.handed (.setDeliverable m junk) = [] := by simp only [handed, hp]
      rw [hh, HoldBackQueue.call, setDeliverable_of_none hp] at he
      exact .inl (he.resolve_right List.not_mem_nil)
    | some v =>
      rcases h.of_mem_marked hp ((mem_marked_iff hp).2 he) with rfl | ⟨he, -⟩
      · exact .inr (.inr ⟨m, junk, v, rfl, hp, rfl⟩)
      · exact .inl he

/-! ### Undeliverable entries -/

theorem StemsFrom.data_eq (h : StemsFrom calls e d) (hd : e.deliverable = false) : e.data = d := by
  induction h with
  | insert => rfl
  | final => cases hd
  | stay _ _ ih => exact ih hd

theorem stemsFrom_of_undeliverable (he : e ∈ (reached calls).ordering) (hd : e.deliverable = false) :
    StemsFrom calls e e.data := by
  induction calls using List.reverseRecOn with
  | nil => exact absurd he (OrdSet.not_mem_empty e)
  | append_singleton calls c ih =>
    rw [reached_concat] at he
    rcases (inv_reached calls).mem_call (.inl he) with he | ⟨a, data, rfl, hp, rfl⟩ | ⟨m, junk, v, -, -, rfl⟩
    · exact .stay he (ih he)
    · exact .insert hp
    · cases hd

/-! ### All entries -/

/-- Where the final entry of a message stems from. -/
theorem StemsFrom.of_final (h : StemsFrom (calls ++ [.setDeliverable m junk]) (finalEntry m junk) d) :
    finalEntry m junk ∈ (reached calls).ordering ∨
      ∃ u ∈ (reached calls).ordering, u.deliverable = false ∧ u.pmk = m.key ∧ u.data = d := by
  generalize hcalls : calls ++ [QueueCall.setDeliverable m junk] = calls' at h
  generalize hentry : finalEntry m junk = e at h
  cases h with
  | insert => cases congrArg PendingMessage.deliverable hentry
  | @final calls' m' junk' d u he hd hk h =>
    obtain ⟨rfl, hc⟩ := List.append_inj' hcalls rfl
    cases hc
    exact .inr ⟨u, he, hd, hk, h.data_eq hd⟩
  | stay he =>
    obtain ⟨rfl, -⟩ := List.append_inj' hcalls rfl
    exact .inl he

theorem picksUp_of_stemsFrom (h : q.Inv) (hp : q.pendingSeqs.lookup m.key = some v)
    (hfinal : finalEntry m junk ∈ q.marked m v junk → finalEntry m junk ∈ q.ordering ∨
      ∃ u ∈ q.ordering, u.deliverable = false ∧ u.pmk = m.key ∧ u.data = junk) :
    q.PicksUp (.setDeliverable m junk) := by
  intro u hu hud huk
  obtain ⟨e, he, hd, hk, hs⟩ := exists_final_mem_marked q m v junk
  have hold : e ∈ q.ordering →
      ∃ c ∈ q.ordering.toList, c.deliverable = true ∧ c.pmk = m.key ∧ c.pms.seq = m.finalSeq :=
    fun he => ⟨e, he, hd, hk, hs⟩
  rcases h.of_mem_marked hp he with rfl | ⟨he, -⟩
  · rcases hfinal he with he | ⟨u', hu', hud', huk', hdata⟩
    · exact .inr (hold he)
    · rw [h.undeliverable_unique hu hu' hud hud' (huk.trans huk'.symm)]
      exact .inl hdata
  · exact .inr (hold he)

theorem stemsFrom_final (hq : (reached calls).PicksUp (.setDeliverable m junk))
    (hall : ∀ e ∈ (reached calls).ordering, StemsFrom calls e e.data)
    (hp : (reached calls).pendingSeqs.lookup m.key = some v)
    (he : finalEntry m junk ∈ (reached calls).marked m v junk) :
    StemsFrom (calls ++ [.setDeliverable m junk]) (finalEntry m junk) junk := by
  have h := inv_reached calls
  obtain ⟨u, hu, hud, huk, -⟩ := (h.pending_iff _ _).1 hp
  rcases hq u hu hud huk with rfl | ⟨c, hc, hcd, hck, hcs⟩
  · exact .final hu hud huk (hall u hu)
  · -- the final entry was there before
    have hcm : c ∈ (reached calls).marked m v junk := h.mem_marked_of_mem hp hc (by simp [hcd])
    have heq : c = finalEntry m junk :=
      OrdSet.eq_of_equivalent hcm he (PendingMessage.equivalent_iff.2 ⟨hcs, hcd, hck⟩)
    have hstem := hall c hc
    rw [heq] at hc hstem
    exact .stay hc hstem

/-- One call keeps the payloads exactly if it meets its guard. -/
theorem stemsFrom_call_iff (hall : ∀ e ∈ (reached calls).ordering, StemsFrom calls e e.data) (c : QueueCall) :
    (∀ e, e ∈ (reached (calls ++ [c])).ordering ∨ e ∈ (reached calls).handed c → StemsFrom (calls ++ [c]) e e.data) ↔
      (reached calls).PicksUp c := by
  have h := inv_reached calls
  rw [reached_concat]
  constructor
  · intro hkept
    cases c with
    | lookup | insertUndeliverable => trivial
    | setDeliverable m junk =>
      cases hp : (reached calls).pendingSeqs.lookup m.key with
      | none =>
        intro u hu hud huk
        cases (huk ▸ h.lookup_of_mem hu hud).symm.trans hp
      | some v =>
        exact picksUp_of_stemsFrom h hp fun he => (hkept _ ((mem_marked_iff hp).1 he)).of_final
  · intro hq e he
    rcases h.mem_call he with hold | ⟨a, data, rfl, hp, rfl⟩ | ⟨m, junk, v, rfl, hp, rfl⟩
    · exact .stay hold (hall e hold)
    · exact .insert hp
    · exact stemsFrom_final hq hall hp ((mem_marked_iff hp).2 he)

theorem stemsFrom_of_along (hq : machine.Along PicksUp calls) :
    ∀ e ∈ (reached calls).ordering, StemsFrom calls e e.data := by
  induction calls using List.reverseRecOn with
  | nil => exact fun e he => absurd he (OrdSet.not_mem_empty e)
  | append_singleton calls c ih =>
    obtain ⟨hq, hc⟩ := (Lts.along_concat (run_reached calls)).1 hq
    exact fun e he => (stemsFrom_call_iff (ih hq) c).2 hc e (.inl he)

/-- An undeliverable entry always has the data its message was inserted with. Every entry has it, in the queue and
when it is handed to `deliver`, if and only if every call that makes a message final finds the data in the
memory of the new entry. -/
theorem payload_survives_iff (calls : List QueueCall) :
    (∀ e ∈ (reached calls).ordering, e.deliverable = false → StemsFrom calls e e.data) ∧
    ((∀ calls₁ c, calls₁ ++ [c] <+: calls →
      ∀ e, e ∈ (reached (calls₁ ++ [c])).ordering ∨ e ∈ (reached calls₁).handed c →
        StemsFrom (calls₁ ++ [c]) e e.data) ↔ machine.Along PicksUp calls) := by
  refine ⟨fun e he hd => stemsFrom_of_undeliverable he hd, fun hkept => ?_, fun hq calls₁ c hpre => ?_⟩
  · rintro calls₁ c calls₂ q rfl hrun
    obtain rfl := hrun.unique (run_reached calls₁)
    refine (stemsFrom_call_iff ?_ c).1 (hkept calls₁ c ⟨calls₂, by simp⟩)
    cases calls₁ using List.reverseRecOn with
    | nil => exact fun e he => absurd he (OrdSet.not_mem_empty e)
    | append_singleton calls₀ c₀ => exact fun e he => hkept calls₀ c₀ ⟨c :: calls₂, by simp⟩ e (.inl he)
  · obtain ⟨calls₂, rfl⟩ := hpre
    obtain ⟨hq, hc⟩ := (Lts.along_concat (run_reached calls₁)).1 hq.append_left
    exact (stemsFrom_call_iff (stemsFrom_of_along hq) c).2 hc

end HoldBackQueue

/-- Two messages are inserted, and the second becomes final while the first is pending. -/
def lostCalls : List QueueCall :=
  [.insertUndeliverable { sender := 0, msgId := 7, proposedSeq := 1, proposer := 0 } 50,
    .insertUndeliverable { sender := 0, msgId := 8, proposedSeq := 2, proposer := 0 } 60,
    .setDeliverable { sender := 0, msgId := 8, finalSeq := 2, finalSeqProposer := 0 } 99]

/-- The second message is in the queue with a payload that no message was inserted with. -/
theorem payload_lost : (∃ e ∈ (HoldBackQueue.reached lostCalls).ordering.toList,
    e.pmk = ⟨0, 8⟩ ∧ e.deliverable = true ∧ e.data = 99) ∧
    ∀ a data, QueueCall.insertUndeliverable a data ∈ lostCalls → data ≠ 99 := by
  refine ⟨by decide, fun a data h => ?_⟩
  simp only [lostCalls, List.mem_cons, QueueCall.insertUndeliverable.injEq, reduceCtorEq, List.not_mem_nil,
    or_false] at h
  rcases h with ⟨-, rfl⟩ | ⟨-, rfl⟩ <;> decide

end IsisMulticast

import IsisMulticast.TotalOrder
import IsisMulticast.Replays

/-!
# At most one delivery

A message that was delivered can be inserted again by a late copy of its data message (`Replays`). If
then a late copy of its sequence message is handled too, it is delivered a second time
(`late_copies_deliver_twice`). This is the only way: `at_most_once_iff`.
-/

namespace IsisMulticast
open Lib

/-- The step hands a server no sequence message of a message that was delivered and is pending again. -/
def NotReinserted (cfg : Config) (s : Sys) : Label → Prop
  | .serve lk j _ => ∀ b ∈ (s.requests lk)[j]?, ∀ m ∈ seqMsgFromBuf (cfg.host lk.server) b,
      Delivered (s.log lk.server) m.key → (s.servers lk.server).pending m.key = none
  | _ => True

instance (cfg : Config) (s : Sys) : DecidablePred (NotReinserted cfg s)
  | .serve .. => Option.decidableForallMem _
  | .launch .. | .lock .. | .send .. | .timeout .. | .receive .. => .isTrue trivial

namespace Server

variable {cfg : Config} {id : Word} {sv : Server} {m : SeqMessage}

/-- A delivered message that is pending again is delivered at once. -/
theorem Ordered.redelivered (h : sv.Ordered) (hinv : sv.Inv cfg id) (hm : sv.Conforming m) (junk : Word)
    (hd : Delivered sv.log m.key) (hp : sv.pending m.key ≠ none) :
    m.untyped ∈ deliveries sv.log ∧ m.untyped ∈ (sv.queue.setDeliverable m junk).1 := by
  obtain ⟨d, hd, hdk⟩ := hd
  obtain rfl := hm.agree d (hinv.delivered d hd) hdk
  refine ⟨hd, ?_⟩
  obtain ⟨v, hv⟩ := Option.ne_none_iff_exists'.1 hp
  rcases hm.final_of_pending hinv junk hv with hnew | ⟨e, he, -, heq⟩
  · exact hnew
  · exact absurd hd (h.not_delivered_of_left hinv he heq)

/-- What a sequence message delivers was not delivered before, unless it is its own message, pending again. -/
theorem Ordered.not_delivered (h : sv.Ordered) (hinv : sv.Inv cfg id) {junk : Word}
    (hnot : Delivered sv.log m.key → sv.pending m.key = none) {d : SeqMessage}
    (hd : d ∈ (sv.queue.setDeliverable m junk).1) : d ∉ deliveries sv.log := by
  intro hold
  rcases hinv.queue.setDeliverable_delivered hd with rfl | ⟨e, he, hed, rfl⟩
  · rw [HoldBackQueue.setDeliverable_of_none (hnot ⟨_, hold, rfl⟩)] at hd
    simp at hd
  · have hb := h.before_deliverable _ hold e he hed
    exact hb.asymm hb

end Server

variable {cfg : Config} {s s' : Sys} {l : Label} {ls : List Label}

namespace Sys.Inv

theorem nodup_keys_iff (h : s.Inv cfg) {q : Word} (hq : q.toNat < cfg.n) :
    ((deliveries (s.log q)).map SeqMessage.key).Nodup ↔ (deliveries (s.log q)).Nodup :=
  ⟨.of_map _, fun hn => hn.map_on (h.deliveries_inj hq)⟩

theorem nodup_step (h : s.Inv cfg) (hs : Step cfg s l s') (hl : NotReinserted cfg s l) {q : Word}
    (hq : q.toNat < cfg.n) (ho : (s.servers q).Ordered) (hn : (deliveries (s.log q)).Nodup) :
    (deliveries (s'.log q)).Nodup := by
  have hsv := h.server q hq
  have hh := h.handles hs q
  rw [Sys.log] at hn ⊢
  generalize s'.servers q = sv' at hh ⊢
  cases hh with
  | idle => exact hn
  | data =>
    rw [hsv.deliveries_acceptData]
    exact hn
  | @seq lk j junk m hlab hlq hm hs hreq =>
    subst hlab hlq
    rw [Server.deliveries_acceptSeq]
    have hnot := hl _ hreq _ (seqMsgFromBuf_sendSeqMsg _ _ _)
    refine List.nodup_append.2 ⟨hn, ?_, fun d hd d' hd' heq => ?_⟩
    · exact (HoldBackQueue.pairwise_setDeliverable _ _ _).imp fun hb heq => (heq ▸ hb).asymm (heq ▸ hb)
    · exact ho.not_delivered hsv hnot hd' (heq ▸ hd)

/-- A step keeps the deliveries of all processes without repetition exactly when it hands over no sequence
message of a message that was delivered and is pending again. -/
theorem nodup_step_iff (h : s.Inv cfg) (hs : Step cfg s l s') (ho : ∀ q, q.toNat < cfg.n → (s.servers q).Ordered)
    (hn : ∀ q, q.toNat < cfg.n → (deliveries (s.log q)).Nodup) :
    (∀ q, q.toNat < cfg.n → (deliveries (s'.log q)).Nodup) ↔ NotReinserted cfg s l := by
  refine ⟨fun hn' => ?_, fun hl q hq => h.nodup_step hs hl hq (ho q hq) (hn q hq)⟩
  cases hs with
  | @serve lk j junk b hb hid hl =>
    intro b' hb' m hm hdel
    obtain rfl := Option.some.inj (hb.symm.trans hb')
    by_contra hp
    have hserves := h.serves hb junk
    generalize s.served lk j _ = s' at hserves hn'
    cases hserves with
    | data _ _ hreq =>
      obtain rfl := Option.some.inj (hb.symm.trans hreq)
      simp at hm
    | @seq m' hdec _ hreq =>
      obtain rfl := Option.some.inj (hb.symm.trans hreq)
      rw [Option.mem_def, seqMsgFromBuf_sendSeqMsg, Option.some.injEq] at hm
      subst hm
      have hsv := h.server _ hid
      obtain ⟨hold, hnew⟩ := (ho _ hid).redelivered hsv (h.conforming hdec hid _) junk hdel hp
      have hdup := hn' _ hid
      rw [Sys.log, servers_served, Server.deliveries_acceptSeq] at hdup
      exact (List.nodup_append.1 hdup).2.2 _ hold _ hnew rfl
  | _ => trivial

theorem nodup_deliveries (hd : DistinctIds ls) (hw : cfg.lts.Along NoWrap ls)
    (hl : cfg.lts.Along (NotReinserted cfg) ls) (hrun : cfg.lts.Run ls s) {q : Word} (hq : q.toNat < cfg.n) :
    (deliveries (s.log q)).Nodup := by
  refine (induction (P := fun s => (s.servers q).Ordered ∧ (deliveries (s.log q)).Nodup)
    ⟨Server.ordered_init _ _, List.nodup_nil⟩ ?_ hd (hw.and hl) hrun).2
  intro s l s' h hP hG hs
  exact ⟨h.ordered_step hs hG.1 hq hP.1, h.nodup_step hs hG.2 hq hP.1 hP.2⟩

end Sys.Inv

theorem notReinserted_of_notLate (hd : DistinctIds ls) (hl : cfg.lts.Along (NotLate cfg) ls) :
    cfg.lts.Along (NotReinserted cfg) ls := by
  rintro ls₁ l ls₂ s rfl hrun
  match l with
  | .serve lk j junk =>
    rintro b hb m - ⟨d, hd', hdk⟩
    have h := Sys.Inv.of_run hd.append_left hrun
    have hq := (h.request lk b (List.mem_of_getElem? hb)).1
    exact (single_of_notLate hd.append_left hl.append_left hrun hq).settled m.key
      ⟨d, (h.server _ hq).delivered d hd', hdk⟩
  | .launch _ _ _ _ | .lock _ | .send _ | .timeout _ | .receive _ _ _ => trivial

/-- Integrity. No process calls `deliver` twice for a message in any state of a run, exactly if no step of the
run hands a server a sequence message of a message that the server has delivered and that is pending
again. -/
theorem at_most_once_iff (hd : DistinctIds ls) (hw : cfg.lts.Along NoWrap ls) (hrun : cfg.lts.Run ls s) :
    (∀ ls₁ s₁, ls₁ <+: ls → cfg.lts.Run ls₁ s₁ → ∀ q, q.toNat < cfg.n →
      ((deliveries (s₁.log q)).map SeqMessage.key).Nodup) ↔ cfg.lts.Along (NotReinserted cfg) ls := by
  rw [← Lts.along_iff_forall (M := cfg.lts) (P := fun s : Sys => ∀ q, q.toNat < cfg.n → (deliveries (s.log q)).Nodup)
    (fun q _ => List.nodup_nil) ?_ hrun]
  · refine forall₂_congr fun ls₁ s₁ => forall₂_congr fun hpre hrun₁ => forall₂_congr fun q hq => ?_
    exact (Sys.Inv.of_run (hd.of_prefix hpre) hrun₁).nodup_keys_iff hq
  · intro ls₁ s₁ l s₂ hpre hrun₁ hs hn
    have hpre₁ := (List.prefix_append _ _).trans hpre
    have h := Sys.Inv.of_run (hd.of_prefix hpre₁) hrun₁
    refine h.nodup_step_iff (step_iff.1 hs) (fun q hq => ?_) hn
    exact Sys.Inv.ordered (hd.of_prefix hpre₁) (hw.of_prefix hpre₁) hrun₁ hq

/-- After the message was delivered, the network delivers a second copy of its data message and then one of
its sequence message. -/
def lateCopiesRun : List Label :=
  [.launch 0 0 7 9] ++ callAnswered 0 ⟨0, 0⟩ 0 ++ callAnswered 0 ⟨0, 0⟩ 1 ++ [.serve ⟨0, 0⟩ 0 0, .serve ⟨0, 0⟩ 1 0]

theorem late_copies_deliver_twice : DistinctIds lateCopiesRun ∧ single.lts.Along NoWrap lateCopiesRun ∧
    ∃ s, single.lts.Run lateCopiesRun s ∧ (deliveries (s.log 0)).map SeqMessage.key = [⟨0, 7⟩, ⟨0, 7⟩] := by
  refine ⟨by decide, by decide, ?_⟩
  have h : (single.lts.exec lateCopiesRun).map (fun s => (deliveries (s.log 0)).map SeqMessage.key) =
      some [⟨0, 7⟩, ⟨0, 7⟩] := by decide
  exact Option.map_eq_some_iff.1 h

theorem at_most_once_iff_pairRun : ∃ s, pair.lts.Run pairRun s ∧ Delivered (s.log 1) ⟨0, 7⟩ ∧
    ((deliveries (s.log 1)).map SeqMessage.key).Nodup := by
  obtain ⟨s, hrun, -, hdel⟩ := exists_run_pairRun
  have honce := (at_most_once_iff distinctIds_pairRun noWrap_pairRun hrun).2 (by decide)
  exact ⟨s, hrun, ⟨pairFirst, by simp [hdel], rfl⟩, honce pairRun s (List.prefix_refl _) hrun 1 (by decide)⟩

end IsisMulticast

import IsisMulticast.NoLoss

/-!
# Replayed data messages

A replay of a data message is recognised by the map of pending messages, from which the sequence message
has removed it. A copy of the data message that is handled after the sequence message is therefore
taken for a new message: it gets a second number and an entry that is undeliverable
(`late_data_second_proposal`). `NotLate` rules such copies out, and `one_proposal_iff` says that a process
proposes one number for each message and keeps no entry of a message after its sequence message,
except a deliverable one, exactly in the runs that meet `NotLate` at every step.
-/

namespace IsisMulticast
open Lib

/-- The step hands a server no data message after a sequence message of the same message. -/
def NotLate (cfg : Config) (s : Sys) : Label → Prop
  | .serve lk j _ => ∀ b ∈ (s.requests lk)[j]?, ∀ m ∈ dataMsgFromBuf (cfg.host lk.server) b,
      ¬ HandledSeq (s.log lk.server) m.key
  | _ => True

instance (cfg : Config) (s : Sys) : DecidablePred (NotLate cfg s)
  | .serve .. => Option.decidableForallMem _
  | .launch .. | .lock .. | .send .. | .timeout .. | .receive .. => .isTrue trivial

/-- One number for each message, and no pending entry after the sequence message. -/
structure Server.Single (sv : Server) : Prop where
  one : ∀ k, ∀ x ∈ proposals sv.log k, ∀ y ∈ proposals sv.log k, x = y
  settled : ∀ k, HandledSeq sv.log k → sv.pending k = none

namespace Server

variable {cfg : Config} {id : Word} {sv : Server}

theorem single_init (p : Process) (b : Bool) : Single ⟨p, b, []⟩ :=
  ⟨fun k x hx => by simp [proposals, acks] at hx, fun k hk => by obtain ⟨m, hm, -⟩ := hk; simp [finals] at hm⟩

theorem Single.acceptData (h : sv.Single) (hinv : sv.Inv cfg id) {m : DataMessage}
    (hnot : ¬ HandledSeq sv.log m.key) : (sv.after (sv.process.acceptData m)).Single := by
  have hinv' := hinv.acceptData m
  obtain ⟨a, hlog, hak⟩ := hinv.log_acceptData m
  have hseq : ∀ k, HandledSeq (sv.after (sv.process.acceptData m)).log k → HandledSeq sv.log k := by
    rintro k ⟨m', hm', hk⟩
    exact ⟨m', hinv.finals_acceptData m ▸ hm', hk⟩
  refine ⟨fun k x hx y hy => ?_, fun k hk => ?_⟩
  · by_cases hk : k = m.key
    · -- all proposals are the number of the pending entry
      subst hk
      have hfirst := hinv'.first m.key fun hs => hnot (hseq _ hs)
      have heq := (hfirst x hx).symm.trans (hfirst y hy)
      simpa using heq
    · rw [hlog, proposals_append, proposals_data, if_neg fun hc => hk (hc.symm.trans hak), List.append_nil] at hx hy
      exact h.one k x hx y hy
  · have hk' := hseq k hk
    rw [hinv.pending_acceptData_of_ne fun hc => hnot (hc ▸ hk')]
    exact h.settled k hk'

theorem Single.acceptSeq (h : sv.Single) (m : SeqMessage) (junk : Word) :
    (sv.after (sv.process.acceptSeq m junk)).Single := by
  refine ⟨fun k x hx y hy => ?_, fun k hk => ?_⟩
  · rw [proposals_acceptSeq] at hx hy
    exact h.one k x hx y hy
  · rw [pending_acceptSeq]
    split_ifs with hkm
    · rfl
    · obtain ⟨m', hm', hk'⟩ := hk
      rw [finals_acceptSeq, List.mem_append, List.mem_singleton] at hm'
      rcases hm' with hm' | rfl
      · exact h.settled k ⟨m', hm', hk'⟩
      · exact absurd hk'.symm hkm

end Server

variable {cfg : Config} {s s' : Sys} {l : Label} {ls : List Label}

namespace Sys.Inv

theorem single_step (h : s.Inv cfg) (hs : Step cfg s l s') (hl : NotLate cfg s l) {q : Word} (hq : q.toNat < cfg.n)
    (hq1 : (s.servers q).Single) : (s'.servers q).Single := by
  have hh := h.handles hs q
  generalize s'.servers q = sv' at hh ⊢
  cases hh with
  | idle => exact hq1
  | data hlab hlq hm hs hreq =>
    subst hlab hlq
    exact hq1.acceptData (h.server _ hq) (hl _ hreq _ (dataMsgFromBuf_sendDataMsg _ _ _))
  | seq => exact hq1.acceptSeq _ _

theorem pending_of_data (h : s.Inv cfg) {lk : Link} {j : Nat} {junk : Word} (hs : Step cfg s (.serve lk j junk) s')
    {b : Buf} (hb : (s.requests lk)[j]? = some b) {m : DataMessage}
    (hm : dataMsgFromBuf (cfg.host lk.server) b = some m) : (s'.servers lk.server).pending m.key ≠ none := by
  have hsv := h.server _ (h.request lk b (List.mem_of_getElem? hb)).1
  cases hs with
  | serve hb' hid hl =>
    obtain rfl := Option.some.inj (hb.symm.trans hb')
    have hserves := h.serves hb junk
    generalize s.served lk j _ = s' at hserves ⊢
    cases hserves with
    | data _ _ hreq =>
      obtain rfl := Option.some.inj (hb.symm.trans hreq)
      rw [dataMsgFromBuf_sendDataMsg, Option.some.injEq] at hm
      subst hm
      rw [servers_served]
      exact hsv.pending_acceptData_self _
    | seq _ _ hreq =>
      obtain rfl := Option.some.inj (hb.symm.trans hreq)
      simp at hm

end Sys.Inv

/-- A step keeps `Single` exactly when it hands over no late data message. -/
theorem Sys.Inv.single_step_iff (h : s.Inv cfg) (hs : Step cfg s l s')
    (hone : ∀ q, q.toNat < cfg.n → (s.servers q).Single) :
    (∀ q, q.toNat < cfg.n → (s'.servers q).Single) ↔ NotLate cfg s l := by
  refine ⟨fun hone' => ?_, fun hl q hq => h.single_step hs hl hq (hone q hq)⟩
  match l with
  | .serve lk j junk =>
    intro b hb m hm hseq
    have hq := (h.request lk b (List.mem_of_getElem? hb)).1
    exact h.pending_of_data hs hb hm ((hone' _ hq).settled m.key (hs.le.handledSeq hseq))
  | .launch _ _ _ _ | .lock _ | .send _ | .timeout _ | .receive _ _ _ => trivial

theorem single_of_notLate (hd : DistinctIds ls) (hl : cfg.lts.Along (NotLate cfg) ls) (hrun : cfg.lts.Run ls s)
    {q : Word} (hq : q.toNat < cfg.n) : (s.servers q).Single :=
  Sys.Inv.induction (P := fun s => (s.servers q).Single) (Server.single_init _ _)
    (fun _ _ _ h hq1 hl hs => h.single_step hs hl hq hq1) hd hl hrun

theorem Server.Inv.single_iff {id : Word} {sv : Server} (h : sv.Inv cfg id) : sv.Single ↔ ∀ k,
    (∀ a ∈ acks sv.log, ∀ a' ∈ acks sv.log, a.key = k → a'.key = k → a.proposedSeq = a'.proposedSeq) ∧
    (HandledSeq sv.log k → ∀ e ∈ sv.queue.ordering, e.pmk = k → e.deliverable = true) := by
  constructor
  · intro hone k
    refine ⟨fun a ha a' ha' hk hk' => ?_, fun hs => h.pending_eq_none.1 (hone.settled k hs)⟩
    exact hone.one k _ (mem_proposals.2 ⟨a, ha, hk, rfl⟩) _ (mem_proposals.2 ⟨a', ha', hk', rfl⟩)
  · intro hall
    refine ⟨fun k x hx y hy => ?_, fun k hs => h.pending_eq_none.2 ((hall k).2 hs)⟩
    obtain ⟨a, ha, hk, rfl⟩ := mem_proposals.1 hx
    obtain ⟨a', ha', hk', rfl⟩ := mem_proposals.1 hy
    exact (hall k).1 a ha a' ha' hk hk'

/-- A process sends the same number in all its acks for a message, and after its sequence message holds no
undeliverable entry for it, in every state of a run, exactly if no step of the run hands a server a
data message after the sequence message. -/
theorem one_proposal_iff (hd : DistinctIds ls) (hrun : cfg.lts.Run ls s) :
    (∀ ls₁ s₁, ls₁ <+: ls → cfg.lts.Run ls₁ s₁ → ∀ q, q.toNat < cfg.n → ∀ k,
      (∀ a ∈ acks (s₁.log q), ∀ a' ∈ acks (s₁.log q), a.key = k → a'.key = k → a.proposedSeq = a'.proposedSeq) ∧
      (HandledSeq (s₁.log q) k → ∀ e ∈ (s₁.servers q).queue.ordering, e.pmk = k → e.deliverable = true)) ↔
    cfg.lts.Along (NotLate cfg) ls := by
  rw [← Lts.along_iff_forall (M := cfg.lts) (P := fun s => ∀ q, q.toNat < cfg.n → (s.servers q).Single)
    (fun q _ => Server.single_init _ _) ?_ hrun]
  · refine forall₂_congr fun ls₁ s₁ => forall₂_congr fun hpre hrun₁ => forall₂_congr fun q hq => ?_
    exact ((Sys.Inv.of_run (hd.of_prefix hpre) hrun₁).server q hq).single_iff.symm
  · intro ls₁ s₁ l s₂ hpre hrun₁ hs hone
    have h := Sys.Inv.of_run (hd.of_prefix ((List.prefix_append _ _).trans hpre)) hrun₁
    exact h.single_step_iff (step_iff.1 hs) hone

/-- The network delivers the data message a second time, after the message was delivered. -/
def lateDataRun : List Label :=
  [.launch 0 0 7 9] ++ callAnswered 0 ⟨0, 0⟩ 0 ++ callAnswered 0 ⟨0, 0⟩ 1 ++ [.serve ⟨0, 0⟩ 0 0]

/-- The process has then proposed 1 and 2 for the message, and holds an undeliverable entry for it though
its sender has finished. -/
theorem late_data_second_proposal : DistinctIds lateDataRun ∧ ∃ s, single.lts.Run lateDataRun s ∧
    acks (s.log 0) = [{ sender := 0, msgId := 7, proposedSeq := 1, proposer := 0 },
      { sender := 0, msgId := 7, proposedSeq := 2, proposer := 0 }] ∧
    HandledSeq (s.log 0) ⟨0, 7⟩ ∧ (s.servers 0).queue.ordering.toList = [⟨⟨0, 7⟩, ⟨2, 0⟩, 9, false⟩] ∧
    (s.senders 0).map (·.isFinished) = some true := by
  refine ⟨by decide, ?_⟩
  have h : (single.lts.exec lateDataRun).map (fun s =>
      (acks (s.log 0), (finals (s.log 0)).map (·.key), (s.servers 0).queue.ordering.toList,
        (s.senders 0).map (·.isFinished))) =
      some ([{ sender := 0, msgId := 7, proposedSeq := 1, proposer := 0 },
        { sender := 0, msgId := 7, proposedSeq := 2, proposer := 0 }], [⟨0, 7⟩],
        [⟨⟨0, 7⟩, ⟨2, 0⟩, 9, false⟩], some true) := by decide
  obtain ⟨s, hrun, heq⟩ := Option.map_eq_some_iff.1 h
  simp only [Prod.mk.injEq] at heq
  obtain ⟨hacks, hfinals, hord, hfin⟩ := heq
  exact ⟨s, hrun, hacks, List.mem_map.1 (hfinals ▸ List.mem_singleton_self _), hord, hfin⟩

/-- `pairRun` has no late data message, so each process has proposed one number for each message. -/
theorem one_proposal_iff_pairRun : pair.lts.Along (NotLate pair) pairRun ∧ ∃ s, pair.lts.Run pairRun s ∧
    ∀ a ∈ acks (s.log 1), ∀ a' ∈ acks (s.log 1), a.key = ⟨0, 7⟩ → a'.key = ⟨0, 7⟩ → a.proposedSeq = a'.proposedSeq := by
  have hnot : pair.lts.Along (NotLate pair) pairRun := by decide
  obtain ⟨s, hrun, -⟩ := exists_run_pairRun
  have hone := (one_proposal_iff distinctIds_pairRun hrun).2 hnot
  exact ⟨hnot, s, hrun, (hone pairRun s (List.prefix_refl _) hrun 1 (by decide) ⟨0, 7⟩).1⟩

end IsisMulticast

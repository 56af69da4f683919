import IsisMulticast.Ordered

/-!
# Total order

At every process the first deliveries are in the order of `(final_seq, sender, msg_id)`, and nothing that
is decided is missing below what was delivered: the message is held by every process, and a held
message has a number that was not passed yet. So the first deliveries of two processes are initial
segments of one sequence (`total_order`). As the counter of a process is above every final number it has
seen, a message sent later is also ordered later (`causal_order`).
-/

namespace IsisMulticast
open Lib

variable {cfg : Config} {s s' : Sys} {l : Label} {ls ls' : List Label}

namespace Sys.Inv

section
variable {p : Word} (h : s.Inv cfg) (hp : p.toNat < cfg.n)
include h hp

theorem deliveries_inj : ∀ a ∈ deliveries (s.log p), ∀ b ∈ deliveries (s.log p), a.key = b.key → a = b :=
  fun _ ha _ hb hk => h.decided_unique (h.decided_of_delivered hp ha) (h.decided_of_delivered hp hb) hk

theorem mem_firstDeliveries {m : SeqMessage} : m ∈ firstDeliveries (s.log p) ↔ m ∈ deliveries (s.log p) :=
  mem_firstsBy (h.deliveries_inj hp)

/-- No gap: what is decided and below a delivered message is delivered. -/
theorem delivered_of_before (ho : (s.servers p).Ordered) {d m : SeqMessage} (hd : d ∈ deliveries (s.log p))
    (hm : s.Decided m) (hb : m.Before d) : m ∈ deliveries (s.log p) := by
  by_contra hnd
  have hunt : m.untyped = m := (h.decision hm).untyped
  have hdm := ho.before_final (h.server p hp) (h.conforming hm hp m.type) (hunt.symm ▸ hnd) hd
  exact hb.asymm (hunt ▸ hdm)

theorem mem_of_before (ho : (s.servers p).Ordered) {l₁ l₂ : List SeqMessage} {d m : SeqMessage}
    (hdel : deliveries (s.log p) = l₁ ++ d :: l₂) (hm : s.Decided m) (hb : m.Before d) : m ∈ l₁ := by
  have hd : d ∈ deliveries (s.log p) := by simp [hdel]
  have hmd := h.delivered_of_before hp ho hd hm hb
  have hinj := h.deliveries_inj hp
  have hsplit : deliveries (s.log p) = (l₁ ++ [d]) ++ l₂ := by simp [hdel]
  -- the first deliveries up to `d` are an initial segment of all of them
  obtain ⟨rest, hrest⟩ : firstsBy SeqMessage.key (l₁ ++ [d]) <+: firstDeliveries (s.log p) := by
    rw [firstDeliveries, hsplit]; exact firstsBy_prefix_append
  have hsub : ∀ a ∈ l₁ ++ [d], a ∈ deliveries (s.log p) := fun a ha => by
    rw [hsplit]; exact List.mem_append_left _ ha
  have hd₁ : d ∈ firstsBy SeqMessage.key (l₁ ++ [d]) :=
    (mem_firstsBy fun a ha b hb => hinj a (hsub a ha) b (hsub b hb)).2 (by simp)
  have hsorted : (firstsBy SeqMessage.key (l₁ ++ [d]) ++ rest).Pairwise SeqMessage.Before := hrest ▸ ho.sorted
  have hmem := mem_left_of_pairwise (fun _ _ h => h.asymm) hsorted hd₁
    (hrest ▸ (h.mem_firstDeliveries hp).2 hmd) hb
  rcases List.mem_append.1 (firstsBy_sublist.subset hmem) with hmem | hmem
  · exact hmem
  · obtain rfl := List.mem_singleton.1 hmem
    exact absurd hb hb.asymm

end

theorem firstDeliveries_prefix (h : s.Inv cfg) {p q : Word} (hp : p.toNat < cfg.n) (hq : q.toNat < cfg.n)
    (hop : (s.servers p).Ordered) (hoq : (s.servers q).Ordered) :
    firstDeliveries (s.log p) <+: firstDeliveries (s.log q) ∨ firstDeliveries (s.log q) <+: firstDeliveries (s.log p) := by
  refine prefix_or_prefix (fun _ _ h => h.asymm) hop.sorted hoq.sorted (fun a ha b hb => ?_)
    (fun a ha b hb hba => ?_) (fun a ha b hb hab => ?_) <;>
    have ha := (h.mem_firstDeliveries hp).1 ha <;> have hb := (h.mem_firstDeliveries hq).1 hb
  · by_cases hk : a.key = b.key
    · exact .inl (h.decided_unique (h.decided_of_delivered hp ha) (h.decided_of_delivered hq hb) hk)
    · exact .inr (SeqMessage.Before.trichotomy hk)
  · exact (h.mem_firstDeliveries hp).2 (h.delivered_of_before hp hop ha (h.decided_of_delivered hq hb) hba)
  · exact (h.mem_firstDeliveries hq).2 (h.delivered_of_before hq hoq hb (h.decided_of_delivered hp ha) hab)

end Sys.Inv

/-- Total order. At every process the first deliveries are strictly increasing, every delivery comes
after that of all smaller messages whose number is decided, and of two processes one has delivered
first what the other has, and maybe more. -/
theorem total_order (hd : DistinctIds ls) (hw : cfg.lts.Along NoWrap ls) (hrun : cfg.lts.Run ls s) :
    (∀ p, p.toNat < cfg.n → (firstDeliveries (s.log p)).Pairwise SeqMessage.Before ∧
      ∀ l₁ d l₂, deliveries (s.log p) = l₁ ++ d :: l₂ → ∀ m, s.Decided m → m.Before d → m ∈ l₁) ∧
    ∀ p q, p.toNat < cfg.n → q.toNat < cfg.n →
      firstDeliveries (s.log p) <+: firstDeliveries (s.log q) ∨
        firstDeliveries (s.log q) <+: firstDeliveries (s.log p) := by
  have h := Sys.Inv.of_run hd hrun
  have ho : ∀ p, p.toNat < cfg.n → (s.servers p).Ordered := fun p hp => Sys.Inv.ordered hd hw hrun hp
  refine ⟨fun p hp => ⟨(ho p hp).sorted, fun l₁ d l₂ hdel m hm hb => ?_⟩, fun p q hp hq => ?_⟩
  · exact h.mem_of_before hp (ho p hp) hdel hm hb
  · exact h.firstDeliveries_prefix hp hq (ho p hp) (ho q hq)

/-- In `pairRun` both messages have the final number 2, and the sender decides. -/
theorem total_order_pairRun : ∃ s, pair.lts.Run pairRun s ∧ pairFirst.finalSeq = pairSecond.finalSeq ∧
    (firstDeliveries (s.log 0)).Pairwise SeqMessage.Before ∧
    (firstDeliveries (s.log 0) <+: firstDeliveries (s.log 1) ∨
      firstDeliveries (s.log 1) <+: firstDeliveries (s.log 0)) := by
  obtain ⟨s, hrun, -⟩ := exists_run_pairRun
  obtain ⟨hsorted, hprefix⟩ := total_order distinctIds_pairRun noWrap_pairRun hrun
  exact ⟨s, hrun, rfl, (hsorted 0 (by decide)).1, hprefix 0 1 (by decide) (by decide)⟩

/-! ### Causal order -/

namespace Server

variable {id : Word} {sv : Server} {m : SeqMessage} {k : PendingMessageKey}

/-- The first proposal for `k`, if there is one yet, is above the final number of `m`. -/
def FirstAbove (m : SeqMessage) (k : PendingMessageKey) (sv : Server) : Prop :=
  m ∈ finals sv.log ∧ ∀ x, firstProposal sv.log k = some x → m.finalSeq < x

theorem FirstAbove.acceptData (hm : sv.FirstAbove m k) (hinv : sv.Inv cfg id) (ho : sv.Ordered) {d : DataMessage}
    (hwrap : sv.pending d.key = none → sv.process.seqCounter.toNat + 1 < 2 ^ 32) :
    (sv.after (sv.process.acceptData d)).FirstAbove m k := by
  obtain ⟨hfin, habove⟩ := hm
  refine ⟨(hinv.finals_acceptData d).symm ▸ hfin, fun x hx => ?_⟩
  rcases Process.acceptData_cases hinv.queue d with ⟨v, hv, heq⟩ | ⟨hnone, heq⟩ <;> rw [heq] at hx <;>
    rcases firstProposal_data hx with hx | ⟨hnil, hk, hnew⟩
  · exact habove x hx
  · -- the message would be pending, but nothing was proposed for it
    have hmem := (hinv.pending d.key v hv).2
    rw [show d.key = k from hk, hnil] at hmem
    simp at hmem
  · exact habove x hx
  · -- a new number is above the counter
    obtain rfl : sv.process.seqCounter + 1 = x := hnew
    exact UInt32.lt_of_le_of_lt (ho.final_le m hfin) (lt_add_one (hwrap hnone))

theorem FirstAbove.acceptSeq (hm : sv.FirstAbove m k) (m' : SeqMessage) (junk : Word) :
    (sv.after (sv.process.acceptSeq m' junk)).FirstAbove m k := by
  refine ⟨by simp [hm.1], fun x hx => hm.2 x ?_⟩
  rwa [firstProposal, proposals_acceptSeq] at hx

end Server

namespace Sys.Inv

theorem firstAbove_step (h : s.Inv cfg) (hs : Step cfg s l s') (hl : NoWrap s l) {p : Word} (hp : p.toNat < cfg.n)
    (ho : (s.servers p).Ordered) {m : SeqMessage} {k : PendingMessageKey} (hm : (s.servers p).FirstAbove m k) :
    (s'.servers p).FirstAbove m k := by
  have hsv := h.server p hp
  have hh := h.handles hs p
  generalize s'.servers p = sv' at hh ⊢
  cases hh with
  | idle => exact hm
  | data hlab hlq hd hs hreq =>
    subst hlab hlq
    exact hm.acceptData hsv ho fun hnone => h.noWrap_data hl hp hd hreq hnone
  | seq => exact hm.acceptSeq _ _

/-- From a state on in which `p` has handled the sequence message `m` and no data message of `k`, all numbers
`p` proposes for `k` are above that of `m`. -/
theorem firstAbove (hd : DistinctIds (ls ++ ls')) (hw : cfg.lts.Along NoWrap (ls ++ ls')) (hrun : cfg.lts.Run ls s)
    (hrun' : cfg.lts.Run (ls ++ ls') s') {p : Word} (hp : p.toNat < cfg.n) {m : SeqMessage} {k : PendingMessageKey}
    (hm : m ∈ finals (s.log p)) (hk : k ∉ dataKeys (s.log p)) : (s'.servers p).FirstAbove m k := by
  have hsv := (of_run hd.append_left hrun).server p hp
  have habove : (s.servers p).FirstAbove m k := by
    refine ⟨hm, fun x hx => ?_⟩
    obtain ⟨a, ha, hak, -⟩ := mem_proposals.1 (mem_proposals_of_firstProposal hx)
    exact absurd (hak ▸ (hsv.ack a ha).2) hk
  refine (induction_from (P := fun s => (s.servers p).Ordered ∧ (s.servers p).FirstAbove m k) hrun
    ⟨ordered hd.append_left hw.append_left hrun hp, habove⟩ ?_ hd hw hrun').2
  intro s l s' h hP hl hs
  exact ⟨h.ordered_step hs hl hp hP.1, h.firstAbove_step hs hl hp hP.1 hP.2⟩

end Sys.Inv

/-- Causal order. In a state `s` some process has handled the sequence message `m` and no data message of
`k` yet, or has delivered `m` when no data message of `k` has been sent. Then in every later state `s'` the
final number decided for `k` is above that of `m`, and every process that has delivered `k` has delivered
`m` before. -/
theorem causal_order (hd : DistinctIds (ls ++ ls')) (hw : cfg.lts.Along NoWrap (ls ++ ls')) (hrun : cfg.lts.Run ls s)
    (hrun' : cfg.lts.Run (ls ++ ls') s') {m : SeqMessage} {k : PendingMessageKey}
    (hbefore : ∃ p, p.toNat < cfg.n ∧ (m ∈ finals (s.log p) ∧ k ∉ dataKeys (s.log p) ∨
      m ∈ deliveries (s.log p) ∧ ∀ lk, ∀ b ∈ s.requests lk, ∀ d ∈ dataMsgFromBuf (cfg.host lk.server) b, d.key ≠ k)) :
    (∀ m', s'.Decided m' → m'.key = k → m.finalSeq < m'.finalSeq) ∧
    ∀ q, q.toNat < cfg.n → ∀ l₁ d l₂, deliveries (s'.log q) = l₁ ++ d :: l₂ → d.key = k → m ∈ l₁ := by
  have h := Sys.Inv.of_run hd.append_left hrun
  have h' := Sys.Inv.of_run hd hrun'
  obtain ⟨p, hp, hcase⟩ := hbefore
  obtain ⟨hm, hk⟩ : m ∈ finals (s.log p) ∧ k ∉ dataKeys (s.log p) := by
    rcases hcase with hcase | ⟨hdel, hsent⟩
    · exact hcase
    · refine ⟨(h.server p hp).delivered m hdel, fun hk => ?_⟩
      obtain ⟨d, -, hdk, hreq⟩ := h.handledData p hp k hk
      exact hsent _ _ hreq _ (dataMsgFromBuf_sendDataMsg _ _ _) hdk
  obtain ⟨hfin, habove⟩ := Sys.Inv.firstAbove hd hw hrun hrun' hp hm hk
  have hgt : ∀ m', s'.Decided m' → m'.key = k → m.finalSeq < m'.finalSeq := by
    rintro m' hm' rfl
    obtain ⟨x, hx, hle⟩ := (h'.decision hm').proposed p hp
    exact UInt32.lt_of_lt_of_le (habove x hx) hle
  refine ⟨hgt, fun q hq l₁ d l₂ hdel hdk => ?_⟩
  have hlt := hgt d (h'.decided_of_delivered hq (by simp [hdel])) hdk
  exact h'.mem_of_before hq (Sys.Inv.ordered hd hw hrun' hq) hdel (h'.handledSeq p hp m hfin).1 (.of_finalSeq_lt hlt)

/-- Process 0 multicasts a message, and process 1 another one when it has been delivered everywhere. -/
def firstMulticast : List Label :=
  [.launch 0 0 7 50] ++
  callAnswered 0 ⟨0, 0⟩ 0 ++ callAnswered 0 ⟨0, 1⟩ 0 ++ callAnswered 0 ⟨0, 0⟩ 1 ++ callAnswered 0 ⟨0, 1⟩ 1

@[inherit_doc firstMulticast]
def secondMulticast : List Label :=
  [.launch 1 1 8 60] ++
  callAnswered 1 ⟨1, 0⟩ 0 ++ callAnswered 1 ⟨1, 1⟩ 0 ++ callAnswered 1 ⟨1, 0⟩ 1 ++ callAnswered 1 ⟨1, 1⟩ 1

theorem causal_order_secondMulticast :
    ∃ s', pair.lts.Run (firstMulticast ++ secondMulticast) s' ∧ Delivered (s'.log 1) ⟨1, 8⟩ ∧
      ∀ l₁ d l₂, deliveries (s'.log 1) = l₁ ++ d :: l₂ → d.key = ⟨1, 8⟩ →
        { sender := 0, msgId := 7, finalSeq := 1, finalSeqProposer := 0 } ∈ l₁ := by
  have h : (pair.lts.exec firstMulticast).map (fun s => (finals (s.log 0), dataKeys (s.log 0))) =
      some ([{ sender := 0, msgId := 7, finalSeq := 1, finalSeqProposer := 0 }], [⟨0, 7⟩]) := by decide
  have h' : (pair.lts.exec (firstMulticast ++ secondMulticast)).map (fun s => decide (Delivered (s.log 1) ⟨1, 8⟩)) =
      some true := by decide
  obtain ⟨s, hrun, heq⟩ := Option.map_eq_some_iff.1 h
  obtain ⟨s', hrun', hdel⟩ := Option.map_eq_some_iff.1 h'
  obtain ⟨hfin, hdata⟩ := Prod.mk.inj heq
  refine ⟨s', hrun', of_decide_eq_true hdel, (causal_order (by decide) (by decide) hrun hrun' ⟨0, by decide, .inl ?_⟩).2
    1 (by decide)⟩
  rw [hfin, hdata]
  decide

end IsisMulticast

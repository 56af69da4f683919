import IsisMulticast.Draws
import IsisMulticast.Lib.Broadcast

/-!
# The system refines atomic broadcast

What is seen of a run are the multicasts and the first deliveries of the processes (`Sys.events`). The abstract machine
of `Lib.Broadcast` makes the same: the sequence it agrees on is, at any time, what the process that is furthest has
delivered (`Simulates`). A server that delivers more than that makes the machine put the new messages into the
sequence; here it is used that what two processes have delivered is never in conflict.
-/

namespace IsisMulticast
open Lib

variable {cfg : Config} {s s' : Sys} {l : Label} {ls : List Label} {b : Broadcast Word PendingMessageKey} {q : Word}

abbrev BroadcastLabel := Broadcast.Label Word PendingMessageKey

/-- The messages a process has delivered, each once. -/
def Sys.deliveredKeys (s : Sys) (q : Word) : List PendingMessageKey := (firstDeliveries (s.log q)).map SeqMessage.key

/-- What is seen of a step. -/
def Sys.events (s : Sys) (l : Label) (s' : Sys) : List (Broadcast.Event Word PendingMessageKey) :=
  match l with
  | .launch _ id msgId _ => [.cast ⟨id, msgId⟩]
  | .serve lk _ _ =>
    ((s'.deliveredKeys lk.server).drop (s.deliveredKeys lk.server).length).map (.deliver lk.server)
  | _ => []

structure Simulates (cfg : Config) (s : Sys) (b : Broadcast Word PendingMessageKey) : Prop where
  cast : ∀ k, k ∈ b.cast ↔ ∃ m, s.Launched m ∧ m.key = k
  pos : ∀ q, q.toNat < cfg.n → b.pos q = (s.deliveredKeys q).length
  initial : ∀ q, q.toNat < cfg.n → s.deliveredKeys q <+: b.order
  order : b.order = [] ∨ ∃ r, r.toNat < cfg.n ∧ b.order = s.deliveredKeys r

theorem Sys.deliveredKeys_mono (hle : s.Le s') (q : Word) : s.deliveredKeys q <+: s'.deliveredKeys q := by
  obtain ⟨log, hlog⟩ := hle.log q
  refine List.IsPrefix.map _ ?_
  rw [firstDeliveries, firstDeliveries, ← hlog, deliveries_append]
  exact firstsBy_prefix_append

theorem Sys.deliveredKeys_congr (hlog : s'.log q = s.log q) : s'.deliveredKeys q = s.deliveredKeys q := by
  rw [deliveredKeys, hlog, deliveredKeys]

theorem Sys.nodup_deliveredKeys (s : Sys) (q : Word) : (s.deliveredKeys q).Nodup := nodup_map_firstsBy

namespace Simulates

theorem delivered (h : Simulates cfg s b) (hq : q.toNat < cfg.n) : b.delivered q = s.deliveredKeys q := by
  obtain ⟨rest, hrest⟩ := h.initial q hq
  rw [Broadcast.delivered, h.pos q hq, ← hrest, List.take_left]

/-- A step that no process delivers in. -/
theorem congr (h : Simulates cfg s b) (hlog : ∀ q, s'.log q = s.log q)
    (hlaunched : ∀ k, (∃ m, s'.Launched m ∧ m.key = k) ↔ ∃ m, s.Launched m ∧ m.key = k) : Simulates cfg s' b := by
  have hkeys : ∀ q, s'.deliveredKeys q = s.deliveredKeys q := fun q => Sys.deliveredKeys_congr (hlog q)
  exact ⟨fun k => (h.cast k).trans (hlaunched k).symm, fun q hq => by rw [hkeys, h.pos q hq],
    fun q hq => by rw [hkeys]; exact h.initial q hq, by simpa only [hkeys] using h.order⟩

end Simulates

/-! ### The steps -/

section
variable (hrun : cfg.lts.Run ls s) (hrun' : cfg.lts.Run (ls ++ [l]) s')
include hrun hrun'

theorem launched_step (hl : launches [l] = []) (k : PendingMessageKey) :
    (∃ m, s'.Launched m ∧ m.key = k) ↔ ∃ m, s.Launched m ∧ m.key = k := by
  rw [← mem_launches_iff hrun, ← mem_launches_iff hrun', launches, List.filterMap_append, ← launches, ← launches, hl,
    List.append_nil]

theorem launched_launch {tid : Nat} {id msgId data : Word} (hl : l = .launch tid id msgId data) (k : PendingMessageKey) :
    (∃ m, s'.Launched m ∧ m.key = k) ↔ (∃ m, s.Launched m ∧ m.key = k) ∨ k = ⟨id, msgId⟩ := by
  subst hl
  rw [← mem_launches_iff hrun, ← mem_launches_iff hrun', launches, List.filterMap_append, List.mem_append, ← launches]
  simp

end

namespace Sys.Inv

theorem launched_of_mem_deliveredKeys (h : s.Inv cfg) (hq : q.toNat < cfg.n) {k : PendingMessageKey}
    (hk : k ∈ s.deliveredKeys q) : ∃ m, s.Launched m ∧ m.key = k := by
  obtain ⟨d, hd, rfl⟩ := List.mem_map.1 hk
  exact h.launched_of_decided (h.decided_of_delivered hq ((h.mem_firstDeliveries hq).1 hd))

theorem deliveredKeys_comparable (h : s.Inv cfg) (ho : ∀ q, q.toNat < cfg.n → (s.servers q).Ordered) {p : Word}
    (hp : p.toNat < cfg.n) (hq : q.toNat < cfg.n) :
    s.deliveredKeys p <+: s.deliveredKeys q ∨ s.deliveredKeys q <+: s.deliveredKeys p := by
  have hcmp := h.firstDeliveries_prefix hp hq (ho p hp) (ho q hq)
  exact hcmp.imp (fun hpre => hpre.map _) fun hpre => hpre.map _

end Sys.Inv

namespace Simulates

/-- When `q` has delivered more, it is the furthest process or the furthest one is another. -/
theorem furthest (hb : Simulates cfg s b) (hle : s.Le s') (h' : s'.Inv cfg)
    (ho : ∀ q, q.toNat < cfg.n → (s'.servers q).Ordered) (hq : q.toNat < cfg.n)
    (hlog : ∀ r, r ≠ q → s'.log r = s.log r) :
    b.order <+: s'.deliveredKeys q ∨
      s'.deliveredKeys q <+: b.order ∧ ∃ r, r.toNat < cfg.n ∧ b.order = s'.deliveredKeys r := by
  rcases hb.order with hnil | ⟨r, hr, horder⟩
  · exact .inl (by simp [hnil])
  · by_cases hrq : r = q
    · subst hrq
      exact .inl (horder ▸ Sys.deliveredKeys_mono hle r)
    · have heq : b.order = s'.deliveredKeys r := by rw [horder, Sys.deliveredKeys_congr (hlog r hrq)]
      rw [heq]
      exact (h'.deliveredKeys_comparable ho hr hq).imp_right fun hpre => ⟨hpre, r, hr, rfl⟩

theorem serve (hb : Simulates cfg s b) (hle : s.Le s') (h' : s'.Inv cfg)
    (ho : ∀ q, q.toNat < cfg.n → (s'.servers q).Ordered) (hq : q.toNat < cfg.n)
    (hlog : ∀ r, r ≠ q → s'.log r = s.log r)
    (hlaunched : ∀ k, (∃ m, s'.Launched m ∧ m.key = k) ↔ ∃ m, s.Launched m ∧ m.key = k) :
    ∃ (ks : List BroadcastLabel) (b' : Broadcast Word PendingMessageKey), ks.foldlM Broadcast.step b = some b' ∧
      ks.filterMap Broadcast.Label.event =
        ((s'.deliveredKeys q).drop (s.deliveredKeys q).length).map (.deliver q) ∧ Simulates cfg s' b' := by
  obtain ⟨new, hnew⟩ := Sys.deliveredKeys_mono hle q
  -- the messages that are put into the sequence
  obtain ⟨ms, hms, hinit, horder⟩ : ∃ ms, (∀ k ∈ ms, k ∈ s'.deliveredKeys q) ∧
      s'.deliveredKeys q <+: b.order ++ ms ∧ ∃ r, r.toNat < cfg.n ∧ b.order ++ ms = s'.deliveredKeys r := by
    rcases hb.furthest hle h' ho hq hlog with ⟨ms, hms⟩ | ⟨hpre, r, hr, heq⟩
    · exact ⟨ms, fun k hk => by rw [← hms]; simp [hk], by rw [hms], q, hq, hms⟩
    · exact ⟨[], by simp, by simpa using hpre, r, hr, by simpa using heq⟩
  have hcast : ∀ k ∈ ms, k ∈ b.cast := fun k hk =>
    (hb.cast k).2 ((hlaunched k).1 (h'.launched_of_mem_deliveredKeys hq (hms k hk)))
  have hnodup : (b.order ++ ms).Nodup := by
    obtain ⟨r, -, heq⟩ := horder
    exact heq ▸ s'.nodup_deliveredKeys r
  obtain ⟨hrun, hsee⟩ := Broadcast.foldlM_advance hcast hnodup (hb.pos q hq) (by rw [hnew]; exact hinit)
  refine ⟨_, _, hrun, ?_, fun k => ?_, fun p hp => ?_, fun p hp => ?_, .inr horder⟩
  · rw [hsee, ← hnew, List.drop_left]
  · rw [hb.cast, hlaunched]
  · by_cases hpq : p = q
    · subst hpq
      simp only [Function.update_self, hb.pos p hp, ← hnew, List.length_append]
    · rw [Sys.deliveredKeys_congr (hlog p hpq)]
      exact (Function.update_of_ne hpq ..).trans (hb.pos p hp)
  · by_cases hpq : p = q
    · subst hpq
      exact hinit
    · rw [Sys.deliveredKeys_congr (hlog p hpq)]
      exact (hb.initial p hp).trans (List.prefix_append _ _)

theorem launch (hb : Simulates cfg s b) {k : PendingMessageKey} (hnew : ¬ ∃ m, s.Launched m ∧ m.key = k)
    (hlog : ∀ q, s'.log q = s.log q)
    (hlaunched : ∀ k', (∃ m, s'.Launched m ∧ m.key = k') ↔ (∃ m, s.Launched m ∧ m.key = k') ∨ k' = k) :
    ∃ b', b.step (.cast k) = some b' ∧ Simulates cfg s' b' := by
  have hkeys : ∀ q, s'.deliveredKeys q = s.deliveredKeys q := fun q => Sys.deliveredKeys_congr (hlog q)
  refine ⟨_, if_neg fun hk => hnew ((hb.cast k).1 hk), fun k' => ?_, fun q hq => ?_, fun q hq => ?_, ?_⟩
  · rw [hlaunched, List.mem_append, List.mem_singleton, hb.cast]
  · rw [hkeys, hb.pos q hq]
  · rw [hkeys]; exact hb.initial q hq
  · simpa only [hkeys] using hb.order

theorem step (hb : Simulates cfg s b) (h : s.Inv cfg) (hrun : cfg.lts.Run ls s) (hl : FreshId s l)
    (hs : cfg.lts.step s l = some s') (ho : ∀ q, q.toNat < cfg.n → (s'.servers q).Ordered) :
    ∃ (ks : List BroadcastLabel) (b' : Broadcast Word PendingMessageKey),
      ks.foldlM (Broadcast.lts Word PendingMessageKey).step b = some b' ∧
      ks.filterMap Broadcast.Label.event = s.events l s' ∧ Simulates cfg s' b' := by
  have hrun' := Lts.run_concat.2 ⟨s, hrun, hs⟩
  have hstep := step_iff.1 hs
  have hquiet : (∀ q, s'.log q = s.log q) → launches [l] = [] → s.events l s' = [] →
      ∃ (ks : List BroadcastLabel) (b' : Broadcast Word PendingMessageKey),
        ks.foldlM (Broadcast.lts Word PendingMessageKey).step b = some b' ∧
        ks.filterMap Broadcast.Label.event = s.events l s' ∧ Simulates cfg s' b' := fun hlog hlaunch hev =>
    ⟨[], b, rfl, hev.symm, hb.congr hlog (launched_step hrun hrun' hlaunch)⟩
  have h' := h.step hl hstep
  have hle := hstep.le
  cases hstep with
  | @launch tid id msgId data hid ht =>
    have hnew : ¬ ∃ m, s.Launched m ∧ m.key = ⟨id, msgId⟩ := by
      rintro ⟨m, ⟨tid', t, ht', rfl⟩, hk⟩
      exact hl tid' t ht' hk
    have hlaunched := launched_launch hrun hrun' rfl
    generalize hs' : ({ s with senders := Function.update s.senders tid (some (.launch cfg.n id msgId data)) } : Sys) = s'
      at hlaunched ⊢
    obtain ⟨b', hb', hsim⟩ := hb.launch hnew (fun _ => by rw [← hs']; rfl) hlaunched
    exact ⟨[.cast ⟨id, msgId⟩], b', by simpa [Broadcast.lts] using hb', rfl, hsim⟩
  | @serve lk j junk buf hbuf hid hlis =>
    exact hb.serve hle h' ho hid (fun r hr => Sys.log_served_of_ne hr _ _) (launched_step hrun hrun' rfl)
  | lock | send | timeout | receive => exact hquiet (fun _ => rfl) rfl rfl

end Simulates

/-- Refinement. What is seen of a run, the multicasts and the first deliveries, can be seen of a run of the atomic
broadcast machine, and at its end every process has delivered the same messages in both. On links that keep the
order the first deliveries are all deliveries. -/
theorem refines_broadcast (hd : DistinctIds ls) (hw : cfg.lts.Along NoWrap ls) (hrun : cfg.lts.Run ls s) :
    (∃ ks b, (Broadcast.lts Word PendingMessageKey).Run ks b ∧
      ks.filterMap Broadcast.Label.event = cfg.lts.trace Sys.events ls ∧
      ∀ q, q.toNat < cfg.n → b.delivered q = (firstDeliveries (s.log q)).map SeqMessage.key) ∧
    (Fifo ls → ∀ q, q.toNat < cfg.n → firstDeliveries (s.log q) = deliveries (s.log q)) := by
  refine ⟨?_, fun hf q hq => firstsBy_eq_self (List.nodup_append.1 (separate hd hf hrun hq)).1⟩
  have hinit : Simulates cfg (.init cfg) (Broadcast.lts Word PendingMessageKey).init := by
    refine ⟨fun k => ?_, fun q _ => rfl, fun q _ => List.prefix_refl _, .inl rfl⟩
    simp [Broadcast.lts, Sys.Launched, Sys.init]
  obtain ⟨ks, b, hks, hsee, -, hb⟩ : ∃ ks b, (Broadcast.lts Word PendingMessageKey).Run ks b ∧
      ks.filterMap Broadcast.Label.event = cfg.lts.trace Sys.events ls ∧
      (∀ q, q.toNat < cfg.n → (s.servers q).Ordered) ∧ Simulates cfg s b := by
    refine (hd.along.and hw).refines
      (R := fun s b => (∀ q, q.toNat < cfg.n → (s.servers q).Ordered) ∧ Simulates cfg s b)
      ⟨fun q _ => Server.ordered_init _ _, hinit⟩ ?_ hrun
    rintro ls s l s' b hrun hG hl hs ⟨ho, hb⟩
    have h : s.Inv cfg := .of_along (hG.mono fun _ _ h => h.1) hrun
    have ho' : ∀ q, q.toNat < cfg.n → (s'.servers q).Ordered := fun q hq =>
      h.ordered_step (step_iff.1 hs) hl.2 hq (ho q hq)
    obtain ⟨ks, b', hks, hsee, hb'⟩ := hb.step h hrun hl.1 hs ho'
    exact ⟨ks, b', hks, hsee, ho', hb'⟩
  exact ⟨ks, b, hks, hsee, fun q hq => hb.delivered hq⟩

/-- What is seen of `pairRun`: both processes deliver the message of process 0 first. -/
theorem refines_broadcast_pairRun : ∃ s ks b, pair.lts.Run pairRun s ∧
    (Broadcast.lts Word PendingMessageKey).Run ks b ∧
    ks.filterMap Broadcast.Label.event = [.cast ⟨0, 7⟩, .cast ⟨1, 7⟩, .deliver 0 ⟨0, 7⟩, .deliver 0 ⟨1, 7⟩,
      .deliver 1 ⟨0, 7⟩, .deliver 1 ⟨1, 7⟩] ∧ b.delivered 0 = b.delivered 1 := by
  have htrace : pair.lts.trace Sys.events pairRun = [.cast ⟨0, 7⟩, .cast ⟨1, 7⟩, .deliver 0 ⟨0, 7⟩,
      .deliver 0 ⟨1, 7⟩, .deliver 1 ⟨0, 7⟩, .deliver 1 ⟨1, 7⟩] := by decide
  obtain ⟨s, hrun, hdel₀, hdel₁⟩ := exists_run_pairRun
  obtain ⟨⟨ks, b, hks, hsee, hb⟩, hall⟩ := refines_broadcast distinctIds_pairRun noWrap_pairRun hrun
  refine ⟨s, ks, b, hrun, hks, hsee.trans htrace, ?_⟩
  have hf : Fifo pairRun := by decide
  rw [hb 0 (by decide), hb 1 (by decide), hall hf 0 (by decide), hall hf 1 (by decide), hdel₀, hdel₁]

end IsisMulticast

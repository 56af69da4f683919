import IsisMulticast.Completable
import IsisMulticast.Lib.Fair
import Mathlib.Data.Finite.Prod
import Mathlib.Data.Finite.Sum

/-!
# Liveness

The loops of `SendWithAck` send again until they are answered, so over links that lose datagrams, but not all
copies of one forever, every multicast ends (`eventually_finished`). The assumptions are collected in `Fair`: a
thread that can go on does, a datagram that is sent again and again is handled again and again by its server, and
an answer that is sent again and again is read again and again if the client keeps listening.

A call that never ended would send its datagram infinitely often (`Stuck.frequently_sentAt`), hence be answered
infinitely often with the same bytes, of which there are only finitely many kinds, and read such an answer.
Since calls end (`Fair.call_ends`) and a thread makes `2 * n` of them, a mutex cannot stay taken, and no thread
waits forever. That the threads are finitely many is a consequence of distinct message ids.
-/

namespace IsisMulticast
open Lib Filter

variable {cfg : Config} {s s' : Sys} {l : Label} {tid : Nat} {t t' : Sender} {lk : Link} {b buf : Buf}

/-! ### Fair executions -/

section
variable (e : Execution cfg.lts) (lk : Link) (b : Buf) (i : ℕ)

/-- A thread sends `b` on `lk`. -/
def SentAt : Prop := ∃ tid, e.label i = some (.send tid) ∧
  (e.state (i + 1)).requests lk = (e.state i).requests lk ++ [b]

/-- The server of `lk` handles a copy of `b`. -/
def ServedAt : Prop := ∃ j junk, e.label i = some (.serve lk j junk) ∧ ((e.state i).requests lk)[j]? = some b

/-- The server of `lk` answers with `b`. -/
def AnsweredAt : Prop := ∃ j junk, e.label i = some (.serve lk j junk) ∧
  (e.state (i + 1)).answers lk = (e.state i).answers lk ++ [⟨j, b⟩]

/-- A thread reads an answer `b` on `lk`. -/
def ReadAt : Prop := ∃ tid j a, e.label i = some (.receive tid lk j) ∧ ((e.state i).answers lk)[j]? = some a ∧ a.buf = b

/-- A thread is in a call on `lk`. -/
def ListensAt : Prop := ∃ tid t, (e.state i).senders tid = some t ∧ t.link = some lk ∧ t.inSession = true

end

/-- The threads are scheduled and the links lose datagrams fairly. -/
structure Fair (cfg : Config) (e : Execution cfg.lts) : Prop where
  thread : ∀ tid, e.WeaklyFair {l | l.thread = some tid}
  requests : ∀ lk b, (∃ᶠ i in atTop, SentAt e lk b i) → ∃ᶠ i in atTop, ServedAt e lk b i
  answers : ∀ lk b, (∀ᶠ i in atTop, ListensAt e lk i) → (∃ᶠ i in atTop, AnsweredAt e lk b i) →
    ∃ᶠ i in atTop, ReadAt e lk b i

/-! ### Finitely many messages -/

instance : Finite Word := Finite.of_injective UInt32.toFin fun _ _ h => UInt32.toFin_inj.1 h

instance : Finite AckMessage :=
  Finite.of_injective (fun a => (a.type, a.sender, a.msgId, a.proposedSeq, a.proposer)) fun a b h => by
    cases a; cases b; simpa using h

instance : Finite SeqAckMessage :=
  Finite.of_injective (fun a => (a.type, a.sender, a.msgId)) fun a b h => by cases a; cases b; simpa using h

instance : Finite PendingMessageKey :=
  Finite.of_injective (fun k => (k.sender, k.msgId)) fun a b h => by cases a; cases b; simpa using h

/-- The two kinds of answers on the network. -/
def answerBytes (h : HostOrder) : AckMessage ⊕ SeqAckMessage → Buf
  | .inl a => sendAckMsg h a
  | .inr a => sendSeqAckMsg h a

/-! ### A thread in a call -/

namespace Sender

theorem setPc_of_pc {pc : Pc} (ht : t.pc = some pc) : t.setPc pc = t := by
  cases t with | mk id msgId data phase => cases phase <;> simp_all [Sender.pc, setPc]

@[simp] theorem setPc_setPc (t : Sender) (pc pc' : Pc) : (t.setPc pc).setPc pc' = t.setPc pc' := by
  cases t with | mk id msgId data phase => cases phase <;> rfl

@[simp] theorem accepts_setPc {h : HostOrder} (pc : Pc) : (t.setPc pc).Accepts h b ↔ t.Accepts h b := by
  cases t with | mk id msgId data phase => cases phase <;> rfl

theorem inSession_setPc (ht : t.inSession = true) {pc : Pc} (hpc : pc ≠ .enter) : (t.setPc pc).inSession = true := by
  refine inSession_eq_true_iff.2 ?_
  rw [pc_setPc (pc_ne_none_of_inSession ht)]
  cases pc with
  | enter => exact absurd rfl hpc
  | send l => exact ⟨l, .inl rfl⟩
  | recv l => exact ⟨l, .inr rfl⟩

/-- A step of a thread in a call, with where it leads. -/
theorem Moves.call_cases (h : t.Moves cfg s tid l t') (hin : t.inSession = true) :
    l.thread ≠ some tid ∧ t' = t ∨ (∃ l₀, l = .send tid ∧ t.pc = some (.send l₀) ∧ t' = t.setPc (.recv l₀)) ∨
    (∃ l₀ l₁, t.pc = some (.recv l₀) ∧ t' = t.setPc (.send l₁)) ∨ t.Completed cfg.n t' := by
  cases h with
  | rest hl => exact .inl ⟨hl, rfl⟩
  | lock _ hpc => simp [Sender.inSession, hpc] at hin
  | send hpc => exact .inr (.inl ⟨_, rfl, hpc, rfl⟩)
  | again _ hpc => exact .inr (.inr (.inl ⟨_, _, hpc, rfl⟩))
  | accept _ _ _ _ hdone => exact .inr (.inr (.inr hdone))

end Sender

section
variable {e : Execution cfg.lts} {i j : ℕ}

theorem Lib.Execution.locked (e : Execution cfg.lts) (i : ℕ) : (e.state i).Locked cfg := .of_run (e.run i)

theorem exists_moves (ht : (e.state i).senders tid = some t) (hl : e.label i = some l) :
    ∃ t', (e.state (i + 1)).senders tid = some t' ∧ t.Moves cfg (e.state i) tid l t' :=
  (e.locked i).moves (step_iff.1 (e.step_of_label hl)) ht

theorem enables_of_step (hs : Step cfg (e.state i) l s') (hl : l.thread = some tid) :
    e.Enables {l | l.thread = some tid} i :=
  ⟨l, hl, by rw [show cfg.lts.step (e.state i) l = some s' from step_iff.2 hs]; simp⟩

/-- The thread stays as it is until it takes a step. -/
theorem sender_stays (ht : (e.state i).senders tid = some t) (hno : ¬ e.Takes {l | l.thread = some tid} i) :
    (e.state (i + 1)).senders tid = some t := by
  cases hl : e.label i with
  | none => rw [e.state_succ_of_label hl, ht]
  | some l =>
    have hth : l.thread ≠ some tid := fun hth => hno ⟨l, hth, hl⟩
    obtain ⟨t', ht', hm⟩ := exists_moves ht hl
    cases hm with
    | rest => exact ht'
    | lock | send | accept => exact absurd rfl hth
    | again hl₀ =>
      rcases hl₀ with rfl | ⟨_, _, rfl⟩ <;> exact absurd rfl hth

/-- The thread is in the same call from time `i` on. -/
def Stuck (e : Execution cfg.lts) (tid : Nat) (t : Sender) (i : ℕ) : Prop :=
  t.inSession = true ∧ ∀ j, i ≤ j → ∃ pc, pc ≠ .enter ∧ (e.state j).senders tid = some (t.setPc pc)

theorem stuck_of_rank (ht : (e.state i).senders tid = some t) (hin : t.inSession = true)
    (hr : ∀ j t', i ≤ j → (e.state j).senders tid = some t' → t'.rank cfg.n ≤ t.rank cfg.n) : Stuck e tid t i := by
  refine ⟨hin, fun j hj => ?_⟩
  refine Execution.stays (P := fun s : Sys => ∃ pc, pc ≠ .enter ∧ s.senders tid = some (t.setPc pc)) ?_ ?_ hj
  · obtain ⟨l, hpc | hpc⟩ := Sender.inSession_eq_true_iff.1 hin
    · exact ⟨.send l, by simp, by rw [Sender.setPc_of_pc hpc, ht]⟩
    · exact ⟨.recv l, by simp, by rw [Sender.setPc_of_pc hpc, ht]⟩
  · rintro j l hj hl ⟨pc, hpc, htj⟩
    obtain ⟨t', ht', hm⟩ := exists_moves htj hl
    rcases hm.call_cases (Sender.inSession_setPc hin hpc) with
      ⟨-, rfl⟩ | ⟨l₀, -, -, rfl⟩ | ⟨l₀, l₁, -, rfl⟩ | hdone
    · exact ⟨pc, hpc, ht'⟩
    · exact ⟨.recv l₀, by simp, by simpa using ht'⟩
    · exact ⟨.send l₁, by simp, by simpa using ht'⟩
    · -- the rank does not rise any more
      have := hr (j + 1) t' (by omega) ht'
      have := hdone.rank
      simp only [Sender.rank_setPc] at this
      omega

namespace Stuck

theorem sender (h : Stuck e tid t i) (hj : i ≤ j) : ∃ u, (e.state j).senders tid = some u ∧ u.inSession = true ∧
    ∃ pc, u = t.setPc pc := by
  obtain ⟨pc, hpc, ht⟩ := h.2 j hj
  exact ⟨_, ht, Sender.inSession_setPc h.1 hpc, pc, rfl⟩

theorem mono (h : Stuck e tid t i) (hj : i ≤ j) : Stuck e tid t j := ⟨h.1, fun k hk => h.2 k (hj.trans hk)⟩

/-- A thread that is stuck in a call does not complete it. -/
theorem not_completed (h : Stuck e tid t i) (hj : i ≤ j) {u : Sender} (hu : (e.state j).senders tid = some u)
    (ht' : (e.state (j + 1)).senders tid = some t') : ¬ u.Completed cfg.n t' := by
  intro hdone
  obtain ⟨pc, -, hpc⟩ := h.2 j hj
  obtain ⟨pc', -, hpc'⟩ := h.2 (j + 1) (by omega)
  obtain rfl := Option.some.inj (hu.symm.trans hpc)
  obtain rfl := Option.some.inj (ht'.symm.trans hpc')
  have := hdone.rank
  simp only [Sender.rank_setPc] at this
  omega

theorem enables (h : Stuck e tid t i) (hj : i ≤ j) : e.Enables {l | l.thread = some tid} j := by
  obtain ⟨u, hu, hin, -⟩ := h.sender hj
  obtain ⟨lk, hlk⟩ := Sender.exists_link_of_pc (Sender.pc_ne_none_of_inSession hin)
  obtain ⟨l, hpc | hpc⟩ := Sender.inSession_eq_true_iff.1 hin
  · obtain ⟨b, hb⟩ := Sender.exists_datagram_of_pc (h := cfg.host u.id) (Sender.pc_ne_none_of_inSession hin)
    exact enables_of_step (.send hu hlk hb hpc) rfl
  · -- `recvfrom` can always time out
    have hunl := ((e.locked j).thread tid u hu).1
    obtain ⟨u', hu'⟩ := hunl.exists_afterReceive (h := cfg.host u.id) (n := cfg.n) (r := .timeout) hpc (by simp)
    exact enables_of_step (.timeout hu hlk hu') rfl

/-- The thread takes another step. -/
theorem exists_step (h : Stuck e tid t i) (hf : e.WeaklyFair {l | l.thread = some tid}) {u : Sender}
    (hu : (e.state i).senders tid = some u) :
    ∃ j, i ≤ j ∧ (e.state j).senders tid = some u ∧ e.Takes {l | l.thread = some tid} j :=
  hf.exists_takes (P := fun j => (e.state j).senders tid = some u) hu
    (fun _ _ huj hno => sender_stays huj hno) fun _ hj _ => h.enables hj

theorem exists_sentAt_of_send (h : Stuck e tid t i) (hf : e.WeaklyFair {l | l.thread = some tid})
    (hlk : t.link = some lk) (hb : t.datagram (cfg.host t.id) = some b) {u : Sender} {l₀ : SendLoop}
    (hu : (e.state i).senders tid = some u) (hpc : u.pc = some (.send l₀)) : ∃ j, i ≤ j ∧ SentAt e lk b j := by
  obtain ⟨j, hj, huj, l, hth, hl⟩ := h.exists_step hf hu
  obtain ⟨t', ht', hm⟩ := exists_moves huj hl
  obtain ⟨u', hu', hin, pc, rfl⟩ := h.sender hj
  obtain rfl := Option.some.inj (huj.symm.trans hu')
  rcases hm.call_cases hin with ⟨hno, -⟩ | ⟨l₁, rfl, -, -⟩ | ⟨l₁, l₂, hrecv, -⟩ | hdone
  · exact absurd hth hno
  · refine ⟨j, hj, tid, hl, ?_⟩
    have hlk' : (t.setPc pc).link = some lk := by simpa using hlk
    have hb' : (t.setPc pc).datagram (cfg.host (t.setPc pc).id) = some b := by rw [Sender.datagram_setPc]; exact hb
    have hs : (e.state j).step cfg (.send tid) = some _ := step_iff.2 (.send huj hlk' hb' hpc)
    rw [← Option.some.inj (hs.symm.trans (e.step_of_label hl))]
    simp
  · simp [hpc] at hrecv
  · exact absurd hdone (h.not_completed hj huj ht')

theorem frequently_sentAt (h : Stuck e tid t i) (hf : e.WeaklyFair {l | l.thread = some tid})
    (hlk : t.link = some lk) (hb : t.datagram (cfg.host t.id) = some b) : ∃ᶠ j in atTop, SentAt e lk b j := by
  refine frequently_atTop.2 fun N => ?_
  have hN := h.mono (Nat.le_max_left i N)
  suffices hs : ∃ j, max i N ≤ j ∧ SentAt e lk b j by
    obtain ⟨j, hj, hs⟩ := hs
    exact ⟨j, by omega, hs⟩
  obtain ⟨u, hu, hin, -⟩ := hN.sender (Nat.le_refl _)
  obtain ⟨l₀, hpc | hpc⟩ := Sender.inSession_eq_true_iff.1 hin
  · exact hN.exists_sentAt_of_send hf hlk hb hu hpc
  · -- the thread is waiting; its next step brings it back to the top of the loop
    obtain ⟨j, hj, huj, l, hth, hl⟩ := hN.exists_step hf hu
    obtain ⟨t', ht', hm⟩ := exists_moves huj hl
    rcases hm.call_cases hin with ⟨hno, -⟩ | ⟨l₁, -, hsend, -⟩ | ⟨l₁, l₂, -, rfl⟩ | hdone
    · exact absurd hth hno
    · simp [hpc] at hsend
    · have hpc' : (u.setPc (.send l₂)).pc = some (.send l₂) := Sender.pc_setPc (Sender.pc_ne_none_of_inSession hin)
      obtain ⟨k, hk, hs⟩ := (hN.mono (j := j + 1) (by omega)).exists_sentAt_of_send hf hlk hb ht' hpc'
      exact ⟨k, by omega, hs⟩
    · exact absurd hdone (hN.not_completed hj huj ht')

/-- A copy of the datagram of the call is answered by bytes that the call would accept. -/
theorem answered_of_servedAt (h : Stuck e tid t i) (hd : ∀ i, DistinctIds (e.labels i)) (hlk : t.link = some lk)
    (hb : t.datagram (cfg.host t.id) = some b) (hj : i ≤ j) (hs : ServedAt e lk b j) :
    ∃ x : AckMessage ⊕ SeqAckMessage, AnsweredAt e lk (answerBytes (cfg.host lk.server) x) j ∧
      t.Accepts (cfg.host t.id) (answerBytes (cfg.host lk.server) x) := by
  obtain ⟨k, junk, hl, hreq⟩ := hs
  have hinv : ∀ i, (e.state i).Inv cfg := fun i => .of_run (hd i) (e.run i)
  obtain ⟨s', buf, hs, hse, hreq', hans, hbuf⟩ := (hinv j).exists_serve hreq junk
  obtain rfl := Option.some.inj ((step_iff.2 hs).symm.trans (e.step_of_label hl))
  have ha : ⟨k, buf⟩ ∈ (e.state (j + 1)).answers lk := by rw [hans, Function.update_self]; simp
  obtain ⟨u, hu, -, pc, rfl⟩ := h.sender (j := j + 1) (by omega)
  have hacc : (t.setPc pc).Accepts (cfg.host t.id) buf := by
    refine ((hinv (j + 1)).accepts_iff hu (by simpa using hlk) ha).2 ⟨b, hreq' ▸ hreq, (hinv (j + 1)).isCopy_datagram hu ?_⟩
    rw [Sender.datagram_setPc]
    exact hb
  have hat : AnsweredAt e lk buf j := ⟨k, junk, hl, by rw [hans, Function.update_self]⟩
  rw [Sender.accepts_setPc] at hacc
  rcases hbuf with ⟨a, rfl⟩ | ⟨a, rfl⟩
  · exact ⟨.inl a, hat, hacc⟩
  · exact ⟨.inr a, hat, hacc⟩

/-- A thread that reads acceptable bytes is not stuck. -/
theorem not_accepts_of_readAt (h : Stuck e tid t i) (hlk : t.link = some lk) (hj : i ≤ j) (hr : ReadAt e lk buf j) :
    ¬ t.Accepts (cfg.host t.id) buf := by
  intro hacc
  obtain ⟨tid', k, a, hl, ha, rfl⟩ := hr
  have hs := step_iff.1 (e.step_of_label hl)
  obtain ⟨u, hu, hin, pc, rfl⟩ := h.sender hj
  have hlk' : (t.setPc pc).link = some lk := by simpa using hlk
  -- the only thread that can read on this client is the stuck one
  obtain rfl : tid = tid' := by
    generalize e.state (j + 1) = s' at hs
    cases hs with
    | receive hu' hlu _ hu'' =>
      obtain ⟨l₀, hpc⟩ := Sender.exists_recv_of_afterReceive hu''
      exact (e.locked j).unique hu hlk' hin hu' hlu (Sender.inSession_eq_true_iff.2 ⟨l₀, .inr hpc⟩)
  obtain ⟨t', ht', hm⟩ := exists_moves hu hl
  generalize hlab : Label.receive tid lk k = lab at hm
  cases hm with
  | rest hno => exact hno (hlab ▸ rfl)
  | lock => cases hlab
  | send => cases hlab
  | again _ _ _ hrej => exact hrej lk k a hlab.symm ha ((Sender.accepts_setPc pc).2 hacc)
  | accept _ _ _ _ hdone => exact h.not_completed hj hu ht' hdone

end Stuck

/-- Every call ends. -/
theorem Fair.call_ends (hf : Fair cfg e) (hd : ∀ i, DistinctIds (e.labels i))
    (ht : (e.state i).senders tid = some t) (hin : t.inSession = true) :
    ∃ j t', i ≤ j ∧ (e.state j).senders tid = some t' ∧ t.rank cfg.n < t'.rank cfg.n := by
  by_contra hno
  push Not at hno
  have h := stuck_of_rank ht hin hno
  obtain ⟨lk, hlk⟩ := Sender.exists_link_of_pc (Sender.pc_ne_none_of_inSession hin)
  obtain ⟨b, hb⟩ := Sender.exists_datagram_of_pc (h := cfg.host t.id) (Sender.pc_ne_none_of_inSession hin)
  have hserved := (hf.requests lk b (h.frequently_sentAt (hf.thread tid) hlk hb)).and_eventually (eventually_ge_atTop i)
  -- there are finitely many answers, so one of them is given infinitely often
  have hans : ∃ᶠ j in atTop, ∃ x, AnsweredAt e lk (answerBytes (cfg.host lk.server) x) j ∧
      t.Accepts (cfg.host t.id) (answerBytes (cfg.host lk.server) x) :=
    hserved.mono fun j hj => h.answered_of_servedAt hd hlk hb hj.2 hj.1
  obtain ⟨x, hx⟩ := frequently_exists.1 hans
  obtain ⟨-, -, hacc⟩ := hx.exists
  have hlisten : ∀ᶠ j in atTop, ListensAt e lk j := by
    refine eventually_atTop.2 ⟨i, fun j hj => ?_⟩
    obtain ⟨u, hu, hinu, pc, rfl⟩ := h.sender hj
    exact ⟨tid, _, hu, by simpa using hlk, hinu⟩
  obtain ⟨j, hj, hread⟩ := frequently_atTop.1 (hf.answers lk _ hlisten (hx.mono fun _ h => h.1)) i
  exact h.not_accepts_of_readAt hlk hj hread hacc

/-! ### All threads -/

theorem rank_mono (e : Execution cfg.lts) (tid : Nat) :
    Monotone fun i => ((e.state i).senders tid).elim 0 (·.rank cfg.n) := by
  refine monotone_nat_of_le_succ fun i => ?_
  cases ht : (e.state i).senders tid with
  | none => exact Nat.zero_le _
  | some t =>
    cases hl : e.label i with
    | none => rw [e.state_succ_of_label hl, ht]
    | some l =>
      obtain ⟨t', ht', hm⟩ := exists_moves ht hl
      rw [ht']
      exact hm.rank_le

theorem rank_le_of_execution (e : Execution cfg.lts) (tid : Nat) (i : ℕ) :
    ((e.state i).senders tid).elim 0 (·.rank cfg.n) ≤ 2 * cfg.n := by
  cases ht : (e.state i).senders tid with
  | none => exact Nat.zero_le _
  | some t => exact Sender.rank_le ((e.locked i).thread tid t ht).2

/-- There are finitely many keys, so from some time on no thread is launched. -/
theorem exists_last_launch (hd : ∀ i, DistinctIds (e.labels i)) :
    ∃ N, ∀ i, N ≤ i → ∀ tid id msgId data, .launch tid id msgId data ∈ e.labels i →
      .launch tid id msgId data ∈ e.labels N := by
  have := Fintype.ofFinite PendingMessageKey
  have hmono : Monotone fun i => (launches (e.labels i)).length := fun i j hij =>
    ((e.labels_mono hij).filterMap _).length_le
  obtain ⟨c, hc⟩ := exists_eventually_eq hmono fun i => (nodup_launches (hd i)).length_le_card
  obtain ⟨N, hN⟩ := eventually_atTop.1 hc
  refine ⟨N, fun i hi tid id msgId data hmem => ?_⟩
  obtain ⟨ls, hls⟩ := e.labels_mono hi
  have hlen : (launches (e.labels i)).length = (launches (e.labels N)).length :=
    (hN i hi).trans (hN N (Nat.le_refl N)).symm
  rw [← hls] at hmem hlen
  rcases List.mem_append.1 hmem with hmem | hmem
  · exact hmem
  · have hnil : launches ls = [] := by simpa [launches] using hlen
    have := List.filterMap_eq_nil_iff.1 hnil _ hmem
    simp at this

/-- From some time on no thread is in a call: the ranks have become constant, and calls end. -/
theorem Fair.exists_quiet (hf : Fair cfg e) (hd : ∀ i, DistinctIds (e.labels i)) :
    ∃ N, ∀ i, N ≤ i → ∀ tid t, (e.state i).senders tid = some t → t.inSession = false := by
  obtain ⟨N, hN⟩ := exists_last_launch hd
  let tids := (launchedThreads (e.labels N)).toFinset
  have hmem : ∀ i, N ≤ i → ∀ tid t, (e.state i).senders tid = some t → tid ∈ tids := by
    intro i hi tid t ht
    obtain ⟨id, msgId, data, hl, -⟩ := exists_launch (e.run i) ht
    exact List.mem_toFinset.2 (mem_launchedThreads (hN i hi _ _ _ _ hl))
  choose c hc using fun tid => exists_eventually_eq (rank_mono e tid) (rank_le_of_execution e tid)
  obtain ⟨N', hN'⟩ := eventually_atTop.1 ((Finset.eventually_all tids).2 fun tid _ => hc tid)
  refine ⟨max N N', fun i hi tid t ht => Bool.eq_false_iff.2 fun hin => ?_⟩
  have htid := hmem i (by omega) tid t ht
  obtain ⟨j, t', hj, ht', hlt⟩ := hf.call_ends hd ht hin
  have hi' := hN' i (by omega) tid htid
  have hj' := hN' j (by omega) tid htid
  rw [ht] at hi'
  rw [ht'] at hj'
  exact absurd (hi'.trans hj'.symm) (Nat.ne_of_lt hlt)

theorem Fair.eventually_allFinished (hf : Fair cfg e) (hd : ∀ i, DistinctIds (e.labels i)) :
    ∀ᶠ i in atTop, (e.state i).AllFinished := by
  obtain ⟨N, hN⟩ := hf.exists_quiet hd
  refine eventually_atTop.2 ⟨N, fun i hi tid t ht => ?_⟩
  rcases t.pc_cases with hpc | hin | hfin
  · -- the thread waits for a mutex that nobody holds
    exfalso
    obtain ⟨lk, hlk⟩ := Sender.exists_link_of_pc (t := t) (by simp [hpc])
    have hfree : ∀ j, N ≤ j → (e.state j).mutex lk = none := by
      intro j hj
      refine Option.eq_none_iff_forall_ne_some.2 fun tid' hm => ?_
      obtain ⟨u, hu, -, hin⟩ := ((e.locked j).mutex lk tid').1 hm
      simp [hN j hj tid' u hu] at hin
    obtain ⟨j, hj, htj, l, hth, hl⟩ := (hf.thread tid).exists_takes (P := fun j => (e.state j).senders tid = some t) ht
      (fun _ _ huj hno => sender_stays huj hno) fun j hj htj =>
        enables_of_step (.lock htj hlk hpc (hfree j (by omega))) rfl
    obtain ⟨t', ht', hm⟩ := exists_moves htj hl
    have hout := hN (j + 1) (by omega) tid t' ht'
    cases hm with
    | rest hno => exact hno hth
    | lock => simp [Sender.inSession, Sender.pc_setPc (t := t) (by simp [hpc])] at hout
    | send h => simp [hpc] at h
    | again _ h => simp [hpc] at h
    | accept _ h => simp [hpc] at h
  · simp [hN i hi tid t ht] at hin
  · exact hfin

/-- Liveness. In a fair execution in which no process draws a message id twice, all multicasts end: from some time on
every thread has finished. If the links keep the order, then from that time on every queue is empty and
every process has delivered every message exactly once, and if no counter wraps, in the same order. -/
theorem eventually_finished (hf : Fair cfg e) (hd : ∀ i, DistinctIds (e.labels i)) :
    ∀ᶠ i in atTop, (e.state i).AllFinished ∧ (Fifo (e.labels i) →
      (∀ q, q.toNat < cfg.n → ((e.state i).servers q).queue.pendingSeqs = ∅ ∧
        ((e.state i).servers q).queue.ordering.toList = [] ∧
        ((deliveries ((e.state i).log q)).map SeqMessage.key).Perm (launches (e.labels i))) ∧
      (cfg.lts.Along NoWrap (e.labels i) → ∀ p q, p.toNat < cfg.n → q.toNat < cfg.n →
        deliveries ((e.state i).log p) = deliveries ((e.state i).log q))) := by
  filter_upwards [hf.eventually_allFinished hd] with i hfin
  refine ⟨hfin, fun hfifo => ⟨fun q hq => ?_, fun hw p q hp hq => ?_⟩⟩
  · exact drained_of_allFinished (hd i) hfifo (e.run i) hfin hq
  · exact (completed_of_allFinished (hd i) hw hfifo (e.run i) hfin).2 p q hp hq

end

/-! ### An execution that is fair -/

/-- A run that has come to its end is fair when it idles. -/
theorem fair_ofRun {ls : List Label} (hrun : cfg.lts.Run ls s) (hfin : s.AllFinished) : Fair cfg (.ofRun hrun) := by
  have hquiet : ∀ {P : ℕ → Prop}, (∀ i, P i → (Execution.ofRun hrun).label i ≠ none) → ¬ ∃ᶠ i in atTop, P i := by
    intro P hP hfreq
    obtain ⟨i, hi, hPi⟩ := frequently_atTop.1 hfreq ls.length
    exact hP i hPi (Execution.label_ofRun hrun hi)
  refine ⟨fun tid hen => ?_, fun lk b hsent => ?_, fun lk b _ hans => ?_⟩
  · exfalso
    obtain ⟨i, hi, l, hth, hl⟩ := (hen.and (eventually_ge_atTop ls.length)).exists.imp fun i h => And.intro h.2 h.1
    rw [Execution.state_ofRun hrun hi] at hl
    obtain ⟨s', hs⟩ := Option.ne_none_iff_exists'.1 hl
    have hno : ∀ t, s.senders tid = some t → t.pc = none := by
      intro t ht
      have := hfin tid t ht
      unfold Sender.isFinished at this
      unfold Sender.pc
      split at this <;> simp_all
    cases step_iff.1 hs with
    | launch | serve => cases hth
    | lock ht _ hpc =>
      cases hth
      simp [hno _ ht] at hpc
    | send ht _ _ hpc =>
      cases hth
      simp [hno _ ht] at hpc
    | timeout ht _ ht' =>
      cases hth
      obtain ⟨l₀, hpc⟩ := Sender.exists_recv_of_afterReceive ht'
      simp [hno _ ht] at hpc
    | receive ht _ _ ht' =>
      cases hth
      obtain ⟨l₀, hpc⟩ := Sender.exists_recv_of_afterReceive ht'
      simp [hno _ ht] at hpc
  · exact absurd hsent (hquiet fun i ⟨tid, hl, _⟩ => by simp [hl])
  · exact absurd hans (hquiet fun i ⟨j, junk, hl, _⟩ => by simp [hl])

theorem eventually_finished_pairRun : ∃ (e : Execution pair.lts) (i : ℕ), (e.state i).AllFinished ∧
    deliveries ((e.state i).log 0) = deliveries ((e.state i).log 1) := by
  obtain ⟨s, hrun, -⟩ := exists_run_pairRun
  have hpre := Execution.labels_ofRun_prefix hrun
  have hd : ∀ i, DistinctIds ((Execution.ofRun hrun).labels i) := fun i => distinctIds_pairRun.of_prefix (hpre i)
  obtain ⟨i, hfin, hfifo⟩ := (eventually_finished (fair_ofRun hrun (allFinished_pairRun hrun)) hd).exists
  have hf : Fifo pairRun := by decide
  have hw := noWrap_pairRun.of_prefix (hpre i)
  exact ⟨_, i, hfin, (hfifo (hf.sublist (hpre i).sublist)).2 hw 0 1 (by decide) (by decide)⟩

end IsisMulticast

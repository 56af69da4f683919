import IsisMulticast.Answers

/-!
# Calls of `SendWithAck` on one client

The threads of a process share its clients, and `SendWithAck` holds the `sockfd_mutex_` of the client until it
returns. `Sender.rank` counts the calls a thread has completed, of the `2 * n` it makes. `Sender.Moves` is what
a step means for one thread: it takes a lock, sends, goes round the loop or ends the call with an
accepted answer, and only the last of these counts. `Sys.Locked` is the invariant of the mutexes; with it a
call is alone on its client from the lock to the return (`sessions_exclusive`).
-/

namespace IsisMulticast
open Lib

/-- The thread that takes the step. A launch is the step of no thread. -/
def Label.thread : Label → Option Nat
  | .lock tid | .send tid | .timeout tid | .receive tid _ _ => some tid
  | .launch .. | .serve .. => none

/-- The numbers of the processes are words. -/
theorem Config.toNat_ofNat (cfg : Config) {i : Nat} (hi : i < cfg.n) : (UInt32.ofNat i).toNat = i :=
  UInt32.toNat_ofNat_of_lt' (Nat.lt_trans hi cfg.n_lt)

namespace Sender

/-- How many of its calls of `SendWithAck` the thread has completed, among `n` processes. -/
def rank (n : Nat) (t : Sender) : Nat :=
  match t.phase with
  | .data pid _ _ => pid.toNat
  | .seq pid _ _ => n + pid.toNat
  | .finished _ => 2 * n

def InRange (n : Nat) (t : Sender) : Prop := ∀ pid, t.target = some pid → pid.toNat < n

variable {t t' : Sender} {n : Nat} {h : HostOrder} {pc : Pc} {r : Received}

@[simp] theorem target_setPc (t : Sender) (pc : Pc) : (t.setPc pc).target = t.target := by
  cases t with | mk id msgId data phase => cases phase <;> rfl

@[simp] theorem link_setPc (t : Sender) (pc : Pc) : (t.setPc pc).link = t.link := by
  rw [link, target_setPc, link]; rfl

@[simp] theorem rank_setPc (t : Sender) (pc : Pc) : (t.setPc pc).rank n = t.rank n := by
  cases t with | mk id msgId data phase => cases phase <;> rfl

@[simp] theorem datagram_setPc (t : Sender) (pc : Pc) : (t.setPc pc).datagram h = t.datagram h := by
  cases t with | mk id msgId data phase => cases phase <;> rfl

theorem pc_setPc (ht : t.pc ≠ none) : (t.setPc pc).pc = some pc := by
  cases t with | mk id msgId data phase => cases phase <;> simp_all [Sender.pc, Sender.setPc]

theorem inRange_setPc (ht : t.InRange n) : (t.setPc pc).InRange n := fun pid hpid => ht pid (by simpa using hpid)

theorem inSession_eq_true_iff : t.inSession = true ↔ ∃ l, t.pc = some (.send l) ∨ t.pc = some (.recv l) := by
  unfold inSession
  split <;> simp_all

theorem pc_ne_none_of_inSession (ht : t.inSession = true) : t.pc ≠ none := by
  obtain ⟨l, hl | hl⟩ := inSession_eq_true_iff.1 ht <;> simp [hl]

/-- Where a thread stands: before a call, in it, or at the end. -/
theorem pc_cases (t : Sender) : t.pc = some .enter ∨ t.inSession = true ∨ t.isFinished = true := by
  cases t with | mk id msgId data phase =>
    cases phase with
    | data pid seqs pc => cases pc <;> simp [Sender.pc, inSession]
    | seq pid m pc => cases pc <;> simp [Sender.pc, inSession]
    | finished m => simp [isFinished]

theorem rank_seqLoop {pid : Word} (m : SeqMessage) (hpid : pid.toNat ≤ n) :
    rank n { t with phase := seqLoop n pid m } = n + pid.toNat := by
  unfold seqLoop rank
  split_ifs with hlt
  · rfl
  · simp only
    omega

theorem rank_dataLoop {pid : Word} (seqs : List Word) (hpid : pid.toNat ≤ n) :
    rank n { t with phase := dataLoop n t pid seqs } = pid.toNat := by
  unfold dataLoop
  split_ifs with hlt
  · rfl
  · rw [rank_seqLoop _ (by simp), UInt32.toNat_zero]
    omega

theorem inRange_seqLoop (pid : Word) (m : SeqMessage) : InRange n { t with phase := seqLoop n pid m } := by
  intro q hq
  unfold seqLoop target at hq
  split_ifs at hq with hlt
  obtain rfl : pid = q := by simpa using hq
  exact hlt

theorem inRange_dataLoop (pid : Word) (seqs : List Word) :
    InRange n { t with phase := dataLoop n t pid seqs } := by
  unfold dataLoop
  split_ifs with hlt
  · intro q hq
    obtain rfl : pid = q := by simpa [target] using hq
    exact hlt
  · exact inRange_seqLoop _ _

theorem inSession_seqLoop (pid : Word) (m : SeqMessage) :
    inSession { t with phase := seqLoop n pid m } = false := by
  simp only [inSession, Sender.pc, seqLoop]
  split_ifs <;> rfl

theorem inSession_dataLoop (pid : Word) (seqs : List Word) :
    inSession { t with phase := dataLoop n t pid seqs } = false := by
  simp only [inSession, Sender.pc, dataLoop, seqLoop]
  split_ifs <;> rfl

theorem rank_le (ht : t.InRange n) : t.rank n ≤ 2 * n := by
  unfold rank
  unfold InRange target at ht
  cases hp : t.phase with
  | data pid seqs pc =>
    have := ht pid (by simp [hp])
    simp only
    omega
  | seq pid m pc =>
    have := ht pid (by simp [hp])
    simp only
    omega
  | finished m => exact Nat.le_refl _

/-- The end of a call: the thread is at the next one. -/
structure Completed (n : Nat) (t t' : Sender) : Prop where
  id : t'.id = t.id
  outside : t'.inSession = false
  rank : t'.rank n = t.rank n + 1
  inRange : t'.InRange n

/-- The two outcomes of a round. -/
theorem Resumed.again_or_completed (hr : t.Resumed h n r t') (hn : n < 2 ^ 32) (ht : t.InRange n) :
    (∃ l, l.Unlimited ∧ t.inSession = true ∧ t' = t.setPc (.send l) ∧ ∀ buf, r = .datagram buf → ¬ t.Accepts h buf) ∨
    ∃ buf, r = .datagram buf ∧ t.Accepts h buf ∧ t.Completed n t' := by
  have hnext : ∀ pid, t.target = some pid → (pid + 1).toNat = pid.toNat + 1 ∧ (pid + 1).toNat ≤ n := by
    intro pid hpid
    have hlt := ht pid hpid
    have hadd : (pid + 1).toNat = pid.toNat + 1 := toNat_add_one (by omega)
    omega
  cases hr with
  | @again _ l hin hl hr => exact .inl ⟨l, hl, hin, rfl, hr⟩
  | @data pid seqs pc buf a hp ha hv =>
    obtain ⟨hadd, hle⟩ := hnext pid (by simp [target, hp])
    refine .inr ⟨buf, rfl, by simp only [Accepts, hp]; exact ⟨a, ha, hv⟩, rfl, inSession_dataLoop _ _, ?_,
      inRange_dataLoop _ _⟩
    rw [rank_dataLoop _ hle, hadd]
    simp only [Sender.rank, hp]
  | @seq pid m pc buf a hp ha hv =>
    obtain ⟨hadd, hle⟩ := hnext pid (by simp [target, hp])
    refine .inr ⟨buf, rfl, by simp only [Accepts, hp]; exact ⟨a, ha, hv⟩, rfl, inSession_seqLoop _ _, ?_,
      inRange_seqLoop _ _⟩
    rw [rank_seqLoop _ hle, hadd]
    simp only [Sender.rank, hp]
    omega

end Sender

/-! ### What a step means for a thread -/

/-- The thread `tid` in state `t`, over a step `l` from `s`. -/
inductive Sender.Moves (cfg : Config) (s : Sys) (tid : Nat) (t : Sender) : Label → Sender → Prop
  | rest {l : Label} (hl : l.thread ≠ some tid) : Moves cfg s tid t l t
  | lock {lk : Link} (hlk : t.link = some lk) (hpc : t.pc = some .enter) (hm : s.mutex lk = none) :
      Moves cfg s tid t (.lock tid) (t.setPc (.send (.start kUnlimitedAttempts)))
  | send {l : SendLoop} (hpc : t.pc = some (.send l)) : Moves cfg s tid t (.send tid) (t.setPc (.recv l))
  | again {l : Label} {l₀ l₁ : SendLoop} (hl : l = .timeout tid ∨ ∃ lk j, l = .receive tid lk j)
      (hpc : t.pc = some (.recv l₀)) (hl₁ : l₁.Unlimited)
      (hrej : ∀ lk j a, l = .receive tid lk j → (s.answers lk)[j]? = some a → ¬ t.Accepts (cfg.host t.id) a.buf) :
      Moves cfg s tid t l (t.setPc (.send l₁))
  | accept {lk : Link} {j : Nat} {a : Answer} {t' : Sender} {l₀ : SendLoop} (hlk : t.link = some lk)
      (hpc : t.pc = some (.recv l₀)) (ha : (s.answers lk)[j]? = some a) (hacc : t.Accepts (cfg.host t.id) a.buf)
      (ht' : t.Completed cfg.n t') : Moves cfg s tid t (.receive tid lk j) t'

namespace Sys

/-- A mutex is held by the thread that is in a call on the client, if there is one. -/
structure Locked (cfg : Config) (s : Sys) : Prop where
  thread : ∀ tid t, s.senders tid = some t → t.Unlimited ∧ t.InRange cfg.n
  mutex : ∀ lk tid, s.mutex lk = some tid ↔ ∃ t, s.senders tid = some t ∧ t.link = some lk ∧ t.inSession = true

end Sys

variable {cfg : Config} {s s' : Sys} {l : Label} {ls ls' : List Label} {tid : Nat} {t t' : Sender} {lk : Link}

theorem Sender.exists_recv_of_afterReceive {h : HostOrder} {n : Nat} {r : Received}
    (ht : t.afterReceive h n r = some t') : ∃ l, t.pc = some (.recv l) := by
  unfold afterReceive at ht
  split at ht
  · next hp => exact ⟨_, by rw [Sender.pc, hp]⟩
  · next hp => exact ⟨_, by rw [Sender.pc, hp]⟩
  · cases ht

namespace Sys.Locked

/-- What a return of `recvfrom` does to the thread. -/
theorem moves_of_afterReceive (h : s.Locked cfg) (ht : s.senders tid = some t) (hlk : t.link = some lk) {r : Received}
    (hl : l = .timeout tid ∧ r = .timeout ∨
      ∃ j a, l = .receive tid lk j ∧ (s.answers lk)[j]? = some a ∧ r = .datagram a.buf)
    (ht' : t.afterReceive (cfg.host t.id) cfg.n r = some t') : t.Moves cfg s tid l t' := by
  obtain ⟨hu, hr⟩ := h.thread tid t ht
  obtain ⟨l₀, hpc⟩ := Sender.exists_recv_of_afterReceive ht'
  rcases (Sender.resumed_of_afterReceive hu ht').again_or_completed cfg.n_lt hr with
    ⟨l₁, hl₁, hin, rfl, hrej⟩ | ⟨buf, rfl, hacc, hdone⟩
  · refine .again ?_ hpc hl₁ ?_
    · rcases hl with ⟨rfl, -⟩ | ⟨j, a, rfl, -, -⟩
      · exact .inl rfl
      · exact .inr ⟨lk, j, rfl⟩
    · rintro lk' j' a' rfl ha'
      rcases hl with ⟨hl, -⟩ | ⟨j, a, hl, ha, rfl⟩
      · cases hl
      · cases hl
        obtain rfl := Option.some.inj (ha.symm.trans ha')
        exact hrej _ rfl
  · rcases hl with ⟨-, hr⟩ | ⟨j, a, rfl, ha, hr⟩
    · cases hr
    · cases hr
      exact .accept hlk hpc ha hacc hdone

theorem moves (h : s.Locked cfg) (hs : Step cfg s l s') (ht : s.senders tid = some t) :
    ∃ t', s'.senders tid = some t' ∧ t.Moves cfg s tid l t' := by
  have hother : ∀ {i : Nat} {u : Sender}, i ≠ tid → l.thread = some i →
      s'.senders = Function.update s.senders i (some u) →
      ∃ t', s'.senders tid = some t' ∧ t.Moves cfg s tid l t' := by
    intro i u hi hl hse
    refine ⟨t, by rw [hse, Function.update_of_ne (Ne.symm hi), ht], .rest ?_⟩
    rw [hl]
    exact fun heq => hi (Option.some.inj heq)
  cases hs with
  | @launch i id msgId data hid hnone =>
    have hi : tid ≠ i := by rintro rfl; simp [ht] at hnone
    exact ⟨t, by simp [Function.update_of_ne hi, ht], .rest (by simp [Label.thread])⟩
  | @lock i u lk hu hlk hpc hm =>
    by_cases hi : i = tid
    · subst hi
      obtain rfl := Option.some.inj (ht.symm.trans hu)
      exact ⟨_, Function.update_self .., .lock hlk hpc hm⟩
    · exact hother hi rfl rfl
  | @send i u lk l₀ buf hu hlk hbuf hpc =>
    by_cases hi : i = tid
    · subst hi
      obtain rfl := Option.some.inj (ht.symm.trans hu)
      exact ⟨_, Function.update_self .., .send hpc⟩
    · exact hother hi rfl rfl
  | @timeout i u u' lk hu hlk hu' =>
    by_cases hi : i = tid
    · subst hi
      obtain rfl := Option.some.inj (ht.symm.trans hu)
      exact ⟨_, Function.update_self .., h.moves_of_afterReceive ht hlk (.inl ⟨rfl, rfl⟩) hu'⟩
    · exact hother hi rfl rfl
  | @receive i j u u' lk a hu hlk ha hu' =>
    by_cases hi : i = tid
    · subst hi
      obtain rfl := Option.some.inj (ht.symm.trans hu)
      exact ⟨_, Function.update_self .., h.moves_of_afterReceive ht hlk (.inr ⟨j, a, rfl, ha, rfl⟩) hu'⟩
    · exact hother hi rfl rfl
  | serve => exact ⟨t, ht, .rest (by simp [Label.thread])⟩

end Sys.Locked

/-! ### The mutexes -/

namespace Sender.Moves

theorem rank_le (h : t.Moves cfg s tid l t') : t.rank cfg.n ≤ t'.rank cfg.n := by
  cases h with
  | rest => exact Nat.le_refl _
  | lock | send | again => rw [Sender.rank_setPc]
  | accept _ _ _ _ ht' => rw [ht'.rank]; omega

theorem id (h : t.Moves cfg s tid l t') : t'.id = t.id := by
  cases h with
  | accept _ _ _ _ ht' => exact ht'.id
  | rest | lock | send | again => rfl

/-- In a call the thread stays on its client until the call is completed. -/
theorem inSession (h : t.Moves cfg s tid l t') (hin : t.inSession = true) :
    t'.inSession = true ∧ t'.link = t.link ∧ t'.rank cfg.n = t.rank cfg.n ∧
      (∀ hst, t'.datagram hst = t.datagram hst) ∨ t.Completed cfg.n t' := by
  have hset : ∀ {pc : Pc} {l₀ : SendLoop}, pc = .send l₀ ∨ pc = .recv l₀ → (t.setPc pc).inSession = true := by
    intro pc l₀ hpc
    refine Sender.inSession_eq_true_iff.2 ⟨l₀, ?_⟩
    rw [Sender.pc_setPc (Sender.pc_ne_none_of_inSession hin)]
    simpa using hpc
  cases h with
  | rest => exact .inl ⟨hin, rfl, rfl, fun _ => rfl⟩
  | lock => exact .inl ⟨hset (.inl rfl), by simp, by simp, by simp⟩
  | send => exact .inl ⟨hset (.inr rfl), by simp, by simp, by simp⟩
  | again => exact .inl ⟨hset (.inl rfl), by simp, by simp, by simp⟩
  | accept _ _ _ _ ht' => exact .inr ht'

theorem inRange (h : t.Moves cfg s tid l t') (ht : t.InRange cfg.n) : t'.InRange cfg.n := by
  cases h with
  | rest => exact ht
  | lock | send | again => exact Sender.inRange_setPc ht
  | accept _ _ _ _ ht' => exact ht'.inRange

theorem unlimited (h : t.Moves cfg s tid l t') (ht : t.Unlimited) : t'.Unlimited := by
  cases h with
  | rest => exact ht
  | lock =>
    refine .setPc fun l hl => ?_
    obtain rfl : SendLoop.start kUnlimitedAttempts = l := by simpa using hl
    exact SendLoop.unlimited_start
  | @send l hpc =>
    refine .setPc fun l' hl' => ?_
    obtain rfl : l = l' := by simpa using hl'
    exact ht l (.inl hpc)
  | @again _ _ l₁ _ _ hl₁ =>
    refine .setPc fun l' hl' => ?_
    obtain rfl : l₁ = l' := by simpa using hl'
    exact hl₁
  | accept _ _ _ _ ht' =>
    intro l hl
    have := Sender.inSession_eq_true_iff.2 ⟨l, hl⟩
    rw [ht'.outside] at this
    cases this

end Sender.Moves

namespace Sys

theorem locked_init (cfg : Config) : (init cfg).Locked cfg where
  thread tid t ht := by simp [init] at ht
  mutex lk tid := by simp [init]

namespace Locked

theorem unique (h : s.Locked cfg) {tid' : Nat} {t' : Sender} (ht : s.senders tid = some t) (hlk : t.link = some lk)
    (hin : t.inSession = true) (ht' : s.senders tid' = some t') (hlk' : t'.link = some lk)
    (hin' : t'.inSession = true) : tid = tid' := by
  have hm := (h.mutex lk tid).2 ⟨t, ht, hlk, hin⟩
  exact Option.some.inj (hm.symm.trans ((h.mutex lk tid').2 ⟨t', ht', hlk', hin'⟩))

theorem mutex_ne (h : s.Locked cfg) (ht : ∀ t, s.senders tid = some t → t.link = some lk → t.inSession = false) :
    s.mutex lk ≠ some tid := by
  intro hm
  obtain ⟨t, hst, hlk, hin⟩ := (h.mutex lk tid).1 hm
  rw [ht t hst hlk] at hin
  cases hin

/-- A step of thread `tid` to `t'`, when the other threads hold what they held. -/
theorem setThread (h : s.Locked cfg) (hse : s'.senders = Function.update s.senders tid (some t'))
    (ht' : t'.Unlimited ∧ t'.InRange cfg.n)
    (hm : ∀ lk i, s'.mutex lk = some i ↔
      i = tid ∧ t'.link = some lk ∧ t'.inSession = true ∨ i ≠ tid ∧ s.mutex lk = some i) : s'.Locked cfg := by
  refine ⟨fun i u hu => ?_, fun lk i => ?_⟩
  · rcases eq_or_eq_some_of_update (hse ▸ hu) with ⟨-, rfl⟩ | hu
    · exact ht'
    · exact h.thread i u hu
  · rw [hm, hse]
    by_cases hi : i = tid
    · subst hi
      simp [Function.update_self]
    · rw [Function.update_of_ne hi, ← h.mutex lk i]
      simp [hi]

/-- A step in which the thread stays in its call, or outside of one. -/
theorem setThread_same (h : s.Locked cfg) (ht : s.senders tid = some t)
    (hse : s'.senders = Function.update s.senders tid (some t')) (hmu : s'.mutex = s.mutex)
    (ht' : t'.Unlimited ∧ t'.InRange cfg.n) (hlk : t'.link = t.link) (hin : t'.inSession = t.inSession) :
    s'.Locked cfg := by
  refine h.setThread hse ht' fun lk i => ?_
  rw [hmu, hlk, hin]
  by_cases hi : i = tid
  · subst hi
    rw [h.mutex]
    simp [ht]
  · simp [hi]

theorem resume (h : s.Locked cfg) (ht : s.senders tid = some t) (hlk : t.link = some lk)
    (hm : t.Moves cfg s tid l t') (hin : t.inSession = true) : (s.resume tid lk t').Locked cfg := by
  obtain ⟨hu, hr⟩ := h.thread tid t ht
  have ht' := And.intro (hm.unlimited hu) (hm.inRange hr)
  rcases hm.inSession hin with ⟨hin', hlk', -⟩ | hdone
  · exact h.setThread_same ht rfl (by simp [Sys.resume, hin']) ht' hlk' (hin'.trans hin.symm)
  · refine h.setThread rfl ht' fun lk' i => ?_
    simp only [Sys.resume, hdone.outside, Bool.false_eq_true, if_false, and_false, false_or]
    by_cases hl : lk' = lk
    · subst hl
      -- the thread held this mutex
      rw [Function.update_self, (h.mutex lk' tid).2 ⟨t, ht, hlk, hin⟩]
      simp [eq_comm]
    · rw [Function.update_of_ne hl]
      refine ⟨fun hi => ⟨?_, hi⟩, And.right⟩
      rintro rfl
      obtain ⟨u, hu, hlu, -⟩ := (h.mutex lk' i).1 hi
      obtain rfl := Option.some.inj (ht.symm.trans hu)
      exact hl (Option.some.inj (hlu.symm.trans hlk))

theorem step (h : s.Locked cfg) (hs : Step cfg s l s') : s'.Locked cfg := by
  cases hs with
  | @launch tid id msgId data hid hnone =>
    refine h.setThread rfl ⟨Sender.unlimited_dataLoop _ _ _ _, Sender.inRange_dataLoop _ _⟩ fun lk i => ?_
    rw [show (Sender.launch cfg.n id msgId data).inSession = false from Sender.inSession_dataLoop _ _]
    have hne : s.mutex lk ≠ some tid := h.mutex_ne (by simp [hnone])
    by_cases hi : i = tid
    · subst hi
      simp [hne]
    · simp [hi]
  | @lock tid t lk ht hlk hpc hm =>
    obtain ⟨hu, hr⟩ := h.thread tid t ht
    have hmove : t.Moves cfg s tid (.lock tid) _ := .lock hlk hpc hm
    have hout : t.inSession = false := by simp [Sender.inSession, hpc]
    have hin : (t.setPc (.send (.start kUnlimitedAttempts))).inSession = true :=
      Sender.inSession_eq_true_iff.2 ⟨_, .inl (Sender.pc_setPc (by simp [hpc]))⟩
    refine h.setThread rfl ⟨hmove.unlimited hu, hmove.inRange hr⟩ fun lk' i => ?_
    simp only [Sender.link_setPc, hlk, Option.some.injEq, hin, and_true]
    by_cases hl : lk' = lk
    · subst hl
      simp [hm, eq_comm]
    · have hne : s.mutex lk' ≠ some tid := h.mutex_ne (by simp [ht, hout])
      rw [Function.update_of_ne hl]
      by_cases hi : i = tid
      · subst hi
        simp [hne, Ne.symm hl]
      · simp [hi]
  | @send tid t lk l buf ht hlk hbuf hpc =>
    obtain ⟨hu, hr⟩ := h.thread tid t ht
    have hmove : t.Moves cfg s tid (.send tid) _ := .send hpc
    have hin : t.inSession = true := Sender.inSession_eq_true_iff.2 ⟨l, .inl hpc⟩
    have hin' : (t.setPc (.recv l)).inSession = true :=
      Sender.inSession_eq_true_iff.2 ⟨l, .inr (Sender.pc_setPc (by simp [hpc]))⟩
    exact h.setThread_same ht rfl rfl ⟨hmove.unlimited hu, hmove.inRange hr⟩ (by simp) (hin'.trans hin.symm)
  | @timeout tid t t' lk ht hlk ht' =>
    obtain ⟨l₀, hpc⟩ := Sender.exists_recv_of_afterReceive ht'
    exact h.resume ht hlk (h.moves_of_afterReceive ht hlk (.inl ⟨rfl, rfl⟩) ht')
      (Sender.inSession_eq_true_iff.2 ⟨l₀, .inr hpc⟩)
  | @receive tid j t t' lk a ht hlk ha ht' =>
    obtain ⟨l₀, hpc⟩ := Sender.exists_recv_of_afterReceive ht'
    exact h.resume ht hlk (h.moves_of_afterReceive ht hlk (.inr ⟨j, a, rfl, ha, rfl⟩) ht')
      (Sender.inSession_eq_true_iff.2 ⟨l₀, .inr hpc⟩)
  | serve => exact ⟨h.thread, h.mutex⟩

theorem of_run (h : cfg.lts.Run ls s) : s.Locked cfg :=
  h.induction (P := fun _ s => s.Locked cfg) (locked_init cfg) fun _ _ _ _ _ ih hs => ih.step (step_iff.1 hs)

/-- During a call nothing but the datagram of the call is sent on the client. -/
theorem requests_step (h : s.Locked cfg) (hs : Step cfg s l s') (ht : s.senders tid = some t)
    (hlk : t.link = some lk) (hin : t.inSession = true) :
    s'.requests lk = s.requests lk ∨
      ∃ b, t.datagram (cfg.host t.id) = some b ∧ s'.requests lk = s.requests lk ++ [b] := by
  cases hs with
  | @send i u lk' l₀ buf hu hlu hbuf hpc =>
    by_cases hl : lk = lk'
    · subst hl
      obtain rfl := h.unique ht hlk hin hu hlu (Sender.inSession_eq_true_iff.2 ⟨l₀, .inl hpc⟩)
      obtain rfl := Option.some.inj (ht.symm.trans hu)
      exact .inr ⟨buf, hbuf, Function.update_self ..⟩
    · exact .inl (Function.update_of_ne hl ..)
  | launch | lock | timeout | receive | serve => exact .inl rfl

end Locked

end Sys

theorem run_induction_from {P : Sys → Prop} (hrun : cfg.lts.Run ls s) (hP : P s)
    (hstep : ∀ s l s', s.Locked cfg → P s → Step cfg s l s' → P s') (hrun' : cfg.lts.Run (ls ++ ls') s') : P s' :=
  Lts.Along.induction_from (G := fun _ _ => True) hrun hP
    (fun _ s l s' hrun _ hP _ hs => hstep s l s' (.of_run hrun) hP (step_iff.1 hs)) (fun _ _ _ _ _ _ => trivial) hrun'

/-- A thread from a state in which it is in a call. Either the call goes on and all that was sent on the client
since are copies of its datagram, or the thread has completed it. -/
theorem call_continues (hrun : cfg.lts.Run ls s) (hrun' : cfg.lts.Run (ls ++ ls') s') (ht : s.senders tid = some t)
    (hlk : t.link = some lk) (hin : t.inSession = true) {b : Buf} (hb : t.datagram (cfg.host t.id) = some b) :
    ∃ t', s'.senders tid = some t' ∧ t'.id = t.id ∧
      (t.rank cfg.n < t'.rank cfg.n ∨ t'.rank cfg.n = t.rank cfg.n ∧ t'.link = some lk ∧ t'.inSession = true ∧
        t'.datagram (cfg.host t.id) = some b ∧ ∃ k, s'.requests lk = s.requests lk ++ List.replicate k b) := by
  refine run_induction_from (P := fun s' => ∃ t', s'.senders tid = some t' ∧ t'.id = t.id ∧
      (t.rank cfg.n < t'.rank cfg.n ∨ t'.rank cfg.n = t.rank cfg.n ∧ t'.link = some lk ∧ t'.inSession = true ∧
        t'.datagram (cfg.host t.id) = some b ∧ ∃ k, s'.requests lk = s.requests lk ++ List.replicate k b)) hrun
    ⟨t, ht, rfl, .inr ⟨rfl, hlk, hin, hb, 0, by simp⟩⟩ ?_ hrun'
  rintro s₁ l s₂ hL ⟨t₁, ht₁, hid, hcase⟩ hs
  obtain ⟨t₂, ht₂, hm⟩ := hL.moves hs ht₁
  refine ⟨t₂, ht₂, (hm.id).trans hid, ?_⟩
  rcases hcase with hlt | ⟨hr, hlk₁, hin₁, hb₁, k, hk⟩
  · exact .inl (Nat.lt_of_lt_of_le hlt hm.rank_le)
  · rcases hm.inSession hin₁ with ⟨hin₂, hlk₂, hr₂, hdg⟩ | hdone
    · refine .inr ⟨hr₂.trans hr, hlk₂.trans hlk₁, hin₂, (hdg _).trans hb₁, ?_⟩
      rcases hL.requests_step hs ht₁ hlk₁ hin₁ with heq | ⟨b', hb', heq⟩
      · exact ⟨k, heq.trans hk⟩
      · obtain rfl : b' = b := Option.some.inj (hb'.symm.trans (hid ▸ hb₁))
        exact ⟨k + 1, by rw [heq, hk, List.append_assoc, ← List.replicate_succ']⟩
    · exact .inl (by rw [hdone.rank]; omega)

/-- Calls on one client do not overlap. In every state of every run a mutex is held by a thread exactly if that
thread is in a call on the client, so there is at most one; and between two states in which the thread is in
the same call, all that was sent on the client are copies of the datagram of the call. -/
theorem sessions_exclusive (hrun : cfg.lts.Run ls s) :
    (∀ lk tid, s.mutex lk = some tid ↔ ∃ t, s.senders tid = some t ∧ t.link = some lk ∧ t.inSession = true) ∧
    (∀ lk tid tid' t t', s.senders tid = some t → s.senders tid' = some t' → t.link = some lk → t'.link = some lk →
      t.inSession = true → t'.inSession = true → tid = tid') ∧
    ∀ ls' s' tid t t' lk b, cfg.lts.Run (ls ++ ls') s' → s.senders tid = some t → s'.senders tid = some t' →
      t.link = some lk → t.inSession = true → t.datagram (cfg.host t.id) = some b → t'.rank cfg.n = t.rank cfg.n →
      t'.inSession = true ∧ t'.link = some lk ∧ ∃ k, s'.requests lk = s.requests lk ++ List.replicate k b := by
  have hL : s.Locked cfg := .of_run hrun
  refine ⟨hL.mutex, fun lk tid tid' t t' ht ht' hlk hlk' hin hin' => hL.unique ht hlk hin ht' hlk' hin', ?_⟩
  intro ls' s' tid t t' lk b hrun' ht ht' hlk hin hb hr
  obtain ⟨u, hu, -, hcase⟩ := call_continues hrun hrun' ht hlk hin hb
  obtain rfl := Option.some.inj (ht'.symm.trans hu)
  rcases hcase with hlt | ⟨-, hlk', hin', -, hk⟩
  · omega
  · exact ⟨hin', hlk', hk⟩

/-- Two threads of process 0 want to send to process 0. The one that has the client sends twice. -/
theorem sessions_exclusive_contended : ∃ s s' b k,
    single.lts.Run [.launch 0 0 7 50, .launch 1 0 8 60, .lock 0] s ∧ s.step single (.lock 1) = none ∧
    single.lts.Run ([.launch 0 0 7 50, .launch 1 0 8 60, .lock 0] ++ [.send 0, .timeout 0, .send 0]) s' ∧
    s'.requests ⟨0, 0⟩ = s.requests ⟨0, 0⟩ ++ List.replicate k b := by
  let t : Sender := ⟨0, 7, 50, .data 0 [0] (.send (.start kUnlimitedAttempts))⟩
  have h : (single.lts.exec [.launch 0 0 7 50, .launch 1 0 8 60, .lock 0]).map
      (fun s => (s.senders 0, (s.step single (.lock 1)).isSome)) = some (some t, false) := by decide
  have h' : (single.lts.exec ([.launch 0 0 7 50, .launch 1 0 8 60, .lock 0] ++ [.send 0, .timeout 0, .send 0])).map
      (fun s => s.senders 0) = some (some (t.setPc (.recv (SendLoop.start kUnlimitedAttempts).backOff.next))) := by decide
  obtain ⟨s, hrun, heq⟩ := Option.map_eq_some_iff.1 h
  obtain ⟨s', hrun', ht'⟩ := Option.map_eq_some_iff.1 h'
  obtain ⟨ht, hlock⟩ := Prod.mk.inj heq
  obtain ⟨-, -, k, hk⟩ := (sessions_exclusive hrun).2.2 _ s' 0 t _ ⟨0, 0⟩ _ hrun' ht ht' rfl rfl rfl rfl
  exact ⟨s, s', _, k, hrun, by simpa using hlock, hrun', hk⟩

end IsisMulticast

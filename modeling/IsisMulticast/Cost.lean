import IsisMulticast.Listener
import IsisMulticast.Sessions
import Mathlib.Algebra.BigOperators.Group.Finset.Basic
import Mathlib.Algebra.Order.BigOperators.Group.Finset

/-!
# What a multicast costs

A thread that is answered at once sends `2 * n` datagrams. A timeout costs one more, and its answer may stay on the
socket, which the threads of a process share and nobody drains: each later call on the socket then reads an old
answer, sends again, and leaves an answer behind in its turn. So the later multicasts of the process pay for the
timeout too. Over links that keep the order it costs each of them two datagrams at most (`multicast_cost`).

`next lk` is the number of the first request on `lk` whose answer is not read yet. The requests from there on are at
most as many as there were timeouts, up to the one that is waited for (`Ledger.debt`). A call that started at
request `base` has not read beyond it, so this bounds what the call has sent.
-/

namespace IsisMulticast
open Lib

variable {cfg : Config} {s s' : Sys} {l : Label} {ls : List Label} {tid : Nat} {t t' : Sender} {lk : Link}
  {T T' next next' : Link → Nat} {S S' : Nat → Nat}

/-! ### Counting -/

/-- The step is a timeout of a call on `lk`. -/
def Sys.timesOut (s : Sys) (lk : Link) : Label → Bool
  | .timeout tid => (s.senders tid).bind Sender.link = some lk
  | _ => false

/-- The step is a timeout of a call in process `p`. -/
def Sys.timesOutAt (s : Sys) (p : Word) : Label → Bool
  | .timeout tid => (s.senders tid).map (·.id) = some p
  | _ => false

def timeoutsOn (cfg : Config) (ls : List Label) (lk : Link) : Nat := cfg.lts.count (fun s => s.timesOut lk) ls

def timeoutsAt (cfg : Config) (ls : List Label) (p : Word) : Nat := cfg.lts.count (fun s => s.timesOutAt p) ls

/-- The timeouts of a process are those on its clients. -/
theorem sum_timeoutsOn (hrun : cfg.lts.Run ls s) (p : Word) :
    ∑ q ∈ Finset.range cfg.n, timeoutsOn cfg ls ⟨p, UInt32.ofNat q⟩ = timeoutsAt cfg ls p := by
  refine hrun.induction (P := fun ls _ => ∑ q ∈ Finset.range cfg.n, timeoutsOn cfg ls ⟨p, UInt32.ofNat q⟩ =
    timeoutsAt cfg ls p) (by simp [timeoutsOn, timeoutsAt, Lts.count, Lts.countFrom]) ?_
  intro ls s l s' hrun ih hs
  unfold timeoutsOn timeoutsAt at ih ⊢
  simp only [Lts.count_concat hrun, Finset.sum_add_distrib, ih, Nat.add_left_cancel_iff]
  cases step_iff.1 hs with
  | @timeout tid t t' lk ht hlk ht' =>
    obtain ⟨pid, hpid, rfl⟩ := Option.map_eq_some_iff.1 hlk
    have hlt := ((Sys.Locked.of_run hrun).thread tid t ht).2 pid hpid
    simp only [Sys.timesOut, Sys.timesOutAt, ht, Option.bind_some, hlk, Option.map_some, Option.some.injEq,
      decide_eq_true_eq]
    by_cases hp : t.id = p
    · subst hp
      rw [if_pos rfl, Finset.sum_eq_single pid.toNat]
      · simp
      · intro q hq hne
        refine if_neg fun heq => hne ?_
        rw [(Link.mk.inj heq).2, cfg.toNat_ofNat (Finset.mem_range.1 hq)]
      · intro hnot
        exact absurd (Finset.mem_range.2 hlt) hnot
    · rw [if_neg hp]
      exact Finset.sum_eq_zero fun q _ => if_neg fun heq => hp (Link.mk.inj heq).1
  | launch | lock | send | receive | serve => simp [Sys.timesOut, Sys.timesOutAt]

/-- What the first `k` calls of a thread may cost, if there were `T lk` timeouts on `lk`. -/
def cost (n : Nat) (T : Link → Nat) (id : Word) (k : Nat) : Nat :=
  ∑ i ∈ Finset.range k, (1 + T ⟨id, UInt32.ofNat (i % n)⟩)

theorem cost_succ (n : Nat) (T : Link → Nat) (id : Word) (k : Nat) :
    cost n T id (k + 1) = cost n T id k + (1 + T ⟨id, UInt32.ofNat (k % n)⟩) := Finset.sum_range_succ _ _

theorem cost_mono {n : Nat} (hT : ∀ lk, T lk ≤ T' lk) (id : Word) (k : Nat) : cost n T id k ≤ cost n T' id k :=
  Finset.sum_le_sum fun _ _ => Nat.add_le_add_left (hT _) 1

/-- A thread uses every client of its process twice. -/
theorem cost_two_mul (n : Nat) (T : Link → Nat) (id : Word) :
    cost n T id (2 * n) = 2 * (n + ∑ q ∈ Finset.range n, T ⟨id, UInt32.ofNat q⟩) := by
  have hfirst : ∑ i ∈ Finset.range n, (1 + T ⟨id, UInt32.ofNat (i % n)⟩) =
      n + ∑ q ∈ Finset.range n, T ⟨id, UInt32.ofNat q⟩ := by
    rw [Finset.sum_add_distrib, ← Finset.card_eq_sum_ones, Finset.card_range]
    congr 1
    refine Finset.sum_congr rfl fun i hi => ?_
    rw [Nat.mod_eq_of_lt (Finset.mem_range.1 hi)]
  rw [cost, Nat.two_mul, Finset.sum_range_add]
  simp only [Nat.add_mod_left, hfirst]
  omega

/-! ### Waiting for an answer -/

/-- The thread waits for an answer. -/
def Sender.awaits (t : Sender) : Bool :=
  match t.pc with
  | some (.recv _) => true
  | _ => false

/-- Nobody waits for an answer on `lk`. -/
def Sys.Quiet (s : Sys) (lk : Link) : Prop := ∀ tid t, s.senders tid = some t → t.link = some lk → t.awaits = false

namespace Sender

theorem awaits_of_recv {l : SendLoop} (h : t.pc = some (.recv l)) : t.awaits = true := by simp [awaits, h]

theorem awaits_of_ne {pc : Pc} (h : t.pc = some pc) (hpc : ∀ l, pc ≠ .recv l) : t.awaits = false := by
  cases pc with
  | recv l => exact absurd rfl (hpc l)
  | enter | send => simp [awaits, h]

theorem inSession_of_awaits (h : t.awaits = true) : t.inSession = true := by
  unfold awaits at h
  split at h
  · next l hpc => exact inSession_eq_true_iff.2 ⟨l, .inr hpc⟩
  · cases h

theorem awaits_of_outside (h : t.inSession = false) : t.awaits = false := by
  cases ha : t.awaits with
  | false => rfl
  | true => rw [inSession_of_awaits ha] at h; cases h

theorem link_of_rank {n : Nat} (hr : t.InRange n) (hlk : t.link = some lk) :
    lk = ⟨t.id, UInt32.ofNat (t.rank n % n)⟩ := by
  obtain ⟨pid, hpid, rfl⟩ := Option.map_eq_some_iff.1 hlk
  have hlt := hr pid hpid
  unfold target at hpid
  unfold rank
  cases hph : t.phase with
  | data pid' seqs pc =>
    obtain rfl : pid' = pid := by simpa [hph] using hpid
    simp [Nat.mod_eq_of_lt hlt]
  | seq pid' m pc =>
    obtain rfl : pid' = pid := by simpa [hph] using hpid
    simp [Nat.mod_eq_of_lt hlt]
  | finished m => simp [hph] at hpid

end Sender

theorem Sys.Quiet.of_update (hq : s'.Quiet lk) (hse : s'.senders = Function.update s.senders tid (some t'))
    (ht : ∀ t, s.senders tid = some t → t.link = some lk → t.awaits = false) : s.Quiet lk := by
  intro i u hu hlk
  by_cases hi : i = tid
  · subst hi
    exact ht u hu hlk
  · exact hq i u (by rw [hse, Function.update_of_ne hi, hu]) hlk

/-! ### What the servers answer -/

/-- `buf` is what process `q` answers to the datagram `b`. -/
inductive Replied (cfg : Config) (q : Word) (b : Buf) : Buf → Prop
  | data {m : DataMessage} {a : AckMessage} (hm : dataMsgFromBuf (cfg.host q) b = some m) (hk : a.key = m.key)
      (hp : a.proposer = q) : Replied cfg q b (sendAckMsg (cfg.host q) a)
  | seq {m : SeqMessage} (hm : seqMsgFromBuf (cfg.host q) b = some m) :
      Replied cfg q b (sendSeqAckMsg (cfg.host q) { sender := m.sender, msgId := m.msgId })

namespace Server.Inv

variable {sv : Server} {q : Word}

theorem onReceive (h : sv.Inv cfg q) (b : Buf) (junk : Word) : (sv.after (sv.process.onReceive b junk)).Inv cfg q := by
  have hr := sv.process.reacts b junk
  generalize sv.process.onReceive b junk = o at hr ⊢
  cases hr with
  | data => exact h.acceptData _
  | seq => exact h.acceptSeq _ _
  | drop =>
    rw [after_drop h.listening]
    exact h

theorem datagrams_onReceive (h : sv.Inv cfg q) (b : Buf) (junk : Word) :
    (sv.process.onReceive b junk).datagrams = [] ∨
      ∃ buf, (sv.process.onReceive b junk).datagrams = [buf] ∧ Replied cfg q b buf := by
  have hr := sv.process.reacts b junk
  generalize sv.process.onReceive b junk = o at hr ⊢
  cases hr with
  | @data m hbuf hm =>
    obtain ⟨a, -, hk, hp, hdg⟩ := h.answer_acceptData m
    exact .inr ⟨_, hdg, .data (h.host_eq ▸ hm) hk hp⟩
  | @seq m hbuf hm => exact .inr ⟨_, h.answer_acceptSeq m junk, .seq (h.host_eq ▸ hm)⟩
  | drop => exact .inl rfl

end Server.Inv

/-- What holds on the network also when message ids repeat: an answer is the reply to the request it names. -/
structure Sys.Exchange (cfg : Config) (s : Sys) : Prop where
  server : ∀ q, q.toNat < cfg.n → (s.servers q).Inv cfg q
  answer : ∀ lk, ∀ a ∈ s.answers lk, ∃ b, (s.requests lk)[a.request]? = some b ∧ Replied cfg lk.server b a.buf

namespace Sys.Exchange

theorem init (cfg : Config) : (Sys.init cfg).Exchange cfg where
  server q _ := Server.inv_init cfg q
  answer lk a ha := by simp [Sys.init] at ha

theorem frame (h : s.Exchange cfg) (hle : s.Le s') (hsv : s'.servers = s.servers) (hans : s'.answers = s.answers) :
    s'.Exchange cfg where
  server := hsv ▸ h.server
  answer lk a ha := by
    obtain ⟨b, hb, hab⟩ := h.answer lk a (hans ▸ ha)
    exact ⟨b, hle.getElem?_requests hb, hab⟩

theorem step (h : s.Exchange cfg) (hs : Step cfg s l s') : s'.Exchange cfg := by
  have hle := hs.le
  cases hs with
  | launch | lock | send | timeout | receive => exact h.frame hle rfl rfl
  | @serve lk j junk b hb hid hl =>
    have hsv := h.server _ hid
    refine ⟨fun q hq => ?_, fun lk' a ha => ?_⟩
    · by_cases hql : q = lk.server
      · subst hql
        rw [Sys.servers_served]
        exact hsv.onReceive b junk
      · rw [Sys.servers_served_of_ne hql]
        exact h.server q hq
    · rcases Sys.mem_update_append ha with hold | ⟨rfl, hnew⟩
      · exact h.answer lk' a hold
      · obtain ⟨buf, hbuf, rfl⟩ := List.mem_map.1 hnew
        rcases hsv.datagrams_onReceive b junk with hnil | ⟨buf', hone, hrep⟩
        · simp [hnil] at hbuf
        · obtain rfl := List.mem_singleton.1 (hone ▸ hbuf)
          exact ⟨b, hb, hrep⟩

theorem of_run (hrun : cfg.lts.Run ls s) : s.Exchange cfg :=
  hrun.induction (P := fun _ s => s.Exchange cfg) (init cfg) fun _ _ _ _ _ h hs => h.step (step_iff.1 hs)

/-- The reply to what the thread sends is accepted. -/
theorem accepts (ht : t.link = some lk) {b buf : Buf} {hst hst' : HostOrder} (hb : t.datagram hst = some b)
    (hrep : Replied cfg lk.server b buf) : t.Accepts hst' buf := by
  obtain ⟨q, hq, rfl⟩ := Option.map_eq_some_iff.1 ht
  cases hph : t.phase with
  | data pid seqs pc =>
    obtain rfl : pid = q := by simpa [Sender.target, hph] using hq
    obtain rfl : sendDataMsg hst t.dataMsg = b := by simpa [Sender.datagram, hph] using hb
    simp only [Sender.Accepts, hph]
    cases hrep with
    | @data m a hm hk hp =>
      rw [dataMsgFromBuf_sendDataMsg, Option.some.injEq] at hm
      have hkey : a.key = t.key := by rw [hk, ← hm]; rfl
      refine ⟨_, ackMsgFromBuf_sendAckMsg _ _ _, validAckMsg_iff.2 ?_⟩
      simpa [AckMessage.key, Sender.key, hp] using hkey
    | seq hm => simp at hm
  | seq pid m pc =>
    obtain rfl : sendSeqMsg hst m = b := by simpa [Sender.datagram, hph] using hb
    simp only [Sender.Accepts, hph]
    cases hrep with
    | data hm => simp at hm
    | @seq m' hm =>
      rw [seqMsgFromBuf_sendSeqMsg, Option.some.injEq] at hm
      refine ⟨_, seqAckMsgFromBuf_sendSeqAckMsg _ _ _, validSeqAckMsg_iff.2 ?_⟩
      simp [← hm]
  | finished m => simp [Sender.target, hph] at hq

/-- An answer to a request of the current call is accepted. -/
theorem accepts_of_mem_drop (h : s.Exchange cfg) (hlk : t.link = some lk) {j base : Nat} {a : Answer}
    (ha : (s.answers lk)[j]? = some a) (hle : base ≤ a.request)
    (hown : ∀ b ∈ (s.requests lk).drop base, t.datagram (cfg.host t.id) = some b) :
    t.Accepts (cfg.host t.id) a.buf := by
  obtain ⟨b, hb, hrep⟩ := h.answer lk a (List.mem_of_getElem? ha)
  have hdrop : b ∈ (s.requests lk).drop base := by
    refine List.mem_of_getElem? (i := a.request - base) ?_
    rw [List.getElem?_drop, Nat.add_sub_cancel' hle, hb]
  exact accepts hlk (hown b hdrop) hrep

end Sys.Exchange

/-! ### The accounts -/

/-- The account of a thread that has sent `sent` datagrams: at least one for each call, and in each call not more than
the call may cost. The current call has sent the requests from `base` on. -/
structure Account (cfg : Config) (s : Sys) (T next : Link → Nat) (t : Sender) (sent : Nat) : Prop where
  least : t.rank cfg.n + t.awaits.toNat ≤ sent
  outside : t.inSession = false → sent ≤ cost cfg.n T t.id (t.rank cfg.n)
  call : ∀ lk, t.link = some lk → t.inSession = true → ∃ base, next lk ≤ base ∧ base ≤ (s.requests lk).length ∧
    (∀ b ∈ (s.requests lk).drop base, t.datagram (cfg.host t.id) = some b) ∧
    sent ≤ cost cfg.n T t.id (t.rank cfg.n) + ((s.requests lk).length - base)

/-- The accounts after `T lk` timeouts on each `lk`, when thread `tid` has sent `S tid` datagrams. -/
structure Ledger (cfg : Config) (s : Sys) (T next : Link → Nat) (S : Nat → Nat) : Prop where
  fresh : ∀ tid, s.senders tid = none → S tid = 0
  next_le : ∀ lk, next lk ≤ (s.requests lk).length
  debt : ∀ lk, (s.requests lk).length ≤ next lk + T lk + 1
  quiet : ∀ lk, s.Quiet lk → (s.requests lk).length ≤ next lk + T lk
  account : ∀ tid t, s.senders tid = some t → Account cfg s T next t (S tid)

theorem Account.frame {sent : Nat} (h : Account cfg s T next t sent) (hT : ∀ lk, T lk ≤ T' lk)
    (hlk : ∀ lk, t.link = some lk → t.inSession = true → s'.requests lk = s.requests lk ∧ next' lk = next lk) :
    Account cfg s' T' next' t sent where
  least := h.least
  outside hout := (h.outside hout).trans (cost_mono hT _ _)
  call lk hl hin := by
    obtain ⟨hreq, hnext⟩ := hlk lk hl hin
    obtain ⟨base, hle, hlen, hown, hsent⟩ := h.call lk hl hin
    rw [hreq, hnext]
    exact ⟨base, hle, hlen, hown, hsent.trans (Nat.add_le_add_right (cost_mono hT _ _) _)⟩

namespace Ledger

theorem init (cfg : Config) : Ledger cfg (.init cfg) (fun _ => 0) (fun _ => 0) (fun _ => 0) where
  fresh _ _ := rfl
  next_le _ := Nat.zero_le _
  debt _ := Nat.zero_le _
  quiet _ _ := Nat.zero_le _
  account tid t ht := by simp [Sys.init] at ht

theorem setThread (h : Ledger cfg s T next S) (hse : s'.senders = Function.update s.senders tid (some t'))
    (hT : ∀ lk, T lk ≤ T' lk) (hS : ∀ i, i ≠ tid → S' i = S i)
    (hframe : ∀ i u lk, i ≠ tid → s.senders i = some u → u.link = some lk → u.inSession = true →
      s'.requests lk = s.requests lk ∧ next' lk = next lk)
    (hlink : ∀ lk, next' lk ≤ (s'.requests lk).length ∧ (s'.requests lk).length ≤ next' lk + T' lk + 1 ∧
      (s'.Quiet lk → (s'.requests lk).length ≤ next' lk + T' lk))
    (hacc : Account cfg s' T' next' t' (S' tid)) : Ledger cfg s' T' next' S' where
  fresh i hi := by
    by_cases heq : i = tid
    · subst heq
      simp [hse] at hi
    · rw [hse, Function.update_of_ne heq] at hi
      rw [hS i heq, h.fresh i hi]
  next_le lk := (hlink lk).1
  debt lk := (hlink lk).2.1
  quiet lk := (hlink lk).2.2
  account i u hu := by
    by_cases heq : i = tid
    · subst heq
      rw [hse, Function.update_self] at hu
      obtain rfl := Option.some.inj hu
      exact hacc
    · rw [hse, Function.update_of_ne heq] at hu
      rw [hS i heq]
      exact (h.account i u hu).frame hT fun lk => hframe i u lk heq hu

theorem served (h : Ledger cfg s T next S) (lk : Link) (j : Nat) (o : Outcome) :
    Ledger cfg (s.served lk j o) T next S where
  fresh := h.fresh
  next_le := h.next_le
  debt := h.debt
  quiet := h.quiet
  account tid t ht := (h.account tid t ht).frame (fun _ => Nat.le_refl _) fun _ _ _ => ⟨rfl, rfl⟩

theorem launch (h : Ledger cfg s T next S) {id msgId data : Word} (hnone : s.senders tid = none) :
    Ledger cfg { s with senders := Function.update s.senders tid (some (.launch cfg.n id msgId data)) } T next S := by
  have hout : (Sender.launch cfg.n id msgId data).inSession = false := Sender.inSession_dataLoop _ _
  have hrank : (Sender.launch cfg.n id msgId data).rank cfg.n = 0 := Sender.rank_dataLoop _ (Nat.zero_le _)
  refine h.setThread rfl (fun _ => Nat.le_refl _) (fun _ _ => rfl) (fun _ _ _ _ _ _ _ => ⟨rfl, rfl⟩) (fun lk => ?_) ?_
  · exact ⟨h.next_le lk, h.debt lk, fun hq => h.quiet lk (hq.of_update rfl (by simp [hnone]))⟩
  · rw [h.fresh tid hnone]
    refine ⟨?_, fun _ => Nat.zero_le _, fun lk _ hin => ?_⟩
    · rw [hrank, Sender.awaits_of_outside hout]
      exact Nat.le_refl _
    · rw [hout] at hin
      cases hin

theorem lock (h : Ledger cfg s T next S) (ht : s.senders tid = some t) (hpc : t.pc = some .enter)
    {m : Link → Option Nat} : Ledger cfg
      { s with
        senders := Function.update s.senders tid (some (t.setPc (.send (.start kUnlimitedAttempts))))
        mutex := m } T next S := by
  have hacc := h.account tid t ht
  have hout : t.inSession = false := by simp [Sender.inSession, hpc]
  have hawaits := Sender.awaits_of_outside hout
  have hpc' : (t.setPc (.send (.start kUnlimitedAttempts))).pc = some (.send (.start kUnlimitedAttempts)) :=
    Sender.pc_setPc (by simp [hpc])
  refine h.setThread rfl (fun _ => Nat.le_refl _) (fun _ _ => rfl) (fun _ _ _ _ _ _ _ => ⟨rfl, rfl⟩) (fun lk => ?_) ?_
  · refine ⟨h.next_le lk, h.debt lk, fun hq => h.quiet lk (hq.of_update rfl fun u hu _ => ?_)⟩
    rwa [Option.some.inj (hu.symm.trans ht)]
  · refine ⟨?_, fun hout' => ?_, fun lk hlk _ => ?_⟩
    · rw [Sender.rank_setPc, Sender.awaits_of_ne hpc' (by simp), ← hawaits]
      exact hacc.least
    · simp [Sender.inSession, hpc'] at hout'
    · -- the call starts at the next request
      refine ⟨(s.requests lk).length, h.next_le lk, Nat.le_refl _, by simp, ?_⟩
      rw [Sender.rank_setPc]
      exact (hacc.outside hout).trans (Nat.le_add_right _ _)

/-- Nobody else is in a call on the client. -/
theorem link_ne (hL : s.Locked cfg) (ht : s.senders tid = some t) (hlk : t.link = some lk) (hin : t.inSession = true)
    {i : Nat} {u : Sender} {lk' : Link} (hi : i ≠ tid) (hu : s.senders i = some u) (hlk' : u.link = some lk')
    (hin' : u.inSession = true) : lk' ≠ lk := by
  rintro rfl
  exact hi (hL.unique hu hlk' hin' ht hlk hin)

/-- A thread that has not sent yet is alone on its client, so nobody waits there. -/
theorem quiet_of_send (hL : s.Locked cfg) (ht : s.senders tid = some t) (hlk : t.link = some lk) {l : SendLoop}
    (hpc : t.pc = some (.send l)) : s.Quiet lk := by
  intro i u hu hlu
  by_cases hi : i = tid
  · subst hi
    obtain rfl := Option.some.inj (hu.symm.trans ht)
    exact Sender.awaits_of_ne hpc (by simp)
  · cases hw : u.awaits with
    | false => rfl
    | true =>
      have hin : t.inSession = true := Sender.inSession_eq_true_iff.2 ⟨l, .inl hpc⟩
      exact absurd rfl (link_ne hL ht hlk hin hi hu hlu (Sender.inSession_of_awaits hw))

theorem send (h : Ledger cfg s T next S) (hL : s.Locked cfg) (ht : s.senders tid = some t) (hlk : t.link = some lk)
    {l : SendLoop} {buf : Buf} (hbuf : t.datagram (cfg.host t.id) = some buf) (hpc : t.pc = some (.send l)) :
    Ledger cfg
      { s with
        senders := Function.update s.senders tid (some (t.setPc (.recv l)))
        requests := Function.update s.requests lk (s.requests lk ++ [buf]) } T next
      (Function.update S tid (S tid + 1)) := by
  have hacc := h.account tid t ht
  have hin : t.inSession = true := Sender.inSession_eq_true_iff.2 ⟨l, .inl hpc⟩
  have hawaits : t.awaits = false := Sender.awaits_of_ne hpc (by simp)
  have hpc' : (t.setPc (.recv l)).pc = some (.recv l) := Sender.pc_setPc (by simp [hpc])
  have hawaits' := Sender.awaits_of_recv hpc'
  have hother : ∀ u, s.senders tid = some u → u.awaits = false := fun u hu => by
    rwa [Option.some.inj (hu.symm.trans ht)]
  refine h.setThread rfl (fun _ => Nat.le_refl _) (fun i hi => Function.update_of_ne hi ..)
    (fun i u lk' hi hu hlk' hin' => ⟨Function.update_of_ne (link_ne hL ht hlk hin hi hu hlk' hin') .., rfl⟩)
    (fun lk' => ?_) ?_
  · by_cases hl : lk' = lk
    · subst hl
      have hnext := h.next_le lk'
      have hdebt := h.quiet lk' (quiet_of_send hL ht hlk hpc)
      simp only [Function.update_self, List.length_append, List.length_singleton]
      refine ⟨by omega, by omega, fun hq => ?_⟩
      have := hq tid _ (Function.update_self ..) (by simpa using hlk)
      rw [hawaits'] at this
      cases this
    · simp only [Function.update_of_ne hl]
      exact ⟨h.next_le lk', h.debt lk', fun hq => h.quiet lk' (hq.of_update rfl fun u hu _ => hother u hu)⟩
  · rw [Function.update_self]
    have hleast := hacc.least
    refine ⟨?_, fun hout => ?_, fun lk' hlk' _ => ?_⟩
    · rw [hawaits, Bool.toNat_false] at hleast
      rw [Sender.rank_setPc, hawaits', Bool.toNat_true]
      omega
    · rw [Sender.inSession_of_awaits hawaits'] at hout
      cases hout
    · obtain rfl : lk' = lk := Option.some.inj (hlk'.symm.trans (by simpa using hlk))
      obtain ⟨base, hle, hlen, hown, hsent⟩ := hacc.call lk' hlk hin
      simp only [Function.update_self, List.length_append, List.length_singleton, Sender.rank_setPc,
        Sender.datagram_setPc]
      refine ⟨base, hle, by omega, fun b hb => ?_, ?_⟩
      · rw [List.drop_append_of_le_length hlen] at hb
        rcases List.mem_append.1 hb with hb | hb
        · exact hown b hb
        · rw [List.mem_singleton.1 hb]
          exact hbuf
      · show S tid + 1 ≤ cost cfg.n T t.id _ + _
        omega

/-- The wait of a thread on `lk` ends. Either a timeout is counted or an answer is read. -/
theorem wake (h : Ledger cfg s T next S) (ht : s.senders tid = some t) (hlk : t.link = some lk)
    (hT : ∀ lk, T lk ≤ T' lk) (hnext : ∀ lk', lk' ≠ lk → next' lk' = next lk')
    (hle : next' lk ≤ (s.requests lk).length) (hpaid : next lk + T lk + 1 ≤ next' lk + T' lk) (lk' : Link) :
    next' lk' ≤ (s.requests lk').length ∧ (s.requests lk').length ≤ next' lk' + T' lk' + 1 ∧
      ((s.resume tid lk t').Quiet lk' → (s.requests lk').length ≤ next' lk' + T' lk') := by
  by_cases hl : lk' = lk
  · subst hl
    have hdebt := h.debt lk'
    exact ⟨hle, by omega, fun _ => by omega⟩
  · rw [hnext lk' hl]
    have hT := hT lk'
    have hdebt := h.debt lk'
    refine ⟨h.next_le lk', by omega, fun hq => ?_⟩
    have hquiet := h.quiet lk' (hq.of_update rfl fun u hu hlu => ?_)
    · omega
    · obtain rfl := Option.some.inj (hu.symm.trans ht)
      exact absurd (Option.some.inj (hlu.symm.trans hlk)) hl

/-- The thread stays in its call: after a timeout, or with an answer to an earlier request. -/
theorem again (h : Ledger cfg s T next S) (hL : s.Locked cfg) (ht : s.senders tid = some t) (hlk : t.link = some lk)
    {l₀ l₁ : SendLoop} (hpc : t.pc = some (.recv l₀)) (hT : ∀ lk, T lk ≤ T' lk)
    (hnext : ∀ lk', lk' ≠ lk → next' lk' = next lk') (hle : next' lk ≤ (s.requests lk).length)
    (hpaid : next lk + T lk + 1 ≤ next' lk + T' lk)
    (hbase : ∀ base, next lk ≤ base → (∀ b ∈ (s.requests lk).drop base, t.datagram (cfg.host t.id) = some b) →
      next' lk ≤ base) : Ledger cfg (s.resume tid lk (t.setPc (.send l₁))) T' next' S := by
  have hacc := h.account tid t ht
  have hin : t.inSession = true := Sender.inSession_eq_true_iff.2 ⟨l₀, .inr hpc⟩
  have hpc' : (t.setPc (.send l₁)).pc = some (.send l₁) := Sender.pc_setPc (by simp [hpc])
  have hin' : (t.setPc (.send l₁)).inSession = true := Sender.inSession_eq_true_iff.2 ⟨l₁, .inl hpc'⟩
  refine h.setThread rfl hT (fun _ _ => rfl)
    (fun i u lk' hi hu hlk' hin' => ⟨rfl, hnext lk' (link_ne hL ht hlk hin hi hu hlk' hin')⟩)
    (h.wake ht hlk hT hnext hle hpaid) ⟨?_, fun hout => ?_, fun lk' hlk' _ => ?_⟩
  · have hleast := hacc.least
    rw [Sender.rank_setPc, Sender.awaits_of_ne hpc' (by simp), Bool.toNat_false]
    omega
  · rw [hin'] at hout
    cases hout
  · obtain rfl : lk' = lk := Option.some.inj (hlk'.symm.trans (by simpa using hlk))
    obtain ⟨base, hbase', hlen, hown, hsent⟩ := hacc.call lk' hlk hin
    refine ⟨base, hbase base hbase' hown, hlen, fun b hb => ?_, ?_⟩
    · rw [Sender.datagram_setPc]
      exact hown b hb
    · rw [Sender.rank_setPc]
      exact hsent.trans (Nat.add_le_add_right (cost_mono hT _ _) _)

/-- The call is over, and has cost at most one datagram more than there were timeouts. -/
theorem accept (h : Ledger cfg s T next S) (hL : s.Locked cfg) (ht : s.senders tid = some t) (hlk : t.link = some lk)
    {l₀ : SendLoop} (hpc : t.pc = some (.recv l₀)) (hdone : t.Completed cfg.n t')
    (hnext : ∀ lk', lk' ≠ lk → next' lk' = next lk') (hle : next' lk ≤ (s.requests lk).length)
    (hpaid : next lk + T lk + 1 ≤ next' lk + T lk) : Ledger cfg (s.resume tid lk t') T next' S := by
  have hacc := h.account tid t ht
  have hin : t.inSession = true := Sender.inSession_eq_true_iff.2 ⟨l₀, .inr hpc⟩
  have hT : ∀ lk, T lk ≤ T lk := fun _ => Nat.le_refl _
  refine h.setThread rfl hT (fun _ _ => rfl)
    (fun i u lk' hi hu hlk' hin' => ⟨rfl, hnext lk' (link_ne hL ht hlk hin hi hu hlk' hin')⟩)
    (h.wake ht hlk hT hnext hle hpaid) ⟨?_, fun _ => ?_, fun lk' _ hin' => ?_⟩
  · have hleast := hacc.least
    rw [Sender.awaits_of_recv hpc, Bool.toNat_true] at hleast
    rw [hdone.rank, Sender.awaits_of_outside hdone.outside, Bool.toNat_false]
    omega
  · obtain ⟨base, hbase, hlen, -, hsent⟩ := hacc.call lk hlk hin
    have hdebt := h.debt lk
    rw [hdone.id, hdone.rank, cost_succ, ← Sender.link_of_rank (hL.thread tid t ht).2 hlk]
    omega
  · rw [hdone.outside] at hin'
    cases hin'

end Ledger

/-! ### Reading in order -/

/-- `next` after a step. -/
def Sys.nextAfter (s : Sys) (next : Link → Nat) : Label → Link → Nat
  | .receive _ lk j => match (s.answers lk)[j]? with
    | some a => Function.update next lk (a.request + 1)
    | none => next
  | _ => next

/-- The requests are answered in order, and `next` is behind the last one whose answer was read. -/
structure Reads (ls : List Label) (s : Sys) (next : Link → Nat) : Prop where
  sorted : ∀ lk, (s.answers lk).Pairwise fun a a' => a.request < a'.request
  served : ∀ lk, ∀ a ∈ s.answers lk, ∃ junk, Label.serve lk a.request junk ∈ ls
  last : ∀ lk, next lk = 0 ∨
    ∃ tid j a, Label.receive tid lk j ∈ ls ∧ (s.answers lk)[j]? = some a ∧ next lk = a.request + 1

namespace Reads

theorem next_le_request (h : Reads ls s next) {j : Nat} {a : Answer} (hf : Fifo (ls ++ [.receive tid lk j]))
    (ha : (s.answers lk)[j]? = some a) : next lk ≤ a.request := by
  rcases h.last lk with hzero | ⟨i, j', a', hmem, ha', hnext⟩
  · rw [hzero]
    exact Nat.zero_le _
  · have hlt : j' < j := (List.pairwise_append.1 hf).2.2 _ hmem _ (List.mem_singleton.2 rfl) rfl
    obtain ⟨hj, rfl⟩ := List.getElem?_eq_some_iff.1 ha
    obtain ⟨hj', rfl⟩ := List.getElem?_eq_some_iff.1 ha'
    rw [hnext]
    exact List.pairwise_iff_getElem.1 (h.sorted lk) j' j hj' hj hlt

/-- A step that sends no answer and reads none. -/
theorem silent (h : Reads ls s next) (l : Label) (hans : s'.answers = s.answers) : Reads (ls ++ [l]) s' next where
  sorted lk := hans ▸ h.sorted lk
  served lk a ha := by
    obtain ⟨junk, hmem⟩ := h.served lk a (hans ▸ ha)
    exact ⟨junk, List.mem_append_left _ hmem⟩
  last lk := by
    rcases h.last lk with hzero | ⟨i, j, a, hmem, ha, hnext⟩
    · exact .inl hzero
    · exact .inr ⟨i, j, a, List.mem_append_left _ hmem, hans ▸ ha, hnext⟩

/-- The server answers request number `j`, which is later than those it has answered. -/
theorem answered (h : Reads ls s next) {j : Nat} {junk : Word} {buf : Buf} (hf : Fifo (ls ++ [.serve lk j junk]))
    (hans : s'.answers = Function.update s.answers lk (s.answers lk ++ [⟨j, buf⟩])) :
    Reads (ls ++ [.serve lk j junk]) s' next := by
  have hlt : ∀ a ∈ s.answers lk, a.request < j := by
    intro a ha
    obtain ⟨junk', hmem⟩ := h.served lk a ha
    exact (List.pairwise_append.1 hf).2.2 _ hmem _ (List.mem_singleton.2 rfl) rfl
  refine ⟨fun lk' => ?_, fun lk' a ha => ?_, fun lk' => ?_⟩
  · by_cases hl : lk' = lk
    · subst hl
      rw [hans, Function.update_self]
      refine List.pairwise_append.2 ⟨h.sorted lk', List.pairwise_singleton _ _, fun a ha a' ha' => ?_⟩
      rw [List.mem_singleton.1 ha']
      exact hlt a ha
    · rw [hans, Function.update_of_ne hl]
      exact h.sorted lk'
  · rw [hans] at ha
    rcases Sys.mem_update_append ha with hold | ⟨rfl, hnew⟩
    · obtain ⟨junk', hmem⟩ := h.served lk' a hold
      exact ⟨junk', List.mem_append_left _ hmem⟩
    · obtain rfl := List.mem_singleton.1 hnew
      exact ⟨junk, by simp⟩
  · rcases h.last lk' with hzero | ⟨i, j', a, hmem, ha, hnext⟩
    · exact .inl hzero
    · refine .inr ⟨i, j', a, List.mem_append_left _ hmem, ?_, hnext⟩
      rw [hans]
      by_cases hl : lk' = lk
      · subst hl
        rw [Function.update_self, List.getElem?_append_left (List.getElem?_eq_some_iff.1 ha).1, ha]
      · rw [Function.update_of_ne hl, ha]

theorem step (h : Reads ls s next) (hE : s.Exchange cfg) (hf : Fifo (ls ++ [l])) (hs : Step cfg s l s') :
    Reads (ls ++ [l]) s' (s.nextAfter next l) := by
  cases hs with
  | @receive tid j t t' lk a ht hlk ha ht' =>
    have hnext : s.nextAfter next (.receive tid lk j) = Function.update next lk (a.request + 1) := by
      simp only [Sys.nextAfter, ha]
    rw [hnext]
    have hsilent : Reads (ls ++ [.receive tid lk j]) (s.resume tid lk t') next := h.silent _ rfl
    refine ⟨hsilent.sorted, hsilent.served, fun lk' => ?_⟩
    by_cases hl : lk' = lk
    · subst hl
      exact .inr ⟨tid, j, a, by simp, ha, Function.update_self ..⟩
    · rw [Function.update_of_ne hl]
      exact hsilent.last lk'
  | @serve lk j junk b hb hid hl =>
    rcases (hE.server _ hid).datagrams_onReceive b junk with hnil | ⟨buf, hone, -⟩
    · exact h.silent _ (by simp [Sys.served, hnil])
    · exact h.answered hf (Sys.answers_served hone s j)
  | launch | lock | send | timeout => exact h.silent _ rfl

end Reads

/-! ### Whole runs -/

theorem Ledger.step (h : Ledger cfg s T next S) (hE : s.Exchange cfg) (hL : s.Locked cfg) (hs : Step cfg s l s')
    (hread : ∀ tid lk j a, l = .receive tid lk j → (s.answers lk)[j]? = some a → next lk ≤ a.request) :
    Ledger cfg s' (fun lk => T lk + if s.timesOut lk l then 1 else 0) (s.nextAfter next l)
      (fun i => S i + if l = .send i then 1 else 0) := by
  cases hs with
  | launch hid hnone => simpa [Sys.timesOut, Sys.nextAfter] using h.launch hnone
  | lock ht hlk hpc hm => simpa [Sys.timesOut, Sys.nextAfter] using h.lock ht hpc
  | @send tid t lk l₀ buf ht hlk hbuf hpc =>
    have hS : (fun i => S i + if Label.send tid = .send i then 1 else 0) = Function.update S tid (S tid + 1) := by
      funext i
      by_cases hi : i = tid
      · subst hi
        simp
      · simp [Function.update_of_ne hi, Ne.symm hi]
    rw [hS]
    simpa [Sys.timesOut, Sys.nextAfter] using h.send hL ht hlk hbuf hpc
  | @timeout tid t t' lk ht hlk ht' =>
    obtain ⟨hu, hr⟩ := hL.thread tid t ht
    obtain ⟨l₀, hpc⟩ := Sender.exists_recv_of_afterReceive ht'
    rcases (Sender.resumed_of_afterReceive hu ht').again_or_completed cfg.n_lt hr with
      ⟨l₁, -, -, rfl, -⟩ | ⟨buf, hbuf, -⟩
    · have hone : s.timesOut lk (.timeout tid) = true := by simp [Sys.timesOut, ht, hlk]
      refine h.again hL ht hlk hpc (fun _ => Nat.le_add_right _ _) (fun _ _ => rfl) (h.next_le lk) ?_
        fun _ hle _ => hle
      show next lk + T lk + 1 ≤ next lk + (T lk + if s.timesOut lk (.timeout tid) then 1 else 0)
      rw [hone, if_pos rfl]
      omega
    · cases hbuf
  | @receive tid j t t' lk a ht hlk ha ht' =>
    obtain ⟨hu, hr⟩ := hL.thread tid t ht
    obtain ⟨l₀, hpc⟩ := Sender.exists_recv_of_afterReceive ht'
    obtain ⟨b, hb, -⟩ := hE.answer lk a (List.mem_of_getElem? ha)
    have hlt := (List.getElem?_eq_some_iff.1 hb).1
    have hle := hread tid lk j a rfl ha
    have hnext : s.nextAfter next (.receive tid lk j) = Function.update next lk (a.request + 1) := by
      simp only [Sys.nextAfter, ha]
    have hother : ∀ lk', lk' ≠ lk → Function.update next lk (a.request + 1) lk' = next lk' :=
      fun lk' hl => Function.update_of_ne hl ..
    have hself : Function.update next lk (a.request + 1) lk = a.request + 1 := Function.update_self ..
    simp only [Sys.timesOut, Bool.false_eq_true, if_false, Nat.add_zero, reduceCtorEq, hnext]
    rcases (Sender.resumed_of_afterReceive hu ht').again_or_completed cfg.n_lt hr with
      ⟨l₁, -, -, rfl, hrej⟩ | ⟨buf, -, -, hdone⟩
    · refine h.again hL ht hlk hpc (fun _ => Nat.le_refl _) hother (by omega) (by omega) fun base _ hown => ?_
      -- an answer to a request of this call would have been accepted
      rw [hself]
      by_contra hbase
      exact hrej _ rfl (hE.accepts_of_mem_drop hlk ha (by omega) hown)
    · exact h.accept hL ht hlk hpc hdone hother (by omega) (by omega)
  | @serve lk j junk b hb hid hl => simpa [Sys.timesOut, Sys.nextAfter] using h.served lk j _

theorem exists_ledger (hf : Fifo ls) (hrun : cfg.lts.Run ls s) :
    ∃ next, Reads ls s next ∧ Ledger cfg s (timeoutsOn cfg ls) next fun tid => ls.count (.send tid) := by
  refine hrun.induction (P := fun ls s => Fifo ls → ∃ next, Reads ls s next ∧
    Ledger cfg s (timeoutsOn cfg ls) next fun tid => ls.count (.send tid)) (fun _ => ?_) ?_ hf
  · exact ⟨fun _ => 0, ⟨by simp [Config.lts, Sys.init], by simp [Config.lts, Sys.init], by simp⟩, .init cfg⟩
  · intro ls s l s' hrun ih hs hf
    obtain ⟨next, hreads, hled⟩ := ih (List.pairwise_append.1 hf).1
    have hE := Sys.Exchange.of_run hrun
    have hs := step_iff.1 hs
    refine ⟨_, hreads.step hE hf hs, ?_⟩
    have hnext := hled.step hE (.of_run hrun) hs fun tid lk j a hl ha => hreads.next_le_request (hl ▸ hf) ha
    have hT : timeoutsOn cfg (ls ++ [l]) = fun lk => timeoutsOn cfg ls lk + if s.timesOut lk l then 1 else 0 :=
      funext fun lk => Lts.count_concat hrun
    have hS : (fun tid => (ls ++ [l]).count (.send tid)) =
        fun tid => ls.count (.send tid) + if l = .send tid then 1 else 0 := by
      funext tid
      rw [List.count_append, List.count_singleton]
      simp
    rw [hT, hS]
    exact hnext

/-- The cost of a multicast. Over links that keep the order, a thread that has finished has sent at least `2 * n`
datagrams, and at most two more for each timeout that any thread of its process has had. -/
theorem multicast_cost (hf : Fifo ls) (hrun : cfg.lts.Run ls s) (ht : s.senders tid = some t)
    (hfin : t.isFinished = true) :
    2 * cfg.n ≤ ls.count (.send tid) ∧ ls.count (.send tid) ≤ 2 * (cfg.n + timeoutsAt cfg ls t.id) := by
  obtain ⟨next, -, hled⟩ := exists_ledger hf hrun
  have hacc := hled.account tid t ht
  obtain ⟨hrank, hout⟩ : t.rank cfg.n = 2 * cfg.n ∧ t.inSession = false := by
    unfold Sender.isFinished at hfin
    split at hfin
    · next hph => exact ⟨by rw [Sender.rank, hph], by simp [Sender.inSession, Sender.pc, hph]⟩
    · cases hfin
  have hleast := hacc.least
  have hmost := hacc.outside hout
  rw [hrank, cost_two_mul, sum_timeoutsOn hrun] at hmost
  rw [hrank] at hleast
  exact ⟨by omega, hmost⟩

/-- The data message is sent twice because of a timeout, and the second ack is read by the call for the sequence
message, which sends again. -/
def staleRun : List Label :=
  staleAckRun ++ [.receive 0 ⟨0, 0⟩ 1, .send 0, .serve ⟨0, 0⟩ 2 0, .receive 0 ⟨0, 0⟩ 2]

theorem multicast_cost_staleRun : staleRun.count (.send 0) = 4 ∧ timeoutsAt single staleRun 0 = 1 ∧
    staleRun.count (.send 0) ≤ 2 * (single.n + timeoutsAt single staleRun 0) := by
  have h : (single.lts.exec staleRun).map (fun s => (s.senders 0).map fun t => (t.id, t.isFinished)) =
      some (some (0, true)) := by decide
  obtain ⟨s, hrun, hs⟩ := Option.map_eq_some_iff.1 h
  obtain ⟨t, ht, heq⟩ := Option.map_eq_some_iff.1 hs
  obtain ⟨hid, hfin⟩ := Prod.mk.inj heq
  refine ⟨by decide, by decide, ?_⟩
  have hcost := (multicast_cost (by decide) hrun ht hfin).2
  rwa [hid] at hcost

end IsisMulticast

import IsisMulticast.Draws
import IsisMulticast.Sessions
import Mathlib.Algebra.BigOperators.Group.Finset.Basic
import Mathlib.Algebra.Order.BigOperators.Group.Finset

/-!
# Nothing is ever stuck

From every state of every run the threads that have been launched can still finish, whatever was lost or
duplicated before (`completable`): some thread is in a call or can take a lock, and a call is completed by sending
once more, with the newest request served and the newest answer read. The continuation reads every link in
order, so a run over links that keep the order is continued to one.
-/

namespace IsisMulticast
open Lib

variable {cfg : Config} {s s' : Sys} {l : Label} {ls ls' : List Label} {tid : Nat} {t t' : Sender} {lk : Link}

/-! ### The steps of an answered round -/

namespace Sender

theorem exists_link_of_pc (ht : t.pc ≠ none) : ∃ lk, t.link = some lk := by
  cases t with | mk id msgId data phase => cases phase <;> simp_all [Sender.pc, link, target]

theorem exists_datagram_of_pc {h : HostOrder} (ht : t.pc ≠ none) : ∃ b, t.datagram h = some b := by
  cases t with | mk id msgId data phase => cases phase <;> simp_all [Sender.pc, datagram]

/-- A thread with unlimited attempts survives every return of `recvfrom` but an error. -/
theorem Unlimited.exists_afterReceive {h : HostOrder} {n : Nat} {r : Received} {l : SendLoop} (hu : t.Unlimited)
    (hpc : t.pc = some (.recv l)) (hr : r ≠ .error) : ∃ t', t.afterReceive h n r = some t' := by
  have hl : l.Unlimited := hu l (.inr hpc)
  obtain ⟨id, msgId, data, phase⟩ := t
  cases phase with
  | data pid seqs pc =>
    obtain rfl : pc = .recv l := by simpa [Sender.pc] using hpc
    simp only [afterReceive]
    rcases hl.afterReceive_cases (handleAck h id msgId pid) seqs r with
      ⟨rfl, -⟩ | ⟨l', -, -, heq⟩ | ⟨buf, -, ⟨-, heq⟩ | ⟨-, l', -, heq⟩⟩
    · exact absurd rfl hr
    all_goals rw [heq]; exact ⟨_, rfl⟩
  | seq pid m pc =>
    obtain rfl : pc = .recv l := by simpa [Sender.pc] using hpc
    simp only [afterReceive]
    rcases hl.afterReceive_cases (fun _ buf => (isValidAck h m buf, ())) () r with
      ⟨rfl, -⟩ | ⟨l', -, -, heq⟩ | ⟨buf, -, ⟨-, heq⟩ | ⟨-, l', -, heq⟩⟩
    · exact absurd rfl hr
    all_goals rw [heq]; exact ⟨_, rfl⟩
  | finished m => simp [Sender.pc] at hpc

end Sender

namespace Sys.Inv

theorem isCopy_datagram (h : s.Inv cfg) (ht : s.senders tid = some t) {hst : HostOrder} {b : Buf}
    (hb : t.datagram (cfg.host t.id) = some b) : t.IsCopy hst b := by
  have hp := (h.thread tid t ht).2.2
  unfold Sender.datagram at hb
  unfold Sender.IsCopy
  cases hph : t.phase with
  | data pid seqs pc =>
    obtain rfl : sendDataMsg (cfg.host t.id) t.dataMsg = b := by simpa [hph] using hb
    exact ⟨_, dataMsgFromBuf_sendDataMsg _ _ _, rfl, rfl⟩
  | seq pid m pc =>
    obtain rfl : sendSeqMsg (cfg.host t.id) m = b := by simpa [hph] using hb
    simp only [Sender.Progress, hph] at hp
    exact ⟨_, seqMsgFromBuf_sendSeqMsg _ _ _, rfl, hp.2.1⟩
  | finished m => simp [hph] at hb

theorem exists_serve (h : s.Inv cfg) {j : Nat} {b : Buf} (hb : (s.requests lk)[j]? = some b) (junk : Word) :
    ∃ s' buf, Step cfg s (.serve lk j junk) s' ∧ s'.senders = s.senders ∧ s'.requests = s.requests ∧
      s'.answers = Function.update s.answers lk (s.answers lk ++ [⟨j, buf⟩]) ∧
      ((∃ a, buf = sendAckMsg (cfg.host lk.server) a) ∨ ∃ a, buf = sendSeqAckMsg (cfg.host lk.server) a) := by
  have hq := (h.request lk b (List.mem_of_getElem? hb)).1
  have hsv := h.server _ hq
  have hstep : Step cfg s (.serve lk j junk) _ := .serve hb hq hsv.listening
  have hserves := h.serves hb junk
  generalize s.served lk j _ = s' at hstep hserves
  cases hserves with
  | @data m hm hs hreq =>
    obtain ⟨a, -, -, -, hdg⟩ := hsv.answer_acceptData { m with type := kDataMessageType }
    exact ⟨_, _, hstep, rfl, rfl, Sys.answers_served hdg s j, .inl ⟨a, rfl⟩⟩
  | seq => exact ⟨_, _, hstep, rfl, rfl, Sys.answers_served (hsv.answer_acceptSeq _ _) s j, .inr ⟨_, rfl⟩⟩

end Sys.Inv

/-! ### Continuations -/

theorem DistinctIds.append_of_launches (hd : DistinctIds ls) (hl : launches ls' = []) : DistinctIds (ls ++ ls') := by
  have hno : ∀ l ∈ ls', ∀ l₀, Label.DistinctLaunch l₀ l ∧ Label.DistinctLaunch l l₀ := by
    intro l hmem l₀
    have hl := List.filterMap_eq_nil_iff.1 hl l hmem
    cases l with
    | launch => simp at hl
    | _ => cases l₀ <;> exact ⟨trivial, trivial⟩
  exact List.pairwise_append.2 ⟨hd, List.pairwise_of_forall_mem_list fun l hmem l₀ _ => (hno l hmem l₀).2,
    fun l₀ _ l hmem => (hno l hmem l₀).1⟩

theorem lt_length_of_mem (hrun : cfg.lts.Run ls s) :
    (∀ lk j junk, .serve lk j junk ∈ ls → j < (s.requests lk).length) ∧
    ∀ tid lk j, .receive tid lk j ∈ ls → j < (s.answers lk).length := by
  refine hrun.induction (P := fun ls s => (∀ lk j junk, .serve lk j junk ∈ ls → j < (s.requests lk).length) ∧
    ∀ tid lk j, .receive tid lk j ∈ ls → j < (s.answers lk).length) (by simp) ?_
  rintro ls s l s' - ⟨ihs, ihr⟩ hs
  have hs := step_iff.1 hs
  have hans : ∀ lk, (s.answers lk).length ≤ (s'.answers lk).length := by
    intro lk
    cases hs with
    | @serve lk' j junk b hb hid hl =>
      by_cases hlk : lk = lk'
      · subst hlk
        simp [Sys.served, Function.update_self]
      · simp [Sys.served, Function.update_of_ne hlk]
    | launch | lock | send | timeout | receive => exact Nat.le_refl _
  refine ⟨fun lk j junk hmem => ?_, fun tid lk j hmem => ?_⟩
  · refine Nat.lt_of_lt_of_le ?_ (hs.le.requests lk).length_le
    rcases List.mem_append.1 hmem with hmem | hlast
    · exact ihs lk j junk hmem
    · obtain rfl := List.mem_singleton.1 hlast
      cases hs with
      | serve hb => exact (List.getElem?_eq_some_iff.1 hb).1
  · refine Nat.lt_of_lt_of_le ?_ (hans lk)
    rcases List.mem_append.1 hmem with hmem | hlast
    · exact ihr tid lk j hmem
    · obtain rfl := List.mem_singleton.1 hlast
      cases hs with
      | receive _ _ ha => exact (List.getElem?_eq_some_iff.1 ha).1

/-- `ls'` continues the run `ls` to the state `s'`, without new threads and with every link read in order if
`ls` reads them so. -/
structure Continues (cfg : Config) (ls ls' : List Label) (s' : Sys) : Prop where
  run : cfg.lts.Run (ls ++ ls') s'
  launches : launches ls' = []
  fifo : Fifo ls → Fifo (ls ++ ls')

namespace Continues

theorem refl (hrun : cfg.lts.Run ls s) : Continues cfg ls [] s := ⟨by simpa using hrun, rfl, by simp⟩

theorem trans {ls'' : List Label} {s'' : Sys} (h : Continues cfg ls ls' s') (h' : Continues cfg (ls ++ ls') ls'' s'') :
    Continues cfg ls (ls' ++ ls'') s'' where
  run := by simpa using h'.run
  launches := by
    have := h.launches
    have := h'.launches
    simp_all [IsisMulticast.launches]
  fifo hf := by simpa using h'.fifo (h.fifo hf)

theorem thread (hrun : cfg.lts.Run ls s) (hs : Step cfg s l s') (hl : l = .lock tid ∨ l = .send tid ∨ l = .timeout tid) :
    Continues cfg ls [l] s' where
  run := Lts.run_concat.2 ⟨s, hrun, step_iff.2 hs⟩
  launches := by rcases hl with rfl | rfl | rfl <;> rfl
  fifo hf := by
    refine List.pairwise_append.2 ⟨hf, List.pairwise_singleton _ _, fun l₀ _ l' hl' => ?_⟩
    obtain rfl := List.mem_singleton.1 hl'
    rcases hl with rfl | rfl | rfl <;> cases l₀ <;> trivial

theorem newest {s₁ s₂ s₃ : Sys} {j i : Nat} {junk : Word} (hrun : cfg.lts.Run ls s) (hs₁ : Step cfg s (.send tid) s₁)
    (hs₂ : Step cfg s₁ (.serve lk j junk) s₂) (hs₃ : Step cfg s₂ (.receive tid lk i) s₃)
    (hj : j = (s.requests lk).length) (hi : i = (s.answers lk).length) :
    Continues cfg ls [.send tid, .serve lk j junk, .receive tid lk i] s₃ where
  run := by
    have hrun₁ := Lts.run_concat.2 ⟨s, hrun, step_iff.2 hs₁⟩
    have hrun₂ := Lts.run_concat.2 ⟨s₁, hrun₁, step_iff.2 hs₂⟩
    simpa using Lts.run_concat.2 ⟨s₂, hrun₂, step_iff.2 hs₃⟩
  launches := rfl
  fifo hf := by
    obtain ⟨hserve, hreceive⟩ := lt_length_of_mem hrun
    refine List.pairwise_append.2 ⟨hf, by simp [Label.InOrder], fun l₀ hl₀ l' hl' => ?_⟩
    simp only [List.mem_cons, List.not_mem_nil, or_false] at hl'
    rcases hl' with rfl | rfl | rfl
    · cases l₀ <;> trivial
    · match l₀, hl₀ with
      | .serve lk' j' junk', hl₀ => exact fun heq => by subst heq; exact hj ▸ hserve _ _ _ hl₀
      | .launch .., _ | .lock _, _ | .send _, _ | .timeout _, _ | .receive .., _ => trivial
    · match l₀, hl₀ with
      | .receive tid' lk' j', hl₀ => exact fun heq => by subst heq; exact hi ▸ hreceive _ _ _ hl₀
      | .launch .., _ | .lock _, _ | .send _, _ | .timeout _, _ | .serve .., _ => trivial

end Continues

/-! ### One call -/

theorem exists_completion_of_send (hd : DistinctIds ls) (hrun : cfg.lts.Run ls s) (ht : s.senders tid = some t)
    {l : SendLoop} (hpc : t.pc = some (.send l)) :
    ∃ ls' s' t', Continues cfg ls ls' s' ∧ s'.senders = Function.update s.senders tid (some t') ∧
      t'.rank cfg.n = t.rank cfg.n + 1 := by
  obtain ⟨lk, hlk⟩ := Sender.exists_link_of_pc (t := t) (by simp [hpc])
  obtain ⟨b, hb⟩ := Sender.exists_datagram_of_pc (t := t) (h := cfg.host t.id) (by simp [hpc])
  have h := Sys.Inv.of_run hd hrun
  -- send
  have hs₁ : Step cfg s (.send tid) _ := .send ht hlk hb hpc
  generalize hs₁eq : ({ s with
    senders := Function.update s.senders tid (some (t.setPc (.recv l)))
    requests := Function.update s.requests lk (s.requests lk ++ [b]) } : Sys) = s₁ at hs₁
  have h₁ : s₁.Inv cfg := h.step (l := .send tid) trivial hs₁
  have ht₁ : s₁.senders = Function.update s.senders tid (some (t.setPc (.recv l))) := by rw [← hs₁eq]
  have hans₁ : s₁.answers = s.answers := by rw [← hs₁eq]
  have hreq : (s₁.requests lk)[(s.requests lk).length]? = some b := by simp [← hs₁eq]
  -- serve
  obtain ⟨s₂, buf, hs₂, hse, hreq₂, hans, -⟩ := h₁.exists_serve hreq 0
  have h₂ : s₂.Inv cfg := h₁.step (l := .serve lk _ 0) trivial hs₂
  have ht₂ : s₂.senders tid = some (t.setPc (.recv l)) := by rw [hse, ht₁, Function.update_self]
  have ha : (s₂.answers lk)[(s.answers lk).length]? = some ⟨(s.requests lk).length, buf⟩ := by
    rw [hans, hans₁, Function.update_self]
    simp
  -- receive
  have hlk₂ : (t.setPc (.recv l)).link = some lk := by simp [hlk]
  have hpc₂ : (t.setPc (.recv l)).pc = some (.recv l) := Sender.pc_setPc (by simp [hpc])
  have hu₂ := (h₂.thread tid _ ht₂).2.1
  obtain ⟨t', ht'⟩ := hu₂.exists_afterReceive (h := cfg.host t.id) (n := cfg.n) (r := .datagram buf) hpc₂ (by simp)
  have hs₃ : Step cfg s₂ (.receive tid lk (s.answers lk).length) _ := .receive ht₂ hlk₂ ha ht'
  have hcont := Continues.newest hrun hs₁ hs₂ hs₃ rfl rfl
  refine ⟨_, _, t', hcont, by simp [Sys.resume, hse, ht₁], ?_⟩
  -- the answer is to the datagram of the call
  have hacc : (t.setPc (.recv l)).Accepts (cfg.host t.id) buf := by
    refine (h₂.accepts_iff ht₂ hlk₂ (List.mem_of_getElem? ha)).2 ⟨b, hreq₂ ▸ hreq, h₂.isCopy_datagram ht₂ ?_⟩
    rw [Sender.datagram_setPc]
    exact hb
  have hL : s₂.Locked cfg := ((Sys.Locked.of_run hrun).step hs₁).step hs₂
  have hmove := hL.moves_of_afterReceive ht₂ hlk₂ (.inr ⟨_, _, rfl, ha, rfl⟩) ht'
  generalize hlab : Label.receive tid lk (s.answers lk).length = lab at hmove
  cases hmove with
  | accept _ _ _ _ hdone => simpa using hdone.rank
  | rest hl => exact absurd (hlab ▸ rfl) hl
  | lock => cases hlab
  | send => cases hlab
  | again _ _ _ hrej => exact absurd hacc (hrej lk _ _ hlab.symm ha)

/-- A call can be completed, after another timeout if the thread waits. -/
theorem exists_completion (hd : DistinctIds ls) (hrun : cfg.lts.Run ls s) (ht : s.senders tid = some t)
    (hin : t.inSession = true) :
    ∃ ls' s' t', Continues cfg ls ls' s' ∧ s'.senders = Function.update s.senders tid (some t') ∧
      t'.rank cfg.n = t.rank cfg.n + 1 := by
  obtain ⟨l, hpc | hpc⟩ := Sender.inSession_eq_true_iff.1 hin
  · exact exists_completion_of_send hd hrun ht hpc
  · obtain ⟨lk, hlk⟩ := Sender.exists_link_of_pc (t := t) (by simp [hpc])
    have hu := ((Sys.Locked.of_run hrun).thread tid t ht).1
    obtain ⟨t₁, ht₁⟩ := hu.exists_afterReceive (h := cfg.host t.id) (n := cfg.n) (r := .timeout) hpc (by simp)
    have hs : Step cfg s (.timeout tid) _ := .timeout ht hlk ht₁
    have hcont := Continues.thread hrun hs (.inr (.inr rfl))
    obtain ⟨l₁, rfl⟩ : ∃ l₁, t₁ = t.setPc (.send l₁) := by
      cases Sender.resumed_of_afterReceive hu ht₁ with
      | again => exact ⟨_, rfl⟩
    have hpc₁ : (t.setPc (.send l₁)).pc = some (.send l₁) := Sender.pc_setPc (by simp [hpc])
    obtain ⟨ls', s', t', hcont', hse, hr⟩ := exists_completion_of_send (hd.append_of_launches hcont.launches) hcont.run
      (Function.update_self ..) hpc₁
    exact ⟨_, s', t', hcont.trans hcont', by simp [hse, Sys.resume], by simpa using hr⟩

/-- As long as a thread has not finished, some thread can complete a call. -/
theorem exists_advance (hd : DistinctIds ls) (hrun : cfg.lts.Run ls s) (hfin : ¬ s.AllFinished) :
    ∃ ls' s' tid t t', Continues cfg ls ls' s' ∧ s.senders tid = some t ∧
      s'.senders = Function.update s.senders tid (some t') ∧ t'.rank cfg.n = t.rank cfg.n + 1 := by
  have hL := Sys.Locked.of_run hrun
  obtain ⟨tid, t, ht, hnf⟩ : ∃ tid t, s.senders tid = some t ∧ t.isFinished = false := by
    simpa [Sys.AllFinished] using hfin
  rcases t.pc_cases with hpc | hin | hf
  · obtain ⟨lk, hlk⟩ := Sender.exists_link_of_pc (t := t) (by simp [hpc])
    cases hm : s.mutex lk with
    | none =>
      have hs : Step cfg s (.lock tid) _ := .lock ht hlk hpc hm
      have hcont := Continues.thread hrun hs (.inl rfl)
      obtain ⟨ls', s', t', hcont', hse, hr⟩ := exists_completion_of_send (hd.append_of_launches hcont.launches) hcont.run
        (Function.update_self ..) (Sender.pc_setPc (t := t) (by simp [hpc]))
      exact ⟨_, s', tid, t, t', hcont.trans hcont', ht, by simp [hse], by simpa using hr⟩
    | some i =>
      -- the client is taken by a call, which can be completed
      obtain ⟨u, hu, -, hin⟩ := (hL.mutex lk i).1 hm
      obtain ⟨ls', s', t', hcont, hse, hr⟩ := exists_completion hd hrun hu hin
      exact ⟨ls', s', i, u, t', hcont, hu, hse, hr⟩
  · obtain ⟨ls', s', t', hcont, hse, hr⟩ := exists_completion hd hrun ht hin
    exact ⟨ls', s', tid, t, t', hcont, ht, hse, hr⟩
  · simp [hnf] at hf

/-! ### All calls -/

/-- The calls that the threads `tids` still have to complete. -/
def Sys.remaining (n : Nat) (s : Sys) (tids : Finset Nat) : Nat :=
  ∑ tid ∈ tids, match s.senders tid with
    | none => 0
    | some t => 2 * n - t.rank n

theorem Sys.remaining_lt (hL : s'.Locked cfg) {tids : Finset Nat} (hmem : tid ∈ tids) (ht : s.senders tid = some t)
    (hse : s'.senders = Function.update s.senders tid (some t')) (hr : t'.rank cfg.n = t.rank cfg.n + 1) :
    s'.remaining cfg.n tids < s.remaining cfg.n tids := by
  have hle := Sender.rank_le (hL.thread tid t' (by rw [hse, Function.update_self])).2
  refine Finset.sum_lt_sum (fun i _ => ?_) ⟨tid, hmem, ?_⟩
  · by_cases hi : i = tid
    · subst hi
      rw [hse, Function.update_self, ht]
      simp only
      omega
    · rw [hse, Function.update_of_ne hi]
  · rw [hse, Function.update_self, ht]
    simp only
    omega

/-- The threads that `ls` launches. -/
def launchedThreads (ls : List Label) : List Nat := ls.filterMap fun
  | .launch tid _ _ _ => some tid
  | _ => none

theorem mem_launchedThreads {tid : Nat} {id msgId data : Word} (hmem : .launch tid id msgId data ∈ ls) :
    tid ∈ launchedThreads ls := List.mem_filterMap.2 ⟨_, hmem, rfl⟩

theorem exists_allFinished (hd : DistinctIds ls) (hrun : cfg.lts.Run ls s) :
    ∃ ls' s', Continues cfg ls ls' s' ∧ s'.AllFinished := by
  -- all threads are among `tids`, and each advance completes one of their remaining calls
  obtain ⟨tids, htids⟩ : ∃ tids : Finset Nat, ∀ tid t, s.senders tid = some t → tid ∈ tids := by
    refine ⟨(launchedThreads ls).toFinset, fun tid t ht => ?_⟩
    obtain ⟨id, msgId, data, hmem, -⟩ := exists_launch hrun ht
    exact List.mem_toFinset.2 (mem_launchedThreads hmem)
  induction hk : s.remaining cfg.n tids using Nat.strong_induction_on generalizing ls s with
  | _ k ih =>
    subst hk
    by_cases hfin : s.AllFinished
    · exact ⟨[], s, .refl hrun, hfin⟩
    · obtain ⟨ls₁, s₁, tid, t, t', hcont, ht, hse, hr⟩ := exists_advance hd hrun hfin
      have hlt := Sys.remaining_lt (.of_run hcont.run) (htids tid t ht) ht hse hr
      have htids₁ : ∀ i u, s₁.senders i = some u → i ∈ tids := by
        intro i u hu
        rcases eq_or_eq_some_of_update (hse ▸ hu) with ⟨rfl, -⟩ | hu
        · exact htids i t ht
        · exact htids i u hu
      obtain ⟨ls₂, s₂, hcont₂, hfin₂⟩ := ih _ hlt (hd.append_of_launches hcont.launches) hcont.run htids₁ rfl
      exact ⟨_, s₂, hcont.trans hcont₂, hfin₂⟩

/-- No deadlock and no state beyond repair. Whatever has been lost, delayed, duplicated or reordered, the run can go
on without new multicasts until every thread has finished; if the links have kept the order they still do, and
then every queue is empty and every process has delivered every message exactly once. -/
theorem completable (hd : DistinctIds ls) (hrun : cfg.lts.Run ls s) :
    ∃ ls' s', cfg.lts.Run (ls ++ ls') s' ∧ launches ls' = [] ∧ s'.AllFinished ∧ (Fifo ls → Fifo (ls ++ ls') ∧
      ∀ q, q.toNat < cfg.n → (s'.servers q).queue.pendingSeqs = ∅ ∧ (s'.servers q).queue.ordering.toList = [] ∧
        ((deliveries (s'.log q)).map SeqMessage.key).Perm (launches ls)) := by
  obtain ⟨ls', s', hcont, hfin⟩ := exists_allFinished hd hrun
  refine ⟨ls', s', hcont.run, hcont.launches, hfin, fun hf => ⟨hcont.fifo hf, fun q hq => ?_⟩⟩
  have hd' := hd.append_of_launches hcont.launches
  obtain ⟨hpending, hordering, hperm⟩ := drained_of_allFinished hd' (hcont.fifo hf) hcont.run hfin hq
  rw [launches, List.filterMap_append, ← launches, ← launches, hcont.launches, List.append_nil] at hperm
  exact ⟨hpending, hordering, hperm⟩

/-- Two threads of process 0 contend for its client, and the datagram of the one that has it is lost. -/
def contendedRun : List Label := [.launch 0 0 7 50, .launch 1 0 8 60, .lock 0, .send 0, .timeout 0]

theorem completable_contendedRun : ∃ ls' s', single.lts.Run (contendedRun ++ ls') s' ∧ s'.AllFinished ∧
    Fifo (contendedRun ++ ls') ∧ (deliveries (s'.log 0)).length = 2 := by
  have h : (single.lts.exec contendedRun).isSome = true := by decide
  obtain ⟨s, hrun⟩ := Option.isSome_iff_exists.1 h
  have hd : DistinctIds contendedRun := by decide
  obtain ⟨ls', s', hrun', -, hfin, hfifo⟩ := completable hd hrun
  obtain ⟨hf, hq⟩ := hfifo (by decide)
  refine ⟨ls', s', hrun', hfin, hf, ?_⟩
  simpa [launches, contendedRun] using (hq 0 (by decide)).2.2.length_eq

end IsisMulticast

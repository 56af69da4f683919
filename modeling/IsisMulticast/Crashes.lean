import IsisMulticast.Blocked
import IsisMulticast.TotalOrder
import IsisMulticast.Listener

/-!
# Exceptions and crashes

When `recvfrom`, the socket for an answer or the `Send` of an answer throws, the exception leaves `Listen`; `main`
then waits for the sender threads of the process (`~ThreadGroup`), which go on sending. An exception in a sender
thread ends the whole process. Besides that a process can be killed at any time, also between two effects of its
callback. `CrashSys` is the system with these faults.

Every run with faults is shadowed by a run without them, in which a callback that was cut short is completed and its
answer never read (`exists_shadow`). So the order of deliveries survives (`crash_safe`). Nothing takes the place of a
process that is gone: a message whose number can no longer be decided blocks every process that holds it
(`orphan_blocks`).
-/

namespace IsisMulticast
open Lib

namespace Process

/-- The callback when the `Send` of its answer throws, if it comes to that: it has done what comes before the `Send`.
A data message is in the queue by then; for a sequence message the counter is forwarded and the queue is as it was. -/
def onReceiveThrows (p : Process) (buf : Buf) : Option Outcome :=
  (p.enter buf).next.map fun _ => (p.enter buf).outcome

variable {p : Process} {buf : Buf} {o : Outcome}

theorem head_acceptData (p : Process) (m : DataMessage) :
    (p.acceptData m).effects = [.receivedData m] ∨ ∃ a, (p.acceptData m).effects = [.receivedData m, .sendAck a] := by
  unfold acceptData
  split
  · exact .inr ⟨_, rfl⟩
  · dsimp only
    split
    · exact .inr ⟨_, rfl⟩
    · exact .inl rfl

theorem host_onReceive (p : Process) (buf : Buf) (junk : Word) : (p.onReceive buf junk).process.host = p.host := by
  have hr := p.reacts buf junk
  generalize p.onReceive buf junk = o at hr
  cases hr with
  | @data m =>
    unfold acceptData
    split
    · rfl
    · dsimp only
      split <;> rfl
  | seq => simp [acceptSeq]
  | drop => rfl

theorem effects_of_onReceiveThrows (h : p.onReceiveThrows buf = some o) (junk : Word) :
    o.effects ≠ [] ∧ o.effects <+: (p.onReceive buf junk).effects := by
  obtain ⟨pt, hpt, rfl⟩ := Option.map_eq_some_iff.1 h
  constructor
  · exact p.effects_enter hpt
  · rw [← p.complete_enter buf junk, Stage.complete, hpt]
    exact List.prefix_append _ _

/-- The data message a callback accepts is the first thing in its history. -/
theorem dataKeys_onReceive (junk : Word) {effs : List Effect} (hne : effs ≠ [])
    (hpre : effs <+: (p.onReceive buf junk).effects) :
    dataKeys effs = dataKeys (p.onReceive buf junk).effects := by
  obtain ⟨rest, hrest⟩ := hpre
  obtain ⟨e, effs, rfl⟩ := List.exists_cons_of_ne_nil hne
  have hr := p.reacts buf junk
  generalize p.onReceive buf junk = o at hr hrest ⊢
  have hnil : dataKeys (o.effects.drop 1) = [] := by
    cases hr with
    | @data m =>
      rcases p.head_acceptData m with heff | ⟨a, heff⟩ <;> simp [heff, dataKeys]
    | seq => simp [acceptSeq, dataKeys]
    | drop => rfl
  rw [← hrest] at hnil ⊢
  rw [List.cons_append, List.drop_one, List.tail_cons, dataKeys_append, List.append_eq_nil_iff] at hnil
  rw [dataKeys_append, hnil.2, List.append_nil]

end Process

/-! ### The system with faults -/

/-- The process that takes a step. -/
def Sys.actor (s : Sys) : Label → Option Word
  | .launch _ id _ _ => some id
  | .lock tid | .send tid | .timeout tid | .receive tid _ _ => (s.senders tid).map (·.id)
  | .serve lk _ _ => some lk.server

/-- The server of `q` has left `Listen`. -/
def Sys.leave (s : Sys) (q : Word) (p : Process) (effects : List Effect) : Sys :=
  { s with servers := Function.update s.servers q ⟨p, false, s.log q ++ effects⟩ }

structure CrashSys where
  sys : Sys
  /-- The processes that are gone. -/
  gone : Word → Bool

inductive CrashLabel where
  /-- A step of a process that is not gone. -/
  | step (l : Label)
  /-- `recvfrom` or the socket for the answer throws in `Listen`. -/
  | listenThrows (q : Word)
  /-- `Send` throws in the callback on request number `j`. -/
  | answerThrows (lk : Link) (j : Nat)
  /-- `Send` or `recvfrom` throws in a call of a sender thread. -/
  | threadThrows (tid : Nat)
  | killed (q : Word)
  /-- The process is killed in the callback on request number `j`, after `k` effects. -/
  | killedServing (lk : Link) (j : Nat) (junk : Word) (k : Nat)
deriving DecidableEq, Repr

namespace CrashSys

def init (cfg : Config) : CrashSys := ⟨.init cfg, fun _ => false⟩

def Serving (c : CrashSys) (q : Word) : Prop := c.gone q = false ∧ (c.sys.servers q).listening = true

instance (c : CrashSys) (q : Word) : Decidable (c.Serving q) := inferInstanceAs (Decidable (_ ∧ _))

def kill (c : CrashSys) (q : Word) : CrashSys := { c with gone := Function.update c.gone q true }

/-- The process is gone after `effects` of its callback on request number `j`. Nothing of its state is left. -/
def cutShort (c : CrashSys) (lk : Link) (j : Nat) (effects : List Effect) : CrashSys :=
  let p := (c.sys.servers lk.server).process
  let sent := effects.filterMap (Effect.datagram p.host)
  { sys := { c.sys.leave lk.server p effects with
      answers := Function.update c.sys.answers lk (c.sys.answers lk ++ sent.map (⟨j, ·⟩)) }
    gone := Function.update c.gone lk.server true }

def step (cfg : Config) (c : CrashSys) : CrashLabel → Option CrashSys
  | .step l =>
    if (c.sys.actor l).any c.gone then none else (c.sys.step cfg l).map fun s => { c with sys := s }
  | .listenThrows q =>
    if c.Serving q then some { c with sys := c.sys.leave q (c.sys.servers q).process [] } else none
  | .answerThrows lk j => do
    let buf ← (c.sys.requests lk)[j]?
    let o ← (c.sys.servers lk.server).process.onReceiveThrows buf
    if lk.server.toNat < cfg.n ∧ c.Serving lk.server then
      some { c with sys := c.sys.leave lk.server o.process o.effects }
    else none
  | .threadThrows tid => do
    let t ← c.sys.senders tid
    if t.inSession ∧ c.gone t.id = false then some (c.kill t.id) else none
  | .killed q => some (c.kill q)
  | .killedServing lk j junk k => do
    let buf ← (c.sys.requests lk)[j]?
    if lk.server.toNat < cfg.n ∧ c.Serving lk.server then
      some (c.cutShort lk j (((c.sys.servers lk.server).process.onReceive buf junk).effects.take k))
    else none

end CrashSys

def Config.crashes (cfg : Config) : Lts CrashSys CrashLabel := ⟨.init cfg, CrashSys.step cfg⟩

/-- The steps with what each of them needs. -/
inductive CrashStep (cfg : Config) (c : CrashSys) : CrashLabel → CrashSys → Prop
  | step {l : Label} {s : Sys} (ha : ∀ q, c.sys.actor l = some q → c.gone q = false) (hs : Step cfg c.sys l s) :
      CrashStep cfg c (.step l) { c with sys := s }
  | listenThrows {q : Word} (hq : c.Serving q) :
      CrashStep cfg c (.listenThrows q) { c with sys := c.sys.leave q (c.sys.servers q).process [] }
  | answerThrows {lk : Link} {j : Nat} {buf : Buf} {o : Outcome} (hbuf : (c.sys.requests lk)[j]? = some buf)
      (ho : (c.sys.servers lk.server).process.onReceiveThrows buf = some o) (hid : lk.server.toNat < cfg.n)
      (hq : c.Serving lk.server) :
      CrashStep cfg c (.answerThrows lk j) { c with sys := c.sys.leave lk.server o.process o.effects }
  | threadThrows {tid : Nat} {t : Sender} (ht : c.sys.senders tid = some t) (hin : t.inSession = true)
      (hq : c.gone t.id = false) : CrashStep cfg c (.threadThrows tid) (c.kill t.id)
  | killed {q : Word} : CrashStep cfg c (.killed q) (c.kill q)
  | killedServing {lk : Link} {j k : Nat} {junk : Word} {buf : Buf} (hbuf : (c.sys.requests lk)[j]? = some buf)
      (hid : lk.server.toNat < cfg.n) (hq : c.Serving lk.server) :
      CrashStep cfg c (.killedServing lk j junk k)
        (c.cutShort lk j (((c.sys.servers lk.server).process.onReceive buf junk).effects.take k))

theorem CrashStep.of_step {cfg : Config} {c c' : CrashSys} {l : CrashLabel} (h : c.step cfg l = some c') :
    CrashStep cfg c l c' := by
  cases l with
  | step l =>
    simp only [CrashSys.step] at h
    split_ifs at h with hc
    obtain ⟨s, hs, rfl⟩ := Option.map_eq_some_iff.1 h
    refine .step (fun q hq => ?_) (step_iff.1 hs)
    simpa [hq] using hc
  | listenThrows q =>
    simp only [CrashSys.step] at h
    split_ifs at h with hc
    obtain rfl := Option.some.inj h
    exact .listenThrows hc
  | answerThrows lk j =>
    simp only [CrashSys.step, Option.bind_eq_bind, Option.bind_eq_some_iff] at h
    obtain ⟨buf, hbuf, o, ho, h⟩ := h
    split_ifs at h with hc
    obtain rfl := Option.some.inj h
    exact .answerThrows hbuf ho hc.1 hc.2
  | threadThrows tid =>
    simp only [CrashSys.step, Option.bind_eq_bind, Option.bind_eq_some_iff] at h
    obtain ⟨t, ht, h⟩ := h
    split_ifs at h with hc
    obtain rfl := Option.some.inj h
    exact .threadThrows ht hc.1 hc.2
  | killed q =>
    obtain rfl := Option.some.inj h
    exact .killed
  | killedServing lk j junk k =>
    simp only [CrashSys.step, Option.bind_eq_bind, Option.bind_eq_some_iff] at h
    obtain ⟨buf, hbuf, h⟩ := h
    split_ifs at h with hc
    obtain rfl := Option.some.inj h
    exact .killedServing hbuf hc.1 hc.2

/-! ### The run without the faults -/

/-- The steps that stand for a step with a fault: a callback that has begun is completed. -/
def CrashLabel.steps : CrashLabel → List Label
  | .step l => [l]
  | .answerThrows lk j => [.serve lk j 0]
  | .killedServing lk j junk k => if k = 0 then [] else [.serve lk j junk]
  | .listenThrows _ | .threadThrows _ | .killed _ => []

/-- `s` is as `c` up to the servers that are gone or have left `Listen`: these may have done more, and their last
answer is on the network too. -/
structure CrashSys.Shadow (c : CrashSys) (s : Sys) : Prop where
  senders : s.senders = c.sys.senders
  mutex : s.mutex = c.sys.mutex
  requests : s.requests = c.sys.requests
  server : ∀ q, c.Serving q → s.servers q = c.sys.servers q
  answers : ∀ lk, c.Serving lk.server → s.answers lk = c.sys.answers lk
  log : ∀ q, c.sys.log q <+: s.log q
  dataKeys : ∀ q, dataKeys (s.log q) = dataKeys (c.sys.log q)
  sent : ∀ lk, c.sys.answers lk <+: s.answers lk

variable {cfg : Config} {c c' : CrashSys} {s : Sys} {l : CrashLabel} {ls ls' : List CrashLabel} {p q : Word}

namespace CrashSys.Shadow

theorem refl (c : CrashSys) : c.Shadow c.sys :=
  ⟨rfl, rfl, rfl, fun _ _ => rfl, fun _ _ => rfl, fun _ => List.prefix_refl _, fun _ => rfl, fun _ => List.prefix_refl _⟩

theorem silent (h : c.Shadow s) (hse : c'.sys.senders = c.sys.senders) (hmu : c'.sys.mutex = c.sys.mutex)
    (hreq : c'.sys.requests = c.sys.requests) (hans : c'.sys.answers = c.sys.answers)
    (hserv : ∀ q, c'.Serving q → c.Serving q ∧ c'.sys.servers q = c.sys.servers q)
    (hlog : ∀ q, c'.sys.log q = c.sys.log q) : c'.Shadow s where
  senders := h.senders.trans hse.symm
  mutex := h.mutex.trans hmu.symm
  requests := h.requests.trans hreq.symm
  server q hq := (h.server q (hserv q hq).1).trans (hserv q hq).2.symm
  answers lk hlk := by rw [hans]; exact h.answers lk (hserv _ hlk).1
  log q := by rw [hlog]; exact h.log q
  dataKeys q := by rw [hlog]; exact h.dataKeys q
  sent lk := by rw [hans]; exact h.sent lk

theorem kill (h : c.Shadow s) (q : Word) : (c.kill q).Shadow s := by
  refine h.silent rfl rfl rfl rfl (fun r hr => ⟨⟨?_, hr.2⟩, rfl⟩) fun _ => rfl
  have hr := hr.1
  by_cases hrq : r = q
  · subst hrq
    simp [CrashSys.kill] at hr
  · simpa [CrashSys.kill, Function.update_of_ne hrq] using hr

/-- A callback that was cut short after `effs`, and is completed in the shadow. -/
theorem cut (h : c.Shadow s) {lk : Link} {j : Nat} {o : Outcome} {effs : List Effect} {as : List Answer}
    (hq : c.Serving lk.server) (hse : c'.sys.senders = c.sys.senders) (hmu : c'.sys.mutex = c.sys.mutex)
    (hreq : c'.sys.requests = c.sys.requests)
    (hans : c'.sys.answers = Function.update c.sys.answers lk (c.sys.answers lk ++ as))
    (hserv : ∀ r, c'.Serving r → r ≠ lk.server ∧ c.Serving r ∧ c'.sys.servers r = c.sys.servers r)
    (hlog : c'.sys.log lk.server = c.sys.log lk.server ++ effs)
    (hlog' : ∀ r, r ≠ lk.server → c'.sys.log r = c.sys.log r) (hpre : effs <+: o.effects)
    (hkeys : IsisMulticast.dataKeys effs = IsisMulticast.dataKeys o.effects)
    (has : as <+: o.datagrams.map (⟨j, ·⟩)) : c'.Shadow (s.served lk j o) where
  senders := h.senders.trans hse.symm
  mutex := h.mutex.trans hmu.symm
  requests := h.requests.trans hreq.symm
  server r hr := by
    obtain ⟨hne, hr, heq⟩ := hserv r hr
    rw [Sys.servers_served_of_ne hne, h.server r hr, heq]
  answers lk' hlk' := by
    obtain ⟨hne, hr, -⟩ := hserv _ hlk'
    have hne : lk' ≠ lk := fun heq => hne (congrArg Link.server heq)
    show Function.update s.answers lk _ lk' = _
    rw [hans, Function.update_of_ne hne, Function.update_of_ne hne]
    exact h.answers lk' hr
  log r := by
    by_cases hr : r = lk.server
    · subst hr
      rw [hlog, Sys.log_served, show s.log lk.server = c.sys.log lk.server from congrArg Server.log (h.server _ hq)]
      exact List.prefix_append_right_inj _ |>.2 hpre
    · rw [hlog' r hr, Sys.log_served_of_ne hr]
      exact h.log r
  dataKeys r := by
    by_cases hr : r = lk.server
    · subst hr
      rw [hlog, Sys.log_served, dataKeys_append, dataKeys_append, h.dataKeys, hkeys]
    · rw [hlog' r hr, Sys.log_served_of_ne hr]
      exact h.dataKeys r
  sent lk' := by
    show _ <+: Function.update s.answers lk _ lk'
    rw [hans]
    by_cases hlk : lk' = lk
    · subst hlk
      rw [Function.update_self, Function.update_self, h.answers lk' hq]
      exact List.prefix_append_right_inj _ |>.2 has
    · rw [Function.update_of_ne hlk, Function.update_of_ne hlk]
      exact h.sent lk'

theorem thread (h : c.Shadow s) {s₁ s' : Sys} (hse : s'.senders = s₁.senders) (hmu : s'.mutex = s₁.mutex)
    (hreq : s'.requests = s₁.requests) (hsv : s₁.servers = c.sys.servers) (hans : s₁.answers = c.sys.answers)
    (hsv' : s'.servers = s.servers) (hans' : s'.answers = s.answers) :
    CrashSys.Shadow { c with sys := s₁ } s' := by
  have hserv : ∀ q, CrashSys.Serving { c with sys := s₁ } q → c.Serving q := by
    intro q hq
    exact ⟨hq.1, hsv ▸ hq.2⟩
  have hlog : ∀ q, s₁.log q = c.sys.log q := fun q => by rw [Sys.log, hsv, Sys.log]
  have hlog' : ∀ q, s'.log q = s.log q := fun q => by rw [Sys.log, hsv', Sys.log]
  refine ⟨hse, hmu, hreq, fun q hq => ?_, fun lk hlk => ?_, fun q => ?_, fun q => ?_, fun lk => ?_⟩
  · rw [hsv', h.server q (hserv q hq)]
    exact congrFun hsv.symm q
  · rw [hans', h.answers lk (hserv _ hlk)]
    exact congrFun hans.symm lk
  · rw [hlog, hlog']
    exact h.log q
  · rw [hlog, hlog']
    exact h.dataKeys q
  · rw [hans, hans']
    exact h.sent lk

theorem served (h : c.Shadow s) {lk : Link} (hq : c.Serving lk.server) (j : Nat) (o : Outcome) :
    CrashSys.Shadow { c with sys := c.sys.served lk j o } (s.served lk j o) := by
  have hserv : ∀ r, r ≠ lk.server → CrashSys.Serving { c with sys := c.sys.served lk j o } r → c.Serving r := by
    intro r hr hs
    exact ⟨hs.1, Sys.servers_served_of_ne (s := c.sys) hr j o ▸ hs.2⟩
  refine ⟨h.senders, h.mutex, h.requests, fun r hr => ?_, fun lk' hlk' => ?_, fun r => ?_, fun r => ?_, fun lk' => ?_⟩
  · by_cases hrq : r = lk.server
    · subst hrq
      rw [Sys.servers_served, Sys.servers_served, h.server _ hq]
    · rw [Sys.servers_served_of_ne hrq, Sys.servers_served_of_ne hrq]
      exact h.server r (hserv r hrq hr)
  · show Function.update s.answers lk _ lk' = Function.update c.sys.answers lk _ lk'
    by_cases hlk : lk' = lk
    · subst hlk
      rw [Function.update_self, Function.update_self, h.answers lk' hq]
    · rw [Function.update_of_ne hlk, Function.update_of_ne hlk]
      by_cases hr : lk'.server = lk.server
      · exact h.answers lk' (hr ▸ hq)
      · exact h.answers lk' (hserv _ hr hlk')
  · by_cases hrq : r = lk.server
    · subst hrq
      rw [Sys.log_served, Sys.log_served, show s.log lk.server = c.sys.log lk.server from
        congrArg Server.log (h.server _ hq)]
    · rw [Sys.log_served_of_ne hrq, Sys.log_served_of_ne hrq]
      exact h.log r
  · by_cases hrq : r = lk.server
    · subst hrq
      rw [Sys.log_served, Sys.log_served, dataKeys_append, dataKeys_append, h.dataKeys]
    · rw [Sys.log_served_of_ne hrq, Sys.log_served_of_ne hrq]
      exact h.dataKeys r
  · show Function.update c.sys.answers lk _ lk' <+: Function.update s.answers lk _ lk'
    by_cases hlk : lk' = lk
    · subst hlk
      rw [Function.update_self, Function.update_self, h.answers lk' hq]
    · rw [Function.update_of_ne hlk, Function.update_of_ne hlk]
      exact h.sent lk'

theorem step_of_step (h : c.Shadow s) {l : Label} {s₁ : Sys} (ha : ∀ q, c.sys.actor l = some q → c.gone q = false)
    (hs : Step cfg c.sys l s₁) : ∃ s', Step cfg s l s' ∧ CrashSys.Shadow { c with sys := s₁ } s' := by
  cases hs with
  | launch hid ht =>
    rw [← h.senders] at ht
    refine ⟨_, .launch hid ht, h.thread ?_ h.mutex h.requests rfl rfl rfl rfl⟩
    rw [h.senders]
  | lock ht hlk hpc hm =>
    rw [← h.senders] at ht
    rw [← h.mutex] at hm
    refine ⟨_, .lock ht hlk hpc hm, h.thread ?_ ?_ h.requests rfl rfl rfl rfl⟩
    · simp only [h.senders]
    · simp only [h.mutex]
  | send ht hlk hbuf hpc =>
    rw [← h.senders] at ht
    refine ⟨_, .send ht hlk hbuf hpc, h.thread ?_ h.mutex ?_ rfl rfl rfl rfl⟩
    · simp only [h.senders]
    · simp only [h.requests]
  | timeout ht hlk ht' =>
    rw [← h.senders] at ht
    refine ⟨_, .timeout ht hlk ht', h.thread ?_ ?_ h.requests rfl rfl rfl rfl⟩
    · simp only [Sys.resume, h.senders]
    · simp only [Sys.resume, h.mutex]
  | @receive tid j t t' lk a ht hlk ha' ht' =>
    rw [← h.senders] at ht
    have hget : (s.answers lk)[j]? = some a := by
      obtain ⟨rest, hrest⟩ := h.sent lk
      obtain ⟨hj, -⟩ := List.getElem?_eq_some_iff.1 ha'
      rw [← hrest, List.getElem?_append_left hj, ha']
    refine ⟨_, .receive ht hlk hget ht', h.thread ?_ ?_ h.requests rfl rfl rfl rfl⟩
    · simp only [Sys.resume, h.senders]
    · simp only [Sys.resume, h.mutex]
  | @serve lk j junk buf hbuf hid hl =>
    have hq : c.Serving lk.server := ⟨ha lk.server rfl, hl⟩
    have hsv := h.server _ hq
    rw [← h.requests] at hbuf
    rw [← hsv] at hl ⊢
    exact ⟨_, .serve hbuf hid hl, h.served hq j _⟩

/-- The shadow completes a callback that has begun. -/
theorem serve (h : c.Shadow s) {lk : Link} (hq : c.Serving lk.server) {j : Nat} {buf : Buf}
    (hbuf : (c.sys.requests lk)[j]? = some buf) (hid : lk.server.toNat < cfg.n) (junk : Word) :
    [Label.serve lk j junk].foldlM (Sys.step cfg) s =
      some (s.served lk j ((c.sys.servers lk.server).process.onReceive buf junk)) := by
  have hsv := h.server _ hq
  rw [← h.requests] at hbuf
  have hs : Step cfg s (.serve lk j junk) _ := .serve hbuf hid (hsv ▸ hq.2)
  rw [← hsv]
  simp [step_iff.2 hs]

theorem serving_leave {effs : List Effect} {pr : Process} {r : Word}
    (h : CrashSys.Serving { c with sys := c.sys.leave q pr effs } r) :
    r ≠ q ∧ c.Serving r ∧ (c.sys.leave q pr effs).servers r = c.sys.servers r := by
  have hne : r ≠ q := by
    rintro rfl
    simpa [Sys.leave] using h.2
  have heq : (c.sys.leave q pr effs).servers r = c.sys.servers r := Function.update_of_ne hne ..
  exact ⟨hne, ⟨h.1, heq ▸ h.2⟩, heq⟩

theorem serving_cutShort {lk : Link} {j : Nat} {effs : List Effect} {r : Word}
    (h : (c.cutShort lk j effs).Serving r) :
    r ≠ lk.server ∧ c.Serving r ∧ (c.cutShort lk j effs).sys.servers r = c.sys.servers r := by
  have hne : r ≠ lk.server := by
    rintro rfl
    simpa [CrashSys.cutShort] using h.1
  have heq : (c.cutShort lk j effs).sys.servers r = c.sys.servers r := Function.update_of_ne hne ..
  have hgone : (c.cutShort lk j effs).gone r = c.gone r := Function.update_of_ne hne ..
  exact ⟨hne, ⟨hgone ▸ h.1, heq ▸ h.2⟩, heq⟩

theorem step (h : c.Shadow s) (hs : CrashStep cfg c l c') :
    ∃ s', l.steps.foldlM (Sys.step cfg) s = some s' ∧ c'.Shadow s' := by
  cases hs with
  | step ha hs =>
    obtain ⟨s', hs', h'⟩ := h.step_of_step ha hs
    exact ⟨s', by simp [CrashLabel.steps, step_iff.2 hs'], h'⟩
  | @listenThrows q hq =>
    refine ⟨s, rfl, h.silent rfl rfl rfl rfl (fun r hr => (serving_leave hr).2) fun r => ?_⟩
    by_cases hr : r = q
    · subst hr
      simp [Sys.log, Sys.leave]
    · simp [Sys.log, Sys.leave, Function.update_of_ne hr]
  | @answerThrows lk j buf o hbuf ho hid hq =>
    obtain ⟨hne, hpre⟩ := Process.effects_of_onReceiveThrows ho 0
    refine ⟨_, h.serve hq hbuf hid 0, ?_⟩
    -- the effects before the exception, and no answer
    have hans : (c.sys.leave lk.server o.process o.effects).answers =
        Function.update c.sys.answers lk (c.sys.answers lk ++ []) := by simp [Sys.leave]
    refine h.cut hq rfl rfl rfl hans (fun r hr => serving_leave hr) ?_ (fun r hr => ?_) hpre
      (Process.dataKeys_onReceive 0 hne hpre) List.nil_prefix
    · simp [Sys.log, Sys.leave]
    · simp [Sys.log, Sys.leave, Function.update_of_ne hr]
  | threadThrows => exact ⟨s, rfl, h.kill _⟩
  | killed => exact ⟨s, rfl, h.kill _⟩
  | @killedServing lk j k junk buf hbuf hid hq =>
    cases k with
    | zero =>
      refine ⟨s, rfl, h.silent rfl rfl rfl (by simp [CrashSys.cutShort]) (fun r hr => (serving_cutShort hr).2)
        fun r => ?_⟩
      by_cases hr : r = lk.server
      · subst hr
        simp [Sys.log, Sys.leave, CrashSys.cutShort]
      · simp [Sys.log, Sys.leave, CrashSys.cutShort, Function.update_of_ne hr]
    | succ k =>
      generalize heffs : ((c.sys.servers lk.server).process.onReceive buf junk).effects.take (k + 1) = effs
      have hpre : effs <+: ((c.sys.servers lk.server).process.onReceive buf junk).effects := by
        rw [← heffs]
        exact List.take_prefix _ _
      refine ⟨_, h.serve hq hbuf hid junk, ?_⟩
      refine h.cut hq rfl rfl rfl rfl (fun r hr => serving_cutShort hr) ?_ (fun r hr => ?_) hpre ?_ ?_
      · simp [Sys.log, Sys.leave, CrashSys.cutShort]
      · simp [Sys.log, Sys.leave, CrashSys.cutShort, Function.update_of_ne hr]
      · by_cases hne : effs = []
        · have hnil : ((c.sys.servers lk.server).process.onReceive buf junk).effects = [] := by
            simpa [hne] using heffs
          rw [hne, hnil]
        · exact Process.dataKeys_onReceive junk hne hpre
      · rw [Outcome.datagrams, Process.host_onReceive]
        exact (hpre.filterMap _).map _

theorem deliveries (h : c.Shadow s) (q : Word) :
    IsisMulticast.deliveries (c.sys.log q) <+: IsisMulticast.deliveries (s.log q) := (h.log q).filterMap _

theorem firstDeliveries (h : c.Shadow s) (q : Word) :
    IsisMulticast.firstDeliveries (c.sys.log q) <+: IsisMulticast.firstDeliveries (s.log q) := by
  obtain ⟨ds, hds⟩ := h.deliveries q
  rw [IsisMulticast.firstDeliveries, IsisMulticast.firstDeliveries, ← hds]
  exact firstsBy_prefix_append

end CrashSys.Shadow

theorem exists_shadow (hrun : cfg.crashes.Run ls c) : ∃ s, cfg.lts.Run (ls.flatMap CrashLabel.steps) s ∧ c.Shadow s :=
  Lts.Run.translate (.refl _) (fun _ _ _ _ hs h => h.step (.of_step hs)) hrun

/-! ### What survives -/

/-- The order of the deliveries survives exceptions and crashes. At every process, be it gone, the first deliveries
are strictly increasing and each comes after all smaller messages that are decided, and of two processes one has
delivered first what the other has, and maybe more. -/
theorem crash_safe (hd : DistinctIds (ls.flatMap CrashLabel.steps))
    (hw : cfg.lts.Along NoWrap (ls.flatMap CrashLabel.steps)) (hrun : cfg.crashes.Run ls c) :
    (∀ p, p.toNat < cfg.n → (firstDeliveries (c.sys.log p)).Pairwise SeqMessage.Before ∧
      ∀ l₁ d l₂, deliveries (c.sys.log p) = l₁ ++ d :: l₂ → ∀ m, c.sys.Decided m → m.Before d → m ∈ l₁) ∧
    ∀ p q, p.toNat < cfg.n → q.toNat < cfg.n →
      firstDeliveries (c.sys.log p) <+: firstDeliveries (c.sys.log q) ∨
        firstDeliveries (c.sys.log q) <+: firstDeliveries (c.sys.log p) := by
  obtain ⟨s, hrun, hshadow⟩ := exists_shadow hrun
  have h := Sys.Inv.of_run hd hrun
  have ho : ∀ p, p.toNat < cfg.n → (s.servers p).Ordered := fun p hp => Sys.Inv.ordered hd hw hrun hp
  refine ⟨fun p hp => ⟨?_, fun l₁ d l₂ hdel m hm hb => ?_⟩, fun p q hp hq => ?_⟩
  · exact (ho p hp).sorted.sublist (hshadow.firstDeliveries p).sublist
  · obtain ⟨ds, hds⟩ := hshadow.deliveries p
    have hm' : s.Decided m := by
      obtain ⟨tid, t, ht, hdec⟩ := hm
      exact ⟨tid, t, hshadow.senders ▸ ht, hdec⟩
    have hdel' : deliveries (s.log p) = l₁ ++ d :: (l₂ ++ ds) := by
      rw [← hds, hdel, List.append_assoc, List.cons_append]
    exact h.mem_of_before hp (ho p hp) hdel' hm' hb
  · -- both are initial segments of the longer of the two in the shadow
    have hpp := hshadow.firstDeliveries p
    have hqq := hshadow.firstDeliveries q
    have hcmp := h.firstDeliveries_prefix hp hq (ho p hp) (ho q hq)
    rcases hcmp with hpre | hpre
    · exact List.prefix_or_prefix_of_prefix (hpp.trans hpre) hqq
    · exact List.prefix_or_prefix_of_prefix hpp (hqq.trans hpre)

/-- Process 1 is killed between the two deliveries of its last callback in `pairRun`. -/
theorem crash_safe_killedServing : ∃ c,
    pair.crashes.Run ((pairRun.take 32).map .step ++ [.killedServing ⟨0, 1⟩ 1 0 3]) c ∧ c.gone 1 = true ∧
    deliveries (c.sys.log 1) = [pairFirst] ∧
    (firstDeliveries (c.sys.log 1) <+: firstDeliveries (c.sys.log 0) ∨
      firstDeliveries (c.sys.log 0) <+: firstDeliveries (c.sys.log 1)) := by
  have h : (pair.crashes.exec ((pairRun.take 32).map .step ++ [.killedServing ⟨0, 1⟩ 1 0 3])).map
      (fun c => (c.gone 1, deliveries (c.sys.log 1))) = some (true, [pairFirst]) := by decide
  obtain ⟨c, hrun, hc⟩ := Option.map_eq_some_iff.1 h
  obtain ⟨hgone, hdel⟩ := Prod.mk.inj hc
  exact ⟨c, hrun, hgone, hdel, (crash_safe (by decide) (by decide) hrun).2 1 0 (by decide) (by decide)⟩

/-! ### What does not -/

theorem CrashStep.log_mono (hs : CrashStep cfg c l c') (q : Word) : c.sys.log q <+: c'.sys.log q := by
  have hleave : ∀ (r : Word) (pr : Process) (effs : List Effect), c.sys.log q <+: (c.sys.leave r pr effs).log q := by
    intro r pr effs
    by_cases hr : q = r
    · subst hr
      simp [Sys.log, Sys.leave]
    · simp [Sys.log, Sys.leave, Function.update_of_ne hr]
  cases hs with
  | step _ hs => exact hs.le.log q
  | listenThrows => exact hleave _ _ _
  | answerThrows => exact hleave _ _ _
  | killedServing => exact hleave _ _ _
  | threadThrows => exact List.prefix_refl _
  | killed => exact List.prefix_refl _

theorem CrashStep.servers_of_not_serving (hs : CrashStep cfg c l c') (hq : ¬ c.Serving q) :
    c'.sys.servers q = c.sys.servers q ∧ ¬ c'.Serving q := by
  have hne : ∀ {r}, c.Serving r → q ≠ r := by
    rintro r hr rfl
    exact hq hr
  have hkill : ∀ r, ¬ (c.kill r).Serving q := by
    rintro r ⟨hgone, hl⟩
    refine hq ⟨?_, hl⟩
    by_cases hr : q = r
    · subst hr
      simp [CrashSys.kill] at hgone
    · simpa [CrashSys.kill, Function.update_of_ne hr] using hgone
  cases hs with
  | @step l s ha hs =>
    have heq : s.servers q = c.sys.servers q := by
      cases hs with
      | @serve lk j junk buf hbuf hid hl => exact Sys.servers_served_of_ne (hne ⟨ha _ rfl, hl⟩) _ _
      | _ => rfl
    refine ⟨heq, fun hs => hq ⟨hs.1, ?_⟩⟩
    rw [← heq]
    exact hs.2
  | listenThrows hr =>
    exact ⟨Function.update_of_ne (hne hr) .., fun hs => hq (CrashSys.Shadow.serving_leave hs).2.1⟩
  | answerThrows _ _ _ hr =>
    exact ⟨Function.update_of_ne (hne hr) .., fun hs => hq (CrashSys.Shadow.serving_leave hs).2.1⟩
  | killedServing _ _ hr =>
    exact ⟨Function.update_of_ne (hne hr) .., fun hs => hq (CrashSys.Shadow.serving_cutShort hs).2.1⟩
  | threadThrows => exact ⟨rfl, hkill _⟩
  | killed => exact ⟨rfl, hkill _⟩

theorem CrashStep.sender_of_gone (hs : CrashStep cfg c l c') {tid : Nat} {t : Sender} (ht : c.sys.senders tid = some t)
    (hgone : c.gone t.id = true) : c'.sys.senders tid = some t ∧ c'.gone t.id = true := by
  have hkill : ∀ r, (c.kill r).gone t.id = true := by
    intro r
    by_cases hr : t.id = r
    · subst hr
      simp [CrashSys.kill]
    · simpa [CrashSys.kill, Function.update_of_ne hr] using hgone
  cases hs with
  | @step l s ha hs =>
    have hother : ∀ {i : Nat} {u u' : Sender}, c.sys.senders i = some u → c.sys.actor l = some u.id →
        Function.update c.sys.senders i (some u') tid = some t := by
      intro i u u' hu hact
      rw [Function.update_of_ne, ht]
      rintro rfl
      obtain rfl := Option.some.inj (ht.symm.trans hu)
      simp [ha _ hact] at hgone
    refine ⟨?_, hgone⟩
    cases hs with
    | @launch i id msgId data hid hnone =>
      have hi : tid ≠ i := by
        rintro rfl
        simp [ht] at hnone
      simp [Function.update_of_ne hi, ht]
    | lock hu => exact hother hu (by simp [Sys.actor, hu])
    | send hu => exact hother hu (by simp [Sys.actor, hu])
    | timeout hu => exact hother hu (by simp [Sys.actor, hu])
    | receive hu => exact hother hu (by simp [Sys.actor, hu])
    | serve => exact ht
  | listenThrows => exact ⟨ht, hgone⟩
  | answerThrows => exact ⟨ht, hgone⟩
  | threadThrows => exact ⟨ht, hkill _⟩
  | killed => exact ⟨ht, hkill _⟩
  | killedServing => exact ⟨ht, hkill _⟩

/-- The number of `k` can no longer be decided: the process of its thread is gone, or a server that never received the
message. -/
def CrashSys.Orphan (cfg : Config) (c : CrashSys) (k : PendingMessageKey) : Prop :=
  (∃ tid t, c.sys.senders tid = some t ∧ t.key = k ∧ t.decided = none ∧ c.gone t.id = true) ∨
  ∃ q, q.toNat < cfg.n ∧ ¬ c.Serving q ∧ k ∉ dataKeys (c.sys.log q)

namespace CrashSys.Orphan

variable {k : PendingMessageKey}

theorem step (h : c.Orphan cfg k) (hs : CrashStep cfg c l c') : c'.Orphan cfg k := by
  rcases h with ⟨tid, t, ht, hk, hdec, hgone⟩ | ⟨q, hq, hserv, hnot⟩
  · obtain ⟨ht', hgone'⟩ := hs.sender_of_gone ht hgone
    exact .inl ⟨tid, t, ht', hk, hdec, hgone'⟩
  · obtain ⟨heq, hserv'⟩ := hs.servers_of_not_serving hserv
    refine .inr ⟨q, hq, hserv', ?_⟩
    rwa [Sys.log, heq]

theorem not_decided (h : c.Orphan cfg k) (hshadow : c.Shadow s) (hinv : s.Inv cfg) {m : SeqMessage}
    (hm : s.Decided m) : m.key ≠ k := by
  rintro rfl
  rcases h with ⟨tid, t, ht, hk, hdec, -⟩ | ⟨q, hq, -, hnot⟩
  · have heq := hinv.decided_eq hm (hshadow.senders ▸ ht) hk.symm
    simp [hdec] at heq
  · exact hnot (hshadow.dataKeys q ▸ hinv.mem_dataKeys_of_decided hm hq)

end CrashSys.Orphan

/-- No recovery. A message whose number can no longer be decided is never delivered, by any process and in any
continuation; and a process that holds it delivers from then on only messages with smaller numbers that it had received
already. In particular no message that a server had not received when it left `Listen` is ever delivered. -/
theorem orphan_blocks {k : PendingMessageKey} (hd : DistinctIds ((ls ++ ls').flatMap CrashLabel.steps))
    (hw : cfg.lts.Along NoWrap ((ls ++ ls').flatMap CrashLabel.steps)) (hrun : cfg.crashes.Run ls c)
    (hrun' : cfg.crashes.Run (ls ++ ls') c') (hk : c.Orphan cfg k) :
    (∀ p, p.toNat < cfg.n → ¬ Delivered (c'.sys.log p) k) ∧
    ∀ p v, p.toNat < cfg.n → c.Serving p → (c.sys.servers p).pending k = some v →
      ∃ ds, deliveries (c'.sys.log p) = deliveries (c.sys.log p) ++ ds ∧
        ∀ d ∈ ds, d.finalSeq < v.seq ∧ d.key ∈ dataKeys (c.sys.log p) := by
  obtain ⟨hk', hlog⟩ : c'.Orphan cfg k ∧ ∀ p, c.sys.log p <+: c'.sys.log p := by
    refine Lts.Along.induction_from (P := fun c' => c'.Orphan cfg k ∧ ∀ p, c.sys.log p <+: c'.sys.log p)
      (G := fun _ _ => True) hrun ⟨hk, fun _ => List.prefix_refl _⟩ ?_ (fun _ _ _ _ _ _ => trivial) hrun'
    rintro - c₁ l c₂ - - ⟨hk₁, hlog₁⟩ - hs
    have hs := CrashStep.of_step hs
    exact ⟨hk₁.step hs, fun p => (hlog₁ p).trans (hs.log_mono p)⟩
  obtain ⟨s, hrun, hshadow⟩ := exists_shadow hrun
  obtain ⟨s', hrun', hshadow'⟩ := exists_shadow hrun'
  rw [List.flatMap_append] at hd hw hrun'
  have h' := Sys.Inv.of_run hd hrun'
  refine ⟨fun p hp => ?_, fun p v hp hserv hv => ?_⟩
  · rintro ⟨d, hdel, hdk⟩
    exact hk'.not_decided hshadow' h' (h'.decided_of_delivered hp ((hshadow'.deliveries p).subset hdel)) hdk
  · have hsv := hshadow.server p hserv
    have hslog : s.log p = c.sys.log p := congrArg Server.log hsv
    have hns : ∀ m ∈ (finals (s'.log p)).drop (finals (s.log p)).length, m.key ≠ k := by
      intro m hm
      exact hk'.not_decided hshadow' h' (h'.handledSeq p hp m (List.mem_of_mem_drop hm)).1
    obtain ⟨-, ds', hds', hall⟩ := Sys.Inv.blocked hd hw hrun hrun' hp (hsv ▸ hv) hns
    -- what the process has delivered since is an initial part of what its shadow has
    obtain ⟨ds, hds⟩ : deliveries (c.sys.log p) <+: deliveries (c'.sys.log p) := (hlog p).filterMap _
    have hpre : ds <+: ds' := by
      have hall := hshadow'.deliveries p
      rw [hds', hslog, ← hds] at hall
      exact (List.prefix_append_right_inj _).1 hall
    refine ⟨ds, hds.symm, fun d hmem => ?_⟩
    rw [← hslog]
    exact hall d (hpre.subset hmem)

/-- Process 1 is killed before it has received the message of process 0. -/
def orphanRun : List CrashLabel :=
  ([.launch 0 0 7 50] ++ callAnswered 0 ⟨0, 0⟩ 0 : List Label).map .step ++ [.killed 1]

theorem orphan_blocks_orphanRun : ∃ c c', pair.crashes.Run orphanRun c ∧
    pair.crashes.Run (orphanRun ++ [.step (.lock 0), .step (.send 0), .step (.timeout 0)]) c' ∧
    (c.sys.servers 0).pending ⟨0, 7⟩ = some ⟨1, 0⟩ ∧ ¬ Delivered (c'.sys.log 0) ⟨0, 7⟩ ∧
    ∀ d ∈ deliveries (c'.sys.log 0), d.finalSeq < 1 := by
  have h : (pair.crashes.exec orphanRun).isSome := by decide
  have h' : (pair.crashes.exec (orphanRun ++ [.step (.lock 0), .step (.send 0), .step (.timeout 0)])).isSome := by decide
  have hc : ∀ c ∈ pair.crashes.exec orphanRun, c.Serving 0 ∧ ¬ c.Serving 1 ∧
      (c.sys.servers 0).pending ⟨0, 7⟩ = some ⟨1, 0⟩ ∧ dataKeys (c.sys.log 1) = [] ∧ deliveries (c.sys.log 0) = [] := by
    decide
  obtain ⟨c, hrun⟩ := Option.isSome_iff_exists.1 h
  obtain ⟨c', hrun'⟩ := Option.isSome_iff_exists.1 h'
  obtain ⟨hserv, hgone, hpend, hkeys, hnone⟩ := hc c hrun
  have hk : c.Orphan pair ⟨0, 7⟩ := .inr ⟨1, by decide, hgone, by simp [hkeys]⟩
  obtain ⟨hnot, hblock⟩ := orphan_blocks (by decide) (by decide) hrun hrun' hk
  obtain ⟨ds, hds, hlt⟩ := hblock 0 _ (by decide) hserv hpend
  refine ⟨c, c', hrun, hrun', hpend, hnot 0 (by decide), fun d hd => ?_⟩
  rw [hds, hnone, List.nil_append] at hd
  exact (hlt d hd).1

end IsisMulticast

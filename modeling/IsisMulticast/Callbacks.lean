import IsisMulticast.SysInv

/-!
# Inside the callback of a server

In `System` a call of the callback is one step. But `HandleSeqMsg` sends its answer before it touches the queue
(`process.cc:417` and `421`), and the thread that waits for the answer can go on, and finish, before the message is
delivered. `CallbackSys` is the system in which a callback goes from one of its effects to the next, and the threads
and the other servers run in between.

`CallbackSys.completed` is the state when the callbacks that are running have come to their end. It is reached by the
steps of `System`, with a whole callback in the place where it is entered (`run_completed`). A server that is outside
its callback is in `completed` as it is, so what is proved of the states of `System` holds of such servers.
Conversely the states of `System` are states of `CallbackSys` in which no callback is running (`exists_callbacks_run`).
-/

namespace IsisMulticast
open Lib

/-- Where a callback stands: what it does next. -/
inductive Point where
  /-- `HandleDataMsg` before `SendAckMsg`. -/
  | sendAck (ackMsg : AckMessage)
  /-- `HandleSeqMsg` before `SendSeqAckMsg`. -/
  | sendSeqAck (seqMsg : SeqMessage)
  /-- `HandleSeqMsg` before `SetDeliverable`. -/
  | setDeliverable (seqMsg : SeqMessage)
  /-- The head of the loop in `SetDeliverable`. -/
  | deliverLoop
  /-- The loop after its call of `deliver`. -/
  | erase
deriving DecidableEq, Repr

/-- A part of a callback, and where it stands then, if it has not come to its end. -/
structure Stage where
  outcome : Outcome
  next : Option Point

namespace Process

/-- `HandleDataMsg` on a message that passed the checks, up to the `Send`. -/
def enterData (p : Process) (dataMsg : DataMessage) : Stage :=
  match p.holdBackQueue.lookup dataMsg with
  | some ackMsg => ⟨{ process := p, effects := [.receivedData dataMsg] }, some (.sendAck ackMsg)⟩
  | none =>
    let (seq, p) := p.nextSeqNum
    let ackMsg : AckMessage :=
      { sender := dataMsg.sender, msgId := dataMsg.msgId, proposedSeq := seq, proposer := p.id }
    match p.holdBackQueue.insertUndeliverable ackMsg dataMsg.data with
    | (.ok (), q) =>
      ⟨{ process := { p with holdBackQueue := q }, effects := [.receivedData dataMsg] }, some (.sendAck ackMsg)⟩
    | (.error e, q) =>
      ⟨{ process := { p with holdBackQueue := q }, effects := [.receivedData dataMsg], thrown := some e }, none⟩

/-- `HandleSeqMsg` on a message that passed the checks, up to the `Send`. -/
def enterSeq (p : Process) (seqMsg : SeqMessage) : Stage :=
  ⟨{ process := p.forwardSeqNum seqMsg.finalSeq, effects := [.receivedSeq seqMsg] }, some (.sendSeqAck seqMsg)⟩

/-- A callback that drops the datagram. -/
def ignore (p : Process) : Stage := ⟨{ process := p, effects := [] }, none⟩

/-- The callback up to its `Send`, or to its end if it does not answer. -/
def enter (p : Process) (buf : Buf) : Stage :=
  match messageTypeFromBuf p.host buf with
  | none => p.ignore
  | some type =>
    if type = kDataMessageType then
      match dataMsgFromBuf p.host buf with
      | none => p.ignore
      | some dataMsg => if !validDataMsg dataMsg p.processCount then p.ignore else p.enterData dataMsg
    else if type = kSeqMessageType then
      match seqMsgFromBuf p.host buf with
      | none => p.ignore
      | some seqMsg => if !validSeqMsg seqMsg p.processCount then p.ignore else p.enterSeq seqMsg
    else p.ignore

/-- The callback from one point to the next. -/
def resume (p : Process) (junk : Word) : Point → Stage
  | .sendAck ackMsg => ⟨{ process := p, effects := [.sendAck ackMsg] }, none⟩
  | .sendSeqAck seqMsg =>
    ⟨{ process := p, effects := [.sendSeqAck { sender := seqMsg.sender, msgId := seqMsg.msgId }] },
      some (.setDeliverable seqMsg)⟩
  | .setDeliverable seqMsg =>
    match p.holdBackQueue.pendingSeqs.lookup seqMsg.key with
    | none => ⟨{ process := p, effects := [] }, none⟩
    | some oldPms =>
      let q := p.holdBackQueue
      ⟨{ process := { p with holdBackQueue := ⟨q.pendingSeqs.erase seqMsg.key, q.marked seqMsg oldPms junk⟩ }
         effects := [] }, some .deliverLoop⟩
  | .deliverLoop =>
    match p.holdBackQueue.ordering.toList.head? with
    | none => ⟨{ process := p, effects := [] }, none⟩
    | some pm =>
      if pm.deliverable then ⟨{ process := p, effects := [.deliver pm.toDeliver] }, some .erase⟩
      else ⟨{ process := p, effects := [] }, none⟩
  | .erase =>
    let q := p.holdBackQueue
    ⟨{ process := { p with holdBackQueue := ⟨q.pendingSeqs, q.ordering.tail⟩ }, effects := [] }, some .deliverLoop⟩

/-! ### The rest of a callback -/

/-- The rest of the loop, when the queue is `q`. -/
def deliverRest (p : Process) (q : HoldBackQueue) : Outcome :=
  let (popped, ordering) := q.ordering.popWhile (·.deliverable)
  { process := { p with holdBackQueue := ⟨q.pendingSeqs, ordering⟩ }
    effects := (popped.map (·.toDeliver)).map .deliver }

/-- The callback from a point to its end. -/
def finish (p : Process) (junk : Word) : Point → Outcome
  | .sendAck ackMsg => { process := p, effects := [.sendAck ackMsg] }
  | .sendSeqAck seqMsg =>
    let (delivered, q) := p.holdBackQueue.setDeliverable seqMsg junk
    { process := { p with holdBackQueue := q }
      effects := .sendSeqAck { sender := seqMsg.sender, msgId := seqMsg.msgId } :: delivered.map .deliver }
  | .setDeliverable seqMsg =>
    let (delivered, q) := p.holdBackQueue.setDeliverable seqMsg junk
    { process := { p with holdBackQueue := q }, effects := delivered.map .deliver }
  | .deliverLoop => p.deliverRest p.holdBackQueue
  | .erase => p.deliverRest ⟨p.holdBackQueue.pendingSeqs, p.holdBackQueue.ordering.tail⟩

end Process

def Outcome.followedBy (o o' : Outcome) : Outcome := { o' with effects := o.effects ++ o'.effects }

/-- A stage and the rest of its callback. -/
def Stage.complete (st : Stage) (junk : Word) : Outcome :=
  match st.next with
  | none => st.outcome
  | some pt => st.outcome.followedBy (st.outcome.process.finish junk pt)

namespace Process

variable {p : Process} {buf : Buf} {junk : Word}

theorem complete_enterData (p : Process) (m : DataMessage) (junk : Word) :
    (p.enterData m).complete junk = p.acceptData m := by
  unfold enterData acceptData
  cases p.holdBackQueue.lookup m with
  | some a => rfl
  | none =>
    dsimp only
    generalize p.nextSeqNum.2.holdBackQueue.insertUndeliverable _ _ = r
    obtain ⟨_ | _, q⟩ := r <;> rfl

theorem complete_enterSeq (p : Process) (m : SeqMessage) (junk : Word) :
    (p.enterSeq m).complete junk = p.acceptSeq m junk := rfl

/-- The stages make up the callback. -/
theorem complete_enter (p : Process) (buf : Buf) (junk : Word) :
    (p.enter buf).complete junk = p.onReceive buf junk := by
  unfold enter onReceive
  cases messageTypeFromBuf p.host buf with
  | none => rfl
  | some type =>
    dsimp only
    split_ifs
    · unfold handleDataMsg
      cases dataMsgFromBuf p.host buf with
      | none => rfl
      | some m =>
        dsimp only
        split_ifs
        · rfl
        · exact p.complete_enterData m junk
    · unfold handleSeqMsg
      cases seqMsgFromBuf p.host buf with
      | none => rfl
      | some m =>
        dsimp only
        split_ifs
        · rfl
        · exact p.complete_enterSeq m junk
    · rfl

theorem enter_cases (p : Process) (buf : Buf) :
    (∃ m, p.enter buf = p.enterData m) ∨ (∃ m, p.enter buf = p.enterSeq m) ∨ p.enter buf = p.ignore := by
  unfold enter
  split
  · exact .inr (.inr rfl)
  · split_ifs
    · split
      · exact .inr (.inr rfl)
      · split_ifs
        · exact .inr (.inr rfl)
        · exact .inl ⟨_, rfl⟩
    · split
      · exact .inr (.inr rfl)
      · split_ifs
        · exact .inr (.inr rfl)
        · exact .inr (.inl ⟨_, rfl⟩)
    · exact .inr (.inr rfl)

/-- A callback that comes to its `Send` has accepted a message before. -/
theorem effects_enter (p : Process) {pt : Point} (h : (p.enter buf).next = some pt) :
    (p.enter buf).outcome.effects ≠ [] := by
  rcases p.enter_cases buf with ⟨m, heq⟩ | ⟨m, heq⟩ | heq <;> rw [heq] at h ⊢
  · unfold enterData
    split
    · simp
    · dsimp only
      split <;> simp
  · simp [enterSeq]
  · cases h

theorem complete_resume (p : Process) (junk : Word) (pt : Point) :
    (p.resume junk pt).complete junk = p.finish junk pt := by
  cases pt with
  | sendAck | sendSeqAck | erase => rfl
  | setDeliverable m =>
    simp only [resume, finish]
    cases hp : p.holdBackQueue.pendingSeqs.lookup m.key with
    | none => simp [Stage.complete, HoldBackQueue.setDeliverable_of_none hp]
    | some v =>
      simp [Stage.complete, Outcome.followedBy, finish, deliverRest, HoldBackQueue.setDeliverable_of_some hp]
  | deliverLoop =>
    cases hhead : p.holdBackQueue.ordering.toList.head? with
    | none =>
      have hpop := OrdSet.popWhile_of_not_head (s := p.holdBackQueue.ordering) (p := (·.deliverable)) (by simp [hhead])
      simp [resume, finish, deliverRest, hhead, hpop, Stage.complete]
    | some e =>
      cases hd : e.deliverable with
      | false =>
        have hpop := OrdSet.popWhile_of_not_head (s := p.holdBackQueue.ordering) (p := (·.deliverable))
          (by simp [hhead, hd])
        simp [resume, finish, deliverRest, hhead, hd, hpop, Stage.complete]
      | true =>
        have hpop := OrdSet.popWhile_of_head (p := (·.deliverable)) hhead hd
        simp [resume, finish, deliverRest, hhead, hd, hpop, Stage.complete, Outcome.followedBy]

@[simp] theorem host_finish (p : Process) (junk : Word) (pt : Point) : (p.finish junk pt).process.host = p.host := by
  cases pt <;> rfl

end Process

/-! ### The system -/

/-- A callback that is running, on a request of `client`. -/
structure Callback where
  client : Word
  /-- The number of the request. -/
  request : Nat
  /-- The indeterminate value that `SetDeliverable` may pick up. -/
  junk : Word
  point : Point
deriving DecidableEq, Repr

structure CallbackSys where
  sys : Sys
  /-- The callback that the server of a process is in. -/
  inside : Word → Option Callback

inductive CallbackLabel where
  /-- A step of a thread. -/
  | thread (l : Label)
  /-- `Listen` calls the callback on request number `j`. -/
  | enter (lk : Link) (j : Nat) (junk : Word)
  /-- The callback goes on. -/
  | resume (q : Word)
deriving DecidableEq, Repr

def Label.isThread : Label → Bool
  | .serve _ _ _ => false
  | _ => true

/-- The step of `System` that is taken: a callback counts when it is entered. -/
def CallbackLabel.label : CallbackLabel → Option Label
  | .thread l => some l
  | .enter lk j junk => some (.serve lk j junk)
  | .resume _ => none

namespace CallbackSys

def init (cfg : Config) : CallbackSys := ⟨.init cfg, fun _ => none⟩

/-- The callback on request number `j` of `lk` has done one stage. -/
def advance (c : CallbackSys) (lk : Link) (j : Nat) (junk : Word) (st : Stage) : CallbackSys :=
  { sys := c.sys.served lk j st.outcome
    inside := Function.update c.inside lk.server (st.next.map (⟨lk.client, j, junk, ·⟩)) }

def stepOn (cfg : Config) (link : Sender → Option Link) (c : CallbackSys) : CallbackLabel → Option CallbackSys
  | .thread l => if l.isThread then (c.sys.stepOn cfg link l).map fun s => { c with sys := s } else none
  | .enter lk j junk => do
    let buf ← (c.sys.requests lk)[j]?
    let sv := c.sys.servers lk.server
    if lk.server.toNat < cfg.n ∧ sv.listening ∧ c.inside lk.server = none then
      some (c.advance lk j junk (sv.process.enter buf))
    else none
  | .resume q => (c.inside q).map fun cb =>
    c.advance ⟨cb.client, q⟩ cb.request cb.junk ((c.sys.servers q).process.resume cb.junk cb.point)

/-- `NoWrap` for a callback that is entered. -/
def NoWrap (c : CallbackSys) : CallbackLabel → Prop
  | .enter lk j junk => IsisMulticast.NoWrap c.sys (.serve lk j junk)
  | _ => True

instance (c : CallbackSys) : DecidablePred c.NoWrap
  | .enter lk j junk => inferInstanceAs (Decidable (IsisMulticast.NoWrap c.sys (.serve lk j junk)))
  | .thread _ | .resume _ => .isTrue trivial

end CallbackSys

def Config.callbacks (cfg : Config) : Lts CallbackSys CallbackLabel := ⟨.init cfg, CallbackSys.stepOn cfg Sender.link⟩

/-- The steps with what each of them needs. -/
inductive CallbackStep (cfg : Config) (link : Sender → Option Link) (c : CallbackSys) :
    CallbackLabel → CallbackSys → Prop
  | thread {l : Label} {s : Sys} (hl : l.isThread = true) (hs : StepOn cfg link c.sys l s) :
      CallbackStep cfg link c (.thread l) { c with sys := s }
  | enter {lk : Link} {j : Nat} {junk : Word} {buf : Buf} (hbuf : (c.sys.requests lk)[j]? = some buf)
      (hid : lk.server.toNat < cfg.n) (hl : (c.sys.servers lk.server).listening = true)
      (hc : c.inside lk.server = none) :
      CallbackStep cfg link c (.enter lk j junk)
        (c.advance lk j junk ((c.sys.servers lk.server).process.enter buf))
  | resume {q : Word} {cb : Callback} (hc : c.inside q = some cb) :
      CallbackStep cfg link c (.resume q)
        (c.advance ⟨cb.client, q⟩ cb.request cb.junk ((c.sys.servers q).process.resume cb.junk cb.point))

theorem callbackStep_iff {cfg : Config} {link : Sender → Option Link} {c c' : CallbackSys} {l : CallbackLabel} :
    c.stepOn cfg link l = some c' ↔ CallbackStep cfg link c l c' := by
  constructor
  · intro h
    cases l with
    | thread l =>
      simp only [CallbackSys.stepOn] at h
      split_ifs at h with hl
      obtain ⟨s, hs, rfl⟩ := Option.map_eq_some_iff.1 h
      exact .thread hl (stepOn_iff.1 hs)
    | enter lk j junk =>
      simp only [CallbackSys.stepOn, Option.bind_eq_bind, Option.bind_eq_some_iff] at h
      obtain ⟨buf, hbuf, h⟩ := h
      split_ifs at h with hc
      obtain rfl := Option.some.inj h
      exact .enter hbuf hc.1 hc.2.1 hc.2.2
    | resume q =>
      obtain ⟨cb, hc, rfl⟩ := Option.map_eq_some_iff.1 h
      exact .resume hc
  · intro h
    cases h with
    | thread hl hs => simp [CallbackSys.stepOn, hl, stepOn_iff.2 hs]
    | enter hbuf hid hl hc => simp [CallbackSys.stepOn, hbuf, hid, hl, hc]
    | resume hc => simp [CallbackSys.stepOn, hc]

/-! ### The callbacks that are running, completed -/

namespace Server

/-- The server when its callback has come to its end. -/
def completed (sv : Server) : Option Callback → Server
  | none => sv
  | some cb => sv.after (sv.process.finish cb.junk cb.point)

/-- The answers that the callback has still to send to `client`. -/
def answersTo (sv : Server) (client : Word) : Option Callback → List Answer
  | none => []
  | some cb =>
    if cb.client = client then (sv.process.finish cb.junk cb.point).datagrams.map (⟨cb.request, ·⟩) else []

variable (sv : Server) (st : Stage) (client : Word) (j : Nat) (junk : Word)

theorem completed_after : (sv.after st.outcome).completed (st.next.map (⟨client, j, junk, ·⟩)) =
    sv.after (st.complete junk) := by
  unfold Stage.complete
  cases st.next with
  | none => rfl
  | some pt => simp [completed, Server.after, Outcome.followedBy]

theorem answersTo_after : st.outcome.datagrams.map (⟨j, ·⟩) ++
    (sv.after st.outcome).answersTo client (st.next.map (⟨client, j, junk, ·⟩)) =
    (st.complete junk).datagrams.map (⟨j, ·⟩) := by
  unfold Stage.complete
  cases st.next with
  | none => simp [answersTo]
  | some pt => simp [answersTo, Server.after, Outcome.followedBy, Outcome.datagrams]

theorem answersTo_after_of_ne {client' : Word} (hne : client ≠ client') :
    (sv.after st.outcome).answersTo client' (st.next.map (⟨client, j, junk, ·⟩)) = [] := by
  cases st.next with
  | none => rfl
  | some pt => exact if_neg hne

end Server

namespace CallbackSys

variable {cfg : Config} {c c' : CallbackSys} {s : Sys} {l : CallbackLabel} {ls : List CallbackLabel} {q : Word}

def completed (c : CallbackSys) : Sys :=
  { c.sys with
    servers := fun q => (c.sys.servers q).completed (c.inside q)
    answers := fun lk => c.sys.answers lk ++ (c.sys.servers lk.server).answersTo lk.client (c.inside lk.server) }

theorem servers_completed (h : c.inside q = none) : c.completed.servers q = c.sys.servers q := by
  simp [completed, h, Server.completed]

theorem log_completed (h : c.inside q = none) : c.completed.log q = c.sys.log q :=
  congrArg Server.log (servers_completed h)

theorem log_prefix_completed (c : CallbackSys) (q : Word) : c.sys.log q <+: c.completed.log q := by
  show (c.sys.servers q).log <+: ((c.sys.servers q).completed (c.inside q)).log
  cases c.inside q with
  | none => exact List.prefix_refl _
  | some cb => exact List.prefix_append _ _

theorem completed_of_forall (h : ∀ q, c.inside q = none) : c.completed = c.sys := by
  refine Sys.ext (funext fun q => servers_completed (h q)) rfl rfl rfl (funext fun lk => ?_)
  simp [completed, h, Server.answersTo]

/-- What a stage changes in `completed`: its callback counts as a whole. -/
theorem completed_advance (c : CallbackSys) (lk : Link) (j : Nat) (junk : Word) (st : Stage) :
    (c.advance lk j junk st).completed =
      { c.sys with
        servers := Function.update c.completed.servers lk.server ((c.sys.servers lk.server).after (st.complete junk))
        answers := fun lk' => if lk'.server = lk.server then
            c.sys.answers lk' ++ if lk' = lk then (st.complete junk).datagrams.map (⟨j, ·⟩) else []
          else c.completed.answers lk' } := by
  refine Sys.ext (funext fun q => ?_) rfl rfl rfl (funext fun lk' => ?_)
  · by_cases hq : q = lk.server
    · subst hq
      simp [completed, advance, Sys.served, Server.completed_after]
    · simp [completed, advance, Sys.served, Function.update_of_ne hq]
  · obtain ⟨client', server'⟩ := lk'
    by_cases hq : server' = lk.server
    · subst hq
      by_cases hc : client' = lk.client
      · subst hc
        simp [completed, advance, Sys.served, Server.answersTo_after, List.append_assoc]
      · have hne : (⟨client', lk.server⟩ : Link) ≠ lk := fun heq => hc (congrArg Link.client heq)
        simp [completed, advance, Sys.served, hne, Server.answersTo_after_of_ne _ _ _ _ _ (Ne.symm hc)]
    · have hne : (⟨client', server'⟩ : Link) ≠ lk := fun heq => hq (congrArg Link.server heq)
      simp [completed, advance, Sys.served, Function.update_of_ne hne, hq]

theorem completed_enter {lk : Link} {junk : Word} (hc : c.inside lk.server = none) (j : Nat) (buf : Buf) :
    (c.advance lk j junk ((c.sys.servers lk.server).process.enter buf)).completed =
      c.completed.served lk j ((c.completed.servers lk.server).process.onReceive buf junk) := by
  rw [completed_advance, Process.complete_enter, servers_completed hc]
  refine Sys.ext ?_ rfl rfl rfl (funext fun lk' => ?_)
  · show _ = Function.update c.completed.servers lk.server ((c.completed.servers lk.server).after _)
    rw [servers_completed hc]
  · have hans : ∀ lk' : Link, lk'.server = lk.server → c.completed.answers lk' = c.sys.answers lk' := by
      intro lk' hq
      simp [completed, hq, hc, Server.answersTo]
    show _ = Function.update c.completed.answers lk (c.completed.answers lk ++ _) lk'
    by_cases hl : lk' = lk
    · subst hl
      simp [hans lk' rfl]
    · rw [Function.update_of_ne hl]
      by_cases hq : lk'.server = lk.server
      · simp [hq, hl, hans lk' hq]
      · simp [hq]

theorem completed_resume {cb : Callback} (hc : c.inside q = some cb) :
    (c.advance ⟨cb.client, q⟩ cb.request cb.junk ((c.sys.servers q).process.resume cb.junk cb.point)).completed =
      c.completed := by
  rw [completed_advance, Process.complete_resume]
  refine Sys.ext ?_ rfl rfl rfl (funext fun lk' => ?_)
  · refine Function.update_eq_self_iff.2 ?_
    simp [completed, hc, Server.completed]
  · obtain ⟨client', server'⟩ := lk'
    by_cases hq : server' = q
    · subst hq
      simp [completed, hc, Server.answersTo, eq_comm]
    · simp [hq]

/-- A thread takes the same step when the callbacks are completed: what it reads has been sent. -/
theorem step_completed {l : Label} (hl : l.isThread = true) (hs : Step cfg c.sys l s) :
    Step cfg c.completed l (completed { c with sys := s }) := by
  cases hs with
  | launch hid ht => exact .launch (s := c.completed) hid ht
  | lock ht hlk hpc hm => exact .lock (s := c.completed) ht hlk hpc hm
  | send ht hlk hbuf hpc => exact .send (s := c.completed) ht hlk hbuf hpc
  | timeout ht hlk ht' => exact .timeout (s := c.completed) ht hlk ht'
  | @receive tid j t t' lk a ht hlk ha ht' =>
    have ha' : (c.completed.answers lk)[j]? = some a := by
      show (c.sys.answers lk ++ _)[j]? = some a
      rw [List.getElem?_append_left (List.getElem?_eq_some_iff.1 ha).1, ha]
    exact .receive (s := c.completed) ht hlk ha' ht'
  | serve => cases hl

end CallbackSys

variable {cfg : Config} {c : CallbackSys} {s : Sys} {ls : List CallbackLabel} {q : Word}

/-- The run in which every callback is one step. -/
theorem run_completed (hrun : cfg.callbacks.Run ls c) : cfg.lts.Run (ls.filterMap CallbackLabel.label) c.completed := by
  refine hrun.induction (P := fun ls c => cfg.lts.Run (ls.filterMap CallbackLabel.label) c.completed) ?_ ?_
  · exact Lts.run_nil.2 (CallbackSys.completed_of_forall fun _ => rfl)
  · intro ls c l c' _ ih hs
    rw [List.filterMap_append]
    cases callbackStep_iff.1 hs with
    | thread hl hs' => exact Lts.run_concat.2 ⟨_, ih, step_iff.2 (CallbackSys.step_completed hl hs')⟩
    | enter hbuf hid hl hc =>
      rw [CallbackSys.completed_enter hc]
      rw [← CallbackSys.servers_completed hc] at hl
      exact Lts.run_concat.2 ⟨_, ih, step_iff.2 (.serve (s := c.completed) hbuf hid hl)⟩
    | resume hc =>
      rw [CallbackSys.completed_resume hc]
      exact (List.append_nil _).symm ▸ ih

theorem noWrap_completed (hw : cfg.callbacks.Along CallbackSys.NoWrap ls) (hrun : cfg.callbacks.Run ls c) :
    cfg.lts.Along NoWrap (ls.filterMap CallbackLabel.label) := by
  refine hw.induction (P := fun ls _ => cfg.lts.Along NoWrap (ls.filterMap CallbackLabel.label)) ?_ ?_ hrun
  · rintro ls₁ l ls₂ s heq
    simp at heq
  · intro ls c l c' hrun _ ih hl hs
    rw [List.filterMap_append]
    cases callbackStep_iff.1 hs with
    | @thread l s hthread hs =>
      refine (Lts.along_concat (run_completed hrun)).2 ⟨ih, ?_⟩
      cases l with
      | serve => cases hthread
      | launch | lock | send | timeout | receive => trivial
    | @enter lk j junk buf hbuf hid hl' hc =>
      refine (Lts.along_concat (run_completed hrun)).2 ⟨ih, fun b hb => ?_⟩
      rw [CallbackSys.servers_completed hc]
      exact hl b hb
    | resume => exact (List.append_nil _).symm ▸ ih

/-! ### Callbacks that run to their end -/

namespace CallbackSys

/-- The callback of `q` comes to its end if it is left alone. -/
def Returns (cfg : Config) (q : Word) (c : CallbackSys) : Prop :=
  ∃ (k : Nat) (c' : CallbackSys), (List.replicate k (CallbackLabel.resume q)).foldlM (stepOn cfg Sender.link) c = some c' ∧
    c'.inside = Function.update c.inside q none

theorem inside_advance (c : CallbackSys) (client : Word) (j : Nat) (junk : Word) {st : Stage} {pt : Point}
    (h : st.next = some pt) : (c.advance ⟨client, q⟩ j junk st).inside q = some ⟨client, j, junk, pt⟩ := by
  simp [advance, h]

theorem returns_of_next {cb : Callback} (hc : c.inside q = some cb)
    (h : ∀ pt, ((c.sys.servers q).process.resume cb.junk cb.point).next = some pt →
      (c.advance ⟨cb.client, q⟩ cb.request cb.junk
        ((c.sys.servers q).process.resume cb.junk cb.point)).Returns cfg q) : c.Returns cfg q := by
  have hstep : c.stepOn cfg Sender.link (.resume q) = some _ := callbackStep_iff.2 (.resume hc)
  generalize hst : (c.sys.servers q).process.resume cb.junk cb.point = st at h hstep
  cases hnext : st.next with
  | none => exact ⟨1, _, by simpa using hstep, by simp [advance, hnext]⟩
  | some pt =>
    obtain ⟨k, c', hk, hin⟩ := h pt hnext
    refine ⟨k + 1, c', ?_, ?_⟩
    · rw [List.replicate_succ, List.foldlM_cons, hstep]
      exact hk
    · rw [hin]
      simp [advance]

/-- The loop erases one entry in each turn. -/
theorem returns_deliverLoop {cb : Callback} (hc : c.inside q = some cb) (hpt : cb.point = .deliverLoop) :
    c.Returns cfg q := by
  generalize hn : (c.sys.servers q).process.holdBackQueue.ordering.toList.length = n
  induction n using Nat.strongRecOn generalizing c cb with
  | ind n ih =>
    refine returns_of_next hc fun pt hnext => ?_
    generalize hst : (c.sys.servers q).process.resume cb.junk cb.point = st at hnext ⊢
    rw [hpt, Process.resume] at hst
    cases hhead : (c.sys.servers q).process.holdBackQueue.ordering.toList.head? with
    | none => simp [← hst, hhead] at hnext
    | some pm =>
      simp only [hhead] at hst
      split_ifs at hst with hd <;> subst hst <;> cases hnext
      -- the call of `deliver`, and the erasure after it
      refine returns_of_next (inside_advance _ _ _ _ rfl) fun pt _ => ?_
      refine ih (n - 1) ?_ (inside_advance _ _ _ _ rfl) rfl ?_
      · obtain ⟨l, hl⟩ := List.head?_eq_some_iff.1 hhead
        rw [hl] at hn
        simp at hn
        omega
      · simp [advance, Sys.served, Server.after, Process.resume, OrdSet.tail, hn]

theorem returns_setDeliverable {cb : Callback} {m : SeqMessage} (hc : c.inside q = some cb)
    (hpt : cb.point = .setDeliverable m) : c.Returns cfg q := by
  refine returns_of_next hc fun pt hnext => returns_deliverLoop (inside_advance _ _ _ _ hnext) ?_
  rw [hpt, Process.resume] at hnext
  split at hnext <;> cases hnext
  rfl

theorem returns (cfg : Config) {cb : Callback} (hc : c.inside q = some cb) : c.Returns cfg q := by
  cases hpt : cb.point with
  | sendAck a => exact returns_of_next hc fun pt hnext => by simp [hpt, Process.resume] at hnext
  | sendSeqAck m =>
    refine returns_of_next hc fun pt hnext => returns_setDeliverable (inside_advance _ _ _ _ hnext) (m := m) ?_
    simpa [hpt, Process.resume] using hnext.symm
  | setDeliverable m => exact returns_setDeliverable hc hpt
  | deliverLoop => exact returns_deliverLoop hc hpt
  | erase =>
    refine returns_of_next hc fun pt hnext => returns_deliverLoop (inside_advance _ _ _ _ hnext) ?_
    simpa [hpt, Process.resume] using hnext.symm

end CallbackSys

/-- If only the callback of `q` may be running, it can come to its end without any other step. -/
theorem exists_return (hrun : cfg.callbacks.Run ls c) (hin : ∀ r, r ≠ q → c.inside r = none) :
    ∃ ls' c', cfg.callbacks.Run ls' c' ∧ ls'.filterMap CallbackLabel.label = ls.filterMap CallbackLabel.label ∧
      ∀ r, c'.inside r = none := by
  cases hc : c.inside q with
  | none =>
    refine ⟨ls, c, hrun, rfl, fun r => ?_⟩
    by_cases hr : r = q
    · rw [hr, hc]
    · exact hin r hr
  | some cb =>
    obtain ⟨k, c', hk, hin'⟩ := CallbackSys.returns cfg hc
    refine ⟨ls ++ List.replicate k (.resume q), c', ?_, by simp [CallbackLabel.label], fun r => ?_⟩
    · rw [Lts.Run, Lts.exec, List.foldlM_append, show ls.foldlM _ _ = some c from hrun]
      exact hk
    · rw [hin']
      by_cases hr : r = q
      · rw [hr, Function.update_self]
      · rw [Function.update_of_ne hr, hin r hr]

/-- The states of `System` are states in which no callback is running. -/
theorem exists_callbacks_run {ls : List Label} (hrun : cfg.lts.Run ls s) :
    ∃ ls', cfg.callbacks.Run ls' ⟨s, fun _ => none⟩ ∧ ls'.filterMap CallbackLabel.label = ls := by
  refine hrun.induction (P := fun ls s => ∃ ls', cfg.callbacks.Run ls' ⟨s, fun _ => none⟩ ∧
    ls'.filterMap CallbackLabel.label = ls) ⟨[], Lts.run_nil.2 rfl, rfl⟩ ?_
  rintro ls s l s' hrun ⟨ls', hrun', rfl⟩ hs
  have hs' : Step cfg s l s' := step_iff.1 hs
  have hthread : l.isThread = true → ∃ ls'', cfg.callbacks.Run ls'' ⟨s', fun _ => none⟩ ∧
      ls''.filterMap CallbackLabel.label = ls'.filterMap CallbackLabel.label ++ [l] := by
    intro hl
    have hstep : cfg.callbacks.step ⟨s, fun _ => none⟩ (.thread l) = some ⟨s', fun _ => none⟩ :=
      callbackStep_iff.2 (.thread hl hs')
    exact ⟨ls' ++ [.thread l], Lts.run_concat.2 ⟨_, hrun', hstep⟩, by simp [CallbackLabel.label]⟩
  cases hs' with
  | @serve lk j junk buf hbuf hid hl =>
    have henter : CallbackStep cfg Sender.link ⟨s, fun _ => none⟩ (.enter lk j junk) _ := .enter hbuf hid hl rfl
    obtain ⟨ls'', c', hrun'', hlabels, hin⟩ := exists_return (Lts.run_concat.2 ⟨_, hrun', callbackStep_iff.2 henter⟩)
      (q := lk.server) fun q hq => Function.update_of_ne hq ..
    -- it is the state that the whole callback leads to
    have hcomp := run_completed hrun''
    rw [hlabels, List.filterMap_append] at hcomp
    have heq := hcomp.unique (Lts.run_concat.2 ⟨s, hrun, hs⟩)
    rw [CallbackSys.completed_of_forall hin] at heq
    obtain ⟨s₁, inside⟩ := c'
    obtain rfl : inside = fun _ => none := funext hin
    rw [← heq]
    exact ⟨ls'', hrun'', by rw [hlabels, List.filterMap_append]; rfl⟩
  | launch | lock | send | timeout | receive => exact hthread rfl

/-! ### A small system -/

/-- `callAnswered` with `k` stages of the callback after it is entered and before its answer is read. -/
def callInside (tid : Nat) (lk : Link) (j k : Nat) : List CallbackLabel :=
  [.thread (.lock tid), .thread (.send tid), .enter lk j 0] ++ List.replicate k (.resume lk.server) ++
    [.thread (.receive tid lk j)]

/-- `pairRun`, up to the answer of the last callback: process 1 has sent it and goes no further. -/
def pairAnswered : List CallbackLabel :=
  [.thread (.launch 0 0 7 50), .thread (.launch 1 1 7 60)] ++
  callInside 0 ⟨0, 0⟩ 0 1 ++ callInside 1 ⟨1, 0⟩ 0 1 ++ callInside 1 ⟨1, 1⟩ 0 1 ++ callInside 0 ⟨0, 1⟩ 0 1 ++
  callInside 1 ⟨1, 0⟩ 1 3 ++ callInside 0 ⟨0, 0⟩ 1 7 ++ callInside 1 ⟨1, 1⟩ 1 3 ++ callInside 0 ⟨0, 1⟩ 1 1

theorem label_pairAnswered : pairAnswered.filterMap CallbackLabel.label = pairRun := rfl

theorem distinctIds_pairAnswered : DistinctIds (pairAnswered.filterMap CallbackLabel.label) := distinctIds_pairRun

theorem fifo_pairAnswered : Fifo (pairAnswered.filterMap CallbackLabel.label) := by decide

theorem noWrap_pairAnswered : pair.callbacks.Along CallbackSys.NoWrap pairAnswered := by decide

/-- Process 0 has delivered both messages, and process 1 has still to set the second one deliverable. -/
theorem exists_run_pairAnswered : ∃ c, pair.callbacks.Run pairAnswered c ∧ c.inside 0 = none ∧
    c.inside 1 = some ⟨0, 1, 0, .setDeliverable { pairFirst with type := kSeqMessageType }⟩ ∧
    deliveries (c.sys.log 0) = [pairFirst, pairSecond] ∧ deliveries (c.sys.log 1) = [] ∧
    (c.sys.servers 1).queue.ordering.toList.map PendingMessage.pmk = [⟨0, 7⟩, ⟨1, 7⟩] := by
  have h : (pair.callbacks.exec pairAnswered).map (fun c => (c.inside 0, c.inside 1, deliveries (c.sys.log 0),
      deliveries (c.sys.log 1), (c.sys.servers 1).queue.ordering.toList.map PendingMessage.pmk)) =
      some (none, some ⟨0, 1, 0, .setDeliverable { pairFirst with type := kSeqMessageType }⟩, [pairFirst, pairSecond], [],
        [⟨0, 7⟩, ⟨1, 7⟩]) := by decide
  obtain ⟨c, hrun, heq⟩ := Option.map_eq_some_iff.1 h
  simp only [Prod.mk.injEq] at heq
  exact ⟨c, hrun, heq⟩

end IsisMulticast

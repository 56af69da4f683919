import IsisMulticast.Process
import IsisMulticast.Sender
import IsisMulticast.Lib.Lts
import Mathlib.Logic.Function.Basic

/-!
# The system: processes, sender threads and the network

`n` processes share one process list without repeated addresses, so the client of a process for
another is named by the two ids (`Link`). Every process runs one server and any number of sender
threads. A server handles one datagram at a time and its state is private to it, so one call of its
callback is one step here, and the states are those between the calls. In `Callbacks` the callback is taken apart,
and the threads run between its effects.

The network keeps every datagram that was ever sent, numbered along its link. A receive names the
number of the datagram it takes: leaving out a number is loss, taking it again duplication, taking
a smaller one than before reordering, and taking it late delay. Nothing else can be received, so the
network does not forge. `Fifo` (in `Runs`) restricts the numbers to be increasing.

`StepOn` is the step function `stepOn` as a relation, one constructor for each label. Both have the client that a
thread uses as a parameter; `step` and `Step` are those for clients named by two ids.
-/

namespace IsisMulticast
open Lib

/-- The socket of `client`'s client for `server`. -/
structure Link where
  client : Word
  server : Word
deriving DecidableEq, Repr

/-- The process ids are the `unsigned int`s below `n`. -/
structure Config where
  n : Nat
  n_lt : n < 2 ^ 32
  host : Word → HostOrder

/-- A process with its `Listen` loop (`listening` until an exception leaves it) and the history of the
effects of its callback. -/
structure Server where
  process : Process
  listening : Bool
  log : List Effect

/-- An answer on its way back. `request` is the number of the request it answers; no code reads it. -/
structure Answer where
  request : Nat
  buf : Buf
deriving DecidableEq, Repr

@[ext]
structure Sys where
  servers : Word → Server
  senders : Nat → Option Sender
  /-- The thread that holds the `sockfd_mutex_` of a client. -/
  mutex : Link → Option Nat
  requests : Link → List Buf
  answers : Link → List Answer

inductive Label where
  /-- `LaunchMulticastSender` at process `id`; the thread `tid` draws the message id and the data. -/
  | launch (tid : Nat) (id msgId data : Word)
  /-- The thread enters `SendWithAck` and takes the mutex. -/
  | lock (tid : Nat)
  | send (tid : Nat)
  | timeout (tid : Nat)
  /-- The thread reads answer number `j` of its link. -/
  | receive (tid : Nat) (lk : Link) (j : Nat)
  /-- The server of the link handles request number `j`. -/
  | serve (lk : Link) (j : Nat) (junk : Word)
deriving DecidableEq, Repr

/-- The datagram an effect puts on the network. -/
def Effect.datagram (h : HostOrder) : Effect → Option Buf
  | .sendAck m => some (sendAckMsg h m)
  | .sendSeqAck m => some (sendSeqAckMsg h m)
  | _ => none

def Outcome.datagrams (o : Outcome) : List Buf := o.effects.filterMap (Effect.datagram o.process.host)

def Server.after (sv : Server) (o : Outcome) : Server :=
  { process := o.process
    listening := o.thrown.isNone && o.action == .cont
    log := sv.log ++ o.effects }

def Sender.link (t : Sender) : Option Link := t.target.map (⟨t.id, ·⟩)

namespace Sys

def init (cfg : Config) : Sys :=
  { servers := fun id => ⟨.init id cfg.n (cfg.host id), true, []⟩
    senders := fun _ => none
    mutex := fun _ => none
    requests := fun _ => []
    answers := fun _ => [] }

/-- The thread goes on as `t`; the mutex of `lk` is released when the call of `SendWithAck` is over. -/
def resume (s : Sys) (tid : Nat) (lk : Link) (t : Sender) : Sys :=
  { s with
    senders := Function.update s.senders tid (some t)
    mutex := if t.inSession then s.mutex else Function.update s.mutex lk none }

/-- The callback of the server of `lk` has come to the outcome `o` on request number `j`. -/
def served (s : Sys) (lk : Link) (j : Nat) (o : Outcome) : Sys :=
  { s with
    servers := Function.update s.servers lk.server ((s.servers lk.server).after o)
    answers := Function.update s.answers lk (s.answers lk ++ o.datagrams.map (⟨j, ·⟩)) }

/-- The steps, when the client a thread uses is given by `link`. -/
def stepOn (cfg : Config) (link : Sender → Option Link) (s : Sys) : Label → Option Sys
  | .launch tid id msgId data =>
    if id.toNat < cfg.n ∧ s.senders tid = none then
      some { s with senders := Function.update s.senders tid (some (Sender.launch cfg.n id msgId data)) }
    else none
  | .lock tid => do
    let t ← s.senders tid
    let lk ← link t
    if t.pc = some .enter ∧ s.mutex lk = none then
      some { s with
        senders := Function.update s.senders tid (some (t.setPc (.send (.start kUnlimitedAttempts))))
        mutex := Function.update s.mutex lk (some tid) }
    else none
  | .send tid => do
    let t ← s.senders tid
    let lk ← link t
    let buf ← t.datagram (cfg.host t.id)
    match t.pc with
    | some (.send l) =>
      some { s with
        senders := Function.update s.senders tid (some (t.setPc (.recv l)))
        requests := Function.update s.requests lk (s.requests lk ++ [buf]) }
    | _ => none
  | .timeout tid => do
    let t ← s.senders tid
    let lk ← link t
    let t' ← t.afterReceive (cfg.host t.id) cfg.n .timeout
    some (s.resume tid lk t')
  | .receive tid lk j => do
    let t ← s.senders tid
    let a ← (s.answers lk)[j]?
    let t' ← t.afterReceive (cfg.host t.id) cfg.n (.datagram a.buf)
    if link t = some lk then some (s.resume tid lk t') else none
  | .serve lk j junk => do
    let buf ← (s.requests lk)[j]?
    let sv := s.servers lk.server
    if lk.server.toNat < cfg.n ∧ sv.listening then some (s.served lk j (sv.process.onReceive buf junk))
    else none

def step (cfg : Config) : Sys → Label → Option Sys := stepOn cfg Sender.link

end Sys

def Config.lts (cfg : Config) : Lts Sys Label := ⟨.init cfg, Sys.step cfg⟩

/-- The steps of the system, with what each of them needs. -/
inductive StepOn (cfg : Config) (link : Sender → Option Link) (s : Sys) : Label → Sys → Prop
  | launch {tid : Nat} {id msgId data : Word} (hid : id.toNat < cfg.n) (ht : s.senders tid = none) :
      StepOn cfg link s (.launch tid id msgId data)
        { s with senders := Function.update s.senders tid (some (Sender.launch cfg.n id msgId data)) }
  | lock {tid : Nat} {t : Sender} {lk : Link} (ht : s.senders tid = some t) (hlk : link t = some lk)
      (hpc : t.pc = some .enter) (hm : s.mutex lk = none) :
      StepOn cfg link s (.lock tid)
        { s with
          senders := Function.update s.senders tid (some (t.setPc (.send (.start kUnlimitedAttempts))))
          mutex := Function.update s.mutex lk (some tid) }
  | send {tid : Nat} {t : Sender} {lk : Link} {l : SendLoop} {buf : Buf} (ht : s.senders tid = some t)
      (hlk : link t = some lk) (hbuf : t.datagram (cfg.host t.id) = some buf) (hpc : t.pc = some (.send l)) :
      StepOn cfg link s (.send tid)
        { s with
          senders := Function.update s.senders tid (some (t.setPc (.recv l)))
          requests := Function.update s.requests lk (s.requests lk ++ [buf]) }
  | timeout {tid : Nat} {t t' : Sender} {lk : Link} (ht : s.senders tid = some t) (hlk : link t = some lk)
      (ht' : t.afterReceive (cfg.host t.id) cfg.n .timeout = some t') :
      StepOn cfg link s (.timeout tid) (s.resume tid lk t')
  | receive {tid j : Nat} {t t' : Sender} {lk : Link} {a : Answer} (ht : s.senders tid = some t)
      (hlk : link t = some lk) (ha : (s.answers lk)[j]? = some a)
      (ht' : t.afterReceive (cfg.host t.id) cfg.n (.datagram a.buf) = some t') :
      StepOn cfg link s (.receive tid lk j) (s.resume tid lk t')
  | serve {lk : Link} {j : Nat} {junk : Word} {buf : Buf} (hbuf : (s.requests lk)[j]? = some buf)
      (hid : lk.server.toNat < cfg.n) (hl : (s.servers lk.server).listening = true) :
      StepOn cfg link s (.serve lk j junk) (s.served lk j ((s.servers lk.server).process.onReceive buf junk))

abbrev Step (cfg : Config) (s : Sys) (l : Label) (s' : Sys) : Prop := StepOn cfg Sender.link s l s'

theorem stepOn_iff {cfg : Config} {link : Sender → Option Link} {s s' : Sys} {l : Label} :
    s.stepOn cfg link l = some s' ↔ StepOn cfg link s l s' := by
  constructor
  · intro h
    cases l with
    | launch tid id msgId data =>
      simp only [Sys.stepOn] at h
      split_ifs at h with hc
      obtain rfl := Option.some.inj h
      exact .launch hc.1 hc.2
    | lock tid =>
      simp only [Sys.stepOn, Option.bind_eq_bind, Option.bind_eq_some_iff] at h
      obtain ⟨t, ht, lk, hlk, h⟩ := h
      split_ifs at h with hc
      obtain rfl := Option.some.inj h
      exact .lock ht hlk hc.1 hc.2
    | send tid =>
      simp only [Sys.stepOn, Option.bind_eq_bind, Option.bind_eq_some_iff] at h
      obtain ⟨t, ht, lk, hlk, buf, hbuf, h⟩ := h
      split at h
      · obtain rfl := Option.some.inj h
        exact .send ht hlk hbuf ‹_›
      · cases h
    | timeout tid =>
      simp only [Sys.stepOn, Option.bind_eq_bind, Option.bind_eq_some_iff] at h
      obtain ⟨t, ht, lk, hlk, t', ht', h⟩ := h
      obtain rfl := Option.some.inj h
      exact .timeout ht hlk ht'
    | receive tid lk j =>
      simp only [Sys.stepOn, Option.bind_eq_bind, Option.bind_eq_some_iff] at h
      obtain ⟨t, ht, a, ha, t', ht', h⟩ := h
      split_ifs at h with hc
      obtain rfl := Option.some.inj h
      exact .receive ht hc ha ht'
    | serve lk j junk =>
      simp only [Sys.stepOn, Option.bind_eq_bind, Option.bind_eq_some_iff] at h
      obtain ⟨buf, hbuf, h⟩ := h
      split_ifs at h with hc
      obtain rfl := Option.some.inj h
      exact .serve hbuf hc.1 hc.2
  · intro h
    cases h with
    | launch hid ht => simp [Sys.stepOn, hid, ht]
    | lock ht hlk hpc hm => simp [Sys.stepOn, ht, hlk, hpc, hm]
    | send ht hlk hbuf hpc => simp [Sys.stepOn, ht, hlk, hbuf, hpc]
    | timeout ht hlk ht' => simp [Sys.stepOn, ht, hlk, ht']
    | receive ht hlk ha ht' => simp [Sys.stepOn, ht, hlk, ha, ht']
    | serve hbuf hid hl => simp [Sys.stepOn, hbuf, hid, hl]

theorem step_iff {cfg : Config} {s s' : Sys} {l : Label} : s.step cfg l = some s' ↔ Step cfg s l s' := stepOn_iff

end IsisMulticast

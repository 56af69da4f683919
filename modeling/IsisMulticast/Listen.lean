import IsisMulticast.Crashes

/-!
# The listening loop (`udp_conn.cc`: `Server::Listen`)

`listen` is the loop for any two callbacks, over the outcomes of `recvfrom`. `TotalOrder` passes no callback for
timeouts and one for datagrams that always asks for more. So `Listen` does not return: it runs until `recvfrom`, the
socket for an answer or the `Send` of an answer fails, and has handled until then just the datagrams that arrived,
as `listener` does (`listen_totalOrder`). That datagrams longer than the buffer arrive cut off makes no difference.
-/

namespace IsisMulticast
open Lib

section
variable {σ ε ω : Type}

def bufSize : Nat := 1024

/-- A turn of the loop: what arrives at the socket, whether the socket of the new client can be created, and what a
callback depends on besides. -/
structure ListenTurn (ω : Type) where
  received : Received
  socket : Bool
  env : ω

/-- Where the loop stands, with the state of the callbacks. -/
inductive Listened (ε σ : Type) where
  | running (x : σ)
  | returned (x : σ)
  | receiveException (x : σ)
  | socketException (x : σ)
  | rethrown (e : ε) (x : σ)

/-- The two switches over the action that a callback returns. -/
def Listened.ofAction : Except ε ServerAction × σ → Listened ε σ
  | (.ok .cont, x) => .running x
  | (.ok .stop, x) => .returned x
  | (.error e, x) => .rethrown e x

/-- The body of the loop. `recvfrom` cuts a datagram off at the end of the buffer. -/
def listenTurn (rcv : ω → σ → Buf → Except ε ServerAction × σ) (timeout : Option (ω → σ → Except ε ServerAction × σ))
    (x : σ) (t : ListenTurn ω) : Listened ε σ :=
  match t.received with
  | .timeout => match timeout with
    | some timeout => .ofAction (timeout t.env x)
    | none => .receiveException x
  | .error => .receiveException x
  | .datagram buf => if t.socket then .ofAction (rcv t.env x (buf.take bufSize)) else .socketException x

def listen (rcv : ω → σ → Buf → Except ε ServerAction × σ) (timeout : Option (ω → σ → Except ε ServerAction × σ)) :
    σ → List (ListenTurn ω) → Listened ε σ
  | x, [] => .running x
  | x, t :: ts => match listenTurn rcv timeout x t with
    | .running x => listen rcv timeout x ts
    | ended => ended

end

/-! ### The callback of `TotalOrder` -/

inductive HandlerException where
  | sendException
  | invalidArgument (e : HoldBackQueue.InvalidArgument)
deriving DecidableEq, Repr

/-- The indeterminate value that handling a datagram may pick up, and whether `Send` succeeds. -/
structure HandlerEnv where
  junk : Word
  sends : Bool

def Server.handle (env : HandlerEnv) (sv : Server) (buf : Buf) : Except HandlerException ServerAction × Server :=
  match if env.sends then none else sv.process.onReceiveThrows buf with
  | some o => (.error .sendException, ⟨o.process, false, sv.log ++ o.effects⟩)
  | none =>
    let o := sv.process.onReceive buf env.junk
    (match o.thrown with
      | some e => .error (.invalidArgument e)
      | none => .ok o.action, sv.after o)

/-- The call of `Listen` in `TotalOrder`. -/
def totalOrder (id : Word) (n : Nat) (host : HostOrder) (turns : List (ListenTurn HandlerEnv)) :
    Listened HandlerException Server :=
  listen Server.handle none (listener id n host).init turns

/-- The datagram of a turn, as `listener` gets it. -/
def ListenTurn.datagram (t : ListenTurn HandlerEnv) : Option (Buf × Word) :=
  match t.received with
  | .datagram buf => some (buf, t.env.junk)
  | .timeout | .error => none

section
variable {id : Word} {n : Nat} {host : HostOrder} {sv : Server} {buf : Buf} {turns : List (ListenTurn HandlerEnv)}
  {t : ListenTurn HandlerEnv} {ds : List (Buf × Word)}

/-- Requests fit into the buffer. -/
theorem Process.onReceive_take (p : Process) (buf : Buf) (junk : Word) :
    p.onReceive (buf.take bufSize) junk = p.onReceive buf junk := by
  by_cases hlen : buf.length ≤ bufSize
  · rw [List.take_of_length_le hlen]
  · have hno : ∀ b : Buf, bufSize ≤ b.length → ¬ IsRequest p.processCount b := by
      unfold bufSize
      rintro b hb (hd | hs)
      · have := hd.1
        omega
      · have := hs.1
        omega
    have htake : (buf.take bufSize).length = bufSize := by
      rw [List.length_take]
      omega
    rw [onReceive_of_not_isRequest (hno _ (by omega)), onReceive_of_not_isRequest (hno _ (by omega))]

theorem Process.action_onReceive (p : Process) (buf : Buf) (junk : Word) : (p.onReceive buf junk).action = .cont := by
  have hr := p.reacts buf junk
  generalize p.onReceive buf junk = o at hr
  cases hr with
  | @data m =>
    unfold acceptData
    split
    · rfl
    · dsimp only
      split <;> rfl
  | seq => rfl
  | drop => rfl

/-- What ends the loop in the state `sv`: nothing else does. -/
inductive Server.Fails (sv : Server) (t : ListenTurn HandlerEnv) : Listened HandlerException Server → Prop
  | received (h : t.datagram = none) : Fails sv t (.receiveException sv)
  | socket {d : Buf × Word} (h : t.datagram = some d) (hs : t.socket = false) : Fails sv t (.socketException sv)
  | sends {d : Buf × Word} {o : Outcome} (h : t.datagram = some d) (hs : t.env.sends = false)
      (ho : sv.process.onReceiveThrows (d.1.take bufSize) = some o) :
      Fails sv t (.rethrown .sendException ⟨o.process, false, sv.log ++ o.effects⟩)

/-- A turn handles its datagram or ends the loop. -/
theorem Server.Listens.turn (h : sv.Listens id n host) (t : ListenTurn HandlerEnv) :
    (∃ d, t.datagram = some d ∧ listenTurn handle none sv t = .running (sv.after (sv.process.onReceive d.1 d.2))) ∨
    sv.Fails t (listenTurn handle none sv t) := by
  unfold listenTurn
  cases hr : t.received with
  | timeout => exact .inr (.received (by simp [ListenTurn.datagram, hr]))
  | error => exact .inr (.received (by simp [ListenTurn.datagram, hr]))
  | datagram buf =>
    have hd : t.datagram = some (buf, t.env.junk) := by simp [ListenTurn.datagram, hr]
    cases hs : t.socket with
    | false => exact .inr (.socket hd hs)
    | true =>
      simp only [if_true, handle]
      cases hthrow : if t.env.sends then none else sv.process.onReceiveThrows (buf.take bufSize) with
      | some o =>
        split_ifs at hthrow with hsends
        exact .inr (.sends hd (by simpa using hsends) hthrow)
      | none =>
        refine .inl ⟨_, hd, ?_⟩
        simp only [Process.onReceive_take, h.thrown_onReceive, Process.action_onReceive, Listened.ofAction]

theorem Server.Fails.listen_eq (h : sv.Fails t (listenTurn Server.handle none sv t))
    (ts : List (ListenTurn HandlerEnv)) :
    listen Server.handle none sv (t :: ts) = listenTurn Server.handle none sv t := by
  rw [listen]
  generalize listenTurn Server.handle none sv t = ended at h
  cases h <;> rfl

/-- The loop from a state that `listener` has reached. -/
theorem exists_listen (hrun : (listener id n host).Run ds sv) (turns : List (ListenTurn HandlerEnv)) :
    ∃ used ds' sv', used.map ListenTurn.datagram = ds'.map some ∧ (listener id n host).Run (ds ++ ds') sv' ∧
      (turns = used ∧ listen Server.handle none sv turns = .running sv' ∨
        ∃ t rest, turns = used ++ t :: rest ∧ sv'.Fails t (listen Server.handle none sv turns)) := by
  induction turns generalizing ds sv with
  | nil => exact ⟨[], [], sv, rfl, by simpa using hrun, .inl ⟨rfl, rfl⟩⟩
  | cons t ts ih =>
    have hl := Server.listens hrun
    rcases hl.turn t with ⟨d, hd, hturn⟩ | hfails
    · have hrun' : (listener id n host).Run (ds ++ [d]) (sv.after (sv.process.onReceive d.1 d.2)) :=
        Lts.run_concat.2 ⟨sv, hrun, Server.step_listener hl⟩
      obtain ⟨used, ds', sv', hmap, hrun'', hend⟩ := ih hrun'
      rw [listen, hturn]
      refine ⟨t :: used, d :: ds', sv', by simp [hd, hmap], by simpa using hrun'', ?_⟩
      rcases hend with ⟨rfl, heq⟩ | ⟨t', rest, rfl, hf⟩
      · exact .inl ⟨rfl, heq⟩
      · exact .inr ⟨t', rest, rfl, hf⟩
    · refine ⟨[], [], sv, rfl, by simpa using hrun, .inr ⟨t, ts, rfl, ?_⟩⟩
      rwa [hfails.listen_eq]

/-- `Listen` in `TotalOrder`. Over any turns, the datagrams of the first turns are handled in order, each once, as by
`listener`; if these are not all turns then the next one ends the loop with an exception, because `recvfrom`, the
socket or the `Send` failed. The loop never returns, and the queue never makes it throw. -/
theorem listen_totalOrder (id : Word) (n : Nat) (host : HostOrder) (turns : List (ListenTurn HandlerEnv)) :
    ∃ used ds sv, used.map ListenTurn.datagram = ds.map some ∧ (listener id n host).Run ds sv ∧
      (turns = used ∧ totalOrder id n host turns = .running sv ∨
        ∃ t rest, turns = used ++ t :: rest ∧ sv.Fails t (totalOrder id n host turns)) := by
  have hinit : (listener id n host).Run [] (listener id n host).init := Lts.run_nil.2 rfl
  exact exists_listen hinit turns

end

end IsisMulticast

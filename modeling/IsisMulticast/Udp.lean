import IsisMulticast.Message

/-!
# The acknowledged send (`udp_conn.cc`: `Client::SendWithAck`)

The loop of `SendWithAck` sends the datagram and then waits on the socket; `SendLoop` is its local
state at the top of the loop body and `afterReceive` the rest of the body, from the return of
`recvfrom` to the next evaluation of the loop condition.
-/

namespace IsisMulticast

/-- What a receive callback asks for: `Continue` or `Stop`. -/
inductive ServerAction where
  | cont
  | stop
deriving DecidableEq, Repr

def kUnlimitedAttempts : Word := 0
def kMaxBackoffMultiplier : Word := 64

/-- What `recvfrom` returns: a datagram, an error that `IsErrnoTimeout` accepts, or another error. -/
inductive Received where
  | timeout
  | error
  | datagram (buf : Buf)
deriving DecidableEq, Repr

structure SendLoop where
  noLimit : Bool
  attempts : Word
  backoffMult : Word
deriving DecidableEq, Repr

namespace SendLoop

def start (attempts : Word) : SendLoop :=
  { noLimit := attempts == kUnlimitedAttempts, attempts := attempts, backoffMult := 1 }

def running (l : SendLoop) : Bool := l.noLimit || l.attempts > 0

/-- `--attempts`, which wraps below zero. -/
def next (l : SendLoop) : SendLoop := { l with attempts := l.attempts - 1 }

/-- `WaitBackoff` has been called with `backoffMult`; the multiplier is doubled up to its bound. -/
def backOff (l : SendLoop) : SendLoop :=
  if l.backoffMult < kMaxBackoffMultiplier then { l with backoffMult := l.backoffMult <<< 1 } else l

/-- How the body ends: with another round, with `SendWithAck` returning, or with an exception. -/
inductive Result (σ : Type) where
  | again (l : SendLoop) (x : σ)
  | returned (x : σ)
  | threw
deriving DecidableEq, Repr

def repeatOrReturn {σ : Type} (l : SendLoop) (x : σ) : Result σ :=
  if l.next.running then .again l.next x else .returned x

/-- The body after `recvfrom`. The callback may update what it has captured, here `x`. -/
def afterReceive {σ : Type} (validAck : σ → Buf → ServerAction × σ) (l : SendLoop) (x : σ) : Received → Result σ
  | .timeout => l.backOff.repeatOrReturn x
  | .error => .threw
  | .datagram buf =>
    match validAck x buf with
    | (.stop, x) => .returned x
    | (.cont, x) => l.repeatOrReturn x

def Unlimited (l : SendLoop) : Prop := l.noLimit = true

theorem unlimited_start : (start kUnlimitedAttempts).Unlimited := by simp [Unlimited, start]

@[simp] theorem noLimit_backOff (l : SendLoop) : l.backOff.noLimit = l.noLimit := by
  unfold backOff; split <;> rfl

@[simp] theorem attempts_backOff (l : SendLoop) : l.backOff.attempts = l.attempts := by
  unfold backOff; split <;> rfl

theorem Unlimited.repeatOrReturn {σ : Type} {l : SendLoop} (h : l.Unlimited) (x : σ) :
    l.repeatOrReturn x = .again l.next x := by
  rw [SendLoop.repeatOrReturn, if_pos]
  simp [running, next, show l.noLimit = true from h]

theorem Unlimited.next {l : SendLoop} (h : l.Unlimited) : l.next.Unlimited := h

theorem Unlimited.backOff {l : SendLoop} (h : l.Unlimited) : l.backOff.Unlimited := by
  rw [Unlimited, noLimit_backOff]; exact h

section
variable {σ : Type} {l : SendLoop} {validAck : σ → Buf → ServerAction × σ} {x : σ} {buf : Buf}

theorem Unlimited.afterReceive_timeout (h : l.Unlimited) (validAck : σ → Buf → ServerAction × σ) (x : σ) :
    ∃ l', l'.Unlimited ∧ l.afterReceive validAck x .timeout = .again l' x :=
  ⟨_, h.backOff.next, h.backOff.repeatOrReturn x⟩

theorem afterReceive_stop (hv : (validAck x buf).1 = .stop) :
    l.afterReceive validAck x (.datagram buf) = .returned (validAck x buf).2 := by
  rw [SendLoop.afterReceive]
  generalize validAck x buf = answer at hv ⊢
  obtain ⟨action, y⟩ := answer
  cases hv
  rfl

theorem afterReceive_cont (hv : (validAck x buf).1 = .cont) :
    l.afterReceive validAck x (.datagram buf) = l.repeatOrReturn (validAck x buf).2 := by
  rw [SendLoop.afterReceive]
  generalize validAck x buf = answer at hv ⊢
  obtain ⟨action, y⟩ := answer
  cases hv
  rfl

theorem Unlimited.afterReceive_cont (h : l.Unlimited) (hv : (validAck x buf).1 = .cont) :
    ∃ l', l'.Unlimited ∧ l.afterReceive validAck x (.datagram buf) = .again l' (validAck x buf).2 := by
  rw [SendLoop.afterReceive_cont hv]
  exact ⟨_, h.next, h.repeatOrReturn _⟩

/-- The body of a loop with unlimited attempts: only an accepted datagram ends the call. -/
theorem Unlimited.afterReceive_cases (h : l.Unlimited) (validAck : σ → Buf → ServerAction × σ) (x : σ)
    (r : Received) :
    (r = .error ∧ l.afterReceive validAck x r = .threw) ∨
    (∃ l', l'.Unlimited ∧ r = .timeout ∧ l.afterReceive validAck x r = .again l' x) ∨
    ∃ buf, r = .datagram buf ∧
      (((validAck x buf).1 = .stop ∧ l.afterReceive validAck x r = .returned (validAck x buf).2) ∨
        ((validAck x buf).1 = .cont ∧ ∃ l', l'.Unlimited ∧
          l.afterReceive validAck x r = .again l' (validAck x buf).2)) := by
  cases r with
  | error => exact .inl ⟨rfl, rfl⟩
  | timeout =>
    obtain ⟨l', hl', heq⟩ := h.afterReceive_timeout validAck x
    exact .inr (.inl ⟨l', hl', rfl, heq⟩)
  | datagram buf =>
    refine .inr (.inr ⟨buf, rfl, ?_⟩)
    cases hv : (validAck x buf).1 with
    | stop => exact .inl ⟨rfl, afterReceive_stop hv⟩
    | cont => exact .inr ⟨rfl, h.afterReceive_cont hv⟩

end

end SendLoop

end IsisMulticast

import IsisMulticast.Udp

/-!
# A whole call of `SendWithAck`

The loop of `SendWithAck` under any outcomes of its calls of `recvfrom`, for any number of attempts and any
callback. The list of outcomes is as long as one likes; when the call has not ended on it, another round is
to come. What the call has done by then is determined by the outcomes it has read, and it reads up to the
first one that ends it (`sendWithAck_outcome`).
-/

namespace IsisMulticast.SendLoop

/-- What a call does, in order. -/
inductive Event where
  | send
  | receive (r : Received)
  | waitBackoff (multiplier : Word)
deriving DecidableEq, Repr

/-- The body of the loop when its `recvfrom` returns `r`. -/
def events (l : SendLoop) : Received → List Event
  | .timeout => [.send, .receive .timeout, .waitBackoff l.backoffMult]
  | r => [.send, .receive r]

variable {σ : Type}

def loop (validAck : σ → Buf → ServerAction × σ) : List Received → SendLoop → σ → List Event × Result σ
  | [], l, x => ([], .again l x)
  | r :: rs, l, x =>
    match l.afterReceive validAck x r with
    | .again l' x' =>
      let (es, result) := loop validAck rs l' x'
      (l.events r ++ es, result)
    | result => (l.events r, result)

/-- The call on the outcomes `rs` of its calls of `recvfrom`. The result is `again` if it has not ended. -/
def sendWithAck (attempts : Word) (validAck : σ → Buf → ServerAction × σ) (x : σ) (rs : List Received) :
    List Event × Result σ :=
  if (start attempts).running then loop validAck rs (start attempts) x else ([], .returned x)

/-! ### What the outcomes determine -/

/-- What the callback has captured after the datagrams among the outcomes. -/
def captured (validAck : σ → Buf → ServerAction × σ) : σ → List Received → σ
  | x, [] => x
  | x, .datagram buf :: rs => captured validAck (validAck x buf).2 rs
  | x, _ :: rs => captured validAck x rs

/-- Timeouts, and datagrams that the callback does not accept. -/
def Quiet (validAck : σ → Buf → ServerAction × σ) : σ → List Received → Prop
  | _, [] => True
  | x, .timeout :: rs => Quiet validAck x rs
  | _, .error :: _ => False
  | x, .datagram buf :: rs => (validAck x buf).1 = .cont ∧ Quiet validAck (validAck x buf).2 rs

/-- The multiplier of the `i`-th wait. -/
def multiplier (i : Nat) : Word := UInt32.ofNat (min (2 ^ i) 64)

/-- The trace of a call that has read `rs`, after `i` timeouts. -/
def rounds : Nat → List Received → List Event
  | _, [] => []
  | i, .timeout :: rs => .send :: .receive .timeout :: .waitBackoff (multiplier i) :: rounds (i + 1) rs
  | i, r :: rs => .send :: .receive r :: rounds i rs

/-- The multipliers of the waits. -/
def waits (es : List Event) : List Word := es.filterMap fun
  | .waitBackoff w => some w
  | _ => none

/-- How a call can be over once it has read `used`: at the first datagram that is accepted, at the first error,
or after its last attempt. -/
inductive Ends (l : SendLoop) (validAck : σ → Buf → ServerAction × σ) (x : σ) : List Received → Result σ → Prop
  | stop {used : List Received} {buf : Buf} (hq : Quiet validAck x used)
      (hs : (validAck (captured validAck x used) buf).1 = .stop) :
      Ends l validAck x (used ++ [.datagram buf]) (.returned (validAck (captured validAck x used) buf).2)
  | error {used : List Received} (hq : Quiet validAck x used) : Ends l validAck x (used ++ [.error]) .threw
  | exhausted {used : List Received} (hq : Quiet validAck x used) (hl : l.noLimit = false)
      (hlen : used.length = l.attempts.toNat) : Ends l validAck x used (.returned (captured validAck x used))

/-- Of the outcomes `rs` the loop reads `used` and comes to `result`: it has ended there, or has read everything and
needs one more. -/
structure Reads (l : SendLoop) (validAck : σ → Buf → ServerAction × σ) (x : σ) (rs used : List Received)
    (result : Result σ) : Prop where
  consumed : used <+: rs
  length_le : l.noLimit = false → used.length ≤ l.attempts.toNat
  ends : Ends l validAck x used result ∨
    used = rs ∧ Quiet validAck x rs ∧ (l.noLimit = false → rs.length < l.attempts.toNat) ∧
      ∃ l', result = .again l' (captured validAck x rs)

theorem multiplier_zero : multiplier 0 = 1 := rfl

theorem backoffMult_backOff {l : SendLoop} {i : Nat} (h : l.backoffMult = multiplier i) :
    l.backOff.backoffMult = multiplier (i + 1) := by
  have hdouble : ∀ j < 6, multiplier j < kMaxBackoffMultiplier ∧ multiplier j <<< 1 = multiplier (j + 1) := by decide
  have hsat : ∀ j, 6 ≤ j → multiplier j = kMaxBackoffMultiplier := by
    intro j hj
    have h64 : 64 ≤ 2 ^ j := Nat.le_trans (by decide : 64 ≤ 2 ^ 6) (Nat.pow_le_pow_right Nat.two_pos hj)
    rw [multiplier, Nat.min_eq_right h64]
    rfl
  by_cases hi : i < 6
  · rw [backOff, h, if_pos (hdouble i hi).1]
    exact (hdouble i hi).2
  · rw [backOff, h, hsat i (by omega), if_neg (by decide), h, hsat i (by omega), hsat (i + 1) (by omega)]

section
variable {l l' : SendLoop} {x y : σ} {r : Received} {rs used : List Received} {result : Result σ}
  {validAck : σ → Buf → ServerAction × σ}

theorem toNat_attempts_pos (hrun : l.running = true) (hl : l.noLimit = false) : 0 < l.attempts.toNat := by
  simpa [running, hl, UInt32.lt_iff_toNat_lt] using hrun

/-- The loop goes on after `r`, in the state `l'`. -/
structure Continues (l : SendLoop) (validAck : σ → Buf → ServerAction × σ) (x : σ) (r : Received) (l' : SendLoop) :
    Prop where
  quiet : Quiet validAck x [r]
  noLimit : l'.noLimit = l.noLimit
  attempts : l.noLimit = false → l.attempts.toNat = l'.attempts.toNat + 1

/-- The end of the body when nothing ended the call: the counter decides. -/
theorem repeatOrReturn_cases (hrun : l.running = true) (x : σ) :
    (l.next.running = true ∧ (l.noLimit = false → l.attempts.toNat = l.next.attempts.toNat + 1) ∧
      l.repeatOrReturn x = .again l.next x) ∨
    (l.noLimit = false ∧ l.attempts.toNat = 1 ∧ l.repeatOrReturn x = .returned x) := by
  have hnext : l.noLimit = false → l.attempts.toNat = l.next.attempts.toNat + 1 := by
    intro hl
    have hpos := toNat_attempts_pos hrun hl
    have hle : (1 : Word) ≤ l.attempts := UInt32.le_iff_toNat_le.2 hpos
    rw [next, UInt32.toNat_sub_of_le _ _ hle, UInt32.toNat_one]
    omega
  by_cases hn : l.next.running = true
  · exact .inl ⟨hn, hnext, if_pos hn⟩
  · refine .inr ?_
    have hl : l.noLimit = false := by
      cases hl : l.noLimit with
      | false => rfl
      | true => simp [running, next, hl] at hn
    have hzero : l.next.attempts.toNat = 0 := by
      simpa [running, next, hl, UInt32.lt_iff_toNat_lt] using hn
    exact ⟨hl, by rw [hnext hl, hzero], if_neg hn⟩

theorem captured_cons (r : Received) (rs : List Received) :
    captured validAck x (r :: rs) = captured validAck (captured validAck x [r]) rs := by
  cases r <;> rfl

theorem quiet_cons (r : Received) (rs : List Received) :
    Quiet validAck x (r :: rs) ↔ Quiet validAck x [r] ∧ Quiet validAck (captured validAck x [r]) rs := by
  cases r <;> simp [Quiet, captured]

theorem Ends.cons (hc : l.Continues validAck x r l') (h : l'.Ends validAck (captured validAck x [r]) used result) :
    l.Ends validAck x (r :: used) result := by
  cases h with
  | @stop used buf hq hs =>
    have := Ends.stop (l := l) ((quiet_cons r used).2 ⟨hc.quiet, hq⟩) (by rwa [captured_cons])
    rwa [captured_cons] at this
  | error hq => exact .error ((quiet_cons r _).2 ⟨hc.quiet, hq⟩)
  | exhausted hq hl hlen =>
    have hl := hc.noLimit ▸ hl
    have hlen : (r :: used).length = l.attempts.toNat := by rw [hc.attempts hl, ← hlen, List.length_cons]
    have := Ends.exhausted ((quiet_cons r used).2 ⟨hc.quiet, hq⟩) hl hlen
    rwa [captured_cons] at this

theorem Reads.cons (hc : l.Continues validAck x r l')
    (h : l'.Reads validAck (captured validAck x [r]) rs used result) :
    l.Reads validAck x (r :: rs) (r :: used) result := by
  refine ⟨(List.cons_prefix_cons).2 ⟨rfl, h.consumed⟩, fun hl => ?_, ?_⟩
  · have := h.length_le (hc.noLimit.trans hl)
    rw [hc.attempts hl, List.length_cons]
    omega
  · rcases h.ends with hends | ⟨rfl, hq, hlen, l'', hres⟩
    · exact .inl (hends.cons hc)
    · refine .inr ⟨rfl, (quiet_cons r _).2 ⟨hc.quiet, hq⟩, fun hl => ?_, l'', by rw [captured_cons, hres]⟩
      have := hlen (hc.noLimit.trans hl)
      rw [hc.attempts hl, List.length_cons]
      omega

/-- The timeouts after `r`, when there were `i` before. -/
def timeoutsAfter (i : Nat) : Received → Nat
  | .timeout => i + 1
  | _ => i

theorem rounds_cons {i : Nat} (hm : l.backoffMult = multiplier i) (r : Received) (rs : List Received) :
    rounds i (r :: rs) = l.events r ++ rounds (timeoutsAfter i r) rs := by
  cases r <;> simp [rounds, events, timeoutsAfter, hm]

/-- The rest of a round that nothing has ended, with `l₁` the state after a possible wait. -/
theorem repeatOrReturn_of_quiet {l₁ : SendLoop} (hrun : l.running = true) (hlimit : l₁.noLimit = l.noLimit)
    (hatt : l₁.attempts = l.attempts) (hq : Quiet validAck x [r]) (hy : captured validAck x [r] = y) :
    (∃ l', l'.running = true ∧ l'.backoffMult = l₁.backoffMult ∧ l.Continues validAck x r l' ∧
      l₁.repeatOrReturn y = .again l' y) ∨
    l.Ends validAck x [r] (l₁.repeatOrReturn y) ∧ ∀ l' z, l₁.repeatOrReturn y ≠ .again l' z := by
  have hrun₁ : l₁.running = true := by rwa [running, hlimit, hatt]
  rcases repeatOrReturn_cases hrun₁ y with ⟨hn, hlen, heq⟩ | ⟨hl, hone, heq⟩
  · rw [hlimit, hatt] at hlen
    exact .inl ⟨_, hn, rfl, ⟨hq, hlimit, hlen⟩, heq⟩
  · rw [hlimit] at hl
    rw [hatt] at hone
    rw [heq, ← hy]
    exact .inr ⟨.exhausted hq hl hone.symm, by simp⟩

/-- One round: the loop goes on, or the call ends on the outcome of this round. -/
theorem afterReceive_cases (hrun : l.running = true) {i : Nat} (hm : l.backoffMult = multiplier i)
    (validAck : σ → Buf → ServerAction × σ) (x : σ) (r : Received) :
    (∃ l', l'.running = true ∧ l'.backoffMult = multiplier (timeoutsAfter i r) ∧ l.Continues validAck x r l' ∧
      l.afterReceive validAck x r = .again l' (captured validAck x [r])) ∨
    l.Ends validAck x [r] (l.afterReceive validAck x r) ∧ ∀ l' y, l.afterReceive validAck x r ≠ .again l' y := by
  cases r with
  | error =>
    have hends : l.Ends validAck x ([] ++ [.error]) .threw := .error trivial
    exact .inr ⟨hends, by simp [afterReceive]⟩
  | timeout =>
    have hres : l.afterReceive validAck x .timeout = l.backOff.repeatOrReturn x := rfl
    have hquiet : Quiet validAck x [.timeout] := trivial
    rw [hres]
    refine (repeatOrReturn_of_quiet hrun (noLimit_backOff l) (attempts_backOff l) hquiet rfl).imp_left ?_
    rintro ⟨l', hrun', hm', hc, heq⟩
    exact ⟨l', hrun', hm'.trans (backoffMult_backOff hm), hc, heq⟩
  | datagram buf =>
    cases hv : (validAck x buf).1 with
    | stop =>
      have hends : l.Ends validAck x ([] ++ [.datagram buf]) (.returned (validAck x buf).2) := .stop trivial hv
      rw [afterReceive_stop hv]
      exact .inr ⟨hends, by simp⟩
    | cont =>
      have hquiet : Quiet validAck x [.datagram buf] := ⟨hv, trivial⟩
      rw [afterReceive_cont hv]
      refine (repeatOrReturn_of_quiet hrun rfl rfl hquiet rfl).imp_left ?_
      rintro ⟨l', hrun', hm', hc, heq⟩
      exact ⟨l', hrun', hm'.trans hm, hc, heq⟩

theorem loop_cons_of_ne (hne : ∀ l' y, l.afterReceive validAck x r ≠ .again l' y) (rs : List Received) :
    loop validAck (r :: rs) l x = (l.events r, l.afterReceive validAck x r) := by
  rw [loop]
  split
  · next heq => exact absurd heq (hne _ _)
  · rfl

/-- The whole loop, from any state in which its condition holds. -/
theorem loop_reads (validAck : σ → Buf → ServerAction × σ) (hrun : l.running = true) {i : Nat}
    (hm : l.backoffMult = multiplier i) (x : σ) (rs : List Received) :
    ∃ used, l.Reads validAck x rs used (loop validAck rs l x).2 ∧ (loop validAck rs l x).1 = rounds i used := by
  induction rs generalizing l x i with
  | nil =>
    refine ⟨[], ⟨List.nil_prefix, fun _ => Nat.zero_le _, .inr ⟨rfl, trivial, fun hl => ?_, l, rfl⟩⟩, rfl⟩
    exact toNat_attempts_pos hrun hl
  | cons r rs ih =>
    rcases afterReceive_cases hrun hm validAck x r with ⟨l', hrun', hm', hc, heq⟩ | ⟨hends, hne⟩
    · obtain ⟨used, hreads, htrace⟩ := ih hrun' hm' (captured validAck x [r])
      rw [loop, heq]
      exact ⟨r :: used, hreads.cons hc, by rw [rounds_cons hm, ← htrace]⟩
    · rw [loop_cons_of_ne hne]
      refine ⟨[r], ⟨⟨rs, rfl⟩, fun hl => toNat_attempts_pos hrun hl, .inl hends⟩, ?_⟩
      rw [rounds_cons hm, rounds, List.append_nil]

end

theorem running_start (attempts : Word) : (start attempts).running = true := by
  by_cases h : attempts = kUnlimitedAttempts
  · simp [running, start, h]
  · have : 0 < attempts := UInt32.pos_iff_ne_zero.2 h
    simp [running, start, this]

theorem count_send_rounds (i : Nat) (rs : List Received) : (rounds i rs).count .send = rs.length := by
  induction rs generalizing i with
  | nil => rfl
  | cons r rs ih => cases r <;> simp [rounds, ih]

theorem waits_rounds (i : Nat) (rs : List Received) :
    waits (rounds i rs) = (List.range' i (rs.count .timeout)).map multiplier := by
  induction rs generalizing i with
  | nil => rfl
  | cons r rs ih =>
    cases r with
    | timeout => rw [List.count_cons_self, List.range'_succ, List.map_cons, ← ih]; rfl
    | error => rw [List.count_cons_of_ne (by decide), ← ih]; rfl
    | datagram buf => rw [List.count_cons_of_ne (by simp), ← ih]; rfl

/-- A call of `SendWithAck`, whatever `recvfrom` returns. It reads a first part `used` of the outcomes and for each of
them sends once and then receives; after the `i`-th timeout it waits with the multiplier `min (2 ^ i) 64`. With a
limit it sends at most that often. It has returned on the first accepted datagram, thrown on the first
error or returned after the last attempt, if there is a limit; otherwise it goes on. -/
theorem sendWithAck_outcome (attempts : Word) (validAck : σ → Buf → ServerAction × σ) (x : σ) (rs : List Received) :
    ∃ used, used <+: rs ∧ (sendWithAck attempts validAck x rs).1 = rounds 0 used ∧
      (sendWithAck attempts validAck x rs).1.count .send = used.length ∧
      waits (sendWithAck attempts validAck x rs).1 = (List.range (used.count .timeout)).map multiplier ∧
      (attempts ≠ kUnlimitedAttempts → used.length ≤ attempts.toNat) ∧
      ((∃ qs buf, used = qs ++ [.datagram buf] ∧ Quiet validAck x qs ∧
          (validAck (captured validAck x qs) buf).1 = .stop ∧
          (sendWithAck attempts validAck x rs).2 = .returned (validAck (captured validAck x qs) buf).2) ∨
        (∃ qs, used = qs ++ [.error] ∧ Quiet validAck x qs ∧ (sendWithAck attempts validAck x rs).2 = .threw) ∨
        (Quiet validAck x used ∧ attempts ≠ kUnlimitedAttempts ∧ used.length = attempts.toNat ∧
          (sendWithAck attempts validAck x rs).2 = .returned (captured validAck x used)) ∨
        (used = rs ∧ Quiet validAck x rs ∧ (attempts ≠ kUnlimitedAttempts → rs.length < attempts.toNat) ∧
          ∃ l, (sendWithAck attempts validAck x rs).2 = .again l (captured validAck x rs))) := by
  have hlimit : (start attempts).noLimit = false ↔ attempts ≠ kUnlimitedAttempts := by simp [start]
  rw [sendWithAck, if_pos (running_start attempts)]
  obtain ⟨used, hreads, htrace⟩ := loop_reads validAck (running_start attempts) multiplier_zero.symm x rs
  refine ⟨used, hreads.consumed, htrace, ?_, ?_, fun hk => hreads.length_le (hlimit.2 hk), ?_⟩
  · rw [htrace, count_send_rounds]
  · rw [htrace, waits_rounds, List.range_eq_range']
  · generalize (loop validAck rs (start attempts) x).2 = result at hreads ⊢
    rcases hreads.ends with hends | ⟨rfl, hq, hlen, l, hres⟩
    · cases hends with
      | stop hq hs => exact .inl ⟨_, _, rfl, hq, hs, rfl⟩
      | error hq => exact .inr (.inl ⟨_, rfl, hq, rfl⟩)
      | exhausted hq hl hlen => exact .inr (.inr (.inl ⟨hq, hlimit.1 hl, hlen, rfl⟩))
    · exact .inr (.inr (.inr ⟨rfl, hq, fun hk => hlen (hlimit.2 hk), l, hres⟩))

end IsisMulticast.SendLoop

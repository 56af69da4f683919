import IsisMulticast.Sender
import IsisMulticast.SendWithAck
import IsisMulticast.Lib.Lts
import Mathlib.Algebra.GroupWithZero.Nat

/-!
# The traffic of the acknowledged send

Calls of `SendWithAck` that follow each other on one client share its socket. On a link that loses nothing
and keeps the order, every transmission is answered by one datagram, and a call reads the answers to
all earlier transmissions before it reads one to its own. Each of them makes it send again at once,
so the call leaves as many answers unread as it found, and one more for each timeout (`session_traffic`).
Under the schedule of a link a call is the `SendWithAck` of `SendWithAck.lean` on the outcomes of `recvfrom` that the
link makes of it (`Session.sendWithAck_eq_some`), so `Session` adds the link and leaves the loop as it is.
-/

namespace IsisMulticast.Client
open Lib

/-- A call of `SendWithAck` with unlimited attempts: its callback, what the callback has captured at the
start, and the answer of the peer to each of its transmissions. -/
structure Session (σ : Type) where
  validAck : σ → Buf → ServerAction × σ
  start : σ
  reply : Nat → Buf

/-- How a call of `recvfrom` ends: by the timeout, or with the next datagram. -/
inductive Turn where
  | timeout
  | datagram
deriving DecidableEq, Repr

/-- A call on its way, and at its end: how often it has sent, how many timeouts it has seen, and the answers
on the link that are not read, in order. -/
structure Traffic (σ : Type) where
  captured : σ
  sent : Nat
  timeouts : Nat
  inbox : List Buf

variable {σ : Type}

/-- `recvfrom` on a socket for which the answers `inbox` are on the way or waiting. -/
def recvfrom : Turn → List Buf → Option (Received × List Buf)
  | .timeout, inbox => some (.timeout, inbox)
  | .datagram, buf :: inbox => some (.datagram buf, inbox)
  | .datagram, [] => none

def Turn.timeouts : Turn → Nat
  | .timeout => 1
  | .datagram => 0

/-- The loop of `SendWithAck`, under a schedule for its calls of `recvfrom`. There is no result as long as it has
not returned. -/
def Session.loop (s : Session σ) : List Turn → SendLoop → Traffic σ → Option (Traffic σ)
  | [], _, _ => none
  | turn :: turns, l, c => do
    -- `Send`, and the answer to it
    let (r, inbox) ← recvfrom turn (c.inbox ++ [s.reply c.sent])
    let c := { c with sent := c.sent + 1, timeouts := c.timeouts + turn.timeouts, inbox := inbox }
    match l.afterReceive s.validAck c.captured r with
    | .again l x => s.loop turns l { c with captured := x }
    | .returned x => some { c with captured := x }
    | .threw => none

def Session.sendWithAck (s : Session σ) (turns : List Turn) (inbox : List Buf) : Option (Traffic σ) :=
  s.loop turns (.start kUnlimitedAttempts) ⟨s.start, 0, 0, inbox⟩

/-- The answers not read after the calls. -/
def unread (cs : List (Traffic σ)) : List Buf := ((cs.getLast?).map (·.inbox)).getD []

/-- One client over its life: the calls made on it, each with its schedule. -/
def calls : Lts (List (Traffic σ)) (Session σ × List Turn) where
  init := []
  step cs p := (p.1.sendWithAck p.2 (unread cs)).map fun c => cs ++ [c]

/-- Every callback accepts the answers to its own transmissions and none to those of an earlier call. -/
structure Exact (ss : List (Session σ)) : Prop where
  own : ∀ s ∈ ss, ∀ x n, (s.validAck x (s.reply n)).1 = .stop
  stale : ss.Pairwise fun s s' => ∀ x n, (s'.validAck x (s.reply n)).1 = .cont

theorem Exact.append_left {ss ss' : List (Session σ)} (h : Exact (ss ++ ss')) : Exact ss :=
  ⟨fun s hs => h.own s (List.mem_append_left _ hs), (List.pairwise_append.1 h.stale).1⟩

namespace Session
variable {l : SendLoop} {stale own : List Buf}

section
variable (s : Session σ) (c : Traffic σ) (turns : List Turn)

theorem loop_timeout (hl : l.Unlimited) : ∃ l', l'.Unlimited ∧ s.loop (.timeout :: turns) l c = s.loop turns l'
    { c with sent := c.sent + 1, timeouts := c.timeouts + 1, inbox := c.inbox ++ [s.reply c.sent] } := by
  obtain ⟨l', hl', heq⟩ := hl.afterReceive_timeout s.validAck c.captured
  exact ⟨l', hl', by simp [loop, recvfrom, heq, Turn.timeouts]⟩

theorem loop_reject (hl : l.Unlimited) {buf : Buf} {inbox : List Buf} (hin : c.inbox = buf :: inbox)
    (hrej : (s.validAck c.captured buf).1 = .cont) :
    ∃ l' x, l'.Unlimited ∧ s.loop (.datagram :: turns) l c = s.loop turns l'
      ⟨x, c.sent + 1, c.timeouts, inbox ++ [s.reply c.sent]⟩ := by
  obtain ⟨l', hl', heq⟩ := hl.afterReceive_cont hrej
  exact ⟨l', (s.validAck c.captured buf).2, hl', by simp [loop, recvfrom, hin, heq, Turn.timeouts]⟩

theorem loop_accept (l : SendLoop) {buf : Buf} {inbox : List Buf}
    (hin : c.inbox ++ [s.reply c.sent] = buf :: inbox) (hacc : (s.validAck c.captured buf).1 = .stop) :
    ∃ x, s.loop (.datagram :: turns) l c = some ⟨x, c.sent + 1, c.timeouts, inbox⟩ := by
  have heq := SendLoop.afterReceive_stop (l := l) hacc
  exact ⟨(s.validAck c.captured buf).2, by simp [loop, recvfrom, hin, heq, Turn.timeouts]⟩

end

/-- What a call has done that returned: it has read the `k` stale answers and one of its own. -/
structure Ends (s : Session σ) (k : Nat) (turns : List Turn) (c c' : Traffic σ) : Prop where
  used : ∃ used, used <+: turns ∧ used.count .datagram = k + 1 ∧ c'.timeouts = c.timeouts + used.count .timeout
  sent : c'.sent + c.timeouts = c.sent + (k + 1) + c'.timeouts
  left : c'.inbox.length + c.timeouts = c.inbox.length + c'.timeouts
  own : ∀ b ∈ c'.inbox, ∃ n, b = s.reply n

section
variable {s : Session σ} {c c' : Traffic σ} {turns : List Turn} {k : Nat} {r : Buf}

theorem Ends.timeout (h : s.Ends k turns ⟨c.captured, c.sent + 1, c.timeouts + 1, c.inbox ++ [r]⟩ c') :
    s.Ends k (.timeout :: turns) c c' := by
  obtain ⟨⟨used, hpre, hcount, htime⟩, hsent, hleft, hown⟩ := h
  simp only [List.length_append, List.length_singleton] at htime hsent hleft
  refine ⟨⟨.timeout :: used, (List.cons_prefix_cons).2 ⟨rfl, hpre⟩, ?_, ?_⟩, by omega, by omega, hown⟩
  · rw [List.count_cons_of_ne (by decide), hcount]
  · rw [htime, List.count_cons_self]
    omega

/-- A stale answer is read and the next transmission is answered, so `inbox` keeps its length. -/
theorem Ends.reject {x : σ} {b : Buf} {inbox : List Buf} (hin : c.inbox = b :: inbox)
    (h : s.Ends k turns ⟨x, c.sent + 1, c.timeouts, inbox ++ [r]⟩ c') :
    s.Ends (k + 1) (.datagram :: turns) c c' := by
  obtain ⟨⟨used, hpre, hcount, htime⟩, hsent, hleft, hown⟩ := h
  simp only [List.length_append, List.length_singleton] at htime hsent hleft
  refine ⟨⟨.datagram :: used, (List.cons_prefix_cons).2 ⟨rfl, hpre⟩, ?_, ?_⟩, by omega, ?_, hown⟩
  · rw [List.count_cons_self, hcount]
  · rw [htime, List.count_cons_of_ne (by decide)]
  · rw [hin, List.length_cons, hleft]

theorem ends_accept {x : σ} {b : Buf} {inbox : List Buf} (hin : c.inbox ++ [r] = b :: inbox)
    (hown : ∀ b ∈ inbox, ∃ n, b = s.reply n) :
    s.Ends 0 (.datagram :: turns) c ⟨x, c.sent + 1, c.timeouts, inbox⟩ := by
  have hlen : c.inbox.length = inbox.length := by simpa using congrArg List.length hin
  exact ⟨⟨[.datagram], by simp, rfl, rfl⟩, rfl, by rw [hlen], hown⟩

end

/-- The loop, with `stale` the answers to earlier calls that are still to be read and `own` those to this call
behind them: it returns with datagram number `stale.length + 1`. -/
theorem loop_ends {s : Session σ} {c : Traffic σ} {turns : List Turn} (hl : l.Unlimited)
    (haccept : ∀ x n, (s.validAck x (s.reply n)).1 = .stop)
    (hstale : ∀ b ∈ stale, ∀ x, (s.validAck x b).1 = .cont) (hown : ∀ b ∈ own, ∃ n, b = s.reply n)
    (hin : c.inbox = stale ++ own) :
    turns.count .datagram < stale.length + 1 ∧ s.loop turns l c = none ∨
      ∃ c', s.loop turns l c = some c' ∧ s.Ends stale.length turns c c' := by
  induction turns generalizing l c stale own with
  | nil => exact .inl ⟨Nat.succ_pos _, rfl⟩
  | cons turn turns ih =>
    have hreply : ∀ b ∈ own ++ [s.reply c.sent], ∃ n, b = s.reply n := by
      intro b hb
      rcases List.mem_append.1 hb with hb | hb
      · exact hown b hb
      · exact ⟨c.sent, List.mem_singleton.1 hb⟩
    cases turn with
    | timeout =>
      obtain ⟨l', hl', heq⟩ := loop_timeout s c turns hl
      rw [heq, List.count_cons_of_ne (by decide)]
      refine (ih hl' hstale hreply (by simp [hin])).imp_right ?_
      rintro ⟨c', hc', hends⟩
      exact ⟨c', hc', hends.timeout⟩
    | datagram =>
      cases stale with
      | nil =>
        right
        -- the first datagram is an own one
        have hne : own ++ [s.reply c.sent] ≠ [] := by simp
        obtain ⟨buf, inbox, hbox⟩ := List.exists_cons_of_ne_nil hne
        obtain ⟨n, rfl⟩ := hreply buf (by simp [hbox])
        rw [List.nil_append] at hin
        rw [← hin] at hbox
        obtain ⟨x, heq⟩ := loop_accept s c turns l hbox (haccept _ n)
        exact ⟨_, heq, ends_accept hbox fun b hb => hreply b (by simp [← hin, hbox, hb])⟩
      | cons b stale =>
        obtain ⟨l', x, hl', heq⟩ := loop_reject s c turns hl (by rw [hin]; rfl) (hstale b (by simp) _)
        rw [heq, List.count_cons_self]
        have hih := ih (c := ⟨x, c.sent + 1, c.timeouts, (stale ++ own) ++ [s.reply c.sent]⟩) hl'
          (fun b hb => hstale b (List.mem_cons_of_mem _ hb)) hreply (by simp)
        refine hih.imp (fun h => ⟨by simp only [List.length_cons]; omega, h.2⟩) ?_
        rintro ⟨c', hc', hends⟩
        exact ⟨c', hc', hends.reject hin⟩

theorem count_timeout_of_recvfrom {turn : Turn} {inbox inbox' : List Buf} {r : Received}
    (h : recvfrom turn inbox = some (r, inbox')) (rs : List Received) :
    (r :: rs).count .timeout = turn.timeouts + rs.count .timeout := by
  cases turn with
  | timeout =>
    cases h
    rw [List.count_cons_self, Nat.add_comm]
    rfl
  | datagram =>
    cases inbox with
    | nil => cases h
    | cons buf inbox =>
      cases h
      rw [List.count_cons_of_ne (by simp)]
      exact (Nat.zero_add _).symm

/-- A call that returned is a call of `SendWithAck` on the outcomes of its calls of `recvfrom`. -/
theorem loop_eq_some {s : Session σ} {c c' : Traffic σ} {turns : List Turn} (h : s.loop turns l c = some c') :
    ∃ rs, (SendLoop.loop s.validAck rs l c.captured).2 = .returned c'.captured ∧
      c'.sent = c.sent + rs.length ∧ c'.timeouts = c.timeouts + rs.count .timeout := by
  induction turns generalizing l c with
  | nil => cases h
  | cons turn turns ih =>
    rw [loop, Option.bind_eq_bind, Option.bind_eq_some_iff] at h
    obtain ⟨⟨r, inbox⟩, hr, h⟩ := h
    simp only at h
    have hcount := count_timeout_of_recvfrom hr
    cases heq : l.afterReceive s.validAck c.captured r with
    | threw => simp [heq] at h
    | returned x =>
      simp only [heq, Option.some.injEq] at h
      subst h
      refine ⟨[r], ?_, rfl, by rw [hcount]; rfl⟩
      rw [SendLoop.loop_cons_of_ne (by simp [heq]), heq]
    | again l' x =>
      simp only [heq] at h
      obtain ⟨rs, hres, hsent, htime⟩ := ih h
      refine ⟨r :: rs, ?_, ?_, ?_⟩
      · rw [SendLoop.loop, heq]
        exact hres
      · rw [hsent, List.length_cons, Nat.add_right_comm, Nat.add_assoc]
      · rw [htime, hcount, Nat.add_assoc]

/-- The schedule and the link only choose what `recvfrom` returns. -/
theorem sendWithAck_eq_some {s : Session σ} {c : Traffic σ} {turns : List Turn} {inbox : List Buf}
    (h : s.sendWithAck turns inbox = some c) :
    ∃ rs, (SendLoop.sendWithAck kUnlimitedAttempts s.validAck s.start rs).2 = .returned c.captured ∧
      c.sent = rs.length ∧ c.timeouts = rs.count .timeout := by
  obtain ⟨rs, hres, hsent, htime⟩ := loop_eq_some h
  rw [Nat.zero_add] at hsent htime
  exact ⟨rs, by rwa [SendLoop.sendWithAck, if_pos (SendLoop.running_start _)], hsent, htime⟩

end Session

/-! ### One call after the other -/

variable {ss : List (Session σ × List Turn)} {cs : List (Traffic σ)} {s : Session σ} {c : Traffic σ}

theorem unread_concat : unread (cs ++ [c]) = c.inbox := by
  simp [unread]

/-- A call on a socket on which only answers to earlier calls are left. -/
theorem sendWithAck_ends (turns : List Turn) (hexact : Exact (ss.map Prod.fst ++ [s])) {inbox : List Buf}
    (hstale : ∀ b ∈ inbox, ∃ p ∈ ss, ∃ n, b = p.1.reply n) :
    turns.count .datagram < inbox.length + 1 ∧ s.sendWithAck turns inbox = none ∨
      ∃ c, s.sendWithAck turns inbox = some c ∧ s.Ends inbox.length turns ⟨s.start, 0, 0, inbox⟩ c := by
  refine Session.loop_ends SendLoop.unlimited_start (hexact.own s (by simp)) (fun b hb x => ?_) (by simp)
    (List.append_nil _).symm
  obtain ⟨p, hp, n, rfl⟩ := hstale b hb
  exact (List.pairwise_append.1 hexact.stale).2.2 _ (List.mem_map_of_mem hp) s (by simp) x n

/-- Between two calls the answers not read are as many as the timeouts so far, and all of them are answers to
calls that are over. -/
theorem unread_of_run (hexact : Exact (ss.map Prod.fst)) (hrun : calls.Run ss cs) :
    (∀ b ∈ unread cs, ∃ p ∈ ss, ∃ n, b = p.1.reply n) ∧ (unread cs).length = (cs.map (·.timeouts)).sum := by
  refine hrun.induction (P := fun ss cs => Exact (ss.map Prod.fst) →
    (∀ b ∈ unread cs, ∃ p ∈ ss, ∃ n, b = p.1.reply n) ∧ (unread cs).length = (cs.map (·.timeouts)).sum) ?_ ?_ hexact
  · intro _
    simp [calls, unread]
  · rintro ss cs ⟨s, turns⟩ cs' _ ih hs hexact
    rw [List.map_append] at hexact
    obtain ⟨hstale, hlen⟩ := ih hexact.append_left
    obtain ⟨c, hc, rfl⟩ := Option.map_eq_some_iff.1 hs
    rw [unread_concat]
    rcases sendWithAck_ends turns hexact hstale with ⟨-, hnone⟩ | ⟨c', hc', hends⟩
    · cases hnone.symm.trans hc
    · obtain rfl := Option.some.inj (hc.symm.trans hc')
      refine ⟨fun b hb => ?_, ?_⟩
      · obtain ⟨n, rfl⟩ := hends.own b hb
        exact ⟨(s, turns), by simp, n, rfl⟩
      · have hleft := hends.left
        simp only [List.map_append, List.sum_append, List.map_singleton, List.sum_singleton] at hleft ⊢
        omega

/-- The traffic of one more call on a client. As many answers are unread before it as there were timeouts so
far, say `k`. Under every schedule that lets it read `k + 1` datagrams it returns; if it sees `t` timeouts
until then, it has sent its datagram `k + 1 + t` times and leaves `k + t` answers unread, also when `t = 0`. -/
theorem session_traffic (hexact : Exact (ss.map Prod.fst ++ [s])) (hrun : calls.Run ss cs) (turns : List Turn) :
    (unread cs).length = (cs.map (·.timeouts)).sum ∧
      ((unread cs).length + 1 ≤ turns.count .datagram → ∃ c, calls.Run (ss ++ [(s, turns)]) (cs ++ [c])) ∧
      ∀ cs', calls.Run (ss ++ [(s, turns)]) cs' → ∃ c, cs' = cs ++ [c] ∧
        (∃ used, used <+: turns ∧ used.count .datagram = (unread cs).length + 1 ∧ c.timeouts = used.count .timeout) ∧
        c.sent = (unread cs).length + 1 + c.timeouts ∧ (unread cs').length = (unread cs).length + c.timeouts := by
  obtain ⟨hstale, hlen⟩ := unread_of_run hexact.append_left hrun
  have hcases := sendWithAck_ends turns hexact hstale
  refine ⟨hlen, fun hturns => ?_, fun cs' hrun' => ?_⟩
  · rcases hcases with ⟨hlt, -⟩ | ⟨c, hc, -⟩
    · omega
    · exact ⟨c, Lts.run_concat.2 ⟨cs, hrun, Option.map_eq_some_iff.2 ⟨c, hc, rfl⟩⟩⟩
  · obtain ⟨cs₀, hrun₀, hs⟩ := Lts.run_concat.1 hrun'
    obtain rfl := hrun₀.unique hrun
    obtain ⟨c, hc, rfl⟩ := Option.map_eq_some_iff.1 hs
    rcases hcases with ⟨-, hnone⟩ | ⟨c', hc', hends⟩
    · cases hnone.symm.trans hc
    · obtain rfl := Option.some.inj (hc.symm.trans hc')
      obtain ⟨⟨used, hpre, hcount, htime⟩, hsent, hleft, -⟩ := hends
      simp only [Nat.zero_add, Nat.add_zero] at htime hsent hleft
      exact ⟨c, rfl, ⟨used, hpre, hcount, htime⟩, hsent, by rw [unread_concat]; exact hleft⟩

/-- The calls for the data message and for the sequence message of one thread to process 1. -/
def dataCall : Session (List Word) where
  validAck := handleAck .little 0 7 1
  start := [1, 0]
  reply _ := sendAckMsg .big { sender := 0, msgId := 7, proposedSeq := 3, proposer := 1 }

def seqCall : Session (List Word) where
  validAck seqs buf :=
    (isValidAck .little { sender := 0, msgId := 7, finalSeq := 3, finalSeqProposer := 1 } buf, seqs)
  start := [1, 3]
  reply _ := sendSeqAckMsg .big { sender := 0, msgId := 7 }

theorem exact_dataCall_seqCall : Exact [dataCall, seqCall] := by
  refine ⟨fun s hs x n => ?_, ?_⟩
  · simp only [List.mem_cons, List.not_mem_nil, or_false] at hs
    rcases hs with rfl | rfl
    · simp [dataCall, handleAck, validAckMsg]
    · simp [seqCall, isValidAck, validSeqAckMsg]
  · refine List.pairwise_cons.2 ⟨fun s hs x n => ?_, List.pairwise_singleton _ _⟩
    obtain rfl := List.mem_singleton.1 hs
    simp [seqCall, dataCall, isValidAck]

/-- The data message sees one timeout, and the sequence message none: it is sent twice all the same. -/
theorem session_traffic_seqCall : ∃ cs cs', calls.Run [(dataCall, [.timeout, .datagram])] cs ∧
    calls.Run ([(dataCall, [.timeout, .datagram])] ++ [(seqCall, [.datagram, .datagram])]) cs' ∧
    (unread cs).length = 1 ∧ ∃ c, cs' = cs ++ [c] ∧ c.sent = 2 ∧ (unread cs').length = 1 := by
  have h : (calls.exec [(dataCall, [.timeout, .datagram])]).map (fun cs => (unread cs).length) = some 1 := by decide
  obtain ⟨cs, hrun, hlen⟩ := Option.map_eq_some_iff.1 h
  have hexact : Exact ([(dataCall, [Turn.timeout, Turn.datagram])].map Prod.fst ++ [seqCall]) :=
    exact_dataCall_seqCall
  obtain ⟨-, hreturns, htraffic⟩ := session_traffic hexact hrun [.datagram, .datagram]
  obtain ⟨c, hrun'⟩ := hreturns (by rw [hlen]; decide)
  obtain ⟨c, hcs, ⟨used, hpre, -, htime⟩, hsent, hleft⟩ := htraffic _ hrun'
  have hzero : c.timeouts = 0 := by
    rw [htime]
    exact Nat.le_zero.1 (hpre.sublist.count_le _)
  exact ⟨cs, _, hrun, hrun', hlen, c, hcs, by omega, by omega⟩

end IsisMulticast.Client

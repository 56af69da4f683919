import IsisMulticast.Runs
import IsisMulticast.ServerInv

/-!
# The invariant of the system

`Sys.Le` says that one state comes after another: histories and requests have only grown, and what is
launched or decided stays so (`Step.le`). `Sys.Inv` holds in every state of every run in which a process
never draws a message id twice (`Sys.Inv.of_run`), over any network: every request in flight is the data
message or the decided sequence message of a thread, every answer is the answer to the request it
names, a thread has recorded first proposals only (`Sender.Progress`), and on a link no data message of
a thread is sent after its sequence message.

The number in an ack that a thread accepts is a first proposal because the thread has not sent a sequence
message yet, so no server has handled one (`Server.Inv.first`).
-/

namespace IsisMulticast
open Lib

namespace Sys

/-! ### Growth -/

structure Le (s s' : Sys) : Prop where
  log : ∀ q, s.log q <+: s'.log q
  requests : ∀ lk, s.requests lk <+: s'.requests lk
  launched : ∀ m, s.Launched m → s'.Launched m
  decided : ∀ m, s.Decided m → s'.Decided m

variable {cfg : Config} {s s' : Sys} {l : Label} {tid : Nat} {t t' : Sender}

theorem Le.trans {s'' : Sys} (h : s.Le s') (h' : s'.Le s'') : s.Le s'' :=
  ⟨fun q => (h.log q).trans (h'.log q), fun lk => (h.requests lk).trans (h'.requests lk),
    fun m hm => h'.launched m (h.launched m hm), fun m hm => h'.decided m (h.decided m hm)⟩

theorem Le.getElem?_requests (h : s.Le s') {lk : Link} {i : Nat} {b : Buf} (hb : (s.requests lk)[i]? = some b) :
    (s'.requests lk)[i]? = some b := by
  obtain ⟨bs, hbs⟩ := h.requests lk
  obtain ⟨hi, -⟩ := List.getElem?_eq_some_iff.1 hb
  rw [← hbs, List.getElem?_append_left hi, hb]

theorem Le.mem_requests (h : s.Le s') {lk : Link} {b : Buf} (hb : b ∈ s.requests lk) : b ∈ s'.requests lk :=
  (h.requests lk).subset hb

theorem Le.handledSeq (h : s.Le s') {q : Word} {k : PendingMessageKey} (hs : HandledSeq (s.log q) k) :
    HandledSeq (s'.log q) k := by
  obtain ⟨log', hlog'⟩ := h.log q
  exact hlog' ▸ hs.append log'

theorem mem_update_append {α β : Type} [DecidableEq α] {f : α → List β} {i j : α} {xs : List β} {x : β}
    (h : x ∈ Function.update f i (f i ++ xs) j) : x ∈ f j ∨ j = i ∧ x ∈ xs := by
  by_cases hj : j = i
  · subst hj
    rw [Function.update_self, List.mem_append] at h
    exact h.imp_right fun hx => ⟨rfl, hx⟩
  · rw [Function.update_of_ne hj] at h
    exact .inl h

theorem Le.addRequest (s : Sys) (lk : Link) (b : Buf) :
    s.Le { s with requests := Function.update s.requests lk (s.requests lk ++ [b]) } := by
  refine ⟨fun _ => List.prefix_refl _, fun lk' => ?_, fun _ h => h, fun _ h => h⟩
  by_cases hl : lk' = lk
  · subst hl; simp
  · simp [Function.update_of_ne hl]

/-- A step of a new thread or of one that goes on. -/
theorem Le.of_thread (hsv : s'.servers = s.servers) (hreq : s'.requests = s.requests)
    (hse : s'.senders = Function.update s.senders tid (some t'))
    (hev : ∀ t, s.senders tid = some t → t.Evolves t') : s.Le s' := by
  have hthread : ∀ i u, s.senders i = some u → ∃ u', s'.senders i = some u' ∧ u.Evolves u' := by
    intro i u hu
    rw [hse]
    by_cases hi : i = tid
    · subst hi
      exact ⟨t', Function.update_self .., hev u hu⟩
    · exact ⟨u, by rw [Function.update_of_ne hi, hu], .refl u⟩
  refine ⟨fun q => by rw [Sys.log, Sys.log, hsv], fun lk => by rw [hreq], ?_, ?_⟩
  · rintro m ⟨i, u, hu, hm⟩
    obtain ⟨u', hu', he⟩ := hthread i u hu
    exact ⟨i, u', hu', he.dataMsg.trans hm⟩
  · rintro m ⟨i, u, hu, hm⟩
    obtain ⟨u', hu', he⟩ := hthread i u hu
    exact ⟨i, u', hu', he.decided m hm⟩

theorem Le.of_evolves (ht : s.senders tid = some t) (hev : t.Evolves t') (hsv : s'.servers = s.servers)
    (hreq : s'.requests = s.requests) (hse : s'.senders = Function.update s.senders tid (some t')) : s.Le s' :=
  .of_thread hsv hreq hse fun _ hu => Option.some.inj (ht.symm.trans hu) ▸ hev

theorem servers_served (s : Sys) (lk : Link) (j : Nat) (o : Outcome) :
    (s.served lk j o).servers lk.server = (s.servers lk.server).after o := Function.update_self ..

theorem servers_served_of_ne {q : Word} {lk : Link} (hq : q ≠ lk.server) (j : Nat) (o : Outcome) :
    (s.served lk j o).servers q = s.servers q := Function.update_of_ne hq ..

theorem log_served (s : Sys) (lk : Link) (j : Nat) (o : Outcome) :
    (s.served lk j o).log lk.server = s.log lk.server ++ o.effects := by
  rw [Sys.log, servers_served]; rfl

theorem log_served_of_ne {q : Word} {lk : Link} (hq : q ≠ lk.server) (j : Nat) (o : Outcome) :
    (s.served lk j o).log q = s.log q := by
  rw [Sys.log, servers_served_of_ne hq, Sys.log]

/-- What a list read off the histories gains when a server has handled a request. -/
theorem mem_log_served {α : Type} {f : List Effect → List α} (hf : ∀ log log', f (log ++ log') = f log ++ f log')
    {q : Word} {lk : Link} {j : Nat} {o : Outcome} {x : α} (hx : x ∈ f ((s.served lk j o).log q)) :
    x ∈ f (s.log q) ∨ q = lk.server ∧ x ∈ f o.effects := by
  by_cases hq : q = lk.server
  · subst hq
    rw [log_served, hf, List.mem_append] at hx
    exact hx.imp_right fun hx => ⟨rfl, hx⟩
  · rw [log_served_of_ne hq] at hx
    exact .inl hx

theorem Le.served (s : Sys) (lk : Link) (j : Nat) (o : Outcome) : s.Le (s.served lk j o) := by
  refine ⟨fun q => ?_, fun _ => List.prefix_refl _, fun _ h => h, fun _ h => h⟩
  by_cases hq : q = lk.server
  · subst hq; rw [log_served]; exact List.prefix_append _ _
  · rw [log_served_of_ne hq]

end Sys

section
variable {cfg : Config} {s s' : Sys} {l : Label}

theorem Step.le (h : Step cfg s l s') : s.Le s' := by
  cases h with
  | launch hid ht => exact .of_thread rfl rfl rfl fun u hu => by simp [ht] at hu
  | lock ht => exact .of_evolves ht (Sender.evolves_setPc _ _) rfl rfl rfl
  | @send tid t lk l buf ht =>
    have hle : s.Le { s with senders := Function.update s.senders tid (some (t.setPc (.recv l))) } :=
      .of_evolves ht (Sender.evolves_setPc _ _) rfl rfl rfl
    exact hle.trans (.addRequest _ lk buf)
  | timeout ht hlk ht' => exact .of_evolves ht (Sender.evolves_of_afterReceive ht') rfl rfl rfl
  | receive ht hlk ha ht' => exact .of_evolves ht (Sender.evolves_of_afterReceive ht') rfl rfl rfl
  | serve hbuf hid hl => exact Sys.Le.served _ _ _ _

end

namespace Sys

variable {cfg : Config} {s s' : Sys} {l : Label} {tid : Nat} {t t' : Sender} {lk : Link}

/-! ### The invariant -/

inductive Request (cfg : Config) (s : Sys) (lk : Link) : Buf → Prop
  | data {m : DataMessage} (hm : s.Launched m) (hs : m.sender = lk.client) :
      Request cfg s lk (sendDataMsg (cfg.host lk.client) m)
  | seq {m : SeqMessage} (hm : s.Decided m) (hs : m.sender = lk.client) :
      Request cfg s lk (sendSeqMsg (cfg.host lk.client) m)

inductive Answered (cfg : Config) (s : Sys) (lk : Link) : Buf → Buf → Prop
  | data {m : DataMessage} {a : AckMessage} (hm : s.Launched m) (hs : m.sender = lk.client)
      (ha : a ∈ acks (s.log lk.server)) (hk : a.key = m.key) :
      Answered cfg s lk (sendDataMsg (cfg.host lk.client) m) (sendAckMsg (cfg.host lk.server) a)
  | seq {m : SeqMessage} (hm : s.Decided m) (hs : m.sender = lk.client)
      (hh : HandledSeq (s.log lk.server) m.key) :
      Answered cfg s lk (sendSeqMsg (cfg.host lk.client) m)
        (sendSeqAckMsg (cfg.host lk.server) { sender := m.sender, msgId := m.msgId })

theorem Request.mono (hle : s.Le s') {b : Buf} (h : s.Request cfg lk b) : s'.Request cfg lk b := by
  cases h with
  | data hm hs => exact .data (hle.launched _ hm) hs
  | seq hm hs => exact .seq (hle.decided _ hm) hs

theorem Answered.mono (hle : s.Le s') {b b' : Buf} (h : s.Answered cfg lk b b') : s'.Answered cfg lk b b' := by
  cases h with
  | data hm hs ha hk =>
    obtain ⟨log', hlog'⟩ := hle.log lk.server
    exact .data (hle.launched _ hm) hs (by rw [← hlog']; simp [ha]) hk
  | seq hm hs hh => exact .seq (hle.decided _ hm) hs (hle.handledSeq hh)

structure Inv (cfg : Config) (s : Sys) : Prop where
  server : ∀ q, q.toNat < cfg.n → (s.servers q).Inv cfg q
  unique : ∀ tid tid' t t', s.senders tid = some t → s.senders tid' = some t' → t.key = t'.key → tid = tid'
  thread : ∀ tid t, s.senders tid = some t → t.id.toNat < cfg.n ∧ t.Unlimited ∧ t.Progress cfg s.log
  request : ∀ lk, ∀ b ∈ s.requests lk, lk.server.toNat < cfg.n ∧ s.Request cfg lk b
  /-- On a link the data messages of a thread come before its sequence messages. -/
  order : ∀ lk, (s.requests lk).Pairwise fun b b' => ∀ m m', b = sendSeqMsg (cfg.host lk.client) m →
    b' = sendDataMsg (cfg.host lk.client) m' → m.key ≠ m'.key
  answer : ∀ lk, ∀ a ∈ s.answers lk, ∃ b, (s.requests lk)[a.request]? = some b ∧ s.Answered cfg lk b a.buf
  handledData : ∀ q, q.toNat < cfg.n → ∀ k ∈ dataKeys (s.log q), ∃ m, s.Launched m ∧ m.key = k ∧
    sendDataMsg (cfg.host m.sender) m ∈ s.requests ⟨m.sender, q⟩
  handledSeq : ∀ q, q.toNat < cfg.n → ∀ m ∈ finals (s.log q), s.Decided m ∧
    sendSeqMsg (cfg.host m.sender) m ∈ s.requests ⟨m.sender, q⟩

theorem inv_init (cfg : Config) : (init cfg).Inv cfg where
  server q _ := Server.inv_init cfg q
  unique tid tid' t t' ht := by simp [init] at ht
  thread tid t ht := by simp [init] at ht
  request lk b hb := by simp [init] at hb
  order lk := List.Pairwise.nil
  answer lk a ha := by simp [init] at ha
  handledData q _ k hk := by simp [init, Sys.log, dataKeys] at hk
  handledSeq q _ m hm := by simp [init, Sys.log, finals] at hm

namespace Inv

theorem thread_unique (h : s.Inv cfg) {tid' : Nat} (ht : s.senders tid = some t)
    (ht' : s.senders tid' = some t') (hk : t.key = t'.key) : t = t' := by
  obtain rfl := h.unique tid tid' t t' ht ht' hk
  exact Option.some.inj (ht.symm.trans ht')

theorem decision (h : s.Inv cfg) {m : SeqMessage} (hm : s.Decided m) : Decision cfg s.log m := by
  obtain ⟨tid, t, ht, hdec⟩ := hm
  exact ((h.thread tid t ht).2.2.decision hdec).2

theorem decided_eq (h : s.Inv cfg) {m : SeqMessage} (hm : s.Decided m) (ht : s.senders tid = some t)
    (hk : m.key = t.key) : t.decided = some m := by
  obtain ⟨tid', t', ht', hdec⟩ := hm
  obtain rfl : t = t' := h.thread_unique ht ht' (hk.symm.trans ((h.thread tid' t' ht').2.2.decision hdec).1)
  exact hdec

theorem decided_unique (h : s.Inv cfg) {m m' : SeqMessage} (hm : s.Decided m) (hm' : s.Decided m')
    (hk : m.key = m'.key) : m = m' := by
  obtain ⟨tid, t, ht, hdec⟩ := hm
  have hkt := ((h.thread tid t ht).2.2.decision hdec).1
  exact Option.some.inj (hdec.symm.trans (h.decided_eq hm' ht (hk.symm.trans hkt)))

/-- The number in an ack for a thread that has not decided is a first proposal. -/
theorem firstProposal_of_ack (h : s.Inv cfg) (ht : s.senders tid = some t) (hd : t.decided = none) {q : Word}
    (hq : q.toNat < cfg.n) {a : AckMessage} (ha : a ∈ acks (s.log q)) (hk : a.key = t.key) :
    firstProposal (s.log q) t.key = some a.proposedSeq := by
  have hns : ¬ HandledSeq (s.log q) t.key := by
    rintro ⟨m, hm, hmk⟩
    have hdec := h.decided_eq (h.handledSeq q hq m hm).1 ht hmk
    simp [hd] at hdec
  -- the number of every ack is that of the pending entry, which is the first proposal
  have hsv := h.server q hq
  have hpend := hsv.first t.key hns a.proposedSeq (mem_proposals.2 ⟨a, ha, hk, rfl⟩)
  obtain ⟨x, hx, hpend'⟩ := hsv.pending_eq_firstProposal hns (hk ▸ (hsv.ack a ha).2)
  obtain rfl : a.proposedSeq = x := by simpa using hpend.symm.trans hpend'
  exact hx

/-! ### Steps of the threads -/

theorem setThread (h : s.Inv cfg) (hle : s.Le s') (hsv : s'.servers = s.servers) (hreq : s'.requests = s.requests)
    (hans : s'.answers = s.answers) (hse : s'.senders = Function.update s.senders tid (some t'))
    (hkey : ∀ i u, s.senders i = some u → u.key = t'.key → i = tid)
    (hid : t'.id.toNat < cfg.n) (hu : t'.Unlimited) (hp : t'.Progress cfg s.log) : s'.Inv cfg := by
  have hlog : s'.log = s.log := by funext q; rw [Sys.log, Sys.log, hsv]
  have hthread : ∀ i u, s'.senders i = some u → i = tid ∧ u = t' ∨ s.senders i = some u :=
    fun i u hiu => eq_or_eq_some_of_update (hse ▸ hiu)
  refine ⟨?_, ?_, ?_, ?_, ?_, ?_, ?_, ?_⟩
  · rw [hsv]; exact h.server
  · intro i i' u u' hi hi' hk
    rcases hthread i u hi with ⟨rfl, rfl⟩ | hi <;> rcases hthread i' u' hi' with ⟨rfl, rfl⟩ | hi'
    · rfl
    · exact (hkey i' u' hi' hk.symm).symm
    · exact hkey i u hi hk
    · exact h.unique i i' u u' hi hi' hk
  · intro i u hi
    rw [hlog]
    rcases hthread i u hi with ⟨rfl, rfl⟩ | hi
    · exact ⟨hid, hu, hp⟩
    · exact h.thread i u hi
  · intro lk b hb
    rw [hreq] at hb
    exact ⟨(h.request lk b hb).1, (h.request lk b hb).2.mono hle⟩
  · rw [hreq]; exact h.order
  · intro lk a ha
    rw [hans] at ha
    rw [hreq]
    obtain ⟨b, hb, hab⟩ := h.answer lk a ha
    exact ⟨b, hb, hab.mono hle⟩
  · intro q hq k hk
    rw [hlog] at hk
    rw [hreq]
    obtain ⟨m, hm, hrest⟩ := h.handledData q hq k hk
    exact ⟨m, hle.launched m hm, hrest⟩
  · intro q hq m hm
    rw [hlog] at hm
    rw [hreq]
    exact ⟨hle.decided m (h.handledSeq q hq m hm).1, (h.handledSeq q hq m hm).2⟩

/-- `setThread` for a thread that goes on. -/
theorem evolve (h : s.Inv cfg) (hle : s.Le s') (ht : s.senders tid = some t) (hev : t.Evolves t')
    (hsv : s'.servers = s.servers) (hreq : s'.requests = s.requests) (hans : s'.answers = s.answers)
    (hse : s'.senders = Function.update s.senders tid (some t')) (hu : t'.Unlimited) (hp : t'.Progress cfg s.log) :
    s'.Inv cfg := by
  refine h.setThread hle hsv hreq hans hse (fun i u hi hk => ?_) (hev.id ▸ (h.thread tid t ht).1) hu hp
  exact h.unique i tid u t hi ht (hk.trans hev.key)

theorem addRequest (h : s.Inv cfg) {b : Buf} (hlk : lk.server.toNat < cfg.n) (hb : s.Request cfg lk b)
    (hord : ∀ m m', sendSeqMsg (cfg.host lk.client) m ∈ s.requests lk → b = sendDataMsg (cfg.host lk.client) m' →
      m.key ≠ m'.key) :
    Inv cfg { s with requests := Function.update s.requests lk (s.requests lk ++ [b]) } := by
  have hle := Le.addRequest s lk b
  refine ⟨h.server, h.unique, h.thread, fun lk' b' hb' => ?_, fun lk' => ?_, fun lk' a ha => ?_,
    fun q hq k hk => ?_, fun q hq m hm => ?_⟩
  · rcases mem_update_append hb' with hb' | ⟨rfl, hnew⟩
    · exact ⟨(h.request lk' b' hb').1, (h.request lk' b' hb').2.mono hle⟩
    · obtain rfl := List.mem_singleton.1 hnew
      exact ⟨hlk, hb.mono hle⟩
  · by_cases hl : lk' = lk
    · subst hl
      simp only [Function.update_self]
      refine List.pairwise_append.2 ⟨h.order lk', List.pairwise_singleton _ _, ?_⟩
      rintro c hc c' hc' m m' rfl rfl
      exact hord m m' hc (List.mem_singleton.1 hc').symm
    · simp only [Function.update_of_ne hl]
      exact h.order lk'
  · obtain ⟨c, hc, hac⟩ := h.answer lk' a ha
    exact ⟨c, hle.getElem?_requests hc, hac.mono hle⟩
  · obtain ⟨m, hm, hmk, hreq⟩ := h.handledData q hq k hk
    exact ⟨m, hm, hmk, hle.mem_requests hreq⟩
  · exact ⟨(h.handledSeq q hq m hm).1, hle.mem_requests (h.handledSeq q hq m hm).2⟩

/-- What a thread sends. A thread in the data phase has sent no sequence message. -/
theorem request_of_datagram (h : s.Inv cfg) (ht : s.senders tid = some t) (hlk : t.link = some lk) {b : Buf}
    (hb : t.datagram (cfg.host t.id) = some b) :
    lk.server.toNat < cfg.n ∧ s.Request cfg lk b ∧ ∀ m m', sendSeqMsg (cfg.host lk.client) m ∈ s.requests lk →
      b = sendDataMsg (cfg.host lk.client) m' → m.key ≠ m'.key := by
  obtain ⟨hid, -, hp⟩ := h.thread tid t ht
  obtain ⟨q, hq, rfl⟩ := Option.map_eq_some_iff.1 hlk
  cases hph : t.phase with
  | data pid seqs pc =>
    obtain rfl : pid = q := by simpa [Sender.target, hph] using hq
    obtain rfl : sendDataMsg (cfg.host t.id) t.dataMsg = b := by simpa [Sender.datagram, hph] using hb
    simp only [Sender.Progress, hph] at hp
    refine ⟨hp.1, .data ⟨tid, t, ht, rfl⟩ rfl, fun m m' hm heq hk => ?_⟩
    have hkt : m'.key = t.key := (congrArg DataMessage.key (sendDataMsg_inj heq)).symm
    generalize hbuf : sendSeqMsg (cfg.host t.id) m = buf at hm
    cases (h.request _ _ hm).2 with
    | data => exact sendSeqMsg_ne_sendDataMsg _ _ hbuf
    | @seq m'' hm'' =>
      have hk'' : m''.key = m.key := (congrArg SeqMessage.key (sendSeqMsg_inj hbuf)).symm
      have hdec := h.decided_eq hm'' ht (hk''.trans (hk.trans hkt))
      simp [Sender.decided, hph] at hdec
  | seq pid m pc =>
    obtain rfl : pid = q := by simpa [Sender.target, hph] using hq
    obtain rfl : sendSeqMsg (cfg.host t.id) m = b := by simpa [Sender.datagram, hph] using hb
    simp only [Sender.Progress, hph] at hp
    refine ⟨hp.1, .seq ⟨tid, t, ht, by simp [Sender.decided, hph]⟩ (congrArg PendingMessageKey.sender hp.2.1), ?_⟩
    exact fun _ m' _ heq => absurd heq (sendSeqMsg_ne_sendDataMsg m m')
  | finished m => simp [Sender.datagram, hph] at hb

/-- The number of an accepted ack is the first proposal of the process it comes from. -/
theorem firstProposal_of_answer (h : s.Inv cfg) (ht : s.senders tid = some t) (hd : t.decided = none)
    {ans : Answer} {q : Word} {hst : HostOrder} (hans : ans ∈ s.answers ⟨t.id, q⟩) {a : AckMessage}
    (ha : ackMsgFromBuf hst ans.buf = some a) (hv : validAckMsg a t.id t.msgId q) :
    firstProposal (s.log q) t.key = some a.proposedSeq := by
  obtain ⟨b, hb, hab⟩ := h.answer _ _ hans
  have hq := (h.request _ b (List.mem_of_getElem? hb)).1
  obtain ⟨-, hsender, hmsgId, -⟩ := validAckMsg_iff.1 hv
  generalize hbuf : ans.buf = buf at hab ha
  cases hab with
  | @data m a' hm hs ha' hk =>
    rw [ackMsgFromBuf_sendAckMsg, Option.some.injEq] at ha
    subst ha
    have hkt : a'.key = t.key := by simp only [AckMessage.key, Sender.key, ← hsender, ← hmsgId]
    exact h.firstProposal_of_ack (a := a') ht hd hq ha' hkt
  | seq => simp at ha

/-- A process whose sequence ack is accepted has handled the sequence message. -/
theorem handledSeq_of_answer (h : s.Inv cfg) {m : SeqMessage} {ans : Answer} {hst : HostOrder}
    (hans : ans ∈ s.answers lk) {a : SeqAckMessage} (ha : seqAckMsgFromBuf hst ans.buf = some a)
    (hv : validSeqAckMsg a m) : HandledSeq (s.log lk.server) m.key := by
  obtain ⟨b, hb, hab⟩ := h.answer _ _ hans
  obtain ⟨-, hsender, hmsgId⟩ := validSeqAckMsg_iff.1 hv
  generalize hbuf : ans.buf = buf at hab ha
  cases hab with
  | data => simp at ha
  | @seq m' hm hs hh =>
    rw [seqAckMsgFromBuf_sendSeqAckMsg, Option.some.injEq] at ha
    subst ha
    have hk : m'.key = m.key := by simp only [SeqMessage.key, ← hsender, ← hmsgId]
    exact hk ▸ hh

theorem progress_resumed (h : s.Inv cfg) (ht : s.senders tid = some t) {q : Word} (hlk : t.link = some ⟨t.id, q⟩)
    {r : Received} {hst : HostOrder} (hr : ∀ buf, r = .datagram buf → ∃ ans ∈ s.answers ⟨t.id, q⟩, ans.buf = buf)
    (hres : t.Resumed hst cfg.n r t') : t'.Unlimited ∧ t'.Progress cfg s.log := by
  obtain ⟨hid, hu, hp⟩ := h.thread tid t ht
  cases hres with
  | again hin hl hr => exact ⟨.setPc fun l' hl' => by simp_all, hp.setPc _⟩
  | @data pid seqs pc buf a hph ha hv =>
    refine ⟨Sender.unlimited_dataLoop _ _ _ _, ?_⟩
    obtain ⟨ans, hans, rfl⟩ := hr buf rfl
    obtain rfl : pid = q := by simpa [Sender.link, Sender.target, hph] using hlk
    have hd : t.decided = none := by simp [Sender.decided, hph]
    simp only [Sender.Progress, hph] at hp
    obtain ⟨hpid, hlen, hseqs⟩ := hp
    have hn : pid.toNat + 1 < 2 ^ 32 := Nat.lt_of_le_of_lt hpid cfg.n_lt
    refine Sender.progress_dataLoop (Nat.zero_lt_of_lt hpid) (by simpa using hlen) (toNat_add_one hn ▸ hpid) fun i hi => ?_
    rcases (lt_add_one_iff hn).1 hi with hi | rfl
    · obtain ⟨x, hx, hget⟩ := hseqs i hi
      refine ⟨x, hx, ?_⟩
      rw [List.getElem?_set_ne (by have := UInt32.lt_iff_toNat_lt.1 hi; omega), hget]
    · refine ⟨_, h.firstProposal_of_answer ht hd hans ha hv, ?_⟩
      rw [List.getElem?_set_self (by omega)]
  | @seq pid m pc buf a hph ha hv =>
    refine ⟨Sender.unlimited_seqLoop _ _ _ _, ?_⟩
    obtain ⟨ans, hans, rfl⟩ := hr buf rfl
    obtain rfl : pid = q := by simpa [Sender.link, Sender.target, hph] using hlk
    simp only [Sender.Progress, hph] at hp
    obtain ⟨hpid, hk, hdec, hseqs⟩ := hp
    have hn : pid.toNat + 1 < 2 ^ 32 := Nat.lt_of_le_of_lt hpid cfg.n_lt
    refine Sender.progress_seqLoop hk hdec (toNat_add_one hn ▸ hpid) fun i hi => ?_
    rcases (lt_add_one_iff hn).1 hi with hi | rfl
    · exact hseqs i hi
    · exact hk ▸ h.handledSeq_of_answer hans ha hv

/-! ### Steps of the servers -/

theorem served (h : s.Inv cfg) {j : Nat} {b : Buf} {o : Outcome} (hreq : (s.requests lk)[j]? = some b)
    (hsv : ((s.servers lk.server).after o).Inv cfg lk.server)
    (hans : ∀ b' ∈ o.datagrams, (s.served lk j o).Answered cfg lk b b')
    (hdata : ∀ k ∈ dataKeys o.effects, ∃ m, s.Launched m ∧ m.key = k ∧
      sendDataMsg (cfg.host m.sender) m ∈ s.requests ⟨m.sender, lk.server⟩)
    (hseq : ∀ m ∈ finals o.effects, s.Decided m ∧
      sendSeqMsg (cfg.host m.sender) m ∈ s.requests ⟨m.sender, lk.server⟩) :
    (s.served lk j o).Inv cfg := by
  have hle := Le.served s lk j o
  refine ⟨fun q hq => ?_, h.unique, fun tid t ht => ?_, fun lk' b' hb' => ?_, h.order, fun lk' a ha => ?_,
    fun q hq k hk => ?_, fun q hq m hm => ?_⟩
  · by_cases hql : q = lk.server
    · subst hql; rw [servers_served]; exact hsv
    · rw [servers_served_of_ne hql]; exact h.server q hq
  · obtain ⟨hid, hu, hp⟩ := h.thread tid t ht
    exact ⟨hid, hu, hp.mono hle.log⟩
  · exact ⟨(h.request lk' b' hb').1, (h.request lk' b' hb').2.mono hle⟩
  · rcases mem_update_append ha with ha | ⟨rfl, hnew⟩
    · obtain ⟨c, hc, hac⟩ := h.answer lk' a ha
      exact ⟨c, hc, hac.mono hle⟩
    · obtain ⟨b', hb', rfl⟩ := List.mem_map.1 hnew
      exact ⟨b, hreq, hans b' hb'⟩
  · rcases mem_log_served dataKeys_append hk with hk | ⟨rfl, hnew⟩
    · exact h.handledData q hq k hk
    · exact hdata k hnew
  · rcases mem_log_served finals_append hm with hm | ⟨rfl, hnew⟩
    · exact h.handledSeq q hq m hm
    · exact hseq m hnew

end Inv

/-- The server of `lk` handles request number `j`: a data message or a sequence message of a thread of
`lk.client`. -/
inductive Serves (cfg : Config) (s : Sys) (lk : Link) (j : Nat) (junk : Word) : Sys → Prop
  | data {m : DataMessage} (hm : s.Launched m) (hs : m.sender = lk.client)
      (hreq : (s.requests lk)[j]? = some (sendDataMsg (cfg.host lk.client) m)) :
      Serves cfg s lk j junk (s.served lk j ((s.servers lk.server).process.acceptData { m with type := kDataMessageType }))
  | seq {m : SeqMessage} (hm : s.Decided m) (hs : m.sender = lk.client)
      (hreq : (s.requests lk)[j]? = some (sendSeqMsg (cfg.host lk.client) m)) :
      Serves cfg s lk j junk
        (s.served lk j ((s.servers lk.server).process.acceptSeq { m with type := kSeqMessageType } junk))

namespace Inv

theorem serves (h : s.Inv cfg) {j : Nat} {b : Buf} (hb : (s.requests lk)[j]? = some b) (junk : Word) :
    s.Serves cfg lk j junk (s.served lk j ((s.servers lk.server).process.onReceive b junk)) := by
  obtain ⟨hq, hreq⟩ := h.request lk b (List.mem_of_getElem? hb)
  have hcount := (h.server _ hq).count_eq
  cases hreq with
  | data hm hs =>
    obtain ⟨tid, t, ht, rfl⟩ := hm
    rw [Process.onReceive_sendDataMsg _ _ (by rw [hcount]; exact (h.thread tid t ht).1)]
    exact .data ⟨tid, t, ht, rfl⟩ hs hb
  | @seq m hm hs =>
    have hdec := h.decision hm
    obtain ⟨tid, t, ht, hd⟩ := hm
    have hid : m.sender = t.id := congrArg PendingMessageKey.sender ((h.thread tid t ht).2.2.decision hd).1
    rw [Process.onReceive_sendSeqMsg _ _ (by rw [hcount, hid]; exact (h.thread tid t ht).1)
      (by rw [hcount]; exact hdec.proposer_lt)]
    exact .seq ⟨tid, t, ht, hd⟩ hs hb

theorem of_serves (h : s.Inv cfg) {j : Nat} {junk : Word} (hq : lk.server.toNat < cfg.n)
    (hs : s.Serves cfg lk j junk s') : s'.Inv cfg := by
  have hsv := h.server _ hq
  obtain ⟨client, server⟩ := lk
  cases hs with
  | @data m hm hs hreq =>
    obtain rfl : m.sender = client := hs
    obtain ⟨a, heff, hk, -, hdg⟩ := hsv.answer_acceptData { m with type := kDataMessageType }
    refine h.served hreq (hsv.acceptData _) (fun b' hb' => ?_) (fun k hk' => ?_) (fun m' hm' => ?_)
    · obtain rfl := List.mem_singleton.1 (hdg ▸ hb')
      exact .data hm rfl (by rw [log_served, heff]; simp) hk
    · rw [heff, dataKeys_data, List.mem_singleton] at hk'
      exact ⟨m, hm, hk'.symm, List.mem_of_getElem? hreq⟩
    · rw [heff, finals_data] at hm'
      simp at hm'
  | @seq m hm hs hreq =>
    obtain rfl : m.sender = client := hs
    have hunt : ({ m with type := kSeqMessageType } : SeqMessage).untyped = m := (h.decision hm).untyped
    refine h.served hreq (hsv.acceptSeq _ _) (fun b' hb' => ?_) (fun k hk' => ?_) (fun m' hm' => ?_)
    · obtain rfl := List.mem_singleton.1 (hsv.answer_acceptSeq _ _ ▸ hb')
      refine .seq hm rfl ?_
      rw [log_served]
      exact ⟨m, by simp [Process.acceptSeq, hunt], rfl⟩
    · simp [Process.acceptSeq] at hk'
    · obtain rfl : m' = m := by simpa [Process.acceptSeq, hunt] using hm'
      exact ⟨hm, List.mem_of_getElem? hreq⟩

/-! ### Runs -/

theorem step (h : s.Inv cfg) (hd : FreshId s l) (hs : Step cfg s l s') : s'.Inv cfg := by
  have hle := hs.le
  cases hs with
  | @launch tid id msgId data hid ht =>
    refine h.setThread hle rfl rfl rfl rfl (fun i u hi hk => absurd hk (hd i u hi)) hid
      (Sender.unlimited_dataLoop _ _ _ _) (Sender.progress_launch (Nat.zero_lt_of_lt hid))
  | lock ht hlk hpc hm =>
    refine h.evolve hle ht (Sender.evolves_setPc _ _) rfl rfl rfl rfl (.setPc fun l hl => ?_)
      ((h.thread _ _ ht).2.2.setPc _)
    obtain rfl : SendLoop.start kUnlimitedAttempts = l := by simpa using hl
    exact SendLoop.unlimited_start
  | @send tid t lk l buf ht hlk hbuf hpc =>
    obtain ⟨hid, hu, hp⟩ := h.thread tid t ht
    obtain ⟨hlk', hreq, hord⟩ := h.request_of_datagram ht hlk hbuf
    have hev := Sender.evolves_setPc t (.recv l)
    have hle₁ : s.Le { s with senders := Function.update s.senders tid (some (t.setPc (.recv l))) } :=
      .of_evolves ht hev rfl rfl rfl
    have h₁ := h.evolve hle₁ ht hev rfl rfl rfl rfl (.setPc fun l' hl' => hu l' (.inl ?_)) (hp.setPc _)
    · exact h₁.addRequest hlk' (hreq.mono hle₁) hord
    · obtain rfl : l = l' := by simpa using hl'
      exact hpc
  | @timeout tid t t' lk ht hlk ht' =>
    have hres := Sender.resumed_of_afterReceive (h.thread tid t ht).2.1 ht'
    obtain ⟨q, -, rfl⟩ := Option.map_eq_some_iff.1 hlk
    obtain ⟨hu', hp'⟩ := h.progress_resumed ht hlk (by simp) hres
    exact h.evolve hle ht (Sender.evolves_of_afterReceive ht') rfl rfl rfl rfl hu' hp'
  | @receive tid j t t' lk a ht hlk ha ht' =>
    have hres := Sender.resumed_of_afterReceive (h.thread tid t ht).2.1 ht'
    obtain ⟨q, -, rfl⟩ := Option.map_eq_some_iff.1 hlk
    obtain ⟨hu', hp'⟩ := h.progress_resumed ht hlk
      (fun buf hb => ⟨a, List.mem_of_getElem? ha, Received.datagram.inj hb⟩) hres
    exact h.evolve hle ht (Sender.evolves_of_afterReceive ht') rfl rfl rfl rfl hu' hp'
  | serve hbuf hid hl => exact h.of_serves hid (h.serves hbuf _)

theorem of_along {ls : List Label} (hd : cfg.lts.Along FreshId ls) (h : cfg.lts.Run ls s) : s.Inv cfg := by
  refine hd.induction (P := fun _ s => s.Inv cfg) (inv_init cfg) ?_ h
  intro ls s l s' _ _ hinv hl hs
  exact hinv.step hl (step_iff.1 hs)

theorem of_run {ls : List Label} (hd : DistinctIds ls) (h : cfg.lts.Run ls s) : s.Inv cfg := of_along hd.along h

/-- The rule for further invariants, in the runs whose steps meet the guard `G`. -/
theorem induction {P : Sys → Prop} {G : Sys → Label → Prop} {ls : List Label} (hinit : P (init cfg))
    (hstep : ∀ s l s', s.Inv cfg → P s → G s l → Step cfg s l s' → P s') (hd : DistinctIds ls)
    (hG : cfg.lts.Along G ls) (h : cfg.lts.Run ls s) : P s := by
  refine (hd.along.and hG).induction (P := fun _ s => P s) hinit ?_ h
  intro ls s l s' hrun hG' hP hl hs
  exact hstep s l s' (of_along (hG'.mono fun _ _ h => h.1) hrun) hP hl.2 (step_iff.1 hs)

/-- The rule from a state that the run has passed. -/
theorem induction_from {P : Sys → Prop} {G : Sys → Label → Prop} {ls ls' : List Label} (hrun : cfg.lts.Run ls s)
    (hP : P s) (hstep : ∀ s l s', s.Inv cfg → P s → G s l → Step cfg s l s' → P s') (hd : DistinctIds (ls ++ ls'))
    (hG : cfg.lts.Along G (ls ++ ls')) (h : cfg.lts.Run (ls ++ ls') s') : P s' := by
  refine Lts.Along.induction_from hrun hP ?_ (hd.along.and hG) h
  intro ls s l s' hrun hG' hP hl hs
  exact hstep s l s' (of_along (hG'.mono fun _ _ h => h.1) hrun) hP hl.2 (step_iff.1 hs)

end Inv

/-! ### One server -/

/-- What a step does at server `q`: nothing, or it handles a data message or a sequence message of a
thread. Facts about single servers are carried through runs with it. -/
inductive Handles (cfg : Config) (s : Sys) (l : Label) (q : Word) : Server → Prop
  | idle : Handles cfg s l q (s.servers q)
  | data {lk : Link} {j : Nat} {junk : Word} {m : DataMessage} (hl : l = .serve lk j junk) (hq : lk.server = q)
      (hm : s.Launched m) (hs : m.sender = lk.client)
      (hreq : (s.requests lk)[j]? = some (sendDataMsg (cfg.host lk.client) m)) :
      Handles cfg s l q
        ((s.servers q).after ((s.servers q).process.acceptData { m with type := kDataMessageType }))
  | seq {lk : Link} {j : Nat} {junk : Word} {m : SeqMessage} (hl : l = .serve lk j junk) (hq : lk.server = q)
      (hm : s.Decided m) (hs : m.sender = lk.client)
      (hreq : (s.requests lk)[j]? = some (sendSeqMsg (cfg.host lk.client) m)) :
      Handles cfg s l q
        ((s.servers q).after ((s.servers q).process.acceptSeq { m with type := kSeqMessageType } junk))

theorem Inv.handles (h : s.Inv cfg) (hs : Step cfg s l s') (q : Word) : s.Handles cfg l q (s'.servers q) := by
  cases hs with
  | @serve lk j junk b hb hid hl =>
    by_cases hq : q = lk.server
    · subst hq
      have hserves := h.serves hb junk
      generalize s.served lk j _ = s' at hserves ⊢
      cases hserves with
      | data hm hs hreq => rw [servers_served]; exact .data rfl rfl hm hs hreq
      | seq hm hs hreq => rw [servers_served]; exact .seq rfl rfl hm hs hreq
    · rw [servers_served_of_ne hq]; exact .idle
  | _ => exact .idle

end Sys

end IsisMulticast

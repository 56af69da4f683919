import IsisMulticast.Callbacks
import IsisMulticast.Net
import IsisMulticast.Sessions
import Mathlib.Data.List.AList
import Mathlib.Data.List.Nodup

/-!
# The clients of a process (`process.cc`: `ClientsForProcessList`, `process.h`: `ClientForId`)

A process holds one client for each address of its process list, in a map from addresses, and finds the client for a
process id through the address on that line. Lines that repeat an address share the client that was made for the
first of them (`clientForId_eq`). `Routing` adds to a process list which server the datagrams for an
address reach, from the start of the run to its end; `Routing.lts` is the system in which the threads go through the
map, `Routing.callbacks` the same for the system of `Callbacks`.

Without repeated addresses it is the system of the other modules, where a client is named by two process ids
(`distinct_addresses_routed`). With a repeated address the data messages for one of the processes reach another one,
whose acks are refused for ever, so that no message is ever delivered (`repeated_address_stalls`).
-/

namespace IsisMulticast
open Lib Net

/-- A client stands for the number of the line it was made for. -/
abbrev UdpClientMap := AList (fun _ : Address => Nat)

/-- `emplace` keeps a client that is there. -/
def UdpClientMap.emplace (clients : UdpClientMap) (addr : Address) (client : Nat) : UdpClientMap :=
  if addr ∈ clients then clients else clients.insert addr client

def clientsForProcessList (processes : List Address) : UdpClientMap :=
  processes.zipIdx.foldl (fun clients line => clients.emplace line.1 line.2) ∅

/-- `none` stands for the exceptions of the two `at`. -/
def clientForId (processes : List Address) (pid : Nat) : Option Nat := do
  let addr ← processes[pid]?
  (clientsForProcessList processes).lookup addr

theorem UdpClientMap.lookup_emplace (clients : UdpClientMap) (addr a : Address) (client : Nat) :
    (clients.emplace addr client).lookup a = (clients.lookup a).or (if a = addr then some client else none) := by
  unfold emplace
  by_cases hmem : addr ∈ clients
  · rw [if_pos hmem]
    by_cases ha : a = addr
    · subst ha
      obtain ⟨c, hc⟩ := Option.isSome_iff_exists.1 (AList.lookup_isSome.2 hmem)
      simp [hc]
    · simp [ha]
  · rw [if_neg hmem]
    by_cases ha : a = addr
    · subst ha
      simp [AList.lookup_eq_none.2 hmem]
    · simp [ha, AList.lookup_insert_ne ha]

/-- The map holds the client of the first line with the address. -/
theorem lookup_clientsForProcessList (processes : List Address) (a : Address) :
    (clientsForProcessList processes).lookup a = if a ∈ processes then some (processes.idxOf a) else none := by
  induction processes using List.reverseRecOn with
  | nil => simp [clientsForProcessList]
  | append_singleton processes addr ih =>
    have hfold : clientsForProcessList (processes ++ [addr]) =
        (clientsForProcessList processes).emplace addr processes.length := by
      simp [clientsForProcessList, List.zipIdx_append]
    rw [hfold, UdpClientMap.lookup_emplace, ih, List.idxOf_append]
    by_cases hmem : a ∈ processes
    · simp [hmem]
    · by_cases ha : a = addr
      · subst ha
        simp [hmem]
      · simp [hmem, ha]

theorem clientForId_eq (processes : List Address) (pid : Nat) :
    clientForId processes pid = (processes[pid]?).map fun addr => processes.idxOf addr := by
  unfold clientForId
  cases hget : processes[pid]? with
  | none => rfl
  | some addr =>
    have hmem : addr ∈ processes := List.mem_of_getElem? hget
    simp [lookup_clientsForProcessList, hmem]

/-! ### The system with the map -/

/-- A process list for the processes of `cfg` and the server that the datagrams for each address reach, which is that
of a process the list gives this address. The sockets are made with `SO_REUSEADDR`, so several processes can bind one
address, and the last of them to do so gets the datagrams: `bound` is the same for a whole run, which starts when all
processes have bound their addresses. -/
structure Routing (cfg : Config) where
  processes : List Address
  length_eq : processes.length = cfg.n
  bound : Address → Word
  bound_addr : ∀ a ∈ processes, processes[(bound a).toNat]? = some a

namespace Routing

variable {cfg : Config} (r : Routing cfg)

/-- The server that the client for process `pid` reaches. -/
def route (pid : Word) : Option Word := do
  let client ← clientForId r.processes pid.toNat
  let addr ← r.processes[client]?
  some (r.bound addr)

def link (t : Sender) : Option Link := do
  let pid ← t.target
  let server ← r.route pid
  some ⟨t.id, server⟩

theorem route_eq (pid : Word) : r.route pid = (r.processes[pid.toNat]?).map r.bound := by
  rw [route, clientForId_eq]
  cases hget : r.processes[pid.toNat]? with
  | none => rfl
  | some addr =>
    have hmem : addr ∈ r.processes := List.mem_of_getElem? hget
    simp [List.getElem?_idxOf hmem]

theorem exists_route {pid : Word} (hpid : pid.toNat < cfg.n) :
    ∃ addr, r.processes[pid.toNat]? = some addr ∧ r.route pid = some (r.bound addr) := by
  have hlt : pid.toNat < r.processes.length := by
    rw [r.length_eq]
    exact hpid
  exact ⟨_, List.getElem?_eq_getElem hlt, by rw [route_eq, List.getElem?_eq_getElem hlt]; rfl⟩

end Routing

def Routing.lts {cfg : Config} (r : Routing cfg) : Lts Sys Label := ⟨.init cfg, Sys.stepOn cfg r.link⟩

def Routing.callbacks {cfg : Config} (r : Routing cfg) : Lts CallbackSys CallbackLabel :=
  ⟨.init cfg, CallbackSys.stepOn cfg r.link⟩

/-- Only the clients of the threads that exist matter. -/
theorem Sys.stepOn_congr {cfg : Config} {link link' : Sender → Option Link} {s : Sys}
    (h : ∀ tid t, s.senders tid = some t → link t = link' t) (l : Label) :
    s.stepOn cfg link l = s.stepOn cfg link' l := by
  cases l with
  | launch | serve => rfl
  | lock tid | send tid | timeout tid | receive tid lk j =>
    simp only [Sys.stepOn]
    cases ht : s.senders tid with
    | none => rfl
    | some t => simp [h tid t ht]

theorem CallbackSys.stepOn_congr {cfg : Config} {link link' : Sender → Option Link} {c : CallbackSys}
    (h : ∀ tid t, c.sys.senders tid = some t → link t = link' t) (l : CallbackLabel) :
    c.stepOn cfg link l = c.stepOn cfg link' l := by
  cases l with
  | thread l => simp only [CallbackSys.stepOn, Sys.stepOn_congr h]
  | enter | resume => rfl

variable {cfg : Config} {r : Routing cfg} {s s' : Sys} {l : Label} {ls : List Label}

/-- Without repeated addresses every client reaches the process it is for. -/
theorem Routing.route_of_nodup (hnodup : r.processes.Nodup) {pid : Word} (hpid : pid.toNat < cfg.n) :
    r.route pid = some pid := by
  obtain ⟨addr, haddr, hroute⟩ := r.exists_route hpid
  rw [hroute]
  obtain ⟨hlt, hget⟩ := List.getElem?_eq_some_iff.1 haddr
  obtain ⟨hlt', hget'⟩ := List.getElem?_eq_some_iff.1 (r.bound_addr addr (List.mem_of_getElem? haddr))
  have heq := (hnodup.getElem_inj_iff).1 (hget'.trans hget.symm)
  exact congrArg some (UInt32.toNat_inj.1 heq)

theorem Routing.link_of_nodup (hnodup : r.processes.Nodup) {t : Sender}
    (ht : ∀ pid, t.target = some pid → pid.toNat < cfg.n) : r.link t = t.link := by
  rw [Routing.link, Sender.link]
  cases htarget : t.target with
  | none => rfl
  | some pid => simp [Routing.route_of_nodup hnodup (ht pid htarget)]

theorem Routing.run_iff (hnodup : r.processes.Nodup) (ls : List Label) (s : Sys) :
    r.lts.Run ls s ↔ cfg.lts.Run ls s :=
  Lts.run_iff_of_step rfl fun _ _ l hrun =>
    Sys.stepOn_congr (fun tid t ht => r.link_of_nodup hnodup ((Sys.Locked.of_run hrun).thread tid t ht).2) l

theorem Routing.callbacks_run_iff (hnodup : r.processes.Nodup) (ls : List CallbackLabel) (c : CallbackSys) :
    r.callbacks.Run ls c ↔ cfg.callbacks.Run ls c := by
  refine Lts.run_iff_of_step rfl fun ls c l hrun => CallbackSys.stepOn_congr (fun tid t ht => ?_) l
  -- the threads are those of the completed state
  exact r.link_of_nodup hnodup ((Sys.Locked.of_run (run_completed hrun)).thread tid t ht).2

/-- The map from addresses does what a name by two process ids does: for a process list without repeated addresses
every client reaches the process it is for, and the runs are the same, with the same states. -/
theorem distinct_addresses_routed (hnodup : r.processes.Nodup) :
    (∀ q, q.toNat < cfg.n → r.route q = some q) ∧ ∀ ls s, r.lts.Run ls s ↔ cfg.lts.Run ls s :=
  ⟨fun _ hq => Routing.route_of_nodup hnodup hq, Routing.run_iff hnodup⟩

/-- Two processes on one host, at the ports 1234 and 1235. -/
def pairRouting : Routing pair where
  processes := [⟨['h'], 1234⟩, ⟨['h'], 1235⟩]
  length_eq := rfl
  bound a := if a.port = 1234 then 0 else 1
  bound_addr := by decide

theorem distinct_addresses_routed_pairRun : ∃ s, pairRouting.lts.Run pairRun s ∧
    deliveries (s.log 0) = [pairFirst, pairSecond] := by
  obtain ⟨s, hrun, hdel, -⟩ := exists_run_pairRun
  exact ⟨s, ((distinct_addresses_routed (r := pairRouting) (by decide)).2 pairRun s).2 hrun, hdel⟩

/-! ### Repeated addresses -/

/-- A repeated address leaves a process that no client reaches. -/
theorem Routing.exists_misrouted (hdup : ¬ r.processes.Nodup) :
    ∃ j : Word, j.toNat < cfg.n ∧ r.route j ≠ some j := by
  rw [List.nodup_iff_getElem?_ne_getElem?] at hdup
  push Not at hdup
  obtain ⟨i, k, hik, hk, heq⟩ := hdup
  rw [r.length_eq] at hk
  have hi : i < cfg.n := by omega
  have hi' : (UInt32.ofNat i).toNat < cfg.n := by rwa [cfg.toNat_ofNat hi]
  have hk' : (UInt32.ofNat k).toNat < cfg.n := by rwa [cfg.toNat_ofNat hk]
  obtain ⟨addr, haddr, hroute⟩ := r.exists_route hi'
  obtain ⟨addr', haddr', hroute'⟩ := r.exists_route hk'
  rw [cfg.toNat_ofNat hi] at haddr
  rw [cfg.toNat_ofNat hk] at haddr'
  obtain rfl : addr = addr' := Option.some.inj (haddr.symm.trans (heq.trans haddr'))
  by_cases hb : r.bound addr = UInt32.ofNat i
  · refine ⟨UInt32.ofNat k, hk', ?_⟩
    rw [hroute', hb]
    intro hik'
    have := congrArg UInt32.toNat (Option.some.inj hik')
    rw [cfg.toNat_ofNat hi, cfg.toNat_ofNat hk] at this
    omega
  · refine ⟨UInt32.ofNat i, hi', ?_⟩
    rw [hroute]
    exact fun heq' => hb (Option.some.inj heq')

/-- Every thread is still collecting proposals, and not from a process after `j`; so there are only data messages and
acks on the network, and an ack names the server it comes from. -/
structure Routing.Stalled (cfg : Config) (j : Word) (s : Sys) : Prop where
  server : ∀ q, q.toNat < cfg.n → (s.servers q).Inv cfg q
  silent : ∀ q, q.toNat < cfg.n → deliveries (s.log q) = []
  thread : ∀ tid t, s.senders tid = some t → t.id.toNat < cfg.n ∧ t.Unlimited ∧
    ∃ pid seqs pc, t.phase = .data pid seqs pc ∧ pid ≤ j
  request : ∀ lk, ∀ b ∈ s.requests lk,
    ∃ m : DataMessage, m.sender.toNat < cfg.n ∧ b = sendDataMsg (cfg.host lk.client) m
  answer : ∀ lk, ∀ a ∈ s.answers lk,
    ∃ m : AckMessage, m.proposer = lk.server ∧ a.buf = sendAckMsg (cfg.host lk.server) m

namespace Routing.Stalled

variable {j : Word} {tid : Nat} {t t' : Sender} {lk : Link}

theorem init (j : Word) : Stalled cfg j (Sys.init cfg) where
  server q _ := Server.inv_init cfg q
  silent q _ := rfl
  thread tid t ht := by simp [Sys.init] at ht
  request lk b hb := by simp [Sys.init] at hb
  answer lk a ha := by simp [Sys.init] at ha

theorem setThread (h : Stalled cfg j s) (hsv : s'.servers = s.servers) (hreq : s'.requests = s.requests)
    (hans : s'.answers = s.answers) (hse : s'.senders = Function.update s.senders tid (some t'))
    (ht' : t'.id.toNat < cfg.n ∧ t'.Unlimited ∧ ∃ pid seqs pc, t'.phase = .data pid seqs pc ∧ pid ≤ j) :
    Stalled cfg j s' := by
  refine ⟨?_, fun q hq => ?_, fun i u hu => ?_, ?_, ?_⟩
  · rw [hsv]
    exact h.server
  · rw [Sys.log, hsv]
    exact h.silent q hq
  · rcases eq_or_eq_some_of_update (hse ▸ hu) with ⟨rfl, rfl⟩ | hu
    · exact ht'
    · exact h.thread i u hu
  · rw [hreq]
    exact h.request
  · rw [hans]
    exact h.answer

theorem setPc (ht : ∃ pid seqs pc, t.phase = .data pid seqs pc ∧ pid ≤ j) (pc : Pc) :
    ∃ pid seqs pc', (t.setPc pc).phase = .data pid seqs pc' ∧ pid ≤ j := by
  obtain ⟨pid, seqs, pc', hph, hpid⟩ := ht
  exact ⟨pid, seqs, pc, by simp [Sender.setPc, hph], hpid⟩

/-- What a thread sends is its data message. -/
theorem addRequest (h : Stalled cfg j s) (ht : s.senders tid = some t) {b : Buf}
    (hlk : lk.client = t.id) (hb : t.datagram (cfg.host t.id) = some b) :
    Stalled cfg j { s with requests := Function.update s.requests lk (s.requests lk ++ [b]) } := by
  refine ⟨h.server, h.silent, h.thread, fun lk' b' hb' => ?_, h.answer⟩
  rcases Sys.mem_update_append hb' with hold | ⟨rfl, hnew⟩
  · exact h.request lk' b' hold
  · obtain ⟨hid, -, pid, seqs, pc, hph, -⟩ := h.thread tid t ht
    obtain rfl := List.mem_singleton.1 hnew
    simp only [Sender.datagram, hph, Option.some.injEq] at hb
    exact ⟨t.dataMsg, hid, by rw [← hb, hlk]⟩

theorem served (h : Stalled cfg j s) {i : Nat} {b : Buf} (hb : (s.requests lk)[i]? = some b)
    (hq : lk.server.toNat < cfg.n) (junk : Word) :
    Stalled cfg j (s.served lk i ((s.servers lk.server).process.onReceive b junk)) := by
  have hsv := h.server _ hq
  obtain ⟨m, hm, rfl⟩ := h.request lk b (List.mem_of_getElem? hb)
  rw [Process.onReceive_sendDataMsg _ _ (by rw [hsv.count_eq]; exact hm)]
  obtain ⟨a, -, -, hprop, hdg⟩ := hsv.answer_acceptData { m with type := kDataMessageType }
  refine ⟨fun q hq => ?_, fun q hq => ?_, h.thread, h.request, fun lk' a' ha' => ?_⟩
  · by_cases hql : q = lk.server
    · subst hql
      rw [Sys.servers_served]
      exact hsv.acceptData _
    · rw [Sys.servers_served_of_ne hql]
      exact h.server q hq
  · by_cases hql : q = lk.server
    · subst hql
      rw [Sys.log, Sys.servers_served, hsv.deliveries_acceptData]
      exact h.silent _ hq
    · rw [Sys.log_served_of_ne hql]
      exact h.silent q hq
  · rcases Sys.mem_update_append ha' with hold | ⟨rfl, hnew⟩
    · exact h.answer lk' a' hold
    · rw [hdg, List.map_singleton, List.mem_singleton] at hnew
      exact ⟨a, hprop, by rw [hnew]⟩

/-- The ack of another process than the one the thread asks is refused. -/
theorem resumed (h : Stalled cfg j s) (hj : j.toNat < cfg.n) (hmis : r.route j ≠ some j)
    (ht : s.senders tid = some t) (hlk : r.link t = some lk) {rc : Received} {hst : HostOrder}
    (hrc : ∀ buf, rc = .datagram buf → ∃ a ∈ s.answers lk, a.buf = buf) (hres : t.Resumed hst cfg.n rc t') :
    t'.id.toNat < cfg.n ∧ t'.Unlimited ∧ ∃ pid seqs pc, t'.phase = .data pid seqs pc ∧ pid ≤ j := by
  obtain ⟨hid, hu, hph⟩ := h.thread tid t ht
  cases hres with
  | again hin hl _ => exact ⟨hid, .setPc fun l' hl' => by simp_all, setPc hph _⟩
  | @data pid seqs pc buf a hp ha hv =>
    refine ⟨hid, Sender.unlimited_dataLoop _ _ _ _, ?_⟩
    obtain ⟨pid', seqs', pc', hp', hpid⟩ := hph
    obtain ⟨rfl, -, -⟩ := Phase.data.inj (hp.symm.trans hp')
    obtain ⟨ans, hans, rfl⟩ := hrc buf rfl
    obtain ⟨m, hm, hbuf⟩ := h.answer lk ans hans
    rw [hbuf, ackMsgFromBuf_sendAckMsg, Option.some.injEq] at ha
    obtain ⟨-, -, -, hprop⟩ := validAckMsg_iff.1 hv
    -- the ack comes from the server that the client reaches
    have hroute : r.route pid = some pid := by
      simp only [Routing.link, Sender.target, hp, Option.bind_eq_bind, Option.bind_some, Option.bind_eq_some_iff] at hlk
      obtain ⟨server, hserver, hlk⟩ := hlk
      obtain rfl := Option.some.inj hlk
      rw [hserver, ← hprop, ← ha]
      exact congrArg some hm.symm
    have hne : pid ≠ j := by
      rintro rfl
      exact hmis hroute
    have hn := cfg.n_lt
    have hlt : pid.toNat < j.toNat := by
      have hle := UInt32.le_iff_toNat_le.1 hpid
      have hne : pid.toNat ≠ j.toNat := fun heq => hne (UInt32.toNat_inj.1 heq)
      omega
    have hsucc : (pid + 1).toNat = pid.toNat + 1 := toNat_add_one (by omega)
    refine ⟨pid + 1, seqs.set pid.toNat a.proposedSeq, .enter, if_pos (by omega), ?_⟩
    rw [UInt32.le_iff_toNat_le]
    omega
  | @seq pid m pc buf a hp =>
    obtain ⟨pid', seqs', pc', hp', -⟩ := hph
    rw [hp] at hp'
    cases hp'

theorem step (h : Stalled cfg j s) (hj : j.toNat < cfg.n) (hmis : r.route j ≠ some j)
    (hs : StepOn cfg r.link s l s') : Stalled cfg j s' := by
  cases hs with
  | launch hid hnone =>
    refine h.setThread rfl rfl rfl rfl ⟨hid, Sender.unlimited_dataLoop _ _ _ _, 0, List.replicate cfg.n 0, .enter, ?_,
      by simp⟩
    exact if_pos (Nat.zero_lt_of_lt hj)
  | @lock tid t lk ht hlk hpc hm =>
    obtain ⟨hid, -, hph⟩ := h.thread tid t ht
    refine h.setThread rfl rfl rfl rfl ⟨hid, .setPc fun l hl => ?_, setPc hph _⟩
    obtain rfl : SendLoop.start kUnlimitedAttempts = l := by simpa using hl
    exact SendLoop.unlimited_start
  | @send tid t lk l₀ b ht hlk hb hpc =>
    obtain ⟨hid, hu, hph⟩ := h.thread tid t ht
    have hclient : lk.client = t.id := by
      simp only [Routing.link, Option.bind_eq_bind, Option.bind_eq_some_iff] at hlk
      obtain ⟨pid, -, server, -, hlk⟩ := hlk
      rw [← Option.some.inj hlk]
    refine (h.addRequest ht hclient hb).setThread rfl rfl rfl rfl ⟨hid, .setPc fun l hl => hu l (.inl ?_), setPc hph _⟩
    obtain rfl : l₀ = l := by simpa using hl
    exact hpc
  | @timeout tid t t' lk ht hlk ht' =>
    have hres := Sender.resumed_of_afterReceive (h.thread tid t ht).2.1 ht'
    exact h.setThread rfl rfl rfl rfl (h.resumed hj hmis ht hlk (by simp) hres)
  | @receive tid i t t' lk a ht hlk ha ht' =>
    have hres := Sender.resumed_of_afterReceive (h.thread tid t ht).2.1 ht'
    refine h.setThread rfl rfl rfl rfl (h.resumed hj hmis ht hlk (fun buf hbuf => ?_) hres)
    exact ⟨a, List.mem_of_getElem? ha, Received.datagram.inj hbuf⟩
  | serve hb hid hl => exact h.served hb hid _

end Routing.Stalled

/-- If the process list repeats an address, and its datagrams reach the same server throughout, no final number is
ever decided, however often the messages are sent, and no process ever delivers a message. -/
theorem repeated_address_stalls (hdup : ¬ r.processes.Nodup) (hrun : r.lts.Run ls s) :
    (∀ tid t, s.senders tid = some t → t.decided = none) ∧ ∀ q, q.toNat < cfg.n → deliveries (s.log q) = [] := by
  obtain ⟨j, hj, hmis⟩ := Routing.exists_misrouted hdup
  have h : Routing.Stalled cfg j s := by
    refine hrun.induction (P := fun _ s => Routing.Stalled cfg j s) (.init j) ?_
    intro ls s l s' _ hst hs
    exact hst.step hj hmis (stepOn_iff.1 hs)
  refine ⟨fun tid t ht => ?_, h.silent⟩
  obtain ⟨-, -, pid, seqs, pc, hph, -⟩ := h.thread tid t ht
  simp [Sender.decided, hph]

/-- The port of the first process, twice. -/
def repeatedRouting : Routing pair where
  processes := [⟨['h'], 1234⟩, ⟨['h'], 1234⟩]
  length_eq := rfl
  bound _ := 0
  bound_addr := by decide

/-- The data message for process 1 reaches process 0, which answers with its own id. -/
theorem repeated_address_stalls_pair : ∃ s, repeatedRouting.lts.Run ([.launch 0 0 7 50] ++ callAnswered 0 ⟨0, 0⟩ 0 ++
    callAnswered 0 ⟨0, 0⟩ 1) s ∧ (∀ tid t, s.senders tid = some t → t.decided = none) ∧ deliveries (s.log 0) = [] := by
  have h : (repeatedRouting.lts.exec ([.launch 0 0 7 50] ++ callAnswered 0 ⟨0, 0⟩ 0 ++
    callAnswered 0 ⟨0, 0⟩ 1)).isSome = true := by decide
  obtain ⟨s, hrun⟩ := Option.isSome_iff_exists.1 h
  obtain ⟨hdec, hdel⟩ := repeated_address_stalls (by decide) hrun
  exact ⟨s, hrun, hdec, hdel 0 (by decide)⟩

end IsisMulticast

import IsisMulticast.Clients

/-!
# Starting a process (`main.cc`: `CheckProcessId`, `GetProcessId`, `main`)

`main` reads the process list, finds out which of its lines the process is, and makes the process: a client for each
line, and a server at the port of its own line. What the machine allows of this is a parameter (`Host`). A process that
starts listens at the address that the list gives for its id, on its own host, and without the flag for the id this is
the only line with its hostname (`main_eq_ok_iff`). So when all the processes of one list
run and no two of them have bound the same port of the same host, every client reaches the process it is for
(`deployment_routed`). The values of the flags are not checked: a port is taken modulo `2 ^ 16`, and a negative count
is a large one.
-/

namespace IsisMulticast
open Lib Net

/-- An `int`. -/
abbrev CInt := { v : Int // IsInt v }

/-- The values of the flags after `ParseCLI`. -/
structure Flags where
  port : Option CInt
  hostfile : Option Str
  id : Option CInt
  count : Option CInt
  delays : Bool

/-- What ends `main` before the algorithm runs, with its `what()`. -/
inductive StartupError where
  | usageError (what : String)
  | validationError (what : String)
  | runtimeError (what : String)
  | outOfRange (what : String)
  -- `what()` of a network exception points into a string that is gone, so it has no text here
  | socketException
  | hostNotFoundException (host : Str)
  | bindException
deriving DecidableEq, Repr

def StartupError.ofHostfile : HostfileError → StartupError
  | .runtimeError what => .runtimeError what
  | .usageError what => .usageError what
  | .outOfRange what => .outOfRange what

/-- The arguments of `Process` and of `TotalOrder`. -/
structure Started where
  processes : List Address
  id : Word
  serverPort : UInt16
  delays : Bool
  sendCount : Word
deriving DecidableEq, Repr

def checkProcessId (processes : List Address) (hostname : Str) (myId : Int) : Except StartupError Unit :=
  if myId < 0 ∨ processes.length ≤ myId.toNat then .error (.validationError "--id value not found in hostfile")
  else if (processes[myId.toNat]?).map (·.hostname) ≠ some hostname then
    .error (.validationError "--id value is not the hostname of this host")
  else .ok ()

/-- The conversion of a `size_t` to `int`. -/
def intOfSize (i : Nat) : Int := (i : Int).bmod (2 ^ 32)

/-- The loop of `GetProcessId` at line `i`. -/
def getProcessIdFrom (hostname : Str) : List Address → Nat → Int → Except StartupError Int
  | [], _, found =>
    if found = -1 then .error (.validationError "current hostname not found in hostfile") else .ok found
  | addr :: rest, i, found =>
    if addr.hostname = hostname then
      if found ≥ 0 then
        .error (.usageError "when running multiple processes on the same host, use the --id flag")
      else getProcessIdFrom hostname rest (i + 1) (intOfSize i)
    else getProcessIdFrom hostname rest (i + 1) found

def getProcessId (processes : List Address) (hostname : Str) : Except StartupError Int :=
  getProcessIdFrom hostname processes 0 (-1)

/-- The id of the process: the value of the flag, checked, or the line with the hostname. -/
def processId (processes : List Address) (hostname : Str) : Option CInt → Except StartupError Int
  | some id => (checkProcessId processes hostname id).map fun _ => id.1
  | none => getProcessId processes hostname

/-- A machine, as a starting process finds it. -/
structure Host where
  /-- The contents of the files that can be opened. -/
  files : Str → Option Str
  hostname : Str
  /-- Whether `CreateSocket` succeeds when it is called for the time `k`, counted from 0. -/
  socket : Nat → Bool
  /-- Whether `gethostbyname` finds a name when it is called for the time `k`. -/
  resolves : Nat → Str → Bool
  binds : UInt16 → Bool

namespace Host

/-- The constructor of the client for line `k`, which makes the socket and then looks for the host. -/
def client (host : Host) (k : Nat) (addr : Address) : Except StartupError Unit :=
  if !host.socket k then .error .socketException
  else if !host.resolves k addr.hostname then .error (.hostNotFoundException addr.hostname)
  else .ok ()

/-- The loop of `ClientsForProcessList` from line `k` on. A client is also made for a line that repeats an address, and
then `emplace` drops it. -/
def clientsFrom (host : Host) : List Address → Nat → Except StartupError Unit
  | [], _ => .ok ()
  | addr :: rest, k => match host.client k addr with
    | .error e => .error e
    | .ok () => host.clientsFrom rest (k + 1)

/-- The constructor of the server, after `k` clients. -/
def server (host : Host) (k : Nat) (port : UInt16) : Except StartupError Unit :=
  if !host.socket k then .error .socketException
  else if !host.binds port then .error .bindException
  else .ok ()

/-- The constructor of `Process`. -/
def process (host : Host) (processes : List Address) (serverPort : UInt16) : Except StartupError Unit :=
  match host.clientsFrom processes 0 with
  | .error e => .error e
  | .ok () => host.server processes.length serverPort

end Host

/-- The conversion of an `int` to `size_t`. -/
def sizeOfInt (i : Int) : Nat := (i % 2 ^ 64).toNat

/-- `main` up to the call of `TotalOrder`. -/
def main (host : Host) (flags : Flags) : Except StartupError Started :=
  match flags.hostfile with
  | none => .error (.usageError "--hostfile is a required flag")
  | some hostfile => match flags.count with
    | none => .error (.usageError "--count is a required flag")
    | some count =>
      match getProcesses (host.files hostfile) (flags.port.map fun port => UInt16.ofInt port.1) with
      | .error e => .error (.ofHostfile e)
      | .ok processes => match processId processes host.hostname flags.id with
        | .error e => .error e
        | .ok id => match processes[sizeOfInt id]? with
          | none => .error (.outOfRange "vector::at")
          | some addr => match host.process processes addr.port with
            | .error e => .error e
            | .ok () => .ok
              { processes := processes
                id := UInt32.ofInt id
                serverPort := addr.port
                delays := flags.delays
                sendCount := UInt32.ofInt count.1 }

/-! ### The id -/

variable {processes : List Address} {hostname : Str} {i : Int}

/-- The line of the process. -/
def IsLine (processes : List Address) (hostname : Str) (i : Int) : Prop :=
  0 ≤ i ∧ ∃ addr, processes[i.toNat]? = some addr ∧ addr.hostname = hostname

theorem checkProcessId_eq_ok_iff : checkProcessId processes hostname i = .ok () ↔ IsLine processes hostname i := by
  unfold checkProcessId IsLine
  constructor
  · intro h
    split_ifs at h with hrange hhost
    rw [not_not, Option.map_eq_some_iff] at hhost
    exact ⟨by omega, hhost⟩
  · rintro ⟨hi, addr, hget, hhost⟩
    obtain ⟨hlt, -⟩ := List.getElem?_eq_some_iff.1 hget
    rw [if_neg (by omega), if_neg (by simp [hget, hhost])]

theorem intOfSize_eq {k : Nat} (hk : k < 2 ^ 31) : intOfSize k = k := by
  refine Int.bmod_eq_of_le ?_ ?_ <;> omega

/-- The lines with the hostname, with their numbers from `k` on. -/
def linesOf (hostname : Str) (rest : List Address) (k : Nat) : List (Address × Nat) :=
  (rest.zipIdx k).filter fun line => line.1.hostname = hostname

/-- The loop ends well if the hostname stands on one line: before, or in the rest. -/
theorem getProcessIdFrom_eq_ok_iff {rest : List Address} {k : Nat} {found r : Int} (hlen : k + rest.length ≤ 2 ^ 31)
    (hfound : found = -1 ∨ 0 ≤ found) :
    getProcessIdFrom hostname rest k found = .ok r ↔
      0 ≤ found ∧ r = found ∧ linesOf hostname rest k = [] ∨
      found = -1 ∧ ∃ (addr : Address) (j : Nat), linesOf hostname rest k = [(addr, j)] ∧ r = j := by
  induction rest generalizing k found with
  | nil =>
    rw [getProcessIdFrom]
    split_ifs with hf
    · simp [hf, linesOf]
    · simp [hf, hfound.resolve_left hf, linesOf, eq_comm]
  | cons addr rest ih =>
    rw [List.length_cons] at hlen
    have hlines : linesOf hostname (addr :: rest) k =
        if addr.hostname = hostname then (addr, k) :: linesOf hostname rest (k + 1)
        else linesOf hostname rest (k + 1) := by
      simp [linesOf, List.zipIdx_cons, List.filter_cons]
    rw [getProcessIdFrom, hlines]
    split_ifs with hhost hpos
    · -- a second line with the hostname
      have hne : found ≠ -1 := by omega
      simp [hne]
    · have hnone : found = -1 := hfound.resolve_right hpos
      rw [intOfSize_eq (by omega), ih (by omega) (.inr (by omega))]
      constructor
      · rintro (⟨-, rfl, hnil⟩ | ⟨hk, -⟩)
        · exact .inr ⟨hnone, addr, k, by rw [hnil], rfl⟩
        · omega
      · rintro (⟨hf, -⟩ | ⟨-, addr', j, hlines', rfl⟩)
        · exact absurd hf hpos
        · obtain ⟨hhead, hnil⟩ := List.cons.inj hlines'
          obtain ⟨-, rfl⟩ := Prod.mk.inj hhead
          exact .inl ⟨by omega, rfl, hnil⟩
    · exact ih (by omega) hfound

theorem mem_linesOf {k : Nat} {addr : Address} :
    (addr, k) ∈ linesOf hostname processes 0 ↔ processes[k]? = some addr ∧ addr.hostname = hostname := by
  simp [linesOf, List.mem_filter, List.mem_zipIdx_iff_getElem?]

theorem nodup_linesOf (hostname : Str) (processes : List Address) : (linesOf hostname processes 0).Nodup := by
  refine List.Nodup.filter _ (List.Nodup.of_map Prod.snd ?_)
  rw [List.zipIdx_map_snd]
  exact List.nodup_range'

theorem getProcessId_eq_ok_iff (hlen : processes.length ≤ 2 ^ 31) : getProcessId processes hostname = .ok i ↔
    IsLine processes hostname i ∧
      ∀ (j : Nat) addr, processes[j]? = some addr → addr.hostname = hostname → j = i.toNat := by
  rw [getProcessId, getProcessIdFrom_eq_ok_iff (by omega) (.inl rfl)]
  constructor
  · rintro (⟨h, -⟩ | ⟨-, addr, j, hlines, rfl⟩)
    · omega
    · have hmem : ∀ a k, (a, k) ∈ linesOf hostname processes 0 ↔ a = addr ∧ k = j := by simp [hlines]
      obtain ⟨hget, hhost⟩ := mem_linesOf.1 ((hmem addr j).2 ⟨rfl, rfl⟩)
      exact ⟨⟨by omega, addr, hget, hhost⟩, fun k a hk ha => ((hmem a k).1 (mem_linesOf.2 ⟨hk, ha⟩)).2⟩
  · rintro ⟨⟨hi, addr, hget, hhost⟩, hone⟩
    refine .inr ⟨rfl, addr, i.toNat, ?_, by omega⟩
    -- the line is the only member of a list without repetitions
    refine List.perm_singleton.1 ((List.perm_ext_iff_of_nodup (nodup_linesOf _ _) (List.nodup_singleton _)).2 ?_)
    rintro ⟨a, k⟩
    rw [mem_linesOf, List.mem_singleton]
    constructor
    · rintro ⟨hk, ha⟩
      obtain rfl := hone k a hk ha
      obtain rfl := Option.some.inj (hk.symm.trans hget)
      rfl
    · rintro h
      obtain ⟨rfl, rfl⟩ := Prod.mk.inj h
      exact ⟨hget, hhost⟩

/-- The two ways to the id. -/
theorem processId_eq_ok_iff {id : Option CInt} (hlen : processes.length ≤ 2 ^ 31) :
    processId processes hostname id = .ok i ↔ IsLine processes hostname i ∧ (∀ v ∈ id, v.1 = i) ∧
      (id = none → ∀ (j : Nat) addr, processes[j]? = some addr → addr.hostname = hostname → j = i.toNat) := by
  cases id with
  | none => simp [processId, getProcessId_eq_ok_iff hlen]
  | some v =>
    have hmap : processId processes hostname (some v) = .ok i ↔
        checkProcessId processes hostname v = .ok () ∧ v.1 = i := by
      rw [processId]
      cases checkProcessId processes hostname v <;> simp [Except.map]
    rw [hmap, checkProcessId_eq_ok_iff]
    constructor
    · rintro ⟨hline, rfl⟩
      exact ⟨hline, by simp, by simp⟩
    · rintro ⟨hline, hv, -⟩
      obtain rfl := hv v rfl
      exact ⟨hline, rfl⟩

/-! ### The process -/

variable {host : Host} {flags : Flags} {st : Started}

theorem Host.client_eq_ok_iff {k : Nat} {addr : Address} :
    host.client k addr = .ok () ↔ host.socket k = true ∧ host.resolves k addr.hostname = true := by
  rw [client]
  cases host.socket k <;> cases host.resolves k addr.hostname <;> simp

theorem Host.clientsFrom_eq_ok_iff {rest : List Address} {k : Nat} : host.clientsFrom rest k = .ok () ↔
    ∀ j addr, rest[j]? = some addr → host.socket (k + j) = true ∧ host.resolves (k + j) addr.hostname = true := by
  induction rest generalizing k with
  | nil => simp [clientsFrom]
  | cons addr rest ih =>
    have hcons : host.clientsFrom (addr :: rest) k = .ok () ↔
        host.client k addr = .ok () ∧ host.clientsFrom rest (k + 1) = .ok () := by
      rw [clientsFrom]
      cases host.client k addr <;> simp
    rw [hcons, client_eq_ok_iff, ih]
    constructor
    · rintro ⟨hfirst, hrest⟩ j a ha
      cases j with
      | zero =>
        obtain rfl := Option.some.inj ha
        exact hfirst
      | succ j =>
        rw [show k + (j + 1) = k + 1 + j by omega]
        exact hrest j a ha
    · intro h
      refine ⟨h 0 addr rfl, fun j a ha => ?_⟩
      rw [show k + 1 + j = k + (j + 1) by omega]
      exact h (j + 1) a ha

theorem Host.server_eq_ok_iff {k : Nat} {port : UInt16} :
    host.server k port = .ok () ↔ host.socket k = true ∧ host.binds port = true := by
  rw [server]
  cases host.socket k <;> cases host.binds port <;> simp

/-- It takes a socket for each line and one for the server, the names of all lines, and the port. -/
theorem Host.process_eq_ok_iff {port : UInt16} : host.process processes port = .ok () ↔
    (∀ k ≤ processes.length, host.socket k = true) ∧
    (∀ k addr, processes[k]? = some addr → host.resolves k addr.hostname = true) ∧ host.binds port = true := by
  have hboth : host.process processes port = .ok () ↔
      host.clientsFrom processes 0 = .ok () ∧ host.server processes.length port = .ok () := by
    rw [process]
    cases host.clientsFrom processes 0 <;> simp
  rw [hboth, clientsFrom_eq_ok_iff, server_eq_ok_iff]
  simp only [Nat.zero_add]
  constructor
  · rintro ⟨hclients, hsocket, hbinds⟩
    refine ⟨fun k hk => ?_, fun k addr hget => (hclients k addr hget).2, hbinds⟩
    rcases Nat.lt_or_eq_of_le hk with hlt | rfl
    · exact (hclients k _ (List.getElem?_eq_getElem hlt)).1
    · exact hsocket
  · rintro ⟨hsockets, hresolves, hbinds⟩
    refine ⟨fun k addr hget => ⟨hsockets k ?_, hresolves k addr hget⟩, hsockets _ (Nat.le_refl _), hbinds⟩
    exact Nat.le_of_lt (List.getElem?_eq_some_iff.1 hget).1

theorem sizeOfInt_of_line (hlen : processes.length ≤ 2 ^ 31) (h : IsLine processes hostname i) :
    sizeOfInt i = i.toNat := by
  obtain ⟨hi, addr, hget, -⟩ := h
  obtain ⟨hlt, -⟩ := List.getElem?_eq_some_iff.1 hget
  rw [sizeOfInt, Int.emod_eq_of_lt hi (by omega)]

theorem toNat_ofInt_of_line (hlen : processes.length ≤ 2 ^ 31) (h : IsLine processes hostname i) :
    (UInt32.ofInt i).toNat = i.toNat := by
  obtain ⟨hi, addr, hget, -⟩ := h
  obtain ⟨hlt, -⟩ := List.getElem?_eq_some_iff.1 hget
  rw [UInt32.ofInt, UInt32.toNat_ofNat']
  omega

theorem ofInt_toNat (w : Word) : UInt32.ofInt w.toNat = w := by
  have hlt := w.toNat_lt
  rw [← UInt32.toNat_inj, UInt32.ofInt, UInt32.toNat_ofNat']
  omega

/-- What it takes to start with the arguments `st`. -/
structure Starts (host : Host) (flags : Flags) (st : Started) : Prop where
  processes : ∃ hostfile, flags.hostfile = some hostfile ∧
    getProcesses (host.files hostfile) (flags.port.map fun port => UInt16.ofInt port.1) = .ok st.processes
  /-- The line of the id is the address of the process. -/
  line : st.processes[st.id.toNat]? = some ⟨host.hostname, st.serverPort⟩
  flag : ∀ v ∈ flags.id, v.1 = st.id.toNat
  only : flags.id = none →
    ∀ (j : Nat) addr, st.processes[j]? = some addr → addr.hostname = host.hostname → j = st.id.toNat
  delays : st.delays = flags.delays
  sendCount : ∃ count, flags.count = some count ∧ st.sendCount = UInt32.ofInt count.1
  /-- For each line one, and one for the server. -/
  socket : ∀ k ≤ st.processes.length, host.socket k = true
  resolves : ∀ k addr, st.processes[k]? = some addr → host.resolves k addr.hostname = true
  binds : host.binds st.serverPort = true

theorem starts_of_main (hlen : st.processes.length ≤ 2 ^ 31) (h : main host flags = .ok st) :
    Starts host flags st := by
  unfold main at h
  cases hfile : flags.hostfile with
  | none => simp [hfile] at h
  | some hostfile =>
    cases hcount : flags.count with
    | none => simp [hfile, hcount] at h
    | some count =>
      simp only [hfile, hcount] at h
      split at h
      · cases h
      · rename_i processes hproc
        split at h
        · cases h
        · rename_i id hid
          split at h
          · cases h
          · rename_i addr hget
            split at h
            · cases h
            · rename_i hmade
              obtain rfl := Except.ok.inj h
              obtain ⟨hline, hflag, hone⟩ := (processId_eq_ok_iff hlen).1 hid
              have hnat := toNat_ofInt_of_line hlen hline
              rw [sizeOfInt_of_line hlen hline] at hget
              obtain ⟨hpos, addr', hget', hhost⟩ := hline
              obtain rfl := Option.some.inj (hget'.symm.trans hget)
              obtain ⟨hsocket, hresolves, hbinds⟩ := Host.process_eq_ok_iff.1 hmade
              refine ⟨⟨hostfile, hfile, hproc⟩, ?_, fun v hv => ?_, ?_, rfl, ⟨count, hcount, rfl⟩, hsocket, hresolves,
                hbinds⟩
              · rw [hnat, hget, ← hhost]
              · rw [hflag v hv, hnat]
                omega
              · rw [hnat]
                exact hone

theorem main_of_starts (hlen : st.processes.length ≤ 2 ^ 31) (h : Starts host flags st) :
    main host flags = .ok st := by
  obtain ⟨hostfile, hfile, hproc⟩ := h.processes
  obtain ⟨count, hcount, hsend⟩ := h.sendCount
  have hline : IsLine st.processes host.hostname st.id.toNat := ⟨by omega, _, h.line, rfl⟩
  have hid : processId st.processes host.hostname flags.id = .ok (st.id.toNat : Int) :=
    (processId_eq_ok_iff hlen).2 ⟨hline, h.flag, h.only⟩
  have hmade : host.process st.processes st.serverPort = .ok () :=
    Host.process_eq_ok_iff.2 ⟨h.socket, h.resolves, h.binds⟩
  simp only [main, hfile, hcount, hproc, hid, sizeOfInt_of_line hlen hline, Int.toNat_natCast, h.line, hmade]
  rw [ofInt_toNat, ← h.delays, ← hsend]

/-- A process starts with an id exactly if the two required flags are there, the hostfile can be read, the line of that
id has the hostname of the machine, the flag for the id names this line or, without it, there is no other line with the
hostname, and the machine finds the hosts of all lines, makes the sockets and binds the port of the line. It listens at
this port, and launches as many senders as the count modulo `2 ^ 32`. -/
theorem main_eq_ok_iff (hlen : st.processes.length ≤ 2 ^ 31) : main host flags = .ok st ↔ Starts host flags st :=
  ⟨starts_of_main hlen, main_of_starts hlen⟩

/-- A hostfile with two processes on the host `h`. -/
def pairFile : Str := ['h', ':', '1', '2', '3', '4', ' ', 'h', ':', '1', '2', '3', '5']

def pairFlags (id : Option CInt) (count : CInt) : Flags :=
  { port := none, hostfile := some [], id := id, count := some count, delays := false }

def pairHost : Host :=
  { files := fun _ => some pairFile
    hostname := ['h']
    socket := fun k => k < 4
    resolves := fun _ name => name = ['h']
    binds := fun port => 1024 ≤ port }

def pairStarted (q : Word) : Started :=
  { processes := [⟨['h'], 1234⟩, ⟨['h'], 1235⟩]
    id := q
    serverPort := if q = 0 then 1234 else 1235
    delays := false
    sendCount := 1 }

/-- The second process of the list, and a negative count. -/
theorem main_eq_ok_iff_pair : main pairHost (pairFlags (some ⟨1, by decide⟩) ⟨-1, by decide⟩) =
    .ok { pairStarted 1 with sendCount := 4294967295 } := by
  refine (main_eq_ok_iff (by decide)).2
    ⟨⟨[], rfl, by decide⟩, by decide, ?_, by simp [pairFlags], rfl, ⟨_, rfl, by decide⟩, ?_, ?_, by decide⟩
  · intro v hv
    obtain rfl := Option.some.inj hv
    decide
  · intro k hk
    have hk : k ≤ 2 := hk
    simp only [pairHost, decide_eq_true_eq]
    omega
  · intro k addr hget
    have hhost : ∀ a ∈ (pairStarted 1).processes, a.hostname = ['h'] := by decide
    simp [pairHost, hhost addr (List.mem_of_getElem? hget)]

/-! ### All processes -/

/-- The processes of one list, each started on its machine. No two of them have bound the same port of a machine. -/
structure Deployment (cfg : Config) where
  processes : List Address
  length_eq : processes.length = cfg.n
  host : Word → Host
  flags : Word → Flags
  started : Word → Started
  ok : ∀ q, q.toNat < cfg.n → main (host q) (flags q) = .ok (started q)
  id_eq : ∀ q, q.toNat < cfg.n → (started q).id = q
  processes_eq : ∀ q, q.toNat < cfg.n → (started q).processes = processes
  bound : ∀ p q, p.toNat < cfg.n → q.toNat < cfg.n → (host p).hostname = (host q).hostname →
    (started p).serverPort = (started q).serverPort → p = q

/-- If all processes of a list have started, the list repeats no address, and the client for a process reaches
the server of that process. -/
theorem deployment_routed {cfg : Config} (d : Deployment cfg) (hn : cfg.n ≤ 2 ^ 31) : d.processes.Nodup ∧
    ∀ r : Routing cfg, r.processes = d.processes → ∀ q, q.toNat < cfg.n →
      r.route q = some q ∧ r.bound ⟨(d.host q).hostname, (d.started q).serverPort⟩ = q := by
  have hlen : d.processes.length ≤ 2 ^ 31 := d.length_eq ▸ hn
  -- each process is at the address of its line
  have haddr : ∀ q : Word, q.toNat < cfg.n →
      d.processes[q.toNat]? = some ⟨(d.host q).hostname, (d.started q).serverPort⟩ := by
    intro q hq
    have hproc := d.processes_eq q hq
    have hget := (starts_of_main (hproc ▸ hlen) (d.ok q hq)).line
    rwa [hproc, d.id_eq q hq] at hget
  have hnodup : d.processes.Nodup := by
    rw [List.nodup_iff_getElem?_ne_getElem?]
    intro i k hik hk heq
    rw [d.length_eq] at hk
    have hi : i < cfg.n := Nat.lt_trans hik hk
    have hi' : (UInt32.ofNat i).toNat < cfg.n := by rwa [cfg.toNat_ofNat hi]
    have hk' : (UInt32.ofNat k).toNat < cfg.n := by rwa [cfg.toNat_ofNat hk]
    have hgeti := haddr _ hi'
    have hgetk := haddr _ hk'
    rw [cfg.toNat_ofNat hi] at hgeti
    rw [cfg.toNat_ofNat hk] at hgetk
    obtain ⟨hhost, hport⟩ := Address.mk.inj (Option.some.inj (hgeti.symm.trans (heq.trans hgetk)))
    have hq := congrArg UInt32.toNat (d.bound _ _ hi' hk' hhost hport)
    rw [cfg.toNat_ofNat hi, cfg.toNat_ofNat hk] at hq
    omega
  refine ⟨hnodup, fun r hr q hq => ?_⟩
  have hroute := Routing.route_of_nodup (hr ▸ hnodup) hq
  refine ⟨hroute, ?_⟩
  rw [Routing.route_eq, hr, haddr q hq] at hroute
  exact Option.some.inj hroute

theorem lt_two_cases {q : Word} (hq : q.toNat < 2) : q = 0 ∨ q = 1 := by
  rw [← UInt32.toNat_inj, ← UInt32.toNat_inj]
  show q.toNat = 0 ∨ q.toNat = 1
  omega

theorem isInt_zero : IsInt 0 := by decide

theorem isInt_one : IsInt 1 := by decide

def pairIdFlag (q : Word) : CInt := if q = 0 then ⟨0, isInt_zero⟩ else ⟨1, isInt_one⟩

theorem main_pairStarted {q : Word} (hq : q.toNat < 2) : main pairHost
    (pairFlags (some (pairIdFlag q)) ⟨1, isInt_one⟩) = .ok (pairStarted q) := by
  rcases lt_two_cases hq with rfl | rfl <;> decide

theorem serverPort_pairStarted_inj {p q : Word} (hp : p.toNat < 2) (hq : q.toNat < 2)
    (h : (pairStarted p).serverPort = (pairStarted q).serverPort) : p = q := by
  rcases lt_two_cases hp with rfl | rfl <;> rcases lt_two_cases hq with rfl | rfl <;> simp_all [pairStarted]

def pairDeployment : Deployment pair where
  processes := pairRouting.processes
  length_eq := pairRouting.length_eq
  host _ := pairHost
  flags q := pairFlags (some (pairIdFlag q)) ⟨1, isInt_one⟩
  started := pairStarted
  ok _ hq := main_pairStarted hq
  id_eq _ _ := rfl
  processes_eq _ _ := rfl
  bound _ _ hp hq _ hport := serverPort_pairStarted_inj hp hq hport

theorem deployment_routed_pair : pairDeployment.processes.Nodup ∧ pairRouting.route 1 = some 1 := by
  obtain ⟨hnodup, hroute⟩ := deployment_routed pairDeployment (by decide)
  exact ⟨hnodup, (hroute pairRouting rfl 1 (by decide)).1⟩

end IsisMulticast

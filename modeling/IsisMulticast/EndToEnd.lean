import IsisMulticast.Completable
import IsisMulticast.Hostfile
import IsisMulticast.Startup

/-!
# The test of the repository (`total_order_test.go`), and what `main` prints

The test writes a hostfile with one port of its machine for each process, starts the processes, reads the first lines
that each of them prints, strips the ids of the processes and compares. Every process starts, at an address of its
own (`setup_starts`). Over links that keep the order the test passes in every reachable state in which the processes
have printed enough (`testTotalOrder_passes`), and when all multicasts have ended and no server is inside its callback
any more, they have (`test_completes`).
-/

namespace IsisMulticast
open Lib Net

/-! ### The processes of the test -/

def firstPort : Nat := 3456

/-- The text of the hostfile. -/
def setupHostfile (host : Str) (numProcs : Nat) : Str :=
  unlines ((List.range numProcs).map fun i => host ++ ':' :: decimal (firstPort + i))

/-- The arguments of `launchProcess`. The count is that of all messages together. -/
def launchFlags (hostfile : Str) (numMessages pid : CInt) (delays : Bool) : Flags :=
  { port := none, hostfile := some hostfile, id := some pid, count := some numMessages, delays := delays }

def setupAddress (host : Str) (i : Nat) : Address := ⟨host, UInt16.ofNat (firstPort + i)⟩

theorem toNat_setupAddress {numProcs i : Nat} (hports : firstPort + numProcs ≤ 2 ^ 16) (hi : i < numProcs) (host : Str) :
    (setupAddress host i).port.toNat = firstPort + i :=
  UInt16.toNat_ofNat_of_lt' (by rw [UInt16.size]; omega)

theorem nodup_setupAddress {numProcs : Nat} (hports : firstPort + numProcs ≤ 2 ^ 16) (host : Str) :
    ((List.range numProcs).map (setupAddress host)).Nodup := by
  refine List.Nodup.map_on (fun i hi k hk heq => ?_) List.nodup_range
  have hport := congrArg (fun addr => addr.port.toNat) heq
  simp only [toNat_setupAddress hports (List.mem_range.1 hi), toNat_setupAddress hports (List.mem_range.1 hk)] at hport
  omega

/-- Every process of the test starts, with its own line of the hostfile, and no line is repeated. -/
theorem setup_starts {host : Host} {hostfile : Str} {numProcs : Nat} {numMessages pid : CInt} {delays : Bool}
    (hname : ':' ∉ host.hostname ∧ ∀ c ∈ host.hostname, isSpace c = false) (hports : firstPort + numProcs ≤ 2 ^ 16)
    (hfile : host.files hostfile = some (setupHostfile host.hostname numProcs))
    (hpid : 0 ≤ pid.1 ∧ pid.1 < numProcs) (hsocket : ∀ k ≤ numProcs, host.socket k = true)
    (hresolves : ∀ k < numProcs, host.resolves k host.hostname = true)
    (hbinds : host.binds (UInt16.ofNat (firstPort + pid.1.toNat)) = true) :
    main host (launchFlags hostfile numMessages pid delays) = .ok
      { processes := (List.range numProcs).map (setupAddress host.hostname)
        id := UInt32.ofInt pid.1
        serverPort := UInt16.ofNat (firstPort + pid.1.toNat)
        delays := delays
        sendCount := UInt32.ofInt numMessages.1 } ∧
    ((List.range numProcs).map (setupAddress host.hostname)).Nodup := by
  have htext : setupHostfile host.hostname numProcs =
      unlines (((List.range numProcs).map (setupAddress host.hostname)).map Address.print) := by
    rw [setupHostfile, List.map_map]
    congr 1
    refine List.map_congr_left fun i hi => ?_
    rw [Function.comp_apply, Address.print, toNat_setupAddress hports (List.mem_range.1 hi)]
    rfl
  have hget : ((List.range numProcs).map (setupAddress host.hostname))[pid.1.toNat]? =
      some (setupAddress host.hostname pid.1.toNat) := by
    rw [List.getElem?_map, List.getElem?_range (by omega), Option.map_some]
  have hcount : ((List.range numProcs).map (setupAddress host.hostname)).length = numProcs := by simp
  have hlen : ((List.range numProcs).map (setupAddress host.hostname)).length ≤ 2 ^ 31 := by omega
  have hid : (UInt32.ofInt pid.1).toNat = pid.1.toNat :=
    toNat_ofInt_of_line hlen ⟨hpid.1, _, hget, rfl⟩
  refine ⟨main_of_starts hlen ⟨⟨hostfile, rfl, ?_⟩, ?_, ?_, by simp [launchFlags], rfl, ⟨numMessages, rfl, rfl⟩,
    fun k hk => hsocket k (hcount ▸ hk), ?_, hbinds⟩, nodup_setupAddress hports host.hostname⟩
  · rw [hfile, htext]
    refine getProcesses_print (fun addr haddr => ?_) _
    obtain ⟨i, -, rfl⟩ := List.mem_map.1 haddr
    exact hname
  · rw [hid, hget, setupAddress]
  · intro v hv
    obtain rfl := Option.some.inj hv
    rw [hid]
    omega
  · intro k addr haddr
    have hk : k < numProcs := hcount ▸ (List.getElem?_eq_some_iff.1 haddr).1
    obtain ⟨i, -, rfl⟩ := List.mem_map.1 (List.mem_of_getElem? haddr)
    exact hresolves k hk

def setupHost : Host := { pairHost with files := fun _ => some (setupHostfile ['h'] 2) }

theorem setup_starts_pair : main setupHost (launchFlags [] ⟨5, by decide⟩ ⟨1, by decide⟩ false) = .ok
    { processes := [⟨['h'], 3456⟩, ⟨['h'], 3457⟩]
      id := 1
      serverPort := 3457
      delays := false
      sendCount := 5 } := by
  have hname : ':' ∉ setupHost.hostname ∧ ∀ c ∈ setupHost.hostname, isSpace c = false :=
    ⟨by decide, List.forall_mem_singleton.2 rfl⟩
  have hpid : (0 : Int) ≤ (⟨1, by decide⟩ : CInt).1 ∧ (⟨1, by decide⟩ : CInt).1 < (2 : Nat) := by decide
  exact (setup_starts hname (by decide) rfl hpid (by decide) (by decide) (by decide)).1

/-! ### What `main` prints -/

/-- The line without the id of the process. -/
def messageLine (m : SeqMessage) : Str :=
  "Processed message ".toList ++ (decimal m.msgId.toNat ++ (" from sender ".toList ++ (decimal m.sender.toNat ++
    (" with seq (".toList ++ (decimal m.finalSeq.toNat ++ (", ".toList ++ (decimal m.finalSeqProposer.toNat ++
      ")".toList)))))))

/-- The line that the process `id` prints for a delivered message. -/
def deliverLine (id : Word) (m : SeqMessage) : Str := decimal id.toNat ++ (": ".toList ++ messageLine m)

/-- The standard output of process `q`. -/
def Sys.stdout (s : Sys) (q : Word) : Str := unlines ((deliveries (s.log q)).map (deliverLine q))

/-- A line names its message and its numbers. -/
theorem messageLine_inj {m m' : SeqMessage} (h : messageLine m = messageLine m') :
    m.key = m'.key ∧ m.finalSeq = m'.finalSeq ∧ m.finalSeqProposer = m'.finalSeqProposer := by
  unfold messageLine at h
  obtain ⟨hmsgId, h⟩ := decimal_append_inj (by simp) (by simp) (List.append_cancel_left h)
  obtain ⟨hsender, h⟩ := decimal_append_inj (by simp) (by simp) (List.append_cancel_left h)
  obtain ⟨hseq, h⟩ := decimal_append_inj (by simp) (by simp) (List.append_cancel_left h)
  obtain ⟨hproposer, -⟩ := decimal_append_inj (by simp) (by simp) (List.append_cancel_left h)
  rw [UInt32.toNat_inj] at hmsgId hsender hseq hproposer
  exact ⟨by rw [SeqMessage.key, SeqMessage.key, hmsgId, hsender], hseq, hproposer⟩

theorem not_mem_deliverLine {c : Char} (hc : c = '\n' ∨ c = '\r') (id : Word) (m : SeqMessage) :
    c ∉ deliverLine id m := by
  have hdec : ∀ n, c ∉ decimal n := fun n => not_mem_decimal (by rcases hc with rfl | rfl <;> rfl)
  unfold deliverLine messageLine
  simp only [List.mem_append, hdec, false_or]
  rcases hc with rfl | rfl <;> simp

/-! ### What the test reads -/

/-- The lines that `launchProcess` passes on. -/
def launchProcess (numMessages : Nat) (stdout : Str) : List Str := (linesFrom [] stdout).take numMessages

/-- `none` stands for `t.Fatalf` and for a slice out of range. -/
def stripProcFromMessage (msgStr : Str) : Option Str :=
  (msgStr.findIdx? (· == ':')).bind fun i => if i + 2 ≤ msgStr.length then some (msgStr.drop (i + 2)) else none

/-- The lines of a process that the test compares. -/
def msgOutput (numMessages : Nat) (stdout : Str) : Option (List Str) :=
  (launchProcess numMessages stdout).mapM stripProcFromMessage

/-- `testTotalOrder` on what the processes have printed. -/
def testTotalOrder (numMessages : Nat) (stdouts : List Str) : Bool :=
  match stdouts.mapM (msgOutput numMessages) with
  | none => false
  | some [] => true
  | some (msg0 :: msgsPerProc) => msgsPerProc.all (msg0 == ·)

theorem stripProcFromMessage_deliverLine (id : Word) (m : SeqMessage) :
    stripProcFromMessage (deliverLine id m) = some (messageLine m) := by
  have hidx : (deliverLine id m).findIdx? (· == ':') = some (decimal id.toNat).length :=
    findIdx?_append_colon (not_mem_decimal (by decide))
  rw [stripProcFromMessage, hidx, Option.bind_some, if_pos (by simp [deliverLine]), deliverLine]
  simp

variable {s : Sys} {p q : Word} {k : Nat}

theorem linesFrom_stdout (s : Sys) (q : Word) :
    linesFrom [] (s.stdout q) = (deliveries (s.log q)).map (deliverLine q) := by
  refine linesFrom_unlines fun l hl => ?_
  obtain ⟨m, -, rfl⟩ := List.mem_map.1 hl
  exact ⟨not_mem_deliverLine (.inl rfl) q m, not_mem_deliverLine (.inr rfl) q m⟩

theorem mapM_stripProcFromMessage (q : Word) (ds : List SeqMessage) :
    (ds.map (deliverLine q)).mapM stripProcFromMessage = some (ds.map messageLine) := by
  induction ds with
  | nil => rfl
  | cons m ds ih => simp [List.mapM_cons, stripProcFromMessage_deliverLine, ih]

theorem msgOutput_stdout (s : Sys) (q : Word) (k : Nat) :
    msgOutput k (s.stdout q) = some (((deliveries (s.log q)).take k).map messageLine) := by
  rw [msgOutput, launchProcess, linesFrom_stdout, ← List.map_take, mapM_stripProcFromMessage]

/-- The test passes if all processes give the same lines. -/
theorem testTotalOrder_of_forall {stdouts : List Str} {o : List Str}
    (h : ∀ text ∈ stdouts, msgOutput k text = some o) : testTotalOrder k stdouts = true := by
  have hmap : stdouts.mapM (msgOutput k) = some (stdouts.map fun _ => o) := by
    induction stdouts with
    | nil => rfl
    | cons text rest ih =>
      simp [List.mapM_cons, h text (by simp), ih fun t ht => h t (by simp [ht])]
  unfold testTotalOrder
  rw [hmap]
  cases stdouts with
  | nil => rfl
  | cons text rest => simp

/-- The outputs of all processes. -/
def Sys.stdouts (s : Sys) (numProcs : Nat) : List Str := (List.range numProcs).map fun i => s.stdout (UInt32.ofNat i)

variable {cfg : Config}

theorem mem_stdouts {text : Str} (ht : text ∈ s.stdouts cfg.n) : ∃ q : Word, q.toNat < cfg.n ∧ text = s.stdout q := by
  obtain ⟨i, hi, rfl⟩ := List.mem_map.1 ht
  refine ⟨_, ?_, rfl⟩
  rw [cfg.toNat_ofNat (List.mem_range.1 hi)]
  exact List.mem_range.1 hi

section
variable {ls : List Label} (hd : DistinctIds ls) (hrun : cfg.lts.Run ls s)
include hd hrun

/-- Two processes that have both delivered `k` messages have delivered the same `k` first. -/
theorem take_deliveries_eq (hw : cfg.lts.Along NoWrap ls) (hf : Fifo ls) (hp : p.toNat < cfg.n) (hq : q.toNat < cfg.n)
    (hkp : k ≤ (deliveries (s.log p)).length) (hkq : k ≤ (deliveries (s.log q)).length) :
    (deliveries (s.log p)).take k = (deliveries (s.log q)).take k := by
  have hnodup : ∀ q : Word, q.toNat < cfg.n → ((deliveries (s.log q)).map SeqMessage.key).Nodup :=
    fun q hq => (List.nodup_append.1 (separate hd hf hrun hq)).1
  have h := Sys.Inv.of_run hd hrun
  have hpre := h.firstDeliveries_prefix hp hq (Sys.Inv.ordered hd hw hrun hp) (Sys.Inv.ordered hd hw hrun hq)
  rw [firstDeliveries, firstDeliveries, firstsBy_eq_self (hnodup p hp), firstsBy_eq_self (hnodup q hq)] at hpre
  rcases hpre with ⟨ds, hds⟩ | ⟨ds, hds⟩
  · rw [← hds, List.take_append_of_le_length hkp]
  · rw [← hds, List.take_append_of_le_length hkq]

/-- If each of the processes multicasts `c` messages, these are `n * c`. -/
theorem length_launches {c : Nat}
    (hcount : ∀ p : Word, p.toNat < cfg.n → ((launches ls).map (·.sender)).count p = c) :
    (launches ls).length = cfg.n * c := by
  let senders : List Nat := ((launches ls).map (·.sender)).map UInt32.toNat
  have hlt : ∀ i ∈ (senders : Multiset Nat), i ∈ Finset.range cfg.n := by
    intro i hi
    obtain ⟨p, hp, rfl⟩ := List.mem_map.1 (Multiset.mem_coe.1 hi)
    obtain ⟨key, hkey, rfl⟩ := List.mem_map.1 hp
    obtain ⟨m, ⟨tid, t, ht, rfl⟩, rfl⟩ := (mem_launches_iff hrun).1 hkey
    exact Finset.mem_range.2 ((Sys.Inv.of_run hd hrun).thread tid t ht).1
  have hconst : ∀ i ∈ Finset.range cfg.n, (senders : Multiset Nat).count i = c := by
    intro i hi
    have hi := Finset.mem_range.1 hi
    have hword := cfg.toNat_ofNat hi
    rw [Multiset.coe_count, ← hcount (UInt32.ofNat i) (by rwa [hword])]
    nth_rewrite 1 [← hword]
    exact List.count_map_of_injective _ _ (fun _ _ => UInt32.toNat_inj.1) _
  have hcard := Multiset.sum_count_eq_card hlt
  rw [Finset.sum_congr rfl hconst, Finset.sum_const, Finset.card_range, Multiset.coe_card] at hcard
  simpa [senders] using hcard.symm

end

/-! ### The verdict -/

variable {c : CallbackSys} {ls : List CallbackLabel}

theorem deliveries_prefix_completed (c : CallbackSys) (q : Word) :
    deliveries (c.sys.log q) <+: deliveries (c.completed.log q) :=
  (c.log_prefix_completed q).filterMap _

theorem take_completed (hk : k ≤ (deliveries (c.sys.log q)).length) :
    (deliveries (c.sys.log q)).take k = (deliveries (c.completed.log q)).take k := by
  obtain ⟨ds, hds⟩ := deliveries_prefix_completed c q
  rw [← hds, List.take_append_of_le_length hk]

section
variable (hd : DistinctIds (ls.filterMap CallbackLabel.label)) (hf : Fifo (ls.filterMap CallbackLabel.label))
  (hrun : cfg.callbacks.Run ls c)
include hd hf hrun

theorem nodup_keys_of_fifo (hq : q.toNat < cfg.n) : ((deliveries (c.sys.log q)).map SeqMessage.key).Nodup :=
  (List.nodup_append.1 (separate hd hf (run_completed hrun) hq)).1.sublist
    ((deliveries_prefix_completed c q).sublist.map _)

theorem testTotalOrder_of_printed (hw : cfg.callbacks.Along CallbackSys.NoWrap ls)
    (hk : ∀ text ∈ c.sys.stdouts cfg.n, k ≤ (linesFrom [] text).length) :
    testTotalOrder k (c.sys.stdouts cfg.n) = true := by
  cases hlist : c.sys.stdouts cfg.n with
  | nil => rfl
  | cons text0 rest =>
    have hmem0 : text0 ∈ c.sys.stdouts cfg.n := hlist ▸ List.mem_cons_self
    rw [← hlist]
    obtain ⟨p, hp, rfl⟩ := mem_stdouts hmem0
    refine testTotalOrder_of_forall (o := ((deliveries (c.sys.log p)).take k).map messageLine) fun text ht => ?_
    obtain ⟨q, hq, rfl⟩ := mem_stdouts ht
    have hkp := hk _ hmem0
    have hkq := hk _ ht
    rw [linesFrom_stdout, List.length_map] at hkp hkq
    rw [msgOutput_stdout, take_completed hkp, take_completed hkq,
      take_deliveries_eq hd (run_completed hrun) (noWrap_completed hw hrun) hf hp hq
        (hkp.trans (deliveries_prefix_completed c p).length_le) (hkq.trans (deliveries_prefix_completed c q).length_le)]

theorem length_lines_of_allFinished (hfin : c.sys.AllFinished) (hq : q.toNat < cfg.n) (hout : c.inside q = none) :
    (linesFrom [] (c.sys.stdout q)).length = (launches (ls.filterMap CallbackLabel.label)).length := by
  have hperm := perm_launches hd hf (run_completed hrun) hfin hq
  rw [CallbackSys.log_completed hout] at hperm
  rw [linesFrom_stdout, List.length_map, ← hperm.length_eq, List.length_map]

end

/-- Over links that keep the order the test passes as soon as every process has printed as many lines as the test
reads, and no line occurs twice. When all multicasts have ended every process that is outside its callback has printed
as many lines as there were multicasts. -/
theorem testTotalOrder_passes (hd : DistinctIds (ls.filterMap CallbackLabel.label))
    (hw : cfg.callbacks.Along CallbackSys.NoWrap ls) (hf : Fifo (ls.filterMap CallbackLabel.label))
    (hrun : cfg.callbacks.Run ls c) :
    (∀ k, (∀ text ∈ c.sys.stdouts cfg.n, k ≤ (linesFrom [] text).length) →
      testTotalOrder k (c.sys.stdouts cfg.n) = true ∧
      ∀ text ∈ c.sys.stdouts cfg.n, ∃ out, msgOutput k text = some out ∧ out.length = k ∧ out.Nodup) ∧
    (c.sys.AllFinished → ∀ q, q.toNat < cfg.n → c.inside q = none →
      (linesFrom [] (c.sys.stdout q)).length = (launches (ls.filterMap CallbackLabel.label)).length) := by
  refine ⟨fun k hk => ⟨testTotalOrder_of_printed hd hf hrun hw hk, fun text ht => ?_⟩,
    fun hfin q hq hout => length_lines_of_allFinished hd hf hrun hfin hq hout⟩
  have hkq := hk _ ht
  obtain ⟨q, hq, rfl⟩ := mem_stdouts ht
  rw [linesFrom_stdout, List.length_map] at hkq
  refine ⟨_, msgOutput_stdout c.sys q k, by simpa using hkq, ?_⟩
  have hnodup : (((deliveries (c.sys.log q)).take k).map SeqMessage.key).Nodup :=
    (nodup_keys_of_fifo hd hf hrun hq).sublist ((List.take_sublist _ _).map _)
  refine List.Nodup.map_on (fun m hm m' hm' heq => ?_) hnodup.of_map
  exact List.inj_on_of_nodup_map hnodup hm hm' (messageLine_inj heq).1

/-- After `pairAnswered` the callback of process 1 goes on to its end. -/
def pairReturned : List CallbackLabel := pairAnswered ++ List.replicate 6 (.resume 1)

theorem exists_run_pairReturned : ∃ c, pair.callbacks.Run pairReturned c ∧ c.inside 0 = none ∧ c.inside 1 = none ∧
    deliveries (c.sys.log 0) = [pairFirst, pairSecond] ∧ deliveries (c.sys.log 1) = [pairFirst, pairSecond] := by
  have h : (pair.callbacks.exec pairReturned).map (fun c => (c.inside 0, c.inside 1, deliveries (c.sys.log 0),
      deliveries (c.sys.log 1))) = some (none, none, [pairFirst, pairSecond], [pairFirst, pairSecond]) := by decide
  obtain ⟨c, hrun, hc⟩ := Option.map_eq_some_iff.1 h
  simp only [Prod.mk.injEq] at hc
  exact ⟨c, hrun, hc⟩

theorem distinctIds_pairReturned : DistinctIds (pairReturned.filterMap CallbackLabel.label) := distinctIds_pairRun

theorem noWrap_pairReturned : pair.callbacks.Along CallbackSys.NoWrap pairReturned := by decide

theorem testTotalOrder_passes_pairReturned :
    ∃ c, pair.callbacks.Run pairReturned c ∧ testTotalOrder 2 (c.sys.stdouts 2) = true := by
  obtain ⟨c, hrun, -, -, hdel, hdel'⟩ := exists_run_pairReturned
  obtain ⟨hpass, -⟩ := testTotalOrder_passes distinctIds_pairReturned noWrap_pairReturned (by decide) hrun
  refine ⟨c, hrun, (hpass 2 fun text ht => ?_).1⟩
  obtain rfl | rfl : text = c.sys.stdout 0 ∨ text = c.sys.stdout 1 := by
    simpa [Sys.stdouts, pair, List.range_succ] using ht
  · rw [linesFrom_stdout, hdel]
    decide
  · rw [linesFrom_stdout, hdel']
    decide

/-! ### From the hostfile to the verdict -/

/-- The whole test. The processes are those of the hostfile that the test writes, and their threads find their clients
through the addresses there. When each of them has launched the count it was started with, all multicasts have ended
and all callbacks have returned, each has printed that many lines for every process, so the test has what it reads, and
it passes. -/
theorem test_completes {hostname : Str} {r : Routing cfg} {numMessages : Nat} (hports : firstPort + cfg.n ≤ 2 ^ 16)
    (hr : r.processes = (List.range cfg.n).map (setupAddress hostname))
    (hd : DistinctIds (ls.filterMap CallbackLabel.label)) (hw : r.callbacks.Along CallbackSys.NoWrap ls)
    (hf : Fifo (ls.filterMap CallbackLabel.label)) (hrun : r.callbacks.Run ls c)
    (hcount : ∀ p : Word, p.toNat < cfg.n →
      ((launches (ls.filterMap CallbackLabel.label)).map (·.sender)).count p = numMessages)
    (hfin : c.sys.AllFinished) (hout : ∀ q, q.toNat < cfg.n → c.inside q = none) :
    testTotalOrder numMessages (c.sys.stdouts cfg.n) = true ∧
    ∀ text ∈ c.sys.stdouts cfg.n, (linesFrom [] text).length = cfg.n * numMessages := by
  have hnodup : r.processes.Nodup := hr ▸ nodup_setupAddress hports hostname
  have hrun := (Routing.callbacks_run_iff hnodup ls c).1 hrun
  have hw : cfg.callbacks.Along CallbackSys.NoWrap ls :=
    Lts.along_of_run_iff (fun ls c => (Routing.callbacks_run_iff hnodup ls c).2) hw
  have hlines : ∀ text ∈ c.sys.stdouts cfg.n, (linesFrom [] text).length = cfg.n * numMessages := by
    intro text ht
    obtain ⟨q, hq, rfl⟩ := mem_stdouts ht
    rw [length_lines_of_allFinished hd hf hrun hfin hq (hout q hq), length_launches hd (run_completed hrun) hcount]
  refine ⟨testTotalOrder_of_printed hd hf hrun hw fun text ht => ?_, hlines⟩
  obtain ⟨q, hq, -⟩ := mem_stdouts ht
  rw [hlines text ht]
  exact Nat.le_mul_of_pos_left _ (Nat.zero_lt_of_lt hq)

theorem getElem?_setupRouting : ∀ a ∈ (List.range 2).map (setupAddress ['h']),
    ((List.range 2).map (setupAddress ['h']))[(if a.port = 3456 then 0 else 1 : Word).toNat]? = some a := by decide

/-- Two processes of the test. -/
def setupRouting : Routing pair where
  processes := (List.range 2).map (setupAddress ['h'])
  length_eq := pairRouting.length_eq
  bound a := if a.port = 3456 then 0 else 1
  bound_addr := getElem?_setupRouting

theorem test_completes_pairReturned : ∃ c, setupRouting.callbacks.Run pairReturned c ∧
    testTotalOrder 1 (c.sys.stdouts 2) = true ∧ ∀ text ∈ c.sys.stdouts 2, (linesFrom [] text).length = 2 := by
  have hports : firstPort + pair.n ≤ 2 ^ 16 := by decide
  have hiff := Routing.callbacks_run_iff (r := setupRouting) (nodup_setupAddress hports ['h'])
  obtain ⟨c, hrun, hout, hout', -⟩ := exists_run_pairReturned
  have hw : setupRouting.callbacks.Along CallbackSys.NoWrap pairReturned :=
    Lts.along_of_run_iff (fun ls c => (hiff ls c).1) noWrap_pairReturned
  have hcount : ∀ p : Word, p.toNat < 2 →
      ((launches (pairReturned.filterMap CallbackLabel.label)).map (·.sender)).count p = 1 := by
    intro p hp
    rcases lt_two_cases hp with rfl | rfl <;> decide
  have hfin : c.sys.AllFinished := allFinished_pairRun (s := c.completed) (run_completed hrun)
  have houts : ∀ q : Word, q.toNat < 2 → c.inside q = none := by
    intro q hq
    rcases lt_two_cases hq with rfl | rfl
    · exact hout
    · exact hout'
  have hrun' := (hiff pairReturned c).2 hrun
  exact ⟨c, hrun', test_completes hports rfl distinctIds_pairReturned hw (by decide) hrun' hcount hfin houts⟩

end IsisMulticast

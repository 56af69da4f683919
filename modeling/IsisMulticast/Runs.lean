import IsisMulticast.SenderInv

/-!
# The assumptions on runs

The results hold over any network and for any interleaving; what they assume is stated here, on the
labels of a run or on the states its steps are taken in: a process draws no message id twice
(`DistinctIds`), no sequence counter wraps (`NoWrap`), and, for the results that need it, the network
delivers in order (`Fifo`).
-/

namespace IsisMulticast
open Lib

def Label.DistinctLaunch : Label → Label → Prop
  | .launch _ id msgId _, .launch _ id' msgId' _ => ¬ (id = id' ∧ msgId = msgId')
  | _, _ => True

instance : DecidableRel Label.DistinctLaunch := fun l l' => by
  cases l <;> cases l' <;> first | exact instDecidableNot | exact .isTrue trivial

def DistinctIds (ls : List Label) : Prop := ls.Pairwise Label.DistinctLaunch

instance (ls : List Label) : Decidable (DistinctIds ls) := inferInstanceAs (Decidable (ls.Pairwise _))

/-- The datagram makes the process propose a new number. -/
def Process.proposes (p : Process) (buf : Buf) : Bool :=
  match dataMsgFromBuf p.host buf with
  | none => false
  | some m => validDataMsg m p.processCount && (p.holdBackQueue.lookup m).isNone

theorem Process.proposes_sendDataMsg {p : Process} {m : DataMessage} (h : HostOrder) (hs : m.sender.toNat < p.processCount)
    (hp : p.holdBackQueue.pendingSeqs.lookup m.key = none) : p.proposes (sendDataMsg h m) = true := by
  have hv : validDataMsg { m with type := kDataMessageType } p.processCount = true := validDataMsg_iff.2 ⟨rfl, hs⟩
  have hl : p.holdBackQueue.lookup { m with type := kDataMessageType } = none := HoldBackQueue.lookup_eq_none.2 hp
  simp [proposes, hv, hl]

/-- The step does not increment a counter past the largest word. -/
def NoWrap (s : Sys) : Label → Prop
  | .serve lk j _ => ∀ buf ∈ (s.requests lk)[j]?, (s.servers lk.server).process.proposes buf →
      (s.servers lk.server).process.seqCounter.toNat + 1 < 2 ^ 32
  | _ => True

instance (s : Sys) : DecidablePred (NoWrap s)
  | .serve .. => Option.decidableForallMem _
  | .launch .. | .lock .. | .send .. | .timeout .. | .receive .. => .isTrue trivial

/-- Of two receives on one socket the later one reads the later datagram. -/
def Label.InOrder : Label → Label → Prop
  | .serve lk j _, .serve lk' j' _ => lk = lk' → j < j'
  | .receive _ lk j, .receive _ lk' j' => lk = lk' → j < j'
  | _, _ => True

instance : DecidableRel Label.InOrder := fun l l' => by
  cases l <;> cases l' <;> first | exact .isTrue trivial | exact instDecidableForall

/-- Datagrams may be lost or delayed on a link, but are neither duplicated nor reordered. -/
def Fifo (ls : List Label) : Prop := ls.Pairwise Label.InOrder

instance (ls : List Label) : Decidable (Fifo ls) := inferInstanceAs (Decidable (ls.Pairwise _))

/-! ### Small systems -/

def single : Config := ⟨1, by decide, fun _ => .little⟩

def pair : Config := ⟨2, by decide, fun id => if id = 0 then .little else .big⟩

/-- A call of `SendWithAck` whose first datagram, number `j` on its link, is answered at once. -/
def callAnswered (tid : Nat) (lk : Link) (j : Nat) : List Label :=
  [.lock tid, .send tid, .serve lk j 0, .receive tid lk j]

/-- Each process multicasts one message, both with message id 7. The data messages arrive in opposite
orders, so that both get the final number 2. -/
def pairRun : List Label :=
  [.launch 0 0 7 50, .launch 1 1 7 60] ++
  callAnswered 0 ⟨0, 0⟩ 0 ++ callAnswered 1 ⟨1, 0⟩ 0 ++ callAnswered 1 ⟨1, 1⟩ 0 ++ callAnswered 0 ⟨0, 1⟩ 0 ++
  callAnswered 1 ⟨1, 0⟩ 1 ++ callAnswered 0 ⟨0, 0⟩ 1 ++ callAnswered 1 ⟨1, 1⟩ 1 ++ callAnswered 0 ⟨0, 1⟩ 1

theorem distinctIds_pairRun : DistinctIds pairRun := by decide

theorem noWrap_pairRun : pair.lts.Along NoWrap pairRun := by decide

/-- The message of process 0 in `pairRun`, as it is delivered. -/
def pairFirst : SeqMessage := { sender := 0, msgId := 7, finalSeq := 2, finalSeqProposer := 1 }

def pairSecond : SeqMessage := { sender := 1, msgId := 7, finalSeq := 2, finalSeqProposer := 0 }

theorem exists_run_pairRun : ∃ s, pair.lts.Run pairRun s ∧
    deliveries (s.log 0) = [pairFirst, pairSecond] ∧ deliveries (s.log 1) = [pairFirst, pairSecond] := by
  have h : (pair.lts.exec pairRun).map (fun s => (deliveries (s.log 0), deliveries (s.log 1))) =
      some ([pairFirst, pairSecond], [pairFirst, pairSecond]) := by decide
  obtain ⟨s, hs, hdel⟩ := Option.map_eq_some_iff.1 h
  exact ⟨s, hs, Prod.mk.inj hdel⟩

/-! ### Distinct ids, step by step -/

/-- The step launches no thread for a message that a thread has already. -/
def FreshId (s : Sys) : Label → Prop
  | .launch _ id msgId _ => ∀ tid t, s.senders tid = some t → t.key ≠ ⟨id, msgId⟩
  | _ => True

variable {cfg : Config} {s s' : Sys} {l : Label} {ls : List Label}

theorem eq_or_eq_some_of_update {f : Nat → Option Sender} {i j : Nat} {t u : Sender}
    (h : Function.update f i (some u) j = some t) : j = i ∧ t = u ∨ f j = some t := by
  by_cases hj : j = i
  · subst hj
    rw [Function.update_self, Option.some.injEq] at h
    exact .inl ⟨rfl, h.symm⟩
  · rw [Function.update_of_ne hj] at h
    exact .inr h

theorem exists_evolves_of_update {f : Nat → Option Sender} {i j : Nat} {t₀ t u : Sender} (ht₀ : f i = some t₀)
    (hev : t₀.Evolves u) (h : Function.update f i (some u) j = some t) : ∃ t₁, f j = some t₁ ∧ t₁.Evolves t := by
  rcases eq_or_eq_some_of_update h with ⟨rfl, rfl⟩ | h
  · exact ⟨t₀, ht₀, hev⟩
  · exact ⟨t, h, .refl t⟩

/-- Where a thread comes from. -/
theorem Step.sender_cases (h : Step cfg s l s') {tid : Nat} {t : Sender} (ht : s'.senders tid = some t) :
    (∃ t₀, s.senders tid = some t₀ ∧ t₀.Evolves t) ∨
      ∃ id msgId data, l = .launch tid id msgId data ∧ t = .launch cfg.n id msgId data := by
  cases h with
  | launch hid hnone =>
    rcases eq_or_eq_some_of_update ht with ⟨rfl, rfl⟩ | ht
    · exact .inr ⟨_, _, _, rfl, rfl⟩
    · exact .inl ⟨t, ht, .refl t⟩
  | lock ht₀ => exact .inl (exists_evolves_of_update ht₀ (Sender.evolves_setPc _ _) ht)
  | send ht₀ => exact .inl (exists_evolves_of_update ht₀ (Sender.evolves_setPc _ _) ht)
  | timeout ht₀ hlk ht' => exact .inl (exists_evolves_of_update ht₀ (Sender.evolves_of_afterReceive ht') ht)
  | receive ht₀ hlk ha ht' => exact .inl (exists_evolves_of_update ht₀ (Sender.evolves_of_afterReceive ht') ht)
  | serve => exact .inl ⟨t, ht, .refl t⟩

/-- Every thread was launched by a step of the run. -/
theorem exists_launch (h : cfg.lts.Run ls s) {tid : Nat} {t : Sender} (ht : s.senders tid = some t) :
    ∃ id msgId data, .launch tid id msgId data ∈ ls ∧ t.key = ⟨id, msgId⟩ := by
  refine h.induction (P := fun ls s => ∀ t, s.senders tid = some t →
    ∃ id msgId data, .launch tid id msgId data ∈ ls ∧ t.key = ⟨id, msgId⟩) ?_ ?_ t ht
  · intro t ht
    simp [Config.lts, Sys.init] at ht
  · intro ls s l s' _ ih hs t ht
    rcases (step_iff.1 hs).sender_cases ht with ⟨t₀, ht₀, hev⟩ | ⟨id, msgId, data, rfl, rfl⟩
    · obtain ⟨id, msgId, data, hmem, hk⟩ := ih t₀ ht₀
      exact ⟨id, msgId, data, by simp [hmem], hev.key.trans hk⟩
    · exact ⟨id, msgId, data, by simp, rfl⟩

theorem DistinctIds.along (hd : DistinctIds ls) : cfg.lts.Along FreshId ls := by
  rintro ls₁ l ls₂ s rfl hrun
  match l with
  | .launch tid id msgId data =>
    rintro tid' t ht hk
    obtain ⟨id', msgId', data', hmem, hk'⟩ := exists_launch hrun ht
    have hne := (List.pairwise_append.1 hd).2.2 _ hmem _ (List.mem_cons_self ..)
    obtain ⟨rfl, rfl⟩ := PendingMessageKey.mk.inj (hk'.symm.trans hk)
    exact hne ⟨rfl, rfl⟩
  | .lock _ => trivial
  | .send _ => trivial
  | .timeout _ => trivial
  | .receive _ _ _ => trivial
  | .serve _ _ _ => trivial

theorem DistinctIds.append_left {ls' : List Label} (h : DistinctIds (ls ++ ls')) : DistinctIds ls :=
  (List.pairwise_append.1 h).1

theorem DistinctIds.of_prefix {ls' : List Label} (hd : DistinctIds ls') (h : ls <+: ls') : DistinctIds ls :=
  hd.sublist h.sublist

end IsisMulticast

import IsisMulticast.Lib.Stoi
import Mathlib.Data.List.Forall2

/-!
# Addresses and the hostfile (`net.cc`: `AddressWithDefaultPort`, `main.cc`: `GetProcesses`)

A line of the hostfile is `<hostname>` or `<hostname>:<port>`. The port is read by `std::stoi`, which takes signs and
leading white space and ignores what stands behind the digits, and the `int` is then converted to a
16-bit port. So more is accepted than the two forms, with ports that are not written there
(`malformed_ports_accepted`): exactly the texts that are a port with something around it or a number that is
none (`address_exact_iff`).
-/

namespace IsisMulticast.Net
open Lib

/-- A `std::string`. -/
abbrev Str := List Char

structure Address where
  hostname : Str
  port : UInt16
deriving DecidableEq, Repr

/-- The exceptions that come out of `AddressWithDefaultPort`, with their `what()`. -/
inductive Exception where
  | invalidArgument (what : String)
  | outOfRange (what : String)
deriving DecidableEq, Repr

/-- The standard does not fix the text of these; it is the name of the function in most libraries. -/
def Exception.ofStoi : StoiError → Exception
  | .invalidArgument => .invalidArgument "stoi"
  | .outOfRange => .outOfRange "stoi"

def addressWithDefaultPort (addr : Str) (port : Option UInt16) : Except Exception Address :=
  match addr.findIdx? (· == ':') with
  | some found =>
    match stoi (addr.drop (found + 1)) with
    | .ok port => .ok ⟨addr.take found, UInt16.ofInt port⟩
    | .error e => .error (.ofStoi e)
  | none =>
    match port with
    | none => .error (.invalidArgument "port not specified in address and no default port provided")
    | some port => .ok ⟨addr, port⟩

/-! ### The intended notation -/

/-- The address a text of one of the two forms stands for. -/
inductive Denotes (default : Option UInt16) : Str → Address → Prop
  | host {h : Str} {p : UInt16} (hh : ':' ∉ h) (hp : default = some p) : Denotes default h ⟨h, p⟩
  | hostPort {h d : Str} {p : UInt16} (hh : ':' ∉ h) (hne : d ≠ []) (hd : ∀ c ∈ d, c.isDigit = true)
      (hp : natValue d = p.toNat) : Denotes default (h ++ ':' :: d) ⟨h, p⟩

/-- If there is a number after the first colon, and it is an `int`, then nothing stands around it and it is a port. -/
def PlainPort (s : Str) : Prop :=
  ∀ h d space sign digits rest, s = h ++ ':' :: d → ':' ∉ h → Scans d space sign digits rest →
    IsInt (intValue sign digits) → space = [] ∧ sign = [] ∧ rest = [] ∧ natValue digits < 65536

variable {s h h' d d' : Str} {default : Option UInt16} {a : Address} {p : UInt16} {v : Int}

theorem findIdx?_colon_eq_none (hh : ':' ∉ h) : h.findIdx? (· == ':') = none := by
  refine List.findIdx?_eq_none_iff.2 fun c hc => ?_
  have hne : c ≠ ':' := fun heq => hh (heq ▸ hc)
  simpa using hne

theorem findIdx?_append_colon (hh : ':' ∉ h) : (h ++ ':' :: d).findIdx? (· == ':') = some h.length := by
  rw [List.findIdx?_append, findIdx?_colon_eq_none hh, List.findIdx?_cons]
  simp

/-- The first colon splits a text in one way. -/
theorem append_colon_inj (hh : ':' ∉ h) (hh' : ':' ∉ h') (heq : h ++ ':' :: d = h' ++ ':' :: d') :
    h = h' ∧ d = d' := by
  have hlen := (findIdx?_append_colon (d := d) hh).symm.trans (heq ▸ findIdx?_append_colon hh')
  obtain ⟨rfl, hd⟩ := List.append_inj heq (Option.some.inj hlen)
  exact ⟨rfl, (List.cons.inj hd).2⟩

theorem addressWithDefaultPort_host (hh : ':' ∉ h) :
    addressWithDefaultPort h default = .ok a ↔ ∃ p, default = some p ∧ a = ⟨h, p⟩ := by
  simp only [addressWithDefaultPort, findIdx?_colon_eq_none hh]
  cases default with
  | none => simp
  | some p => simp [eq_comm]

theorem addressWithDefaultPort_colon (hh : ':' ∉ h) :
    addressWithDefaultPort (h ++ ':' :: d) default = .ok a ↔ ∃ v, stoi d = .ok v ∧ a = ⟨h, UInt16.ofInt v⟩ := by
  have hdrop : (h ++ ':' :: d).drop (h.length + 1) = d := by simp
  have htake : (h ++ ':' :: d).take h.length = h := by simp
  simp only [addressWithDefaultPort, findIdx?_append_colon hh, hdrop, htake]
  cases stoi d with
  | error e => simp
  | ok v => simp [eq_comm]

theorem denotes_host (hh : ':' ∉ h) : Denotes default h a ↔ ∃ p, default = some p ∧ a = ⟨h, p⟩ := by
  constructor
  · intro hden
    cases hden with
    | host _ hp => exact ⟨_, hp, rfl⟩
    | hostPort => simp at hh
  · rintro ⟨p, hp, rfl⟩
    exact .host hh hp

theorem denotes_colon (hh : ':' ∉ h) : Denotes default (h ++ ':' :: d) a ↔
    d ≠ [] ∧ (∀ c ∈ d, c.isDigit = true) ∧ a.hostname = h ∧ natValue d = a.port.toNat := by
  constructor
  · intro hden
    generalize heq : h ++ ':' :: d = s at hden
    cases hden with
    | host hs => simp [← heq] at hs
    | hostPort hh' hne hd hp =>
      obtain ⟨rfl, rfl⟩ := append_colon_inj hh hh' heq
      exact ⟨hne, hd, rfl, hp⟩
  · obtain ⟨h', p⟩ := a
    rintro ⟨hne, hd, rfl, hp⟩
    exact .hostPort hh hne hd hp

theorem toNat_ofInt {n : Nat} (hn : n < 65536) : (UInt16.ofInt n).toNat = n := by
  rw [UInt16.ofInt, UInt16.toNat_ofNat']
  omega

/-- A numeral of a port is read as that port. -/
theorem stoi_of_isDigit (hne : d ≠ []) (hd : ∀ c ∈ d, c.isDigit = true) (hlt : natValue d < 65536) :
    stoi d = .ok (natValue d) := by
  refine stoi_eq_ok_iff.2 ⟨⟨[], [], d, [], ⟨by simp, by simp, .inl rfl, hne, hd, by simp⟩, rfl⟩, ?_⟩
  rw [IsInt]
  omega

/-- What is accepted: a host, if there is a default port, or a host with a text after the first colon that starts
with a number. The port is the number modulo `2 ^ 16`. -/
theorem addressWithDefaultPort_eq_ok_iff : addressWithDefaultPort s default = .ok a ↔
    (':' ∉ s ∧ ∃ p, default = some p ∧ a = ⟨s, p⟩) ∨
    ∃ h d space sign digits rest, s = h ++ ':' :: d ∧ ':' ∉ h ∧ Scans d space sign digits rest ∧
      IsInt (intValue sign digits) ∧ a = ⟨h, UInt16.ofInt (intValue sign digits)⟩ := by
  by_cases hs : ':' ∈ s
  · obtain ⟨h, d, rfl, hh⟩ := List.eq_append_cons_of_mem hs
    rw [addressWithDefaultPort_colon hh]
    simp only [stoi_eq_ok_iff]
    constructor
    · rintro ⟨v, ⟨⟨space, sign, digits, rest, hscan, rfl⟩, hint⟩, rfl⟩
      exact .inr ⟨h, d, space, sign, digits, rest, rfl, hh, hscan, hint, rfl⟩
    · rintro (⟨hno, -⟩ | ⟨h', d', space, sign, digits, rest, heq, hh', hscan, hint, rfl⟩)
      · exact absurd hs hno
      · obtain ⟨rfl, rfl⟩ := append_colon_inj hh hh' heq
        exact ⟨_, ⟨⟨space, sign, digits, rest, hscan, rfl⟩, hint⟩, rfl⟩
  · rw [addressWithDefaultPort_host hs]
    constructor
    · exact fun h => .inl ⟨hs, h⟩
    · rintro (⟨-, h⟩ | ⟨h, d, -, -, -, -, rfl, -⟩)
      · exact h
      · simp at hs

theorem denotes_of_plainPort (hs : PlainPort (h ++ ':' :: d)) (hh : ':' ∉ h) (hv : stoi d = .ok v) :
    Denotes default (h ++ ':' :: d) ⟨h, UInt16.ofInt v⟩ := by
  obtain ⟨⟨space, sign, digits, rest, hscan, rfl⟩, hint⟩ := stoi_eq_ok_iff.1 hv
  obtain ⟨rfl, rfl, rfl, hlt⟩ := hs h d space sign digits rest rfl hh hscan hint
  obtain rfl : d = digits := by simpa using hscan.eq_append
  exact (denotes_colon hh).2 ⟨hscan.ne_nil, hscan.digits, rfl, (toNat_ofInt hlt).symm⟩

theorem ok_of_denotes (hden : Denotes default s a) : addressWithDefaultPort s default = .ok a := by
  cases hden with
  | host hh hp => exact (addressWithDefaultPort_host hh).2 ⟨_, hp, rfl⟩
  | @hostPort h d p hh hne hd hp =>
    have hlt : natValue d < 65536 := hp ▸ p.toNat_lt
    refine (addressWithDefaultPort_colon hh).2 ⟨_, stoi_of_isDigit hne hd hlt, ?_⟩
    have hport : p = UInt16.ofInt (natValue d) := UInt16.toNat_inj.1 (hp.symm.trans (toNat_ofInt hlt).symm)
    rw [← hport]

theorem PlainPort.ok_iff_denotes (hs : PlainPort s) :
    addressWithDefaultPort s default = .ok a ↔ Denotes default s a := by
  refine ⟨fun hok => ?_, ok_of_denotes⟩
  by_cases hcolon : ':' ∈ s
  · obtain ⟨h, d, rfl, hh⟩ := List.eq_append_cons_of_mem hcolon
    obtain ⟨v, hv, rfl⟩ := (addressWithDefaultPort_colon hh).1 hok
    exact denotes_of_plainPort hs hh hv
  · exact (denotes_host hcolon).2 ((addressWithDefaultPort_host hcolon).1 hok)

/-- A text is accepted exactly if it is of one of the two forms, and then as the address it stands for, if and only if
a number after its first colon has nothing around it and is a port. -/
theorem address_exact_iff (s : Str) (default : Option UInt16) :
    (∀ a, addressWithDefaultPort s default = .ok a ↔ Denotes default s a) ↔ PlainPort s := by
  refine ⟨?_, fun hs a => hs.ok_iff_denotes⟩
  rintro hexact h d space sign digits rest rfl hh hscan hint
  have hv : stoi d = .ok (intValue sign digits) :=
    stoi_eq_ok_iff.2 ⟨⟨space, sign, digits, rest, hscan, rfl⟩, hint⟩
  have hden := (hexact _).1 ((addressWithDefaultPort_colon hh).2 ⟨_, hv, rfl⟩)
  obtain ⟨-, hd, -, hp⟩ := (denotes_colon hh).1 hden
  obtain ⟨rfl, rfl, rfl, rfl⟩ := hscan.of_isDigit hd
  exact ⟨rfl, rfl, rfl, hp ▸ UInt16.toNat_lt _⟩

/-- Trailing text, a sign, and a number that is no port. -/
theorem malformed_ports_accepted :
    (addressWithDefaultPort ['a', ':', '8', '0', 'b'] none = .ok ⟨['a'], 80⟩ ∧
      ¬ Denotes none ['a', ':', '8', '0', 'b'] ⟨['a'], 80⟩) ∧
    (addressWithDefaultPort ['a', ':', '-', '1'] none = .ok ⟨['a'], 65535⟩ ∧
      ¬ Denotes none ['a', ':', '-', '1'] ⟨['a'], 65535⟩) ∧
    addressWithDefaultPort ['a', ':', '7', '0', '0', '0', '0'] none = .ok ⟨['a'], 4464⟩ ∧
      ¬ Denotes none ['a', ':', '7', '0', '0', '0', '0'] ⟨['a'], 4464⟩ := by
  have hcolon : ∀ {d : Str} {a : Address}, Denotes none (['a'] ++ ':' :: d) a →
      (∀ c ∈ d, c.isDigit = true) ∧ natValue d = a.port.toNat := by
    intro d a hden
    obtain ⟨-, hd, -, hp⟩ := (denotes_colon (by decide)).1 hden
    exact ⟨hd, hp⟩
  refine ⟨⟨by decide, fun h => ?_⟩, ⟨by decide, fun h => ?_⟩, by decide, fun h => ?_⟩
  · exact absurd ((hcolon h).1 'b' (by simp)) (by decide)
  · exact absurd ((hcolon h).1 '-' (by simp)) (by decide)
  · exact absurd (hcolon h).2 (by simp [natValue])

/-! ### The hostfile -/

/-- The words that `file >> host` reads, when `word` is read so far. -/
def wordsFrom (word : Str) : Str → List Str
  | [] => if word = [] then [] else [word]
  | c :: cs =>
    if isSpace c then
      if word = [] then wordsFrom [] cs else word :: wordsFrom [] cs
    else wordsFrom (word ++ [c]) cs

/-- The exceptions that come out of `GetProcesses`. -/
inductive HostfileError where
  | runtimeError (what : String)
  | usageError (what : String)
  | outOfRange (what : String)
deriving DecidableEq, Repr

/-- The handler in the loop catches `std::invalid_argument` only. -/
def HostfileError.ofException : Exception → HostfileError
  | .invalidArgument what => .usageError what
  | .outOfRange what => .outOfRange what

def readProcesses (defaultPort : Option UInt16) : List Str → Except HostfileError (List Address)
  | [] => .ok []
  | host :: hosts =>
    match addressWithDefaultPort host defaultPort with
    | .error e => .error (.ofException e)
    | .ok addr => (readProcesses defaultPort hosts).map (addr :: ·)

/-- `hostfile` is the contents of the file, if it can be opened. -/
def getProcesses (hostfile : Option Str) (defaultPort : Option UInt16) : Except HostfileError (List Address) :=
  match hostfile with
  | none => .error (.runtimeError "could not open hostfile")
  | some contents => readProcesses defaultPort (wordsFrom [] contents)

theorem readProcesses_eq_ok_iff {hosts : List Str} {addrs : List Address} :
    readProcesses default hosts = .ok addrs ↔
      List.Forall₂ (fun host addr => addressWithDefaultPort host default = .ok addr) hosts addrs := by
  induction hosts generalizing addrs with
  | nil => cases addrs <;> simp [readProcesses]
  | cons host hosts ih =>
    rw [readProcesses, List.forall₂_cons_left_iff]
    cases hhost : addressWithDefaultPort host default with
    | error e => simp
    | ok addr =>
      simp only [Except.ok.injEq, ← ih]
      cases hrest : readProcesses default hosts with
      | error e => simp [Except.map]
      | ok rest => simp [Except.map, eq_comm]

example : getProcesses (some ['a', ' ', 'b', ':', '1']) (some 9) = .ok [⟨['a'], 9⟩, ⟨['b'], 1⟩] := by decide

end IsisMulticast.Net

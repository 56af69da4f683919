import Mathlib.Algebra.Group.Nat.Defs
import Mathlib.Data.List.Basic
import Mathlib.Tactic.SplitIfs

/-!
# Messages and host byte order (`message.h`)

The four message structs are records of 32-bit words without padding. A struct in memory is the
list of the bytes of its words, each in the byte order of the host; `htonl` and `ntohl` turn a word
into the one whose bytes in memory are big-endian, and back.
-/

namespace IsisMulticast

/-- `std::uint32_t`. -/
abbrev Word := UInt32

def kDataMessageType : Word := 1
def kAckMessageType : Word := 2
def kSeqMessageType : Word := 3
def kSeqAckMessageType : Word := 4

/-- The `type` word is only set by the send functions (`Codec.lean`); a message built in memory before
that leaves it indeterminate, which is the default here. -/
structure DataMessage where
  type : Word := 0
  sender : Word
  msgId : Word
  data : Word
deriving DecidableEq, Repr

structure AckMessage where
  type : Word := 0
  sender : Word
  msgId : Word
  proposedSeq : Word
  proposer : Word
deriving DecidableEq, Repr

structure SeqMessage where
  type : Word := 0
  sender : Word
  msgId : Word
  finalSeq : Word
  finalSeqProposer : Word
deriving DecidableEq, Repr

def SeqMessage.untyped (m : SeqMessage) : SeqMessage := { m with type := 0 }

structure SeqAckMessage where
  type : Word := 0
  sender : Word
  msgId : Word
deriving DecidableEq, Repr

/-- The contents of a datagram. The buffers of the source are zeroed before a datagram is read into
them, so the bytes past the end of the datagram are zero (`wordAt`). -/
abbrev Buf := List UInt8

theorem toNat_add_one {w : Word} (h : w.toNat + 1 < 2 ^ 32) : (w + 1).toNat = w.toNat + 1 := by
  rw [UInt32.toNat_add, UInt32.toNat_one]; omega

theorem lt_add_one {w : Word} (h : w.toNat + 1 < 2 ^ 32) : w < w + 1 := by
  rw [UInt32.lt_iff_toNat_lt, toNat_add_one h]
  exact Nat.lt_succ_self _

theorem lt_add_one_iff {v w : Word} (h : w.toNat + 1 < 2 ^ 32) : v < w + 1 ↔ v < w ∨ v = w := by
  rw [UInt32.lt_iff_toNat_lt, UInt32.lt_iff_toNat_lt, ← UInt32.toNat_inj, toNat_add_one h]
  omega

/-! ### Byte order -/

inductive HostOrder where
  | big
  | little
deriving DecidableEq, Repr

def byte (w : Word) (i : Nat) : UInt8 := UInt8.ofNat (w.toNat / 256 ^ i)

/-- The word with the given bytes, most significant first. -/
def ofBytes (a b c d : UInt8) : Word :=
  UInt32.ofNat (a.toNat * 2 ^ 24 + b.toNat * 2 ^ 16 + c.toNat * 2 ^ 8 + d.toNat)

theorem toNat_ofBytes (a b c d : UInt8) :
    (ofBytes a b c d).toNat = a.toNat * 2 ^ 24 + b.toNat * 2 ^ 16 + c.toNat * 2 ^ 8 + d.toNat := by
  have ha := a.toNat_lt
  have hb := b.toNat_lt
  have hc := c.toNat_lt
  have hd := d.toNat_lt
  rw [ofBytes, UInt32.toNat_ofNat']
  omega

theorem toNat_byte (w : Word) (i : Nat) : (byte w i).toNat = w.toNat / 256 ^ i % 256 := by
  simp [byte]

@[simp] theorem ofBytes_byte (w : Word) : ofBytes (byte w 3) (byte w 2) (byte w 1) (byte w 0) = w := by
  have hw := w.toNat_lt
  apply UInt32.toNat_inj.1
  simp only [toNat_ofBytes, toNat_byte]
  omega

section
variable (a b c d : UInt8)

theorem byte_eq_of_toNat {w : Word} {i : Nat} {x : UInt8} (h : w.toNat / 256 ^ i % 256 = x.toNat) :
    byte w i = x :=
  UInt8.toNat_inj.1 (by rw [toNat_byte, h])

@[simp] theorem byte_ofBytes_zero : byte (ofBytes a b c d) 0 = d := by
  have hd := d.toNat_lt
  apply byte_eq_of_toNat; rw [toNat_ofBytes]; omega

@[simp] theorem byte_ofBytes_one : byte (ofBytes a b c d) 1 = c := by
  have hc := c.toNat_lt
  have hd := d.toNat_lt
  apply byte_eq_of_toNat; rw [toNat_ofBytes]; omega

@[simp] theorem byte_ofBytes_two : byte (ofBytes a b c d) 2 = b := by
  have hb := b.toNat_lt
  have hc := c.toNat_lt
  have hd := d.toNat_lt
  apply byte_eq_of_toNat; rw [toNat_ofBytes]; omega

@[simp] theorem byte_ofBytes_three : byte (ofBytes a b c d) 3 = a := by
  have ha := a.toNat_lt
  have hb := b.toNat_lt
  have hc := c.toNat_lt
  have hd := d.toNat_lt
  apply byte_eq_of_toNat; rw [toNat_ofBytes]; omega

end

/-- The bytes of a word in the memory of the host. -/
def store : HostOrder → Word → Buf
  | .big, w => [byte w 3, byte w 2, byte w 1, byte w 0]
  | .little, w => [byte w 0, byte w 1, byte w 2, byte w 3]

def load : HostOrder → UInt8 → UInt8 → UInt8 → UInt8 → Word
  | .big, a, b, c, d => ofBytes a b c d
  | .little, a, b, c, d => ofBytes d c b a

def htonl : HostOrder → Word → Word
  | .big, w => w
  | .little, w => ofBytes (byte w 0) (byte w 1) (byte w 2) (byte w 3)

def ntohl : HostOrder → Word → Word := htonl

/-- On every host the bytes of `htonl w` in memory are those of `w`, most significant first. -/
theorem store_htonl (h : HostOrder) (w : Word) : store h (htonl h w) = store .big w := by
  cases h <;> simp [store, htonl]

theorem ntohl_load (h : HostOrder) (a b c d : UInt8) : ntohl h (load h a b c d) = ofBytes a b c d := by
  cases h <;> simp [ntohl, htonl, load]

/-- Word number `i` of the struct that starts at the beginning of the buffer. -/
def wordAt (h : HostOrder) (buf : Buf) (i : Nat) : Word :=
  load h (buf.getD (4 * i) 0) (buf.getD (4 * i + 1) 0) (buf.getD (4 * i + 2) 0) (buf.getD (4 * i + 3) 0)

theorem ntohl_wordAt (h : HostOrder) (buf : Buf) (i : Nat) : ntohl h (wordAt h buf i) = wordAt .big buf i := by
  rw [wordAt, ntohl_load]; rfl

/-- The bytes of a struct with the given fields after each went through `htonl`. -/
def networkBytes (h : HostOrder) (ws : List Word) : Buf := ws.flatMap fun w => store h (htonl h w)

theorem networkBytes_cons (h : HostOrder) (w : Word) (ws : List Word) :
    networkBytes h (w :: ws) = byte w 3 :: byte w 2 :: byte w 1 :: byte w 0 :: networkBytes h ws := by
  rw [networkBytes, List.flatMap_cons, store_htonl]; rfl

@[simp] theorem length_networkBytes (h : HostOrder) (ws : List Word) :
    (networkBytes h ws).length = 4 * ws.length := by
  induction ws with
  | nil => rfl
  | cons w ws ih => rw [networkBytes_cons]; simp only [List.length_cons, ih]; omega

theorem ntohl_wordAt_networkBytes (h h' : HostOrder) (ws : List Word) {i : Nat} (hi : i < ws.length) :
    ntohl h (wordAt h (networkBytes h' ws) i) = ws[i] := by
  induction ws generalizing i with
  | nil => simp at hi
  | cons w ws ih =>
    cases i with
    | zero => simp [wordAt, networkBytes_cons, ntohl_load]
    | succ i =>
      rw [List.getElem_cons_succ, ← ih (by simpa using hi)]
      simp only [wordAt, networkBytes_cons, Nat.mul_add, Nat.add_assoc]
      simp

theorem networkBytes_wordAt (h h' : HostOrder) (n : Nat) (buf : Buf) (hlen : buf.length = 4 * n) :
    networkBytes h' ((List.range n).map fun i => ntohl h (wordAt h buf i)) = buf := by
  induction n generalizing buf with
  | zero => rw [List.eq_nil_of_length_eq_zero hlen]; rfl
  | succ n ih =>
    match buf, hlen with
    | a :: b :: c :: d :: rest, hlen =>
      have hrest : rest.length = 4 * n := by simp at hlen; omega
      have hw : ∀ i, wordAt h (a :: b :: c :: d :: rest) (i + 1) = wordAt h rest i := fun i => by
        simp only [wordAt, Nat.mul_add, Nat.add_assoc]
        simp
      rw [List.range_succ_eq_map, List.map_cons, List.map_map, networkBytes_cons]
      simp only [Function.comp_def, hw, ih rest hrest]
      simp [wordAt, ntohl_load]

end IsisMulticast

import IsisMulticast.Lib.Lts
import Mathlib.Logic.Function.Basic

/-!
# Atomic broadcast

What a totally ordered multicast is for, as a machine. Messages are cast; the machine puts cast messages into one
sequence, when it likes and each at most once; and every process delivers this sequence from its start, at its
own pace. What is seen are the casts and the deliveries. So a process delivers only what was cast before, nothing
twice, and of two processes one has delivered an initial part of what the other has.
-/

namespace IsisMulticast.Lib

structure Broadcast (ι μ : Type*) where
  cast : List μ
  order : List μ
  /-- How many messages a process has delivered. -/
  pos : ι → ℕ

namespace Broadcast

variable {ι μ : Type*}

inductive Label (ι μ : Type*) where
  | cast (m : μ)
  | order (m : μ)
  | deliver (p : ι) (m : μ)

inductive Event (ι μ : Type*) where
  | cast (m : μ)
  | deliver (p : ι) (m : μ)
deriving DecidableEq, Repr

def Label.event : Label ι μ → Option (Event ι μ)
  | .cast m => some (.cast m)
  | .order _ => none
  | .deliver p m => some (.deliver p m)

def delivered (b : Broadcast ι μ) (p : ι) : List μ := b.order.take (b.pos p)

variable [DecidableEq ι] [DecidableEq μ]

def step (b : Broadcast ι μ) : Label ι μ → Option (Broadcast ι μ)
  | .cast m => if m ∈ b.cast then none else some { b with cast := b.cast ++ [m] }
  | .order m => if m ∈ b.cast ∧ m ∉ b.order then some { b with order := b.order ++ [m] } else none
  | .deliver p m =>
    if b.order[b.pos p]? = some m then some { b with pos := Function.update b.pos p (b.pos p + 1) } else none

variable (ι μ) in
def lts : Lts (Broadcast ι μ) (Label ι μ) := ⟨⟨[], [], fun _ => 0⟩, step⟩

variable {b : Broadcast ι μ} {ms : List μ} {p : ι}

/-- Several messages are put into the sequence. -/
theorem foldlM_order (hcast : ∀ m ∈ ms, m ∈ b.cast) (hnodup : (b.order ++ ms).Nodup) :
    (ms.map Label.order).foldlM step b = some { b with order := b.order ++ ms } := by
  induction ms generalizing b with
  | nil => simp
  | cons m ms ih =>
    have hm : m ∉ b.order := by
      intro hm
      exact (List.nodup_append.1 hnodup).2.2 m hm m (by simp) rfl
    have hstep : b.step (.order m) = some { b with order := b.order ++ [m] } := if_pos ⟨hcast m (by simp), hm⟩
    rw [List.map_cons, List.foldlM_cons, hstep]
    have := ih (b := { b with order := b.order ++ [m] }) (fun m' hm' => hcast m' (by simp [hm'])) (by simpa using hnodup)
    simpa using this

/-- A process delivers the next messages of the sequence. -/
theorem foldlM_deliver (hms : b.delivered p ++ ms <+: b.order) (hpos : b.pos p ≤ b.order.length) :
    (ms.map (Label.deliver p)).foldlM step b = some { b with pos := Function.update b.pos p (b.pos p + ms.length) } := by
  induction ms generalizing b with
  | nil => simp
  | cons m ms ih =>
    have hlen : (b.delivered p).length = b.pos p := by simp [delivered, hpos]
    obtain ⟨rest, hrest⟩ := hms
    have hnext : b.order[b.pos p]? = some m := by
      rw [← hrest, List.append_assoc, List.getElem?_append_right (by omega), hlen]
      simp
    obtain ⟨hlt, -⟩ := List.getElem?_eq_some_iff.1 hnext
    let b' : Broadcast ι μ := { b with pos := Function.update b.pos p (b.pos p + 1) }
    have hstep : b.step (.deliver p m) = some b' := if_pos hnext
    have hdel : b'.delivered p = b.delivered p ++ [m] := by
      simp only [delivered, b', Function.update_self, List.take_add_one, hnext, Option.toList_some]
    rw [List.map_cons, List.foldlM_cons, hstep]
    have := ih (b := b') ⟨rest, by rw [hdel, ← hrest]; simp⟩ (by simp only [b', Function.update_self]; omega)
    simpa [b', Nat.add_assoc, Nat.add_comm 1] using this

/-- Messages `ms` are put into the sequence and then `p`, which has delivered `old`, delivers `new`. Only the deliveries are
seen. -/
theorem foldlM_advance {old new : List μ} (hcast : ∀ m ∈ ms, m ∈ b.cast) (hnodup : (b.order ++ ms).Nodup)
    (hpos : b.pos p = old.length) (hnew : old ++ new <+: b.order ++ ms) :
    (ms.map Label.order ++ new.map (Label.deliver p)).foldlM step b =
      some { b with order := b.order ++ ms, pos := Function.update b.pos p (b.pos p + new.length) } ∧
    (ms.map Label.order ++ new.map (Label.deliver p)).filterMap Label.event = new.map (Event.deliver p) := by
  constructor
  · let b' : Broadcast ι μ := { b with order := b.order ++ ms }
    have hold : b'.delivered p = old := by
      obtain ⟨rest, hrest⟩ := hnew
      rw [delivered, hpos, show b'.order = b.order ++ ms from rfl, ← hrest, List.append_assoc, List.take_left]
    have hle : b'.pos p ≤ b'.order.length := by
      have := hnew.length_le
      rw [List.length_append] at this
      show b.pos p ≤ (b.order ++ ms).length
      omega
    rw [List.foldlM_append, foldlM_order hcast hnodup]
    exact foldlM_deliver (b := b') (by rw [hold]; exact hnew) hle
  · have hnone : (ms.map (Label.order (ι := ι))).filterMap Label.event = [] := by
      refine List.filterMap_eq_nil_iff.2 fun l hl => ?_
      obtain ⟨m, -, rfl⟩ := List.mem_map.1 hl
      rfl
    rw [List.filterMap_append, hnone, List.nil_append, List.filterMap_map]
    exact congrFun List.filterMap_eq_map new

end Broadcast

end IsisMulticast.Lib

import Mathlib.Order.RelClasses
import Mathlib.Data.List.Basic
import Mathlib.Data.List.Pairwise
import Mathlib.Data.List.TakeWhile

/-!
# Ordered sets under a strict weak order

`OrdSet r` is the list of the elements of a `std::set` with comparator `r`, in comparator order.
Two elements neither of which is below the other are the same element for the set: `insert` of an
element equivalent to a present one does nothing, and `erase` removes whatever is equivalent to its
argument. `popWhile` is the scan from `begin()` that erases the first element for as long as a
condition holds of it.

The order of the list is a field (`sorted`), so every result below is about well-formed sets.
-/

namespace IsisMulticast.Lib

/-- Neither of the two is below the other. -/
def Equivalent {α : Type*} (r : α → α → Prop) (a b : α) : Prop := ¬ r a b ∧ ¬ r b a

instance {α : Type*} (r : α → α → Prop) [DecidableRel r] (a b : α) : Decidable (Equivalent r a b) :=
  inferInstanceAs (Decidable (_ ∧ _))

namespace Equivalent
variable {α : Type*} {r : α → α → Prop} {a b c : α}

theorem symm (h : Equivalent r a b) : Equivalent r b a := ⟨h.2, h.1⟩

theorem trans [IsStrictWeakOrder α r] (h : Equivalent r a b) (h' : Equivalent r b c) : Equivalent r a c :=
  IsStrictWeakOrder.incomp_trans a b c h h'

theorem lt_of_lt [IsStrictWeakOrder α r] (h : r a b) (h' : Equivalent r b c) : r a c := by
  by_contra hac
  by_cases hca : r c a
  · exact h'.2 (trans_of r hca h)
  · exact (trans ⟨hac, hca⟩ h'.symm).1 h

end Equivalent

/-- A set ordered by `r`: its elements in increasing order. -/
structure OrdSet {α : Type*} (r : α → α → Prop) where
  toList : List α
  sorted : toList.Pairwise r

namespace OrdSet

variable {α : Type*} {r : α → α → Prop}

instance : Membership α (OrdSet r) := ⟨fun s a => a ∈ s.toList⟩

theorem mem_def {s : OrdSet r} {a : α} : a ∈ s ↔ a ∈ s.toList := Iff.rfl

def empty : OrdSet r := ⟨[], .nil⟩

@[simp] theorem toList_empty : (empty : OrdSet r).toList = [] := rfl

@[simp] theorem not_mem_empty (a : α) : a ∉ (empty : OrdSet r) := List.not_mem_nil

theorem lt_or_lt_of_ne {s : OrdSet r} {a b : α} (ha : a ∈ s) (hb : b ∈ s) (hne : a ≠ b) : r a b ∨ r b a := by
  have h : s.toList.Pairwise (fun a b => r a b ∨ r b a) := s.sorted.imp .inl
  have : Std.Symm (fun a b => r a b ∨ r b a) := ⟨fun _ _ h => h.symm⟩
  exact h.forall ha hb hne

theorem nodup [Std.Irrefl r] (s : OrdSet r) : s.toList.Nodup := s.sorted.imp ne_of_irrefl

theorem eq_of_equivalent {s : OrdSet r} {a b : α} (ha : a ∈ s) (hb : b ∈ s) (h : Equivalent r a b) :
    a = b := by
  by_contra hne
  rcases lt_or_lt_of_ne ha hb hne with h' | h'
  · exact h.1 h'
  · exact h.2 h'

/-! ### Insertion -/

section Insert
variable [DecidableRel r]

variable (r) in
def insertList (x : α) : List α → List α
  | [] => [x]
  | y :: ys => if r x y then x :: y :: ys else if r y x then y :: insertList x ys else y :: ys

theorem mem_insertList_self_or_mem {x a : α} :
    ∀ {l : List α}, a ∈ insertList r x l → a = x ∨ a ∈ l
  | [], h => by simpa [insertList] using h
  | y :: ys, h => by
    rw [insertList] at h
    split_ifs at h
    · simpa using h
    · rcases List.mem_cons.1 h with rfl | h
      · simp
      · rcases mem_insertList_self_or_mem h with h | h <;> simp [h]
    · exact .inr h

theorem mem_insertList_of_mem {x a : α} : ∀ {l : List α}, a ∈ l → a ∈ insertList r x l
  | y :: ys, h => by
    rw [insertList]
    split_ifs
    · exact List.mem_cons_of_mem _ h
    · rcases List.mem_cons.1 h with rfl | h
      · simp
      · exact List.mem_cons_of_mem _ (mem_insertList_of_mem h)
    · exact h

theorem pairwise_insertList [IsTrans α r] {x : α} :
    ∀ {l : List α}, l.Pairwise r → (insertList r x l).Pairwise r
  | [], _ => by simp [insertList]
  | y :: ys, h => by
    obtain ⟨hy, hys⟩ := List.pairwise_cons.1 h
    rw [insertList]
    split_ifs with hxy hyx
    · refine List.pairwise_cons.2 ⟨fun z hz => ?_, h⟩
      rcases List.mem_cons.1 hz with rfl | hz
      · exact hxy
      · exact trans_of r hxy (hy z hz)
    · refine List.pairwise_cons.2 ⟨fun z hz => ?_, pairwise_insertList hys⟩
      rcases mem_insertList_self_or_mem hz with rfl | hz
      · exact hyx
      · exact hy z hz
    · exact h

theorem insertList_of_equivalent [IsStrictWeakOrder α r] {x a : α} :
    ∀ {l : List α}, l.Pairwise r → a ∈ l → Equivalent r a x → insertList r x l = l
  | y :: ys, h, ha, hax => by
    obtain ⟨hy, hys⟩ := List.pairwise_cons.1 h
    rw [insertList]
    rcases List.mem_cons.1 ha with rfl | ha
    · rw [if_neg hax.2, if_neg hax.1]
    · have hyx : r y x := Equivalent.lt_of_lt (hy a ha) hax
      rw [if_neg (asymm hyx), if_pos hyx, insertList_of_equivalent hys ha hax]

theorem perm_insertList {x : α} :
    ∀ {l : List α}, (∀ a ∈ l, ¬ Equivalent r a x) → (insertList r x l).Perm (x :: l)
  | [], _ => .refl _
  | y :: ys, h => by
    rw [insertList]
    split_ifs with hxy hyx
    · exact .refl _
    · exact ((perm_insertList fun a ha => h a (by simp [ha])).cons y).trans (.swap ..)
    · exact absurd ⟨hyx, hxy⟩ (h y (by simp))

/-- `std::set::insert`. -/
def insert [IsTrans α r] (s : OrdSet r) (x : α) : OrdSet r :=
  ⟨insertList r x s.toList, pairwise_insertList s.sorted⟩

variable [IsStrictWeakOrder α r] {s : OrdSet r} {x a : α}

theorem eq_or_mem_of_mem_insert (h : a ∈ s.insert x) : a = x ∨ a ∈ s :=
  mem_insertList_self_or_mem h

theorem mem_insert_of_mem (h : a ∈ s) : a ∈ s.insert x := mem_insertList_of_mem h

theorem insert_of_equivalent (ha : a ∈ s) (h : Equivalent r a x) : s.insert x = s := by
  cases s with
  | mk l hl => simp [insert, insertList_of_equivalent hl ha h]

theorem perm_insert (h : ∀ a ∈ s, ¬ Equivalent r a x) : (s.insert x).toList.Perm (x :: s.toList) :=
  perm_insertList h

theorem mem_insert_self_or (s : OrdSet r) (x : α) :
    x ∈ s.insert x ∨ ∃ a ∈ s, a ∈ s.insert x ∧ Equivalent r a x := by
  by_cases h : ∃ a ∈ s, Equivalent r a x
  · obtain ⟨a, ha, hax⟩ := h
    exact .inr ⟨a, ha, mem_insert_of_mem ha, hax⟩
  · push Not at h
    exact .inl ((perm_insert h).mem_iff.2 (by simp))

end Insert

/-! ### Erasure -/

section Erase
variable [DecidableRel r]

variable (r) in
def eraseList (x : α) : List α → List α
  | [] => []
  | y :: ys => if Equivalent r y x then ys else y :: eraseList x ys

theorem eraseList_eq_filter [IsStrictWeakOrder α r] {x : α} :
    ∀ {l : List α}, l.Pairwise r → eraseList r x l = l.filter (fun a => ¬ Equivalent r a x)
  | [], _ => rfl
  | y :: ys, h => by
    obtain ⟨hy, hys⟩ := List.pairwise_cons.1 h
    rw [eraseList]
    split_ifs with hyx
    · rw [List.filter_cons_of_neg (by simpa using hyx), List.filter_eq_self.2 fun a ha => ?_]
      -- everything after `y` is above `y`, so it cannot be equivalent to `x` as well
      have : ¬ Equivalent r a x := fun hax => (hyx.trans hax.symm).1 (hy a ha)
      simpa using this
    · rw [List.filter_cons_of_pos (by simpa using hyx), eraseList_eq_filter hys]

theorem eraseList_sublist (x : α) : ∀ l : List α, (eraseList r x l).Sublist l
  | [] => .slnil
  | y :: ys => by
    rw [eraseList]
    split_ifs
    · exact List.sublist_cons_self y ys
    · exact (eraseList_sublist x ys).cons_cons y

/-- `std::set::erase` of a key. -/
def erase (s : OrdSet r) (x : α) : OrdSet r :=
  ⟨eraseList r x s.toList, s.sorted.sublist (eraseList_sublist x _)⟩

variable [IsStrictWeakOrder α r] {s : OrdSet r} {x a : α}

theorem toList_erase (s : OrdSet r) (x : α) :
    (s.erase x).toList = s.toList.filter (fun a => ¬ Equivalent r a x) :=
  eraseList_eq_filter s.sorted

theorem mem_erase : a ∈ s.erase x ↔ a ∈ s ∧ ¬ Equivalent r a x := by
  simp [mem_def, toList_erase]

/-- `std::set::count`: 1 when an equivalent element is present, 0 otherwise. -/
def count (s : OrdSet r) (x : α) : Nat := if ∃ a ∈ s.toList, Equivalent r a x then 1 else 0

end Erase

/-! ### Scanning from the first element -/

section PopWhile
variable {p : α → Bool} {s : OrdSet r} {a b : α}

/-- Erases the first element for as long as it satisfies `p`; returns the erased ones in order. -/
def popWhile (p : α → Bool) (s : OrdSet r) : List α × OrdSet r :=
  (s.toList.takeWhile p, ⟨s.toList.dropWhile p, s.sorted.sublist (List.dropWhile_sublist p)⟩)

/-- `std::set::erase` of `begin()`. -/
def tail (s : OrdSet r) : OrdSet r := ⟨s.toList.tail, s.sorted.sublist (List.tail_sublist _)⟩

theorem popWhile_of_head (hs : s.toList.head? = some a) (ha : p a = true) :
    s.popWhile p = (a :: (s.tail.popWhile p).1, (s.tail.popWhile p).2) := by
  obtain ⟨l, hl⟩ := s
  obtain ⟨l', rfl⟩ := List.head?_eq_some_iff.1 hs
  simp [popWhile, tail, ha]

theorem popWhile_of_not_head (hs : ∀ a, s.toList.head? = some a → p a = false) : s.popWhile p = ([], s) := by
  obtain ⟨l, hl⟩ := s
  cases l with
  | nil => rfl
  | cons a l' => simp [popWhile, hs a rfl]

theorem mem_iff_mem_popWhile : a ∈ s ↔ a ∈ (s.popWhile p).1 ∨ a ∈ (s.popWhile p).2 := by
  rw [mem_def, ← List.takeWhile_append_dropWhile (p := p) (l := s.toList)]
  exact List.mem_append

theorem popWhile_popped (h : a ∈ (s.popWhile p).1) : p a := List.mem_takeWhile_imp h

theorem pairwise_popWhile (p : α → Bool) (s : OrdSet r) : (s.popWhile p).1.Pairwise r :=
  s.sorted.sublist (List.takeWhile_sublist p)

theorem popWhile_lt (ha : a ∈ (s.popWhile p).1) (hb : b ∈ (s.popWhile p).2) : r a b := by
  have h := s.sorted
  rw [← List.takeWhile_append_dropWhile (p := p) (l := s.toList), List.pairwise_append] at h
  exact h.2.2 a ha b hb

theorem popWhile_rest (h : b ∈ (s.popWhile p).2) :
    ∃ c ∈ (s.popWhile p).2, ¬ p c ∧ (c = b ∨ r c b) := by
  have hne : s.toList.dropWhile p ≠ [] := List.ne_nil_of_mem h
  obtain ⟨c, cs, hcs⟩ := List.exists_cons_of_ne_nil hne
  have hmem : ∀ d, d ∈ (s.popWhile p).2 ↔ d = c ∨ d ∈ cs := fun d => by
    rw [mem_def]; simp [popWhile, hcs]
  have hsorted : (c :: cs).Pairwise r := hcs ▸ s.sorted.sublist (List.dropWhile_sublist p)
  refine ⟨c, (hmem c).2 (.inl rfl), ?_, ?_⟩
  · have := List.head_dropWhile_not p hne
    simpa [hcs] using this
  · rcases (hmem b).1 h with rfl | h
    · exact .inl rfl
    · exact .inr ((List.pairwise_cons.1 hsorted).1 b h)

end PopWhile

end OrdSet

end IsisMulticast.Lib

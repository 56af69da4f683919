import Mathlib.Data.List.Induction
import Mathlib.Data.List.Pairwise
import Mathlib.Data.List.Infix
import Mathlib.Order.RelClasses

/-!
# First occurrences, and initial segments of a sorted sequence

`firstsBy f l` keeps of each value of `f` the first element of `l` with that value; as `l` grows at
its end so does `firstsBy f l`. `prefix_or_prefix` is the fact behind agreement on an order: two
sorted lists, each of which holds everything in the other that is below one of its own elements, are
one a prefix of the other.
-/

namespace IsisMulticast.Lib

section Firsts
variable {α κ : Type*} [DecidableEq κ] {f : α → κ} {l l' : List α} {a : α}

def addFirst (f : α → κ) (acc : List α) (a : α) : List α := if f a ∈ acc.map f then acc else acc ++ [a]

/-- The first element for each value of `f`, in order. -/
def firstsBy (f : α → κ) (l : List α) : List α := l.foldl (addFirst f) []

@[simp] theorem firstsBy_nil : firstsBy f [] = [] := rfl

theorem firstsBy_concat : firstsBy f (l ++ [a]) = addFirst f (firstsBy f l) a := by
  simp [firstsBy]

theorem mem_map_firstsBy {k : κ} : k ∈ (firstsBy f l).map f ↔ k ∈ l.map f := by
  induction l using List.reverseRecOn with
  | nil => simp
  | append_singleton l a ih =>
    rw [firstsBy_concat, addFirst]
    split_ifs with h
    · rw [ih, List.map_append, List.mem_append]
      refine ⟨.inl, ?_⟩
      rintro (hk | hk)
      · exact hk
      · obtain rfl : k = f a := by simpa using hk
        exact ih.1 h
    · simp only [List.map_append, List.mem_append, ih]

theorem nodup_map_firstsBy : ((firstsBy f l).map f).Nodup := by
  induction l using List.reverseRecOn with
  | nil => simp
  | append_singleton l a ih =>
    rw [firstsBy_concat, addFirst]
    split_ifs with h
    · exact ih
    · rw [List.map_append, List.map_singleton]
      exact List.nodup_append.2 ⟨ih, by simp, by simp_all⟩

theorem firstsBy_sublist : (firstsBy f l).Sublist l := by
  induction l using List.reverseRecOn with
  | nil => simp
  | append_singleton l a ih =>
    rw [firstsBy_concat, addFirst]
    split_ifs
    · exact ih.trans (List.sublist_append_left l [a])
    · exact ih.append (.refl _)

/-- When equal values of `f` mean equal elements, only repetitions are dropped. -/
theorem mem_firstsBy (hinj : ∀ a ∈ l, ∀ b ∈ l, f a = f b → a = b) : a ∈ firstsBy f l ↔ a ∈ l := by
  refine ⟨fun h => firstsBy_sublist.subset h, fun h => ?_⟩
  obtain ⟨b, hb, hba⟩ := List.mem_map.1 (mem_map_firstsBy.2 (List.mem_map_of_mem (f := f) h))
  rwa [← hinj b (firstsBy_sublist.subset hb) a h hba]

theorem firstsBy_prefix_append : firstsBy f l <+: firstsBy f (l ++ l') := by
  induction l' using List.reverseRecOn with
  | nil => simp
  | append_singleton l' a ih =>
    rw [← List.append_assoc, firstsBy_concat, addFirst]
    split_ifs
    · exact ih
    · exact ih.trans (List.prefix_append _ _)

theorem mem_firstsBy_append (h : a ∈ firstsBy f (l ++ l')) : a ∈ firstsBy f l ∨ a ∈ l' := by
  induction l' using List.reverseRecOn with
  | nil => simpa using h
  | append_singleton l' b ih =>
    rw [← List.append_assoc, firstsBy_concat, addFirst] at h
    split_ifs at h
    · exact (ih h).imp_right fun h => List.mem_append_left _ h
    · rcases List.mem_append.1 h with h | h
      · exact (ih h).imp_right fun h => List.mem_append_left _ h
      · exact .inr (List.mem_append_right _ h)

/-- Appending a sorted list to one whose first elements are sorted. -/
theorem pairwise_firstsBy_append {r : α → α → Prop} (h : (firstsBy f l).Pairwise r) (h' : l'.Pairwise r)
    (hr : ∀ a ∈ l', f a ∈ l.map f ∨ ∀ b ∈ firstsBy f l, r b a) : (firstsBy f (l ++ l')).Pairwise r := by
  induction l' using List.reverseRecOn with
  | nil => simpa using h
  | append_singleton l' a ih =>
    obtain ⟨h', -, hlast⟩ := List.pairwise_append.1 h'
    have ih := ih h' fun b hb => hr b (List.mem_append_left _ hb)
    rw [← List.append_assoc, firstsBy_concat, addFirst]
    split_ifs with ha
    · exact ih
    · refine List.pairwise_append.2 ⟨ih, List.pairwise_singleton _ _, fun b hb c hc => ?_⟩
      obtain rfl := List.mem_singleton.1 hc
      rcases mem_firstsBy_append hb with hb | hb
      · rcases hr c (by simp) with hmem | hall
        · rw [mem_map_firstsBy, List.map_append] at ha
          exact absurd (List.mem_append_left _ hmem) ha
        · exact hall b hb
      · exact hlast b hb c (by simp)

theorem firstsBy_eq_self (h : (l.map f).Nodup) : firstsBy f l = l := by
  induction l using List.reverseRecOn with
  | nil => rfl
  | append_singleton l a ih =>
    rw [List.map_append, List.nodup_append] at h
    rw [firstsBy_concat, ih h.1, addFirst, if_neg]
    exact fun ha => h.2.2 _ ha _ (by simp) rfl

end Firsts

section Segments
variable {α : Type*} {r : α → α → Prop}

/-- In a sorted list what is below an element of an initial segment is in the segment. -/
theorem mem_left_of_pairwise (hasymm : ∀ a b, r a b → ¬ r b a) {l l' : List α} (h : (l ++ l').Pairwise r) {a b : α}
    (ha : a ∈ l) (hb : b ∈ l ++ l') (hba : r b a) : b ∈ l := by
  rcases List.mem_append.1 hb with hb | hb
  · exact hb
  · exact absurd ((List.pairwise_append.1 h).2.2 a ha b hb) (hasymm _ _ hba)

theorem prefix_or_prefix (hasymm : ∀ a b, r a b → ¬ r b a) :
    ∀ {l m : List α}, l.Pairwise r → m.Pairwise r →
      (∀ a ∈ l, ∀ b ∈ m, a = b ∨ r a b ∨ r b a) →
      (∀ a ∈ l, ∀ b ∈ m, r b a → b ∈ l) → (∀ a ∈ l, ∀ b ∈ m, r a b → a ∈ m) →
      l <+: m ∨ m <+: l
  | [], _, _, _, _, _, _ => .inl (List.nil_prefix)
  | _ :: _, [], _, _, _, _, _ => .inr (List.nil_prefix)
  | a :: l, b :: l', hl, hl', htri, hcl, hcl' => by
    obtain ⟨ha, htl⟩ := List.pairwise_cons.1 hl
    obtain ⟨hb, htl'⟩ := List.pairwise_cons.1 hl'
    have hab : a = b := by
      rcases htri a (by simp) b (by simp) with h | h | h
      · exact h
      · -- `a` is below `b`, so it stands in the second list, but everything there is `b` or above
        rcases List.mem_cons.1 (hcl' a (by simp) b (by simp) h) with h' | h'
        · exact h'
        · exact absurd (hb a h') (hasymm _ _ h)
      · rcases List.mem_cons.1 (hcl a (by simp) b (by simp) h) with h' | h'
        · exact h'.symm
        · exact absurd (ha b h') (hasymm _ _ h)
    subst hab
    have hne : ∀ x ∈ l, x ≠ a := fun x hx h => by subst h; exact hasymm _ _ (ha x hx) (ha x hx)
    have hne' : ∀ x ∈ l', x ≠ a := fun x hx h => by subst h; exact hasymm _ _ (hb x hx) (hb x hx)
    have ih := prefix_or_prefix (l := l) (m := l') hasymm htl htl' (fun x hx y hy => htri x (by simp [hx]) y (by simp [hy]))
      (fun x hx y hy h => List.mem_of_ne_of_mem (hne' y hy) (hcl x (by simp [hx]) y (by simp [hy]) h))
      (fun x hx y hy h => List.mem_of_ne_of_mem (hne x hx) (hcl' x (by simp [hx]) y (by simp [hy]) h))
    simpa [List.prefix_cons_inj] using ih

end Segments

end IsisMulticast.Lib

import IsisMulticast.Lib.Lts
import Mathlib.Order.Filter.AtTopBot.Basic
import Mathlib.Order.Filter.Finite
import Mathlib.Order.Lattice.Nat

/-!
# Infinite executions and weak fairness

An execution goes on forever; at a time without a label the system idles, so that a finite run is an execution
that idles at its end (`Execution.ofRun`). "Eventually always" and "infinitely often" are `∀ᶠ` and `∃ᶠ` along
`Filter.atTop`. An execution is weakly fair to a set of labels if it takes one of them infinitely often provided
that from some time on one of them is always enabled; `WeaklyFair.exists_takes` is the rule for what such an
execution must do.
-/

namespace IsisMulticast.Lib
open Filter

variable {σ ℓ : Type*} {M : Lts σ ℓ}

structure Execution (M : Lts σ ℓ) where
  state : ℕ → σ
  label : ℕ → Option ℓ
  init : state 0 = M.init
  step : ∀ i, match label i with
    | none => state (i + 1) = state i
    | some l => M.step (state i) l = some (state (i + 1))

namespace Execution

variable {e : Execution M} {A : Set ℓ} {i j : ℕ} {l : ℓ}

theorem step_of_label (h : e.label i = some l) : M.step (e.state i) l = some (e.state (i + 1)) := by
  have := e.step i
  rwa [h] at this

theorem state_succ_of_label (h : e.label i = none) : e.state (i + 1) = e.state i := by
  have := e.step i
  rwa [h] at this

/-! ### Finite parts -/

/-- The steps taken before time `i`. -/
def labels (e : Execution M) (i : ℕ) : List ℓ := (List.range i).filterMap e.label

theorem labels_succ (e : Execution M) (i : ℕ) : e.labels (i + 1) = e.labels i ++ (e.label i).toList := by
  rw [labels, List.range_succ, List.filterMap_append, ← labels]
  cases h : e.label i <;> simp [h]

theorem run (e : Execution M) (i : ℕ) : M.Run (e.labels i) (e.state i) := by
  induction i with
  | zero => exact Lts.run_nil.2 e.init
  | succ i ih =>
    rw [labels_succ]
    cases h : e.label i with
    | none => simpa [state_succ_of_label h] using ih
    | some l => exact Lts.run_concat.2 ⟨_, ih, step_of_label h⟩

theorem labels_mono (h : i ≤ j) : e.labels i <+: e.labels j := by
  induction j, h using Nat.le_induction with
  | base => exact List.prefix_refl _
  | succ j _ ih =>
    rw [labels_succ]
    exact ih.trans (List.prefix_append _ _)

/-- A property that the steps from time `i` on keep. -/
theorem stays {P : σ → Prop} (hP : P (e.state i))
    (hstep : ∀ j l, i ≤ j → e.label j = some l → P (e.state j) → P (e.state (j + 1))) (hj : i ≤ j) :
    P (e.state j) := by
  induction j, hj using Nat.le_induction with
  | base => exact hP
  | succ j hj ih =>
    cases h : e.label j with
    | none => rwa [state_succ_of_label h]
    | some l => exact hstep j l hj h ih

/-! ### Fairness -/

def Takes (e : Execution M) (A : Set ℓ) (i : ℕ) : Prop := ∃ l ∈ A, e.label i = some l

def Enables (e : Execution M) (A : Set ℓ) (i : ℕ) : Prop := ∃ l ∈ A, M.step (e.state i) l ≠ none

def WeaklyFair (e : Execution M) (A : Set ℓ) : Prop :=
  (∀ᶠ i in atTop, e.Enables A i) → ∃ᶠ i in atTop, e.Takes A i

/-- If `P` holds, enables `A` and can only be left by a step of `A`, then such a step is taken, while `P`
holds. -/
theorem WeaklyFair.exists_takes {P : ℕ → Prop} (h : e.WeaklyFair A) (hi : P i)
    (hstay : ∀ j, i ≤ j → P j → ¬ e.Takes A j → P (j + 1)) (hen : ∀ j, i ≤ j → P j → e.Enables A j) :
    ∃ j, i ≤ j ∧ P j ∧ e.Takes A j := by
  by_contra hnone
  push Not at hnone
  have hP : ∀ j, i ≤ j → P j := by
    intro j hj
    induction j, hj using Nat.le_induction with
    | base => exact hi
    | succ j hj ih => exact hstay j hj ih (hnone j hj ih)
  obtain ⟨j, hj, htakes⟩ := frequently_atTop.1 (h (eventually_atTop.2 ⟨i, fun j hj => hen j hj (hP j hj)⟩)) i
  exact hnone j hj (hP j hj) htakes

end Execution

/-- A bounded number that never falls stays the same from some time on. -/
theorem exists_eventually_eq {f : ℕ → ℕ} {b : ℕ} (hf : Monotone f) (hb : ∀ i, f i ≤ b) :
    ∃ c, ∀ᶠ i in atTop, f i = c := by
  have hbdd : BddAbove (Set.range f) := ⟨b, by rintro _ ⟨i, rfl⟩; exact hb i⟩
  obtain ⟨N, hN⟩ := Nat.sSup_mem (Set.range_nonempty f) hbdd
  refine ⟨f N, eventually_atTop.2 ⟨N, fun i hi => Nat.le_antisymm ?_ (hf hi)⟩⟩
  rw [hN]
  exact le_csSup hbdd ⟨i, rfl⟩

/-! ### Finite runs as executions -/

namespace Execution

/-- The run `ls` to `s`, followed by idling. -/
def ofRun {ls : List ℓ} {s : σ} (h : M.Run ls s) : Execution M where
  state i := (M.exec (ls.take i)).getD M.init
  label i := ls[i]?
  init := rfl
  step i := by
    cases hl : ls[i]? with
    | none =>
      have hlen : ls.length ≤ i := List.getElem?_eq_none_iff.1 hl
      rw [List.take_of_length_le hlen, List.take_of_length_le (by omega)]
    | some l =>
      obtain ⟨hi, rfl⟩ := List.getElem?_eq_some_iff.1 hl
      have htake : ls.take (i + 1) = ls.take i ++ [ls[i]] := List.take_succ_eq_append_getElem hi
      rw [← List.take_append_drop (i + 1) ls] at h
      obtain ⟨s₁, h₁, -⟩ := h.split
      rw [htake] at h₁
      obtain ⟨s₀, h₀, hs⟩ := Lts.run_concat.1 h₁
      simp only [htake]
      rw [show M.exec _ = some s₀ from h₀, show M.exec _ = some s₁ from h₁]
      exact hs

variable {ls : List ℓ} {s : σ} {i : ℕ}

theorem state_ofRun (h : M.Run ls s) (hi : ls.length ≤ i) : (ofRun h).state i = s := by
  simp only [ofRun]
  rw [List.take_of_length_le hi, show M.exec ls = some s from h, Option.getD_some]

theorem label_ofRun (h : M.Run ls s) (hi : ls.length ≤ i) : (ofRun h).label i = none :=
  List.getElem?_eq_none_iff.2 hi

theorem labels_ofRun_prefix (h : M.Run ls s) (i : ℕ) : (ofRun h).labels i <+: ls := by
  have heq : (ofRun h).labels i = ls.take i := by
    induction i with
    | zero => rfl
    | succ i ih => rw [labels_succ, ih, List.take_add_one]; rfl
  rw [heq]
  exact List.take_prefix _ _

end Execution

end IsisMulticast.Lib

import Mathlib.Data.List.Induction

/-!
# Runs of a labelled transition system, and simulation

A system is an initial state and a partial step function; the label of a step carries every choice
the environment makes, so a run is determined by the list of its labels. `Run ls s` says that the
steps `ls` lead from the initial state to `s`, and `Along G ls` that every one of these steps was
taken in a state where its guard `G` held. `Run.induction` and `Along.induction` are the rules by
which invariants are proved, for all runs and for the runs that meet a guard. For machines that give
an output at every step, `outputs_eq_of_simulation` compares two of them.
-/

namespace IsisMulticast.Lib

structure Lts (σ ℓ : Type*) where
  init : σ
  step : σ → ℓ → Option σ

namespace Lts

variable {σ ℓ : Type*} {M : Lts σ ℓ} {ls ls' : List ℓ} {l : ℓ} {s s' : σ} {G : σ → ℓ → Prop}

/-- The state after the steps `ls`, if every one of them is enabled. -/
def exec (M : Lts σ ℓ) (ls : List ℓ) : Option σ := ls.foldlM M.step M.init

def Run (M : Lts σ ℓ) (ls : List ℓ) (s : σ) : Prop := M.exec ls = some s

/-- Every step of `ls` meets the guard `G` in the state it is taken in. -/
def Along (M : Lts σ ℓ) (G : σ → ℓ → Prop) (ls : List ℓ) : Prop :=
  ∀ ls₁ l ls₂ s, ls = ls₁ ++ l :: ls₂ → M.Run ls₁ s → G s l

theorem run_nil : M.Run [] s ↔ s = M.init := by
  simp [Run, exec, eq_comm]

theorem run_concat : M.Run (ls ++ [l]) s' ↔ ∃ s, M.Run ls s ∧ M.step s l = some s' := by
  simp [Run, exec, List.foldlM_append, Option.bind_eq_some_iff]

theorem Run.unique (h : M.Run ls s) (h' : M.Run ls s') : s = s' := Option.some.inj (h.symm.trans h')

theorem Run.split (h : M.Run (ls ++ ls') s) : ∃ s₁, M.Run ls s₁ ∧ ls'.foldlM M.step s₁ = some s := by
  simpa [Run, exec, List.foldlM_append, Option.bind_eq_some_iff] using h

theorem Run.induction {P : List ℓ → σ → Prop} (hinit : P [] M.init)
    (hstep : ∀ ls s l s', M.Run ls s → P ls s → M.step s l = some s' → P (ls ++ [l]) s')
    (h : M.Run ls s) : P ls s := by
  induction ls using List.reverseRecOn generalizing s with
  | nil => rw [run_nil.1 h]; exact hinit
  | append_singleton ls l ih =>
    obtain ⟨s₀, h₀, hs⟩ := run_concat.1 h
    exact hstep ls s₀ l s h₀ (ih h₀) hs

/-- Two systems that take the same steps in the states of the second have the same runs. -/
theorem run_iff_of_step {N : Lts σ ℓ} (hinit : M.init = N.init)
    (hstep : ∀ ls s l, N.Run ls s → M.step s l = N.step s l) : M.Run ls s ↔ N.Run ls s := by
  induction ls using List.reverseRecOn generalizing s with
  | nil => rw [run_nil, run_nil, hinit]
  | append_singleton ls l ih =>
    rw [run_concat, run_concat]
    refine exists_congr fun s₀ => ?_
    rw [ih]
    refine and_congr_right fun hrun => ?_
    rw [hstep ls s₀ l hrun]

theorem along_of_run_iff {N : Lts σ ℓ} (hrun : ∀ ls s, N.Run ls s → M.Run ls s) (h : M.Along G ls) : N.Along G ls :=
  fun ls₁ l ls₂ s heq hs => h ls₁ l ls₂ s heq (hrun ls₁ s hs)

theorem Along.append_left (h : M.Along G (ls ++ ls')) : M.Along G ls := by
  rintro ls₁ l ls₂ s rfl hrun
  exact h ls₁ l (ls₂ ++ ls') s (by simp) hrun

theorem Along.of_prefix (h : M.Along G ls') (hpre : ls <+: ls') : M.Along G ls := by
  obtain ⟨ls₂, rfl⟩ := hpre
  exact h.append_left

theorem along_concat (hrun : M.Run ls s) : M.Along G (ls ++ [l]) ↔ M.Along G ls ∧ G s l := by
  constructor
  · intro h
    exact ⟨h.append_left, h ls l [] s rfl hrun⟩
  · rintro ⟨h, hl⟩ ls₁ l' ls₂ s' heq hrun'
    -- the step is the last one or one of `ls`
    rcases List.eq_nil_or_concat ls₂ with rfl | ⟨ls₃, l₃, rfl⟩
    · obtain ⟨rfl, hl'⟩ := List.append_inj' heq rfl
      obtain rfl := List.singleton_inj.1 hl'
      rwa [hrun'.unique hrun]
    · have heq : ls ++ [l] = (ls₁ ++ l' :: ls₃) ++ [l₃] := by simpa using heq
      exact h ls₁ l' ls₃ s' (List.append_inj' heq rfl).1 hrun'

theorem Along.mono {G' : σ → ℓ → Prop} (hG : ∀ s l, G s l → G' s l) (h : M.Along G ls) : M.Along G' ls :=
  fun ls₁ l ls₂ s heq hrun => hG s l (h ls₁ l ls₂ s heq hrun)

theorem Along.and {G' : σ → ℓ → Prop} (h : M.Along G ls) (h' : M.Along G' ls) :
    M.Along (fun s l => G s l ∧ G' s l) ls :=
  fun ls₁ l ls₂ s heq hrun => ⟨h ls₁ l ls₂ s heq hrun, h' ls₁ l ls₂ s heq hrun⟩

/-- The invariant rule for the runs whose steps all meet a guard. -/
theorem Along.induction {P : List ℓ → σ → Prop} (hinit : P [] M.init)
    (hstep : ∀ ls s l s', M.Run ls s → M.Along G ls → P ls s → G s l → M.step s l = some s' →
      P (ls ++ [l]) s')
    (hG : M.Along G ls) (h : M.Run ls s) : P ls s := by
  refine h.induction (P := fun ls s => M.Along G ls → P ls s) (fun _ => hinit) ?_ hG
  intro ls s l s' hrun ih hs hG
  obtain ⟨hG, hl⟩ := (along_concat hrun).1 hG
  exact hstep ls s l s' hrun hG (ih hG) hl hs

/-- The invariant rule from a state that the run has passed. -/
theorem Along.induction_from {P : σ → Prop} (h₁ : M.Run ls s) (hP : P s)
    (hstep : ∀ ls s l s', M.Run ls s → M.Along G ls → P s → G s l → M.step s l = some s' → P s')
    (hG : M.Along G (ls ++ ls')) (h : M.Run (ls ++ ls') s') : P s' := by
  induction ls' using List.reverseRecOn generalizing s' with
  | nil => rw [List.append_nil] at h; rwa [h.unique h₁]
  | append_singleton ls' l ih =>
    rw [← List.append_assoc] at hG h
    obtain ⟨s₀, h₀, hs⟩ := run_concat.1 h
    obtain ⟨hG, hl⟩ := (along_concat h₀).1 hG
    exact hstep _ s₀ l s' h₀ hG (ih hG h₀) hl hs

/-- Exact guards. If a step keeps `P` exactly when it meets its guard, then `P` holds in all states of a run
exactly when all its steps meet their guards. -/
theorem along_iff_forall {P : σ → Prop} (hinit : P M.init)
    (hstep : ∀ ls₁ s₁ l s₂, ls₁ ++ [l] <+: ls → M.Run ls₁ s₁ → M.step s₁ l = some s₂ → P s₁ → (P s₂ ↔ G s₁ l))
    (hrun : M.Run ls s) : (∀ ls₁ s₁, ls₁ <+: ls → M.Run ls₁ s₁ → P s₁) ↔ M.Along G ls := by
  constructor
  · rintro hall ls₁ l ls₂ s₁ rfl hrun₁
    have hpre : ls₁ ++ [l] <+: ls₁ ++ l :: ls₂ := ⟨ls₂, by simp⟩
    rw [List.append_cons] at hrun
    obtain ⟨s₂, hrun₂, -⟩ := hrun.split
    obtain ⟨s₁', hrun₁', hs⟩ := run_concat.1 hrun₂
    obtain rfl := hrun₁'.unique hrun₁
    exact (hstep ls₁ s₁' l s₂ hpre hrun₁ hs (hall ls₁ s₁' ⟨l :: ls₂, rfl⟩ hrun₁)).1 (hall _ s₂ hpre hrun₂)
  · intro hG ls₁ s₁ hpre hrun₁
    induction ls₁ using List.reverseRecOn generalizing s₁ with
    | nil => rw [run_nil.1 hrun₁]; exact hinit
    | append_singleton ls₁ l ih =>
      obtain ⟨s₀, hrun₀, hs⟩ := run_concat.1 hrun₁
      have hP := ih s₀ ((List.prefix_append _ _).trans hpre) hrun₀
      obtain ⟨ls₂, rfl⟩ := hpre
      exact (hstep ls₁ s₀ l s₁ (List.prefix_append _ _) hrun₀ hs hP).2 (hG ls₁ l ls₂ s₀ (by simp) hrun₀)

/-! ### Counting steps -/

/-- How many of the steps from `s` on meet `P` in the state they are taken in. -/
def countFrom (M : Lts σ ℓ) (P : σ → ℓ → Bool) : σ → List ℓ → Nat
  | _, [] => 0
  | s, l :: ls => (if P s l then 1 else 0) + match M.step s l with
    | none => 0
    | some s' => M.countFrom P s' ls

def count (M : Lts σ ℓ) (P : σ → ℓ → Bool) (ls : List ℓ) : Nat := M.countFrom P M.init ls

theorem countFrom_append {P : σ → ℓ → Bool} (h : ls.foldlM M.step s = some s') :
    M.countFrom P s (ls ++ ls') = M.countFrom P s ls + M.countFrom P s' ls' := by
  induction ls generalizing s with
  | nil =>
    obtain rfl : s = s' := by simpa using h
    simp [countFrom]
  | cons l ls ih =>
    rw [List.foldlM_cons, Option.bind_eq_bind, Option.bind_eq_some_iff] at h
    obtain ⟨s₁, hs₁, h⟩ := h
    rw [List.cons_append, countFrom, countFrom, hs₁]
    simp only [ih h]
    omega

theorem count_concat {P : σ → ℓ → Bool} (h : M.Run ls s) :
    M.count P (ls ++ [l]) = M.count P ls + if P s l then 1 else 0 := by
  rw [count, countFrom_append h, count]
  cases hs : M.step s l <;> simp [countFrom, hs]

/-! ### Traces and refinement -/

section
variable {ε τ κ : Type*} {out : σ → ℓ → σ → List ε} {N : Lts τ κ} {see : κ → Option ε} {R : σ → τ → Prop}

/-- What is seen of the steps from `s` on. -/
def traceFrom (M : Lts σ ℓ) (out : σ → ℓ → σ → List ε) : σ → List ℓ → List ε
  | _, [] => []
  | s, l :: ls => match M.step s l with
    | none => []
    | some s' => out s l s' ++ M.traceFrom out s' ls

def trace (M : Lts σ ℓ) (out : σ → ℓ → σ → List ε) (ls : List ℓ) : List ε := M.traceFrom out M.init ls

theorem traceFrom_append (h : ls.foldlM M.step s = some s') :
    M.traceFrom out s (ls ++ ls') = M.traceFrom out s ls ++ M.traceFrom out s' ls' := by
  induction ls generalizing s with
  | nil =>
    obtain rfl : s = s' := by simpa using h
    rfl
  | cons l ls ih =>
    rw [List.foldlM_cons, Option.bind_eq_bind, Option.bind_eq_some_iff] at h
    obtain ⟨s₁, hs₁, h⟩ := h
    rw [List.cons_append, traceFrom, traceFrom, hs₁]
    simp only [ih h, List.append_assoc]

theorem trace_concat (h : M.Run ls s) (hs : M.step s l = some s') :
    M.trace out (ls ++ [l]) = M.trace out ls ++ out s l s' := by
  rw [trace, traceFrom_append h, trace]
  simp [traceFrom, hs]

/-- Forward simulation: if every step is matched by some steps of `N` that look the same, then every run looks
like a run of `N`. -/
theorem Along.refines (hinit : R M.init N.init)
    (hstep : ∀ ls s l s' a, M.Run ls s → M.Along G ls → G s l → M.step s l = some s' → R s a →
      ∃ (ks : List κ) (a' : τ), ks.foldlM N.step a = some a' ∧ ks.filterMap see = out s l s' ∧ R s' a')
    (hG : M.Along G ls) (h : M.Run ls s) :
    ∃ (ks : List κ) (a : τ), N.Run ks a ∧ ks.filterMap see = M.trace out ls ∧ R s a := by
  refine hG.induction (P := fun ls s => ∃ ks a, N.Run ks a ∧ ks.filterMap see = M.trace out ls ∧ R s a)
    ⟨[], N.init, run_nil.2 rfl, rfl, hinit⟩ ?_ h
  rintro ls s l s' hrun hG ⟨ks, a, hks, hsee, hR⟩ hl hs
  obtain ⟨ks', a', hks', hsee', hR'⟩ := hstep ls s l s' a hrun hG hl hs hR
  refine ⟨ks ++ ks', a', ?_, ?_, hR'⟩
  · rw [Run, exec, List.foldlM_append, show ks.foldlM N.step N.init = some a from hks]
    exact hks'
  · rw [List.filterMap_append, hsee, hsee', trace_concat hrun hs]

end

/-- Forward simulation with a fixed translation of the labels. -/
theorem Run.translate {τ κ : Type*} {N : Lts τ κ} {R : σ → τ → Prop} {tr : ℓ → List κ} (hinit : R M.init N.init)
    (hstep : ∀ s l s' a, M.step s l = some s' → R s a → ∃ a', (tr l).foldlM N.step a = some a' ∧ R s' a')
    (h : M.Run ls s) : ∃ a, N.Run (ls.flatMap tr) a ∧ R s a := by
  refine h.induction (P := fun ls s => ∃ a, N.Run (ls.flatMap tr) a ∧ R s a) ⟨N.init, run_nil.2 rfl, hinit⟩ ?_
  rintro ls s l s' - ⟨a, ha, hR⟩ hs
  obtain ⟨a', ha', hR'⟩ := hstep s l s' a hs hR
  refine ⟨a', ?_, hR'⟩
  rw [Run, exec, List.flatMap_append, List.foldlM_append, show (ls.flatMap tr).foldlM N.step N.init = some a from ha]
  simpa using ha'

/-! ### Checking a guard on a given run -/

/-- `Along` from a state on, as a computation. -/
def alongFrom (M : Lts σ ℓ) (G : σ → ℓ → Prop) : σ → List ℓ → Prop
  | _, [] => True
  | s, l :: ls => G s l ∧ match M.step s l with
    | none => True
    | some s' => M.alongFrom G s' ls

instance decidableAlongFrom (M : Lts σ ℓ) (G : σ → ℓ → Prop) [∀ s l, Decidable (G s l)] :
    ∀ s ls, Decidable (M.alongFrom G s ls)
  | _, [] => .isTrue trivial
  | s, l :: ls =>
    have : Decidable (match M.step s l with | none => True | some s' => M.alongFrom G s' ls) :=
      match M.step s l with
      | none => .isTrue trivial
      | some s' => decidableAlongFrom M G s' ls
    inferInstanceAs (Decidable (_ ∧ _))

theorem alongFrom_iff : M.alongFrom G s ls ↔
    ∀ ls₁ l ls₂ s', ls = ls₁ ++ l :: ls₂ → ls₁.foldlM M.step s = some s' → G s' l := by
  induction ls generalizing s with
  | nil => simp [alongFrom]
  | cons a ls ih =>
    rw [alongFrom]
    constructor
    · rintro ⟨ha, hrest⟩ ls₁ l ls₂ s' heq hs'
      cases ls₁ with
      | nil =>
        obtain ⟨rfl, -⟩ := List.cons.inj heq
        obtain rfl : s = s' := by simpa using hs'
        exact ha
      | cons b ls₁ =>
        obtain ⟨rfl, rfl⟩ := List.cons.inj heq
        rw [List.foldlM_cons, Option.bind_eq_bind, Option.bind_eq_some_iff] at hs'
        obtain ⟨s₁, hs₁, hs'⟩ := hs'
        rw [hs₁] at hrest
        exact ih.1 hrest ls₁ l ls₂ s' rfl hs'
    · intro h
      refine ⟨h [] a ls s rfl rfl, ?_⟩
      cases hs : M.step s a with
      | none => trivial
      | some s₁ =>
        refine ih.2 fun ls₁ l ls₂ s' heq hs' => h (a :: ls₁) l ls₂ s' (by simp [heq]) ?_
        simpa [List.foldlM_cons, hs] using hs'

theorem along_iff_alongFrom : M.Along G ls ↔ M.alongFrom G M.init ls := alongFrom_iff.symm

instance [∀ s l, Decidable (G s l)] : Decidable (M.Along G ls) := decidable_of_iff _ along_iff_alongFrom.symm

end Lts

/-! ### Machines with output -/

section Outputs
variable {σ τ ι ω : Type*}

def outputs (f : σ → ι → ω × σ) : σ → List ι → List ω
  | _, [] => []
  | s, i :: is => (f s i).1 :: outputs f (f s i).2 is

theorem outputs_concat {f : σ → ι → ω × σ} {s : σ} {is : List ι} {i : ι} :
    outputs f s (is ++ [i]) = outputs f s is ++ [(f (is.foldl (fun s i => (f s i).2) s) i).1] := by
  induction is generalizing s with
  | nil => rfl
  | cons j is ih => rw [List.cons_append, outputs, ih]; rfl

/-- Two machines that step in related states with equal outputs have equal outputs throughout. -/
theorem outputs_eq_of_simulation {f : σ → ι → ω × σ} {g : τ → ι → ω × τ} {R : σ → τ → Prop}
    (hR : ∀ s t i, R s t → (f s i).1 = (g t i).1 ∧ R (f s i).2 (g t i).2) {s : σ} {t : τ} (h : R s t)
    (is : List ι) : outputs f s is = outputs g t is := by
  induction is generalizing s t with
  | nil => rfl
  | cons i is ih =>
    obtain ⟨hout, hnext⟩ := hR s t i h
    rw [outputs, outputs, hout, ih hnext]

end Outputs

end IsisMulticast.Lib

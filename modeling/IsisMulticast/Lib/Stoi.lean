import Mathlib.Algebra.Ring.Int.Defs
import Mathlib.Data.List.TakeWhile
import Mathlib.Tactic.SplitIfs

/-!
# `std::stoi`

`std::stoi` reads an integer from the front of a text: white space, an optional sign and as many digits as there
are, in base 10. What follows them is ignored. It throws `std::invalid_argument` if there are no digits and
`std::out_of_range` if the value is not an `int` (of 32 bits). `Scans` is the way a text is taken apart, and
`stoi_eq_ok_iff` what the function makes of it.
-/

namespace IsisMulticast.Lib

/-- `std::isspace` of the "C" locale. -/
def isSpace (c : Char) : Bool := c.toNat == 32 || 9 ≤ c.toNat && c.toNat ≤ 13

/-- The value of a list of digits. -/
def natValue (digits : List Char) : Nat := digits.foldl (fun n c => 10 * n + (c.toNat - 48)) 0

def intValue (sign digits : List Char) : Int := if sign = ['-'] then -natValue digits else natValue digits

def splitSign : List Char → List Char × List Char
  | '-' :: s => (['-'], s)
  | '+' :: s => (['+'], s)
  | s => ([], s)

/-- `std::strtol` in base 10, without its bounds. -/
def strtol (s : List Char) : Option Int :=
  let (sign, s) := splitSign (s.dropWhile isSpace)
  let digits := s.takeWhile Char.isDigit
  if digits = [] then none else some (intValue sign digits)

inductive StoiError where
  | invalidArgument
  | outOfRange
deriving DecidableEq, Repr

def IsInt (v : Int) : Prop := -2 ^ 31 ≤ v ∧ v < 2 ^ 31

instance (v : Int) : Decidable (IsInt v) := inferInstanceAs (Decidable (_ ∧ _))

def stoi (s : List Char) : Except StoiError Int :=
  match strtol s with
  | none => .error .invalidArgument
  | some v => if IsInt v then .ok v else .error .outOfRange

/-- The text is white space, a sign, all the digits that stand there, and a rest. -/
structure Scans (s space sign digits rest : List Char) : Prop where
  eq_append : s = space ++ (sign ++ (digits ++ rest))
  space : ∀ c ∈ space, isSpace c = true
  sign : sign = [] ∨ sign = ['+'] ∨ sign = ['-']
  ne_nil : digits ≠ []
  digits : ∀ c ∈ digits, c.isDigit = true
  rest : ∀ c ∈ rest.head?, c.isDigit = false

/-! ### Longest matches -/

/-- `takeWhile` and `dropWhile` split a list after its longest start on which `p` holds. -/
theorem takeWhile_dropWhile_iff {α : Type*} {p : α → Bool} {l l₁ l₂ : List α} :
    l.takeWhile p = l₁ ∧ l.dropWhile p = l₂ ↔
      l = l₁ ++ l₂ ∧ (∀ a ∈ l₁, p a = true) ∧ ∀ a ∈ l₂.head?, p a = false := by
  constructor
  · rintro ⟨rfl, rfl⟩
    refine ⟨List.takeWhile_append_dropWhile.symm, fun a ha => List.mem_takeWhile_imp ha, fun a ha => ?_⟩
    have := List.head?_dropWhile_not p l
    rwa [Option.mem_def.1 ha] at this
  · rintro ⟨rfl, h₁, h₂⟩
    have hrest : l₂.takeWhile p = [] ∧ l₂.dropWhile p = l₂ := by
      cases l₂ with
      | nil => exact ⟨rfl, rfl⟩
      | cons a l₂ => simp [h₂ a rfl]
    rw [List.takeWhile_append_of_pos h₁, List.dropWhile_append_of_pos h₁, hrest.1, hrest.2, List.append_nil]
    exact ⟨rfl, rfl⟩

variable {s space sign digits rest : List Char} {c : Char} {v : Int}

theorem toNat_of_isDigit (hc : c.isDigit = true) : 48 ≤ c.toNat ∧ c.toNat ≤ 57 := by
  simp only [Char.isDigit, Bool.and_eq_true, decide_eq_true_eq, ge_iff_le, UInt32.le_iff_toNat_le] at hc
  exact hc

theorem isSpace_eq_false (hc : 33 ≤ c.toNat) : isSpace c = false := by
  simp [isSpace]
  omega

theorem splitSign_append (hsign : sign = [] ∨ sign = ['+'] ∨ sign = ['-']) (hs : ∀ c ∈ s.head?, c.isDigit = true) :
    splitSign (sign ++ s) = (sign, s) := by
  rcases hsign with rfl | rfl | rfl
  · cases s with
    | nil => rfl
    | cons c s =>
      have hc := hs c rfl
      rw [List.nil_append, splitSign] <;> intro s' heq <;> obtain ⟨rfl, -⟩ := List.cons.inj heq
      · exact absurd hc (by decide)
      · exact absurd hc (by decide)
  · rfl
  · rfl

theorem splitSign_eq (s : List Char) : ((splitSign s).1 = [] ∨ (splitSign s).1 = ['+'] ∨ (splitSign s).1 = ['-']) ∧
    s = (splitSign s).1 ++ (splitSign s).2 := by
  unfold splitSign
  split <;> simp

namespace Scans
variable (h : Scans s space sign digits rest)
include h

theorem isDigit_head : ∀ c ∈ (digits ++ rest).head?, c.isDigit = true := by
  obtain ⟨d, ds, rfl⟩ := List.exists_cons_of_ne_nil h.ne_nil
  intro c hc
  obtain rfl : d = c := by simpa using hc
  exact h.digits d (by simp)

/-- What stands after the white space is a sign or a digit. -/
theorem le_toNat_head (hc : c ∈ (sign ++ (digits ++ rest)).head?) : 33 ≤ c.toNat := by
  rcases h.sign with rfl | rfl | rfl
  · have := (toNat_of_isDigit (h.isDigit_head c hc)).1
    omega
  · obtain rfl : '+' = c := by simpa using hc
    decide
  · obtain rfl : '-' = c := by simpa using hc
    decide

/-- If there are only digits, they are the number. -/
theorem of_isDigit (hs : ∀ c ∈ s, c.isDigit = true) : space = [] ∧ sign = [] ∧ digits = s ∧ rest = [] := by
  have hmem : ∀ c, c ∈ space ∨ c ∈ sign ∨ c ∈ rest → c.isDigit = true := by
    intro c hc
    refine hs c ?_
    rw [h.eq_append]
    rcases hc with hc | hc | hc <;> simp [hc]
  have hspace : space = [] := by
    refine List.eq_nil_iff_forall_not_mem.2 fun c hc => ?_
    have h48 := (toNat_of_isDigit (hmem c (.inl hc))).1
    have := isSpace_eq_false (c := c) (by omega)
    rw [h.space c hc] at this
    cases this
  have hsign : sign = [] := by
    rcases h.sign with hsign | rfl | rfl
    · exact hsign
    · exact absurd (hmem '+' (by simp)) (by decide)
    · exact absurd (hmem '-' (by simp)) (by decide)
  have hrest : rest = [] := by
    cases rest with
    | nil => rfl
    | cons c rest =>
      have := h.rest c rfl
      rw [hmem c (by simp)] at this
      cases this
  refine ⟨hspace, hsign, ?_, hrest⟩
  rw [h.eq_append, hspace, hsign, hrest, List.nil_append, List.nil_append, List.append_nil]

end Scans

theorem strtol_eq_some_iff : strtol s = some v ↔
    ∃ space sign digits rest, Scans s space sign digits rest ∧ v = intValue sign digits := by
  constructor
  · intro h
    obtain ⟨hspace, hsp, -⟩ := takeWhile_dropWhile_iff.1 ⟨rfl, (rfl : s.dropWhile isSpace = _)⟩
    obtain ⟨hsign, hs⟩ := splitSign_eq (s.dropWhile isSpace)
    obtain ⟨hdigits, hd, hrest⟩ :=
      takeWhile_dropWhile_iff.1 ⟨rfl, (rfl : (splitSign (s.dropWhile isSpace)).2.dropWhile Char.isDigit = _)⟩
    simp only [strtol] at h
    split_ifs at h with hne
    exact ⟨_, _, _, _, ⟨by rw [← hdigits, ← hs, ← hspace], hsp, hsign, hne, hd, hrest⟩, (Option.some.inj h).symm⟩
  · rintro ⟨space, sign, digits, rest, hscan, rfl⟩
    have hdrop : s.dropWhile isSpace = sign ++ (digits ++ rest) :=
      (takeWhile_dropWhile_iff.2 ⟨hscan.eq_append, hscan.space, fun c hc => isSpace_eq_false (hscan.le_toNat_head hc)⟩).2
    have htake : (digits ++ rest).takeWhile Char.isDigit = digits :=
      (takeWhile_dropWhile_iff.2 ⟨rfl, hscan.digits, hscan.rest⟩).1
    simp only [strtol, hdrop, splitSign_append hscan.sign hscan.isDigit_head, htake, if_neg hscan.ne_nil]

theorem stoi_eq_ok_iff : stoi s = .ok v ↔
    (∃ space sign digits rest, Scans s space sign digits rest ∧ v = intValue sign digits) ∧ IsInt v := by
  rw [← strtol_eq_some_iff, stoi]
  cases strtol s with
  | none => simp
  | some w =>
    simp only [Option.some.injEq]
    split_ifs with hw
    · rw [Except.ok.injEq]
      exact ⟨fun h => ⟨h, h ▸ hw⟩, And.left⟩
    · refine iff_of_false (by simp) ?_
      rintro ⟨rfl, hv⟩
      exact hw hv

end IsisMulticast.Lib

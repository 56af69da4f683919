import IsisMulticast.Lib.Stoi

/-!
# Numbers and lines in texts

`decimal` is a number as it is printed; a printed number can be read back from a text in which no digit follows it
(`decimal_append_inj`). `unlines` writes lines one after the other, `linesFrom` reads them as a line scanner does.
-/

namespace IsisMulticast.Lib

def decimal (n : Nat) : List Char := Nat.toDigits 10 n

variable {m n : Nat} {c : Char} {s t : List Char}

theorem isDigit_of_mem_decimal (hc : c ∈ decimal n) : c.isDigit = true :=
  Nat.isDigit_of_mem_toDigits (by decide) (by decide) hc

theorem not_mem_decimal (hc : c.isDigit = false) : c ∉ decimal n := by
  intro hmem
  simp [isDigit_of_mem_decimal hmem] at hc

theorem decimal_ne_nil (n : Nat) : decimal n ≠ [] := Nat.toDigits_ne_nil

theorem natValue_decimal (n : Nat) : natValue (decimal n) = n := Nat.ofDigitChars_ten_toDigits

theorem decimal_inj (h : decimal m = decimal n) : m = n := by
  rw [← natValue_decimal m, h, natValue_decimal]

theorem decimal_append_inj (hs : ∀ c ∈ s.head?, c.isDigit = false) (ht : ∀ c ∈ t.head?, c.isDigit = false)
    (h : decimal m ++ s = decimal n ++ t) : m = n ∧ s = t := by
  have hm := takeWhile_dropWhile_iff.2 ⟨rfl, fun _ hc => isDigit_of_mem_decimal (n := m) hc, hs⟩
  have hn := takeWhile_dropWhile_iff.2 ⟨rfl, fun _ hc => isDigit_of_mem_decimal (n := n) hc, ht⟩
  rw [h] at hm
  exact ⟨decimal_inj (hm.1.symm.trans hn.1), hm.2.symm.trans hn.2⟩

/-! ### Lines -/

def unlines (lines : List (List Char)) : List Char := lines.flatMap (· ++ ['\n'])

/-- A line without a return at its end. -/
def dropReturn (line : List Char) : List Char := if line.getLast? = some '\r' then line.dropLast else line

/-- The lines of a text, when `line` is read so far. The last line need not be ended, but it is none if it is empty. -/
def linesFrom (line : List Char) : List Char → List (List Char)
  | [] => if line = [] then [] else [dropReturn line]
  | c :: cs => if c = '\n' then dropReturn line :: linesFrom [] cs else linesFrom (line ++ [c]) cs

theorem dropReturn_of_not_mem {line : List Char} (h : '\r' ∉ line) : dropReturn line = line :=
  if_neg fun hlast => h (List.mem_of_getLast? hlast)

theorem linesFrom_append {line : List Char} (hs : '\n' ∉ s) : linesFrom line (s ++ t) = linesFrom (line ++ s) t := by
  induction s generalizing line with
  | nil => simp
  | cons c s ih =>
    rw [List.mem_cons, not_or] at hs
    rw [List.cons_append, linesFrom, if_neg (Ne.symm hs.1), ih hs.2, List.append_assoc, List.singleton_append]

theorem linesFrom_unlines {lines : List (List Char)} (h : ∀ l ∈ lines, '\n' ∉ l ∧ '\r' ∉ l) :
    linesFrom [] (unlines lines) = lines := by
  induction lines with
  | nil => rfl
  | cons l lines ih =>
    obtain ⟨hn, hr⟩ := h l (by simp)
    rw [unlines, List.flatMap_cons, List.append_assoc, linesFrom_append hn, List.nil_append, List.singleton_append,
      linesFrom, if_pos rfl, dropReturn_of_not_mem hr, ← unlines, ih fun l' hl' => h l' (by simp [hl'])]

end IsisMulticast.Lib

import IsisMulticast.Net
import IsisMulticast.Lib.Text

/-!
# Writing a hostfile (`net.cc`: `operator<<` of `Address`)

An address is printed as `<hostname>:<port>`. A file of such lines is read back by `GetProcesses` as the list of these
addresses, if the hostnames have no colon and no white space. Those that `GetProcesses` returns have none, so a list of
processes that was read can be written and read again (`hostfile_round_trip`).
-/

namespace IsisMulticast.Net
open Lib

/-- `operator<<` -/
def Address.print (addr : Address) : Str := addr.hostname ++ ':' :: decimal addr.port.toNat

theorem addressWithDefaultPort_print {addr : Address} (hhost : ':' ∉ addr.hostname) (default : Option UInt16) :
    addressWithDefaultPort addr.print default = .ok addr := by
  have hlt : natValue (decimal addr.port.toNat) < 65536 := by
    rw [natValue_decimal]
    exact addr.port.toNat_lt
  have hstoi := stoi_of_isDigit (decimal_ne_nil _) (fun c hc => isDigit_of_mem_decimal hc) hlt
  refine (addressWithDefaultPort_colon hhost).2 ⟨_, hstoi, ?_⟩
  rw [natValue_decimal] at hlt ⊢
  have hport : UInt16.ofInt addr.port.toNat = addr.port := UInt16.toNat_inj.1 (toNat_ofInt hlt)
  rw [hport]

theorem isSpace_of_mem_print {addr : Address} (hhost : ∀ c ∈ addr.hostname, isSpace c = false) :
    ∀ c ∈ addr.print, isSpace c = false := by
  intro c hc
  rcases List.mem_append.1 hc with hc | hc
  · exact hhost c hc
  · rcases List.mem_cons.1 hc with rfl | hc
    · rfl
    · have := toNat_of_isDigit (isDigit_of_mem_decimal hc)
      exact isSpace_eq_false (by omega)

/-! ### Words -/

theorem wordsFrom_append {word s rest : Str} (hs : ∀ c ∈ s, isSpace c = false) :
    wordsFrom word (s ++ rest) = wordsFrom (word ++ s) rest := by
  induction s generalizing word with
  | nil => simp
  | cons c s ih =>
    have hc := hs c (by simp)
    have htail : ∀ c ∈ s, isSpace c = false := fun c hc => hs c (by simp [hc])
    rw [List.cons_append, wordsFrom, if_neg (by simp [hc]), ih htail, List.append_assoc, List.singleton_append]

/-- Lines that are words are read as these words. -/
theorem wordsFrom_unlines {words : List Str} (hne : ∀ w ∈ words, w ≠ [])
    (hs : ∀ w ∈ words, ∀ c ∈ w, isSpace c = false) : wordsFrom [] (unlines words) = words := by
  induction words with
  | nil => rfl
  | cons w words ih =>
    rw [unlines, List.flatMap_cons, List.append_assoc, wordsFrom_append (hs w (by simp)), List.nil_append,
      List.singleton_append, wordsFrom, if_pos (by decide), if_neg (hne w (by simp)), ← unlines]
    rw [ih (fun w' hw' => hne w' (by simp [hw'])) fun w' hw' => hs w' (by simp [hw'])]

theorem getProcesses_print {addrs : List Address}
    (hhost : ∀ addr ∈ addrs, ':' ∉ addr.hostname ∧ ∀ c ∈ addr.hostname, isSpace c = false) (default : Option UInt16) :
    getProcesses (some (unlines (addrs.map Address.print))) default = .ok addrs := by
  have hwords : wordsFrom [] (unlines (addrs.map Address.print)) = addrs.map Address.print := by
    refine wordsFrom_unlines (fun w hw => ?_) fun w hw => ?_
    · obtain ⟨addr, -, rfl⟩ := List.mem_map.1 hw
      simp [Address.print]
    · obtain ⟨addr, haddr, rfl⟩ := List.mem_map.1 hw
      exact isSpace_of_mem_print (hhost addr haddr).2
  rw [getProcesses, hwords, readProcesses_eq_ok_iff, List.forall₂_map_left_iff, List.forall₂_same]
  exact fun addr haddr => addressWithDefaultPort_print (hhost addr haddr).1 default

/-! ### What is read -/

theorem isSpace_of_mem_wordsFrom {word s : Str} (hword : ∀ c ∈ word, isSpace c = false) :
    ∀ w ∈ wordsFrom word s, ∀ c ∈ w, isSpace c = false := by
  induction s generalizing word with
  | nil =>
    rw [wordsFrom]
    split_ifs with hnil
    · simp
    · simpa using hword
  | cons c s ih =>
    rw [wordsFrom]
    split_ifs with hc hnil
    · exact ih (by simp)
    · intro w hw
      rcases List.mem_cons.1 hw with rfl | hw
      · exact hword
      · exact ih (by simp) w hw
    · refine ih fun c' hc' => ?_
      rcases List.mem_append.1 hc' with hc' | hc'
      · exact hword c' hc'
      · obtain rfl := List.mem_singleton.1 hc'
        simpa using hc

/-- The hostname is the text up to the first colon. -/
theorem hostname_of_ok {s : Str} {default : Option UInt16} {addr : Address}
    (h : addressWithDefaultPort s default = .ok addr) : ':' ∉ addr.hostname ∧ ∀ c ∈ addr.hostname, c ∈ s := by
  rcases addressWithDefaultPort_eq_ok_iff.1 h with ⟨hs, p, -, rfl⟩ | ⟨host, d, -, -, -, -, rfl, hhost, -, -, rfl⟩
  · exact ⟨hs, fun c hc => hc⟩
  · exact ⟨hhost, fun c hc => List.mem_append_left _ hc⟩

/-- Whatever hostfile the processes were read from, with signs, ports out of range and text behind the ports, the file
of their printed addresses is read as the same processes, under any default port. -/
theorem hostfile_round_trip {file : Option Str} {default : Option UInt16} {addrs : List Address}
    (h : getProcesses file default = .ok addrs) (default' : Option UInt16) :
    getProcesses (some (unlines (addrs.map Address.print))) default' = .ok addrs := by
  cases file with
  | none => simp [getProcesses] at h
  | some contents =>
    have hread := readProcesses_eq_ok_iff.1 h
    refine getProcesses_print (fun addr haddr => ?_) default'
    obtain ⟨i, hi, rfl⟩ := List.getElem_of_mem haddr
    have hlt : i < (wordsFrom [] contents).length := hread.length_eq ▸ hi
    obtain ⟨hcolon, hmem⟩ := hostname_of_ok (hread.get hlt hi)
    exact ⟨hcolon, fun c hc => isSpace_of_mem_wordsFrom (by simp) _ (List.get_mem _ _) c (hmem c hc)⟩

/-- A host with the default port, and a host with a number that is no port. -/
theorem hostfile_round_trip_malformed :
    getProcesses (some (unlines ([⟨['h'], 80⟩, ⟨['g'], 65535⟩].map Address.print))) none =
      .ok [⟨['h'], 80⟩, ⟨['g'], 65535⟩] := by
  have hread : getProcesses (some ['h', ' ', 'g', ':', '-', '1', 'x']) (some 80) =
      .ok [⟨['h'], 80⟩, ⟨['g'], 65535⟩] := by decide
  exact hostfile_round_trip hread none

end IsisMulticast.Net

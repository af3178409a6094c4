import KernelSanders.Userprog.StartProcess

namespace KernelSanders

open Lib Lib.Exec List

/-!
# The arguments as the program finds them

A program finds its arguments from the stack pointer on: a return address, `argc`, `argv`, and at
`argv` the addresses of the words with a null pointer behind them (`Decodes`).  A command line that
`start_process` reads to its end is passed on as its words (`start_process_decodes`).
-/

/-- The string `w` at an address, with a null character behind it. -/
def StringAt (mem : Nat → UInt8) (a : Nat) (w : List UInt8) : Prop :=
  (∀ i (h : i < w.length), mem (a + i) = w[i]) ∧ mem (a + w.length) = 0

/-- The words `ws` are the arguments on the stack, which are all in its page. -/
structure Decodes (k : UserStack) (ws : List (List UInt8)) : Prop where
  aligned : k.esp % 4 = 0
  page : UserStack.InStackPage k.esp
  written : ∀ a ∈ k.written, UserStack.InStackPage a
  ret : wordAt k.mem k.esp = 0
  argc : wordAt k.mem (k.esp + 4) = ws.length
  argv : wordAt k.mem (k.esp + 8) = k.esp + 12
  strings : ∀ i (h : i < ws.length),
    k.esp + 12 + 4 * (ws.length + 1) ≤ wordAt k.mem (k.esp + 12 + 4 * i) ∧
      wordAt k.mem (k.esp + 12 + 4 * i) + ws[i].length < physBase ∧
      StringAt k.mem (wordAt k.mem (k.esp + 12 + 4 * i)) ws[i]
  null : wordAt k.mem (k.esp + 12 + 4 * ws.length) = 0

variable {i : Nat}

theorem CommandLine.char {fileName : Nat → UInt8} {line : List UInt8} {c : UInt8}
    (h : CommandLine fileName line) (hc : (line)[i]? = some c) : fileName i = c := by
  obtain ⟨hi, hget⟩ := List.getElem?_eq_some_iff.mp hc
  rw [h.chars i hi, hget]

namespace Parsing

variable {fileName : Nat → UInt8} {line : List UInt8} {s : Parsing}

/-- The words that have been found are strings in the page of the command line. -/
theorem Parsed.stringAt (h : Parsed fileName line line.length s)
    (hline : CommandLine fileName line) (hi : i < (words isBlank line).length) :
    ∃ start, s.argv[i]? = some start ∧ start + (words isBlank line)[i].length ≤ line.length ∧
      StringAt s.fileName start (words isBlank line)[i] := by
  obtain ⟨start, rest, hstart, hdrop, hnonempty, hword, hrest⟩ := exists_start hi
  generalize (words isBlank line)[i] = w at hdrop hnonempty hword ⊢
  have hlength : line.length - start = w.length + rest.length := by
    rw [← length_drop, hdrop, length_append]
  have hpos : 0 < w.length := length_pos_iff.mpr hnonempty
  have hget : ∀ j, (line)[start + j]? = (w ++ rest)[j]? := by
    intro j
    rw [← hdrop, getElem?_drop]
  have hchar : ∀ j (hj : j < w.length), (line)[start + j]? = some w[j] := by
    intro j hj
    rw [hget, getElem?_append_left hj, getElem?_eq_getElem hj]
  refine ⟨start, ?_, by omega, fun j hj => ?_, ?_⟩
  · rw [h.argv, take_length]
    exact hstart
  · -- the characters of the word are not blanks
    have hself := hline.char (hchar j hj)
    have hne : w[j] ≠ blank := by
      simpa [isBlank] using hword _ (getElem_mem hj)
    rw [h.before _ (by omega), hself, if_neg (fun hblank => hne hblank.1)]
  · cases hr : rest with
    | nil =>
      rw [hr, length_nil] at hlength
      rw [show start + w.length = line.length by omega, h.after _ le_rfl, hline.null]
    | cons c cs =>
      -- the blank behind the word has been replaced
      rw [hr, length_cons] at hlength
      have hnext : (line)[start + w.length]? = some c := by
        rw [hget, hr, getElem?_append_right le_rfl, Nat.sub_self]
        rfl
      have hblank : c = blank := by
        have := hrest c (by rw [hr]; rfl)
        simpa [isBlank] using this
      have hlast := hchar (w.length - 1) (by omega)
      obtain ⟨hlt, hlast⟩ := List.getElem?_eq_some_iff.mp hlast
      have hends : endsInWord isBlank false (line.take (start + w.length)) = true := by
        rw [show start + w.length = start + (w.length - 1) + 1 by omega,
          take_succ_eq_append_getElem hlt, endsInWord_concat, hlast, hword _ (getElem_mem _)]
        rfl
      rw [h.before _ (by omega), hline.char hnext, if_pos ⟨hblank, hends⟩]

end Parsing

namespace UserStack

/-- The stack when the arguments have been passed. -/
def passed (k : UserStack) (s : Parsing) : UserStack := (k.withChars s).pushAll (k.frameWords s)

section Passed

variable {k : UserStack} {s : Parsing} (hroom : 4 * (s.argv.length + 4) ≤ k.base s / 4 * 4)

theorem esp_passed (k : UserStack) (s : Parsing) :
    (k.passed s).esp = k.base s / 4 * 4 - 4 * (s.argv.length + 4) := by
  rw [passed, esp_pushAll, length_frameWords]
  rfl

include hroom

theorem wordAt_passed {v : Nat} (hi : (k.frameWords s)[i]? = some v) (hv : v < 2 ^ 32) :
    wordAt (k.passed s).mem ((k.passed s).esp + 4 * i) = v := by
  obtain ⟨hlt, rfl⟩ := List.getElem?_eq_some_iff.mp hi
  rw [passed, esp_pushAll,
    wordAt_pushAll (by rw [length_frameWords]; exact hroom) hlt, Nat.mod_eq_of_lt hv]

/-- The characters are where they have been copied to: the words are all below them. -/
theorem mem_passed (hi : i < s.numChars) : (k.passed s).mem (k.base s + i) = s.fileName i := by
  have habove : (k.withChars s).esp ≤ k.base s + i := by
    show k.base s / 4 * 4 ≤ _
    omega
  rw [passed, mem_pushAll (by rw [length_frameWords]; exact hroom) habove]
  simp only [withChars, putByte, copied]
  rw [Function.update_of_ne (by omega), if_pos (by omega), Nat.add_sub_cancel_left]

end Passed

variable {k : UserStack} {s : Parsing}

theorem getElem?_frameWords_argv {start : Nat} (h : s.argv[i]? = some start) :
    (k.frameWords s)[i + 3]? = some (k.base s + start) := by
  have hi : i < (s.argv.map (k.base s + ·)).length := by
    rw [length_map]
    exact (List.getElem?_eq_some_iff.mp h).1
  rw [frameWords, getElem?_cons_succ, getElem?_cons_succ, getElem?_cons_succ,
    getElem?_append_left hi, getElem?_map, h]
  rfl

theorem getElem?_frameWords_null (k : UserStack) (s : Parsing) :
    (k.frameWords s)[s.argv.length + 3]? = some 0 := by
  rw [frameWords, getElem?_cons_succ, getElem?_cons_succ, getElem?_cons_succ,
    getElem?_append_right (by rw [length_map]), length_map, Nat.sub_self]
  rfl

variable {fileName : Nat → UInt8} {line : List UInt8}

/-- What is on the stack when `s` has found the words of a command line. -/
theorem decodes_passed (hchars : s.numChars = line.length + 1)
    (hargc : s.argv.length = (words isBlank line).length)
    (hstrings : ∀ i (hi : i < (words isBlank line).length), ∃ start, s.argv[i]? = some start ∧
      start + (words isBlank line)[i].length ≤ line.length ∧
      StringAt s.fileName start (words isBlank line)[i])
    (hesp : k.esp = physBase - 1)
    (hsize : ((words isBlank line).length + 5) * 4 + line.length < pgSize)
    (hwritten : ∀ a ∈ (k.passed s).written, InStackPage a) :
    Decodes (k.passed s) (words isBlank line) := by
  have hbase : k.base s = physBase - 3 - line.length := by
    rw [base, hchars, hesp]
    omega
  have hpassed := esp_passed k s
  rw [hargc] at hpassed
  unfold physBase at hbase
  unfold pgSize at hsize
  have hroom : 4 * (s.argv.length + 4) ≤ k.base s / 4 * 4 := by omega
  refine ⟨by omega, ⟨?_, ?_⟩, hwritten, ?_, ?_, ?_, fun i hi => ?_, ?_⟩
  · unfold physBase pgSize
    omega
  · unfold physBase
    omega
  · exact wordAt_passed hroom (i := 0) rfl (by omega)
  · rw [← hargc]
    exact wordAt_passed hroom (i := 1) rfl (by omega)
  · have hargv := wordAt_passed hroom (i := 2) rfl (by omega)
    rw [hargv]
    omega
  · obtain ⟨start, hstart, hle, hword, hnull⟩ := hstrings i hi
    have haddr := wordAt_passed hroom (getElem?_frameWords_argv hstart) (by omega)
    rw [show (k.passed s).esp + 12 + 4 * i = (k.passed s).esp + 4 * (i + 3) by omega, haddr]
    refine ⟨by omega, by unfold physBase; omega, fun j hj => ?_, ?_⟩
    · rw [Nat.add_assoc, mem_passed hroom (by omega), hword j hj]
    · rw [Nat.add_assoc, mem_passed hroom (by omega), hnull]
  · have hnull := wordAt_passed hroom (getElem?_frameWords_null k s) (by omega)
    rw [hargc] at hnull
    rw [← hnull]
    congr 1
    omega

/-- A command line that `start_process` reads to its end is passed on as its words. -/
theorem start_process_decodes (mem : Nat → UInt8) (hline : CommandLine fileName line)
    (hwords : (words isBlank line).length < maxArgs - 1)
    (hsize : ∀ n, 0 < n → n ≤ line.length → (begun line n + 5) * 4 + n < pgSize) :
    Returns (startProcess fileName) ⟨physBase - 1, mem, []⟩
      (fun _ k => Decodes k (words isBlank line)) := by
  generalize hk : (⟨physBase - 1, mem, []⟩ : UserStack) = k
  obtain ⟨n, s, hrun, hparsed, hstops, -⟩ := Parsing.parse_returns k hline
  have hall : begun line line.length = (words isBlank line).length := by
    rw [begun, take_length, length_words]
  have hle : begun line n ≤ (words isBlank line).length :=
    (begun_mono line hparsed.le).trans_eq hall
  -- neither the number of words nor the size ends the loop
  have hn : n = line.length := by
    rcases hstops with hend | hmany | hlarge
    · exact hend
    · omega
    · rcases Nat.eq_zero_or_pos n with rfl | hpos
      · rw [show begun line 0 = 0 from rfl] at hlarge
        unfold pgSize at hlarge
        omega
      · have := hsize n hpos hparsed.le
        omega
  subst hn
  have hfits : ((words isBlank line).length + 5) * 4 + line.length < pgSize := by
    rcases Nat.eq_zero_or_pos line.length with hzero | hpos
    · rw [← hall, hzero, show begun line 0 = 0 from rfl]
      decide
    · rw [← hall]
      exact hsize _ hpos le_rfl
  have hargc : s.argv.length = (words isBlank line).length := hparsed.length_argv.trans hall
  have hchars : s.numChars + 1 = line.length + 1 := by rw [hparsed.numChars]
  have hwritten := (passArguments_fits mem { s with numChars := s.numChars + 1 }
    (by simp only [hchars]; unfold pgSize at hfits; omega)
    (by simp only [hargc]; unfold maxArgs at hwords ⊢; omega)).mpr
      (by simp only [hchars, hargc]; unfold pgSize at hfits ⊢; omega)
  obtain ⟨_, k', hpass, hwritten⟩ := hwritten
  rw [hk] at hpass
  cases (passArguments_run k _).symm.trans hpass
  rw [startProcess, returns_step hrun]
  refine ⟨(), _, hpass, ?_⟩
  exact decodes_passed hchars hargc (fun i hi => hparsed.stringAt hline hi)
    (by rw [← hk]) hfits hwritten

theorem start_process_decodes_echo : CommandLine (pageOf echoX) echoX ∧
    Returns (startProcess (pageOf echoX)) ⟨physBase - 1, fun _ => 0, []⟩
      (fun _ k => Decodes k [[101, 99, 104, 111], [120]]) := by
  have hline : CommandLine (pageOf echoX) echoX := commandLine_pageOf (by decide) (by decide)
  have hwords : words isBlank echoX = [[101, 99, 104, 111], [120]] := by decide +kernel
  have hsize : ∀ n < 7, (begun echoX n + 5) * 4 + n < pgSize := by decide +kernel
  refine ⟨hline, ?_⟩
  rw [← hwords]
  exact start_process_decodes _ hline (by decide +kernel)
    (fun n _ hn => hsize n (Nat.lt_succ_of_le hn))

end UserStack

end KernelSanders

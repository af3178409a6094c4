import KernelSanders.Kernel.Arith
import KernelSanders.Lib.Words
import KernelSanders.Vm.State

namespace KernelSanders

open Lib Lib.Exec
open Function hiding update
open List

/-!
# Building the initial stack

`start_process` of `userprog/process.c` goes over the command line once, counts the characters and
notes where the words start, and ends each word with a null character.  It stops early when the
arguments may not fit on the stack or there are too many of them.  Then it copies the characters to
the top of the page of the stack, and puts the addresses of the words, `argv`, `argc` and a return
address below them.

* `parse_returns` — where the loop stops, and what it has found by then;
* `passArguments_run` — what is on the stack;
* `start_process_fits` — the command lines whose arguments stay in the page.
-/

/-- `MAX_ARGS`. -/
def maxArgs : Nat := 100

/-- A blank. -/
def blank : UInt8 := 32

/-- The page with the command line, the entries of `argv` that are in use, the number of characters,
    which says where `next` points to as well, and `in_word`. -/
structure Parsing where
  fileName : Nat → UInt8
  argv : List Nat
  numChars : Nat
  inWord : Bool

namespace Parsing

/-- One character. -/
def step (s : Parsing) : Parsing :=
  if s.inWord = false ∧ s.fileName s.numChars ≠ blank then
    { s with inWord := true, argv := s.argv ++ [s.numChars], numChars := s.numChars + 1 }
  else if s.inWord = true ∧ s.fileName s.numChars = blank then
    { s with
      inWord := false
      fileName := Function.update s.fileName s.numChars 0
      numChars := s.numChars + 1 }
  else { s with numChars := s.numChars + 1 }

/-- The loop.  The command line ends inside of its page, so there are no more turns than characters
    in a page. -/
def parse {σ : Type} : Nat → Parsing → Exec σ Parsing
  | 0, _ => stop .fuel
  | fuel + 1, s =>
    if s.fileName s.numChars ≠ 0 ∧ s.argv.length < maxArgs - 1 then
      let s := s.step
      if pgSize ≤ (s.argv.length + 5) * 4 + s.numChars then pure s else parse fuel s
    else pure s

end Parsing

/-- The stack pointer, the user memory, and the addresses that have been written to so far. -/
structure UserStack where
  esp : Nat
  mem : Nat → UInt8
  written : List Nat

namespace UserStack

def putByte (a : Nat) (b : UInt8) (k : UserStack) : UserStack :=
  { k with mem := Function.update k.mem a b, written := k.written ++ [a] }

/-- Store a 32-bit word. -/
def putWord (a w : Nat) (k : UserStack) : UserStack :=
  (((k.putByte a (UInt8.ofNat w)).putByte (a + 1) (UInt8.ofNat (w / 256))).putByte (a + 2)
    (UInt8.ofNat (w / 65536))).putByte (a + 3) (UInt8.ofNat (w / 16777216))

/-- `if_.esp -= 4; *if_.esp = w;` -/
def push (w : Nat) (k : UserStack) : UserStack :=
  { k with esp := k.esp - 4 }.putWord (k.esp - 4) w

/-- `memcpy` of the characters `is`. -/
def memcpy (dst : Nat) (src : Nat → UInt8) : List Nat → Exec UserStack Unit
  | [] => pure ()
  | i :: is => do
    update (putByte (dst + i) (src i))
    memcpy dst src is

/-- `for (i = argc; i >= 0; i--)`, over the words to push. -/
def pushEach : List Nat → Exec UserStack Unit
  | [] => pure ()
  | w :: ws => do
    update (push w)
    pushEach ws

/-- `start_process` from the decrement of the stack pointer on, with the number of characters that
    are copied. -/
def passArguments (s : Parsing) : Exec UserStack Unit := do
  update (fun k => { k with esp := k.esp - 1 })
  update (fun k => { k with esp := k.esp - s.numChars })
  let base ← read esp
  memcpy base s.fileName (range s.numChars)
  update (putByte (base + s.numChars) 0)
  let argv := s.argv.map (base + ·)
  update (fun k => { k with esp := k.esp / 4 * 4 })
  pushEach (argv ++ [0]).reverse
  let argvAddr ← read esp
  update (push argvAddr)
  update (push s.argv.length)
  update (push 0)

/-- `start_process`, when the executable has been loaded. -/
def startProcess (fileName : Nat → UInt8) : Exec UserStack Unit := do
  let s ← Parsing.parse pgSize ⟨fileName, [], 0, false⟩
  passArguments { s with numChars := s.numChars + 1 }

end UserStack

/-- The page has a command line in it, with the null character in the page. -/
structure CommandLine (fileName : Nat → UInt8) (line : List UInt8) : Prop where
  chars : ∀ i (h : i < line.length), fileName i = (line)[i]
  null : fileName line.length = 0
  nonzero : 0 ∉ line
  short : line.length ≤ 4095

/-- A character ends a word. -/
def isBlank (c : UInt8) : Bool := c == blank

/-- The number of words that have started in the first `n` characters. -/
def begun (line : List UInt8) (n : Nat) : Nat :=
  (wordStarts isBlank false 0 (line.take n)).length

/-- One character starts one word at most. -/
theorem begun_succ (line : List UInt8) (n : Nat) :
    begun line n ≤ begun line (n + 1) ∧ begun line (n + 1) ≤ begun line n + 1 := by
  by_cases hn : n < line.length
  · rw [begun, begun, take_succ_eq_append_getElem hn, wordStarts_concat, length_append]
    split_ifs <;> simp
  · rw [begun, begun, take_of_length_le (by omega), take_of_length_le (by omega)]
    omega

theorem begun_mono (line : List UInt8) : Monotone (begun line) :=
  monotone_nat_of_le_succ (fun n => (begun_succ line n).1)

/-! ### The loop -/

namespace Parsing

variable {fileName : Nat → UInt8} {line : List UInt8} {s : Parsing} {n : Nat} {σ : Type}

/-- What the loop has found in the first `n` characters. -/
structure Parsed (fileName : Nat → UInt8) (line : List UInt8) (n : Nat) (s : Parsing) : Prop where
  le : n ≤ line.length
  numChars : s.numChars = n
  argv : s.argv = wordStarts isBlank false 0 (line.take n)
  inWord : s.inWord = endsInWord isBlank false (line.take n)
  before : ∀ i < n, s.fileName i =
    if fileName i = blank ∧ endsInWord isBlank false (line.take i) = true then 0 else fileName i
  after : ∀ i, n ≤ i → s.fileName i = fileName i

theorem parsed_start (fileName : Nat → UInt8) (line : List UInt8) :
    Parsed fileName line 0 ⟨fileName, [], 0, false⟩ :=
  ⟨Nat.zero_le _, rfl, rfl, rfl, nofun, fun _ _ => rfl⟩

/-- The three cases of one character in one. -/
theorem step_eq : s.step =
    ⟨if s.inWord = true ∧ s.fileName s.numChars = blank then
        Function.update s.fileName s.numChars 0 else s.fileName,
      s.argv ++ if s.inWord = false ∧ s.fileName s.numChars ≠ blank then [s.numChars] else [],
      s.numChars + 1, !isBlank (s.fileName s.numChars)⟩ := by
  unfold step
  by_cases hc : s.fileName s.numChars = blank
  · cases hw : s.inWord <;> simp [hc, isBlank]
  · cases hw : s.inWord <;> simp [hc, isBlank]

/-- What the loop knows after one more character. -/
theorem Parsed.step (h : Parsed fileName line n s) (hline : CommandLine fileName line)
    (hn : n < line.length) : Parsed fileName line (n + 1) s.step := by
  have hchar : s.fileName s.numChars = (line)[n] := by
    rw [h.numChars, h.after n le_rfl, hline.chars n hn]
  have htake : line.take (n + 1) = line.take n ++ [(line)[n]] := take_succ_eq_append_getElem hn
  have hlength : 0 + (line.take n).length = n := by
    rw [length_take]
    omega
  have hblank : isBlank (line)[n] = false ↔ (line)[n] ≠ blank := by simp [isBlank]
  rw [step_eq, hchar]
  refine ⟨hn, ?_, ?_, ?_, fun i hi => ?_, fun i hi => ?_⟩
  · rw [h.numChars]
  · rw [htake, wordStarts_concat, hlength, ← h.inWord, ← h.argv, h.numChars]
    simp only [hblank]
  · rw [htake, endsInWord_concat]
  · -- a character that ends a word is replaced when the loop comes to it, and only then
    rcases Nat.lt_succ_iff_lt_or_eq.mp hi with hlt | rfl
    · have hne : i ≠ s.numChars := by
        rw [h.numChars]
        exact hlt.ne
      rw [← h.before i hlt]
      dsimp only
      split_ifs
      · exact update_of_ne hne _ _
      · rfl
    · have hself : s.fileName i = (line)[i] := by rw [h.after i le_rfl, hline.chars i hn]
      rw [← h.inWord, hline.chars i hn, h.numChars]
      dsimp only
      simp only [and_comm]
      split_ifs
      · exact update_self _ _ _
      · exact hself
  · have hne : i ≠ s.numChars := by
      rw [h.numChars]
      omega
    rw [← h.after i (by omega)]
    dsimp only
    split_ifs
    · exact update_of_ne hne _ _
    · rfl

/-- The loop ends after `n` characters. -/
def Stops (line : List UInt8) (n : Nat) : Prop :=
  n = line.length ∨ maxArgs - 1 ≤ begun line n ∨ pgSize ≤ (begun line n + 5) * 4 + n

theorem Parsed.length_argv (h : Parsed fileName line n s) : s.argv.length = begun line n := by
  rw [h.argv, begun]

/-- The loop goes on until it stops. -/
theorem parse_from {k : σ} (hline : CommandLine fileName line) (fuel : Nat)
    (h : Parsed fileName line n s) (hfuel : line.length - n < fuel)
    (hbefore : ∀ m < n, ¬ Stops line m) (hfits : (begun line n + 5) * 4 + n < pgSize) :
    ∃ n' s', (parse fuel s).run k = .ok (s', k) ∧ Parsed fileName line n' s' ∧ Stops line n' ∧
      ∀ m < n', ¬ Stops line m := by
  induction fuel generalizing n s with
  | zero => omega
  | succ fuel ih =>
    have hhead : s.fileName s.numChars = fileName n := by
      rw [h.numChars, h.after n le_rfl]
    rw [parse]
    by_cases hgo : s.fileName s.numChars ≠ 0 ∧ s.argv.length < maxArgs - 1
    · have hn : n < line.length := by
        refine lt_of_le_of_ne h.le (fun heq => hgo.1 ?_)
        rw [hhead, heq, hline.null]
      have hstep := h.step hline hn
      have hnot : ∀ m < n + 1, ¬ Stops line m := by
        intro m hm
        rcases Nat.lt_succ_iff_lt_or_eq.mp hm with hlt | rfl
        · exact hbefore m hlt
        · have hargs := hgo.2
          rw [h.length_argv] at hargs
          rintro (heq | hmany | hlarge) <;> omega
      rw [if_pos hgo]
      dsimp only
      by_cases hbreak : pgSize ≤ (s.step.argv.length + 5) * 4 + s.step.numChars
      · rw [if_pos hbreak]
        rw [hstep.length_argv, hstep.numChars] at hbreak
        exact ⟨n + 1, s.step, rfl, hstep, .inr (.inr hbreak), hnot⟩
      · rw [if_neg hbreak]
        rw [hstep.length_argv, hstep.numChars, not_le] at hbreak
        exact ih hstep (by omega) hnot hbreak
    · rw [if_neg hgo]
      refine ⟨n, s, rfl, h, ?_, hbefore⟩
      rw [hhead, h.length_argv, not_and_or, not_not, not_lt] at hgo
      rcases hgo with hzero | hargs
      · left
        by_contra hne
        have hn : n < line.length := lt_of_le_of_ne h.le hne
        rw [hline.chars n hn] at hzero
        exact hline.nonzero (hzero ▸ getElem_mem hn)
      · exact .inr (.inl hargs)

theorem parse_returns (k : σ) (hline : CommandLine fileName line) :
    ∃ n s, (parse pgSize ⟨fileName, [], 0, false⟩).run k = .ok (s, k) ∧
      Parsed fileName line n s ∧ Stops line n ∧ ∀ m < n, ¬ Stops line m := by
  have hshort := hline.short
  refine parse_from hline pgSize (parsed_start fileName line) ?_ nofun ?_
  · unfold pgSize
    omega
  · simp [begun, wordStarts, pgSize]

end Parsing

/-! ### The stack -/

/-- The word at an address. -/
def wordAt (mem : Nat → UInt8) (a : Nat) : Nat :=
  (mem a).toNat + 256 * (mem (a + 1)).toNat + 65536 * (mem (a + 2)).toNat +
    16777216 * (mem (a + 3)).toNat

namespace UserStack

variable {k : UserStack} {a w : Nat} {ws : List Nat} {s : Parsing}

theorem mem_push (h : ∀ j < 4, a ≠ k.esp - 4 + j) : (k.push w).mem a = k.mem a := by
  have h0 := h 0 (by omega)
  have h1 := h 1 (by omega)
  have h2 := h 2 (by omega)
  have h3 := h 3 (by omega)
  rw [Nat.add_zero] at h0
  simp only [push, putWord, putByte]
  rw [update_of_ne h3, update_of_ne h2, update_of_ne h1, update_of_ne h0]

theorem wordAt_push (k : UserStack) (w : Nat) : wordAt (k.push w).mem (k.esp - 4) = w % 2 ^ 32 := by
  simp only [wordAt, push, putWord, putByte, update_apply]
  simp only [Nat.add_right_cancel_iff, Nat.left_eq_add, Nat.add_eq_left, Nat.add_left_cancel_iff,
    Nat.reduceEqDiff, if_true, if_false, OfNat.ofNat_ne_zero, one_ne_zero, UInt8.toNat_ofNat']
  omega

/-- Words are pushed from the last to the first. -/
def pushAll (k : UserStack) (ws : List Nat) : UserStack := ws.foldr push k

theorem pushAll_cons : k.pushAll (w :: ws) = (k.pushAll ws).push w := rfl

theorem pushEach_run (ws : List Nat) (k : UserStack) :
    (pushEach ws).run k = .ok ((), k.pushAll ws.reverse) := by
  induction ws generalizing k with
  | nil => rfl
  | cons w ws ih =>
    rw [pushEach, update_bind, ih]
    simp [pushAll]

theorem esp_pushAll : (k.pushAll ws).esp = k.esp - 4 * ws.length := by
  induction ws with
  | nil => rfl
  | cons w ws ih =>
    show (k.pushAll ws).esp - 4 = _
    rw [ih, length_cons]
    omega

section

variable (hroom : 4 * ws.length ≤ k.esp)
include hroom

/-- What is above the stack pointer stays. -/
theorem mem_pushAll (ha : k.esp ≤ a) : (k.pushAll ws).mem a = k.mem a := by
  induction ws with
  | nil => rfl
  | cons w ws ih =>
    rw [length_cons] at hroom
    rw [pushAll_cons, mem_push, ih (by omega)]
    intro j hj
    rw [esp_pushAll]
    omega

/-- The words are on the stack in their order. -/
theorem wordAt_pushAll {i : Nat} (hi : i < ws.length) :
    wordAt (k.pushAll ws).mem (k.esp - 4 * ws.length + 4 * i) = ws[i] % 2 ^ 32 := by
  induction ws generalizing i with
  | nil => cases hi
  | cons w ws ih =>
    rw [length_cons] at hroom hi ⊢
    rw [pushAll_cons]
    cases i with
    | zero =>
      have hword := wordAt_push (k.pushAll ws) w
      rw [esp_pushAll] at hword
      rwa [show k.esp - 4 * (ws.length + 1) + 4 * 0 = k.esp - 4 * ws.length - 4 by omega]
    | succ i =>
      have hrest := ih (by omega) (i := i) (by omega)
      have hkept : ∀ j, k.esp - 4 * ws.length ≤ j →
          ((k.pushAll ws).push w).mem j = (k.pushAll ws).mem j := by
        intro j hj
        apply mem_push
        intro j' hj'
        rw [esp_pushAll]
        omega
      rw [show k.esp - 4 * (ws.length + 1) + 4 * (i + 1) = k.esp - 4 * ws.length + 4 * i by omega,
        getElem_cons_succ, ← hrest]
      simp only [wordAt]
      rw [hkept _ (by omega), hkept _ (by omega), hkept _ (by omega), hkept _ (by omega)]

theorem written_pushAll :
    a ∈ (k.pushAll ws).written ↔ a ∈ k.written ∨ (k.esp - 4 * ws.length ≤ a ∧ a < k.esp) := by
  induction ws with
  | nil => simp [pushAll]
  | cons w ws ih =>
    rw [length_cons] at hroom ⊢
    have hrest := ih (by omega)
    rw [pushAll_cons]
    simp only [push, putWord, putByte, mem_append, mem_singleton, hrest, esp_pushAll]
    by_cases hold : a ∈ k.written
    · simp [hold]
    · simp only [hold, false_or]
      omega

end

/-- The characters are copied. -/
def copied (k : UserStack) (dst : Nat) (src : Nat → UInt8) (n : Nat) : UserStack :=
  { k with
    mem := fun a => if dst ≤ a ∧ a < dst + n then src (a - dst) else k.mem a
    written := k.written ++ (range n).map (dst + ·) }

theorem memcpy_concat (dst : Nat) (src : Nat → UInt8) (is : List Nat) (i : Nat) :
    memcpy dst src (is ++ [i]) =
      memcpy dst src is >>= fun _ => update (putByte (dst + i) (src i)) := by
  induction is with
  | nil =>
    simp only [nil_append, memcpy]
    rw [bind_pure_unit]
    rfl
  | cons j is ih => simp only [cons_append, memcpy, ih, bind_assoc]

theorem memcpy_run (dst : Nat) (src : Nat → UInt8) (n : Nat) (k : UserStack) :
    (memcpy dst src (range n)).run k = .ok ((), k.copied dst src n) := by
  induction n with
  | zero =>
    have hmem : (fun a => if dst ≤ a ∧ a < dst + 0 then src (a - dst) else k.mem a) = k.mem := by
      funext a
      rw [if_neg (by omega)]
    simp only [copied, hmem, range_zero, map_nil, append_nil]
    rfl
  | succ n ih =>
    have hmem : Function.update
        (fun a => if dst ≤ a ∧ a < dst + n then src (a - dst) else k.mem a) (dst + n) (src n) =
          fun a => if dst ≤ a ∧ a < dst + (n + 1) then src (a - dst) else k.mem a := by
      funext a
      by_cases ha : a = dst + n
      · subst ha
        rw [update_self, if_pos (by omega), Nat.add_sub_cancel_left]
      · rw [update_of_ne ha]
        congr 1
        simp only [eq_iff_iff]
        omega
    rw [range_succ, memcpy_concat, bind_ok ih]
    simp only [run_update, copied, putByte, hmem, range_succ, map_append, map_cons,
      map_nil, append_assoc]

/-! ### All of the arguments -/

/-- Where the characters are. -/
def base (k : UserStack) (s : Parsing) : Nat := k.esp - 1 - s.numChars

/-- The words below the characters, from the return address up. -/
def frameWords (k : UserStack) (s : Parsing) : List Nat :=
  0 :: s.argv.length :: (k.base s / 4 * 4 - 4 * (s.argv.length + 1)) ::
    (s.argv.map (k.base s + ·) ++ [0])

/-- The stack when the characters have been copied. -/
def withChars (k : UserStack) (s : Parsing) : UserStack :=
  { (({ k with esp := k.base s }.copied (k.base s) s.fileName s.numChars).putByte
      (k.base s + s.numChars) 0) with esp := k.base s / 4 * 4 }

theorem passArguments_run (k : UserStack) (s : Parsing) :
    (passArguments s).run k = .ok ((), (k.withChars s).pushAll (k.frameWords s)) := by
  have hcopy : (memcpy (k.base s) s.fileName (range s.numChars)).run
      { k with esp := k.base s } = .ok ((), _) := memcpy_run _ _ _ _
  have hargv : ((k.withChars s).pushAll (s.argv.map (k.base s + ·) ++ [0])).esp =
      k.base s / 4 * 4 - 4 * (s.argv.length + 1) := by
    rw [esp_pushAll, length_append, length_map, length_singleton]
    rfl
  rw [passArguments, update_bind, update_bind, read_bind]
  show (memcpy (k.base s) s.fileName (range s.numChars) >>= _).run
    { k with esp := k.base s } = _
  rw [bind_ok hcopy, update_bind, update_bind, bind_ok (pushEach_run _ _), reverse_reverse,
    read_bind, update_bind, update_bind, run_update]
  show Except.ok ((), ((((k.withChars s).pushAll (s.argv.map (k.base s + ·) ++ [0])).push
    ((k.withChars s).pushAll (s.argv.map (k.base s + ·) ++ [0])).esp).push
      s.argv.length).push 0) = _
  rw [hargv]
  rfl

theorem written_withChars :
    a ∈ (k.withChars s).written ↔
      a ∈ k.written ∨ (k.base s ≤ a ∧ a ≤ k.base s + s.numChars) := by
  simp only [withChars, putByte, copied, mem_append, mem_map, mem_range, mem_singleton]
  constructor
  · rintro ((hold | ⟨i, hi, rfl⟩) | rfl)
    · exact .inl hold
    · exact .inr (by omega)
    · exact .inr (by omega)
  · rintro (hold | hin)
    · exact .inl (.inl hold)
    · by_cases hlast : a = k.base s + s.numChars
      · exact .inr hlast
      · exact .inl (.inr ⟨a - k.base s, by omega, by omega⟩)

theorem length_frameWords : (k.frameWords s).length = s.argv.length + 4 := by
  simp [frameWords]

/-- The address is in the page below `PHYS_BASE`. -/
def InStackPage (a : Nat) : Prop := physBase - pgSize ≤ a ∧ a < physBase

/-- The arguments are in the page of the stack exactly if the return address is. -/
theorem passArguments_fits (mem : Nat → UInt8) (s : Parsing) (hchars : s.numChars ≤ 4096)
    (hargs : s.argv.length < maxArgs) :
    Returns (passArguments s) ⟨physBase - 1, mem, []⟩
        (fun _ k' => ∀ a ∈ k'.written, InStackPage a) ↔
      (s.numChars + 5) / 4 * 4 + 4 * (s.argv.length + 4) ≤ pgSize := by
  have hbase : (⟨physBase - 1, mem, []⟩ : UserStack).base s = physBase - 2 - s.numChars := rfl
  have hesp : (withChars ⟨physBase - 1, mem, []⟩ s).esp = (physBase - 2 - s.numChars) / 4 * 4 := rfl
  unfold maxArgs at hargs
  have hroom : 4 * ((⟨physBase - 1, mem, []⟩ : UserStack).frameWords s).length ≤
      (withChars ⟨physBase - 1, mem, []⟩ s).esp := by
    rw [length_frameWords, hesp]
    unfold physBase
    omega
  have hreturns : Returns (passArguments s) ⟨physBase - 1, mem, []⟩
      (fun _ k' => ∀ a ∈ k'.written, InStackPage a) ↔
        ∀ a, (physBase - 2 - s.numChars ≤ a ∧ a ≤ physBase - 2 - s.numChars + s.numChars) ∨
          ((physBase - 2 - s.numChars) / 4 * 4 - 4 * (s.argv.length + 4) ≤ a ∧
            a < (physBase - 2 - s.numChars) / 4 * 4) → InStackPage a := by
    constructor
    · rintro ⟨_, k', hrun, hk'⟩ a ha
      cases (passArguments_run _ s).symm.trans hrun
      refine hk' a ((written_pushAll hroom).mpr ?_)
      rw [written_withChars, hbase, length_frameWords, hesp]
      rcases ha with ha | ha
      · exact .inl (.inr ha)
      · exact .inr ha
    · intro h
      refine ⟨_, _, passArguments_run _ s, fun a ha => h a ?_⟩
      rw [written_pushAll hroom, written_withChars, hbase, length_frameWords, hesp] at ha
      rcases ha with (hnone | ha) | ha
      · cases hnone
      · exact .inl ha
      · exact .inr ha
  rw [hreturns]
  unfold InStackPage physBase pgSize
  constructor
  · intro h
    have hlow := h ((0xc0000000 - 2 - s.numChars) / 4 * 4 - 4 * (s.argv.length + 4)) (by omega)
    omega
  · intro h a ha
    omega

/-- The process is started, and the arguments are written to the page of the stack only, which
    `setup_stack` left with the last address of the page in the stack pointer. -/
def FitsStackPage (fileName mem : Nat → UInt8) : Prop :=
  Returns (startProcess fileName) ⟨physBase - 1, mem, []⟩
    (fun _ k' => ∀ a ∈ k'.written, InStackPage a)

variable {fileName : Nat → UInt8} {line : List UInt8}

theorem startProcess_returns (mem : Nat → UInt8) (hline : CommandLine fileName line) :
    ∃ k', (startProcess fileName).run ⟨physBase - 1, mem, []⟩ = .ok ((), k') := by
  obtain ⟨n, s, hrun, -⟩ := Parsing.parse_returns (⟨physBase - 1, mem, []⟩ : UserStack) hline
  exact ⟨_, (bind_ok hrun).trans (passArguments_run _ _)⟩

/-- The arguments fit exactly if the characters and words that the loop has counted do. -/
theorem fits_iff (mem : Nat → UInt8) (hline : CommandLine fileName line) :
    ∃ n, Parsing.Stops line n ∧ (∀ m < n, ¬ Parsing.Stops line m) ∧
      (FitsStackPage fileName mem ↔ (n + 6) / 4 * 4 + 4 * (begun line n + 4) ≤ pgSize) := by
  obtain ⟨n, s, hrun, hparsed, hstops, hfirst⟩ :=
    Parsing.parse_returns (⟨physBase - 1, mem, []⟩ : UserStack) hline
  refine ⟨n, hstops, hfirst, ?_⟩
  have hshort := hline.short
  have hle := hparsed.le
  have hargs : begun line n < maxArgs := by
    cases n with
    | zero => simp [begun, wordStarts, maxArgs]
    | succ n =>
      have hbefore : ¬ maxArgs - 1 ≤ begun line n := fun h => hfirst n (by omega) (.inr (.inl h))
      have hsucc := (begun_succ line n).2
      omega
  rw [FitsStackPage, startProcess, returns_step hrun, passArguments_fits]
  · simp only [hparsed.numChars, hparsed.length_argv]
  · simp only [hparsed.numChars]
    omega
  · simpa only [hparsed.length_argv] using hargs

/-- If a word starts at one of three places the loop stops right after its first character, and the
    arguments do not fit: the check of the character before it still allowed for as many words as
    there were. -/
theorem not_fits_of_start (mem : Nat → UInt8) (hline : CommandLine fileName line) {k i : Nat}
    (hk : k < maxArgs - 1) (hstart : (wordStarts isBlank false 0 line)[k]? = some i)
    (hlow : 4077 ≤ i + 4 * (k + 1)) (hhigh : i + 4 * (k + 1) ≤ 4079) :
    ¬ FitsStackPage fileName mem := by
  obtain ⟨n, hstops, hfirst, hfits⟩ := fits_iff mem hline
  obtain ⟨m, hm, hi, hcount, hcount'⟩ := getElem?_wordStarts.mp hstart
  rw [Nat.zero_add] at hi
  subst hi
  have hbefore : ∀ j ≤ i, ¬ Parsing.Stops line j := by
    intro j hj
    have hmono : begun line j ≤ k := (begun_mono line hj).trans_eq hcount
    rintro (hend | hmany | hlarge)
    · omega
    · omega
    · unfold pgSize at hlarge
      omega
  have hafter : Parsing.Stops line (i + 1) := by
    refine .inr (.inr ?_)
    rw [show begun line (i + 1) = k + 1 from hcount']
    unfold pgSize
    omega
  have hn : n = i + 1 := by
    have hlower : ¬ n ≤ i := fun hle => hbefore n hle hstops
    have hupper : ¬ i + 1 < n := fun hlt => hfirst _ hlt hafter
    omega
  rw [hfits, hn, show begun line (i + 1) = k + 1 from hcount']
  unfold pgSize
  omega

/-- The arguments stay in the page of the stack exactly if none of the first 99 words starts at one
    of these places. -/
theorem start_process_fits {fileName : Nat → UInt8} {line : List UInt8} (mem : Nat → UInt8)
    (hline : CommandLine fileName line) :
    FitsStackPage fileName mem ↔ ∀ k i, k < maxArgs - 1 →
      (wordStarts isBlank false 0 line)[k]? = some i →
        ¬ (4077 ≤ i + 4 * (k + 1) ∧ i + 4 * (k + 1) ≤ 4079) := by
  constructor
  · rintro hfits k i hk hstart ⟨hlow, hhigh⟩
    exact not_fits_of_start mem hline hk hstart hlow hhigh hfits
  · intro hnone
    obtain ⟨n, hstops, hfirst, hfits⟩ := fits_iff mem hline
    rw [hfits]
    unfold pgSize
    by_contra hlarge
    cases n with
    | zero =>
      rw [show begun line 0 = 0 from rfl] at hlarge
      omega
    | succ m =>
      have hgoes := hfirst m (Nat.lt_succ_self m)
      simp only [Parsing.Stops, not_or] at hgoes
      unfold pgSize at hgoes
      have hsucc := begun_succ line m
      have hnew : begun line (m + 1) = begun line m + 1 := by omega
      have hm : m < line.length := by
        by_contra hge
        rw [begun, begun, take_of_length_le (by omega), take_of_length_le (by omega)]
          at hnew
        omega
      refine hnone (begun line m) m (by omega) ?_ (by omega)
      exact getElem?_wordStarts.mpr ⟨m, hm, (Nat.zero_add m).symm, rfl, hnew⟩

/-- The page with a command line and zeros behind it. -/
def pageOf (line : List UInt8) (i : Nat) : UInt8 := line.getD i 0

theorem commandLine_pageOf (hnonzero : 0 ∉ line) (hshort : line.length ≤ 4095) :
    CommandLine (pageOf line) line where
  chars i hi := by simp [pageOf, hi]
  null := by simp [pageOf]
  nonzero := hnonzero
  short := hshort

/-- `echo x`. -/
def echoX : List UInt8 := [101, 99, 104, 111, 32, 120]

theorem start_process_fits_echo : CommandLine (pageOf echoX) echoX ∧
    FitsStackPage (pageOf echoX) (fun _ => 0) := by
  have hline : CommandLine (pageOf echoX) echoX := commandLine_pageOf (by decide) (by decide)
  refine ⟨hline, (start_process_fits _ hline).mpr (fun k i _ hstart => ?_)⟩
  rw [show wordStarts isBlank false 0 echoX = [0, 5] from rfl] at hstart
  match k with
  | 0 =>
    cases hstart
    omega
  | 1 =>
    cases hstart
    omega
  | k + 2 => cases hstart

/-- A word of one letter, blanks, and one more word of one letter. -/
def farApart (blanks : Nat) : List UInt8 := 97 :: (replicate blanks 32 ++ [98])

/-- The return address is below the page of the stack. -/
theorem start_process_overflows : CommandLine (pageOf (farApart 4068)) (farApart 4068) ∧
    (∃ k', (startProcess (pageOf (farApart 4068))).run ⟨physBase - 1, fun _ => 0, []⟩ =
        .ok ((), k') ∧ ∃ a ∈ k'.written, ¬ InStackPage a) ∧
    ¬ FitsStackPage (pageOf (farApart 4068)) (fun _ => 0) := by
  have hlength : (farApart 4068).length = 4070 := by rw [farApart, length_cons,
    length_append, length_replicate, length_singleton]
  have hline : CommandLine (pageOf (farApart 4068)) (farApart 4068) := by
    apply commandLine_pageOf
    · rw [farApart, mem_cons, mem_append, mem_replicate, mem_singleton]
      decide
    · rw [hlength]
      decide
  have hstart : (wordStarts isBlank false 0 (farApart 4068))[1]? = some 4069 := by decide +kernel
  have hnot : ¬ FitsStackPage (pageOf (farApart 4068)) (fun _ => 0) :=
    not_fits_of_start _ hline (by decide) hstart (by decide) (by decide)
  obtain ⟨k', hrun⟩ := startProcess_returns (fun _ => 0) hline
  refine ⟨hline, ⟨k', hrun, ?_⟩, hnot⟩
  by_contra hall
  simp only [not_exists, not_and, not_not] at hall
  exact hnot ⟨(), k', hrun, hall⟩

end UserStack

end KernelSanders

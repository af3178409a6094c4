import KernelSanders.Kernel.Arith
import KernelSanders.Lib.Exec

namespace KernelSanders

open Lib
open List

/-!
# `shell/mysh.c` — re-execution of lines from the history

A line is stored unless its first character is `!`, and it is re-executed if the first word of one
of its commands starts with `!`.  A call is `none` if it has not returned within the given depth of
calls of `runCommand`.  Children, redirections and what is printed are left out.

* `history_terminates` — the calls return if a line that is stored has no command that starts with
  `!`, and one that is not appends no such command to the lines that it re-executes;
* `history_loops` — a blank and `!1` as the first line, where they do not.
-/

/-- The history, oldest line first.  `exit` and a fault end the shell. -/
structure Shell where
  history : List (List Char) := []
  running : Bool := true

namespace Shell

inductive Token where
  | pipe
  | input
  | output
  | name (text : List Char)
  deriving DecidableEq

/-- The arguments of a command, of which there is at least one. -/
structure Command where
  arg : List Char
  nextArgs : List (List Char)

/-! ### `Lexer.l` and `Parser.y` -/

def isNameChar (c : Char) : Bool := !(['|', '<', '>', '"', ' ', '\r', '\n', '\t'].contains c)

/-- The tokens of a line of at most the given length. -/
def lex : Nat → List Char → List Token
  | 0, _ => []
  | _, [] => []
  | n + 1, c :: cs =>
    if c = '|' then .pipe :: lex n cs
    else if c = '<' then .input :: lex n cs
    else if c = '>' then .output :: lex n cs
    else if c = '"' ∧ '"' ∈ cs then
      .name (cs.takeWhile (· ≠ '"')) :: lex n (cs.dropWhile (· ≠ '"')).tail
    else if isNameChar c then
      .name (c :: cs.takeWhile isNameChar) :: lex n (cs.dropWhile isNameChar)
    -- a blank, or a quote that is left over, which the default rule prints
    else lex n cs

/-- `names`, and the tokens that follow. -/
def names : List Token → List (List Char) × List Token
  | .name w :: ts => (w :: (names ts).1, (names ts).2)
  | ts => ([], ts)

/-- What may follow the names of a command. -/
def isRedirection : List Token → Bool
  | [] | [.input, .name _] | [.output, .name _] => true
  | [.input, .name _, .output, .name _] | [.output, .name _, .input, .name _] => true
  | _ => false

def command (ts : List Token) : Option Command :=
  match names ts with
  | (w :: ws, rest) => if isRedirection rest then some ⟨w, ws⟩ else none
  | ([], _) => none

def parse (line : List Char) : Option (List Command) :=
  let segments := (lex line.length line).splitOn .pipe
  if segments.all (fun ts => (command ts).isSome) then some (segments.filterMap command) else none

/-! ### `mysh.c` -/

/-- `(int) strtol (s, NULL, 10)`. -/
def atoi (s : List Char) : Int :=
  let s := s.dropWhile ([' ', '\t', '\n', '\x0b', '\x0c', '\r'].contains ·)
  let digits := if s.head? = some '-' ∨ s.head? = some '+' then s.tail else s
  let n : Nat := (digits.takeWhile Char.isDigit).foldl (fun n c => 10 * n + (c.toNat - 48)) 0
  wrap (max (-2 ^ 63) (min (2 ^ 63 - 1) (if s.head? = some '-' then -(n : Int) else n)))

/-- The line that `!n` stands for, if it is in the history. -/
def event (history : List (List Char)) (iarg : Int) : Option (List Char) :=
  let runOffset := if iarg < 0 then history.length + iarg - 1 else iarg - 1
  if runOffset < 0 then none else history[runOffset.toNat]?

variable (run : List Char → Shell → Option Shell)

/-- `rerun_cmd_n`.  Without history, outside of it, or with a line of `MAX_COMMAND_SIZE` there is a
    fault. -/
def rerunCmdN (command : Command) (k : Shell) : Option Shell :=
  let numCommands : Int := k.history.length
  let iarg := atoi command.arg.tail
  if k.history = [] then some { k with running := false }
  else if iarg = 0 ∨ iarg > numCommands ∨ wrap (-1 * iarg) > numCommands then some k
  else
    match event k.history iarg with
    | none => some { k with running := false }
    | some line =>
      let nextCmd := line ++ command.nextArgs.flatMap (' ' :: ·)
      if nextCmd.length < 1000 then run nextCmd k else some { k with running := false }

def executeCommand : List Command → Shell → Option Shell
  | [], k => some k
  | command :: pipeDestination, k =>
    if command.arg = ['e', 'x', 'i', 't'] then some { k with running := false }
    else if command.arg = ['c', 'd'] ∨ command.arg = ['c', 'h', 'd', 'i', 'r'] then some k
    else if command.arg = ['h', 'i', 's', 't', 'o', 'r', 'y'] then some k
    else if command.arg.head? = some '!' then rerunCmdN run command k
    else executeCommand pipeDestination k

def runCommand : Nat → List Char → Shell → Option Shell
  | 0, _, _ => none
  | depth + 1, cmdBuffer, k =>
    let k := if cmdBuffer ≠ [] ∧ cmdBuffer.head? ≠ some '!' then
      { k with history := k.history ++ [cmdBuffer] } else k
    match parse cmdBuffer with
    | none => some k
    | some commands => executeCommand (runCommand depth) commands k

/-- The loop of `main` for the lines that it reads. -/
def main (depth : Nat) (lines : List (List Char)) : Option Shell :=
  lines.foldlM (fun k line => if k.running then runCommand depth line k else some k) {}

/-! ### Lexing and parsing -/

variable {run} {depth n m j : Nat} {s r w cmdBuffer : List Char} {k : Shell} {cmd : Command}
  {commands : List Command} {ts us : List Token}

def Token.text : Token → List Char
  | .name w => w
  | _ => []

/-- More room than the line needs changes nothing. -/
theorem lex_fuel (hn : s.length ≤ n) (hm : s.length ≤ m) : lex n s = lex m s := by
  induction n generalizing s m with
  | zero =>
    rw [length_eq_zero_iff.mp (Nat.le_zero.mp hn)]
    cases m <;> rfl
  | succ n ih =>
    cases s with
    | nil => cases m <;> rfl
    | cons c cs =>
      cases m with
      | zero => cases hm
      | succ m =>
        have hrest : ∀ u, u <:+ cs → lex n u = lex m u := fun u hu =>
          ih (hu.length_le.trans (Nat.le_of_succ_le_succ hn))
            (hu.length_le.trans (Nat.le_of_succ_le_succ hm))
        rw [lex, lex, hrest cs suffix_rfl, hrest _ (dropWhile_suffix _),
          hrest _ ((tail_suffix _).trans (dropWhile_suffix _))]

/-- Where a run of characters ends does not depend on what comes after it. -/
theorem span_append {p : Char → Bool} (h : ∀ c ∈ r.head?, p c = false) :
    (s ++ r).takeWhile p = s.takeWhile p ∧ (s ++ r).dropWhile p = s.dropWhile p ++ r := by
  induction s with
  | nil => cases r <;> simp_all
  | cons c cs ih => by_cases hc : p c <;> simp [hc, ih]

/-- Words without quotes that are appended after a blank do not change the tokens in front. -/
theorem lex_append (hquote : '"' ∉ r) (hblank : ∀ c ∈ r.head?, isNameChar c = false)
    (hn : s.length ≤ n) (hm : s.length + r.length ≤ m) (hj : r.length ≤ j) :
    lex m (s ++ r) = lex n s ++ lex j r := by
  induction n generalizing s m with
  | zero =>
    obtain rfl := length_eq_zero_iff.mp (Nat.le_zero.mp hn)
    exact lex_fuel (by simpa using hm) hj
  | succ n ih =>
    cases s with
    | nil => exact lex_fuel (by simpa using hm) hj
    | cons c cs =>
      cases m with
      | zero => simp at hm
      | succ m =>
        have hrest : ∀ u, u <:+ cs → lex m (u ++ r) = lex n u ++ lex j r := fun u hu => by
          have := hu.length_le
          rw [length_cons] at hn hm
          exact ih (by omega) (by omega)
        have hmem : '"' ∈ cs ++ r ↔ '"' ∈ cs := by simp [hquote]
        rw [cons_append, lex, lex]
        simp only [hmem, hrest cs suffix_rfl, span_append hblank, hrest _ (dropWhile_suffix _)]
        split_ifs with _ _ _ hq
        · rfl
        · rfl
        · rfl
        · obtain ⟨a, b, rfl⟩ := append_of_mem hq.2
          have h := span_append (s := a) (r := '"' :: b) (p := (· ≠ '"')) (by simp)
          have h' := span_append (s := a) (r := '"' :: b ++ r) (p := (· ≠ '"')) (by simp)
          rw [append_assoc, h'.1, h'.2, ← append_assoc, ← h.2, ← h.1,
            tail_append_of_ne_nil (by simp),
            hrest _ ((tail_suffix _).trans (dropWhile_suffix _))]
          rfl
        · rfl
        · rfl

/-- Quotes are not part of the tokens. -/
theorem quote_lex {t : Token} (h : t ∈ lex n s) : '"' ∉ t.text := by
  induction n generalizing s with
  | zero => cases h
  | succ n ih =>
    cases s with
    | nil => cases h
    | cons c cs =>
      rw [lex] at h
      split_ifs at h with _ _ _ _ hname
      all_goals try rcases mem_cons.mp h with rfl | h
      all_goals try exact ih h
      · exact not_mem_nil
      · exact not_mem_nil
      · exact not_mem_nil
      · exact fun hmem => by simpa using mem_takeWhile_imp hmem
      · intro hmem
        rcases mem_cons.mp hmem with rfl | hmem
        · exact absurd hname (by decide)
        · exact absurd (mem_takeWhile_imp hmem) (by decide)

/-- A command is in the line after a pipe, or at the start. -/
theorem segment_infix (h : us ∈ ts.splitOn .pipe) : .pipe :: us <:+: .pipe :: ts := by
  have hpipes : ∀ {l : List (List Token)}, l ≠ [] →
      Token.pipe :: [.pipe].intercalate l = l.flatMap (.pipe :: ·) := by
    intro l hl
    induction l with
    | nil => exact absurd rfl hl
    | cons a l ih =>
      cases l with
      | nil => simp
      | cons b l =>
        rw [intercalate_cons_cons, flatMap_cons, ← ih (cons_ne_nil _ _)]
        simp
  have hts : [Token.pipe].intercalate (ts.splitOn .pipe) = ts := intercalate_splitOn _
  rw [← hts, hpipes (splitOn_ne_nil _ _)]
  obtain ⟨a, b, hab⟩ := append_of_mem h
  exact ⟨a.flatMap (.pipe :: ·), b.flatMap (.pipe :: ·), by simp [hab]⟩

theorem mem_names (h : w ∈ (names ts).1) : .name w ∈ ts := by
  induction ts with
  | nil => cases h
  | cons t ts ih =>
    cases t with
    | name u =>
      rcases mem_cons.mp h with rfl | h
      · exact mem_cons_self
      · exact mem_cons_of_mem _ (ih h)
    | _ => cases h

/-- The words of a command come after a pipe or at the start of the line. -/
theorem mem_parse (h : cmd ∈ (parse s).getD []) :
    ∃ ts, .pipe :: ts <:+: .pipe :: lex s.length s ∧ (names ts).1 = cmd.arg :: cmd.nextArgs := by
  unfold parse at h
  dsimp only at h
  split_ifs at h
  · obtain ⟨ts, hts, hcommand⟩ := mem_filterMap.mp h
    refine ⟨ts, segment_infix hts, ?_⟩
    unfold command at hcommand
    split at hcommand
    · rename_i hnames
      split_ifs at hcommand
      cases hcommand
      rw [hnames]
    · cases hcommand
  · cases h

/-! ### Lines that re-execute nothing -/

/-- No word at the start of the line or after a pipe begins with `!`. -/
def Plain (s : List Char) : Prop :=
  (Token.pipe :: lex s.length s).IsChain (fun t u => t = .pipe → u.text.head? ≠ some '!')

instance (s : List Char) : Decidable (Plain s) := inferInstanceAs (Decidable (List.IsChain _ _))

theorem Plain.arg (h : Plain s) (hcmd : cmd ∈ (parse s).getD []) : cmd.arg.head? ≠ some '!' := by
  obtain ⟨ts, hts, hnames⟩ := mem_parse hcmd
  have hchain := h.infix hts
  cases ts with
  | nil => cases hnames
  | cons t ts =>
    cases t with
    | name w =>
      rw [← (cons.inj hnames).1]
      exact (isChain_cons_cons.mp hchain).1 rfl
    | _ => cases hnames

theorem Plain.append (h : Plain s) (hr : Plain r) (hquote : '"' ∉ r)
    (hblank : ∀ c ∈ r.head?, isNameChar c = false) : Plain (s ++ r) := by
  unfold Plain at *
  rw [lex_append hquote hblank le_rfl (length_append ▸ le_rfl) le_rfl, ← cons_append,
    isChain_append]
  refine ⟨h, hr.tail, fun t _ u hu _ => ?_⟩
  obtain ⟨us, hus⟩ := head?_eq_some_iff.mp hu
  rw [hus] at hr
  exact (isChain_cons_cons.mp hr).1 rfl

/-- A line with the arguments of a command appended. -/
theorem Plain.append_args (h : Plain s) (hcmd : cmd ∈ (parse cmdBuffer).getD [])
    (hargs : Plain (cmd.nextArgs.flatMap (' ' :: ·))) :
    Plain (s ++ cmd.nextArgs.flatMap (' ' :: ·)) := by
  obtain ⟨ts, hts, hnames⟩ := mem_parse hcmd
  refine h.append hargs (fun hmem => ?_) ?_
  · obtain ⟨w, hw, hmem⟩ := mem_flatMap.mp hmem
    have hname : Token.name w ∈ ts := mem_names (hnames ▸ mem_cons_of_mem _ hw)
    rcases mem_cons.mp (hts.subset (mem_cons_of_mem _ hname)) with hpipe | hlex
    · cases hpipe
    · exact quote_lex hlex (mem_of_ne_of_mem (by decide) hmem)
  · cases cmd.nextArgs with
    | nil => simp
    | cons w ws => simp; decide

/-! ### Termination -/

/-- The line re-executes nothing if it is stored, and what its commands append to the lines that
    they re-execute would not either. -/
def Careful (line : List Char) : Prop :=
  (line.head? = some '!' ∨ Plain line) ∧ ∀ cmd ∈ (parse line).getD [], cmd.arg.head? = some '!' →
    Plain (cmd.nextArgs.flatMap (' ' :: ·))

/-- No line in the history re-executes anything. -/
def Calm (k : Shell) : Prop := ∀ l ∈ k.history, Plain l

/-- The call has returned, and no line in the history re-executes anything. -/
def Ends (o : Option Shell) : Prop := ∃ k, o = some k ∧ k.Calm

theorem mem_of_event {history : List (List Char)} {iarg : Int} (h : event history iarg = some s) :
    s ∈ history := by
  unfold event at h
  dsimp only at h
  split_ifs at h <;> exact mem_of_getElem? h

section

variable (hk : k.Calm)
include hk

theorem rerunCmdN_ends (hcmd : cmd ∈ (parse cmdBuffer).getD [])
    (hargs : Plain (cmd.nextArgs.flatMap (' ' :: ·))) (hrun : ∀ l, Plain l → Ends (run l k)) :
    Ends (rerunCmdN run cmd k) := by
  rw [rerunCmdN]
  split_ifs
  · exact ⟨_, rfl, hk⟩
  · exact ⟨_, rfl, hk⟩
  · split
    · exact ⟨_, rfl, hk⟩
    · rename_i l hl
      dsimp only
      split_ifs
      · exact hrun _ ((hk l (mem_of_event hl)).append_args hcmd hargs)
      · exact ⟨_, rfl, hk⟩

theorem executeCommand_ends (h : ∀ cmd ∈ commands, cmd.arg.head? = some '!' →
    Ends (rerunCmdN run cmd k)) : Ends (executeCommand run commands k) := by
  induction commands with
  | nil => exact ⟨_, rfl, hk⟩
  | cons cmd rest ih =>
    rw [forall_mem_cons] at h
    rw [executeCommand]
    split_ifs with _ _ _ hbang
    · exact ⟨_, rfl, hk⟩
    · exact ⟨_, rfl, hk⟩
    · exact ⟨_, rfl, hk⟩
    · exact h.1 hbang
    · exact ih h.2

theorem runCommand_ends (hline : cmdBuffer.head? = some '!' ∨ Plain cmdBuffer)
    (hrun : ∀ k : Shell, k.Calm → ∀ cmd ∈ (parse cmdBuffer).getD [], cmd.arg.head? = some '!' →
      Ends (rerunCmdN (runCommand depth) cmd k)) : Ends (runCommand (depth + 1) cmdBuffer k) := by
  rw [runCommand]
  have hk' : Calm (if cmdBuffer ≠ [] ∧ cmdBuffer.head? ≠ some '!' then
      { k with history := k.history ++ [cmdBuffer] } else k) := by
    split_ifs with hstore
    · exact forall_mem_append.mpr ⟨hk, forall_mem_singleton.mpr (hline.resolve_left hstore.2)⟩
    · exact hk
  cases hparse : parse cmdBuffer with
  | none => exact ⟨_, rfl, hk'⟩
  | some commands =>
    rw [hparse] at hrun
    exact executeCommand_ends hk' (hrun _ hk')

end

/-- **Re-execution terminates** if lines are careful: the line that is re-executed then re-executes
    nothing. -/
theorem history_terminates {lines : List (List Char)} (h : ∀ l ∈ lines, Careful l) :
    ∃ k, main 2 lines = some k := by
  have hreturn : ∀ l ∈ lines, ∀ k : Shell, k.Calm →
      Ends (if k.running then runCommand 2 l k else some k) := by
    intro l hl k hk
    split_ifs
    · refine runCommand_ends hk (h l hl).1 (fun k hk cmd hcmd hbang => ?_)
      refine rerunCmdN_ends hk hcmd ((h l hl).2 cmd hcmd hbang) (fun next hnext => ?_)
      exact runCommand_ends hk (.inr hnext) (fun _ _ _ hcmd hbang => absurd hbang (hnext.arg hcmd))
    · exact ⟨k, rfl, hk⟩
  obtain ⟨k, hk, -⟩ := foldlM_returns hreturn (fun _ h => nomatch h : Calm {})
  exact ⟨k, hk⟩

/-- The first line, which has a `!`, is run again with one more. -/
theorem history_terminates_again :
    ∃ k, main 2 [['w', ' ', 'h', 'i', '!'], ['!', '1', ' ', 'h', 'o', '!']] = some k :=
  history_terminates (by unfold Careful; decide)

/-- A blank and `!1`. -/
def loopLine : List Char := [' ', '!', '1']

/-- The line is stored, and its only command re-executes it. -/
theorem history_loops : ¬ ∃ depth k, main depth [loopLine] = some k := by
  have hloop : ∀ depth, ∀ k : Shell, (∀ l ∈ k.history, l = loopLine) →
      runCommand depth loopLine k = none := by
    intro depth
    induction depth with
    | zero => exact fun _ _ => rfl
    | succ depth ih =>
      intro k hk
      have hall : ∀ l ∈ k.history ++ [loopLine], l = loopLine :=
        forall_mem_append.mpr ⟨hk, forall_mem_singleton.mpr rfl⟩
      have hevent : event (k.history ++ [loopLine]) 1 = some loopLine := by
        obtain ⟨l, ls, hl⟩ := exists_cons_of_ne_nil (append_ne_nil_of_right_ne_nil k.history
          (cons_ne_nil loopLine []))
        rw [hl] at hall ⊢
        rw [hall l mem_cons_self]
        rfl
      show rerunCmdN (runCommand depth) ⟨['!', '1'], []⟩
        { k with history := k.history ++ [loopLine] } = none
      rw [rerunCmdN, if_neg (by simp), show atoi _ = 1 from rfl, if_neg ?_, hevent]
      · exact ih _ hall
      · rw [show wrap (-1 * 1) = -1 from rfl, length_append]
        simp
        omega
  rintro ⟨depth, k, h⟩
  rw [main, foldlM_cons, if_pos rfl, hloop depth {} (fun _ h => nomatch h)] at h
  cases h

end Shell

end KernelSanders

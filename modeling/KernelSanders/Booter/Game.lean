import KernelSanders.Kernel.Arith
import KernelSanders.Lib.Machine

namespace KernelSanders.Booter

open Lib
open List

/-!
# `booter/` — the boot-sector game

The game takes place in its two interrupt handlers, which do not interrupt each other.  A handler
returns the rows and columns in which it calls `write_char`; colours and characters, the score and
the messages are left out, and a byte of `prng_get_byte` comes with the interrupt that asks for it.

* `drawn_on_screen` — everything is drawn on the screen as long as no move takes the bird up from
  the first row;
* `drawn_above_screen` — five moves upwards, after which it is drawn above the screen.
-/

@[simp] def screenWidth : Int := 80
@[simp] def screenHeight : Int := 25
@[simp] def skyHeight : Int := 22
@[simp] def pipeGap : Int := 7
@[simp] def pipeTime : Int := 30
@[simp] def birdPos : Int := 20

structure Pipe where
  position : Int
  height : Int

structure Game where
  gameStarted : Bool
  timerTick : Nat
  pipespawn : Int
  birdHeight : Int
  birdDirection : Int
  birdCountdown : Int
  gameLost : Bool
  pipes : Fin 10 → Pipe

/-! ### `video.c` -/

/-- Row and column. -/
abbrev Cell : Type := Int × Int

/-- Where `write_char` writes the first of its two bytes. -/
def byteIndex (cell : Cell) : Nat := toUnsigned ((cell.1 * screenWidth + cell.2) * 2)

def displayBackground : List Cell :=
  (range 25).flatMap (fun i : Nat => (range 80).map (fun j : Nat => ((i : Int), (j : Int))))

/-- The part of a pipe in row `j`, which is compared as an `unsigned`. -/
def pipeRow (p : Pipe) (j : Nat) : List Cell :=
  if toUnsigned p.height < j ∧ j < toUnsigned (p.height + pipeGap) then [] else
    [((j : Int), p.position)] ++
      (if p.position ≠ screenWidth - 1 then [((j : Int), p.position + 1)] else []) ++
      (if p.position ≠ 0 then [((j : Int), p.position - 1)] else [])

def pipedraw (pipes : Fin 10 → Pipe) : List Cell :=
  (finRange 10).flatMap (fun i =>
    if (pipes i).position = -1 then [] else (range 22).flatMap (pipeRow (pipes i)))

def drawBird (h : Int) : List Cell :=
  [(h, birdPos + 3), (h, birdPos + 2), (h, birdPos + 1), (h, birdPos), (h + 1, birdPos + 3),
    (h + 1, birdPos + 4), (h + 1, birdPos + 2), (h + 1, birdPos + 1), (h + 1, birdPos)]

/-- The bird is erased in the order in which it is drawn. -/
def eraseBird (h : Int) : List Cell := drawBird h

/-! ### `game.c` -/

def initGame (g : Game) : Game :=
  { g with
    pipespawn := pipeTime, pipes := fun _ => ⟨-1, -1⟩, birdHeight := 4, birdDirection := 1
    birdCountdown := 0, gameLost := false }

def detectCollision (pipes : Fin 10 → Pipe) (row col : Int) : Bool :=
  decide (row < 0 ∨ row > skyHeight - 1) || (finRange 10).any (fun i =>
    let p := pipes i
    decide (p.position ≠ -1) &&
      decide (col = p.position ∨ col = p.position - 1 ∨ col = p.position + 1) &&
      !decide (row > p.height ∧ row < p.height + pipeGap))

def birdCollide (pipes : Fin 10 → Pipe) (h : Int) : Bool :=
  detectCollision pipes h (birdPos + 3) || detectCollision pipes h birdPos ||
    detectCollision pipes (h + 1) (birdPos + 4) || detectCollision pipes (h + 1) (birdPos + 3) ||
    detectCollision pipes (h + 1) birdPos

def movePipe (p : Pipe) : Pipe :=
  if p.position ≠ -1 then { p with position := p.position - 1 } else p

/-- A new pipe in the first place that has none. -/
def spawnPipe (byte : UInt8) (pipes : Fin 10 → Pipe) : Fin 10 → Pipe :=
  match (finRange 10).find? (fun i => (pipes i).position = -1) with
  | some i => Function.update pipes i ⟨screenWidth - 1, byte.toNat % (skyHeight - pipeGap)⟩
  | none => pipes

/-- The pipes, and the time until the next one. -/
def movePipes (byte : UInt8) (pipes : Fin 10 → Pipe) (pipespawn : Int) : (Fin 10 → Pipe) × Int :=
  if pipespawn - 1 = 0 then (spawnPipe byte (movePipe ∘ pipes), pipeTime)
  else (movePipe ∘ pipes, pipespawn - 1)

/-- The collision is looked for before the move. -/
def moveBird (g : Game) : Game :=
  if birdCollide g.pipes g.birdHeight then { g with gameLost := true } else
    { g with
      birdHeight := g.birdHeight + g.birdDirection
      birdCountdown := if g.birdCountdown ≠ 0 then g.birdCountdown - 1 else 0
      birdDirection := if g.birdCountdown = 1 then 1 else g.birdDirection }

def gameStep (byte : UInt8) (g : Game) : Game :=
  if g.gameLost then g else
    let moved := if g.timerTick % 5 = 0 then movePipes byte g.pipes g.pipespawn
      else (g.pipes, g.pipespawn)
    let g := { g with pipes := moved.1, pipespawn := moved.2 }
    if g.timerTick % 7 = 0 then moveBird g else g

def redraw (byte : UInt8) (g : Game) : Game × List Cell :=
  if g.gameStarted then
    let g' := gameStep byte g
    (g', pipedraw g.pipes ++ eraseBird g.birdHeight ++
      (pipedraw g'.pipes ++ drawBird g'.birdHeight))
  else (g, [])

/-- `c_start`, up to its loop. -/
def cStart : Game × List Cell :=
  (⟨false, 0, 0, 0, 0, 0, false, fun _ => ⟨0, 0⟩⟩, displayBackground)

inductive Interrupt where
  | timer (byte : UInt8)
  | keyboard (scanCode : UInt8)

def timerISR (byte : UInt8) (g : Game) : Game × List Cell :=
  redraw byte { g with timerTick := (g.timerTick + 1) % 2 ^ 32 }

/-- A game that was lost is reset, and so is one that has not been started. -/
def resetGame (g : Game) : Game :=
  let g := if g.gameLost then initGame g else g
  if g.gameStarted then g else initGame { g with gameStarted := true }

def keyboardISR (scanCode : UInt8) (g : Game) : Game × List Cell :=
  if scanCode = 0x39 then
    ({ resetGame g with birdDirection := -1, birdCountdown := 3 },
      (if g.gameLost then displayBackground else []) ++
        (if g.gameStarted then [] else displayBackground))
  else (g, [])

def handle : Interrupt → Game → Game × List Cell
  | .timer byte => timerISR byte
  | .keyboard scanCode => keyboardISR scanCode

def machine : Machine Game Interrupt where
  ready _ _ := true
  code o := Exec.update (fun g => (handle o g).1)

/-! ### Where is drawn -/

def OnScreen (cell : Cell) : Prop :=
  0 ≤ cell.1 ∧ cell.1 < screenHeight ∧ 0 ≤ cell.2 ∧ cell.2 < screenWidth

/-- It is the turn of a bird that is in the first row and flies upwards; it moves unless it has
hit a pipe. -/
def LeavesTop (g : Game) : Interrupt → Prop
  | .timer _ => g.gameStarted = true ∧ g.gameLost = false ∧ (g.timerTick + 1) % 2 ^ 32 % 7 = 0 ∧
      g.birdHeight = 0 ∧ g.birdDirection = -1
  | .keyboard _ => False

/-- The pipe is on the screen, or there is none. -/
def Placed (p : Pipe) : Prop := -1 ≤ p.position ∧ p.position < screenWidth

/-- A game with pipes and bird on the screen. -/
structure Flying (g : Game) : Prop where
  pipes : ∀ i, Placed (g.pipes i)
  height : 0 ≤ g.birdHeight ∧ g.birdHeight < skyHeight
  direction : g.birdDirection = 1 ∨ g.birdDirection = -1

section

variable {g : Game} {o : Interrupt} {pipes : Fin 10 → Pipe}

theorem onScreen_background : ∀ cell ∈ displayBackground, OnScreen cell := by
  simp only [displayBackground, mem_flatMap, mem_map, mem_range]
  rintro _ ⟨i, hi, j, hj, rfl⟩
  simp only [OnScreen, screenHeight, screenWidth]
  omega

theorem Flying.onScreen (h : Flying g) :
    ∀ cell ∈ pipedraw g.pipes ++ drawBird g.birdHeight, OnScreen cell := by
  have hbird := h.height
  simp only [pipedraw, mem_append, mem_flatMap, OnScreen, screenHeight, screenWidth]
  rintro cell (⟨i, -, hi⟩ | hcell)
  · have hp := h.pipes i
    split_ifs at hi with hnone
    · cases hi
    obtain ⟨j, hj, hrow⟩ := mem_flatMap.mp hi
    simp only [pipeRow, Placed, screenWidth, mem_range] at hrow hp hj
    split_ifs at hrow <;> simp at hrow <;> grind
  · simp only [drawBird, mem_cons, not_mem_nil, or_false, birdPos, skyHeight] at hcell hbird
    grind

/-- A bird that does not collide is in the sky, and so is the row below it. -/
theorem row_of_not_birdCollide {h : Int} (hc : birdCollide pipes h ≠ true) :
    0 ≤ h ∧ h + 1 < skyHeight := by
  simp [birdCollide, detectCollision] at hc ⊢
  omega

theorem placed_movePipes (h : ∀ i, Placed (pipes i)) (byte : UInt8) (pipespawn : Int)
    (i : Fin 10) : Placed ((movePipes byte pipes pipespawn).1 i) := by
  have hmove : Placed ((movePipe ∘ pipes) i) := by
    have hp := h i
    simp only [Placed, Function.comp, movePipe] at hp ⊢
    grind
  unfold movePipes
  split_ifs
  · simp only [spawnPipe]
    cases (finRange 10).find? _ with
    | none => exact hmove
    | some k =>
      simp only [Function.update_apply]
      split_ifs
      · simp [Placed]
      · exact hmove
  · exact hmove

theorem Flying.moveBird (h : Flying g) (hup : ¬ (g.birdHeight = 0 ∧ g.birdDirection = -1)) :
    Flying (moveBird g) := by
  have hdir := h.direction
  unfold Booter.moveBird
  by_cases hc : birdCollide g.pipes g.birdHeight = true
  · rw [if_pos hc]
    exact ⟨h.pipes, h.height, hdir⟩
  · rw [if_neg hc]
    have hrow := row_of_not_birdCollide hc
    refine ⟨h.pipes, ?_, ?_⟩ <;> simp only
    · omega
    · split_ifs
      · exact .inl rfl
      · exact hdir

theorem Flying.gameStep (h : Flying g) (byte : UInt8) (hup : ¬ (g.gameLost = false ∧
    g.timerTick % 7 = 0 ∧ g.birdHeight = 0 ∧ g.birdDirection = -1)) : Flying (gameStep byte g) := by
  have hpipes : ∀ i, Placed ((if g.timerTick % 5 = 0 then movePipes byte g.pipes g.pipespawn
      else (g.pipes, g.pipespawn)).1 i) := by
    intro i
    split_ifs
    · exact placed_movePipes h.pipes byte g.pipespawn i
    · exact h.pipes i
  simp only [Booter.gameStep]
  generalize (if g.timerTick % 5 = 0 then _ else _) = moved at hpipes ⊢
  split_ifs with hlost h7
  · exact h
  · exact Flying.moveBird ⟨hpipes, h.height, h.direction⟩
      (fun hn => hup ⟨Bool.eq_false_iff.mpr hlost, h7, hn⟩)
  · exact ⟨hpipes, h.height, h.direction⟩

theorem flying_initGame : Flying (initGame g) := by
  constructor <;> simp [initGame, Placed]

/-- One interrupt. -/
theorem handle_flying (h : g.gameStarted = true → Flying g) (hup : ¬ LeavesTop g o) :
    ((handle o g).1.gameStarted = true → Flying (handle o g).1) ∧
      ∀ cell ∈ (handle o g).2, OnScreen cell := by
  cases o with
  | timer byte =>
    simp only [handle, timerISR, redraw]
    split_ifs with hstarted
    · obtain ⟨hpipes, hheight, hdir⟩ := h hstarted
      have hf : Flying { g with timerTick := (g.timerTick + 1) % 2 ^ 32 } := ⟨hpipes, hheight, hdir⟩
      have hf' := hf.gameStep byte (fun hn => hup ⟨hstarted, hn⟩)
      refine ⟨fun _ => hf', fun cell hcell => ?_⟩
      rcases mem_append.mp hcell with hcell | hcell
      · exact hf.onScreen cell hcell
      · exact hf'.onScreen cell hcell
    · exact ⟨fun hs => absurd hs hstarted, nofun⟩
  | keyboard scanCode =>
    simp only [handle, keyboardISR]
    by_cases hspace : scanCode = 0x39
    · have hnew : Flying (resetGame g) := by
        simp only [resetGame]
        split_ifs with hlost hstarted hstarted
        · exact flying_initGame
        · exact flying_initGame
        · exact h hstarted
        · exact flying_initGame
      rw [if_pos hspace]
      refine ⟨fun _ => ⟨hnew.pipes, hnew.height, .inr rfl⟩, fun cell hcell => ?_⟩
      refine onScreen_background cell ?_
      split_ifs at hcell <;> simp at hcell <;> exact hcell
    · rw [if_neg hspace]
      exact ⟨h, nofun⟩

/-- **Where the game draws.** -/
theorem drawn_on_screen (hrun : machine.Run (fun g o => ¬ LeavesTop g o) cStart.1 g)
    (hup : ¬ LeavesTop g o) :
    ∀ cell ∈ cStart.2 ++ (handle o g).2, OnScreen cell ∧ byteIndex cell + 1 < 4000 := by
  have hflying : g.gameStarted = true → Flying g := by
    refine Machine.Run.invariant (I := fun g => g.gameStarted = true → Flying g) ?_ hrun nofun
    intro o s s' h hsteps hP
    cases hsteps.run
    exact (handle_flying h hP).1
  intro cell hcell
  have hon : OnScreen cell := by
    rcases mem_append.mp hcell with hcell | hcell
    · exact onScreen_background cell hcell
    · exact (handle_flying hflying hup).2 cell hcell
  refine ⟨hon, ?_⟩
  simp only [OnScreen, screenHeight, screenWidth] at hon
  rw [byteIndex, toUnsigned, screenWidth, Int.emod_eq_of_lt (by omega) (by omega)]
  omega

end

instance (g : Game) : (o : Interrupt) → Decidable (LeavesTop g o)
  | .timer _ => inferInstanceAs (Decidable (_ ∧ _))
  | .keyboard _ => inferInstanceAs (Decidable False)

/-- The space bar and seven ticks, again and again. -/
def climb (n : Nat) : List Interrupt :=
  (replicate n (.keyboard 0x39 :: replicate 7 (.timer 0))).flatten

theorem drawn_on_screen_climb : ¬ LeavesTop (machine.after (climb 4) cStart.1) (.timer 0) ∧
    ∀ cell ∈ cStart.2 ++ (handle (.timer 0) (machine.after (climb 4) cStart.1)).2,
      OnScreen cell ∧ byteIndex cell + 1 < 4000 := by
  have hup : ¬ LeavesTop (machine.after (climb 4) cStart.1) (.timer 0) := by decide +kernel
  exact ⟨hup, drawn_on_screen (Machine.run_of_allows (by decide +kernel)) hup⟩

/-- The fifth time the bird gets to row `-1`. -/
theorem drawn_above_screen :
    machine.Run (fun _ _ => True) cStart.1 (machine.after (climb 5) cStart.1) ∧
      (-1, 20) ∈ (handle (.timer 0) (machine.after (climb 5) cStart.1)).2 ∧
      ¬ OnScreen (-1, 20) := by
  refine ⟨Machine.run_of_allows (by decide +kernel), by decide +kernel, ?_⟩
  simp [OnScreen]

end KernelSanders.Booter

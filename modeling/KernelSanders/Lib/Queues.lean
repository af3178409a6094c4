import Mathlib

namespace KernelSanders.Lib

open Function hiding update

/-!
# Queues that share one link per element

An intrusive list keeps its links inside the elements, so an element with one link can be on one list
at a time.  `Housed queue house` says that a family of queues is of this kind: no queue has an element
twice, and the queue an element is on is a function of the element.

An element goes onto a queue only when it is on none (`Housed.push`), and comes off the queue it is
on (`Housed.remove`), or off a queue that is emptied at once (`Housed.clear`).
-/

variable {ι κ : Type}

/-- Every element is on at most one of the queues, `house`, and there once. -/
structure Housed (queue : κ → List ι) (house : ι → Option κ) : Prop where
  nodup : ∀ q, (queue q).Nodup
  mem : ∀ q u, u ∈ queue q ↔ house u = some q

namespace Housed

variable {queue : κ → List ι} {house : ι → Option κ} {q q' : κ} {t u : ι}

/-- Empty queues. -/
theorem empty (h : ∀ q, queue q = []) : Housed queue (fun _ => none) := by
  constructor
  · intro q
    rw [h q]
    exact List.nodup_nil
  · intro q u
    rw [h q]
    simp

/-- An element is on one queue only. -/
theorem unique (h : Housed queue house) (hq : u ∈ queue q) (hq' : u ∈ queue q') : q = q' := by
  rw [h.mem] at hq hq'
  rw [hq] at hq'
  exact Option.some.inj hq'

variable [DecidableEq ι] [DecidableEq κ]

/-- An element that is on no queue can be appended to any. -/
theorem push (h : Housed queue house) (ht : house t = none) :
    Housed (Function.update queue q (queue q ++ [t])) (Function.update house t (some q)) := by
  have hout : ∀ p, t ∉ queue p := by
    intro p hp
    rw [h.mem, ht] at hp
    cases hp
  constructor
  · intro p
    rw [update_apply]
    split_ifs with hp
    · apply List.Nodup.append (h.nodup q) (List.nodup_singleton t)
      intro a ha hat
      rw [List.mem_singleton.mp hat] at ha
      exact hout q ha
    · exact h.nodup p
  · intro p u
    rw [update_apply, update_apply]
    by_cases hu : u = t
    · rw [if_pos hu, hu]
      split_ifs with hp
      · simp [hp]
      · simp [hout p, Ne.symm hp]
    · rw [if_neg hu, ← h.mem]
      split_ifs with hp
      · simp [hu, hp]
      · rfl

/-- An element is on no queue once it is removed from the one it is on. -/
theorem remove (h : Housed queue house) (ht : house t = some q) :
    Housed (Function.update queue q ((queue q).erase t)) (Function.update house t none) := by
  constructor
  · intro p
    rw [update_apply]
    split_ifs
    · exact (h.nodup q).erase t
    · exact h.nodup p
  · intro p u
    rw [update_apply, update_apply]
    by_cases hu : u = t
    · rw [if_pos hu, hu]
      split_ifs with hp
      · simp [(h.nodup q).mem_erase_iff]
      · simp [h.mem, ht, Ne.symm hp]
    · rw [if_neg hu, ← h.mem]
      split_ifs with hp
      · rw [(h.nodup q).mem_erase_iff, hp]
        simp [hu]
      · rfl

omit [DecidableEq ι] in
/-- A queue is emptied at once, and what was on it is on none. -/
theorem clear (h : Housed queue house) (q : κ) :
    Housed (Function.update queue q []) (fun u => if house u = some q then none else house u) := by
  constructor
  · intro p
    rw [update_apply]
    split_ifs
    · exact List.nodup_nil
    · exact h.nodup p
  · intro p u
    rw [update_apply]
    by_cases hp : p = q
    · rw [if_pos hp, hp]
      split_ifs with hu
      · simp
      · simp [hu]
    · rw [if_neg hp, h.mem]
      split_ifs with hu
      · rw [hu]
        simp [Ne.symm hp]
      · rfl

end Housed

end KernelSanders.Lib

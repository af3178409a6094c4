import KernelSanders.Lib.Exec

namespace KernelSanders.Lib

open Exec hiding update
open Function Finset

/-!
# Threads that share a state

The code of a thread is a `Prog`: a tree of atomic actions on the shared state, each of which
decides by its result what follows.  A `Pool` is a state and a thread for every name in `ι`; a
thread is idle, with what its last call returned, or inside a call with the rest of its code.
`Step` lets one thread make a call, take its next action, or return, and `Run` closes that over
any interleaving in which every step meets a condition on where the threads stand.

Safety is proved thread by thread from an `Outline`.  Every thread carries a ghost that says how
far it has come; the invariant relates the shared state to the ghosts of all threads; and `Safe`
says of the rest of a call that each of its actions keeps the invariant for a suitable new ghost
of the thread that acts, and changes the shared state only as the call guarantees.  `Safe`
distributes over sequencing (`Safe.bind`), and `run_good` lifts it to every run.
-/

/-- The code of a thread with result `α`. -/
inductive Prog (σ α : Type) : Type 1
  | ret (a : α)
  | act {β : Type} (a : Exec σ β) (k : β → Prog σ α)

namespace Prog

variable {σ τ α β : Type}

/-- One call after the other. -/
def bind : Prog σ α → (α → Prog σ β) → Prog σ β
  | ret a, f => f a
  | act a k, f => act a (fun b => (k b).bind f)

instance : Monad (Prog σ) where
  pure := ret
  bind := bind

/-- A single action. -/
def atomic (a : Exec σ α) : Prog σ α := act a ret

/-- Code over a component of the state. -/
def zoom (get : τ → σ) (put : σ → τ → τ) : Prog σ α → Prog τ α
  | ret a => ret a
  | act a k => act (Exec.zoom get put a) (fun b => (k b).zoom get put)

end Prog

/-! ### Pools -/

/-- A thread: idle with the result of its last call, or inside a call. -/
inductive Thread (σ κ ρ : Type) : Type 1
  | idle (r : ρ)
  | inside (c : κ) (x : Prog σ ρ)

/-- Where a thread stands, without the rest of its code. -/
inductive Place (κ ρ : Type)
  | idle (r : ρ)
  | inside (c : κ)
  deriving DecidableEq

/-- The calls of a system: their code, and after which results they may be made. -/
structure System (ι σ κ ρ : Type) where
  code : ι → κ → Prog σ ρ
  allowed : ρ → κ → Bool

/-- A shared state and the threads. -/
structure Pool (ι σ κ ρ : Type) : Type 1 where
  shared : σ
  thread : ι → Thread σ κ ρ

variable {ι σ τ κ ρ α β : Type} {p : Pool ι σ κ ρ} {t : ι} {c : κ}

def Thread.place : Thread σ κ ρ → Place κ ρ
  | .idle r => .idle r
  | .inside c _ => .inside c

def Pool.places (p : Pool ι σ κ ρ) : ι → Place κ ρ := fun t => (p.thread t).place

theorem Pool.thread_of_idle {r : ρ} (h : p.places t = .idle r) : p.thread t = .idle r := by
  unfold Pool.places at h
  cases hth : p.thread t with
  | idle r' =>
    rw [hth] at h
    cases h
    rfl
  | inside c x =>
    rw [hth] at h
    cases h

theorem Pool.thread_of_inside (h : p.places t = .inside c) : ∃ x, p.thread t = .inside c x := by
  unfold Pool.places at h
  cases hth : p.thread t with
  | idle r =>
    rw [hth] at h
    cases h
  | inside c' x =>
    rw [hth] at h
    cases h
    exact ⟨x, rfl⟩

variable [DecidableEq ι] {p' : Pool ι σ κ ρ} {S : System ι σ κ ρ} {e : Stop}

/-- The next action of a thread, or its return. -/
def Pool.next (t : ι) (p : Pool ι σ κ ρ) : Except Stop (Pool ι σ κ ρ) :=
  match p.thread t with
  | .idle _ => .error .blocked
  | .inside _ (.ret r) => .ok { p with thread := update p.thread t (.idle r) }
  | .inside c (.act a k) =>
    match a.run p.shared with
    | .ok (b, s) => .ok ⟨s, update p.thread t (.inside c (k b))⟩
    | .error e => .error e

/-- A thread makes a call. -/
def Pool.call (S : System ι σ κ ρ) (t : ι) (c : κ) (p : Pool ι σ κ ρ) : Pool ι σ κ ρ :=
  { p with thread := update p.thread t (.inside c (S.code t c)) }

/-- One step of thread `t`. -/
inductive Step (S : System ι σ κ ρ) (t : ι) (p : Pool ι σ κ ρ) : Pool ι σ κ ρ → Prop
  | call {r : ρ} {c : κ} (h : p.thread t = .idle r) (ha : S.allowed r c = true) :
    Step S t p (p.call S t c)
  | next {p' : Pool ι σ κ ρ} (h : p.next t = .ok p') : Step S t p p'

/-- Any number of steps, each of them by a thread `t` that then stands where `C t` allows it. -/
def Run (S : System ι σ κ ρ) (C : ι → (ι → Place κ ρ) → Prop) :
    Pool ι σ κ ρ → Pool ι σ κ ρ → Prop :=
  Relation.ReflTransGen (fun p p' => ∃ t, Step S t p p' ∧ C t p'.places)

/-- A run meets every weaker condition. -/
theorem Run.mono {C C' : ι → (ι → Place κ ρ) → Prop} (h : Run S C p p')
    (hC : ∀ t q, C t q → C' t q) : Run S C' p p' :=
  Relation.ReflTransGen.mono (fun _ _ ⟨t, hstep, hc⟩ => ⟨t, hstep, hC t _ hc⟩) _ _ h

/-! ### Inversion of a step -/

/-- Everything a thread that is inside a call can do. -/
theorem Pool.next_ok (h : p.next t = .ok p') :
    (∃ c r, p.thread t = .inside c (.ret r) ∧
        p' = { p with thread := update p.thread t (.idle r) }) ∨
      (∃ (c : κ) (β : Type) (a : Exec σ β) (k : β → Prog σ ρ) (b : β) (s : σ),
        p.thread t = .inside c (.act a k) ∧ a.run p.shared = .ok (b, s) ∧
          p' = ⟨s, update p.thread t (.inside c (k b))⟩) := by
  unfold Pool.next at h
  match hth : p.thread t with
  | .idle r =>
    rw [hth] at h
    cases h
  | .inside c (.ret r) =>
    rw [hth] at h
    cases h
    exact .inl ⟨c, r, rfl, rfl⟩
  | .inside c (.act a k) =>
    rw [hth] at h
    cases ha : a.run p.shared with
    | error e =>
      simp only [ha] at h
      cases h
    | ok q =>
      obtain ⟨b, s⟩ := q
      simp only [ha] at h
      cases h
      exact .inr ⟨c, _, a, k, b, s, rfl, ha, rfl⟩

/-- Why a thread inside a call cannot go on. -/
theorem Pool.next_error (h : p.next t = .error e) :
    (∃ r, p.thread t = .idle r) ∨
      (∃ (c : κ) (β : Type) (a : Exec σ β) (k : β → Prog σ ρ),
        p.thread t = .inside c (.act a k) ∧ a.run p.shared = .error e) := by
  unfold Pool.next at h
  match hth : p.thread t with
  | .idle r => exact .inl ⟨r, rfl⟩
  | .inside c (.ret r) =>
    rw [hth] at h
    cases h
  | .inside c (.act a k) =>
    rw [hth] at h
    cases ha : a.run p.shared with
    | ok q =>
      simp only [ha] at h
      cases h
    | error e' =>
      simp only [ha] at h
      cases h
      exact .inr ⟨c, _, a, k, rfl, ha⟩

/-- An action leaves every thread where it stands. -/
theorem Pool.places_act {x y : Prog σ ρ} (s : σ) (h : p.thread t = .inside c x) :
    Pool.places ⟨s, update p.thread t (.inside c y)⟩ = p.places := by
  funext t'
  by_cases ht : t' = t
  · subst ht
    simp only [Pool.places, update_self, h, Thread.place]
  · simp only [Pool.places, update_of_ne ht]

/-- Threads are only inside calls that the system allows. -/
theorem Run.inside {C : ι → (ι → Place κ ρ) → Prop} {P : κ → Prop}
    (hP : ∀ r c, S.allowed r c = true → P c) (h : Run S C p p')
    (hp : ∀ t c, p.places t = .inside c → P c) : ∀ t c, p'.places t = .inside c → P c := by
  induction h with
  | refl => exact hp
  | tail _ hstep ih =>
    obtain ⟨t, hstep, -⟩ := hstep
    intro u c hu
    cases hstep with
    | call hth ha =>
      by_cases hut : u = t
      · subst hut
        simp only [Pool.places, Pool.call, update_self, Thread.place] at hu
        cases hu
        exact hP _ _ ha
      · simp only [Pool.places, Pool.call, update_of_ne hut] at hu
        exact ih u c hu
    | next hn =>
      rcases Pool.next_ok hn with ⟨c', r, hth, rfl⟩ | ⟨c', β, a, k, b, s, hth, -, rfl⟩
      · by_cases hut : u = t
        · subst hut
          simp only [Pool.places, update_self, Thread.place] at hu
          cases hu
        · simp only [Pool.places, update_of_ne hut] at hu
          exact ih u c hu
      · rw [Pool.places_act s hth] at hu
        exact ih u c hu

/-! ### Proof outlines -/

/-- What is to be shown about every thread of a system: an invariant of the shared state and the
    ghosts, what a thread may assume of the ghosts when it acts, the ghosts of an idle thread, of
    a thread inside a call and of one at its end, what the actions of a call may change, and the
    reasons for which it may stop. -/
structure Outline (ι σ κ ρ γ : Type) where
  inv : σ → (ι → γ) → Prop
  sched : ι → (ι → γ) → Prop
  home : ρ → γ → Prop
  during : κ → γ → Prop
  done : κ → ρ → γ → Prop
  changes : κ → σ → σ → Prop
  stops : κ → ι → Stop → σ → (ι → γ) → Prop

variable {γ : Type} {o : Outline ι σ κ ρ γ} {x : Prog σ α} {G : ι → γ}

/-- The rest of a call, entered with ghost `g`, keeps the outline and ends in `Q`. -/
def Safe (o : Outline ι σ κ ρ γ) (c : κ) (t : ι) (Q : α → γ → Prop) : Prog σ α → γ → Prop
  | .ret a, g => o.during c g ∧ Q a g
  | .act a k, g => o.during c g ∧ ∀ s G, o.inv s G → o.sched t G → G t = g →
      Meets a s (fun b s' => ∃ g', o.inv s' (update G t g') ∧ o.changes c s s' ∧
        Safe o c t Q (k b) g') (fun e => o.stops c t e s G)

section Rules

variable {g : γ} {Q : α → γ → Prop} {P : β → γ → Prop} {f : α → Prog σ β} {a : Exec σ α}

theorem Safe.during (h : Safe o c t Q x g) : o.during c g := by
  cases x with
  | ret a => exact h.1
  | act a k => exact h.1

/-- **Sequencing rule.** -/
theorem Safe.bind (h : Safe o c t Q x g)
    (hf : ∀ a g', o.during c g' → Q a g' → Safe o c t P (f a) g') : Safe o c t P (x >>= f) g := by
  induction x generalizing g with
  | ret a => exact hf a g h.1 h.2
  | act a k ih =>
    refine ⟨h.1, fun s G hinv hsched hg => ?_⟩
    refine (h.2 s G hinv hsched hg).mono ?_ (fun _ he => he)
    intro b s' ⟨g', hinv', hch, hk⟩
    exact ⟨g', hinv', hch, ih b hk⟩

/-- One action and what follows it. -/
theorem safe_step (hd : o.during c g)
    (h : ∀ s G, o.inv s G → o.sched t G → G t = g → Meets a s (fun b s' => ∃ g',
      o.inv s' (update G t g') ∧ o.changes c s s' ∧ Safe o c t P (f b) g')
      (fun e => o.stops c t e s G)) :
    Safe o c t P (Prog.atomic a >>= f) g :=
  ⟨hd, h⟩

/-- One action at the end. -/
theorem safe_atomic (hd : o.during c g)
    (h : ∀ s G, o.inv s G → o.sched t G → G t = g → Meets a s (fun b s' => ∃ g',
      o.inv s' (update G t g') ∧ o.changes c s s' ∧ o.during c g' ∧
      Q b g') (fun e => o.stops c t e s G)) :
    Safe o c t Q (Prog.atomic a) g :=
  ⟨hd, h⟩

theorem Safe.mono {R : α → γ → Prop} (h : Safe o c t Q x g) (hQ : ∀ a g', Q a g' → R a g') :
    Safe o c t R x g := by
  induction x generalizing g with
  | ret a => exact ⟨h.1, hQ a g h.2⟩
  | act a k ih =>
    refine ⟨h.1, fun s G hinv hsched hg => ?_⟩
    refine (h.2 s G hinv hsched hg).mono ?_ (fun _ he => he)
    intro b s' ⟨g', hinv', hch, hk⟩
    exact ⟨g', hinv', hch, ih b hk⟩

end Rules

/-- **Frame rule.** Code that is safe over a component is safe over the whole state, if the
    component's invariant follows from that of the whole and the whole's survives every change of
    the component that keeps the component's. -/
theorem Safe.zoom {δ κ' ρ' : Type} {O : Outline ι τ κ' ρ' δ} {c' : κ'} {get : τ → σ}
    {put : σ → τ → τ} (see : δ → γ) (set : γ → δ → δ) (hsee : ∀ g d, see (set g d) = g)
    (hinv : ∀ s D, O.inv s D → O.sched t D → o.inv (get s) (fun t => see (D t)) ∧
      o.sched t (fun t => see (D t)))
    {d : δ}
    (hput : ∀ s D s' g g', O.inv s D → O.sched t D → D t = set g d → o.during c g' →
      o.inv s' (update (fun t => see (D t)) t g') → O.inv (put s' s) (update D t (set g' d)) ∧
      O.changes c' s (put s' s))
    (hduring : ∀ g, o.during c g → O.during c' (set g d))
    (hstops : ∀ e s D, O.inv s D → o.stops c t e (get s) (fun t => see (D t)) → O.stops c' t e s D)
    {Q : α → γ → Prop} {g : γ} (h : Safe o c t Q x g) :
    Safe O c' t (fun a d' => ∃ g', Q a g' ∧ d' = set g' d) (x.zoom get put) (set g d) := by
  induction x generalizing g with
  | ret a => exact ⟨hduring g h.1, g, h.2, rfl⟩
  | act a k ih =>
    refine ⟨hduring g h.1, fun s D hD hsched hd => ?_⟩
    obtain ⟨hi, hs⟩ := hinv s D hD hsched
    rw [meets_zoom]
    refine (h.2 (get s) _ hi hs (by rw [hd, hsee])).mono ?_ (fun e he => hstops e s D hD he)
    intro b s' ⟨g', hinv', _, hk⟩
    obtain ⟨hput, hch⟩ := hput s D s' g g' hD hsched hd hk.during hinv'
    exact ⟨set g' d, hput, hch, ih b hk⟩

/-! ### Runs -/

/-- What the outline says of a thread. -/
def Stands (o : Outline ι σ κ ρ γ) (t : ι) : Thread σ κ ρ → γ → Prop
  | .idle r, g => o.home r g
  | .inside c x, g => Safe o c t (o.done c) x g

/-- The ghosts fit the pool. -/
structure Good (o : Outline ι σ κ ρ γ) (p : Pool ι σ κ ρ) (G : ι → γ) : Prop where
  inv : o.inv p.shared G
  stands : ∀ t, Stands o t (p.thread t) (G t)

theorem Good.update {s : σ} {th : Thread σ κ ρ} {g : γ} (h : Good o p G)
    (hinv : o.inv s (update G t g)) (hth : Stands o t th g) :
    Good o ⟨s, update p.thread t th⟩ (update G t g) := by
  refine ⟨hinv, fun t' => ?_⟩
  by_cases ht : t' = t
  · subst ht
    simpa only [update_self] using hth
  · simpa only [update_of_ne ht] using h.stands t'

section Lift

variable {C : ι → (ι → Place κ ρ) → Prop}

/-- What has to be shown besides the safety of the calls: the condition on the run is what a
    thread assumes, a caller finds a ghost to enter a call with, and the end of a call leaves the
    ghost of an idle thread. -/
structure Lifts (o : Outline ι σ κ ρ γ) (S : System ι σ κ ρ)
    (C : ι → (ι → Place κ ρ) → Prop) : Prop where
  sched : ∀ p G t, Good o p G → C t p.places → o.sched t G
  call : ∀ p G t r c, Good o p G → p.thread t = .idle r → S.allowed r c = true →
    C t (p.call S t c).places →
      ∃ g, o.inv p.shared (update G t g) ∧ Safe o c t (o.done c) (S.code t c) g
  ret : ∀ s G t c r, o.inv s G → o.done c r (G t) →
    ∃ g, o.inv s (update G t g) ∧ o.home r g

/-- **One step.** The outline survives an action by its safety, a return as it stands, and a call
    if the caller finds a ghost to enter it with.  Only an action changes the shared state. -/
theorem Good.step (hG : Good o p G) (hl : Lifts o S C) (h : Step S t p p') (hC : C t p'.places) :
    (∃ G', Good o p' G') ∧
      (p'.shared = p.shared ∨
        ∃ c, p'.places t = .inside c ∧ o.changes c p.shared p'.shared) := by
  cases h with
  | call h ha =>
    obtain ⟨g, hinv, hsafe⟩ := hl.call p G t _ _ hG h ha hC
    exact ⟨⟨_, hG.update hinv hsafe⟩, .inl rfl⟩
  | next h =>
    rcases Pool.next_ok h with ⟨c, r, hth, rfl⟩ | ⟨c, β, a, k, b, s, hth, hrun, rfl⟩
    · have hst := hG.stands t
      rw [hth] at hst
      obtain ⟨g, hinv, hhome⟩ := hl.ret p.shared G t c r hG.inv hst.2
      exact ⟨⟨_, hG.update hinv hhome⟩, .inl rfl⟩
    · have hst := hG.stands t
      rw [hth] at hst
      rw [Pool.places_act s hth] at hC ⊢
      have hm := hst.2 p.shared G hG.inv (hl.sched p G t hG hC) rfl
      obtain ⟨g', hinv, hch, hsafe⟩ := (meets_ok hrun).mp hm
      refine ⟨⟨_, hG.update hinv hsafe⟩, .inr ⟨c, ?_, hch⟩⟩
      rw [Pool.places, hth]
      rfl

/-- **Every run.** -/
theorem run_good (hl : Lifts o S C) (h : Run S C p p') (hp : ∃ G, Good o p G) :
    ∃ G, Good o p' G := by
  induction h with
  | refl => exact hp
  | tail _ hstep ih =>
    obtain ⟨t, hstep, hC⟩ := hstep
    obtain ⟨G, hG⟩ := ih
    exact (hG.step hl hstep hC).1

/-- What no call of the run changes stays as it is. -/
theorem run_keeps {K : σ → Prop} (hl : Lifts o S C)
    (hkeep : ∀ q t c s s', C t q → q t = .inside c → o.changes c s s' → K s → K s')
    (h : Run S C p p') (hp : ∃ G, Good o p G) (hK : K p.shared) : K p'.shared := by
  induction h with
  | refl => exact hK
  | tail hrun hstep ih =>
    obtain ⟨t, hstep, hC⟩ := hstep
    obtain ⟨G, hG⟩ := run_good hl hrun hp
    rcases (hG.step hl hstep hC).2 with hs | ⟨c, hc, hch⟩
    · rw [hs]
      exact ih
    · exact hkeep _ t c _ _ hC hc hch ih

/-- Why a thread that may act cannot. -/
theorem Good.stop {x : Prog σ ρ} (hG : Good o p G) (hs : o.sched t G)
    (hth : p.thread t = .inside c x) (h : p.next t = .error e) : o.stops c t e p.shared G := by
  rcases Pool.next_error h with ⟨r, hr⟩ | ⟨c', β, a, k, hth', hrun⟩
  · rw [hth] at hr
    cases hr
  · have hst := hG.stands t
    rw [hth'] at hst
    rw [hth] at hth'
    cases hth'
    exact (meets_error hrun).mp (hst.2 p.shared G hG.inv hs rfl)

end Lift

/-! ### Concrete schedules -/

/-- A thread makes a call, or takes its next `n` actions and returns if it comes to that. -/
inductive Move (ι κ : Type)
  | call (t : ι) (c : κ)
  | go (t : ι) (n : Nat)

/-- At most `n` steps of one thread inside a call. -/
def Thread.advance : Nat → Thread σ κ ρ → σ → Option (Thread σ κ ρ × σ)
  | 0, th, s => some (th, s)
  | _ + 1, .idle r, s => some (.idle r, s)
  | _ + 1, .inside _ (.ret r), s => some (.idle r, s)
  | n + 1, .inside c (.act a k), s =>
    match a.run s with
    | .ok (b, s') => advance n (.inside c (k b)) s'
    | .error _ => none

/-- Follow a schedule, as long as no thread has to wait and the condition holds after every
    move. -/
def Pool.play (S : System ι σ κ ρ) (C : ι → (ι → Place κ ρ) → Prop) [∀ t q, Decidable (C t q)] :
    List (Move ι κ) → Pool ι σ κ ρ → Option (Pool ι σ κ ρ)
  | [], p => some p
  | .call t c :: ms, p =>
    match p.thread t with
    | .idle r =>
      if S.allowed r c = true ∧ C t (p.call S t c).places then (p.call S t c).play S C ms else none
    | .inside _ _ => none
  | .go t n :: ms, p =>
    match Thread.advance n (p.thread t) p.shared with
    | some (th, s) =>
      let p' : Pool ι σ κ ρ := ⟨s, update p.thread t th⟩
      if C t p.places ∧ C t p'.places then p'.play S C ms else none
    | none => none

section Play

variable {C : ι → (ι → Place κ ρ) → Prop} {ms : List (Move ι κ)}

theorem run_of_advance {n : Nat} {th th' : Thread σ κ ρ} {s s' : σ} (hth : p.thread t = th)
    (hs : p.shared = s) (h : th.advance n s = some (th', s')) (hC : C t p.places)
    (hC' : C t (Pool.places ⟨s', update p.thread t th'⟩)) :
    Run S C p ⟨s', update p.thread t th'⟩ := by
  induction n generalizing p th s with
  | zero =>
    cases h
    subst hth hs
    rw [update_eq_self]
    exact .refl
  | succ n ih =>
    match th with
    | .idle r =>
      cases h
      subst hs
      rw [← hth, update_eq_self]
      exact .refl
    | .inside c (.ret r) =>
      cases h
      subst hs
      refine .single ⟨t, .next ?_, hC'⟩
      unfold Pool.next
      rw [hth]
    | .inside c (.act a k) =>
      rw [Thread.advance] at h
      cases ha : a.run s with
      | error e =>
        simp only [ha] at h
        cases h
      | ok q =>
        obtain ⟨b, s₁⟩ := q
        simp only [ha] at h
        have hplaces := Pool.places_act (y := k b) s₁ hth
        have hstep : Step S t p ⟨s₁, update p.thread t (.inside c (k b))⟩ := by
          refine .next ?_
          unfold Pool.next
          simp only [hth, hs, ha]
        have hrest := ih (p := ⟨s₁, update p.thread t (.inside c (k b))⟩)
          (update_self ..) rfl h (by rw [hplaces]; exact hC)
          (by rw [update_idem]; exact hC')
        rw [update_idem] at hrest
        exact .head ⟨t, hstep, by rw [hplaces]; exact hC⟩ hrest

/-- A thread that the schedule leaves with nothing it can do. -/
def Pool.stuck (t : ι) (p : Pool ι σ κ ρ) : Bool :=
  match p.thread t, p.next t with
  | .inside _ _, .error _ => true
  | _, _ => false

theorem not_step_of_stuck (h : p.stuck t = true) : ¬ Step S t p p' := by
  intro hstep
  unfold Pool.stuck at h
  cases hstep with
  | call hth _ =>
    rw [hth] at h
    cases h
  | next hn =>
    rw [hn] at h
    cases hth : p.thread t <;> rw [hth] at h <;> cases h

theorem Pool.next_of_toOption (h : (p.next t).toOption = some p') : p.next t = .ok p' := by
  cases hn : p.next t with
  | ok q =>
    rw [hn] at h
    exact congrArg Except.ok (Option.some.inj h)
  | error e =>
    rw [hn] at h
    cases h

/-- A schedule that can be followed is a run. -/
theorem run_of_play [∀ t q, Decidable (C t q)] (h : p.play S C ms = some p') : Run S C p p' := by
  induction ms generalizing p with
  | nil =>
    cases h
    exact .refl
  | cons m ms ih =>
    cases m with
    | call t c =>
      rw [Pool.play] at h
      cases hth : p.thread t with
      | inside c' x =>
        simp only [hth] at h
        cases h
      | idle r =>
        simp only [hth] at h
        split_ifs at h with hc
        exact .head ⟨t, .call hth hc.1, hc.2⟩ (ih h)
    | go t n =>
      rw [Pool.play] at h
      cases ha : Thread.advance n (p.thread t) p.shared with
      | none =>
        simp only [ha] at h
        cases h
      | some q =>
        obtain ⟨th, s⟩ := q
        simp only [ha] at h
        split_ifs at h with hc
        exact (run_of_advance rfl rfl ha hc.1 hc.2).trans (ih h)

/-- The thread that a move is about. -/
def Move.thread : Move ι κ → ι
  | .call t _ => t
  | .go t _ => t

/-- A schedule leaves the threads that it does not name as they are. -/
theorem Pool.thread_of_play [∀ t q, Decidable (C t q)] (h : p.play S C ms = some p') {u : ι}
    (hu : ∀ m ∈ ms, m.thread ≠ u) : p'.thread u = p.thread u := by
  induction ms generalizing p with
  | nil =>
    cases h
    rfl
  | cons m ms ih =>
    have hm : u ≠ m.thread := (hu m (List.mem_cons_self ..)).symm
    have hms : ∀ m ∈ ms, m.thread ≠ u := fun m hm => hu m (List.mem_cons_of_mem _ hm)
    cases m with
    | call t c =>
      rw [Pool.play] at h
      cases hth : p.thread t with
      | inside c' x =>
        simp only [hth] at h
        cases h
      | idle r =>
        simp only [hth] at h
        split_ifs at h
        exact (ih h hms).trans (update_of_ne hm _ _)
    | go t n =>
      rw [Pool.play] at h
      cases ha : Thread.advance n (p.thread t) p.shared with
      | none =>
        simp only [ha] at h
        cases h
      | some q =>
        simp only [ha] at h
        split_ifs at h
        exact (ih h hms).trans (update_of_ne hm _ _)

end Play

/-! ### Counting threads -/

section Total

variable {θ : Type} [Fintype θ] {f : γ → Nat} {G : θ → γ}

/-- The sum of a number that every ghost has. -/
def total (f : γ → Nat) (G : θ → γ) : Nat := ∑ t, f (G t)

theorem le_total (t : θ) : f (G t) ≤ total f G :=
  single_le_sum (f := fun u => f (G u)) (fun _ _ => Nat.zero_le _) (mem_univ t)

theorem exists_of_total_pos (h : 0 < total f G) : ∃ t, 0 < f (G t) := by
  obtain ⟨t, -, ht⟩ := exists_ne_zero_of_sum_ne_zero (Nat.pos_iff_ne_zero.mp h)
  exact ⟨t, Nat.pos_of_ne_zero ht⟩

variable [DecidableEq θ] {t : θ}

theorem total_update (g : γ) : total f (update G t g) + f (G t) = total f G + f g := by
  have h₁ := add_sum_erase univ (fun u => f (G u)) (mem_univ t)
  have h₂ := add_sum_erase univ (fun u => f (update G t g u))
    (mem_univ t)
  have h₃ : ∑ u ∈ univ.erase t, f (update G t g u)
      = ∑ u ∈ univ.erase t, f (G u) := by
    refine sum_congr rfl (fun u hu => ?_)
    rw [update_of_ne (ne_of_mem_erase hu)]
  simp only [update_self] at h₂
  unfold total
  omega

theorem add_le_total {u : θ} (h : t ≠ u) : f (G t) + f (G u) ≤ total f G := by
  have h₁ := add_sum_erase univ (fun v => f (G v)) (mem_univ t)
  have h₂ : f (G u) ≤ ∑ v ∈ univ.erase t, f (G v) :=
    single_le_sum (f := fun v => f (G v)) (fun _ _ => Nat.zero_le _)
      (mem_erase.mpr ⟨h.symm, mem_univ u⟩)
  unfold total
  omega

end Total

end KernelSanders.Lib

import Mathlib

namespace KernelSanders.Lib

/-!
# Sequential imperative code: state, normal return, and the ways not to return

`Exec σ α` is code over a state `σ` that either returns a value and a new state or stops for
good.  The two judgments every specification of the development is written in are

* `Ensures x s Q` — *if* `x` returns from `s`, the result satisfies `Q` (partial);
* `Returns x s Q` — `x` *does* return from `s`, and the result satisfies `Q` (total).

Both distribute over `>>=` (`ensures_bind`, `returns_bind`), so a caller is verified from the
specification of its callees by `Ensures.bind` / `Returns.bind` and never unfolds them.

`Meets x s Q E` says both at once: a return satisfies `Q`, and a stop is for a reason in `E`.
With nothing in `E` it is total correctness, and with nothing in `Q` the code is known to stop.
-/

/-! Numerals of `Fin` refer to these. -/

instance neZero_one : NeZero 1 := ⟨Nat.one_ne_zero⟩

instance neZero_two : NeZero 2 := ⟨by decide⟩

instance neZero_three : NeZero 3 := ⟨by decide⟩

/-- Why a piece of code does not return to its caller. -/
inductive Stop where
  /-- A failed assertion or an explicit panic, with its message. -/
  | panic (msg : String)
  /-- Waiting for a lock or a semaphore that nobody is going to release. -/
  | blocked
  /-- An access outside every live object: a null or dangling pointer, an array overrun. -/
  | fault
  /-- The bound on the depth of nested calls was reached. -/
  | fuel
  deriving DecidableEq, Repr

/-- Code over the state `σ` with result `α`. -/
structure Exec (σ α : Type) : Type where
  run : σ → Except Stop (α × σ)

namespace Exec

variable {σ τ α β : Type}

instance : Monad (Exec σ) where
  pure a := ⟨fun s => .ok (a, s)⟩
  bind x f := ⟨fun s =>
    match x.run s with
    | .ok (a, s') => (f a).run s'
    | .error e => .error e⟩

/-- Read a component of the state. -/
def read (f : σ → α) : Exec σ α := ⟨fun s => .ok (f s, s)⟩

/-- Change the state. -/
def update (f : σ → σ) : Exec σ Unit := ⟨fun s => .ok ((), f s)⟩

/-- Stop for good. -/
def stop (e : Stop) : Exec σ α := ⟨fun _ => .error e⟩

/-- `ASSERT (c)`: panic with `msg` unless `c` holds. -/
def assert (c : Prop) [Decidable c] (msg : String) : Exec σ Unit :=
  ⟨fun s => if c then .ok ((), s) else .error (.panic msg)⟩

/-- Run code over a component of the state. -/
def zoom (get : τ → σ) (put : σ → τ → τ) (x : Exec σ α) : Exec τ α := ⟨fun t =>
  match x.run (get t) with
  | .ok (a, s') => .ok (a, put s' t)
  | .error e => .error e⟩

/-! ### Running the primitives -/

variable {x : Exec σ α} {f : α → Exec σ β} {s s' : σ} {a : α} {e : Stop} {c : Prop}

@[simp] theorem run_pure (a : α) (s : σ) : (pure a : Exec σ α).run s = .ok (a, s) := rfl
@[simp] theorem run_read (g : σ → α) (s : σ) : (read g).run s = .ok (g s, s) := rfl
@[simp] theorem run_update (g : σ → σ) (s : σ) : (update g).run s = .ok ((), g s) := rfl
@[simp] theorem run_stop (e : Stop) (s : σ) : (stop e : Exec σ α).run s = .error e := rfl

@[simp] theorem read_bind (g : σ → α) (f : α → Exec σ β) (s : σ) :
    (read g >>= f).run s = (f (g s)).run s := rfl

@[simp] theorem update_bind (g : σ → σ) (f : Unit → Exec σ β) (s : σ) :
    (update g >>= f).run s = (f ()).run (g s) := rfl

@[simp] theorem pure_bind (a : α) (f : α → Exec σ β) (s : σ) :
    ((pure a : Exec σ α) >>= f).run s = (f a).run s := rfl

theorem assert_pos [Decidable c] (h : c) (msg : String) (s : σ) :
    (assert c msg).run s = .ok ((), s) := if_pos h

theorem assert_neg [Decidable c] (h : ¬ c) (msg : String) (s : σ) :
    (assert c msg : Exec σ Unit).run s = .error (.panic msg) := if_neg h

/-- Sequencing after a call that returned. -/
theorem bind_ok (h : x.run s = .ok (a, s')) : (x >>= f).run s = (f a).run s' := by
  show (match x.run s with | .ok (a, s') => (f a).run s' | .error e => .error e) = _
  rw [h]

/-- Sequencing after a call that stopped. -/
theorem bind_error (h : x.run s = .error e) : (x >>= f).run s = .error e := by
  show (match x.run s with | .ok (a, s') => (f a).run s' | .error e => .error e) = _
  rw [h]

theorem run_bind_congr {y : Exec σ α} {g : α → Exec σ β} (h : x.run s = y.run s)
    (hf : ∀ a s', x.run s = .ok (a, s') → (f a).run s' = (g a).run s') :
    (x >>= f).run s = (y >>= g).run s := by
  cases hx : x.run s with
  | error e => rw [bind_error hx, bind_error (h.symm.trans hx)]
  | ok r => rw [bind_ok hx, bind_ok (h.symm.trans hx), hf _ _ hx]

/-- Inversion of a sequence that returned. -/
theorem bind_eq_ok {r : β × σ} :
    (x >>= f).run s = .ok r ↔ ∃ a s', x.run s = .ok (a, s') ∧ (f a).run s' = .ok r := by
  constructor
  · intro h
    cases hx : x.run s with
    | error e => rw [bind_error hx] at h; cases h
    | ok p => exact ⟨p.1, p.2, rfl, by rw [← bind_ok (f := f) hx]; exact h⟩
  · rintro ⟨a, s', hx, hf⟩
    rw [bind_ok hx]; exact hf

instance : LawfulMonad (Exec σ) := LawfulMonad.mk' (Exec σ)
  (by
    rintro α ⟨f⟩
    show Exec.mk _ = _
    congr 1
    funext s
    show (match f s with | .ok (a, s') => .ok (a, s') | .error e => .error e) = f s
    cases f s <;> rfl)
  (fun _ _ => rfl)
  (by
    rintro α β γ ⟨f⟩ g h
    show Exec.mk _ = Exec.mk _
    congr 1
    funext s
    show (match (match f s with | .ok (a, s') => (g a).run s' | .error e => .error e) with
        | .ok (b, s') => (h b).run s' | .error e => .error e)
      = match f s with | .ok (a, s') => (g a >>= h).run s' | .error e => .error e
    cases f s <;> rfl)

/-! ### Partial correctness -/

/-- If `x` returns from `s`, its result and final state satisfy `Q`. -/
def Ensures (x : Exec σ α) (s : σ) (Q : α → σ → Prop) : Prop :=
  ∀ a s', x.run s = .ok (a, s') → Q a s'

variable {Q R : α → σ → Prop} {P : β → σ → Prop} {g : σ → α} {msg : String}

theorem Ensures.mono (h : Ensures x s Q) (hQ : ∀ a s', Q a s' → R a s') : Ensures x s R :=
  fun a s' hx => hQ a s' (h a s' hx)

theorem Ensures.and (h : Ensures x s Q) (h' : Ensures x s R) :
    Ensures x s (fun a s' => Q a s' ∧ R a s') :=
  fun a s' hx => ⟨h a s' hx, h' a s' hx⟩

theorem ensures_bind : Ensures (x >>= f) s P ↔ Ensures x s (fun a s' => Ensures (f a) s' P) := by
  constructor
  · intro h a s' hx b s'' hf
    exact h b s'' (bind_eq_ok.mpr ⟨a, s', hx, hf⟩)
  · intro h b s'' hb
    obtain ⟨a, s', hx, hf⟩ := bind_eq_ok.mp hb
    exact h a s' hx b s'' hf

/-- **Sequencing rule.** The callee's specification `Q` is all the continuation may use. -/
theorem Ensures.bind (h : Ensures x s Q) (hf : ∀ a s', Q a s' → Ensures (f a) s' P) :
    Ensures (x >>= f) s P :=
  ensures_bind.mpr (h.mono hf)

/-- What the second part ensures from every state. -/
theorem ensures_skip (hf : ∀ a s', Ensures (f a) s' P) : Ensures (x >>= f) s P :=
  ensures_bind.mpr (fun a s' _ => hf a s')

/-- Sequencing after a call whose result is known. -/
theorem ensures_step (h : x.run s = .ok (a, s')) : Ensures (x >>= f) s P ↔ Ensures (f a) s' P := by
  simp only [Ensures, bind_ok h]

theorem ensures_ok (h : x.run s = .ok (a, s')) : Ensures x s Q ↔ Q a s' := by
  constructor
  · intro hx; exact hx a s' h
  · intro hq b s'' hb; cases h.symm.trans hb; exact hq

@[simp] theorem ensures_pure : Ensures (pure a : Exec σ α) s Q ↔ Q a s := ensures_ok rfl

@[simp] theorem ensures_stop : Ensures (stop e : Exec σ α) s Q := by
  intro a s' h; cases h

@[simp] theorem ensures_read : Ensures (read g) s Q ↔ Q (g s) s := ensures_ok rfl

@[simp] theorem ensures_update {g : σ → σ} {Q : Unit → σ → Prop} :
    Ensures (update g) s Q ↔ Q () (g s) := ensures_ok rfl

@[simp] theorem ensures_assert [Decidable c] {Q : Unit → σ → Prop} :
    Ensures (assert c msg) s Q ↔ (c → Q () s) := by
  constructor
  · intro h hc; exact h _ _ (assert_pos hc msg s)
  · intro h b s' hb
    by_cases hc : c
    · rw [assert_pos hc] at hb; cases hb; exact h hc
    · rw [assert_neg hc] at hb; cases hb

/-! The primitives at the head of a sequence. -/

theorem ensures_get : Ensures (read g >>= f) s P ↔ Ensures (f (g s)) s P :=
  ensures_step rfl

theorem ensures_put {g : σ → σ} {f : Unit → Exec σ β} :
    Ensures (update g >>= f) s P ↔ Ensures (f ()) (g s) P :=
  ensures_step rfl

theorem ensures_check [Decidable c] {f : Unit → Exec σ β} :
    Ensures (assert c msg >>= f) s P ↔ (c → Ensures (f ()) s P) :=
  ensures_bind.trans ensures_assert

/-! ### Total correctness -/

/-- `x` returns from `s`, and its result and final state satisfy `Q`. -/
def Returns (x : Exec σ α) (s : σ) (Q : α → σ → Prop) : Prop :=
  ∃ a s', x.run s = .ok (a, s') ∧ Q a s'

theorem Returns.mono (h : Returns x s Q) (hQ : ∀ a s', Q a s' → R a s') : Returns x s R := by
  obtain ⟨a, s', hx, hq⟩ := h
  exact ⟨a, s', hx, hQ a s' hq⟩

/-- A total specification and a partial one together. -/
theorem Returns.and_ensures (h : Returns x s Q) (h' : Ensures x s R) :
    Returns x s (fun a s' => Q a s' ∧ R a s') := by
  obtain ⟨a, s', hx, hq⟩ := h
  exact ⟨a, s', hx, hq, h' a s' hx⟩

/-- A total specification is a partial one: the result is unique. -/
theorem Returns.ensures (h : Returns x s Q) : Ensures x s Q := by
  obtain ⟨a, s', hx, hq⟩ := h
  exact (ensures_ok hx).mpr hq

theorem returns_bind : Returns (x >>= f) s P ↔ Returns x s (fun a s' => Returns (f a) s' P) := by
  constructor
  · rintro ⟨b, s'', hb, hP⟩
    obtain ⟨a, s', hx, hf⟩ := bind_eq_ok.mp hb
    exact ⟨a, s', hx, b, s'', hf, hP⟩
  · rintro ⟨a, s', hx, b, s'', hf, hP⟩
    exact ⟨b, s'', bind_eq_ok.mpr ⟨a, s', hx, hf⟩, hP⟩

/-- **Sequencing rule**, total form. -/
theorem Returns.bind (h : Returns x s Q) (hf : ∀ a s', Q a s' → Returns (f a) s' P) :
    Returns (x >>= f) s P :=
  returns_bind.mpr (h.mono hf)

/-- Sequencing after a call whose result is known, total form. -/
theorem returns_step (h : x.run s = .ok (a, s')) : Returns (x >>= f) s P ↔ Returns (f a) s' P := by
  simp only [Returns, bind_ok h]

theorem returns_ok (h : x.run s = .ok (a, s')) : Returns x s Q ↔ Q a s' := by
  constructor
  · intro hx; exact hx.ensures a s' h
  · intro hq; exact ⟨a, s', h, hq⟩

@[simp] theorem returns_pure : Returns (pure a : Exec σ α) s Q ↔ Q a s := returns_ok rfl

@[simp] theorem returns_read : Returns (read g) s Q ↔ Q (g s) s := returns_ok rfl

@[simp] theorem returns_update {g : σ → σ} {Q : Unit → σ → Prop} :
    Returns (update g) s Q ↔ Q () (g s) := returns_ok rfl

@[simp] theorem returns_assert [Decidable c] {Q : Unit → σ → Prop} :
    Returns (assert c msg) s Q ↔ c ∧ Q () s := by
  constructor
  · rintro ⟨b, s', hb, h⟩
    by_cases hc : c
    · rw [assert_pos hc] at hb; cases hb; exact ⟨hc, h⟩
    · rw [assert_neg hc] at hb; cases hb
  · rintro ⟨hc, h⟩; exact ⟨_, _, assert_pos hc msg s, h⟩

theorem returns_get : Returns (read g >>= f) s P ↔ Returns (f (g s)) s P :=
  returns_step rfl

theorem returns_put {g : σ → σ} {f : Unit → Exec σ β} :
    Returns (update g >>= f) s P ↔ Returns (f ()) (g s) P :=
  returns_step rfl

/-! ### Both outcomes at once -/

/-- If `x` returns from `s`, the result satisfies `Q`; if it stops, the reason satisfies `E`. -/
def Meets (x : Exec σ α) (s : σ) (Q : α → σ → Prop) (E : Stop → Prop) : Prop :=
  match x.run s with
  | .ok (a, s') => Q a s'
  | .error e => E e

variable {E F : Stop → Prop}

theorem meets_ok (h : x.run s = .ok (a, s')) : Meets x s Q E ↔ Q a s' := by
  rw [Meets, h]

theorem meets_error (h : x.run s = .error e) : Meets x s Q E ↔ E e := by
  rw [Meets, h]

section

variable (h : Meets x s Q E)
include h

/-- The two cases of a run that meets its specification. -/
theorem Meets.cases :
    (∃ a s', x.run s = .ok (a, s') ∧ Q a s') ∨ (∃ e, x.run s = .error e ∧ E e) := by
  cases hx : x.run s with
  | ok p => exact .inl ⟨p.1, p.2, rfl, (meets_ok hx).mp h⟩
  | error e => exact .inr ⟨e, rfl, (meets_error hx).mp h⟩

theorem Meets.mono (hQ : ∀ a s', Q a s' → R a s') (hE : ∀ e, E e → F e) : Meets x s R F := by
  rcases h.cases with ⟨a, s', hx, hq⟩ | ⟨e, hx, he⟩
  · exact (meets_ok hx).mpr (hQ a s' hq)
  · exact (meets_error hx).mpr (hE e he)

/-- The run that is met can be kept. -/
theorem Meets.run : Meets x s (fun a s' => Q a s' ∧ x.run s = .ok (a, s')) E := by
  rcases h.cases with ⟨a, s', hx, hq⟩ | ⟨e, hx, he⟩
  · exact (meets_ok hx).mpr ⟨hq, hx⟩
  · exact (meets_error hx).mpr he

/-- What holds on return, whatever the stops are. -/
theorem Meets.ensures : Ensures x s Q :=
  fun _ _ hx => (meets_ok hx).mp h

/-- Code with no reason to stop returns. -/
theorem Meets.returns (hE : ∀ e, ¬ E e) : Returns x s Q := by
  rcases h.cases with ⟨a, s', hx, hq⟩ | ⟨e, -, he⟩
  · exact ⟨a, s', hx, hq⟩
  · exact absurd he (hE e)

end

theorem Returns.meets (h : Returns x s Q) : Meets x s Q E := by
  obtain ⟨a, s', hx, hq⟩ := h
  exact (meets_ok hx).mpr hq

/-- Partial correctness, where every stop is allowed. -/
theorem Ensures.meets (h : Ensures x s Q) (hE : ∀ e, E e) : Meets x s Q E := by
  cases hx : x.run s with
  | ok p => exact (meets_ok hx).mpr (h _ _ hx)
  | error e => exact (meets_error hx).mpr (hE e)

theorem meets_bind : Meets (x >>= f) s P E ↔ Meets x s (fun a s' => Meets (f a) s' P E) E := by
  cases hx : x.run s with
  | ok p =>
    obtain ⟨a, s'⟩ := p
    rw [meets_ok hx, Meets, Meets, bind_ok hx]
  | error e => rw [meets_error hx, meets_error (bind_error hx)]

/-- **Sequencing rule** for both outcomes. -/
theorem Meets.bind (h : Meets x s Q E) (hf : ∀ a s', Q a s' → Meets (f a) s' P F)
    (hE : ∀ e, E e → F e) : Meets (x >>= f) s P F :=
  meets_bind.mpr (h.mono hf hE)

/-- Sequencing after a call whose result is known, for both outcomes. -/
theorem meets_step (h : x.run s = .ok (a, s')) : Meets (x >>= f) s P E ↔ Meets (f a) s' P E := by
  rw [meets_bind, meets_ok h]

@[simp] theorem meets_pure : Meets (pure a : Exec σ α) s Q E ↔ Q a s := Iff.rfl

@[simp] theorem meets_stop : Meets (stop e : Exec σ α) s Q E ↔ E e := Iff.rfl

@[simp] theorem meets_read : Meets (read g) s Q E ↔ Q (g s) s := Iff.rfl

@[simp] theorem meets_update {g : σ → σ} {Q : Unit → σ → Prop} :
    Meets (update g) s Q E ↔ Q () (g s) := Iff.rfl

theorem meets_get : Meets (read g >>= f) s P E ↔ Meets (f (g s)) s P E :=
  meets_step rfl

theorem meets_put {g : σ → σ} {f : Unit → Exec σ β} :
    Meets (update g >>= f) s P E ↔ Meets (f ()) (g s) P E :=
  meets_step rfl

/-- An assertion: the continuation may use it, and a violation has to be accounted for. -/
theorem meets_assert [Decidable c] {Q : Unit → σ → Prop} (hQ : c → Q () s)
    (hE : ¬ c → E (.panic msg)) : Meets (assert c msg) s Q E := by
  by_cases hc : c
  · exact (meets_ok (assert_pos hc msg s)).mpr (hQ hc)
  · exact (meets_error (assert_neg hc msg s)).mpr (hE hc)

/-! ### Results of concrete runs -/

/-- The result of a run without its final state. -/
def outcome (x : Exec σ α) (s : σ) : Except Stop α :=
  match x.run s with
  | .ok (a, _) => .ok a
  | .error e => .error e

/-- The final state of a run, and the initial one if it stopped. -/
def final (x : Exec σ α) (s : σ) : σ :=
  match x.run s with
  | .ok (_, s') => s'
  | .error _ => s

/-- A run by its result and its final state. -/
theorem run_of_outcome (h : outcome x s = .ok a) : x.run s = .ok (a, final x s) := by
  unfold outcome at h
  unfold final
  cases hx : x.run s with
  | ok p =>
    obtain ⟨b, s'⟩ := p
    rw [hx] at h
    cases h
    rfl
  | error e =>
    rw [hx] at h
    cases h

/-! ### Code over a component -/

section Zoom

variable {get : τ → σ} {put : σ → τ → τ} {t : τ} {Q : α → τ → Prop}

theorem zoom_ok (h : x.run (get t) = .ok (a, s')) : (zoom get put x).run t = .ok (a, put s' t) := by
  simp only [zoom, h]

theorem zoom_error (h : x.run (get t) = .error e) : (zoom get put x).run t = .error e := by
  simp only [zoom, h]

theorem zoom_bind (hget : ∀ s t, get (put s t) = s) (hput : ∀ s s' t, put s' (put s t) = put s' t) :
    (zoom get put (x >>= f)).run t = (zoom get put x >>= fun a => zoom get put (f a)).run t := by
  cases hx : x.run (get t) with
  | error e => rw [zoom_error (bind_error hx), bind_error (zoom_error hx)]
  | ok r =>
    obtain ⟨a, s₁⟩ := r
    rw [bind_ok (zoom_ok hx)]
    cases hf : (f a).run s₁ with
    | error e => rw [zoom_error ((bind_ok hx).trans hf), zoom_error (by rw [hget]; exact hf)]
    | ok r =>
      rw [zoom_ok ((bind_ok hx).trans hf), zoom_ok (by rw [hget]; exact hf), hput]

theorem ensures_zoom :
    Ensures (zoom get put x) t Q ↔ Ensures x (get t) (fun a s' => Q a (put s' t)) := by
  constructor
  · intro h a s' hx; exact h a _ (zoom_ok hx)
  · intro h a t' hz
    cases hx : x.run (get t) with
    | error e => rw [zoom_error hx] at hz; cases hz
    | ok p => rw [zoom_ok hx] at hz; cases hz; exact h _ _ hx

theorem returns_zoom :
    Returns (zoom get put x) t Q ↔ Returns x (get t) (fun a s' => Q a (put s' t)) := by
  constructor
  · rintro ⟨a, t', hz, h⟩
    cases hx : x.run (get t) with
    | error e => rw [zoom_error hx] at hz; cases hz
    | ok p => rw [zoom_ok hx] at hz; cases hz; exact ⟨_, _, hx, h⟩
  · rintro ⟨a, s', hx, h⟩; exact ⟨a, _, zoom_ok hx, h⟩

theorem meets_zoom :
    Meets (zoom get put x) t Q E ↔ Meets x (get t) (fun a s' => Q a (put s' t)) E := by
  cases hx : x.run (get t) with
  | ok p =>
    obtain ⟨a, s'⟩ := p
    rw [meets_ok (zoom_ok hx), meets_ok hx]
  | error e => rw [meets_error (zoom_error hx), meets_error hx]

end Zoom

/-! ### Invariants -/

/-- `x` keeps `I`: from a state with `I` it ends in one, if it returns. -/
def Maintains (I : σ → Prop) (x : Exec σ α) : Prop :=
  ∀ s, I s → Ensures x s (fun _ s' => I s')

section Maintains

variable {I : σ → Prop}

theorem maintains_bind (h : Maintains I x) (hf : ∀ a, Maintains I (f a)) : Maintains I (x >>= f) :=
  fun s hs => (h s hs).bind (fun a s' hs' => hf a s' hs')

theorem maintains_pure (a : α) : Maintains I (pure a : Exec σ α) :=
  fun _ hs => ensures_pure.mpr hs

theorem maintains_stop (e : Stop) : Maintains I (stop e : Exec σ α) :=
  fun _ _ => ensures_stop

theorem maintains_read (g : σ → α) : Maintains I (read g) :=
  fun _ hs => ensures_read.mpr hs

theorem maintains_assert (c : Prop) [Decidable c] (msg : String) : Maintains I (assert c msg) :=
  fun _ hs => ensures_assert.mpr (fun _ => hs)

end Maintains

end Exec

/-- A loop whose turns return and keep an invariant, in code that is `none` while it has not
    returned. -/
theorem foldlM_returns {α β : Type} {f : β → α → Option β} {I : β → Prop} {as : List α} {b : β}
    (hf : ∀ a ∈ as, ∀ b, I b → ∃ b', f b a = some b' ∧ I b') (h : I b) :
    ∃ b', as.foldlM f b = some b' ∧ I b' := by
  induction as generalizing b with
  | nil => exact ⟨b, rfl, h⟩
  | cons a as ih =>
    rw [List.forall_mem_cons] at hf
    obtain ⟨b₁, hb₁, h₁⟩ := hf.1 b h
    rw [List.foldlM_cons, hb₁]
    exact ih hf.2 h₁

end KernelSanders.Lib

import KernelSanders.Vm.Eviction

namespace KernelSanders

open Lib
open Lib.Exec hiding update
open Function

/-!
# Pinned frames

`pin_page`, `unpin_page`, `page_to_new_frame` and `grow_stack`, statement by statement, with one
thread for each process.  `frame_create`, which chooses and evicts a victim if it has to, holds
`frame_lock` from beginning to end and is one step; nothing else here takes the lock.

`frame_create` puts a frame on the list before it has a page, and gives back the lock.  So each
time a frame is created there is one without a page on the list (`create_unsafe`), and the next
thread that looks for a victim follows its null pointer.  As long as no frame is created nothing is
evicted, and the frames that have been pinned stay (`Guarded`).  While frames are evicted, a page
whose frame has pins stays in it, until they are taken back (`pins_keep`).
-/

/-- Where the thread of a process is; `a` is `spg`, and `f` the new frame. -/
inductive PinPoint where
  | idle
  /-- `while (spg->fr && spg->fr->evicting)`. -/
  | pinWait (a : Nat)
  /-- `if (spg->fr)`. -/
  | pinTest (a : Nat)
  /-- `ASSERT (spg->fr->pinned >= 0)`. -/
  | pinAssert (a : Nat)
  /-- `spg->fr->pinned++`. -/
  | pinCount (a : Nat)
  /-- `page_to_new_frame`. -/
  | newFrame (a : Nat) (pinned : Bool)
  | create (a : Nat) (pinned : Bool)
  /-- `new_frame->page = spg`. -/
  | attach (a f : Nat) (pinned : Bool)
  /-- `spg->fr = new_frame`. -/
  | link (a f : Nat) (pinned : Bool)
  | populate (a f : Nat) (pinned : Bool)
  | install (a f : Nat) (pinned : Bool)
  /-- `grow_stack`. -/
  | growCreate (upage : Nat)
  | growRegister (f upage : Nat)
  | growAttach (a f upage : Nat)
  | growInstall (f upage : Nat)
  /-- The assertions of `unpin_page`. -/
  | unpinAssert (a : Nat)
  /-- `spg->fr->pinned--`. -/
  | unpinCount (a : Nat)
  deriving DecidableEq

/-- A call, or the next step of a process. -/
inductive PinOp (π : Type) where
  | pin (p : π) (vaddr : Nat)
  | unpin (p : π) (vaddr : Nat)
  /-- A page fault at the page `a`. -/
  | pageFault (p : π) (a : Nat)
  | growStack (p : π) (upage : Nat)
  | run (p : π)
  deriving DecidableEq

/-- Memory and the threads, and as a history variable how often each page has been pinned and not
    yet unpinned. -/
structure Pinning (π : Type) where
  vm : Vm π
  point : π → PinPoint
  held : Nat → Nat

namespace Vm

variable {π : Type} [DecidableEq π]

/-- The frame of the page `a`, as in `spg->fr->…`. -/
def frameOf (a : Nat) : Exec (Vm π) (Nat × Frame) := do
  let spg ← getPage a
  let f ← deref spg.fr
  let fr ← getFrame f
  pure (f, fr)

/-- `spg->fr && spg->fr->evicting`. -/
def beingEvicted : Option Nat → Exec (Vm π) Bool
  | none => pure false
  | some f => do
    let fr ← getFrame f
    pure fr.evicting

/-- `install_page`, with its result thrown away. -/
def installPage (p : π) (upage kpage : Nat) : Exec (Vm π) Unit := do
  assert (pgOfs upage = 0) "pg_ofs(upage) == 0"
  assert (isUserVaddr upage) "is_user_vaddr(uaddr)"
  let e ← read (fun k => k.pte p upage)
  if e.present = true then pure () else pagedirSetPage p upage kpage true

/-- The next step of the process `p`. -/
def pinStep (p : π) : PinPoint → Exec (Vm π) PinPoint
  | .idle => stop .blocked
  | .pinWait a => do
    let spg ← getPage a
    let evicting ← beingEvicted spg.fr
    if evicting then pure (.pinWait a) else pure (.pinTest a)
  | .pinTest a => do
    let spg ← getPage a
    if spg.fr ≠ none then pure (.pinAssert a) else pure (.newFrame a true)
  | .pinAssert a => do
    let (_, fr) ← frameOf a
    assert (0 ≤ fr.pinned) "spg->fr->pinned >= 0"
    pure (.pinCount a)
  | .pinCount a => do
    let (f, fr) ← frameOf a
    setFrame f { fr with pinned := fr.pinned + 1 }
    pure .idle
  | .newFrame a pinned => do
    let spg ← getPage a
    let absent ← notResident spg.fr
    assert (absent = true) "!spg->fr || spg->fr->evicting"
    pure (.create a pinned)
  | .create a pinned => do
    let f ← frameCreate pinned
    pure (.attach a f pinned)
  | .attach a f pinned => do
    let fr ← getFrame f
    setFrame f { fr with page := some a }
    pure (.link a f pinned)
  | .link a f pinned => do
    let spg ← getPage a
    setPage a { spg with fr := some f }
    pure (.populate a f pinned)
  | .populate a f pinned => do
    let spg ← getPage a
    let fr ← getFrame f
    Vm.populate p a spg fr.physAddr
    pure (.install a f pinned)
  | .install a f _ => do
    let spg ← getPage a
    let fr ← getFrame f
    pagedirSetPage spg.pd spg.vaddr fr.physAddr spg.wr
    pure .idle
  | .growCreate upage => do
    let f ← frameCreate false
    pure (.growRegister f upage)
  | .growRegister f upage => do
    let a ← createSwapslotPage p upage (some f) true
    pure (.growAttach a f upage)
  | .growAttach a f upage => do
    let fr ← getFrame f
    setFrame f { fr with page := some a }
    pure (.growInstall f upage)
  | .growInstall f upage => do
    let fr ← getFrame f
    installPage p upage fr.physAddr
    pure .idle
  | .unpinAssert a => do
    let spg ← getPage a
    assert (spg.fr ≠ none) "spg->fr"
    let (_, fr) ← frameOf a
    assert (0 < fr.pinned) "spg->fr->pinned > 0"
    assert (fr.evicting = false) "!spg->fr->evicting"
    pure (.unpinCount a)
  | .unpinCount a => do
    let (f, fr) ← frameOf a
    setFrame f { fr with pinned := fr.pinned - 1 }
    pure .idle

end Vm

namespace PinOp

variable {π : Type} [DecidableEq π]

open Vm

def onVm {α : Type} (x : Exec (Vm π) α) : Exec (Pinning π) α :=
  zoom Pinning.vm (fun k s => { s with vm := k }) x

def goto (p : π) (pt : PinPoint) : Exec (Pinning π) Unit :=
  Exec.update (fun s => { s with point := update s.point p pt })

/-- `pin_page` has returned after this step, or `unpin_page`. -/
def counted (held : Nat → Nat) : PinPoint → Nat → Nat
  | .pinCount a => update held a (held a + 1)
  | .install a _ true => update held a (held a + 1)
  | .unpinCount a => update held a (held a - 1)
  | _ => held

def code : PinOp π → Exec (Pinning π) Unit
  | .pin p vaddr => do
    let o ← onVm (getSuppPage p (pgRoundDown vaddr))
    let a ← onVm (deref o)
    goto p (.pinWait a)
  | .unpin p vaddr => do
    let o ← onVm (getSuppPage p (pgRoundDown vaddr))
    assert (o ≠ none) "spg"
    let a ← onVm (deref o)
    goto p (.unpinAssert a)
  | .pageFault p a => goto p (.newFrame a false)
  | .growStack p upage => goto p (.growCreate upage)
  | .run p => do
    let pt ← read (fun s => s.point p)
    let pt' ← onVm (pinStep p pt)
    Exec.update (fun s => { s with held := counted s.held pt })
    goto p pt'

/-- A thread makes one call at a time; a page is unpinned only if it has been pinned, and a fault is
    at a page of the process. -/
def ready (s : Pinning π) : PinOp π → Bool
  | .pin p _ => decide (s.point p = .idle)
  | .unpin p vaddr => decide (s.point p = .idle) &&
      (s.vm.lookup p (pgRoundDown vaddr)).any (fun a => decide (0 < s.held a))
  | .pageFault p a => decide (s.point p = .idle) && decide (a ∈ s.vm.table p)
  | .growStack p _ => decide (s.point p = .idle)
  | .run p => decide (s.point p ≠ .idle)

end PinOp

/-- Processes that pin and unpin their pages, and bring them in. -/
def pinning (π : Type) [DecidableEq π] : Machine (Pinning π) (PinOp π) where
  ready := PinOp.ready
  code := PinOp.code

namespace Pinning

variable {π : Type} [DecidableEq π] {k : Vm π} {s s' : Pinning π} {o : PinOp π}

open Vm PinOp

/-- Every frame on the list has a page that points back to it, and the frame of a pinned page is
    there, is pinned, and is not being evicted. -/
structure Safe (s : Pinning π) : Prop where
  listed : ∀ f ∈ s.vm.frameTable, ∃ fr a spg, s.vm.frames f = some fr ∧ fr.page = some a ∧
    s.vm.pages a = some spg ∧ spg.fr = some f
  pinned : ∀ a, 0 < s.held a → ∃ spg f fr, s.vm.pages a = some spg ∧ spg.fr = some f ∧
    s.vm.frames f = some fr ∧ 0 < fr.pinned ∧ fr.evicting = false

/-- The next step is `frame_create`. -/
def creates : PinPoint → Bool
  | .create .. | .growCreate .. => true
  | _ => false

/-- The step is not a `frame_create`. -/
def NoCreate (s : Pinning π) : PinOp π → Prop
  | .run p => creates (s.point p) = false
  | _ => True

instance (s : Pinning π) (o : PinOp π) : Decidable (NoCreate s o) :=
  match o with
  | .run p => inferInstanceAs (Decidable (creates (s.point p) = false))
  | .pin .. | .unpin .. | .pageFault .. | .growStack .. => inferInstanceAs (Decidable True)

/-- No process is in a call, and no page is pinned. -/
structure Quiet (s : Pinning π) : Prop where
  sound : s.vm.mapping.Sound
  listed : ∀ f ∈ s.vm.frameTable, s.vm.frames f ≠ none
  count : ∀ f fr, s.vm.frames f = some fr → 0 ≤ fr.pinned
  idle : ∀ p, s.point p = .idle
  held : ∀ a, s.held a = 0

theorem steps_run {p : π} (h : (pinning π).Steps (.run p) s s') :
    s.point p ≠ .idle ∧ ∃ pt', (pinStep p (s.point p)).run s.vm = .ok (pt', s'.vm) ∧
      s'.point = update s.point p pt' ∧ s'.held = counted s.held (s.point p) := by
  refine ⟨of_decide_eq_true h.ready, ?_⟩
  have hrun := h.run
  cases hstep : (pinStep p (s.point p)).run s.vm with
  | error e =>
    have : (PinOp.code (.run p)).run s = .error e := by
      rw [PinOp.code, read_bind, onVm, bind_error (zoom_error hstep)]
    cases this.symm.trans hrun
  | ok r =>
    obtain ⟨pt', k⟩ := r
    have : (PinOp.code (.run p)).run s = .ok ((), ⟨k, update s.point p pt',
        counted s.held (s.point p)⟩) := by
      rw [PinOp.code, read_bind, onVm, bind_ok (zoom_ok hstep)]
      rfl
    cases this.symm.trans hrun
    exact ⟨pt', rfl, rfl, rfl⟩

/-- `frame_create` leaves a frame without a page on the list. -/
theorem frameCreate_unattached {pinned : Bool} {g : Nat → PinPoint} :
    Ensures (frameCreate pinned >>= fun f => pure (g f)) k (fun _ k' =>
      ∃ f ∈ k'.frameTable, ∃ fr, k'.frames f = some fr ∧ fr.page = none) := by
  rw [ensures_bind]
  refine frameCreate_ensures.mono (fun f k' hk' => ?_)
  obtain ⟨k₀, kpage, hcreates⟩ := hk'
  rw [ensures_pure, hcreates.result]
  exact ⟨f, by simp, _, update_self _ _ _, rfl⟩

/-- Whenever a frame is created, the list is unsafe afterwards. -/
theorem create_unsafe (h : (pinning π).Steps o s s') (hcreate : ¬ NoCreate s o) : ¬ Safe s' := by
  intro hsafe
  cases o with
  | pin | unpin | pageFault | growStack => exact hcreate trivial
  | run p =>
    obtain ⟨-, pt', hstep, -⟩ := steps_run h
    have hfound : ∃ f ∈ s'.vm.frameTable, ∃ fr, s'.vm.frames f = some fr ∧ fr.page = none := by
      cases hpoint : s.point p with
      | create a pinned | growCreate upage =>
        rw [hpoint] at hstep
        exact frameCreate_unattached _ _ hstep
      | _ => exact absurd (by rw [NoCreate, hpoint]; rfl) hcreate
    obtain ⟨f, hf, fr, hfr, hpage⟩ := hfound
    obtain ⟨fr', a, spg, hfr', ha, -⟩ := hsafe.listed f hf
    cases hfr.symm.trans hfr'
    cases hpage.symm.trans ha

/-! ### Runs without new frames -/

/-- What is known when `p` is at a point: a page that is about to be unpinned is pinned, and it is a
    page of `p`. -/
def PlacedAt (s : Pinning π) (p : π) : PinPoint → Prop
  | .unpinAssert a | .unpinCount a => a ∈ s.vm.table p ∧ 0 < s.held a
  | .attach .. | .link .. | .populate .. | .install .. | .growRegister .. | .growAttach ..
  | .growInstall .. => False
  | _ => True

/-- Only the counts of pins have changed since `s₀`, and they account for the pages that are
    held. -/
structure Guarded (s₀ s : Pinning π) : Prop where
  mapping : s.vm.mapping = s₀.vm.mapping
  frameTable : s.vm.frameTable = s₀.vm.frameTable
  count : ∀ f fr a, s.vm.frames f = some fr → fr.page = some a → (s.held a : Int) ≤ fr.pinned
  resident : ∀ a, 0 < s.held a → ∃ spg f, s.vm.pages a = some spg ∧ spg.fr = some f
  placed : ∀ p, PlacedAt s p (s.point p)

variable {s₀ : Pinning π} {p : π} {pt pt' : PinPoint}

section

omit [DecidableEq π]

theorem Guarded.refl (h : Quiet s₀) : Guarded s₀ s₀ where
  mapping := rfl
  frameTable := rfl
  count f fr a hfr _ := by
    rw [h.held a]
    exact h.count f fr hfr
  resident a ha := by
    rw [h.held a] at ha
    cases ha
  placed p := by
    rw [h.idle p]
    trivial

section

variable (h : Guarded s₀ s) (h₀ : Quiet s₀)
include h h₀

theorem Guarded.sound : s.vm.mapping.Sound := h.mapping ▸ h₀.sound

theorem Guarded.held_le {a f : Nat} {spg : SuppPage π} {fr : Frame}
    (hspg : s.vm.pages a = some spg) (hf : spg.fr = some f) (hfr : s.vm.frames f = some fr) :
    (s.held a : Int) ≤ fr.pinned := by
  obtain ⟨fr', hfr', hpage, -⟩ := frame_of_page (h.sound h₀) hspg hf
  cases hfr.symm.trans hfr'
  exact h.count f fr a hfr hpage

theorem Guarded.safe : Safe s where
  listed f hf := by
    rw [h.frameTable] at hf
    have hframe : s.vm.mapping.frame f ≠ none := by
      rw [h.mapping]
      exact fun hnone => h₀.listed f hf (Option.map_eq_none_iff.mp hnone)
    obtain ⟨c, hc⟩ := Option.ne_none_iff_exists'.mp hframe
    obtain ⟨fr, hfr, rfl⟩ := exists_frame hc
    obtain ⟨a, d, ha, hd, hback⟩ := (h.sound h₀).held f _ hc
    obtain ⟨spg, hspg, rfl⟩ := exists_page hd
    exact ⟨fr, a, spg, hfr, ha, hspg, hback⟩
  pinned a ha := by
    obtain ⟨spg, f, hspg, hf⟩ := h.resident a ha
    obtain ⟨fr, hfr, -⟩ := frame_of_page (h.sound h₀) hspg hf
    have hcount := h.held_le h₀ hspg hf hfr
    exact ⟨spg, f, fr, hspg, hf, hfr, by omega, ((h.sound h₀).calm f _ (mapping_frame hfr)).1⟩

end

end

/-- A thread goes on, and nothing else changes. -/
theorem Guarded.goto (h : Guarded s₀ s) (hvm : s'.vm = s.vm) (hheld : s'.held = s.held)
    (hpoint : s'.point = update s.point p pt) (hplaced : PlacedAt s p pt) :
    Guarded s₀ s' where
  mapping := by rw [hvm, h.mapping]
  frameTable := by rw [hvm, h.frameTable]
  count := by
    rw [hvm, hheld]
    exact h.count
  resident := by
    rw [hvm, hheld]
    exact h.resident
  placed q := by
    have hsame : ∀ pt, PlacedAt s q pt → PlacedAt s' q pt := by
      intro pt hpt
      cases pt <;> simp only [PlacedAt, hvm, hheld] at hpt ⊢ <;> exact hpt
    rw [hpoint, update_apply]
    split_ifs with hq
    · subst hq
      exact hsame _ hplaced
    · exact hsame _ (h.placed q)

omit [DecidableEq π] in
theorem frameOf_ensures {a : Nat} {Q : Nat × Frame → Vm π → Prop} :
    Ensures (frameOf a) k Q ↔ ∀ spg f fr, k.pages a = some spg → spg.fr = some f →
      k.frames f = some fr → Q (f, fr) k := by
  simp only [frameOf, ensures_bind, getPage_ensures, deref_ensures, getFrame_ensures, ensures_pure]
  exact ⟨fun h spg f fr hspg hf hfr => h spg hspg f hf fr hfr,
    fun h spg hspg f hf fr hfr => h spg f fr hspg hf hfr⟩

/-- The next step only looks at pages and frames. -/
def reads : PinPoint → Bool
  | .pinWait _ | .pinTest _ | .pinAssert _ | .newFrame .. | .unpinAssert _ => true
  | _ => false

theorem pinStep_reads (hreads : reads pt = true) : Ensures (pinStep p pt) k (fun pt' k' =>
    k' = k ∧ ∀ s, PlacedAt s p pt → PlacedAt s p pt') := by
  cases pt with
  | pinWait a =>
    simp only [pinStep, ensures_bind, getPage_ensures]
    intro spg _
    have hunchanged : Ensures (beingEvicted spg.fr) k (fun _ k' => k' = k) := by
      cases spg.fr with
      | none => exact ensures_pure.mpr rfl
      | some f =>
        simp only [beingEvicted, ensures_bind, getFrame_ensures, ensures_pure]
        exact fun _ _ => trivial
    refine hunchanged.mono (fun evicting k' hk' => ?_)
    split_ifs <;> exact ensures_pure.mpr ⟨hk', fun _ _ => trivial⟩
  | pinTest a =>
    simp only [pinStep, ensures_bind, getPage_ensures]
    intro spg _
    split_ifs <;> exact ensures_pure.mpr ⟨rfl, fun _ _ => trivial⟩
  | pinAssert a | unpinAssert a =>
    simp only [pinStep, ensures_bind, getPage_ensures, frameOf_ensures, ensures_assert,
      ensures_pure]
    intros
    exact ⟨trivial, fun _ h => h⟩
  | newFrame a pinned =>
    simp only [pinStep, ensures_bind, getPage_ensures]
    intro spg _
    refine notResident_ensures.mono (fun r k' hk' => ?_)
    simp only [ensures_assert, ensures_pure]
    exact fun _ => ⟨hk'.1, fun _ _ => trivial⟩
  | _ => cases hreads

omit [DecidableEq π] in
/-- A table belongs to one process. -/
theorem table_unique (hk : k.mapping.Sound) {a : Nat} {q : π} (hp : a ∈ k.table p)
    (hq : a ∈ k.table q) : q = p := by
  obtain ⟨c, hc, rfl⟩ := hk.listed p a hp
  obtain ⟨d, hd, rfl⟩ := hk.listed q a hq
  cases hc.symm.trans hd
  rfl

omit [DecidableEq π] in
theorem steps_getSuppPage {upage : Nat} :
    Ensures (getSuppPage p upage) k (fun o k' => o = k.lookup p upage ∧ k' = k) := by
  simp only [getSuppPage, ensures_bind, ensures_assert, ensures_read]
  exact fun _ _ => ⟨trivial, trivial⟩

/-- A call begins, and nothing else changes. -/
theorem steps_call (h : (pinning π).Steps o s s') (hrun : ∀ p, o ≠ .run p) :
    ∃ p pt, s' = { s with point := update s.point p pt } ∧ PlacedAt s p pt := by
  suffices hensures : Ensures (PinOp.code o) s (fun _ s' => ∃ p pt,
    s' = { s with point := update s.point p pt } ∧ PlacedAt s p pt) from hensures _ _ h.run
  have hready := h.ready
  cases o with
  | run p => exact absurd rfl (hrun p)
  | pageFault p a | growStack p upage => exact ensures_update.mpr ⟨p, _, rfl, trivial⟩
  | pin p vaddr =>
    simp only [PinOp.code, onVm, ensures_bind, ensures_zoom]
    refine steps_getSuppPage.mono (fun o k hk => ?_)
    obtain ⟨-, rfl⟩ := hk
    simp only [deref_ensures, PinOp.goto, ensures_update]
    exact fun a _ => ⟨p, _, rfl, trivial⟩
  | unpin p vaddr =>
    simp only [PinOp.code, onVm, ensures_bind, ensures_zoom]
    refine steps_getSuppPage.mono (fun o k hk => ?_)
    obtain ⟨ho, rfl⟩ := hk
    simp only [ensures_assert, deref_ensures, PinOp.goto, ensures_update]
    intro _ a ha
    have hlookup : s.vm.lookup p (pgRoundDown vaddr) = some a := ho.symm.trans ha
    have hheld : 0 < s.held a := by
      simp only [pinning, PinOp.ready, Bool.and_eq_true, hlookup, Option.any_some,
        decide_eq_true_eq] at hready
      exact hready.2
    exact ⟨p, _, rfl, List.mem_of_find?_eq_some hlookup, hheld⟩

section

variable (h : Guarded s₀ s) (h₀ : Quiet s₀)
include h h₀

/-- The pins of a page are counted anew, with the call that does it coming to its end. -/
theorem Guarded.recount {a f m : Nat} {n : Int} {spg : SuppPage π} {fr : Frame}
    (hspg : s.vm.pages a = some spg) (hf : spg.fr = some f) (hfr : s.vm.frames f = some fr)
    (hvm : s'.vm = { s.vm with frames := update s.vm.frames f (some { fr with pinned := n }) })
    (hheld : s'.held = update s.held a m) (hmn : (m : Int) ≤ n)
    (hpoint : s'.point = update s.point p .idle)
    (hothers : ∀ q, q ≠ p → a ∈ s.vm.table q → 0 < s.held a → 0 < m) : Guarded s₀ s' := by
  have hsound := h.sound h₀
  obtain ⟨fr', hfr', hpage, -⟩ := frame_of_page hsound hspg hf
  cases hfr.symm.trans hfr'
  constructor
  case mapping =>
    rw [← h.mapping, hvm]
    have hframes : ∀ g, (update s.vm.frames f (some { fr with pinned := n }) g).map
        Frame.core = (s.vm.frames g).map Frame.core := by
      intro g
      rw [update_apply]
      split_ifs with hg
      · rw [hg, hfr]
        rfl
      · rfl
    simp only [Vm.mapping, hframes]
  case frameTable => rw [hvm, h.frameTable]
  case count =>
    intro g gr b hgr hb
    rw [hvm] at hgr
    simp only [update_apply] at hgr
    rw [hheld, update_apply]
    split_ifs at hgr with hg
    · cases hgr
      cases hpage.symm.trans hb
      rw [if_pos rfl]
      exact hmn
    · rw [if_neg]
      · exact h.count g gr b hgr hb
      · -- the page is in one frame only
        rintro rfl
        obtain ⟨b, c, hb', hc, hback⟩ := hsound.held g _ (mapping_frame hgr)
        cases hb.symm.trans hb'
        cases (mapping_page hspg).symm.trans hc
        exact hg (Option.some.inj (hback.symm.trans hf))
  case resident =>
    intro b hb
    rw [hvm]
    rw [hheld, update_apply] at hb
    split_ifs at hb with hba
    · rw [hba]
      exact ⟨spg, f, hspg, hf⟩
    · exact h.resident b hb
  case placed =>
    intro q
    rw [hpoint, update_apply]
    split_ifs with hq
    · trivial
    · have hplaced := h.placed q
      have hkeep : ∀ b, b ∈ s.vm.table q ∧ 0 < s.held b → b ∈ s'.vm.table q ∧ 0 < s'.held b := by
        intro b hb
        rw [hvm, hheld, update_apply]
        refine ⟨hb.1, ?_⟩
        split_ifs with hba
        · subst hba
          exact hothers q hq hb.1 hb.2
        · exact hb.2
      cases hpt : s.point q <;> rw [hpt] at hplaced <;> simp only [PlacedAt] at hplaced ⊢ <;>
        exact hkeep _ hplaced

theorem Guarded.run (hsteps : (pinning π).Steps (.run p) s s') (hcreate : NoCreate s (.run p)) :
    Guarded s₀ s' := by
  obtain ⟨-, pt', hstep, hpoint, hheld⟩ := steps_run hsteps
  have hplaced := h.placed p
  have hcreate : creates (s.point p) = false := hcreate
  generalize s.point p = pt at hstep hheld hplaced hcreate
  suffices hrun : Ensures (pinStep p pt) s.vm (fun pt' k' => s'.vm = k' →
    s'.point = update s.point p pt' → Guarded s₀ s') from hrun _ _ hstep rfl hpoint
  cases pt with
  | idle => exact ensures_stop
  | create | growCreate => cases hcreate
  | attach | link | populate | install | growRegister | growAttach | growInstall =>
    exact hplaced.elim
  | pinWait a | pinTest a | pinAssert a | newFrame a _ | unpinAssert a =>
    refine (pinStep_reads rfl).mono (fun pt' k' hk' hvm hpoint => ?_)
    exact h.goto (hvm.trans hk'.1) hheld hpoint (hk'.2 s hplaced)
  | pinCount a =>
    simp only [pinStep, ensures_bind, frameOf_ensures, setFrame, ensures_update, ensures_pure]
    intro spg f fr hspg hf hfr hvm hpoint
    have hcount := h.held_le h₀ hspg hf hfr
    exact h.recount h₀ hspg hf hfr hvm hheld (by push_cast; omega) hpoint (fun _ _ _ _ => by omega)
  | unpinCount a =>
    simp only [pinStep, ensures_bind, frameOf_ensures, setFrame, ensures_update, ensures_pure]
    intro spg f fr hspg hf hfr hvm hpoint
    have hcount := h.held_le h₀ hspg hf hfr
    have hpositive : 0 < s.held a := hplaced.2
    refine h.recount h₀ hspg hf hfr hvm hheld (by omega) hpoint (fun q hq hmem _ => ?_)
    exact absurd (table_unique (h.sound h₀) hplaced.1 hmem) hq

theorem Guarded.step (hsteps : (pinning π).Steps o s s') (hcreate : NoCreate s o) :
    Guarded s₀ s' := by
  cases o with
  | run p => exact h.run h₀ hsteps hcreate
  | _ =>
    obtain ⟨p, pt, rfl, hplaced⟩ := steps_call hsteps nofun
    exact h.goto rfl rfl rfl hplaced

end

/-- As long as no frame is created, the list of frames is in order, the frames of pinned pages stay,
    and the assertions of `unpin_page` hold.  Whenever a frame is created, the list is not. -/
theorem pins_protect {s₀ : Pinning π} (h₀ : Quiet s₀) :
    (∀ s, (pinning π).Run NoCreate s₀ s → Safe s ∧
      ∀ p a, s.point p = .unpinAssert a →
        (pinStep p (.unpinAssert a)).run s.vm = .ok (.unpinCount a, s.vm)) ∧
    ∀ o s s', (pinning π).Steps o s s' → ¬ NoCreate s o → ¬ Safe s' := by
  refine ⟨fun s hrun => ?_, fun o s s' hsteps hcreate => create_unsafe hsteps hcreate⟩
  have hguarded : Guarded s₀ s := by
    refine Machine.Run.invariant (I := Guarded s₀) ?_ hrun (Guarded.refl h₀)
    exact fun o s s' h hsteps hcreate => h.step h₀ hsteps hcreate
  have hsafe := hguarded.safe h₀
  refine ⟨hsafe, fun p a hpoint => ?_⟩
  have hplaced := hguarded.placed p
  rw [hpoint] at hplaced
  obtain ⟨spg, f, fr, hspg, hf, hfr, hcount, hevicting⟩ := hsafe.pinned a hplaced.2
  have hframe : (frameOf a).run s.vm = .ok ((f, fr), s.vm) := by
    rw [frameOf, bind_ok (getPage_run hspg), bind_ok (deref_run hf), bind_ok (getFrame_run hfr)]
    rfl
  rw [pinStep, bind_ok (getPage_run hspg), bind_ok (assert_pos (by rw [hf]; simp) _ _),
    bind_ok hframe, bind_ok (assert_pos hcount _ _), bind_ok (assert_pos hevicting _ _)]
  rfl

/-! ### Runs with evictions -/

/-- A frame that has pins and is not being evicted. -/
def HasPins : Option Frame → Prop
  | some fr => 0 < fr.pinned ∧ fr.evicting = false
  | none => False

/-- The page `a` is in the frame `f`, which has pins. -/
def PinnedIn (k : Vm π) (a f : Nat) : Prop :=
  (k.pages a).bind SuppPage.fr = some f ∧ HasPins (k.frames f) ∧ a < k.brk ∧ f < k.brk

/-- The next step takes no pin of the frame `f` back, and does not give another frame to the page
    `a`. -/
def Spares (k : Vm π) (a f : Nat) : PinPoint → Prop
  | .unpinCount b => (k.pages b).bind SuppPage.fr ≠ some f
  | .link b .. => b ≠ a
  | _ => True

instance (k : Vm π) (a f : Nat) (pt : PinPoint) : Decidable (Spares k a f pt) :=
  match pt with
  | .unpinCount b => inferInstanceAs (Decidable ((k.pages b).bind SuppPage.fr ≠ some f))
  | .link b .. => inferInstanceAs (Decidable (b ≠ a))
  | .idle | .pinWait .. | .pinTest .. | .pinAssert .. | .pinCount .. | .newFrame .. | .create ..
  | .attach .. | .populate .. | .install .. | .growCreate .. | .growRegister .. | .growAttach ..
  | .growInstall .. | .unpinAssert .. => inferInstanceAs (Decidable True)

section

variable {a f : Nat} (h : PinnedIn k a f)
include h

/-- The victim of `frame_create` has no pins, and another page is in it. -/
theorem PinnedIn.create {pinned : Bool} :
    Ensures (frameCreate pinned) k (fun _ k' => PinnedIn k' a f) := by
  refine frameCreate_ensures.mono (fun g k' hk' => ?_)
  obtain ⟨k₀, kpage, hcreates⟩ := hk'
  have h₀ : PinnedIn k₀ a f := by
    cases hcreates.room with
    | free => exact h
    | evict v k₁ vr b vpg k₂ vpg₂ _ chosen evicts =>
      obtain ⟨vr', -, -, hvr', -, -, hzero, -⟩ := chosen.frame
      have hentry := evicts.entry
      have hback := evicts.back
      rw [chosen.reordered.result] at hentry
      rw [evicts.result]
      cases evicts.out <;> rw [chosen.reordered.result] <;>
        simp only [PinnedIn, released, markEvicting, setPte] at h ⊢ <;>
        grind [HasPins, update_apply]
  rw [hcreates.result, hcreates.new]
  unfold PinnedIn at h₀ ⊢
  grind [update_apply]

/-- **One step** of a process. -/
theorem PinnedIn.run (hspares : Spares k a f pt) :
    Ensures (pinStep p pt) k (fun _ k' => PinnedIn k' a f) := by
  cases pt with
  | idle => exact ensures_stop
  | create b pinned | growCreate upage =>
    exact ensures_bind.mpr (h.create.mono (fun _ _ h' => ensures_pure.mpr h'))
  | pinWait b | pinTest b | pinAssert b | newFrame b _ | unpinAssert b =>
    refine (pinStep_reads rfl).mono (fun _ k' hk' => ?_)
    rw [hk'.1]
    exact h
  | populate b g pinned =>
    simp only [pinStep, ensures_bind, getPage_ensures, getFrame_ensures, ensures_pure]
    intro spg hspg fr _
    refine populate_ensures.mono (fun _ k' hk' => ?_)
    unfold PinnedIn at h ⊢
    cases hk' <;> grind [update_apply]
  | growRegister g upage =>
    simp only [pinStep, createSwapslotPage, ensures_bind, ensures_pure]
    refine allocateSuppPage_ensures.mono (fun b k' hk' => ?_)
    rw [hk'.result, hk'.address]
    simp only [PinnedIn, setPte] at h ⊢
    grind [update_apply]
  | growInstall g upage =>
    simp only [pinStep, installPage, pagedirSetPage, ensures_bind, getFrame_ensures,
      ensures_assert, ensures_read]
    intro _ _ _ _
    split_ifs
    · exact ensures_pure.mpr (ensures_pure.mpr h)
    · simp only [ensures_bind, ensures_assert, ensures_read, ensures_update, ensures_pure]
      exact fun _ _ _ => h
  | unpinCount b =>
    simp only [pinStep, ensures_bind, frameOf_ensures, Vm.setFrame, ensures_update, ensures_pure]
    intro spg g gr hspg hg _
    have hgf : f ≠ g := by
      rintro rfl
      exact hspares ((congrArg (Option.bind · SuppPage.fr) hspg).trans hg)
    exact ⟨h.1, (congrArg HasPins (update_of_ne hgf ..)).mpr h.2.1, h.2.2⟩
  | _ =>
    simp only [pinStep, pagedirSetPage, ensures_bind, getPage_ensures, getFrame_ensures,
      frameOf_ensures, setFrame, setPage, setPte, ensures_assert, ensures_read, ensures_update,
      ensures_pure]
    unfold PinnedIn at h ⊢
    grind [HasPins, Spares, update_apply]

end

/-- **Pins.** As long as nobody takes the pins of a frame back, and nobody gives its page another
    one, the page stays in the frame, whatever is evicted meanwhile. -/
theorem pins_keep {a f : Nat} (h : PinnedIn s.vm a f) (hrun : (pinning π).Run
      (fun s o => ∀ p, o = .run p → Spares s.vm a f (s.point p)) s s') : PinnedIn s'.vm a f := by
  refine Machine.Run.invariant (I := fun s => PinnedIn s.vm a f) ?_ hrun h
  intro o s s' h hsteps hspares
  cases o with
  | run p =>
    obtain ⟨-, pt', hstep, -⟩ := steps_run hsteps
    exact h.run (hspares p rfl) _ _ hstep
  | _ =>
    obtain ⟨p, pt, rfl, -⟩ := steps_call hsteps nofun
    exact h

/-- Two pages of memory with the stacks of two processes in them, the first one pinned, and a page
    of the second process that is not resident. -/
def twoStacks : Pinning (Fin 2) :=
  (pinning (Fin 2)).after (.pin 0 0xbffff000 :: List.replicate 4 (.run 0))
    ⟨(KernelSanders.vm (Fin 2)).after [.growStack 0 0xbffff000, .growStack 1 0xbffff000,
        .createFilesysPage 1 0x10000000 0 0 0 false]
      (booted 2 (fun _ => Bytes.zero) oneSlot ⟨fun _ => 0, fun _ => [], fun _ => 0⟩
        (fun _ => none) (fun _ => true)), fun _ => .idle, fun _ => 0⟩

/-- The stack that is not pinned is evicted for the page. -/
theorem pins_keep_stacks :
    let s := (pinning (Fin 2)).after [.pageFault 1 4, .run 1, .run 1] twoStacks
    PinnedIn s.vm 1 0 ∧ (s.vm.pages 3).bind SuppPage.fr = none := by
  refine ⟨pins_keep (s := twoStacks) ⟨by decide +kernel, ?_, by decide +kernel, by decide +kernel⟩
    (Machine.run_of_allows (by decide +kernel)), by decide +kernel⟩
  have hframe : twoStacks.vm.frames 0 = some ⟨0, some 1, 1, false⟩ := by decide +kernel
  rw [hframe]
  exact ⟨Int.one_pos, rfl⟩

/-! ### Two processes -/

/-- No process is in a call. -/
def atRest (k : Vm π) : Pinning π := ⟨k, fun _ => .idle, fun _ => 0⟩

omit [DecidableEq π] in
theorem quiet_atRest (hk : k.mapping.Sound) (hlisted : ∀ f ∈ k.frameTable, k.frames f ≠ none)
    (hcount : ∀ f, f < k.brk → ∀ fr ∈ k.frames f, 0 ≤ fr.pinned) : Quiet (atRest k) where
  sound := hk
  listed := hlisted
  count f fr hfr := by
    by_cases hlt : f < k.brk
    · exact hcount f hlt fr hfr
    · cases (mapping_frame hfr).symm.trans (hk.fresh f (Nat.le_of_not_lt hlt)).2
  idle _ := rfl
  held _ := rfl

/-- The stack of a process is pinned. -/
def pinStack : List (PinOp Unit) := .pin () 0xbffff010 :: List.replicate 4 (.run ())

theorem pins_protect_stack :
    Safe ((pinning Unit).after pinStack (atRest Evicting.oneStack)) ∧
    ((pinning Unit).after pinStack (atRest Evicting.oneStack)).held 1 = 1 := by
  have hquiet : Quiet (atRest Evicting.oneStack) :=
    quiet_atRest Evicting.kept_oneStack.sound (by decide +kernel) (by decide +kernel)
  have hrun : (pinning Unit).Run NoCreate (atRest Evicting.oneStack)
      ((pinning Unit).after pinStack (atRest Evicting.oneStack)) :=
    Machine.run_of_allows (by decide +kernel)
  exact ⟨((pins_protect hquiet).1 _ hrun).1, by decide +kernel⟩

/-- One page of memory, one slot of swap, and two processes with a page each; the page of the first
    is its stack. -/
def twoPages : Vm (Fin 2) :=
  (KernelSanders.vm (Fin 2)).after
    [.growStack 0 0xbffff000, .createFilesysPage 1 0x10000000 0 0 0 false]
    (booted 1 (fun _ => Bytes.zero) oneSlot ⟨fun _ => 0, fun _ => [], fun _ => 0⟩ (fun _ => none)
      (fun _ => true))

theorem sound_twoPages : twoPages.mapping.Sound := by
  refine Machine.Run.invariant (I := fun k : Vm (Fin 2) => k.mapping.Sound) ?_
    (Machine.run_of_allows (P := fun _ _ => True) (by decide +kernel)) (sound_booted _ _ _ _ _ _)
  exact fun o k k' hk hsteps _ => (did_of_steps hk hsteps).sound hk

/-- The second process brings its page in as far as the end of `frame_create`. -/
def halfBuilt : List (PinOp (Fin 2)) := [.pageFault 1 2, .run 1, .run 1]

/-- The first process is about to pin its stack when that is evicted for the second. -/
def pinAndEvict : List (PinOp (Fin 2)) := [.pin 0 0xbffff000, .run 0, .run 0] ++ halfBuilt

/-- The list of frames is not in order when `frame_create` has returned, and a process that needs a
    victim then follows the null pointer; and a page that has been found resident by `pin_page` can
    be evicted before it is pinned. -/
theorem half_built_frame :
    Quiet (atRest twoPages) ∧
    ¬ Safe ((pinning (Fin 2)).after halfBuilt (atRest twoPages)) ∧
    (pinning (Fin 2)).Run (fun _ _ => True) (atRest twoPages)
      ((pinning (Fin 2)).after (halfBuilt ++ [.pageFault 0 1, .run 0]) (atRest twoPages)) ∧
    outcome (PinOp.code (.run 0)) ((pinning (Fin 2)).after (halfBuilt ++ [.pageFault 0 1, .run 0])
      (atRest twoPages)) = .error .fault ∧
    (pinning (Fin 2)).Run (fun _ _ => True) (atRest twoPages)
      ((pinning (Fin 2)).after pinAndEvict (atRest twoPages)) ∧
    outcome (PinOp.code (.run 0)) ((pinning (Fin 2)).after pinAndEvict (atRest twoPages)) =
      .error .fault := by
  refine ⟨quiet_atRest sound_twoPages (by decide +kernel) (by decide +kernel), fun hsafe => ?_,
    Machine.run_of_allows (by decide +kernel), by decide +kernel,
    Machine.run_of_allows (by decide +kernel), by decide +kernel⟩
  obtain ⟨fr, a, spg, hfr, ha, -⟩ := hsafe.listed 3 (by decide +kernel)
  have hframe : ((pinning (Fin 2)).after halfBuilt (atRest twoPages)).vm.frames 3 =
      some ⟨0, none, 0, false⟩ := by decide +kernel
  cases hframe.symm.trans hfr
  cases ha

end Pinning

end KernelSanders

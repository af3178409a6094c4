import KernelSanders.Vm.Contents
import KernelSanders.Lib.Movers

namespace KernelSanders

open Lib Lib.Exec
open Function hiding update
open Bytes

/-!
# Stores during an eviction

`frame_evict` writes a page out while its owner can still store to it: the entry in the page
directory is cleared only afterwards.  Here the steps of `frame_evict` are taken one by one
(`advance`), with stores of the owner in between.

* The steps make up `frame_evict` (`finish_advance`).
* A store that comes before its part of the page is written out could as well have come before the
  eviction (`advance_commutes`), and then it is in the page that comes back.
* A store that comes later is lost.
-/

/-- Where `frame_evict` is; `a` is `spg`, and `s` the slot. -/
inductive EvictPoint where
  | start
  /-- `if (pagedir_is_dirty (…))`. -/
  | check (a : Nat)
  | write (a : Nat)
  | clean (a : Nat)
  /-- `swap_find_empty ()`. -/
  | find (a : Nat)
  /-- `block_write` of sector `i`. -/
  | sector (a s i : Nat)
  /-- `spg->swap = …`. -/
  | record (a s : Nat)
  /-- `pagedir_clear_page`. -/
  | clear (a : Nat)
  /-- `palloc_free_page`. -/
  | free (a : Nat)
  /-- `spg->fr = NULL`. -/
  | detach (a : Nat)
  | done
  deriving DecidableEq

/-- A step of `frame_evict`, or of the owner of the page. -/
inductive EvictOp where
  | evict
  | store (ofs : Nat) (byte : UInt8)
  deriving DecidableEq

/-- Memory, where `frame_evict` is, and as a history variable the bytes that have been stored. -/
structure Evicting (π : Type) where
  vm : Vm π
  point : EvictPoint
  stores : List (Nat × UInt8)

namespace Vm

variable {π : Type} [DecidableEq π]

/-- The next step of `frame_evict`. -/
def advance (f : Nat) : EvictPoint → Exec (Vm π) EvictPoint
  | .start => do
    let fr ← getFrame f
    setFrame f { fr with evicting := true }
    let a ← deref fr.page
    let spg ← getPage a
    assert (spg.fr = some f) "spg->fr == fr"
    let fr ← getFrame f
    assert (fr.evicting = true) "fr->evicting"
    match spg.type with
    | .filesys => pure (.check a)
    | .swapslot => pure (.find a)
  | .check a => do
    let spg ← getPage a
    let dirty ← read (fun k => (k.pte spg.pd spg.vaddr).dirty)
    if dirty then pure (.write a) else pure (.clear a)
  | .write a => do
    let spg ← getPage a
    let fr ← getFrame f
    let fil ← deref spg.fil
    let _ ← fileWriteAt fil fr.physAddr spg.bytes spg.offset
    pure (.clean a)
  | .clean a => do
    let spg ← getPage a
    pagedirClean spg.pd spg.vaddr
    pure (.clear a)
  | .find a => do
    let o ← swapFindEmpty
    assert (o ≠ none) "swap_page"
    let s ← deref o
    pure (.sector a s 0)
  | .sector a s i => do
    let fr ← getFrame f
    writeSector fr.physAddr s i
    if i + 1 < 8 then pure (.sector a s (i + 1)) else pure (.record a s)
  | .record a s => do
    let spg ← getPage a
    setPage a { spg with swap := some s }
    pure (.clear a)
  | .clear a => do
    let fr ← getFrame f
    update (fun k => { k with frameTable := k.frameTable.erase f })
    let b ← deref fr.page
    let spg ← getPage b
    pagedirClearPage spg.pd spg.vaddr
    pure (.free a)
  | .free a => do
    let fr ← getFrame f
    pallocFreePage fr.physAddr
    dropFrame f
    pure (.detach a)
  | .detach a => do
    let spg ← getPage a
    setPage a { spg with fr := none }
    pure .done
  | .done => stop .blocked

end Vm

namespace EvictOp

variable {π : Type} [DecidableEq π]

/-- The frame `f` is evicted, and `p` stores to the page at `upage`. -/
def code (f : Nat) (p : π) (upage : Nat) : EvictOp → Exec (Evicting π) Unit
  | .evict => do
    let point ← read Evicting.point
    let point ← zoom Evicting.vm (fun k s => { s with vm := k }) (Vm.advance f point)
    update (fun s => { s with point := point })
  | .store ofs byte => update (fun s => { s with
      vm := s.vm.stored p upage ofs byte
      stores := s.stores ++ [(ofs, byte)] })

/-- A program can store to a page that is present and writable. -/
def ready (p : π) (upage : Nat) (s : Evicting π) : EvictOp → Bool
  | .evict => decide (s.point ≠ .done)
  | .store ofs _ =>
    (s.vm.pte p upage).present && (s.vm.pte p upage).writable && decide (ofs < pgSize)

end EvictOp

/-- One eviction and the stores of the owner. -/
def eviction {π : Type} [DecidableEq π] (f : Nat) (p : π) (upage : Nat) :
    Machine (Evicting π) EvictOp where
  ready := EvictOp.ready p upage
  code := EvictOp.code f p upage

variable {d : PageData} {fr : Frame}

namespace Vm

variable {π : Type} [DecidableEq π] {f a upage ofs kpage s i : Nat} {p : π} {byte : UInt8}

/-! ### Stores that come in time -/

/-- The part of the page that is stored to has not been written out. -/
def inTime : EvictPoint → Nat → Bool
  | .start, _ | .check _, _ | .write _, _ | .find _, _ => true
  | .sector _ _ i, ofs => decide (i ≤ ofs / 512)
  | _, _ => false

/-- If the page is one of a file, the byte is in the part of it that is written back, and the file
    takes it. -/
def Backed (k : Vm π) (a ofs : Nat) : Prop :=
  ∀ spg ∈ k.pages a, spg.type = .filesys → (ofs : Int) < spg.bytes ∧
    ∀ fil ∈ spg.fil, k.files.denyWriteCnt (k.files.inode fil) = 0

instance (k : Vm π) (a ofs : Nat) : Decidable (k.Backed a ofs) :=
  inferInstanceAs (Decidable (∀ spg ∈ k.pages a, _))

theorem commutes_getFrame : Commutes (fun k : Vm π => k.stored p upage ofs byte) (getFrame f) := by
  apply Commutes.bind
  · exact commutes_read (fun _ => rfl)
  · intro o
    cases o with
    | none => exact commutes_stop _
    | some fr => exact commutes_pure _

theorem commutes_getPage : Commutes (fun k : Vm π => k.stored p upage ofs byte) (getPage a) := by
  apply Commutes.bind
  · exact commutes_read (fun _ => rfl)
  · intro o
    cases o with
    | none => exact commutes_stop _
    | some spg => exact commutes_pure _

theorem commutes_deref {α : Type} (o : Option α) :
    Commutes (fun k : Vm π => k.stored p upage ofs byte) (deref o) := by
  cases o with
  | none => exact commutes_stop _
  | some x => exact commutes_pure _

/-- A sector of a page that the store does not touch. -/
theorem sectorOf_stored (h : ofs / 512 ≠ i) :
    sectorOf (d.copyIn ofs 1 (fun _ => byte)) i = sectorOf d i := by
  funext j
  have hj := j.isLt
  exact byte_copyIn_out _ _ _ _ (by omega)

theorem commutes_writeSector (h : ofs / 512 ≠ i) :
    Commutes (fun k : Vm π => k.stored p upage ofs byte) (writeSector kpage s i) := by
  intro k x k' hrun
  rw [writeSector, read_bind] at hrun ⊢
  have hsector : sectorOf ((k.stored p upage ofs byte).mem kpage) i = sectorOf (k.mem kpage) i := by
    simp only [stored, update_apply]
    split_ifs with hpage
    · rw [hpage]
      exact sectorOf_stored h
    · rfl
  rw [hsector]
  exact commutes_zoom (g := fun k : Vm π => k.stored p upage ofs byte) (fun _ => rfl)
    (fun _ _ => rfl) k x k' hrun

theorem commutes_start : Commutes (fun k : Vm π => k.stored p upage ofs byte)
    (advance f .start) := by
  refine commutes_getFrame.bind (fun fr => Commutes.bind ?_ (fun _ => ?_))
  · exact commutes_update (fun _ => rfl)
  refine (commutes_deref _).bind (fun a => commutes_getPage.bind (fun spg => ?_))
  refine (commutes_assert _ _).bind (fun _ => commutes_getFrame.bind (fun fr => ?_))
  refine (commutes_assert _ _).bind (fun _ => ?_)
  cases spg.type with
  | filesys | swapslot => exact commutes_pure _

theorem commutes_find : Commutes (fun k : Vm π => k.stored p upage ofs byte)
    (advance f (.find a)) := by
  refine Commutes.bind ?_ (fun o => (commutes_assert _ _).bind (fun _ =>
    (commutes_deref o).bind (fun s => commutes_pure _)))
  apply Commutes.bind
  · exact commutes_read (fun _ => rfl)
  · intro o
    cases o with
    | none => exact commutes_pure _
    | some s =>
      apply Commutes.bind
      · exact commutes_update (fun _ => rfl)
      · exact fun _ => commutes_pure _

variable {k k' : Vm π} {pt pt' : EvictPoint}

/-- A step after which a store comes in time does not touch what the store depends on, and the store
    would have been in time before. -/
theorem advance_early : Ensures (advance f pt) k (fun pt' k' => inTime pt' ofs = true →
    inTime pt ofs = true ∧ k'.pte = k.pte ∧ k'.pages = k.pages ∧ k'.files = k.files) := by
  cases pt with
  | start =>
    simp only [advance, ensures_bind, getFrame_ensures, setFrame, ensures_update, deref_ensures,
      getPage_ensures, ensures_assert]
    intro fr _ a _ spg _ _ _ _ _
    cases spg.type <;> exact ensures_pure.mpr (fun _ => ⟨rfl, rfl, rfl, rfl⟩)
  | check a =>
    simp only [advance, ensures_bind, getPage_ensures, ensures_read]
    intro spg _
    split_ifs <;> exact ensures_pure.mpr (fun _ => ⟨rfl, rfl, rfl, rfl⟩)
  | find a =>
    simp only [advance, swapFindEmpty, ensures_bind, ensures_read]
    cases firstFree k.inUse (numSlots k.swapTable) with
    | none => simp [deref]
    | some s =>
      simp only [ensures_bind, ensures_update, ensures_pure, ensures_assert, deref]
      exact fun _ _ => ⟨rfl, trivial, trivial, trivial⟩
  | sector a s i =>
    simp only [advance, ensures_bind, getFrame_ensures, writeSector, ensures_read]
    intro fr _
    refine onSwap_blockWrite_ensures.mono (fun _ k₁ hk₁ => ?_)
    subst hk₁
    split_ifs
    · simp only [ensures_pure, inTime, decide_eq_true_eq]
      exact fun hi => ⟨by omega, trivial, trivial, trivial⟩
    · exact ensures_pure.mpr (fun hlate => by cases hlate)
  -- from here on every store is late
  | write a =>
    refine ensures_skip (fun spg _ => ensures_skip (fun fr _ => ensures_skip (fun fil _ =>
      ensures_skip (fun _ _ => ensures_pure.mpr (fun hlate => by cases hlate)))))
  | clean a | record a s | detach a =>
    exact ensures_skip (fun spg _ => ensures_skip (fun _ _ =>
      ensures_pure.mpr (fun hlate => by cases hlate)))
  | clear a =>
    refine ensures_skip (fun fr _ => ensures_skip (fun _ _ => ensures_skip (fun b _ =>
      ensures_skip (fun spg _ => ensures_skip (fun _ _ =>
        ensures_pure.mpr (fun hlate => by cases hlate))))))
  | free a =>
    refine ensures_skip (fun fr _ => ensures_skip (fun _ _ => ensures_skip (fun _ _ =>
      ensures_pure.mpr (fun hlate => by cases hlate))))
  | done => exact ensures_stop

/-- After the write of a sector, a store to it is late. -/
theorem advance_sector : Ensures (advance f (.sector a s i)) k (fun pt' _ =>
    inTime pt' ofs = true → ofs / 512 ≠ i) := by
  refine ensures_skip (fun fr _ => ensures_skip (fun _ _ => ?_))
  split_ifs
  · simp only [ensures_pure, inTime, decide_eq_true_eq]
    omega
  · exact ensures_pure.mpr (fun hlate => by cases hlate)

/-- After the write to the file, every store is late. -/
theorem advance_write : Ensures (advance f (.write a)) k (fun pt' _ => inTime pt' ofs = false) :=
  ensures_skip (fun _ _ => ensures_skip (fun _ _ => ensures_skip (fun _ _ =>
    ensures_skip (fun _ _ => ensures_pure.mpr rfl))))

/-- A step of `frame_evict` after which a store still comes in time could have come after the
    store. -/
theorem advance_commutes (hrun : (advance f pt).run k = .ok (pt', k'))
    (htime : inTime pt' ofs = true) :
    (advance f pt).run (k.stored p upage ofs byte) = .ok (pt', k'.stored p upage ofs byte) := by
  cases pt with
  | start => exact commutes_start k pt' k' hrun
  | find a => exact commutes_find k pt' k' hrun
  | write a => cases htime.symm.trans (advance_write _ _ hrun)
  | clean a | record a s | clear a | free a | detach a | done =>
    cases (advance_early _ _ hrun htime).1
  | check a =>
    obtain ⟨spg, k₁, hspg, hrest⟩ := bind_eq_ok.mp hrun
    have hstored : (getPage a).run (k.stored p upage ofs byte) =
        .ok (spg, k₁.stored p upage ofs byte) := commutes_getPage _ _ _ hspg
    rw [advance, bind_ok hstored, read_bind]
    rw [read_bind] at hrest
    split_ifs at hrest with hdirty
    · -- a page that has been found dirty is dirty with the store as well
      have hdirty' : ((k₁.stored p upage ofs byte).pte spg.pd spg.vaddr).dirty = true := by
        simp only [stored, setPte]
        split_ifs
        · rfl
        · exact hdirty
      rw [if_pos hdirty']
      cases hrest
      rfl
    · cases hrest
      cases htime
  | sector a s i =>
    have hne : ofs / 512 ≠ i := advance_sector _ _ hrun htime
    refine Commutes.bind commutes_getFrame (fun fr => (commutes_writeSector hne).bind (fun _ => ?_))
      k pt' k' hrun
    split_ifs
    · exact commutes_pure _
    · exact commutes_pure _

/-! ### The steps make up `frame_evict` -/

/-- From `frame_free` on. -/
def unlink (f a : Nat) : Exec (Vm π) Unit := do
  let code ← frameFree (some f)
  assert (code = 0) "!frame_free(spg->fr)"
  let spg ← getPage a
  setPage a { spg with fr := none }

/-- The rest of `frame_evict`. -/
def finish (f : Nat) : EvictPoint → Exec (Vm π) Unit
  | .start => frameEvict f
  | .check a => do
    let spg ← getPage a
    let dirty ← read (fun k => (k.pte spg.pd spg.vaddr).dirty)
    if dirty then
      let fr ← getFrame f
      let fil ← deref spg.fil
      let _ ← fileWriteAt fil fr.physAddr spg.bytes spg.offset
      pagedirClean spg.pd spg.vaddr
      unlink f a
    else unlink f a
  | .write a => do
    let spg ← getPage a
    let fr ← getFrame f
    let fil ← deref spg.fil
    let _ ← fileWriteAt fil fr.physAddr spg.bytes spg.offset
    pagedirClean spg.pd spg.vaddr
    unlink f a
  | .clean a => do
    let spg ← getPage a
    pagedirClean spg.pd spg.vaddr
    unlink f a
  | .find a => do
    let fr ← getFrame f
    let s ← swapPutPage fr.physAddr
    let spg ← getPage a
    setPage a { spg with swap := some s }
    unlink f a
  | .sector a s i => do
    let fr ← getFrame f
    eachSector (writeSector fr.physAddr s) (i :: List.range' (i + 1) (7 - i))
    let spg ← getPage a
    setPage a { spg with swap := some s }
    unlink f a
  | .record a s => do
    let spg ← getPage a
    setPage a { spg with swap := some s }
    unlink f a
  | .clear a => unlink f a
  | .free a => do
    let fr ← getFrame f
    pallocFreePage fr.physAddr
    dropFrame f
    let spg ← getPage a
    setPage a { spg with fr := none }
  | .detach a => do
    let spg ← getPage a
    setPage a { spg with fr := none }
  | .done => pure ()

/-- `frame_evict`, up to its `switch`. -/
theorem frameEvict_run {spg : SuppPage π} (hfr : k.frames f = some fr) (ha : fr.page = some a)
    (hspg : k.pages a = some spg) (hback : spg.fr = some f) :
    (frameEvict f).run k =
      (writeOut f a spg >>= fun _ => unlink f a).run (k.markEvicting f fr) := by
  have hpage : (getPage a).run (k.markEvicting f fr) = .ok (spg, k.markEvicting f fr) :=
    getPage_run hspg
  have hframe : (getFrame f).run (k.markEvicting f fr) = .ok (_, k.markEvicting f fr) :=
    getFrame_run (update_self _ _ _)
  rw [frameEvict, bind_ok (getFrame_run hfr), setFrame, update_bind]
  show (deref fr.page >>= _).run (k.markEvicting f fr) = _
  rw [bind_ok (deref_run ha), bind_ok hpage, bind_ok (assert_pos hback _ _), bind_ok hframe,
    bind_ok (assert_pos rfl _ _)]
  rfl

theorem writeOut_filesys {spg : SuppPage π} (htype : spg.type = .filesys) :
    writeOut f a spg = (do
      let fr ← getFrame f
      let dirty ← read (fun k => (k.pte spg.pd spg.vaddr).dirty)
      if dirty then
        let fil ← deref spg.fil
        let _ ← fileWriteAt fil fr.physAddr spg.bytes spg.offset
        pagedirClean spg.pd spg.vaddr
      else pure ()) := by
  unfold writeOut
  split
  · rfl
  · rename_i hswap
    cases htype.symm.trans hswap

theorem writeOut_swapslot {spg : SuppPage π} (htype : spg.type = .swapslot) :
    writeOut f a spg = (do
      let fr ← getFrame f
      let s ← swapPutPage fr.physAddr
      setPage a { spg with swap := some s }) := by
  unfold writeOut
  split
  · rename_i hfile
    cases htype.symm.trans hfile
  · rfl

omit [DecidableEq π] in
/-- `swap_put_page` leaves the pages alone. -/
theorem swapPutPage_getPage {spg : SuppPage π} (hspg : k.pages a = some spg)
    {g : Nat → SuppPage π → Exec (Vm π) Unit} :
    (swapPutPage kpage >>= fun s => g s spg).run k =
      (swapPutPage kpage >>= fun s => getPage a >>= g s).run k := by
  cases hrun : (swapPutPage kpage).run k with
  | error e => rw [bind_error hrun, bind_error hrun]
  | ok r =>
    obtain ⟨s, k₁⟩ := r
    have hspg₁ : k₁.pages a = some spg := by
      rw [(swapPutPage_ensures s k₁ hrun).2]
      exact hspg
    rw [bind_ok hrun, bind_ok hrun, bind_ok (getPage_run hspg₁)]

/-- The `switch` of `frame_evict` is where a step goes. -/
theorem finish_start : Ensures (advance f .start) k (fun pt' k' =>
    (finish f .start).run k = (finish f pt').run k') := by
  simp only [advance, ensures_bind, getFrame_ensures, setFrame, ensures_update, deref_ensures,
    getPage_ensures, ensures_assert]
  intro fr hfr a ha spg hspg hback _ _ _
  have hpage : (getPage a).run (k.markEvicting f fr) = .ok (spg, k.markEvicting f fr) :=
    getPage_run hspg
  have hframe : (getFrame f).run (k.markEvicting f fr) = .ok (_, k.markEvicting f fr) :=
    getFrame_run (update_self _ _ _)
  have hstart : (finish f .start).run k = _ := frameEvict_run hfr ha hspg hback
  split
  case h_1 htype =>
    rw [ensures_pure, hstart, writeOut_filesys htype, bind_assoc, bind_ok hframe, bind_assoc,
      read_bind]
    show _ = (finish f (.check a)).run (k.markEvicting f fr)
    rw [finish, bind_ok hpage, read_bind]
    split_ifs
    · rw [bind_ok hframe]
      simp only [bind_assoc]
    · rfl
  case h_2 htype =>
    rw [ensures_pure, hstart, writeOut_swapslot htype, bind_assoc, bind_ok hframe, bind_assoc]
    show _ = (finish f (.find a)).run (k.markEvicting f fr)
    rw [finish, bind_ok hframe]
    exact swapPutPage_getPage (k := k.markEvicting f fr) (g := fun s spg =>
      setPage a { spg with swap := some s } >>= fun _ => unlink f a) hspg

section

omit [DecidableEq π]

theorem writeSector_ensures : Ensures (writeSector kpage s i) k (fun _ k' =>
    k' = { k with swapTable :=
      k.swapTable.put (blockSectorNum s + i) (sectorOf (k.mem kpage) i) }) := by
  simp only [writeSector, ensures_bind, ensures_read]
  exact onSwap_blockWrite_ensures

theorem swapFindEmpty_ensures : Ensures swapFindEmpty k (fun _ k' => k'.frames = k.frames) := by
  simp only [swapFindEmpty, ensures_bind, ensures_read]
  cases firstFree k.inUse (numSlots k.swapTable) with
  | none => exact ensures_pure.mpr rfl
  | some s =>
    simp only [ensures_bind, ensures_update, ensures_pure]

end

theorem finish_sector : Ensures (advance f (.sector a s i)) k (fun pt' k' =>
    (finish f (.sector a s i)).run k = (finish f pt').run k') := by
  simp only [advance, ensures_bind, getFrame_ensures]
  intro fr hfr _ k₁ hwrite
  have hfr₁ : k₁.frames f = some fr := by
    rw [writeSector_ensures _ _ hwrite]
    exact hfr
  rw [finish, bind_ok (getFrame_run hfr), eachSector, bind_assoc, bind_ok hwrite]
  split_ifs with hi
  · have hrest : List.range' (i + 1) (7 - i) = (i + 1) :: List.range' (i + 2) (7 - (i + 1)) := by
      rw [show 7 - i = (7 - (i + 1)) + 1 by omega]
      rfl
    rw [ensures_pure, finish, bind_ok (getFrame_run hfr₁), hrest]
  · rw [show 7 - i = 0 by omega, ensures_pure]
    rfl

theorem finish_find : Ensures (advance f (.find a)) k (fun pt' k' =>
    (finish f (.find a)).run k = (finish f pt').run k') := by
  simp only [advance, ensures_bind]
  intro o k₁ hfind
  rw [ensures_assert]
  intro hne
  rw [deref_ensures]
  intro s hs
  rw [ensures_pure, finish, finish]
  have hframes : k₁.frames = k.frames := swapFindEmpty_ensures _ _ hfind
  cases hfr : k.frames f with
  | none =>
    have hnone : ∀ k : Vm π, k.frames f = none → (getFrame f).run k = .error .fault := by
      intro k h
      rw [getFrame, read_bind, h]
      rfl
    rw [bind_error (hnone k hfr), bind_error (hnone k₁ (by rw [hframes, hfr]))]
  | some fr =>
    rw [bind_ok (getFrame_run hfr), bind_ok (getFrame_run (by rw [hframes, hfr])), swapPutPage]
    simp only [bind_assoc]
    rw [bind_ok hfind, bind_ok (assert_pos hne _ _), bind_ok (deref_run hs)]
    rfl

/-- `frame_free`, up to the freeing of the page. -/
theorem finish_clear : Ensures (advance f (.clear a)) k (fun pt' k' =>
    (finish f (.clear a)).run k = (finish f pt').run k') := by
  simp only [advance, ensures_bind, getFrame_ensures, ensures_update, deref_ensures,
    getPage_ensures, pagedirClearPage, ensures_assert, ensures_pure]
  intro fr hfr b hb spg hspg haligned huser
  have hfr' : (getFrame f).run ({ k with frameTable := k.frameTable.erase f }.setPte spg.pd
      spg.vaddr { k.pte spg.pd spg.vaddr with present := false }) = .ok (fr, _) := getFrame_run hfr
  have hspg' : (getPage b).run { k with frameTable := k.frameTable.erase f } = .ok (spg, _) :=
    getPage_run hspg
  rw [finish, finish, bind_ok hfr', unlink, frameFree]
  simp only [bind_assoc, bind_ok (getFrame_run hfr), update_bind, bind_ok (deref_run hb),
    bind_ok hspg', pagedirClearPage, bind_ok (assert_pos haligned _ _),
    bind_ok (assert_pos huser _ _)]
  rfl

/-- A step goes on to the rest. -/
theorem finish_advance : Ensures (advance f pt) k (fun pt' k' =>
    (finish f pt).run k = (finish f pt').run k') := by
  cases pt with
  | start => exact finish_start
  | check a =>
    simp only [advance, ensures_bind, getPage_ensures, ensures_read]
    intro spg hspg
    rw [finish, bind_ok (getPage_run hspg), read_bind]
    split_ifs
    · rw [ensures_pure, finish, bind_ok (getPage_run hspg)]
    · rw [ensures_pure]
      rfl
  | write a =>
    simp only [advance, ensures_bind, getPage_ensures, getFrame_ensures, deref_ensures]
    intro spg hspg fr hfr fil hfil n k₁ hwrite
    have hspg₁ : k₁.pages a = some spg := by
      obtain ⟨files, -, rfl⟩ := fileWriteAt_ensures n k₁ hwrite
      exact hspg
    rw [ensures_pure, finish, bind_ok (getPage_run hspg), bind_ok (getFrame_run hfr),
      bind_ok (deref_run hfil), bind_ok hwrite, finish, bind_ok (getPage_run hspg₁)]
  | clean a =>
    simp only [advance, ensures_bind, getPage_ensures, pagedirClean, ensures_update, ensures_pure]
    intro spg hspg
    rw [finish, bind_ok (getPage_run hspg)]
    rfl
  | find a => exact finish_find
  | sector a s i => exact finish_sector
  | record a s | detach a =>
    simp only [advance, ensures_bind, getPage_ensures, setPage, ensures_update, ensures_pure]
    intro spg hspg
    rw [finish, bind_ok (getPage_run hspg)]
    rfl
  | clear a => exact finish_clear
  | free a =>
    simp only [advance, ensures_bind, getFrame_ensures, pallocFreePage, ensures_update,
      ensures_read, ensures_assert, dropFrame, ensures_pure]
    intro fr hfr hused
    rw [finish, bind_ok (getFrame_run hfr), pallocFreePage]
    simp only [bind_assoc, update_bind, read_bind, bind_ok (assert_pos hused _ _), dropFrame]
    rfl
  | done => exact ensures_stop

end Vm

/-! ### Runs -/

namespace Evicting

variable {π : Type} [DecidableEq π] {f a upage ofs : Nat} {p : π} {byte b : UInt8}
  {s s' : Evicting π} {stores : List (Nat × UInt8)}

open Vm

theorem steps_evict : (eviction f p upage).Steps .evict s s' ↔ s.point ≠ .done ∧
    (advance f s.point).run s.vm = .ok (s'.point, s'.vm) ∧ s'.stores = s.stores := by
  have hcode : ((eviction f p upage).code .evict).run s =
      (zoom Evicting.vm (fun k s => { s with vm := k }) (advance f s.point) >>= fun point =>
        update (fun s => { s with point := point })).run s := rfl
  constructor
  · rintro ⟨hready, hrun⟩
    refine ⟨of_decide_eq_true hready, ?_⟩
    rw [hcode] at hrun
    cases hadvance : (advance f s.point).run s.vm with
    | error e =>
      rw [bind_error (zoom_error hadvance)] at hrun
      cases hrun
    | ok r =>
      rw [bind_ok (zoom_ok hadvance)] at hrun
      cases hrun
      exact ⟨rfl, rfl⟩
  · rintro ⟨hready, hadvance, hstores⟩
    refine ⟨decide_eq_true hready, ?_⟩
    rw [hcode, bind_ok (zoom_ok hadvance)]
    show Except.ok ((), Evicting.mk s'.vm s'.point s.stores) = _
    rw [← hstores]

/-- A store takes place while the page is present and writable. -/
def CanStore (k : Vm π) (p : π) (upage ofs : Nat) : Prop :=
  (k.pte p upage).present = true ∧ (k.pte p upage).writable = true ∧ ofs < pgSize

theorem steps_store : (eviction f p upage).Steps (.store ofs byte) s s' ↔
    CanStore s.vm p upage ofs ∧
      s' = ⟨s.vm.stored p upage ofs byte, s.point, s.stores ++ [(ofs, byte)]⟩ := by
  have hready : (eviction f p upage).ready s (.store ofs byte) = true ↔
      CanStore s.vm p upage ofs := by
    simp only [eviction, EvictOp.ready, CanStore, Bool.and_eq_true, decide_eq_true_eq, and_assoc]
  constructor
  · rintro ⟨hr, hrun⟩
    cases hrun
    exact ⟨hready.mp hr, rfl⟩
  · rintro ⟨hr, rfl⟩
    exact ⟨hready.mpr hr, rfl⟩

/-- A store to the page `a` that is not lost: what it changes is written out later, to a file that
    takes it if it is a page of a file. -/
def StoreKept (a : Nat) (s : Evicting π) : EvictOp → Prop
  | .evict => True
  | .store ofs _ => inTime s.point ofs = true ∧ s.vm.Backed a ofs

instance (a : Nat) (s : Evicting π) (o : EvictOp) : Decidable (StoreKept a s o) :=
  match o with
  | .evict => inferInstanceAs (Decidable True)
  | .store ofs _ => inferInstanceAs (Decidable (inTime s.point ofs = true ∧ s.vm.Backed a ofs))

def isStore : EvictOp → Prop
  | .evict => False
  | .store _ _ => True

/-- Stores that are not lost could have come before the eviction. -/
theorem stores_move_left : (eviction f p upage).MovesLeft (StoreKept a) isStore := by
  intro o e s t u hstore hevict hsteps _ hsteps' hkept
  cases e with
  | store => exact absurd trivial hevict
  | evict =>
    cases o with
    | evict => cases hstore
    | store ofs byte =>
      obtain ⟨hpoint, hadvance, hstores⟩ := steps_evict.mp hsteps
      obtain ⟨⟨hpresent, hwritable, hlt⟩, rfl⟩ := steps_store.mp hsteps'
      obtain ⟨htime, hpte, hpages, hfiles⟩ := advance_early _ _ hadvance hkept.1
      refine ⟨⟨s.vm.stored p upage ofs byte, s.point, s.stores ++ [(ofs, byte)]⟩,
        steps_store.mpr ⟨?_, rfl⟩, ⟨htime, ?_⟩, steps_evict.mpr ⟨hpoint, ?_, ?_⟩, trivial⟩
      · rw [CanStore, ← hpte]
        exact ⟨hpresent, hwritable, hlt⟩
      · have hbacked := hkept.2
        rwa [Vm.Backed, hpages, hfiles] at hbacked
      · exact advance_commutes hadvance hkept.1
      · rw [hstores]

/-- Without stores in between, the steps are `frame_evict`. -/
theorem frameEvict_of_run
    (hrun : (eviction f p upage).Run (fun s o => StoreKept a s o ∧ ¬ isStore o) s s')
    (hstart : s.point = .start) (hdone : s'.point = .done) :
    (frameEvict f).run s.vm = .ok ((), s'.vm) ∧ s'.stores = s.stores := by
  have hrest : (finish f s'.point).run s'.vm = (frameEvict f).run s.vm ∧ s'.stores = s.stores := by
    refine Machine.Run.invariant (I := fun t => (finish f t.point).run t.vm =
      (frameEvict f).run s.vm ∧ t.stores = s.stores) ?_ hrun ⟨?_, rfl⟩
    · intro o t t' ht hsteps hP
      cases o with
      | store => exact absurd trivial hP.2
      | evict =>
        obtain ⟨-, hadvance, hstores⟩ := steps_evict.mp hsteps
        exact ⟨(finish_advance _ _ hadvance).symm.trans ht.1, hstores.trans ht.2⟩
    · rw [hstart]
      rfl
  rw [hdone] at hrest
  exact ⟨hrest.1.symm, hrest.2⟩

/-! ### What comes back -/

/-- A page after some stores. -/
def applyStores (d : PageData) (stores : List (Nat × UInt8)) : PageData :=
  stores.foldl (fun d x => d.copyIn x.1 1 (fun _ => x.2)) d

/-- The last byte stored at `j`. -/
def lastStored (stores : List (Nat × UInt8)) (j : Nat) : Option UInt8 :=
  stores.foldl (fun o x => if x.1 = j then some x.2 else o) none

theorem applyStores_snoc (d : PageData) (stores : List (Nat × UInt8)) (x : Nat × UInt8) :
    applyStores d (stores ++ [x]) = (applyStores d stores).copyIn x.1 1 (fun _ => x.2) := by
  simp [applyStores]

theorem lastStored_snoc (stores : List (Nat × UInt8)) (x : Nat × UInt8) (j : Nat) :
    lastStored (stores ++ [x]) j = if x.1 = j then some x.2 else lastStored stores j := by
  simp [lastStored]

theorem byte_applyStores {j : Nat} (h : lastStored stores j = some b) (hj : j < 4096) :
    (applyStores d stores).byte j = b := by
  induction stores using List.reverseRecOn with
  | nil => cases h
  | append_singleton stores x ih =>
    rw [lastStored_snoc] at h
    rw [applyStores_snoc, byte_copyIn _ _ _ _ hj]
    split_ifs at h with hx
    · rw [if_pos (by omega)]
      exact Option.some.inj h
    · rw [if_neg (by omega)]
      exact ih h

theorem mem_of_lastStored {j : Nat} (h : lastStored stores j = some b) : ∃ x ∈ stores, x.1 = j := by
  induction stores using List.reverseRecOn with
  | nil => cases h
  | append_singleton stores x ih =>
    rw [lastStored_snoc] at h
    split_ifs at h with hx
    · exact ⟨x, by simp, hx⟩
    · obtain ⟨y, hy, hyj⟩ := ih h
      exact ⟨y, by simp [hy], hyj⟩

/-- The page `a` is in a frame, with what it held before in it, and everything that has been
    stored. -/
def ComesBackWith (k : Vm π) (a : Nat) (d : PageData) (stores : List (Nat × UInt8)) : Prop :=
  ∃ spg g gr, k.pages a = some spg ∧ spg.fr = some g ∧ k.frames g = some gr ∧
    (∀ j, j < keptBytes spg → j < 4096 →
      (k.mem gr.physAddr).byte j = (applyStores d stores).byte j) ∧
    ∀ j b, lastStored stores j = some b → (k.mem gr.physAddr).byte j = b

/-- What holds while stores go to the page `spg` and its eviction has not begun. -/
structure Storing (a : Nat) (d : PageData) (spg : SuppPage π) (s : Evicting π) : Prop where
  start : s.point = .start
  kept : Kept s.vm a (applyStores d s.stores)
  allowed : s.vm.WriteAllowed a
  page : s.vm.pages a = some spg
  inside : ∀ x ∈ s.stores, x.1 < 4096 ∧ x.1 < keptBytes spg

theorem Storing.store {spg : SuppPage π} (h : Storing a d spg s)
    (hsteps : (eviction f spg.pd spg.vaddr).Steps (.store ofs byte) s s')
    (hbacked : s.vm.Backed a ofs) : Storing a d spg s' := by
  obtain ⟨⟨hpresent, hwritable, hlt⟩, rfl⟩ := steps_store.mp hsteps
  have hlookup := lookup_of_page h.kept.sound h.page
  refine ⟨h.start, ⟨?_, h.kept.owned.congr rfl rfl, ?_⟩, ?_, h.page, ?_⟩
  · exact (Did.store hpresent hwritable hlt).sound h.kept.sound
  · have hholds : (s.vm.stored spg.pd spg.vaddr ofs byte).Holds a
        (if a = a then (applyStores d s.stores).copyIn ofs 1 (fun _ => byte) else _) :=
      h.kept.holds.stored h.kept.sound hpresent hwritable hlookup
    rw [if_pos rfl] at hholds
    rw [applyStores_snoc]
    exact hholds
  · intro pg fil hpg htype _ hfil
    exact (hbacked pg hpg htype).2 fil hfil
  · intro x hx
    rcases List.mem_append.mp hx with hx | hx
    · exact h.inside x hx
    · rw [List.mem_singleton.mp hx]
      refine ⟨hlt, ?_⟩
      unfold keptBytes
      split_ifs with hfile
      · have := (hbacked spg h.page hfile.1).1
        show ofs < _
        omega
      · exact hlt

theorem keptBytes_evicts {k k₁ k' : Vm π} {spg spg₁ : SuppPage π}
    (hev : Evicts k f fr a spg k₁ spg₁ k') :
    ∃ pg, k'.pages a = some pg ∧ pg.fr = none ∧ keptBytes pg = keptBytes spg := by
  refine ⟨{ spg₁ with fr := none }, ?_, rfl, ?_⟩
  · rw [hev.result]
    exact update_self _ _ _
  · cases hev.out <;> rfl

/-- No less of a page is kept once it has been brought in. -/
theorem keptBytes_pagesIn {k k₀ k₁ k₂ k' : Vm π} {pinned : Bool} {kpage g j : Nat}
    {spg pg : SuppPage π} (hin : PagesIn k p a pinned k₀ kpage g k₁ spg k₂ k')
    (hpg : k'.pages a = some pg) (hj : j < keptBytes spg) (hlt : j < 4096) : j < keptBytes pg := by
  rw [hin.result] at hpg
  cases hin.populated with
  | file | swap =>
    cases (update_self a _ _).symm.trans hpg
    exact hj
  | convert =>
    cases (update_self a _ _).symm.trans hpg
    exact hlt

/-- If every store comes in time, the next page-in brings all of them back. -/
theorem eviction_keeps_stores {k k' : Vm π} {d : PageData} {spg : SuppPage π} {pinned : Bool}
    (h : Kept k a d) (hspg : k.pages a = some spg) (hf : spg.fr = some f) (hw : k.WriteAllowed a)
    (hrun : (eviction f spg.pd spg.vaddr).Run (StoreKept a) ⟨k, .start, []⟩ s)
    (hdone : s.point = .done) (hsole : s.vm.SoleWriter a)
    (hin : (KernelSanders.vm π).Steps (.pageToNewFrame spg.pd a pinned) s.vm k') :
    ComesBackWith k' a d s.stores := by
  obtain ⟨m, hstores, hevicts⟩ := hrun.early_first stores_move_left
  -- first the stores
  have hm : Storing a d spg m := by
    refine Machine.Run.invariant (I := Storing a d spg) ?_ hstores ⟨rfl, h, hw, hspg, by simp⟩
    intro o s s' hs hsteps hP
    cases o with
    | evict => cases hP.2
    | store ofs byte => exact hs.store hsteps hP.1.2
  -- then the eviction
  obtain ⟨hevict, hsame⟩ := frameEvict_of_run hevicts hm.start hdone
  obtain ⟨fr, b, pg, k₁, pg₁, hev⟩ := frameEvict_ensures _ _ hevict
  obtain ⟨fr', hfr', hpage', -⟩ := frame_of_page hm.kept.sound hm.page hf
  cases hfr'.symm.trans hev.frame
  cases hpage'.symm.trans hev.page
  cases hm.page.symm.trans hev.entry
  have hkept : Kept s.vm a (applyStores d m.stores) := hm.kept.evicted hm.allowed hev
  obtain ⟨pg, hpg, hnone, hbytes⟩ := keptBytes_evicts hev
  have hallowed : s.vm.WriteAllowed a := by
    intro pg' fil hpg' htype hdirty _
    cases hpg.symm.trans hpg'
    cases hdirty.symm.trans ((hkept.holds pg hpg).clean htype hnone)
  -- and then the page comes back
  cases did_of_steps hkept.sound hin with
  | pageToNewFrame mem pagesIn =>
    obtain ⟨spg', hspg', hfr, hholds, gr, hgr⟩ := hkept.pagesIn ⟨hsole, hallowed⟩ mem pagesIn
    have hresident := hholds.resident _ gr hfr hgr
    rw [hsame]
    refine ⟨spg', _, gr, hspg', hfr, hgr, hresident, fun j b hlast => ?_⟩
    obtain ⟨x, hx, rfl⟩ := mem_of_lastStored hlast
    obtain ⟨hlt, hin⟩ := hm.inside x hx
    obtain ⟨-, hold, -⟩ := pagesIn.page hkept.sound
    cases hpg.symm.trans hold
    rw [hresident x.1 (keptBytes_pagesIn pagesIn hspg' (by rw [hbytes]; exact hin) hlt) hlt]
    exact byte_applyStores hlast hlt

/-! ### A page of the stack -/

/-- One page of memory and one slot of swap. -/
def onePage : Vm Unit :=
  booted 1 (fun _ => zero) oneSlot ⟨fun _ => 0, fun _ => [], fun _ => 0⟩ (fun _ => none)
    (fun _ => true)

/-- The same with a stack. -/
def oneStack : Vm Unit := final (VmOp.code (.growStack () 0xbffff000)) onePage

/-- An eviction with a store before the step number `n`. -/
def interrupted (n : Nat) : List EvictOp :=
  List.replicate n .evict ++ .store 0 9 :: List.replicate (14 - n) .evict

/-- The states when the page is evicted and when it is back. -/
def evicted (n : Nat) : Evicting Unit :=
  (eviction 0 () 0xbffff000).after (interrupted n) ⟨oneStack, .start, []⟩

def back (n : Nat) : Vm Unit :=
  final (VmOp.code (.pageToNewFrame () 1 false)) (evicted n).vm

theorem pages_oneStack : oneStack.pages 1 =
    some ⟨some 0, (), 0xbffff000, .swapslot, true, none, 0, 0, none⟩ := by decide +kernel

theorem kept_oneStack : Kept oneStack 1 zero := by
  have hsteps : (KernelSanders.vm Unit).Steps (.growStack () 0xbffff000) onePage oneStack :=
    ⟨rfl, run_of_outcome (by decide +kernel)⟩
  have hbooted : Kept onePage 1 zero := kept_booted _ _ _ _ _ _ _ _
  have hu : onePage.Undisturbed 1 := by
    constructor
    · intro spg hspg
      cases hspg
    · intro spg fil hspg
      cases hspg
  have hkept : Kept oneStack 1
      (onePage.remember (.growStack () 0xbffff000) oneStack (fun _ => zero) 1) :=
    Kept.did hbooted hu rfl (did_of_steps hbooted.sound hsteps)
  have hlookup : oneStack.lookup () 0xbffff000 = some 1 := by decide +kernel
  simpa [remember, hlookup] using hkept

omit [DecidableEq π] in
/-- A page of swap shares no file. -/
theorem soleWriter_of_swapslot {k : Vm π} {spg : SuppPage π} (hspg : k.pages a = some spg)
    (htype : spg.type = .swapslot) : k.SoleWriter a := by
  intro spg' hspg' htype'
  cases hspg.symm.trans hspg'
  cases htype.symm.trans htype'

theorem pages_evicted (n : Nat) (hn : n = 1 ∨ n = 3) : (evicted n).vm.pages 1 =
    some ⟨none, (), 0xbffff000, .swapslot, true, none, 0, 0, some 0⟩ := by
  rcases hn with rfl | rfl <;> decide +kernel

theorem eviction_keeps_stores_first :
    ComesBackWith (back 1) 1 zero (evicted 1).stores ∧ (evicted 1).stores = [(0, 9)] := by
  have hrun : (eviction 0 () 0xbffff000).Run (StoreKept 1) ⟨oneStack, .start, []⟩ (evicted 1) :=
    Machine.run_of_allows (by decide +kernel)
  have hin : (KernelSanders.vm Unit).Steps (.pageToNewFrame () 1 false) (evicted 1).vm (back 1) :=
    ⟨by decide +kernel, run_of_outcome (by decide +kernel)⟩
  refine ⟨eviction_keeps_stores kept_oneStack pages_oneStack rfl (by decide +kernel) hrun
    (by decide +kernel) ?_ hin, by decide +kernel⟩
  exact soleWriter_of_swapslot (pages_evicted 1 (.inl rfl)) rfl

/-- A byte that is stored after its sector has been written to swap does not come back. -/
theorem late_store_lost :
    Kept oneStack 1 zero ∧
    (eviction 0 () 0xbffff000).Run (fun _ _ => True) ⟨oneStack, .start, []⟩ (evicted 3) ∧
    (evicted 3).point = .done ∧ (evicted 3).vm.SoleWriter 1 ∧
    (KernelSanders.vm Unit).Steps (.pageToNewFrame () 1 false) (evicted 3).vm (back 3) ∧
    ¬ ComesBackWith (back 3) 1 zero (evicted 3).stores := by
  refine ⟨kept_oneStack, Machine.run_of_allows (by decide +kernel), by decide +kernel,
    soleWriter_of_swapslot (pages_evicted 3 (.inr rfl)) rfl,
    ⟨by decide +kernel, run_of_outcome (by decide +kernel)⟩, ?_⟩
  rintro ⟨spg, g, gr, hspg, hg, hgr, -, hstored⟩
  have hpage : (back 3).pages 1 =
      some ⟨some 2, (), 0xbffff000, .swapslot, true, none, 0, 0, some 0⟩ := by decide +kernel
  cases hpage.symm.trans hspg
  cases hg
  have hframe : (back 3).frames 2 = some ⟨0, some 1, 0, false⟩ := by decide +kernel
  cases hframe.symm.trans hgr
  have hread : ((back 3).mem 0).byte 0 = 0 := by decide +kernel
  have := hstored 0 9 (by decide +kernel)
  rw [hread] at this
  cases this

end Evicting

end KernelSanders

import KernelSanders.Vm.Paging

namespace KernelSanders

open Lib
open Lib.Exec hiding update
open Function
open List

namespace Vm

variable {π : Type}

/-!
# What the paging functions do

For each function that changes the state, a relation that says all it does: `WrittenOut` and
`Evicts` for `frame_evict`, `Chosen` for `frame_choose_victim`, `Creates` for `frame_create` and
`PagesIn` for `page_to_new_frame`.
-/

/-! ### The slots of the swap device -/

/-- What a slot holds. -/
def slotData (d : Device) (s : Nat) : PageData := fun j =>
  (d.sectors (blockSectorNum s + j / 512)).byte (j % 512)

/-- The sectors `is` of a page in a slot. -/
def putSectors (d : Device) (s : Nat) (page : PageData) (is : List Nat) : Device :=
  { d with
    sectors := fun t =>
      if blockSectorNum s ≤ t ∧ t - blockSectorNum s ∈ is then sectorOf page (t - blockSectorNum s)
      else d.sectors t }

/-- A page in a slot. -/
def putSlot (d : Device) (s : Nat) (page : PageData) : Device :=
  putSectors d s page (range 8)

theorem slotData_putSlot (d : Device) (s : Nat) (page : PageData) :
    slotData (putSlot d s page) s = page := by
  funext j
  have hj := j.isLt
  have hsector : blockSectorNum s ≤ blockSectorNum s + j / 512 ∧
      blockSectorNum s + j / 512 - blockSectorNum s ∈ range 8 := by
    rw [mem_range]
    omega
  simp only [slotData, putSlot, putSectors, if_pos hsector]
  rw [Bytes.byte_of_lt _ (by omega)]
  simp only [sectorOf]
  rw [Bytes.byte_of_lt _ (by omega)]
  congr 1
  apply Fin.ext
  show 512 * (blockSectorNum s + j / 512 - blockSectorNum s) + j % 512 = j
  omega

theorem slotData_putSlot_ne (d : Device) {s t : Nat} (page : PageData) (h : t ≠ s) :
    slotData (putSlot d s page) t = slotData d t := by
  funext j
  have hj := j.isLt
  have hsector : ¬ (blockSectorNum s ≤ blockSectorNum t + j / 512 ∧
      blockSectorNum t + j / 512 - blockSectorNum s ∈ range 8) := by
    rw [mem_range]
    unfold blockSectorNum
    omega
  simp only [slotData, putSlot, putSectors, if_neg hsector]

variable {k : Vm π} {f kpage s sector : Nat} {fr : Frame} {α : Type}

theorem onSwap_blockWrite_ensures {buf : Sector} :
    Ensures (onSwap (blockWrite sector buf)) k
      (fun _ k' => k' = { k with swapTable := k.swapTable.put sector buf }) := by
  rw [onSwap, ensures_zoom]
  simp [blockWrite, checkSector, ensures_bind]

theorem onSwap_blockRead_ensures :
    Ensures (onSwap (blockRead sector)) k
      (fun r k' => r = k.swapTable.sectors sector ∧ k' = k) := by
  rw [onSwap, ensures_zoom]
  simp [blockRead, checkSector, ensures_bind]

/-- A sector of the rest has been written last, and the sector `i` before that. -/
theorem putSectors_put (d : Device) (s : Nat) (page : PageData) (i : Nat) (is : List Nat) :
    putSectors (d.put (blockSectorNum s + i) (sectorOf page i)) s page is =
      putSectors d s page (i :: is) := by
  simp only [putSectors, Device.put, Device.mk.injEq, true_and]
  funext t
  simp only [update_apply, mem_cons]
  by_cases ht : blockSectorNum s ≤ t
  · by_cases hi : t - blockSectorNum s ∈ is
    · simp [ht, hi]
    · by_cases heq : t = blockSectorNum s + i
      · subst heq
        simp
      · have hne : t - blockSectorNum s ≠ i := by omega
        simp [ht, hi, heq, hne]
  · have hne : t ≠ blockSectorNum s + i := by omega
    simp [ht, hne]

/-- The sectors that have been written when the loop is at the end of `is`. -/
theorem eachSector_write (is : List Nat) (k : Vm π) :
    Ensures (eachSector (writeSector kpage s) is) k (fun _ k' =>
      k' = { k with swapTable := putSectors k.swapTable s (k.mem kpage) is }) := by
  induction is generalizing k with
  | nil => simp [eachSector, putSectors]
  | cons i is ih =>
    simp only [eachSector, writeSector, ensures_bind, ensures_read]
    refine onSwap_blockWrite_ensures.mono (fun _ k₁ hk₁ => ?_)
    subst hk₁
    refine (ih _).mono (fun _ k' hk' => ?_)
    rw [hk', ← putSectors_put]

/-- The bytes that have been read when the loop is at the end of `is`. -/
theorem eachSector_read (is : List Nat) (k : Vm π) :
    Ensures (eachSector (readSector kpage s) is) k (fun _ k' => k' = { k with
      mem := update k.mem kpage (fun j =>
        if j.val / 512 ∈ is then slotData k.swapTable s j else k.mem kpage j) }) := by
  induction is generalizing k with
  | nil =>
    simp only [eachSector, ensures_pure, not_mem_nil, if_false]
    rw [update_eq_self]
  | cons i is ih =>
    simp only [eachSector, readSector, ensures_bind]
    refine onSwap_blockRead_ensures.mono (fun sector k₁ hk₁ => ?_)
    obtain ⟨rfl, rfl⟩ := hk₁
    rw [ensures_update]
    refine (ih _).mono (fun _ k' hk' => ?_)
    subst hk'
    congr 1
    rw [update_idem]
    congr 1
    funext j
    simp only [update_self, mem_cons, Bytes.copyIn]
    by_cases hj : j.val / 512 ∈ is
    · simp [hj]
    · by_cases hi : j.val / 512 = i
      · subst hi
        have hrange : 512 * (j.val / 512) ≤ j.val ∧ j.val < 512 * (j.val / 512) + 512 := by omega
        rw [if_neg hj, if_pos hrange, if_pos (.inl rfl)]
        simp only [slotData]
        congr 1
        omega
      · have hrange : ¬ (512 * i ≤ j.val ∧ j.val < 512 * i + 512) := by omega
        rw [if_neg hj, if_neg hrange, if_neg (by tauto)]

/-- `swap_put_page`: the first free slot. -/
theorem swapPutPage_ensures :
    Ensures (swapPutPage kpage) k (fun s k' =>
      firstFree k.inUse (numSlots k.swapTable) = some s ∧
      k' = { k with
        inUse := update k.inUse s true
        swapTable := putSlot k.swapTable s (k.mem kpage) }) := by
  simp only [swapPutPage, swapFindEmpty, ensures_bind, ensures_read]
  cases hs : firstFree k.inUse (numSlots k.swapTable) with
  | none =>
    simp only [ensures_pure, ensures_assert]
    exact fun h => absurd rfl h
  | some s =>
    simp only [ensures_bind, ensures_update, ensures_pure, ensures_assert, deref]
    intro _
    refine (eachSector_write _ _).mono (fun _ k' hk' => ?_)
    exact ⟨trivial, hk'⟩

/-- `swap_retrieve_page`: the slot is free afterwards. -/
theorem swapRetrievePage_ensures {swap : Option Nat} :
    Ensures (swapRetrievePage kpage swap) k (fun _ k' => ∃ s, swap = some s ∧
      k' = { k with
        inUse := update k.inUse s false
        mem := update k.mem kpage (slotData k.swapTable s) }) := by
  simp only [swapRetrievePage, swapRemovePage, ensures_bind, ensures_assert]
  intro hswap
  cases swap with
  | none => exact absurd rfl hswap
  | some s =>
    simp only [deref, ensures_pure]
    refine (eachSector_read _ _).mono (fun _ k' hk' => ?_)
    subst hk'
    simp only [ensures_update]
    intro _
    refine ⟨s, rfl, ?_⟩
    congr 2
    funext j
    rw [if_pos]
    have := j.isLt
    rw [mem_range]
    omega

/-! ### Heap objects -/

theorem getPage_ensures {a : Nat} {Q : SuppPage π → Vm π → Prop} :
    Ensures (getPage a) k Q ↔ ∀ spg, k.pages a = some spg → Q spg k := by
  simp only [getPage, ensures_bind, ensures_read]
  cases h : k.pages a with
  | none => simp
  | some spg => simp

theorem getFrame_ensures {Q : Frame → Vm π → Prop} :
    Ensures (getFrame f) k Q ↔ ∀ fr, k.frames f = some fr → Q fr k := by
  simp only [getFrame, ensures_bind, ensures_read]
  cases h : k.frames f with
  | none => simp
  | some fr => simp

theorem deref_ensures {o : Option α} {Q : α → Vm π → Prop} :
    Ensures (deref o) k Q ↔ ∀ x, o = some x → Q x k := by
  cases o with
  | none => simp [deref]
  | some x => simp [deref]

theorem getFrame_run (h : k.frames f = some fr) : (getFrame f).run k = .ok (fr, k) := by
  rw [getFrame, read_bind, h]
  rfl

theorem getPage_run {a : Nat} {spg : SuppPage π} (h : k.pages a = some spg) :
    (getPage a).run k = .ok (spg, k) := by
  rw [getPage, read_bind, h]
  rfl

theorem deref_run {o : Option α} {x : α} (h : o = some x) : (deref o).run k = .ok (x, k) := by
  rw [h]
  rfl

theorem allocate_ensures {Q : Option Nat → Vm π → Prop} :
    Ensures allocate k Q ↔
      Q (if k.malloc k.brk then some k.brk else none) { k with brk := k.brk + 1 } := by
  simp only [allocate, ensures_bind, ensures_read, ensures_update, id]
  split <;> simp

/-! ### `frame_evict` -/

section Frames

variable [DecidableEq π]

/-- The frame is gone, and its page is not present any more. -/
def released (k : Vm π) (f : Nat) (fr : Frame) (spg : SuppPage π) : Vm π :=
  { k.setPte spg.pd spg.vaddr { k.pte spg.pd spg.vaddr with present := false } with
    frameTable := k.frameTable.erase f
    frames := update k.frames f none
    used := update k.used fr.physAddr false
    mem := update k.mem fr.physAddr (fun _ => 0xcc) }

variable {spg : SuppPage π} {a fil : Nat} {p : π} {size offset : Int} {pinned : Bool}

theorem frameFree_ensures :
    Ensures (frameFree (some f)) k (fun code k' => code = 0 ∧ ∃ fr a spg,
      k.frames f = some fr ∧ fr.page = some a ∧ k.pages a = some spg ∧
      k.used fr.physAddr = true ∧ k' = k.released f fr spg) := by
  simp only [frameFree, ensures_bind, getFrame_ensures, ensures_update, deref_ensures,
    getPage_ensures, pagedirClearPage, pallocFreePage, ensures_assert, ensures_read, dropFrame,
    ensures_pure]
  intro fr hfr a ha spg hspg _ _ hused
  exact ⟨trivial, fr, a, spg, hfr, ha, hspg, hused, rfl⟩

/-- What the `switch` of `frame_evict` does with the contents `d` of a page. -/
inductive WrittenOut (k : Vm π) (a : Nat) (spg : SuppPage π) (d : PageData) :
    Vm π → SuppPage π → Prop where
  /-- A page of a file that has not been written to. -/
  | clean (type : spg.type = .filesys) (dirty : (k.pte spg.pd spg.vaddr).dirty = false) :
    WrittenOut k a spg d k spg
  /-- A page of a file that has been written to. -/
  | file (fil : Nat) (n : Int) (files : Files) (type : spg.type = .filesys)
    (dirty : (k.pte spg.pd spg.vaddr).dirty = true) (file : spg.fil = some fil)
    (write : k.files.writeAt fil d spg.bytes spg.offset = .ok (n, files)) :
    WrittenOut k a spg d
      ({ k with files := files }.setPte spg.pd spg.vaddr
        { k.pte spg.pd spg.vaddr with dirty := false }) spg
  /-- A page of swap. -/
  | swap (s : Nat) (type : spg.type = .swapslot)
    (slot : firstFree k.inUse (numSlots k.swapTable) = some s) :
    WrittenOut k a spg d
      { k with
        inUse := update k.inUse s true
        swapTable := putSlot k.swapTable s d
        pages := update k.pages a (some { spg with swap := some s }) }
      { spg with swap := some s }

omit [DecidableEq π] in
theorem fileWriteAt_ensures :
    Ensures (fileWriteAt fil kpage size offset) k (fun n k' => ∃ files,
      k.files.writeAt fil (k.mem kpage) size offset = .ok (n, files) ∧
      k' = { k with files := files }) := by
  intro n k' h
  simp only [fileWriteAt] at h
  split at h
  · rename_i n' files heq
    cases h
    exact ⟨files, heq, rfl⟩
  · cases h

theorem writeOut_ensures (hfr : k.frames f = some fr) :
    Ensures (writeOut f a spg) k (fun _ k' => ∃ spg',
      WrittenOut k a spg (k.mem fr.physAddr) k' spg') := by
  simp only [writeOut, ensures_bind, getFrame_ensures, hfr, Option.some.injEq, forall_eq']
  cases htype : spg.type with
  | filesys =>
    simp only [ensures_bind, ensures_read]
    split_ifs with hdirty
    · simp only [ensures_bind, deref_ensures]
      intro fil hfil
      refine fileWriteAt_ensures.mono (fun n k₁ hk₁ => ?_)
      obtain ⟨files, hwrite, rfl⟩ := hk₁
      simp only [pagedirClean, ensures_update]
      exact ⟨spg, .file fil n files htype hdirty hfil hwrite⟩
    · exact ensures_pure.mpr ⟨spg, .clean htype (by simpa using hdirty)⟩
  | swapslot =>
    simp only [ensures_bind]
    refine swapPutPage_ensures.mono (fun s k₁ hk₁ => ?_)
    obtain ⟨hslot, rfl⟩ := hk₁
    simp only [setPage, ensures_update]
    rw [← htype]
    exact ⟨_, .swap s htype hslot⟩

/-- The frame is marked. -/
def markEvicting (k : Vm π) (f : Nat) (fr : Frame) : Vm π :=
  { k with frames := update k.frames f (some { fr with evicting := true }) }

/-- `frame_evict` of the frame `f`, in which the page `a` is. -/
structure Evicts (k : Vm π) (f : Nat) (fr : Frame) (a : Nat) (spg : SuppPage π) (k₁ : Vm π)
    (spg₁ : SuppPage π) (k' : Vm π) : Prop where
  frame : k.frames f = some fr
  page : fr.page = some a
  entry : k.pages a = some spg
  back : spg.fr = some f
  out : WrittenOut (k.markEvicting f fr) a spg (k.mem fr.physAddr) k₁ spg₁
  used : k.used fr.physAddr = true
  result : k' = { k₁.released f fr spg₁ with
    pages := update k₁.pages a (some { spg₁ with fr := none }) }

/-- The `switch` does not touch the frames and the pool, and leaves the page as it says. -/
theorem WrittenOut.kept {k' : Vm π} {spg' : SuppPage π} {d : PageData}
    (h : WrittenOut k a spg d k' spg') (hspg : k.pages a = some spg) :
    k'.frames = k.frames ∧ k'.used = k.used ∧ k'.pages a = some spg' := by
  cases h with
  | clean | file => exact ⟨rfl, rfl, hspg⟩
  | swap => exact ⟨rfl, rfl, update_self _ _ _⟩

theorem frameEvict_ensures :
    Ensures (frameEvict f) k (fun _ k' => ∃ fr a spg k₁ spg₁, Evicts k f fr a spg k₁ spg₁ k') := by
  simp only [frameEvict, ensures_bind, getFrame_ensures, setFrame, ensures_update, deref_ensures,
    getPage_ensures, ensures_assert]
  intro fr hfr a ha spg hspg hback fr' hfr' _
  rw [update_self] at hfr'
  cases hfr'
  refine (writeOut_ensures (update_self _ _ _)).mono (fun _ k₁ hk₁ => ?_)
  obtain ⟨spg₁, hout⟩ := hk₁
  obtain ⟨hframes, hused, hpages⟩ := hout.kept hspg
  refine frameFree_ensures.mono (fun code k₂ hk₂ => ?_)
  obtain ⟨-, fr₂, a₂, spg₂, hfr₂, ha₂, hspg₂, hused₂, rfl⟩ := hk₂
  -- the frame and the page are read again, and are the same
  have hmarked := (congrFun hframes f).trans (update_self _ _ _)
  cases hmarked.symm.trans hfr₂
  cases ha.symm.trans ha₂
  cases hpages.symm.trans hspg₂
  rw [hused] at hused₂
  intro _ spg₃ hspg₃
  cases hpages.symm.trans hspg₃
  simp only [setPage, ensures_update]
  exact ⟨fr, a, spg, k₁, spg₁, hfr, ha, hspg, hback, hout, hused₂, rfl⟩

/-! ### `frame_choose_victim` -/

/-- Two entries that differ at most in `PTE_A`. -/
def Pte.Same (e e' : Pte) : Prop := e' = { e with accessed := e'.accessed }

/-- The order of the frame table and the accessed bits are others, and `out` have been taken from
    the table. -/
structure Reordered (k : Vm π) (out : List Nat) (k' : Vm π) : Prop where
  table : k.frameTable.Perm (out ++ k'.frameTable)
  pte : ∀ p v, Pte.Same (k.pte p v) (k'.pte p v)
  result : k' = { k with
    frameTable := k'.frameTable
    pte := k'.pte
    kaccessed := k'.kaccessed }

omit [DecidableEq π] in
theorem Reordered.trans {k₁ k' : Vm π} {out : List Nat} (h : Reordered k [] k₁)
    (h' : Reordered k₁ out k') : Reordered k out k' where
  table := h.table.trans h'.table
  pte p v := by
    have h₁ := h.pte p v
    have h₂ := h'.pte p v
    unfold Pte.Same at h₁ h₂ ⊢
    rw [h₂, h₁]
  result := by
    rw [h'.result, h.result]

/-- `frame_choose_victim` takes a frame from the table that is neither pinned nor being evicted. -/
structure Chosen (k : Vm π) (f : Nat) (k' : Vm π) : Prop where
  reordered : Reordered k [f] k'
  frame : ∃ fr a spg, k.frames f = some fr ∧ fr.page = some a ∧ k.pages a = some spg ∧
    fr.pinned = 0 ∧ fr.evicting = false

theorem chooseVictim_ensures (fuel : Nat) (k : Vm π) :
    Ensures (chooseVictim fuel) k (fun f k' => Chosen k f k') := by
  induction fuel generalizing k with
  | zero => exact ensures_stop
  | succ fuel ih =>
    simp only [chooseVictim, ensures_bind, ensures_read]
    split
    · exact ensures_stop
    · rename_i f rest htable
      simp only [ensures_bind, ensures_update, getFrame_ensures, deref_ensures, getPage_ensures,
        ensures_read]
      intro fr hfr a ha spg hspg
      split_ifs with hspared
      · -- the frame goes to the back
        simp only [ensures_bind, ensures_update, pagedirUnaccess]
        refine (ih _).mono (fun g k' hchosen => ?_)
        obtain ⟨hreordered, hframe⟩ := hchosen
        refine ⟨Reordered.trans ⟨?_, ?_, rfl⟩ hreordered, hframe⟩
        · rw [htable]
          exact (perm_append_singleton f rest).symm
        · intro p v
          simp only [setPte, Pte.Same]
          split_ifs with hpv
          · obtain ⟨rfl, rfl⟩ := hpv
            rfl
          · rfl
      · refine ensures_pure.mpr ⟨⟨?_, fun p v => rfl, rfl⟩, fr, a, spg, hfr, ha, hspg, ?_⟩
        · rw [htable]
          exact List.Perm.refl _
        · simp only [spared, Bool.or_eq_true, decide_eq_true_eq, not_or] at hspared
          exact ⟨by simpa using hspared.2, by simpa using hspared.1.2⟩

theorem frameChooseVictim_ensures : Ensures frameChooseVictim k (fun f k' => Chosen k f k') := by
  simp only [frameChooseVictim, ensures_bind, ensures_read]
  exact chooseVictim_ensures _ _

/-! ### `frame_create` -/

/-- A page of the pool is free, or a frame is evicted for it. -/
inductive MakesRoom (k : Vm π) : Vm π → Prop where
  | free : MakesRoom k k
  | evict (f : Nat) (k₀ : Vm π) (fr : Frame) (a : Nat) (spg : SuppPage π) (k₁ : Vm π)
    (spg₁ : SuppPage π) (k' : Vm π) (chosen : Chosen k f k₀)
    (evicts : Evicts k₀ f fr a spg k₁ spg₁ k') : MakesRoom k k'

/-- `frame_create`: the new frame `f` for the page `kpage` of the pool, when there is room in
    `k₀`. -/
structure Creates (k : Vm π) (pinned : Bool) (k₀ : Vm π) (kpage f : Nat) (k' : Vm π) : Prop where
  room : MakesRoom k k₀
  page : firstFree k₀.used k₀.poolSize = some kpage
  malloc : k₀.malloc k₀.brk = true
  new : f = k₀.brk
  result : k' = { k₀ with
    used := update k₀.used kpage true
    mem := update k₀.mem kpage Bytes.zero
    brk := k₀.brk + 1
    frames := update k₀.frames f (some ⟨kpage, none, if pinned then 1 else 0, false⟩)
    frameTable := k₀.frameTable ++ [f] }

omit [DecidableEq π] in
theorem pallocGetPage_ensures :
    Ensures pallocGetPage k (fun o k' => o = firstFree k.used k.poolSize ∧ k' =
      match o with
      | some kpage => { k with
        used := update k.used kpage true
        mem := update k.mem kpage Bytes.zero }
      | none => k) := by
  simp only [pallocGetPage, ensures_bind, ensures_read]
  cases h : firstFree k.used k.poolSize with
  | none => simp
  | some kpage => simp only [ensures_bind, ensures_update, ensures_pure, and_self]

theorem evictFor_ensures :
    Ensures (pallocGetPage >>= evictFor) k (fun o k' => ∃ k₀, MakesRoom k k₀ ∧
      o = firstFree k₀.used k₀.poolSize ∧ k' = match o with
        | some kpage => { k₀ with
          used := update k₀.used kpage true
          mem := update k₀.mem kpage Bytes.zero }
        | none => k₀) := by
  rw [ensures_bind]
  refine pallocGetPage_ensures.mono (fun o k₁ hk₁ => ?_)
  obtain ⟨ho, rfl⟩ := hk₁
  cases o with
  | some kpage => exact ensures_pure.mpr ⟨k, .free, ho, rfl⟩
  | none =>
    simp only [evictFor, ensures_bind]
    refine frameChooseVictim_ensures.mono (fun f k₀ hchosen => ?_)
    refine frameEvict_ensures.mono (fun _ k₂ hk₂ => ?_)
    obtain ⟨fr, a, spg, k₁, spg₁, hevicts⟩ := hk₂
    refine pallocGetPage_ensures.mono (fun o k₃ hk₃ => ?_)
    exact ⟨k₂, .evict f k₀ fr a spg k₁ spg₁ k₂ hchosen hevicts, hk₃⟩

theorem frameCreate_ensures :
    Ensures (frameCreate pinned) k (fun f k' => ∃ k₀ kpage, Creates k pinned k₀ kpage f k') := by
  rw [frameCreate, ← bind_assoc]
  refine evictFor_ensures.bind (fun o k₁ hk₁ => ?_)
  obtain ⟨k₀, hmakes, ho, rfl⟩ := hk₁
  cases o with
  | none => exact ensures_stop
  | some kpage =>
    simp only [ensures_bind, allocate_ensures, deref_ensures, setFrame, ensures_update,
      ensures_pure]
    intro f hf
    split_ifs at hf with hmalloc
    cases hf
    exact ⟨k₀, kpage, hmakes, ho.symm, hmalloc, rfl, rfl⟩

/-! ### `page_to_new_frame` -/

/-- What the `switch` of `page_to_new_frame` does, in the process `p`. -/
inductive Populated (k : Vm π) (p : π) (a : Nat) (spg : SuppPage π) (kpage : Nat) :
    Vm π → Prop where
  /-- A page of a file. -/
  | file (fil : Nat) (d : PageData) (type : spg.type = .filesys) (file : spg.fil = some fil)
    (read : k.files.readAt fil (k.mem kpage) spg.bytes spg.offset = .ok (spg.bytes, d))
    (keep : ¬ (spg.wr = true ∧ spg.fil = k.exe p)) :
    Populated k p a spg kpage { k with mem := update k.mem kpage d }
  /-- A writable page of the executable, which becomes a page of swap. -/
  | convert (fil : Nat) (d : PageData) (type : spg.type = .filesys) (file : spg.fil = some fil)
    (read : k.files.readAt fil (k.mem kpage) spg.bytes spg.offset = .ok (spg.bytes, d))
    (wr : spg.wr = true) (exe : spg.fil = k.exe p) :
    Populated k p a spg kpage { k with
      mem := update k.mem kpage d
      pages := update k.pages a (some { spg with
        type := .swapslot
        fil := none
        offset := 0
        bytes := 0
        swap := none }) }
  /-- A page of swap. -/
  | swap (s : Nat) (type : spg.type = .swapslot) (slot : spg.swap = some s) :
    Populated k p a spg kpage { k with
      inUse := update k.inUse s false
      mem := update k.mem kpage (slotData k.swapTable s) }

section

omit [DecidableEq π]

theorem fileReadAt_ensures :
    Ensures (fileReadAt fil kpage size offset) k (fun n k' => ∃ d,
      k.files.readAt fil (k.mem kpage) size offset = .ok (n, d) ∧
      k' = { k with mem := update k.mem kpage d }) := by
  intro n k' h
  simp only [fileReadAt] at h
  split at h
  · rename_i n' d heq
    cases h
    exact ⟨d, heq, rfl⟩
  · cases h

theorem populate_ensures :
    Ensures (populate p a spg kpage) k (fun _ k' => Populated k p a spg kpage k') := by
  unfold populate
  split
  · rename_i htype
    simp only [populateFile, ensures_bind, deref_ensures]
    intro fil hfil
    refine fileReadAt_ensures.mono (fun n k₁ hk₁ => ?_)
    obtain ⟨d, hread, rfl⟩ := hk₁
    split_ifs with hn
    · exact ensures_stop
    · rw [ne_eq, not_not] at hn
      subst hn
      simp only [ensures_bind, ensures_read]
      split_ifs with hexe
      · simp only [setPage, ensures_update]
        exact .convert fil d htype hfil hread hexe.1 hexe.2
      · exact ensures_pure.mpr (.file fil d htype hfil hread hexe)
  · rename_i htype
    refine swapRetrievePage_ensures.mono (fun _ k₁ hk₁ => ?_)
    obtain ⟨s, hs, rfl⟩ := hk₁
    exact .swap s htype hs

end

/-- The frame and the page point to each other. -/
def attached (k : Vm π) (f : Nat) (fr : Frame) (a : Nat) (spg : SuppPage π) : Vm π :=
  { k with
    frames := update k.frames f (some { fr with page := some a })
    pages := update k.pages a (some { spg with fr := some f }) }

/-- `page_to_new_frame` of the page `a`, in the process `p`: it is in the new frame `f`. -/
structure PagesIn (k : Vm π) (p : π) (a : Nat) (pinned : Bool) (k₀ : Vm π) (kpage f : Nat)
    (k₁ : Vm π) (spg : SuppPage π) (k₂ k' : Vm π) : Prop where
  absent : ∀ old g, k.pages a = some old → old.fr = some g →
    ∃ fr, k.frames g = some fr ∧ fr.evicting = true
  creates : Creates k pinned k₀ kpage f k₁
  entry : k₁.pages a = some spg
  populated : Populated (k₁.attached f ⟨kpage, none, if pinned then 1 else 0, false⟩ a spg) p a
    { spg with fr := some f } kpage k₂
  unmapped : (k₂.pte spg.pd spg.vaddr).present = false
  aligned : pgOfs spg.vaddr = 0
  user : isUserVaddr spg.vaddr
  result : k' = k₂.setPte spg.pd spg.vaddr ⟨true, kpage, spg.wr, false, false⟩

omit [DecidableEq π] in
theorem notResident_ensures {o : Option Nat} :
    Ensures (notResident o) k (fun r k' => k' = k ∧
      (r = true → ∀ g, o = some g → ∃ fr, k.frames g = some fr ∧ fr.evicting = true)) := by
  cases o with
  | none => simp [notResident]
  | some g =>
    simp only [notResident, ensures_bind, getFrame_ensures, ensures_pure]
    intro fr hfr
    refine ⟨trivial, fun hr g' hg' => ?_⟩
    cases hg'
    exact ⟨fr, hfr, hr⟩

theorem pageToNewFrame_ensures :
    Ensures (pageToNewFrame p a pinned) k (fun f k' => ∃ k₀ kpage k₁ spg k₂,
      PagesIn k p a pinned k₀ kpage f k₁ spg k₂ k') := by
  simp only [pageToNewFrame, ensures_bind, getPage_ensures]
  intro old hold
  refine notResident_ensures.mono (fun r k₀ hk₀ => ?_)
  obtain ⟨rfl, habsent⟩ := hk₀
  simp only [ensures_assert]
  intro hr
  refine frameCreate_ensures.mono (fun f k₁ hk₁ => ?_)
  obtain ⟨k₀, kpage, hcreates⟩ := hk₁
  have hframe : k₁.frames f = some ⟨kpage, none, if pinned then 1 else 0, false⟩ := by
    rw [hcreates.result]
    exact update_self _ _ _
  simp only [getFrame_ensures, hframe, Option.some.injEq, forall_eq', setFrame, setPage,
    ensures_update]
  intro spg hspg
  refine populate_ensures.mono (fun _ k₂ hk₂ => ?_)
  simp only [pagedirSetPage, ensures_bind, ensures_assert, ensures_read, ensures_update,
    ensures_pure]
  intro haligned huser hunmapped
  refine ⟨k₀, kpage, k₁, spg, k₂, ?_, hcreates, hspg, hk₂, hunmapped, haligned, huser, rfl⟩
  intro old' g hold' hg
  cases hold.symm.trans hold'
  exact habsent hr g hg

/-! ### Entering and freeing pages -/

/-- `allocate_supp_page`: the page `a` is in the table of `p`. -/
structure Registers (k : Vm π) (p : π) (vaddr : Nat) (spg : SuppPage π) (a : Nat) (k' : Vm π) :
    Prop where
  user : isUserVaddr vaddr
  aligned : pgOfs vaddr = 0
  new : k.lookup p vaddr = none
  malloc : k.malloc k.brk = true
  address : a = k.brk
  result : k' = { k.setPte p vaddr { k.pte p vaddr with dirty := false } with
    brk := k.brk + 1
    pages := update k.pages a (some spg)
    table := update k.table p (a :: k.table p) }

theorem allocateSuppPage_ensures {vaddr : Nat} :
    Ensures (allocateSuppPage p vaddr spg) k (fun a k' => Registers k p vaddr spg a k') := by
  simp only [allocateSuppPage, getSuppPage, ensures_bind, ensures_assert, ensures_read,
    allocate_ensures, deref_ensures, pagedirClean, ensures_update, ensures_pure]
  intro huser haligned _ _ hnew a ha
  split_ifs at ha with hmalloc
  cases ha
  exact ⟨huser, haligned, hnew, hmalloc, rfl, rfl⟩

/-- `grow_stack`: a new page `a` in the new frame `f`, where `ok` is what `install_page` returns. -/
structure Grows (k : Vm π) (p : π) (upage : Nat) (k₀ : Vm π) (kpage f : Nat) (k₁ : Vm π) (a : Nat)
    (k₂ : Vm π) (ok : Bool) (k' : Vm π) : Prop where
  creates : Creates k false k₀ kpage f k₁
  registers : Registers k₁ p upage ⟨some f, p, upage, .swapslot, true, none, 0, 0, none⟩ a k₂
  installed : ok = !(k₂.pte p upage).present
  result : k' =
    let attached := { k₂ with
      frames := update k₂.frames f (some ⟨kpage, some a, 0, false⟩) }
    if ok then attached.setPte p upage ⟨true, kpage, true, false, false⟩ else attached

theorem growStack_ensures {upage : Nat} :
    Ensures (growStack p upage) k (fun ok k' => ∃ k₀ kpage f k₁ a k₂,
      Grows k p upage k₀ kpage f k₁ a k₂ ok k') := by
  simp only [growStack, ensures_bind]
  refine frameCreate_ensures.mono (fun f k₁ hk₁ => ?_)
  obtain ⟨k₀, kpage, hcreates⟩ := hk₁
  refine allocateSuppPage_ensures.mono (fun a k₂ hk₂ => ?_)
  have hframe : k₂.frames f = some ⟨kpage, none, 0, false⟩ := by
    rw [hk₂.result]
    show k₁.frames f = _
    rw [hcreates.result]
    exact update_self _ _ _
  simp only [getFrame_ensures, hframe, Option.some.injEq, forall_eq', setFrame, ensures_update,
    ensures_assert, ensures_read]
  intro haligned huser
  split_ifs with hpresent
  · refine ensures_pure.mpr ⟨k₀, kpage, f, k₁, a, k₂, hcreates, hk₂, ?_, rfl⟩
    rw [hpresent]
    rfl
  · simp only [pagedirSetPage, ensures_bind, ensures_assert, ensures_read, ensures_update,
      ensures_pure]
    intro _ _ hunmapped
    refine ⟨k₀, kpage, f, k₁, a, k₂, hcreates, hk₂, ?_, rfl⟩
    rw [hunmapped]
    rfl

/-- What `free_action_func` does with the frame of a page. -/
inductive Vacated (k : Vm π) (spg : SuppPage π) : Vm π → Prop where
  /-- The page is not in a frame. -/
  | absent (fr : spg.fr = none) : Vacated k spg k
  /-- The frame of a page of a file is evicted. -/
  | evict (f : Nat) (fr : Frame) (b : Nat) (pg : SuppPage π) (k₁ : Vm π) (pg₁ : SuppPage π)
    (k' : Vm π) (type : spg.type = .filesys) (held : spg.fr = some f)
    (evicts : Evicts k f fr b pg k₁ pg₁ k') : Vacated k spg k'
  /-- The frame of a page of swap is freed. -/
  | free (f : Nat) (fr : Frame) (b : Nat) (pg : SuppPage π) (type : spg.type = .swapslot)
    (held : spg.fr = some f) (frame : k.frames f = some fr) (page : fr.page = some b)
    (entry : k.pages b = some pg) (used : k.used fr.physAddr = true) :
    Vacated k spg (k.released f fr pg)

/-- The slot of a page of swap is marked free, if it has one. -/
def forgetSlot (k : Vm π) (spg : SuppPage π) : Vm π :=
  match spg.type, spg.swap with
  | .swapslot, some s => { k with inUse := update k.inUse s false }
  | _, _ => k

/-- `free_action_func` of the page `a`, in the process `p`. -/
structure Frees (k : Vm π) (p : π) (a : Nat) (spg : SuppPage π) (k₁ : Vm π) (spg₁ : SuppPage π)
    (k' : Vm π) : Prop where
  entry : k.pages a = some spg
  vacated : Vacated k spg k₁
  again : k₁.pages a = some spg₁
  result : k' = { (k₁.forgetSlot spg₁).setPte p spg₁.vaddr
      { k₁.pte p spg₁.vaddr with present := false } with
    pages := update k₁.pages a none }

theorem vacate_ensures : Ensures (vacate spg) k (fun _ k₁ => Vacated k spg k₁) := by
  unfold vacate
  split
  · rename_i f hfr htype
    refine frameEvict_ensures.mono (fun _ k₁ hk₁ => ?_)
    obtain ⟨fr, b, pg, k₂, pg₂, hevicts⟩ := hk₁
    exact .evict f fr b pg k₂ pg₂ k₁ htype hfr hevicts
  · rename_i f hfr htype
    simp only [ensures_bind, ensures_pure]
    refine frameFree_ensures.mono (fun _ k₁ hk₁ => ?_)
    obtain ⟨-, fr, b, pg, hframe, hpage, hentry, hused, rfl⟩ := hk₁
    exact .free f fr b pg htype hfr hframe hpage hentry hused
  · rename_i hfr
    exact ensures_pure.mpr (.absent hfr)

section

omit [DecidableEq π]

theorem removeSwap_ensures : Ensures (removeSwap spg) k (fun _ k' => k' = k.forgetSlot spg) := by
  cases htype : spg.type with
  | filesys => simp [removeSwap, forgetSlot, htype]
  | swapslot =>
    cases hswap : spg.swap with
    | none => simp [removeSwap, forgetSlot, htype, hswap]
    | some s => simp [removeSwap, forgetSlot, htype, hswap, swapRemovePage, ensures_bind, deref]

/-- Nothing but the slot changes. -/
theorem forgetSlot_eq (k : Vm π) (spg : SuppPage π) :
    k.forgetSlot spg = { k with inUse := (k.forgetSlot spg).inUse } := by
  unfold forgetSlot
  split <;> rfl

end

theorem freeActionFunc_ensures :
    Ensures (freeActionFunc p a) k (fun _ k' => ∃ spg k₁ spg₁, Frees k p a spg k₁ spg₁ k') := by
  simp only [freeActionFunc, ensures_bind, getPage_ensures]
  intro spg hspg
  refine vacate_ensures.mono (fun _ k₁ hk₁ => ?_)
  intro spg₁ hspg₁
  refine removeSwap_ensures.mono (fun _ k₂ hk₂ => ?_)
  subst hk₂
  simp only [pagedirClearPage, dropPage, ensures_bind, ensures_assert, ensures_update]
  intro _ _
  refine ⟨spg, k₁, spg₁, hspg, hk₁, hspg₁, ?_⟩
  rw [forgetSlot_eq]
  rfl

end Frames

end Vm

end KernelSanders

import KernelSanders.Vm.SwapSlots

namespace KernelSanders

open Lib Lib.Exec
open Function hiding update
open Bytes

/-!
# Paging keeps the contents of a page

What the program of a process has stored in a page is in the frame of the page while it is
resident, and elsewhere in its slot or in its file (`PageHolds`).  A page of a file is written back
only if it is dirty, so as long as it is clean the file has the same bytes.  A writable page of the
executable becomes a page of swap when it is first brought in, and is not written back.

A page of a memory-mapped file is written back to the file, and if the inode denies writes then
nothing is written and the stores are lost.  So the contents of a page are kept as long as no dirty
page is on an inode that denies writes.
-/

variable {j : Nat}

namespace Files

variable {fs fs' : Files} {fil : Nat} {buffer d : PageData} {size offset n : Int}

theorem length_taken (buffer : PageData) (m : Nat) : (taken buffer m).length = m := by
  simp [taken]

/-- A write changes no byte outside its range. -/
theorem writeAt_outside (h : fs.writeAt fil buffer size offset = .ok (n, fs')) :
    fs'.inode = fs.inode ∧ ∀ fil' x,
      ¬ (fs.inode fil' = fs.inode fil ∧ offset.toNat ≤ x ∧ x < offset.toNat + size.toNat) →
      (fs'.content fil').getD x 0 = (fs.content fil').getD x 0 := by
  unfold writeAt at h
  split_ifs at h with hdeny hrange
  · cases h
    exact ⟨rfl, fun _ _ _ => rfl⟩
  · cases h
    refine ⟨rfl, fun fil' x hx => ?_⟩
    simp only [content, update_apply]
    split_ifs with hinode
    · rw [hinode, getD_splice, length_taken, if_neg]
      exact fun hin => hx ⟨hinode, hin⟩
    · rfl

/-- A write that is not denied puts its bytes into the file. -/
theorem writeAt_inside (h : fs.writeAt fil buffer size offset = .ok (n, fs'))
    (hdeny : fs.denyWriteCnt (fs.inode fil) = 0) (hj : j < size.toNat) :
    (fs'.content fil).getD (offset.toNat + j) 0 = buffer.byte j := by
  unfold writeAt at h
  rw [if_neg (by simpa using hdeny)] at h
  split_ifs at h with hrange
  cases h
  simp only [content, update_self]
  rw [getD_splice, length_taken, if_pos ⟨by omega, by omega⟩, taken, List.getD_eq_getElem?_getD]
  simp [hj]

/-- A page that has been read in full, over zeros. -/
theorem readAt_bytes (h : fs.readAt fil zero size offset = .ok (size, d)) (hj : j < 4096) :
    d.byte j = if j < size.toNat then (fs.content fil).getD (offset.toNat + j) 0 else 0 := by
  unfold readAt at h
  split_ifs at h with hsize hrange
  · cases h
    rw [if_neg (by simp)]
    exact byte_zero j
  · simp only [Except.ok.injEq, Prod.mk.injEq] at h
    obtain ⟨hcount, rfl⟩ := h
    rw [byte_copyIn _ _ _ _ hj]
    have hmin : min size.toNat ((fs.content fil).length - offset.toNat) = size.toNat := by omega
    rw [hmin]
    simp

end Files

namespace Vm

variable {π : Type}

/-- `pagedir_is_dirty (spg->pd, spg->vaddr)`. -/
def dirty (k : Vm π) (spg : SuppPage π) : Bool := (k.pte spg.pd spg.vaddr).dirty

/-- A writable page that is not of the executable. -/
def Mapped (k : Vm π) (spg : SuppPage π) : Prop := spg.wr = true ∧ spg.fil ≠ k.exe spg.pd

/-- How many bytes of a page are kept: of a memory-mapped page, those that are in the file. -/
def keptBytes (spg : SuppPage π) : Nat :=
  if spg.type = .filesys ∧ spg.wr = true then spg.bytes.toNat else 4096

/-- The contents `d` are where they have to be. -/
structure PageHolds (k : Vm π) (d : PageData) (spg : SuppPage π) : Prop where
  resident : ∀ f fr, spg.fr = some f → k.frames f = some fr → ∀ j, j < keptBytes spg → j < 4096 →
    (k.mem fr.physAddr).byte j = d.byte j
  slot : spg.type = .swapslot → spg.fr = none →
    ∃ s, spg.swap = some s ∧ slotData k.swapTable s = d
  file : spg.type = .filesys → k.dirty spg = false → ∀ fil, spg.fil = some fil →
    ∀ j, j < spg.bytes.toNat → j < 4096 →
      (k.files.content fil).getD (spg.offset.toNat + j) 0 = d.byte j
  zeros : spg.type = .filesys → ¬ k.Mapped spg → ∀ j, spg.bytes.toNat ≤ j → d.byte j = 0
  unloaded : spg.type = .filesys → spg.wr = true → spg.fil = k.exe spg.pd → spg.fr = none
  clean : spg.type = .filesys → spg.fr = none → k.dirty spg = false

/-- A page of swap. -/
theorem PageHolds.of_swapslot {k : Vm π} {d : PageData} {spg : SuppPage π}
    (type : spg.type = .swapslot)
    (hresident : ∀ f fr, spg.fr = some f → k.frames f = some fr → k.mem fr.physAddr = d)
    (hslot : spg.fr = none → ∃ s, spg.swap = some s ∧ slotData k.swapTable s = d) :
    PageHolds k d spg where
  resident f fr hf hfr j _ _ := by rw [hresident f fr hf hfr]
  slot _ hfr := hslot hfr
  file htype := by cases type.symm.trans htype
  zeros htype := by cases type.symm.trans htype
  unloaded htype := by cases type.symm.trans htype
  clean htype := by cases type.symm.trans htype

/-- Where a page is has not changed. -/
structure Leaves (k : Vm π) (spg : SuppPage π) (k' : Vm π) : Prop where
  frame : ∀ f, spg.fr = some f → k'.frames f = k.frames f ∧
    ∀ fr, k.frames f = some fr → k'.mem fr.physAddr = k.mem fr.physAddr
  slot : spg.type = .swapslot → spg.fr = none → ∀ s, spg.swap = some s →
    slotData k'.swapTable s = slotData k.swapTable s
  file : spg.type = .filesys → ∀ fil, spg.fil = some fil → ∀ j, j < spg.bytes.toNat →
    (k'.files.content fil).getD (spg.offset.toNat + j) 0 =
      (k.files.content fil).getD (spg.offset.toNat + j) 0
  dirty : k'.dirty spg = k.dirty spg
  exe : k'.exe = k.exe

variable {k k₁ k' k₀ k₂ : Vm π} {spg spg₁ : SuppPage π} {d : PageData} {out : List Nat}
  {pinned : Bool} {kpage : Nat}

/-- A page that is left alone keeps its contents. -/
theorem PageHolds.leaves (h : PageHolds k d spg) (hl : Leaves k spg k') : PageHolds k' d spg where
  resident f fr hf hfr j hj hj' := by
    obtain ⟨hframes, hmem⟩ := hl.frame f hf
    rw [hframes] at hfr
    rw [hmem fr hfr]
    exact h.resident f fr hf hfr j hj hj'
  slot htype hfr := by
    obtain ⟨s, hs, hdata⟩ := h.slot htype hfr
    exact ⟨s, hs, (hl.slot htype hfr s hs).trans hdata⟩
  file htype hdirty fil hfil j hj hj' := by
    rw [hl.dirty] at hdirty
    rw [hl.file htype fil hfil j hj]
    exact h.file htype hdirty fil hfil j hj hj'
  zeros htype hmapped := h.zeros htype (by rwa [Mapped, ← hl.exe])
  unloaded htype hwr hexe := h.unloaded htype hwr (by rwa [← hl.exe])
  clean htype hfr := by
    rw [hl.dirty]
    exact h.clean htype hfr

/-! ### Nobody else writes to the file -/

/-- Two pages have bytes of a file in common. -/
def Overlaps (files : Files) (spg pg : SuppPage π) : Prop :=
  ∃ fil fil', spg.fil = some fil ∧ pg.fil = some fil' ∧ files.inode fil = files.inode fil' ∧
    spg.offset.toNat < pg.offset.toNat + pg.bytes.toNat ∧
    pg.offset.toNat < spg.offset.toNat + spg.bytes.toNat

/-- No other page that is to be written back has bytes in common with the page `a`. -/
def SoleWriter (k : Vm π) (a : Nat) : Prop :=
  ∀ spg, k.pages a = some spg → spg.type = .filesys → ∀ b pg, b ≠ a → k.pages b = some pg →
    pg.type = .filesys → k.dirty pg = true → ¬ Overlaps k.files spg pg

/-- The page `a` can be written back: if it is dirty, its inode does not deny writes. -/
def WriteAllowed (k : Vm π) (a : Nat) : Prop :=
  ∀ spg fil, k.pages a = some spg → spg.type = .filesys → k.dirty spg = true →
    spg.fil = some fil → k.files.denyWriteCnt (k.files.inode fil) = 0

instance (k : Vm π) (a : Nat) : Decidable (k.WriteAllowed a) :=
  decidable_of_iff
    (∀ spg ∈ k.pages a, spg.type = .filesys → k.dirty spg = true →
      ∀ fil ∈ spg.fil, k.files.denyWriteCnt (k.files.inode fil) = 0)
    ⟨fun h spg fil hspg type hdirty hfil => h spg hspg type hdirty fil hfil,
      fun h spg hspg type hdirty fil hfil => h spg fil hspg type hdirty hfil⟩

/-! ### Other pages -/

section Others

variable {a b f : Nat} {pg : SuppPage π} {fr : Frame}

/-- Two pages have different entries. -/
theorem entries_ne (hk : k.mapping.Sound) (ha : k.pages a = some spg) (hb : k.pages b = some pg)
    (hab : a ≠ b) : ¬ (spg.pd = pg.pd ∧ spg.vaddr = pg.vaddr) :=
  fun ⟨hpd, hv⟩ => hab (hk.keys a b _ _ (mapping_page ha) (mapping_page hb) hpd hv)

/-- The frame of a resident page. -/
theorem frame_of_page (hk : k.mapping.Sound) (ha : k.pages a = some spg) (hf : spg.fr = some f) :
    ∃ fr, k.frames f = some fr ∧ fr.page = some a ∧
      (k.pte spg.pd spg.vaddr).core = (true, fr.physAddr, spg.wr) := by
  obtain ⟨c, hc, hpage, hentry⟩ := hk.linked a spg.core f (mapping_page ha) hf
  obtain ⟨fr, hfr, rfl⟩ := exists_frame hc
  exact ⟨fr, hfr, hpage, hentry⟩

/-- Two resident pages are in different frames, on different pages of the pool. -/
theorem frames_ne (hk : k.mapping.Sound) (ha : k.pages a = some spg) (hf : spg.fr = some f)
    (hab : a ≠ b) {g : Nat} {gr : Frame} (hg : k.frames g = some gr) (hb : gr.page = some b) :
    f ≠ g ∧ ∀ fr, k.frames f = some fr → fr.physAddr ≠ gr.physAddr := by
  obtain ⟨fr, hfr, hpage, -⟩ := frame_of_page hk ha hf
  have hfg : f ≠ g := by
    intro hfg
    subst hfg
    cases hfr.symm.trans hg
    exact hab (Option.some.inj (hpage.symm.trans hb))
  refine ⟨hfg, fun fr' hfr' heq => hfg ?_⟩
  exact hk.apart f g _ _ (mapping_frame hfr') (mapping_frame hg) heq

variable {p : π} {pg₁ : SuppPage π}

/-- A page of the pool that is free is not used by a frame. -/
theorem frame_not_free (hk : k.mapping.Sound) (hfree : k.used kpage = false)
    (hfr : k.frames f = some fr) : fr.physAddr ≠ kpage := by
  intro heq
  have hused := (hk.calm f _ (mapping_frame hfr)).2
  rw [show fr.core.physAddr = kpage from heq] at hused
  cases hused.symm.trans hfree

variable [DecidableEq π]

theorem dirty_setPte_of_ne {v : Nat} {e : Pte} (h : ¬ (spg.pd = p ∧ spg.vaddr = v)) :
    (k.setPte p v e).dirty spg = k.dirty spg := by
  simp only [dirty, setPte, if_neg h]

omit [DecidableEq π] in
theorem leaves_reordered (h : Reordered k out k') : Leaves k spg k' := by
  have hdirty : k'.dirty spg = k.dirty spg := by
    rw [dirty, h.pte spg.pd spg.vaddr]
    rfl
  rw [h.result] at hdirty ⊢
  exact ⟨fun _ _ => ⟨rfl, fun _ _ => rfl⟩, fun _ _ _ _ => rfl, fun _ _ _ _ _ => rfl, hdirty, rfl⟩

section

variable (hev : Evicts k f fr b pg k₁ pg₁ k')
include hev

/-- The eviction of another page does not make a page dirty or clean. -/
theorem Evicts.dirty_of_ne (hk : k.mapping.Sound) (ha : k.pages a = some spg) (hab : a ≠ b) :
    k'.dirty spg = k.dirty spg := by
  have hne := entries_ne hk ha hev.entry hab
  have hreleased : k'.dirty spg = k₁.dirty spg := by
    rw [hev.result]
    refine dirty_setPte_of_ne ?_
    cases hev.out <;> exact hne
  rw [hreleased]
  cases hev.out with
  | clean | swap => rfl
  | file => exact dirty_setPte_of_ne hne

/-- A page of a file is clean when it has been evicted. -/
theorem Evicts.dirty_self (type : pg.type = .filesys) :
    k'.dirty { pg₁ with fr := none } = false := by
  have hreleased : k'.dirty { pg₁ with fr := none } = k₁.dirty pg₁ := by
    rw [hev.result]
    simp only [dirty, released, setPte, and_self, if_true]
  rw [hreleased]
  cases hev.out with
  | clean _ hclean => exact hclean
  | file => simp only [dirty, setPte, and_self, if_true]
  | swap s hswap => cases type.symm.trans hswap

/-- The page that has been evicted. -/
theorem Evicts.pages_self : k'.pages b = some { pg₁ with fr := none } := by
  rw [hev.result]
  exact update_self _ _ _

theorem Evicts.exe : k'.exe = k.exe := by
  rw [hev.result]
  cases hev.out <;> rfl

/-- The eviction of another page. -/
theorem Evicts.leaves (hk : k.mapping.Sound)
    (ho : k.SlotsOwned) (hs : k.SoleWriter a) (ha : k.pages a = some spg) (hab : a ≠ b) :
    Leaves k spg k' := by
  have hresult := hev.result
  constructor
  case frame =>
    intro g hg
    obtain ⟨hgf, hphys⟩ := frames_ne hk ha hg hab hev.frame hev.page
    have hframes : k'.frames g = k₁.frames g := by
      rw [hresult]
      exact update_of_ne hgf _ _
    have hmem : ∀ gr, k.frames g = some gr → k'.mem gr.physAddr = k₁.mem gr.physAddr := by
      intro gr hgr
      rw [hresult]
      exact update_of_ne (hphys gr hgr) _ _
    cases hev.out with
    | clean | file | swap =>
      exact ⟨hframes.trans (update_of_ne hgf _ _), fun gr hgr => hmem gr hgr⟩
  case slot =>
    intro htype hfr s hslot
    rw [hresult]
    cases hev.out with
    | clean | file => rfl
    | swap t _ hfree =>
      -- the slot of a page in swap is in use, so it is not taken
      apply slotData_putSlot_ne
      intro hst
      subst hst
      obtain ⟨s', hs', hinUse⟩ := ho.inUse a spg ⟨ha, htype, hfr⟩
      cases hslot.symm.trans hs'
      cases hinUse.symm.trans (firstFree_eq_some.mp hfree).2.1
  case file =>
    intro htype fil hfil j hj
    rw [hresult]
    cases hev.out with
    | clean | swap => rfl
    | file fil' n files type hdirty hfil' write =>
      refine (Files.writeAt_outside write).2 fil _ (fun ⟨hinode, hle, hlt⟩ => ?_)
      refine hs spg ha htype b pg (Ne.symm hab) hev.entry type hdirty ?_
      exact ⟨fil, fil', hfil, hfil', hinode, by omega, by omega⟩
  case dirty => exact hev.dirty_of_ne hk ha hab
  case exe => exact hev.exe

end

/-- Another page gets a new frame. -/
theorem Creates.leaves (h : Creates k pinned k₀ kpage f k₁) (hk : k₀.mapping.Sound)
    (ha : k₀.pages a = some spg) (hframes : ∀ g, g ≠ f → k'.frames g = k₀.frames g)
    (hmem : ∀ q, q ≠ kpage → k'.mem q = k₀.mem q) (hswap : k'.swapTable = k₀.swapTable)
    (hfiles : k'.files = k₀.files) (hdirty : k'.dirty spg = k₀.dirty spg)
    (hexe : k'.exe = k₀.exe) : Leaves k₀ spg k' := by
  refine ⟨fun g hg => ?_, fun _ _ _ _ => by rw [hswap], fun _ _ _ _ _ => by rw [hfiles], hdirty,
    hexe⟩
  obtain ⟨gr, hgr, -⟩ := frame_of_page hk ha hg
  have hgf : g ≠ f := by
    intro hgf
    have := (hk.fresh _ le_rfl).2
    rw [show k₀.mapping.brk = g from (hgf.trans h.new).symm, mapping_frame hgr] at this
    cases this
  refine ⟨hframes g hgf, fun fr hfr => hmem _ ?_⟩
  exact frame_not_free hk (firstFree_eq_some.mp h.page).2.1 hfr

theorem PagesIn.pages_of_ne (h : PagesIn k p b pinned k₀ kpage f k₁ pg k₂ k') (hab : a ≠ b) :
    k'.pages a = k₀.pages a := by
  have hresult := h.result
  cases h.populated <;>
    simp only [hresult, h.creates.result, setPte, attached, update_of_ne hab]

/-- Another page is brought in. -/
theorem PagesIn.leaves (h : PagesIn k p b pinned k₀ kpage f k₁ pg k₂ k') (hk : k₀.mapping.Sound)
    (ha : k₀.pages a = some spg) (hab : a ≠ b) : Leaves k₀ spg k' := by
  have hpg : k₀.pages b = some pg := by
    have := h.entry
    rwa [h.creates.result] at this
  have hk₁ := h.creates.result
  have hdirty : k'.dirty spg = k₂.dirty spg := by
    rw [h.result]
    exact dirty_setPte_of_ne (entries_ne hk ha hpg hab)
  have hresult := h.result
  cases h.populated with
  | file | convert | swap =>
    refine h.creates.leaves hk ha (fun g hg => ?_) (fun q hq => ?_) ?_ ?_ (hdirty.trans ?_) ?_
    all_goals simp only [hresult, hk₁, setPte, attached, dirty]
    · rw [update_of_ne hg, update_of_ne hg]
    · rw [update_of_ne hq, update_of_ne hq]

/-- Another page is entered in a table. -/
theorem Registers.leaves {vaddr : Nat} (h : Registers k p vaddr pg b k')
    (hne : ¬ (spg.pd = p ∧ spg.vaddr = vaddr)) : Leaves k spg k' := by
  rw [h.result]
  exact ⟨fun _ _ => ⟨rfl, fun _ _ => rfl⟩, fun _ _ _ _ => rfl, fun _ _ _ _ _ => rfl,
    dirty_setPte_of_ne hne, rfl⟩

end Others

/-! ### The page itself -/

section Page

variable {a f : Nat} {fr : Frame} [DecidableEq π]

/-- The page is evicted. -/
theorem PageHolds.evicts (h : PageHolds k d spg) (hev : Evicts k f fr a spg k₁ spg₁ k')
    (hw : k.WriteAllowed a) : PageHolds k' d { spg₁ with fr := none } := by
  have hresult := hev.result
  have hmem : ∀ j, j < keptBytes spg → j < 4096 → (k.mem fr.physAddr).byte j = d.byte j :=
    h.resident f fr hev.back hev.frame
  have hexe : k'.exe = k.exe := hev.exe
  cases hev.out with
  | clean type hclean =>
    have hfiles : k'.files = k.files := by
      rw [hresult]
      rfl
    refine ⟨fun g _ hg => (by cases hg), fun htype => ?_, fun _ _ => ?_, fun _ hmapped => ?_,
      fun _ _ _ => rfl, fun _ _ => hev.dirty_self type⟩
    · cases type.symm.trans htype
    · rw [hfiles]
      exact h.file type hclean
    · exact h.zeros type (by rwa [Mapped, ← hexe])
  | file fil n files type hdirty' hfil write =>
    have hfiles : k'.files = files := by
      rw [hresult]
      rfl
    have hdeny := hw spg fil hev.entry type hdirty' hfil
    refine ⟨fun g _ hg => (by cases hg), fun htype => ?_, fun _ _ fil' hfil' j hj hj' => ?_,
      fun _ hmapped => ?_, fun _ _ _ => rfl, fun _ _ => hev.dirty_self type⟩
    · cases type.symm.trans htype
    · cases hfil.symm.trans hfil'
      rw [hfiles]
      refine (Files.writeAt_inside write hdeny hj).trans (hmem j ?_ hj')
      unfold keptBytes
      split_ifs
      · exact hj
      · exact hj'
    · exact h.zeros type (by rwa [Mapped, ← hexe])
  | swap s type hfree =>
    refine .of_swapslot type (fun g _ hg => by cases hg) (fun _ => ⟨s, rfl, ?_⟩)
    have htable : k'.swapTable = putSlot k.swapTable s (k.mem fr.physAddr) := by
      rw [hresult]
      rfl
    rw [htable, slotData_putSlot]
    apply ext_byte
    intro j hj
    refine hmem j ?_ hj
    rw [keptBytes, if_neg (by rw [type]; simp)]
    exact hj

omit [DecidableEq π] in
/-- What is read from the file for a page that is not resident. -/
theorem PageHolds.read {fil : Nat} {page : PageData} (h : PageHolds k d spg)
    (type : spg.type = .filesys) (hfr : spg.fr = none) (hfil : spg.fil = some fil)
    (hread : k.files.readAt fil zero spg.bytes spg.offset = .ok (spg.bytes, page))
    (hj : j < 4096) (hin : j < spg.bytes.toNat ∨ ¬ k.Mapped spg) : page.byte j = d.byte j := by
  rw [Files.readAt_bytes hread hj]
  split_ifs with hbytes
  · exact h.file type (h.clean type hfr) fil hfil j hbytes hj
  · exact (h.zeros type (hin.resolve_left hbytes) j (by omega)).symm

/-- The page is brought in. -/
theorem PageHolds.pagesIn {p : π} (h : PageHolds k₀ d spg)
    (hin : PagesIn k p a pinned k₀ kpage f k₁ spg k₂ k') (hfr : spg.fr = none) (hpd : spg.pd = p) :
    ∃ spg', k'.pages a = some spg' ∧ spg'.fr = some f ∧ PageHolds k' d spg' ∧
      ∃ fr', k'.frames f = some fr' := by
  have hresult := hin.result
  have hk₁ := hin.creates.result
  have hframe : k'.frames f = some ⟨kpage, some a, if pinned then 1 else 0, false⟩ := by
    have : (k₁.attached f ⟨kpage, none, if pinned then 1 else 0, false⟩ a spg).frames f = _ :=
      update_self _ _ _
    rw [hresult]
    cases hin.populated <;> exact this
  have hzero : k₁.mem kpage = zero := by
    rw [hk₁]
    exact update_self _ _ _
  have hfiles : k₁.files = k₀.files := by rw [hk₁]
  have hread' : ∀ fil page, k₁.files.readAt fil (k₁.mem kpage) spg.bytes spg.offset =
      .ok (spg.bytes, page) →
      k₀.files.readAt fil zero spg.bytes spg.offset = .ok (spg.bytes, page) := by
    rw [hfiles, hzero]
    exact fun _ _ hread => hread
  have hexe : k₁.exe = k₀.exe := by rw [hk₁]
  cases hin.populated with
  | file fil page type hfil hread keep =>
    have hmem : k'.mem kpage = page := by
      rw [hresult]
      exact update_self _ _ _
    have hfiles' : k'.files = k₀.files := by
      rw [hresult, ← hfiles]
      rfl
    have hexe' : k'.exe = k₀.exe := by
      rw [hresult, ← hexe]
      rfl
    refine ⟨{ spg with fr := some f }, ?_, rfl, ⟨?_, fun htype => ?_, fun _ _ => ?_, fun _ hm => ?_,
      fun _ hwr hexe₁ => ?_, fun _ hnone => ?_⟩, _, hframe⟩
    · rw [hresult]
      exact update_self _ _ _
    · intro g gr hg hgr j hj hj'
      cases hg
      cases hframe.symm.trans hgr
      rw [hmem]
      refine h.read type hfr hfil (hread' fil page hread) hj' ?_
      by_cases hwr : spg.wr = true
      · rw [keptBytes, if_pos ⟨type, hwr⟩] at hj
        exact .inl hj
      · exact .inr (fun hm => hwr hm.1)
    · cases htype.symm.trans type
    · rw [hfiles']
      exact h.file type (h.clean type hfr)
    · exact h.zeros type (by rwa [Mapped, ← hexe'])
    · rw [hexe', ← hexe] at hexe₁
      exact absurd ⟨hwr, hpd ▸ hexe₁⟩ keep
    · cases hnone
  | convert fil page type hfil hread hwr hexe₁ =>
    have hmem : k'.mem kpage = page := by
      rw [hresult]
      exact update_self _ _ _
    have hmapped : ¬ k₀.Mapped spg := by
      intro hm
      apply hm.2
      rw [hpd, ← hexe]
      exact hexe₁
    refine ⟨{ spg with
      fr := some f, type := .swapslot, fil := none, offset := 0, bytes := 0, swap := none },
      ?_, rfl, .of_swapslot rfl (fun g gr hg hgr => ?_) (fun hnone => by cases hnone), _, hframe⟩
    · rw [hresult]
      exact update_self _ _ _
    · cases hg
      cases hframe.symm.trans hgr
      rw [hmem]
      apply ext_byte
      intro j hj
      exact h.read type hfr hfil (hread' fil page hread) hj (.inr hmapped)
  | swap s type hslot =>
    have hmem : k'.mem kpage = slotData k₁.swapTable s := by
      rw [hresult]
      exact update_self _ _ _
    have htable : k₁.swapTable = k₀.swapTable := by rw [hk₁]
    refine ⟨{ spg with fr := some f }, ?_, rfl,
      .of_swapslot type (fun g gr hg hgr => ?_) (fun hnone => by cases hnone), _, hframe⟩
    · rw [hresult]
      exact update_self _ _ _
    · cases hg
      cases hframe.symm.trans hgr
      obtain ⟨t, ht, hdata⟩ := h.slot type hfr
      cases hslot.symm.trans ht
      rw [hmem, htable, hdata]

end Page

/-! ### Steps -/

section Steps

variable {a f : Nat} {fr : Frame}

/-- The contents of the page `a` are `d`. -/
def Holds (k : Vm π) (a : Nat) (d : PageData) : Prop :=
  ∀ spg, k.pages a = some spg → PageHolds k d spg

/-- What every step keeps: the page `a` holds `d`, if there is such a page. -/
structure Kept (k : Vm π) (a : Nat) (d : PageData) : Prop where
  sound : k.mapping.Sound
  owned : k.SlotsOwned
  holds : k.Holds a d

/-- Nobody else writes to the file of the page, and its own stores can be written back. -/
structure Undisturbed (k : Vm π) (a : Nat) : Prop where
  sole : k.SoleWriter a
  allowed : k.WriteAllowed a

theorem Holds.leaves (h : k.Holds a d) (hpages : k'.pages a = k.pages a)
    (hl : ∀ spg, k.pages a = some spg → Leaves k spg k') : k'.Holds a d := by
  intro spg hspg
  rw [hpages] at hspg
  exact (h spg hspg).leaves (hl spg hspg)

theorem Undisturbed.reordered (h : k.Undisturbed a) (hr : Reordered k out k') :
    k'.Undisturbed a := by
  have hdirty : ∀ spg, k'.dirty spg = k.dirty spg := fun _ => (leaves_reordered hr).dirty
  rw [hr.result] at hdirty ⊢
  constructor
  · intro spg hspg htype b pg hb hpg
    rw [hdirty]
    exact h.sole spg hspg htype b pg hb hpg
  · intro spg fil hspg
    rw [hdirty]
    exact h.allowed spg fil hspg

/-- A page is found by its address. -/
theorem lookup_of_page (hk : k.mapping.Sound) (ha : k.pages a = some spg) :
    k.lookup spg.pd spg.vaddr = some a := by
  cases hfound : k.lookup spg.pd spg.vaddr with
  | none => exact absurd rfl (lookup_eq_none hk hfound (mapping_page ha) rfl)
  | some b =>
    obtain ⟨c, hc, hpd⟩ := hk.listed spg.pd b (List.mem_of_find?_eq_some hfound)
    obtain ⟨pg, hpg, rfl⟩ := exists_page hc
    have hvaddr := List.find?_some hfound
    simp only [hpg, Option.any_some, decide_eq_true_eq] at hvaddr
    exact congrArg some (hk.keys b a _ _ hc (mapping_page ha) hpd hvaddr)

variable {p : π}

/-- The page that an entry is for. -/
theorem page_of_present (hk : k.mapping.Sound) {v : Nat} (hpresent : (k.pte p v).present = true) :
    ∃ b pg g fr, k.pages b = some pg ∧ pg.pd = p ∧
      pg.vaddr = v ∧ pg.fr = some g ∧ k.frames g = some fr ∧ fr.page = some b ∧
      (k.pte p v).kpage = fr.physAddr ∧ (k.pte p v).writable = pg.wr := by
  obtain ⟨b, c, g, hc, rfl, rfl, hg⟩ := hk.present p v hpresent
  obtain ⟨pg, hpg, rfl⟩ := exists_page hc
  obtain ⟨fr, hfr, hpage, hentry⟩ := frame_of_page hk hpg hg
  simp only [Pte.core, Prod.mk.injEq] at hentry
  exact ⟨b, pg, g, fr, hpg, rfl, rfl, hg, hfr, hpage, hentry.2⟩

variable [DecidableEq π] {offset bytes : Int} {wr : Bool}

omit [DecidableEq π] in
theorem Kept.reordered (h : Kept k a d) (hr : Reordered k out k') : Kept k' a d := by
  have hpages : k'.pages = k.pages := by rw [hr.result]
  refine ⟨?_, h.owned.congr hpages (by rw [hr.result]), ?_⟩
  · rw [mapping_reordered hr]
    exact h.sound
  · exact h.holds.leaves (by rw [hpages]) (fun spg _ => leaves_reordered hr)

theorem Kept.evicted (h : Kept k a d) (hw : k.WriteAllowed a)
    (hev : Evicts k f fr a spg k₁ spg₁ k') : Kept k' a d where
  sound := hev.sound h.sound
  owned := h.owned.evicts hev
  holds := by
    intro spg' hspg'
    cases hev.pages_self.symm.trans hspg'
    exact (h.holds spg hev.entry).evicts hev hw

theorem Kept.evicts {b : Nat} {pg pg₁ : SuppPage π} (h : Kept k a d) (hu : k.Undisturbed a)
    (hev : Evicts k f fr b pg k₁ pg₁ k') : Kept k' a d := by
  by_cases hab : a = b
  · subst hab
    exact h.evicted hu.allowed hev
  · refine ⟨hev.sound h.sound, h.owned.evicts hev, h.holds.leaves (hev.pages_of_ne hab) ?_⟩
    exact fun spg hspg => hev.leaves h.sound h.owned hu.sole hspg hab

theorem Kept.makesRoom (h : Kept k a d) (hu : k.Undisturbed a) (hroom : MakesRoom k k') :
    Kept k' a d := by
  cases hroom with
  | free => exact h
  | evict g k₀ fr b pg k₁ pg₁ _ chosen hev =>
    exact (h.reordered chosen.reordered).evicts (hu.reordered chosen.reordered) hev

/-- The page is brought back with what it holds. -/
theorem Kept.pagesIn (h : Kept k a d) (hu : k.Undisturbed a) (mem : a ∈ k.table p)
    (hin : PagesIn k p a pinned k₀ kpage f k₁ spg k₂ k') :
    ∃ spg', k'.pages a = some spg' ∧ spg'.fr = some f ∧ PageHolds k' d spg' ∧
      ∃ fr', k'.frames f = some fr' := by
  obtain ⟨hfr, hspg, hspg₀⟩ := hin.page h.sound
  obtain ⟨c, hc, hpd⟩ := h.sound.listed p a mem
  cases (mapping_page hspg).symm.trans hc
  exact ((h.makesRoom hu hin.creates.room).holds spg hspg₀).pagesIn hin hfr hpd

/-- What a page holds when it is entered in a table: bytes of the file, then zeros. -/
def initial (files : Files) (fil : Nat) (offset bytes : Int) : PageData :=
  zero.copyIn 0 bytes.toNat (fun j => (files.content fil).getD (offset.toNat + j) 0)

omit [DecidableEq π] in
/-- A new page of a file. -/
theorem PageHolds.of_new {vaddr fil : Nat}
    (hspg : spg = ⟨none, p, vaddr, .filesys, wr, some fil, offset, bytes, none⟩)
    (hclean : k.dirty spg = false) : PageHolds k (initial k.files fil offset bytes) spg := by
  subst hspg
  constructor
  case resident =>
    intro f fr hf
    cases hf
  case slot =>
    intro htype
    cases htype
  case file =>
    intro _ _ fil' hfil j hj hj'
    cases hfil
    have hj : j < 0 + bytes.toNat := by rwa [Nat.zero_add]
    rw [initial, byte_copyIn _ _ _ _ hj', if_pos ⟨Nat.zero_le j, hj⟩, Nat.sub_zero]
  case zeros =>
    intro _ _ j hj
    have hj : bytes.toNat ≤ j := hj
    rw [initial, byte_copyIn_out _ _ _ _ (by omega), byte_zero]
  case unloaded => exact fun _ _ _ => rfl
  case clean => exact fun _ _ => hclean

/-- A page of a file is entered in a table. -/
theorem Registers.holds {vaddr fil b : Nat}
    (hr : Registers k p vaddr ⟨none, p, vaddr, .filesys, wr, some fil, offset, bytes, none⟩ b k')
    (hk : k.mapping.Sound) (h : k.Holds a d) :
    k'.Holds a (if a = b then initial k.files fil offset bytes else d) := by
  have hpages : k'.pages = Function.update k.pages b
      (some ⟨none, p, vaddr, .filesys, wr, some fil, offset, bytes, none⟩) := by rw [hr.result]
  split_ifs with hab
  · intro spg hspg
    rw [hpages, hab, update_self] at hspg
    have hfiles : k'.files = k.files := by
      rw [hr.result]
      rfl
    rw [← hfiles]
    refine .of_new (Option.some.inj hspg).symm ?_
    rw [← Option.some.inj hspg, hr.result]
    simp only [dirty, setPte, and_self, if_true]
  · refine h.leaves (by rw [hpages, update_of_ne hab]) (fun spg hspg => hr.leaves ?_)
    rintro ⟨hpd, hv⟩
    exact lookup_eq_none hk hr.new (mapping_page hspg) hpd hv

/-- The stack of a process grows. -/
theorem Grows.holds {upage : Nat} {b : Nat} (hg : Grows k p upage k₀ kpage f k₁ b k₂ true k')
    (hk : k₀.mapping.Sound) (h : k₀.Holds a d) : k'.Holds a (if a = b then zero else d) := by
  have hk₁ := hg.creates.result
  have hk₂ := hg.registers.result
  have hresult : k' = ({ k₂ with
      frames := Function.update k₂.frames f (some ⟨kpage, some b, 0, false⟩) } : Vm π).setPte
        p upage ⟨true, kpage, true, false, false⟩ := hg.result
  split_ifs with hab
  · subst hab
    intro spg hspg
    have hpage : spg = ⟨some f, p, upage, .swapslot, true, none, 0, 0, none⟩ := by
      simp only [hresult, setPte, hk₂, update_self, Option.some.injEq] at hspg
      exact hspg.symm
    subst hpage
    refine .of_swapslot rfl (fun g gr hg hgr => ?_) (fun hnone => by cases hnone)
    cases hg
    simp only [hresult, setPte, update_self, Option.some.injEq] at hgr
    subst hgr
    simp only [hresult, setPte, hk₂, hk₁, update_self]
  · refine h.leaves ?_ (fun spg hspg => hg.creates.leaves hk hspg (fun g hg => ?_) (fun q hq => ?_)
      ?_ ?_ ?_ ?_)
    case _ => simp only [hresult, setPte, hk₂, hk₁, update_of_ne hab]
    case _ => simp only [hresult, setPte, hk₂, hk₁, update_of_ne hg]
    case _ => simp only [hresult, setPte, hk₂, hk₁, update_of_ne hq]
    case _ => simp only [hresult, setPte, hk₂, hk₁]
    case _ => simp only [hresult, setPte, hk₂, hk₁]
    case _ =>
      have hne : ¬ (spg.pd = p ∧ spg.vaddr = upage) := fun h =>
        lookup_eq_none hk hg.new (mapping_page hspg) h.1 h.2
      rw [hresult, dirty_setPte_of_ne hne]
      simp only [dirty, hk₂, hk₁, setPte, if_neg hne]
    case _ => simp only [hresult, setPte, hk₂, hk₁]

/-- A program stores to the page `b`. -/
theorem Holds.stored {upage ofs b : Nat} {byte : UInt8} (h : k.Holds a d) (hk : k.mapping.Sound)
    (hpresent : (k.pte p upage).present = true) (hwritable : (k.pte p upage).writable = true)
    (hb : k.lookup p upage = some b) :
    (k.stored p upage ofs byte).Holds a
      (if a = b then d.copyIn ofs 1 (fun _ => byte) else d) := by
  obtain ⟨b', pg, g, fr, hpg, rfl, rfl, hg, hfr, hpage, hkpage, hwr⟩ := page_of_present hk hpresent
  cases (lookup_of_page hk hpg).symm.trans hb
  rw [hwr] at hwritable
  split_ifs with hab
  · subst hab
    intro spg hspg
    cases hpg.symm.trans hspg
    have hheld := h pg hpg
    have hdirty : (k.stored pg.pd pg.vaddr ofs byte).dirty pg = true := by
      simp only [dirty, Vm.stored, setPte, and_self, if_true]
    -- a page that is stored to is neither read-only nor an executable's
    have hmapped : pg.type = .filesys → k.Mapped pg := by
      refine fun htype => ⟨hwritable, fun hexe => ?_⟩
      cases (hheld.unloaded htype hwritable hexe).symm.trans hg
    constructor
    case resident =>
      intro g' fr' hg' hfr' j hj hj'
      cases hg.symm.trans hg'
      cases hfr.symm.trans hfr'
      simp only [Vm.stored, hkpage, update_self]
      rw [byte_copyIn _ _ _ _ hj', byte_copyIn _ _ _ _ hj']
      split_ifs
      · rfl
      · exact hheld.resident g fr hg hfr j hj hj'
    case slot =>
      intro _ hnone
      cases hg.symm.trans hnone
    case file =>
      intro _ hclean
      cases hdirty.symm.trans hclean
    case zeros => exact fun htype hnot => absurd (hmapped htype) hnot
    case unloaded => exact fun htype _ hexe => absurd hexe (hmapped htype).2
    case clean =>
      intro _ hnone
      cases hg.symm.trans hnone
  · refine h.leaves rfl (fun spg hspg => ⟨fun f hf => ⟨rfl, fun fr' hfr' => ?_⟩, fun _ _ _ _ => rfl,
      fun _ _ _ _ _ => rfl, dirty_setPte_of_ne (entries_ne hk hspg hpg hab), rfl⟩)
    simp only [Vm.stored, hkpage]
    exact update_of_ne ((frames_ne hk hspg hf hab hfr hpage).2 fr' hfr') _ _

end Steps

/-! ### Runs -/

section Runs

variable [DecidableEq π]

/-- What the pages hold as far as the programs are concerned: what they held at first, and the bytes
    that have been stored since. -/
def remember (k : Vm π) (o : VmOp π) (k' : Vm π) (logical : Nat → PageData) : Nat → PageData :=
  match o with
  | .createFilesysPage p vaddr fil offset bytes _ =>
    match k'.lookup p vaddr with
    | some a => Function.update logical a (initial k.files fil offset bytes)
    | none => logical
  | .growStack p upage =>
    match k'.lookup p upage with
    | some a => Function.update logical a zero
    | none => logical
  | .store p upage ofs byte =>
    match k.lookup p upage with
    | some a => Function.update logical a ((logical a).copyIn ofs 1 (fun _ => byte))
    | none => logical
  | _ => logical

/-- Virtual memory, and what its pages should hold. -/
def remembering (π : Type) [DecidableEq π] : Machine (Vm π × (Nat → PageData)) (VmOp π) :=
  (vm π).recording remember

/-- A process exits. -/
def exits : VmOp π → Bool
  | .freeSuppPageTable _ _ => true
  | _ => false

/-- No process exits, and no other page is written to the part of the file that the page `a` is
    from. -/
def Unshared (a : Nat) (s : Vm π × (Nat → PageData)) (o : VmOp π) : Prop :=
  exits o = false ∧ s.1.SoleWriter a

variable {a : Nat} {logical : Nat → PageData} {o : VmOp π}

/-- What a step does to a page is what the program expects. -/
theorem Kept.did (h : Kept k a (logical a)) (hu : k.Undisturbed a) (hexit : exits o = false)
    (hdid : Did k o k') : Kept k' a (k.remember o k' logical a) := by
  have hsound : k'.mapping.Sound := hdid.sound h.sound
  have hclean : k.ExitsClean o := by
    cases o with
    | freeSuppPageTable => cases hexit
    | _ => trivial
  refine ⟨hsound, h.owned.did h.sound hdid hclean, ?_⟩
  have hupdate : ∀ b x, Function.update logical b x a = if a = b then x else logical a :=
    fun b x => update_apply logical b x a
  cases hdid with
  | createFilesysPage registers =>
    have hnew := lookup_of_page hsound (by rw [registers.result]; exact update_self _ _ _)
    simp only [remember, hnew, hupdate]
    exact registers.holds h.sound h.holds
  | @growStack p upage k₀ kpage f k₁ b k₂ ok _ grows =>
    obtain rfl := grows.unmapped h.sound
    have hpage : k'.pages b = some ⟨some f, p, upage, .swapslot, true, none, 0, 0, none⟩ := by
      rw [grows.result, if_pos rfl, grows.registers.result]
      exact update_self _ _ _
    have hnew : k'.lookup p upage = some b := lookup_of_page hsound hpage
    have h₀ := h.makesRoom hu grows.creates.room
    simp only [remember, hnew, hupdate]
    exact grows.holds h₀.sound h₀.holds
  | @pageToNewFrame p b pinned k₀ kpage f k₁ spg k₂ _ mem pagesIn =>
    have h₀ := h.makesRoom hu pagesIn.creates.room
    show k'.Holds a (logical a)
    by_cases hab : a = b
    · subst hab
      obtain ⟨spg', hspg', -, hholds, -⟩ := h.pagesIn hu mem pagesIn
      intro pg hpg
      cases hspg'.symm.trans hpg
      exact hholds
    · exact h₀.holds.leaves (pagesIn.pages_of_ne hab)
        (fun pg hpg => pagesIn.leaves h₀.sound hpg hab)
  | frameEvict evicts => exact (h.evicts hu evicts).holds
  | freeSuppPageTable => cases hexit
  | @store p upage ofs byte present writable inside =>
    obtain ⟨b, pg, g, fr, hpg, rfl, rfl, -⟩ := page_of_present h.sound present
    have hb := lookup_of_page h.sound hpg
    have hlogical : k.remember (.store pg.pd pg.vaddr ofs byte) (k.stored pg.pd pg.vaddr ofs byte)
        logical a = if a = b then (logical a).copyIn ofs 1 (fun _ => byte) else logical a := by
      simp only [remember, hb, hupdate]
      split_ifs with hab
      · rw [hab]
      · rfl
    rw [hlogical]
    exact h.holds.stored h.sound present writable hb
  | load present =>
    refine h.holds.leaves rfl (fun spg _ => ⟨fun _ _ => ⟨rfl, fun _ _ => rfl⟩, fun _ _ _ _ => rfl,
      fun _ _ _ _ _ => rfl, ?_, rfl⟩)
    simp only [dirty, setPte]
    split_ifs with heq
    · rw [heq.1, heq.2]
    · rfl
  | touch | setDenyWrite =>
    exact h.holds.leaves rfl (fun spg _ => ⟨fun _ _ => ⟨rfl, fun _ _ => rfl⟩,
      fun _ _ _ _ => rfl, fun _ _ _ _ _ => rfl, rfl, rfl⟩)

/-- The page `a` is in a frame, with the bytes of `d` in it. -/
def BroughtBack (k : Vm π) (a : Nat) (d : PageData) : Prop :=
  ∃ spg f fr, k.pages a = some spg ∧ spg.fr = some f ∧ k.frames f = some fr ∧
    ∀ j, j < keptBytes spg → j < 4096 → (k.mem fr.physAddr).byte j = d.byte j

variable {s s' : Vm π × (Nat → PageData)}

theorem run_kept (hrun : (remembering π).Run (fun s o => Unshared a s o ∧ s.1.WriteAllowed a) s s')
    (h : Kept s.1 a (s.2 a)) : Kept s'.1 a (s'.2 a) := by
  refine Machine.Run.invariant (I := fun s => Kept s.1 a (s.2 a)) ?_ hrun h
  intro o s s' h hsteps hP
  obtain ⟨⟨hexit, hsole⟩, hallowed⟩ := hP
  obtain ⟨hsteps, hlogical⟩ := Machine.recording_steps.mp hsteps
  rw [hlogical]
  exact h.did ⟨hsole, hallowed⟩ hexit (did_of_steps h.sound hsteps)

omit [DecidableEq π] in
theorem kept_booted (poolSize : Nat) (mem : Nat → PageData) (swapTable : Device) (files : Files)
    (exe : π → Option Nat) (malloc : Nat → Bool) (a : Nat) (d : PageData) :
    Kept (booted poolSize mem swapTable files exe malloc) a d where
  sound := sound_booted _ _ _ _ _ _
  owned := slotsOwned_booted _ _ _ _ _ _
  holds _ hspg := by cases hspg

/-- After a page has been brought in, its frame holds what the page held at first and what the
    program has stored since. -/
theorem paging_keeps_contents {poolSize : Nat} {mem : Nat → PageData} {swapTable : Device}
    {files : Files} {exe : π → Option Nat} {malloc : Nat → Bool} {s s' : Vm π × (Nat → PageData)}
    {p : π} {pinned : Bool}
    (hrun : (remembering π).Run (fun s o => Unshared a s o ∧ s.1.WriteAllowed a)
      (booted poolSize mem swapTable files exe malloc, logical) s)
    (hstep : (remembering π).Steps (.pageToNewFrame p a pinned) s s')
    (hlast : Unshared a s (.pageToNewFrame p a pinned) ∧ s.1.WriteAllowed a) :
    s'.1.BroughtBack a (s'.2 a) := by
  have h := run_kept hrun (kept_booted _ _ _ _ _ _ a (logical a))
  obtain ⟨hsteps, hlogical⟩ := Machine.recording_steps.mp hstep
  rw [hlogical]
  cases did_of_steps h.sound hsteps with
  | pageToNewFrame mem pagesIn =>
    obtain ⟨spg, hspg, hf, hholds, fr, hfr⟩ := h.pagesIn ⟨hlast.1.2, hlast.2⟩ mem pagesIn
    exact ⟨spg, _, fr, hspg, hf, hfr, hholds.resident _ fr hf hfr⟩

/-! ### A mapped file -/

/-- No other page. -/
def Alone (k : Vm π) (a : Nat) : Prop := ∀ b, b < k.brk → b ≠ a → k.pages b = none

instance (k : Vm π) (a : Nat) : Decidable (k.Alone a) :=
  inferInstanceAs (Decidable (∀ b, b < k.brk → b ≠ a → k.pages b = none))

omit [DecidableEq π] in
theorem Alone.soleWriter (h : k.Alone a) (hk : k.mapping.Sound) : k.SoleWriter a := by
  intro spg _ _ b pg hb hpg
  by_cases hlt : b < k.brk
  · cases hpg.symm.trans (h b hlt hb)
  · cases (mapping_page hpg).symm.trans (hk.fresh b (Nat.le_of_not_lt hlt)).1

theorem remembering_sound (hs : s.1.mapping.Sound) (hsteps : (remembering π).Steps o s s') :
    s'.1.mapping.Sound :=
  (did_of_steps hs (Machine.recording_steps.mp hsteps).1).sound hs

/-- A run in which there is no other page. -/
theorem run_unshared {Q : Vm π × (Nat → PageData) → VmOp π → Prop}
    (hrun : (remembering π).Run (fun s o => (exits o = false ∧ s.1.Alone a) ∧ Q s o) s s')
    (hs : s.1.mapping.Sound) : (remembering π).Run (fun s o => Unshared a s o ∧ Q s o) s s' := by
  have hsound := Machine.Run.and_invariant (I := fun s => s.1.mapping.Sound)
    (fun _ _ _ hs hsteps _ => remembering_sound hs hsteps) hrun hs
  apply hsound.mono
  intro s o h
  obtain ⟨⟨⟨hexit, halone⟩, hQ⟩, hs⟩ := h
  exact ⟨⟨hexit, halone.soleWriter hs⟩, hQ⟩

end Runs

/-- A file of one byte that can be mapped. -/
def oneByte (denyWriteCnt : Int) : Vm Unit :=
  booted 1 (fun _ => zero) oneSlot ⟨fun _ => 0, fun _ => [7], fun _ => denyWriteCnt⟩
    (fun _ => none) (fun _ => true)

/-- The page is entered, brought in, stored to, and evicted. -/
def storedAndEvicted : List (VmOp Unit) :=
  [.createFilesysPage () 0x10000000 0 0 1 true, .pageToNewFrame () 0 false,
    .store () 0x10000000 0 9, .frameEvict 1]

/-- The states after that, and when the page is back. -/
def evicted (denyWriteCnt : Int) : Vm Unit × (Nat → PageData) :=
  (remembering Unit).after storedAndEvicted (oneByte denyWriteCnt, fun _ => zero)

def back (denyWriteCnt : Int) : Vm Unit × (Nat → PageData) :=
  final ((remembering Unit).code (.pageToNewFrame () 0 false)) (evicted denyWriteCnt)

theorem sound_oneByte (denyWriteCnt : Int) : (oneByte denyWriteCnt).mapping.Sound :=
  sound_booted _ _ _ _ _ _

theorem paging_keeps_contents_store :
    (back 0).1.BroughtBack 0 ((back 0).2 0) ∧ ((back 0).2 0).byte 0 = 9 := by
  have hrun : (remembering Unit).Run (fun s o => Unshared 0 s o ∧ s.1.WriteAllowed 0)
      (oneByte 0, fun _ => zero) (evicted 0) :=
    run_unshared (Machine.run_of_allows (by decide +kernel)) (sound_oneByte 0)
  have hstep : (remembering Unit).Steps (.pageToNewFrame () 0 false) (evicted 0) (back 0) :=
    ⟨by decide +kernel, run_of_outcome (by decide +kernel)⟩
  have hsound : (evicted 0).1.mapping.Sound := (run_kept hrun (kept_booted _ _ _ _ _ _ 0 _)).sound
  have halone : (evicted 0).1.Alone 0 := by decide +kernel
  exact ⟨paging_keeps_contents hrun hstep ⟨⟨rfl, halone.soleWriter hsound⟩, by decide +kernel⟩,
    by decide +kernel⟩

/-- The page of a file that denies writes is brought back without what was stored. -/
theorem denied_store_lost :
    (remembering Unit).Run (Unshared 0) (oneByte 1, fun _ => zero) (evicted 1) ∧
    Unshared 0 (evicted 1) (.pageToNewFrame () 0 false) ∧
    (remembering Unit).Steps (.pageToNewFrame () 0 false) (evicted 1) (back 1) ∧
    ¬ (back 1).1.BroughtBack 0 ((back 1).2 0) := by
  have hrun : (remembering Unit).Run (fun s o => Unshared 0 s o ∧ True)
      (oneByte 1, fun _ => zero) (evicted 1) :=
    run_unshared (Machine.run_of_allows (by decide +kernel)) (sound_oneByte 1)
  have hsound : (evicted 1).1.mapping.Sound :=
    Machine.Run.invariant (I := fun s => s.1.mapping.Sound)
      (fun _ _ _ hs hsteps _ => remembering_sound hs hsteps) hrun (sound_oneByte 1)
  have halone : (evicted 1).1.Alone 0 := by decide +kernel
  refine ⟨hrun.mono (fun _ _ h => h.1), ⟨rfl, halone.soleWriter hsound⟩,
    ⟨by decide +kernel, run_of_outcome (by decide +kernel)⟩, ?_⟩
  rintro ⟨spg, f, fr, hspg, hf, hfr, hbytes⟩
  have hpage : (back 1).1.pages 0 =
      some ⟨some 2, (), 0x10000000, .filesys, true, some 0, 0, 1, none⟩ := by decide +kernel
  cases hpage.symm.trans hspg
  cases hf
  have hframe : (back 1).1.frames 2 = some ⟨0, some 0, 0, false⟩ := by decide +kernel
  cases hframe.symm.trans hfr
  have hread : ((back 1).1.mem 0).byte 0 = 7 := by decide +kernel
  have hlogical : ((back 1).2 0).byte 0 = 9 := by decide +kernel
  have := hbytes 0 (by decide) (by decide)
  rw [hread, hlogical] at this
  cases this

end Vm

end KernelSanders

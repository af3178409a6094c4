import KernelSanders.Userprog.MmapContents
import KernelSanders.Userprog.MmapFailure

namespace KernelSanders

open Lib Lib.Exec
open Function hiding update
open List

namespace Maps

variable {π : Type} [DecidableEq π] {addr : Nat}

/-!
# Unmapping writes the file back

A file is mapped, its pages are brought in, stored to and evicted in any order, and then the process
unmaps the file or exits, which unmaps all its files.  The file then holds what was stored, and its
length is what it was (`unmapping_writes_back`), unless the region ends exactly at the middle of the
address space: there the end is a negative `off_t`, the loop of `munmap` does not start, and what is
in the frames is not written (`munmap_middle_loses`).

* `mmap_enters` — what `mmap` has done when it returns a mapping;
* `munmap_live` — `munmap` of any mapping leaves the bytes of the others where they are;
* `munmapEach_returns` — the unmapping of all files at exit.
-/

/-! ### The mapping is entered -/

section Entering

variable {m m' : Maps π} {p : π} {fd : Int} {fil size mapping slot : Nat}

/-- What `mmap` has found and done when it returns a mapping. -/
structure Enters (m : Maps π) (p : π) (addr fil size mapping slot : Nat) (m' : Maps π) : Prop where
  aligned : pgOfs addr = 0
  null : addr ≠ 0
  user : isUserVaddr addr
  positive : 0 < size
  unused : mapping < maxMmappings ∧ m.mmappings p mapping = -1
  free : firstFree (fun i => decide ((m.allMmappings i).addr ≠ 0)) maxGlobalMappings = some slot
  scanned : m.ScanClear p addr size
  registrable : Vm.Registrable (reopened m.vm fil) p (regionPages p addr size m.vm.brk)
  result : m' = m.entered p addr fil size mapping slot

theorem enterMapping_enters (hm : m.vm.mapping.Sound) (hfits : 0 < size ∧ size < 2 ^ 31)
    (haddr : addr + size < 2 ^ 32) :
    Ensures (enterMapping p mapping addr (some fil) size) m (fun r m' => r ≠ mapFailed →
      r = mapping ∧ ∃ slot,
        firstFree (fun i => decide ((m.allMmappings i).addr ≠ 0)) maxGlobalMappings = some slot ∧
        Vm.Registrable (reopened m.vm fil) p (regionPages p addr size m.vm.brk) ∧
        m' = m.entered p addr fil size mapping slot) := by
  cases hslot : firstFree (fun i => decide ((m.allMmappings i).addr ≠ 0)) maxGlobalMappings with
  | none =>
    rw [enterMapping, ensures_bind]
    intro _ m₁ hlock
    obtain ⟨-, rfl⟩ := lockMmap_ok.mp hlock
    rw [ensures_get]
    dsimp only
    rw [hslot]
    exact ensures_pure.mpr (fun hr => absurd rfl hr)
  | some slot =>
    intro r m' hrun _
    obtain ⟨⟨-, -, hreg⟩, rfl, rfl⟩ := (enterMapping_iff hm hfits haddr hslot).mp hrun
    exact ⟨rfl, slot, rfl, hreg, rfl⟩

theorem mmap_enters (hm : m.vm.mapping.Sound)
    (hfile : m.openFiles (m.files p fd.toNat).toNat = some fil)
    (hsize : (m.vm.files.content fil).length = size) (hend : addr + size ≤ 2 ^ 31) :
    Ensures (mmap p fd addr) m (fun r m' => r ≠ mapFailed →
      ∃ mapping slot : Nat, r = mapping ∧ Enters m p addr fil size mapping slot m') := by
  refine mmap_ensures.mono ?_
  rintro r m' (⟨hfailed, -⟩ | ⟨mapping, fil', hchecked, hclear, hrun⟩) hr
  · exact absurd hfailed hr
  · cases hfile.symm.trans hchecked.file
    have hpos : 0 < size := hsize ▸ Nat.pos_of_ne_zero hchecked.length
    rw [hsize] at hclear hrun
    obtain ⟨haligned, -, -, hnull, huser⟩ := hchecked.args
    obtain ⟨hlt, hunused, -⟩ := firstFree_eq_some.mp hchecked.free
    obtain ⟨rfl, slot, hslot, hreg, hresult⟩ :=
      enterMapping_enters hm ⟨hpos, by omega⟩ (by omega) r m' hrun hr
    exact ⟨mapping, slot, rfl, haligned, hnull, huser, hpos, ⟨hlt, by simpa using hunused⟩, hslot,
      hclear, hreg, hresult⟩

omit [DecidableEq π] in
/-- The loop over the pages does not come to its end if the last one ends at the middle of the
    address space. -/
theorem scanClear_low (h : m.ScanClear p addr size) (haligned : pgOfs addr = 0)
    (huser : isUserVaddr addr) (hend : addr + size < 2 ^ 31) :
    addr + 4096 * pageCount size < 2 ^ 31 := by
  obtain ⟨n, hn, hbound⟩ := h
  rw [natCast_end, wrap_low hend, natCast_page] at hbound
  have hle := scan_le haligned huser (fun i hi => (hn i hi).2.1)
  unfold isUserVaddr physBase at *
  unfold pgOfs pgSize at haligned
  unfold pageCount
  by_contra hmiddle
  rcases Nat.lt_or_ge (addr + 4096 * n) (2 ^ 31) with hlow | hhigh
  · rw [wrap_low hlow] at hbound
    omega
  · rw [wrap_high hhigh (by omega)] at hbound
    omega

namespace Enters

variable (h : Enters m p addr fil size mapping slot m')
include h

theorem region (hend : size < 2 ^ 31) : UserRegion addr size :=
  ⟨⟨h.positive, hend⟩, h.aligned, fun _ hi =>
    (h.registrable.user _ (mem_map_of_mem (mem_range.mpr hi))).1⟩

theorem pages {i : Nat} (hi : i < pageCount size) :
    m'.vm.pages (m.vm.brk + 1 + i) = some (regionPage p addr size m.vm.brk i) := by
  rw [h.result]
  exact entered_pages hi

/-- Other pages are as they were. -/
theorem pages_old {a : Nat} (ha : a < m.vm.brk) : m'.vm.pages a = m.vm.pages a := by
  rw [h.result]
  show ((reopened m.vm fil).registeredAll p _).pages _ = _
  rw [Vm.pages_registeredAll, if_pos (by simp [reopened]; omega)]
  rfl

theorem exe : m'.vm.exe = m.vm.exe := by
  rw [h.result]
  exact Vm.exe_registeredAll

/-- The mapping holds the contents of the file. -/
theorem mirrors (hm : m.vm.mapping.Sound) (howned : m.vm.SlotsOwned)
    (hexe : m.vm.exe p ≠ some m.vm.brk) (hsize : (m.vm.files.content fil).length = size) :
    Mirrors m'.vm p addr size fil m.vm.brk (m.vm.files.content fil) := by
  have hsound : (reopened m.vm fil).mapping.Sound := hm.bump (Nat.le_succ _)
  have hfiles : m'.vm.files = (reopened m.vm fil).files := by
    rw [h.result]
    exact Vm.files_registeredAll
  have hcontent : m'.vm.files.content m.vm.brk = m.vm.files.content fil := by
    rw [hfiles]
    simp [reopened, Files.content]
  have hexe' : m'.vm.exe p ≠ some m.vm.brk := by
    rw [h.exe]
    exact hexe
  refine ⟨?_, ?_, hexe', ?_, ?_, fun i hi spg hspg => ?_, fun i hi hnone => ?_⟩
  · rw [h.result]
    exact (Vm.pageAt_registeredAll hsound regionPages_new h.registrable).1
  · rw [h.result]
    refine Vm.SlotsOwned.registeredAll (howned.congr rfl rfl) (fun spg hspg => ?_)
    obtain ⟨i, -, rfl⟩ := mem_map.mp hspg
    rfl
  · rw [hfiles]
    simp [reopened, update_apply]
  · rw [hcontent, hsize]
  · cases (h.pages hi).symm.trans hspg
    refine ⟨rfl, holds_congr rfl hexe' (fun j hj hjs => ?_) (Vm.PageHolds.of_new rfl ?_)⟩
    · rw [Vm.initial, byte_pageOf hj, Bytes.byte_copyIn _ _ _ _ hj, Int.toNat_natCast,
        Int.toNat_natCast, if_pos ⟨Nat.zero_le _, by omega⟩, hcontent, Nat.sub_zero]
    · rw [h.result]
      exact Vm.dirty_registeredAll (fun spg hspg => (regionPages_new spg hspg).2)
        (.inr (mem_map_of_mem (mem_range.mpr hi)))
  · cases (h.pages hi).symm.trans hnone

end Enters

end Entering

/-! ### Mappings of a process -/

/-- The mapping `j` of `p`, for the open file `h`.  Either the loop of `munmap` goes over its pages,
    or it does not start. -/
structure Live (m : Maps π) (p : π) (j slot addr size h : Nat) : Prop where
  index : m.mmappings p j = slot
  entry : m.allMmappings slot = ⟨addr, some h, size⟩
  null : addr ≠ 0
  place : (UserRegion addr size ∧ Clear addr (4096 * pageCount size)) ∨
    (addr < 2 ^ 31 ∧ 2 ^ 31 ≤ addr + size ∧ 0 < size ∧ size < 2 ^ 31)
  exe : m.vm.exe p ≠ some h
  pages : ∀ i < pageCount size, ∃ fr, m.vm.pages (h + 1 + i) =
    some { regionPage p addr size h i with fr := fr }

/-- The open file of the mapping `j` of `p`. -/
def mappedFile (m : Maps π) (p : π) (j : Nat) : Option Nat :=
  (m.allMmappings (m.mmappings p j).toNat).file

/-- The mappings of `p` are in order: each has its own slot and its own file. -/
structure TableSound (m : Maps π) (p : π) : Prop where
  live : ∀ j < maxMmappings, m.mmappings p j ≠ -1 → ∃ slot addr size h, Live m p j slot addr size h
  slots : ∀ j < maxMmappings, ∀ j' < maxMmappings, m.mmappings p j ≠ -1 →
    m.mmappings p j = m.mmappings p j' → j = j'
  files : ∀ j < maxMmappings, ∀ j' < maxMmappings, m.mmappings p j ≠ -1 → m.mmappings p j' ≠ -1 →
    m.mappedFile p j = m.mappedFile p j' → j = j'

section Table

variable {m m' : Maps π} {p : π} {j j' slot slot' addr' size size' fil h h' : Nat} {l : List UInt8}

namespace Live

omit [DecidableEq π]

section

variable (hlive : Live m p j slot addr size h)
include hlive

theorem used : m.mmappings p j ≠ -1 := by
  rw [hlive.index]
  omega

theorem mappedFile_eq : m.mappedFile p j = some h := by
  rw [mappedFile, hlive.index, Int.toNat_natCast, hlive.entry]

theorem pageCount_pos : 0 < pageCount size := by
  have hpos : 0 < size := by
    rcases hlive.place with ⟨hregion, -⟩ | ⟨-, -, hpos, -⟩
    · exact hregion.fits.1
    · exact hpos
  unfold pageCount
  omega

/-- The pages of a mapping are not new. -/
theorem lt_brk [DecidableEq π] (hm : m.vm.mapping.Sound)
    {i : Nat} (hi : i < pageCount size) : h + 1 + i < m.vm.brk := by
  obtain ⟨fr, hspg⟩ := hlive.pages i hi
  by_contra hlt
  cases (Vm.mapping_page hspg).symm.trans (hm.fresh _ (not_lt.mp hlt)).1

/-- Pages of mappings of different files are different pages. -/
theorem pages_ne (hlive' : Live m p j' slot' addr' size' h')
    (hne : h' ≠ h) {i i' : Nat} (hi : i < pageCount size) (hi' : i' < pageCount size') :
    h' + 1 + i' ≠ h + 1 + i := by
  intro hsame
  obtain ⟨fr, hspg⟩ := hlive.pages i hi
  obtain ⟨fr', hspg'⟩ := hlive'.pages i' hi'
  rw [hsame] at hspg'
  have hfil := congrArg SuppPage.fil (Option.some.inj (hspg.symm.trans hspg'))
  exact hne (Option.some.inj hfil).symm

end

end Live

omit [DecidableEq π] in
/-- A process without mappings. -/
theorem tableSound_empty (hnone : ∀ j, m.mmappings p j = -1) : TableSound m p :=
  ⟨fun j _ hne => absurd (hnone j) hne, fun j _ _ _ hne => absurd (hnone j) hne,
    fun j _ _ _ hne => absurd (hnone j) hne⟩

namespace Enters

variable (henters : Enters m p addr fil size j slot m')
include henters

theorem index (j' : Nat) :
    m'.mmappings p j' = if j' = j then (slot : Int) else m.mmappings p j' := by
  rw [henters.result]
  simp [entered, update_apply]

theorem entry (s : Nat) : m'.allMmappings s =
    if s = slot then ⟨addr, some m.vm.brk, size⟩ else m.allMmappings s := by
  rw [henters.result]
  simp [entered, update_apply]

/-- The slot was free, so the other mappings have other slots. -/
theorem slot_ne (hlive : Live m p j' slot' addr' size' h') : slot' ≠ slot := by
  rintro rfl
  have hfree := (firstFree_eq_some.mp henters.free).2.1
  rw [hlive.entry] at hfree
  exact hlive.null (by simpa using hfree)

/-- The new mapping. -/
theorem live (hexe : m.vm.exe p ≠ some m.vm.brk)
    (hplace : (UserRegion addr size ∧ Clear addr (4096 * pageCount size)) ∨
      (addr < 2 ^ 31 ∧ 2 ^ 31 ≤ addr + size ∧ 0 < size ∧ size < 2 ^ 31)) :
    Live m' p j slot addr size m.vm.brk :=
  ⟨by rw [henters.index, if_pos rfl], by rw [henters.entry, if_pos rfl], henters.null, hplace,
    by rw [henters.exe]; exact hexe, fun i hi => ⟨none, henters.pages hi⟩⟩

/-- Another mapping. -/
theorem live_other (hlive : Live m p j' slot' addr' size' h') (hm : m.vm.mapping.Sound)
    (hj : j' ≠ j) : Live m' p j' slot' addr' size' h' := by
  refine ⟨by rw [henters.index, if_neg hj, hlive.index],
    by rw [henters.entry, if_neg (henters.slot_ne hlive), hlive.entry], hlive.null, hlive.place,
    by rw [henters.exe]; exact hlive.exe, fun i hi => ?_⟩
  obtain ⟨fr, hspg⟩ := hlive.pages i hi
  exact ⟨fr, (henters.pages_old (hlive.lt_brk hm hi)).trans hspg⟩

/-- The mappings are in order when another one has been entered. -/
theorem tableSound (hm : m.vm.mapping.Sound) (hexe : m.vm.exe p ≠ some m.vm.brk)
    (hplace : (UserRegion addr size ∧ Clear addr (4096 * pageCount size)) ∨
      (addr < 2 ^ 31 ∧ 2 ^ 31 ≤ addr + size ∧ 0 < size ∧ size < 2 ^ 31))
    (htable : TableSound m p) : TableSound m' p := by
  have hnew := henters.live hexe hplace
  -- a mapping is the new one, or an old one with another slot and an older file
  have hcases : ∀ j' < maxMmappings, m'.mmappings p j' ≠ -1 → j' = j ∨
      (j' ≠ j ∧ m.mmappings p j' ≠ -1 ∧ ∃ slot' addr' size' h',
        Live m p j' slot' addr' size' h' ∧ Live m' p j' slot' addr' size' h') := by
    intro j' hj' hne
    by_cases hj : j' = j
    · exact .inl hj
    · rw [henters.index, if_neg hj] at hne
      obtain ⟨slot', addr', size', h', hlive⟩ := htable.live j' hj' hne
      exact .inr ⟨hj, hne, slot', addr', size', h', hlive, henters.live_other hlive hm hj⟩
  have hold : ∀ {j' slot' addr' size' h'}, Live m p j' slot' addr' size' h' →
      (slot' : Int) ≠ slot ∧ h' ≠ m.vm.brk := by
    intro j' slot' addr' size' h' hlive
    have hlt := hlive.lt_brk hm hlive.pageCount_pos
    have hslot := henters.slot_ne hlive
    omega
  refine ⟨fun j' hj' hne => ?_, fun j₁ h₁ j₂ h₂ hne hsame => ?_,
    fun j₁ h₁ j₂ h₂ hne₁ hne₂ hsame => ?_⟩
  · rcases hcases j' hj' hne with rfl | ⟨-, -, slot', addr', size', h', -, hlive⟩
    · exact ⟨_, _, _, _, hnew⟩
    · exact ⟨_, _, _, _, hlive⟩
  · rcases hcases j₁ h₁ hne with rfl | ⟨-, hne₁, s₁, a₁, z₁, f₁, hlive₁, hlive₁'⟩ <;>
      rcases hcases j₂ h₂ (hsame ▸ hne) with rfl | ⟨-, -, s₂, a₂, z₂, f₂, hlive₂, hlive₂'⟩
    · rfl
    · rw [hnew.index, hlive₂'.index] at hsame
      exact absurd hsame.symm (hold hlive₂).1
    · rw [hnew.index, hlive₁'.index] at hsame
      exact absurd hsame (hold hlive₁).1
    · rw [hlive₁'.index, hlive₂'.index] at hsame
      exact htable.slots j₁ h₁ j₂ h₂ hne₁ (by rw [hlive₁.index, hlive₂.index, hsame])
  · rcases hcases j₁ h₁ hne₁ with rfl | ⟨-, hne₁, s₁, a₁, z₁, f₁, hlive₁, hlive₁'⟩ <;>
      rcases hcases j₂ h₂ hne₂ with rfl | ⟨-, hne₂, s₂, a₂, z₂, f₂, hlive₂, hlive₂'⟩
    · rfl
    · rw [hnew.mappedFile_eq, hlive₂'.mappedFile_eq] at hsame
      exact absurd (Option.some.inj hsame).symm (hold hlive₂).2
    · rw [hnew.mappedFile_eq, hlive₁'.mappedFile_eq] at hsame
      exact absurd (Option.some.inj hsame) (hold hlive₁).2
    · rw [hlive₁'.mappedFile_eq, hlive₂'.mappedFile_eq] at hsame
      exact htable.files j₁ h₁ j₂ h₂ hne₁ hne₂
        (by rw [hlive₁.mappedFile_eq, hlive₂.mappedFile_eq, hsame])

end Enters

section Remaining

omit [DecidableEq π]

variable {v : Vm π} (hm : m.vm.mapping.Sound) (hremains : Vm.Remains p m.vm v)
include hm hremains

/-- A mapping of a process that enters no pages. -/
theorem Live.remains (hlive : Live m p j slot addr size h) :
    Live { m with vm := v } p j slot addr size h := by
  refine ⟨hlive.index, hlive.entry, hlive.null, hlive.place, ?_, fun i hi => ?_⟩
  · show v.exe p ≠ some h
    rw [hremains.exe]
    exact hlive.exe
  · obtain ⟨fr, hspg⟩ := hlive.pages i hi
    have hmem : h + 1 + i ∈ m.vm.table p := hm.tabled _ _ (Vm.mapping_page hspg)
    obtain ⟨fr', hspg'⟩ := hremains.pages _ hmem _ hspg rfl (Ne.symm hlive.exe)
    exact ⟨fr', hspg'⟩

theorem TableSound.remains (htable : TableSound m p) : TableSound { m with vm := v } p := by
  refine ⟨fun j hj hne => ?_, htable.slots, htable.files⟩
  obtain ⟨slot, addr, size, h, hlive⟩ := htable.live j hj hne
  exact ⟨slot, addr, size, h, hlive.remains hm hremains⟩

end Remaining

/-! ### Unmapping -/

/-- The mapping `j` is given back, and the first `n` pages of its region are gone. -/
structure Unmapped (m : Maps π) (p : π) (j slot h n : Nat) (m' : Maps π) : Prop where
  result : m' = { m.released p j slot with vm := m'.vm }
  exe : m'.vm.exe = m.vm.exe
  others : ∀ a, (∀ i < n, a ≠ h + 1 + i) → m'.vm.pages a = m.vm.pages a
  gone : ∀ i < n, m'.vm.pages (h + 1 + i) = none

theorem Unmapped.start : Unmapped m p j slot h 0 (m.released p j slot) :=
  ⟨rfl, rfl, fun _ _ => rfl, fun _ hi => absurd hi (Nat.not_lt_zero _)⟩

theorem Unmapped.next {n : Nat} {t : Maps π} {spg : SuppPage π} {k₁ k : Vm π}
    (hun : Unmapped m p j slot h n t) (hout : TakenOut t.vm p (h + 1 + n) spg k₁ k) :
    Unmapped m p j slot h (n + 1) { t with vm := k } := by
  refine ⟨by rw [hun.result], ?_, fun a ha => ?_, fun i hi => ?_⟩
  · show k.exe = m.vm.exe
    rw [← hun.exe, hout.result]
    show k₁.exe = t.vm.exe
    rcases hout.evicted with ⟨-, rfl⟩ | ⟨f, fr', k₂, spg₂, hev⟩
    · rfl
    · exact hev.exe
  · show k.pages a = m.vm.pages a
    rw [hout.pages, update_of_ne (ha n (Nat.lt_succ_self n))]
    exact hun.others a (fun i hi => ha i (by omega))
  · show k.pages (h + 1 + i) = none
    rw [hout.pages, update_apply]
    split_ifs with hsame
    · rfl
    · exact hun.gone i (by omega)

/-- The loop of `munmap` does not start if the end of the region is a negative `off_t`. -/
theorem munmap_past (hj : j < maxMmappings) (hlive : Live m p j slot addr size h)
    (hlow : addr < 2 ^ 31) (hend : 2 ^ 31 ≤ addr + size) (hsize : size < 2 ^ 31) :
    (munmap p j).run m = .ok ((), m.released p j slot) := by
  rw [munmap_run hj hlive.index, hlive.entry]
  exact bind_ok (eachPage_past hlow hend hsize _)

/-- `munmap` of a mapping, while the bytes of a file are in this mapping or in another one.  The
    loop goes over all the pages, or over none if it does not start. -/
theorem munmap_live (hj : j < maxMmappings) (hlive : Live m p j slot' addr' size' h')
    (hm : Mirrors m.vm p addr size fil h l) (he : Exclusive m.vm size h) :
    Returns (munmap p j) m (fun _ m' =>
      (∃ n ≤ pageCount size', (Clear addr' (4096 * pageCount size') → n = pageCount size') ∧
        Unmapped m p j slot' h' n m') ∧
      Mirrors m'.vm p addr size fil h l ∧ Exclusive m'.vm size h) := by
  rcases hlive.place with ⟨hregion, hclear⟩ | ⟨hlow, hend, hpos, hsize⟩
  · rw [Returns, munmap_run hj hlive.index, hlive.entry]
    show Returns (unmapPages p ⟨addr', some h', size'⟩) (m.released p j slot') _
    refine (unmapPages_each hregion hclear (I := fun i t => Unmapped m p j slot' h' i t ∧
      Mirrors t.vm p addr size fil h l ∧ Exclusive t.vm size h) ?_ ⟨.start, hm, he⟩).mono ?_
    · rintro i hi t ⟨hun, hmt, het⟩
      obtain ⟨fr, hspg⟩ := hlive.pages i hi
      have hspg' := (hun.others (h' + 1 + i) (fun i' hi' => by omega)).trans hspg
      refine (unmapPage_returns hmt.sound hspg' (hregion.filePage hi fr) rfl).mono ?_
      rintro _ k ⟨hk, k₁, hout⟩
      exact ⟨hun.next hout, hmt.takenOut het hout hk⟩
    · rintro _ t ⟨hun, hmt, het⟩
      exact ⟨⟨_, le_rfl, fun _ => rfl, hun⟩, hmt, het⟩
  · refine ⟨(), _, munmap_past hj hlive hlow hend hsize,
      ⟨0, Nat.zero_le _, fun hclear => ?_, .start⟩, hm, he⟩
    unfold Clear pageCount at hclear
    omega

namespace Unmapped

variable {n : Nat} (hun : Unmapped m p j slot h n m')
include hun

/-- A page that is not there does not come back. -/
theorem pages_none {a : Nat} (ha : m.vm.pages a = none) : m'.vm.pages a = none := by
  by_cases hin : ∃ i < n, a = h + 1 + i
  · obtain ⟨i, hi, rfl⟩ := hin
    exact hun.gone i hi
  · exact (hun.others a (fun i hi hsame => hin ⟨i, hi, hsame⟩)).trans ha

theorem index (j' : Nat) : m'.mmappings p j' = if j' = j then -1 else m.mmappings p j' := by
  rw [hun.result]
  simp [released, update_apply]

theorem entry {s : Nat} (hs : s ≠ slot) : m'.allMmappings s = m.allMmappings s := by
  rw [hun.result]
  exact update_of_ne hs _ _

/-- Another mapping, with its own slot and file. -/
theorem live_other (hlive : Live m p j slot addr size h)
    (hlive' : Live m p j' slot' addr' size' h') (hn : n ≤ pageCount size) (hj : j' ≠ j)
    (hslot : slot' ≠ slot) (hfile : h' ≠ h) : Live m' p j' slot' addr' size' h' := by
  refine ⟨by rw [hun.index, if_neg hj, hlive'.index], by rw [hun.entry hslot, hlive'.entry],
    hlive'.null, hlive'.place, by rw [hun.exe]; exact hlive'.exe, fun i hi => ?_⟩
  obtain ⟨fr, hspg⟩ := hlive'.pages i hi
  refine ⟨fr, (hun.others _ (fun i' hi' => ?_)).trans hspg⟩
  exact hlive.pages_ne hlive' hfile (by omega) hi

end Unmapped

omit [DecidableEq π] in
/-- What is different of two mappings. -/
theorem TableSound.other (htable : TableSound m p) (hj : j < maxMmappings) (hj' : j' < maxMmappings)
    (hlive : Live m p j slot addr size h) (hlive' : Live m p j' slot' addr' size' h')
    (hne : j' ≠ j) : slot' ≠ slot ∧ h' ≠ h := by
  constructor
  · rintro rfl
    exact hne (htable.slots j' hj' j hj hlive'.used (hlive'.index.trans hlive.index.symm))
  · rintro rfl
    exact hne (htable.files j' hj' j hj hlive'.used hlive.used
      (hlive'.mappedFile_eq.trans hlive.mappedFile_eq.symm))

/-- The mappings that are left are in order. -/
theorem Unmapped.tableSound {n : Nat} (hun : Unmapped m p j slot h n m') (htable : TableSound m p)
    (hj : j < maxMmappings) (hlive : Live m p j slot addr size h) (hn : n ≤ pageCount size) :
    TableSound m' p := by
  have hold : ∀ j' < maxMmappings, m'.mmappings p j' ≠ -1 →
      m.mmappings p j' ≠ -1 ∧ m'.mmappings p j' = m.mmappings p j' ∧
      m'.mappedFile p j' = m.mappedFile p j' ∧
      ∃ slot' addr' size' h', Live m' p j' slot' addr' size' h' := by
    intro j' hj' hne
    have hother : j' ≠ j := by
      rintro rfl
      exact hne (by rw [hun.index, if_pos rfl])
    have hindex : m'.mmappings p j' = m.mmappings p j' := by
      rw [hun.index, if_neg hother]
    obtain ⟨slot', addr', size', h', hlive'⟩ := htable.live j' hj' (hindex ▸ hne)
    obtain ⟨hslot, hfile⟩ := htable.other hj hj' hlive hlive' hother
    have hlive'' := hun.live_other hlive hlive' hn hother hslot hfile
    exact ⟨hindex ▸ hne, hindex, hlive''.mappedFile_eq.trans hlive'.mappedFile_eq.symm, _, _, _, _,
      hlive''⟩
  refine ⟨fun j' hj' hne => (hold j' hj' hne).2.2.2, fun j₁ h₁ j₂ h₂ hne hsame => ?_,
    fun j₁ h₁ j₂ h₂ hne₁ hne₂ hsame => ?_⟩
  · obtain ⟨hne₁, hindex₁, -⟩ := hold j₁ h₁ hne
    obtain ⟨-, hindex₂, -⟩ := hold j₂ h₂ (hsame ▸ hne)
    exact htable.slots j₁ h₁ j₂ h₂ hne₁ (by rw [← hindex₁, hsame, hindex₂])
  · obtain ⟨hne₁', -, hfile₁, -⟩ := hold j₁ h₁ hne₁
    obtain ⟨hne₂', -, hfile₂, -⟩ := hold j₂ h₂ hne₂
    exact htable.files j₁ h₁ j₂ h₂ hne₁' hne₂' (by rw [← hfile₁, hsame, hfile₂])

/-! ### The unmapping of all files -/

/-- The pages of the region are gone. -/
def Gone (m : Maps π) (size h : Nat) : Prop := ∀ i < pageCount size, m.vm.pages (h + 1 + i) = none

/-- The process unmaps its files, and the mapping `j` is still there or its pages are gone. -/
structure Unmapping (m : Maps π) (p : π) (j slot addr size fil h : Nat) (l : List UInt8) :
    Prop where
  table : TableSound m p
  mirrors : Mirrors m.vm p addr size fil h l
  exclusive : Exclusive m.vm size h
  state : Live m p j slot addr size h ∨ Gone m size h

theorem munmap_unused (hj : m.mmappings p j = -1) : (munmap p j).run m = .ok ((), m) := by
  rw [munmap]
  split_ifs
  · rw [read_bind]
    simp only [Int.toNat_natCast, hj]
    rfl
  · rfl

/-- One pass of the loop. -/
theorem Unmapping.munmap (hu : Unmapping m p j slot addr size fil h l) (hj : j < maxMmappings)
    (hclear : Clear addr (4096 * pageCount size)) (hj' : j' < maxMmappings) :
    Returns (munmap p j') m (fun _ m' => Unmapping m' p j slot addr size fil h l ∧
      (Gone m size h ∨ j' = j → Gone m' size h)) := by
  by_cases hunused : m.mmappings p j' = -1
  · refine ⟨(), m, munmap_unused hunused, hu, ?_⟩
    rintro (hgone | rfl)
    · exact hgone
    · exact hu.state.resolve_left (fun hlive => hlive.used hunused)
  · obtain ⟨slot', addr', size', h', hlive'⟩ := hu.table.live j' hj' hunused
    refine (munmap_live hj' hlive' hu.mirrors hu.exclusive).mono ?_
    rintro _ m' ⟨⟨n, hn, hall, hun⟩, hm', he'⟩
    have hkeeps : Gone m size h → Gone m' size h := fun hgone i hi => hun.pages_none (hgone i hi)
    have htable' := hun.tableSound hu.table hj' hlive' hn
    rcases hu.state with hlive | hgone
    · by_cases hsame : j' = j
      · -- the mapping itself
        subst hsame
        cases hlive.mappedFile_eq.symm.trans hlive'.mappedFile_eq
        cases hlive.index.symm.trans hlive'.index
        cases hlive.entry.symm.trans hlive'.entry
        have hgone' : Gone m' size h := fun i hi => hun.gone i (by rw [hall hclear]; exact hi)
        exact ⟨⟨htable', hm', he', .inr hgone'⟩, fun _ => hgone'⟩
      · obtain ⟨hslot, hfile⟩ := hu.table.other hj' hj hlive' hlive (Ne.symm hsame)
        refine ⟨⟨htable', hm', he', .inl
          (hun.live_other hlive' hlive hn (Ne.symm hsame) hslot hfile)⟩, ?_⟩
        rintro (hgone | hsame')
        · exact hkeeps hgone
        · exact absurd hsame' hsame
    · exact ⟨⟨htable', hm', he', .inr (hkeeps hgone)⟩, fun _ => hkeeps hgone⟩

/-- The loop unmaps the mapping `j` if it comes to it. -/
theorem munmapEach_returns {js : List Nat} (hu : Unmapping m p j slot addr size fil h l)
    (hj : j < maxMmappings) (hclear : Clear addr (4096 * pageCount size))
    (hjs : ∀ j' ∈ js, j' < maxMmappings) :
    Returns (munmapEach p js) m (fun _ m' => Unmapping m' p j slot addr size fil h l ∧
      (Gone m size h ∨ j ∈ js → Gone m' size h)) := by
  induction js generalizing m with
  | nil => exact returns_pure.mpr ⟨hu, fun hor => hor.resolve_right (not_mem_nil)⟩
  | cons j' rest ih =>
    refine (hu.munmap hj hclear (hjs j' (mem_cons_self ..))).bind ?_
    rintro _ m₁ ⟨hu₁, hgone₁⟩
    refine (ih hu₁ (fun j'' hj'' => hjs j'' (mem_cons_of_mem _ hj''))).mono ?_
    rintro _ m₂ ⟨hu₂, hgone₂⟩
    refine ⟨hu₂, fun hor => hgone₂ ?_⟩
    rcases hor with hgone | hmem
    · exact .inl (hgone₁ (.inl hgone))
    · rcases mem_cons.mp hmem with hsame | hrest
      · exact .inl (hgone₁ (.inr hsame.symm))
      · exact .inr hrest

end Table

/-! ### The file afterwards -/

section File

variable {m m₁ : Maps π} {p : π} {fd mapping : Int} {fil size : Nat} {v : Vm π} {l : List UInt8}

/-- A region below the middle of the address space does not touch it, or ends there. -/
theorem Enters.place {mapping slot : Nat} (henters : Enters m p addr fil size mapping slot m₁)
    (hlow : addr + 4096 * pageCount size ≤ 2 ^ 31) :
    if addr + size = 2 ^ 31 then addr < 2 ^ 31 ∧ 2 ^ 31 ≤ addr + size ∧ 0 < size ∧ size < 2 ^ 31
    else UserRegion addr size ∧ Clear addr (4096 * pageCount size) := by
  have hpos := henters.positive
  have hnull := henters.null
  have hcount : size ≤ 4096 * pageCount size := by
    unfold pageCount
    omega
  split_ifs with hend
  · omega
  · exact ⟨henters.region (by omega),
      .inr (scanClear_low henters.scanned henters.aligned henters.user (by omega))⟩

/-- A file is mapped below the middle of the address space, and `l` is what it held with what has
    been stored since.  When it is unmapped the file holds `l`, unless the region ends at the middle
    of the address space and something has not been written yet. -/
theorem unmapping_writes_back (hm : m.vm.mapping.Sound) (howned : m.vm.SlotsOwned)
    (hexe : ∀ e, m.vm.exe p = some e → e < m.vm.brk)
    (hfile : m.openFiles (m.files p fd.toNat).toNat = some fil)
    (hsize : (m.vm.files.content fil).length = size)
    (hmap : (mmap p fd addr).run m = .ok (mapping, m₁)) (hok : mapping ≠ mapFailed)
    (hlow : addr + 4096 * pageCount size ≤ 2 ^ 31)
    (hrun : (storing p addr).Run (Undisturbing p addr size fil)
      (m₁.vm, m.vm.files.content fil) (v, l))
    (hlast : OnlyWriter v p addr size fil) :
    l.length = size ∧
    (Returns (munmap p mapping) { m₁ with vm := v } (fun _ m₂ => m₂.vm.files.content fil = l) ↔
      addr + size ≠ 2 ^ 31 ∨ v.files.content fil = l) ∧
    (m.TableSound p → addr + size ≠ 2 ^ 31 →
      Returns (freeMmappings p) { m₁ with vm := v }
        (fun _ m₂ => m₂.vm.files.content fil = l)) := by
  have hcount : size ≤ 4096 * pageCount size := by
    unfold pageCount
    omega
  obtain ⟨j, slot, rfl, henters⟩ :=
    mmap_enters hm hfile hsize (le_trans (by omega) hlow) _ _ hmap hok
  have hexe' : m.vm.exe p ≠ some m.vm.brk := fun he => absurd (hexe _ he) (lt_irrefl _)
  have hmirrors := henters.mirrors hm howned hexe' hsize
  obtain ⟨hremains, hmirrors', hl, hpresent⟩ := run_mirrors hmirrors hsize
    (fun i hi hnone => by cases (henters.pages hi).symm.trans hnone) hrun
  have hexclusive := hlast.exclusive hmirrors' hpresent
  have hplace := henters.place hlow
  obtain ⟨hj, -⟩ := henters.unused
  refine ⟨hl, ?_, fun htable hend => ?_⟩
  · by_cases hend : addr + size = 2 ^ 31
    · -- the loop of `munmap` does not start
      rw [if_pos hend] at hplace
      have hlive := (henters.live hexe' (.inr hplace)).remains hmirrors.sound hremains
      have hpast := munmap_past hj hlive hplace.1 hplace.2.1 hplace.2.2.2
      rw [Returns, hpast]
      simp [hend, released]
    · rw [if_neg hend] at hplace
      have hlive := (henters.live hexe' (.inl hplace)).remains hmirrors.sound hremains
      refine iff_of_true ((munmap_live hj hlive hmirrors' hexclusive).mono ?_) (.inl hend)
      rintro _ m₂ ⟨⟨n, -, hall, hun⟩, hm₂, -⟩
      exact hm₂.content hl (fun i hi => hun.gone i (by rw [hall hplace.2]; exact hi))
  · rw [if_neg hend] at hplace
    have hlive := (henters.live hexe' (.inl hplace)).remains hmirrors.sound hremains
    have htable' := (henters.tableSound hm hexe' (.inl hplace) htable).remains hmirrors.sound
      hremains
    refine (munmapEach_returns ⟨htable', hmirrors', hexclusive, .inl hlive⟩ hj hplace.2
      (fun j' hj' => mem_range.mp hj')).mono ?_
    rintro _ m₂ ⟨hu, hgone⟩
    exact hu.mirrors.content hl (hgone (.inr (mem_range.mpr hj)))

/-- The only page of a file is the page at `addr`, and writes are not denied. -/
def OnlyPage (k : Vm π) (p : π) (addr fil : Nat) : Prop :=
  (∀ b < k.brk, (k.pages b).all
    (fun pg => decide (pg.type = .filesys → pg.pd = p ∧ pg.vaddr = addr)) = true) ∧
  k.files.denyWriteCnt (k.files.inode fil) = 0

instance (k : Vm π) (p : π) (addr fil : Nat) : Decidable (OnlyPage k p addr fil) :=
  inferInstanceAs (Decidable (_ ∧ _))

theorem OnlyPage.onlyWriter {k : Vm π} (h : OnlyPage k p addr fil) (hk : k.mapping.Sound)
    (hpos : 0 < pageCount size) : OnlyWriter k p addr size fil := by
  refine ⟨fun b pg fil' hpg htype _ _ _ => ?_, h.2⟩
  by_cases hlt : b < k.brk
  · have hall := h.1 b hlt
    rw [hpg, Option.all_some, decide_eq_true_eq] at hall
    exact ⟨0, hpos, by simpa using hall htype⟩
  · cases (Vm.mapping_page hpg).symm.trans (hk.fresh b (Nat.le_of_not_lt hlt)).1

/-- A run in which there is no other page of a file. -/
theorem run_onlyPage (size : Nat) {s s' : Vm π × List UInt8} (hpos : 0 < pageCount size)
    (hrun : (storing p addr).Run
      (fun s o => (Vm.exits o = false ∧ Vm.LeavesTable p o) ∧ OnlyPage s.1 p addr fil) s s')
    (hs : s.1.mapping.Sound) :
    (storing p addr).Run (Undisturbing p addr size fil) s s' ∧ s'.1.mapping.Sound := by
  have hstep : ∀ o t t', t.1.mapping.Sound → (storing p addr).Steps o t t' →
      t'.1.mapping.Sound := fun o t t' ht hsteps =>
    (Vm.did_of_steps ht (Machine.recording_steps.mp hsteps).1).sound ht
  refine ⟨?_, Machine.Run.invariant (I := fun s => s.1.mapping.Sound)
    (fun o t t' ht hsteps _ => hstep o t t' ht hsteps) hrun hs⟩
  refine (Machine.Run.and_invariant (I := fun s => s.1.mapping.Sound)
    (fun o t t' ht hsteps _ => hstep o t t' ht hsteps) hrun hs).mono ?_
  rintro t o ⟨⟨⟨hexit, htable⟩, honly⟩, ht⟩
  exact ⟨hexit, htable, honly.onlyWriter ht hpos⟩

end File

/-! ### A store to a mapped file -/

/-- The file of `stackOnly` is mapped at `addr`. -/
def mappedAt (addr : Nat) : Maps Unit := final (mmap () 2 addr) stackOnly

/-- The page is brought in and stored to. -/
def bringInAndStore (addr : Nat) : List (VmOp Unit) :=
  [.pageToNewFrame () 3 false, .store () addr 0 9]

def storedAt (addr : Nat) : Vm Unit × List UInt8 :=
  (storing () addr).after (bringInAndStore addr) ((mappedAt addr).vm, stackOnly.vm.files.content 0)

theorem length_stackOnly : (stackOnly.vm.files.content 0).length = 4096 := length_replicate

theorem slotsOwned_stackOnly : stackOnly.vm.SlotsOwned := Evicting.kept_oneStack.owned.congr rfl rfl

theorem sound_mappedAt (hmap : outcome (mmap () 2 addr) stackOnly = .ok 0)
    (hend : addr + 4096 ≤ 2 ^ 31) : (mappedAt addr).vm.mapping.Sound := by
  have hsound := Evicting.kept_oneStack.sound
  obtain ⟨j, slot, -, henters⟩ := mmap_enters hsound rfl length_stackOnly hend _ _
    (run_of_outcome hmap) (by decide)
  exact (henters.mirrors hsound slotsOwned_stackOnly (by decide) length_stackOnly).sound

theorem run_storedAt (hs : (mappedAt addr).vm.mapping.Sound)
    (hallows : (storing () addr).allows (fun s o => (Vm.exits o = false ∧ Vm.LeavesTable () o) ∧
      OnlyPage s.1 () addr 0) ((mappedAt addr).vm, stackOnly.vm.files.content 0)
      (bringInAndStore addr) = true)
    (hlast : OnlyPage (storedAt addr).1 () addr 0) :
    (storing () addr).Run (Undisturbing () addr 4096 0)
      ((mappedAt addr).vm, stackOnly.vm.files.content 0) ((storedAt addr).1, (storedAt addr).2) ∧
    OnlyWriter (storedAt addr).1 () addr 4096 0 := by
  obtain ⟨hrun, hsound⟩ := run_onlyPage 4096 (by decide) (Machine.run_of_allows hallows) hs
  exact ⟨hrun, hlast.onlyWriter hsound (by decide)⟩

theorem unmapping_writes_back_low :
    (storedAt 0x10000000).2.getD 0 0 = 9 ∧
    Returns (munmap () 0) { mappedAt 0x10000000 with vm := (storedAt 0x10000000).1 }
      (fun _ m₂ => m₂.vm.files.content 0 = (storedAt 0x10000000).2) ∧
    Returns (freeMmappings ()) { mappedAt 0x10000000 with vm := (storedAt 0x10000000).1 }
      (fun _ m₂ => m₂.vm.files.content 0 = (storedAt 0x10000000).2) := by
  have hmap : outcome (mmap () 2 0x10000000) stackOnly = .ok 0 := by decide +kernel
  obtain ⟨hrun, hlast⟩ := run_storedAt (sound_mappedAt hmap (by decide)) (by decide +kernel)
    (by decide +kernel)
  obtain ⟨-, hunmap, hexit⟩ := unmapping_writes_back Evicting.kept_oneStack.sound
    slotsOwned_stackOnly (by intro e he; cases he) rfl length_stackOnly (run_of_outcome hmap)
    (by decide) (by decide) hrun hlast
  exact ⟨by decide +kernel, hunmap.mpr (.inl (by decide)),
    hexit (tableSound_empty (fun _ => rfl)) (by decide)⟩

/-- The page below the middle of the address space is unmapped, and what was stored is lost. -/
theorem munmap_middle_loses :
    outcome (mmap () 2 0x7ffff000) stackOnly = .ok 0 ∧
    0x7ffff000 + 4096 * pageCount 4096 ≤ 2 ^ 31 ∧
    (storing () 0x7ffff000).Run (Undisturbing () 0x7ffff000 4096 0)
      ((mappedAt 0x7ffff000).vm, stackOnly.vm.files.content 0)
      ((storedAt 0x7ffff000).1, (storedAt 0x7ffff000).2) ∧
    OnlyWriter (storedAt 0x7ffff000).1 () 0x7ffff000 4096 0 ∧
    (storedAt 0x7ffff000).2.getD 0 0 = 9 ∧
    outcome (munmap () 0) { mappedAt 0x7ffff000 with vm := (storedAt 0x7ffff000).1 } = .ok () ∧
    ((final (munmap () 0)
      { mappedAt 0x7ffff000 with vm := (storedAt 0x7ffff000).1 }).vm.files.content 0).getD 0 0 =
        1 := by
  have hmap : outcome (mmap () 2 0x7ffff000) stackOnly = .ok 0 := by decide +kernel
  obtain ⟨hrun, hlast⟩ := run_storedAt (sound_mappedAt hmap (by decide)) (by decide +kernel)
    (by decide +kernel)
  exact ⟨hmap, by decide, hrun, hlast, by decide +kernel, by decide +kernel, by decide +kernel⟩

end Maps

end KernelSanders

import KernelSanders.Userprog.MmapExact

namespace KernelSanders

open Lib Lib.Exec
open Function hiding update
open List

/-!
# The contents of a mapped file

The bytes of a mapped file are in its pages and in the file: what a page has that the file does not
have yet is in a frame, and the page is dirty.  When a page is gone its bytes are in the file.
`Mirrors` says so for the whole mapping, and every eviction keeps it, as long as no other page is
written to the file (`Mirrors.evicts`), as does taking a page out of the table
(`Mirrors.takenOut`).
-/

namespace Files

variable {fs fs' : Files} {fil fil' : Nat} {buffer : PageData} {size offset n : Int}

/-- A write that ends inside the file does not change its length. -/
theorem writeAt_length (h : fs.writeAt fil buffer size offset = .ok (n, fs'))
    (hfit : fs.inode fil' = fs.inode fil → offset.toNat + size.toNat ≤ (fs.content fil').length) :
    (fs'.content fil').length = (fs.content fil').length ∧
      fs'.denyWriteCnt = fs.denyWriteCnt := by
  unfold writeAt at h
  split_ifs at h with hdeny hrange
  · cases h
    exact ⟨rfl, rfl⟩
  · cases h
    refine ⟨?_, rfl⟩
    simp only [content, update_apply]
    split_ifs with hinode
    · have hle := hfit hinode
      rw [content, hinode] at hle
      rw [length_splice, length_taken, hinode]
      exact max_eq_left hle
    · rfl

end Files

namespace Maps

variable {π : Type} {spg : SuppPage π} {i : Nat}

/-- The bytes of a file that are in the page `i` of its mapping. -/
def pageOf (l : List UInt8) (i : Nat) : PageData := fun j => l.getD (4096 * i + j) 0

theorem byte_pageOf {l : List UInt8} {j : Nat} (hj : j < 4096) :
    (pageOf l i).byte j = l.getD (4096 * i + j) 0 :=
  Bytes.byte_of_lt _ hj

/-- The pages of a mapping of `fil`, which is open as `h` for that, and the file hold `l`.  The
    pages have been allocated after `h`. -/
structure Mirrors (k : Vm π) (p : π) (addr size fil h : Nat) (l : List UInt8) : Prop where
  sound : k.mapping.Sound
  owned : k.SlotsOwned
  exe : k.exe p ≠ some h
  inode : k.files.inode h = k.files.inode fil
  length : (k.files.content h).length = size
  page : ∀ i < pageCount size, ∀ spg, k.pages (h + 1 + i) = some spg →
    spg = { regionPage p addr size h i with fr := spg.fr } ∧ Vm.PageHolds k (pageOf l i) spg
  saved : ∀ i < pageCount size, k.pages (h + 1 + i) = none → ∀ j < 4096, 4096 * i + j < size →
    (k.files.content h).getD (4096 * i + j) 0 = l.getD (4096 * i + j) 0

/-- No other page is to be written to the file, and the pages of the mapping can be. -/
structure Exclusive (k : Vm π) (size h : Nat) : Prop where
  sole : ∀ b pg fil, k.pages b = some pg → pg.type = .filesys → pg.fil = some fil →
    k.files.inode fil = k.files.inode h → k.dirty pg = true → ∃ i < pageCount size, b = h + 1 + i
  allowed : k.files.denyWriteCnt (k.files.inode h) = 0

/-- What is known of a page of the mapping, whatever frame it is in. -/
theorem regionPage_fields {p : π} {addr size h : Nat}
    (hform : spg = { regionPage p addr size h i with fr := spg.fr }) :
    spg.type = .filesys ∧ spg.fil = some h ∧ spg.offset.toNat = 4096 * i ∧
      spg.bytes.toNat = min 4096 (size - 4096 * i) := by
  obtain ⟨fr, pd, vaddr, type, wr, fil, offset, bytes, swap⟩ := spg
  simp only [regionPage, SuppPage.mk.injEq] at hform
  obtain ⟨-, -, -, rfl, -, rfl, rfl, rfl, -⟩ := hform
  exact ⟨rfl, rfl, Int.toNat_natCast _, Int.toNat_natCast _⟩

section

variable {k k' : Vm π} {p : π} {addr size fil h : Nat} {l : List UInt8}

/-- All bytes are in the file when the pages are gone. -/
theorem Mirrors.content (hm : Mirrors k p addr size fil h l) (hl : l.length = size)
    (hgone : ∀ i < pageCount size, k.pages (h + 1 + i) = none) : k.files.content fil = l := by
  have hsame : k.files.content fil = k.files.content h := by
    rw [Files.content, Files.content, hm.inode]
  rw [hsame]
  have hlength := hm.length
  refine ext_getElem (hlength.trans hl.symm) (fun x hx hx' => ?_)
  have hsaved := hm.saved (x / 4096) (by unfold pageCount; omega) (hgone _ (by
    unfold pageCount
    omega)) (x % 4096) (by omega) (by omega)
  rw [Nat.div_add_mod] at hsaved
  rw [← getD_eq_getElem _ 0 hx, ← getD_eq_getElem _ 0 hx']
  exact hsaved

/-- The pages of the mapping have no bytes in common. -/
theorem Mirrors.undisturbed (hm : Mirrors k p addr size fil h l) (he : Exclusive k size h)
    (hi : i < pageCount size) : k.Undisturbed (h + 1 + i) := by
  constructor
  · rintro spg hspg - b pg hb hpg type hdirty ⟨fil₁, fil₂, hfil₁, hfil₂, hinode, hlow, hhigh⟩
    obtain ⟨-, hfil, hoffset, hbytes⟩ := regionPage_fields (hm.page i hi spg hspg).1
    cases hfil.symm.trans hfil₁
    obtain ⟨i', hi', rfl⟩ := he.sole b pg fil₂ hpg type hfil₂ hinode.symm hdirty
    obtain ⟨-, -, hoffset', hbytes'⟩ := regionPage_fields (hm.page i' hi' pg hpg).1
    omega
  · intro spg fil₁ hspg _ _ hfil₁
    cases (regionPage_fields (hm.page i hi spg hspg).1).2.1.symm.trans hfil₁
    exact he.allowed

variable [DecidableEq π]

/-! ### Evictions -/

section Evictions

variable {f b : Nat} {fr : Frame} {pg pg₁ : SuppPage π} {k₁ : Vm π}

section

variable (hm : Mirrors k p addr size fil h l) (hev : Vm.Evicts k f fr b pg k₁ pg₁ k')
include hm hev

/-- What an eviction does to the file: only bytes of the page change. -/
theorem Mirrors.evicted_file (he : Exclusive k size h) :
    k'.files.inode = k.files.inode ∧ k'.files.denyWriteCnt = k.files.denyWriteCnt ∧
      (k'.files.content h).length = size ∧
      ∀ x, (∀ i < pageCount size, b = h + 1 + i → ¬ (4096 * i ≤ x ∧ x < 4096 * i + 4096)) →
        (k'.files.content h).getD x 0 = (k.files.content h).getD x 0 := by
  have hresult := hev.result
  rw [hresult]
  cases hev.out with
  | clean | swap => exact ⟨rfl, rfl, hm.length, fun _ _ => rfl⟩
  | file fil' n files type hdirty hfil write =>
    -- a page that is written to the same inode is one of the mapping
    have hregion : k.files.inode h = k.files.inode fil' → ∃ i < pageCount size,
        b = h + 1 + i ∧ pg.offset.toNat = 4096 * i ∧
          pg.bytes.toNat = min 4096 (size - 4096 * i) := by
      intro hinode
      obtain ⟨i, hi, rfl⟩ := he.sole b pg fil' hev.entry type hfil hinode.symm hdirty
      exact ⟨i, hi, rfl, (regionPage_fields (hm.page i hi pg hev.entry).1).2.2⟩
    have hfit : k.files.inode h = k.files.inode fil' →
        pg.offset.toNat + pg.bytes.toNat ≤ (k.files.content h).length := by
      intro hinode
      obtain ⟨i, hi, -, hoffset, hbytes⟩ := hregion hinode
      have hsize := hm.length
      unfold pageCount at hi
      omega
    obtain ⟨hlength, hdeny⟩ := Files.writeAt_length write hfit
    obtain ⟨hinode, hother⟩ := Files.writeAt_outside write
    refine ⟨hinode, hdeny, hlength.trans hm.length, fun x hx => ?_⟩
    refine hother h x (fun ⟨hsame, hlow, hhigh⟩ => ?_)
    obtain ⟨i, hi, hb, hoffset, hbytes⟩ := hregion hsame
    exact hx i hi hb (by omega)

/-- A page of the mapping is still one when a page has been evicted. -/
theorem Mirrors.evicted_form (hi : i < pageCount size) (hspg : k'.pages (h + 1 + i) = some spg) :
    spg = { regionPage p addr size h i with fr := spg.fr } := by
  by_cases hb : h + 1 + i = b
  · subst hb
    have hform := (hm.page i hi pg hev.entry).1
    have hsame : pg₁ = pg := by
      cases hev.out with
      | clean | file => rfl
      | swap s hswap => cases (regionPage_fields hform).1.symm.trans hswap
    cases hev.pages_self.symm.trans hspg
    rw [hsame, hform]
  · rw [hev.pages_of_ne hb] at hspg
    exact (hm.page i hi spg hspg).1

/-- An eviction leaves the bytes where they have to be. -/
theorem Mirrors.evicts (he : Exclusive k size h) : Mirrors k' p addr size fil h l := by
  obtain ⟨hinode, -, hlength, hbytes⟩ := hm.evicted_file hev he
  refine ⟨hev.sound hm.sound, hm.owned.evicts hev, ?_, ?_, hlength, fun i hi spg hspg => ?_,
    fun i hi hnone j hj hjs => ?_⟩
  · rw [hev.exe]
    exact hm.exe
  · rw [hinode]
    exact hm.inode
  · have hkept : Vm.Kept k (h + 1 + i) (pageOf l i) :=
      ⟨hm.sound, hm.owned, fun spg hspg => (hm.page i hi spg hspg).2⟩
    exact ⟨hm.evicted_form hev hi hspg, (hkept.evicts (hm.undisturbed he hi) hev).holds spg hspg⟩
  · -- the page that is evicted is not gone, so it is another one
    have hne : h + 1 + i ≠ b := by
      rintro rfl
      cases hev.pages_self.symm.trans hnone
    rw [hev.pages_of_ne hne] at hnone
    rw [hbytes _ (fun i' _ hi' => by omega)]
    exact hm.saved i hi hnone j hj hjs

theorem Mirrors.evicts_exclusive (he : Exclusive k size h) : Exclusive k' size h := by
  obtain ⟨hinode, hdeny, -, -⟩ := hm.evicted_file hev he
  constructor
  · intro b' pg' fil' hpg' type hfil hsame hdirty
    rw [hinode] at hsame
    by_cases hb : b' = b
    · -- the page that was evicted is clean
      subst hb
      cases hev.pages_self.symm.trans hpg'
      have hfile : pg.type = .filesys := by
        have hout := hev.out
        cases hout with
        | clean htype | file _ _ _ htype => exact htype
        | swap s hswap => cases hswap.symm.trans type
      cases (hev.dirty_self hfile).symm.trans hdirty
    · rw [hev.pages_of_ne hb] at hpg'
      rw [hev.dirty_of_ne hm.sound hpg' hb] at hdirty
      exact he.sole b' pg' fil' hpg' type hfil hsame hdirty
  · rw [hinode, hdeny]
    exact he.allowed

end

end Evictions

/-! ### Taking pages out -/

section TakingOut

variable {a : Nat} {k₁ : Vm π}

/-- A page that is not in a frame is taken out of the table. -/
theorem Mirrors.unlisted (hm : Mirrors k p addr size fil h l) (hspg : k.pages a = some spg)
    (hfr : spg.fr = none) (hk' : (k.unlisted p a).mapping.Sound) :
    Mirrors (k.unlisted p a) p addr size fil h l := by
  have hpages : ∀ b, (k.unlisted p a).pages b = if b = a then none else k.pages b :=
    fun b => update_apply _ _ _ _
  have howned : (k.unlisted p a).SlotsOwned := by
    have hout : ∀ b pg, (k.unlisted p a).SwappedOut b pg → k.SwappedOut b pg := by
      rintro b pg ⟨hpg, hrest⟩
      rw [hpages] at hpg
      split_ifs at hpg
      exact ⟨hpg, hrest⟩
    exact ⟨fun b pg hb => hm.owned.inUse b pg (hout b pg hb),
      fun b b' pg pg' s hb hb' => hm.owned.unique b b' pg pg' s (hout b pg hb) (hout b' pg' hb')⟩
  refine ⟨hk', howned, hm.exe, hm.inode, hm.length, fun i hi pg hpg => ?_,
    fun i hi hnone j hj hjs => ?_⟩
  · rw [hpages] at hpg
    split_ifs at hpg
    obtain ⟨hform, hholds⟩ := hm.page i hi pg hpg
    exact ⟨hform, hholds.leaves ⟨fun _ _ => ⟨rfl, fun _ _ => rfl⟩, fun _ _ _ _ => rfl,
      fun _ _ _ _ _ => rfl, rfl, rfl⟩⟩
  · rw [hpages] at hnone
    split_ifs at hnone with ha
    · -- its bytes are in the file because it is clean
      rw [← ha] at hspg
      obtain ⟨hform, hholds⟩ := hm.page i hi spg hspg
      obtain ⟨htype, hfil, hoffset, hbytes⟩ := regionPage_fields hform
      have hbyte := hholds.file htype (hholds.clean htype hfr) h hfil j (by omega) hj
      rw [hoffset, byte_pageOf hj] at hbyte
      exact hbyte
    · exact hm.saved i hi hnone j hj hjs

/-- A page is taken out of its frame and of the table. -/
theorem Mirrors.takenOut (hm : Mirrors k p addr size fil h l) (he : Exclusive k size h)
    (hout : TakenOut k p a spg k₁ k') (hk' : k'.mapping.Sound) :
    Mirrors k' p addr size fil h l ∧ Exclusive k' size h := by
  have hentry : k₁.pages a = some { spg with fr := none } := by
    rw [hout.entry]
    exact update_self _ _ _
  obtain ⟨hm₁, he₁⟩ : Mirrors k₁ p addr size fil h l ∧ Exclusive k₁ size h := by
    rcases hout.evicted with ⟨-, rfl⟩ | ⟨f, fr, k₂, spg₂, hev⟩
    · exact ⟨hm, he⟩
    · exact ⟨hm.evicts hev he, hm.evicts_exclusive hev he⟩
  rw [hout.result] at hk' ⊢
  refine ⟨hm₁.unlisted hentry rfl hk', fun b pg fil' hpg => ?_, he₁.allowed⟩
  have hb : k₁.pages b = some pg := by
    simp only [Vm.unlisted, update_apply] at hpg
    split_ifs at hpg
    exact hpg
  exact he₁.sole b pg fil' hb

end TakingOut

/-! ### Making room for a page -/

section

omit [DecidableEq π]

variable {out : List Nat}

theorem Mirrors.reordered (hm : Mirrors k p addr size fil h l) (hr : Vm.Reordered k out k') :
    Mirrors k' p addr size fil h l := by
  have hsound : k'.mapping.Sound := by
    rw [Vm.mapping_reordered hr]
    exact hm.sound
  have hleaves : ∀ spg, Vm.Leaves k spg k' := fun _ => Vm.leaves_reordered hr
  rw [hr.result] at hsound hleaves ⊢
  refine ⟨hsound, hm.owned.congr rfl rfl, hm.exe, hm.inode, hm.length, fun i hi spg hspg => ?_,
    hm.saved⟩
  obtain ⟨hform, hholds⟩ := hm.page i hi spg hspg
  exact ⟨hform, hholds.leaves (hleaves spg)⟩

theorem Exclusive.reordered (he : Exclusive k size h) (hr : Vm.Reordered k out k') :
    Exclusive k' size h := by
  have hdirty : ∀ spg, k'.dirty spg = k.dirty spg := fun _ => (Vm.leaves_reordered hr).dirty
  rw [hr.result] at hdirty ⊢
  refine ⟨fun b pg fil' hpg type hfil => ?_, he.allowed⟩
  rw [hdirty]
  exact he.sole b pg fil' hpg type hfil

end

theorem Mirrors.makesRoom (hm : Mirrors k p addr size fil h l) (he : Exclusive k size h)
    (hroom : Vm.MakesRoom k k') : Mirrors k' p addr size fil h l := by
  cases hroom with
  | free => exact hm
  | evict g k₀ fr b pg k₁ pg₁ _ chosen hev =>
    exact (hm.reordered chosen.reordered).evicts hev (he.reordered chosen.reordered)

end

/-! ### Runs -/

/-- What the file should hold after a step: the bytes that the program of `p` has stored to the
    pages of the mapping at `addr`, up to the end of the file. -/
def recordStore [DecidableEq π] (p : π) (addr : Nat) : VmOp π → List UInt8 → List UInt8
  | .store q upage ofs byte, l =>
    if q = p ∧ addr ≤ upage ∧ pgOfs (upage - addr) = 0 then l.set (upage - addr + ofs) byte else l
  | _, l => l

/-- Virtual memory, and what the file should hold. -/
def storing [DecidableEq π] (p : π) (addr : Nat) : Machine (Vm π × List UInt8) (VmOp π) :=
  (KernelSanders.vm π).recording (fun _ o _ l => recordStore p addr o l)

/-- A page that is to be written to the file is a page of the mapping, and writes are not denied. -/
structure OnlyWriter (k : Vm π) (p : π) (addr size fil : Nat) : Prop where
  sole : ∀ b pg fil', k.pages b = some pg → pg.type = .filesys → pg.fil = some fil' →
    k.files.inode fil' = k.files.inode fil → k.dirty pg = true →
      ∃ i < pageCount size, pg.pd = p ∧ pg.vaddr = addr + 4096 * i
  allowed : k.files.denyWriteCnt (k.files.inode fil) = 0

/-- No process exits, `p` enters no pages, and nobody else writes to the file. -/
structure Undisturbing [DecidableEq π] (p : π) (addr size fil : Nat) (s : Vm π × List UInt8)
    (o : VmOp π) : Prop where
  stays : Vm.exits o = false
  table : Vm.LeavesTable p o
  writer : OnlyWriter s.1 p addr size fil

section Steps

variable [DecidableEq π] {k k' : Vm π} {p : π} {addr size fil h : Nat} {l : List UInt8} {o : VmOp π}

theorem length_recordStore : (recordStore p addr o l).length = l.length := by
  cases o with
  | store q upage ofs byte =>
    rw [recordStore]
    split_ifs
    · exact length_set
    · rfl
  | _ => rfl

section

omit [DecidableEq π]

theorem OnlyWriter.exclusive (ho : OnlyWriter k p addr size fil)
    (hm : Mirrors k p addr size fil h l)
    (hpresent : ∀ i < pageCount size, k.pages (h + 1 + i) ≠ none) : Exclusive k size h := by
  constructor
  · intro b pg fil' hpg type hfil hinode hdirty
    rw [hm.inode] at hinode
    obtain ⟨i, hi, hpd, hvaddr⟩ := ho.sole b pg fil' hpg type hfil hinode hdirty
    obtain ⟨spg, hspg⟩ := Option.ne_none_iff_exists'.mp (hpresent i hi)
    have hform := (hm.page i hi spg hspg).1
    refine ⟨i, hi, hm.sound.keys b (h + 1 + i) _ _ (Vm.mapping_page hpg) (Vm.mapping_page hspg)
      (hpd.trans ?_) (hvaddr.trans ?_)⟩
    · rw [hform]
      rfl
    · rw [hform]
      rfl
  · rw [hm.inode]
    exact ho.allowed

/-- Of a page of the mapping only the bytes of the file matter. -/
theorem holds_congr {d d' : PageData}
    (hform : spg = { regionPage p addr size h i with fr := spg.fr }) (hexe : k.exe p ≠ some h)
    (hbytes : ∀ j < 4096, 4096 * i + j < size → d.byte j = d'.byte j)
    (hholds : Vm.PageHolds k d spg) : Vm.PageHolds k d' spg := by
  obtain ⟨htype, hfil, hoffset, hcount⟩ := regionPage_fields hform
  have hwr : spg.wr = true := by
    rw [hform]
    rfl
  have hnot : spg.fil ≠ k.exe spg.pd := by
    rw [hfil, hform]
    exact Ne.symm hexe
  constructor
  · intro f fr hf hfr j hj hj'
    rw [hholds.resident f fr hf hfr j hj hj']
    rw [Vm.keptBytes, if_pos ⟨htype, hwr⟩] at hj
    exact hbytes j hj' (by omega)
  · intro hswap
    cases htype.symm.trans hswap
  · intro _ hclean fil' hfil' j hj hj'
    rw [hholds.file htype hclean fil' hfil' j hj hj']
    exact hbytes j hj' (by omega)
  · exact fun _ hmapped => absurd ⟨hwr, hnot⟩ hmapped
  · exact fun _ _ hsame => absurd hsame hnot
  · exact hholds.clean

/-- What the program expects of a page of `p`: only its stores change it. -/
theorem remember_page {a : Nat} {d : PageData} (hk' : k'.mapping.Sound)
    (hspg : k'.pages a = some spg) (hpd : spg.pd = p) (ho : Vm.LeavesTable p o) :
    k.remember o k' (fun _ => d) a = match o with
      | .store q upage ofs byte =>
        if k.lookup q upage = some a then d.copyIn ofs 1 (fun _ => byte) else d
      | _ => d := by
  -- a page that another process enters is not in the table of `p`
  have hother : ∀ q v b, q ≠ p → k'.lookup q v = some b → a ≠ b := by
    rintro q v _ hq hfound rfl
    obtain ⟨c, hc, rfl⟩ := hk'.listed q a (mem_of_find?_eq_some hfound)
    cases (Vm.mapping_page hspg).symm.trans hc
    exact hq hpd
  cases o with
  | createFilesysPage q v | growStack q v =>
    simp only [Vm.remember]
    cases hfound : k'.lookup q v with
    | none => rfl
    | some b => exact update_of_ne (hother q v b ho hfound) _ _
  | store q upage ofs byte =>
    simp only [Vm.remember]
    cases hfound : k.lookup q upage with
    | none => simp
    | some b =>
      simp only [update_apply, Option.some.injEq, eq_comm]
  | _ => rfl

end

/-- The files after a step that does not let a process exit. -/
theorem Mirrors.did_files (hm : Mirrors k p addr size fil h l) (he : Exclusive k size h)
    (hexit : Vm.exits o = false) (hdid : Vm.Did k o k') :
    k'.files.inode h = k'.files.inode fil ∧ (k'.files.content h).length = size := by
  have hsame : ∀ k₀, Mirrors k₀ p addr size fil h l → k'.files = k₀.files →
      k'.files.inode h = k'.files.inode fil ∧ (k'.files.content h).length = size := by
    intro k₀ hm₀ hfiles
    rw [hfiles]
    exact ⟨hm₀.inode, hm₀.length⟩
  cases hdid with
  | createFilesysPage registers => exact hsame k hm (by rw [registers.result]; rfl)
  | growStack grows =>
    refine hsame _ (hm.makesRoom he grows.creates.room) ?_
    rw [grows.result]
    dsimp only
    split_ifs <;> simp only [Vm.setPte, grows.registers.result, grows.creates.result]
  | pageToNewFrame mem pagesIn =>
    refine hsame _ (hm.makesRoom he pagesIn.creates.room) ?_
    have hresult := pagesIn.result
    cases pagesIn.populated <;>
      simp only [hresult, pagesIn.creates.result, Vm.setPte, Vm.attached]
  | frameEvict evicts => exact hsame k' (hm.evicts evicts he) rfl
  | freeSuppPageTable => cases hexit
  | store | load | touch => exact hsame k hm rfl
  | setDenyWrite => exact ⟨hm.inode, hm.length⟩

/-- A store to another page is not recorded as one to the page `i`. -/
theorem getD_recordStore {q : π} {upage ofs j : Nat} {byte : UInt8} (hofs : ofs < 4096)
    (hj : j < 4096) :
    (recordStore p addr (.store q upage ofs byte) l).getD (4096 * i + j) 0 =
      if q = p ∧ upage = addr + 4096 * i ∧ ofs = j ∧ 4096 * i + j < l.length then byte
      else l.getD (4096 * i + j) 0 := by
  have hset : (l.set (upage - addr + ofs) byte).getD (4096 * i + j) 0 =
      if upage - addr + ofs = 4096 * i + j ∧ 4096 * i + j < l.length then byte
      else l.getD (4096 * i + j) 0 := by
    by_cases hlt : 4096 * i + j < l.length
    · rw [getD_eq_getElem _ _ (by rwa [length_set]), getElem_set, getD_eq_getElem _ _ hlt]
      simp only [hlt, and_true]
    · rw [getD_eq_default _ _ (by rw [length_set]; omega),
        getD_eq_default _ _ (by omega), if_neg (by omega)]
  rw [recordStore]
  unfold pgOfs pgSize
  by_cases hq : q = p
  · by_cases hpage : addr ≤ upage ∧ (upage - addr) % 4096 = 0
    · rw [if_pos ⟨hq, hpage⟩, hset]
      refine if_congr ?_ rfl rfl
      simp only [hq, true_and]
      constructor <;> intro <;> omega
    · rw [if_neg (fun hin => hpage hin.2), if_neg (by omega)]
  · rw [if_neg (fun hin => hq hin.1), if_neg (fun hin => hq hin.1)]

theorem remains_of_did (hk : k.mapping.Sound) (hexit : Vm.exits o = false)
    (htable : Vm.LeavesTable p o) (hdid : Vm.Did k o k') : Vm.Remains p k k' := by
  refine .did hdid hk htable ?_
  rintro q order rfl
  cases hexit

/-- A step that leaves the pages of the mapping where they are. -/
theorem Mirrors.did (hm : Mirrors k p addr size fil h l) (hl : l.length = size)
    (he : Exclusive k size h) (hpresent : ∀ i < pageCount size, k.pages (h + 1 + i) ≠ none)
    (hexit : Vm.exits o = false) (htable : Vm.LeavesTable p o) (hdid : Vm.Did k o k') :
    Mirrors k' p addr size fil h (recordStore p addr o l) ∧
      ∀ i < pageCount size, k'.pages (h + 1 + i) ≠ none := by
  have hk' := hdid.sound hm.sound
  have hremains := remains_of_did hm.sound hexit htable hdid
  have hclean : k.ExitsClean o := by
    cases o with
    | freeSuppPageTable => cases hexit
    | _ => trivial
  -- the pages are there, in other frames
  have hpages : ∀ i < pageCount size, ∃ spg fr, k.pages (h + 1 + i) = some spg ∧
      spg = { regionPage p addr size h i with fr := spg.fr } ∧
      k'.pages (h + 1 + i) = some { spg with fr := fr } := by
    intro i hi
    obtain ⟨spg, hspg⟩ := Option.ne_none_iff_exists'.mp (hpresent i hi)
    have hform := (hm.page i hi spg hspg).1
    have hpd : spg.pd = p := by
      rw [hform]
      rfl
    have hmem : h + 1 + i ∈ k.table spg.pd := hm.sound.tabled _ _ (Vm.mapping_page hspg)
    obtain ⟨htype, hfil, -⟩ := regionPage_fields hform
    obtain ⟨fr, hfr⟩ := hremains.pages _ (hpd ▸ hmem) spg hspg htype (hfil ▸ hm.exe.symm)
    exact ⟨spg, fr, hspg, hform, hfr⟩
  obtain ⟨hinode, hlength⟩ := hm.did_files he hexit hdid
  have hexe : k'.exe p ≠ some h := by
    rw [hremains.exe]
    exact hm.exe
  have hthere : ∀ i < pageCount size, k'.pages (h + 1 + i) ≠ none := by
    intro i hi
    obtain ⟨spg, fr, -, -, hspg'⟩ := hpages i hi
    rw [hspg']
    simp
  refine ⟨⟨hk', hm.owned.did hm.sound hdid hclean, hexe, hinode, hlength, fun i hi spg' hspg' => ?_,
    fun i hi hnone => absurd hnone (hthere i hi)⟩, hthere⟩
  obtain ⟨spg, fr, hspg, hform, hspg''⟩ := hpages i hi
  cases hspg''.symm.trans hspg'
  have hform' : { spg with fr := fr } = { regionPage p addr size h i with fr := fr } := by
    rw [hform]
  have hpd : spg.pd = p := by
    rw [hform]
    rfl
  have hvaddr : spg.vaddr = addr + 4096 * i := by
    rw [hform]
    rfl
  have hkept : Vm.Kept k (h + 1 + i) (pageOf l i) :=
    ⟨hm.sound, hm.owned, fun spg hspg => (hm.page i hi spg hspg).2⟩
  have hkept' : Vm.Kept k' (h + 1 + i) (k.remember o k' (fun _ => pageOf l i) (h + 1 + i)) :=
    Vm.Kept.did hkept (hm.undisturbed he hi) hexit hdid
  have hholds := hkept'.holds _ hspg'
  rw [remember_page hk' hspg' hpd htable] at hholds
  refine ⟨hform', holds_congr hform' hexe (fun j hj hjs => ?_) hholds⟩
  cases o with
  | store q upage ofs byte =>
    cases hdid with
    | store present writable inside =>
      obtain ⟨b, pg, g, gr, hpg, rfl, rfl, -⟩ := Vm.page_of_present hm.sound present
      have hpgb := Vm.lookup_of_page hm.sound hpg
      have hlookup : k.lookup pg.pd pg.vaddr = some (h + 1 + i) ↔
          pg.pd = p ∧ pg.vaddr = addr + 4096 * i := by
        constructor
        · intro hfound
          cases hpgb.symm.trans hfound
          cases hpg.symm.trans hspg
          exact ⟨hpd, hvaddr⟩
        · rintro ⟨hp, hv⟩
          rw [hpgb]
          exact congrArg some (hm.sound.keys b (h + 1 + i) _ _ (Vm.mapping_page hpg)
            (Vm.mapping_page hspg) (hp.trans hpd.symm) (hv.trans hvaddr.symm))
      rw [byte_pageOf hj, getD_recordStore inside hj]
      simp only [hlookup]
      by_cases hhere : pg.pd = p ∧ pg.vaddr = addr + 4096 * i
      · rw [if_pos hhere, Bytes.byte_copyIn _ _ _ _ hj, byte_pageOf hj]
        refine if_congr ?_ rfl rfl
        simp only [hhere.1, hhere.2, true_and]
        omega
      · rw [if_neg hhere, if_neg (fun hin => hhere ⟨hin.1, hin.2.1⟩), byte_pageOf hj]
  | _ => rfl

/-- What a run leaves of the mapping. -/
theorem run_mirrors {v : Vm π} {l' : List UInt8} (hm : Mirrors k p addr size fil h l)
    (hl : l.length = size) (hpresent : ∀ i < pageCount size, k.pages (h + 1 + i) ≠ none)
    (hrun : (storing p addr).Run (Undisturbing p addr size fil) (k, l) (v, l')) :
    Vm.Remains p k v ∧ Mirrors v p addr size fil h l' ∧ l'.length = size ∧
      ∀ i < pageCount size, v.pages (h + 1 + i) ≠ none := by
  refine Machine.Run.invariant (I := fun s => Vm.Remains p k s.1 ∧
    Mirrors s.1 p addr size fil h s.2 ∧ s.2.length = size ∧
      ∀ i < pageCount size, s.1.pages (h + 1 + i) ≠ none) ?_ hrun
    ⟨.of_eq rfl rfl (fun _ _ => rfl), hm, hl, hpresent⟩
  rintro o s s' ⟨hremains, hm, hl, hpresent⟩ hsteps hP
  obtain ⟨hsteps, hrecord⟩ := Machine.recording_steps.mp hsteps
  have hdid := Vm.did_of_steps hm.sound hsteps
  obtain ⟨hm', hpresent'⟩ := hm.did hl (hP.writer.exclusive hm hpresent) hpresent hP.stays hP.table
    hdid
  rw [hrecord]
  exact ⟨hremains.trans (remains_of_did hm.sound hP.stays hP.table hdid), hm',
    length_recordStore.trans hl, hpresent'⟩

end Steps

end Maps

end KernelSanders

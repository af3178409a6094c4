import KernelSanders.Filesys.Allocation

namespace KernelSanders

open Lib Lib.Exec
open Function hiding update
open List

/-!
# `inode_extend`: growing a file block by block

Block `k` is added by attaching the nodes of its path that are missing, from the outermost one to
the block itself.  Every function on the way has the same kind of specification, `Grows`: the disk
has `Grown`, to the tree wanted if the function returned `true`, and otherwise up to a point where
the free map had no free bit.

* `allocateCleared_does` — one attachment;
* `growBlock_does` — one block: the double indirect block for block `5180`, an index block for
  the first block below it, and the block.  Blocks that are not `Growable` stop the kernel;
* `inodeExtend_does` — the whole loop.
-/

/-- `U` with the tree `P` at the inode at sector `r`. -/
def With (U : Nat → Path → Prop) (r : Nat) (P : Path → Prop) : Nat → Path → Prop :=
  fun r' p => (r' ≠ r ∧ U r' p) ∨ (r' = r ∧ P p)

/-- The free map does not run past the `n` sectors of the device before `c` sectors are taken:
    there are `c` free ones, or the free bits are all below `n`. -/
def Disk.Roomy (d : Disk) (n c : Nat) : Prop := c ≤ d.room n ∨ d.room n = d.spare

/-- The blocks that `inode_extend` can add.  For the blocks behind the first one below the double
    indirect block, up to the end of its first index block, `grow_double_indirect` wants to
    allocate the double indirect block a second time. -/
def Growable (k : Nat) : Prop := k < maxBlocks ∧ ¬ (5180 < k ∧ k < 5308)

instance (k : Nat) : Decidable (Growable k) := inferInstanceAs (Decidable (_ ∧ _))

/-- Sector `t` is part of the tree of the inode at sector `r` or of the free map's file. -/
def Reaches (fs : Fs SectorStore) (U : Nat → Path → Prop) (d : Disk) (r t : Nat) : Prop :=
  Owns U d r t ∨ ∃ r', fs.mapRoot = some r' ∧ Owns U d r' t

/-- The disk after an attempt to grow the inode at sector `r` to the nodes `W`, which takes `c`
    sectors, with the sectors `ts` touched.  A failed attempt stops when no bit is free. -/
def Grows (fs : Fs SectorStore) (r : Nat) (U W : Nat → Path → Prop) (c : Nat) (d : Disk)
    (b : Bool) (d' : Disk) (ts : List Nat) : Prop :=
  ∃ V c', Grown fs r U d V d' c' ∧ (∀ t ∈ ts, Reaches fs V d' r t) ∧
    (b = true → V = W ∧ c' = c) ∧ (b = false → d'.spare = 0 ∧ c' < c)

variable {s : Nat}

section

variable {fs : Fs SectorStore} {U V W : Nat → Path → Prop} {P P' : Path → Prop} {d d' d₁ d₂ : Disk}
  {r t c c' n : Nat} {q : Path} {ts ts' : List Nat} {b : Bool}

theorem with_congr (h : ∀ p, P p ↔ P' p) : With U r P = With U r P' := by
  funext r' p
  simp only [With, h p]

theorem with_self (h : ∀ p, U r p ↔ P p) : With U r P = U := by
  funext r' p
  apply propext
  unfold With
  by_cases hr : r' = r
  · subst hr
    rw [← h p]
    tauto
  · tauto

theorem with_at {p : Path} : With U r P r p ↔ P p := by
  unfold With
  tauto

/-- One node more. -/
theorem add_with (h : ∀ p, P' p ↔ P p ∨ p = q) : Add (With U r P) r q = With U r P' := by
  funext r' p
  simp only [Lib.Add, With, h p]
  apply propext
  tauto

/-! ### How much is left -/

theorem Disk.room_le_spare (d : Disk) (n : Nat) : d.room n ≤ d.spare := by
  refine Finset.card_le_card (fun i hi => ?_)
  obtain ⟨h1, h2⟩ := mem_freeSet.mp hi
  exact mem_freeSet.mpr ⟨by omega, h2⟩

/-- The next sector is on the device. -/
theorem Disk.Roomy.lt (h : d.Roomy n 1) (hs : firstFree d.map.isSet d.map.bitCnt = some s) :
    s < n := by
  obtain ⟨hlt, hoff, -⟩ := firstFree_eq_some.mp hs
  rcases h with h | h
  · have := firstFree_lt hs (show 0 < (freeSet d.map.isSet (min n d.map.bitCnt)).card from h)
    omega
  · -- both sets of free bits are the same
    have hsub : freeSet d.map.isSet (min n d.map.bitCnt) ⊆ freeSet d.map.isSet d.map.bitCnt := by
      intro i hi
      obtain ⟨h1, h2⟩ := mem_freeSet.mp hi
      exact mem_freeSet.mpr ⟨by omega, h2⟩
    have heq := Finset.eq_of_subset_of_card_le hsub (le_of_eq h.symm)
    have hmem : s ∈ freeSet d.map.isSet (min n d.map.bitCnt) := by
      rw [heq]
      exact mem_freeSet.mpr ⟨hlt, hoff⟩
    have := (mem_freeSet.mp hmem).1
    omega

theorem Disk.spare_eq_zero (h : firstFree d.map.isSet d.map.bitCnt = none) : d.spare = 0 :=
  firstFree_eq_none_iff_card.mp h

/-- What is left after some growth. -/
theorem Grown.roomy (h : Grown fs r U d V d' c) (hd : d.Roomy fs.store.size (c + c')) :
    d'.Roomy fs.store.size c' := by
  have h1 := h.room_eq
  have h2 := h.spare_eq
  rcases hd with hd | hd
  · exact .inl (by omega)
  · exact .inr (by omega)

/-! ### Composing attempts -/

theorem grows_refl (hts : ∀ t ∈ ts, Reaches fs U d r t) : Grows fs r U U 0 d true d ts :=
  ⟨U, 0, .refl, hts, fun _ => ⟨rfl, rfl⟩, by simp⟩

/-- An attempt that failed is one to grow further as well. -/
theorem Grows.fail (h : Grows fs r U V c d false d₁ ts) : Grows fs r U W (c + c') d false d₁ ts := by
  obtain ⟨V', c₁, hg, hts, -, hno⟩ := h
  obtain ⟨hz, hc⟩ := hno rfl
  exact ⟨V', c₁, hg, hts, by simp, fun _ => ⟨hz, by omega⟩⟩

variable (hs : Sound fs U d) (hr : fs.mapRoot ≠ some r)
include hs hr

theorem Reaches.grown (h : Grown fs r U d V d' c) (ht : Reaches fs U d r t) :
    Reaches fs V d' r t := by
  rcases ht with ⟨p, hp, rfl⟩ | ⟨r', hr', p, hp, rfl⟩
  · exact .inl ⟨p, h.subset hp, (h.node_eq hs hr hp).symm⟩
  · exact .inr ⟨r', hr', p, h.subset hp, (h.node_eq hs hr hp).symm⟩

/-- A second attempt after one that succeeded. -/
theorem Grows.trans (h : Grows fs r U V c d true d₁ ts) (h' : Grows fs r V W c' d₁ b d₂ ts') :
    Grows fs r U W (c + c') d b d₂ (ts' ++ ts) := by
  obtain ⟨V', c₁, hg, hts, hok, -⟩ := h
  obtain ⟨rfl, rfl⟩ := hok rfl
  obtain ⟨W', c₂, hg', hts', hok', hno'⟩ := h'
  have hs₁ := hg.sound hs hr
  refine ⟨W', c₁ + c₂, hg.trans hg', fun t ht => ?_, fun hb => ?_, fun hb => ?_⟩
  · rcases mem_append.mp ht with ht | ht
    · exact hts' t ht
    · exact (hts t ht).grown hs₁ hr hg'
  · obtain ⟨hW, hc⟩ := hok' hb
    exact ⟨hW, by rw [hc]⟩
  · obtain ⟨hz, hc⟩ := hno' hb
    exact ⟨hz, by omega⟩

/-- A block of the tree that was visited first. -/
theorem Grows.visit (hown : Owns U d r t) (h : Grows fs r U W c d b d₁ ts) :
    Grows fs r U W c d b d₁ (ts ++ [t]) := by
  obtain ⟨V', c₁, hg, hreach, hok, hno⟩ := h
  refine ⟨V', c₁, hg, fun t' ht => ?_, hok, hno⟩
  rcases mem_append.mp ht with ht | ht
  · exact hreach t' ht
  · rw [mem_singleton.mp ht]
    exact Reaches.grown hs hr hg (.inl hown)

end

/-! ### One attachment -/

/-- Nobody holds the extension lock of the free map's file. -/
def MapUnlocked (fs : Fs SectorStore) : Prop :=
  ∀ a inode, fs.mapInode = some (a, inode) → inode.extensionLock = none

/-- When growth below node `p` by `c` sectors does not stop: the only locks are those `H` of the
    blocks above, the free map does not run off the device, and the unused pointers are `0`. -/
structure GrowOk (fs : Fs SectorStore) (U : Nat → Path → Prop) (r : Nat) (p : Path) (H : List Nat)
    (c : Nat) (im : Image) : Prop where
  held : ∀ t, t ∉ H → im.lock t = RwLock.free
  above : ∀ t ∈ H, ∃ q, q <:+ p ∧ U r q ∧ t = im.disk.node r q
  unlocked : MapUnlocked fs
  roomy : im.disk.Roomy fs.store.size c
  blank : Blank U r im.disk

/-- The image after an attempt to grow.  A failed one may leave index blocks locked, but not the
    inode. -/
def Attempt (fs : Fs SectorStore) (r : Nat) (U W : Nat → Path → Prop) (c : Nat) (im : Image)
    (b : Bool) (im' : Image) : Prop :=
  ∃ ts, im'.touched = ts ++ im.touched ∧ Grows fs r U W c im.disk b im'.disk ts ∧
    (b = true → im'.lock = im.lock) ∧ im'.lock r = im.lock r

section

variable {fs : Fs SectorStore} {U V W : Nat → Path → Prop} {r c c' : Nat} {p : Path} {H : List Nat}
  {im im₁ im₂ : Image} {b : Bool} {l : RwLock}

theorem GrowOk.weaken (h : GrowOk fs U r p H (c + c') im) : GrowOk fs U r p H c im := by
  refine ⟨h.held, h.above, h.unlocked, ?_, h.blank⟩
  rcases h.roomy with hr | hr
  · exact .inl (by omega)
  · exact .inr hr

/-- What growth needs inside the write section of a node below. -/
theorem GrowOk.enter {i : Nat} (h : GrowOk fs U r p H c im) (hu : U r (i :: p))
    (hs : s = im.disk.node r (i :: p)) : GrowOk fs U r (i :: p) (s :: H) c (im.enter s l) := by
  refine ⟨fun t ht => ?_, fun t ht => ?_, h.unlocked, h.roomy, h.blank⟩
  · rw [mem_cons, not_or] at ht
    rw [Image.enter_lock, update_of_ne ht.1]
    exact h.held t ht.2
  · rcases mem_cons.mp ht with rfl | ht
    · exact ⟨i :: p, suffix_rfl, hu, hs⟩
    · obtain ⟨q, hq, hu', he⟩ := h.above t ht
      exact ⟨q, hq.trans (suffix_cons i p), hu', he⟩

/-- The next block down is not locked. -/
theorem GrowOk.below {i : Nat} (h : GrowOk fs U r p H c im) (hs : Sound fs U im.disk)
    (hu : U r (i :: p)) : im.lock (im.disk.node r (i :: p)) = RwLock.free := by
  refine h.held _ (fun hmem => ?_)
  obtain ⟨q, hq, hu', he⟩ := h.above _ hmem
  obtain ⟨-, rfl⟩ := hs.node_inj hu hu' he
  have := hq.length_le
  rw [length_cons] at this
  omega

/-- The room left by an attempt. -/
theorem Attempt.room (h : Attempt fs r U W c im true im₁) :
    im.disk.room fs.store.size = im₁.disk.room fs.store.size + c := by
  obtain ⟨_, -, ⟨V, c', hg, -, hok, -⟩, -⟩ := h
  obtain ⟨-, rfl⟩ := hok rfl
  exact hg.room_eq

theorem Attempt.room_lt (h : Attempt fs r U W c im false im₁) : im.disk.room fs.store.size < c := by
  obtain ⟨_, -, ⟨V, c', hg, -, -, hno⟩, -⟩ := h
  obtain ⟨hz, hlt⟩ := hno rfl
  have h1 := hg.room_eq
  have h2 := im₁.disk.room_le_spare fs.store.size
  omega

theorem attempt_refl : Attempt fs r U U 0 im true im :=
  ⟨[], rfl, grows_refl (by simp), fun _ => rfl, rfl⟩

theorem Attempt.fail (h : Attempt fs r U V c im false im₁) :
    Attempt fs r U W (c + c') im false im₁ := by
  obtain ⟨ts, hts, hg, -, hroot⟩ := h
  exact ⟨ts, hts, hg.fail, by simp, hroot⟩

variable (hs : Sound fs U im.disk) (hr : fs.mapRoot ≠ some r)
include hs hr

/-- The free map's file is not among what is locked. -/
theorem GrowOk.mapReady (h : GrowOk fs U r p H c im) : MapReady fs U im := by
  intro a inode ha
  refine ⟨h.unlocked a inode ha, fun q hq => h.held _ (fun hmem => ?_)⟩
  obtain ⟨q', -, hq', he⟩ := h.above _ hmem
  obtain ⟨he', -⟩ := hs.node_inj hq hq' he
  exact hr (by rw [Fs.mapRoot, ha, ← he']; rfl)

/-- What growth needs after a first attempt that succeeded. -/
theorem GrowOk.after (h : GrowOk fs U r p H (c + c') im) (ha : Attempt fs r U V c im true im₁) :
    GrowOk fs V r p H c' im₁ := by
  obtain ⟨ts, -, ⟨V', c₁, hg, -, hok, -⟩, hlock, -⟩ := ha
  obtain ⟨rfl, rfl⟩ := hok rfl
  refine ⟨fun t ht => ?_, fun t ht => ?_, h.unlocked, hg.roomy h.roomy, hg.blank hs hr h.blank⟩
  · rw [hlock rfl]
    exact h.held t ht
  · obtain ⟨q, hq, hu, rfl⟩ := h.above t ht
    exact ⟨q, hq, hg.subset hu, (hg.node_eq hs hr hu).symm⟩

theorem Attempt.sound (h : Attempt fs r U V c im true im₁) : Sound fs V im₁.disk := by
  obtain ⟨ts, -, ⟨V', c₁, hg, -, hok, -⟩, -⟩ := h
  obtain ⟨rfl, rfl⟩ := hok rfl
  exact hg.sound hs hr

theorem Attempt.node_eq (h : Attempt fs r U V c im b im₁) {r' : Nat} {q : Path} (hu : U r' q) :
    im₁.disk.node r' q = im.disk.node r' q := by
  obtain ⟨ts, -, ⟨V', c₁, hg, -, -, -⟩, -⟩ := h
  exact hg.node_eq hs hr hu

theorem Attempt.trans (h : Attempt fs r U V c im true im₁) (h' : Attempt fs r V W c' im₁ b im₂) :
    Attempt fs r U W (c + c') im b im₂ := by
  obtain ⟨ts, hts, hg, hlock, hroot⟩ := h
  obtain ⟨ts', hts', hg', hlock', hroot'⟩ := h'
  refine ⟨ts' ++ ts, by rw [hts', hts, append_assoc], hg.trans hs hr hg', fun hb => ?_, ?_⟩
  · rw [hlock' hb, hlock rfl]
  · rw [hroot', hroot]

/-- An attempt that failed inside the write section of a block below the inode. -/
theorem Attempt.section_fail (hown : Owns U im.disk r s) (hne : s ≠ r)
    (h : Attempt fs r U W c (im.enter s l) false im₁) : Attempt fs r U W c im false im₁ := by
  obtain ⟨ts, hts, hg, -, hroot⟩ := h
  refine ⟨ts ++ [s], ?_, hg.visit hs hr hown, by simp, ?_⟩
  · rw [hts, append_assoc]
    rfl
  · rw [hroot, Image.enter_lock, update_of_ne hne.symm]

/-- An attempt inside a write section that has ended. -/
theorem Attempt.section_end {l' : RwLock} (hown : Owns U im.disk r s)
    (hl : (im.lock s).readBegin = .ok l') (hl' : l'.upgrade = .ok l) (hb : b = true ∨ s = r)
    (h : Attempt fs r U W c (im.enter s l) b im₁) : Attempt fs r U W c im b (im₁.leaveWrite s) := by
  obtain ⟨ts, hts, hg, hlock, hroot⟩ := h
  refine ⟨ts ++ [s], ?_, hg.visit hs hr hown,
    fun hb => Image.leaveWrite_enter hl hl' (hlock hb), ?_⟩
  · rw [Image.leaveWrite_touched, hts, append_assoc]
    rfl
  · rcases hb with rfl | rfl
    · rw [Image.leaveWrite_enter hl hl' (hlock rfl)]
    · rw [Image.leaveWrite_lock, update_self, hroot, Image.enter_lock,
        update_self, RwLock.writeEnd_upgrade hl hl']

end

namespace Fs

open BlockStore

variable {fs : Fs SectorStore} {U : Nat → Path → Prop} {r i t c : Nat} {p : Path} {H : List Nat}
  {im : Image}

/-- The disk after sector `s` was granted, stored and cleared. -/
theorem attach_of_saved {im₁ im' : Image} (hs : Sound fs U im.disk) (hr : fs.mapRoot ≠ some r)
    (hp : U r p) (hfirst : firstFree im.disk.map.isSet im.disk.map.bitCnt = some s)
    (hin : s < fs.store.size) (hsaved : MapSaved fs U (im.disk.map.mark s) im im₁)
    (hdisk : im'.disk = ((im₁.put (im.disk.node r p)
      ((im₁.disk.data (im.disk.node r p)).setWord i s)).put s Bytes.zero).disk) :
    Attach fs U r i p s im.disk im'.disk := by
  obtain ⟨hbit, hoff, -⟩ := firstFree_eq_some.mp hfirst
  have hne : im.disk.node r p ≠ s := hs.node_ne hoff hp
  have hpar := hsaved.frame _ (hs.not_mapLeaf_of_ne hr hp)
  rw [hdisk]
  refine ⟨hoff, hin, hbit, hsaved.map, update_self _ _ _, ?_, ?_⟩
  · show Function.update (Function.update im₁.disk.data _ _) s _ _ = _
    rw [update_of_ne hne, update_self, hpar]
  · intro t h1 h2 h3
    show Function.update (Function.update im₁.disk.data _ _) s _ _ = _
    rw [update_of_ne h1, update_of_ne h2, hsaved.frame t h3]

/-- The map's file still holds the map after the sector was stored and cleared. -/
theorem saved_of_attach {im₁ : Image} {d' : Disk} (hs : Sound fs U im.disk)
    (hr : fs.mapRoot ≠ some r) (hp : U r p) (hi : ¬ U r (i :: p))
    (hsaved : MapSaved fs U (im.disk.map.mark s) im im₁) (ha : Attach fs U r i p s im.disk d')
    (hdata : ∀ t, t ≠ s → t ≠ im.disk.node r p → d'.data t = im₁.disk.data t) : Saved fs d' := by
  intro r₀ hr₀ x hx
  obtain ⟨a, inode, -, rfl, -, hf, hlen⟩ := hs.mapFile_of_root hr₀
  rw [ha.bitCnt_eq] at hx
  have hblock := hf.block hlen hx
  have hcontent : d'.content inode.sector x = im₁.disk.content inode.sector x := by
    rw [Disk.content, Disk.content, ha.node_eq hs hp hi hblock, hsaved.node_eq hs hblock,
      hdata _ (hs.node_ne ha.free hblock)]
    intro he
    obtain ⟨rfl, -⟩ := hs.node_inj hblock hp he
    exact hr hr₀
  have hmap : d'.map = im₁.disk.map := by rw [ha.map, hsaved.map]
  have hcnt : im₁.disk.map.bitCnt = im.disk.map.bitCnt := by rw [hsaved.map]; rfl
  rw [hcontent, hmap]
  exact hsaved.saved _ hr₀ x (by rw [hcnt]; exact hx)

/-- `free_map_allocate` into an unused slot, and `block_clear`. -/
theorem allocateCleared_does (depth : Nat) (hs : Sound fs U im.disk) (hr : fs.mapRoot ≠ some r)
    (hp : U r p) (hi : ¬ U r (i :: p)) (hq : InTree maxBlocks (i :: p))
    (ht : t = im.disk.node r p) :
    Does (allocateCleared (freeMapAllocate (depth + 1)) ⟨t, i⟩) fs im
      (MapReady fs U im ∧ im.disk.Roomy fs.store.size 1)
      (fun b im' => Attempt fs r U (Lib.Add U r (i :: p)) 1 im b im' ∧ im'.lock = im.lock) := by
  unfold allocateCleared
  refine (freeMapAllocate_does depth hs).bind ?_ (fun h => h.1)
  rintro o im₁ (⟨s, rfl, hfirst, hsaved⟩ | ⟨rfl, hfirst, rfl⟩)
  · obtain ⟨hbit, hoff, -⟩ := firstFree_eq_some.mp hfirst
    refine does_assign (does_blockClear (fun h => h.2.lt hfirst) (fun hin => does_pure ?_))
    rw [ht]
    obtain ⟨im', him'⟩ : ∃ im', im' = ((im₁.put (im.disk.node r p)
        ((im₁.disk.data (im.disk.node r p)).setWord i s)).put s Bytes.zero).touch s := ⟨_, rfl⟩
    rw [← him']
    have ha : Attach fs U r i p s im.disk im'.disk :=
      attach_of_saved hs hr hp hfirst hin hsaved (by rw [him']; rfl)
    have hsave : Saved fs im'.disk := by
      refine saved_of_attach hs hr hp hi hsaved ha (fun t' h1 h2 => ?_)
      rw [him']
      show Function.update (Function.update im₁.disk.data _ _) s _ _ = _
      rw [update_of_ne h1, update_of_ne h2]
    have hgrown : Grown fs r U im.disk (Lib.Add U r (i :: p)) im'.disk (0 + 1) :=
      Grown.refl.step hp hi hq ha hsave
    obtain ⟨ts, hts, hown⟩ := hsaved.visits
    have hlock : im'.lock = im.lock := by rw [him', ← hsaved.lock]; rfl
    refine ⟨⟨s :: ts, ?_, ⟨_, _, hgrown, ?_, fun _ => ⟨rfl, rfl⟩, by simp⟩, fun _ => hlock,
      by rw [hlock]⟩, hlock⟩
    · rw [him']
      show s :: im₁.touched = _
      rw [hts]
      rfl
    · intro t' ht'
      rcases mem_cons.mp ht' with rfl | ht'
      · exact .inl ⟨i :: p, .inr ⟨rfl, rfl⟩, (ha.node_new hs hp hi hq).symm⟩
      · obtain ⟨r₀, hr₀, q, hu, rfl⟩ := hown t' ht'
        exact .inr ⟨r₀, hr₀, q, .inl hu, (ha.node_eq hs hp hi hu).symm⟩
  · refine does_pure ⟨⟨[], rfl, ⟨U, 0, .refl, by simp, by simp, fun _ => ?_⟩, by simp, rfl⟩, rfl⟩
    exact ⟨Disk.spare_eq_zero hfirst, by omega⟩

/-- `grow_direct`.  The assertion that the slot holds `0` tells that its node is unused. -/
theorem growDirect_does (depth : Nat) (hs : Sound fs U im.disk) (hr : fs.mapRoot ≠ some r)
    (hp : U r p) (hq : InTree maxBlocks (i :: p)) (ht : t = im.disk.node r p) :
    Does (growDirect (freeMapAllocate (depth + 1)) ⟨t, i⟩) fs im
      (¬ U r (i :: p) ∧ Blank U r im.disk ∧ MapReady fs U im ∧ im.disk.Roomy fs.store.size 1)
      (fun b im' => ¬ U r (i :: p) ∧ Attempt fs r U (Lib.Add U r (i :: p)) 1 im b im' ∧
        im'.lock = im.lock) := by
  unfold growDirect
  refine does_load (does_assert (fun h => ?_) (fun hzero => ?_))
  · rw [ht]
    exact h.2.1 i p hq hp h.1
  · have hi : ¬ U r (i :: p) := by
      intro hu
      have hpos := hs.inner r (i :: p) hu (by simp)
      rw [Disk.node_cons, ← ht, hzero] at hpos
      omega
    exact (allocateCleared_does depth hs hr hp hi hq ht).mono (fun b im' h => ⟨hi, h⟩)
      (fun h => h.2.2)

/-! ### One level of the path of a block -/

variable {k e : Nat}

/-- The node at one level of the path is attached, if it is not there. -/
theorem growLevel_does (depth : Nat) (hk : k < maxBlocks)
    (hs : Sound fs (With U r (Upto (e + 1) k)) im.disk) (hr : fs.mapRoot ≠ some r)
    (hpath : (dataPath k).drop e = i :: p) (ht : t = im.disk.node r p) :
    Does (growDirect (freeMapAllocate (depth + 1)) ⟨t, i⟩) fs im
      (¬ InTree k (i :: p) ∧ Blank (With U r (Upto (e + 1) k)) r im.disk ∧
        MapReady fs (With U r (Upto (e + 1) k)) im ∧ im.disk.Roomy fs.store.size 1)
      (fun b im' => ¬ InTree k (i :: p) ∧
        Attempt fs r (With U r (Upto (e + 1) k)) (With U r (Upto e k)) 1 im b im' ∧
        im'.lock = im.lock) := by
  have hdrop : (dataPath k).drop (e + 1) = p := drop_succ hpath
  have hp : With U r (Upto (e + 1) k) r p := with_at.mpr (.inr (by rw [hdrop]))
  have hq : InTree maxBlocks (i :: p) :=
    .inr ⟨k, hk, by rw [← hpath]; exact drop_suffix _ _⟩
  have hunused : With U r (Upto (e + 1) k) r (i :: p) ↔ InTree k (i :: p) := by
    rw [with_at]
    refine ⟨fun h => h.resolve_right (fun hsuf => ?_), .inl⟩
    have := hsuf.length_le
    rw [hdrop, length_cons] at this
    omega
  rw [← add_with (fun q => upto_succ hpath), ← hunused]
  exact growDirect_does depth hs hr hp hq ht

/-- `if (index == 0) …`: the node is attached for the first block below it. -/
theorem growFirst_does (depth index : Nat) (hk : k < maxBlocks)
    (hs : Sound fs (With U r (Upto (e + 1) k)) im.disk) (hr : fs.mapRoot ≠ some r)
    (hpath : (dataPath k).drop e = i :: p) (ht : t = im.disk.node r p)
    (hthere : index ≠ 0 → InTree k (i :: p)) :
    Does (growFirst (freeMapAllocate (depth + 1)) ⟨t, i⟩ index) fs im
      ((index = 0 → ¬ InTree k (i :: p)) ∧ Blank (With U r (Upto (e + 1) k)) r im.disk ∧
        MapReady fs (With U r (Upto (e + 1) k)) im ∧
        im.disk.Roomy fs.store.size (if index = 0 then 1 else 0))
      (fun b im' => (index = 0 → ¬ InTree k (i :: p)) ∧
        Attempt fs r (With U r (Upto (e + 1) k)) (With U r (Upto e k)) (if index = 0 then 1 else 0)
          im b im' ∧ im'.lock = im.lock) := by
  unfold growFirst
  by_cases h0 : index = 0
  · simp only [if_pos h0]
    refine (growLevel_does depth hk hs hr hpath ht).mono ?_ (fun h => ⟨h.1 h0, h.2⟩)
    rintro b im' ⟨h1, h2⟩
    exact ⟨fun _ => h1, h2⟩
  · simp only [if_neg h0]
    have hmem := hthere h0
    have hmem' : InTree k ((dataPath k).drop (e + 1)) := by
      rw [drop_succ hpath]
      exact hmem.parent
    have hsame : With U r (Upto (e + 1) k) = With U r (Upto e k) := by
      refine with_congr (fun q => ?_)
      rw [upto_of_mem hmem', upto_of_mem (by rw [hpath]; exact hmem)]
    rw [hsame]
    exact does_pure ⟨fun h => absurd h h0, attempt_refl, rfl⟩

/-! ### The two index functions -/

/-- The common part of `grow_indirect` and `grow_double_indirect`: attach the index block if this
    is the first block below it, and do the rest, `inner`, inside its write section. -/
theorem growSection_does {index : Nat} {msg : String} {inner : Nat → Exec (Fs SectorStore) Bool}
    (depth : Nat) (hk : k < maxBlocks) (hs : Sound fs (With U r (Upto (e + 2) k)) im.disk)
    (hr : fs.mapRoot ≠ some r) (hpath : (dataPath k).drop (e + 1) = i :: p)
    (ht : t = im.disk.node r p) (hthere : index ≠ 0 → InTree k (i :: p)) (hlt : index < 128)
    (hinner : ∀ im₁ s, Sound fs (With U r (Upto (e + 1) k)) im₁.disk →
      s = im₁.disk.node r (i :: p) →
      Does (inner s) fs im₁ (GrowOk fs (With U r (Upto (e + 1) k)) r (i :: p) (s :: H) c im₁)
        (Attempt fs r (With U r (Upto (e + 1) k)) (With U r (Upto 0 k)) c im₁)) :
    Does (do
        if ← growFirst (freeMapAllocate (depth + 1)) ⟨t, i⟩ index then
          let s ← load ⟨t, i⟩
          let cacheBlock ← onStore (cacheWriteBlock s)
          assert (index < entriesPerSector) msg
          if ← inner cacheBlock then
            onStore (cacheWriteEnd cacheBlock)
            pure true
          else pure false
        else pure false) fs im
      ((index = 0 → ¬ InTree k (i :: p)) ∧
        GrowOk fs (With U r (Upto (e + 2) k)) r p H ((if index = 0 then 1 else 0) + c) im)
      (fun b im' => (index = 0 → ¬ InTree k (i :: p)) ∧
        Attempt fs r (With U r (Upto (e + 2) k)) (With U r (Upto 0 k))
          ((if index = 0 then 1 else 0) + c) im b im') := by
  refine (growFirst_does depth index hk hs hr hpath ht hthere).bind ?_
    (fun h => ⟨h.1, h.2.blank, h.2.mapReady hs hr, h.2.weaken.roomy⟩)
  rintro b im₁ ⟨hfirst, hatt, -⟩
  cases b with
  | false => exact does_pure ⟨hfirst, hatt.fail⟩
  | true =>
    rw [if_pos rfl]
    have hdrop : (dataPath k).drop (e + 2) = p := drop_succ hpath
    have hp : With U r (Upto (e + 2) k) r p := with_at.mpr (.inr (by rw [hdrop]))
    have hu : With U r (Upto (e + 1) k) r (i :: p) := with_at.mpr (.inr (by rw [hpath]))
    have hs₁ := hatt.sound hs hr
    have hnode : im₁.disk.word t i = im₁.disk.node r (i :: p) := by
      rw [Disk.node_cons, hatt.node_eq hs hr hp, ht]
    refine does_load ?_
    rw [hnode]
    obtain ⟨s, hsdef⟩ : ∃ s, s = im₁.disk.node r (i :: p) := ⟨_, rfl⟩
    rw [← hsdef]
    refine does_writeBlock (fun h => ?_) (fun l l' _ hl hl' => ?_)
    · rw [hsdef]
      exact ⟨hs₁.inside _ _ hu, (h.2.after hs hr hatt).below hs₁ hu⟩
    refine does_assert (fun _ => hlt) (fun _ => ?_)
    refine (hinner (im₁.enter s l) s hs₁ hsdef).bind ?_
      (fun h => (h.2.after hs hr hatt).enter hu hsdef)
    intro b im₂ hatt₂
    have hown : Owns (With U r (Upto (e + 1) k)) im₁.disk r s := ⟨_, hu, hsdef⟩
    cases b with
    | false =>
      have hne : s ≠ r := hsdef ▸ hs₁.node_ne_root hu
      exact does_pure ⟨hfirst, hatt.trans hs hr (hatt₂.section_fail hs₁ hr hown hne)⟩
    | true =>
      rw [if_pos rfl]
      have hend := hatt₂.section_end hs₁ hr hown hl hl' (.inl rfl)
      exact does_writeEnd (does_pure ⟨hfirst, hatt.trans hs hr hend⟩)

/-- `grow_indirect`, for a block with path `i :: n :: p`. -/
theorem growIndirect_does {n : Nat} (depth : Nat) (hk : k < maxBlocks)
    (hs : Sound fs (With U r (Upto 2 k)) im.disk) (hr : fs.mapRoot ≠ some r)
    (hpath : dataPath k = i :: n :: p) (ht : t = im.disk.node r p)
    (hi : i = 0 ↔ StartsIndex k) (h60 : 60 ≤ k) :
    Does (growIndirect (freeMapAllocate (depth + 1)) ⟨t, n⟩ i) fs im
      (GrowOk fs (With U r (Upto 2 k)) r p H ((if i = 0 then 1 else 0) + 1) im)
      (Attempt fs r (With U r (Upto 2 k)) (With U r (Upto 0 k)) ((if i = 0 then 1 else 0) + 1)
        im) := by
  have hdrop : (dataPath k).drop (0 + 1) = n :: p := by rw [hpath]; rfl
  have hlt : i < 128 := index_lt (by rw [← hpath]; exact inTree_dataPath hk)
  have hnew : i = 0 → ¬ InTree k (n :: p) := by
    intro h0
    rw [← hdrop, inTree_parent_iff h60, not_not]
    exact hi.mp h0
  refine (growSection_does depth hk hs hr hdrop ht ?_ hlt ?_).mono (fun b im' h => h.2)
    (fun h => ⟨hnew, h⟩)
  · intro h0
    rw [← hdrop]
    exact (inTree_parent_iff h60).mpr (fun h => h0 (hi.mpr h))
  · intro im₁ s hs₁ hsdef
    have hblock : ¬ InTree k (i :: n :: p) := by
      rw [← hpath, inTree_dataPath_iff]
      omega
    exact (growLevel_does depth hk hs₁ hr hpath hsdef).mono (fun b im' h => h.2.1)
      (fun h => ⟨hblock, h.blank, h.mapReady hs₁ hr, h.roomy⟩)

/-- `grow_double_indirect`, for a block with path `[i, j, 100]`.  It returns only if the double
    indirect block is missing for the blocks with `j = 0`. -/
theorem growDoubleIndirect_does {j : Nat} (depth : Nat) (hk : k < maxBlocks)
    (hs : Sound fs (With U r (Upto 3 k)) im.disk) (hr : fs.mapRoot ≠ some r)
    (hpath : dataPath k = [i, j, 100]) (hi : i = 0 ↔ StartsIndex k) (h5180 : 5180 ≤ k)
    (hj : j ≠ 0 → InTree k [100]) :
    Does (growDoubleIndirect (freeMapAllocate (depth + 1)) ⟨r, doubleIndirect⟩ j i) fs im
      ((j = 0 → ¬ InTree k [100]) ∧ GrowOk fs (With U r (Upto 3 k)) r [] H
        ((if j = 0 then 1 else 0) + ((if i = 0 then 1 else 0) + 1)) im)
      (fun b im' => (j = 0 → ¬ InTree k [100]) ∧
        Attempt fs r (With U r (Upto 3 k)) (With U r (Upto 0 k))
          ((if j = 0 then 1 else 0) + ((if i = 0 then 1 else 0) + 1)) im b im') := by
  have hdrop : (dataPath k).drop (1 + 1) = [100] := by rw [hpath]; rfl
  have hlt : j < 128 := index_lt (p := [100]) (by
    have h := inTree_dataPath hk
    rw [hpath] at h
    exact h.parent)
  refine growSection_does depth hk hs hr hdrop rfl hj hlt ?_
  intro im₁ s hs₁ hsdef
  exact growIndirect_does depth hk hs₁ hr hpath hsdef hi (by omega)

/-! ### One block -/

/-- A block number that no inode has. -/
theorem growBlock_outside (depth : Nat) (hk : maxBlocks ≤ k) :
    Does (growBlock (freeMapAllocate (depth + 1)) r k) fs im False (fun _ _ => False) := by
  unfold maxBlocks at hk
  have h60 : ¬ k < numDirect := by unfold numDirect; omega
  have hsingle : ¬ (k - numDirect) / entriesPerSector < numSingleIndirect := by
    simp only [numDirect, entriesPerSector, numSingleIndirect]
    omega
  have hne : (k - numDirect) / entriesPerSector - numSingleIndirect ≠ 0 := by
    simp only [numDirect, entriesPerSector, numSingleIndirect]
    omega
  have hge : ¬ (k - numDirect) / entriesPerSector - numSingleIndirect < entriesPerSector := by
    simp only [numDirect, entriesPerSector, numSingleIndirect]
    omega
  unfold growBlock
  simp only [if_neg h60, if_neg hsingle]
  unfold growDoubleIndirect growFirst
  rw [if_neg hne]
  refine does_step (a := true) rfl ?_
  rw [if_pos rfl]
  refine does_load (does_writeBlock False.elim (fun _ _ _ _ _ => ?_))
  exact does_assert False.elim (fun h => absurd h hge)

/-- Where the path of the block starts, nothing is added yet. -/
theorem with_upto (h : (dataPath k).drop e = []) : With U r (Upto e k) = With U r (InTree k) :=
  with_congr (fun _ => upto_of_mem (by rw [h]; exact inTree_nil k))

/-- The part of the path that ends the growth. -/
theorem with_upto_zero : With U r (Upto 0 k) = With U r (InTree (k + 1)) :=
  with_congr (fun _ => upto_zero)

/-- **One block.** -/
theorem growBlock_does (depth : Nat) (hs : Sound fs (With U r (InTree k)) im.disk)
    (hr : fs.mapRoot ≠ some r) :
    Does (growBlock (freeMapAllocate (depth + 1)) r k) fs im
      (Growable k ∧ GrowOk fs (With U r (InTree k)) r [] H (blockCost k) im)
      (fun b im' => Growable k ∧
        Attempt fs r (With U r (InTree k)) (With U r (InTree (k + 1))) (blockCost k) im b im') := by
  by_cases hk : k < maxBlocks
  · rcases tiers k with h60 | ⟨h60, h5180⟩ | h5180
    · -- a direct slot
      have hpath : (dataPath k).drop 0 = [k] := dataPath_direct h60
      have hgrow : Growable k := ⟨hk, by omega⟩
      have hcost : blockCost k = 1 := by
        have h1 : ¬ StartsIndex k := fun h => by have := h.1; omega
        rw [blockCost, if_neg h1, if_neg (by unfold doubleStart; omega)]
      have hblock : ¬ InTree k [k] := by
        rw [← hpath]
        exact fun h => absurd (inTree_dataPath_iff.mp h) (Nat.lt_irrefl k)
      have hnil : With U r (Upto 1 k) = With U r (InTree k) := with_upto (drop_succ hpath)
      rw [hcost, ← hnil, ← with_upto_zero]
      rw [← hnil] at hs
      have hnum : k < numDirect := h60
      unfold growBlock
      rw [if_pos hnum]
      refine (growLevel_does depth hk hs hr hpath rfl).mono (fun b im' h => ⟨hgrow, h.2.1⟩) ?_
      exact fun h => ⟨hblock, h.2.blank, h.2.mapReady hs hr, h.2.roomy⟩
    · -- below an index block of the inode
      obtain ⟨i, hidef⟩ : ∃ i, i = (k - 60) % 128 := ⟨_, rfl⟩
      obtain ⟨n, hndef⟩ : ∃ n, n = 60 + (k - 60) / 128 := ⟨_, rfl⟩
      have hpath : dataPath k = [i, n] := by rw [dataPath_single h60 h5180, hidef, hndef]
      have hi : i = 0 ↔ StartsIndex k := by rw [hidef]; exact ⟨fun h => ⟨h60, h⟩, fun h => h.2⟩
      have hgrow : Growable k := ⟨hk, by omega⟩
      have hcost : blockCost k = (if i = 0 then 1 else 0) + 1 := by
        rw [blockCost, if_neg (show ¬ k = doubleStart by unfold doubleStart; omega)]
        simp only [hi]
        omega
      have hnil : With U r (Upto 2 k) = With U r (InTree k) := with_upto (by rw [hpath]; rfl)
      rw [hcost, ← hnil, ← with_upto_zero]
      rw [← hnil] at hs
      have hbody : (growBlock (freeMapAllocate (depth + 1)) r k : Exec (Fs SectorStore) Bool)
          = growIndirect (freeMapAllocate (depth + 1)) ⟨r, n⟩ i := by
        unfold growBlock
        rw [if_neg (by unfold numDirect; omega), if_pos (by
          simp only [numDirect, entriesPerSector, numSingleIndirect]; omega), hndef, hidef]
        rfl
      rw [hbody]
      exact (growIndirect_does depth hk hs hr hpath rfl hi h60).mono (fun b im' h => ⟨hgrow, h⟩)
        (fun h => h.2)
    · -- below the double indirect block
      obtain ⟨i, hidef⟩ : ∃ i, i = (k - 5180) % 128 := ⟨_, rfl⟩
      obtain ⟨j, hjdef⟩ : ∃ j, j = (k - 5180) / 128 := ⟨_, rfl⟩
      have hpath : dataPath k = [i, j, 100] := by rw [dataPath_double h5180, hidef, hjdef]
      have hi : i = 0 ↔ StartsIndex k := by
        rw [hidef]
        exact ⟨fun h => ⟨by omega, by omega⟩, fun h => by have := h.2; omega⟩
      have hgrow : (j = 0 → ¬ InTree k [100]) ↔ Growable k := by
        rw [inTree_double, hjdef]
        unfold Growable
        omega
      have hcost : Growable k →
          blockCost k = (if j = 0 then 1 else 0) + ((if i = 0 then 1 else 0) + 1) := by
        intro hg
        have hj : j = 0 ↔ k = doubleStart := by
          unfold Growable at hg
          unfold doubleStart
          omega
        rw [blockCost]
        simp only [hi, hj]
        omega
      have hthere : j ≠ 0 → InTree k [100] := by rw [inTree_double]; omega
      have hnil : With U r (Upto 3 k) = With U r (InTree k) := with_upto (by rw [hpath]; rfl)
      rw [← hnil, ← with_upto_zero]
      rw [← hnil] at hs
      have hbody : (growBlock (freeMapAllocate (depth + 1)) r k : Exec (Fs SectorStore) Bool)
          = growDoubleIndirect (freeMapAllocate (depth + 1)) ⟨r, doubleIndirect⟩ j i := by
        have h1 : (k - numDirect) / entriesPerSector - numSingleIndirect = j := by
          simp only [numDirect, entriesPerSector, numSingleIndirect]
          omega
        have h2 : (k - numDirect) % entriesPerSector = i := by
          simp only [numDirect, entriesPerSector]
          omega
        unfold growBlock
        simp only
        rw [if_neg (by unfold numDirect; omega), if_neg (by
          simp only [numDirect, entriesPerSector, numSingleIndirect]; omega), h1, h2]
      rw [hbody]
      refine (growDoubleIndirect_does (H := H) depth hk hs hr hpath hi h5180 hthere).mono ?_ ?_
      · rintro b im' ⟨hj, hatt⟩
        have hg := hgrow.mp hj
        rw [hcost hg]
        exact ⟨hg, hatt⟩
      · rintro ⟨hg, hok⟩
        rw [hcost hg] at hok
        exact ⟨hgrow.mpr hg, hok⟩
  · exact (growBlock_outside depth (Nat.le_of_not_lt hk)).mono (fun _ _ h => h.elim)
      (fun h => hk h.1.1)

/-! ### The loop -/

/-- Every one of the blocks `m … m + num - 1` that is reached with `room` sectors can be added. -/
def GrowSafe (m num room : Nat) : Prop :=
  ∀ k, m ≤ k → k < m + num → treeCost m k ≤ room → Growable k

theorem treeCost_self (m : Nat) : treeCost m m = 0 := by simp [treeCost]

theorem treeCost_succ {m n : Nat} (h : m < n) : treeCost m n = blockCost m + treeCost (m + 1) n := by
  unfold treeCost
  rw [← Finset.sum_Ico_consecutive _ (Nat.le_succ m) h, Nat.Ico_succ_singleton,
    Finset.sum_singleton]

/-- The first block and the others. -/
theorem growSafe_succ {m num room room' : Nat} (h : room = room' + blockCost m) :
    GrowSafe m (num + 1) room ↔ Growable m ∧ GrowSafe (m + 1) num room' := by
  constructor
  · intro hs
    refine ⟨hs m (le_refl m) (by omega) (by rw [treeCost_self]; omega), fun k h1 h2 h3 => ?_⟩
    refine hs k (by omega) (by omega) ?_
    rw [treeCost_succ (by omega)]
    omega
  · rintro ⟨h0, hs⟩ k h1 h2 h3
    by_cases hk : k = m
    · rw [hk]; exact h0
    · rw [treeCost_succ (by omega)] at h3
      exact hs k (by omega) (by omega) (by omega)

/-- With too little room for the first block the others are not reached. -/
theorem growSafe_of_lt {m num room : Nat} (h0 : Growable m) (h : room < blockCost m) :
    GrowSafe m (num + 1) room := by
  intro k h1 h2 h3
  by_cases hk : k = m
  · rw [hk]; exact h0
  · rw [treeCost_succ (by omega)] at h3
    omega

/-- **The loop of `inode_extend`**, from the tree of `m` blocks on.  `numBlocks` is the number of
    the last block, which is `2 ^ 32 - 1` for a file that has none. -/
theorem extendLoop_does (depth : Nat) (hr : fs.mapRoot ≠ some r) (num : Nat) :
    ∀ (im : Image) (m numBlocks : Nat), Sound fs (With U r (InTree m)) im.disk →
      (numBlocks + 1) % 2 ^ 32 = m % 2 ^ 32 → m ≤ maxBlocks →
      Does (extendLoop (freeMapAllocate (depth + 1)) r num numBlocks) fs im
        (GrowSafe m num (im.disk.room fs.store.size) ∧
          GrowOk fs (With U r (InTree m)) r [] H (treeCost m (m + num)) im)
        (fun b im' => GrowSafe m num (im.disk.room fs.store.size) ∧
          Attempt fs r (With U r (InTree m)) (With U r (InTree (m + num))) (treeCost m (m + num))
            im b im') := by
  induction num with
  | zero =>
    intro im m numBlocks hs hm hmax
    rw [extendLoop, Nat.add_zero, treeCost_self]
    exact does_pure ⟨fun k h1 h2 => by omega, attempt_refl⟩
  | succ num ih =>
    intro im m numBlocks hs hm hmax
    have hmod : (numBlocks + 1) % 2 ^ 32 = m := by
      unfold maxBlocks at hmax
      omega
    have hend : m + (num + 1) = m + 1 + num := by omega
    rw [extendLoop, hmod, treeCost_succ (show m < m + (num + 1) by omega), hend]
    refine (growBlock_does depth hs hr).bind ?_ (fun h => ⟨?_, h.2.weaken⟩)
    · rintro b im₁ ⟨hgrow, hatt⟩
      cases b with
      | false => exact does_pure ⟨growSafe_of_lt hgrow hatt.room_lt, hatt.fail⟩
      | true =>
        rw [if_pos rfl, growSafe_succ hatt.room]
        refine (ih im₁ (m + 1) m (hatt.sound hs hr) rfl hgrow.1).mono ?_ ?_
        · rintro b im₂ ⟨hg, hatt₂⟩
          exact ⟨⟨hgrow, hg⟩, hatt.trans hs hr hatt₂⟩
        · rintro ⟨⟨-, hg⟩, hok⟩
          exact ⟨hg, hok.after hs hr hatt⟩
    · exact h.1 m (le_refl m) (by omega) (by rw [treeCost_self]; exact Nat.zero_le _)

/-- **`inode_extend`** of a file of `m` blocks by `num` blocks. -/
theorem inodeExtend_does {a L num : Nat} {inode : Inode} (depth : Nat)
    (ha : fs.inodes a = some inode) (hs : Sound fs U im.disk) (hf : IsFile U im.disk inode.sector L)
    (hL : L ≤ 512 * maxBlocks) (hr : fs.mapRoot ≠ some inode.sector) :
    Does (inodeExtend (freeMapAllocate (depth + 1)) a num) fs im
      (GrowSafe (treeBlocks L) num (im.disk.room fs.store.size) ∧
        GrowOk fs U inode.sector [] [] (treeCost (treeBlocks L) (treeBlocks L + num)) im)
      (fun b im' => GrowSafe (treeBlocks L) num (im.disk.room fs.store.size) ∧
        Attempt fs inode.sector U (With U inode.sector (InTree (treeBlocks L + num)))
          (treeCost (treeBlocks L) (treeBlocks L + num)) im b im') := by
  obtain ⟨m, hm⟩ : ∃ m, m = treeBlocks L := ⟨_, rfl⟩
  have hblocks : treeBlocks L = (L + 511) / 512 := by
    unfold treeBlocks
    omega
  have hmax : m ≤ maxBlocks := by rw [hm]; exact Nat.min_le_right _ _
  have hwith : With U inode.sector (InTree m) = U := with_self (fun p => by rw [hm]; exact hf.tree p)
  -- the number of the last block, modulo `2 ^ 32`
  have hnum : (toUnsigned (ceil (diskLength (im.disk.data inode.sector)) 512 - 1) + 1) % 2 ^ 32
      = m % 2 ^ 32 := by
    rw [hf.diskLength, ceil_natCast, ← hblocks, ← hm]
    unfold toUnsigned
    omega
  rw [← hm]
  unfold inodeExtend
  refine does_getInode ha (does_writeBlock (fun h => ?_) (fun l l' _ hl hl' => ?_))
  · exact ⟨hs.inside _ _ hf.root, h.2.held _ (by simp)⟩
  refine does_dataOf (does_assert (fun _ => hf.valid) (fun _ => ?_))
  have hs' : Sound fs (With U inode.sector (InTree m)) (im.enter inode.sector l).disk := by
    rw [hwith]
    exact hs
  have hloop := extendLoop_does (H := [inode.sector]) depth hr num (im.enter inode.sector l) m _ hs'
    hnum hmax
  rw [hwith] at hloop
  refine Does.bind hloop ?_ (fun h => ⟨h.1, ?_⟩)
  · rintro b im₁ ⟨hg, hatt⟩
    have hend := hatt.section_end hs hr hf.owns_root hl hl' (.inr rfl)
    exact does_writeEnd (does_pure ⟨hg, hend⟩)
  · refine ⟨fun t ht => ?_, fun t ht => ?_, h.2.unlocked, h.2.roomy, h.2.blank⟩
    · rw [mem_singleton] at ht
      rw [Image.enter_lock, update_of_ne ht]
      exact h.2.held t (by simp)
    · rw [mem_singleton] at ht
      exact ⟨[], nil_suffix, hf.root, ht⟩

end Fs

end KernelSanders

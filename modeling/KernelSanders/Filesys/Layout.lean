import KernelSanders.Filesys.Image
import KernelSanders.Filesys.InodeTree

namespace KernelSanders

open Lib Disk
open Bitmap

/-!
# Inode trees on the disk

`U r p` says that node `p` of the inode at sector `r` is in use.  `Sound fs U d` is the invariant
that ties the nodes in use to the free map, and the one thing a growing inode does to the disk is
`Attach`: a sector that was free is marked, cleared and stored into the slot of an unused node.

* `Attach.sound`, `Attach.node_eq` — an attached sector leaves every other node where it is;
* `Grown` — a sequence of attachments below one inode, with a lemma for each thing it keeps;
* `Rewritten` — a change of data blocks of one inode only.
-/

/-- Number of blocks in the tree of a file of `L` bytes. -/
def treeBlocks (L : Nat) : Nat := min ((L + 511) / 512) maxBlocks

theorem treeBlocks_of_le {L : Nat} (h : L ≤ 512 * maxBlocks) : treeBlocks L = (L + 511) / 512 := by
  unfold treeBlocks
  omega

namespace Disk

/-- Byte `x` of the file at sector `r`. -/
def content (d : Disk) (r x : Nat) : UInt8 := (d.data (d.node r (dataPath (x / 512)))).byte (x % 512)

/-- Number of free sectors among the first `n`. -/
def room (d : Disk) (n : Nat) : Nat := (freeSet d.map.isSet (min n d.map.bitCnt)).card

/-- Number of bits of the free map that are off. -/
def spare (d : Disk) : Nat := (freeSet d.map.isSet d.map.bitCnt).card

end Disk

/-- The inode at sector `r` records the length `L`, and its tree is the one for that length. -/
structure IsFile (U : Nat → Path → Prop) (d : Disk) (r L : Nat) : Prop where
  valid : Fs.isValidInode (d.data r)
  length : d.word r Fs.lengthWord = L
  length_lt : L < 2 ^ 31
  tree : ∀ p, U r p ↔ InTree (treeBlocks L) p

namespace Fs

/-- The open inode of the free map's file, with its address. -/
def mapInode {σ : Type} (fs : Fs σ) : Option (Nat × Inode) :=
  match fs.freeMapFile with
  | none => none
  | some f =>
    match fs.files f with
    | none => none
    | some file => (fs.inodes file.inode).map (fun inode => (file.inode, inode))

/-- The sector of the free map's inode. -/
def mapRoot {σ : Type} (fs : Fs σ) : Option Nat := fs.mapInode.map (fun x => x.2.sector)

end Fs

/-- The free map has no file yet, or a file it can be written to. -/
def MapFile (fs : Fs SectorStore) (U : Nat → Path → Prop) (d : Disk) : Prop :=
  fs.freeMapFile ≠ none → ∃ a inode, fs.mapInode = some (a, inode) ∧ inode.denyWriteCnt = 0 ∧
    IsFile U d inode.sector (byteCnt d.map.bitCnt) ∧
    byteCnt d.map.bitCnt ≤ 512 * maxBlocks

/-- The nodes in use are separate sectors of the device that the free map has as used. -/
structure Sound (fs : Fs SectorStore) (U : Nat → Path → Prop) (d : Disk) : Prop where
  rooted : Rooted U
  shape : ∀ r p, U r p → InTree maxBlocks p
  separated : Separated d.word U
  used : ∀ r p, U r p → d.map.isSet (d.node r p) = true
  inside : ∀ r p, U r p → d.node r p < fs.store.size
  bit : ∀ r p, U r p → d.node r p < d.map.bitCnt
  root_pos : ∀ r p, U r p → 0 < r
  inner : ∀ r p, U r p → p ≠ [] → 3 ≤ d.node r p
  reserved : ∀ t, t < 3 → d.map.isSet t = true
  fits : d.map.Fits
  mapFile : MapFile fs U d

/-- Sector `t` is a data block of the free map's file. -/
def MapLeaf (fs : Fs SectorStore) (U : Nat → Path → Prop) (d : Disk) (t : Nat) : Prop :=
  ∃ r k, fs.mapRoot = some r ∧ U r (dataPath k) ∧ t = d.node r (dataPath k)

/-- The file of the free map holds the free map. -/
def Saved (fs : Fs SectorStore) (d : Disk) : Prop :=
  ∀ r, fs.mapRoot = some r →
    ∀ x, x < byteCnt d.map.bitCnt → d.content r x = d.map.bytes x

variable {fs : Fs SectorStore} {U V : Nat → Path → Prop} {d d' d₁ d₂ : Disk} {r s i r' : Nat}
  {p q : Path}

/-! ### Nodes -/

section

variable (h : Sound fs U d)
include h

/-- A tree in use has its inode in use. -/
theorem Sound.root_of_mem (hp : U r p) : U r [] := by
  induction p with
  | nil => exact hp
  | cons i p ih => exact ih (h.rooted r i p hp)

/-- Nodes of two trees, or two nodes of a tree, are different sectors. -/
theorem Sound.node_inj (hp : U r p) (hq : U r' q) (he : d.node r p = d.node r' q) :
    r = r' ∧ p = q := h.separated r p r' q hp hq he

/-- A free sector is no node. -/
theorem Sound.node_ne (hs : d.map.isSet s = false) (hp : U r p) : d.node r p ≠ s := by
  intro he
  have := h.used r p hp
  rw [he, hs] at this
  cases this

/-- An inode is no other node of its tree. -/
theorem Sound.node_ne_root (hp : U r (i :: p)) : d.node r (i :: p) ≠ r := by
  intro he
  obtain ⟨-, hnil⟩ := h.node_inj (q := []) hp (h.root_of_mem hp) he
  cases hnil

/-- A data block has no children in use. -/
theorem Sound.no_child {k : Nat} : ¬ U r (i :: dataPath k) := fun hu =>
  not_inTree_child i (h.shape r _ hu)

/-- An index block or an inode is no data block of the free map's file. -/
theorem Sound.not_mapLeaf (hp : U r (i :: p)) : ¬ MapLeaf fs U d (d.node r p) := by
  rintro ⟨r', k, -, hk, he⟩
  obtain ⟨rfl, rfl⟩ := h.node_inj (h.rooted r i p hp) hk he
  exact h.no_child hp

/-- Nothing of another inode is a data block of the free map's file. -/
theorem Sound.not_mapLeaf_of_ne (hr : fs.mapRoot ≠ some r) (hp : U r p) :
    ¬ MapLeaf fs U d (d.node r p) := by
  rintro ⟨r', k, hr', hk, he⟩
  obtain ⟨rfl, -⟩ := h.node_inj hp hk he
  exact hr hr'

/-- An inode is no data block of the free map's file. -/
theorem Sound.root_not_mapLeaf (hp : U r []) : ¬ MapLeaf fs U d r := by
  rintro ⟨r', k, -, hk, he⟩
  obtain ⟨rfl, hnil⟩ := h.node_inj (p := []) hp hk he
  exact dataPath_ne_nil hnil.symm

/-- The free map's file, from its inode's sector. -/
theorem Sound.mapFile_of_root (hr : fs.mapRoot = some r) :
    ∃ a inode, fs.mapInode = some (a, inode) ∧ inode.sector = r ∧ inode.denyWriteCnt = 0 ∧
      IsFile U d r (byteCnt d.map.bitCnt) ∧
      byteCnt d.map.bitCnt ≤ 512 * maxBlocks := by
  have hfile : fs.freeMapFile ≠ none := by
    intro hnone
    unfold Fs.mapRoot Fs.mapInode at hr
    rw [hnone] at hr
    cases hr
  obtain ⟨a, inode, hmi, hdeny, hf, hlen⟩ := h.mapFile hfile
  rw [Fs.mapRoot, hmi] at hr
  obtain rfl : inode.sector = r := Option.some.inj hr
  exact ⟨a, inode, hmi, rfl, hdeny, hf, hlen⟩

/-- The invariant only speaks about the size of the device and the free map's file. -/
theorem Sound.of_state {fs' : Fs SectorStore}
    (hsize : fs'.store.size = fs.store.size) (hfile : MapFile fs' U d) : Sound fs' U d :=
  ⟨h.rooted, h.shape, h.separated, h.used, by rw [hsize]; exact h.inside, h.bit, h.root_pos,
    h.inner, h.reserved, h.fits, hfile⟩

end

/-- The links of the nodes in use are the same on both disks. -/
def SameLinks (U : Nat → Path → Prop) (d d' : Disk) : Prop :=
  ∀ r i p, U r (i :: p) → d'.word (d.node r p) i = d.word (d.node r p) i

theorem SameLinks.node_eq (h : SameLinks U d d') (hU : Rooted U) (hp : U r p) :
    d'.node r p = d.node r p := resolve_congr hU h r p hp

/-- The invariant survives a change that keeps the links and frees no node. -/
theorem Sound.of_sameLinks (h : Sound fs U d) (hl : SameLinks U d d')
    (hmap : ∀ r p, U r p → d'.map.isSet (d.node r p) = true)
    (hres : ∀ t, t < 3 → d'.map.isSet t = true) (hcnt : d'.map.bitCnt = d.map.bitCnt)
    (hfile : MapFile fs U d') : Sound fs U d' where
  rooted := h.rooted
  shape := h.shape
  separated := h.separated.congr (resolve_congr h.rooted hl)
  used r p hp := by rw [hl.node_eq h.rooted hp]; exact hmap r p hp
  inside r p hp := by rw [hl.node_eq h.rooted hp]; exact h.inside r p hp
  bit r p hp := by rw [hl.node_eq h.rooted hp, hcnt]; exact h.bit r p hp
  root_pos := h.root_pos
  inner r p hp hne := by rw [hl.node_eq h.rooted hp]; exact h.inner r p hp hne
  reserved := hres
  fits := by have := h.fits; unfold Bitmap.Fits at this ⊢; rw [hcnt]; exact this
  mapFile := hfile

/-- The free map's file after a change elsewhere. -/
theorem MapFile.congr (h : MapFile fs U d) (hcnt : d'.map.bitCnt = d.map.bitCnt)
    (hsame : ∀ r, fs.mapRoot = some r → U r [] → (∀ p, V r p ↔ U r p) ∧ d'.data r = d.data r) :
    MapFile fs V d' := by
  intro hf
  obtain ⟨a, inode, ha, hdeny, hfile, hlen⟩ := h hf
  obtain ⟨htree, hdata⟩ := hsame inode.sector (by rw [Fs.mapRoot, ha]; rfl)
    ((hfile.tree []).mpr (inTree_nil _))
  rw [← hcnt] at hfile hlen
  refine ⟨a, inode, ha, hdeny, ⟨?_, ?_, hfile.length_lt, fun p => ?_⟩, hlen⟩
  · rw [hdata]; exact hfile.valid
  · rw [word, hdata]; exact hfile.length
  · rw [htree, hfile.tree]

/-- **One node more**, at a sector that was no node and that the free map has as used. -/
theorem Sound.add (h : Sound fs U d) (hrooted : Rooted (Add U r p)) (hshape : InTree maxBlocks p)
    (hl : SameLinks U d d') (hs : d'.node r p = s) (hfresh : Fresh d.word U s)
    (hset : ∀ t, d.map.isSet t = true ∨ t = s → d'.map.isSet t = true)
    (hcnt : d'.map.bitCnt = d.map.bitCnt) (hinside : s < fs.store.size) (hbit : s < d.map.bitCnt)
    (hpos : 0 < r) (hinner : p ≠ [] → 3 ≤ s) (hfile : MapFile fs (Add U r p) d') :
    Sound fs (Add U r p) d' := by
  subst hs
  have hnode := fun {r' : Nat} {q : Path} (hu : U r' q) => hl.node_eq h.rooted hu
  refine ⟨hrooted, ?_, h.separated.add (fun r' q hu => hnode hu) hfresh, ?_, ?_, ?_, ?_, ?_,
    fun t ht => hset t (.inl (h.reserved t ht)), ?_, hfile⟩
  · rintro r' q (hu | ⟨-, rfl⟩)
    · exact h.shape r' q hu
    · exact hshape
  · rintro r' q (hu | ⟨rfl, rfl⟩)
    · rw [hnode hu]; exact hset _ (.inl (h.used r' q hu))
    · exact hset _ (.inr rfl)
  · rintro r' q (hu | ⟨rfl, rfl⟩)
    · rw [hnode hu]; exact h.inside r' q hu
    · exact hinside
  · rw [hcnt]
    rintro r' q (hu | ⟨rfl, rfl⟩)
    · rw [hnode hu]; exact h.bit r' q hu
    · exact hbit
  · rintro r' q (hu | ⟨rfl, -⟩)
    · exact h.root_pos r' q hu
    · exact hpos
  · rintro r' q (hu | ⟨rfl, rfl⟩) hne
    · rw [hnode hu]; exact h.inner r' q hu hne
    · exact hinner hne
  · have := h.fits
    unfold Bitmap.Fits at this ⊢
    rwa [hcnt]

/-- The invariant survives a change of the free map that frees no node. -/
theorem Sound.of_map (h : Sound fs U d) {b : Bitmap} (hcnt : b.bitCnt = d.map.bitCnt)
    (hmap : ∀ r p, U r p → b.isSet (d.node r p) = true) (hres : ∀ t, t < 3 → b.isSet t = true) :
    Sound fs U { d with map := b } :=
  h.of_sameLinks (fun _ _ _ _ => rfl) hmap hres hcnt
    (h.mapFile.congr hcnt (fun _ _ _ => ⟨fun _ => Iff.rfl, rfl⟩))

/-! ### Attaching a sector -/

/-- Sector `s` was free and is now the empty block in slot `i` of node `p`. -/
structure Attach (fs : Fs SectorStore) (U : Nat → Path → Prop) (r i : Nat) (p : Path) (s : Nat)
    (d d' : Disk) : Prop where
  free : d.map.isSet s = false
  inside : s < fs.store.size
  bit : s < d.map.bitCnt
  map : d'.map = d.map.mark s
  empty : d'.data s = Bytes.zero
  slot : d'.data (d.node r p) = (d.data (d.node r p)).setWord i s
  frame : ∀ t, t ≠ s → t ≠ d.node r p → ¬ MapLeaf fs U d t → d'.data t = d.data t

namespace Attach

variable (h : Attach fs U r i p s d d') (hs : Sound fs U d) (hr : fs.mapRoot ≠ some r)
  (hp : U r p) (hi : ¬ U r (i :: p)) (hq : InTree maxBlocks (i :: p))

include h

theorem bitCnt_eq : d'.map.bitCnt = d.map.bitCnt := by rw [h.map]; rfl

theorem isSet_iff (t : Nat) : d'.map.isSet t = true ↔ d.map.isSet t = true ∨ t = s := by
  rw [h.map, isSet_mark]
  by_cases ht : t = s
  · subst ht; simp
  · rw [Function.update_of_ne ht]; simp [ht]

theorem room_eq : d.room fs.store.size = d'.room fs.store.size + 1 := by
  have hmin : s < min fs.store.size d.map.bitCnt := lt_min h.inside h.bit
  have hpos : 0 < (freeSet d.map.isSet (min fs.store.size d.map.bitCnt)).card :=
    Finset.card_pos.mpr ⟨s, mem_freeSet.mpr ⟨hmin, h.free⟩⟩
  have hcard := card_freeSet_take hmin h.free
  unfold room
  rw [h.bitCnt_eq, h.map, isSet_mark]
  omega

theorem spare_eq : d.spare = d'.spare + 1 := by
  have hpos : 0 < (freeSet d.map.isSet d.map.bitCnt).card :=
    Finset.card_pos.mpr ⟨s, mem_freeSet.mpr ⟨h.bit, h.free⟩⟩
  have hcard := card_freeSet_take h.bit h.free
  unfold spare
  rw [h.bitCnt_eq, h.map, isSet_mark]
  omega

include hs

theorem pos : 3 ≤ s := by
  by_contra hlt
  have := hs.reserved s (by omega)
  rw [h.free] at this
  cases this

/-- The data of every node other than the parent and the blocks of the map's file stays. -/
theorem data_eq (hu : U r' q) (hne : ¬ (r' = r ∧ q = p)) (hp : U r p)
    (hleaf : ¬ MapLeaf fs U d (d.node r' q)) : d'.data (d.node r' q) = d.data (d.node r' q) :=
  h.frame _ (hs.node_ne h.free hu) (fun he => hne (hs.node_inj hu hp he)) hleaf

include hp hi in
theorem sameLinks : SameLinks U d d' := by
  intro r' j q hu
  have hu' := hs.rooted r' j q hu
  by_cases hpar : r' = r ∧ q = p
  · -- another slot of the parent
    obtain ⟨rfl, rfl⟩ := hpar
    have hji : j ≠ i := by rintro rfl; exact hi hu
    unfold word
    rw [h.slot, Bytes.word_setWord_ne _ _ hji]
  · unfold word
    rw [h.data_eq hs hu' hpar hp (hs.not_mapLeaf hu)]

include hp hi in
theorem node_eq (hu : U r' q) : d'.node r' q = d.node r' q :=
  (h.sameLinks hs hp hi).node_eq hs.rooted hu

include hp hi hq in
/-- The new node is the new sector. -/
theorem node_new : d'.node r (i :: p) = s := by
  have hlt : s < 2 ^ 32 := by
    have h1 := h.bit
    have h2 := hs.fits
    unfold Bitmap.Fits at h2
    omega
  have hi' := index_lt hq
  rw [node_cons, h.node_eq hs hp hi hp, word, h.slot,
    Bytes.word_setWord_same _ _ _ (by omega), Nat.mod_eq_of_lt hlt]

include hr hp in
/-- The inode of the free map keeps its length and its tree. -/
theorem mapFile : MapFile fs (Add U r (i :: p)) d' := by
  refine hs.mapFile.congr h.bitCnt_eq (fun r' hroot hnil => ?_)
  have hne : r' ≠ r := by rintro rfl; exact hr hroot
  exact ⟨fun q => ⟨fun hu => hu.resolve_right (fun he => hne he.1), .inl⟩,
    h.data_eq hs (q := []) hnil (fun he => hne he.1) hp (hs.root_not_mapLeaf hnil)⟩

include hr hp hi hq in
/-- **One attachment keeps the invariant**, with the new node in use. -/
theorem sound : Sound fs (Add U r (i :: p)) d' :=
  hs.add (hs.rooted.add hp) hq (h.sameLinks hs hp hi) (h.node_new hs hp hi hq)
    (fun _ _ hu => hs.node_ne h.free hu) (fun t => (h.isSet_iff t).mpr) h.bitCnt_eq h.inside h.bit
    (hs.root_pos r p hp) (fun _ => h.pos hs) (h.mapFile hs hr hp)

end Attach

/-! ### Growing an inode -/

/-- A sequence of `c` attachments below the inode at sector `r`, from the nodes `U` on the disk `d`
    to the nodes and the disk that follow. -/
inductive Grown (fs : Fs SectorStore) (r : Nat) (U : Nat → Path → Prop) (d : Disk) :
    (Nat → Path → Prop) → Disk → Nat → Prop
  | refl : Grown fs r U d U d 0
  | step {V : Nat → Path → Prop} {d₁ d₂ : Disk} {c i s : Nat} {p : Path}
      (h : Grown fs r U d V d₁ c) (hp : V r p) (hi : ¬ V r (i :: p))
      (hq : InTree maxBlocks (i :: p)) (ha : Attach fs V r i p s d₁ d₂) (hd : Saved fs d₂) :
      Grown fs r U d (Add V r (i :: p)) d₂ (c + 1)

namespace Grown

variable {c c' : Nat} {W : Nat → Path → Prop}

theorem trans (h : Grown fs r U d V d₁ c) (h' : Grown fs r V d₁ W d₂ c') :
    Grown fs r U d W d₂ (c + c') := by
  induction h' with
  | refl => exact h
  | step _ hp hi hq ha hd ih => exact ih.step hp hi hq ha hd

variable (h : Grown fs r U d V d' c)

include h

theorem subset (hu : U r' q) : V r' q := by
  induction h with
  | refl => exact hu
  | step _ _ _ _ _ _ ih => exact .inl ih

/-- The other trees stay as they are. -/
theorem other (hne : r' ≠ r) : V r' q ↔ U r' q := by
  induction h with
  | refl => exact Iff.rfl
  | step _ _ _ _ _ _ ih =>
    refine ⟨fun hv => ih.mp (hv.resolve_right (fun he => hne he.1)), fun hu => .inl (ih.mpr hu)⟩

theorem isSet_mono {t : Nat} (ht : d.map.isSet t = true) : d'.map.isSet t = true := by
  induction h with
  | refl => exact ht
  | step _ _ _ _ ha _ ih => exact (ha.isSet_iff t).mpr (.inl ih)

theorem bitCnt_eq : d'.map.bitCnt = d.map.bitCnt := by
  induction h with
  | refl => rfl
  | step _ _ _ _ ha _ ih => rw [ha.bitCnt_eq, ih]

theorem room_eq : d.room fs.store.size = d'.room fs.store.size + c := by
  induction h with
  | refl => rfl
  | step _ _ _ _ ha _ ih => rw [ih, ha.room_eq]; omega

theorem spare_eq : d.spare = d'.spare + c := by
  induction h with
  | refl => rfl
  | step _ _ _ _ ha _ ih => rw [ih, ha.spare_eq]; omega

variable (hs : Sound fs U d) (hr : fs.mapRoot ≠ some r)

include hs hr

theorem sound : Sound fs V d' := by
  induction h with
  | refl => exact hs
  | step _ hp hi hq ha _ ih => exact ha.sound ih hr hp hi hq

/-- Every old node keeps its sector. -/
theorem node_eq (hu : U r' q) : d'.node r' q = d.node r' q := by
  induction h with
  | refl => rfl
  | step h hp hi hq ha _ ih =>
    rw [ha.node_eq (h.sound hs hr) hp hi (h.subset hu), ih]

/-- Every new node is a sector that was free. -/
theorem fresh (hv : V r' q) (hu : ¬ U r' q) : r' = r ∧ d.map.isSet (d'.node r' q) = false := by
  induction h with
  | refl => exact absurd hv hu
  | step h hp hi hq ha _ ih =>
    rcases hv with hv | ⟨rfl, rfl⟩
    · rw [ha.node_eq (h.sound hs hr) hp hi hv]
      exact ih hv
    · rw [ha.node_new (h.sound hs hr) hp hi hq]
      refine ⟨rfl, ?_⟩
      -- a sector that is free now was free at the start
      by_contra hset
      rw [Bool.not_eq_false] at hset
      have := h.isSet_mono hset
      rw [ha.free] at this
      cases this

/-- A new data block is empty. -/
theorem new_empty {k : Nat} (hv : V r (dataPath k)) (hu : ¬ U r (dataPath k)) :
    d'.data (d'.node r (dataPath k)) = Bytes.zero := by
  induction h with
  | refl => exact absurd hv hu
  | @step V d₁ d₂ c i s p h hp hi hq ha _ ih =>
    have hs₁ := h.sound hs hr
    rcases hv with hv | ⟨-, he⟩
    · have hne : ¬ (r = r ∧ dataPath k = p) := by
        rintro ⟨-, rfl⟩
        exact not_inTree_child i hq
      rw [ha.node_eq hs₁ hp hi hv, ha.data_eq hs₁ hv hne hp (hs₁.not_mapLeaf_of_ne hr hv)]
      exact ih hv
    · rw [he, ha.node_new hs₁ hp hi hq]
      exact ha.empty

/-- The data of the other inodes' nodes, and of the old data blocks of this one, stays. -/
theorem data_eq (hu : U r' q) (hm : ¬ MapLeaf fs U d (d.node r' q))
    (hq : r' ≠ r ∨ ∃ k, q = dataPath k) : d'.data (d.node r' q) = d.data (d.node r' q) := by
  induction h with
  | refl => rfl
  | @step V d₁ d₂ c i s p h hp hi hin ha _ ih =>
    have hs₁ := h.sound hs hr
    have hnode := h.node_eq hs hr hu
    have hne : ¬ (r' = r ∧ q = p) := by
      rintro ⟨rfl, rfl⟩
      rcases hq with hq | ⟨k, rfl⟩
      · exact hq rfl
      · exact not_inTree_child i hin
    -- the blocks of the map's file are the same ones all the time
    have hleaf : ¬ MapLeaf fs V d₁ (d₁.node r' q) := by
      rintro ⟨r₀, k, hr₀, hk, he⟩
      have hne₀ : r₀ ≠ r := by rintro rfl; exact hr hr₀
      have hk' := (h.other hne₀).mp hk
      exact hm ⟨r₀, k, hr₀, hk', by rw [← hnode, he, h.node_eq hs hr hk']⟩
    rw [← hnode, ha.data_eq hs₁ (h.subset hu) hne hp hleaf, hnode, ih]

/-- The words of the inode behind its pointers stay. -/
theorem root_word {j : Nat} (hu : U r []) (hj : 100 < j) : d'.word r j = d.word r j := by
  induction h with
  | refl => rfl
  | @step V d₁ d₂ c i s p h hp hi hin ha _ ih =>
    have hs₁ := h.sound hs hr
    by_cases hpar : p = []
    · subst hpar
      have hji : j ≠ i := by have := root_index_le hin; omega
      rw [← ih, word, word]
      have hslot := ha.slot
      rw [node_nil] at hslot
      rw [hslot, Bytes.word_setWord_ne _ _ hji]
    · have hdata : d₂.data r = d₁.data r :=
        ha.data_eq hs₁ (q := []) (h.subset hu) (fun he => hpar he.2.symm) hp
          (hs₁.root_not_mapLeaf (h.subset hu))
      rw [← ih, word, word, hdata]

end Grown

/-! ### Unused pointers -/

/-- The slots of unused nodes hold `0`. -/
def Blank (U : Nat → Path → Prop) (r : Nat) (d : Disk) : Prop :=
  ∀ i p, InTree maxBlocks (i :: p) → U r p → ¬ U r (i :: p) → d.word (d.node r p) i = 0

theorem Attach.blank (h : Attach fs U r i p s d d') (hs : Sound fs U d)
    (hr : fs.mapRoot ≠ some r) (hp : U r p) (hi : ¬ U r (i :: p)) (hq : InTree maxBlocks (i :: p))
    (hb : Blank U r d) : Blank (Add U r (i :: p)) r d' := by
  rintro j q hjq (hu | ⟨-, rfl⟩) hn
  · have hn' : ¬ U r (j :: q) := fun hu' => hn (.inl hu')
    rw [h.node_eq hs hp hi hu]
    by_cases hpar : q = p
    · subst hpar
      have hji : j ≠ i := by rintro rfl; exact hn (.inr ⟨rfl, rfl⟩)
      rw [word, h.slot, Bytes.word_setWord_ne _ _ hji]
      exact hb j q hjq hu hn'
    · rw [word, h.data_eq hs hu (fun he => hpar he.2) hp (hs.not_mapLeaf_of_ne hr hu)]
      exact hb j q hjq hu hn'
  · rw [h.node_new hs hp hi hq, word, h.empty, Bytes.word_zero]

theorem Grown.blank {c : Nat} (h : Grown fs r U d V d' c) (hs : Sound fs U d)
    (hr : fs.mapRoot ≠ some r) (hb : Blank U r d) : Blank V r d' := by
  induction h with
  | refl => exact hb
  | step h hp hi hq ha _ ih => exact ha.blank (h.sound hs hr) hr hp hi hq ih

/-! ### Changing data blocks -/

/-- Only data blocks of the inode at sector `r` differ. -/
def Rewritten (U : Nat → Path → Prop) (r : Nat) (d d' : Disk) : Prop :=
  ∀ t, (∀ k, U r (dataPath k) → t ≠ d.node r (dataPath k)) → d'.data t = d.data t

namespace Rewritten

variable (h : Rewritten U r d d') (hs : Sound fs U d)

include h hs

/-- Index blocks and inodes are no data blocks. -/
theorem data_eq (hu : U r' q) (hq : r' ≠ r ∨ ∀ k, q ≠ dataPath k) :
    d'.data (d.node r' q) = d.data (d.node r' q) := by
  refine h _ (fun k hk he => ?_)
  obtain ⟨rfl, rfl⟩ := hs.node_inj hu hk he
  rcases hq with hq | hq
  · exact hq rfl
  · exact hq k rfl

theorem sameLinks : SameLinks U d d' := by
  intro r' j q hu
  rw [word, h.data_eq hs (hs.rooted r' j q hu) ?_, word]
  right
  rintro k rfl
  exact hs.no_child hu

theorem node_eq (hu : U r' q) : d'.node r' q = d.node r' q :=
  (h.sameLinks hs).node_eq hs.rooted hu

theorem root_eq (hu : U r' []) : d'.data r' = d.data r' := by
  exact h.data_eq hs (q := []) hu (.inr (fun k he => dataPath_ne_nil he.symm))

/-- The free map's file keeps its inode. -/
theorem mapFile (hcnt : d'.map.bitCnt = d.map.bitCnt) : MapFile fs U d' :=
  hs.mapFile.congr hcnt (fun _ _ hnil => ⟨fun _ => Iff.rfl, h.root_eq hs hnil⟩)

theorem sound (hmap : d'.map = d.map) : Sound fs U d' := by
  refine hs.of_sameLinks (h.sameLinks hs) ?_ ?_ ?_ (h.mapFile hs ?_)
  · rw [hmap]; exact hs.used
  · rw [hmap]; exact hs.reserved
  · rw [hmap]
  · rw [hmap]

/-- Index blocks and inodes keep their unused slots. -/
theorem blank (hb : Blank U r d) : Blank U r d' := by
  intro i p hin hp hn
  have hnot : ∀ k, p ≠ dataPath k := by
    rintro k rfl
    exact not_inTree_child i hin
  rw [h.node_eq hs hp, word, h.data_eq hs hp (.inr hnot)]
  exact hb i p hin hp hn

theorem trans (h' : Rewritten U r d' d₂) : Rewritten U r d d₂ := by
  intro t ht
  rw [h' t (fun k hk => by rw [h.node_eq hs hk]; exact ht k hk), h t ht]

end Rewritten

end KernelSanders

import KernelSanders.Filesys.Layout

namespace KernelSanders

open Lib Lib.Exec Image Disk

/-!
# `byte_to_sector` and `inode_length`

`byte_to_sector` follows the path of the block and visits the inode and the index blocks on it, so
its result is the node `dataPath k` whether or not the block is one of the file's.
-/

/-- The sectors visited on the way to block `k`, the last one first. -/
def Disk.trail (d : Disk) (r k : Nat) : List Nat := (dataPath k).tails.tail.map (d.node r)

-- stated for variables: the kernel must not evaluate the arithmetic in a block's path
private theorem map_tails_two (f : Path → Nat) (i j : Nat) :
    ([i, j] : Path).tails.tail.map f = [f [j], f []] := rfl

private theorem map_tails_three (f : Path → Nat) (i j n : Nat) :
    ([i, j, n] : Path).tails.tail.map f = [f [j, n], f [n], f []] := rfl

private theorem mem_tails_tail {l q : Path} : q ∈ l.tails.tail ↔ q <:+ l ∧ q ≠ l := by
  cases l with
  | nil => simp
  | cons i l =>
    rw [List.tails_cons, List.tail_cons, List.mem_tails, List.suffix_cons_iff]
    constructor
    · intro h
      refine ⟨.inr h, fun he => ?_⟩
      have := h.length_le
      rw [he, List.length_cons] at this
      omega
    · rintro ⟨h | h, hne⟩
      · exact absurd h hne
      · exact h

theorem Disk.mem_trail {d : Disk} {r k t : Nat} :
    t ∈ d.trail r k ↔ ∃ q, q <:+ dataPath k ∧ q ≠ dataPath k ∧ t = d.node r q := by
  unfold trail
  rw [List.mem_map]
  constructor
  · rintro ⟨q, hq, rfl⟩
    obtain ⟨h1, h2⟩ := mem_tails_tail.mp hq
    exact ⟨q, h1, h2, rfl⟩
  · rintro ⟨q, h1, h2, rfl⟩
    exact ⟨q, mem_tails_tail.mpr ⟨h1, h2⟩, rfl⟩

namespace Fs

open BlockStore

variable {fs : Fs SectorStore} {im : Image} {a k : Nat} {inode : Inode}

/-- The lookup behind the direct blocks, inside the read section of the inode. -/
theorem indirectSector_does {l : RwLock} {r : Nat} (hk : 60 ≤ k)
    (hl : (im.lock r).readBegin = .ok l) :
    Does (indirectSector r (im.disk.data r) (k - numDirect)) fs (im.enter r l)
      (k < maxBlocks ∧ ∀ t ∈ im.disk.trail r k, t < fs.store.size ∧ (im.lock t).Readable)
      (fun s im' => s = im.disk.node r (dataPath k) ∧ k < maxBlocks ∧
        im' = im.visit (im.disk.trail r k)) := by
  unfold indirectSector
  by_cases h : (k - numDirect) / entriesPerSector < numSingleIndirect
  · -- the middle tier: one index block
    have h' : k < 5180 := by
      simp only [numDirect, entriesPerSector, numSingleIndirect] at h
      omega
    obtain ⟨t, ht⟩ : ∃ t, t = im.disk.word r (60 + (k - 60) / 128) := ⟨_, rfl⟩
    have htrail : im.disk.trail r k = [t, r] := by
      rw [trail, dataPath_single hk h', map_tails_two, node_cons, node_nil, ht]
    have hnode : im.disk.node r (dataPath k) = im.disk.word t ((k - 60) % 128) := by
      rw [dataPath_single hk h', node_cons, node_cons, node_nil, ht]
    rw [if_pos h, htrail, hnode]
    show Does (onStore (cacheReadBlock (im.disk.word r (60 + (k - 60) / 128))) >>= _) _ _ _ _
    rw [← ht]
    refine does_readBlock (fun hok => ?_) (fun l' hlt hl' => ?_)
    · obtain ⟨hr, hr'⟩ := hok.2 r (by simp)
      obtain ⟨h1, h1'⟩ := hok.2 t (by simp)
      exact ⟨h1, readable_enter hl hr' h1'⟩
    refine does_dataOf (does_readEnd ?_)
    rw [leaveRead_enter_same hl']
    refine does_readEnd ?_
    rw [leaveRead_enter hl]
    exact does_pure ⟨rfl, by unfold maxBlocks; omega, rfl⟩
  · -- the last tier: the double indirect block and an index block below it
    have h' : 5180 ≤ k := by
      simp only [numDirect, entriesPerSector, numSingleIndirect] at h
      omega
    have hsingle : (k - numDirect) / entriesPerSector - numSingleIndirect = (k - 5180) / 128 := by
      simp only [numDirect, entriesPerSector, numSingleIndirect]
      omega
    have hblocks : (k - numDirect) % entriesPerSector = (k - 5180) % 128 := by
      simp only [numDirect, entriesPerSector]
      omega
    obtain ⟨t₁, ht₁⟩ : ∃ t, t = im.disk.word r 100 := ⟨_, rfl⟩
    obtain ⟨t₂, ht₂⟩ : ∃ t, t = im.disk.word t₁ ((k - 5180) / 128) := ⟨_, rfl⟩
    have htrail : im.disk.trail r k = [t₂, t₁, r] := by
      rw [trail, dataPath_double h', map_tails_three, node_cons, node_cons, node_nil, ht₂, ht₁]
    have hnode : im.disk.node r (dataPath k) = im.disk.word t₂ ((k - 5180) % 128) := by
      rw [dataPath_double h', node_cons, node_cons, node_cons, node_nil, ht₂, ht₁]
    rw [if_neg h, hsingle, hblocks, htrail, hnode]
    refine does_assert (fun hok => ?_) (fun hlt => ?_)
    · have := hok.1
      unfold maxBlocks at this
      unfold entriesPerSector
      omega
    have hmax : k < maxBlocks := by
      unfold entriesPerSector at hlt
      unfold maxBlocks
      omega
    have hw₁ : (im.disk.data r).word doubleIndirect = t₁ := ht₁.symm
    rw [hw₁]
    refine does_readBlock (fun hok => ?_) (fun l₁ hlt₁ hl₁ => ?_)
    · obtain ⟨hr, hr'⟩ := hok.2 r (by simp)
      obtain ⟨h1, h1'⟩ := hok.2 t₁ (by simp)
      exact ⟨h1, readable_enter hl hr' h1'⟩
    refine does_dataOf ?_
    have hw₂ : ((((im.enter r l).enter t₁ l₁).disk.data t₁).word ((k - 5180) / 128)) = t₂ := by
      rw [enter_disk, enter_disk, ht₂, word]
    rw [hw₂]
    refine does_readBlock (fun hok => ?_) (fun l₂ hlt₂ hl₂ => ?_)
    · obtain ⟨hr, hr'⟩ := hok.2 r (by simp)
      obtain ⟨h1, h1'⟩ := hok.2 t₁ (by simp)
      obtain ⟨h2, h2'⟩ := hok.2 t₂ (by simp)
      exact ⟨h2, readable_enter hl₁ (readable_enter hl hr' h1')
        (readable_enter hl hr' h2')⟩
    refine does_dataOf (does_readEnd ?_)
    rw [leaveRead_enter_same hl₂]
    refine does_readEnd ?_
    rw [leaveRead_enter hl₁]
    refine does_readEnd ?_
    rw [leaveRead_enter hl]
    exact does_pure ⟨rfl, hmax, rfl⟩

/-- **`byte_to_sector`** looks up the node of the block, whatever it finds there. -/
theorem byteToSector_does {pos : Int} (ha : fs.inodes a = some inode)
    (hk : toUnsigned (pos.tdiv 512) = k) :
    Does (byteToSector a pos) fs im
      (isValidInode (im.disk.data inode.sector) ∧ k < maxBlocks ∧
        ∀ t ∈ im.disk.trail inode.sector k, t < fs.store.size ∧ (im.lock t).Readable)
      (fun s im' => s = im.disk.node inode.sector (dataPath k) ∧ k < maxBlocks ∧
        isValidInode (im.disk.data inode.sector) ∧
        im' = im.visit (im.disk.trail inode.sector k)) := by
  have hroot : inode.sector ∈ im.disk.trail inode.sector k := by
    exact mem_trail.mpr ⟨[], List.nil_suffix, dataPath_ne_nil.symm, rfl⟩
  unfold byteToSector
  refine does_getInode ha ?_
  rw [hk]
  refine does_readBlock (fun hok => hok.2.2 _ hroot) (fun l _ hl => ?_)
  refine does_dataOf ?_
  by_cases hv : isValidInode (im.disk.data inode.sector)
  · rw [enter_disk, if_pos hv]
    by_cases h60 : k < numDirect
    · have hpath : dataPath k = [k] := dataPath_direct h60
      rw [if_pos h60]
      refine does_readEnd ?_
      rw [leaveRead_enter_same hl]
      refine does_pure ⟨?_, ?_, hv, ?_⟩
      · rw [hpath]
        rfl
      · unfold numDirect at h60
        unfold maxBlocks
        omega
      · rw [trail, hpath]
        rfl
    · rw [if_neg h60]
      refine (indirectSector_does (Nat.le_of_not_lt h60) hl).mono ?_ (fun hok => hok.2)
      rintro s im' ⟨hs, hmax, him⟩
      exact ⟨hs, hmax, hv, him⟩
  · rw [enter_disk, if_neg hv]
    exact does_stop (fun hok => hv hok.1)

/-- `inode_length`. -/
theorem inodeLength_does (ha : fs.inodes a = some inode) :
    Does (inodeLength a) fs im
      (inode.sector < fs.store.size ∧ (im.lock inode.sector).Readable)
      (fun n im' => n = diskLength (im.disk.data inode.sector) ∧
        im' = im.visit [inode.sector]) := by
  unfold inodeLength
  refine does_getInode ha (does_readBlock id (fun l _ hl => ?_))
  refine does_dataOf (does_readEnd ?_)
  rw [leaveRead_enter_same hl]
  exact does_pure ⟨rfl, rfl⟩

end Fs

/-- The length of a file as `inode_length` reads it. -/
theorem IsFile.diskLength {U : Nat → Path → Prop} {d : Disk} {r L : Nat} (h : IsFile U d r L) :
    Fs.diskLength (d.data r) = L := by
  have hlt := h.length_lt
  have hw : (d.data r).word Fs.lengthWord = L := h.length
  rw [Fs.diskLength, hw]
  exact wrap_of_range (by omega) (by omega)

end KernelSanders

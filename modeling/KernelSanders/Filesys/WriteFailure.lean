import KernelSanders.Filesys.BlockIndex

namespace KernelSanders

open Lib Lib.Exec

/-!
# A write for which the disk is too full

`inode_write_at` returns early when `inode_extend` fails, behind the point where it has taken the
extension lock.  The lock is never given back, so a failed extension is never clean.
-/

/-- A write that failed and changed nothing. -/
structure FailsCleanly (fs : Fs SectorStore) (a r : Nat) (n : Int) (fs' : Fs SectorStore) :
    Prop where
  result : n = 0
  freeMap : fs'.freeMap = fs.freeMap
  length : fs'.image.disk.word r Fs.lengthWord = fs.image.disk.word r Fs.lengthWord
  pointers : ∀ p, InTree maxBlocks p → fs'.image.disk.node r p = fs.image.disk.node r p
  extensionLock : ∃ inode, fs'.inodes a = some inode ∧ inode.extensionLock = none
  locks : fs'.store.lock = fs.store.lock

namespace Fs

variable {fs : Fs SectorStore} {U : Nat → Path → Prop} {im : Image} {a L : Nat} {inode : Inode}

/-- `inode_extend` of a well-formed inode changes nothing but the image. -/
theorem inodeExtend_image (depth num : Nat) (ha : fs.inodes a = some inode)
    (hs : Sound fs U im.disk) (hf : IsFile U im.disk inode.sector L) (hL : L ≤ 512 * maxBlocks)
    (hlock : im.lock inode.sector = RwLock.free) :
    Does (inodeExtend (freeMapAllocate (depth + 1)) a num) fs im False (fun _ _ => True) := by
  by_cases hr : fs.mapRoot = some inode.sector
  · cases num with
    | zero => exact (inodeExtend_zero ha).mono (fun _ _ _ => trivial) False.elim
    | succ num =>
      exact (inodeExtend_stuck depth ha (hs.mapOpen hr) hs.fits hlock).mono (fun _ _ _ => trivial) id
  · exact (inodeExtend_does depth ha hs hf hL hr).mono (fun _ _ _ => trivial) False.elim

/-- When `inode_extend` has failed, the extension lock is held. -/
theorem makeRoom_fails (depth : Nat) {newlen : Int} {fs' : Fs SectorStore}
    (ha : fs.inodes a = some inode) (hs : Sound fs U im.disk)
    (hf : IsFile U im.disk inode.sector L) (hL : L ≤ 512 * maxBlocks)
    (hlock : im.lock inode.sector = RwLock.free)
    (hrun : (makeRoom (freeMapAllocate (depth + 1)) a newlen).run (fs.withImage im)
      = .ok (none, fs')) :
    ∃ im', fs' = (fs.holdExtension a inode (some fs.current)).withImage im' := by
  by_cases hle : (L : Int) ≤ newlen
  · have hx : Does (inodeExtend (freeMapAllocate (depth + 1)) a
        (toUnsigned (wrap (ceil newlen 512 - ceil L 512))))
        (fs.holdExtension a inode (some fs.current))
        (im.visit [inode.sector, inode.sector, inode.sector]) False (fun _ _ => True) :=
      inodeExtend_image depth _ holdExtension_inodes (sound_holdExtension ha hs) hf hL hlock
    obtain ⟨b, im', hfs', -⟩ := (makeRoom_extends ha hf hle hx).ensures _ _ hrun
    exact ⟨im', hfs'⟩
  · obtain ⟨_, -, hsome, -⟩ := (makeRoom_keep ha hf (Int.not_le.mp hle)).ensures _ _ hrun
    cases hsome

end Fs

section

variable {fs : Fs SectorStore} {U : Nat → Path → Prop} {a L depth : Nat} {inode : Inode}
  {size offset : Int} {buffer : Nat → UInt8}

/-- **A failed extension is never clean**: after it the extension lock is held. -/
theorem failed_extension_unclean (ha : fs.inodes a = some inode) (hdeny : inode.denyWriteCnt = 0)
    (hs : Sound fs U fs.image.disk) (hf : IsFile U fs.image.disk inode.sector L)
    (hL : L ≤ 512 * maxBlocks) (hq : Quiet fs)
    (hfail : ∃ fs₁, (Fs.makeRoom (Fs.freeMapAllocate (depth + 1)) a (wrap (size + offset))).run fs
      = .ok (none, fs₁)) :
    ¬ ∃ n fs', (Fs.inodeWriteAt (Fs.freeMapAllocate (depth + 1)) a buffer size offset).run fs
      = .ok (n, fs') ∧ FailsCleanly fs a inode.sector n fs' := by
  obtain ⟨fs₁, hroom⟩ := hfail
  obtain ⟨im', rfl⟩ := Fs.makeRoom_fails depth ha hs hf hL (hq.locks _) hroom
  rintro ⟨n, fs', hrun, hclean⟩
  rw [Fs.inodeWriteAt, bind_ok (Fs.getInode_run ha), if_neg (not_not.mpr hdeny),
    bind_ok hroom] at hrun
  cases hrun
  obtain ⟨inode', hinode', hnone⟩ := hclean.extensionLock
  have hheld : ((fs.holdExtension a inode (some fs.current)).withImage im').inodes a
      = some { inode with extensionLock := some fs.current } := Fs.holdExtension_inodes
  rw [hheld] at hinode'
  cases hinode'
  cases hnone

end

/-- An empty file at sector `3`, open at address `0`, on a device without a free sector. -/
def fullFs : Fs SectorStore :=
  { emptyFile 10 with freeMap := { bitCnt := 40, bits := fun _ => BitVec.allOnes 32 } }

theorem isSet_fullFs (i : Nat) : fullFs.freeMap.isSet i = true := by
  have hmask : ∀ j, j < 32 → (BitVec.allOnes 32 &&& 1#32 <<< j != 0) = true := by decide
  exact hmask (i % 32) (Nat.mod_lt _ (by omega))

theorem inodes_fullFs : fullFs.inodes 0 = some ⟨3, 1, false, 0, none⟩ := rfl

theorem sound_fullFs : Sound fullFs (With (fun _ _ => False) 3 (InTree 0)) fullFs.image.disk := by
  have hs := (sound_emptyFile (n := 10) (by omega) (by omega)).of_map (b := fullFs.freeMap) rfl
    (fun _ _ _ => isSet_fullFs _) (fun _ _ => isSet_fullFs _)
  exact hs.of_state rfl (fun hf => absurd rfl hf)

theorem isFile_fullFs : IsFile (With (fun _ _ => False) 3 (InTree 0)) fullFs.image.disk 3 0 :=
  have h := isFile_emptyFile (n := 10)
  ⟨h.valid, h.length, h.length_lt, h.tree⟩

/-- There is no room for the first block. -/
theorem makeRoom_fullFs :
    ∃ fs₁, (Fs.makeRoom (Fs.freeMapAllocate 1) 0 (wrap (1 + 0))).run fullFs = .ok (none, fs₁) :=
  ⟨_, run_of_outcome (by decide +kernel)⟩

/-- The theorem at this state. -/
theorem failed_extension_unclean_full :
    ¬ ∃ n fs', (Fs.inodeWriteAt (Fs.freeMapAllocate 1) 0 (fun _ => 65) 1 0).run fullFs
      = .ok (n, fs') ∧ FailsCleanly fullFs 0 3 n fs' :=
  failed_extension_unclean (L := 0) inodes_fullFs rfl sound_fullFs isFile_fullFs
    (by omega) ⟨fun _ => rfl, fun _ _ h => by cases h⟩ makeRoom_fullFs

/-- One byte written to an empty file on a full device: the result is `0`, and the extension lock
    is held by the thread that has returned. -/
theorem failed_extension_holds_lock :
    ∃ fs' inode, (Fs.inodeWriteAt (Fs.freeMapAllocate 1) 0 (fun _ => 65) 1 0).run fullFs
      = .ok (0, fs') ∧ fs'.inodes 0 = some inode ∧ inode.extensionLock = some fullFs.current := by
  obtain ⟨fs₁, hroom⟩ := makeRoom_fullFs
  have ha := inodes_fullFs
  obtain ⟨im', rfl⟩ := Fs.makeRoom_fails 0 ha sound_fullFs isFile_fullFs (by omega) rfl hroom
  refine ⟨(fullFs.holdExtension 0 ⟨3, 1, false, 0, none⟩ (some fullFs.current)).withImage im',
    ⟨3, 1, false, 0, some fullFs.current⟩, ?_, rfl, rfl⟩
  rw [Fs.inodeWriteAt, bind_ok (Fs.getInode_run ha), if_neg (not_not.mpr rfl), bind_ok hroom]
  rfl

end KernelSanders

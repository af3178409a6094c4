import KernelSanders.Filesys.FileBytes
import KernelSanders.Filesys.FreeMap

namespace KernelSanders

open Lib Lib.Exec
open Function hiding update

/-!
# `file_read` and `file_write`

The two functions of `file.c`, and when the transfers below them return.  `write_holds` and
`read_holds` say what a transfer does if it returns; here the conditions are exact, so that what a
long transfer needs can be compared with what the parts of it need.

* `writeAt_does` — a write, which returns what it wrote exactly if the blocks can be added;
* `readAt_does` — a read, which looks up one block in vain if it wants more bytes than there are.
-/

/-- The file at sector `r`: as many bytes as its inode records. -/
def Disk.fileBytes (d : Disk) (r : Nat) : List UInt8 := d.contents r (d.word r Fs.lengthWord)

namespace Fs

section

variable {σ κ : Type} [BlockStore σ κ]

/-- `file_read`: the number of bytes read and the buffer afterwards. -/
def fileRead (f : Nat) (buffer : Nat → UInt8) (size : Int) :
    Exec (Fs σ) (Int × (Nat → UInt8)) := do
  let file ← getFile f
  let (bytesRead, buffer) ← inodeReadAt file.inode buffer size file.pos
  setFile f (some { file with pos := wrap (file.pos + bytesRead) })
  pure (bytesRead, buffer)

/-- `file_write`, over the allocator of `inode_write_at`. -/
def fileWrite (freeMapAllocate : Exec (Fs σ) (Option Nat)) (f : Nat) (buffer : Nat → UInt8)
    (size : Int) : Exec (Fs σ) Int := do
  let file ← getFile f
  let bytesWritten ← inodeWriteAt freeMapAllocate file.inode buffer size file.pos
  setFile f (some { file with pos := wrap (file.pos + bytesWritten) })
  pure bytesWritten

end

/-- What is known of the file depends on the state only through the free map's file. -/
theorem Idle.congr {fs fs' : Fs SectorStore} {inode : Inode} {U : Nat → Path → Prop} {L : Nat}
    {im : Image} (h : Idle fs inode U L im) (hsize : fs'.store.size = fs.store.size)
    (hfile : fs'.freeMapFile = fs.freeMapFile) (hmi : fs'.mapInode = fs.mapInode) :
    Idle fs' inode U L im := by
  refine ⟨?_, h.locks, h.file, h.fits, h.blank⟩
  have hs := h.sound
  unfold apart at hs ⊢
  rw [mapRoot, hmi, ← mapRoot]
  split at hs
  next hr =>
    rw [if_pos hr]
    exact hs.of_state hsize (fun hf => absurd rfl hf)
  next hr =>
    rw [if_neg hr]
    refine hs.of_state hsize (fun hf => ?_)
    rw [hmi]
    exact hs.mapFile (by rw [← hfile]; exact hf)

variable {fs : Fs SectorStore} {U : Nat → Path → Prop} {im : Image} {a L : Nat} {inode : Inode}

/-! ### Extending -/

/-- What is left of an extension after a part of it. -/
theorem CanGrow.rest {r m m' num num' room : Nat}
    (h : CanGrow fs r m num (room + treeCost m m')) (hm : m ≤ m') (hle : m' + num' ≤ m + num) :
    CanGrow fs r m' num' room where
  growable k h1 h2 := h.growable k (by omega) (by omega)
  room := by
    have hroom := h.room
    have h1 := treeCost_add hm (show m' ≤ m + num by omega)
    have h2 := treeCost_add (show m' ≤ m' + num' by omega) hle
    omega
  other hr := by
    have := h.other hr
    omega

/-! ### Writing -/

variable {size o : Nat} {buffer : Nat → UInt8} {n : Int} {im₁ im₂ im' : Image}

theorem Idle.fileBytes (h : Idle fs inode U L im) :
    im.disk.fileBytes inode.sector = (List.range L).map (im.disk.stored inode.sector) := by
  rw [Disk.fileBytes, h.file.length, Disk.contents]
  refine List.map_congr_left (fun x hx => ?_)
  rw [List.mem_range] at hx
  rw [Disk.stored, h.file.length, if_pos]
  rw [treeBlocks_of_le h.fits]
  omega

/-- A write and one that follows it. -/
theorem Wrote.trans {U' U'' : Nat → Path → Prop} {q : Nat}
    (h : Wrote fs inode L o q buffer im U' im₁)
    (h' : Wrote fs inode (max L (o + q)) (o + q) size (fun j => buffer (q + j)) im₁ U'' im₂) :
    Wrote fs inode L o (q + size) buffer im U'' im₂ := by
  have hmax : max (max L (o + q)) (o + q + size) = max L (o + (q + size)) := by omega
  refine ⟨hmax ▸ h'.idle, fun x => ?_, ?_⟩
  · rw [h'.stored, h.stored]
    by_cases h1 : o + q ≤ x ∧ x < o + q + size
    · rw [if_pos h1, if_pos (by omega)]
      congr 1
      omega
    · rw [if_neg h1]
      by_cases h2 : o ≤ x ∧ x < o + q
      · rw [if_pos h2, if_pos (by omega)]
      · rw [if_neg h2, if_neg (by omega)]
  · have h1 := h.cost
    have h2 := h'.cost
    rw [hmax] at h2
    have hfits := h'.idle.fits
    have hadd := treeCost_add (m := treeBlocks L) (k := treeBlocks (max L (o + q)))
      (n := treeBlocks (max L (o + (q + size)))) (by unfold treeBlocks; omega)
      (by unfold treeBlocks; omega)
    omega

/-- What a write may do: it writes everything, or `inode_extend` reports that it failed. -/
def WriteEnds (depth a : Nat) (fs : Fs SectorStore) (inode : Inode) (L o size : Nat)
    (buffer : Nat → UInt8) (im : Image) (n : Int) (fs' : Fs SectorStore) : Prop :=
  (CanGrow fs inode.sector (treeBlocks L) (missing L (o + size)) (im.disk.room fs.store.size) ∧
    n = size ∧ ∃ U' im', fs' = fs.withImage im' ∧ Wrote fs inode L o size buffer im U' im') ∨
  (¬ CanGrow fs inode.sector (treeBlocks L) (missing L (o + size))
      (im.disk.room fs.store.size) ∧
    (makeRoom (freeMapAllocate (depth + 1)) a (wrap (size + o))).run (fs.withImage im) =
      .ok (none, fs'))

/-- **`inode_write_at`** on a file that nobody else uses. -/
theorem writeAt_does (depth : Nat) (ha : fs.inodes a = some inode)
    (hdeny : inode.denyWriteCnt = 0) (hext : inode.extensionLock = none)
    (hmap : fs.mapRoot = some inode.sector → MapOpen fs inode.sector) (hun : MapUnlocked fs)
    (h : Idle fs inode U L im) (hlt : size + o < 2 ^ 31) :
    Meets (inodeWriteAt (freeMapAllocate (depth + 1)) a buffer size o) (fs.withImage im)
      (WriteEnds depth a fs inode L o size buffer im)
      (fun _ => ¬ CanGrow fs inode.sector (treeBlocks L) (missing L (o + size))
        (im.disk.room fs.store.size)) := by
  have hset : Settled fs inode U L im := ⟨h.sound, h.locks, h.file, h.fits⟩
  refine (writeAt_settles depth ha hdeny hmap hset hlt).mono ?_
    (fun _ hno hcan => hno ⟨hcan, hun, h.blank, hext⟩)
  rintro n fs' (⟨hn, hcan, U', im', hfs, hr⟩ | hnone)
  · exact .inl ⟨hcan, hn, U', im', hfs, hr.wrote h.blank⟩
  · exact .inr hnone

/-! ### Reading -/

/-- The sectors that have been visited on top of `old` are on the device. -/
def VisitsDevice (old : List Nat) (fs : Fs SectorStore) : Prop :=
  ∃ ts, fs.store.touched = ts ++ old ∧ ∀ t ∈ ts, t < fs.store.size

section

variable {old : List Nat}

theorem maintains_getInode (b : Nat) : Maintains (VisitsDevice old) (getInode b) := by
  unfold getInode
  refine maintains_bind (maintains_read _) (fun o => ?_)
  cases o with
  | none => exact maintains_stop _
  | some inode => exact maintains_pure _

/-- Giving a lock back is no visit. -/
theorem maintains_readEnd (t : Nat) :
    Maintains (VisitsDevice old) (onStore (BlockStore.cacheReadEnd t)) := by
  intro s hs
  refine ensures_zoom.mpr ?_
  show Ensures (SectorStore.onLock t (fun l => .ok l.readEnd)) s.store _
  unfold SectorStore.onLock
  exact ensures_bind.mpr (ensures_read.mpr (ensures_update.mpr hs))

theorem maintains_readBlock (t : Nat) :
    Maintains (VisitsDevice old) (onStore (BlockStore.cacheReadBlock t)) := by
  rintro s ⟨ts, hts, hin⟩
  refine ensures_zoom.mpr ?_
  show Ensures (SectorStore.cacheReadBlock t) s.store _
  unfold SectorStore.cacheReadBlock
  refine ensures_bind.mpr (ensures_read.mpr (ensures_bind.mpr (ensures_assert.mpr (fun ht => ?_))))
  refine ensures_bind.mpr (ensures_update.mpr (ensures_bind.mpr ?_))
  unfold SectorStore.onLock
  refine ensures_bind.mpr (ensures_read.mpr ?_)
  split
  · refine ensures_update.mpr (ensures_pure.mpr ⟨t :: ts, ?_, List.forall_mem_cons.mpr ⟨ht, hin⟩⟩)
    show t :: s.store.touched = _
    rw [hts]
    rfl
  · exact ensures_stop

theorem maintains_inodeLength (b : Nat) : Maintains (VisitsDevice old) (inodeLength b) := by
  unfold inodeLength
  refine maintains_bind (maintains_getInode b) (fun inode => ?_)
  refine maintains_bind (maintains_readBlock _) (fun block => ?_)
  refine maintains_bind (maintains_read _) (fun data => ?_)
  exact maintains_bind (maintains_readEnd _) (fun _ => maintains_pure _)

theorem maintains_indirectSector (block : Nat) (data : Sector) (blocks : Nat) :
    Maintains (VisitsDevice old) (indirectSector block data blocks) := by
  unfold indirectSector
  dsimp only
  split
  · refine maintains_bind (maintains_readBlock _) (fun _ => ?_)
    refine maintains_bind (maintains_read _) (fun _ => ?_)
    refine maintains_bind (maintains_readEnd _) (fun _ => ?_)
    exact maintains_bind (maintains_readEnd _) (fun _ => maintains_pure _)
  · refine maintains_bind (maintains_assert _ _) (fun _ => ?_)
    refine maintains_bind (maintains_readBlock _) (fun _ => ?_)
    refine maintains_bind (maintains_read _) (fun _ => ?_)
    refine maintains_bind (maintains_readBlock _) (fun _ => ?_)
    refine maintains_bind (maintains_read _) (fun _ => ?_)
    refine maintains_bind (maintains_readEnd _) (fun _ => ?_)
    refine maintains_bind (maintains_readEnd _) (fun _ => ?_)
    exact maintains_bind (maintains_readEnd _) (fun _ => maintains_pure _)

theorem maintains_byteToSector (b : Nat) (pos : Int) :
    Maintains (VisitsDevice old) (byteToSector b pos) := by
  unfold byteToSector
  refine maintains_bind (maintains_getInode b) (fun inode => ?_)
  refine maintains_bind (maintains_readBlock _) (fun block => ?_)
  refine maintains_bind (maintains_read _) (fun data => ?_)
  split
  · split
    · exact maintains_bind (maintains_readEnd _) (fun _ => maintains_pure _)
    · exact maintains_indirectSector _ _ _
  · exact maintains_stop _

theorem maintains_readLoop (b fuel : Nat) :
    ∀ (buffer : Nat → UInt8) (size offset bytesRead : Int),
      Maintains (VisitsDevice old) (readLoop b fuel buffer size offset bytesRead) := by
  induction fuel with
  | zero =>
    intro buffer size offset bytesRead
    unfold readLoop
    split
    · exact maintains_stop _
    · exact maintains_pure _
  | succ fuel ih =>
    intro buffer size offset bytesRead
    unfold readLoop
    split
    · refine maintains_bind ?_ (fun chunk => ?_)
      · unfold readChunk
        refine maintains_bind (maintains_byteToSector _ _) (fun _ => ?_)
        exact maintains_bind (maintains_inodeLength _) (fun _ => maintains_pure _)
      · dsimp only
        split
        · exact maintains_pure _
        · refine maintains_bind (maintains_readBlock _) (fun _ => ?_)
          refine maintains_bind (maintains_read _) (fun _ => ?_)
          split
          · exact maintains_stop _
          · exact maintains_bind (maintains_readEnd _) (fun _ => ih _ _ _ _)
    · exact maintains_pure _

end

/-- **`inode_read_at`** on a file that nobody writes, which returns exactly if the block that it
    looks up in vain can be looked up. -/
theorem readAt_does (ha : fs.inodes a = some inode) (h : Idle fs inode U L im) (ho : o < 2 ^ 31) :
    Does (inodeReadAt a buffer size o) fs im (ReadOk fs U im inode.sector L o size)
      (fun x im' => HasRead U inode.sector L o 0 size buffer im x im' ∧
        ReadOk fs U im inode.sector L o size) := by
  have hdoes : Does (inodeReadAt a buffer size o) fs im _ _ :=
    inodeReadAt_does apart_size ha h.fits h.sound h.file ho
  have hvisits : Ensures (inodeReadAt a buffer size o) (fs.withImage im)
      (fun _ => VisitsDevice im.touched) :=
    maintains_readLoop a _ buffer size o 0 (fs.withImage im) ⟨[], rfl, nofun⟩
  refine Meets.mono (Meets.run hdoes) ?_ (fun _ h => h)
  rintro x fs' ⟨⟨im', rfl, hread⟩, hrun⟩
  refine ⟨im', rfl, hread, fun p _ => by rw [h.locks]; exact RwLock.readable_free, fun hlt => ?_⟩
  obtain ⟨ts, rfl, -, hprobe⟩ := hread.visits
  obtain ⟨hmax, htrail⟩ := hprobe hlt
  refine ⟨hmax, fun t ht => ⟨?_, by rw [h.locks]; exact RwLock.readable_free⟩⟩
  obtain ⟨ts', hts', hin⟩ := hvisits _ _ hrun
  have hsame : ts = ts' := List.append_cancel_right hts'
  rw [hsame] at htrail
  exact hin t (htrail t ht)

/-! ### Positions -/

/-- The state with file `f` at position `pos`, over another image. -/
def atPos (fs : Fs SectorStore) (f : Nat) (file : File) (pos : Int) (im : Image) :
    Fs SectorStore :=
  { fs.withImage im with files := Function.update fs.files f (some { file with pos := pos }) }

section

variable {f depth : Nat} {file : File} {pos : Int}

theorem atPos_self (hf : fs.files f = some file) : fs.atPos f file file.pos fs.image = fs := by
  have hfile : Function.update fs.files f (some { file with pos := file.pos }) = fs.files := by
    rw [← hf]
    exact update_eq_self f fs.files
  rw [atPos, hfile]
  rfl

theorem atPos_withImage : (fs.atPos f file pos im).withImage im' = fs.atPos f file pos im' := rfl

theorem getFile_atPos :
    (getFile f).run (fs.atPos f file pos im) =
      .ok ({ file with pos := pos }, fs.atPos f file pos im) := by
  have hget : (fs.atPos f file pos im).files f = some { file with pos := pos } :=
    update_self _ _ _
  rw [getFile, read_bind, hget]
  rfl

theorem setFile_atPos (pos' : Int) :
    (setFile f (some { file with pos := pos' })).run (fs.atPos f file pos im) =
      .ok ((), fs.atPos f file pos' im) := by
  unfold setFile atPos
  show Except.ok ((), _) = _
  simp only [update_idem]

section

variable (hf : fs.files f = some file)
include hf

/-- The file of the free map has the same inode, whatever the position. -/
theorem mapInode_atPos : (fs.atPos f file pos im).mapInode = fs.mapInode := by
  cases hmap : fs.freeMapFile with
  | none =>
    have hmap' : (fs.atPos f file pos im).freeMapFile = none := hmap
    simp only [mapInode, hmap, hmap']
  | some m =>
    have hmap' : (fs.atPos f file pos im).freeMapFile = some m := hmap
    have hinodes : (fs.atPos f file pos im).inodes = fs.inodes := rfl
    by_cases hm : m = f
    · have hfile : (fs.atPos f file pos im).files m = some { file with pos := pos } := by
        rw [hm]
        exact update_self _ _ _
      rw [hm] at hmap hmap' hfile
      simp only [mapInode, hmap, hmap', hf, hfile, hinodes]
    · have hfile : (fs.atPos f file pos im).files m = fs.files m := update_of_ne hm _ _
      simp only [mapInode, hmap, hmap', hfile, hinodes]

theorem mapRoot_atPos : (fs.atPos f file pos im).mapRoot = fs.mapRoot := by
  rw [mapRoot, mapInode_atPos hf, mapRoot]

/-- What is known of the file does not depend on the position. -/
theorem idle_atPos : Idle (fs.atPos f file pos im₁) inode U L im ↔ Idle fs inode U L im :=
  ⟨fun h => h.congr rfl rfl (mapInode_atPos hf).symm, fun h => h.congr rfl rfl (mapInode_atPos hf)⟩

theorem canGrow_atPos {r m num room : Nat} :
    CanGrow (fs.atPos f file pos im) r m num room ↔ CanGrow fs r m num room := by
  constructor
  · intro h
    exact ⟨h.growable, h.room, fun hr => h.other (by rw [mapRoot_atPos hf]; exact hr)⟩
  · intro h
    exact ⟨h.growable, h.room, fun hr => h.other (by rw [← mapRoot_atPos hf]; exact hr)⟩

/-- **`file_read`.** -/
theorem fileRead_does (ha : fs.inodes file.inode = some inode)
    (h : Idle fs inode U L im) (ho : o < 2 ^ 31) :
    Meets (fileRead f buffer size) (fs.atPos f file o im)
      (fun x fs' => ReadOk fs U im inode.sector L o size ∧ x.1 = readCount L o size ∧
        (∀ j, x.2 j =
          if j < readCount L o size then im.disk.content inode.sector (o + j) else buffer j) ∧
        ∃ ts, fs' = fs.atPos f file (o + readCount L o size : Nat) (im.visit ts))
      (fun _ => ¬ ReadOk fs U im inode.sector L o size) := by
  have ha' : (fs.atPos f file o im).inodes file.inode = some inode := ha
  have hlt := h.file.length_lt
  have hdoes : Does (inodeReadAt file.inode buffer size o) (fs.atPos f file o im) im _ _ :=
    readAt_does ha' ((idle_atPos hf).mpr h) ho
  unfold fileRead
  rw [meets_step getFile_atPos]
  refine Meets.bind hdoes ?_ (fun _ => id)
  rintro ⟨n, buf⟩ fs' ⟨im', rfl, hread, hok⟩
  obtain ⟨ts, rfl, -⟩ := hread.visits
  have hcount : n = readCount L o size := by
    have := hread.count
    simpa using this
  have hle : readCount L o size ≤ L - o := Nat.min_le_right _ _
  have hpos : wrap ((o : Int) + n) = ((o + readCount L o size : Nat) : Int) := by
    rw [hcount, wrap_of_range (by omega) (by omega), Nat.cast_add]
  dsimp only
  rw [hpos, atPos_withImage, meets_step (setFile_atPos _)]
  refine meets_pure.mpr ⟨hok, hcount, fun j => ?_, ts, rfl⟩
  have hbyte := hread.bytes j
  rw [Nat.zero_add, Nat.sub_zero] at hbyte
  simpa only [Nat.zero_le, true_and] using hbyte

/-- **`file_write`**, of a file whose writes are not denied. -/
theorem fileWrite_does (ha : fs.inodes file.inode = some inode)
    (hdeny : inode.denyWriteCnt = 0) (hext : inode.extensionLock = none)
    (hmap : fs.mapRoot = some inode.sector → MapOpen fs inode.sector) (hun : MapUnlocked fs)
    (h : Idle fs inode U L im) (hlt : size + o < 2 ^ 31) :
    Meets (fileWrite (freeMapAllocate (depth + 1)) f buffer size) (fs.atPos f file o im)
      (fun n fs' =>
        (CanGrow fs inode.sector (treeBlocks L) (missing L (o + size))
            (im.disk.room fs.store.size) ∧
          n = size ∧ ∃ U' im', fs' = fs.atPos f file (o + size : Nat) im' ∧
            Wrote fs inode L o size buffer im U' im') ∨
        (¬ CanGrow fs inode.sector (treeBlocks L) (missing L (o + size))
            (im.disk.room fs.store.size) ∧
          ∃ fs₁, (makeRoom (freeMapAllocate (depth + 1)) file.inode (wrap (size + o))).run
            (fs.atPos f file o im) = .ok (none, fs₁)))
      (fun _ => ¬ CanGrow fs inode.sector (treeBlocks L) (missing L (o + size))
        (im.disk.room fs.store.size)) := by
  have ha' : (fs.atPos f file o im).inodes file.inode = some inode := ha
  have hmap' : (fs.atPos f file o im).mapRoot = some inode.sector →
      MapOpen (fs.atPos f file o im) inode.sector := by
    intro hr
    obtain ⟨b, i, hmi, hi⟩ := hmap (by rw [← mapRoot_atPos hf]; exact hr)
    exact ⟨b, i, (mapInode_atPos hf).trans hmi, hi⟩
  have hun' : MapUnlocked (fs.atPos f file o im) := by
    intro b i hmi
    exact hun b i (by rw [← mapInode_atPos hf]; exact hmi)
  have hmeets : Meets (inodeWriteAt (freeMapAllocate (depth + 1)) file.inode buffer size o) _ _ _ :=
    writeAt_does depth ha' hdeny hext hmap' hun' ((idle_atPos hf).mpr h) hlt
  rw [canGrow_atPos hf] at hmeets
  unfold fileWrite
  rw [meets_step getFile_atPos]
  refine Meets.bind hmeets ?_ (fun _ => id)
  rintro n fs' (⟨hcan, rfl, U', im', rfl, hw⟩ | ⟨hno, hroom⟩)
  · have hpos : wrap ((o : Int) + size) = ((o + size : Nat) : Int) := by
      rw [wrap_of_range (by omega) (by omega), Nat.cast_add]
    dsimp only
    rw [hpos, atPos_withImage, meets_step (setFile_atPos _)]
    refine meets_pure.mpr (.inl ⟨(canGrow_atPos hf).mp hcan, rfl, U', im', rfl, ?_⟩)
    exact ⟨(idle_atPos hf).mp hw.idle, hw.stored, hw.cost⟩
  · refine (meets_step rfl).mpr (meets_pure.mpr (.inr ⟨?_, fs', hroom⟩))
    rwa [← canGrow_atPos hf]

/-- **`file_write`** does not return if the end of the write does not fit into an `off_t`. -/
theorem fileWrite_overflow {alloc : Exec (Fs SectorStore) (Option Nat)}
    (ha : fs.inodes file.inode = some inode)
    (hdeny : inode.denyWriteCnt = 0) (hfile : IsFile U fs.image.disk inode.sector L)
    (hsize : size < 2 ^ 31) (hpos : file.pos = o) (ho : o < 2 ^ 31) (hover : 2 ^ 31 ≤ size + o) :
    Meets (fileWrite alloc f buffer size) fs (fun _ _ => False) (fun _ => True) := by
  have hget : (getFile f).run fs = .ok (file, fs) := by
    rw [getFile, read_bind, hf]
    rfl
  have hdoes : Does (inodeWriteAt alloc file.inode buffer size o) fs fs.image _ _ :=
    inodeWriteAt_overflow ha hdeny hfile hsize ho hover
  unfold fileWrite
  rw [meets_step hget, hpos]
  refine Meets.bind hdoes ?_ (fun _ _ => trivial)
  rintro n fs' ⟨im', rfl, hfalse⟩
  exact hfalse.elim

/-- **`file_write`** of a file whose writes are denied. -/
theorem fileWrite_denied {alloc : Exec (Fs SectorStore) (Option Nat)} {s : Int}
    (ha : fs.inodes file.inode = some inode)
    (hdeny : inode.denyWriteCnt ≠ 0) (hpos : -2 ^ 31 ≤ file.pos ∧ file.pos < 2 ^ 31) :
    (fileWrite alloc f buffer s).run fs = .ok (0, fs) := by
  have hget : (getFile f).run fs = .ok (file, fs) := by
    rw [getFile, read_bind, hf]
    rfl
  have hwrite : (inodeWriteAt alloc file.inode buffer s file.pos).run fs = .ok (0, fs) := by
    rw [inodeWriteAt, bind_ok (getInode_run ha), if_pos hdeny]
    rfl
  have hsame : Function.update fs.files f (some { file with pos := file.pos }) = fs.files := by
    rw [← hf]
    exact update_eq_self f fs.files
  rw [fileWrite, bind_ok hget, bind_ok hwrite, Int.add_zero, wrap_of_range hpos.1 hpos.2]
  show Except.ok ((0 : Int), { fs with files := Function.update fs.files f _ }) = _
  rw [hsame]

end

/-- What a read needs, a part of it needs. -/
theorem ReadOk.part {r q length : Nat} (h : ReadOk fs U im r L o length)
    (hq : q + size ≤ length) : ReadOk fs U im r L (o + min q (L - o)) size := by
  refine ⟨h.1, fun hlt => ?_⟩
  unfold readCount at hlt
  rw [Int.toNat_natCast] at hlt
  have hprobe : probe L (o + min q (L - o)) size = probe L o length := by
    unfold probe readCount
    congr 1
    omega
  rw [hprobe]
  refine h.2 ?_
  unfold readCount
  omega

end

end Fs

end KernelSanders

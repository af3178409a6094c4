import KernelSanders.Filesys.File
import KernelSanders.Userprog.ConsoleWrite

namespace KernelSanders

open Lib Lib.Exec Fs

/-!
# The `read` and `write` system calls

Both calls of `userprog/syscall.c` cut the buffer of the caller at the page boundaries, ask about
the first byte of each piece and have `file_read` or `file_write` move the piece.  A piece that
moves nothing ends the loop; one that moves less than it should is followed by one that moves
nothing.

* `transferLoop_returns` — the loop, over any way to move a piece;
* `readPiece`, `writePiece` — the pieces of a read and of a write;
* `chunked_is_plain` — a call does what a single transfer of the whole length does, except for
  writes of no bytes behind the end of the file.
-/

/-- What a call does with the buffer: it asks about an address, with the answer, or moves bytes
    between the file and the memory from an address on. -/
inductive BufferUse where
  | asked (addr : Nat) (valid : Bool)
  | moved (addr : Nat) (size : Int)
  deriving DecidableEq

/-- The file system, the descriptors of the process, the table of open files, and the memory of the
    process with the uses of the buffer. -/
structure UserIo where
  fs : Fs SectorStore
  files : Nat → Int
  openFiles : Nat → Option Nat
  mem : Nat → UInt8
  uses : List BufferUse

/-- `w_valid`, where `readable` and `writable` are the addresses at which `get_user` and `put_user`
    do not fail. -/
def wValid (readable writable : Nat → Bool) (uaddr : Nat) : Bool :=
  rValid readable uaddr && writable uaddr

/-- The size of a piece from a page boundary on. -/
def nextPiece (length : Nat) : Int :=
  if (wrap length).tdiv 4096 ≠ 0 then 4096 else wrap (length % 4096 : Nat)

/-- The size of the first piece. -/
def firstPiece (buffer length : Nat) : Int :=
  if pgOfs buffer ≠ 0 then
    if wrap length < 4096 - (pgOfs buffer : Int) then wrap length else 4096 - (pgOfs buffer : Int)
  else nextPiece length

namespace UserIo

def onFs {α : Type} (x : Exec (Fs SectorStore) α) : Exec UserIo α :=
  zoom UserIo.fs (fun fs io => { io with fs := fs }) x

/-- `open_files[index]`. -/
def openFile (index : Int) : Exec UserIo (Option Nat) :=
  if 0 ≤ index ∧ index < maxGlobalFiles then read (fun io => io.openFiles index.toNat)
  else stop .fault

/-- `file_read` into the memory of the process. -/
def fileRead (f buffer : Nat) (size : Int) : Exec UserIo Int := do
  let mem ← read UserIo.mem
  let (bytesRead, bytes) ← onFs (Fs.fileRead f (fun j => mem (buffer + j)) size)
  update (fun io =>
    { io with mem := fun x => if buffer ≤ x then bytes (x - buffer) else io.mem x })
  pure bytesRead

/-- `file_write` from the memory of the process, with saves of the free map nested at most `depth`
    deep. -/
def fileWrite (depth f buffer : Nat) (size : Int) : Exec UserIo Int := do
  let mem ← read UserIo.mem
  onFs (Fs.fileWrite (Fs.freeMapAllocate (depth + 1)) f (fun j => mem (buffer + j)) size)

/-- The loop of both calls, which differ in the validation and in the way to move a piece.  `none`
    if the process exits.  The length shrinks in each round that moves bytes. -/
def transferLoop (valid : Nat → Bool) (move : Nat → Int → Exec UserIo Int) :
    Nat → Nat → Int → Nat → Int → Int → Exec UserIo (Option Int)
  | 0, _, _, _, _, _ => stop .fuel
  | fuel + 1, length, piece, buffer, chunk, total =>
    if length > 0 ∧ chunk > 0 then do
      update (fun io => { io with uses := io.uses ++ [.asked buffer (valid buffer)] })
      if valid buffer then do
        let chunk ← move buffer piece
        update (fun io => { io with uses := io.uses ++ [.moved buffer piece] })
        let length := toUnsigned (length - piece)
        transferLoop valid move fuel length (nextPiece length)
          (toUnsigned (wrap buffer + piece)) chunk (wrap (total + chunk))
      else pure none
    else pure (some total)

/-- A call on a descriptor, for any way to move a piece. -/
def transfer (valid : Nat → Bool) (move : Nat → Nat → Int → Exec UserIo Int) (fd : Int)
    (buffer length : UInt32) : Exec UserIo (Option Int) :=
  if 0 ≤ fd ∧ fd < maxFiles then do
    let index ← read (fun io => io.files fd.toNat)
    if index ≠ -1 then do
      let o ← openFile index
      match o with
      | none => pure (some (-1))
      | some f => do
        let file ← onFs (getFile f)
        if file.isDir then pure (some (-1))
        else
          transferLoop valid (move f) (length.toNat + 1) length.toNat
            (firstPiece buffer.toNat length.toNat) buffer.toNat 1 0
    else pure (some (-1))
  else pure (some (-1))

/-- The `read` system call. -/
def read (readable writable : Nat → Bool) : Int → UInt32 → UInt32 → Exec UserIo (Option Int) :=
  transfer (wValid readable writable) fileRead

/-- The `write` system call, for a descriptor other than `1`. -/
def write (readable : Nat → Bool) (depth : Nat) :
    Int → UInt32 → UInt32 → Exec UserIo (Option Int) :=
  transfer (rValid readable) (fileWrite depth)

end UserIo

/-! ### Pieces -/

/-- The uses of the buffer by a transfer of `total` bytes from address `addr` on: each piece follows
    the one before, stays inside a page, and is preceded by the validation of its first byte. -/
inductive Pieces : Nat → Nat → List BufferUse → Prop where
  | nil (addr : Nat) : Pieces addr 0 []
  | cons {addr size total : Nat} {uses : List BufferUse} : 1 ≤ size →
      addr % 4096 + size ≤ 4096 → Pieces (addr + size) total uses →
      Pieces addr (size + total) (.asked addr true :: .moved addr size :: uses)

/-- The size of a piece: up to the end of the page or of the buffer. -/
def pieceSize (addr length : Nat) : Nat := min length (4096 - addr % 4096)

section

variable {buffer length addr : Nat}

theorem pieceSize_pos (h : 0 < length) : 1 ≤ pieceSize addr length := by
  unfold pieceSize
  omega

theorem nextPiece_eq (hlt : length < 2 ^ 31) (haddr : addr % 4096 = 0) :
    nextPiece length = pieceSize addr length := by
  have hdiv : ((length : Int).tdiv 4096) = ((length / 4096 : Nat) : Int) := rfl
  rw [nextPiece, wrap_of_range (by omega) (by omega), hdiv, wrap_of_range (by omega) (by omega),
    pieceSize, haddr]
  split <;> omega

theorem firstPiece_eq (hlt : length < 2 ^ 31) :
    firstPiece buffer length = pieceSize buffer length := by
  by_cases hofs : pgOfs buffer = 0
  · rw [firstPiece, if_neg (not_not.mpr hofs)]
    exact nextPiece_eq hlt hofs
  · have hofs' : buffer % 4096 ≠ 0 := hofs
    rw [firstPiece, if_pos hofs, wrap_of_range (by omega) (by omega), pieceSize]
    have hpg : (pgOfs buffer : Int) = ((buffer % 4096 : Nat) : Int) := rfl
    rw [hpg]
    split <;> omega

end

/-! ### The loop -/

namespace UserIo

variable {valid : Nat → Bool} {move : Nat → Int → Exec UserIo Int} {buffer length avail : Nat}
  {I : Nat → UserIo → Prop} {io : UserIo}

/-- How pieces move: of `q` bytes asked for, `min q avail` have been moved.  `I` does not depend on
    the uses of the buffer. -/
structure Moves (move : Nat → Int → Exec UserIo Int) (buffer length avail : Nat)
    (I : Nat → UserIo → Prop) : Prop where
  uses : ∀ q io uses, I q io → I q { io with uses := uses }
  piece : ∀ q size io, I q io → 1 ≤ size → q + size ≤ length →
    Returns (move (buffer + q) size) io (fun n io' =>
      n = (min (q + size) avail : Nat) - (min q avail : Nat) ∧ I (q + size) io' ∧
        io'.uses = io.uses)

/-- **The loop**, with `q` bytes asked for so far. -/
theorem transferLoop_returns (h : Moves move buffer length avail I) (hlt : length < 2 ^ 31)
    (hend : buffer + length < 2 ^ 32) (hvalid : ∀ i < length, valid (buffer + i) = true)
    (fuel : Nat) :
    ∀ (q : Nat) (piece chunk : Int) (io : UserIo), I q io → q ≤ length → length - q < fuel →
      (q < length → piece = pieceSize (buffer + q) (length - q)) →
      (0 < chunk ∨ avail ≤ q) →
      Returns (transferLoop valid move fuel (length - q) piece (buffer + q) chunk
          (min q avail : Nat)) io
        (fun r io' => r = some ((min length avail : Nat) : Int) ∧ ∃ total uses,
          I (q + total) io' ∧ io'.uses = io.uses ++ uses ∧ Pieces (buffer + q) total uses ∧
          q + total ≤ length ∧ min length avail ≤ q + total) := by
  induction fuel with
  | zero =>
    intro q piece chunk io _ _ hfuel
    omega
  | succ fuel ih =>
    intro q piece chunk io hI hq hfuel hpiece hchunk
    rw [transferLoop]
    by_cases hgo : length - q > 0 ∧ chunk > 0
    · rw [if_pos hgo]
      obtain ⟨size, hsize⟩ : ∃ size, size = pieceSize (buffer + q) (length - q) := ⟨_, rfl⟩
      have hpos : 1 ≤ size := hsize ▸ pieceSize_pos hgo.1
      have hle : size ≤ length - q := hsize ▸ Nat.min_le_left _ _
      have hpage : (buffer + q) % 4096 + size ≤ 4096 := by
        rw [hsize]
        unfold pieceSize
        omega
      rw [hpiece (by omega), ← hsize, hvalid q (by omega)]
      refine (returns_step rfl).mpr ?_
      rw [if_pos rfl]
      refine (h.piece q size _ (h.uses q io _ hI) hpos (by omega)).bind ?_
      rintro n io₁ ⟨hn, hI₁, huses⟩
      refine (returns_step rfl).mpr ?_
      have hlen : toUnsigned (((length - q : Nat) : Int) - size) = length - (q + size) := by
        unfold toUnsigned
        omega
      have haddr : toUnsigned (wrap ((buffer + q : Nat) : Int) + size) = buffer + (q + size) := by
        rw [← toUnsigned_wrap, wrap_wrap_add, toUnsigned_wrap]
        unfold toUnsigned
        omega
      have htotal : wrap (((min q avail : Nat) : Int) + n) = (min (q + size) avail : Nat) := by
        rw [hn, wrap_of_range (by omega) (by omega)]
        omega
      dsimp only
      rw [hlen, haddr, htotal]
      refine (ih (q + size) _ n _ (h.uses _ _ _ hI₁) (by omega) (by omega) (fun hmore => ?_)
        (by omega)).mono ?_
      · -- the piece ended at the end of the page
        refine nextPiece_eq (by omega) ?_
        rw [hsize] at hmore ⊢
        unfold pieceSize at hmore ⊢
        omega
      · rintro r io' ⟨hr, total, uses, hI', hu, hp, hle', hge⟩
        refine ⟨hr, size + total, .asked (buffer + q) true :: .moved (buffer + q) size :: uses, ?_,
          ?_, .cons hpos hpage ?_, by omega, by omega⟩
        · rw [← Nat.add_assoc]
          exact hI'
        · rw [hu]
          dsimp only
          rw [huses]
          simp
        · rw [Nat.add_assoc]
          exact hp
    · -- the buffer is full, or the last piece was the end of the file
      rw [if_neg hgo]
      refine returns_pure.mpr ⟨?_, 0, [], hI, by simp, .nil _, by omega, by omega⟩
      congr 2
      omega

theorem transferLoop_empty {fuel : Nat} {piece chunk total : Int} :
    (transferLoop valid move (fuel + 1) 0 piece buffer chunk total).run io =
      .ok (some total, io) := by
  rw [transferLoop, if_neg (by omega)]
  rfl

/-- Code of the file system changes nothing else. -/
theorem meets_onFs {α : Type} {x : Exec (Fs SectorStore) α} {Q : α → Fs SectorStore → Prop}
    {E : Stop → Prop} (h : Meets x io.fs Q E) :
    Meets (onFs x) io (fun a io' => ∃ fs', io' = { io with fs := fs' } ∧ Q a fs') E :=
  meets_zoom.mpr (h.mono (fun _ fs' hq => ⟨fs', rfl, hq⟩) (fun _ => id))

/-! ### Open files -/

/-- Descriptor `fd` is an open regular file of `L` bytes that nobody else uses. -/
structure Opened (io : UserIo) (fd : Int) (f : Nat) (file : File) (inode : Inode)
    (U : Nat → Path → Prop) (L : Nat) : Prop where
  descriptor : 0 ≤ fd ∧ fd < maxFiles
  index : 0 ≤ io.files fd.toNat ∧ io.files fd.toNat < maxGlobalFiles
  entry : io.openFiles (io.files fd.toNat).toNat = some f
  isOpen : io.fs.files f = some file
  regular : file.isDir = false
  pos : 0 ≤ file.pos ∧ file.pos < 2 ^ 31
  loaded : io.fs.inodes file.inode = some inode
  extension : inode.extensionLock = none
  sound : Sound io.fs U io.fs.image.disk
  quiet : Quiet io.fs
  isFile : IsFile U io.fs.image.disk inode.sector L
  fits : L ≤ 512 * maxBlocks
  blank : Blank U inode.sector io.fs.image.disk

section

variable {fd : Int} {f L : Nat} {file : File} {inode : Inode} {U : Nat → Path → Prop}

section

variable (h : Opened io fd f file inode U L)
include h

theorem Opened.idle : Fs.Idle io.fs inode U L io.fs.image :=
  ⟨h.sound.apart, h.quiet.locks, h.isFile, h.fits, h.blank⟩

/-- The call gets to its loop. -/
theorem transfer_eq {move : Nat → Nat → Int → Exec UserIo Int} {buffer length : UInt32} :
    (transfer valid move fd buffer length).run io =
      (transferLoop valid (move f) (length.toNat + 1) length.toNat
        (firstPiece buffer.toNat length.toNat) buffer.toNat 1 0).run io := by
  have hne : io.files fd.toNat ≠ -1 := by
    have := h.index
    omega
  have hentry : (openFile (io.files fd.toNat)).run io = .ok (some f, io) := by
    rw [openFile, if_pos h.index]
    show Except.ok (io.openFiles _, io) = _
    rw [h.entry]
  have hget : (onFs (getFile f)).run io = .ok (file, io) := by
    have hrun : (getFile f).run io.fs = .ok (file, io.fs) := by
      rw [getFile, read_bind, h.isOpen]
      rfl
    exact zoom_ok hrun
  rw [transfer, if_pos h.descriptor, read_bind, if_pos hne, bind_ok hentry]
  show (onFs (getFile f) >>= _).run io = _
  rw [bind_ok hget, h.regular]
  rfl

/-- **The call**, over any way to move the pieces. -/
theorem transfer_returns {move : Nat → Nat → Int → Exec UserIo Int} {buffer length : UInt32}
    (hmoves : Moves (move f) buffer.toNat length.toNat avail I) (hstart : I 0 io)
    (hlt : length.toNat < 2 ^ 31) (hvalid : ∀ i < length.toNat, valid (buffer.toNat + i) = true)
    (hend : buffer.toNat + length.toNat < 2 ^ 32) :
    Returns (transfer valid move fd buffer length) io (fun r io' =>
      r = some ((min length.toNat avail : Nat) : Int) ∧ ∃ total uses,
        I total io' ∧ io'.uses = io.uses ++ uses ∧ Pieces buffer.toNat total uses ∧
        total ≤ length.toNat ∧ min length.toNat avail ≤ total) := by
  have hloop := transferLoop_returns hmoves hlt hend hvalid (length.toNat + 1) 0
    (firstPiece buffer.toNat length.toNat) 1 io hstart (Nat.zero_le _) (by omega)
    (fun _ => firstPiece_eq hlt) (.inl Int.one_pos)
  simp only [Nat.zero_add, Nat.add_zero, Nat.sub_zero, Nat.zero_min, Nat.cast_zero] at hloop
  obtain ⟨r, io', hrun, hpost⟩ := hloop
  exact ⟨r, io', (transfer_eq h).trans hrun, hpost⟩

end

/-! ### Reading -/

/-- The state after `q` bytes have been asked for by a read at position `o`. -/
def HasRead (io : UserIo) (f : Nat) (file : File) (r L o buffer q : Nat) (io' : UserIo) : Prop :=
  ∃ ts, io'.fs = io.fs.atPos f file (o + min q (L - o) : Nat) (io.fs.image.visit ts) ∧
    ∀ x, io'.mem x = if buffer ≤ x ∧ x < buffer + min q (L - o)
      then io.fs.image.disk.content r (o + (x - buffer)) else io.mem x

variable {o depth q size : Nat} {io₁ : UserIo}

/-- A read of `size` bytes after `q` bytes have been asked for. -/
theorem readPiece (h : Opened io fd f file inode U L) (ho : o < 2 ^ 31)
    (hI : HasRead io f file inode.sector L o buffer q io₁) :
    Meets (fileRead f (buffer + q) size) io₁
      (fun n io' => Fs.ReadOk io.fs U io.fs.image inode.sector L (o + min q (L - o)) size ∧
        n = (min (q + size) (L - o) : Nat) - (min q (L - o) : Nat) ∧
        HasRead io f file inode.sector L o buffer (q + size) io' ∧ io'.uses = io₁.uses)
      (fun _ => ¬ Fs.ReadOk io.fs U io.fs.image inode.sector L (o + min q (L - o)) size) := by
  obtain ⟨ts, hfs, hmem⟩ := hI
  have hidle : Fs.Idle io.fs inode U L (io.fs.image.visit ts) :=
    ⟨h.idle.sound, h.idle.locks, h.idle.file, h.idle.fits, h.idle.blank⟩
  have hlen := h.isFile.length_lt
  have hmeets : Meets (Fs.fileRead f (fun j => io₁.mem (buffer + q + j)) size) _ _ _ :=
    Fs.fileRead_does h.isOpen h.loaded hidle (show o + min q (L - o) < 2 ^ 31 by omega)
  rw [← hfs] at hmeets
  have hcount : readCount L (o + min q (L - o)) size =
      min (q + size) (L - o) - min q (L - o) := by
    unfold readCount
    omega
  rw [hcount] at hmeets
  unfold fileRead
  refine (meets_step rfl).mpr ((meets_onFs hmeets).bind ?_ (fun _ => id))
  rintro ⟨n, bytes⟩ _ ⟨fs', rfl, hok, hn, hbytes, ts', hfs'⟩
  refine (meets_step rfl).mpr (meets_pure.mpr ⟨hok, ?_, ⟨ts' ++ ts, ?_, fun x => ?_⟩, rfl⟩)
  · have hn' : n = ((min (q + size) (L - o) - min q (L - o) : Nat) : Int) := hn
    rw [hn']
    omega
  · rw [show o + min q (L - o) + (min (q + size) (L - o) - min q (L - o)) =
      o + min (q + size) (L - o) by omega, Image.visit_visit] at hfs'
    exact hfs'
  · -- the bytes of this piece, and those that were there
    have hbyte := hbytes (x - (buffer + q))
    show (if buffer + q ≤ x then bytes (x - (buffer + q)) else io₁.mem x) = _
    by_cases hx : buffer + q ≤ x
    · rw [if_pos hx]
      refine hbyte.trans ?_
      by_cases hin : x - (buffer + q) < min (q + size) (L - o) - min q (L - o)
      · rw [if_pos hin, if_pos (by omega)]
        show io.fs.image.disk.content _ _ = _
        congr 1
        omega
      · rw [if_neg hin, show buffer + q + (x - (buffer + q)) = x by omega, hmem x]
        by_cases hold : buffer ≤ x ∧ x < buffer + min q (L - o)
        · omega
        · rw [if_neg hold, if_neg (by omega)]
    · rw [if_neg hx, hmem x]
      by_cases hold : buffer ≤ x ∧ x < buffer + min q (L - o)
      · rw [if_pos hold, if_pos (by omega)]
      · rw [if_neg hold, if_neg (by omega)]

/-- The pieces of a read. -/
theorem readMoves (h : Opened io fd f file inode U L) (ho : o < 2 ^ 31)
    (hok : Fs.ReadOk io.fs U io.fs.image inode.sector L o length) :
    Moves (fileRead f) buffer length (L - o)
      (HasRead io f file inode.sector L o buffer) where
  uses q io₁ uses hI := hI
  piece q size io₁ hI hsize hle := by
    refine ((readPiece h ho hI).returns (fun _ hno => hno (hok.part hle))).mono ?_
    rintro n io' ⟨-, hn, hI', huses⟩
    exact ⟨hn, hI', huses⟩

/-! ### Writing -/

/-- The state after `q` bytes have been written at position `o`. -/
def HasWritten (io : UserIo) (f : Nat) (file : File) (inode : Inode) (U : Nat → Path → Prop)
    (L o buffer q : Nat) (io' : UserIo) : Prop :=
  io'.mem = io.mem ∧ ∃ U' im, io'.fs = io.fs.atPos f file (o + q : Nat) im ∧
    ((q = 0 ∧ U' = U ∧ im = io.fs.image) ∨
      (0 < q ∧ Fs.Wrote io.fs inode L o q (fun j => io.mem (buffer + j)) io.fs.image U' im))

section

variable (h : Opened io fd f file inode U L)
include h

/-- The file as the first `q` bytes have left it: the rest can be written too, and what is written
    behind them completes the write. -/
theorem HasWritten.resume
    (hcan : Fs.CanGrow io.fs inode.sector (treeBlocks L) (missing L (o + length))
      (io.fs.image.disk.room io.fs.store.size))
    (hI : HasWritten io f file inode U L o buffer q io₁) (hle : q + size ≤ length) :
    io₁.mem = io.mem ∧ ∃ U' im L', io₁.fs = io.fs.atPos f file (o + q : Nat) im ∧
      Fs.Idle io.fs inode U' L' im ∧
      Fs.CanGrow io.fs inode.sector (treeBlocks L') (missing L' (o + q + size))
        (im.disk.room io.fs.store.size) ∧
      ∀ U'' im', Fs.Wrote io.fs inode L' (o + q) size (fun j => io.mem (buffer + (q + j))) im U''
        im' → Fs.Wrote io.fs inode L o (q + size) (fun j => io.mem (buffer + j)) io.fs.image U''
        im' := by
  obtain ⟨hmem, U', im, hfs, hcases⟩ := hI
  rcases hcases with ⟨rfl, rfl, rfl⟩ | ⟨hpos, hw⟩
  · refine ⟨hmem, U', _, L, hfs, h.idle, ?_, fun U'' im' hw => ?_⟩
    · have hroom : io.fs.image.disk.room io.fs.store.size =
          io.fs.image.disk.room io.fs.store.size + treeCost (treeBlocks L) (treeBlocks L) := by
        rw [treeCost_self, Nat.add_zero]
      rw [hroom] at hcan
      refine hcan.rest (le_refl _) ?_
      unfold missing
      omega
    · simpa only [Nat.zero_add, Nat.add_zero] using hw
  · have hfits := hw.idle.fits
    refine ⟨hmem, U', im, _, hfs, hw.idle, ?_, fun U'' im' hw' => hw.trans hw'⟩
    rw [hw.cost] at hcan
    refine hcan.rest (by unfold treeBlocks; omega) ?_
    unfold missing
    rw [treeBlocks_of_le hfits, treeBlocks_of_le h.fits]
    omega

/-- A write of `size` bytes after `q` bytes. -/
theorem writePiece (hdeny : inode.denyWriteCnt = 0) (hlt : length + o < 2 ^ 31)
    (hcan : Fs.CanGrow io.fs inode.sector (treeBlocks L) (missing L (o + length))
      (io.fs.image.disk.room io.fs.store.size))
    (hI : HasWritten io f file inode U L o buffer q io₁) (hpos : 1 ≤ size)
    (hle : q + size ≤ length) :
    Returns (fileWrite depth f (buffer + q) size) io₁ (fun n io' =>
      n = size ∧ HasWritten io f file inode U L o buffer (q + size) io' ∧
        io'.uses = io₁.uses) := by
  obtain ⟨hmem, U', im, L', hfs, hidle, hcan', hdone⟩ := hI.resume h hcan hle
  have hmeets : Meets (Fs.fileWrite (Fs.freeMapAllocate (depth + 1)) f
      (fun j => io₁.mem (buffer + q + j)) size) _ _ _ :=
    Fs.fileWrite_does h.isOpen h.loaded hdeny h.extension (fun hr => h.sound.mapOpen hr)
      h.quiet.unlocked hidle (show size + (o + q) < 2 ^ 31 by omega)
  rw [← hfs] at hmeets
  unfold fileWrite
  refine (returns_step rfl).mpr (((meets_onFs hmeets).returns (fun _ hno => hno hcan')).mono ?_)
  rintro n _ ⟨fs', rfl, ⟨-, hn, U'', im', hfs', hw⟩ | ⟨hno, -⟩⟩
  · refine ⟨hn, ⟨hmem, U'', im', ?_, .inr ⟨by omega, hdone U'' im' ?_⟩⟩, rfl⟩
    · rw [← Nat.add_assoc]
      exact hfs'
    · rw [hmem] at hw
      simpa only [Nat.add_assoc] using hw
  · exact absurd hcan' hno

/-- The pieces of a write. -/
theorem writeMoves (hdeny : inode.denyWriteCnt = 0) (hlt : length + o < 2 ^ 31)
    (hcan : Fs.CanGrow io.fs inode.sector (treeBlocks L) (missing L (o + length))
      (io.fs.image.disk.room io.fs.store.size)) :
    Moves (fileWrite depth f) buffer length length
      (HasWritten io f file inode U L o buffer) where
  uses q io₁ uses hI := hI
  piece q size io₁ hI hsize hle := by
    refine (writePiece h hdeny hlt hcan hI hsize hle).mono ?_
    rintro n io' ⟨hn, hI', huses⟩
    exact ⟨by rw [hn]; omega, hI', huses⟩

end

/-- A write that leaves the file system as it is. -/
theorem fileWrite_run {size n : Int}
    (h : (Fs.fileWrite (Fs.freeMapAllocate (depth + 1)) f (fun j => io.mem (buffer + j)) size).run
      io.fs = .ok (n, io.fs)) :
    (fileWrite depth f buffer size).run io = .ok (n, io) := by
  rw [fileWrite, read_bind]
  exact zoom_ok h

/-- The pieces of a write that is denied. -/
theorem deniedMoves (h : Opened io fd f file inode U L) (hdeny : inode.denyWriteCnt ≠ 0) :
    Moves (fileWrite depth f) buffer length 0 (fun _ io' => io'.fs = io.fs ∧ io'.mem = io.mem) where
  uses q io₁ uses hI := hI
  piece q size io₁ hI _ _ := by
    obtain ⟨hfs, hmem⟩ := hI
    have hpos := h.pos
    have hrun : (Fs.fileWrite (Fs.freeMapAllocate (depth + 1)) f
        (fun j => io₁.mem (buffer + q + j)) size).run io₁.fs = .ok (0, io₁.fs) := by
      rw [hfs]
      exact Fs.fileWrite_denied h.isOpen h.loaded hdeny ⟨by omega, hpos.2⟩
    exact ⟨0, io₁, fileWrite_run hrun, by simp, ⟨hfs, hmem⟩, rfl⟩

/-! ### Calls and single transfers -/

/-- The call ends as the transfer of the whole length does, which returns `n` in state `plain`, and
    has moved consecutive pieces of the buffer, up to the end of the file at least. -/
structure LikePlain (io plain : UserIo) (r buffer length : Nat) (n : Int) (result : Option Int)
    (io' : UserIo) : Prop where
  result : result = some n
  position : io'.fs.files = plain.fs.files
  memory : io'.mem = plain.mem
  contents : io'.fs.image.disk.fileBytes r = plain.fs.image.disk.fileBytes r
  pieces : ∃ total uses, io'.uses = io.uses ++ uses ∧ Pieces buffer total uses ∧
    n ≤ (total : Int) ∧ total ≤ length

section

variable {readable writable : Nat → Bool} {start len : UInt32} {n : Int}

/-- A buffer of valid addresses ends in user memory. -/
theorem buffer_end (hvalid : ∀ i < len.toNat, rValid readable (start.toNat + i) = true) :
    start.toNat + len.toNat < 2 ^ 32 := by
  have hstart := start.toNat_lt
  rcases Nat.eq_zero_or_pos len.toNat with hzero | hpos
  · omega
  · have huser := user_of_rValid (hvalid (len.toNat - 1) (by omega))
    unfold physBase at huser
    omega

/-- **`read`**. -/
theorem read_returns (h : Opened io fd f file inode U L) (hlt : len.toNat < 2 ^ 31)
    (hvalid : ∀ i < len.toNat, wValid readable writable (start.toNat + i) = true)
    (hrun : (fileRead f start.toNat len.toNat).run io = .ok (n, io₁)) :
    Returns (read readable writable fd start len) io
      (LikePlain io io₁ inode.sector start.toNat len.toNat n) := by
  obtain ⟨o, ho⟩ := Int.eq_ofNat_of_zero_le h.pos.1
  have ho31 : o < 2 ^ 31 := by
    have := h.pos.2
    omega
  have hstart : HasRead io f file inode.sector L o start.toNat 0 io := by
    refine ⟨[], ?_, fun x => (if_neg (by omega)).symm⟩
    rw [Nat.zero_min, Nat.add_zero, ← ho]
    exact (atPos_self h.isOpen).symm
  obtain ⟨hok, hn, ⟨ts, hfs, hmem⟩, -⟩ := (readPiece h ho31 hstart).ensures _ _ hrun
  rw [Nat.zero_min, Nat.add_zero] at hok
  rw [Nat.zero_add] at hn hfs hmem
  have hend : start.toNat + len.toNat < 2 ^ 32 := buffer_end (fun i hi => by
    have := hvalid i hi
    rw [wValid, Bool.and_eq_true] at this
    exact this.1)
  refine (transfer_returns h (readMoves h ho31 hok) hstart hlt hvalid hend).mono ?_
  rintro r io₂ ⟨hr, total, uses, ⟨ts', hfs', hmem'⟩, huses, hpieces, hle, hge⟩
  -- what is read behind the end of the file does not count
  have hmin : min total (L - o) = min len.toNat (L - o) := by omega
  rw [hmin] at hfs' hmem'
  refine ⟨?_, ?_, ?_, ?_, total, uses, huses, hpieces, ?_, hle⟩
  · rw [hr, hn]
    simp
  · rw [hfs, hfs']
    rfl
  · funext x
    rw [hmem x, hmem' x]
  · rw [hfs, hfs']
    rfl
  · rw [hn]
    omega

/-- A transfer of the whole length that ends, ends in front of `2 ^ 31`. -/
theorem plain_fits (h : Opened io fd f file inode U L) (hdeny : inode.denyWriteCnt = 0)
    (hlt : len.toNat < 2 ^ 31) (ho : file.pos = o)
    (hrun : (fileWrite depth f start.toNat len.toNat).run io = .ok (n, io₁)) :
    len.toNat + o < 2 ^ 31 := by
  by_contra hover
  have hpos := h.pos.2
  have hmeets : Meets (Fs.fileWrite (Fs.freeMapAllocate (depth + 1)) f
      (fun j => io.mem (start.toNat + j)) len.toNat) io.fs _ _ :=
    Fs.fileWrite_overflow h.isOpen h.loaded hdeny h.isFile hlt ho (by omega) (by omega)
  rw [fileWrite, read_bind] at hrun
  obtain ⟨fs', -, hfalse⟩ := (meets_onFs hmeets).ensures _ _ hrun
  exact hfalse

variable (start len) in
/-- A transfer of the whole length that ends has written all bytes. -/
theorem plain_wrote (h : Opened io fd f file inode U L) (hdeny : inode.denyWriteCnt = 0)
    (hsum : len.toNat + o < 2 ^ 31) (ho : file.pos = o)
    (hgranted : ∀ fs₁, (makeRoom (freeMapAllocate (depth + 1)) file.inode
      (wrap (len.toNat + file.pos))).run io.fs ≠ .ok (none, fs₁))
    (hrun : (fileWrite depth f start.toNat len.toNat).run io = .ok (n, io₁)) :
    Fs.CanGrow io.fs inode.sector (treeBlocks L) (missing L (o + len.toNat))
      (io.fs.image.disk.room io.fs.store.size) ∧ n = len.toNat ∧ io₁.mem = io.mem ∧
    ∃ U' im', io₁.fs = io.fs.atPos f file (o + len.toNat : Nat) im' ∧
      Fs.Wrote io.fs inode L o len.toNat (fun j => io.mem (start.toNat + j)) io.fs.image U'
        im' := by
  have hmeets : Meets (Fs.fileWrite (Fs.freeMapAllocate (depth + 1)) f
      (fun j => io.mem (start.toNat + j)) len.toNat) _ _ _ :=
    Fs.fileWrite_does h.isOpen h.loaded hdeny h.extension (fun hr => h.sound.mapOpen hr)
      h.quiet.unlocked h.idle hsum
  rw [← ho, atPos_self h.isOpen] at hmeets
  rw [fileWrite, read_bind] at hrun
  obtain ⟨fs', rfl, ⟨hcan, hn, U', im', hfs, hw⟩ | ⟨-, fs₁, hfull⟩⟩ :=
    (meets_onFs hmeets).ensures _ _ hrun
  · exact ⟨hcan, hn, rfl, U', im', hfs, hw⟩
  · exact absurd hfull (hgranted fs₁)

/-- **`write`**, where the blocks that a transfer of the whole length needs are granted. -/
theorem write_returns (h : Opened io fd f file inode U L) (hlt : len.toNat < 2 ^ 31)
    (hvalid : ∀ i < len.toNat, rValid readable (start.toNat + i) = true)
    (hgranted : ∀ fs₁, (makeRoom (freeMapAllocate (depth + 1)) file.inode
      (wrap (len.toNat + file.pos))).run io.fs ≠ .ok (none, fs₁))
    (hcase : 0 < len.toNat ∨ file.pos ≤ L ∨ inode.denyWriteCnt ≠ 0)
    (hrun : (fileWrite depth f start.toNat len.toNat).run io = .ok (n, io₁)) :
    Returns (write readable depth fd start len) io
      (LikePlain io io₁ inode.sector start.toNat len.toNat n) := by
  obtain ⟨o, ho⟩ := Int.eq_ofNat_of_zero_le h.pos.1
  have ho31 : o < 2 ^ 31 := by
    have := h.pos.2
    omega
  have hend := buffer_end hvalid
  by_cases hdeny : inode.denyWriteCnt = 0
  · have hstart : HasWritten io f file inode U L o start.toNat 0 io := by
      refine ⟨rfl, U, io.fs.image, ?_, .inl ⟨rfl, rfl, rfl⟩⟩
      rw [Nat.add_zero, ← ho]
      exact (atPos_self h.isOpen).symm
    have hsum := plain_fits h hdeny hlt ho hrun
    obtain ⟨hcan, hn, hmem, U', im', hfs, hw⟩ := plain_wrote start len h hdeny hsum ho hgranted hrun
    refine (transfer_returns h (writeMoves h hdeny hsum hcan) hstart hlt hvalid hend).mono ?_
    rintro r io₂ ⟨hr, total, uses, ⟨hmem', U'', im'', hfs', hcases⟩, huses, hpieces, hle, hge⟩
    obtain rfl : total = len.toNat := by omega
    refine ⟨?_, ?_, hmem'.trans hmem.symm, ?_, len.toNat, uses, huses, hpieces, by omega, hle⟩
    · rw [hr, hn, min_self]
    · rw [hfs, hfs']
      rfl
    · rw [hfs, hfs']
      show im''.disk.fileBytes _ = im'.disk.fileBytes _
      rcases hcases with ⟨hzero, rfl, rfl⟩ | ⟨-, hw'⟩
      · -- nothing to write, at a position that is not behind the end
        rw [hw.idle.fileBytes, h.idle.fileBytes, show max L (o + len.toNat) = L by omega]
        refine List.map_congr_left (fun x _ => ?_)
        rw [hw.stored, if_neg (by omega)]
      · rw [hw.idle.fileBytes, hw'.idle.fileBytes]
        refine List.map_congr_left (fun x _ => ?_)
        rw [hw.stored, hw'.stored]
  · have hplain : (fileWrite depth f start.toNat len.toNat).run io = .ok (0, io) :=
      fileWrite_run (fileWrite_denied h.isOpen h.loaded hdeny ⟨by omega, h.pos.2⟩)
    obtain ⟨rfl, rfl⟩ : n = 0 ∧ io₁ = io := by
      rw [hplain] at hrun
      cases hrun
      exact ⟨rfl, rfl⟩
    refine (transfer_returns h (deniedMoves h hdeny) ⟨rfl, rfl⟩ hlt hvalid hend).mono ?_
    rintro r io₂ ⟨hr, total, uses, ⟨hfs, hmem⟩, huses, hpieces, hle, hge⟩
    refine ⟨?_, by rw [hfs], hmem, by rw [hfs], total, uses, huses, hpieces, by omega, hle⟩
    rw [hr, Nat.min_zero]
    rfl

end

/-- **A call does what a single transfer does**: on an open regular file that nobody else uses, with
    a buffer of valid addresses, and where the single transfer of the whole length returns.  For a
    write no allocation fails, and it is not one of no bytes behind the end of the file, which
    `file_write` extends and the call leaves alone. -/
theorem chunked_is_plain (readable writable : Nat → Bool) (depth : Nat) (start len : UInt32)
    (h : Opened io fd f file inode U L) (hlt : len.toNat < 2 ^ 31) :
    (∀ n plain, (∀ i < len.toNat, wValid readable writable (start.toNat + i) = true) →
      (fileRead f start.toNat len.toNat).run io = .ok (n, plain) →
      Returns (read readable writable fd start len) io
        (LikePlain io plain inode.sector start.toNat len.toNat n)) ∧
    (∀ n plain, fd ≠ 1 → (∀ i < len.toNat, rValid readable (start.toNat + i) = true) →
      (∀ fs₁, (makeRoom (freeMapAllocate (depth + 1)) file.inode
        (wrap (len.toNat + file.pos))).run io.fs ≠ .ok (none, fs₁)) →
      (0 < len.toNat ∨ file.pos ≤ L ∨ inode.denyWriteCnt ≠ 0) →
      (fileWrite depth f start.toNat len.toNat).run io = .ok (n, plain) →
      Returns (write readable depth fd start len) io
        (LikePlain io plain inode.sector start.toNat len.toNat n)) :=
  ⟨fun _ _ hvalid hrun => read_returns h hlt hvalid hrun,
    fun _ _ _ hvalid hgranted hcase hrun => write_returns h hlt hvalid hgranted hcase hrun⟩

end

/-! ### A file with a gap -/

/-- An empty file that is open at a position, as descriptor `2`. -/
def openAt (pos : Int) : UserIo where
  fs := { emptyFile 20 with files := fun f => if f = 0 then some ⟨0, pos, false, false⟩ else none }
  files fd := if fd = 2 then 0 else -1
  openFiles index := if index = 0 then some 0 else none
  mem _ := 65
  uses := []

theorem opened_openAt {pos : Int} (h : 0 ≤ pos) (h' : pos < 2 ^ 31) :
    (openAt pos).Opened 2 0 ⟨0, pos, false, false⟩ ⟨3, 1, false, 0, none⟩
      (With (fun _ _ => False) 3 (InTree 0)) 0 where
  descriptor := by decide
  index := ⟨le_refl _, (by decide : (0 : Int) < maxGlobalFiles)⟩
  entry := rfl
  isOpen := rfl
  regular := rfl
  pos := ⟨h, h'⟩
  loaded := rfl
  extension := rfl
  sound := (sound_emptyFile (by omega) (by omega)).of_state rfl (fun hf => absurd rfl hf)
  quiet := ⟨fun _ => rfl, fun _ _ hb => by cases hb⟩
  isFile := isFile_emptyFile
  fits := by omega
  blank := blank_emptyFile

/-- Five bytes from address `4094` on are written in two pieces, as in one, and a read into them
    finds the end of the file. -/
theorem chunked_is_plain_five :
    (∃ plain, (fileRead 0 4094 5).run (openAt 0) = .ok (0, plain) ∧
      Returns (read (fun _ => true) (fun _ => true) 2 4094 5) (openAt 0)
        (LikePlain (openAt 0) plain 3 4094 5 0)) ∧
    ∃ plain, (fileWrite 0 0 4094 5).run (openAt 0) = .ok (5, plain) ∧
      Returns (write (fun _ => true) 0 2 4094 5) (openAt 0)
        (LikePlain (openAt 0) plain 3 4094 5 5) := by
  have hread : outcome (fileRead 0 4094 5) (openAt 0) = .ok 0 := by decide +kernel
  have hwrite : outcome (fileWrite 0 0 4094 5) (openAt 0) = .ok 5 := by decide +kernel
  have hroom : outcome (Fs.makeRoom (Fs.freeMapAllocate 1) 0 (wrap (5 + 0))) (openAt 0).fs =
      .ok (some true) := by decide +kernel
  obtain ⟨hreads, hwrites⟩ := chunked_is_plain (fun _ => true) (fun _ => true) 0 4094 5
    (opened_openAt (le_refl 0) (by decide)) (by decide)
  refine ⟨⟨_, run_of_outcome hread, hreads _ _ (by decide) (run_of_outcome hread)⟩, _,
    run_of_outcome hwrite, hwrites _ _ (by decide) (by decide) (fun fs₁ hno => ?_)
    (.inl (by decide)) (run_of_outcome hwrite)⟩
  cases (run_of_outcome hroom).symm.trans hno

/-- A write of no bytes at position `5` of an empty file: `file_write` makes it five bytes long, and
    the call leaves it empty. -/
theorem empty_write_differs :
    (openAt 5).Opened 2 0 ⟨0, 5, false, false⟩ ⟨3, 1, false, 0, none⟩
      (With (fun _ _ => False) 3 (InTree 0)) 0 ∧
    (∀ fs₁, (makeRoom (freeMapAllocate 1) 0 (wrap (0 + 5))).run (openAt 5).fs ≠
      .ok (none, fs₁)) ∧
    (∃ plain, (fileWrite 0 0 4096 0).run (openAt 5) = .ok (0, plain) ∧
      (plain.fs.image.disk.fileBytes 3).length = 5) ∧
    (write (fun _ => true) 0 2 4096 0).run (openAt 5) = .ok (some 0, openAt 5) ∧
    (openAt 5).fs.image.disk.fileBytes 3 = [] := by
  have h := opened_openAt (by decide : (0 : Int) ≤ 5) (by decide)
  have hplain : outcome (fileWrite 0 0 4096 0) (openAt 5) = .ok 0 := by decide +kernel
  have hroom : outcome (Fs.makeRoom (Fs.freeMapAllocate 1) 0 (wrap (0 + 5))) (openAt 5).fs =
      .ok (some true) := by decide +kernel
  have hrun := run_of_outcome hplain
  have hgranted := run_of_outcome hroom
  have hnone : ∀ fs₁, (makeRoom (freeMapAllocate 1) 0 (wrap (0 + 5))).run (openAt 5).fs ≠
      .ok (none, fs₁) := by
    intro fs₁ hno
    rw [hgranted] at hno
    cases hno
  obtain ⟨-, -, -, U', im', hfs, hw⟩ :=
    plain_wrote (o := 5) 4096 0 h rfl (by decide) rfl hnone hrun
  refine ⟨h, hnone, ⟨_, hrun, ?_⟩,
    (transfer_eq h).trans transferLoop_empty, h.idle.fileBytes⟩
  rw [hfs]
  show (im'.disk.fileBytes 3).length = 5
  rw [hw.idle.fileBytes]
  simp

end UserIo

end KernelSanders

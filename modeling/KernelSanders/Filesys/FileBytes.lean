import KernelSanders.Lib.Splice
import KernelSanders.Filesys.BlockIndex

namespace KernelSanders

open Lib Lib.Exec List Disk

/-!
# A file is an array of bytes

The abstract file is a list of bytes.  A write splices the buffer into it, padding with zeros, and a
read takes a slice.  `Holds` connects the list to the disk: byte `x` of every block of the file is
element `x` of the list, and `0` behind its end.

* `CanGrow` — the blocks that are missing can be added: none is one of those at which
  `grow_double_indirect` panics, and there are enough free sectors;
* `inodeExtend_widens` — an extension, successful or not, keeps the blocks and their bytes, and
  adds blocks of zeros;
* `writeAt_settles` — a write, which writes everything exactly if the blocks can be added;
* `write_holds`, `read_holds` — one call;
* `file_is_bytes` — any sequence of calls.

The free map's own file is a file like every other here, except that it cannot be extended by a
block.  Its length may change, which the invariant `Sound` forbids, so the invariant is taken for
the state without that file while it is written (`Fs.apart`).
-/

namespace Fs

/-- The state as the invariant sees it while the inode at sector `r` is written. -/
def apart (fs : Fs SectorStore) (r : Nat) : Fs SectorStore :=
  if fs.mapRoot = some r then { fs with freeMapFile := none } else fs

variable {fs : Fs SectorStore} {r : Nat}

theorem apart_size : (fs.apart r).store.size = fs.store.size := by
  unfold apart
  split <;> rfl

theorem apart_mapRoot : (fs.apart r).mapRoot ≠ some r := by
  unfold apart
  split
  · intro h
    cases h
  · assumption

end Fs

variable {r : Nat} {U : Nat → Path → Prop} {fs : Fs SectorStore} {d : Disk}

theorem Sound.apart (h : Sound fs U d) : Sound (fs.apart r) U d := by
  unfold Fs.apart
  split
  · exact h.of_state rfl (fun hf => absurd rfl hf)
  · exact h

/-- The inode at address `a` is a file of the bytes `c`. -/
structure Holds (fs : Fs SectorStore) (inode : Inode) (U : Nat → Path → Prop) (c : List UInt8)
    (im : Image) : Prop where
  sound : Sound (fs.apart inode.sector) U im.disk
  locks : ∀ t, im.lock t = RwLock.free
  file : IsFile U im.disk inode.sector c.length
  fits : c.length ≤ 512 * maxBlocks
  bytes : ∀ x, U inode.sector (dataPath (x / 512)) →
    im.disk.content inode.sector x = c.getD x 0

/-- The image after an extension of the inode at sector `r` from the nodes `U` to the nodes `V`:
    the old blocks are where they were, with the bytes they had, and the new ones are empty. -/
structure Widened (fs : Fs SectorStore) (r : Nat) (U V : Nat → Path → Prop) (im im' : Image) :
    Prop where
  sound : Sound (fs.apart r) V im'.disk
  subset : ∀ p, U r p → V r p
  node : ∀ p, U r p → im'.disk.node r p = im.disk.node r p
  word : ∀ j, 100 < j → im'.disk.word r j = im.disk.word r j
  blank : Blank U r im.disk → Blank V r im'.disk
  lock : im'.lock r = im.lock r
  old : ∀ x, U r (dataPath (x / 512)) → im'.disk.content r x = im.disk.content r x
  new : ∀ x, V r (dataPath (x / 512)) → ¬ U r (dataPath (x / 512)) → im'.disk.content r x = 0

/-- The image after an extension to `n` blocks: the bytes of the old ones, and zeros. -/
structure Roomier (fs : Fs SectorStore) (r : Nat) (U : Nat → Path → Prop) (n : Nat)
    (im im' : Image) : Prop where
  le : n ≤ maxBlocks
  sound : Sound (fs.apart r) (With U r (InTree n)) im'.disk
  valid : Fs.isValidInode (im'.disk.data r)
  lock : im'.lock = im.lock
  content : ∀ x, x / 512 < n → im'.disk.content r x =
    if x / 512 < treeBlocks (im.disk.word r Fs.lengthWord) then im.disk.content r x else 0

/-- An extension to `n` blocks. -/
theorem Widened.roomier {im im' : Image} {n L : Nat}
    (h : Widened fs r U (With U r (InTree n)) im im') (hf : IsFile U im.disk r L)
    (hle : n ≤ maxBlocks) (hlock : im'.lock = im.lock) : Roomier fs r U n im im' := by
  refine ⟨hle, h.sound, ?_, hlock, fun x hx => ?_⟩
  · show im'.disk.word r Fs.magicWord = _
    rw [h.word _ (by decide)]
    exact hf.valid
  · rw [hf.length]
    by_cases hu : U r (dataPath (x / 512))
    · rw [if_pos (inTree_dataPath_iff.mp ((hf.tree _).mp hu)), h.old x hu]
    · rw [if_neg (fun hlt => hu ((hf.tree _).mpr (inTree_dataPath hlt))),
        h.new x (with_at.mpr (inTree_dataPath hx)) hu]

/-- The bytes in the blocks of the file at sector `r`, with zeros behind them. -/
def Disk.stored (d : Disk) (r x : Nat) : UInt8 :=
  if x / 512 < treeBlocks (d.word r Fs.lengthWord) then d.content r x else 0

namespace Fs

/-- The blocks `m … m + num - 1` can be added to the inode at sector `r`. -/
structure CanGrow (fs : Fs SectorStore) (r m num room : Nat) : Prop where
  growable : ∀ k, m ≤ k → k < m + num → Growable k
  room : treeCost m (m + num) ≤ room
  other : fs.mapRoot = some r → num = 0

/-- The inode is that of a file of `L` bytes, and nobody holds a lock of the cache. -/
structure Settled (fs : Fs SectorStore) (inode : Inode) (U : Nat → Path → Prop) (L : Nat)
    (im : Image) : Prop where
  sound : Sound (fs.apart inode.sector) U im.disk
  locks : ∀ t, im.lock t = RwLock.free
  file : IsFile U im.disk inode.sector L
  fits : L ≤ 512 * maxBlocks

/-- The inode is that of a file of `L` bytes, and nobody uses it. -/
structure Idle (fs : Fs SectorStore) (inode : Inode) (U : Nat → Path → Prop) (L : Nat)
    (im : Image) : Prop where
  sound : Sound (fs.apart inode.sector) U im.disk
  locks : ∀ t, im.lock t = RwLock.free
  file : IsFile U im.disk inode.sector L
  fits : L ≤ 512 * maxBlocks
  blank : Blank U inode.sector im.disk

/-- The image after `num` blocks have been added to a file of `m` blocks. -/
structure Enlarged (fs : Fs SectorStore) (r : Nat) (U : Nat → Path → Prop) (m num : Nat)
    (im im' : Image) : Prop extends Roomier fs r U (m + num) im im' where
  can : CanGrow fs r m num (im.disk.room fs.store.size)
  blank : Blank (With U r (InTree (m + num))) r im'.disk
  cost : im.disk.room fs.store.size = im'.disk.room fs.store.size + treeCost m (m + num)

/-- Number of blocks that a write up to byte `e` adds to a file of `L` bytes. -/
def missing (L e : Nat) : Nat := (e + 511) / 512 - treeBlocks L

/-- The file of `L` bytes after a write of `size` bytes at position `o`. -/
structure Wrote (fs : Fs SectorStore) (inode : Inode) (L o size : Nat) (buffer : Nat → UInt8)
    (im : Image) (U' : Nat → Path → Prop) (im' : Image) : Prop where
  idle : Idle fs inode U' (max L (o + size)) im'
  stored : ∀ x, im'.disk.stored inode.sector x =
    if o ≤ x ∧ x < o + size then buffer (x - o) else im.disk.stored inode.sector x
  cost : im.disk.room fs.store.size = im'.disk.room fs.store.size +
    treeCost (treeBlocks L) (treeBlocks (max L (o + size)))

/-- The file of `L` bytes after such a write, also where index blocks have stale entries. -/
structure Rewritten (fs : Fs SectorStore) (inode : Inode) (U : Nat → Path → Prop) (L o size : Nat)
    (buffer : Nat → UInt8) (im : Image) (U' : Nat → Path → Prop) (im' : Image) : Prop where
  settled : Settled fs inode U' (max L (o + size)) im'
  stored : ∀ x, im'.disk.stored inode.sector x =
    if o ≤ x ∧ x < o + size then buffer (x - o) else im.disk.stored inode.sector x
  wrote : Blank U inode.sector im.disk → Wrote fs inode L o size buffer im U' im'

variable {im im' : Image} {a L : Nat} {inode : Inode} {c : List UInt8}

/-- Nothing was added. -/
theorem widened_same (hs : Sound (fs.apart r) U im.disk) (hdisk : im'.disk = im.disk)
    (hlock : im'.lock r = im.lock r) : Widened fs r U U im im' := by
  refine ⟨by rw [hdisk]; exact hs, fun _ h => h, fun _ _ => by rw [hdisk],
    fun _ _ => by rw [hdisk], fun h => by rw [hdisk]; exact h, hlock, fun _ _ => by rw [hdisk], ?_⟩
  intro x hx hn
  exact absurd hx hn

/-- Growth keeps the bytes and adds zeros. -/
theorem widened_of_grown {V : Nat → Path → Prop} {cost : Nat} (hs : Sound fs U im.disk)
    (hroot : U r []) (hr : fs.mapRoot ≠ some r) (hg : Grown fs r U im.disk V im'.disk cost)
    (hlock : im'.lock r = im.lock r) : Widened fs r U V im im' where
  sound := (hg.sound hs hr).apart
  subset _ hu := hg.subset hu
  node _ hu := hg.node_eq hs hr hu
  word _ hj := hg.root_word hs hr hroot hj
  blank hb := hg.blank hs hr hb
  lock := hlock
  old x hu := by
    rw [content, hg.node_eq hs hr hu,
      hg.data_eq hs hr hu (hs.not_mapLeaf_of_ne hr hu) (.inr ⟨_, rfl⟩)]
    rfl
  new x hv hu := by rw [content, hg.new_empty hs hr hv hu, Bytes.byte_zero]

variable {o : Option Nat} {buffer : Nat → UInt8} {n : Int}

section

variable (ha : fs.inodes a = some inode)
include ha

/-- The invariant does not depend on who holds the extension lock. -/
theorem sound_of_holdExtension (h : Sound (fs.holdExtension a inode o) U d) : Sound fs U d := by
  have hback := sound_holdExtension (o := inode.extensionLock)
    (show (fs.holdExtension a inode o).inodes a = some _ from holdExtension_inodes) h
  have heq : (fs.holdExtension a inode o).holdExtension a { inode with extensionLock := o }
      inode.extensionLock = fs := by
    simp only [holdExtension, Function.update_idem, ← ha, Function.update_eq_self]
  rwa [heq] at hback

theorem apart_sound_of_holdExtension (h : Sound ((fs.holdExtension a inode o).apart r) U d) :
    Sound (fs.apart r) U d := by
  unfold apart at h ⊢
  rw [mapRoot_holdExtension ha] at h
  by_cases hr : fs.mapRoot = some r
  · rw [if_pos hr] at h ⊢
    exact h.of_state rfl (fun hf => absurd rfl hf)
  · rw [if_neg hr] at h ⊢
    exact sound_of_holdExtension ha h

theorem mapOpen_holdExtension (h : MapOpen fs r) : MapOpen (fs.holdExtension a inode o) r := by
  obtain ⟨a', inode', hmi, hsec, hdeny⟩ := h
  rw [MapOpen, mapInode_holdExtension ha, hmi, Option.map_some]
  by_cases ha : a' = a
  · rw [if_pos ha]
    exact ⟨a', _, rfl, hsec, hdeny⟩
  · rw [if_neg ha]
    exact ⟨a', inode', rfl, hsec, hdeny⟩

/-- The free map's file is another one, so its extension lock is another one. -/
theorem mapUnlocked_holdExtension (hr : fs.mapRoot ≠ some inode.sector) (hun : MapUnlocked fs) :
    MapUnlocked (fs.holdExtension a inode o) := by
  intro b i h
  rw [mapInode_holdExtension ha, Option.map_eq_some_iff] at h
  obtain ⟨⟨b', i'⟩, hmi, he⟩ := h
  have hne : b' ≠ a := by
    rintro rfl
    obtain ⟨_, _, -, -, -, hi⟩ := mapInode_eq_some hmi
    rw [ha] at hi
    cases hi
    exact hr (by rw [mapRoot, hmi]; rfl)
  rw [if_neg hne] at he
  cases he
  exact hun b i hmi

end

theorem CanGrow.none {m room : Nat} : CanGrow fs r m 0 room :=
  ⟨fun k h1 h2 => by omega, by rw [Nat.add_zero, treeCost_self]; exact Nat.zero_le _, fun _ => rfl⟩

theorem CanGrow.le {m num room : Nat} (h : CanGrow fs r m num room) (hm : m ≤ maxBlocks) :
    m + num ≤ maxBlocks := by
  by_cases h0 : num = 0
  · rwa [h0]
  · have hlast := (h.growable (m + num - 1) (by omega) (by omega)).1
    omega

/-- **An extension**, with the extension lock held.  It returns `true` exactly if the blocks can be
    added, and has then added all of them. -/
theorem inodeExtend_widens (depth num : Nat) (ha : fs.inodes a = some inode)
    (hmap : fs.mapRoot = some inode.sector → MapOpen fs inode.sector)
    (hs : Sound (fs.apart inode.sector) U im.disk) (hf : IsFile U im.disk inode.sector L)
    (hL : L ≤ 512 * maxBlocks) (hlock : im.lock inode.sector = RwLock.free) :
    Does (inodeExtend (freeMapAllocate (depth + 1)) a num) (fs.holdExtension a inode o) im
      (CanGrow fs inode.sector (treeBlocks L) num (im.disk.room fs.store.size) ∧ MapUnlocked fs ∧
        (∀ t, im.lock t = RwLock.free) ∧ Blank U inode.sector im.disk)
      (fun b im' => ∃ V, Widened fs inode.sector U V im im' ∧
        (b = true → V = With U inode.sector (InTree (treeBlocks L + num)) ∧
          CanGrow fs inode.sector (treeBlocks L) num (im.disk.room fs.store.size) ∧
          im'.lock = im.lock ∧ im.disk.room fs.store.size = im'.disk.room fs.store.size +
            treeCost (treeBlocks L) (treeBlocks L + num)) ∧
        (b = false → ¬ CanGrow fs inode.sector (treeBlocks L) num
          (im.disk.room fs.store.size))) := by
  have ha' : (fs.holdExtension a inode o).inodes a = some { inode with extensionLock := o } :=
    holdExtension_inodes
  by_cases hr : fs.mapRoot = some inode.sector
  · cases num with
    | zero =>
      -- nothing is added
      refine (inodeExtend_zero ha').mono ?_ (fun _ => ?_)
      · rintro b im' ⟨rfl, rfl⟩
        refine ⟨U, widened_same hs rfl rfl, fun _ => ⟨(with_self hf.tree).symm, .none, rfl, ?_⟩,
          nofun⟩
        rw [Nat.add_zero, treeCost_self]
        rfl
      · have hin := hs.inside _ _ hf.root
        rw [apart_size] at hin
        exact ⟨hin, hlock, hf.valid⟩
    | succ num =>
      have hno : ¬ CanGrow fs inode.sector (treeBlocks L) (num + 1)
          (im.disk.room fs.store.size) := fun hcan => absurd (hcan.other hr) (Nat.succ_ne_zero num)
      refine (inodeExtend_stuck depth ha' (mapOpen_holdExtension ha (hmap hr)) hs.fits hlock).mono
        ?_ (fun h => hno h.1)
      rintro b im' ⟨rfl, hdisk, hlock'⟩
      exact ⟨U, widened_same hs hdisk (hlock'.trans hlock.symm), nofun, fun _ => hno⟩
  · have hs' : Sound (fs.holdExtension a inode o) U im.disk :=
      sound_holdExtension ha (by rwa [apart, if_neg hr] at hs)
    have hr' : (fs.holdExtension a inode o).mapRoot ≠ some inode.sector := by
      rwa [mapRoot_holdExtension ha]
    refine (inodeExtend_does depth ha' hs' hf hL hr').mono ?_ ?_
    · rintro b im' ⟨hsafe, hatt⟩
      obtain ⟨_, -, ⟨V, c', hg, -, hok, -⟩, hlocks, hlock'⟩ := id hatt
      have hw := widened_of_grown hs' hf.root hr' hg hlock'
      refine ⟨V, { hw with sound := apart_sound_of_holdExtension ha hw.sound }, ?_, ?_⟩
      · rintro rfl
        have hroom := hatt.room
        refine ⟨(hok rfl).1, ⟨fun k h1 h2 => ?_, hroom ▸ Nat.le_add_left _ _,
          fun h => absurd h hr⟩, hlocks rfl, hroom⟩
        have hadd := treeCost_add (m := treeBlocks L) (k := k) (n := treeBlocks L + num)
          (by omega) (by omega)
        exact hsafe k h1 h2 (by omega)
      · rintro rfl hcan
        exact absurd hcan.room (Nat.not_le.mpr hatt.room_lt)
    · rintro ⟨hcan, hun, hlocks, hblank⟩
      exact ⟨fun k h1 h2 _ => hcan.growable k h1 h2, fun t _ => hlocks t, nofun,
        mapUnlocked_holdExtension ha hr hun, .inl hcan.room, hblank⟩

/-- A write loop that returns has stayed below the capacity of an inode. -/
theorem writeLoop_bounded (ha : fs.inodes a = some inode) (buffer : Nat → UInt8) (fuel : Nat) :
    ∀ (im : Image) (size : Int) (o done : Nat), o < 2 ^ 31 →
      Does (writeLoop a buffer fuel size o done) fs im False
        (fun _ _ => size ≤ 0 ∨ o + size ≤ 512 * maxBlocks) := by
  induction fuel with
  | zero =>
    intro im size o done _
    rw [writeLoop]
    split_ifs with hpos
    · exact does_stop id
    · exact does_pure (.inl (Int.not_lt.mp hpos))
  | succ fuel ih =>
    intro im size o done ho
    rw [writeLoop]
    by_cases hpos : size > 0
    · rw [if_pos hpos]
      have hk : toUnsigned ((o : Int).tdiv 512) = o / 512 := toUnsigned_tdiv (by omega)
      refine (byteToSector_does ha hk).bind ?_ False.elim
      rintro s im₁ ⟨-, hmax, -, -⟩
      obtain ⟨k, hk⟩ : ∃ k : Nat, (k : Int) = min size (512 - (o % 512 : Nat)) :=
        ⟨(min size (512 - (o % 512 : Nat))).toNat, by omega⟩
      have hchunk : (if size < 512 - (o : Int).tmod 512 then size else 512 - (o : Int).tmod 512)
          = k := by
        rw [hk, natCast_tmod, min_def]
        split_ifs <;> omega
      have hk0 : ¬ (k : Int) ≤ 0 := by omega
      have hofs : ¬ (o : Int).tmod 512 < 0 := by rw [natCast_tmod]; omega
      have hend : o + k ≤ 512 * maxBlocks := by omega
      have hlt : o + k < 2 ^ 31 := by unfold maxBlocks at hend; omega
      have hwrap : wrap ((o : Int) + k) = ((o + k : Nat) : Int) := by
        rw [wrap_of_range (by omega) (by omega), Nat.cast_add]
      dsimp only
      rw [hchunk, if_neg hk0]
      refine does_writeBlock False.elim (fun l l' _ _ _ => ?_)
      rw [if_neg hofs]
      refine does_modifyData (does_writeEnd ?_)
      rw [hwrap, ← Nat.cast_add done k]
      refine (ih _ (size - k) (o + k) (done + k) hlt).mono (fun _ _ h => ?_) id
      right
      rcases h with h | h
      · omega
      · push_cast at h
        omega
    · rw [if_neg hpos]
      exact does_pure (.inl (by omega))

/-- A write whose end is no `off_t` does not return. -/
theorem inodeWriteAt_overflow {size o : Nat} {alloc : Exec (Fs SectorStore) (Option Nat)}
    (ha : fs.inodes a = some inode) (hdeny : inode.denyWriteCnt = 0)
    (hf : IsFile U im.disk inode.sector L) (hsize : size < 2 ^ 31) (ho : o < 2 ^ 31)
    (hover : 2 ^ 31 ≤ size + o) :
    Does (inodeWriteAt alloc a buffer size o) fs im False (fun _ _ => False) := by
  have hneg : wrap ((size : Int) + o) < L := by
    have hlt : wrap ((size : Int) + o) < 0 := by
      rw [wrap, Int.bmod]
      split <;> omega
    omega
  unfold inodeWriteAt
  apply does_getInode ha
  rw [if_neg (not_not.mpr hdeny)]
  refine (makeRoom_keep ha hf hneg).bind ?_ False.elim
  rintro room im₁ ⟨rfl, -⟩
  refine (writeLoop_bounded ha buffer _ im₁ size o 0 ho).bind ?_ id
  intro n im₂ h
  exfalso
  unfold maxBlocks at h
  omega

/-- The bytes of a buffer that a write takes. -/
def taken (buffer : Nat → UInt8) (size : Nat) : List UInt8 := (range size).map buffer

theorem length_taken (buffer : Nat → UInt8) (size : Nat) : (taken buffer size).length = size := by
  rw [taken, length_map, length_range]

theorem getD_taken {size x : Nat} (h : x < size) : (taken buffer size).getD x 0 = buffer x := by
  rw [taken, getD_eq_getElem _ _ (by rw [length_map, length_range]; exact h),
    getElem_map, getElem_range]

variable {size o : Nat} {im₁ im₂ : Image} {fs' : Fs SectorStore}

/-- A write that stays in front of the end. -/
theorem rewritten_inside (h : Settled fs inode U L im) (hlt : size + o < L)
    (hw : HasWritten U inode.sector o 0 size buffer (im.visit [inode.sector]) n im') :
    Rewritten fs inode U L o size buffer im U im' := by
  have hmax : max L (o + size) = L := by omega
  have hroot : im'.disk.data inode.sector = im.disk.data inode.sector :=
    hw.frame.root_eq h.sound h.file.root
  have hlen : im'.disk.word inode.sector lengthWord = L := by
    rw [word, hroot]
    exact h.file.length
  have hset : Settled fs inode U (max L (o + size)) im' := by
    rw [hmax]
    refine ⟨hw.frame.sound h.sound hw.map, fun t => by rw [hw.lock]; exact h.locks t,
      ⟨?_, hlen, h.file.length_lt, h.file.tree⟩, h.fits⟩
    rw [hroot]
    exact h.file.valid
  have hst : ∀ x, im'.disk.stored inode.sector x =
      if o ≤ x ∧ x < o + size then buffer (x - o) else im.disk.stored inode.sector x := by
    intro x
    rw [stored, stored, hlen, h.file.length]
    by_cases hx : x / 512 < treeBlocks L
    · rw [if_pos hx, if_pos hx, hw.content x ((h.file.tree _).mpr (inTree_dataPath hx)),
        Int.toNat_natCast, Nat.zero_add]
      rfl
    · rw [if_neg hx, if_neg hx, if_neg]
      rw [treeBlocks_of_le h.fits] at hx
      omega
  refine ⟨hset, hst, fun hb => ⟨⟨hset.sound, hset.locks, hset.file, hset.fits,
    hw.frame.blank h.sound hb⟩, hst, ?_⟩⟩
  rw [hmax, treeCost_self, room, room, hw.map]
  rfl

/-- A write that reaches the end, after room was made for it. -/
theorem rewritten_extended {im₃ : Image} (h : Settled fs inode U L im) (hge : L ≤ size + o)
    (hlt : size + o < 2 ^ 31)
    (hr : Roomier fs inode.sector U (treeBlocks L + missing L (o + size)) im im₁)
    (he : Blank U inode.sector im.disk → Enlarged fs inode.sector U (treeBlocks L)
      (missing L (o + size)) im im₁)
    (hw : HasWritten (With U inode.sector (InTree (treeBlocks L + missing L (o + size))))
      inode.sector o 0 size buffer im₁ n im₂)
    (hdisk : im₃.disk = im₂.disk.setLength inode.sector (size + o)) (hlock : im₃.lock = im₂.lock) :
    Rewritten fs inode U L o size buffer im
      (With U inode.sector (InTree (treeBlocks L + missing L (o + size)))) im₃ := by
  have hmax : max L (o + size) = size + o := by omega
  obtain ⟨m, hm⟩ : ∃ m, m = treeBlocks L + missing L (o + size) := ⟨_, rfl⟩
  have hm' : m = (size + o + 511) / 512 := by
    rw [hm, missing, treeBlocks_of_le h.fits]
    omega
  rw [← hm] at hr hw ⊢
  have hcap : size + o ≤ 512 * maxBlocks := by
    have hle := hr.le
    omega
  have hblocks : treeBlocks (size + o) = m := by rw [treeBlocks_of_le hcap, hm']
  have hroot : With U inode.sector (InTree m) inode.sector [] := with_at.mpr (inTree_nil m)
  have hs₂ := hw.frame.sound hr.sound hw.map
  have hlen : im₃.disk.word inode.sector lengthWord = size + o := by
    rw [hdisk]
    exact setLength_length (by omega)
  have hset : Settled fs inode (With U inode.sector (InTree m)) (max L (o + size)) im₃ := by
    rw [hmax]
    refine ⟨?_, fun t => ?_, ⟨?_, hlen, hlt, fun p => by rw [hblocks]; exact with_at⟩, hcap⟩
    · rw [hdisk]
      exact hs₂.setLength hroot apart_mapRoot
    · rw [hlock, hw.lock, hr.lock]
      exact h.locks t
    · show im₃.disk.word inode.sector magicWord = _
      rw [hdisk, setLength_word (fun he => absurd he.2 (by decide)), word,
        hw.frame.root_eq hr.sound hroot]
      exact hr.valid
  have hst : ∀ x, im₃.disk.stored inode.sector x =
      if o ≤ x ∧ x < o + size then buffer (x - o) else im.disk.stored inode.sector x := by
    intro x
    rw [stored, hlen, hblocks]
    by_cases hx : x / 512 < m
    · have hu : With U inode.sector (InTree m) inode.sector (dataPath (x / 512)) :=
        with_at.mpr (inTree_dataPath hx)
      rw [if_pos hx, hdisk, hs₂.content_setLength hroot hu, hw.content x hu, Int.toNat_natCast,
        Nat.zero_add, hr.content x hx]
      rfl
    · rw [if_neg hx, if_neg (by omega), stored, h.file.length, if_neg (by omega)]
  refine ⟨hset, hst, fun hb => ⟨⟨hset.sound, hset.locks, hset.file, hset.fits, ?_⟩, hst, ?_⟩⟩
  · have hb₁ := (he hb).blank
    rw [← hm] at hb₁
    rw [hdisk]
    exact hs₂.blank_setLength hroot (hw.frame.blank hr.sound hb₁)
  · rw [hmax, hblocks, (he hb).cost, ← hm, hdisk]
    show im₁.disk.room _ + _ = im₂.disk.room _ + _
    rw [room, room, hw.map]

/-- Number of blocks that `inode_write_at` asks for. -/
theorem blocksNeeded_eq {L' : Nat} (hle : L ≤ L') (hlt : L' < 2 ^ 31) :
    toUnsigned (wrap (ceil (L' : Int) 512 - ceil (L : Int) 512))
      = (L' + 511) / 512 - (L + 511) / 512 := by
  rw [ceil_natCast, ceil_natCast, wrap_of_range (by omega) (by omega)]
  unfold toUnsigned
  omega

/-- **`inode_write_at`** on a file whose blocks nobody has locked: everything is written, or
    `inode_extend` reports that it failed. -/
theorem writeAt_settles (depth : Nat) (ha : fs.inodes a = some inode)
    (hdeny : inode.denyWriteCnt = 0)
    (hmap : fs.mapRoot = some inode.sector → MapOpen fs inode.sector)
    (h : Settled fs inode U L im) (hlt : size + o < 2 ^ 31) :
    Meets (inodeWriteAt (freeMapAllocate (depth + 1)) a buffer size o) (fs.withImage im)
      (fun n fs' =>
        (n = size ∧
          CanGrow fs inode.sector (treeBlocks L) (missing L (o + size))
            (im.disk.room fs.store.size) ∧
          ∃ U' im', fs' = fs.withImage im' ∧ Rewritten fs inode U L o size buffer im U' im') ∨
        (¬ CanGrow fs inode.sector (treeBlocks L) (missing L (o + size))
            (im.disk.room fs.store.size) ∧
          (makeRoom (freeMapAllocate (depth + 1)) a (wrap (size + o))).run (fs.withImage im) =
            .ok (none, fs')))
      (fun _ => ¬ (CanGrow fs inode.sector (treeBlocks L) (missing L (o + size))
          (im.disk.room fs.store.size) ∧
        MapUnlocked fs ∧ Blank U inode.sector im.disk ∧ inode.extensionLock = none)) := by
  have hnew : wrap ((size : Int) + o) = ((size + o : Nat) : Int) := by
    rw [wrap_of_range (by omega) (by omega), Nat.cast_add]
  have hin : inode.sector < fs.store.size := by
    have := h.sound.inside _ _ h.file.root
    rwa [apart_size] at this
  by_cases hend : size + o < L
  · -- in front of the end: no block is missing
    have hnone : missing L (o + size) = 0 := by
      rw [missing, treeBlocks_of_le h.fits]
      omega
    have hdoes : Does (inodeWriteAt (freeMapAllocate (depth + 1)) a buffer size o) fs im _ _ :=
      inodeWriteAt_inside apart_size ha hdeny h.sound h.file h.fits (by rw [hnew]; omega)
        (by rw [Int.toNat_natCast]; omega)
    refine Meets.mono hdoes ?_ (fun _ hno => absurd (fun p hp => h.locks _) hno)
    rintro n fs' ⟨im', rfl, hw⟩
    have hcount := hw.count
    exact .inl ⟨by rw [hcount]; simp, hnone ▸ .none, U, im', rfl, rewritten_inside h hend hw⟩
  · obtain ⟨k, hk⟩ : ∃ k, k = missing L (o + size) := ⟨_, rfl⟩
    have hneed : toUnsigned (wrap (ceil ((size + o : Nat) : Int) 512 - ceil (L : Int) 512)) = k := by
      rw [blocksNeeded_eq (by omega) (by omega), hk, missing, treeBlocks_of_le h.fits,
        Nat.add_comm size o]
    have hx : Does (inodeExtend (freeMapAllocate (depth + 1)) a
        (toUnsigned (wrap (ceil ((size + o : Nat) : Int) 512 - ceil (L : Int) 512))))
        (fs.holdExtension a inode (some fs.current))
        (im.visit [inode.sector, inode.sector, inode.sector])
        (CanGrow fs inode.sector (treeBlocks L) k (im.disk.room fs.store.size) ∧ MapUnlocked fs ∧
          (∀ t, im.lock t = RwLock.free) ∧ Blank U inode.sector im.disk)
        (fun b im₁ =>
          (b = true → CanGrow fs inode.sector (treeBlocks L) k (im.disk.room fs.store.size) ∧
            Roomier fs inode.sector U (treeBlocks L + k) im im₁ ∧
            (Blank U inode.sector im.disk →
              Enlarged fs inode.sector U (treeBlocks L) k im im₁)) ∧
          (b = false → ¬ CanGrow fs inode.sector (treeBlocks L) k
            (im.disk.room fs.store.size))) := by
      have hvisit : Settled fs inode U L (im.visit [inode.sector, inode.sector, inode.sector]) :=
        ⟨h.sound, h.locks, h.file, h.fits⟩
      rw [hneed]
      refine (inodeExtend_widens depth k ha hmap hvisit.sound hvisit.file hvisit.fits
        (hvisit.locks _)).mono ?_ id
      rintro b im₁ ⟨V, hw, htrue, hfalse⟩
      refine ⟨fun hb => ?_, hfalse⟩
      obtain ⟨rfl, hcan, hlock, hcost⟩ := htrue hb
      have hr := hw.roomier hvisit.file (hcan.le (Nat.min_le_right _ _)) hlock
      have hr' : Roomier fs inode.sector U (treeBlocks L + k) im im₁ :=
        ⟨hr.le, hr.sound, hr.valid, hr.lock, hr.content⟩
      exact ⟨hcan, hr', fun hb => ⟨hr', hcan, hw.blank hb, hcost⟩⟩
    have hle : (L : Int) ≤ ((size + o : Nat) : Int) := by omega
    have hmeets : Meets (inodeWriteAt (freeMapAllocate (depth + 1)) a buffer size o)
        (fs.withImage im) _ _ :=
      inodeWriteAt_extends apart_size ha hdeny h.file hnew hle hx (fun im₁ hq => by
        -- the blocks of the range are there, and nobody holds their locks
        have hr := (hq.1 rfl).2.1
        refine ⟨hr.sound, hr.valid, with_at.mpr (inTree_nil _), fun x _ hx => ?_, fun _ p _ => ?_⟩
        · rw [Int.toNat_natCast] at hx
          refine with_at.mpr (inTree_dataPath ?_)
          rw [hk, missing]
          omega
        · rw [hr.lock]
          exact h.locks _)
    rw [← hk]
    refine hmeets.mono ?_ (fun _ hno ⟨hcan, hun, hb, hext⟩ =>
      hno ⟨⟨hcan, hun, h.locks, hb⟩, hext, hin, ?_⟩)
    · rintro n fs' (⟨im₁, im₂, im₃, hq, hw, hdisk, hlock, -, rfl⟩ | ⟨-, hnone, _, hq, -⟩)
      · obtain ⟨hcan, hr, he⟩ := hq.1 rfl
        have hcount := hw.count
        rw [toUnsigned_natCast (by omega)] at hdisk
        rw [hk] at hr he hw
        exact .inl ⟨by rw [hcount]; simp, hcan, _, im₃, rfl,
          rewritten_extended h (by omega) hlt hr he hw hdisk hlock⟩
      · exact .inr ⟨hq.2 rfl, by rw [hnew]; exact hnone⟩
    · rw [h.locks]
      exact RwLock.readable_free

theorem stored_of_holds (h : Holds fs inode U c im) (x : Nat) :
    im.disk.stored inode.sector x = c.getD x 0 := by
  rw [stored, h.file.length]
  split
  next hx => exact h.bytes x ((h.file.tree _).mpr (inTree_dataPath hx))
  next hx =>
    rw [treeBlocks_of_le h.fits] at hx
    rw [getD_eq_default _ _ (by omega)]

theorem holds_of_stored (h : Settled fs inode U c.length im)
    (hst : ∀ x, im.disk.stored inode.sector x = c.getD x 0) : Holds fs inode U c im := by
  refine ⟨h.sound, h.locks, h.file, h.fits, fun x hx => ?_⟩
  rw [← hst x, stored, h.file.length, if_pos (inTree_dataPath_iff.mp ((h.file.tree _).mp hx))]

/-- **One write.** -/
theorem write_holds {depth : Nat} (ha : fs.inodes a = some inode)
    (hdeny : inode.denyWriteCnt = 0)
    (hmap : fs.mapRoot = some inode.sector → MapOpen fs inode.sector) (h : Holds fs inode U c im)
    (hsize : size < 2 ^ 31) (ho : o < 2 ^ 31)
    (hrun : (inodeWriteAt (freeMapAllocate (depth + 1)) a buffer size o).run (fs.withImage im) =
      .ok (n, fs'))
    (hroom : ∀ fs₁, (makeRoom (freeMapAllocate (depth + 1)) a (wrap (size + o))).run
      (fs.withImage im) ≠ .ok (none, fs₁)) :
    n = size ∧ ∃ U' im', fs' = fs.withImage im' ∧
      Holds fs inode U' (splice 0 c o (taken buffer size)) im' := by
  by_cases hover : 2 ^ 31 ≤ size + o
  · obtain ⟨_, -, hfalse⟩ :=
      (inodeWriteAt_overflow ha hdeny h.file hsize ho hover).ensures _ _ hrun
    exact hfalse.elim
  have hset : Settled fs inode U c.length im := ⟨h.sound, h.locks, h.file, h.fits⟩
  rcases (writeAt_settles depth ha hdeny hmap hset (by omega)).ensures _ _ hrun with
    ⟨hn, -, U', im', hfs, hr⟩ | ⟨-, hnone⟩
  · refine ⟨hn, U', im', hfs, holds_of_stored ?_ (fun x => ?_)⟩
    · rw [length_splice, length_taken]
      exact hr.settled
    · rw [hr.stored, stored_of_holds h, getD_splice, length_taken]
      by_cases hin : o ≤ x ∧ x < o + size
      · rw [if_pos hin, if_pos hin, getD_taken (by omega)]
      · rw [if_neg hin, if_neg hin]
  · exact absurd hnone (hroom fs')

/-- **One read.** -/
theorem read_holds {x : Int × (Nat → UInt8)} (ha : fs.inodes a = some inode)
    (h : Holds fs inode U c im) (ho : o < 2 ^ 31)
    (hrun : (inodeReadAt a buffer size o).run (fs.withImage im) = .ok (x, fs')) :
    x.1 = ((c.drop o).take size).length ∧
      (∀ j, j < ((c.drop o).take size).length → x.2 j = ((c.drop o).take size).getD j 0) ∧
      ∃ im', fs' = fs.withImage im' ∧ Holds fs inode U c im' := by
  have hdoes : Does (inodeReadAt a buffer size o) fs im _ _ :=
    inodeReadAt_does apart_size ha h.fits h.sound h.file ho
  obtain ⟨im', rfl, hr⟩ := hdoes.ensures _ _ hrun
  obtain ⟨ts, rfl, -⟩ := hr.visits
  have hlen : ((c.drop o).take size).length = readCount c.length o size := by
    rw [length_take, length_drop, readCount, Int.toNat_natCast]
  refine ⟨?_, fun j hj => ?_, _, rfl, h.sound, h.locks, h.file, h.fits, h.bytes⟩
  · rw [hlen, hr.count]
    simp
  · rw [hlen] at hj
    have hin : o + j < c.length := by unfold readCount at hj; omega
    have hj' : j < size := by unfold readCount at hj; omega
    rw [hr.bytes j, if_pos ⟨Nat.zero_le j, by omega⟩, Nat.sub_zero,
      h.bytes _ (h.file.block h.fits hin)]
    simp only [getD_eq_getElem?_getD, getElem?_take, getElem?_drop, hj', if_true]

end Fs

/-! ### Sequences of calls -/

/-- A call, with an `off_t` size of at least `1` and a position that is not negative. -/
inductive FileCall where
  | write (buffer : Nat → UInt8) (size offset : Nat) (hsize : 1 ≤ size ∧ size < 2 ^ 31)
    (hoffset : offset < 2 ^ 31)
  | read (buffer : Nat → UInt8) (size offset : Nat) (hsize : 1 ≤ size ∧ size < 2 ^ 31)
    (hoffset : offset < 2 ^ 31)

/-- What a call returns: a count, and the bytes that a read has put into the buffer. -/
inductive FileReply where
  | written (n : Int)
  | got (n : Int) (bytes : List UInt8)
  deriving DecidableEq

namespace FileCall

/-- The call, on the inode at address `a`. -/
def exec (depth a : Nat) : FileCall → Exec (Fs SectorStore) FileReply
  | write buffer size offset _ _ => do
    let n ← Fs.inodeWriteAt (Fs.freeMapAllocate (depth + 1)) a buffer size offset
    pure (.written n)
  | read buffer size offset _ _ => do
    let (n, buf) ← Fs.inodeReadAt a buffer size offset
    pure (.got n (Fs.taken buf n.toNat))

/-- No allocation of the call fails, i.e. `inode_extend` does not return `false`. -/
def Granted (depth a : Nat) (fs : Fs SectorStore) : FileCall → Prop
  | write _ size offset _ _ => ∀ fs₁,
    (Fs.makeRoom (Fs.freeMapAllocate (depth + 1)) a (wrap (size + offset))).run fs ≠ .ok (none, fs₁)
  | read .. => True

/-- What the call does to an array of bytes. -/
def spec (c : List UInt8) : FileCall → FileReply × List UInt8
  | write buffer size offset _ _ => (.written size, splice 0 c offset (Fs.taken buffer size))
  | read _ size offset _ _ =>
    (.got ((c.drop offset).take size).length ((c.drop offset).take size), c)

/-- What a sequence of calls does to an array of bytes. -/
def specAll (c : List UInt8) : List FileCall → List FileReply × List UInt8
  | [] => ([], c)
  | call :: calls =>
    let (reply, c₁) := spec c call
    let (replies, c₂) := specAll c₁ calls
    (reply :: replies, c₂)

end FileCall

/-- A sequence of calls that all return, without a failed allocation. -/
inductive Calls (depth a : Nat) :
    Fs SectorStore → List FileCall → List FileReply → Fs SectorStore → Prop
  | nil (fs : Fs SectorStore) : Calls depth a fs [] [] fs
  | cons {fs fs₁ fs₂ : Fs SectorStore} {call : FileCall} {calls : List FileCall}
      {reply : FileReply} {replies : List FileReply}
      (hrun : (call.exec depth a).run fs = .ok (reply, fs₁)) (hgrant : call.Granted depth a fs)
      (hrest : Calls depth a fs₁ calls replies fs₂) :
      Calls depth a fs (call :: calls) (reply :: replies) fs₂

/-- The bytes of the file at sector `r` that records the length `L`. -/
def Disk.contents (d : Disk) (r L : Nat) : List UInt8 := (range L).map (d.content r)

section

variable {fs' : Fs SectorStore} {im : Image} {a L depth : Nat} {inode : Inode} {c : List UInt8}

theorem Holds.contents (h : Holds fs inode U c im) :
    im.disk.contents inode.sector c.length = c := by
  refine ext_getElem (by rw [Disk.contents, length_map, length_range]) ?_
  intro x _ hx
  simp only [Disk.contents, getElem_map, getElem_range]
  rw [h.bytes x (h.file.block h.fits hx), getD_eq_getElem _ _ hx]

/-- **One call** is a call on the array of bytes. -/
theorem call_holds {call : FileCall} {reply : FileReply} (ha : fs.inodes a = some inode)
    (hdeny : inode.denyWriteCnt = 0)
    (hmap : fs.mapRoot = some inode.sector → MapOpen fs inode.sector) (h : Holds fs inode U c im)
    (hrun : (call.exec depth a).run (fs.withImage im) = .ok (reply, fs'))
    (hgrant : call.Granted depth a (fs.withImage im)) :
    reply = (call.spec c).1 ∧
      ∃ U' im', fs' = fs.withImage im' ∧ Holds fs inode U' (call.spec c).2 im' := by
  cases call with
  | write buffer size offset hsize hoffset =>
    obtain ⟨n, fs₁, hwrite, hpure⟩ := bind_eq_ok.mp hrun
    cases hpure
    obtain ⟨rfl, hholds⟩ := Fs.write_holds ha hdeny hmap h hsize.2 hoffset hwrite hgrant
    exact ⟨rfl, hholds⟩
  | read buffer size offset hsize hoffset =>
    obtain ⟨⟨n, buf⟩, fs₁, hread, hpure⟩ := bind_eq_ok.mp hrun
    cases hpure
    obtain ⟨hn, hbytes, im', rfl, hholds⟩ := Fs.read_holds ha h hoffset hread
    refine ⟨?_, U, im', rfl, hholds⟩
    have hn' : n = ((c.drop offset).take size).length := hn
    have hlist : Fs.taken buf n.toNat = (c.drop offset).take size := by
      rw [hn', Int.toNat_natCast]
      refine ext_getElem (Fs.length_taken _ _) (fun j _ hj => ?_)
      have hj' := hbytes j hj
      rw [getD_eq_getElem _ _ hj] at hj'
      rw [← hj']
      simp [Fs.taken]
    rw [hlist, hn']
    rfl

/-- A sequence of calls is the sequence of calls on the array of bytes. -/
theorem calls_hold (ha : fs.inodes a = some inode) (hdeny : inode.denyWriteCnt = 0)
    (hmap : fs.mapRoot = some inode.sector → MapOpen fs inode.sector) {s s' : Fs SectorStore}
    {calls : List FileCall} {replies : List FileReply} (hcalls : Calls depth a s calls replies s') :
    ∀ U c im, s = fs.withImage im → Holds fs inode U c im →
      replies = (FileCall.specAll c calls).1 ∧
        ∃ U' im', s' = fs.withImage im' ∧ Holds fs inode U' (FileCall.specAll c calls).2 im' := by
  -- by induction on the sequence, with the state an image over the same `fs` all the time
  induction hcalls with
  | nil s =>
    intro U c im hs h
    exact ⟨rfl, U, im, hs, h⟩
  | cons hrun hgrant _ ih =>
    rintro U c im rfl h
    obtain ⟨rfl, U₁, im₁, hs₁, h₁⟩ := call_holds ha hdeny hmap h hrun hgrant
    obtain ⟨rfl, hrest⟩ := ih U₁ _ im₁ hs₁ h₁
    exact ⟨rfl, hrest⟩

/-- **Files behave as byte arrays.** -/
theorem file_is_bytes {calls : List FileCall} {replies : List FileReply}
    (ha : fs.inodes a = some inode) (hdeny : inode.denyWriteCnt = 0) (hs : Sound fs U fs.image.disk)
    (hq : Quiet fs) (hf : IsFile U fs.image.disk inode.sector L) (hL : L ≤ 512 * maxBlocks)
    (hzero : ∀ x, L ≤ x → x < 512 * treeBlocks L → fs.image.disk.content inode.sector x = 0)
    (hcalls : Calls depth a fs calls replies fs') :
    replies = (FileCall.specAll (fs.image.disk.contents inode.sector L) calls).1 ∧
      ∃ U' L', IsFile U' fs'.image.disk inode.sector L' ∧
        fs'.image.disk.contents inode.sector L'
          = (FileCall.specAll (fs.image.disk.contents inode.sector L) calls).2 := by
  obtain ⟨c, hc⟩ : ∃ c, c = fs.image.disk.contents inode.sector L := ⟨_, rfl⟩
  have hlen : c.length = L := by rw [hc, contents, length_map, length_range]
  have hholds : Holds fs inode U c fs.image := by
    refine ⟨hs.apart, hq.locks, by rw [hlen]; exact hf, by rw [hlen]; exact hL, fun x hx => ?_⟩
    by_cases hxL : x < L
    · rw [getD_eq_getElem _ _ (by rw [hlen]; exact hxL)]
      simp [hc, contents]
    · have hblock := inTree_dataPath_iff.mp ((hf.tree _).mp hx)
      rw [hzero x (by omega) (by omega), getD_eq_default _ _ (by omega)]
  obtain ⟨hreplies, U', im', rfl, h'⟩ :=
    calls_hold ha hdeny (fun hr => hs.mapOpen hr) hcalls U c fs.image rfl hholds
  rw [← hc]
  exact ⟨hreplies, U', _, h'.file, h'.contents⟩

end

/-- Three bytes behind the start of an empty file, and everything read back. -/
def gapCalls : List FileCall :=
  [.write (fun _ => 65) 3 2 (by omega) (by omega), .read (fun _ => 9) 10 0 (by omega) (by omega)]

/-- The gap reads as zeros. -/
theorem file_is_bytes_gap :
    ∃ fs', Calls 0 0 (emptyFile 20) gapCalls [.written 3, .got 5 [0, 0, 65, 65, 65]] fs' ∧
      ∃ U' L', IsFile U' fs'.image.disk 3 L' ∧
        fs'.image.disk.contents 3 L' = [0, 0, 65, 65, 65] := by
  have hroom : outcome (Fs.makeRoom (Fs.freeMapAllocate 1) 0 (wrap (3 + 2))) (emptyFile 20)
      = .ok (some true) := by decide +kernel
  obtain ⟨fs', hcalls⟩ : ∃ fs', Calls 0 0 (emptyFile 20) gapCalls
      [.written 3, .got 5 [0, 0, 65, 65, 65]] fs' := by
    refine ⟨_, .cons (run_of_outcome (by decide +kernel)) (fun fs₁ h => ?_)
      (.cons (run_of_outcome (by decide +kernel)) trivial (.nil _))⟩
    have hsome := run_of_outcome hroom
    rw [show wrap ((3 : Int) + 2) = wrap (((3 : Nat) : Int) + ((2 : Nat) : Int)) from rfl, h] at hsome
    cases hsome
  obtain ⟨-, U', L', hfile, hbytes⟩ := file_is_bytes (L := 0) inodes_emptyFile rfl
    (sound_emptyFile (by omega) (by omega)) quiet_emptyFile isFile_emptyFile (by omega)
    (fun x h1 h2 => absurd h2 (by rw [show treeBlocks 0 = 0 from rfl]; omega)) hcalls
  exact ⟨fs', hcalls, U', L', hfile, hbytes⟩

end KernelSanders

import KernelSanders.Filesys.Create

namespace KernelSanders

open Lib Lib.Exec RwLock Fs

/-!
# The block index of a file

What `inode_create` and `inode_extend` allocate, as `byte_to_sector` sees it.

* `MapsTo` — the sector that `byte_to_sector` gives for a position;
* `Disk.Linked` — the shape of a tree: which pointers are set;
* `inodeCreate_lookup` — a created file has a sector of its own for every block;
* `extended_iff` — which extensions keep the old blocks and add new ones.
-/

/-- Nobody is inside a section of a cache block, or extends the free map's file. -/
structure Quiet (fs : Fs SectorStore) : Prop where
  locks : ∀ t, fs.store.lock t = free
  unlocked : MapUnlocked fs

/-- `byte_to_sector` gives sector `s` for position `pos` of the inode at sector `r`, through every
    open inode of it. -/
def MapsTo (st : SectorStore) (r : Nat) (pos : Int) (s : Nat) : Prop :=
  ∀ (fs : Fs SectorStore) (a : Nat) (inode : Inode), fs.store = st → fs.inodes a = some inode →
    inode.sector = r → Returns (byteToSector a pos) fs (fun s' _ => s' = s)

namespace Disk

/-- All pointers on the way to node `p` of the inode at sector `r` are set. -/
def Linked (d : Disk) (r : Nat) : Path → Prop
  | [] => True
  | i :: p => d.Linked r p ∧ d.word (d.node r p) i ≠ 0

/-- Sector `t` is the inode at sector `r`, an index block in one of its slots, or one that its
    double indirect block points to. -/
def IsIndex (d : Disk) (r t : Nat) : Prop :=
  t = r ∨ (∃ j, j < 40 ∧ t = d.word r (60 + j)) ∨ t = d.word r 100 ∨
    (d.word r 100 ≠ 0 ∧ ∃ j, j < 128 ∧ t = d.word (d.word r 100) j)

end Disk

variable {im' : Image}

section

variable {fs : Fs SectorStore} {U : Nat → Path → Prop} {im : Image} {d : Disk} {r k t s s' m : Nat}
  {p : Path}

/-- A lookup has one result. -/
theorem MapsTo.unique {st : SectorStore} {pos : Int} (h : MapsTo st r pos s)
    (h' : MapsTo st r pos s') : s = s' := by
  -- any state with an open inode at the sector will do
  let g : Fs SectorStore :=
    { store := st, freeMap := ⟨0, fun _ => 0⟩, freeMapFile := none, openInodes := [],
      inodes := fun _ => some ⟨r, 1, false, 0, none⟩, files := fun _ => none,
      dirs := fun _ => none, brk := 0, malloc := fun _ => true, current := 0, workingDir := 0 }
  obtain ⟨x, _, hx, hs⟩ := h g 0 ⟨r, 1, false, 0, none⟩ rfl rfl rfl
  obtain ⟨y, _, hy, hs'⟩ := h' g 0 ⟨r, 1, false, 0, none⟩ rfl rfl rfl
  rw [hx] at hy
  cases hy
  rw [← hs, ← hs']

/-- The sector of a block in use. -/
theorem Sound.mapsTo (hs : Sound fs U im.disk) (hv : isValidInode (im.disk.data r))
    (hk : U r (dataPath k)) (hfree : ∀ t, im.lock t = free) {pos : Nat} (hpos : pos / 512 = k) :
    MapsTo (fs.withImage im).store r (pos : Int) (im.disk.node r (dataPath k)) := by
  intro g a inode hst ha hr
  subst hr
  have hmax : k < maxBlocks := inTree_dataPath_iff.mp (hs.shape _ _ hk)
  have hblock : toUnsigned ((pos : Int).tdiv 512) = k := by
    rw [← hpos]
    unfold maxBlocks at hmax
    exact toUnsigned_tdiv (by omega)
  -- the image of `g` differs from `im` in the free map only
  have himage : g = g.withImage { im with disk := { im.disk with map := g.freeMap } } := by
    obtain ⟨store⟩ := g
    cases hst
    rfl
  have hdoes : Fs.Does (byteToSector a pos) g { im with disk := { im.disk with map := g.freeMap } } _ _ :=
    byteToSector_does ha hblock
  have hsize : g.store.size = fs.store.size := by rw [hst]; rfl
  rw [himage]
  refine (hdoes.returns ⟨hv, hmax, fun t ht => ?_⟩).mono ?_
  · have howned := hs.owned_inside (hs.trail_owned hk ht)
    exact ⟨by rw [hsize]; exact howned, by rw [hfree t]; exact readable_free⟩
  · rintro s _ ⟨im', -, hs', -⟩
    exact hs'

/-- The shape of a sound tree. -/
theorem Sound.linked_iff (hs : Sound fs U d) (hb : Blank U r d) (hroot : U r []) :
    InTree maxBlocks p → (d.Linked r p ↔ U r p) := by
  induction p with
  | nil => exact fun _ => ⟨fun _ => hroot, fun _ => trivial⟩
  | cons i p ih =>
    intro hp
    rw [Disk.Linked, ih hp.parent]
    constructor
    · rintro ⟨hu, hne⟩
      by_contra hn
      exact hne (hb i p hp hu hn)
    · intro hu
      have hpos := hs.inner r (i :: p) hu (by simp)
      rw [Disk.node_cons] at hpos
      exact ⟨hs.rooted r i p hu, by omega⟩

/-- The path of a block does not end at an index block. -/
theorem dataPath_ne_drop {e k' : Nat} : dataPath k ≠ (dataPath k').drop (e + 1) := by
  intro h
  obtain rfl : k = k' := dataPath_suffix (h ▸ List.drop_suffix _ _)
  have hlen := congrArg List.length h
  rw [List.length_drop] at hlen
  have hpos := List.length_pos_iff.mpr (dataPath_ne_nil (k := k))
  omega

/-- A data block is neither the inode nor an index block. -/
theorem Sound.not_isIndex (hs : Sound fs U d) (hb : Blank U r d) (hk : U r (dataPath k)) :
    ¬ d.IsIndex r (d.node r (dataPath k)) := by
  have hroot := hs.root_of_mem hk
  have hpos := hs.inner r _ hk dataPath_ne_nil
  -- the slot of an index block holds another node, or `0` if it is not in use
  have hslot : ∀ e k' i p, Entry (e + 1) k' i p → U r p →
      d.node r (dataPath k) ≠ d.word (d.node r p) i := by
    intro e k' i p hentry hp he
    by_cases hu : U r (i :: p)
    · have hpath := (hs.node_inj hk hu he).2
      rw [← hentry.path] at hpath
      exact dataPath_ne_drop hpath
    · have hin : InTree maxBlocks (i :: p) :=
        .inr ⟨k', hentry.lt, by rw [← hentry.path]; exact List.drop_suffix _ _⟩
      rw [he, hb i p hin hp hu] at hpos
      omega
  rintro (h | ⟨j, hj, h⟩ | h | ⟨h0, j, hj, h⟩)
  · exact dataPath_ne_nil (hs.node_inj (q := []) hk hroot h).2
  · exact hslot 0 _ _ [] (entry_single hj) hroot h
  · exact hslot 1 _ _ [] entry_double hroot h
  · have hentry := entry_double.indices j hj
    rw [Nat.zero_add] at hentry
    refine hslot 0 _ _ [100] hentry ?_ h
    -- the double indirect block is in use, because its slot is not `0`
    by_contra hn
    exact h0 (hb 100 [] (inTree_double.mpr (by unfold maxBlocks; omega)) hroot hn)

/-- An attempt that succeeded. -/
theorem Attempt.grown {W : Nat → Path → Prop} {c : Nat} (h : Attempt fs r U W c im true im') :
    Grown fs r U im.disk W im'.disk c ∧ im'.lock = im.lock := by
  obtain ⟨_, -, ⟨V, c', hg, -, hok, -⟩, hlock, -⟩ := h
  obtain ⟨rfl, rfl⟩ := hok rfl
  exact ⟨hg, hlock rfl⟩

end

/-! ### A new file -/

/-- A device of `n` empty sectors without a file for the free map.  The three reserved sectors are
    taken, and so is sector `3`, for a new inode. -/
def bareFs (n : Nat) : Fs SectorStore where
  store := { size := n, data := fun _ => Bytes.zero, lock := fun _ => free, touched := [] }
  freeMap := { bitCnt := 4 * n, bits := fun i => if i = 0 then 15#32 else 0#32 }
  freeMapFile := none
  openInodes := []
  inodes := fun _ => none
  files := fun _ => none
  dirs := fun _ => none
  brk := 0
  malloc := fun _ => true
  current := 0
  workingDir := 0

section

variable {n : Nat}

theorem isSet_bareFs (i : Nat) : (bareFs n).freeMap.isSet i = decide (i < 4) := by
  have hsmall : ∀ i, i < 32 → (15#32 &&& Bitmap.bitMask i != 0) = decide (i < 4) := by decide
  show ((if i / 32 = 0 then 15#32 else 0#32) &&& Bitmap.bitMask i != 0) = _
  by_cases h : i / 32 = 0
  · rw [if_pos h]
    exact hsmall i (by omega)
  · rw [if_neg h, BitVec.zero_and]
    exact (decide_eq_false (by omega)).symm

theorem sound_bareFs (hn : 4 * n + 31 < 2 ^ 32) :
    Sound (bareFs n) (fun _ _ => False) (bareFs n).image.disk where
  rooted _ _ _ h := h
  shape _ _ h := h.elim
  separated _ _ _ _ h := h.elim
  used _ _ h := h.elim
  inside _ _ h := h.elim
  bit _ _ h := h.elim
  root_pos _ _ h := h.elim
  inner _ _ h := h.elim
  reserved t ht := (isSet_bareFs t).trans (decide_eq_true (by omega))
  fits := hn
  mapFile h := absurd rfl h

theorem plantable_bareFs (hn : 3 < n) :
    Plantable (bareFs n) (fun _ _ => False) (bareFs n).image.disk 3 where
  fresh _ _ h := h.elim
  pos := by omega
  used := isSet_bareFs 3
  inside := hn
  bit := by show 3 < 4 * n; omega

theorem quiet_bareFs : Quiet (bareFs n) where
  locks _ := rfl
  unlocked _ _ h := by cases h

theorem room_bareFs (hn : 4 ≤ n) : n - 4 ≤ (bareFs n).image.disk.room n := by
  have hsub : Finset.Ico 4 n ⊆ freeSet (bareFs n).freeMap.isSet (min n (4 * n)) := by
    intro i hi
    obtain ⟨h4, hlt⟩ := Finset.mem_Ico.mp hi
    exact mem_freeSet.mpr ⟨by omega, (isSet_bareFs i).trans (decide_eq_false (by omega))⟩
  have hcard := Finset.card_le_card hsub
  rw [Nat.card_Ico] at hcard
  exact hcard

/-- No block takes more than three sectors. -/
theorem treeCost_le (m n : Nat) : treeCost m n ≤ 3 * (n - m) := by
  have h : ∀ k ∈ Finset.Ico m n, blockCost k ≤ 3 := by
    intro k _
    unfold blockCost
    split_ifs <;> omega
  have hsum : treeCost m n ≤ (Finset.Ico m n).card * 3 := Finset.sum_le_card_nsmul _ _ 3 h
  rw [Nat.card_Ico] at hsum
  omega

end

section

variable {fs : Fs SectorStore} {U : Nat → Path → Prop} {sector L : Nat}

/-- With enough free sectors, a creation succeeds. -/
theorem inodeCreate_succeeds (depth : Nat) (hL : L < 2 ^ 31) (hs : Sound fs U fs.image.disk)
    (hp : Plantable fs U fs.image.disk sector) (hq : Quiet fs)
    (hroom : treeCost 0 (treeBlocks L) ≤ fs.image.disk.room fs.store.size) :
    Returns (inodeCreate (freeMapAllocate (depth + 1)) sector L) fs (fun b fs' => b = true ∧
      ∃ im', fs' = fs.withImage im' ∧ Creates fs U sector L fs.image true im') := by
  have hdoes := inodeCreate_does depth L hL hs hp
  refine (hdoes.returns ⟨hq.locks, hq.unlocked, .inl hroom⟩).mono ?_
  rintro b fs' ⟨im', rfl, hc⟩
  cases b with
  | true => exact ⟨rfl, im', rfl, hc⟩
  | false =>
    -- a failed attempt would have used up all free sectors
    obtain ⟨im₀, hatt, -, hno⟩ := hc
    obtain ⟨l, -, rfl⟩ := hno rfl
    have hlt := hatt.room_lt
    exact absurd hlt (Nat.not_lt.mpr hroom)

/-- **Bulk allocation agrees with lookup.** -/
theorem inodeCreate_lookup (depth : Nat) (hL : L ≤ 11040768) (hs : Sound fs U fs.image.disk)
    (hp : Plantable fs U fs.image.disk sector) (hq : Quiet fs)
    (hroom : treeCost 0 (treeBlocks L) ≤ fs.image.disk.room fs.store.size) :
    Returns (inodeCreate (freeMapAllocate (depth + 1)) sector L) fs (fun b fs' => b = true ∧
      ∃ sectorOf : Nat → Nat,
        (∀ pos, pos < L → MapsTo fs'.store sector pos (sectorOf pos) ∧
          fs.freeMap.isSet (sectorOf pos) = false ∧ fs'.freeMap.isSet (sectorOf pos) = true ∧
          ¬ fs'.image.disk.IsIndex sector (sectorOf pos)) ∧
        ∀ pos pos', pos < L → pos' < L →
          (sectorOf pos = sectorOf pos' ↔ pos / 512 = pos' / 512)) := by
  have hL' : L < 2 ^ 31 := by omega
  have hr := hp.mapRoot_ne hs
  have hs₀ : Sound fs (With U sector (InTree 0)) (fs.image.plant sector L).disk := hp.sound hs
  refine (inodeCreate_succeeds depth hL' hs hp hq hroom).mono ?_
  rintro b _ ⟨rfl, im', rfl, hc⟩
  have hfile := hc.isFile hs hp hL'
  obtain ⟨im₀, hatt, hplant, -⟩ := hc
  obtain rfl := hplant rfl
  obtain ⟨hg, hlock⟩ := hatt.grown
  have hs' := hg.sound hs₀ hr
  have hb' := hg.blank hs₀ hr Plantable.blank
  have hfree : ∀ t, im'.lock t = free := fun t => by rw [hlock]; exact hq.locks t
  have hblock : ∀ pos, pos < L →
      With U sector (InTree (treeBlocks L)) sector (dataPath (pos / 512)) := fun pos hpos =>
    hfile.block (by unfold maxBlocks; omega) hpos
  refine ⟨rfl, fun pos => im'.disk.node sector (dataPath (pos / 512)), fun pos hpos => ?_,
    fun pos pos' hpos hpos' => ?_⟩
  · have hu := hblock pos hpos
    have hnew : ¬ With U sector (InTree 0) sector (dataPath (pos / 512)) := by
      rw [with_at, inTree_dataPath_iff]
      omega
    exact ⟨hs'.mapsTo hfile.valid hu hfree rfl, (hg.fresh hs₀ hr hu hnew).2, hs'.used _ _ hu,
      hs'.not_isIndex hb' hu⟩
  · refine ⟨fun h => ?_, fun h => by simp only [h]⟩
    exact dataPath_injective (hs'.node_inj (hblock pos hpos) (hblock pos' hpos') h).2

/-- A file of `61` blocks, the last one below an index block. -/
theorem inodeCreate_lookup_bare :
    Returns (inodeCreate (freeMapAllocate 1) 3 (31232 : Nat)) (bareFs 200) (fun b fs' => b = true ∧
      ∃ sectorOf : Nat → Nat,
        (∀ pos : Nat, pos < 31232 → MapsTo fs'.store 3 pos (sectorOf pos) ∧
          (bareFs 200).freeMap.isSet (sectorOf pos) = false ∧
          fs'.freeMap.isSet (sectorOf pos) = true ∧
          ¬ fs'.image.disk.IsIndex 3 (sectorOf pos)) ∧
        ∀ pos pos' : Nat, pos < 31232 → pos' < 31232 →
          (sectorOf pos = sectorOf pos' ↔ pos / 512 = pos' / 512)) := by
  have hs : Sound (bareFs 200) (fun _ _ => False) (bareFs 200).image.disk := sound_bareFs (by omega)
  refine inodeCreate_lookup (L := 31232) 0 (by omega) hs (plantable_bareFs (by omega))
    quiet_bareFs ?_
  calc treeCost 0 (treeBlocks 31232) ≤ 3 * (treeBlocks 31232 - 0) := treeCost_le _ _
    _ ≤ 200 - 4 := by decide
    _ ≤ (bareFs 200).image.disk.room 200 := room_bareFs (by omega)

end

/-! ### The free map's own inode

While `inode_extend` holds the inode of the free map's file, an allocation cannot save the map. -/

/-- The free map's file is open, and its inode is at sector `r`. -/
def MapOpen (fs : Fs SectorStore) (r : Nat) : Prop :=
  ∃ a inode, fs.mapInode = some (a, inode) ∧ inode.sector = r ∧ inode.denyWriteCnt = 0

variable {U : Nat → Path → Prop}

theorem Sound.mapOpen {fs : Fs SectorStore} {d : Disk} {r : Nat} (h : Sound fs U d)
    (hr : fs.mapRoot = some r) : MapOpen fs r := by
  obtain ⟨a, inode, hmi, hsec, hdeny, -, -⟩ := h.mapFile_of_root hr
  exact ⟨a, inode, hmi, hsec, hdeny⟩

/-- The free map's inode is write-locked. -/
def MapStuck (fs : Fs SectorStore) (im : Image) : Prop :=
  ∃ a inode, fs.mapInode = some (a, inode) ∧ inode.denyWriteCnt = 0 ∧
    im.lock inode.sector = writing

namespace Fs

open BlockStore

variable {fs : Fs SectorStore} {im : Image} {t i : Nat} {alloc : Exec (Fs SectorStore) (Option Nat)}

theorem readBegin_writing (l : RwLock) : writing.readBegin ≠ .ok l := by
  intro h
  cases h

/-- Entering another section leaves the free map's inode locked. -/
theorem mapStuck_enter {l l' : RwLock} (h : MapStuck fs im)
    (hl : (im.lock t).readBegin = .ok l') : MapStuck fs (im.enter t l) := by
  obtain ⟨a, inode, hmi, hdeny, hlock⟩ := h
  refine ⟨a, inode, hmi, hdeny, ?_⟩
  have hne : inode.sector ≠ t := by
    rintro rfl
    rw [hlock] at hl
    exact readBegin_writing _ hl
  rw [Image.enter_lock, Function.update_of_ne hne, hlock]

/-- A write to the file waits for the length. -/
theorem bitmapWrite_stuck (h : MapStuck fs im) :
    Does (bitmapWrite alloc fs.freeMapFile) fs im False (fun _ _ => False) := by
  obtain ⟨a, inode, hmi, hdeny, hlock⟩ := h
  obtain ⟨f, file, hf, hfiles, rfl, ha⟩ := mapInode_eq_some hmi
  have hget : (getFile f).run (fs.withImage im) = .ok (file, fs.withImage im) := by
    rw [getFile, read_bind, show (fs.withImage im).files f = some file from hfiles]
    rfl
  have hlength : Does (inodeLength file.inode) fs im False (fun _ _ => False) := by
    unfold inodeLength
    refine does_getInode ha (does_readBlock False.elim (fun l _ hl => ?_))
    rw [hlock] at hl
    exact absurd hl (readBegin_writing l)
  have hwrite : ∀ buffer size offset,
      Does (inodeWriteAt alloc file.inode buffer size offset) fs im False (fun _ _ => False) := by
    intro buffer size offset
    unfold inodeWriteAt
    apply does_getInode ha
    rw [if_neg (not_not.mpr hdeny)]
    have hroom : Does (makeRoom alloc file.inode (wrap (size + offset))) fs im False
        (fun _ _ => False) := by
      unfold makeRoom
      exact hlength.bind (fun _ _ h => h.elim) id
    exact hroom.bind (fun _ _ h => h.elim) id
  rw [hf]
  unfold bitmapWrite
  refine does_step rfl (does_step hget ?_)
  exact (hwrite _ _ _).bind (fun _ _ h => h.elim) id

/-- The disk is the same, and the free map's inode is still write-locked. -/
def StillStuck (fs : Fs SectorStore) (im im' : Image) : Prop :=
  im'.disk = im.disk ∧ MapStuck fs im'

section Stuck

variable (depth : Nat) (h : MapStuck fs im) (hfits : im.disk.map.Fits)
include h hfits

/-- No allocation is granted. -/
theorem freeMapAllocate_stuck :
    Does (freeMapAllocate (depth + 1)) fs im False (fun o im' => o = none ∧ im' = im) := by
  have hscan := Bitmap.bitmapScanAndFlip_one hfits
  rw [freeMapAllocate]
  cases hfree : firstFree im.disk.map.isSet im.disk.map.bitCnt with
  | none => exact (meets_ok (allocateSector_full hfits hfree)).mpr ⟨im, rfl, rfl, rfl⟩
  | some s =>
    rw [hfree] at hscan
    have hne := Bitmap.ne_bitmapError hfits (firstFree_eq_some.mp hfree).1
    have hrun : (onFreeMap (Bitmap.bitmapScanAndFlip 0 1 false)).run (fs.withImage im)
        = .ok (s, fs.withImage (im.setMap (im.disk.map.mark s))) := zoom_ok hscan
    have hfile : fs.freeMapFile ≠ none := by
      obtain ⟨a, inode, hmi, -⟩ := h
      obtain ⟨f, _, hf, -⟩ := mapInode_eq_some hmi
      rw [hf]
      simp
    have hsave : Does (saveFreeMap (freeMapAllocate depth) s) fs (im.setMap (im.disk.map.mark s))
        False (fun _ _ => False) := by
      unfold saveFreeMap
      refine does_step rfl ?_
      rw [if_pos ⟨hne, hfile⟩]
      have hstuck : MapStuck fs (im.setMap (im.disk.map.mark s)) := h
      exact (bitmapWrite_stuck hstuck).bind (fun _ _ h => h.elim) id
    unfold allocateSector
    exact does_step hrun (hsave.bind (fun _ _ h => h.elim) id)

theorem growDirect_stuck :
    Does (growDirect (freeMapAllocate (depth + 1)) ⟨t, i⟩) fs im False
      (fun b im' => b = false ∧ im' = im) := by
  unfold growDirect
  refine does_load (does_assert False.elim (fun _ => ?_))
  unfold allocateCleared
  refine (freeMapAllocate_stuck depth h hfits).bind ?_ id
  rintro o im' ⟨rfl, rfl⟩
  exact does_pure ⟨rfl, rfl⟩

/-- The first step of the index functions. -/
theorem growFirst_stuck (index : Nat) :
    Does (growFirst (freeMapAllocate (depth + 1)) ⟨t, i⟩ index) fs im False
      (fun _ im' => im' = im) := by
  unfold growFirst
  by_cases h0 : index = 0
  · rw [if_pos h0]
    exact (growDirect_stuck depth h hfits).mono (fun _ _ h => h.2) id
  · rw [if_neg h0]
    exact does_pure rfl

theorem growIndirect_stuck (index : Nat) :
    Does (growIndirect (freeMapAllocate (depth + 1)) ⟨t, i⟩ index) fs im False
      (fun b im' => b = false ∧ StillStuck fs im im') := by
  unfold growIndirect
  refine (growFirst_stuck depth h hfits index).bind ?_ id
  rintro b im' rfl
  cases b with
  | false => exact does_pure ⟨rfl, rfl, h⟩
  | true =>
    refine does_load (does_writeBlock False.elim (fun l l' _ hl _ => ?_))
    refine does_assert False.elim (fun _ => ?_)
    refine (growDirect_stuck depth (mapStuck_enter h hl) hfits).bind ?_ id
    rintro b _ ⟨rfl, rfl⟩
    exact does_pure ⟨rfl, rfl, mapStuck_enter h hl⟩

theorem growDoubleIndirect_stuck (index1 index2 : Nat) :
    Does (growDoubleIndirect (freeMapAllocate (depth + 1)) ⟨t, i⟩ index1 index2) fs im False
      (fun b im' => b = false ∧ StillStuck fs im im') := by
  unfold growDoubleIndirect
  refine (growFirst_stuck depth h hfits index1).bind ?_ id
  rintro b im' rfl
  cases b with
  | false => exact does_pure ⟨rfl, rfl, h⟩
  | true =>
    refine does_load (does_writeBlock False.elim (fun l l' _ hl _ => ?_))
    refine does_assert False.elim (fun _ => ?_)
    refine (growIndirect_stuck depth (mapStuck_enter h hl) hfits index2).bind ?_ id
    rintro b _ ⟨rfl, hstill⟩
    exact does_pure ⟨rfl, hstill⟩

theorem growBlock_stuck (r k : Nat) :
    Does (growBlock (freeMapAllocate (depth + 1)) r k) fs im False
      (fun b im' => b = false ∧ StillStuck fs im im') := by
  unfold growBlock
  dsimp only
  split_ifs
  · refine (growDirect_stuck depth h hfits).mono ?_ id
    rintro b im' ⟨hb, rfl⟩
    exact ⟨hb, rfl, h⟩
  · exact growIndirect_stuck depth h hfits _
  · exact growDoubleIndirect_stuck depth h hfits _ _

end Stuck

/-- The free map's own file is never extended. -/
theorem inodeExtend_stuck {a num : Nat} {inode : Inode} (depth : Nat)
    (ha : fs.inodes a = some inode) (hmap : MapOpen fs inode.sector) (hfits : im.disk.map.Fits)
    (hlock : im.lock inode.sector = free) :
    Does (inodeExtend (freeMapAllocate (depth + 1)) a (num + 1)) fs im False
      (fun b im' => b = false ∧ im'.disk = im.disk ∧
        im'.lock inode.sector = free) := by
  obtain ⟨a', inode', hmi, hsec, hdeny⟩ := hmap
  unfold inodeExtend
  refine does_getInode ha (does_writeBlock False.elim (fun l l' _ hl hl' => ?_))
  have hwriting : l = writing := by
    rw [hlock] at hl
    cases hl
    cases hl'
    rfl
  have hstuck : MapStuck fs (im.enter inode.sector l) := by
    refine ⟨a', inode', hmi, hdeny, ?_⟩
    rw [hsec, Image.enter_lock, Function.update_self, hwriting]
  refine does_dataOf (does_assert False.elim (fun _ => ?_))
  have hloop : ∀ numBlocks, Does (extendLoop (freeMapAllocate (depth + 1)) inode.sector (num + 1)
      numBlocks) fs (im.enter inode.sector l) False
      (fun b im' => b = false ∧ StillStuck fs (im.enter inode.sector l) im') := by
    intro numBlocks
    rw [extendLoop]
    refine (growBlock_stuck depth hstuck hfits _ _).bind ?_ id
    rintro b _ ⟨rfl, hstill⟩
    exact does_pure ⟨rfl, hstill⟩
  dsimp only
  generalize toUnsigned _ = numBlocks
  refine (hloop numBlocks).bind ?_ id
  rintro b im' ⟨rfl, hdisk, a₂, inode₂, hmi₂, -, hlock₂⟩
  rw [hmi, Option.some.injEq, Prod.mk.injEq] at hmi₂
  rw [← hmi₂.2, hsec] at hlock₂
  refine does_writeEnd (does_pure ⟨rfl, hdisk, ?_⟩)
  show Function.update im'.lock inode.sector (im'.lock inode.sector).writeEnd inode.sector = _
  rw [Function.update_self, hlock₂]
  rfl

end Fs

/-! ### A longer file -/

/-- The inode at sector `r`, open at address `a`, has grown from `m` to `m + n` blocks: the call
    returned `true`, the old blocks have their sectors, the new blocks are sectors of their own
    that were free and are empty, and the tree has the shape of a new file of that length. -/
structure Extended (depth : Nat) (fs : Fs SectorStore) (a r m n : Nat) (fs' : Fs SectorStore) :
    Prop where
  run : (inodeExtend (freeMapAllocate (depth + 1)) a n).run fs = .ok (true, fs')
  old : ∀ k s, k < m → MapsTo fs.store r (512 * k : Nat) s → MapsTo fs'.store r (512 * k : Nat) s
  new : ∀ k, m ≤ k → k < m + n → ∃ s, MapsTo fs'.store r (512 * k : Nat) s ∧
    fs.freeMap.isSet s = false ∧ fs'.freeMap.isSet s = true ∧ fs'.store.data s = Bytes.zero
  distinct : ∀ k k' s, k < m + n → k' < m + n → MapsTo fs'.store r (512 * k : Nat) s →
    MapsTo fs'.store r (512 * k' : Nat) s → k = k'
  shape : ∀ (g g' : Fs SectorStore) (V : Nat → Path → Prop) (r' L' : Nat),
    Sound g V g.image.disk → Plantable g V g.image.disk r' → (L' + 511) / 512 = m + n →
    (inodeCreate (freeMapAllocate (depth + 1)) r' L').run g = .ok (true, g') →
    ∀ p, InTree maxBlocks p → (fs'.image.disk.Linked r p ↔ g'.image.disk.Linked r' p)

section

variable {fs : Fs SectorStore} {a L n depth : Nat} {inode : Inode}

/-- The shape of a created file. -/
theorem linked_of_create {g g' : Fs SectorStore} {V : Nat → Path → Prop} {r : Nat} {p : Path}
    (hs : Sound g V g.image.disk) (hp : Plantable g V g.image.disk r) (hL : L < 2 ^ 31)
    (hrun : (inodeCreate (freeMapAllocate (depth + 1)) r L).run g = .ok (true, g'))
    (hin : InTree maxBlocks p) : g'.image.disk.Linked r p ↔ InTree (treeBlocks L) p := by
  have hr := hp.mapRoot_ne hs
  have hs₀ : Sound g (With V r (InTree 0)) (g.image.plant r L).disk := hp.sound hs
  obtain ⟨im', rfl, hc⟩ := (inodeCreate_does depth L hL hs hp).ensures _ _ hrun
  obtain ⟨im₀, hatt, hplant, -⟩ := hc
  obtain rfl := hplant rfl
  obtain ⟨hg, -⟩ := hatt.grown
  have hs' := hg.sound hs₀ hr
  have hb' := hg.blank hs₀ hr Plantable.blank
  exact (hs'.linked_iff hb' (with_at.mpr (inTree_nil _)) hin).trans with_at

/-- An extension, from what it does to the disk. -/
theorem extended_of_image {r m : Nat} (hs : Sound fs U fs.image.disk)
    (htree : ∀ p, U r p ↔ InTree m p) (hv : isValidInode (fs.image.disk.data r)) (hq : Quiet fs)
    (hmax : m + n ≤ 21564)
    (hrun : (inodeExtend (freeMapAllocate (depth + 1)) a n).run fs = .ok (true, fs.withImage im'))
    (hs' : Sound fs (With U r (InTree (m + n))) im'.disk)
    (hb' : Blank (With U r (InTree (m + n))) r im'.disk) (hv' : isValidInode (im'.disk.data r))
    (hlock : im'.lock = fs.image.lock)
    (hold : ∀ k, k < m → im'.disk.node r (dataPath k) = fs.image.disk.node r (dataPath k))
    (hnew : ∀ k, m ≤ k → k < m + n → fs.freeMap.isSet (im'.disk.node r (dataPath k)) = false ∧
      im'.disk.data (im'.disk.node r (dataPath k)) = Bytes.zero) :
    Extended depth fs a r m n (fs.withImage im') := by
  have hfree : ∀ t, im'.lock t = free := fun t => by rw [hlock]; exact hq.locks t
  have hblock : ∀ k, k < m + n → With U r (InTree (m + n)) r (dataPath k) := fun k hk =>
    with_at.mpr (inTree_dataPath hk)
  have hdiv : ∀ k, 512 * k / 512 = k := fun k => by omega
  have hmaps : ∀ k, k < m + n →
      MapsTo (fs.withImage im').store r (512 * k : Nat) (im'.disk.node r (dataPath k)) :=
    fun k hk => hs'.mapsTo hv' (hblock k hk) hfree (hdiv k)
  refine ⟨hrun, fun k s hk hmap => ?_, fun k h1 h2 => ?_, fun k k' s hk hk' hmap hmap' => ?_, ?_⟩
  · have hmap' := hs.mapsTo hv ((htree _).mpr (inTree_dataPath hk)) hq.locks (hdiv k)
    rw [hmap.unique hmap', ← hold k hk]
    exact hmaps k (by omega)
  · obtain ⟨hfresh, hzero⟩ := hnew k h1 h2
    exact ⟨_, hmaps k h2, hfresh, hs'.used _ _ (hblock k h2), hzero⟩
  · have he := (hmaps k hk).unique hmap
    rw [← (hmaps k' hk').unique hmap'] at he
    exact dataPath_injective (hs'.node_inj (hblock k hk) (hblock k' hk') he).2
  · intro g g' V r' L' hg hp hL' hcreate p hin
    have htotal : treeBlocks L' = m + n := by
      unfold treeBlocks maxBlocks
      omega
    rw [linked_of_create hg hp (by omega) hcreate hin, htotal]
    exact (hs'.linked_iff hb' (with_at.mpr (inTree_nil _)) hin).trans with_at

/-- **Block-index growth.**  An extension within the capacity works unless it is one of the free
    map's own file, or has to add a block behind the first one below the double indirect block
    inside the first index block there. -/
theorem extended_iff (ha : fs.inodes a = some inode) (hs : Sound fs U fs.image.disk)
    (hf : IsFile U fs.image.disk inode.sector L) (hb : Blank U inode.sector fs.image.disk)
    (hq : Quiet fs) (hmax : (L + 511) / 512 + n ≤ 21564)
    (hroom : treeCost ((L + 511) / 512) ((L + 511) / 512 + n) ≤ fs.image.disk.room fs.store.size) :
    (∃ fs', Extended depth fs a inode.sector ((L + 511) / 512) n fs') ↔
      n = 0 ∨ (fs.mapRoot ≠ some inode.sector ∧
        ((L + 511) / 512 + n ≤ 5181 ∨ 5308 ≤ (L + 511) / 512)) := by
  obtain ⟨m, hm⟩ : ∃ m, m = (L + 511) / 512 := ⟨_, rfl⟩
  have hblocks : treeBlocks L = m := by
    unfold treeBlocks maxBlocks
    omega
  have hL : L ≤ 512 * maxBlocks := by
    unfold maxBlocks
    omega
  have htree : ∀ p, U inode.sector p ↔ InTree m p := fun p => by rw [← hblocks]; exact hf.tree p
  rw [← hm] at hmax hroom ⊢
  have hextend : fs.mapRoot ≠ some inode.sector →
      Fs.Does (inodeExtend (freeMapAllocate (depth + 1)) a n) fs fs.image _ _ :=
    fun hr => inodeExtend_does depth ha hs hf hL hr
  rw [hblocks] at hextend
  constructor
  · rintro ⟨fs', hext⟩
    by_cases hn : n = 0
    · exact .inl hn
    · obtain ⟨num, rfl⟩ : ∃ num, n = num + 1 := ⟨n - 1, by omega⟩
      have hr : fs.mapRoot ≠ some inode.sector := by
        intro hr
        obtain ⟨_, -, hfalse, -⟩ :=
          (inodeExtend_stuck depth ha (hs.mapOpen hr) hs.fits (hq.locks _)).ensures _ _ hext.run
        cases hfalse
      obtain ⟨_, -, hsafe, -⟩ := (hextend hr).ensures _ _ hext.run
      refine .inr ⟨hr, ?_⟩
      by_contra hbad
      -- the first bad block is reached, since there is room for all of them
      have hgrow := hsafe (max m 5181) (by omega) (by omega) (by
        have hadd := treeCost_add (m := m) (k := max m 5181) (n := m + (num + 1)) (by omega)
          (by omega)
        exact le_trans (by omega) hroom)
      unfold Growable at hgrow
      omega
  · rintro (rfl | ⟨hr, hgood⟩)
    · -- nothing to add, which works for the free map's file as well
      have hwith : With U inode.sector (InTree (m + 0)) = U := with_self htree
      have hzero : Fs.Does (inodeExtend (freeMapAllocate (depth + 1)) a 0) fs fs.image _ _ :=
        inodeExtend_zero ha
      obtain ⟨b, fs', hrun, im', rfl, rfl, him'⟩ :=
        hzero.returns ⟨hs.inside _ _ hf.root, hq.locks _, hf.valid⟩
      subst him'
      exact ⟨_, extended_of_image hs htree hf.valid hq hmax hrun (by rw [hwith]; exact hs)
        (by rw [hwith]; exact hb) hf.valid rfl (fun _ _ => rfl) (fun k h1 h2 => by omega)⟩
    · have hsafe : Fs.GrowSafe m n (fs.image.disk.room fs.store.size) := by
        intro k h1 h2 _
        unfold Growable maxBlocks
        omega
      have hok : GrowOk fs U inode.sector [] [] (treeCost m (m + n)) fs.image :=
        ⟨fun t _ => hq.locks t, by simp, hq.unlocked, .inl hroom, hb⟩
      obtain ⟨b, fs', hrun, im', rfl, -, hatt⟩ := (hextend hr).returns ⟨hsafe, hok⟩
      cases b with
      | false => exact absurd hatt.room_lt (Nat.not_lt.mpr hroom)
      | true =>
        obtain ⟨hg, hlock⟩ := hatt.grown
        have hold : ∀ k, k < m → U inode.sector (dataPath k) := fun k hk =>
          (htree _).mpr (inTree_dataPath hk)
        refine ⟨_, extended_of_image hs htree hf.valid hq hmax hrun (hg.sound hs hr)
          (hg.blank hs hr hb) ?_ hlock (fun k hk => hg.node_eq hs hr (hold k hk)) ?_⟩
        · show im'.disk.word inode.sector magicWord = _
          rw [hg.root_word hs hr hf.root (by decide)]
          exact hf.valid
        · intro k h1 h2
          have hv : With U inode.sector (InTree (m + n)) inode.sector (dataPath k) :=
            with_at.mpr (inTree_dataPath h2)
          have hu : ¬ U inode.sector (dataPath k) := by
            rw [htree, inTree_dataPath_iff]
            omega
          exact ⟨(hg.fresh hs hr hv hu).2, hg.new_empty hs hr hv hu⟩

end

/-- The state after `inode_open` of an inode that was not open. -/
def openInode (fs : Fs SectorStore) (r : Nat) : Fs SectorStore :=
  { fs with
    brk := fs.brk + 1
    openInodes := fs.brk :: fs.openInodes
    inodes := Function.update fs.inodes fs.brk (some ⟨r, 1, false, 0, none⟩) }

/-- A device of `n` sectors with an empty file at sector `3`, open at address `0`. -/
def emptyFile (n : Nat) : Fs SectorStore :=
  openInode ((bareFs n).withImage ((bareFs n).image.plant 3 0)) 3

section

variable {n : Nat}

theorem inodes_emptyFile : (emptyFile n).inodes 0 = some ⟨3, 1, false, 0, none⟩ := rfl

theorem sound_emptyFile (h : 3 < n) (hn : 4 * n + 31 < 2 ^ 32) :
    Sound (emptyFile n) (With (fun _ _ => False) 3 (InTree 0)) (emptyFile n).image.disk :=
  ((plantable_bareFs h).sound (sound_bareFs hn)).of_state rfl (fun hf => absurd rfl hf)

theorem isFile_emptyFile :
    IsFile (With (fun _ _ => False) 3 (InTree 0)) (emptyFile n).image.disk 3 0 := by
  have hdata : (emptyFile n).image.disk.data 3 = newInodeSector 0 := Disk.plant_root _ _ _
  refine ⟨?_, ?_, by omega, fun p => with_at⟩
  · rw [isValidInode, hdata]
    exact magic_newInodeSector 0
  · rw [Disk.word, hdata]
    exact length_newInodeSector (by omega)

theorem blank_emptyFile :
    Blank (With (fun _ _ => False) 3 (InTree 0)) 3 (emptyFile n).image.disk := Plantable.blank

theorem quiet_emptyFile : Quiet (emptyFile n) where
  locks _ := rfl
  unlocked _ _ h := by cases h

end

/-- An empty file grows by `61` blocks. -/
theorem extended_iff_empty : ∃ fs', Extended 0 (emptyFile 200) 0 3 0 61 fs' := by
  refine (extended_iff (L := 0) (n := 61) inodes_emptyFile (sound_emptyFile (by omega) (by omega))
    isFile_emptyFile blank_emptyFile quiet_emptyFile (by omega) ?_).mpr ?_
  · calc treeCost 0 61 ≤ 3 * (61 - 0) := treeCost_le _ _
      _ ≤ 200 - 4 := by omega
      _ ≤ (bareFs 200).image.disk.room 200 := room_bareFs (by omega)
  · refine .inr ⟨fun h => ?_, by omega⟩
    cases h

namespace Fs

open BlockStore

variable {fs : Fs SectorStore} {im : Image} {a r t i : Nat} {inode : Inode}
  {alloc : Exec (Fs SectorStore) (Option Nat)}

/-- The assertion of `grow_direct`. -/
theorem growDirect_panics (h : im.disk.word t i ≠ 0) :
    (growDirect alloc ⟨t, i⟩).run (fs.withImage im) = .error (.panic "*sector == 0") := by
  have hload : (load ⟨t, i⟩).run (fs.withImage im) = .ok (im.disk.word t i, fs.withImage im) := rfl
  rw [growDirect, bind_ok hload]
  exact bind_error (assert_neg h _ _)

/-- A block in the first index block below the double indirect block, but not the first one. -/
theorem growBlock_panics {k : Nat} (h : 5180 ≤ k) (h' : k < 5308)
    (hword : im.disk.word r doubleIndirect ≠ 0) :
    (growBlock alloc r k).run (fs.withImage im) = .error (.panic "*sector == 0") := by
  have h1 : ¬ k < numDirect := by
    unfold numDirect
    omega
  have h2 : ¬ (k - numDirect) / entriesPerSector < numSingleIndirect := by
    simp only [numDirect, entriesPerSector, numSingleIndirect]
    omega
  have h3 : (k - numDirect) / entriesPerSector - numSingleIndirect = 0 := by
    simp only [numDirect, entriesPerSector, numSingleIndirect]
    omega
  unfold growBlock
  simp only [if_neg h1, if_neg h2, h3]
  exact bind_error (growDirect_panics hword)

/-- `cache_write_block` of a sector that nobody uses. -/
theorem cacheWriteBlock_run (ht : t < fs.store.size) (hl : im.lock t = free) :
    (onStore (cacheWriteBlock t)).run (fs.withImage im)
      = .ok (t, fs.withImage (im.enter t writing)) := by
  have hdoes : Does (onStore (cacheWriteBlock t) >>= pure) fs im True
      (fun s im' => s = t ∧ im' = im.enter t writing) := by
    refine does_writeBlock (fun _ => ⟨ht, hl⟩) (fun l l' _ h h' => does_pure ⟨rfl, ?_⟩)
    rw [hl] at h
    cases h
    cases h'
    rfl
  obtain ⟨s, fs', hrun, im', rfl, rfl, rfl⟩ := hdoes.returns trivial
  rwa [bind_pure] at hrun

/-- No open inode is at sector `r`. -/
def NotOpen (fs : Fs SectorStore) (r : Nat) : Prop :=
  ∀ a ∈ fs.openInodes, ∃ inode, fs.inodes a = some inode ∧ inode.sector ≠ r

theorem findOpen_none {l : List Nat}
    (h : ∀ a ∈ l, ∃ inode, fs.inodes a = some inode ∧ inode.sector ≠ r) :
    (findOpen r l).run fs = .ok (none, fs) := by
  induction l with
  | nil => rfl
  | cons a as ih =>
    obtain ⟨⟨inode, ha, hne⟩, hrest⟩ := List.forall_mem_cons.mp h
    rw [findOpen, bind_ok (getInode_run ha), if_neg hne]
    exact ih hrest

/-- `inode_open` of an inode that is not open. -/
theorem inodeOpen_new (h : NotOpen fs r) (hmem : fs.malloc fs.brk = true) :
    (inodeOpen r).run fs = .ok (some fs.brk, openInode fs r) := by
  have halloc : (allocate : Exec (Fs SectorStore) _).run fs
      = .ok (some fs.brk, { fs with brk := fs.brk + 1 }) := by
    rw [allocate, read_bind, update_bind, if_pos (show (id fs).malloc (id fs).brk = true from hmem)]
    rfl
  rw [inodeOpen, read_bind, bind_ok (findOpen_none h)]
  show (newInode r).run fs = _
  rw [newInode, bind_ok halloc]
  rfl

/-- `inode_extend` reaches the assertion with its first block. -/
theorem inodeExtend_panics {L num : Nat} (ha : fs.inodes a = some inode)
    (hs : Sound fs U im.disk) (hf : IsFile U im.disk inode.sector L)
    (hlock : im.lock inode.sector = free) (h : 5181 ≤ (L + 511) / 512)
    (h' : (L + 511) / 512 < 5308) (hpos : 0 < num) :
    (inodeExtend alloc a num).run (fs.withImage im) = .error (.panic "*sector == 0") := by
  obtain ⟨num, rfl⟩ : ∃ n, num = n + 1 := ⟨num - 1, by omega⟩
  have hdouble : U inode.sector [100] := by
    rw [hf.tree, inTree_double]
    unfold treeBlocks maxBlocks
    omega
  have hword : im.disk.word inode.sector doubleIndirect ≠ 0 := by
    have hpos := hs.inner _ _ hdouble (by simp)
    rw [Disk.node_cons, Disk.node_nil] at hpos
    exact Nat.ne_of_gt (Nat.lt_of_lt_of_le (by omega) hpos)
  have hnum : (toUnsigned (ceil (diskLength (im.disk.data inode.sector)) 512 - 1) + 1) % 2 ^ 32
      = (L + 511) / 512 := by
    rw [hf.diskLength, ceil_natCast]
    unfold toUnsigned
    omega
  have hget := getInode_run (show (fs.withImage im).inodes a = some inode from ha)
  have hin : inode.sector < fs.store.size := hs.inside _ _ hf.root
  have hdata : (dataOf inode.sector).run (fs.withImage (im.enter inode.sector writing))
      = .ok (im.disk.data inode.sector, fs.withImage (im.enter inode.sector writing)) := rfl
  have hloop : ∀ numBlocks, (numBlocks + 1) % 2 ^ 32 = (L + 511) / 512 →
      (extendLoop alloc inode.sector (num + 1) numBlocks).run
        (fs.withImage (im.enter inode.sector writing)) = .error (.panic "*sector == 0") := by
    intro numBlocks hblocks
    rw [extendLoop, hblocks]
    exact bind_error (growBlock_panics (by omega) h' hword)
  rw [inodeExtend, bind_ok hget, bind_ok (cacheWriteBlock_run hin hlock), bind_ok hdata,
    bind_ok (assert_pos hf.valid _ _)]
  exact bind_error (hloop _ hnum)

end Fs

/-- A file of `5181` blocks, made by `inode_create`, cannot be extended. -/
theorem extend_panics :
    ∃ fs₁ fs₂ : Fs SectorStore, ∃ U,
      (inodeCreate (freeMapAllocate 1) 3 (2652672 : Nat)).run (bareFs 20000) = .ok (true, fs₁) ∧
      (inodeOpen 3).run fs₁ = .ok (some 0, fs₂) ∧ Sound fs₂ U fs₂.image.disk ∧
      IsFile U fs₂.image.disk 3 2652672 ∧ Blank U 3 fs₂.image.disk ∧ Quiet fs₂ ∧
      treeCost 5181 5182 ≤ fs₂.image.disk.room fs₂.store.size ∧
      (inodeExtend (freeMapAllocate 1) 0 1).run fs₂ = .error (.panic "*sector == 0") := by
  obtain ⟨g, hg⟩ : ∃ g, g = bareFs 20000 := ⟨_, rfl⟩
  have hs : Sound g (fun _ _ => False) g.image.disk := by rw [hg]; exact sound_bareFs (by omega)
  have hp : Plantable g (fun _ _ => False) g.image.disk 3 := by
    rw [hg]
    exact plantable_bareFs (by omega)
  have hq : Quiet g := by rw [hg]; exact quiet_bareFs
  have hroom : 19996 ≤ g.image.disk.room g.store.size := by
    rw [hg]
    exact room_bareFs (n := 20000) (by omega)
  have hblocks : treeBlocks 2652672 = 5181 := by decide
  have hcost := treeCost_le 0 5181
  obtain ⟨b, fs₁, hrun, rfl, im', rfl, hc⟩ := inodeCreate_succeeds (L := 2652672) 0 (by omega) hs hp
    hq (by rw [hblocks]; omega)
  have hfile := hc.isFile hs hp (by omega)
  have hr := hp.mapRoot_ne hs
  have hs₀ : Sound g _ (g.image.plant 3 2652672).disk := hp.sound hs
  obtain ⟨im₀, hatt, hplant, -⟩ := hc
  obtain rfl := hplant rfl
  obtain ⟨hgrown, hlock⟩ := hatt.grown
  have hmapFile : g.freeMapFile = none := by rw [hg]; rfl
  have hs₂ : Sound (openInode (g.withImage im') 3) _ im'.disk :=
    (hgrown.sound hs₀ hr).of_state rfl (fun h => absurd hmapFile h)
  have hbrk : g.brk = 0 := by rw [hg]; rfl
  have hfree : ∀ t, im'.lock t = free := fun t => by rw [hlock]; exact hq.locks t
  rw [← hg]
  refine ⟨_, openInode (g.withImage im') 3, _, hrun, ?_, hs₂, hfile,
    hgrown.blank hs₀ hr Plantable.blank, ⟨hfree, fun a inode h => ?_⟩, ?_, ?_⟩
  · rw [← hbrk]
    exact inodeOpen_new (by rw [hg]; nofun) (by rw [hg]; rfl)
  · unfold mapInode at h
    rw [show (openInode (g.withImage im') 3).freeMapFile = none from hmapFile] at h
    cases h
  · have heq := hgrown.room_eq
    have hsmall := treeCost_le 5181 5182
    have hplanted : (g.image.plant 3 2652672).disk.room g.store.size
      = g.image.disk.room g.store.size := rfl
    rw [hplanted, hblocks] at heq
    show treeCost 5181 5182 ≤ im'.disk.room g.store.size
    omega
  · have ha : (openInode (g.withImage im') 3).inodes 0 = some ⟨3, 1, false, 0, none⟩ := by
      rw [← hbrk]
      exact Function.update_self _ _ _
    have hself : (openInode (g.withImage im') 3).withImage im' = openInode (g.withImage im') 3 := rfl
    rw [← hself]
    exact inodeExtend_panics ha hs₂ hfile (hfree 3) (by omega) (by omega) Nat.one_pos

end KernelSanders

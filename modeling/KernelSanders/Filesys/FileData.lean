import KernelSanders.Filesys.Lookup

namespace KernelSanders

open Lib Lib.Exec
open List

/-!
# The loops of `inode_read_at` and `inode_write_at`

Both loops cut a range of the file into pieces that stay inside a block.  Their specifications
speak about the file as one array of bytes, `Disk.content`.

* `readLoop_does` — the bytes up to the end of the file; a read that wants more asks for one more
  block, the one at the position where it stopped, before it gives up;
* `writeLoop_does` — the bytes of the range, and nothing else on the disk.
-/

/-- Sector `t` belongs to the tree of the inode at sector `r`. -/
def Owns (U : Nat → Path → Prop) (d : Disk) (r t : Nat) : Prop := ∃ p, U r p ∧ t = d.node r p

/-- No sector of the tree locks readers out. -/
def TreeReadable (U : Nat → Path → Prop) (im : Image) (r : Nat) : Prop :=
  ∀ p, U r p → (im.lock (im.disk.node r p)).Readable

/-- No sector of the tree is locked. -/
def TreeFree (U : Nat → Path → Prop) (im : Image) (r : Nat) : Prop :=
  ∀ p, U r p → im.lock (im.disk.node r p) = RwLock.free

section

variable {fs : Fs SectorStore} {U : Nat → Path → Prop} {im : Image} {d : Disk} {r k t L : Nat}

theorem TreeFree.readable (h : TreeFree U im r) : TreeReadable U im r := fun p hp => by
  rw [h p hp]
  exact RwLock.readable_free

/-- The ancestors of a node in use are in use. -/
theorem Sound.suffix (h : Sound fs U d) {p q : Path} (hp : U r p) (hq : q <:+ p) : U r q := by
  induction p with
  | nil => rw [suffix_nil] at hq; rw [hq]; exact hp
  | cons i p ih =>
    rcases suffix_cons_iff.mp hq with rfl | hq
    · exact hp
    · exact ih (h.rooted r i p hp) hq

/-- The way to a block of the file stays in its tree. -/
theorem Sound.trail_owned (h : Sound fs U d) (hk : U r (dataPath k)) (ht : t ∈ d.trail r k) :
    Owns U d r t := by
  obtain ⟨q, hq, -, rfl⟩ := Disk.mem_trail.mp ht
  exact ⟨q, h.suffix hk hq, rfl⟩

theorem Sound.owned_inside (h : Sound fs U d) (ht : Owns U d r t) : t < fs.store.size := by
  obtain ⟨p, hp, rfl⟩ := ht
  exact h.inside r p hp

theorem TreeReadable.owned (h : TreeReadable U im r) (ht : Owns U im.disk r t) :
    (im.lock t).Readable := by
  obtain ⟨p, hp, rfl⟩ := ht
  exact h p hp

theorem IsFile.root (h : IsFile U d r L) : U r [] := (h.tree []).mpr (inTree_nil _)

theorem IsFile.owns_root (h : IsFile U d r L) : Owns U d r r := ⟨[], h.root, rfl⟩

/-- The block of a position inside the file is in its tree. -/
theorem IsFile.block {x : Nat} (h : IsFile U d r L) (hL : L ≤ 512 * maxBlocks) (hx : x < L) :
    U r (dataPath (x / 512)) := by
  rw [h.tree, inTree_dataPath_iff, treeBlocks]
  omega

end

namespace Fs

open BlockStore

-- the invariant may be one of another state with the same device
variable {fs g : Fs SectorStore} {U : Nat → Path → Prop} {im : Image} {a L o : Nat} {inode : Inode}

/-! ### Reading -/

private theorem ite_lt_eq_min (x y : Int) : (if x < y then x else y) = min x y := by
  rw [min_def]
  split_ifs <;> omega

variable {size : Int} {buffer : Nat → UInt8} {r done c : Nat} {ts : List Nat}

/-- One round of the read loop at position `o`. -/
theorem readChunk_does (ha : fs.inodes a = some inode) (hf : IsFile U im.disk inode.sector L)
    (ho : o < 2 ^ 31) :
    Does (readChunk a size o) fs im
      (o / 512 < maxBlocks ∧ (∀ t ∈ im.disk.trail inode.sector (o / 512),
        t < fs.store.size ∧ (im.lock t).Readable) ∧
        inode.sector < fs.store.size ∧ (im.lock inode.sector).Readable)
      (fun x im' => ∃ left : Int, left = min ((L : Int) - o) (512 - (o % 512 : Nat)) ∧
        x = (im.disk.node inode.sector (dataPath (o / 512)), ((o % 512 : Nat) : Int), min size left) ∧
        o / 512 < maxBlocks ∧
        im' = im.visit (inode.sector :: im.disk.trail inode.sector (o / 512))) := by
  have hk : toUnsigned ((o : Int).tdiv 512) = o / 512 := toUnsigned_tdiv (by omega)
  unfold readChunk
  refine (byteToSector_does ha hk).bind ?_ (fun hok => ⟨hf.valid, hok.1, hok.2.1⟩)
  rintro s im₁ ⟨rfl, hmax, -, rfl⟩
  refine (inodeLength_does ha).bind ?_ (fun hok => hok.2.2)
  rintro n im₂ ⟨hn, rfl⟩
  rw [Image.visit_disk, hf.diskLength] at hn
  have hlt := hf.length_lt
  have hleft : wrap (n - o) = (L : Int) - o := by
    rw [hn]
    exact wrap_of_range (by omega) (by omega)
  rw [hleft, natCast_tmod]
  refine does_pure ⟨_, rfl, ?_, hmax, Image.visit_visit _ _ _⟩
  rw [ite_lt_eq_min, ite_lt_eq_min]

/-- Number of bytes that a read of `size` bytes at position `o` gives. -/
def readCount (L o : Nat) (size : Int) : Nat := min size.toNat (L - o)

/-- The block that a read looks up in vain, if it wants more bytes than there are. -/
def probe (L o : Nat) (size : Int) : Nat := (o + readCount L o size) / 512

/-- When a read returns: the tree is readable, and so is the way to the block behind the end. -/
def ReadOk (fs : Fs SectorStore) (U : Nat → Path → Prop) (im : Image) (r L o : Nat) (size : Int) :
    Prop :=
  TreeReadable U im r ∧ (readCount L o size < size.toNat → probe L o size < maxBlocks ∧
    ∀ t ∈ im.disk.trail r (probe L o size), t < fs.store.size ∧ (im.lock t).Readable)

/-- The outcome of a read of `size` bytes at position `o` into `buffer` behind byte `done`. -/
structure HasRead (U : Nat → Path → Prop) (r L o done : Nat) (size : Int) (buffer : Nat → UInt8)
    (im : Image) (x : Int × (Nat → UInt8)) (im' : Image) : Prop where
  count : x.1 = done + readCount L o size
  bytes : ∀ j, x.2 j = if done ≤ j ∧ j < done + readCount L o size
    then im.disk.content r (o + (j - done)) else buffer j
  visits : ∃ ts, im' = im.visit ts ∧
    (∀ t ∈ ts, Owns U im.disk r t ∨
      (readCount L o size < size.toNat ∧ t ∈ im.disk.trail r (probe L o size))) ∧
    (readCount L o size < size.toNat → probe L o size < maxBlocks ∧
      ∀ t ∈ im.disk.trail r (probe L o size), t ∈ ts)

/-- A read of no bytes. -/
theorem hasRead_zero (hsize : size ≤ 0) :
    HasRead U r L o done size buffer im (done, buffer) im := by
  have hz : size.toNat = 0 := by omega
  have hc : readCount L o size = 0 := by rw [readCount, hz]; omega
  refine ⟨?_, fun j => ?_, [], rfl, ?_, ?_⟩
  · rw [hc]; rfl
  · rw [hc, if_neg (by omega)]
  · intro t ht; cases ht
  · intro h; omega

/-- The bytes that one round copies are those of the file. -/
theorem content_of_block {d : Disk} {x : Nat} (hx : o % 512 + x < 512) :
    (d.data (d.node r (dataPath (o / 512)))).byte (o % 512 + x) = d.content r (o + x) := by
  have h1 : (o + x) / 512 = o / 512 := by omega
  have h2 : (o + x) % 512 = o % 512 + x := by omega
  rw [Disk.content, h1, h2]

theorem readCount_round (hcs : (c : Int) ≤ size) (hcL : c ≤ L - o) :
    readCount L (o + c) (size - c) + c = readCount L o size ∧
      probe L (o + c) (size - c) = probe L o size := by
  unfold probe readCount
  omega

/-- The block at the end of the file, or behind it, is looked up in vain. -/
theorem readCount_end (size : Int) (h : L ≤ o) :
    readCount L o size = 0 ∧ probe L o size = o / 512 := by
  unfold probe readCount
  omega

/-- One round followed by a read of the rest. -/
theorem HasRead.round {x : Int × (Nat → UInt8)} {im' : Image} (hc : 1 ≤ c)
    (hcs : (c : Int) ≤ size) (hcL : c ≤ L - o) (hc512 : o % 512 + c ≤ 512)
    (hts : ∀ t ∈ ts, Owns U im.disk r t)
    (h : HasRead U r L (o + c) (done + c) (size - c) (fun j => if (done : Int) ≤ j ∧
      (j : Int) < done + c then (im.disk.data (im.disk.node r (dataPath (o / 512)))).byte
      (((o % 512 : Nat) : Int) + (j - done)).toNat else buffer j) (im.visit ts) x im') :
    HasRead U r L o done size buffer im x im' := by
  have hsub : (size - c).toNat = size.toNat - c := by omega
  obtain ⟨hcount, hprobe⟩ := readCount_round hcs hcL
  obtain ⟨hn, hb, ts', him, hin, hout⟩ := h
  rw [hprobe] at hin hout
  refine ⟨by rw [hn]; push_cast; omega, fun j => ?_, ts' ++ ts, ?_, ?_, ?_⟩
  · rw [hb j]
    by_cases hj : done ≤ j ∧ j < done + c
    · -- a byte of this round
      rw [if_neg (by omega), if_pos (by omega), if_pos (by omega)]
      have hidx : (((o % 512 : Nat) : Int) + (j - done)).toNat = o % 512 + (j - done) := by omega
      rw [hidx]
      exact content_of_block (by omega)
    · by_cases hj' : done + c ≤ j ∧ j < done + readCount L o size
      · rw [if_pos (by omega), if_pos (by omega), Image.visit_disk]
        congr 1
        omega
      · rw [if_neg (by omega), if_neg (by omega), if_neg (by omega)]
  · rw [him, Image.visit_visit]
  · intro t ht
    rcases mem_append.mp ht with ht | ht
    · rcases hin t ht with ht | ⟨hlt, ht⟩
      · exact .inl ht
      · exact .inr ⟨by omega, ht⟩
    · exact .inl (hts t ht)
  · intro hlt
    obtain ⟨hmax, hall⟩ := hout (by omega)
    exact ⟨hmax, fun t ht => mem_append_left _ (hall t ht)⟩

/-- The condition for a read holds for the rest of it after a round. -/
theorem ReadOk.round (hcs : (c : Int) ≤ size) (hcL : c ≤ L - o) (h : ReadOk fs U im r L o size) :
    ReadOk fs U (im.visit ts) r L (o + c) (size - c) := by
  obtain ⟨hcount, hprobe⟩ := readCount_round hcs hcL
  refine ⟨h.1, fun hlt => ?_⟩
  rw [hprobe]
  exact h.2 (by omega)

/-- The size of a piece that is not empty. -/
theorem chunk_bounds {left : Int} (hleft : left = min ((L : Int) - o) (512 - (o % 512 : Nat)))
    (hc : (c : Int) = min size left) (ho : o < L) (hsize : 0 < size) :
    1 ≤ c ∧ (c : Int) ≤ size ∧ c ≤ L - o ∧ o % 512 + c ≤ 512 := by omega

section

variable (hg : g.store.size = fs.store.size)
include hg

/-- What a round of the loop needs is part of what the whole read needs. -/
theorem ReadOk.chunk (hs : Sound g U im.disk) (hf : IsFile U im.disk r L)
    (hL : L ≤ 512 * maxBlocks) (hsize : 0 < size) (h : ReadOk fs U im r L o size) :
    o / 512 < maxBlocks ∧ (∀ t ∈ im.disk.trail r (o / 512),
      t < fs.store.size ∧ (im.lock t).Readable) ∧
      r < fs.store.size ∧ (im.lock r).Readable := by
  have hroot := hf.owns_root
  have hown : r < fs.store.size ∧ (im.lock r).Readable :=
    ⟨hg ▸ hs.owned_inside hroot, h.1.owned hroot⟩
  by_cases hend : L ≤ o
  · obtain ⟨hzero, hprobe⟩ := readCount_end size hend
    obtain ⟨hmax, hall⟩ := h.2 (by omega)
    rw [hprobe] at hmax hall
    exact ⟨hmax, hall, hown⟩
  · have hblock : U r (dataPath (o / 512)) := hf.block hL (by omega)
    refine ⟨inTree_dataPath_iff.mp (hs.shape _ _ hblock), fun t ht => ?_, hown⟩
    have ht' := hs.trail_owned hblock ht
    exact ⟨hg ▸ hs.owned_inside ht', h.1.owned ht'⟩

/-- **The loop of `inode_read_at`.** -/
theorem readLoop_does (ha : fs.inodes a = some inode) (hL : L ≤ 512 * maxBlocks) (fuel : Nat) :
    ∀ (im : Image) (buffer : Nat → UInt8) (size : Int) (o done : Nat),
      Sound g U im.disk → IsFile U im.disk inode.sector L → size ≤ fuel → o < 2 ^ 31 →
      Does (readLoop a fuel buffer size o done) fs im (ReadOk fs U im inode.sector L o size)
        (HasRead U inode.sector L o done size buffer im) := by
  induction fuel with
  | zero =>
    intro im buffer size o done _ _ hsize _
    rw [readLoop, if_neg (by omega)]
    exact does_pure (hasRead_zero hsize)
  | succ fuel ih =>
    intro im buffer size o done hs hf hsize ho
    have hlt := hf.length_lt
    rw [readLoop]
    by_cases hpos : size > 0
    · rw [if_pos hpos]
      refine (readChunk_does ha hf ho).bind ?_ (ReadOk.chunk hg hs hf hL hpos)
      rintro x im₁ ⟨left, hleft, rfl, hmax, rfl⟩
      by_cases hend : L ≤ o
      · -- at or behind the end: the block was looked up, but nothing is read
        obtain ⟨hzero, hprobe⟩ := readCount_end size hend
        have hle : min size left ≤ 0 := by omega
        simp only [if_pos hle]
        refine does_pure ⟨by rw [hzero]; rfl, fun j => ?_, _, rfl, ?_, ?_⟩
        · rw [hzero, if_neg (by omega)]
        · intro t ht
          rcases mem_cons.mp ht with rfl | ht
          · exact .inl hf.owns_root
          · exact .inr ⟨by omega, by rw [hprobe]; exact ht⟩
        · intro _
          rw [hprobe]
          exact ⟨hmax, fun t ht => mem_cons_of_mem _ ht⟩
      · have hblock : U inode.sector (dataPath (o / 512)) := hf.block hL (by omega)
        obtain ⟨c, hc⟩ : ∃ c : Nat, (c : Int) = min size left := ⟨(min size left).toNat, by omega⟩
        obtain ⟨hc1, hc2, hc3, hc4⟩ := chunk_bounds hleft hc (by omega) hpos
        have hoc : o + c < 2 ^ 31 := by omega
        have hfuel : size - c ≤ fuel := by push_cast at hsize; omega
        have hc0 : ¬ (c : Int) ≤ 0 := by omega
        have hofs : ¬ ((o % 512 : Nat) : Int) < 0 := by omega
        have hwrap : wrap ((o : Int) + c) = ((o + c : Nat) : Int) := by
          rw [wrap_of_range (by omega) (by omega), Nat.cast_add]
        obtain ⟨t, ht⟩ : ∃ t, t = im.disk.node inode.sector (dataPath (o / 512)) := ⟨_, rfl⟩
        have hown : Owns U im.disk inode.sector t := ⟨_, hblock, ht⟩
        simp only [← hc, ← ht, if_neg hc0]
        refine does_readBlock (fun hok => ?_) (fun l _ hl => ?_)
        · exact ⟨hg ▸ hs.owned_inside hown, hok.1.owned hown⟩
        refine does_dataOf ?_
        rw [if_neg hofs]
        refine does_readEnd ?_
        obtain ⟨ts, hts⟩ : ∃ ts, ts = inode.sector :: im.disk.trail inode.sector (o / 512) :=
          ⟨_, rfl⟩
        rw [← hts] at hl ⊢
        rw [Image.leaveRead_enter_same hl, Image.visit_visit, hwrap, ← Nat.cast_add]
        refine (ih (im.visit (t :: ts)) _ (size - c) (o + c) (done + c) hs hf hfuel hoc).mono
          (fun x im' hx => ?_) (fun hok => hok.round hc2 hc3)
        have hvisited : ∀ t' ∈ t :: ts, Owns U im.disk inode.sector t' := by
          intro t' ht'
          rw [hts, mem_cons, mem_cons] at ht'
          rcases ht' with rfl | rfl | ht'
          · exact hown
          · exact hf.owns_root
          · exact hs.trail_owned hblock ht'
        refine HasRead.round hc1 hc2 hc3 hc4 hvisited ?_
        rw [← ht]
        simpa only [Nat.cast_add, Image.enter_disk, Image.visit_disk] using hx
    · rw [if_neg hpos]
      exact does_pure (hasRead_zero (by omega))

/-- **`inode_read_at`**, at a position that is not negative. -/
theorem inodeReadAt_does (ha : fs.inodes a = some inode) (hL : L ≤ 512 * maxBlocks)
    (hs : Sound g U im.disk) (hf : IsFile U im.disk inode.sector L) (ho : o < 2 ^ 31) :
    Does (inodeReadAt a buffer size o) fs im (ReadOk fs U im inode.sector L o size)
      (HasRead U inode.sector L o 0 size buffer im) :=
  readLoop_does hg ha hL size.toNat im buffer size o 0 hs hf (Int.self_le_toNat size) ho

end

/-! ### Writing -/

/-- The outcome of a write of `size` bytes at position `o`, from byte `done` of `buffer` on. -/
structure HasWritten (U : Nat → Path → Prop) (r o done : Nat) (size : Int) (buffer : Nat → UInt8)
    (im : Image) (n : Int) (im' : Image) : Prop where
  count : n = done + size.toNat
  map : im'.disk.map = im.disk.map
  lock : im'.lock = im.lock
  frame : Rewritten U r im.disk im'.disk
  content : ∀ x, U r (dataPath (x / 512)) → im'.disk.content r x =
    if o ≤ x ∧ x < o + size.toNat then buffer (done + (x - o)) else im.disk.content r x
  visits : ∃ ts, im'.touched = ts ++ im.touched ∧ ∀ t ∈ ts, Owns U im.disk r t

theorem hasWritten_zero (hsize : size ≤ 0) : HasWritten U r o done size buffer im done im := by
  have hz : size.toNat = 0 := by omega
  refine ⟨by rw [hz]; rfl, rfl, rfl, fun _ _ => rfl, fun x _ => ?_, [], rfl, ?_⟩
  · rw [if_neg (by omega)]
  · intro t ht; cases ht

/-- A piece and the rest. -/
theorem HasWritten.trans {n n' : Int} {im₁ im' : Image} (hs : Sound fs U im.disk)
    (hc : (c : Int) ≤ size) (h : HasWritten U r o done c buffer im n im₁)
    (h' : HasWritten U r (o + c) (done + c) (size - c) buffer im₁ n' im') :
    HasWritten U r o done size buffer im n' im' := by
  have hcount := h'.count
  have hsub : (size - c).toNat + c = size.toNat := by omega
  have hcn : ((c : Int)).toNat = c := Int.toNat_natCast c
  obtain ⟨ts, hts, hown⟩ := h.visits
  obtain ⟨ts', hts', hown'⟩ := h'.visits
  refine ⟨?_, h'.map.trans h.map, h'.lock.trans h.lock, h.frame.trans hs h'.frame, ?_,
    ts' ++ ts, ?_, ?_⟩
  · rw [hcount]
    push_cast
    omega
  · intro x hx
    rw [h'.content x hx, h.content x hx, hcn]
    by_cases h1 : o ≤ x ∧ x < o + c
    · rw [if_neg (by omega), if_pos h1, if_pos (by omega)]
    · by_cases h2 : o + c ≤ x ∧ x < o + size.toNat
      · rw [if_pos (by omega), if_pos (by omega)]
        congr 1
        omega
      · rw [if_neg (by omega), if_neg h1, if_neg (by omega)]
  · rw [hts', hts, append_assoc]
  · intro t ht
    rcases mem_append.mp ht with ht | ht
    · obtain ⟨p, hp, rfl⟩ := hown' t ht
      exact ⟨p, hp, h.frame.node_eq hs hp⟩
    · exact hown t ht

/-- Overwriting a piece of one block. -/
theorem hasWritten_put {im₁ : Image} (hs : Sound fs U im.disk) (hblock : U r (dataPath (o / 512)))
    (hc : o % 512 + c ≤ 512)
    (hdisk : im₁.disk = (im.put (im.disk.node r (dataPath (o / 512)))
      ((im.disk.data (im.disk.node r (dataPath (o / 512)))).copyIn (o % 512) c
        (fun j => buffer (done + j)))).disk)
    (hlock : im₁.lock = im.lock)
    (htouched : ∃ ts, im₁.touched = ts ++ im.touched ∧ ∀ t ∈ ts, Owns U im.disk r t) :
    HasWritten U r o done c buffer im (done + c) im₁ := by
  have hframe : Rewritten U r im.disk im₁.disk := by
    intro t ht
    rw [hdisk]
    exact Function.update_of_ne (ht _ hblock) _ _
  refine ⟨by simp, by rw [hdisk]; rfl, hlock, hframe, ?_, htouched⟩
  intro x hx
  rw [Int.toNat_natCast, Disk.content, hframe.node_eq hs hx, hdisk]
  by_cases hsame : x / 512 = o / 512
  · -- the block written: the bytes of the piece are new
    have hlt : x % 512 < 512 := Nat.mod_lt _ (by omega)
    rw [hsame]
    show (Function.update im.disk.data _ _ _).byte _ = _
    rw [Function.update_self, Bytes.byte_copyIn _ _ _ _ hlt, Disk.content, hsame]
    by_cases hin : o ≤ x ∧ x < o + c
    · rw [if_pos (by omega), if_pos hin]
      congr 2
      omega
    · rw [if_neg (by omega), if_neg hin]
  · have hne : im.disk.node r (dataPath (x / 512)) ≠ im.disk.node r (dataPath (o / 512)) :=
      fun he => hsame (dataPath_injective (hs.node_inj hx hblock he).2)
    show (Function.update im.disk.data _ _ _).byte _ = _
    rw [Function.update_of_ne hne, if_neg (by omega)]
    rfl

/-- One round of the loop of `inode_write_at`, in a block that the file has. -/
theorem writeChunk_does (hg : g.store.size = fs.store.size) (ha : fs.inodes a = some inode)
    (hs : Sound g U im.disk) (hv : isValidInode (im.disk.data inode.sector))
    (hblock : U inode.sector (dataPath (o / 512))) (hpos : 0 < size) :
    Does (writeChunk a buffer size o done) fs im (TreeFree U im inode.sector)
      (fun n im₁ => ∃ c : Nat, n = c ∧ (c : Int) = min size (512 - (o % 512 : Nat)) ∧
        HasWritten U inode.sector o done c buffer im (done + c) im₁) := by
  have hmax : o / 512 < maxBlocks := inTree_dataPath_iff.mp (hs.shape _ _ hblock)
  have ho : o < 2 ^ 31 := by unfold maxBlocks at hmax; omega
  have hk : toUnsigned ((o : Int).tdiv 512) = o / 512 := toUnsigned_tdiv (by omega)
  have htrail : ∀ t ∈ im.disk.trail inode.sector (o / 512), Owns U im.disk inode.sector t :=
    fun t ht => hs.trail_owned hblock ht
  unfold writeChunk
  refine (byteToSector_does ha hk).bind ?_ (fun hok => ⟨hv, hmax, fun t ht =>
    ⟨hg ▸ hs.owned_inside (htrail t ht), hok.readable.owned (htrail t ht)⟩⟩)
  rintro s im₀ ⟨hnode, -, -, rfl⟩
  obtain ⟨c, hc⟩ : ∃ c : Nat, (c : Int) = min size (512 - (o % 512 : Nat)) :=
    ⟨(min size (512 - (o % 512 : Nat))).toNat, by omega⟩
  have hc0 : ¬ (c : Int) ≤ 0 := by omega
  have hc2 : o % 512 + c ≤ 512 := by omega
  have hofs : ¬ ((o % 512 : Nat) : Int) < 0 := by omega
  have hown : Owns U im.disk inode.sector s := ⟨_, hblock, hnode⟩
  simp only [natCast_tmod, ite_lt_eq_min, ← hc, if_neg hc0, if_neg hofs, Int.toNat_natCast]
  refine does_writeBlock (fun hok => ?_) (fun l l' _ hl hl' => ?_)
  · obtain ⟨p, hp, hsp⟩ := hown
    exact ⟨hg ▸ hs.owned_inside ⟨p, hp, hsp⟩, by rw [hsp]; exact hok p hp⟩
  refine does_modifyData (does_writeEnd (does_pure ⟨c, rfl, rfl, ?_⟩))
  refine hasWritten_put hs hblock hc2 (by rw [← hnode]; rfl) (Image.leaveWrite_enter hl hl' rfl) ?_
  refine ⟨s :: im.disk.trail inode.sector (o / 512), rfl, fun t ht => ?_⟩
  rcases mem_cons.mp ht with rfl | ht
  · exact hown
  · exact htrail t ht

/-- **The loop of `inode_write_at`**, over blocks that the file has. -/
theorem writeLoop_does (hg : g.store.size = fs.store.size) (ha : fs.inodes a = some inode)
    (buffer : Nat → UInt8) (fuel : Nat) :
    ∀ (im : Image) (size : Int) (o done : Nat),
      Sound g U im.disk → isValidInode (im.disk.data inode.sector) → U inode.sector [] →
      (∀ x, o ≤ x → x < o + size.toNat → U inode.sector (dataPath (x / 512))) → size ≤ fuel →
      Does (writeLoop a buffer fuel size o done) fs im (TreeFree U im inode.sector)
        (HasWritten U inode.sector o done size buffer im) := by
  induction fuel with
  | zero =>
    intro im size o done _ _ _ _ hsize
    rw [writeLoop, if_neg (by omega)]
    exact does_pure (hasWritten_zero hsize)
  | succ fuel ih =>
    intro im size o done hs hv hroot hblocks hsize
    rw [writeLoop_succ]
    by_cases hpos : size > 0
    · rw [if_pos hpos]
      have hblock : U inode.sector (dataPath (o / 512)) := hblocks o (by omega) (by omega)
      have hmax : o / 512 < maxBlocks := inTree_dataPath_iff.mp (hs.shape _ _ hblock)
      refine (writeChunk_does hg ha hs hv hblock hpos).bind ?_ id
      rintro _ im₁ ⟨c, rfl, hc, hround⟩
      have hc1 : (c : Int) ≤ size := by omega
      have hfuel : size - c ≤ fuel := by push_cast at hsize; omega
      have hrest : ∀ x, o + c ≤ x → x < o + c + (size - c).toNat →
          U inode.sector (dataPath (x / 512)) := fun x h1 h2 => hblocks x (by omega) (by omega)
      have hwrap : wrap ((o : Int) + c) = ((o + c : Nat) : Int) := by
        unfold maxBlocks at hmax
        rw [wrap_of_range (by omega) (by omega), Nat.cast_add]
      have hs₁ : Sound g U im₁.disk := hround.frame.sound hs hround.map
      have hv₁ : isValidInode (im₁.disk.data inode.sector) := by
        rw [hround.frame.root_eq hs hroot]
        exact hv
      rw [if_neg (by omega), hwrap, ← Nat.cast_add done c]
      exact (ih im₁ (size - c) (o + c) (done + c) hs₁ hv₁ hroot hrest hfuel).mono
        (fun n im' h => HasWritten.trans hs hc1 hround h) (fun hok : TreeFree U im inode.sector =>
          fun p hp => by rw [hround.lock, hround.frame.node_eq hs hp]; exact hok p hp)
    · rw [if_neg hpos]
      exact does_pure (hasWritten_zero (by omega))

end Fs

end KernelSanders

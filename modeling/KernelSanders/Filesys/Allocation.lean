import KernelSanders.Filesys.WriteAt

namespace KernelSanders

open Lib Lib.Exec Bitmap

/-!
# `free_map_allocate` and `free_map_release`

Both change one bit and save the map to its file.  The save is a write over the whole of a file
that never changes its length, so it needs no sector and touches nothing but that file.

* `freeMapAllocate_does` — the sector is the first free one, or there is none;
* `freeMapRelease_does` — the sector is free afterwards.
-/

/-- The same image with another free map. -/
def Image.setMap (b : Bitmap) (im : Image) : Image := { im with disk := { im.disk with map := b } }

/-- Nobody holds a lock that saving the free map needs. -/
def MapReady (fs : Fs SectorStore) (U : Nat → Path → Prop) (im : Image) : Prop :=
  ∀ a inode, fs.mapInode = some (a, inode) →
    inode.extensionLock = none ∧ TreeFree U im inode.sector

/-- The image after the free map has become `b` and has been saved. -/
structure MapSaved (fs : Fs SectorStore) (U : Nat → Path → Prop) (b : Bitmap) (im im' : Image) :
    Prop where
  map : im'.disk.map = b
  lock : im'.lock = im.lock
  frame : ∀ t, ¬ MapLeaf fs U im.disk t → im'.disk.data t = im.disk.data t
  saved : Saved fs im'.disk
  visits : ∃ ts, im'.touched = ts ++ im.touched ∧
    ∀ t ∈ ts, ∃ r, fs.mapRoot = some r ∧ Owns U im.disk r t

section

variable {fs : Fs SectorStore} {U : Nat → Path → Prop} {d : Disk} {im im' : Image} {b : Bitmap}

theorem MapSaved.sameLinks (h : MapSaved fs U b im im') (hs : Sound fs U im.disk) :
    SameLinks U im.disk im'.disk := by
  intro r i p hu
  unfold Disk.word
  rw [h.frame _ (hs.not_mapLeaf hu)]

theorem MapSaved.node_eq (h : MapSaved fs U b im im') (hs : Sound fs U im.disk) {r : Nat}
    {p : Path} (hu : U r p) : im'.disk.node r p = im.disk.node r p :=
  (h.sameLinks hs).node_eq hs.rooted hu

/-- The invariant of the old map is one of the new map as well, if that frees no node. -/
theorem MapSaved.sound (h : MapSaved fs U b im im') (hs : Sound fs U im.disk)
    (hcnt : b.bitCnt = im.disk.map.bitCnt)
    (hmap : ∀ r p, U r p → b.isSet (im.disk.node r p) = true)
    (hres : ∀ t, t < 3 → b.isSet t = true) : Sound fs U im'.disk := by
  rw [← h.map] at hcnt hmap hres
  exact hs.of_sameLinks (h.sameLinks hs) hmap hres hcnt (hs.mapFile.congr hcnt
    (fun _ _ hnil => ⟨fun _ => Iff.rfl, h.frame _ (hs.root_not_mapLeaf hnil)⟩))

/-- The save works on the map as it has become. -/
theorem MapSaved.of_setMap (h : MapSaved fs U b (im.setMap b) im') : MapSaved fs U b im im' :=
  ⟨h.map, h.lock, h.frame, h.saved, h.visits⟩

end

namespace Fs

open BlockStore

variable {fs : Fs SectorStore} {U : Nat → Path → Prop} {im : Image}
  {alloc : Exec (Fs SectorStore) (Option Nat)}

/-- The pointers that lead to the inode of the map's file. -/
theorem mapInode_eq_some {a : Nat} {inode : Inode} (h : fs.mapInode = some (a, inode)) :
    ∃ f file, fs.freeMapFile = some f ∧ fs.files f = some file ∧ file.inode = a ∧
      fs.inodes a = some inode := by
  unfold mapInode at h
  cases hf : fs.freeMapFile with
  | none => rw [hf] at h; cases h
  | some f =>
    rw [hf] at h
    simp only at h
    cases hfile : fs.files f with
    | none => rw [hfile] at h; cases h
    | some file =>
      rw [hfile] at h
      simp only [Option.map_eq_some_iff, Prod.mk.injEq] at h
      obtain ⟨i, hi, rfl, rfl⟩ := h
      exact ⟨f, file, rfl, hfile, rfl, hi⟩

/-- **Saving the map.** -/
theorem bitmapWrite_does {f : Nat} (hs : Sound fs U im.disk) (hf : fs.freeMapFile = some f) :
    Does (bitmapWrite alloc (some f)) fs im (MapReady fs U im)
      (fun b im' => b = true ∧ MapSaved fs U im.disk.map im im') := by
  obtain ⟨a, inode, hmi, hdeny, hfile, hlen⟩ := hs.mapFile (by rw [hf]; simp)
  obtain ⟨f', file, hf', hfiles, hfi, ha⟩ := mapInode_eq_some hmi
  rw [hf, Option.some.injEq] at hf'
  subst hf'
  have hroot : fs.mapRoot = some inode.sector := by rw [mapRoot, hmi]; rfl
  obtain ⟨L, hLdef⟩ : ∃ L, L = byteCnt im.disk.map.bitCnt := ⟨_, rfl⟩
  rw [← hLdef] at hfile hlen
  have hL31 := hfile.length_lt
  have hwrap : wrap (L : Int) = L := wrap_of_range (by omega) (by omega)
  have hget : (getFile f).run (fs.withImage im) = .ok (file, fs.withImage im) := by
    rw [getFile, read_bind, show (fs.withImage im).files f = some file from hfiles]
    rfl
  have hzero : toUnsigned (wrap (ceil (L : Int) 512 - ceil L 512)) = 0 := by
    rw [sub_self, wrap_of_range (by omega) (by omega)]
    rfl
  have hnew : wrap ((L : Int) + (0 : Nat)) = L := by rw [Nat.cast_zero, add_zero, hwrap]
  -- no block is missing, so the file is extended by none
  have hext : Does (inodeExtend alloc a (toUnsigned (wrap (ceil (L : Int) 512 - ceil L 512))))
      (fs.holdExtension a inode (some fs.current))
      (im.visit [inode.sector, inode.sector, inode.sector]) (TreeFree U im inode.sector)
      (fun b im' => b = true ∧
        im' = (im.visit [inode.sector, inode.sector, inode.sector]).visit [inode.sector]) := by
    rw [hzero]
    refine (inodeExtend_zero holdExtension_inodes).mono (fun _ _ h => h) (fun h => ?_)
    exact ⟨hs.inside _ _ hfile.root, h [] hfile.root, hfile.valid⟩
  have hwrite : Meets (inodeWriteAt alloc a im.disk.map.bytes L (0 : Nat)) (fs.withImage im) _ _ :=
    inodeWriteAt_extends rfl ha hdeny hfile hnew (le_refl _) hext (by
      rintro im₁ ⟨-, rfl⟩
      exact ⟨hs, hfile.valid, hfile.root, fun x _ hx => hfile.block hlen (by omega), id⟩)
  have hwritten : Does (inodeWriteAt alloc a im.disk.map.bytes L (0 : Nat)) fs im
      (MapReady fs U im) (fun n im' => n = L ∧ MapSaved fs U im.disk.map im im') := by
    refine Meets.mono hwrite ?_ ?_
    · rintro n fs' (⟨im₁, im₂, im₃, ⟨-, rfl⟩, hw, hdisk, hlock, htouched, rfl⟩ | ⟨-, -, _, ⟨h, -⟩, -⟩)
      · have hroot₂ : im₂.disk.word inode.sector lengthWord = L := by
          rw [Disk.word, hw.frame.root_eq hs hfile.root]
          exact hfile.length
        rw [toUnsigned_natCast (by omega), Disk.setLength_self hroot₂] at hdisk
        have hcount := hw.count
        obtain ⟨ts, hts, hown⟩ := hw.visits
        refine ⟨im₃, rfl, by rw [hcount]; simp, by rw [hdisk, hw.map]; rfl, by rw [hlock, hw.lock]; rfl,
          ?_, ?_, ?_⟩
        · intro t ht
          rw [hdisk]
          exact hw.frame t (fun k hk he => ht ⟨_, k, hroot, hk, he⟩)
        · intro r hr x hx
          rw [hroot, Option.some.injEq] at hr
          subst hr
          rw [hdisk, hw.map] at hx ⊢
          have hxL : x < L := by rw [hLdef]; exact hx
          have hin : 0 ≤ x ∧ x < 0 + (L : Int).toNat := by omega
          rw [hw.content x (hfile.block hlen hxL), if_pos hin, Nat.sub_zero, Nat.zero_add]
          rfl
        · refine ⟨inode.sector :: (ts ++ [inode.sector, inode.sector, inode.sector, inode.sector]),
            by rw [htouched, hts]; simp [Image.visit], ?_⟩
          intro t ht
          refine ⟨_, hroot, ?_⟩
          rcases List.mem_cons.mp ht with rfl | ht
          · exact hfile.owns_root
          · rcases List.mem_append.mp ht with ht | ht
            · exact hown t ht
            · have : t = inode.sector := by simpa using ht
              rw [this]
              exact hfile.owns_root
      · cases h
    · intro e hn hready
      obtain ⟨hlock, hfree⟩ := hready a inode hmi
      exact hn ⟨hfree, hlock, hs.inside _ _ hfile.root, hfree.readable [] hfile.root⟩
  have hsize : wrap (byteCnt (fs.withImage im).freeMap.bitCnt : Nat) = L := by
    rw [show (fs.withImage im).freeMap = im.disk.map from rfl, ← hLdef, hwrap]
  unfold bitmapWrite
  refine does_step rfl (does_step hget ?_)
  rw [hfi]
  simp only [hsize]
  refine Does.bind hwritten ?_ id
  rintro n im' ⟨hn, hsaved⟩
  exact does_pure ⟨decide_eq_true hn, hsaved⟩

theorem saved_of_none {d : Disk} (h : fs.freeMapFile = none) : Saved fs d := by
  intro r hr
  unfold mapRoot mapInode at hr
  rw [h] at hr
  cases hr

/-- The part of `free_map_allocate` behind the scan. -/
theorem saveFreeMap_does {s : Nat} {b : Bitmap} (hs : Sound fs U (im.setMap b).disk)
    (hne : s ≠ bitmapError) :
    Does (saveFreeMap alloc s) fs (im.setMap b) (MapReady fs U im)
      (fun s' im' => s' = s ∧ MapSaved fs U b im im') := by
  unfold saveFreeMap
  refine does_step rfl ?_
  cases hf : fs.freeMapFile with
  | none =>
    have hfile : (fs.withImage (im.setMap b)).freeMapFile = none := hf
    rw [if_neg (fun h => h.2 hfile)]
    refine does_pure ⟨rfl, rfl, rfl, fun _ _ => rfl, saved_of_none hf, [], rfl, ?_⟩
    intro t ht
    cases ht
  | some f =>
    have hfile : (fs.withImage (im.setMap b)).freeMapFile = some f := hf
    rw [if_pos ⟨hne, by rw [hfile]; simp⟩, hfile]
    refine (bitmapWrite_does hs hf).bind ?_ id
    rintro ok im' ⟨rfl, hsaved⟩
    exact does_pure ⟨rfl, hsaved.of_setMap⟩

/-- `free_map_allocate` without a free bit. -/
theorem allocateSector_full (hfits : im.disk.map.Fits)
    (hfree : firstFree im.disk.map.isSet im.disk.map.bitCnt = none) :
    (allocateSector alloc).run (fs.withImage im) = .ok (none, fs.withImage im) := by
  have hscan := bitmapScanAndFlip_one hfits
  rw [hfree] at hscan
  have hrun : (onFreeMap (bitmapScanAndFlip 0 1 false)).run (fs.withImage im)
      = .ok (bitmapError, fs.withImage im) := zoom_ok hscan
  have hsave : (saveFreeMap alloc bitmapError).run (fs.withImage im)
      = .ok (bitmapError, fs.withImage im) := by
    simp only [saveFreeMap, read_bind, ne_eq, not_true_eq_false, false_and, if_false, run_pure]
  rw [allocateSector, bind_ok hrun, bind_ok hsave, if_neg (not_not.mpr rfl)]
  rfl

/-- **`free_map_allocate`.**  One level of nesting is enough. -/
theorem freeMapAllocate_does (depth : Nat) (hs : Sound fs U im.disk) :
    Does (freeMapAllocate (depth + 1)) fs im (MapReady fs U im)
      (fun o im' =>
        (∃ s, o = some s ∧ firstFree im.disk.map.isSet im.disk.map.bitCnt = some s ∧
          MapSaved fs U (im.disk.map.mark s) im im') ∨
        (o = none ∧ firstFree im.disk.map.isSet im.disk.map.bitCnt = none ∧ im' = im)) := by
  have hscan := bitmapScanAndFlip_one hs.fits
  rw [freeMapAllocate]
  cases hfree : firstFree im.disk.map.isSet im.disk.map.bitCnt with
  | some s =>
    rw [hfree] at hscan
    obtain ⟨hlt, hoff, -⟩ := firstFree_eq_some.mp hfree
    have hne := ne_bitmapError hs.fits hlt
    have hrun : (onFreeMap (bitmapScanAndFlip 0 1 false)).run (fs.withImage im)
        = .ok (s, fs.withImage (im.setMap (im.disk.map.mark s))) := zoom_ok hscan
    have hset : ∀ t, im.disk.map.isSet t = true → (im.disk.map.mark s).isSet t = true := by
      intro t ht
      rw [isSet_mark]
      by_cases he : t = s
      · rw [he, Function.update_self]
      · rw [Function.update_of_ne he, ht]
    have hs' : Sound fs U (im.setMap (im.disk.map.mark s)).disk :=
      hs.of_map rfl (fun r p hu => hset _ (hs.used r p hu)) (fun t ht => hset t (hs.reserved t ht))
    unfold allocateSector
    refine does_step hrun ?_
    refine (saveFreeMap_does hs' hne).bind ?_ id
    rintro s' im' ⟨rfl, hsaved⟩
    rw [if_pos hne]
    exact does_pure (.inl ⟨s', rfl, rfl, hsaved⟩)
  | none =>
    refine (meets_ok (allocateSector_full hs.fits hfree)).mpr ⟨im, rfl, .inr ⟨rfl, rfl, rfl⟩⟩

/-- **`free_map_release`** of a sector that is none of the nodes in use. -/
theorem freeMapRelease_does {s : Nat} (depth : Nat) (hs : Sound fs U im.disk)
    (hfresh : ∀ r p, U r p → im.disk.node r p ≠ s) (hres : 3 ≤ s) :
    Does (freeMapRelease depth s) fs im
      (MapReady fs U im ∧ s < im.disk.map.bitCnt ∧ im.disk.map.isSet s = true ∧
        fs.freeMapFile ≠ none)
      (fun _ im' => im.disk.map.isSet s = true ∧ MapSaved fs U (im.disk.map.reset s) im im') := by
  unfold freeMapRelease
  by_cases hlt : s < im.disk.map.bitCnt
  · have hall : (onFreeMap (bitmapAll s 1)).run (fs.withImage im)
        = .ok (im.disk.map.isSet s, fs.withImage im) := zoom_ok (bitmapAll_one hs.fits hlt)
    refine does_step hall (does_assert (fun h => h.2.2.1) (fun hset => ?_))
    have hreset : (onFreeMap (bitmapSetMultiple s 1 false)).run (fs.withImage im)
        = .ok ((), fs.withImage (im.setMap (im.disk.map.reset s))) :=
      zoom_ok (bitmapSetMultiple_one hs.fits hlt false)
    have hkeep : ∀ t, t ≠ s → im.disk.map.isSet t = true →
        (im.disk.map.reset s).isSet t = true := by
      intro t hne ht
      rw [isSet_reset, Function.update_of_ne hne, ht]
    have hs' : Sound fs U (im.setMap (im.disk.map.reset s)).disk :=
      hs.of_map rfl (fun r p hu => hkeep _ (hfresh r p hu) (hs.used r p hu))
        (fun t ht => hkeep t (by omega) (hs.reserved t ht))
    refine does_step hreset (does_step rfl ?_)
    cases hf : fs.freeMapFile with
    | none =>
      have hfile : (fs.withImage (im.setMap (im.disk.map.reset s))).freeMapFile = none := hf
      rw [hfile]
      exact does_fail (e := .fault) rfl (fun h => h.2.2.2 rfl)
    | some f =>
      have hfile : (fs.withImage (im.setMap (im.disk.map.reset s))).freeMapFile = some f := hf
      rw [hfile]
      refine (bitmapWrite_does hs' hf).bind ?_ (fun h => h.1)
      rintro b im' ⟨-, hsaved⟩
      exact does_pure ⟨hset, hsaved.of_setMap⟩
  · obtain ⟨e, he⟩ := bitmapAll_outside hs.fits (Nat.le_of_not_lt hlt)
    exact does_fail (zoom_error he) (fun h => hlt h.2.1)

end Fs

end KernelSanders

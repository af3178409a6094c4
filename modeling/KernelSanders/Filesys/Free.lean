import KernelSanders.Filesys.BlockIndex

namespace KernelSanders

open Lib Lib.Exec
open Function hiding update
open List

/-!
# `inode_close`: freeing a whole file

The last close of a removed inode counts the bytes of the file down through the same nested loops
as `inode_create`, and calls `free_map_release` for what each entry holds.  The sectors of the tree
are read while others of it are free already; nothing on the disk but the free map and its file
changes meanwhile (`Held`), so the pointers stay what they were.

* `Releases` — calls of `free_map_release` on the sectors of a list, one after the other;
* `FreeSpec` — what an entry of each tier releases: the nodes that `inode_create` adds for it;
* `freeBlocks_does` — the sectors of the tree, each once;
* `inode_close_releases` — `inode_close`, and `inode_create` before it.
-/

/-- Calls of `free_map_release` on the sectors of a list that returned, with nothing between them
    but locks that are taken or given back. -/
inductive Releases (fs : Fs SectorStore) (depth : Nat) : List Nat → Image → Image → Prop where
  | nil {im im' : Image} : im'.disk = im.disk → Releases fs depth [] im im'
  | call {s : Nat} {l : List Nat} {im im₁ im₂ im' : Image} : im₁.disk = im.disk →
      (Fs.freeMapRelease depth s).run (fs.withImage im₁) = .ok ((), fs.withImage im₂) →
      Releases fs depth l im₂ im' → Releases fs depth (s :: l) im im'

section

variable {fs : Fs SectorStore} {depth : Nat} {l l' : List Nat} {im im₁ im₂ : Image}

theorem Releases.of_disk (hdisk : im₁.disk = im.disk) (h : Releases fs depth l im₁ im₂) :
    Releases fs depth l im im₂ := by
  cases h with
  | nil h => exact .nil (h.trans hdisk)
  | call h hrun hrest => exact .call (h.trans hdisk) hrun hrest

theorem Releases.trans (h : Releases fs depth l im im₁) (h' : Releases fs depth l' im₁ im₂) :
    Releases fs depth (l ++ l') im im₂ := by
  induction h with
  | nil hdisk => exact h'.of_disk hdisk
  | call hdisk hrun _ ih => exact .call hdisk hrun (ih h')

end

/-- The trees of the other inodes. -/
def Others (U : Nat → Path → Prop) (r : Nat) : Nat → Path → Prop := fun r' p => r' ≠ r ∧ U r' p

/-- A disk on which the nodes `R` of the tree of `r` are still in use, and all the others that
    `d` has are free.  Only the free map and its file have changed. -/
structure Held (fs : Fs SectorStore) (U : Nat → Path → Prop) (d : Disk) (r : Nat)
    (R : Path → Prop) (d' : Disk) : Prop where
  sound : Sound fs (Others U r) d'
  bitCnt : d'.map.bitCnt = d.map.bitCnt
  data : ∀ q, U r q → d'.data (d.node r q) = d.data (d.node r q)
  nodes : ∀ r' p, Others U r r' p → d'.node r' p = d.node r' p
  map : ∀ t, d'.map.isSet t = true ↔
    d.map.isSet t = true ∧ ∀ q, U r q → t = d.node r q → R q

/-- No lock is in the way of the free map's file or of readers of the tree of `r`. -/
structure Unhindered (fs : Fs SectorStore) (U : Nat → Path → Prop) (d : Disk) (r : Nat)
    (lock : Nat → RwLock) : Prop where
  extension : ∀ a inode, fs.mapInode = some (a, inode) → inode.extensionLock = none
  mapFile : ∀ a inode, fs.mapInode = some (a, inode) →
    ∀ p, U inode.sector p → lock (d.node inode.sector p) = RwLock.free
  tree : ∀ q, U r q → (lock (d.node r q)).Readable

/-- The nodes `S` have been released, each once. -/
structure Freed (fs : Fs SectorStore) (depth : Nat) (U : Nat → Path → Prop) (d : Disk) (r : Nat)
    (R S : Path → Prop) (im im' : Image) : Prop where
  held : Held fs U d r (fun q => R q ∧ ¬ S q) im'.disk
  lock : im'.lock = im.lock
  calls : ∃ ps : List Path, ps.Nodup ∧ (∀ q, q ∈ ps ↔ S q) ∧
    Releases fs depth (ps.map (d.node r)) im im'

section

variable {fs : Fs SectorStore} {depth r : Nat} {U : Nat → Path → Prop} {d d' : Disk}
  {R R' S S' : Path → Prop} {im im₁ im₂ : Image} {q : Path} {l : RwLock}

theorem Sound.others (hs : Sound fs U d) (hr : fs.mapRoot ≠ some r) :
    Sound fs (Others U r) d where
  rooted r' i p h := ⟨h.1, hs.rooted r' i p h.2⟩
  shape r' p h := hs.shape r' p h.2
  separated := hs.separated.subset (fun _ _ h => h.2)
  used r' p h := hs.used r' p h.2
  inside r' p h := hs.inside r' p h.2
  bit r' p h := hs.bit r' p h.2
  root_pos r' p h := hs.root_pos r' p h.2
  inner r' p h := hs.inner r' p h.2
  reserved := hs.reserved
  fits := hs.fits
  mapFile := hs.mapFile.congr rfl (fun _ hroot _ =>
    ⟨fun _ => ⟨fun h => h.2, fun h => ⟨fun he => hr (he ▸ hroot), h⟩⟩, rfl⟩)

theorem Held.congr (h : Held fs U d r R d') (hR : ∀ q, R q ↔ R' q) : Held fs U d r R' d' :=
  (funext fun q => propext (hR q) : R = R') ▸ h

/-- Before anything is released. -/
theorem held_start (hs : Sound fs U d) (hr : fs.mapRoot ≠ some r) : Held fs U d r (U r) d where
  sound := hs.others hr
  bitCnt := rfl
  data _ _ := rfl
  nodes _ _ _ := rfl
  map _ := ⟨fun h => ⟨h, fun _ hq _ => hq⟩, fun h => h.1⟩

/-- The pointers of the tree are what they were. -/
theorem Held.word (h : Held fs U d r R d') (hq : U r q) (i : Nat) :
    d'.word (d.node r q) i = d.node r (i :: q) := by
  rw [Disk.word, h.data q hq, Disk.node_cons, Disk.word]

theorem Freed.congr (h : Freed fs depth U d r R S im im₁) (hS : ∀ q, S q ↔ S' q) :
    Freed fs depth U d r R S' im im₁ :=
  (funext fun q => propext (hS q) : S = S') ▸ h

theorem Freed.trans (h : Freed fs depth U d r R S im im₁)
    (h' : Freed fs depth U d r (fun q => R q ∧ ¬ S q) S' im₁ im₂) (hS : ∀ q, S q → ¬ S' q) :
    Freed fs depth U d r R (fun q => S q ∨ S' q) im im₂ := by
  obtain ⟨ps, hnd, hmem, hcalls⟩ := h.calls
  obtain ⟨ps', hnd', hmem', hcalls'⟩ := h'.calls
  refine ⟨h'.held.congr (fun q => by tauto), h'.lock.trans h.lock, ps ++ ps', ?_, fun q => ?_, ?_⟩
  · refine nodup_append.mpr ⟨hnd, hnd', fun q hq q' hq' he => ?_⟩
    subst he
    exact hS q ((hmem q).mp hq) ((hmem' q).mp hq')
  · rw [mem_append, hmem, hmem']
  · rw [map_append]
    exact hcalls.trans hcalls'

/-- A read section around what has been released. -/
theorem Freed.readSection {t : Nat} (h : Freed fs depth U d r R S (im.enter t l) im₁)
    (hl : (im.lock t).readBegin = .ok l) : Freed fs depth U d r R S im (im₁.leaveRead t) := by
  obtain ⟨ps, hnd, hmem, hcalls⟩ := h.calls
  refine ⟨h.held, ?_, ps, hnd, hmem, ?_⟩
  · show Function.update im₁.lock t (im₁.lock t).readEnd = im.lock
    rw [h.lock, Image.enter_lock, update_self, update_idem,
      RwLock.readEnd_readBegin hl, update_eq_self]
  · have hend : Releases fs depth [] im₁ (im₁.leaveRead t) := .nil rfl
    have := (hcalls.of_disk (Image.enter_disk t l im)).trans hend
    rwa [append_nil] at this

theorem Unhindered.mapReady (h : Unhindered fs U d r im.lock) (hheld : Held fs U d r R im.disk) :
    MapReady fs (Others U r) im := by
  intro a inode ha
  refine ⟨h.extension a inode ha, fun p hp => ?_⟩
  rw [hheld.nodes _ _ hp]
  exact h.mapFile a inode ha p hp.2

/-- A reader of the tree of `r` is in nobody's way. -/
theorem Unhindered.enter (h : Unhindered fs U d r im.lock) (hs : Sound fs U d)
    (hr : fs.mapRoot ≠ some r) (hq : U r q) (hl : (im.lock (d.node r q)).readBegin = .ok l) :
    Unhindered fs U d r (im.enter (d.node r q) l).lock where
  extension := h.extension
  mapFile a inode ha p hp := by
    rw [Image.enter_lock, update_of_ne]
    · exact h.mapFile a inode ha p hp
    · intro he
      obtain ⟨he', -⟩ := hs.node_inj hp hq he
      exact hr (by rw [Fs.mapRoot, ha, ← he']; rfl)
  tree q' hq' := Image.readable_enter hl (h.tree q hq) (h.tree q' hq')

end

/-- The bits that are set when an inode has grown. -/
theorem Grown.isSet_iff {fs : Fs SectorStore} {U V : Nat → Path → Prop} {d d' : Disk} {r c : Nat}
    (h : Grown fs r U d V d' c) (hs : Sound fs U d) (hr : fs.mapRoot ≠ some r) (t : Nat) :
    d'.map.isSet t = true ↔ d.map.isSet t = true ∨ ∃ p, V r p ∧ ¬ U r p ∧ t = d'.node r p := by
  induction h with
  | refl =>
    refine ⟨.inl, ?_⟩
    rintro (h | ⟨p, hv, hu, -⟩)
    · exact h
    · exact absurd hv hu
  | @step V d₁ d₂ c i s p h hp hi hq ha _ ih =>
    have hs₁ := h.sound hs hr
    rw [ha.isSet_iff, ih]
    constructor
    · rintro ((hold | ⟨q, hv, hu, rfl⟩) | rfl)
      · exact .inl hold
      · exact .inr ⟨q, .inl hv, hu, (ha.node_eq hs₁ hp hi hv).symm⟩
      · exact .inr ⟨i :: p, .inr ⟨rfl, rfl⟩, fun hu => hi (h.subset hu),
          (ha.node_new hs₁ hp hi hq).symm⟩
    · rintro (hold | ⟨q, hv | ⟨-, rfl⟩, hu, rfl⟩)
      · exact .inl (.inl hold)
      · exact .inl (.inr ⟨q, hv, hu, ha.node_eq hs₁ hp hi hv⟩)
      · exact .inr (ha.node_new hs₁ hp hi hq)

section

variable {fs : Fs SectorStore} {U : Nat → Path → Prop} {r L : Nat} {im : Image}

/-- The bits that `inode_create` has set are those of the new nodes, and all nodes but the inode are
    new. -/
theorem Creates.isSet_iff (h : Creates fs U r L fs.image true im) (hs : Sound fs U fs.image.disk)
    (hp : Plantable fs U fs.image.disk r) (t : Nat) :
    (im.disk.map.isSet t = true ∧ ∀ q, InTree (treeBlocks L) q → t ≠ im.disk.node r q) ↔
      fs.freeMap.isSet t = true ∧ t ≠ r := by
  obtain ⟨im₀, hatt, hplant, -⟩ := h
  obtain rfl := hplant rfl
  have hs₀ : Sound fs (With U r (InTree 0)) (fs.image.plant r L).disk := hp.sound hs
  have hr := hp.mapRoot_ne hs
  obtain ⟨hg, -⟩ := hatt.grown
  have hiff : im.disk.map.isSet t = true ↔ fs.freeMap.isSet t = true ∨
      ∃ p, With U r (InTree (treeBlocks L)) r p ∧ ¬ With U r (InTree 0) r p ∧
        t = im.disk.node r p := hg.isSet_iff hs₀ hr t
  constructor
  · rintro ⟨hset, hnode⟩
    refine ⟨?_, hnode [] (inTree_nil _)⟩
    rcases hiff.mp hset with hold | ⟨p, hv, -, he⟩
    · exact hold
    · exact absurd he (hnode p (with_at.mp hv))
  · rintro ⟨hset, hne⟩
    refine ⟨hiff.mpr (.inl hset), fun q hq he => ?_⟩
    by_cases hnil : q = []
    · subst hnil
      exact hne he
    · have hfresh : fs.freeMap.isSet (im.disk.node r q) = false :=
        (hg.fresh hs₀ hr (with_at.mpr hq) (fun h => hnil (inTree_zero.mp (with_at.mp h)))).2
      rw [← he, hset] at hfresh
      cases hfresh

/-- What the last close of a removed inode leaves set. -/
theorem Freed.isSet_iff {depth : Nat} {d : Disk} {im₁ : Image}
    (h : Freed fs depth U d r (U r) (U r) im im₁) (t : Nat) :
    im₁.disk.map.isSet t = true ↔ d.map.isSet t = true ∧ ∀ q, U r q → t ≠ d.node r q := by
  rw [h.held.map]
  constructor
  · rintro ⟨hset, hall⟩
    exact ⟨hset, fun q hq he => (hall q hq he).2 hq⟩
  · rintro ⟨hset, hall⟩
    exact ⟨hset, fun q hq he => absurd he (hall q hq)⟩

end

theorem blocksOf_pos {length : Int} (h : 0 < length) : 0 < blocksOf length := by
  unfold blocksOf
  omega

/-- The nodes that there are before block `k` is complete are there afterwards. -/
theorem upto_inTree {e k g : Nat} {q : Path} (hg : 0 < g) (h : Upto e k q) : InTree (k + g) q := by
  rcases h with h | h
  · exact inTree_mono (Nat.le_add_right k g) h
  · exact .inr ⟨k, by omega, h.trans (drop_suffix e _)⟩

variable {p : Path}

theorem Entry.not_upto {e k i : Nat} (h : Entry e k i p) : ¬ Upto (e + 1) k (i :: p) := by
  rintro (hin | hsuffix)
  · exact h.new hin
  · rw [drop_succ h.path] at hsuffix
    have := hsuffix.length_le
    rw [length_cons] at this
    omega

namespace Fs

open BlockStore

variable {fs' : Fs SectorStore} {inode : Inode} {a : Nat}

section

variable {fs : Fs SectorStore} {depth r : Nat} {U : Nat → Path → Prop} {d : Disk}

/-- What the state has to be like for the tree of `r` to be freed. -/
structure FreeOk (fs : Fs SectorStore) (U : Nat → Path → Prop) (d : Disk) (r : Nat) : Prop where
  sound : Sound fs U d
  other : fs.mapRoot ≠ some r
  file : fs.freeMapFile ≠ none

theorem FreeOk.congr (h : FreeOk fs U d r) (hsize : fs'.store.size = fs.store.size)
    (hfile : fs'.freeMapFile = fs.freeMapFile) (hmi : fs'.mapInode = fs.mapInode) :
    FreeOk fs' U d r := by
  refine ⟨h.sound.of_state hsize (fun hf => ?_), ?_, by rw [hfile]; exact h.file⟩
  · rw [hmi]
    exact h.sound.mapFile (by rw [← hfile]; exact hf)
  · rw [mapRoot, hmi]
    exact h.other

variable {R S : Path → Prop} {im : Image} {q : Path}

/-- **One call of `free_map_release`.**  The assertion in it holds. -/
theorem release_does (hok : FreeOk fs U d r) (hheld : Held fs U d r R im.disk)
    (hlock : Unhindered fs U d r im.lock) (hq : U r q) (hR : R q) (hpos : 3 ≤ d.node r q) :
    Does (freeMapRelease depth (d.node r q)) fs im True (fun _ im' =>
      Held fs U d r (fun p => R p ∧ p ≠ q) im'.disk ∧ im'.lock = im.lock ∧
        Releases fs depth [d.node r q] im im') := by
  have hs := hok.sound
  have hfresh : ∀ r' p, Others U r r' p → im.disk.node r' p ≠ d.node r q := by
    intro r' p hp he
    rw [hheld.nodes r' p hp] at he
    exact hp.1 (hs.node_inj hp.2 hq he).1
  have hset : im.disk.map.isSet (d.node r q) = true := by
    refine (hheld.map _).mpr ⟨hs.used r q hq, fun q' hq' he => ?_⟩
    obtain ⟨-, rfl⟩ := hs.node_inj hq hq' he
    exact hR
  obtain ⟨_, _, hrun, im', rfl, -, hsaved⟩ :=
    (freeMapRelease_does depth hheld.sound hfresh hpos).returns
      ⟨hlock.mapReady hheld, by rw [hheld.bitCnt]; exact hs.bit r q hq, hset, hok.file⟩
  refine (meets_ok hrun).mpr ⟨im', rfl, ?_, hsaved.lock, .call rfl hrun (.nil rfl)⟩
  have hmap : ∀ t, im'.disk.map.isSet t = true ↔
      im.disk.map.isSet t = true ∧ t ≠ d.node r q := by
    intro t
    rw [hsaved.map, Bitmap.isSet_reset]
    by_cases ht : t = d.node r q
    · simp [ht]
    · simp [ht, update_of_ne]
  refine ⟨?_, by rw [hsaved.map]; exact hheld.bitCnt, fun p hp => ?_, fun r' p hp => ?_,
    fun t => ?_⟩
  · refine hsaved.sound hheld.sound rfl (fun r' p hp => ?_) (fun t ht => ?_)
    · rw [← hsaved.map]
      exact (hmap _).mpr ⟨hheld.sound.used r' p hp, hfresh r' p hp⟩
    · rw [← hsaved.map]
      exact (hmap t).mpr ⟨hheld.sound.reserved t ht, by omega⟩
  · rw [← hheld.data p hp]
    refine hsaved.frame _ ?_
    rintro ⟨r', k, -, hk, he⟩
    rw [hheld.nodes r' _ hk] at he
    exact hk.1 (hs.node_inj hp hk.2 he).1.symm
  · rw [hsaved.node_eq hheld.sound hp, hheld.nodes r' p hp]
  · rw [hmap, hheld.map]
    constructor
    · rintro ⟨⟨hd, hall⟩, hne⟩
      refine ⟨hd, fun q' hq' he => ⟨hall q' hq' he, ?_⟩⟩
      rintro rfl
      exact hne he
    · rintro ⟨hd, hall⟩
      exact ⟨⟨hd, fun q' hq' he => (hall q' hq' he).1⟩, fun he => (hall q hq he).2 rfl⟩

theorem release_frees (hok : FreeOk fs U d r) (hheld : Held fs U d r R im.disk)
    (hlock : Unhindered fs U d r im.lock) (hq : U r q) (hR : R q) (hpos : 3 ≤ d.node r q) :
    Does (freeMapRelease depth (d.node r q)) fs im True (fun _ im' =>
      Freed fs depth U d r R (· = q) im im') := by
  refine (release_does hok hheld hlock hq hR hpos).mono ?_ id
  rintro _ im' ⟨hheld', hlock', hcalls⟩
  exact ⟨hheld', hlock', [q], nodup_singleton q, fun p => mem_singleton, hcalls⟩

/-! ### Entries -/

/-- What `step` releases of an entry at level `e` with at most `g` blocks below it. -/
def FreeSpec (fs : Fs SectorStore) (depth : Nat) (U : Nat → Path → Prop) (d : Disk) (r e g : Nat)
    (step : Nat → Int → Exec (Fs SectorStore) Int) : Prop :=
  ∀ (R : Path → Prop) (im : Image) (k i : Nat) (p : Path) (length : Int), Entry e k i p →
    0 < length → (∀ q, InTree (k + min g (blocksOf length)) q → U r q) →
    (∀ q, InTree (k + min g (blocksOf length)) q → ¬ Upto (e + 1) k q → R q) →
    Held fs U d r R im.disk → Unhindered fs U d r im.lock →
    Does (step (d.node r (i :: p)) length) fs im True (fun length' im' =>
      length' = length - 512 * (min g (blocksOf length) : Nat) ∧
      Freed fs depth U d r R
        (fun q => InTree (k + min g (blocksOf length)) q ∧ ¬ Upto (e + 1) k q) im im')

variable {e g k i : Nat} {length : Int} {step : Nat → Int → Exec (Fs SectorStore) Int}

/-- `free_direct`. -/
theorem freeSpec_direct (hok : FreeOk fs U d r) :
    FreeSpec fs depth U d r 0 1 (freeDirect depth) := by
  intro R im k i p length he hlen hU hR hheld hlock
  have hone : min 1 (blocksOf length) = 1 := by
    unfold blocksOf
    omega
  rw [hone] at hU hR ⊢
  have hnode : InTree (k + 1) (i :: p) := upto_zero.mp ((upto_succ he.path).mpr (.inr rfl))
  have hB : ∀ q, InTree (k + 1) q ∧ ¬ Upto 1 k q ↔ q = i :: p := by
    intro q
    rw [← upto_zero, upto_succ he.path]
    constructor
    · rintro ⟨hq, hn⟩
      exact hq.resolve_left hn
    · rintro rfl
      exact ⟨.inr rfl, he.not_upto⟩
  unfold freeDirect
  refine does_assert (fun _ => hlen) (fun _ => ?_)
  refine (release_frees hok hheld hlock (hU _ hnode) (hR _ hnode he.not_upto)
    (hok.sound.inner _ _ (hU _ hnode) nofun)).bind ?_ id
  intro _ im' hfreed
  exact does_pure ⟨by push_cast; omega, hfreed.congr (fun q => (hB q).symm)⟩

theorem freeEach_cons (cacheBlock : Nat) (is : List Nat) :
    freeEach step cacheBlock (i :: is) length = (do
      let s ← load ⟨cacheBlock, i⟩
      let length ← step s length
      if length ≤ 0 then pure length else freeEach step cacheBlock is length) := rfl

/-- **A loop over entries.** -/
theorem freeEach_does (hg : 0 < g) (hstep : FreeSpec fs depth U d r e g step) (n : Nat) :
    ∀ (R : Path → Prop) (im : Image) (k i : Nat) (length : Int), Entries e g k i (n + 1) p →
      0 < length → (∀ q, InTree (k + min (g * (n + 1)) (blocksOf length)) q → U r q) →
      (∀ q, InTree (k + min (g * (n + 1)) (blocksOf length)) q → ¬ Upto (e + 1) k q → R q) →
      Held fs U d r R im.disk → Unhindered fs U d r im.lock →
      Does (freeEach step (d.node r p) (range' i (n + 1)) length) fs im True
        (fun length' im' =>
          length' = length - 512 * (min (g * (n + 1)) (blocksOf length) : Nat) ∧
          Freed fs depth U d r R (fun q =>
            InTree (k + min (g * (n + 1)) (blocksOf length)) q ∧ ¬ Upto (e + 1) k q) im im') := by
  induction n with
  | zero =>
    intro R im k i length hent hlen hU hR hheld hlock
    rw [Nat.mul_one] at hU hR ⊢
    have hp : U r p := hU _ (upto_inTree (lt_min hg (blocksOf_pos hlen))
      (.inr (by rw [drop_succ hent.head.path])))
    show Does (freeEach step _ [i] length) fs im True _
    rw [freeEach_cons]
    refine does_load ?_
    rw [hheld.word hp]
    refine (hstep R im k i p length hent.head hlen hU hR hheld hlock).bind ?_ id
    rintro _ im' ⟨rfl, hfreed⟩
    rw [freeEach, ite_self]
    exact does_pure ⟨rfl, hfreed⟩
  | succ n ih =>
    intro R im k i length hent hlen hU hR hheld hlock
    have hp : U r p := hU _ (upto_inTree
      (lt_min (Nat.mul_pos hg (Nat.succ_pos _)) (blocksOf_pos hlen))
      (.inr (by rw [drop_succ hent.head.path])))
    rw [range'_succ, freeEach_cons]
    refine does_load ?_
    rw [hheld.word hp]
    rw [Nat.mul_add_one g (n + 1)] at hU hR ⊢
    by_cases hdone : length - 512 * (min g (blocksOf length) : Nat) ≤ 0
    · -- the first entry uses up the length
      rw [min_blocksOf_done hdone] at hU hR ⊢
      refine (hstep R im k i p length hent.head hlen hU hR hheld hlock).bind ?_ id
      rintro _ im' ⟨rfl, hfreed⟩
      rw [if_pos hdone]
      exact does_pure ⟨rfl, hfreed⟩
    · obtain ⟨hx, hrest⟩ := min_blocksOf_rest (G := g * (n + 1)) hdone
      rw [hrest, ← Nat.add_assoc] at hU hR
      rw [hrest]
      have hfirst := hstep R im k i p length hent.head hlen
      rw [hx] at hfirst hdone
      have hsub : ∀ q, InTree (k + g) q →
          InTree (k + g + min (g * (n + 1)) (blocksOf (length - 512 * (g : Nat)))) q :=
        fun q => inTree_mono (Nat.le_add_right _ _)
      refine (hfirst (fun q hq => hU q (hsub q hq)) (fun q hq => hR q (hsub q hq)) hheld
        hlock).bind ?_ id
      rintro _ im' ⟨rfl, hfreed⟩
      rw [if_neg hdone]
      -- the parent of the other entries is among what this one left
      have hmem : InTree (k + g) ((dataPath (k + g)).drop (e + 1)) := by
        rw [drop_succ hent.tail.head.path]
        exact hent.inTree (by omega) hg
      have hupto : Upto (e + 1) (k + g) = InTree (k + g) :=
        funext fun q => propext (upto_of_mem hmem)
      have hAB : ∀ q, Upto (e + 1) k q → InTree (k + g) q := fun q => upto_inTree hg
      have hnext := ih (fun q => R q ∧ ¬ (InTree (k + g) q ∧ ¬ Upto (e + 1) k q)) im' (k + g)
        (i + 1) _ hent.tail (Int.not_le.mp hdone) hU
      rw [hupto] at hnext
      refine (hnext (fun q hq hn => ⟨hR q hq (fun h => hn (hAB q h)), fun h => hn h.1⟩)
        hfreed.held (by rw [hfreed.lock]; exact hlock)).mono ?_ id
      rintro _ im₂ ⟨rfl, hfreed₂⟩
      rw [← Nat.add_assoc]
      refine ⟨by push_cast; omega, (hfreed.trans hfreed₂ (fun q h h' => h'.2 h.1)).congr ?_⟩
      intro q
      have := hAB q
      have := hsub q
      tauto

/-- **An index block** is an entry of the tier above: what its entries hold, and the block. -/
theorem freeSpec_index (hok : FreeOk fs U d r) (hg : 0 < g)
    (hstep : FreeSpec fs depth U d r e g step)
    (hchild : ∀ k i p, Entry (e + 1) k i p → Entries e g k 0 128 (i :: p)) :
    FreeSpec fs depth U d r (e + 1) (g * 128) (freeIndex depth step) := by
  intro R im k i p length he hlen hU hR hheld hlock
  have hpos : 0 < min (g * 128) (blocksOf length) :=
    lt_min (Nat.mul_pos hg (by decide)) (blocksOf_pos hlen)
  have hnode : InTree (k + min (g * 128) (blocksOf length)) (i :: p) :=
    upto_inTree hpos ((upto_succ he.path).mpr (.inr rfl))
  have hu := hU _ hnode
  have hupto : ∀ q, Upto (e + 1) k q ↔ Upto (e + 2) k q ∨ q = i :: p := fun q =>
    upto_succ he.path
  unfold freeIndex
  refine does_assert (fun _ => hlen) (fun _ => ?_)
  refine does_readBlock (fun _ => ⟨hok.sound.inside _ _ hu, hlock.tree _ hu⟩) (fun l _ hl => ?_)
  rw [entriesPerSector, range_eq_range']
  refine (freeEach_does hg hstep 127 R (im.enter (d.node r (i :: p)) l) k 0 length
    (hchild k i p he) hlen hU
    (fun q hq hn => hR q hq (fun h => hn ((hupto q).mpr (.inl h)))) hheld
    (hlock.enter hok.sound hok.other hu hl)).bind ?_ id
  rintro _ im₁ ⟨rfl, hfreed⟩
  refine does_readEnd ?_
  replace hfreed := hfreed.readSection hl
  refine (release_frees hok hfreed.held (by rw [hfreed.lock]; exact hlock) hu
    ⟨hR _ hnode he.not_upto, fun h => h.2 ((hupto _).mpr (.inr rfl))⟩
    (hok.sound.inner _ _ hu (by simp))).bind ?_ id
  intro _ im₂ hfreed₂
  refine does_pure ⟨rfl, (hfreed.trans hfreed₂ ?_).congr (fun q => ?_)⟩
  · rintro q hq rfl
    exact hq.2 ((hupto _).mpr (.inr rfl))
  · rw [hupto q]
    constructor
    · rintro (⟨hq, hn⟩ | rfl)
      · exact ⟨hq, fun h => hn (.inl h)⟩
      · exact ⟨hnode, he.not_upto⟩
    · rintro ⟨hq, hn⟩
      by_cases hqp : q = i :: p
      · exact .inr hqp
      · exact .inl ⟨hq, fun h => h.elim hn hqp⟩

/-- `free_indirect`. -/
theorem freeSpec_indirect (hok : FreeOk fs U d r) :
    FreeSpec fs depth U d r 1 128 (freeIndirect depth) := by
  have h := freeSpec_index hok Nat.one_pos (freeSpec_direct hok : FreeSpec fs depth U d r 0 1 _)
    (fun _ _ _ h => h.blocks)
  rwa [Nat.one_mul] at h

/-- `free_double_indirect`. -/
theorem freeSpec_doubleIndirect (hok : FreeOk fs U d r) :
    FreeSpec fs depth U d r 2 (128 * 128) (freeDoubleIndirect depth) :=
  freeSpec_index hok (by omega) (freeSpec_indirect hok) (fun _ _ _ h => h.indices)

/-! ### The tiers of `inode_close` -/

/-- The loops of `inode_close` only differ from the others in where they look at the length. -/
theorem closeEach_eq (cacheBlock : Nat) (is : List Nat) :
    ∀ length, closeEach step cacheBlock is length =
      if length ≤ 0 then pure length else freeEach step cacheBlock is length := by
  induction is with
  | nil =>
    intro length
    rw [closeEach, freeEach, ite_self]
  | cons i is ih =>
    intro length
    rw [closeEach, freeEach]
    simp only [ih]

theorem closeDouble_eq (cacheBlock : Nat) :
    (closeDouble depth cacheBlock length : Exec (Fs SectorStore) Int) =
      closeEach (freeDoubleIndirect depth) cacheBlock (range' doubleIndirect 1) length := by
  show _ = closeEach _ cacheBlock [doubleIndirect] length
  rw [closeEach, closeDouble]
  by_cases h : length ≤ 0
  · rw [if_pos h, if_neg (by omega)]
  · rw [if_neg h, if_pos (by omega)]
    simp only [closeEach, bind_pure]

/-- The sectors of the first `k` blocks have been released. -/
def FreedBlocks (fs : Fs SectorStore) (depth : Nat) (U : Nat → Path → Prop) (d : Disk) (r k : Nat) :
    Image → Image → Prop :=
  Freed fs depth U d r (U r) (fun q => InTree k q ∧ q ≠ [])

/-- **A tier of the inode**, after those before it. -/
theorem closeEach_does {im₀ : Image} (hg : 0 < g) (hstep : FreeSpec fs depth U d r e g step)
    (n : Nat) (length : Int) (hent : 0 < length → Entries e g k i (n + 1) [])
    (hU : ∀ q, InTree (k + min (g * (n + 1)) (blocksOf length)) q → U r q)
    (hlock : Unhindered fs U d r im₀.lock) (hfreed : FreedBlocks fs depth U d r k im₀ im) :
    Does (closeEach step r (range' i (n + 1)) length) fs im True (fun length' im' =>
      length' = length - 512 * (min (g * (n + 1)) (blocksOf length) : Nat) ∧
      FreedBlocks fs depth U d r (k + min (g * (n + 1)) (blocksOf length)) im₀ im') := by
  rw [closeEach_eq]
  by_cases hlen : length ≤ 0
  · have hzero : min (g * (n + 1)) (blocksOf length) = 0 := by
      unfold blocksOf
      omega
    rw [if_pos hlen, hzero, Nat.add_zero]
    exact does_pure ⟨by rw [Nat.cast_zero, mul_zero, sub_zero], hfreed⟩
  · rw [if_neg hlen]
    have hpos := Int.not_le.mp hlen
    have hnil : (dataPath k).drop (e + 1) = [] := drop_succ (hent hpos).head.path
    have hupto : Upto (e + 1) k = InTree k :=
      funext fun q => propext (upto_of_mem (by rw [hnil]; exact inTree_nil k))
    have hloop := freeEach_does hg hstep n (fun q => U r q ∧ ¬ (InTree k q ∧ q ≠ [])) im k i length
      (hent hpos) hpos hU
    rw [hupto] at hloop
    refine (hloop (fun q hq hn => ⟨hU q hq, fun h => hn h.1⟩) hfreed.held
      (by rw [hfreed.lock]; exact hlock)).mono ?_ id
    rintro _ im' ⟨rfl, hfreed'⟩
    refine ⟨rfl, (hfreed.trans hfreed' (fun q h h' => h'.2 h.1)).congr (fun q => ?_)⟩
    have hmono : InTree k q → InTree (k + min (g * (n + 1)) (blocksOf length)) q :=
      inTree_mono (Nat.le_add_right _ _)
    have hnil' : q = [] → InTree k q := fun h => h ▸ inTree_nil k
    tauto

/-- The rule for reading a block, for goals that are not to be evaluated. -/
theorem does_dataOf_iff {β : Type} {t : Nat} {f : Sector → Exec (Fs SectorStore) β}
    {P : β → Image → Prop} {ok : Prop} :
    Does (dataOf t >>= f) fs im ok P ↔ Does (f (im.disk.data t)) fs im ok P := Iff.rfl

/-- **The deallocation in `inode_close`** of a file of `L` bytes. -/
theorem freeBlocks_does {L : Nat} (hok : FreeOk fs U d r) (hfile : IsFile U d r L)
    (hpos : 3 ≤ r) (hdisk : im.disk = d) (hlock : Unhindered fs U d r im.lock) :
    Does (freeBlocks depth r) fs im True (fun _ im' =>
      Freed fs depth U d r (U r) (U r) im im') := by
  obtain ⟨x₁, ℓ₁, x₂, ℓ₂, x₃, hx₁, hℓ₁, hx₂, hℓ₂, hx₃, htotal, hstart₁, hstart₂⟩ :=
    blocks_of_tiers L
  have hsub : ∀ n q, n ≤ x₁ + x₂ + x₃ → InTree n q → U r q := by
    intro n q hn hq
    rw [hfile.tree, htotal]
    exact inTree_mono hn hq
  have hroot := hfile.root
  unfold freeBlocks
  refine does_readBlock (fun _ => ⟨hok.sound.inside _ _ hroot, hlock.tree _ hroot⟩)
    (fun l _ hl => ?_)
  rw [does_dataOf_iff, Image.enter_disk, hdisk, hfile.diskLength]
  have hlock₀ : Unhindered fs U d r (im.enter r l).lock :=
    hlock.enter hok.sound hok.other hroot hl
  have hfreed₀ : FreedBlocks fs depth U d r 0 (im.enter r l) (im.enter r l) := by
    refine ⟨?_, rfl, [], nodup_nil, fun q => ?_, .nil rfl⟩
    · rw [Image.enter_disk, hdisk]
      exact (held_start hok.sound hok.other).congr (fun q => by rw [inTree_zero]; tauto)
    · rw [inTree_zero]
      simp
  have hdirect := closeEach_does (k := 0) (i := 0) Nat.one_pos (freeSpec_direct hok) 59 (L : Int)
    (fun _ j hj => by rw [Nat.one_mul, Nat.zero_add]; exact entry_direct hj)
    (fun q => hsub _ q (by omega)) hlock₀ hfreed₀
  rw [← hx₁, Nat.zero_add, ← hℓ₁] at hdirect
  refine Does.bind hdirect ?_ id
  rintro ℓ im₁ ⟨hℓ, hfreed₁⟩
  rw [hℓ]
  have hsingle := closeEach_does (k := x₁) (i := 60) (by omega) (freeSpec_indirect hok) 39 ℓ₁
    (fun h j hj => by rw [hstart₁ h]; exact entry_single hj)
    (fun q => hsub _ q (by omega)) hlock₀ hfreed₁
  rw [← hx₂, ← hℓ₂] at hsingle
  refine Does.bind hsingle ?_ id
  rintro ℓ' im₂ ⟨hℓ', hfreed₂⟩
  rw [hℓ', closeDouble_eq]
  have hdouble := closeEach_does (k := x₁ + x₂) (i := 100) (by omega) (freeSpec_doubleIndirect hok)
    0 ℓ₂
    (fun h j hj => by
      obtain rfl : j = 0 := by omega
      rw [hstart₂ h]
      exact entry_double)
    (fun q => hsub _ q (by omega)) hlock₀ hfreed₂
  rw [← hx₃] at hdouble
  refine Does.bind hdouble ?_ id
  rintro - im₃ ⟨-, hfreed₃⟩
  refine does_readEnd ?_
  replace hfreed₃ := Freed.readSection hfreed₃ hl
  -- the sector of the inode comes last
  refine (release_frees (q := []) hok hfreed₃.held (by rw [hfreed₃.lock]; exact hlock) hroot
    ⟨hroot, fun h => h.2 rfl⟩ hpos).mono ?_ id
  intro _ im₄ hfreed₄
  refine (hfreed₃.trans hfreed₄ (fun q h => h.2)).congr (fun q => ?_)
  rw [hfile.tree, htotal]
  constructor
  · rintro (hq | rfl)
    · exact hq.1
    · exact inTree_nil _
  · intro hq
    by_cases hnil : q = []
    · exact .inr hnil
    · exact .inl ⟨hq, hnil⟩

/-! ### The last close -/

/-- The state in which `inode_close` frees the blocks of the inode at address `a`. -/
def closing (fs : Fs SectorStore) (a : Nat) (inode : Inode) : Fs SectorStore :=
  { fs with
    inodes := Function.update fs.inodes a (some { inode with openCnt := 0 })
    openInodes := fs.openInodes.erase a }

/-- The file of the free map does not depend on the other inodes. -/
theorem mapInode_congr (hfile : fs'.freeMapFile = fs.freeMapFile) (hfiles : fs'.files = fs.files)
    (hinodes : ∀ b, b ≠ a → fs'.inodes b = fs.inodes b)
    (hne : ∀ f file, fs.freeMapFile = some f → fs.files f = some file → file.inode ≠ a) :
    fs'.mapInode = fs.mapInode := by
  cases hf : fs.freeMapFile with
  | none => simp only [mapInode, hfile, hf]
  | some f =>
    cases hfile' : fs.files f with
    | none => simp only [mapInode, hfile, hfiles, hf, hfile']
    | some file => simp only [mapInode, hfile, hfiles, hf, hfile', hinodes _ (hne f file hf hfile')]

theorem mapInode_closing (ha : fs.inodes a = some inode) (hr : fs.mapRoot ≠ some inode.sector) :
    (fs.closing a inode).mapInode = fs.mapInode := by
  refine mapInode_congr (a := a) rfl rfl (fun b hb => update_of_ne hb _ _) ?_
  rintro f file hf hfile rfl
  refine hr ?_
  simp only [mapRoot, mapInode, hf, hfile, ha]
  rfl

/-- **The last close of a removed inode.** -/
theorem inodeClose_frees {L : Nat} (ha : fs.inodes a = some inode) (hcnt : inode.openCnt = 1)
    (hremoved : inode.removed = true) (hok : FreeOk fs U fs.image.disk inode.sector)
    (hfile : IsFile U fs.image.disk inode.sector L) (hpos : 3 ≤ inode.sector)
    (hlock : Unhindered fs U fs.image.disk inode.sector fs.store.lock) :
    Returns (inodeClose depth (some a)) fs (fun _ fs' =>
      Freed (fs.closing a inode) depth U fs.image.disk inode.sector (U inode.sector)
        (U inode.sector) fs.image fs'.image) := by
  have hmi := mapInode_closing ha hok.other
  have hok' : FreeOk (fs.closing a inode) U fs.image.disk inode.sector := hok.congr rfl rfl hmi
  have hlock' : Unhindered (fs.closing a inode) U fs.image.disk inode.sector fs.image.lock :=
    ⟨by rw [hmi]; exact hlock.extension, by rw [hmi]; exact hlock.mapFile, hlock.tree⟩
  have hdoes : Does (freeBlocks depth inode.sector) (fs.closing a inode) fs.image True _ :=
    freeBlocks_does hok' hfile hpos rfl hlock'
  obtain ⟨_, _, hrun, im', rfl, hfreed⟩ := hdoes.returns trivial
  have hfree : (freeIfRemoved depth inode).run (fs.closing a inode) =
      .ok ((), (fs.closing a inode).withImage im') := by
    rw [freeIfRemoved, if_pos hremoved]
    exact hrun
  have hwrap : wrap (inode.openCnt - 1) = 0 := by
    rw [hcnt]
    rfl
  unfold inodeClose
  rw [returns_step (getInode_run ha)]
  dsimp only
  rw [hwrap, if_pos rfl]
  refine (returns_step rfl).mpr ((returns_step rfl).mpr ((returns_step hfree).mpr ?_))
  rw [returns_update]
  exact hfreed

end

/-! ### A file that is created, removed and closed -/

section

variable {fs : Fs SectorStore} {U : Nat → Path → Prop} {r L depth : Nat} {im : Image}

theorem inodeOpen_eq (h : NotOpen fs r) (hrun : (inodeOpen r).run fs = .ok (some a, fs')) :
    a = fs.brk ∧ fs' = openInode fs r := by
  rw [inodeOpen, read_bind, bind_ok (findOpen_none h), newInode] at hrun
  obtain ⟨o, fs₁, hmalloc, hrest⟩ := bind_eq_ok.mp hrun
  rw [allocate, read_bind, update_bind] at hmalloc
  split at hmalloc
  · cases hmalloc
    cases hrest
    exact ⟨rfl, rfl⟩
  · cases hmalloc
    cases hrest

theorem inodeRemove_run (ha : fs.inodes a = some inode) :
    (inodeRemove a).run fs = .ok ((),
      { fs with inodes := Function.update fs.inodes a (some { inode with removed := true }) }) := by
  rw [inodeRemove, bind_ok (getInode_run ha)]
  rfl

/-- The last close of a file that `inode_create` made and that has been removed since. -/
theorem close_restores (inode : Inode) (hL : L < 2 ^ 31) (hs : Sound fs U fs.image.disk)
    (hfile : fs.freeMapFile ≠ none) (hp : Plantable fs U fs.image.disk inode.sector)
    (hpos : 3 ≤ inode.sector) (hq : Quiet fs)
    (hc : Creates fs U inode.sector L fs.image true fs'.image)
    (hsize : fs'.store.size = fs.store.size) (hfile' : fs'.freeMapFile = fs.freeMapFile)
    (hmi : fs'.mapInode = fs.mapInode) (ha : fs'.inodes a = some inode)
    (hcnt : inode.openCnt = 1) (hremoved : inode.removed = true) :
    Returns (inodeClose depth (some a)) fs' (fun _ fs'' =>
      fs''.freeMap = fs.freeMap.reset inode.sector) := by
  have hr := hp.mapRoot_ne hs
  have hf := hc.isFile hs hp hL
  have hmap := hc.isSet_iff hs hp
  obtain ⟨im₀, hatt, hplant, -⟩ := hc
  obtain rfl := hplant rfl
  obtain ⟨hg, hlock⟩ := hatt.grown
  have hok : FreeOk fs' (With U inode.sector (InTree (treeBlocks L))) fs'.image.disk inode.sector :=
    FreeOk.congr ⟨hg.sound (hp.sound hs) hr, hr, hfile⟩ hsize hfile' hmi
  have hfree : ∀ t, fs'.store.lock t = RwLock.free :=
    fun t => (congrFun hlock t).trans (hq.locks t)
  refine (inodeClose_frees ha hcnt hremoved hok hf hpos
    ⟨by rw [hmi]; exact hq.unlocked, fun _ _ _ _ _ => hfree _, fun _ _ => ?_⟩).mono ?_
  · rw [hfree]
    exact RwLock.readable_free
  · intro _ fs'' hfreed
    refine Bitmap.eq_of_isSet (hfreed.held.bitCnt.trans hg.bitCnt_eq) (fun t => ?_)
    rw [Bitmap.isSet_reset]
    refine (hfreed.isSet_iff t).trans ?_
    simp only [with_at]
    rw [hmap]
    by_cases ht : t = inode.sector
    · simp [ht]
    · simp [ht]

/-- **A file that is created, removed and closed** leaves the free map as it was before its inode
    got a sector. -/
theorem createRemoveClose_restores {fs₁ fs₂ : Fs SectorStore} (hL : L < 2 ^ 31)
    (hs : Sound fs U fs.image.disk) (hfile : fs.freeMapFile ≠ none)
    (hp : Plantable fs U fs.image.disk r) (hpos : 3 ≤ r) (hq : Quiet fs) (hopen : NotOpen fs r)
    (hbrk : fs.inodes fs.brk = none)
    (hcreate : (inodeCreate (freeMapAllocate (depth + 1)) r L).run fs = .ok (true, fs₁))
    (hrun : (inodeOpen r).run fs₁ = .ok (some a, fs₂)) :
    Returns (do inodeRemove a; inodeClose depth (some a)) fs₂ (fun _ fs' =>
      fs'.freeMap = fs.freeMap.reset r) := by
  obtain ⟨im, rfl, hc⟩ := (inodeCreate_does depth L hL hs hp).ensures _ _ hcreate
  have hopen' : NotOpen (fs.withImage im) r := hopen
  obtain ⟨rfl, rfl⟩ := inodeOpen_eq hopen' hrun
  have hget : (openInode (fs.withImage im) r).inodes (fs.withImage im).brk =
      some ⟨r, 1, false, 0, none⟩ := update_self _ _ _
  rw [returns_step (inodeRemove_run hget)]
  -- the new inode is not that of the free map's file
  have hne : ∀ f file, fs.freeMapFile = some f → fs.files f = some file → file.inode ≠ fs.brk := by
    rintro f file hf hfile' he
    obtain ⟨_, _, hmi, -⟩ := hs.mapFile hfile
    simp only [mapInode, hf, hfile', he, hbrk] at hmi
    cases hmi
  refine close_restores ⟨r, 1, true, 0, none⟩ hL hs hfile hp hpos hq hc rfl rfl ?_
    (update_self _ _ _) rfl rfl
  exact mapInode_congr (a := fs.brk) rfl rfl (fun b hb =>
    (update_of_ne hb _ _).trans (update_of_ne hb _ _)) hne

end

/-- **Deleting a file releases exactly its sectors.**  The last `inode_close` of a removed inode
    whose file has `L` bytes calls `free_map_release` once on each sector of its tree, so that
    exactly their bits are off afterwards; and `inode_create`, `inode_open`, `inode_remove` and
    `inode_close` leave the free map that there was before sector `r` was taken for the inode. -/
theorem inode_close_releases {fs : Fs SectorStore} {U : Nat → Path → Prop} (depth : Nat)
    (hs : Sound fs U fs.image.disk) (hfile : fs.freeMapFile ≠ none) :
    (∀ (a L : Nat) (inode : Inode), fs.inodes a = some inode → inode.openCnt = 1 →
      inode.removed = true → IsFile U fs.image.disk inode.sector L → L ≤ 11040768 →
      3 ≤ inode.sector → fs.mapRoot ≠ some inode.sector →
      Unhindered fs U fs.image.disk inode.sector fs.store.lock →
      Returns (inodeClose depth (some a)) fs (fun _ fs' => ∃ l : List Nat, l.Nodup ∧
        (∀ s, s ∈ l ↔
          ∃ q, InTree ((L + 511) / 512) q ∧ fs.image.disk.node inode.sector q = s) ∧
        Releases (fs.closing a inode) depth l fs.image fs'.image ∧
        ∀ t, fs'.freeMap.isSet t = true ↔ fs.freeMap.isSet t = true ∧ t ∉ l)) ∧
    (∀ (r L a : Nat) (fs₁ fs₂ : Fs SectorStore), L ≤ 11040768 →
      Plantable fs U fs.image.disk r → 3 ≤ r → Quiet fs → NotOpen fs r →
      fs.inodes fs.brk = none →
      (inodeCreate (freeMapAllocate (depth + 1)) r L).run fs = .ok (true, fs₁) →
      (inodeOpen r).run fs₁ = .ok (some a, fs₂) →
      Returns (do inodeRemove a; inodeClose depth (some a)) fs₂ (fun _ fs' =>
        fs'.freeMap = fs.freeMap.reset r)) := by
  constructor
  · intro a L inode ha hcnt hremoved hf hL hpos hr hlock
    refine (inodeClose_frees ha hcnt hremoved ⟨hs, hr, hfile⟩ hf hpos hlock).mono ?_
    intro _ fs' hfreed
    have hblocks : treeBlocks L = (L + 511) / 512 := by
      unfold treeBlocks maxBlocks
      omega
    obtain ⟨ps, hnd, hmem, hcalls⟩ := hfreed.calls
    refine ⟨_, ?_, fun s => ?_, hcalls, fun t => ?_⟩
    · refine hnd.map_on (fun p hp q hq he => ?_)
      exact (hs.node_inj ((hmem p).mp hp) ((hmem q).mp hq) he).2
    · rw [mem_map, ← hblocks]
      simp only [hmem, hf.tree]
    · refine (hfreed.isSet_iff t).trans (and_congr_right' ?_)
      rw [mem_map]
      simp only [hmem, not_exists, not_and, ne_comm, ne_eq]
  · intro r L a fs₁ fs₂ hL hp hpos hq hopen hbrk hcreate hrun
    exact createRemoveClose_restores (by omega) hs hfile hp hpos hq hopen hbrk hcreate hrun

end Fs

/-! ### A device with files -/

/-- The disk with a new file of one block at sector `r`; sector `s` is the block. -/
def Disk.plantBlock (d : Disk) (r s L : Nat) : Disk where
  map := d.map.mark s
  data := Function.update (Function.update d.data s Bytes.zero) r ((newInodeSector L).setWord 0 s)

section

variable {fs : Fs SectorStore} {U : Nat → Path → Prop} {d : Disk} {r s L : Nat}

/-- One block is attached to a new inode. -/
theorem attach_plantBlock (hp : Plantable fs U d r) (hfree : d.map.isSet s = false)
    (hin : s < fs.store.size) (hbit : s < d.map.bitCnt) :
    Attach fs (With U r (InTree 0)) r 0 [] s (d.plant r L) (d.plantBlock r s L) := by
  have hne : s ≠ r := by
    rintro rfl
    rw [hp.used] at hfree
    cases hfree
  refine ⟨hfree, hin, hbit, rfl, ?_, ?_, fun t ht htr _ => ?_⟩
  · exact (update_of_ne hne _ _).trans (update_self _ _ _)
  · show (d.plantBlock r s L).data r = ((d.plant r L).data r).setWord 0 s
    rw [Disk.plant_root]
    exact update_self _ _ _
  · have htr' : t ≠ r := htr
    exact ((update_of_ne htr' _ _).trans (update_of_ne ht _ _)).trans
      (update_of_ne htr' _ _).symm

theorem inTree_one (p : Path) : InTree 1 p ↔ InTree 0 p ∨ p = [0] := by
  rw [← upto_zero, upto_succ (show (dataPath 0).drop 0 = 0 :: [] from rfl)]
  exact or_congr_left (upto_of_mem (inTree_nil 0))

theorem plantBlock_sound (hs : Sound fs U d) (hp : Plantable fs U d r)
    (hfree : d.map.isSet s = false) (hin : s < fs.store.size) (hbit : s < d.map.bitCnt) :
    Sound fs (With U r (InTree 1)) (d.plantBlock r s L) := by
  have hblock : InTree 1 [0] := (inTree_one _).mpr (.inr rfl)
  have hnew : ¬ With U r (InTree 0) r [0] := by
    rw [with_at, inTree_zero]
    nofun
  rw [← add_with inTree_one]
  exact (attach_plantBlock hp hfree hin hbit).sound (hp.sound hs) (hp.mapRoot_ne hs)
    (with_at.mpr (inTree_nil 0)) hnew (inTree_mono (by decide) hblock)

/-- The nodes are those that were there, the inode and the block. -/
theorem node_plantBlock (hs : Sound fs U d) (hp : Plantable fs U d r)
    (hfree : d.map.isSet s = false) (hin : s < fs.store.size) (hbit : s < d.map.bitCnt)
    {r' : Nat} (h : With U r (InTree 1) r' p) :
    (U r' p ∧ (d.plantBlock r s L).node r' p = d.node r' p) ∨
      (d.plantBlock r s L).node r' p = r ∨ (d.plantBlock r s L).node r' p = s := by
  have ha := attach_plantBlock (L := L) hp hfree hin hbit
  have hs₀ : Sound fs (With U r (InTree 0)) (d.plant r L) := hp.sound hs
  have hroot : With U r (InTree 0) r [] := with_at.mpr (inTree_nil 0)
  have hnew : ¬ With U r (InTree 0) r [0] := by
    rw [with_at, inTree_zero]
    nofun
  rcases h with ⟨hne, hu⟩ | ⟨rfl, hq⟩
  · refine .inl ⟨hu, ?_⟩
    rw [ha.node_eq hs₀ hroot hnew (.inl ⟨hne, hu⟩), hp.node_eq hs hu]
  · rcases (inTree_one p).mp hq with hnil | rfl
    · rw [inTree_zero.mp hnil]
      exact .inr (.inl rfl)
    · exact .inr (.inr (ha.node_new hs₀ hroot hnew
        (inTree_mono (by decide) ((inTree_one _).mpr (.inr rfl)))))

theorem plantBlock_isFile (hpos : 0 < L) (hL : L ≤ 512) :
    IsFile (With U r (InTree 1)) (d.plantBlock r s L) r L := by
  have hroot : (d.plantBlock r s L).data r = (newInodeSector L).setWord 0 s :=
    update_self _ _ _
  have hone : treeBlocks L = 1 := by
    unfold treeBlocks maxBlocks
    omega
  refine ⟨?_, ?_, by omega, fun p => by rw [with_at, hone]⟩
  · rw [hroot, Fs.isValidInode, Bytes.word_setWord_ne _ _ (by decide), magic_newInodeSector]
  · rw [Disk.word, hroot, Bytes.word_setWord_ne _ _ (by decide), length_newInodeSector (by omega)]

end

/-- A device of `16` sectors with a file for the free map: its inode is sector `1`, its block
    sector `4`. -/
def mappedFs : Fs SectorStore :=
  { (bareFs 16).withImage
      { (bareFs 16).image with disk := (bareFs 16).image.disk.plantBlock 1 4 8 } with
    freeMapFile := some 0
    openInodes := [0]
    inodes := fun a => if a = 0 then some ⟨1, 1, false, 0, none⟩ else none
    files := fun f => if f = 0 then some ⟨0, 0, false, false⟩ else none
    brk := 1 }

/-- The trees on it. -/
def mappedTrees : Nat → Path → Prop := With (fun _ _ => False) 1 (InTree 1)

theorem isSet_mappedFs (t : Nat) : mappedFs.freeMap.isSet t = decide (t < 5) := by
  show ((bareFs 16).freeMap.mark 4).isSet t = _
  rw [Bitmap.isSet_mark]
  by_cases ht : t = 4
  · rw [ht]
    rfl
  · rw [update_of_ne ht, isSet_bareFs]
    exact decide_eq_decide.mpr (by omega)

theorem plantable_bareFs_one : Plantable (bareFs 16) (fun _ _ => False) (bareFs 16).image.disk 1 :=
  ⟨fun _ _ h => h.elim, by decide, isSet_bareFs 1, by decide, by decide⟩

theorem sound_mappedFs : Sound mappedFs mappedTrees mappedFs.image.disk := by
  have hs : Sound (bareFs 16) mappedTrees mappedFs.image.disk :=
    plantBlock_sound (sound_bareFs (by decide)) plantable_bareFs_one (isSet_bareFs 4) (by decide)
      (by decide)
  refine hs.of_state rfl (fun _ => ⟨0, _, rfl, rfl, ?_, by decide⟩)
  exact plantBlock_isFile (by decide) (by decide)

theorem node_mappedFs {r : Nat} (h : mappedTrees r p) :
    mappedFs.image.disk.node r p = 1 ∨ mappedFs.image.disk.node r p = 4 :=
  (node_plantBlock (sound_bareFs (by decide)) plantable_bareFs_one (isSet_bareFs 4) (by decide)
    (by decide) h).resolve_left (fun h => h.1)

theorem plantable_mappedFs : Plantable mappedFs mappedTrees mappedFs.image.disk 3 := by
  refine ⟨fun r p h => ?_, by decide, isSet_mappedFs 3, by decide, by decide⟩
  rcases node_mappedFs h with he | he <;> omega

/-- The same with a removed file of one block at sector `3` that is open at address `1`, and with
    sector `6` taken for a new inode. -/
def removedFs : Fs SectorStore :=
  { mappedFs.withImage
      { mappedFs.image with
        disk := { mappedFs.image.disk.plantBlock 3 5 100 with
          map := (mappedFs.image.disk.plantBlock 3 5 100).map.mark 6 } } with
    openInodes := [1, 0]
    inodes := fun a => if a = 1 then some ⟨3, 1, true, 0, none⟩ else mappedFs.inodes a
    brk := 2 }

def removedTrees : Nat → Path → Prop := With mappedTrees 3 (InTree 1)

theorem isSet_removedFs (t : Nat) : removedFs.freeMap.isSet t = decide (t < 7) := by
  show ((mappedFs.freeMap.mark 5).mark 6).isSet t = _
  rw [Bitmap.isSet_mark, Bitmap.isSet_mark]
  by_cases h6 : t = 6
  · rw [h6]
    rfl
  · by_cases h5 : t = 5
    · rw [h5]
      rfl
    · rw [update_of_ne h6, update_of_ne h5, isSet_mappedFs]
      exact decide_eq_decide.mpr (by omega)

theorem node_removedFs {r : Nat} (h : removedTrees r p) : removedFs.image.disk.node r p < 6 := by
  show (mappedFs.image.disk.plantBlock 3 5 100).node r p < 6
  rcases node_plantBlock sound_mappedFs plantable_mappedFs (isSet_mappedFs 5) (by decide)
    (by decide) h with ⟨hu, he⟩ | he | he
  · rw [he]
    rcases node_mappedFs hu with he' | he' <;> omega
  · omega
  · omega

theorem sound_removedFs : Sound removedFs removedTrees removedFs.image.disk := by
  have hs : Sound mappedFs removedTrees (mappedFs.image.disk.plantBlock 3 5 100) :=
    plantBlock_sound sound_mappedFs plantable_mappedFs (isSet_mappedFs 5) (by decide) (by decide)
  have hs' : Sound mappedFs removedTrees removedFs.image.disk :=
    hs.of_map rfl
      (fun r p h => (isSet_removedFs _).trans
        (decide_eq_true (Nat.lt_succ_of_lt (node_removedFs h))))
      (fun t ht => (isSet_removedFs t).trans (decide_eq_true (by omega)))
  exact hs'.of_state rfl hs'.mapFile

theorem quiet_removedFs : Quiet removedFs where
  locks _ := rfl
  unlocked := by
    rintro a inode h
    cases h
    rfl

theorem room_removedFs : 9 ≤ removedFs.image.disk.room 16 := by
  have hsub : Finset.Ico 7 16 ⊆ freeSet removedFs.freeMap.isSet (min 16 64) := by
    intro i hi
    obtain ⟨h7, hlt⟩ := Finset.mem_Ico.mp hi
    exact mem_freeSet.mpr ⟨by omega, (isSet_removedFs i).trans (decide_eq_false (by omega))⟩
  exact Finset.card_le_card hsub

namespace Fs

/-- The theorem at `removedFs`: the removed file with a block is closed, and a file of two blocks
    is created at sector `6`, removed and closed. -/
theorem inode_close_releases_removed :
    Returns (inodeClose 0 (some 1)) removedFs (fun _ fs' => ∃ l : List Nat, l.Nodup ∧
        (∀ s, s ∈ l ↔ ∃ q, InTree ((100 + 511) / 512) q ∧ removedFs.image.disk.node 3 q = s) ∧
        Releases (removedFs.closing 1 ⟨3, 1, true, 0, none⟩) 0 l removedFs.image fs'.image ∧
        ∀ t, fs'.freeMap.isSet t = true ↔ removedFs.freeMap.isSet t = true ∧ t ∉ l) ∧
      ∃ fs₁ fs₂, (inodeCreate (freeMapAllocate 1) 6 (600 : Nat)).run removedFs = .ok (true, fs₁) ∧
        (inodeOpen 6).run fs₁ = .ok (some 2, fs₂) ∧
        Returns (do inodeRemove 2; inodeClose 0 (some 2)) fs₂ (fun _ fs' =>
          fs'.freeMap = removedFs.freeMap.reset 6) := by
  have hs := sound_removedFs
  obtain ⟨hclose, hcreate⟩ := inode_close_releases 0 hs nofun
  have hp : Plantable removedFs removedTrees removedFs.image.disk 6 :=
    ⟨fun r p h => (node_removedFs h).ne, by decide, isSet_removedFs 6, by decide, by decide⟩
  have hopen : NotOpen removedFs 6 :=
    forall_mem_cons.mpr
      ⟨⟨_, rfl, by decide⟩, forall_mem_singleton.mpr ⟨_, rfl, by decide⟩⟩
  have hroom : treeCost 0 (treeBlocks 600) ≤ removedFs.image.disk.room removedFs.store.size :=
    (treeCost_le 0 2).trans (le_trans (by decide) room_removedFs)
  constructor
  · have hf : IsFile removedTrees (mappedFs.image.disk.plantBlock 3 5 100) 3 100 :=
      plantBlock_isFile (by decide) (by decide)
    exact hclose 1 100 _ rfl rfl rfl ⟨hf.valid, hf.length, hf.length_lt, hf.tree⟩ (by decide)
      (by decide) (by decide)
      ⟨quiet_removedFs.unlocked, fun _ _ _ _ _ => rfl, fun _ _ => RwLock.readable_free⟩
  · obtain ⟨_, _, hrun, rfl, im, rfl, -⟩ :=
      inodeCreate_succeeds 0 (by decide) hs hp quiet_removedFs hroom
    have hopen' : NotOpen (removedFs.withImage im) 6 := hopen
    exact ⟨_, _, hrun, inodeOpen_new hopen' rfl, hcreate 6 600 2 _ _ (by decide) hp (by decide)
      quiet_removedFs hopen rfl hrun (inodeOpen_new hopen' rfl)⟩

end Fs

end KernelSanders

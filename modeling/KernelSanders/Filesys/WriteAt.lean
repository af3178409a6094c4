import KernelSanders.Filesys.FileData

namespace KernelSanders

open Lib Lib.Exec
open Function hiding update
open Disk

/-!
# `inode_write_at` over the blocks a file already has

Around its loop `inode_write_at` takes the extension lock, makes room and records the new length.
`makeRoom_does` and `makeRoom_extends` are the two ways through the first part, and
`inodeWriteAt_within` is a whole write that needs no new block, whatever the allocator would do.
-/

namespace Image

variable {im : Image} {t : Nat} {l l' : RwLock}

/-- A write section that replaces the contents of its sector. -/
theorem leaveWrite_put (h : (im.lock t).readBegin = .ok l') (h' : l'.upgrade = .ok l)
    (x : Sector) : ((im.enter t l).put t x).leaveWrite t = (im.visit [t]).put t x := by
  have hlock : ((im.enter t l).leaveWrite t).lock = im.lock := leaveWrite_enter h h' rfl
  simp only [leaveWrite, enter] at hlock
  simp only [enter, put, leaveWrite, visit, hlock]
  rfl

/-- A write section that changes nothing. -/
theorem leaveWrite_same (h : (im.lock t).readBegin = .ok l') (h' : l'.upgrade = .ok l) :
    (im.enter t l).leaveWrite t = im.visit [t] := by
  have hlock : ((im.enter t l).leaveWrite t).lock = im.lock := leaveWrite_enter h h' rfl
  simp only [leaveWrite, enter] at hlock
  simp only [enter, leaveWrite, visit, hlock]
  rfl

end Image

/-! ### Recording a length -/

/-- The disk on which the inode at sector `r` records the length `n`. -/
def Disk.setLength (d : Disk) (r n : Nat) : Disk :=
  { d with data := Function.update d.data r ((d.data r).setWord Fs.lengthWord n) }

section SetLength

variable {fs : Fs SectorStore} {U : Nat → Path → Prop} {d : Disk} {r n t i : Nat}

theorem Disk.setLength_root :
    (d.setLength r n).data r = (d.data r).setWord Fs.lengthWord n := update_self _ _ _

theorem Disk.setLength_data (ht : t ≠ r) : (d.setLength r n).data t = d.data t :=
  update_of_ne ht _ _

theorem Disk.setLength_word (hne : ¬ (t = r ∧ i = Fs.lengthWord)) :
    (d.setLength r n).word t i = d.word t i := by
  unfold word
  by_cases ht : t = r
  · subst ht
    rw [setLength_root, Bytes.word_setWord_ne _ _ (fun hi => hne ⟨rfl, hi⟩)]
  · rw [setLength_data ht]

theorem Disk.setLength_length (hn : n < 2 ^ 32) : (d.setLength r n).word r Fs.lengthWord = n := by
  unfold word
  rw [setLength_root, Bytes.word_setWord_same _ _ _ (by decide), Nat.mod_eq_of_lt hn]

/-- Recording the length that is recorded already. -/
theorem Disk.setLength_self (h : d.word r Fs.lengthWord = n) : d.setLength r n = d := by
  unfold setLength
  rw [← h, word, Bytes.setWord_word _ _ (by decide), update_eq_self]

/-- The length is not one of the pointers. -/
theorem Sound.sameLinks_setLength (h : Sound fs U d) (hr : U r []) :
    SameLinks U d (d.setLength r n) := by
  intro r' j q hu
  refine setLength_word ?_
  rintro ⟨he, hj⟩
  obtain ⟨-, rfl⟩ := h.node_inj (h.rooted r' j q hu) (q := []) hr he
  have := root_index_le (h.shape r' _ hu)
  unfold Fs.lengthWord at hj
  omega

theorem Sound.node_setLength (h : Sound fs U d) (hr : U r []) {r' : Nat} {q : Path}
    (hu : U r' q) : (d.setLength r n).node r' q = d.node r' q :=
  (h.sameLinks_setLength hr).node_eq h.rooted hu

/-- Recording a length keeps the bytes of every file. -/
theorem Sound.content_setLength (h : Sound fs U d) (hr : U r []) {r' x : Nat}
    (hu : U r' (dataPath (x / 512))) : (d.setLength r n).content r' x = d.content r' x := by
  have hne : d.node r' (dataPath (x / 512)) ≠ r := by
    intro he
    exact dataPath_ne_nil (h.node_inj hu (q := []) hr he).2
  rw [content, h.node_setLength hr hu, setLength_data hne]
  rfl

/-- Only the inode of the free map must keep its length. -/
theorem Sound.setLength (h : Sound fs U d) (hr : U r []) (hm : fs.mapRoot ≠ some r) :
    Sound fs U (d.setLength r n) := by
  refine h.of_sameLinks (h.sameLinks_setLength hr) h.used h.reserved rfl
    (h.mapFile.congr rfl (fun r' hroot _ => ⟨fun _ => Iff.rfl, setLength_data ?_⟩))
  rintro rfl
  exact hm hroot

theorem Sound.blank_setLength (hs : Sound fs U d) (hr : U r []) (hb : Blank U r d) :
    Blank U r (d.setLength r n) := by
  intro i p hin hp hn
  rw [hs.node_setLength hr hp, setLength_word]
  · exact hb i p hin hp hn
  · rintro ⟨he, hi⟩
    obtain ⟨-, rfl⟩ := hs.node_inj hp (q := []) hr he
    have := root_index_le hin
    unfold Fs.lengthWord at hi
    omega

end SetLength

/-! ### The extension lock -/

namespace Fs

open BlockStore

/-- The state with another holder of the extension lock of the inode at address `a`. -/
def holdExtension (fs : Fs SectorStore) (a : Nat) (inode : Inode) (o : Option Nat) :
    Fs SectorStore :=
  { fs with inodes := Function.update fs.inodes a (some { inode with extensionLock := o }) }

section Hold

variable {fs : Fs SectorStore} {U : Nat → Path → Prop} {d : Disk} {a : Nat} {inode : Inode}
  {o : Option Nat}

theorem holdExtension_inodes :
    (fs.holdExtension a inode o).inodes a = some { inode with extensionLock := o } :=
  update_self _ _ _

section

variable (ha : fs.inodes a = some inode)
include ha

/-- Taking the lock and giving it back. -/
theorem holdExtension_release (hn : inode.extensionLock = none)
    (o : Option Nat) : (fs.holdExtension a inode o).holdExtension a inode none = fs := by
  have hinode : { inode with extensionLock := none } = inode := by rw [← hn]
  simp only [holdExtension, update_idem, hinode, ← ha, update_eq_self]

theorem mapInode_holdExtension :
    (fs.holdExtension a inode o).mapInode = fs.mapInode.map (fun x =>
      if x.1 = a then (x.1, { x.2 with extensionLock := o }) else x) := by
  have hfiles : (fs.holdExtension a inode o).files = fs.files := rfl
  have hmapFile : (fs.holdExtension a inode o).freeMapFile = fs.freeMapFile := rfl
  rw [mapInode, mapInode, hmapFile, hfiles]
  cases fs.freeMapFile with
  | none => rfl
  | some f =>
    simp only
    cases fs.files f with
    | none => rfl
    | some file =>
      simp only
      by_cases hf : file.inode = a
      · rw [hf, holdExtension_inodes, ha]
        simp
      · rw [show (fs.holdExtension a inode o).inodes file.inode = fs.inodes file.inode from
          update_of_ne hf _ _]
        cases fs.inodes file.inode with
        | none => rfl
        | some i => simp [hf]

theorem mapRoot_holdExtension : (fs.holdExtension a inode o).mapRoot = fs.mapRoot := by
  rw [mapRoot, mapInode_holdExtension ha, mapRoot, Option.map_map]
  congr 1
  funext x
  simp only [Function.comp]
  split <;> rfl

/-- The invariant does not depend on the extension locks. -/
theorem sound_holdExtension (h : Sound fs U d) : Sound (fs.holdExtension a inode o) U d := by
  refine h.of_state rfl (fun hf => ?_)
  obtain ⟨b, i, hb, hdeny, hfile, hlen⟩ := h.mapFile hf
  rw [mapInode_holdExtension ha, hb, Option.map_some]
  by_cases hba : b = a
  · rw [if_pos hba]
    exact ⟨b, _, rfl, hdeny, hfile, hlen⟩
  · rw [if_neg hba]
    exact ⟨b, i, rfl, hdeny, hfile, hlen⟩

end

end Hold

variable {fs g : Fs SectorStore} {U : Nat → Path → Prop} {im : Image} {a L : Nat} {inode : Inode}
  {alloc : Exec (Fs SectorStore) (Option Nat)} {Q : Bool → Image → Prop} {buffer : Nat → UInt8}
  {ok : Prop}

theorem lockAcquire_run (ha : fs.inodes a = some inode) (hn : inode.extensionLock = none) :
    (lockAcquire a).run (fs.withImage im)
      = .ok ((), (fs.holdExtension a inode (some fs.current)).withImage im) := by
  have hget := getInode_run (show (fs.withImage im).inodes a = some inode from ha)
  rw [lockAcquire, bind_ok hget, read_bind, bind_ok (assert_pos (by rw [hn]; simp) _ _), if_pos hn]
  rfl

theorem lockAcquire_stops (im : Image) (ha : fs.inodes a = some inode) (hn : inode.extensionLock ≠ none) :
    ∃ e, (lockAcquire a).run (fs.withImage im) = .error e := by
  have hget := getInode_run (show (fs.withImage im).inodes a = some inode from ha)
  rw [lockAcquire, bind_ok hget, read_bind]
  by_cases hc : inode.extensionLock ≠ some (fs.withImage im).current
  · rw [bind_ok (assert_pos hc _ _), if_neg hn]
    exact ⟨_, rfl⟩
  · exact ⟨_, bind_error (assert_neg hc _ _)⟩

section

variable (ha : fs.inodes a = some inode)
include ha

theorem lockRelease_run (hn : inode.extensionLock = none) :
    (lockRelease a).run ((fs.holdExtension a inode (some fs.current)).withImage im)
      = .ok ((), fs.withImage im) := by
  have hget : (getInode a).run ((fs.holdExtension a inode (some fs.current)).withImage im)
      = .ok ({ inode with extensionLock := some fs.current },
        (fs.holdExtension a inode (some fs.current)).withImage im) := getInode_run holdExtension_inodes
  rw [lockRelease, bind_ok hget, read_bind]
  refine (bind_ok (assert_pos rfl _ _)).trans ?_
  show Except.ok ((), ((fs.holdExtension a inode (some fs.current)).holdExtension a inode
    none).withImage im) = _
  rw [holdExtension_release ha hn]

/-- `inode_set_length`. -/
theorem inodeSetLength_does {n : Int} :
    Does (inodeSetLength a n) fs im
      (inode.sector < fs.store.size ∧ im.lock inode.sector = RwLock.free)
      (fun _ im' => im'.disk = im.disk.setLength inode.sector (toUnsigned n) ∧
        im'.lock = im.lock ∧ im'.touched = inode.sector :: im.touched) := by
  unfold inodeSetLength
  refine does_getInode ha (does_writeBlock id (fun l l' _ hl hl' => ?_))
  refine does_modifyData ?_
  have hrun : ((onStore (cacheWriteEnd inode.sector) : Exec (Fs SectorStore) Unit).run
      (fs.withImage ((im.enter inode.sector l).put inode.sector
        ((im.disk.data inode.sector).setWord lengthWord (toUnsigned n)))))
      = .ok ((), fs.withImage (((im.enter inode.sector l).put inode.sector
        ((im.disk.data inode.sector).setWord lengthWord (toUnsigned n))).leaveWrite
          inode.sector)) := rfl
  refine (meets_ok hrun).mpr ⟨_, rfl, rfl, ?_, rfl⟩
  rw [Image.leaveWrite_put hl hl']
  rfl

/-- `inode_extend` by no block. -/
theorem inodeExtend_zero :
    Does (inodeExtend alloc a 0) fs im
      (inode.sector < fs.store.size ∧ im.lock inode.sector = RwLock.free ∧
        isValidInode (im.disk.data inode.sector))
      (fun b im' => b = true ∧ im' = im.visit [inode.sector]) := by
  unfold inodeExtend
  refine does_getInode ha (does_writeBlock (fun h => ⟨h.1, h.2.1⟩) (fun l l' _ hl hl' => ?_))
  refine does_dataOf (does_assert (fun h => h.2.2) (fun _ => ?_))
  refine does_step (a := true) rfl (does_writeEnd ?_)
  rw [Image.leaveWrite_same hl hl']
  exact does_pure ⟨rfl, rfl⟩

/-- A write that ends before the end of the file needs no room. -/
theorem makeRoom_keep {newlen : Int} (hf : IsFile U im.disk inode.sector L) (hlt : newlen < L) :
    Does (makeRoom alloc a newlen) fs im
      (inode.sector < fs.store.size ∧ (im.lock inode.sector).Readable)
      (fun o im' => o = some false ∧ im' = im.visit [inode.sector]) := by
  unfold makeRoom
  refine (inodeLength_does ha).bind ?_ id
  rintro n im' ⟨hn, rfl⟩
  rw [hf.diskLength] at hn
  rw [hn, if_neg (by omega)]
  exact does_pure ⟨rfl, rfl⟩

/-- A write that reaches the end of the file: the extension lock is taken, and the file is
    extended by the blocks that are missing. -/
theorem makeRoom_extends {newlen : Int} (hf : IsFile U im.disk inode.sector L) (hle : L ≤ newlen)
    (hx : Does (inodeExtend alloc a (toUnsigned (wrap (ceil newlen 512 - ceil L 512))))
      (fs.holdExtension a inode (some fs.current)) (im.visit [inode.sector, inode.sector,
      inode.sector]) ok Q) :
    Meets (makeRoom alloc a newlen) (fs.withImage im)
      (fun o fs' => ∃ b im', fs' = (fs.holdExtension a inode (some fs.current)).withImage im' ∧
        Q b im' ∧ inode.extensionLock = none ∧ o = if b then some true else none)
      (fun _ => ¬ (ok ∧ inode.extensionLock = none ∧ inode.sector < fs.store.size ∧
        (im.lock inode.sector).Readable)) := by
  unfold makeRoom
  refine (inodeLength_does ha).meets_bind ?_ (fun h => h.2.2)
  rintro n im' ⟨hn, rfl⟩
  rw [hf.diskLength] at hn
  rw [hn, if_pos hle]
  by_cases hlock : inode.extensionLock = none
  · have ha₁ : (fs.holdExtension a inode (some fs.current)).inodes a
        = some { inode with extensionLock := some fs.current } := holdExtension_inodes
    rw [meets_step (lockAcquire_run ha hlock)]
    refine (inodeLength_does ha₁).meets_bind ?_ (fun h => h.2.2)
    rintro n' im' ⟨hn', rfl⟩
    rw [show n' = L from hn'.trans hf.diskLength, if_pos hle]
    refine (inodeLength_does ha₁).meets_bind ?_ (fun h => h.2.2)
    rintro n'' im' ⟨hn'', rfl⟩
    rw [show n'' = L from hn''.trans hf.diskLength]
    refine Does.meets_bind hx ?_ (fun h => h.1)
    intro b im' hq
    cases b with
    | true => exact ⟨true, im', rfl, hq, hlock, rfl⟩
    | false => exact ⟨false, im', rfl, hq, hlock, rfl⟩
  · obtain ⟨e, he⟩ := lockAcquire_stops (im.visit [inode.sector]) ha hlock
    exact meets_bind.mpr ((meets_error he).mpr (fun h => hlock h.2.1))

end

/-- **A write that reaches the end of the file.**  If the extension gives the inode the tree `U'`
    that has all the blocks of the range, the bytes are written, the length is recorded and the
    lock is given back.  If it fails, the result is `0` and the lock is still held. -/
theorem inodeWriteAt_extends {size newlen : Int} {o : Nat} {U' : Nat → Path → Prop}
    (hg : g.store.size = fs.store.size) (ha : fs.inodes a = some inode)
    (hdeny : inode.denyWriteCnt = 0) (hf : IsFile U im.disk inode.sector L)
    (hnew : wrap (size + o) = newlen) (hle : L ≤ newlen)
    (hx : Does (inodeExtend alloc a (toUnsigned (wrap (ceil newlen 512 - ceil L 512))))
      (fs.holdExtension a inode (some fs.current)) (im.visit [inode.sector, inode.sector,
      inode.sector]) ok Q)
    (hgrown : ∀ im₁, Q true im₁ → Sound g U' im₁.disk ∧ isValidInode (im₁.disk.data inode.sector) ∧
      U' inode.sector [] ∧ (∀ x, o ≤ x → x < o + size.toNat →
      U' inode.sector (dataPath (x / 512))) ∧ (ok → TreeFree U' im₁ inode.sector)) :
    Meets (inodeWriteAt alloc a buffer size o) (fs.withImage im)
      (fun n fs' =>
        (∃ im₁ im₂ im₃, Q true im₁ ∧ HasWritten U' inode.sector o 0 size buffer im₁ n im₂ ∧
          im₃.disk = im₂.disk.setLength inode.sector (toUnsigned newlen) ∧
          im₃.lock = im₂.lock ∧ im₃.touched = inode.sector :: im₂.touched ∧ fs' = fs.withImage im₃) ∨
        (n = 0 ∧ (makeRoom alloc a newlen).run (fs.withImage im) = .ok (none, fs') ∧
          ∃ im₁, Q false im₁ ∧ fs' = (fs.holdExtension a inode (some fs.current)).withImage im₁))
      (fun _ => ¬ (ok ∧ inode.extensionLock = none ∧ inode.sector < fs.store.size ∧
        (im.lock inode.sector).Readable)) := by
  unfold inodeWriteAt
  rw [meets_step (getInode_run (show (fs.withImage im).inodes a = some inode from ha)), hnew,
    if_neg (by rw [hdeny]; simp)]
  refine (makeRoom_extends ha hf hle hx).run.bind ?_ (fun _ => id)
  rintro room fs' ⟨⟨b, im₁, rfl, hq, hlock, rfl⟩, hrun⟩
  cases b with
  | false => exact .inr ⟨rfl, hrun, im₁, hq, rfl⟩
  | true =>
    obtain ⟨hs', hv, hroot, hblocks, hfree⟩ := hgrown im₁ hq
    have ha₁ : (fs.holdExtension a inode (some fs.current)).inodes a
        = some { inode with extensionLock := some fs.current } := holdExtension_inodes
    have hg₁ : g.store.size = (fs.holdExtension a inode (some fs.current)).store.size := hg
    have hloop := writeLoop_does hg₁ ha₁ buffer size.toNat im₁ size o 0 hs' hv hroot hblocks
      (Int.self_le_toNat size)
    refine Does.meets_bind hloop ?_ (fun h => hfree h.1)
    intro n im₂ hw
    -- the lock of the inode's block is free again
    refine (inodeSetLength_does ha₁).meets_bind ?_ (fun h => ⟨h.2.2.1, ?_⟩)
    · rintro _ im₃ ⟨hdisk, hlk, htouched⟩
      rw [meets_step (lockRelease_run ha hlock)]
      exact .inl ⟨im₁, im₂, im₃, hq, hw, hdisk, hlk, htouched, rfl⟩
    · rw [hw.lock]
      exact hfree h.1 [] hroot

/-- A write that ends before the end of the file. -/
theorem inodeWriteAt_inside {size : Int} {o : Nat} (hg : g.store.size = fs.store.size)
    (ha : fs.inodes a = some inode) (hdeny : inode.denyWriteCnt = 0) (hs : Sound g U im.disk)
    (hf : IsFile U im.disk inode.sector L) (hL : L ≤ 512 * maxBlocks) (hlt : wrap (size + o) < L)
    (hend : o + size.toNat ≤ L) :
    Does (inodeWriteAt alloc a buffer size o) fs im (TreeFree U im inode.sector)
      (HasWritten U inode.sector o 0 size buffer (im.visit [inode.sector])) := by
  have hroot := hf.root
  have hblocks : ∀ x, o ≤ x → x < o + size.toNat → U inode.sector (dataPath (x / 512)) :=
    fun x _ hx => hf.block hL (by omega)
  unfold inodeWriteAt
  refine does_getInode ha ?_
  rw [if_neg (by rw [hdeny]; simp)]
  refine (makeRoom_keep ha hf hlt).bind ?_ (fun h => ⟨hg ▸ hs.inside _ _ hroot, h.readable [] hroot⟩)
  rintro room im₁ ⟨rfl, rfl⟩
  have hloop := writeLoop_does hg ha buffer size.toNat (im.visit [inode.sector]) size o 0 hs hf.valid
    hroot hblocks (Int.self_le_toNat size)
  exact hloop.bind (fun n im₂ hw => does_pure hw) id

end Fs

end KernelSanders

import KernelSanders.Filesys.WriteThreads

namespace KernelSanders

open Lib Lib.Exec
open Function hiding update
open SharedFs

/-!
# Concurrent extension of a file

Any number of threads write to one inode.  Between two actions the recorded length says how many
blocks the file has, unless the holder of the extension lock is between its `inode_extend` and its
`inode_set_length`; then the file has the blocks of the new length already.  A writer that does not
extend the file has seen a length behind the end of its write, and the length never shrinks.

`WriterStage` is how far a thread has come, `Scene` is what the threads share, and `Advance` is
what one action does to both.

* `quiet`, `mine` — the two kinds of actions: those that any thread may take at any time, and
  those of the thread that holds the lock or takes it;
* `makeRoom_safe`, `writeChunks_safe`, `finishWrite_safe` — the parts of `inode_write_at`;
* `extension_serialised` — every interleaving.
-/

section Disk

variable {fs : Fs SectorStore} {U : Nat → Path → Prop} {d d' : Disk} {im : Image} {r n : Nat}

/-- Block `k` of the inode at sector `r` is allocated: the pointers on the way to it are set, and
    its sector is marked as used. -/
def Disk.HasBlock (d : Disk) (r k : Nat) : Prop :=
  d.Linked r (dataPath k) ∧ d.map.isSet (d.node r (dataPath k)) = true

/-- The allocated blocks are those below the recorded length. -/
def Disk.CountsBlocks (d : Disk) (r : Nat) : Prop :=
  ∀ k, k < maxBlocks → (d.HasBlock r k ↔ (k : Int) < ceil (Fs.diskLength (d.data r)) 512)

theorem Sound.hasBlock_iff (hs : Sound fs U d) (hb : Blank U r d) (hroot : U r []) {k : Nat}
    (hk : k < maxBlocks) : d.HasBlock r k ↔ U r (dataPath k) := by
  rw [Disk.HasBlock, hs.linked_iff hb hroot (inTree_dataPath hk)]
  exact ⟨fun h => h.1, fun h => ⟨h, hs.used r _ h⟩⟩

namespace Fs

/-- No chunk is written in front of the file. -/
theorem writeChunk_negative {a : Nat} {inode : Inode} {buffer : Nat → UInt8}
    {size offset bytesWritten : Int} (ha : fs.inodes a = some inode) (hpos : 0 < size)
    (hneg : offset < 0) (hlow : -2 ^ 31 ≤ offset) :
    Does (writeChunk a buffer size offset bytesWritten) fs im False (fun _ _ => False) := by
  unfold writeChunk
  refine (byteToSector_does ha rfl).bind ?_ False.elim
  rintro s _ ⟨-, hmax, -, rfl⟩
  obtain ⟨n, rfl⟩ : ∃ n : Nat, offset = -(n : Int) := ⟨offset.natAbs, by omega⟩
  have hdiv : (-(n : Int)).tdiv 512 = -((n / 512 : Nat) : Int) := Int.neg_tdiv _ _
  have hmod : (-(n : Int)).tmod 512 = -((n % 512 : Nat) : Int) := Int.neg_tmod _ _
  -- C rounds towards zero, so the position is taken to be in the first block
  have hofs : (-(n : Int)).tmod 512 < 0 := by
    rw [hdiv] at hmax
    rw [hmod]
    unfold maxBlocks toUnsigned at hmax
    omega
  have hchunk : ¬ (if size < 512 - (-(n : Int)).tmod 512 then size
      else 512 - (-(n : Int)).tmod 512) ≤ 0 := by
    split <;> omega
  simp only [if_neg hchunk, if_pos hofs]
  exact does_writeBlock False.elim (fun _ _ _ _ _ => does_stop id)

/-- The invariant does not depend on the current thread. -/
theorem sound_apart_current {t : Nat} :
    Sound (({ fs with current := t } : Fs SectorStore).apart r) U d ↔ Sound (fs.apart r) U d := by
  have hroot : ({ fs with current := t } : Fs SectorStore).mapRoot = fs.mapRoot := rfl
  unfold apart
  rw [hroot]
  by_cases hr : fs.mapRoot = some r
  · rw [if_pos hr, if_pos hr]
    exact ⟨fun h => h.of_state rfl (fun hf => absurd rfl hf),
      fun h => h.of_state rfl (fun hf => absurd rfl hf)⟩
  · rw [if_neg hr, if_neg hr]
    exact ⟨fun h => h.of_state rfl h.mapFile, fun h => h.of_state rfl h.mapFile⟩

end Fs

end Disk

/-! ### Stages and scenes -/

/-- How far a writer has come. -/
inductive WriterStage where
  /-- It knows nothing about the length. -/
  | outside
  /-- Its write ends at `e`, which the recorded length has reached. -/
  | behind (e : Int)
  /-- It holds the lock. -/
  | locked
  /-- It holds the lock and has read the length `n`. -/
  | sized (n : Nat)
  /-- It holds the lock and has given the file the blocks for `e` bytes. -/
  | widened (e : Nat)
  /-- It holds the lock, and the recorded length has reached the end `e` of its write. -/
  | recorded (e : Int)
  /-- It keeps the lock for good, as `inode_extend` failed. -/
  | refused

/-- The length that the writer has reached. -/
def WriterStage.reached : WriterStage → Option Int
  | .behind e => some e
  | .recorded e => some e
  | _ => none

/-- The file that the threads write to: the state at the start, the open inode, and its length. -/
structure Target where
  fs : Fs SectorStore
  a : Nat
  inode : Inode
  start : Nat
  found : fs.inodes a = some inode
  allowed : inode.denyWriteCnt = 0
  map : fs.mapRoot = some inode.sector → MapOpen fs inode.sector

/-- The sector of the inode. -/
def Target.r (T : Target) : Nat := T.inode.sector

/-- The state apart from the image. -/
def Target.base (T : Target) (t : Nat) (holder : Option Nat) : Fs SectorStore :=
  ({ T.fs with current := t } : Fs SectorStore).holdExtension T.a T.inode holder

/-- What the threads share: the image, the holder of the extension lock, the nodes in use and the
    recorded length. -/
structure Scene where
  im : Image
  holder : Option Nat
  U : Nat → Path → Prop
  L : Nat

/-- The state of the file system with this scene, when thread `t` runs. -/
def Scene.state (sc : Scene) (T : Target) (t : Nat) : Fs SectorStore :=
  (T.base t sc.holder).withImage sc.im

/-- The file has the blocks for `n` bytes. -/
def Scene.Exact (sc : Scene) (r n : Nat) : Prop := ∀ p, sc.U r p ↔ InTree (treeBlocks n) p

/-- What always holds between two actions. -/
structure Scene.Ok (sc : Scene) (T : Target) : Prop where
  sound : Sound (T.fs.apart T.r) sc.U sc.im.disk
  valid : Fs.isValidInode (sc.im.disk.data T.r)
  length : sc.im.disk.word T.r Fs.lengthWord = sc.L
  cap : sc.L ≤ 512 * maxBlocks
  covers : ∀ p, InTree (treeBlocks sc.L) p → sc.U T.r p
  blank : Blank sc.U T.r sc.im.disk
  unlocked : sc.im.lock T.r = RwLock.free
  free : sc.holder = none → sc.Exact T.r sc.L

/-- What a stage of thread `t` says about the scene. -/
def Scene.Allows (sc : Scene) (r t : Nat) : WriterStage → Prop
  | .outside => True
  | .behind e => e ≤ sc.L
  | .locked => sc.holder = some t ∧ sc.Exact r sc.L
  | .sized n => sc.holder = some t ∧ sc.Exact r sc.L ∧ n = sc.L
  | .widened e => sc.holder = some t ∧ sc.Exact r e ∧ sc.L ≤ e ∧ e ≤ 512 * maxBlocks
  | .recorded e => sc.holder = some t ∧ sc.Exact r sc.L ∧ e ≤ sc.L
  | .refused => sc.holder = some t

/-- The state and the stages of all threads fit the scene. -/
structure Target.Between (T : Target) (cur : Nat) (sc : Scene) (s : SharedFs)
    (G : Nat → WriterStage) : Prop where
  state : s.fs = sc.state T cur
  ok : sc.Ok T
  stages : ∀ t, sc.Allows T.r t (G t)
  start_le : T.start ≤ sc.L
  source : sc.L = T.start ∨ ∃ t, (G t).reached = some (sc.L : Int)
  entered : ∀ d ∈ s.entered, d.CountsBlocks T.r

/-- What one action of thread `t` does to the scene. -/
structure Scene.Advance (T : Target) (t : Nat) (sc sc' : Scene) (g g' : WriterStage) : Prop where
  ok : sc'.Ok T
  stage : sc'.Allows T.r t g'
  others : ∀ u h, u ≠ t → sc.Allows T.r u h → sc'.Allows T.r u h
  le : sc.L ≤ sc'.L
  subset : ∀ p, sc.U T.r p → sc'.U T.r p
  node : ∀ p, sc.U T.r p → sc'.im.disk.node T.r p = sc.im.disk.node T.r p
  reached : (sc'.L = sc.L ∧ ∀ e, g.reached = some e → g'.reached = some e) ∨
    g'.reached = some (sc'.L : Int)

/-- The recorded length of the inode at sector `r`. -/
def SharedFs.length (r : Nat) (s : SharedFs) : Int := Fs.diskLength (s.fs.store.data r)

/-- The recorded length has not shrunk, and every allocated block is where it was. -/
def SharedFs.Extends (r : Nat) (s s' : SharedFs) : Prop :=
  s.length r ≤ s'.length r ∧
    ∀ k, k < maxBlocks → s.fs.image.disk.HasBlock r k → s'.fs.image.disk.HasBlock r k ∧
      s'.fs.image.disk.node r (dataPath k) = s.fs.image.disk.node r (dataPath k)

theorem SharedFs.Extends.refl (r : Nat) (s : SharedFs) : s.Extends r s :=
  ⟨le_refl _, fun _ _ h => ⟨h, rfl⟩⟩

theorem SharedFs.Extends.trans {r : Nat} {s₁ s₂ s₃ : SharedFs} (h : s₁.Extends r s₂)
    (h' : s₂.Extends r s₃) : s₁.Extends r s₃ := by
  refine ⟨h.1.trans h'.1, fun k hk hb => ?_⟩
  obtain ⟨hb₂, hn₂⟩ := h.2 k hk hb
  obtain ⟨hb₃, hn₃⟩ := h'.2 k hk hb₂
  exact ⟨hb₃, hn₃.trans hn₂⟩

section Scenes

variable {T : Target} {sc sc' : Scene} {t cur : Nat} {g g' : WriterStage} {s s' : SharedFs}
  {G : Nat → WriterStage}

namespace Scene

theorem Ok.root (h : sc.Ok T) : sc.U T.r [] := h.covers [] (inTree_nil _)

theorem Ok.diskLength (h : sc.Ok T) : Fs.diskLength (sc.im.disk.data T.r) = sc.L := by
  have hcap := h.cap
  have hlen : (sc.im.disk.data T.r).word Fs.lengthWord = sc.L := h.length
  unfold maxBlocks at hcap
  rw [Fs.diskLength, hlen]
  exact wrap_of_range (by omega) (by omega)

theorem Ok.isFile (h : sc.Ok T) (hexact : sc.Exact T.r sc.L) : IsFile sc.U sc.im.disk T.r sc.L := by
  have hcap := h.cap
  unfold maxBlocks at hcap
  exact ⟨h.valid, h.length, by omega, hexact⟩

/-- The block of a position in front of `n` belongs to the file of `n` bytes. -/
theorem inTree_of_lt {n x : Nat} (hn : n ≤ 512 * maxBlocks) (hx : x < n) :
    InTree (treeBlocks n) (dataPath (x / 512)) := by
  rw [inTree_dataPath_iff, treeBlocks]
  omega

/-- The file of the recorded length starts an `inode_extend` from the blocks it has. -/
theorem Ok.countsBlocks (h : sc.Ok T) (hexact : sc.Exact T.r sc.L) :
    sc.im.disk.CountsBlocks T.r := by
  intro k hk
  rw [h.sound.hasBlock_iff h.blank h.root hk, hexact, inTree_dataPath_iff, h.diskLength,
    ceil_natCast, treeBlocks]
  omega

/-- Only the holder of the lock, or the thread that takes it, is in a stage that needs the lock. -/
theorem others_of_holder (h : sc.holder = none ∨ sc.holder = some t) (hle : sc.L ≤ sc'.L)
    (u : Nat) (k : WriterStage) (hu : u ≠ t) (hk : sc.Allows T.r u k) : sc'.Allows T.r u k := by
  have hnot : sc.holder ≠ some u := by
    intro hu'
    rcases h with h | h
    · rw [h] at hu'
      cases hu'
    · rw [h] at hu'
      exact hu (Option.some.inj hu').symm
  cases k with
  | outside => trivial
  | behind e => exact le_trans hk (by exact_mod_cast hle)
  | locked | sized n | widened e | recorded e => exact absurd hk.1 hnot
  | refused => exact absurd hk hnot

/-- An action that changes nothing but data blocks of the file. -/
theorem quiet {im' : Image} (h : sc.Ok T) (hframe : Rewritten sc.U T.r sc.im.disk im'.disk)
    (hmap : im'.disk.map = sc.im.disk.map) (hlock : im'.lock = sc.im.lock)
    (hstage : sc.Allows T.r t g') (hreached : ∀ e, g.reached = some e → g'.reached = some e) :
    Advance T t sc { sc with im := im' } g g' where
  ok := by
    have hroot := hframe.root_eq h.sound h.root
    refine ⟨hframe.sound h.sound hmap, ?_, ?_, h.cap, h.covers, hframe.blank h.sound h.blank,
      ?_, h.free⟩
    · rw [hroot]
      exact h.valid
    · rw [Disk.word, hroot]
      exact h.length
    · rw [hlock]
      exact h.unlocked
  stage := hstage
  others _ _ _ hk := hk
  le := le_refl _
  subset _ hp := hp
  node _ hp := hframe.node_eq h.sound hp
  reached := Or.inl ⟨rfl, hreached⟩

/-- An action on the lock. -/
theorem turn {holder' : Option Nat} (h : sc.Ok T) (hholder : sc.holder = none ∨ sc.holder = some t)
    (hexact : sc.Exact T.r sc.L) (hstage : ({ sc with holder := holder' } : Scene).Allows T.r t g')
    (hreached : ∀ e, g.reached = some e → g'.reached = some e) :
    Advance T t sc { sc with holder := holder' } g g' where
  ok := ⟨h.sound, h.valid, h.length, h.cap, h.covers, h.blank, h.unlocked, fun _ => hexact⟩
  stage := hstage
  others := others_of_holder hholder (le_refl _)
  le := le_refl _
  subset _ hp := hp
  node _ _ := rfl
  reached := Or.inl ⟨rfl, hreached⟩

end Scene

/-- **One action.** -/
theorem Target.Between.advance (h : T.Between cur sc s G) (hg : G t = g)
    (ha : Scene.Advance T t sc sc' g g') (hs' : s'.fs = sc'.state T t)
    (hentered : ∀ d ∈ s'.entered, d.CountsBlocks T.r) :
    T.Between t sc' s' (Function.update G t g') ∧ s.Extends T.r s' := by
  refine ⟨⟨hs', ha.ok, fun u => ?_, le_trans h.start_le ha.le, ?_, hentered⟩, ?_, ?_⟩
  · by_cases hu : u = t
    · subst hu
      rw [update_self]
      exact ha.stage
    · rw [update_of_ne hu]
      exact ha.others u _ hu (h.stages u)
  · rcases ha.reached with ⟨hL, hreached⟩ | hreached
    · rw [hL]
      refine h.source.imp_right ?_
      rintro ⟨u, hu⟩
      refine ⟨u, ?_⟩
      by_cases hut : u = t
      · subst hut
        rw [update_self]
        exact hreached _ (by rw [← hg]; exact hu)
      · rw [update_of_ne hut]
        exact hu
    · exact .inr ⟨t, by rw [update_self]; exact hreached⟩
  · rw [length, length, h.state, hs']
    show Fs.diskLength (sc.im.disk.data T.r) ≤ Fs.diskLength (sc'.im.disk.data T.r)
    rw [h.ok.diskLength, ha.ok.diskLength]
    exact_mod_cast ha.le
  · rw [h.state, hs']
    intro k hk hb
    have hu : sc.U T.r (dataPath k) := (h.ok.sound.hasBlock_iff h.ok.blank h.ok.root hk).mp hb
    exact ⟨(ha.ok.sound.hasBlock_iff ha.ok.blank ha.ok.root hk).mpr (ha.subset _ hu),
      ha.node _ hu⟩

end Scenes

/-! ### The code -/

/-- The stage of a thread that is not inside a call. -/
def WriterRole.Rests : WriterRole → WriterStage → Prop
  | .fresh, g => g = .outside
  | .returned w _, g => w.Fits ∧ g = .behind w.newlen
  | .refused _, g => g = .refused

/-- Every action keeps the scene, and no block is lost. -/
def Target.outline (T : Target) : Outline Nat SharedFs Write WriterRole WriterStage where
  inv s G := ∃ cur sc, T.Between cur sc s G
  sched _ _ := True
  home := WriterRole.Rests
  during _ _ := True
  done _ := WriterRole.Rests
  changes _ s s' := s.Extends T.r s'
  stops _ _ _ _ _ := True

section Code

variable {T : Target} {w : Write} {t : Nat} {g : WriterStage} {α β : Type}
  {P : β → WriterStage → Prop} {x : Exec (Fs SectorStore) α}

/-- The action of a thread, run from a scene. -/
theorem run_asThread {sc : Scene} {cur : Nat} {s s' : SharedFs} {b : α}
    (hs : s.fs = sc.state T cur) (hrun : (asThread t x).run s = .ok (b, s')) :
    x.run (sc.state T t) = .ok (b, s'.fs) ∧ s'.entered = s.entered := by
  have hswitch : (update (fun fs : Fs SectorStore => { fs with current := t }) >>= fun _ => x).run
      s.fs = x.run (sc.state T t) := by
    rw [update_bind, hs]
    rfl
  cases hx : x.run (sc.state T t) with
  | error e =>
    rw [asThread, zoom_error (hswitch.trans hx)] at hrun
    cases hrun
  | ok q =>
    obtain ⟨b', fs'⟩ := q
    rw [asThread, zoom_ok (hswitch.trans hx)] at hrun
    cases hrun
    exact ⟨rfl, rfl⟩

/-- **Action rule.** -/
theorem safe_act {f : α → Prog SharedFs β}
    (h : ∀ sc : Scene, sc.Ok T → sc.Allows T.r t g → Ensures x (sc.state T t) (fun b fs' =>
      ∃ sc' g', fs' = Scene.state sc' T t ∧ Scene.Advance T t sc sc' g g' ∧
        Safe T.outline w t P (f b) g')) : Safe T.outline w t P (act t x >>= f) g := by
  refine safe_step trivial ?_
  rintro s G ⟨cur, sc, hB⟩ - hg
  refine Ensures.meets ?_ (fun _ => trivial)
  intro b s' hrun
  obtain ⟨hx, hent⟩ := run_asThread hB.state hrun
  have hstage := hB.stages t
  rw [hg] at hstage
  obtain ⟨sc', g', hfs', hadv, hsafe⟩ := h sc hB.ok hstage b _ hx
  have hentered : ∀ d ∈ s'.entered, d.CountsBlocks T.r := by
    rw [hent]
    exact hB.entered
  obtain ⟨hB', hch⟩ := hB.advance hg hadv hfs' hentered
  exact ⟨g', ⟨t, sc', hB'⟩, hch, hsafe⟩

/-- A look at the length.  The thread may draw a conclusion from what it sees. -/
theorem safe_length {f : Int → Prog SharedFs β}
    (h : ∀ sc : Scene, sc.Ok T → sc.Allows T.r t g → ∃ g', sc.Allows T.r t g' ∧
      (∀ e, g.reached = some e → g'.reached = some e) ∧ Safe T.outline w t P (f sc.L) g') :
    Safe T.outline w t P (act t (Fs.inodeLength T.a) >>= f) g := by
  refine safe_act (fun sc hok hg b fs' hrun => ?_)
  have hdoes : Fs.Does (Fs.inodeLength T.a) (T.base t sc.holder) sc.im _ _ :=
    Fs.inodeLength_does Fs.holdExtension_inodes
  obtain ⟨_, rfl, hn, rfl⟩ := hdoes.ensures _ _ hrun
  obtain ⟨g', hg', hreached, hsafe⟩ := h sc hok hg
  refine ⟨{ sc with im := sc.im.visit [T.r] }, g', rfl, ?_, ?_⟩
  · exact Scene.quiet hok (fun _ _ => rfl) rfl rfl hg' hreached
  · rw [hn.trans hok.diskLength]
    exact hsafe

theorem base_inodes (T : Target) (t : Nat) (o : Option Nat) :
    (T.base t o).inodes T.a = some { T.inode with extensionLock := o } :=
  Fs.holdExtension_inodes

/-- The lock changes hands. -/
theorem base_hold (o o' : Option Nat) :
    (T.base t o).holdExtension T.a { T.inode with extensionLock := o } o' = T.base t o' := by
  simp only [Target.base, Fs.holdExtension, update_idem]

variable {f : Unit → Prog SharedFs β} {newlen e : Int}

/-- Taking the lock. -/
theorem safe_acquire (h : Safe T.outline w t P (f ()) .locked) :
    Safe T.outline w t P (act t (Fs.lockAcquire T.a) >>= f) .outside := by
  refine safe_act (fun sc hok _ b fs' hrun => ?_)
  have hinode := base_inodes T t sc.holder
  by_cases hfree : sc.holder = none
  · have hrun' : (Fs.lockAcquire T.a).run (sc.state T t) = _ := Fs.lockAcquire_run hinode hfree
    rw [base_hold] at hrun'
    obtain ⟨rfl, rfl⟩ := Prod.mk.inj (Except.ok.inj (hrun.symm.trans hrun'))
    refine ⟨{ sc with holder := some t }, .locked, rfl, ?_, h⟩
    exact Scene.turn hok (.inl hfree) (hok.free hfree) ⟨rfl, hok.free hfree⟩ nofun
  · obtain ⟨e, he⟩ := Fs.lockAcquire_stops sc.im hinode hfree
    cases hrun.symm.trans he

/-- Giving the lock back. -/
theorem safe_release (h : Safe T.outline w t P (f ()) (.behind e)) :
    Safe T.outline w t P (act t (Fs.lockRelease T.a) >>= f) (.recorded e) := by
  refine safe_act ?_
  rintro sc hok ⟨hholder, hexact, hle⟩ b fs' hrun
  have hrun' : (Fs.lockRelease T.a).run (((T.base t none).holdExtension T.a
      { T.inode with extensionLock := none } (some t)).withImage sc.im) = _ :=
    Fs.lockRelease_run (base_inodes T t none) rfl
  rw [base_hold] at hrun'
  rw [Scene.state, hholder] at hrun
  obtain ⟨rfl, rfl⟩ := Prod.mk.inj (Except.ok.inj (hrun.symm.trans hrun'))
  exact ⟨{ sc with holder := none }, .behind e, rfl,
    Scene.turn hok (.inr hholder) hexact hle (fun _ he => he), h⟩

/-- `inode_extend`, after the thread has read the length with the lock held. -/
theorem safe_extend {depth n : Nat} {f : Bool → Prog SharedFs β} (hle : n ≤ newlen)
    (hlt : newlen < 2 ^ 31)
    (hok : ∀ e : Nat, newlen = e → Safe T.outline w t P (f true) (.widened e))
    (hno : Safe T.outline w t P (f false) .refused) :
    Safe T.outline w t P (inodeExtend depth t T.a
      (toUnsigned (wrap (ceil newlen 512 - ceil n 512))) >>= f) (.sized n) := by
  obtain ⟨e, rfl⟩ : ∃ e : Nat, newlen = e := ⟨newlen.toNat, by omega⟩
  rw [Fs.blocksNeeded_eq (by omega) (by omega)]
  refine safe_step trivial ?_
  rintro s G ⟨cur, sc, hB⟩ - hg
  refine Ensures.meets ?_ (fun _ => trivial)
  intro b s' hrun
  rw [update_bind] at hrun
  have hstate : ({ s with entered := s.fs.image.disk :: s.entered } : SharedFs).fs
      = sc.state T cur := hB.state
  obtain ⟨hx, hent⟩ := run_asThread hstate hrun
  have hstage := hB.stages t
  rw [hg] at hstage
  obtain ⟨hholder, hexact, rfl⟩ := hstage
  have hcap := hB.ok.cap
  have hdoes : Fs.Does _ (T.base t sc.holder) sc.im _ _ := Fs.inodeExtend_widens depth
    ((e + 511) / 512 - (sc.L + 511) / 512) T.found T.map
    (Fs.sound_apart_current.mpr hB.ok.sound) (hB.ok.isFile hexact) hcap hB.ok.unlocked
  obtain ⟨im', hfs', V, hw, htrue, -⟩ := hdoes.ensures _ _ hx
  have hsound : Sound (T.fs.apart T.r) V im'.disk := Fs.sound_apart_current.mp hw.sound
  have hentered : ∀ d ∈ s'.entered, d.CountsBlocks T.r := by
    rw [hent]
    intro d hd
    rcases List.mem_cons.mp hd with rfl | hd
    · rw [hB.state]
      exact hB.ok.countsBlocks hexact
    · exact hB.entered d hd
  have hscene : ∀ g', ({ sc with im := im', U := V } : Scene).Allows T.r t g' →
      Scene.Advance T t sc { sc with im := im', U := V } (.sized sc.L) g' := by
    intro g' hg'
    refine ⟨⟨hsound, ?_, ?_, hcap, fun p hp => hw.subset p (hB.ok.covers p hp),
      hw.blank hB.ok.blank, hw.lock.trans hB.ok.unlocked, fun hn => ?_⟩, hg',
      Scene.others_of_holder (.inr hholder) (le_refl _), le_refl _, hw.subset, hw.node,
      .inl ⟨rfl, nofun⟩⟩
    · exact (hw.word Fs.magicWord (by decide)).trans hB.ok.valid
    · exact (hw.word Fs.lengthWord (by decide)).trans hB.ok.length
    · rw [show sc.holder = none from hn] at hholder
      cases hholder
  cases b with
  | false =>
    obtain ⟨hB', hch⟩ := hB.advance hg (hscene .refused hholder) hfs' hentered
    exact ⟨_, ⟨t, _, hB'⟩, hch, hno⟩
  | true =>
    obtain ⟨rfl, hcan, -⟩ := htrue rfl
    have hmax := hcan.le (Nat.min_le_right _ _)
    have htree : treeBlocks sc.L + ((e + 511) / 512 - (sc.L + 511) / 512) = treeBlocks e := by
      unfold treeBlocks at hmax ⊢
      omega
    have hwide : ({ sc with im := im', U := With sc.U T.r (InTree (treeBlocks e)) } : Scene).Allows
        T.r t (.widened e) := by
      refine ⟨hholder, fun p => with_at, by exact_mod_cast hle, ?_⟩
      unfold treeBlocks at hmax
      omega
    rw [htree] at hscene
    obtain ⟨hB', hch⟩ := hB.advance hg (hscene (.widened e) hwide) hfs' hentered
    exact ⟨_, ⟨t, _, hB'⟩, hch, hok e rfl⟩

/-- The stages in which `makeRoom` ends. -/
def RoomStage (newlen : Int) : Option Bool → WriterStage → Prop
  | none, g => g = .refused
  | some true, g => ∃ e : Nat, newlen = e ∧ g = .widened e
  | some false, g => g = .behind newlen

/-- **The start of `inode_write_at`.** -/
theorem makeRoom_safe (depth : Nat) (hlt : newlen < 2 ^ 31) :
    Safe T.outline w t (RoomStage newlen) (makeRoom depth t T.a newlen) .outside := by
  unfold makeRoom
  refine safe_length (fun sc _ _ => ?_)
  by_cases hge : newlen ≥ sc.L
  · -- the thread has to ask again with the lock
    refine ⟨.outside, trivial, nofun, ?_⟩
    rw [if_pos hge]
    refine safe_acquire (safe_length (fun sc' hok' hstage => ?_))
    by_cases hge' : newlen ≥ sc'.L
    · refine ⟨.sized sc'.L, ⟨hstage.1, hstage.2, rfl⟩, nofun, ?_⟩
      rw [if_pos hge']
      -- the third look sees the same length
      refine safe_length (fun sc'' _ hstage' => ?_)
      refine ⟨.sized sc'.L, hstage', nofun, ?_⟩
      rw [← hstage'.2.2]
      exact safe_extend hge' hlt (fun e he => ⟨trivial, e, he, rfl⟩) ⟨trivial, rfl⟩
    · -- somebody else has extended the file in the meantime
      refine ⟨.recorded newlen, ⟨hstage.1, hstage.2, by omega⟩, nofun, ?_⟩
      rw [if_neg hge']
      exact safe_release ⟨trivial, rfl⟩
  · refine ⟨.behind newlen, by show newlen ≤ sc.L; omega, nofun, ?_⟩
    rw [if_neg hge]
    exact ⟨trivial, rfl⟩

/-- In stage `g` all positions in front of `e` have their blocks. -/
def HasRoom (T : Target) (t : Nat) (g : WriterStage) (e : Int) : Prop :=
  ∀ sc : Scene, sc.Ok T → sc.Allows T.r t g → ∀ x : Nat, (x : Int) < e →
    sc.U T.r (dataPath (x / 512))

theorem hasRoom_behind : HasRoom T t (.behind e) e := by
  intro sc hok hle x hx
  have hle' : e ≤ sc.L := hle
  exact hok.covers _ (Scene.inTree_of_lt hok.cap (by omega))

theorem hasRoom_widened {e : Nat} : HasRoom T t (.widened e) e := by
  rintro sc - ⟨-, hexact, -, hcap⟩ x hx
  exact (hexact _).mpr (Scene.inTree_of_lt hcap (by omega))

/-- **The loop of `inode_write_at`.** -/
theorem writeChunks_safe (buffer : Nat → UInt8) (he : HasRoom T t g e) (fuel : Nat) :
    ∀ (size offset : Int) (done : Nat), -2 ^ 31 ≤ offset → size + offset = e → size ≤ fuel →
      Safe T.outline w t (fun _ g' => g' = g)
        (writeChunks t T.a buffer fuel size offset done) g := by
  induction fuel with
  | zero =>
    intro size offset done _ _ hsize
    rw [writeChunks, if_neg (by omega)]
    exact ⟨trivial, rfl⟩
  | succ fuel ih =>
    intro size offset done hlow hend hsize
    rw [writeChunks]
    by_cases hpos : size > 0
    · rw [if_pos hpos]
      refine safe_act (fun sc hok hg b fs' hrun => ?_)
      have hinode := base_inodes T t sc.holder
      by_cases hneg : offset < 0
      · have hdoes : Fs.Does (Fs.writeChunk T.a buffer size offset done) (T.base t sc.holder) sc.im
            _ _ := Fs.writeChunk_negative hinode hpos hneg hlow
        obtain ⟨_, -, hfalse⟩ := hdoes.ensures _ _ hrun
        exact hfalse.elim
      · obtain ⟨o, rfl⟩ : ∃ o : Nat, offset = o := ⟨offset.toNat, by omega⟩
        have hblock : sc.U T.r (dataPath (o / 512)) := he sc hok hg o (by omega)
        have hmax : o / 512 < maxBlocks := inTree_dataPath_iff.mp (hok.sound.shape _ _ hblock)
        have hdoes : Fs.Does (Fs.writeChunk T.a buffer size o done) (T.base t sc.holder) sc.im _ _ :=
          Fs.writeChunk_does (g := T.fs.apart T.r) Fs.apart_size hinode hok.sound hok.valid hblock
            hpos
        obtain ⟨im', hfs', c, rfl, hc, hround⟩ := hdoes.ensures _ _ hrun
        have hwrap : wrap ((o : Int) + c) = o + c := by
          unfold maxBlocks at hmax
          exact wrap_of_range (by omega) (by omega)
        refine ⟨{ sc with im := im' }, g, hfs',
          Scene.quiet hok hround.frame hround.map hround.lock hg (fun _ h => h), ?_⟩
        rw [if_neg (by omega), hwrap, ← Nat.cast_add done c]
        exact ih _ _ _ (by omega) (by omega) (by push_cast at hsize; omega)
    · rw [if_neg hpos]
      exact ⟨trivial, rfl⟩

/-- `inode_set_length`, after the extension. -/
theorem safe_setLength {e : Nat} (h : Safe T.outline w t P (f ()) (.recorded e)) :
    Safe T.outline w t P (act t (Fs.inodeSetLength T.a e) >>= f) (.widened e) := by
  refine safe_act ?_
  rintro sc hok ⟨hholder, hexact, hle, hcap⟩ b fs' hrun
  have hdoes : Fs.Does (Fs.inodeSetLength T.a e) (T.base t sc.holder) sc.im _ _ :=
    Fs.inodeSetLength_does Fs.holdExtension_inodes
  obtain ⟨im', hfs', hdisk, hlock, -⟩ := hdoes.ensures _ _ hrun
  have he : e < 2 ^ 32 := by
    unfold maxBlocks at hcap
    omega
  rw [toUnsigned_natCast he] at hdisk
  have hroot : im'.disk.data T.r = (sc.im.disk.data T.r).setWord Fs.lengthWord e := by
    rw [hdisk]
    exact Disk.setLength_root
  refine ⟨{ sc with im := im', L := e }, .recorded e, hfs', ⟨⟨?_, ?_, ?_, hcap, ?_, ?_, ?_, ?_⟩,
    ⟨hholder, hexact, le_refl _⟩, Scene.others_of_holder (.inr hholder) hle, hle,
    fun _ hp => hp, fun p hp => ?_, .inr rfl⟩, h⟩
  · rw [hdisk]
    exact hok.sound.setLength hok.root Fs.apart_mapRoot
  · rw [Fs.isValidInode, hroot, Bytes.word_setWord_ne _ _ (by decide)]
    exact hok.valid
  · rw [hdisk]
    exact Disk.setLength_length he
  · exact fun p hp => (hexact p).mpr hp
  · rw [hdisk]
    exact hok.sound.blank_setLength hok.root hok.blank
  · rw [hlock]
    exact hok.unlocked
  · exact fun _ => hexact
  · rw [hdisk]
    exact hok.sound.node_setLength hok.root hp

/-- **The end of `inode_write_at`.** -/
theorem finishWrite_safe {locked : Bool} (h : RoomStage newlen (some locked) g) :
    Safe T.outline w t (fun _ g' => g' = .behind newlen)
      (finishWrite t T.a newlen locked) g := by
  unfold finishWrite
  cases locked with
  | false => exact ⟨trivial, h⟩
  | true =>
    obtain ⟨e, rfl, rfl⟩ := h
    exact safe_setLength (safe_release ⟨trivial, rfl⟩)

/-- **`inode_write_at`**, if its end is in range. -/
theorem inodeWriteAt_safe (depth : Nat) (hw : w.Fits) :
    Safe T.outline w t WriterRole.Rests (inodeWriteAt depth t T.a w) .outside := by
  unfold inodeWriteAt
  refine safe_act (fun sc hok hg b fs' hrun => ?_)
  have hget : (Fs.getInode T.a).run (sc.state T t) = _ :=
    Fs.getInode_run (base_inodes T t sc.holder)
  obtain ⟨rfl, rfl⟩ := Prod.mk.inj (Except.ok.inj (hrun.symm.trans hget))
  refine ⟨sc, .outside, rfl, Scene.quiet hok (fun _ _ => rfl) rfl rfl trivial (fun _ h => h), ?_⟩
  rw [if_neg (not_not.mpr T.allowed)]
  refine Safe.bind (makeRoom_safe depth (wrap_range _).2) ?_
  intro room g _ hroom
  cases room with
  | none => exact ⟨trivial, hroom⟩
  | some locked =>
    have hroomy : HasRoom T t g (w.size + w.offset) := by
      rw [← hw.newlen_eq]
      cases locked with
      | false =>
        obtain rfl : g = .behind w.newlen := hroom
        exact hasRoom_behind
      | true =>
        obtain ⟨e, he, rfl⟩ := hroom
        rw [he]
        exact hasRoom_widened
    refine Safe.bind (writeChunks_safe w.buffer hroomy w.size.toNat w.size w.offset 0
      w.offset_range.1 rfl (Int.self_le_toNat _)) ?_
    rintro n _ _ rfl
    refine Safe.bind (finishWrite_safe hroom) ?_
    rintro _ _ _ rfl
    exact ⟨trivial, hw, rfl⟩

end Code

/-! ### Every interleaving -/

theorem writer_lifts (T : Target) (depth : Nat) :
    Lifts T.outline (writerSystem depth T.a) EndsFit where
  sched _ _ _ _ _ := trivial
  call p G t r w hG hth ha hC := by
    have hst := hG.stands t
    rw [hth] at hst
    have hfits : w.Fits := by
      simpa only [EndsFit, Pool.places, Pool.call, update_self, Thread.place] using hC
    cases r with
    | fresh =>
      refine ⟨.outside, ?_, inodeWriteAt_safe depth hfits⟩
      have hg : G t = .outside := hst
      rw [← hg, update_eq_self]
      exact hG.inv
    | returned _ _ => cases ha
    | refused _ => cases ha
  ret s G t w r hinv hd := ⟨G t, by rw [update_eq_self]; exact hinv, hd⟩

theorem good_writerPool {T : Target} {U : Nat → Path → Prop} (hs : Sound T.fs U T.fs.image.disk)
    (hf : IsFile U T.fs.image.disk T.r T.start) (hL : T.start ≤ 512 * maxBlocks)
    (hb : Blank U T.r T.fs.image.disk) (hlock : T.fs.store.lock T.r = RwLock.free) :
    ∃ G, Good T.outline (writerPool T.fs) G := by
  have hbase : T.base T.fs.current T.inode.extensionLock = T.fs := by
    simp only [Target.base, Fs.holdExtension, ← T.found, update_eq_self]
  refine ⟨fun _ => .outside, ⟨T.fs.current, ⟨T.fs.image, T.inode.extensionLock, U, T.start⟩,
    ⟨?_, ⟨hs.apart, hf.valid, hf.length, hL, fun p hp => (hf.tree p).mpr hp, hb, hlock,
      fun _ => hf.tree⟩, fun _ => trivial, le_refl _, .inl rfl, fun _ h => by cases h⟩⟩,
    fun _ => rfl⟩
  rw [Scene.state, hbase]
  rfl

/-- No thread is inside a call, and no extension has failed. -/
def AllReturned (q : Nat → Place Write WriterRole) : Prop :=
  ∀ t, ∃ r, q t = .idle r ∧ ∀ w, r ≠ .refused w

/-- The ends of the writes that have returned. -/
def WrittenEnds (q : Nat → Place Write WriterRole) : Set Int :=
  { e | ∃ t w n, q t = .idle (.returned w n) ∧ e = w.offset + w.size }

variable {fs : Fs SectorStore} {U : Nat → Path → Prop} {a L depth : Nat} {inode : Inode}

/-- **Concurrent extension is serialised.** In every interleaving of writes whose ends are in
    range, the recorded length never shrinks and no block is allocated a second time; when all
    writers have returned it is the largest of the old length and the ends of the writes; every
    `inode_extend` starts from the blocks the file has; and every position in front of the recorded
    length has a block. -/
theorem extension_serialised (ha : fs.inodes a = some inode) (hdeny : inode.denyWriteCnt = 0)
    (hs : Sound fs U fs.image.disk) (hf : IsFile U fs.image.disk inode.sector L)
    (hL : L ≤ 512 * maxBlocks) (hb : Blank U inode.sector fs.image.disk)
    (hlock : fs.store.lock inode.sector = RwLock.free) {p : Pool Nat SharedFs Write WriterRole}
    (h : Run (writerSystem depth a) EndsFit (writerPool fs) p) :
    (∀ p', Run (writerSystem depth a) EndsFit p p' → p.shared.Extends inode.sector p'.shared) ∧
      (AllReturned p.places →
        IsGreatest (insert (L : Int) (WrittenEnds p.places)) (p.shared.length inode.sector)) ∧
      (∀ d ∈ p.shared.entered, d.CountsBlocks inode.sector) ∧
      ∀ x : Nat, x < p.shared.length inode.sector →
        p.shared.fs.image.disk.HasBlock inode.sector (x / 512) := by
  let T : Target := ⟨fs, a, inode, L, ha, hdeny, fun hr => hs.mapOpen hr⟩
  have hl := writer_lifts T depth
  have hgood := run_good hl h (good_writerPool (T := T) hs hf hL hb hlock)
  obtain ⟨G, hG⟩ := hgood
  obtain ⟨cur, sc, hB⟩ := hG.inv
  have hlen : p.shared.length inode.sector = sc.L := by
    rw [length, hB.state]
    exact hB.ok.diskLength
  refine ⟨fun p' hrun => ?_, fun hall => ⟨?_, ?_⟩, hB.entered, fun x hx => ?_⟩
  · exact run_keeps (K := fun s => p.shared.Extends T.r s) hl
      (fun _ _ _ _ _ _ _ hch hk => hk.trans hch) hrun ⟨G, hG⟩ (.refl _ _)
  · rw [hlen]
    rcases hB.source with hstart | ⟨t, ht⟩
    · exact .inl (by rw [hstart])
    · -- the writer that recorded this length has returned
      obtain ⟨r, hr, hno⟩ := hall t
      have hst := hG.stands t
      rw [Pool.thread_of_idle hr] at hst
      cases r with
      | fresh =>
        rw [show G t = .outside from hst] at ht
        cases ht
      | refused w => exact absurd rfl (hno w)
      | returned w n =>
        obtain ⟨hw, hg⟩ := hst
        rw [hg] at ht
        refine .inr ⟨t, w, n, hr, ?_⟩
        rw [add_comm, ← hw.newlen_eq]
        exact (Option.some.inj ht).symm
  · rw [hlen]
    rintro e (rfl | ⟨t, w, n, hr, rfl⟩)
    · exact_mod_cast hB.start_le
    · have hst := hG.stands t
      rw [Pool.thread_of_idle hr] at hst
      obtain ⟨hw, hg⟩ := hst
      have hstage := hB.stages t
      rw [hg] at hstage
      rw [add_comm, ← hw.newlen_eq]
      exact hstage
  · rw [hlen] at hx
    have hcap := hB.ok.cap
    rw [hB.state]
    refine (hB.ok.sound.hasBlock_iff hB.ok.blank hB.ok.root (by omega)).mpr ?_
    exact hB.ok.covers _ (Scene.inTree_of_lt hcap (by omega))

/-- `600` bytes from the start. -/
def firstWrite : Write := ⟨fun _ => 65, 600, 0, by decide, by decide⟩

/-- `100` bytes that overlap the end of the others. -/
def secondWrite : Write := ⟨fun _ => 66, 100, 550, by decide, by decide⟩

/-- Both writers have seen the empty file before one of them takes the lock. -/
def overlappingWrites : List (Move Nat Write) :=
  [.call 1 firstWrite, .go 1 2, .call 2 secondWrite, .go 2 2, .go 1 99, .go 2 99]

/-- The number of bytes that a writer has returned. -/
def bytesReturned : Place Write WriterRole → Option Int
  | .idle (.returned _ n) => some n
  | _ => none

theorem idle_of_bytesReturned {q : Place Write WriterRole} {n : Int}
    (h : bytesReturned q = some n) : ∃ r, q = .idle r ∧ ∀ w, r ≠ .refused w := by
  cases q with
  | inside w => cases h
  | idle r =>
    cases r with
    | returned w n => exact ⟨_, rfl, by simp⟩
    | fresh => cases h
    | refused w => cases h

/-- Two writers that both extend the empty file. -/
theorem extension_serialised_overlapping :
    ∃ p, Run (writerSystem 0 0) EndsFit (writerPool (emptyFile 10)) p ∧ AllReturned p.places ∧
      p.shared.length 3 = 650 ∧
      IsGreatest (insert 0 (WrittenEnds p.places)) (p.shared.length 3) ∧
      p.shared.fs.image.disk.HasBlock 3 1 := by
  have hplay : ((writerPool (emptyFile 10)).play (writerSystem 0 0) EndsFit overlappingWrites).map
      (fun p => (p.shared.length 3, bytesReturned (p.places 1), bytesReturned (p.places 2)))
        = some (650, some 600, some 100) := by decide +kernel
  obtain ⟨p, hp, hobs⟩ := Option.map_eq_some_iff.mp hplay
  obtain ⟨hlen, hobs⟩ := Prod.mk.inj hobs
  obtain ⟨h₁, h₂⟩ := Prod.mk.inj hobs
  have hrun := run_of_play hp
  have hall : AllReturned p.places := by
    intro t
    by_cases ht₁ : t = 1
    · rw [ht₁]
      exact idle_of_bytesReturned h₁
    · by_cases ht₂ : t = 2
      · rw [ht₂]
        exact idle_of_bytesReturned h₂
      · -- nobody else has called
        have hnamed : ∀ m ∈ overlappingWrites, m.thread ≠ t := by
          simp only [overlappingWrites, List.forall_mem_cons, Move.thread]
          simp [Ne.symm ht₁, Ne.symm ht₂]
        have hth := Pool.thread_of_play hp hnamed
        refine ⟨.fresh, ?_, by simp⟩
        rw [Pool.places, hth]
        rfl
  obtain ⟨-, hgreatest, -, hblocks⟩ := extension_serialised (U := With (fun _ _ => False) 3 (InTree 0))
    (L := 0) inodes_emptyFile rfl (sound_emptyFile (by omega) (by omega)) isFile_emptyFile (by omega)
    blank_emptyFile rfl hrun
  refine ⟨p, hrun, hall, hlen, hgreatest hall, ?_⟩
  exact hblocks 600 (by rw [hlen]; omega)

/-- A write whose end is `2 ^ 31`.  Every word of the buffer is the number of the inode's sector. -/
def wrappingWrite : Write :=
  ⟨fun j => if j % 4 = 0 then 3 else 0, 2 ^ 31 - 512, 512, by decide, by decide⟩

/-- A write whose end is out of range passes for one inside the file.  It goes through pointers that
    are not set, to sector `0`, then through sector `0` as an index block, and finally overwrites
    the inode itself: the recorded length goes down from `600` to `3`. -/
theorem extension_shrinks :
    ∃ p p', Run (writerSystem 0 0) (fun _ _ => True) (writerPool (emptyFile 10)) p ∧
      Run (writerSystem 0 0) (fun _ _ => True) p p' ∧
      bytesReturned (p.places 1) = some 600 ∧ p.shared.length 3 = 600 ∧ p'.shared.length 3 = 3 := by
  have hfirst : ((writerPool (emptyFile 10)).play (writerSystem 0 0) (fun _ _ => True)
      [.call 1 firstWrite, .go 1 99]).map (fun p => (bytesReturned (p.places 1), p.shared.length 3,
        (p.play (writerSystem 0 0) (fun _ _ => True) [.call 2 wrappingWrite, .go 2 62]).map
          (fun p => p.shared.length 3))) = some (some 600, 600, some 3) := by decide +kernel
  obtain ⟨p, hp, hobs⟩ := Option.map_eq_some_iff.mp hfirst
  obtain ⟨hbytes, hobs⟩ := Prod.mk.inj hobs
  obtain ⟨hlen, hobs⟩ := Prod.mk.inj hobs
  obtain ⟨p', hp', hlen'⟩ := Option.map_eq_some_iff.mp hobs
  exact ⟨p, p', run_of_play hp, run_of_play hp', hbytes, hlen, hlen'⟩

end KernelSanders

import KernelSanders.Filesys.Inode
import KernelSanders.Lib.Forest

namespace KernelSanders

open Lib
open Lib.Exec hiding update
open Function
open RwLock

/-!
# The part of the state that the disk operations change

Allocation, lookup, reading and writing only change the sectors, the free map and the locks of
the cache blocks.  An `Image` is that part; the rest of the file system is a fixed `fs`, and
`fs.withImage im` is the whole state.

* `Does x fs im ok Q` — code `x` run from `fs.withImage im`: whenever it returns, it has only changed
  the image, and the new one satisfies `Q`; if `ok` holds it does return;
* one lemma for each primitive of the store (`does_readBlock`, `does_writeBlock`, …);
* `leaveRead_enter`, `leaveWrite_enter` — a section gives the lock back as it was.
-/

/-- The sectors and the free map. -/
structure Disk where
  data : Nat → Sector
  map : Bitmap

/-- A disk, the locks of the cache blocks, and the sectors touched so far, newest first. -/
structure Image where
  disk : Disk
  lock : Nat → RwLock
  touched : List Nat

namespace Disk

/-- Word `i` of sector `t`. -/
def word (d : Disk) (t i : Nat) : Nat := (d.data t).word i

/-- The sector of node `p` in the tree of the inode at sector `r`. -/
def node (d : Disk) (r : Nat) (p : Path) : Nat := resolve d.word r p

@[simp] theorem node_nil (d : Disk) (r : Nat) : d.node r [] = r := rfl

@[simp] theorem node_cons (d : Disk) (r i : Nat) (p : Path) :
    d.node r (i :: p) = d.word (d.node r p) i := rfl

end Disk

namespace Image

/-- Replace the contents of sector `t`. -/
def put (t : Nat) (x : Sector) (im : Image) : Image :=
  { im with disk := { im.disk with data := update im.disk.data t x } }

/-- Sector `t` has been visited and its lock is now `l`. -/
def enter (t : Nat) (l : RwLock) (im : Image) : Image :=
  { im with lock := update im.lock t l, touched := t :: im.touched }

/-- Sector `t` has been visited. -/
def touch (t : Nat) (im : Image) : Image := { im with touched := t :: im.touched }

/-- The sectors of `l` have been visited, the first one last. -/
def visit (l : List Nat) (im : Image) : Image := { im with touched := l ++ im.touched }

def leaveRead (t : Nat) (im : Image) : Image :=
  { im with lock := update im.lock t (im.lock t).readEnd }

def leaveWrite (t : Nat) (im : Image) : Image :=
  { im with lock := update im.lock t (im.lock t).writeEnd }

@[simp] theorem enter_lock (t : Nat) (l : RwLock) (im : Image) :
    (im.enter t l).lock = update im.lock t l := rfl

@[simp] theorem enter_disk (t : Nat) (l : RwLock) (im : Image) : (im.enter t l).disk = im.disk :=
  rfl

@[simp] theorem visit_disk (l : List Nat) (im : Image) : (im.visit l).disk = im.disk := rfl

theorem visit_visit (l l' : List Nat) (im : Image) : (im.visit l).visit l' = im.visit (l' ++ l) := by
  simp only [visit, List.append_assoc]

@[simp] theorem leaveWrite_lock (t : Nat) (im : Image) :
    (im.leaveWrite t).lock = update im.lock t (im.lock t).writeEnd := rfl

@[simp] theorem leaveWrite_touched (t : Nat) (im : Image) :
    (im.leaveWrite t).touched = im.touched := rfl

end Image

/-! ### Sections give the lock back -/

namespace RwLock

/-- A reader does not have to wait. -/
def Readable (l : RwLock) : Prop := l = free ∨ 1 ≤ l.b

theorem readable_free : free.Readable := Or.inl rfl

theorem Readable.readBegin {l : RwLock} (h : l.Readable) :
    ∃ l', l.readBegin = .ok l' ∧ l'.Readable := by
  rcases h with rfl | hb
  · exact ⟨reading, rfl, .inr (by decide)⟩
  · have h1 : l.b + 1 ≠ 1 := by omega
    refine ⟨{ l with b := l.b + 1 }, ?_, .inr (by show (1 : Int) ≤ l.b + 1; omega)⟩
    simp only [RwLock.readBegin, h1, if_false]

theorem writeEnd_upgrade {l l' l'' : RwLock} (h : l.readBegin = .ok l')
    (h' : l'.upgrade = .ok l'') : l''.writeEnd = l := by
  obtain ⟨b, g⟩ := l
  rcases readBegin_cases h with ⟨rfl, (hg : g ≠ 0), rfl⟩ | ⟨(hb : b ≠ 0), rfl⟩
  · cases h'
    have hg' : g - 1 + 1 = g := by omega
    simp [writeEnd, hg']
  · -- a second reader gets the semaphore only if it was up all the time
    have hb' : b + 1 - 1 ≠ 0 := by omega
    unfold upgrade down at h'
    by_cases hg : g = 0
    · simp only [hb', if_false, hg, if_true] at h'
      cases h'
    · simp only [hb', if_false, hg] at h'
      cases h'
      simp only [writeEnd, mk.injEq]
      exact ⟨by omega, by omega⟩

end RwLock

namespace Image

variable {im im' : Image} {t : Nat} {l : RwLock}

/-- A visit to a sector does not lock out the readers of any. -/
theorem readable_enter {t' : Nat} (h : (im.lock t).readBegin = .ok l)
    (ht : (im.lock t).Readable) (ht' : (im.lock t').Readable) :
    ((im.enter t l).lock t').Readable := by
  by_cases he : t' = t
  · subst he
    obtain ⟨l', hl', hr⟩ := ht.readBegin
    rw [h] at hl'
    cases hl'
    rwa [enter_lock, update_self]
  · rwa [enter_lock, update_of_ne he]

/-- The end of a read section inside which the sectors `ts` were visited. -/
theorem leaveRead_enter (h : (im.lock t).readBegin = .ok l) (ts : List Nat) :
    ((im.enter t l).visit ts).leaveRead t = im.visit (ts ++ [t]) := by
  have hlock : update (update im.lock t l) t l.readEnd = im.lock := by
    rw [update_idem, readEnd_readBegin h, update_eq_self]
  simp only [enter, leaveRead, visit, update_self, hlock, List.append_assoc, List.singleton_append]

theorem leaveRead_enter_same (h : (im.lock t).readBegin = .ok l) :
    (im.enter t l).leaveRead t = im.visit [t] := leaveRead_enter h []

/-- The end of a write section that left the locks as it found them. -/
theorem leaveWrite_enter {l' : RwLock} (h : (im.lock t).readBegin = .ok l')
    (h' : l'.upgrade = .ok l) (hl : im'.lock = (im.enter t l).lock) :
    (im'.leaveWrite t).lock = im.lock := by
  show update im'.lock t (im'.lock t).writeEnd = im.lock
  rw [hl, enter_lock, update_self, update_idem, writeEnd_upgrade h h', update_eq_self]

end Image

/-! ### The store by itself -/

namespace SectorStore

variable (st : SectorStore) {t : Nat} {l : RwLock} {e : Stop} {f : RwLock → Except Stop RwLock}

theorem onLock_ok (h : f (st.lock t) = .ok l) :
    (onLock t f).run st = .ok ((), { st with lock := update st.lock t l }) := by
  rw [onLock, read_bind, h]
  rfl

theorem onLock_error (h : f (st.lock t) = .error e) : (onLock t f).run st = .error e := by
  rw [onLock, read_bind, h]
  rfl

theorem cacheReadBlock_ok (ht : t < st.size) (h : (st.lock t).readBegin = .ok l) :
    (cacheReadBlock t).run st = .ok (t, { st with
      lock := update st.lock t l
      touched := t :: st.touched }) := by
  rw [cacheReadBlock, read_bind, bind_ok (assert_pos (show t < (id st).size from ht) _ _),
    update_bind, bind_ok (onLock_ok (st.visit t) h)]
  rfl

theorem cacheReadBlock_blocked (ht : t < st.size) (h : (st.lock t).readBegin = .error e) :
    (cacheReadBlock t).run st = .error e := by
  rw [cacheReadBlock, read_bind, bind_ok (assert_pos (show t < (id st).size from ht) _ _),
    update_bind, bind_error (onLock_error (st.visit t) h)]

theorem cacheReadBlock_outside (ht : ¬ t < st.size) :
    (cacheReadBlock t).run st = .error (.panic "sector < block_size(fs_device)") := by
  rw [cacheReadBlock, read_bind]
  exact bind_error (assert_neg ht _ _)

end SectorStore

namespace Fs

/-- The file system with the image `im`. -/
def withImage (fs : Fs SectorStore) (im : Image) : Fs SectorStore :=
  { fs with
    store := { size := fs.store.size, data := im.disk.data, lock := im.lock,
               touched := im.touched }
    freeMap := im.disk.map }

/-- The image of a state. -/
def image (fs : Fs SectorStore) : Image where
  disk := { data := fs.store.data, map := fs.freeMap }
  lock := fs.store.lock
  touched := fs.store.touched

/-- Code that changes nothing but the image: what holds on return, and when it returns. -/
def Does {α : Type} (x : Exec (Fs SectorStore) α) (fs : Fs SectorStore) (im : Image) (ok : Prop)
    (Q : α → Image → Prop) : Prop :=
  Meets x (fs.withImage im) (fun a fs' => ∃ im', fs' = fs.withImage im' ∧ Q a im') (fun _ => ¬ ok)

variable {α β : Type} {x : Exec (Fs SectorStore) α} {f : α → Exec (Fs SectorStore) β}
  {fs : Fs SectorStore} {im im' : Image} {ok ok' : Prop} {Q R : α → Image → Prop}
  {P : β → Image → Prop} {a : α} {e : Stop}

/-! ### Rules -/

theorem Does.mono (h : Does x fs im ok Q) (hQ : ∀ a im', Q a im' → R a im') (hok : ok' → ok) :
    Does x fs im ok' R := by
  refine Meets.mono h ?_ (fun _ hn h' => hn (hok h'))
  rintro a fs' ⟨im', rfl, hq⟩
  exact ⟨im', rfl, hQ a im' hq⟩

/-- **Sequencing.** -/
theorem Does.bind (h : Does x fs im ok Q) (hf : ∀ a im', Q a im' → Does (f a) fs im' ok' P)
    (hok : ok' → ok) : Does (x >>= f) fs im ok' P := by
  refine Meets.bind h ?_ (fun _ hn h' => hn (hok h'))
  rintro a fs' ⟨im', rfl, hq⟩
  exact hf a im' hq

/-- Sequencing with code that may change more than the image. -/
theorem Does.meets_bind {P : β → Fs SectorStore → Prop} (h : Does x fs im ok Q)
    (hf : ∀ a im', Q a im' → Meets (f a) (fs.withImage im') P (fun _ => ¬ ok')) (hok : ok' → ok) :
    Meets (x >>= f) (fs.withImage im) P (fun _ => ¬ ok') := by
  refine Meets.bind h ?_ (fun _ hn h' => hn (hok h'))
  rintro a fs' ⟨im', rfl, hq⟩
  exact hf a im' hq

theorem does_pure (h : Q a im) : Does (pure a) fs im ok Q := ⟨im, rfl, h⟩

theorem does_stop (h : ¬ ok) : Does (stop e) fs im ok Q := h

/-- Sequencing after code whose run is known. -/
theorem does_step (h : x.run (fs.withImage im) = .ok (a, fs.withImage im')) (hf : Does (f a) fs im' ok P) :
    Does (x >>= f) fs im ok P := (meets_step h).mpr hf

/-- Code that is known to stop. -/
theorem does_fail (h : x.run (fs.withImage im) = .error e) (hok : ¬ ok) :
    Does (x >>= f) fs im ok P := meets_bind.mpr ((meets_error h).mpr hok)

variable {f : Unit → Exec (Fs SectorStore) β}

/-- An assertion: the continuation may use it, and `ok` has to imply it. -/
theorem does_assert {c : Prop} [Decidable c] {msg : String} (hc : ok → c)
    (hf : c → Does (f ()) fs im ok P) : Does (assert c msg >>= f) fs im ok P := by
  by_cases h : c
  · exact does_step (assert_pos h msg _) (hf h)
  · exact does_fail (assert_neg h msg _) (fun h' => h (hc h'))

theorem Does.ensures (h : Does x fs im ok Q) :
    Ensures x (fs.withImage im) (fun a fs' => ∃ im', fs' = fs.withImage im' ∧ Q a im') := Meets.ensures h

theorem Does.returns (h : Does x fs im ok Q) (hok : ok) :
    Returns x (fs.withImage im) (fun a fs' => ∃ im', fs' = fs.withImage im' ∧ Q a im') :=
  Meets.returns h (fun _ hn => hn hok)

/-! ### The store -/

open BlockStore

variable {t : Nat}

theorem does_getInode {b : Nat} {inode : Inode} {f : Inode → Exec (Fs SectorStore) β}
    (h : fs.inodes b = some inode) (hf : Does (f inode) fs im ok P) :
    Does (getInode b >>= f) fs im ok P :=
  does_step (getInode_run (show (fs.withImage im).inodes b = some inode from h)) hf

theorem does_dataOf {f : Sector → Exec (Fs SectorStore) β}
    (hf : Does (f (im.disk.data t)) fs im ok P) :
    Does (dataOf t >>= f) fs im ok P := does_step rfl hf

theorem does_modifyData {g : Sector → Sector}
    (hf : Does (f ()) fs (im.put t (g (im.disk.data t))) ok P) :
    Does (modifyData t g >>= f) fs im ok P := does_step rfl hf

theorem does_load {i : Nat} {f : Nat → Exec (Fs SectorStore) β}
    (hf : Does (f (im.disk.word t i)) fs im ok P) : Does (load ⟨t, i⟩ >>= f) fs im ok P :=
  does_step rfl hf

theorem does_assign {i v : Nat} (hf : Does (f ()) fs (im.put t ((im.disk.data t).setWord i v)) ok P)
    : Does (assign ⟨t, i⟩ v >>= f) fs im ok P := does_step rfl hf

theorem does_readEnd (hf : Does (f ()) fs (im.leaveRead t) ok P) :
    Does (onStore (cacheReadEnd t) >>= f) fs im ok P := does_step rfl hf

theorem does_writeEnd (hf : Does (f ()) fs (im.leaveWrite t) ok P) :
    Does (onStore (cacheWriteEnd t) >>= f) fs im ok P := does_step rfl hf

/-- `block_clear`. -/
theorem does_blockClear (hok : ok → t < fs.store.size)
    (hf : t < fs.store.size → Does (f ()) fs ((im.put t Bytes.zero).touch t) ok P) :
    Does (onStore (BlockStore.blockClear t) >>= f) fs im ok P := by
  by_cases h : t < fs.store.size
  · have hrun : (onStore (BlockStore.blockClear t) : Exec (Fs SectorStore) Unit).run (fs.withImage im)
        = .ok ((), fs.withImage ((im.put t Bytes.zero).touch t)) :=
      zoom_ok (bind_ok (assert_pos h _ _))
    exact does_step hrun (hf h)
  · have hrun : (onStore (BlockStore.blockClear t) : Exec (Fs SectorStore) Unit).run (fs.withImage im)
        = .error (.panic "Access past end of device") :=
      zoom_error (bind_error (assert_neg h _ _))
    exact does_fail hrun (fun h' => h (hok h'))

/-- `cache_read_block`. -/
theorem does_readBlock {f : Nat → Exec (Fs SectorStore) β}
    (hok : ok → t < fs.store.size ∧ (im.lock t).Readable)
    (hf : ∀ l, t < fs.store.size → (im.lock t).readBegin = .ok l →
      Does (f t) fs (im.enter t l) ok P) : Does (onStore (cacheReadBlock t) >>= f) fs im ok P := by
  by_cases h : t < fs.store.size
  · cases hl : (im.lock t).readBegin with
    | ok l =>
      have hrun : (onStore (cacheReadBlock t) : Exec (Fs SectorStore) Nat).run (fs.withImage im)
          = .ok (t, fs.withImage (im.enter t l)) :=
        zoom_ok (SectorStore.cacheReadBlock_ok (fs.withImage im).store h hl)
      exact does_step hrun (hf l h hl)
    | error e =>
      have hrun := SectorStore.cacheReadBlock_blocked (fs.withImage im).store h hl
      refine does_fail (zoom_error hrun) (fun h' => ?_)
      obtain ⟨l, hl', -⟩ := (hok h').2.readBegin
      rw [hl] at hl'
      cases hl'
  · have hrun := SectorStore.cacheReadBlock_outside (fs.withImage im).store h
    exact does_fail (zoom_error hrun) (fun h' => h (hok h').1)

/-- `cache_write_block`. -/
theorem does_writeBlock {f : Nat → Exec (Fs SectorStore) β}
    (hok : ok → t < fs.store.size ∧ im.lock t = free)
    (hf : ∀ l l', t < fs.store.size → (im.lock t).readBegin = .ok l' → l'.upgrade = .ok l →
      Does (f t) fs (im.enter t l) ok P) : Does (onStore (cacheWriteBlock t) >>= f) fs im ok P := by
  by_cases h : t < fs.store.size
  · cases hl : (im.lock t).readBegin with
    | ok l' =>
      have hread := SectorStore.cacheReadBlock_ok (fs.withImage im).store h hl
      have hself : update im.lock t l' t = l' := update_self _ _ _
      cases hu : l'.upgrade with
      | ok l =>
        have hrun : (SectorStore.cacheWriteBlock t).run (fs.withImage im).store
            = .ok (t, (fs.withImage (im.enter t l)).store) := by
          refine (bind_ok hread).trans ?_
          refine (bind_ok (SectorStore.onLock_ok _ (l := l) ?_)).trans ?_
          · show (update im.lock t l' t).upgrade = .ok l
            rw [hself, hu]
          · show Except.ok (t, SectorStore.mk _ _ (update (update im.lock t l') t l)
              _) = _
            rw [update_idem]
            rfl
        have hfs : (onStore (cacheWriteBlock t) : Exec (Fs SectorStore) Nat).run (fs.withImage im)
            = .ok (t, fs.withImage (im.enter t l)) := zoom_ok hrun
        exact does_step hfs (hf l l' h hl hu)
      | error e =>
        have hrun : (SectorStore.cacheWriteBlock t).run (fs.withImage im).store = .error e := by
          refine (bind_ok hread).trans (bind_error (SectorStore.onLock_error _ ?_))
          show (update im.lock t l' t).upgrade = .error e
          rw [hself, hu]
        refine does_fail (zoom_error hrun) (fun h' => ?_)
        rw [(hok h').2] at hl
        cases hl
        cases hu
    | error e =>
      have hrun := bind_error (f := fun s => SectorStore.onLock s upgrade >>= fun _ => pure s)
        (SectorStore.cacheReadBlock_blocked (fs.withImage im).store h hl)
      refine does_fail (zoom_error hrun) (fun h' => ?_)
      rw [(hok h').2] at hl
      cases hl
  · have hrun := bind_error (f := fun s => SectorStore.onLock s upgrade >>= fun _ => pure s)
      (SectorStore.cacheReadBlock_outside (fs.withImage im).store h)
    exact does_fail (zoom_error hrun) (fun h' => h (hok h').1)

end Fs

end KernelSanders

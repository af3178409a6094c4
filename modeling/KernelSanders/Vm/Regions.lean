import KernelSanders.Vm.Eviction

namespace KernelSanders

open Lib
open Lib.Exec hiding update
open Function List

namespace Vm

variable {π : Type} [DecidableEq π]

/-!
# The pages of a region

`mmap` and `load_segment` enter the pages of a region in the table of a process, in the order of
their addresses.  That works as long as the addresses are those of user pages, none of them is in
the table yet or comes twice, and `malloc` does not fail (`registerPages_iff`).  The table then has
these pages besides those it had (`pageAt_registeredAll`).

As long as the process neither enters nor frees pages itself its table stays as it is, and so do
the pages of files in it, up to the frames they are in (`run_remains`).  A page of a file can be
taken out of its frame and of the table at any time (`frameEvict_returns`,
`freeSuppPage_run`).
-/

/-- The page that a process has at an address. -/
def pageAt (k : Vm π) (p : π) (vaddr : Nat) : Option (SuppPage π) := (k.lookup p vaddr).bind k.pages

/-- A page is in the table. -/
def registered (k : Vm π) (p : π) (spg : SuppPage π) : Vm π :=
  { k.setPte p spg.vaddr { k.pte p spg.vaddr with dirty := false } with
    brk := k.brk + 1
    pages := update k.pages k.brk (some spg)
    table := update k.table p (k.brk :: k.table p) }

/-- Pages are entered in the table of `p`. -/
def registerPages (p : π) : List (SuppPage π) → Exec (Vm π) Unit
  | [] => pure ()
  | spg :: rest => do
    let _ ← allocateSuppPage p spg.vaddr spg
    registerPages p rest

/-- The pages are in the table. -/
def registeredAll (k : Vm π) (p : π) : List (SuppPage π) → Vm π
  | [] => k
  | spg :: rest => (k.registered p spg).registeredAll p rest

/-- A page at an address that the table of `p` can take. -/
structure Admissible (p : π) (spg : SuppPage π) : Prop where
  user : isUserVaddr spg.vaddr
  aligned : pgOfs spg.vaddr = 0
  absent : spg.fr = none
  owner : spg.pd = p

variable {k k' : Vm π} {p q : π} {spg : SuppPage π} {pages : List (SuppPage π)} {v w : Nat}

theorem allocateSuppPage_run (huser : isUserVaddr spg.vaddr) (haligned : pgOfs spg.vaddr = 0)
    (hnew : k.lookup p spg.vaddr = none) (hmalloc : k.malloc k.brk = true) :
    (allocateSuppPage p spg.vaddr spg).run k = .ok (k.brk, k.registered p spg) := by
  rw [allocateSuppPage, bind_ok (assert_pos huser _ _), bind_ok (assert_pos haligned _ _),
    getSuppPage]
  simp only [bind_assoc]
  rw [bind_ok (assert_pos huser _ _), bind_ok (assert_pos haligned _ _), read_bind,
    bind_ok (assert_pos hnew _ _), allocate]
  simp only [bind_assoc]
  rw [read_bind, update_bind]
  simp only [id, hmalloc, if_true]
  rfl

theorem allocateSuppPage_iff {a : Nat} :
    (allocateSuppPage p spg.vaddr spg).run k = .ok (a, k') ↔
      (isUserVaddr spg.vaddr ∧ pgOfs spg.vaddr = 0 ∧ k.lookup p spg.vaddr = none ∧
        k.malloc k.brk = true) ∧ a = k.brk ∧ k' = k.registered p spg := by
  constructor
  · intro h
    have hr := allocateSuppPage_ensures _ _ h
    have hrun := allocateSuppPage_run hr.user hr.aligned hr.new hr.malloc
    cases hrun.symm.trans h
    exact ⟨⟨hr.user, hr.aligned, hr.new, hr.malloc⟩, rfl, rfl⟩
  · rintro ⟨⟨huser, haligned, hnew, hmalloc⟩, rfl, rfl⟩
    exact allocateSuppPage_run huser haligned hnew hmalloc

omit [DecidableEq π] in
/-- The pages of a table are not new. -/
theorem lt_brk (hk : k.mapping.Sound) {a : Nat} (ha : a ∈ k.table q) : a < k.brk := by
  by_contra hle
  obtain ⟨c, hc, -⟩ := hk.listed q a ha
  cases hc.symm.trans (hk.fresh a (not_lt.mp hle)).1

/-- The page is found at its address, and the others as before. -/
theorem lookup_registered (hk : k.mapping.Sound) :
    (k.registered p spg).lookup q w =
      if q = p ∧ spg.vaddr = w then some k.brk else k.lookup q w := by
  have hold : ∀ q, (k.table q).find? (fun a =>
      (update k.pages k.brk (some spg) a).any (fun spg => decide (spg.vaddr = w))) =
      k.lookup q w := by
    intro q
    apply find?_congr
    intro a ha
    rw [update_of_ne (lt_brk hk ha).ne]
  by_cases hq : q = p
  · subst hq
    simp only [registered, lookup, update_self, find?_cons, Option.any_some, true_and]
    by_cases hw : spg.vaddr = w
    · simp [hw]
    · simp only [hw, decide_false, if_false]
      exact hold q
  · simp only [registered, lookup, update_of_ne hq, hq, false_and, if_false]
    exact hold q

theorem pageAt_registered (hk : k.mapping.Sound) :
    (k.registered p spg).pageAt q w = if q = p ∧ spg.vaddr = w then some spg else k.pageAt q w := by
  rw [pageAt, lookup_registered hk]
  split_ifs
  · simp [registered]
  · rw [pageAt]
    cases hfound : k.lookup q w with
    | none => rfl
    | some a =>
      have hne : a ≠ k.brk := (lt_brk hk (mem_of_find?_eq_some hfound)).ne
      simp [registered, update_of_ne hne]

theorem sound_registered (hk : k.mapping.Sound) (hspg : Admissible p spg)
    (hnew : k.lookup p spg.vaddr = none) (hmalloc : k.malloc k.brk = true) :
    (k.registered p spg).mapping.Sound := by
  have hr : Registers k p spg.vaddr spg k.brk (k.registered p spg) :=
    ⟨hspg.user, hspg.aligned, hnew, hmalloc, rfl, rfl⟩
  exact hr.sound hspg.owner rfl hspg.absent hk

/-- The pages can be entered in the table of `p`. -/
structure Registrable (k : Vm π) (p : π) (pages : List (SuppPage π)) : Prop where
  user : ∀ spg ∈ pages, isUserVaddr spg.vaddr ∧ pgOfs spg.vaddr = 0
  new : ∀ spg ∈ pages, k.lookup p spg.vaddr = none
  nodup : (pages.map SuppPage.vaddr).Nodup
  malloc : ∀ i, i < pages.length → k.malloc (k.brk + i) = true

theorem registrable_cons (hk : k.mapping.Sound) : Registrable k p (spg :: pages) ↔
    (isUserVaddr spg.vaddr ∧ pgOfs spg.vaddr = 0 ∧ k.lookup p spg.vaddr = none ∧
      k.malloc k.brk = true) ∧ Registrable (k.registered p spg) p pages := by
  constructor
  · intro h
    refine ⟨⟨(h.user spg (by simp)).1, (h.user spg (by simp)).2, h.new spg (by simp),
      h.malloc 0 (by simp)⟩, ?_, ?_, ?_, ?_⟩
    · exact fun pg hpg => h.user pg (by simp [hpg])
    · intro pg hpg
      rw [lookup_registered hk, if_neg]
      · exact h.new pg (by simp [hpg])
      · rintro ⟨-, hsame⟩
        have hnot := (nodup_cons.mp h.nodup).1
        exact hnot (hsame ▸ mem_map_of_mem hpg)
    · exact (nodup_cons.mp h.nodup).2
    · intro i hi
      have := h.malloc (i + 1) (by simpa using hi)
      rwa [show k.brk + (i + 1) = k.brk + 1 + i by omega] at this
  · rintro ⟨⟨huser, haligned, hnew, hmalloc⟩, h⟩
    refine ⟨?_, ?_, ?_, ?_⟩
    · intro pg hpg
      rcases mem_cons.mp hpg with rfl | hpg
      · exact ⟨huser, haligned⟩
      · exact h.user pg hpg
    · intro pg hpg
      rcases mem_cons.mp hpg with rfl | hpg
      · exact hnew
      · have := h.new pg hpg
        rw [lookup_registered hk] at this
        split_ifs at this
        exact this
    · rw [map_cons, nodup_cons]
      refine ⟨fun hmem => ?_, h.nodup⟩
      obtain ⟨pg, hpg, hsame⟩ := mem_map.mp hmem
      have := h.new pg hpg
      rw [lookup_registered hk, if_pos ⟨rfl, hsame.symm⟩] at this
      cases this
    · intro i hi
      cases i with
      | zero => exact hmalloc
      | succ i =>
        have := h.malloc i (by simpa using hi)
        rwa [show (k.registered p spg).brk + i = k.brk + (i + 1) by simp only [registered]; omega]
          at this

/-- When pages can be entered, and what the table is then. -/
theorem registerPages_iff (hk : k.mapping.Sound)
    (hpages : ∀ spg ∈ pages, spg.fr = none ∧ spg.pd = p) :
    (registerPages p pages).run k = .ok ((), k') ↔
      Registrable k p pages ∧ k' = k.registeredAll p pages := by
  induction pages generalizing k with
  | nil =>
    constructor
    · intro h
      cases h
      exact ⟨⟨by simp, by simp, by simp, by simp⟩, rfl⟩
    · rintro ⟨-, rfl⟩
      rfl
  | cons spg pages ih =>
    obtain ⟨hfr, hpd⟩ := hpages spg (by simp)
    have hrest : ∀ pg ∈ pages, pg.fr = none ∧ pg.pd = p := fun pg hpg => hpages pg (by simp [hpg])
    have hsound : isUserVaddr spg.vaddr ∧ pgOfs spg.vaddr = 0 ∧ k.lookup p spg.vaddr = none ∧
        k.malloc k.brk = true → (k.registered p spg).mapping.Sound :=
      fun ⟨huser, haligned, hnew, hmalloc⟩ =>
        sound_registered hk ⟨huser, haligned, hfr, hpd⟩ hnew hmalloc
    rw [registrable_cons hk, registerPages, bind_eq_ok]
    constructor
    · rintro ⟨a, k₁, hfirst, hothers⟩
      obtain ⟨hok, rfl, rfl⟩ := allocateSuppPage_iff.mp hfirst
      obtain ⟨hreg, hk'⟩ := (ih (hsound hok) hrest).mp hothers
      exact ⟨⟨hok, hreg⟩, hk'⟩
    · rintro ⟨⟨hok, hreg⟩, hk'⟩
      exact ⟨_, _, allocateSuppPage_iff.mpr ⟨hok, rfl, rfl⟩,
        (ih (hsound hok) hrest).mpr ⟨hreg, hk'⟩⟩

/-- The table has the pages it had and the new ones. -/
theorem pageAt_registeredAll (hk : k.mapping.Sound)
    (hpages : ∀ spg ∈ pages, spg.fr = none ∧ spg.pd = p) (hreg : Registrable k p pages) :
    (k.registeredAll p pages).mapping.Sound ∧ (∀ spg ∈ pages,
      (k.registeredAll p pages).pageAt p spg.vaddr = some spg) ∧
    ∀ q w, ¬ (q = p ∧ ∃ spg ∈ pages, spg.vaddr = w) →
      (k.registeredAll p pages).pageAt q w = k.pageAt q w := by
  induction pages generalizing k with
  | nil => exact ⟨hk, by simp, fun _ _ _ => rfl⟩
  | cons spg pages ih =>
    obtain ⟨hfr, hpd⟩ := hpages spg (by simp)
    obtain ⟨⟨huser, haligned, hnew, hmalloc⟩, hreg'⟩ := (registrable_cons hk).mp hreg
    have hsound := sound_registered hk ⟨huser, haligned, hfr, hpd⟩ hnew hmalloc
    obtain ⟨hs, hthese, hothers⟩ :=
      ih hsound (fun pg hpg => hpages pg (by simp [hpg])) hreg'
    refine ⟨hs, fun pg hpg => ?_, fun q w hnot => ?_⟩
    · rcases mem_cons.mp hpg with rfl | hpg
      · -- the others are at other addresses
        rw [registeredAll, hothers, pageAt_registered hk, if_pos ⟨rfl, rfl⟩]
        rintro ⟨-, pg', hpg', hsame⟩
        exact (nodup_cons.mp hreg.nodup).1 (hsame ▸ mem_map_of_mem hpg')
      · exact hthese pg hpg
    · rw [registeredAll, hothers q w, pageAt_registered hk, if_neg]
      · rintro ⟨rfl, rfl⟩
        exact hnot ⟨rfl, spg, by simp, rfl⟩
      · rintro ⟨rfl, pg, hpg, rfl⟩
        exact hnot ⟨rfl, pg, by simp [hpg], rfl⟩

theorem registerPages_append (l l' : List (SuppPage π)) :
    registerPages p (l ++ l') = registerPages p l >>= fun _ => registerPages p l' := by
  induction l with
  | nil => rfl
  | cons spg l ih =>
    simp only [cons_append, registerPages, bind_assoc, ih]

theorem files_registeredAll : (k.registeredAll p pages).files = k.files := by
  induction pages generalizing k with
  | nil => rfl
  | cons spg pages ih => exact ih

theorem exe_registeredAll : (k.registeredAll p pages).exe = k.exe := by
  induction pages generalizing k with
  | nil => rfl
  | cons spg pages ih => exact ih

/-- The new pages are clean. -/
theorem dirty_registeredAll (hpages : ∀ spg ∈ pages, spg.pd = p)
    (h : k.dirty spg = false ∨ spg ∈ pages) : (k.registeredAll p pages).dirty spg = false := by
  induction pages generalizing k with
  | nil => exact h.resolve_right not_mem_nil
  | cons pg pages ih =>
    refine ih (fun spg hspg => hpages spg (by simp [hspg])) ?_
    simp only [dirty, registered, setPte]
    split_ifs with hsame
    · exact .inl rfl
    · rcases h with h | h
      · exact .inl h
      · rcases mem_cons.mp h with rfl | h
        · exact absurd ⟨hpages spg (by simp), rfl⟩ hsame
        · exact .inr h

/-- The new pages have no slots. -/
theorem SlotsOwned.registeredAll (h : k.SlotsOwned) (hpages : ∀ spg ∈ pages, spg.type = .filesys) :
    (k.registeredAll p pages).SlotsOwned := by
  induction pages generalizing k with
  | nil => exact h
  | cons pg pages ih =>
    refine ih (h.setPage (a := k.brk) (fun hpg => ?_) rfl rfl)
      (fun spg hspg => hpages spg (by simp [hspg]))
    cases (hpages pg (by simp)).symm.trans hpg.1

/-- Each new page is put in front of the table. -/
theorem table_registeredAll : (k.registeredAll p pages).table p =
    (range' k.brk pages.length).reverse ++ k.table p := by
  induction pages generalizing k with
  | nil => rfl
  | cons spg pages ih =>
    rw [registeredAll, ih]
    simp only [registered, update_self, length_cons, range'_succ,
      reverse_cons, append_assoc, singleton_append]

/-- The pages are at the addresses that come next. -/
theorem pages_registeredAll (a : Nat) : (k.registeredAll p pages).pages a =
    if a < k.brk then k.pages a else (pages[a - k.brk]?).or (k.pages a) := by
  induction pages generalizing k with
  | nil => simp [registeredAll]
  | cons spg pages ih =>
    rw [registeredAll, ih]
    simp only [registered, update_apply]
    rcases lt_trichotomy a k.brk with hlt | heq | hgt
    · have hne : a ≠ k.brk := hlt.ne
      rw [if_pos (by omega), if_neg hne, if_pos hlt]
    · subst heq
      rw [if_pos (by omega), if_pos rfl, if_neg (lt_irrefl _)]
      simp
    · obtain ⟨i, rfl⟩ := Nat.exists_eq_add_of_lt hgt
      have hi : k.brk + i + 1 - k.brk = i + 1 := by omega
      have hi' : k.brk + i + 1 - (k.brk + 1) = i := by omega
      rw [if_neg (by omega), if_neg (by omega), if_neg (by omega), hi, hi', getElem?_cons_succ]

omit [DecidableEq π] in
/-- The page at an address of a process is the page that says so. -/
theorem pageAt_eq_some (hk : k.mapping.Sound) : k.pageAt p w = some spg ↔
    ∃ a, k.pages a = some spg ∧ spg.pd = p ∧ spg.vaddr = w := by
  constructor
  · intro h
    obtain ⟨a, hfound, hspg⟩ := Option.bind_eq_some_iff.mp h
    obtain ⟨c, hc, rfl⟩ := hk.listed p a (mem_of_find?_eq_some hfound)
    obtain ⟨pg, hpg, rfl⟩ := exists_page hc
    cases hspg.symm.trans hpg
    have hw := find?_some hfound
    simp only [hspg, Option.any_some, decide_eq_true_eq] at hw
    exact ⟨a, hspg, rfl, hw⟩
  · rintro ⟨a, hspg, rfl, rfl⟩
    rw [pageAt, lookup_of_page hk hspg]
    exact hspg

/-! ### What remains of a table -/

/-- The table of `p` is as it was, with the pages of files, except for the frames they are in. -/
structure Remains (p : π) (k k' : Vm π) : Prop where
  table : k'.table p = k.table p
  exe : k'.exe p = k.exe p
  pages : ∀ a ∈ k.table p, ∀ spg, k.pages a = some spg → spg.type = .filesys →
    spg.fil ≠ k.exe p → ∃ fr, k'.pages a = some { spg with fr := fr }

/-- The process `p` does not enter pages itself, and does not exit. -/
def LeavesTable (p : π) : VmOp π → Prop
  | .createFilesysPage q _ _ _ _ _ => q ≠ p
  | .growStack q _ => q ≠ p
  | .freeSuppPageTable q _ => q ≠ p
  | _ => True

instance (p : π) (o : VmOp π) : Decidable (LeavesTable p o) := by
  cases o <;> unfold LeavesTable <;> infer_instance

namespace Remains

variable {k₀ k₁ k₂ : Vm π} {a f kpage : Nat} {fr : Frame} {pinned : Bool}

section

omit [DecidableEq π]

/-- The pages and the table are the same. -/
theorem of_eq (htable : k'.table p = k.table p) (hexe : k'.exe p = k.exe p)
    (hpages : ∀ a ∈ k.table p, k'.pages a = k.pages a) : Remains p k k' :=
  ⟨htable, hexe, fun a ha spg hspg _ _ => ⟨spg.fr, (hpages a ha).trans hspg⟩⟩

theorem trans (h : Remains p k k₁) (h' : Remains p k₁ k') : Remains p k k' where
  table := h'.table.trans h.table
  exe := h'.exe.trans h.exe
  pages a ha spg hspg htype hfil := by
    obtain ⟨fr₁, hspg₁⟩ := h.pages a ha spg hspg htype hfil
    rw [← h.table] at ha
    rw [← h.exe] at hfil
    obtain ⟨fr', hspg'⟩ := h'.pages a ha _ hspg₁ htype hfil
    exact ⟨fr', hspg'⟩

end

theorem evicts {spg₁ : SuppPage π} (h : Evicts k f fr a spg k₁ spg₁ k') : Remains p k k' := by
  refine ⟨?_, ?_, fun b _ pg hpg htype _ => ?_⟩
  · rw [h.result]
    cases h.out <;> rfl
  · rw [h.result]
    cases h.out <;> rfl
  · by_cases hb : b = a
    · subst hb
      cases h.entry.symm.trans hpg
      have hsame : spg₁ = spg := by
        cases h.out with
        | clean | file => rfl
        | swap s hswap => cases htype.symm.trans hswap
      refine ⟨none, ?_⟩
      rw [h.result, hsame]
      exact update_self _ _ _
    · exact ⟨pg.fr, (h.pages_of_ne hb).trans hpg⟩

theorem makesRoom (h : MakesRoom k k') : Remains p k k' := by
  cases h with
  | free => exact of_eq rfl rfl (fun _ _ => rfl)
  | evict f k₀ fr a spg k₁ spg₁ _ chosen hevicts =>
    have hk₀ := chosen.reordered.result
    refine trans (of_eq ?_ ?_ ?_) (evicts hevicts) <;> rw [hk₀]
    exact fun _ _ => rfl

theorem creates (h : Creates k pinned k₀ kpage f k') : Remains p k k' := by
  refine (makesRoom h.room).trans (of_eq ?_ ?_ ?_) <;> rw [h.result]
  exact fun _ _ => rfl

/-- Another process enters a page. -/
theorem registers (h : Registers k q v spg a k') (hlt : ∀ b ∈ k.table p, b < k.brk)
    (hq : q ≠ p) : Remains p k k' := by
  have haddress := h.address
  refine of_eq ?_ ?_ ?_ <;> rw [h.result]
  · exact update_of_ne hq.symm _ _
  · rfl
  · intro b hb
    exact update_of_ne (haddress ▸ (hlt b hb).ne) _ _

omit [DecidableEq π] in
/-- A page that comes in: a page of the executable that can be written to is converted, others
    are not. -/
theorem populated (h : Populated k q a spg kpage k') (hspg : k.pages a = some spg)
    (hown : a ∈ k.table p → q = p) : Remains p k k' := by
  cases h with
  | file | swap => exact of_eq rfl rfl (fun _ _ => rfl)
  | convert fil d type file read wr exe =>
    refine ⟨rfl, rfl, fun b hb pg hpg _ hfil => ?_⟩
    have hne : b ≠ a := by
      rintro rfl
      cases hpg.symm.trans hspg
      rw [← hown hb] at hfil
      exact hfil exe
    exact ⟨pg.fr, (update_of_ne hne _ _).trans hpg⟩

theorem pagesIn (h : PagesIn k q a pinned k₀ kpage f k₁ spg k₂ k') (hown : a ∈ k.table p → q = p) :
    Remains p k k' := by
  have hcreates : Remains p k k₁ := creates h.creates
  have hattached : Remains p k₁
      (k₁.attached f ⟨kpage, none, if pinned then 1 else 0, false⟩ a spg) := by
    refine ⟨rfl, rfl, fun b _ pg hpg _ _ => ?_⟩
    by_cases hb : b = a
    · subst hb
      cases h.entry.symm.trans hpg
      exact ⟨some f, update_self _ _ _⟩
    · exact ⟨pg.fr, (update_of_ne hb _ _).trans hpg⟩
  have hpopulated := populated h.populated (update_self _ _ _) (p := p) (by
    intro ha
    rw [hattached.table, hcreates.table] at ha
    exact hown ha)
  rw [h.result]
  exact hcreates.trans (hattached.trans (hpopulated.trans (of_eq rfl rfl (fun _ _ => rfl))))

theorem grows {upage : Nat} {ok : Bool} (h : Grows k q upage k₀ kpage f k₁ a k₂ ok k')
    (hk : k.mapping.Sound) (hq : q ≠ p) : Remains p k k' := by
  have hlt : ∀ b ∈ k₁.table p, b < k₁.brk := by
    rw [h.creates.result]
    exact fun b hb => (lt_brk (h.creates.room.sound hk) hb).trans (Nat.lt_succ_self _)
  refine (creates h.creates).trans ((registers h.registers hlt hq).trans ?_)
  rw [h.result]
  dsimp only
  split_ifs <;> exact of_eq rfl rfl (fun _ _ => rfl)

/-- No process gets another executable. -/
theorem exe_freeEach (as : List Nat) (k : Vm π) :
    Ensures (freeEach q as) k (fun _ k' => k'.exe = k.exe) := by
  induction as generalizing k with
  | nil => exact ensures_pure.mpr rfl
  | cons a as ih =>
    simp only [freeEach, ensures_bind]
    refine freeActionFunc_ensures.mono (fun _ k₁ hk₁ => (ih k₁).mono (fun _ k' hk' => ?_))
    obtain ⟨spg, k₂, spg₂, hfrees⟩ := hk₁
    have hvacated : k₂.exe = k.exe := by
      cases hfrees.vacated with
      | absent | free => rfl
      | evict f fr b pg k₃ pg₃ _ type held hevicts =>
        rw [hevicts.result]
        cases hevicts.out <;> rfl
    rw [hk', hfrees.result, forgetSlot_eq]
    exact hvacated

theorem did {o : VmOp π} (h : Did k o k') (hk : k.mapping.Sound) (ho : LeavesTable p o)
    (hexe : ∀ q order, o = .freeSuppPageTable q order → k'.exe = k.exe) : Remains p k k' := by
  cases h with
  | createFilesysPage hregisters => exact registers hregisters (fun _ => lt_brk hk) ho
  | growStack hgrows => exact grows hgrows hk ho
  | pageToNewFrame mem hpagesIn =>
    refine pagesIn hpagesIn (fun ha => ?_)
    -- the page is in one table only
    obtain ⟨c, hc, rfl⟩ := hk.listed _ _ mem
    obtain ⟨c', hc', rfl⟩ := hk.listed _ _ ha
    cases hc.symm.trans hc'
    rfl
  | frameEvict hevicts => exact evicts hevicts
  | @freeSuppPageTable q order k₁ perm freed =>
    have hq : q ≠ p := ho
    refine of_eq ?_ (congrFun (hexe q order rfl) p) (fun a ha => freed.kept a (fun hmem => ?_))
    · show update k₁.table q [] p = _
      rw [update_of_ne hq.symm, freed.table]
    · obtain ⟨c, hc, rfl⟩ := hk.listed _ _ (perm.mem_iff.mp hmem)
      obtain ⟨c', hc', rfl⟩ := hk.listed _ _ ha
      cases hc.symm.trans hc'
      exact hq rfl
  | store | load | touch | setDenyWrite => exact of_eq rfl rfl (fun _ _ => rfl)

end Remains

theorem run_remains (hrun : (vm π).Run (fun _ o => LeavesTable p o) k k') (hk : k.mapping.Sound) :
    k'.mapping.Sound ∧ Remains p k k' := by
  refine Machine.Run.invariant (I := fun k' => k'.mapping.Sound ∧ Remains p k k') ?_ hrun
    ⟨hk, .of_eq rfl rfl (fun _ _ => rfl)⟩
  rintro o k₁ k₂ ⟨hk₁, hremains⟩ hsteps ho
  have hdid := did_of_steps hk₁ hsteps
  refine ⟨hdid.sound hk₁, hremains.trans (.did hdid hk₁ ho ?_)⟩
  rintro q order rfl
  have hexe : Ensures (freeSuppPageTable q order) k₁ (fun _ k₂ => k₂.exe = k₁.exe) := by
    simp only [freeSuppPageTable, ensures_bind, ensures_update]
    exact Remains.exe_freeEach order k₁
  exact hexe _ _ hsteps.run

/-! ### Taking a page out -/

/-- A page of a file that can be written back. -/
structure FilePage (spg : SuppPage π) : Prop where
  user : isUserVaddr spg.vaddr
  aligned : pgOfs spg.vaddr = 0
  type : spg.type = .filesys
  fil : spg.fil ≠ none
  offset : 0 ≤ spg.offset
  bytes : 0 ≤ spg.bytes ∧ spg.bytes ≤ pgSize

omit [DecidableEq π] in
/-- `file_write_at` of a page of a file does not fail. -/
theorem writeAt_filePage (h : FilePage spg) (fs : Files) (fil : Nat) (d : PageData) :
    ∃ r, fs.writeAt fil d spg.bytes spg.offset = .ok r := by
  unfold Files.writeAt
  split_ifs with hdeny hrange
  · exact ⟨_, rfl⟩
  · obtain ⟨hlow, hhigh⟩ := h.bytes
    have := h.offset
    omega
  · exact ⟨_, rfl⟩

variable {a f : Nat} {fr : Frame}

/-- The `switch` of `frame_evict` does not stop at a page of a file. -/
theorem writeOut_returns (h : FilePage spg) (hfr : k.frames f = some fr) :
    Returns (writeOut f a spg) k (fun _ _ => True) := by
  rw [writeOut_filesys h.type, returns_step (getFrame_run hfr), returns_get]
  split_ifs
  · obtain ⟨fil, hfil⟩ := Option.ne_none_iff_exists'.mp h.fil
    obtain ⟨⟨n, files⟩, hwrite⟩ := writeAt_filePage h k.files fil (k.mem fr.physAddr)
    have hrun : (fileWriteAt fil fr.physAddr spg.bytes spg.offset).run k =
        .ok (n, { k with files := files }) := by
      simp only [fileWriteAt, hwrite]
    rw [returns_step (deref_run hfil), returns_step hrun, pagedirClean, returns_update]
    trivial
  · exact returns_pure.mpr trivial

theorem frameFree_run (hfr : k.frames f = some fr) (ha : fr.page = some a)
    (hspg : k.pages a = some spg) (huser : isUserVaddr spg.vaddr)
    (haligned : pgOfs spg.vaddr = 0) (hused : k.used fr.physAddr = true) :
    (frameFree (some f)).run k = .ok (0, k.released f fr spg) := by
  have hpage : ∀ l, (getPage a).run { k with frameTable := l } = .ok (spg, _) :=
    fun l => getPage_run hspg
  rw [frameFree, bind_ok (getFrame_run hfr), update_bind, bind_ok (deref_run ha),
    bind_ok (hpage _), pagedirClearPage]
  simp only [bind_assoc]
  rw [bind_ok (assert_pos haligned _ _), bind_ok (assert_pos huser _ _), update_bind,
    pallocFreePage]
  simp only [bind_assoc]
  rw [update_bind, read_bind]
  exact (bind_ok (assert_pos hused _ _)).trans rfl

/-- A page of a file can be taken out of its frame. -/
theorem frameEvict_returns (hk : k.mapping.Sound) (hspg : k.pages a = some spg)
    (hf : spg.fr = some f) (h : FilePage spg) :
    Returns (frameEvict f) k (fun _ k' =>
      (∃ fr k₁ spg₁, Evicts k f fr a spg k₁ spg₁ k') ∧ k'.table = k.table ∧
      k'.pages = update k.pages a (some { spg with fr := none })) := by
  obtain ⟨fr, hfr, hpage, -⟩ := frame_of_page hk hspg hf
  have hused : k.used fr.physAddr = true := (hk.calm f _ (mapping_frame hfr)).2
  have hmarked : (k.markEvicting f fr).frames f = some { fr with evicting := true } :=
    update_self _ _ _
  have htotal : Returns (frameEvict f) k (fun _ _ => True) := by
    obtain ⟨_, k₁, hout, -⟩ := writeOut_returns (a := a) h hmarked
    obtain ⟨spg₁, hwritten⟩ := writeOut_ensures hmarked _ _ hout
    obtain ⟨hframes, hused₁, hpages⟩ := hwritten.kept hspg
    have hsame : spg₁ = spg := by
      cases hwritten with
      | clean | file => rfl
      | swap s hswap => cases h.type.symm.trans hswap
    subst hsame
    have hfr₁ : k₁.frames f = some { fr with evicting := true } := by rw [hframes, hmarked]
    have hfree := frameFree_run hfr₁ hpage hpages h.user h.aligned (by rw [hused₁]; exact hused)
    rw [Returns, frameEvict_run hfr hpage hspg hf]
    show Returns (writeOut f a spg₁ >>= fun _ => unlink f a) (k.markEvicting f fr) _
    rw [returns_step hout, unlink, returns_step hfree, returns_step (assert_pos rfl _ _)]
    have hagain : ∀ fr, (getPage a).run (k₁.released f fr spg₁) = .ok (spg₁, _) :=
      fun _ => getPage_run hpages
    rw [returns_step (hagain _), setPage, returns_update]
    trivial
  refine (htotal.and_ensures frameEvict_ensures).mono (fun _ k' hk' => ?_)
  obtain ⟨-, fr', b, pg, k₁, pg₁, hev⟩ := hk'
  cases hfr.symm.trans hev.frame
  cases hpage.symm.trans hev.page
  cases hspg.symm.trans hev.entry
  refine ⟨⟨fr, k₁, pg₁, hev⟩, ?_, ?_⟩
  · rw [hev.result]
    cases hev.out <;> rfl
  · rw [hev.result]
    cases hev.out with
    | clean | file => rfl
    | swap s hswap => cases h.type.symm.trans hswap

/-- The page `a` is not in the table of `p` any more. -/
def unlisted (k : Vm π) (p : π) (a : Nat) : Vm π :=
  { k with
    table := update k.table p ((k.table p).erase a)
    pages := update k.pages a none }

/-- A page that is not in a frame can be taken out of the table. -/
theorem freeSuppPage_run (hk : k.mapping.Sound) (hspg : k.pages a = some spg)
    (h : Admissible p spg) : (freeSuppPage p a).run k = .ok ((), k.unlisted p a) := by
  have hfound : k.lookup p spg.vaddr = some a := h.owner ▸ lookup_of_page hk hspg
  have hrun : (getSuppPage p spg.vaddr).run k = .ok (some a, k) := by
    rw [getSuppPage, bind_ok (assert_pos h.user _ _), bind_ok (assert_pos h.aligned _ _), ← hfound]
    rfl
  rw [freeSuppPage, bind_ok (getPage_run hspg), bind_ok hrun, bind_ok (assert_pos (by simp) _ _),
    bind_ok (deref_run rfl), update_bind]
  rfl

theorem sound_unlisted (hk : k.mapping.Sound) (hspg : k.pages a = some spg)
    (h : Admissible p spg) : (k.unlisted p a).mapping.Sound := by
  have hnodup : (k.table p).Nodup := hk.nodup p
  have hmem : ∀ b, b ∈ (k.table p).erase a ↔ b ∈ k.table p ∧ b ≠ a := by
    intro b
    rw [hnodup.mem_erase_iff]
    exact and_comm
  refine cast (congrArg Mapping.Sound ?_)
    (hk.drop (mapping_page hspg) h.absent h.owner (hnodup.erase a) hmem)
  ext1
  case page =>
    show update (fun b => (k.pages b).map SuppPage.core) a none =
      fun b => (update k.pages a none b).map SuppPage.core
    rw [map_update]
    rfl
  all_goals rfl

end Vm

end KernelSanders

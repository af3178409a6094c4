import KernelSanders.Vm.Runs

namespace KernelSanders

open Lib
open Lib.Exec hiding update
open Function

namespace Vm

variable {π : Type}

/-!
# The slots of the swap device and their pages

A page that has been evicted to swap owns the slot it points to.  A page that has been brought back
keeps the pointer, although the slot is free again and may have been taken for another page: only
`free_action_func` looks at it, and frees the slot once more.  So a process may exit as long as
none of its resident pages points to a slot that has been taken for a page of another process.
-/

/-- A page that has been evicted to swap and is not back yet. -/
def SwappedOut (k : Vm π) (a : Nat) (spg : SuppPage π) : Prop :=
  k.pages a = some spg ∧ spg.type = .swapslot ∧ spg.fr = none

/-- Every page in swap has a slot of its own. -/
structure SlotsOwned (k : Vm π) : Prop where
  inUse : ∀ a spg, k.SwappedOut a spg → ∃ s, spg.swap = some s ∧ k.inUse s = true
  unique : ∀ a b spg pg s, k.SwappedOut a spg → k.SwappedOut b pg → spg.swap = some s →
    pg.swap = some s → a = b

/-- No resident page of `p` points to a slot that has been taken for a page of another process. -/
def SlotsLetGo (k : Vm π) (p : π) : Prop :=
  ∀ a spg s, a ∈ k.table p → k.pages a = some spg → spg.type = .swapslot → spg.fr ≠ none →
    spg.swap = some s → ∀ b pg, b ∉ k.table p → k.SwappedOut b pg → pg.swap ≠ some s

/-- A process exits only when its slots have been let go of. -/
def ExitsClean (k : Vm π) : VmOp π → Prop
  | .freeSuppPageTable p _ => k.SlotsLetGo p
  | _ => True

namespace SlotsOwned

variable {k k' : Vm π} {f a : Nat} {fr : Frame} {spg : SuppPage π}

/-- Only the pages and the slots matter. -/
theorem congr (h : k.SlotsOwned) (hpages : k'.pages = k.pages) (hinUse : k'.inUse = k.inUse) :
    k'.SlotsOwned := by
  have hout : ∀ a spg, k'.SwappedOut a spg ↔ k.SwappedOut a spg := by
    intro a spg
    rw [SwappedOut, SwappedOut, hpages]
  constructor
  · intro a spg ha
    rw [hinUse]
    exact h.inUse a spg ((hout a spg).mp ha)
  · intro a b spg pg s ha hb
    exact h.unique a b spg pg s ((hout a spg).mp ha) ((hout b pg).mp hb)

/-- A page that is not in swap is put in place of another. -/
theorem setPage (h : k.SlotsOwned) (hspg : ¬ (spg.type = .swapslot ∧ spg.fr = none))
    (hpages : k'.pages = update k.pages a (some spg)) (hinUse : k'.inUse = k.inUse) :
    k'.SlotsOwned := by
  have hout : ∀ b pg, k'.SwappedOut b pg → k.SwappedOut b pg := by
    rintro b pg ⟨hb, hrest⟩
    rw [hpages, update_apply] at hb
    split_ifs at hb
    · cases hb
      exact absurd hrest hspg
    · exact ⟨hb, hrest⟩
  constructor
  · intro b pg hb
    rw [hinUse]
    exact h.inUse b pg (hout b pg hb)
  · intro b b' pg pg' s hb hb'
    exact h.unique b b' pg pg' s (hout b pg hb) (hout b' pg' hb')

/-- A page is written to a slot that was free. -/
theorem takeSlot (h : k.SlotsOwned) {s : Nat} (hs : k.inUse s = false)
    (hspg : spg.swap = some s) (hpages : k'.pages = update k.pages a (some spg))
    (hinUse : k'.inUse = update k.inUse s true) : k'.SlotsOwned := by
  have hout : ∀ b pg, k'.SwappedOut b pg → b = a ∧ pg.swap = some s ∨
      b ≠ a ∧ k.SwappedOut b pg ∧ pg.swap ≠ some s := by
    rintro b pg ⟨hb, hrest⟩
    rw [hpages, update_apply] at hb
    split_ifs at hb with hba
    · cases hb
      exact .inl ⟨hba, hspg⟩
    · refine .inr ⟨hba, ⟨hb, hrest⟩, fun hswap => ?_⟩
      -- the slot would have been in use
      obtain ⟨t, ht, ht'⟩ := h.inUse b pg ⟨hb, hrest⟩
      cases hswap.symm.trans ht
      rw [hs] at ht'
      cases ht'
  constructor
  · intro b pg hb
    rw [hinUse]
    rcases hout b pg hb with ⟨-, hswap⟩ | ⟨-, hb, hne⟩
    · exact ⟨s, hswap, update_self _ _ _⟩
    · obtain ⟨t, ht, ht'⟩ := h.inUse b pg hb
      refine ⟨t, ht, ?_⟩
      rw [update_of_ne, ht']
      rintro rfl
      exact hne ht
  · intro b b' pg pg' t hb hb' ht ht'
    rcases hout b pg hb with ⟨rfl, hswap⟩ | ⟨-, hb, hne⟩ <;>
      rcases hout b' pg' hb' with ⟨rfl, hswap'⟩ | ⟨-, hb', hne'⟩
    · rfl
    · exact absurd (ht'.trans (ht.symm.trans hswap)) hne'
    · exact absurd (ht.trans (ht'.symm.trans hswap')) hne
    · exact h.unique b b' pg pg' t hb hb' ht ht'

/-- A page is brought back, and its slot is free. -/
theorem leaveSlot (h : k.SlotsOwned) {s g : Nat} (hspg : k.SwappedOut a spg)
    (hs : spg.swap = some s) (hpages : k'.pages = update k.pages a
      (some { spg with fr := some g })) (hinUse : k'.inUse = update k.inUse s false) :
    k'.SlotsOwned := by
  have hout : ∀ b pg, k'.SwappedOut b pg → b ≠ a ∧ k.SwappedOut b pg := by
    rintro b pg ⟨hb, hrest⟩
    rw [hpages, update_apply] at hb
    split_ifs at hb with hba
    · cases hb
      cases hrest.2
    · exact ⟨hba, hb, hrest⟩
  constructor
  · intro b pg hb
    obtain ⟨hba, hb⟩ := hout b pg hb
    obtain ⟨t, ht, ht'⟩ := h.inUse b pg hb
    refine ⟨t, ht, ?_⟩
    rw [hinUse, update_of_ne, ht']
    rintro rfl
    exact hba (h.unique b a pg spg t hb hspg ht hs)
  · intro b b' pg pg' t hb hb'
    exact h.unique b b' pg pg' t (hout b pg hb).2 (hout b' pg' hb').2

variable [DecidableEq π]

section

variable (h : k.SlotsOwned)
include h

theorem evicts {k₁ : Vm π} {spg₁ : SuppPage π}
    (hev : Evicts k f fr a spg k₁ spg₁ k') : k'.SlotsOwned := by
  have hresult := hev.result
  cases hev.out with
  | clean type | file fil n files type =>
    refine h.setPage (a := a) (fun hspg => ?_) (by rw [hresult]; rfl) (by rw [hresult]; rfl)
    rw [show spg.type = .swapslot from hspg.1] at type
    cases type
  | swap s type slot =>
    have hpages : k'.pages =
        update k.pages a (some { spg with fr := none, swap := some s }) := by
      rw [hresult]
      exact update_idem _ _ _
    exact h.takeSlot (firstFree_eq_some.mp slot).2.1 rfl hpages (by rw [hresult]; rfl)

theorem makesRoom (hroom : MakesRoom k k') : k'.SlotsOwned := by
  cases hroom with
  | free => exact h
  | evict g k₀ fr a spg k₁ spg₁ _ chosen hev =>
    refine evicts ?_ hev
    exact h.congr (by rw [chosen.reordered.result]) (by rw [chosen.reordered.result])

theorem pagesIn {p : π} {pinned : Bool} {k₀ k₁ k₂ : Vm π} {kpage : Nat}
    (hk : k.mapping.Sound) (hin : PagesIn k p a pinned k₀ kpage f k₁ spg k₂ k') :
    k'.SlotsOwned := by
  obtain ⟨hfr, -, hspg⟩ := hin.page hk
  have h₀ := h.makesRoom hin.creates.room
  have hpages : k₁.pages = k₀.pages := by rw [hin.creates.result]
  have hinUse : k₁.inUse = k₀.inUse := by rw [hin.creates.result]
  have hresult := hin.result
  cases hin.populated with
  | file fil d type file read keep =>
    have hpage : k'.pages = update k₀.pages a (some { spg with fr := some f }) := by
      rw [hresult, ← hpages]
      rfl
    refine h₀.setPage (fun hnot => ?_) hpage (by rw [hresult, ← hinUse]; rfl)
    cases hnot.2
  | convert fil d type file read wr exe =>
    have hpage : k'.pages = update k₀.pages a (some { spg with
        fr := some f, type := .swapslot, fil := none, offset := 0, bytes := 0, swap := none }) := by
      rw [hresult, ← hpages]
      exact update_idem _ _ _
    refine h₀.setPage (fun hnot => ?_) hpage (by rw [hresult, ← hinUse]; rfl)
    cases hnot.2
  | swap s type slot =>
    refine h₀.leaveSlot (a := a) (g := f) ⟨hspg, type, hfr⟩ slot ?_ ?_
    · rw [hresult, ← hpages]
      rfl
    · rw [hresult, ← hinUse]
      rfl

/-- The slots of the other processes survive an exit. -/
theorem allFreed {p : π} {order : List Nat} (hclean : k.SlotsLetGo p)
    (hperm : order.Perm (k.table p)) (hfreed : AllFreed k p order k') {b s : Nat}
    {pg : SuppPage π} (hb : b ∉ k.table p) (hout : k.SwappedOut b pg) (hs : pg.swap = some s) :
    k'.inUse s = true := by
  obtain ⟨t, ht, htrue⟩ := h.inUse b pg hout
  cases hs.symm.trans ht
  refine (hfreed.inUse s).mpr ⟨htrue, fun a ha spg hspg type hswap => ?_⟩
  have hmem := hperm.mem_iff.mp ha
  cases hfr : spg.fr with
  | none =>
    -- a page of the process that is in swap has another slot
    have := h.unique a b spg pg s ⟨hspg, type, hfr⟩ hout hswap hs
    exact hb (this ▸ hmem)
  | some g =>
    exact hclean a spg s hmem hspg type (by rw [hfr]; simp) hswap b pg hb hout hs

theorem did {o : VmOp π} (hk : k.mapping.Sound) (hdid : Did k o k')
    (hclean : k.ExitsClean o) : k'.SlotsOwned := by
  cases hdid with
  | createFilesysPage registers =>
    refine h.setPage (fun hspg => ?_) (by rw [registers.result]) (by rw [registers.result]; rfl)
    cases hspg.1
  | @growStack p upage k₀ kpage f k₁ a k₂ ok _ grows =>
    have hpages : k'.pages = update k₀.pages a
        (some ⟨some f, p, upage, .swapslot, true, none, 0, 0, none⟩) := by
      have hk₂ : k₂.pages = update k₀.pages a
          (some ⟨some f, p, upage, .swapslot, true, none, 0, 0, none⟩) := by
        rw [grows.registers.result, grows.creates.result]
      rw [grows.result]
      cases ok <;> exact hk₂
    have hinUse : k'.inUse = k₀.inUse := by
      have hk₂ : k₂.inUse = k₀.inUse := by
        rw [grows.registers.result, grows.creates.result]
        rfl
      rw [grows.result]
      cases ok <;> exact hk₂
    refine (h.makesRoom grows.creates.room).setPage (fun hspg => ?_) hpages hinUse
    cases hspg.2
  | pageToNewFrame mem hin => exact h.pagesIn hk hin
  | frameEvict hev => exact h.evicts hev
  | @freeSuppPageTable p order k₁ perm freed =>
    have hout : ∀ b pg, k₁.SwappedOut b pg → b ∉ k.table p ∧ k.SwappedOut b pg := by
      rintro b pg ⟨hb, hrest⟩
      have hnot : b ∉ order := fun hmem => by
        rw [freed.gone b hmem] at hb
        cases hb
      rw [freed.kept b hnot] at hb
      exact ⟨fun hmem => hnot (perm.mem_iff.mpr hmem), hb, hrest⟩
    constructor
    · intro b pg hb
      obtain ⟨hnot, hb⟩ := hout b pg hb
      obtain ⟨s, hs, -⟩ := h.inUse b pg hb
      exact ⟨s, hs, h.allFreed hclean perm freed hnot hb hs⟩
    · intro b b' pg pg' s hb hb'
      exact h.unique b b' pg pg' s (hout b pg hb).2 (hout b' pg' hb').2
  | store | load | touch | setDenyWrite => exact h.congr rfl rfl

end

end SlotsOwned

section Runs

variable [DecidableEq π]

/-- Everything that holds in a run where processes exit clean. -/
theorem run_slotsOwned {k k' : Vm π} (hrun : (vm π).Run ExitsClean k k') (hk : k.mapping.Sound)
    (h : k.SlotsOwned) : k'.mapping.Sound ∧ k'.SlotsOwned := by
  refine Machine.Run.invariant (I := fun k => k.mapping.Sound ∧ k.SlotsOwned) ?_ hrun ⟨hk, h⟩
  rintro o k k' ⟨hk, h⟩ hsteps hclean
  have hdid := did_of_steps hk hsteps
  exact ⟨hdid.sound hk, h.did hk hdid hclean⟩

omit [DecidableEq π] in
theorem slotsOwned_booted (poolSize : Nat) (mem : Nat → PageData) (swapTable : Device)
    (files : Files) (exe : π → Option Nat) (malloc : Nat → Bool) :
    (booted poolSize mem swapTable files exe malloc).SlotsOwned where
  inUse _ _ h := by cases h.1
  unique _ _ _ _ _ h := by cases h.1

/-- In every run in which processes exit clean, each page in swap has a slot of its own that is in
    use, and an exit leaves the slots of all other processes in use. -/
theorem swap_slots_owned {poolSize : Nat} {mem : Nat → PageData} {swapTable : Device}
    {files : Files} {exe : π → Option Nat} {malloc : Nat → Bool} {k : Vm π}
    (hrun : (vm π).Run ExitsClean (booted poolSize mem swapTable files exe malloc) k) :
    k.SlotsOwned ∧ ∀ p order k', (vm π).Steps (.freeSuppPageTable p order) k k' →
      k.SlotsLetGo p → ∀ b pg s, b ∉ k.table p → k.SwappedOut b pg → pg.swap = some s →
        k'.inUse s = true := by
  obtain ⟨hk, h⟩ := run_slotsOwned hrun (sound_booted _ _ _ _ _ _) (slotsOwned_booted _ _ _ _ _ _)
  refine ⟨h, fun p order k' hsteps hclean b pg s hb hout hs => ?_⟩
  cases did_of_steps hk hsteps with
  | freeSuppPageTable perm freed => exact h.allFreed hclean perm freed hb hout hs

/-- **Isolation.** No physical page is ever mapped twice, by one process or by two. -/
theorem mapped_once {poolSize : Nat} {mem : Nat → PageData} {swapTable : Device} {files : Files}
    {exe : π → Option Nat} {malloc : Nat → Bool} {k : Vm π}
    (hrun : (vm π).Run (fun _ _ => True) (booted poolSize mem swapTable files exe malloc) k) :
    Set.InjOn (fun x : π × Nat => (k.pte x.1 x.2).kpage) {x | (k.pte x.1 x.2).present = true} := by
  have hk : k.mapping.Sound := hrun.invariant (I := fun k => k.mapping.Sound)
    (fun _ _ _ hk hsteps _ => (did_of_steps hk hsteps).sound hk) (sound_booted ..)
  rintro ⟨p, u⟩ hp ⟨q, v⟩ hq h
  obtain ⟨a, c, f, ha, rfl, rfl, hf⟩ := hk.present p u hp
  obtain ⟨b, d, g, hb, rfl, rfl, hg⟩ := hk.present q v hq
  obtain ⟨fr, hfr, hpage, he⟩ := hk.linked a c f ha hf
  obtain ⟨gr, hgr, hpage', he'⟩ := hk.linked b d g hb hg
  -- a frame holds one page
  have hframe : f = g := hk.apart f g fr gr hfr hgr
    ((congrArg (·.2.1) he).symm.trans (h.trans (congrArg (·.2.1) he')))
  grind

end Runs

/-! ### Two processes -/

theorem sixteen_lt : 16 < 2 ^ 32 := by decide

/-- Two pages of memory, two slots of swap. -/
def twoProcesses : Vm (Fin 2) :=
  booted 2 (fun _ => Bytes.zero) { oneSlot with size := 16, size_lt := sixteen_lt }
    ⟨fun _ => 0, fun _ => [], fun _ => 0⟩ (fun _ => none) (fun _ => true)

/-- Each process has a stack, and both are evicted. -/
def bothSwapped : List (VmOp (Fin 2)) :=
  [.growStack 0 0xbffff000, .growStack 1 0xbffff000, .frameEvict 0, .frameEvict 2]

def stacked : Vm (Fin 2) := (vm (Fin 2)).after (bothSwapped.take 2) twoProcesses

theorem mapped_once_stacks : Set.InjOn (fun x : Fin 2 × Nat => (stacked.pte x.1 x.2).kpage)
    {x | (stacked.pte x.1 x.2).present = true} :=
  mapped_once (Machine.run_of_allows (by decide +kernel) : (vm _).Run _ twoProcesses stacked)

theorem swap_slots_owned_two :
    ((vm (Fin 2)).after bothSwapped twoProcesses).SlotsOwned ∧
    (final (VmOp.code (.freeSuppPageTable 0 [1]))
      ((vm (Fin 2)).after bothSwapped twoProcesses)).inUse 1 = true := by
  have hallows : (vm (Fin 2)).allows (fun _ o => o ∈ bothSwapped) twoProcesses bothSwapped =
      true := by
    decide +kernel
  have hrun : (vm (Fin 2)).Run ExitsClean twoProcesses
      ((vm (Fin 2)).after bothSwapped twoProcesses) := by
    refine (Machine.run_of_allows hallows).mono (fun k o ho => ?_)
    -- nobody has exited
    simp only [bothSwapped, List.mem_cons, List.not_mem_nil, or_false] at ho
    rcases ho with rfl | rfl | rfl | rfl <;> exact trivial
  have hsteps : (vm (Fin 2)).Steps (.freeSuppPageTable 0 [1])
      ((vm (Fin 2)).after bothSwapped twoProcesses)
      (final (VmOp.code (.freeSuppPageTable 0 [1]))
        ((vm (Fin 2)).after bothSwapped twoProcesses)) :=
    ⟨by decide +kernel, run_of_outcome (by decide +kernel)⟩
  obtain ⟨howned, hexit⟩ := swap_slots_owned hrun
  have htable : ((vm (Fin 2)).after bothSwapped twoProcesses).table 0 = [1] := by decide +kernel
  refine ⟨howned, hexit 0 [1] _ hsteps ?_ 3
    ⟨none, 1, 0xbffff000, .swapslot, true, none, 0, 0, some 1⟩ 1 (by decide +kernel)
    ⟨by decide +kernel, rfl, rfl⟩ rfl⟩
  intro a spg s ha hspg _ hfr
  rw [htable, List.mem_singleton] at ha
  subst ha
  have hpage : ((vm (Fin 2)).after bothSwapped twoProcesses).pages 1 =
      some ⟨none, 0, 0xbffff000, .swapslot, true, none, 0, 0, some 0⟩ := by decide +kernel
  cases hpage.symm.trans hspg
  exact absurd rfl hfr

/-- The stack of the first process is evicted and brought back, the stack of the second is evicted
    to the same slot, and the first process exits. -/
def staleSlot : List (VmOp (Fin 2)) :=
  [.growStack 0 0xbffff000, .growStack 1 0xbffff000, .frameEvict 0, .pageToNewFrame 0 1 false,
    .frameEvict 2, .freeSuppPageTable 0 [1]]

/-- The slot that holds the stack of the second process is marked free. -/
theorem exit_frees_foreign_slot :
    (vm (Fin 2)).Run (fun _ _ => True) twoProcesses ((vm (Fin 2)).after staleSlot twoProcesses) ∧
    ¬ ((vm (Fin 2)).after staleSlot twoProcesses).SlotsOwned := by
  refine ⟨Machine.run_of_allows (by decide +kernel), fun h => ?_⟩
  have hpage : ((vm (Fin 2)).after staleSlot twoProcesses).pages 3 =
      some ⟨none, 1, 0xbffff000, .swapslot, true, none, 0, 0, some 0⟩ := by decide +kernel
  have hfree : ((vm (Fin 2)).after staleSlot twoProcesses).inUse 0 = false := by decide +kernel
  obtain ⟨s, hs, hinUse⟩ := h.inUse 3 _ ⟨hpage, rfl, rfl⟩
  cases hs
  rw [hfree] at hinUse
  cases hinUse

end Vm

end KernelSanders

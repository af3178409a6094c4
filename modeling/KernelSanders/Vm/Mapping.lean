import KernelSanders.Vm.Effects

namespace KernelSanders

open Lib
open Lib.Exec hiding update
open Function
open List

/-!
# Which page is in which frame

A `Mapping` is what is left of the state of virtual memory without the contents of the pages and
where they come from: the pages with their frames, the frames with their pages, the supplemental
page tables and the page directories.  There are four things that happen to it: a page is put into
a frame (`link`) and taken out of it (`unlink`), and it is entered in a table (`register`) and
freed (`drop`). Each keeps the mapping `Sound`, and every function of `vm/` is some of the four on
`Vm.mapping`.
-/

/-- A page: its frame, its page directory and address there, and whether it can be written to. -/
structure PageCore (π : Type) where
  fr : Option Nat
  pd : π
  vaddr : Nat
  wr : Bool

/-- A frame. -/
structure FrameCore where
  physAddr : Nat
  page : Option Nat
  evicting : Bool

/-- The pages and the frames. -/
@[ext] structure Mapping (π : Type) where
  page : Nat → Option (PageCore π)
  frame : Nat → Option FrameCore
  used : Nat → Bool
  table : π → List Nat
  entry : π → Nat → Bool × Nat × Bool
  brk : Nat

def SuppPage.core {π : Type} (spg : SuppPage π) : PageCore π :=
  ⟨spg.fr, spg.pd, spg.vaddr, spg.wr⟩

def Frame.core (fr : Frame) : FrameCore := ⟨fr.physAddr, fr.page, fr.evicting⟩

def Pte.core (e : Pte) : Bool × Nat × Bool := (e.present, e.kpage, e.writable)

variable {b : Nat}

namespace Mapping

variable {π : Type} [DecidableEq π]

/-- The pages and the frames point to each other, and the page directories agree. -/
structure Sound (m : Mapping π) : Prop where
  linked : ∀ a c f, m.page a = some c → c.fr = some f →
    ∃ fr, m.frame f = some fr ∧ fr.page = some a ∧ m.entry c.pd c.vaddr = (true, fr.physAddr, c.wr)
  held : ∀ f fr, m.frame f = some fr → ∃ a c, fr.page = some a ∧ m.page a = some c ∧ c.fr = some f
  calm : ∀ f fr, m.frame f = some fr → fr.evicting = false ∧ m.used fr.physAddr = true
  apart : ∀ f g fr gr, m.frame f = some fr → m.frame g = some gr → fr.physAddr = gr.physAddr → f = g
  tabled : ∀ a c, m.page a = some c → a ∈ m.table c.pd
  listed : ∀ p a, a ∈ m.table p → ∃ c, m.page a = some c ∧ c.pd = p
  nodup : ∀ p, (m.table p).Nodup
  keys : ∀ a b c e, m.page a = some c → m.page b = some e → c.pd = e.pd → c.vaddr = e.vaddr → a = b
  present : ∀ p v, (m.entry p v).1 = true →
    ∃ a c f, m.page a = some c ∧ c.pd = p ∧ c.vaddr = v ∧ c.fr = some f
  fresh : ∀ n, m.brk ≤ n → m.page n = none ∧ m.frame n = none

/-- The page `a` leaves the frame `f`. -/
def unlink (m : Mapping π) (f : Nat) (fr : FrameCore) (a : Nat) (c : PageCore π) : Mapping π :=
  { m with
    page := update m.page a (some { c with fr := none })
    frame := update m.frame f none
    used := update m.used fr.physAddr false
    entry := fun p v =>
      if p = c.pd ∧ v = c.vaddr then (false, (m.entry p v).2) else m.entry p v }

/-- The page `a` is put into the new frame `f`. -/
def link (m : Mapping π) (f kpage a : Nat) (c : PageCore π) : Mapping π :=
  { m with
    page := update m.page a (some { c with fr := some f })
    frame := update m.frame f (some ⟨kpage, some a, false⟩)
    used := update m.used kpage true
    entry := fun p v => if p = c.pd ∧ v = c.vaddr then (true, kpage, c.wr) else m.entry p v }

/-- The page `a` is entered in a table. -/
def register (m : Mapping π) (a : Nat) (p : π) (vaddr : Nat) (wr : Bool) : Mapping π :=
  { m with
    page := update m.page a (some ⟨none, p, vaddr, wr⟩)
    table := update m.table p (a :: m.table p) }

/-- A page that is not in a frame is freed, and `rest` is left of its table. -/
def drop (m : Mapping π) (a : Nat) (p : π) (rest : List Nat) : Mapping π :=
  { m with
    page := update m.page a none
    table := update m.table p rest }

namespace Sound

variable {m : Mapping π} {f kpage a vaddr : Nat} {fr : FrameCore} {c : PageCore π} {p : π}
  {wr : Bool}

section

omit [DecidableEq π]

variable {e : PageCore π}

/-- A page is in at most one frame, and a frame holds at most one page. -/
theorem page_unique (h : m.Sound) (hc : m.page a = some c) (he : m.page b = some e)
    (hf : c.fr = some f) (hf' : e.fr = some f) : a = b := by
  obtain ⟨fr, hfr, hpage, -⟩ := h.linked a c f hc hf
  obtain ⟨fr', hfr', hpage', -⟩ := h.linked b e f he hf'
  cases hfr.symm.trans hfr'
  exact Option.some.inj (hpage.symm.trans hpage')

/-- The entry of a page that is not in a frame is not present. -/
theorem not_present (h : m.Sound) (hc : m.page a = some c) (hf : c.fr = none) :
    (m.entry c.pd c.vaddr).1 = false := by
  by_contra hne
  obtain ⟨b, e, f, he, hpd, hv, hfr⟩ := h.present _ _ (by simpa using hne)
  cases h.keys b a e c he hc hpd hv
  cases he.symm.trans hc
  rw [hf] at hfr
  cases hfr

/-- A page with a frame is not one without. -/
theorem ne_of_fr {g : Nat} (hc : m.page a = some c) (hnone : c.fr = none)
    (he : m.page b = some e) (hg : e.fr = some g) : b ≠ a := by
  rintro rfl
  cases hc.symm.trans he
  rw [hnone] at hg
  cases hg

/-- The page `a` gets another frame or none.  Only the frame `f` and the entry of the page change,
    and no other page is in that frame. -/
theorem refit (h : m.Sound) (hc : m.page a = some c) {m' : Mapping π} {o : Option Nat}
    (hpage : m'.page = update m.page a (some { c with fr := o }))
    (htable : m'.table = m.table) (hbrk : m'.brk = m.brk)
    (hframe : ∀ g, g ≠ f → m'.frame g = m.frame g)
    (hentry : ∀ p v, ¬ (p = c.pd ∧ v = c.vaddr) → m'.entry p v = m.entry p v)
    (hown : ∀ g, c.fr = some g → g = f)
    (hother : ∀ b e, b ≠ a → m.page b = some e → e.fr ≠ some f)
    (linked : ∀ g, o = some g → ∃ fr, m'.frame g = some fr ∧ fr.page = some a ∧
      m'.entry c.pd c.vaddr = (true, fr.physAddr, c.wr))
    (held : ∀ fr, m'.frame f = some fr → fr.page = some a ∧ o = some f)
    (calm : ∀ g gr, m'.frame g = some gr → gr.evicting = false ∧ m'.used gr.physAddr = true)
    (apart : ∀ f g fr gr, m'.frame f = some fr → m'.frame g = some gr →
      fr.physAddr = gr.physAddr → f = g)
    (present : (m'.entry c.pd c.vaddr).1 = true → ∃ g, o = some g)
    (fresh : m.brk ≤ f → m'.frame f = none) : m'.Sound := by
  have hself : m'.page a = some { c with fr := o } := by rw [hpage, update_self]
  have hstay : ∀ b, b ≠ a → m'.page b = m.page b := fun b hb => by rw [hpage, update_of_ne hb]
  -- each page has the page directory and the address that it had
  have hcore : ∀ b e, m'.page b = some e →
      ∃ e', m.page b = some e' ∧ e.pd = e'.pd ∧ e.vaddr = e'.vaddr := by
    intro b e he
    by_cases hb : b = a
    · subst hb
      cases hself.symm.trans he
      exact ⟨c, hc, rfl, rfl⟩
    · exact ⟨e, hstay b hb ▸ he, rfl, rfl⟩
  refine ⟨fun b e g he hg => ?_, fun g gr hgr => ?_, calm, apart, fun b e he => ?_,
    fun p b hb => ?_, ?_, ?_, fun p v hp => ?_, fun n hn => ⟨?_, ?_⟩⟩
  · by_cases hb : b = a
    · subst hb
      cases hself.symm.trans he
      exact linked g hg
    · rw [hstay b hb] at he
      rw [hframe g (fun hgf => hother b e hb he (hgf ▸ hg)),
        hentry _ _ (fun ⟨hpd, hv⟩ => hb (h.keys b a e c he hc hpd hv))]
      exact h.linked b e g he hg
  · by_cases hgf : g = f
    · subst hgf
      obtain ⟨hback, ho⟩ := held gr hgr
      exact ⟨a, _, hback, hself, ho⟩
    · rw [hframe g hgf] at hgr
      obtain ⟨b, e, hback, he, hg⟩ := h.held g gr hgr
      refine ⟨b, e, hback, ?_, hg⟩
      rw [hstay, he]
      rintro rfl
      cases hc.symm.trans he
      exact hgf (hown g hg)
  · obtain ⟨e', he', hpd, -⟩ := hcore b e he
    rw [htable, hpd]
    exact h.tabled b e' he'
  · rw [htable] at hb
    obtain ⟨e, he, hpd⟩ := h.listed p b hb
    by_cases hba : b = a
    · subst hba
      cases hc.symm.trans he
      exact ⟨_, hself, hpd⟩
    · exact ⟨e, (hstay b hba).trans he, hpd⟩
  · rw [htable]
    exact h.nodup
  · intro b b' e e' he he' hpd hv
    obtain ⟨e₁, he₁, hpd₁, hv₁⟩ := hcore b e he
    obtain ⟨e₂, he₂, hpd₂, hv₂⟩ := hcore b' e' he'
    exact h.keys b b' e₁ e₂ he₁ he₂ (by rw [← hpd₁, hpd, hpd₂]) (by rw [← hv₁, hv, hv₂])
  · by_cases hpv : p = c.pd ∧ v = c.vaddr
    · obtain ⟨rfl, rfl⟩ := hpv
      obtain ⟨g, hg⟩ := present hp
      exact ⟨a, _, g, hself, rfl, rfl, hg⟩
    · rw [hentry p v hpv] at hp
      obtain ⟨b, e, g, he, hpd, hv, hg⟩ := h.present p v hp
      refine ⟨b, e, g, ?_, hpd, hv, hg⟩
      rw [hstay, he]
      rintro rfl
      cases hc.symm.trans he
      exact hpv ⟨hpd.symm, hv.symm⟩
  · obtain ⟨hnone, -⟩ := h.fresh n (hbrk ▸ hn)
    rw [hstay, hnone]
    rintro rfl
    cases hc.symm.trans hnone
  · by_cases hnf : n = f
    · subst hnf
      exact fresh (hbrk ▸ hn)
    · rw [hframe n hnf]
      exact (h.fresh n (hbrk ▸ hn)).2

end

theorem unlink (h : m.Sound) (hc : m.page a = some c) (hf : c.fr = some f)
    (hfr : m.frame f = some fr) : (m.unlink f fr a c).Sound := by
  have hnone : (m.unlink f fr a c).frame f = none := update_self _ _ _
  have hframe : ∀ g, g ≠ f → (m.unlink f fr a c).frame g = m.frame g :=
    fun g hg => update_of_ne hg _ _
  -- what is in a frame is in another one
  have hcases : ∀ g gr, (m.unlink f fr a c).frame g = some gr → g ≠ f ∧ m.frame g = some gr := by
    intro g gr hgr
    have hgf : g ≠ f := by
      rintro rfl
      cases hnone.symm.trans hgr
    exact ⟨hgf, hframe g hgf ▸ hgr⟩
  refine h.refit hc rfl rfl rfl hframe (fun p v hpv => if_neg hpv) (fun g hg => ?_)
    (fun b e hb he hbf => hb (h.page_unique he hc hbf hf)) nofun (fun gr hgr => ?_)
    (fun g gr hgr => ?_) (fun g g' gr gr' hgr hgr' => ?_) (fun hp => ?_) (fun _ => hnone)
  · exact Option.some.inj (hg.symm.trans hf)
  · cases hnone.symm.trans hgr
  · obtain ⟨hgf, hgr⟩ := hcases g gr hgr
    obtain ⟨hcalm, hused⟩ := h.calm g gr hgr
    refine ⟨hcalm, ?_⟩
    rw [← hused]
    exact update_of_ne (fun heq => hgf (h.apart g f gr fr hgr hfr heq)) _ _
  · exact h.apart g g' gr gr' (hcases g gr hgr).2 (hcases g' gr' hgr').2
  · simp [Mapping.unlink] at hp

theorem link (h : m.Sound) (hc : m.page a = some c) (hnone : c.fr = none)
    (hframe : m.frame f = none) (hf : f < m.brk) (hused : m.used kpage = false) :
    (m.link f kpage a c).Sound := by
  have hself : (m.link f kpage a c).frame f = some ⟨kpage, some a, false⟩ := update_self _ _ _
  have hstay : ∀ g, g ≠ f → (m.link f kpage a c).frame g = m.frame g :=
    fun g hg => update_of_ne hg _ _
  refine h.refit hc rfl rfl rfl hstay (fun p v hpv => if_neg hpv)
    (fun g hg => by cases hnone.symm.trans hg) (fun b e _ he hbf => ?_) (fun g hg => ?_)
    (fun gr hgr => ?_) (fun g gr hgr => ?_) ?apart (fun _ => ⟨f, rfl⟩) (fun hge => ?_)
  · obtain ⟨gr, hgr, -⟩ := h.linked b e f he hbf
    cases hframe.symm.trans hgr
  · cases hg
    exact ⟨_, hself, rfl, if_pos ⟨rfl, rfl⟩⟩
  · cases hself.symm.trans hgr
    exact ⟨rfl, rfl⟩
  · simp only [Mapping.link, update_apply] at hgr ⊢
    split_ifs at hgr with hgf
    · cases hgr
      exact ⟨rfl, if_pos rfl⟩
    · obtain ⟨hcalm, hg⟩ := h.calm g gr hgr
      refine ⟨hcalm, ?_⟩
      split_ifs
      · rfl
      · exact hg
  case apart =>
    -- a page of the pool that is free is in no frame
    have hfree : ∀ g gr, m.frame g = some gr → gr.physAddr ≠ kpage := by
      intro g gr hgr heq
      have hg := (h.calm g gr hgr).2
      rw [heq, hused] at hg
      cases hg
    intro g g' gr gr' hgr hgr' heq
    simp only [Mapping.link, update_apply] at hgr hgr'
    split_ifs at hgr hgr' with hg hg'
    · exact hg.trans hg'.symm
    · cases hgr
      exact absurd heq.symm (hfree g' gr' hgr')
    · cases hgr'
      exact absurd heq (hfree g gr hgr)
    · exact h.apart g g' gr gr' hgr hgr' heq
  · omega

theorem register (h : m.Sound) (hpage : m.page a = none) (ha : a < m.brk)
    (hnew : ∀ b e, m.page b = some e → e.pd = p → e.vaddr ≠ vaddr) :
    (m.register a p vaddr wr).Sound := by
  -- the old pages are still there
  have hold : ∀ b e, m.page b = some e → (m.register a p vaddr wr).page b = some e := by
    intro b e he
    rw [← he]
    apply update_of_ne
    intro hb
    rw [hb, hpage] at he
    cases he
  have hcases : ∀ b e, (m.register a p vaddr wr).page b = some e →
      b = a ∧ e = ⟨none, p, vaddr, wr⟩ ∨ m.page b = some e := by
    intro b e he
    simp only [Mapping.register, update_apply] at he
    split_ifs at he with hb
    · cases he
      exact .inl ⟨hb, rfl⟩
    · exact .inr he
  have hmem : ∀ q b, b ∈ (m.register a p vaddr wr).table q ↔ b ∈ m.table q ∨ q = p ∧ b = a := by
    intro q b
    simp only [Mapping.register, update_apply]
    split_ifs with hq
    · subst hq
      simp [or_comm]
    · simp [hq]
  constructor
  case linked =>
    intro b e g he hg
    rcases hcases b e he with ⟨-, rfl⟩ | he
    · cases hg
    · exact h.linked b e g he hg
  case held =>
    intro g gr hgr
    obtain ⟨b, e, hb, he, hg⟩ := h.held g gr hgr
    exact ⟨b, e, hb, hold b e he, hg⟩
  case calm => exact h.calm
  case apart => exact h.apart
  case tabled =>
    intro b e he
    rw [hmem]
    rcases hcases b e he with ⟨rfl, rfl⟩ | he
    · exact .inr ⟨rfl, rfl⟩
    · exact .inl (h.tabled b e he)
  case listed =>
    intro q b hb
    rcases (hmem q b).mp hb with hb | ⟨rfl, rfl⟩
    · obtain ⟨e, he, hq⟩ := h.listed q b hb
      exact ⟨e, hold b e he, hq⟩
    · exact ⟨_, update_self _ _ _, rfl⟩
  case nodup =>
    intro q
    simp only [Mapping.register, update_apply]
    split_ifs with hq
    · subst hq
      refine nodup_cons.mpr ⟨fun hin => ?_, h.nodup q⟩
      obtain ⟨e, he, -⟩ := h.listed q a hin
      rw [hpage] at he
      cases he
    · exact h.nodup q
  case keys =>
    intro b b' e e' he he' hpd hv
    rcases hcases b e he with ⟨rfl, rfl⟩ | hb <;> rcases hcases b' e' he' with ⟨rfl, rfl⟩ | hb'
    · rfl
    · exact absurd hv.symm (hnew b' e' hb' hpd.symm)
    · exact absurd hv (hnew b e hb hpd)
    · exact h.keys b b' e e' hb hb' hpd hv
  case present =>
    intro q v hq
    obtain ⟨b, e, g, he, hrest⟩ := h.present q v hq
    exact ⟨b, e, g, hold b e he, hrest⟩
  case fresh =>
    intro n hn
    obtain ⟨hpage', hframe⟩ := h.fresh n hn
    have hna : n ≠ a := fun hna => by
      have : m.brk ≤ n := hn
      omega
    exact ⟨by rw [← hpage']; exact update_of_ne hna _ _, hframe⟩

theorem drop (h : m.Sound) {rest : List Nat} (hc : m.page a = some c) (hnone : c.fr = none)
    (hpd : c.pd = p) (hrest : rest.Nodup) (hmem : ∀ b, b ∈ rest ↔ b ∈ m.table p ∧ b ≠ a) :
    (m.drop a p rest).Sound := by
  have hcases : ∀ b e, (m.drop a p rest).page b = some e ↔ b ≠ a ∧ m.page b = some e := by
    intro b e
    simp only [Mapping.drop, update_apply]
    split_ifs with hb <;> simp [hb]
  have htable : ∀ q b, b ∈ (m.drop a p rest).table q ↔ b ∈ m.table q ∧ b ≠ a := by
    intro q b
    simp only [Mapping.drop, update_apply]
    split_ifs with hq
    · subst hq
      exact hmem b
    · refine ⟨fun hb => ⟨hb, fun hba => ?_⟩, fun hb => hb.1⟩
      -- the page is in no other table
      subst hba
      obtain ⟨e, he, hq'⟩ := h.listed q b hb
      cases hc.symm.trans he
      exact hq (hq'.symm.trans hpd)
  constructor
  case linked =>
    intro b e g he hg
    exact h.linked b e g ((hcases b e).mp he).2 hg
  case held =>
    intro g gr hgr
    obtain ⟨b, e, hb, he, hg⟩ := h.held g gr hgr
    exact ⟨b, e, hb, (hcases b e).mpr ⟨ne_of_fr hc hnone he hg, he⟩, hg⟩
  case calm => exact h.calm
  case apart => exact h.apart
  case tabled =>
    intro b e he
    obtain ⟨hb, he⟩ := (hcases b e).mp he
    exact (htable _ b).mpr ⟨h.tabled b e he, hb⟩
  case listed =>
    intro q b hb
    obtain ⟨hb, hne⟩ := (htable q b).mp hb
    obtain ⟨e, he, hq⟩ := h.listed q b hb
    exact ⟨e, (hcases b e).mpr ⟨hne, he⟩, hq⟩
  case nodup =>
    intro q
    simp only [Mapping.drop, update_apply]
    split_ifs
    · exact hrest
    · exact h.nodup q
  case keys =>
    intro b b' e e' he he'
    exact h.keys b b' e e' ((hcases b e).mp he).2 ((hcases b' e').mp he').2
  case present =>
    intro q v hq
    obtain ⟨b, e, g, he, hpd', hv, hg⟩ := h.present q v hq
    exact ⟨b, e, g, (hcases b e).mpr ⟨ne_of_fr hc hnone he hg, he⟩, hpd', hv, hg⟩
  case fresh =>
    intro n hn
    obtain ⟨hpage, hframe⟩ := h.fresh n hn
    refine ⟨?_, hframe⟩
    simp only [Mapping.drop, update_apply]
    split_ifs
    · rfl
    · exact hpage

omit [DecidableEq π] in
/-- Addresses may be left out. -/
theorem bump (h : m.Sound) {n : Nat} (hn : m.brk ≤ n) :
    ({ m with brk := n } : Mapping π).Sound :=
  { h with fresh := fun x hx => h.fresh x (le_trans hn hx) }

/-- The order of a table does not matter. -/
theorem retable (h : m.Sound) {l : List Nat} (hl : l.Perm (m.table p)) :
    ({ m with table := update m.table p l } : Mapping π).Sound := by
  have hperm : ∀ q, (update m.table p l q).Perm (m.table q) := by
    intro q
    rw [update_apply]
    split_ifs with hq
    · rw [hq]
      exact hl
    · exact .refl _
  exact { h with
    tabled := fun a c hc => (hperm _).mem_iff.mpr (h.tabled a c hc)
    listed := fun q a ha => h.listed q a ((hperm q).mem_iff.mp ha)
    nodup := fun q => (hperm q).nodup_iff.mpr (h.nodup q) }

end Sound

end Mapping

namespace Vm

variable {π : Type}

/-! ### The mapping of a state -/

/-- The pages and frames of a state. -/
def mapping (k : Vm π) : Mapping π where
  page a := (k.pages a).map SuppPage.core
  frame f := (k.frames f).map Frame.core
  used := k.used
  table := k.table
  entry p v := (k.pte p v).core
  brk := k.brk

variable {k k' : Vm π} {a f : Nat} {spg : SuppPage π} {fr : Frame} {c : PageCore π}

theorem mapping_page (h : k.pages a = some spg) : k.mapping.page a = some spg.core := by
  show (k.pages a).map SuppPage.core = _
  rw [h]
  rfl

theorem mapping_frame (h : k.frames f = some fr) : k.mapping.frame f = some fr.core := by
  show (k.frames f).map Frame.core = _
  rw [h]
  rfl

/-- A page of the mapping is a page of the state. -/
theorem exists_page (h : k.mapping.page a = some c) : ∃ spg, k.pages a = some spg ∧ spg.core = c :=
  Option.map_eq_some_iff.mp h

theorem exists_frame {c : FrameCore} (h : k.mapping.frame f = some c) :
    ∃ fr, k.frames f = some fr ∧ fr.core = c :=
  Option.map_eq_some_iff.mp h

/-- Nothing is mapped in the beginning. -/
theorem sound_booted (poolSize : Nat) (mem : Nat → PageData) (swapTable : Device) (files : Files)
    (exe : π → Option Nat) (malloc : Nat → Bool) :
    (booted poolSize mem swapTable files exe malloc).mapping.Sound where
  linked _ _ _ h := by cases h
  held _ _ h := by cases h
  calm _ _ h := by cases h
  apart _ _ _ _ h := by cases h
  tabled _ _ h := by cases h
  listed _ _ h := by cases h
  nodup _ := nodup_nil
  keys _ _ _ _ h := by cases h
  present _ _ h := by cases h
  fresh _ _ := ⟨rfl, rfl⟩

variable [DecidableEq π] {p : π}

section

omit [DecidableEq π]

theorem map_update {α β : Type} {g : α → β} {l : Nat → Option α} {x : Option α} (a : Nat) :
    (fun b => (update l a x b).map g) =
      update (fun b => (l b).map g) a (x.map g) := by
  funext b
  simp only [update_apply]
  split_ifs <;> rfl

theorem mapping_reordered {out : List Nat} (h : Reordered k out k') : k'.mapping = k.mapping := by
  have hentry : (fun p v => (k'.pte p v).core) = fun p v => (k.pte p v).core := by
    funext p v
    rw [h.pte p v]
    rfl
  rw [h.result]
  simp only [mapping, hentry]

end

/-- Another dirty bit. -/
theorem entry_setPte {v : Nat} {e : Pte} (h : e.core = (k.pte p v).core) :
    (fun q w => ((k.setPte p v e).pte q w).core) = fun q w => (k.pte q w).core := by
  funext q w
  simp only [setPte]
  split_ifs with hqw
  · rw [h, hqw.1, hqw.2]
  · rfl

theorem mapping_setPte (p : π) (v : Nat) (e : Pte) : (k.setPte p v e).mapping =
    { k.mapping with
      entry := fun q w => if q = p ∧ w = v then e.core else k.mapping.entry q w } := by
  ext1
  case entry =>
    funext q w
    exact apply_ite Pte.core _ _ _
  all_goals rfl

/-- The entry of the page is not present any more. -/
theorem entry_released :
    (fun q w => ((k.released f fr spg).pte q w).core) = fun q w =>
      if q = spg.core.pd ∧ w = spg.core.vaddr then (false, (k.pte q w).core.2)
      else (k.pte q w).core := by
  funext q w
  show Pte.core (if q = spg.core.pd ∧ w = spg.core.vaddr then _ else _) = _
  split_ifs with hqw
  · rw [hqw.1, hqw.2]
    rfl
  · rfl

variable {k₁ : Vm π} {spg₁ : SuppPage π}

omit [DecidableEq π] in
/-- A page is changed in what the mapping does not show. -/
theorem cores_update (hspg : k.pages a = some spg) (hcore : spg₁.core = spg.core) :
    (fun b => (update k.pages a (some spg₁) b).map SuppPage.core) =
      fun b => (k.pages b).map SuppPage.core := by
  rw [map_update]
  apply update_eq_self_iff.mpr
  rw [hspg]
  exact congrArg some hcore

/-- What the `switch` of `frame_evict` does to the mapping: nothing. -/
theorem mapping_writtenOut {d : PageData} (hspg : k.pages a = some spg)
    (h : WrittenOut k a spg d k₁ spg₁) : k₁.mapping = k.mapping ∧ spg₁.core = spg.core := by
  cases h with
  | clean => exact ⟨rfl, rfl⟩
  | file fil n files =>
    refine ⟨?_, rfl⟩
    ext1
    case entry => exact entry_setPte (by rfl)
    all_goals rfl
  | swap s =>
    refine ⟨?_, rfl⟩
    ext1
    case page => exact cores_update hspg rfl
    all_goals rfl

/-- `frame_evict` takes the page out of its frame. -/
theorem mapping_evicts (h : Evicts k f fr a spg k₁ spg₁ k') :
    k'.mapping = k.mapping.unlink f fr.core a spg.core := by
  obtain ⟨hmapping, hcore⟩ := mapping_writtenOut (k := k.markEvicting f fr) h.entry h.out
  have hfree : k'.mapping = k₁.mapping.unlink f fr.core a spg₁.core := by
    rw [h.result]
    ext1
    case page => exact map_update a
    case frame => exact map_update f
    case entry => exact @entry_released π k₁ f spg₁ fr _
    all_goals rfl
  rw [hfree, hmapping, hcore]
  -- the mark goes with the frame
  simp only [Mapping.unlink, markEvicting, mapping, map_update, update_idem]

theorem Evicts.sound (h : Evicts k f fr a spg k₁ spg₁ k') (hk : k.mapping.Sound) :
    k'.mapping.Sound := by
  rw [mapping_evicts h]
  exact hk.unlink (mapping_page h.entry) h.back (mapping_frame h.frame)

theorem MakesRoom.sound (h : MakesRoom k k') (hk : k.mapping.Sound) : k'.mapping.Sound := by
  cases h with
  | free => exact hk
  | evict f k₀ fr a spg k₁ spg₁ _ chosen evicts =>
    exact evicts.sound (by rw [mapping_reordered chosen.reordered]; exact hk)

/-! ### Pages that come in -/

/-- A page that is not in the frame is left alone. -/
theorem Evicts.pages_of_ne (h : Evicts k f fr a spg k₁ spg₁ k') (hb : b ≠ a) :
    k'.pages b = k.pages b := by
  have hout : k₁.pages b = k.pages b := by
    cases h.out with
    | clean | file => rfl
    | swap => exact update_of_ne hb _ _
  rw [h.result, ← hout]
  exact update_of_ne hb _ _

/-- Making room does not touch a page that is not in a frame. -/
theorem MakesRoom.pages_of_absent (h : MakesRoom k k')
    (hfr : ∀ spg, k.pages a = some spg → spg.fr = none) : k'.pages a = k.pages a := by
  cases h with
  | free => rfl
  | evict f k₀ fr b pg k₁ pg₁ _ chosen evicts =>
    have hpages : k₀.pages = k.pages := by rw [chosen.reordered.result]
    rw [evicts.pages_of_ne, hpages]
    rintro rfl
    have hentry := evicts.entry
    rw [hpages] at hentry
    cases (hfr pg hentry).symm.trans evicts.back

omit [DecidableEq π] in
/-- Filling the frame does not change the mapping. -/
theorem mapping_populated {kpage : Nat} (hspg : k.pages a = some spg)
    (h : Populated k p a spg kpage k') : k'.mapping = k.mapping := by
  cases h with
  | file | swap => rfl
  | convert =>
    ext1
    case page => exact cores_update hspg rfl
    all_goals rfl

section PagesIn

variable {pinned : Bool} {k₀ k₂ : Vm π} {kpage : Nat}

section

variable (h : PagesIn k p a pinned k₀ kpage f k₁ spg k₂ k')
include h

/-- `page_to_new_frame` is called for a page that is not in a frame. -/
theorem PagesIn.page (hk : k.mapping.Sound) :
    spg.fr = none ∧ k.pages a = some spg ∧ k₀.pages a = some spg := by
  have hentry : k₀.pages a = some spg := by
    have := h.entry
    rwa [h.creates.result] at this
  have hfr : ∀ old, k.pages a = some old → old.fr = none := by
    intro old hold
    cases hg : old.fr with
    | none => rfl
    | some g =>
      obtain ⟨fr, hframe, hevicting⟩ := h.absent old g hold hg
      have hcalm := (hk.calm g fr.core (mapping_frame hframe)).1
      exact absurd hevicting (by rw [show fr.evicting = false from hcalm]; decide)
  have hold : k.pages a = some spg := (h.creates.room.pages_of_absent hfr).symm.trans hentry
  exact ⟨hfr spg hold, hold, hentry⟩

/-- `page_to_new_frame` puts the page into a new frame. -/
theorem mapping_pagesIn :
    k'.mapping = ({ k₀.mapping with brk := k₀.brk + 1 } : Mapping π).link f kpage a spg.core := by
  rw [h.result, mapping_setPte, mapping_populated (update_self _ _ _) h.populated,
    h.creates.result]
  simp only [mapping, attached, map_update, update_idem]
  rfl

theorem PagesIn.sound (hk : k.mapping.Sound) : k'.mapping.Sound := by
  have hk₀ := h.creates.room.sound hk
  obtain ⟨hfr, -, hspg⟩ := h.page hk
  obtain ⟨-, hused, -⟩ := firstFree_eq_some.mp h.creates.page
  have hframe : k₀.mapping.frame f = none := by
    rw [h.creates.new]
    exact (hk₀.fresh _ le_rfl).2
  rw [mapping_pagesIn h]
  refine (hk₀.bump (Nat.le_succ _)).link (mapping_page hspg) hfr hframe ?_ hused
  rw [h.creates.new]
  exact Nat.lt_succ_self _

end

end PagesIn

/-! ### Pages that are entered and freed -/

omit [DecidableEq π] in
/-- A page that is not found has no namesake. -/
theorem lookup_eq_none {vaddr : Nat} (hk : k.mapping.Sound) (h : k.lookup p vaddr = none)
    (hc : k.mapping.page b = some c) (hpd : c.pd = p) : c.vaddr ≠ vaddr := by
  obtain ⟨pg, hpg, rfl⟩ := exists_page hc
  have hmem := hk.tabled b pg.core hc
  rw [hpd] at hmem
  have hnot := find?_eq_none.mp h b hmem
  show pg.vaddr ≠ vaddr
  simpa [hpg] using hnot

section Registers

variable {vaddr : Nat}

theorem mapping_registers (h : Registers k p vaddr spg a k') (hpd : spg.pd = p)
    (hv : spg.vaddr = vaddr) (hfr : spg.fr = none) : k'.mapping =
      ({ k.mapping with brk := k.brk + 1 } : Mapping π).register a p vaddr spg.wr := by
  rw [h.result]
  ext1
  case page =>
    show (fun b => (update k.pages a _ b).map SuppPage.core) = _
    rw [map_update]
    show update (fun b => (k.pages b).map SuppPage.core) a
      (some ⟨spg.fr, spg.pd, spg.vaddr, spg.wr⟩) = _
    rw [hpd, hv, hfr]
    rfl
  case entry => exact entry_setPte (by rfl)
  all_goals rfl

theorem Registers.sound (h : Registers k p vaddr spg a k') (hpd : spg.pd = p)
    (hv : spg.vaddr = vaddr) (hfr : spg.fr = none) (hk : k.mapping.Sound) : k'.mapping.Sound := by
  rw [mapping_registers h hpd hv hfr]
  refine (hk.bump (Nat.le_succ _)).register ?_ ?_ ?_
  · rw [h.address]
    exact (hk.fresh _ le_rfl).1
  · rw [h.address]
    exact Nat.lt_succ_self _
  · intro b c hc hcp
    exact lookup_eq_none hk h.new hc hcp

end Registers

section Grows

variable {upage kpage : Nat} {k₀ k₂ : Vm π} {ok : Bool}

theorem Grows.new (h : Grows k p upage k₀ kpage f k₁ a k₂ ok k') : k₀.lookup p upage = none := by
  have := h.registers.new
  rwa [h.creates.result] at this

/-- `grow_stack` finds its address unmapped. -/
theorem Grows.unmapped (h : Grows k p upage k₀ kpage f k₁ a k₂ ok k') (hk : k.mapping.Sound) :
    ok = true := by
  have hk₀ := h.creates.room.sound hk
  have hpte : (k₂.pte p upage).present = (k₀.pte p upage).present := by
    rw [h.registers.result]
    show (if p = p ∧ upage = upage then ({ k₁.pte p upage with dirty := false } : Pte)
      else k₁.pte p upage).present = _
    rw [if_pos ⟨rfl, rfl⟩, h.creates.result]
  rw [h.installed, hpte, Bool.not_eq_true']
  by_contra hne
  have hpresent : (k₀.pte p upage).present = true := by simpa using hne
  obtain ⟨b, c, g, hc, hpd, hv, -⟩ := hk₀.present p upage hpresent
  exact lookup_eq_none hk₀ h.new hc hpd hv

theorem mapping_grows (h : Grows k p upage k₀ kpage f k₁ a k₂ true k') : k'.mapping =
    (({ k₀.mapping with brk := k₀.brk + 2 } : Mapping π).register a p upage true).link f kpage a
      ⟨none, p, upage, true⟩ := by
  rw [h.result, if_pos rfl, mapping_setPte, h.registers.result, h.creates.result]
  ext1
  case entry =>
    funext q w
    show (if q = p ∧ w = upage then _ else Pte.core (if q = p ∧ w = upage then _ else _)) =
      if q = p ∧ w = upage then _ else _
    split_ifs <;> rfl
  case page | frame =>
    simp only [mapping, setPte, Mapping.register, Mapping.link, map_update, update_idem]
    rfl
  all_goals rfl

theorem Grows.sound (h : Grows k p upage k₀ kpage f k₁ a k₂ ok k') (hk : k.mapping.Sound) :
    k'.mapping.Sound := by
  have hk₀ := h.creates.room.sound hk
  have hok := h.unmapped hk
  subst hok
  have hbrk : k₁.brk = k₀.brk + 1 := by rw [h.creates.result]
  have ha : a = k₀.brk + 1 := by rw [h.registers.address, hbrk]
  obtain ⟨-, hused, -⟩ := firstFree_eq_some.mp h.creates.page
  rw [mapping_grows h]
  have hbump : ({ k₀.mapping with brk := k₀.brk + 2 } : Mapping π).Sound :=
    hk₀.bump (by show k₀.brk ≤ _; omega)
  have hregister : (({ k₀.mapping with brk := k₀.brk + 2 } : Mapping π).register a p upage
      true).Sound := by
    rw [ha]
    exact hbump.register (hk₀.fresh _ (Nat.le_succ _)).1 (Nat.lt_succ_self _)
      (fun b c hc hcp => lookup_eq_none hk₀ h.new hc hcp)
  refine hregister.link (update_self _ _ _) rfl ?_ ?_ hused
  · rw [h.creates.new]
    exact (hk₀.fresh _ le_rfl).2
  · rw [h.creates.new]
    show k₀.brk < k₀.brk + 2
    omega

end Grows

/-! ### Freeing a table -/

section Frees

variable {rest : List Nat}

/-- The mapping, where `l` is what is left of the table of `p`. -/
def mappingLeft (k : Vm π) (p : π) (l : List Nat) : Mapping π :=
  { k.mapping with table := update k.table p l }

/-- The frame that `free_action_func` takes away is the frame of the page. -/
theorem Vacated.mapping (h : Vacated k spg k₁) (hspg : k.pages a = some spg)
    (hk : (k.mappingLeft p (a :: rest)).Sound) :
    spg.fr = none ∧ k₁ = k ∨ ∃ f fr, spg.fr = some f ∧ k.frames f = some fr ∧
      (∀ b, b ≠ a → k₁.pages b = k.pages b) ∧
      (∀ spg', k₁.pages a = some spg' → spg'.vaddr = spg.vaddr ∧ spg'.type = spg.type ∧
        spg'.swap = spg.swap) ∧
      k₁.inUse = k.inUse ∧
      ({ k₁.mapping with page := update k₁.mapping.page a none } : Mapping π) =
        { k.mapping.unlink f fr.core a spg.core with
          page := update k.mapping.page a none } := by
  -- the page that the frame points back to
  have hback : ∀ {f fr b}, spg.fr = some f → k.frames f = some fr → fr.page = some b → b = a := by
    intro f fr b hf hfr hb
    obtain ⟨fr', hfr', hpage, -⟩ := hk.linked a spg.core f (mapping_page hspg) hf
    cases (mapping_frame hfr).symm.trans hfr'
    exact Option.some.inj (hb.symm.trans hpage)
  cases h with
  | absent hfr => exact .inl ⟨hfr, rfl⟩
  | evict f fr b pg k₂ pg₂ _ type held evicts =>
    cases hback held evicts.frame evicts.page
    cases hspg.symm.trans evicts.entry
    have hswap : pg₂ = spg ∧ k₂.inUse = k.inUse := by
      cases evicts.out with
      | clean | file => exact ⟨rfl, rfl⟩
      | swap s htype =>
        rw [type] at htype
        cases htype
    refine .inr ⟨f, fr, held, evicts.frame, fun b hb => evicts.pages_of_ne hb, ?_, ?_, ?_⟩
    · intro spg' hspg'
      rw [evicts.result] at hspg'
      cases (update_self _ _ _).symm.trans hspg'
      rw [hswap.1]
      exact ⟨rfl, rfl, rfl⟩
    · rw [evicts.result]
      exact hswap.2
    · rw [mapping_evicts evicts]
      simp only [Mapping.unlink, update_idem]
  | free f fr b pg type held hfr hb hentry hused =>
    cases hback held hfr hb
    cases hspg.symm.trans hentry
    refine .inr ⟨f, fr, held, hfr, fun b _ => rfl, ?_, rfl, ?_⟩
    · intro spg' hspg'
      cases hspg.symm.trans hspg'
      exact ⟨rfl, rfl, rfl⟩
    · ext1
      case frame => exact map_update f
      case entry => exact entry_released
      all_goals rfl

/-- What is left when `free_action_func` has dealt with the first page of the table. -/
structure Left (k : Vm π) (p : π) (a : Nat) (spg : SuppPage π) (rest : List Nat) (k' : Vm π) :
    Prop where
  sound : (k'.mappingLeft p rest).Sound
  pages : k'.pages = update k.pages a none
  table : k'.table = k.table
  inUse : k'.inUse = (k.forgetSlot spg).inUse

/-- An entry that is not present is cleared once more. -/
theorem entry_clear {v : Nat} (h : (k.pte p v).present = false) :
    (fun q w => ((k.setPte p v { k.pte p v with present := false }).pte q w).core) =
      fun q w => (k.pte q w).core := by
  apply entry_setPte
  show (false, (k.pte p v).core.2) = _
  rw [← h]
  rfl

theorem Frees.left (h : Frees k p a spg k₁ spg₁ k') (hk : (k.mappingLeft p (a :: rest)).Sound) :
    Left k p a spg rest k' := by
  have hcore := mapping_page h.entry
  have hpd : spg.pd = p := by
    obtain ⟨c, hc, hpd⟩ := hk.listed p a (by simp [mappingLeft])
    cases hcore.symm.trans hc
    exact hpd
  have hnodup : (a :: rest).Nodup := by
    simpa only [mappingLeft, update_self] using hk.nodup p
  have hrest : ∀ b, b ∈ rest ↔ b ∈ (k.mappingLeft p (a :: rest)).table p ∧ b ≠ a := by
    intro b
    simp only [mappingLeft, update_self, mem_cons]
    have : b = a → b ∉ rest := fun hb => hb ▸ (nodup_cons.mp hnodup).1
    tauto
  have hforget := forgetSlot_eq k₁ spg₁
  have htable : k'.table = k₁.table := by
    rw [h.result, hforget]
    rfl
  -- the mapping of the result, given that of the state without the frame
  have hmapping : (k₁.pte p spg.vaddr).present = false → spg₁.vaddr = spg.vaddr →
      k'.mapping = { k₁.mapping with page := update k₁.mapping.page a none } := by
    intro hpresent hv
    rw [h.result, hv, hforget]
    ext1
    case page => exact map_update a
    case entry => exact entry_clear hpresent
    all_goals rfl
  rcases h.vacated.mapping h.entry hk with
    ⟨hfr, rfl⟩ | ⟨f, fr, hf, hframe, hpages, hspg₁, hinUse, hm⟩
  · -- the page was not in a frame
    cases h.entry.symm.trans h.again
    have hpresent := hk.not_present hcore hfr
    rw [show spg.core.pd = p from hpd] at hpresent
    have hm := hmapping hpresent rfl
    refine ⟨?_, ?_, htable, ?_⟩
    · have hdrop := hk.drop (p := p) (a := a) hcore hfr hpd (nodup_cons.mp hnodup).2 hrest
      simp only [mappingLeft, Mapping.drop, update_idem] at hdrop
      simp only [mappingLeft, hm, htable]
      exact hdrop
    · rw [h.result]
    · rw [h.result]
      rfl
  · obtain ⟨hv, htype, hswap⟩ := hspg₁ spg₁ h.again
    have htable₁ : k₁.table = k.table := congrArg Mapping.table hm
    have hentry := congrFun (congrFun (congrArg Mapping.entry hm) p) spg.vaddr
    have hpresent : (k₁.pte p spg.vaddr).present = false := by
      have := congrArg Prod.fst hentry
      refine this.trans ?_
      show (if p = spg.core.pd ∧ spg.vaddr = spg.core.vaddr then _ else _ : Bool × Nat × Bool).1 = _
      rw [if_pos ⟨hpd.symm, rfl⟩]
    have hm' := (hmapping hpresent hv).trans hm
    refine ⟨?_, ?_, htable.trans htable₁, ?_⟩
    · have hunlink := hk.unlink hcore hf (mapping_frame hframe)
      have hdrop := hunlink.drop (p := p) (a := a) (update_self _ _ _) rfl hpd
        (nodup_cons.mp hnodup).2 hrest
      simp only [mappingLeft, Mapping.drop, Mapping.unlink, update_idem] at hdrop
      simp only [mappingLeft, hm', htable, htable₁, Mapping.unlink]
      exact hdrop
    · rw [h.result]
      funext b
      show update k₁.pages a none b = _
      by_cases hb : b = a
      · subst hb
        rw [update_self, update_self]
      · rw [update_of_ne hb, update_of_ne hb, hpages b hb]
    · rw [h.result]
      show (k₁.forgetSlot spg₁).inUse = _
      unfold forgetSlot
      rw [htype, hswap]
      split
      · rw [hinUse]
      · exact hinUse

/-- What is left when the pages `as` have been freed. -/
structure AllFreed (k : Vm π) (p : π) (as : List Nat) (k' : Vm π) : Prop where
  sound : (k'.mappingLeft p []).Sound
  table : k'.table = k.table
  gone : ∀ a ∈ as, k'.pages a = none
  kept : ∀ b, b ∉ as → k'.pages b = k.pages b
  inUse : ∀ s, k'.inUse s = true ↔ k.inUse s = true ∧
    ∀ a ∈ as, ∀ spg, k.pages a = some spg → spg.type = .swapslot → spg.swap ≠ some s

omit [DecidableEq π] in
theorem forgetSlot_inUse (s : Nat) :
    (k.forgetSlot spg).inUse s = true ↔
      k.inUse s = true ∧ (spg.type = .swapslot → spg.swap ≠ some s) := by
  unfold forgetSlot
  split
  · rename_i t htype hswap
    rw [htype, hswap]
    simp only [update_apply]
    by_cases hst : s = t
    · simp [hst]
    · simp [hst, Ne.symm hst]
  · rename_i hnot
    refine ⟨fun h => ⟨h, fun htype hswap => hnot s htype hswap⟩, fun h => h.1⟩

theorem freeEach_ensures (as : List Nat) (hk : (k.mappingLeft p as).Sound) :
    Ensures (freeEach p as) k (fun _ k' => AllFreed k p as k') := by
  induction as generalizing k with
  | nil =>
    refine ensures_pure.mpr ⟨hk, rfl, by simp, fun _ _ => rfl, by simp⟩
  | cons a as ih =>
    simp only [freeEach, ensures_bind]
    refine freeActionFunc_ensures.mono (fun _ k₁ hk₁ => ?_)
    obtain ⟨spg, k₂, spg₂, hfrees⟩ := hk₁
    have hleft := hfrees.left hk
    refine (ih hleft.sound).mono (fun _ k' hk' => ?_)
    have ha : a ∉ as := by
      have hnodup := hk.nodup p
      simp only [mappingLeft, update_self] at hnodup
      exact (nodup_cons.mp hnodup).1
    have hpages : ∀ b, b ≠ a → k₁.pages b = k.pages b := by
      intro b hb
      rw [hleft.pages, update_of_ne hb]
    refine ⟨hk'.sound, hk'.table.trans hleft.table, ?_, ?_, ?_⟩
    · intro b hb
      rcases mem_cons.mp hb with rfl | hb
      · rw [hk'.kept b ha, hleft.pages, update_self]
      · exact hk'.gone b hb
    · intro b hb
      rw [mem_cons, not_or] at hb
      rw [hk'.kept b hb.2, hpages b hb.1]
    · intro s
      rw [hk'.inUse, hleft.inUse, forgetSlot_inUse]
      constructor
      · rintro ⟨⟨hs, hfirst⟩, hrest⟩
        refine ⟨hs, fun b hb pg hpg => ?_⟩
        rcases mem_cons.mp hb with rfl | hb
        · cases hfrees.entry.symm.trans hpg
          exact hfirst
        · refine hrest b hb pg ?_
          rw [hpages b (fun hba => ha (hba ▸ hb))]
          exact hpg
      · rintro ⟨hs, hall⟩
        refine ⟨⟨hs, hall a (by simp) spg hfrees.entry⟩, fun b hb pg hpg => ?_⟩
        refine hall b (mem_cons_of_mem _ hb) pg ?_
        rw [← hpages b (fun hba => ha (hba ▸ hb))]
        exact hpg

end Frees

end Vm

end KernelSanders

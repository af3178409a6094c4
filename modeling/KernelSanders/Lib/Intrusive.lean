import KernelSanders.Lib.Exec
import KernelSanders.Lib.Queues

namespace KernelSanders.Lib

/-!
# Doubly linked lists with the links inside the elements

A list `q` has two nodes of its own, a head and a tail, and an element `i` has one node, which is on
one list at a time or on none.  The operations work on the links alone: `remove` takes a node out
from between its neighbours, wherever these are, and leaves the links of the node itself as they
were.

* `Holds L q xs` — following the links from the head of `q` leads through `xs` to its tail, and back.
* `Represents L live queue` — all the lists in `live` at once.  Together with `Housed` it is what the
  operations preserve (`Represents.pushBack`, `Represents.remove`, `Represents.init`), as long as
  an element is pushed that is on no list, and one is removed that is on one.
* `Holds.remove_stale` — taking out an element again that has just been popped changes nothing.
-/

/-- The nodes: two for each list, and one for each element. -/
inductive Node (ι κ : Type) where
  | head (q : κ)
  | tail (q : κ)
  | elem (i : ι)
  deriving DecidableEq

/-- The links. -/
structure Links (ι κ : Type) where
  prev : Node ι κ → Option (Node ι κ)
  next : Node ι κ → Option (Node ι κ)

namespace Links

open Exec
open Function hiding update
open List

variable {ι κ : Type}

def IsHead (L : Links ι κ) (e : Node ι κ) : Prop := L.prev e = none ∧ L.next e ≠ none

def IsInterior (L : Links ι κ) (e : Node ι κ) : Prop := L.prev e ≠ none ∧ L.next e ≠ none

def IsTail (L : Links ι κ) (e : Node ι κ) : Prop := L.prev e ≠ none ∧ L.next e = none

variable [DecidableEq ι] [DecidableEq κ] {e : Node ι κ}

instance (L : Links ι κ) (e : Node ι κ) : Decidable (L.IsHead e) :=
  inferInstanceAs (Decidable (_ ∧ _))

instance (L : Links ι κ) (e : Node ι κ) : Decidable (L.IsInterior e) :=
  inferInstanceAs (Decidable (_ ∧ _))

instance (L : Links ι κ) (e : Node ι κ) : Decidable (L.IsTail e) :=
  inferInstanceAs (Decidable (_ ∧ _))

def setPrev (e : Node ι κ) (a : Option (Node ι κ)) (L : Links ι κ) : Links ι κ :=
  { L with prev := Function.update L.prev e a }

def setNext (e : Node ι κ) (a : Option (Node ι κ)) (L : Links ι κ) : Links ι κ :=
  { L with next := Function.update L.next e a }

/-- The links after `c` has been put right after `a`. -/
def join (a c : Node ι κ) (L : Links ι κ) : Links ι κ := setPrev c (some a) (setNext a (some c) L)

/-! ### The operations -/

/-- Make `q` empty. -/
def init (q : κ) : Exec (Links ι κ) Unit := do
  update (setPrev (.head q) none)
  update (setNext (.head q) (some (.tail q)))
  update (setPrev (.tail q) (some (.head q)))
  update (setNext (.tail q) none)

/-- Put `e` right before `before`. -/
def insert (before e : Node ι κ) : Exec (Links ι κ) Unit := do
  let ok ← read (fun L => decide (L.IsInterior before ∨ L.IsTail before))
  assert (ok = true) "is_interior (before) || is_tail (before)"
  let prev ← read (fun L => L.prev before)
  match prev with
  | none => stop .fault
  | some b => do
    update (setPrev e (some b))
    update (setNext e (some before))
    update (setNext b (some e))
    update (setPrev before (some e))

/-- Put an element at the end of `q`. -/
def pushBack (q : κ) (i : ι) : Exec (Links ι κ) Unit := insert (.tail q) (.elem i)

/-- Take a node out from between its neighbours. -/
def remove (e : Node ι κ) : Exec (Links ι κ) Unit := do
  let ok ← read (fun L => decide (L.IsInterior e))
  assert (ok = true) "is_interior (elem)"
  let prev ← read (fun L => L.prev e)
  let next ← read (fun L => L.next e)
  match prev, next with
  | some a, some c => do
    update (setNext a (some c))
    update (setPrev c (some a))
  | _, _ => stop .fault

def isEmpty (q : κ) (L : Links ι κ) : Bool := decide (L.next (.head q) = some (.tail q))

/-- Take the last node off `q` and return it. -/
def popBack (q : κ) : Exec (Links ι κ) (Node ι κ) := do
  let empty ← read (isEmpty q)
  assert (empty = false) "!list_empty (list)"
  let back ← read (fun L => L.prev (.tail q))
  match back with
  | none => stop .fault
  | some e => do
    remove e
    pure e

/-- The node after `e`. -/
def listNext (e : Node ι κ) : Exec (Links ι κ) (Node ι κ) := do
  let ok ← read (fun L => decide (L.IsHead e ∨ L.IsInterior e))
  assert (ok = true) "is_head (elem) || is_interior (elem)"
  let next ← read (fun L => L.next e)
  match next with
  | none => stop .fault
  | some n => pure n

/-! ### What the links hold -/

omit [DecidableEq ι] [DecidableEq κ]

/-- `b` comes right after `a`. -/
def Link (L : Links ι κ) (a b : Node ι κ) : Prop := L.next a = some b ∧ L.prev b = some a

/-- The nodes of the list `q` with the elements `xs`. -/
def path (q : κ) (xs : List ι) : List (Node ι κ) := .head q :: (xs.map .elem ++ [.tail q])

/-- The nodes of the rest `xs` of the list `q`. -/
def rest (q : κ) (xs : List ι) : List (Node ι κ) := xs.map .elem ++ [.tail q]

/-- The node at which the rest `xs` of the list `q` starts. -/
def start (q : κ) : List ι → Node ι κ
  | [] => .tail q
  | i :: _ => .elem i

/-- The list `q` has the elements `xs`. -/
structure Holds (L : Links ι κ) (q : κ) (xs : List ι) : Prop where
  head : L.prev (.head q) = none
  tail : L.next (.tail q) = none
  chain : (path q xs).IsChain L.Link

section Lists

variable {L L' : Links ι κ} {q q' : κ} {xs ys us vs : List ι} {i : ι}

theorem path_nodup (q : κ) (h : xs.Nodup) : (path q xs).Nodup := by
  have hmap : (xs.map (Node.elem : ι → Node ι κ)).Nodup :=
    h.map (fun a b hab => Node.elem.inj hab)
  simp [path, nodup_append, hmap]

theorem mem_path : e ∈ path q xs ↔ e = .head q ∨ (∃ i ∈ xs, e = .elem i) ∨ e = .tail q := by
  simp only [path, mem_cons, mem_append, mem_map, not_mem_nil, or_false]
  constructor
  · rintro (h | ⟨i, hi, rfl⟩ | h)
    · exact .inl h
    · exact .inr (.inl ⟨i, hi, rfl⟩)
    · exact .inr (.inr h)
  · rintro (h | ⟨i, hi, rfl⟩ | h)
    · exact .inl h
    · exact .inr (.inl ⟨i, hi, rfl⟩)
    · exact .inr (.inr h)

/-- Nodes whose links out and in are the same are linked as before. -/
theorem isChain_congr {ns : List (Node ι κ)} (h : ns.IsChain L.Link)
    (hnext : ∀ e ∈ ns.dropLast, L'.next e = L.next e)
    (hprev : ∀ e ∈ ns.tail, L'.prev e = L.prev e) : ns.IsChain L'.Link := by
  induction ns with
  | nil => exact .nil
  | cons a ns ih =>
    cases ns with
    | nil => exact .singleton a
    | cons b ns =>
      rw [isChain_cons_cons] at h ⊢
      have ha : L'.next a = L.next a := hnext a (by simp)
      have hb : L'.prev b = L.prev b := hprev b (by simp)
      refine ⟨⟨ha.trans h.1.1, hb.trans h.1.2⟩, ih h.2 (fun e he => ?_) (fun e he => ?_)⟩
      · exact hnext e (by rw [dropLast_cons_cons]; exact mem_cons_of_mem a he)
      · exact hprev e (mem_cons_of_mem b he)

/-- Links that agree on the nodes of a list hold the same list. -/
theorem Holds.congr (h : L.Holds q xs)
    (hL : ∀ e ∈ path q xs, L'.prev e = L.prev e ∧ L'.next e = L.next e) : L'.Holds q xs := by
  have hhead : (.head q : Node ι κ) ∈ path q xs := mem_path.mpr (.inl rfl)
  have htail : (.tail q : Node ι κ) ∈ path q xs := mem_path.mpr (.inr (.inr rfl))
  refine ⟨(hL _ hhead).1.trans h.head, (hL _ htail).2.trans h.tail, ?_⟩
  refine h.chain.imp_of_mem_imp (fun a b ha hb hab => ?_)
  exact ⟨(hL a ha).2.trans hab.1, (hL b hb).1.trans hab.2⟩

/-- The nodes before the end of the list, the last of which is `b`. -/
theorem exists_before_tail (q : κ) (xs : List ι) :
    ∃ (as : List (Node ι κ)) (b : Node ι κ), .head q :: xs.map .elem = as ++ [b] ∧
      path q xs = as ++ [b, .tail q] := by
  obtain ⟨as, b, hab⟩ : ∃ as b, (.head q : Node ι κ) :: xs.map .elem = as ++ [b] :=
    (eq_nil_or_concat' _).resolve_left (cons_ne_nil _ _)
  refine ⟨as, b, hab, ?_⟩
  rw [path, ← cons_append, hab, append_assoc]
  rfl

/-- The last node before the tail. -/
theorem Holds.before_tail (h : L.Holds q xs) {as : List (Node ι κ)} {b : Node ι κ}
    (hpath : path q xs = as ++ [b, .tail q]) : L.Link b (.tail q) := by
  have hchain := h.chain
  rw [hpath, isChain_append_cons_cons] at hchain
  exact hchain.2.1

theorem Holds.next_head (h : L.Holds q xs) : L.next (.head q) = some (start q xs) := by
  have hchain := h.chain
  cases xs with
  | nil =>
    rw [path, map_nil, nil_append, isChain_pair] at hchain
    exact hchain.1
  | cons x xs =>
    rw [path, map_cons, cons_append, isChain_cons_cons] at hchain
    exact hchain.1.1

/-- The rest of a list, from the node after `i` on. -/
theorem next_start (h : (rest q (i :: xs)).IsChain L.Link) :
    L.next (.elem i) = some (start q xs) ∧ (rest q xs).IsChain L.Link := by
  rw [rest, map_cons, cons_append] at h
  cases xs with
  | nil =>
    rw [map_nil, nil_append, isChain_pair] at h
    exact ⟨h.1, .singleton _⟩
  | cons x xs =>
    rw [map_cons, cons_append, isChain_cons_cons] at h
    exact ⟨h.1.1, h.2⟩

/-- What comes before an element of a list, and after it. -/
theorem Holds.neighbours (h : L.Holds q (us ++ i :: vs)) :
    (∃ a, L.prev (.elem i) = some a) ∧ L.next (.elem i) = some (start q vs) := by
  obtain ⟨as, a, hcons, -⟩ := exists_before_tail q us
  have hpath : path q (us ++ i :: vs) = as ++ a :: .elem i :: Links.rest q vs := by
    rw [path, map_append, append_assoc, ← cons_append, hcons]
    simp [Links.rest]
  have hchain := h.chain
  rw [hpath, isChain_append_cons_cons] at hchain
  exact ⟨⟨a, hchain.2.1.2⟩, (next_start hchain.2.2).1⟩

/-- The node after one that has neighbours. -/
theorem listNext_run {e b n : Node ι κ} (hprev : L.prev e = some b) (hnext : L.next e = some n) :
    (listNext e).run L = .ok (n, L) := by
  have hinterior : decide (L.IsHead e ∨ L.IsInterior e) = true := by
    simp [IsInterior, hprev, hnext]
  rw [listNext, read_bind, bind_ok (assert_pos hinterior _ _), read_bind, hnext]
  rfl

/-- A list whose head points to its tail is empty. -/
theorem Holds.eq_nil (h : L.Holds q xs) (hn : L.next (.head q) = some (.tail q)) : xs = [] := by
  rw [h.next_head] at hn
  cases xs with
  | nil => rfl
  | cons x xs => cases hn

/-- The links determine the list. -/
theorem Holds.unique (h : L.Holds q xs) (h' : L.Holds q ys) : xs = ys := by
  have key : ∀ (xs ys : List ι) (a : Node ι κ),
      (a :: (xs.map .elem ++ [.tail q])).IsChain L.Link →
      (a :: (ys.map .elem ++ [.tail q])).IsChain L.Link → xs = ys := by
    intro xs
    induction xs with
    | nil =>
      intro ys a hx hy
      cases ys with
      | nil => rfl
      | cons y ys =>
        rw [map_nil, nil_append, isChain_cons_cons] at hx
        rw [map_cons, cons_append, isChain_cons_cons] at hy
        have hne := hx.1.1.symm.trans hy.1.1
        cases hne
    | cons x xs ih =>
      intro ys a hx hy
      rw [map_cons, cons_append, isChain_cons_cons] at hx
      cases ys with
      | nil =>
        rw [map_nil, nil_append, isChain_cons_cons] at hy
        have hne := hx.1.1.symm.trans hy.1.1
        cases hne
      | cons y ys =>
        rw [map_cons, cons_append, isChain_cons_cons] at hy
        have hxy : (.elem x : Node ι κ) = .elem y := by
          have hy₁ := hy.1.1
          rw [hx.1.1] at hy₁
          exact Option.some.inj hy₁
        cases hxy
        rw [ih ys (.elem x) hx.2 hy.2]
  exact key xs ys (.head q) h.chain h'.chain

variable [DecidableEq ι] [DecidableEq κ]

theorem setPrev_prev (e : Node ι κ) (a : Option (Node ι κ)) (L : Links ι κ) (n : Node ι κ) :
    (setPrev e a L).prev n = if n = e then a else L.prev n :=
  update_apply ..

theorem setNext_next (e : Node ι κ) (a : Option (Node ι κ)) (L : Links ι κ) (n : Node ι κ) :
    (setNext e a L).next n = if n = e then a else L.next n :=
  update_apply ..

/-! ### The operations on the lists -/

/-- An empty list, and nothing else changes. -/
theorem init_ensures (q : κ) (L : Links ι κ) : Ensures (init q) L (fun _ L' => L'.Holds q [] ∧
    ∀ e, e ≠ .head q → e ≠ .tail q → L'.prev e = L.prev e ∧ L'.next e = L.next e) := by
  simp only [init, ensures_bind, ensures_update]
  refine ⟨⟨?_, ?_, ?_⟩, fun e hh ht => ⟨?_, ?_⟩⟩
  · simp [setPrev, setNext]
  · simp [setPrev, setNext]
  · rw [path, map_nil, nil_append, isChain_pair]
    simp [Link, setPrev, setNext]
  · simp [setPrev, setNext, hh, ht]
  · simp [setPrev, setNext, hh, ht]

section Join

variable {a c : Node ι κ} {as cs ns : List (Node ι κ)}

theorem join_prev (e : Node ι κ) : (join a c L).prev e = if e = c then some a else L.prev e :=
  setPrev_prev ..

theorem join_next (e : Node ι κ) : (join a c L).next e = if e = a then some c else L.next e :=
  setNext_next ..

/-- Nodes that are not affected are linked as before. -/
theorem isChain_of_join (h : ns.IsChain L.Link) (ha : a ∉ ns.dropLast) (hc : c ∉ ns.tail) :
    ns.IsChain (join a c L).Link := by
  refine isChain_congr h (fun e he => ?_) (fun e he => ?_)
  · rw [join_next, if_neg (fun hea : e = a => ha (hea ▸ he))]
  · rw [join_prev, if_neg (fun hec : e = c => hc (hec ▸ he))]

/-- Two runs of nodes become one. -/
theorem isChain_join (h₁ : (as ++ [a]).IsChain L.Link) (h₂ : (c :: cs).IsChain L.Link)
    (hnodup : (as ++ a :: c :: cs).Nodup) : (as ++ a :: c :: cs).IsChain (join a c L).Link := by
  simp only [nodup_append, nodup_cons, mem_cons, not_or] at hnodup
  obtain ⟨-, ⟨⟨hac, hacs⟩, hccs, -⟩, hdisj⟩ := hnodup
  rw [isChain_append_cons_cons]
  refine ⟨isChain_of_join h₁ ?_ ?_, ⟨?_, ?_⟩, isChain_of_join h₂ ?_ hccs⟩
  · rw [dropLast_concat]
    exact fun ha => hdisj a ha a (.inl rfl) rfl
  · intro hc
    rcases mem_append.mp (mem_of_mem_tail hc) with hc | hc
    · exact hdisj c hc c (.inr (.inl rfl)) rfl
    · exact hac (mem_singleton.mp hc).symm
  · rw [join_next, if_pos rfl]
  · rw [join_prev, if_pos rfl]
  · intro ha
    rcases mem_cons.mp (dropLast_subset _ ha) with ha | ha
    · exact hac ha
    · exact hacs ha

end Join

/-- A new element is put between the last node and the tail of `q`. -/
theorem pushBack_ensures (h : L.Holds q xs) (hxs : xs.Nodup) (hi : i ∉ xs) :
    Ensures (pushBack q i) L (fun _ L' => L'.Holds q (xs ++ [i]) ∧
      ∀ e, e ∉ path q xs → e ≠ .elem i → L'.prev e = L.prev e ∧ L'.next e = L.next e) := by
  obtain ⟨as, b, hcons, hpath⟩ := exists_before_tail q xs
  have hlink := h.before_tail hpath
  simp only [pushBack, insert, ensures_bind, ensures_read, ensures_assert, hlink.2, ensures_update]
  intro _
  have hjoin : setPrev (.tail q) (some (.elem i)) (setNext b (some (.elem i))
      (setNext (.elem i) (some (.tail q)) (setPrev (.elem i) (some b) L)))
      = join b (.elem i) (join (.elem i) (.tail q) L) := by
    have htail : (.tail q : Node ι κ) ≠ .elem i := by simp
    simp only [join, setPrev, setNext, update_comm htail]
  rw [hjoin]
  have hpath' : path q (xs ++ [i]) = as ++ b :: .elem i :: [.tail q] := by
    rw [path, map_append, ← cons_append, ← cons_append, hcons]
    simp
  have hnodup := path_nodup q (List.Nodup.concat hi hxs)
  rw [concat_eq_append, hpath'] at hnodup
  have hb : b ∉ [.elem i, .tail q] ∧ ∀ e ∈ as ++ [b], e ∉ [.elem i, .tail q] := by
    rw [append_cons, nodup_append] at hnodup
    have hdisj : ∀ e ∈ as ++ [b], e ∉ [.elem i, .tail q] :=
      fun e he he' => hnodup.2.2 e he e he' rfl
    exact ⟨hdisj b (by simp), hdisj⟩
  simp only [mem_cons, not_mem_nil, or_false, not_or] at hb
  obtain ⟨⟨-, hbt⟩, hdisj⟩ := hb
  have hbpath : b ∈ path q xs := by rw [hpath]; simp
  refine ⟨⟨?_, ?_, ?_⟩, fun e he hei => ?_⟩
  · rw [join_prev, join_prev, if_neg (by simp), if_neg (by simp)]
    exact h.head
  · rw [join_next, join_next, if_neg (Ne.symm hbt), if_neg (by simp)]
    exact h.tail
  · have hchain := h.chain
    rw [hpath, isChain_append_cons_cons] at hchain
    rw [hpath']
    refine isChain_join (isChain_of_join hchain.1 ?_ ?_) ?_ hnodup
    · exact fun hm => (hdisj _ (dropLast_subset _ hm)).1 rfl
    · exact fun hm => (hdisj _ (mem_of_mem_tail hm)).2 rfl
    · rw [isChain_pair, Link, join_next, join_prev, if_pos rfl, if_pos rfl]
      exact ⟨rfl, rfl⟩
  · have het : e ≠ .tail q := fun h => he (mem_path.mpr (.inr (.inr h)))
    have heb : e ≠ b := fun h => he (h ▸ hbpath)
    rw [join_prev, join_prev, join_next, join_next, if_neg hei, if_neg het, if_neg heb, if_neg hei]
    exact ⟨rfl, rfl⟩

/-- An element of the list is taken out.  Its own links stay as they were. -/
theorem remove_ensures (h : L.Holds q xs) (hxs : xs.Nodup) (hi : i ∈ xs) :
    Ensures (remove (.elem i)) L (fun _ L' => L'.Holds q (xs.erase i) ∧
      (∀ e, e ∉ path q xs → L'.prev e = L.prev e ∧ L'.next e = L.next e) ∧
      L'.prev (.elem i) = L.prev (.elem i) ∧ L'.next (.elem i) = L.next (.elem i)) := by
  have herase := path_nodup (ι := ι) q (hxs.erase i)
  obtain ⟨us, vs, rfl⟩ := append_of_mem hi
  obtain ⟨as, a, hcons, -⟩ := exists_before_tail q us
  obtain ⟨c, cs, hrest⟩ : ∃ c cs, vs.map .elem ++ [(.tail q : Node ι κ)] = c :: cs :=
    exists_cons_of_ne_nil (by simp)
  have hpath : path q (us ++ i :: vs) = as ++ a :: .elem i :: c :: cs := by
    rw [path, map_append, map_cons, append_assoc, ← cons_append, hcons, cons_append, hrest]
    simp
  have hnot : i ∉ us := fun hu => (nodup_append.mp hxs).2.2 i hu i (by simp) rfl
  have hpath' : path q ((us ++ i :: vs).erase i) = as ++ a :: c :: cs := by
    rw [erase_append_right _ hnot, erase_cons_head, path, map_append,
      append_assoc, ← cons_append, hcons, hrest]
    simp
  have hnodup := path_nodup q hxs
  have hchain := h.chain
  rw [hpath] at hnodup hchain
  rw [hpath'] at herase
  rw [isChain_append_cons_cons, isChain_cons_cons] at hchain
  obtain ⟨hbefore, hai, hic, hafter⟩ := hchain
  simp only [remove, ensures_bind, ensures_read, ensures_assert, hai.2, hic.1, ensures_update]
  intro _
  have hL' : setPrev c (some a) (setNext a (some c) L) = join a c L := rfl
  rw [hL']
  have hout : ∀ e, e ≠ a → e ≠ c →
      (join a c L).prev e = L.prev e ∧ (join a c L).next e = L.next e := by
    intro e hea hec
    rw [join_prev, join_next, if_neg hec, if_neg hea]
    exact ⟨rfl, rfl⟩
  have hself : .elem i ≠ a ∧ .elem i ≠ c := by
    simp only [nodup_append, nodup_cons, mem_cons, not_or] at hnodup
    exact ⟨Ne.symm hnodup.2.1.1.1, hnodup.2.1.2.1.1⟩
  refine ⟨⟨?_, ?_, ?_⟩, fun e he => hout e ?_ ?_, ?_⟩
  · -- the head is not where the list goes on
    have hhead : (.head q : Node ι κ) ≠ c := by
      rintro rfl
      have hmem : (.head q : Node ι κ) ∈ vs.map .elem ++ [.tail q] := hrest ▸ mem_cons_self
      simp at hmem
    rw [join_prev, if_neg hhead]
    exact h.head
  · have htail : (.tail q : Node ι κ) ≠ a := by
      rintro rfl
      have hmem : (.tail q : Node ι κ) ∈ .head q :: us.map .elem := by rw [hcons]; simp
      simp at hmem
    rw [join_next, if_neg htail]
    exact h.tail
  · rw [hpath']
    exact isChain_join hbefore hafter herase
  · rintro rfl
    exact he (by rw [hpath]; simp)
  · rintro rfl
    exact he (by rw [hpath]; simp)
  · rw [(hout _ hself.1 hself.2).1, (hout _ hself.1 hself.2).2, hai.2, hic.1]
    exact ⟨rfl, rfl⟩

theorem remove_run {e a c : Node ι κ} (hprev : L.prev e = some a) (hnext : L.next e = some c) :
    (remove e).run L = .ok ((), setPrev c (some a) (setNext a (some c) L)) := by
  have hinterior : decide (L.IsInterior e) = true := by
    simp [IsInterior, hprev, hnext]
  rw [remove, read_bind, bind_ok (assert_pos hinterior _ _), read_bind, read_bind, hprev, hnext]
  rfl

/-- An element of a list can be taken out, and its own links still lead on. -/
theorem Holds.remove_returns (h : L.Holds q (us ++ i :: vs)) (hxs : (us ++ i :: vs).Nodup) :
    Returns (remove (.elem i)) L (fun _ L' =>
      L'.Holds q (us ++ vs) ∧ (listNext (.elem i)).run L' = .ok (start q vs, L')) := by
  obtain ⟨⟨a, hprev⟩, hnext⟩ := h.neighbours
  have hmem : i ∈ us ++ i :: vs := by simp
  have hnot : i ∉ us := fun hu => (nodup_append.mp hxs).2.2 i hu i (by simp) rfl
  have hruns : Returns (remove (.elem i)) L (fun _ _ => True) :=
    ⟨(), _, remove_run hprev hnext, trivial⟩
  refine (hruns.and_ensures (remove_ensures h hxs hmem)).mono (fun _ L' hL' => ?_)
  obtain ⟨-, hholds, -, hp, hn⟩ := hL'
  rw [erase_append_right _ hnot, erase_cons_head] at hholds
  exact ⟨hholds, listNext_run (hp.trans hprev) (hn.trans hnext)⟩

/-- The last element is taken off.  Its own links still point to where it was. -/
theorem popBack_ensures (h : L.Holds q xs) (hxs : xs.Nodup) :
    Ensures (popBack q) L (fun e L' => ∃ ys i, xs = ys ++ [i] ∧ e = .elem i ∧ L'.Holds q ys ∧
      (∀ e, e ∉ path q xs → L'.prev e = L.prev e ∧ L'.next e = L.next e) ∧
      L'.next (.elem i) = some (.tail q) ∧ L'.prev (.elem i) = L'.prev (.tail q)) := by
  rw [popBack, ensures_get, ensures_check]
  intro hempty
  have hne : xs ≠ [] := by
    rintro rfl
    rw [isEmpty, h.next_head, decide_eq_false_iff_not] at hempty
    exact hempty rfl
  obtain ⟨ys, i, rfl⟩ := (eq_nil_or_concat' xs).resolve_left hne
  obtain ⟨as, b, hcons, hpath⟩ := exists_before_tail q ys
  have hpath' : path q (ys ++ [i]) = as ++ b :: .elem i :: [.tail q] := by
    rw [path, map_append, ← cons_append, ← cons_append, hcons]
    simp
  have hchain := h.chain
  rw [hpath', isChain_append_cons_cons, isChain_pair] at hchain
  obtain ⟨-, hbi, hit⟩ := hchain
  rw [ensures_get, hit.2, ensures_bind]
  have hi : i ∈ ys ++ [i] := by simp
  refine (remove_ensures h hxs hi).mono (fun _ L' hL' => ?_)
  obtain ⟨hholds, hframe, hp, hn⟩ := hL'
  have hnot : i ∉ ys := fun hy => (nodup_append.mp hxs).2.2 i hy i (by simp) rfl
  rw [erase_append_right _ hnot, erase_cons_head, append_nil] at hholds
  rw [ensures_pure]
  refine ⟨ys, i, rfl, rfl, hholds, hframe, hn.trans hit.1, ?_⟩
  rw [hp, hbi.2, (hholds.before_tail hpath).2]

/-- Taking out a node that points to the end of the list, but is not on it, changes nothing. -/
theorem Holds.remove_stale (h : L.Holds q xs) (hn : L.next (.elem i) = some (.tail q))
    (hp : L.prev (.elem i) = L.prev (.tail q)) :
    Ensures (remove (.elem i)) L (fun _ L' => L' = L) := by
  obtain ⟨as, b, -, hpath⟩ := exists_before_tail q xs
  have hlink := h.before_tail hpath
  rw [hlink.2] at hp
  simp only [remove, ensures_bind, ensures_read, ensures_assert, hp, hn, ensures_update]
  intro _
  have hnext : setNext b (some (.tail q)) L = L := by
    rw [setNext, ← hlink.1, update_eq_self]
  rw [hnext, setPrev, ← hlink.2, update_eq_self]

end Lists

/-! ### All the lists -/

/-- The lists in `live` are the ones of `queue`, and the others have not been made yet. -/
structure Represents (L : Links ι κ) (live : κ → Prop) (queue : κ → List ι) : Prop where
  holds : ∀ q, live q → L.Holds q (queue q)
  unmade : ∀ q, ¬ live q → L.next (.head q) = none

section All

variable {L L' : Links ι κ} {live : κ → Prop} {queue : κ → List ι} {house : ι → Option κ} {q q' : κ}
  {i : ι} {xs : List ι}

/-- A list that the links hold has been made, and is the one of `queue`. -/
theorem Represents.eq_queue (hr : Represents L live queue) (h : L.Holds q xs) :
    live q ∧ xs = queue q := by
  have hlive : live q := by
    by_contra hnot
    have hnone := hr.unmade q hnot
    rw [h.next_head] at hnone
    cases hnone
  exact ⟨hlive, h.unique (hr.holds q hlive)⟩

/-- The nodes of two lists are different. -/
theorem path_disjoint (hh : Housed queue house) (hq : q' ≠ q) (he : e ∈ path q' (queue q')) :
    e ∉ path q (queue q) := by
  rw [mem_path] at he ⊢
  rintro (rfl | ⟨i, hi, rfl⟩ | rfl)
  · rcases he with he | ⟨j, -, he⟩ | he
    · exact hq (Node.head.inj he).symm
    · cases he
    · cases he
  · rcases he with he | ⟨j, hj, he⟩ | he
    · cases he
    · cases he
      exact hq (hh.unique hj hi)
    · cases he
  · rcases he with he | ⟨j, -, he⟩ | he
    · cases he
    · cases he
    · exact hq (Node.tail.inj he).symm

variable [DecidableEq ι] [DecidableEq κ]

omit [DecidableEq ι] in
/-- One list changes, and the links of the others stay. -/
theorem Represents.update (hr : Represents L live queue) (hh : Housed queue house)
    (hlive : live q) (hq : L'.Holds q xs)
    (hframe : ∀ e, e ∉ path q (queue q) → (∀ i, house i = none → e ≠ .elem i) → L'.prev e =
      L.prev e ∧ L'.next e = L.next e) :
    Represents L' live (Function.update queue q xs) := by
  refine ⟨fun q' hlive' => ?_, fun q' hnot => ?_⟩
  · rw [update_apply]
    split_ifs with he
    · rw [he]
      exact hq
    · refine (hr.holds q' hlive').congr (fun e hmem => hframe e (path_disjoint hh he hmem) ?_)
      rintro i hi rfl
      rcases mem_path.mp hmem with h | ⟨j, hj, h⟩ | h
      · cases h
      · cases h
        rw [(hh.mem q' i).mp hj] at hi
        cases hi
      · cases h
  · have hne : q' ≠ q := fun he => hnot (he ▸ hlive)
    have hout : (.head q' : Node ι κ) ∉ path q (queue q) := by simp [mem_path, hne]
    rw [(hframe _ hout nofun).2]
    exact hr.unmade q' hnot

omit [DecidableEq ι] [DecidableEq κ] in
theorem listNext_ensures (e : Node ι κ) (L : Links ι κ) :
    Ensures (listNext e) L (fun n L' => L' = L ∧ L.next e = some n) := by
  rw [listNext, ensures_get, ensures_check]
  intro _
  rw [ensures_get]
  cases hn : L.next e with
  | none => exact ensures_stop
  | some n => exact ensures_pure.mpr ⟨rfl, rfl⟩

section

variable (hr : Represents L live queue)
include hr

theorem Represents.pushBack (hh : Housed queue house) (hq : live q)
    (hi : house i = none) : Ensures (pushBack q i) L (fun _ L' =>
      Represents L' live (Function.update queue q (queue q ++ [i])) ∧
        L'.next (.elem i) = some (.tail q)) := by
  have hnot : i ∉ queue q := by
    rw [hh.mem, hi]
    nofun
  refine (pushBack_ensures (hr.holds q hq) (hh.nodup q) hnot).mono (fun _ L' hL' => ⟨?_, ?_⟩)
  · exact hr.update hh hq hL'.1 (fun e he hfree => hL'.2 e he (hfree i hi))
  · have hpath : path q (queue q ++ [i]) = (.head q :: (queue q).map .elem) ++ [.elem i, .tail q] := by
      simp [path]
    exact (hL'.1.before_tail hpath).1

theorem Represents.remove (hh : Housed queue house) (hq : live q)
    (hi : house i = some q) : Ensures (remove (.elem i)) L (fun _ L' =>
      Represents L' live (Function.update queue q ((queue q).erase i))) := by
  have hmem : i ∈ queue q := (hh.mem q i).mpr hi
  refine (remove_ensures (hr.holds q hq) (hh.nodup q) hmem).mono (fun _ L' hL' => ?_)
  exact hr.update hh hq hL'.1 (fun e he _ => hL'.2.1 e he)

theorem Represents.popBack (hh : Housed queue house)
    (hq : live q) : Ensures (popBack q) L (fun e L' => ∃ ys i, queue q = ys ++ [i] ∧ e = .elem i ∧
      Represents L' live (Function.update queue q ((queue q).erase i)) ∧
      L'.next (.elem i) = some (.tail q) ∧ L'.prev (.elem i) = L'.prev (.tail q)) := by
  refine (popBack_ensures (hr.holds q hq) (hh.nodup q)).mono (fun e L' hL' => ?_)
  obtain ⟨ys, i, hys, he, hholds, hframe, hn, hp⟩ := hL'
  have hnot : i ∉ ys := by
    intro hy
    have hnodup := hh.nodup q
    rw [hys] at hnodup
    exact (nodup_append.mp hnodup).2.2 i hy i (by simp) rfl
  refine ⟨ys, i, hys, he, ?_, hn, hp⟩
  have herase : (queue q).erase i = ys := by
    rw [hys, erase_append_right _ hnot, erase_cons_head, append_nil]
  rw [herase]
  exact hr.update hh hq hholds (fun e he _ => hframe e he)

/-- A list is made empty; what was on it is lost. -/
theorem Represents.init (q : κ) :
    Ensures (init q) L (fun _ L' =>
      Represents L' (fun p => p = q ∨ live p) (Function.update queue q []) ∧
      ∀ e, e ≠ .head q → e ≠ .tail q → L'.prev e = L.prev e ∧ L'.next e = L.next e) := by
  refine (init_ensures q L).mono (fun _ L' hL' =>
    ⟨⟨fun q' hlive => ?_, fun q' hnot => ?_⟩, hL'.2⟩)
  · rw [update_apply]
    split_ifs with he
    · rw [he]
      exact hL'.1
    · refine (hr.holds q' (hlive.resolve_left he)).congr (fun e hmem => hL'.2 e ?_ ?_)
      · rintro rfl
        rcases mem_path.mp hmem with h | ⟨j, -, h⟩ | h
        · exact he (Node.head.inj h).symm
        · cases h
        · cases h
      · rintro rfl
        rcases mem_path.mp hmem with h | ⟨j, -, h⟩ | h
        · cases h
        · cases h
        · exact he (Node.tail.inj h).symm
  · rw [not_or] at hnot
    rw [(hL'.2 (.head q') (by simp [hnot.1]) nofun).2]
    exact hr.unmade q' hnot.2

end

end All

end Links

end KernelSanders.Lib

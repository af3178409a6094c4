import Mathlib

namespace KernelSanders

open List

/-!
# Hash tables

A bucket is the list of its elements.  `hash` and `less` are the functions of the caller, and two
elements are equal if neither is less than the other.  An element is at least eight bytes of a
memory of `2 ^ 32`, so that counting them does not wrap around; the size of the bucket array does,
and is then `0`, for which `malloc` returns `NULL`.

* `Holds.pushEach` — the loop of `rehash` loses no element;
* `hash_is_set` — in every reachable state the table is what it should be, and every function does
  to the set of elements what it is for.
-/

structure Hash (ε : Type) where
  elemCnt : Nat
  bucketCnt : Nat
  buckets : Nat → List ε

namespace Hash

def turnOffLeast1bit (x : Nat) : Nat := x &&& (x - 1)

def isPowerOf2 (x : Nat) : Bool := decide (x ≠ 0 ∧ turnOffLeast1bit x = 0)

/-- The loop of `rehash` that finds a power of two. -/
def roundDown : Nat → Nat → Nat
  | 0, n => n
  | fuel + 1, n => if isPowerOf2 n then n else roundDown fuel (turnOffLeast1bit n)

variable {ε : Type}

/-- The table after `hash_init`. -/
def init : Hash ε := ⟨0, 4, fun _ => []⟩

/-- The elements, in the order in which `hash_apply` and `rehash` come to them. -/
def elements (h : Hash ε) : List ε := (range h.bucketCnt).flatMap h.buckets

/-- One bucket for two elements, but at least four. -/
def bucketsWanted (h : Hash ε) : Nat := if h.elemCnt / 2 < 4 then 4 else h.elemCnt / 2

/-- `list_push_front` on a bucket. -/
def pushFront (bucket : Nat) (e : ε) (h : Hash ε) : Hash ε :=
  { h with buckets := Function.update h.buckets bucket (e :: h.buckets bucket) }

def insertElem (bucket : Nat) (e : ε) (h : Hash ε) : Hash ε :=
  { h.pushFront bucket e with elemCnt := h.elemCnt + 1 }

def removeElem [DecidableEq ε] (e : ε) (h : Hash ε) : Hash ε :=
  { h with elemCnt := h.elemCnt - 1, buckets := fun b => (h.buckets b).erase e }

/-- Neither is less. -/
def equal (less : ε → ε → Bool) (x y : ε) : Bool := !less x y && !less y x

def findElem (less : ε → ε → Bool) (bucket : Nat) (e : ε) (h : Hash ε) : Option ε :=
  (h.buckets bucket).find? (fun x => equal less x e)

variable (hash : ε → Nat)

def findBucket (e : ε) (h : Hash ε) : Nat := hash e &&& (h.bucketCnt - 1)

/-- The loop of `rehash` over the old elements. -/
def pushEach (es : List ε) (h : Hash ε) : Hash ε :=
  es.foldl (fun h e => h.pushFront (h.findBucket hash e) e) h

/-- `rehash`, with what `malloc` returns for a number of bytes. -/
def rehash (malloc : Nat → Bool) (h : Hash ε) : Hash ε :=
  let newBucketCnt := roundDown h.bucketsWanted h.bucketsWanted
  let bytes := 16 * newBucketCnt % 2 ^ 32
  if newBucketCnt ≠ h.bucketCnt ∧ bytes ≠ 0 ∧ malloc bytes then
    pushEach hash h.elements { h with bucketCnt := newBucketCnt, buckets := fun _ => [] }
  else h

variable (less : ε → ε → Bool) (malloc : Nat → Bool)

def hashInsert (new : ε) (h : Hash ε) : Option ε × Hash ε :=
  let bucket := h.findBucket hash new
  match h.findElem less bucket new with
  | none => (none, (h.insertElem bucket new).rehash hash malloc)
  | some old => (some old, h.rehash hash malloc)

def hashFind (e : ε) (h : Hash ε) : Option ε := h.findElem less (h.findBucket hash e) e

/-- `hash_apply`: the elements that the action is called for. -/
def hashApply (h : Hash ε) : List ε := h.elements

section

variable [DecidableEq ε]

def hashReplace (new : ε) (h : Hash ε) : Option ε × Hash ε :=
  let bucket := h.findBucket hash new
  match h.findElem less bucket new with
  | none => (none, (h.insertElem bucket new).rehash hash malloc)
  | some old => (some old, ((h.removeElem old).insertElem bucket new).rehash hash malloc)

def hashDelete (e : ε) (h : Hash ε) : Option ε × Hash ε :=
  match h.findElem less (h.findBucket hash e) e with
  | none => (none, h)
  | some found => (some found, (h.removeElem found).rehash hash malloc)

/-- The functions that change the table. -/
inductive HashOp where
  | insert
  | replace
  | delete

def HashOp.run : HashOp → ε → Hash ε → Option ε × Hash ε
  | insert => hashInsert hash less malloc
  | replace => hashReplace hash less malloc
  | delete => hashDelete hash less malloc

/-- One call, with any answers of `malloc`. -/
def Step (h h' : Hash ε) : Prop :=
  ∃ (op : HashOp) (malloc : Nat → Bool) (e : ε), (op.run hash less malloc e h).2 = h'

end

/-! ### The specification -/

/-- The table as a set. -/
def contents (h : Hash ε) : Set ε := {e | e ∈ h.elements}

/-- What holds of the table between two calls. -/
structure Table (h : Hash ε) : Prop where
  distinct : h.elements.Pairwise (fun x y => ¬ equal less x y)
  placed : ∀ b < h.bucketCnt, ∀ e ∈ h.buckets b, hash e &&& (h.bucketCnt - 1) = b
  power : h.bucketCnt.isPowerOfTwo
  four : 4 ≤ h.bucketCnt
  count : h.elemCnt = h.elements.length

/-- The element of `S` that is equal to `e`, if there is one. -/
def Answer (S : Set ε) (e : ε) : Option ε → Prop
  | some x => x ∈ S ∧ equal less x e
  | none => ∀ x ∈ S, ¬ equal less x e

/-- What becomes of the set, when the function returns `r`. -/
def after (e : ε) (r : Option ε) (S : Set ε) : HashOp → Set ε
  | .insert => if r = none then insert e S else S
  | .replace => insert e {x ∈ S | r ≠ some x}
  | .delete => {x ∈ S | r ≠ some x}

/-! ### The number of buckets -/

theorem isPowerOf2_iff {n : Nat} : isPowerOf2 n = true ↔ n.isPowerOfTwo :=
  decide_eq_true_iff.trans Nat.ne_zero_and_sub_one_eq_zero_iff_isPowerOfTwo

theorem roundDown_spec (fuel n : Nat) (h4 : 4 ≤ n) (hf : n ≤ fuel) :
    (roundDown fuel n).isPowerOfTwo ∧ 4 ≤ roundDown fuel n := by
  induction fuel generalizing n with
  | zero => omega
  | succ fuel ih =>
    rw [roundDown]
    split_ifs with hp
    · exact ⟨isPowerOf2_iff.mp hp, h4⟩
    · have hle : turnOffLeast1bit n ≤ n - 1 := Nat.and_le_right
      -- the highest bit stays
      have htop := Nat.ge_two_pow_of_testBit
        (Nat.and_sub_one_testBit_log2 (by omega) (mt isPowerOf2_iff.mpr hp))
      have hlog : 2 ^ 2 ≤ 2 ^ n.log2 :=
        Nat.pow_le_pow_right (by decide) ((Nat.le_log2 (by omega)).mpr h4)
      exact ih _ (le_trans hlog htop) (by omega)

/-! ### The buckets -/

/-- The table holds the elements `es`: each bucket has those that belong there, in their order. -/
structure Holds (h : Hash ε) (es : List ε) : Prop where
  distinct : es.Pairwise (fun x y => ¬ equal less x y)
  bucket : ∀ b, h.buckets b = es.filter (fun e => hash e &&& (h.bucketCnt - 1) = b)
  power : h.bucketCnt.isPowerOfTwo
  four : 4 ≤ h.bucketCnt

variable {hash less} {h : Hash ε} {es : List ε} {e x y : ε}

theorem equal_iff : equal less x y = true ↔ ¬ less x y = true ∧ ¬ less y x = true := by
  simp [equal]

theorem equal_symm (hxy : equal less x y) : equal less y x :=
  equal_iff.mpr (equal_iff.mp hxy).symm

instance : Std.Symm (fun x y => ¬ equal less x y = true) :=
  ⟨fun _ _ hne heq => hne (equal_symm heq)⟩

theorem buckets_pushFront (b c : Nat) :
    (h.pushFront b e).buckets c = if b = c then e :: h.buckets c else h.buckets c := by
  simp only [pushFront, Function.update_apply, eq_comm (a := c)]
  split_ifs with hb
  · rw [hb]
  · rfl

theorem pushEach_elemCnt (new : List ε) (h : Hash ε) :
    (pushEach hash new h).elemCnt = h.elemCnt := by
  induction new generalizing h with
  | nil => rfl
  | cons e new ih => exact ih _

section

variable (hh : Holds hash less h es)
include hh

theorem Holds.mem_elements : e ∈ h.elements ↔ e ∈ es := by
  have hlt : hash e &&& (h.bucketCnt - 1) < h.bucketCnt := by
    obtain ⟨k, hk⟩ := hh.power
    rw [hk, Nat.and_two_pow_sub_one_eq_mod]
    exact Nat.mod_lt _ (Nat.two_pow_pos k)
  simp [elements, hh.bucket, hlt]

/-- A new element that is equal to none. -/
theorem Holds.push (hnew : ∀ x ∈ es, ¬ equal less x e) :
    Holds hash less (h.pushFront (h.findBucket hash e) e) (e :: es) := by
  refine ⟨pairwise_cons.mpr ⟨fun x hx heq => hnew x hx (equal_symm heq), hh.distinct⟩,
    fun b => ?_, hh.power, hh.four⟩
  rw [buckets_pushFront, hh.bucket]
  show _ = (e :: es).filter (fun x => hash x &&& (h.bucketCnt - 1) = b)
  rw [filter_cons, findBucket]
  simp only [decide_eq_true_eq]

theorem Holds.remove [DecidableEq ε] (hn : es.Nodup) (x : ε) :
    Holds hash less (h.removeElem x) (es.erase x) := by
  refine ⟨hh.distinct.sublist erase_sublist, fun b => ?_, hh.power, hh.four⟩
  show (h.buckets b).erase x = _
  rw [hh.bucket, hn.erase_eq_filter, (hn.filter _).erase_eq_filter, filter_filter, filter_filter]
  simp only [Bool.and_comm]
  rfl

/-- **The loop of `rehash`** loses no element. -/
theorem Holds.pushEach (new : List ε)
    (hnew : (new.reverse ++ es).Pairwise (fun x y => ¬ equal less x y)) :
    Holds hash less (pushEach hash new h) (new.reverse ++ es) := by
  induction new generalizing h es with
  | nil => exact hh
  | cons e new ih =>
    rw [reverse_cons, append_assoc] at hnew ⊢
    have hcons := (pairwise_append.mp hnew).2.1
    exact ih (hh.push (fun x hx heq => (pairwise_cons.mp hcons).1 x hx (equal_symm heq))) hnew

end

theorem Holds.elements_distinct (hhash : ∀ x y, equal less x y → hash x = hash y)
    (hh : Holds hash less h es) : h.elements.Pairwise (fun x y => ¬ equal less x y) := by
  rw [elements, pairwise_flatMap]
  refine ⟨fun b _ => hh.bucket b ▸ hh.distinct.filter _, ?_⟩
  refine nodup_range.pairwise_of_forall_ne (fun b _ c _ hbc x hx y hy heq => hbc ?_)
  rw [hh.bucket, mem_filter, decide_eq_true_eq] at hx hy
  rw [← hx.2, ← hy.2, hhash x y heq]

/-! ### The table as a set -/

variable (hash less) in
/-- The table holds the elements of `S`. -/
def Has (h : Hash ε) (S : Set ε) : Prop :=
  ∃ es, Holds hash less h es ∧ h.elemCnt = es.length ∧ ∀ x, x ∈ S ↔ x ∈ es

theorem has_init : Has hash less init ∅ :=
  ⟨[], ⟨.nil, fun _ => rfl, ⟨2, rfl⟩, le_refl _⟩, rfl, by simp⟩

section

variable {S : Set ε} (hl : IsStrictWeakOrder ε (fun x y => less x y = true))
  (hhash : ∀ x y, equal less x y → hash x = hash y) (hh : Has hash less h S)

include hl in
theorem nodup_of_distinct (hd : es.Pairwise (fun x y => ¬ equal less x y)) : es.Nodup := by
  refine hd.imp (fun {x y} hne he => hne ?_)
  rw [he, equal_iff]
  exact ⟨hl.irrefl y, hl.irrefl y⟩

include hl hhash hh

theorem Has.table : Table hash less h ∧ h.contents = S := by
  obtain ⟨es, hh, hcnt, hS⟩ := hh
  have hd := hh.elements_distinct hhash
  refine ⟨⟨hd, fun b _ e he => ?_, hh.power, hh.four, ?_⟩, ?_⟩
  · rw [hh.bucket, mem_filter, decide_eq_true_eq] at he
    exact he.2
  · rw [hcnt]
    apply List.Perm.length_eq
    rw [perm_ext_iff_of_nodup (nodup_of_distinct hl hh.distinct) (nodup_of_distinct hl hd)]
    exact fun x => hh.mem_elements.symm
  · ext x
    rw [hS, ← hh.mem_elements]
    rfl

theorem Has.rehash (malloc : Nat → Bool) : Has hash less (h.rehash hash malloc) S := by
  obtain ⟨hT, -⟩ := hh.table hl hhash
  obtain ⟨es, hh, hcnt, hS⟩ := hh
  simp only [Hash.rehash]
  split_ifs
  · obtain ⟨hpower, hfour⟩ := roundDown_spec _ h.bucketsWanted
      (by unfold bucketsWanted; split_ifs <;> omega) le_rfl
    have hempty : Holds hash less (⟨h.elemCnt, _, fun _ => []⟩ : Hash ε) [] :=
      ⟨.nil, fun _ => rfl, hpower, hfour⟩
    have hd : (h.elements.reverse ++ []).Pairwise (fun x y => ¬ equal less x y) := by
      rw [append_nil, pairwise_reverse]
      exact hT.distinct.imp (fun hne heq => hne (equal_symm heq))
    refine ⟨_, hempty.pushEach h.elements hd, ?_, fun x => ?_⟩
    · rw [append_nil, length_reverse, ← hT.count]
      exact pushEach_elemCnt ..
    · rw [hS, append_nil, mem_reverse, hh.mem_elements]
  · exact ⟨es, hh, hcnt, hS⟩

omit hl in
theorem Has.answer (e : ε) : Answer less S e (h.findElem less (h.findBucket hash e) e) := by
  obtain ⟨es, hh, -, hS⟩ := hh
  cases hf : h.findElem less (h.findBucket hash e) e with
  | some x =>
    rw [findElem, hh.bucket] at hf
    exact ⟨(hS x).mpr (mem_filter.mp (mem_of_find?_eq_some hf)).1,
      find?_some (p := fun x => equal less x e) hf⟩
  | none =>
    intro x hx heq
    -- it would be in the same bucket
    have hmem : x ∈ h.buckets (h.findBucket hash e) := by
      rw [hh.bucket, mem_filter, findBucket, hhash x e heq]
      exact ⟨(hS x).mp hx, decide_eq_true rfl⟩
    exact find?_eq_none.mp hf x hmem heq

omit hl hhash in
theorem Has.insertElem (hnew : ∀ x ∈ S, ¬ equal less x e) :
    Has hash less (h.insertElem (h.findBucket hash e) e) (insert e S) := by
  obtain ⟨es, hh, hcnt, hS⟩ := hh
  obtain ⟨hd, hb, hp, h4⟩ := hh.push (fun x hx => hnew x ((hS x).mpr hx))
  refine ⟨e :: es, ⟨hd, hb, hp, h4⟩, congrArg (· + 1) hcnt, fun x => ?_⟩
  rw [Set.mem_insert_iff, hS, mem_cons]

variable [DecidableEq ε]

omit hhash in
theorem Has.removeElem (hx : x ∈ S) : Has hash less (h.removeElem x) {y ∈ S | some x ≠ some y} := by
  obtain ⟨es, hh, hcnt, hS⟩ := hh
  have hn := nodup_of_distinct hl hh.distinct
  refine ⟨es.erase x, hh.remove hn x, ?_, fun y => ?_⟩
  · rw [length_erase_of_mem ((hS x).mp hx), ← hcnt]
    rfl
  · simp [hS, hn.mem_erase_iff, and_comm, eq_comm]

/-- **One call** of a function that changes the table. -/
theorem Has.run (op : HashOp) (malloc : Nat → Bool) (e : ε) :
    Answer less S e (op.run hash less malloc e h).1 ∧
      Has hash less (op.run hash less malloc e h).2
        (after e (op.run hash less malloc e h).1 S op) := by
  have ha := hh.answer hhash e
  cases hf : h.findElem less (h.findBucket hash e) e with
  | none =>
    rw [hf] at ha
    have hnew := (hh.insertElem ha).rehash hl hhash malloc
    cases op <;> simp [HashOp.run, hashInsert, hashReplace, hashDelete, after, hf, ha, hnew, hh]
  | some old =>
    rw [hf] at ha
    have hremoved := hh.removeElem hl ha.1
    cases op with
    | insert =>
      simp only [HashOp.run, hashInsert, hf]
      exact ⟨ha, hh.rehash hl hhash malloc⟩
    | replace =>
      simp only [HashOp.run, hashReplace, hf]
      refine ⟨ha, (hremoved.insertElem (fun x hx heq => hx.2 ?_)).rehash hl hhash malloc⟩
      -- it would be equal to the one that is taken out
      obtain ⟨es, hh, -, hS⟩ := hh
      by_contra hne
      refine hh.distinct.forall ((hS old).mp ha.1) ((hS x).mp hx.1)
        (fun he => hne (congrArg some he)) ?_
      exact equal_iff.mpr (hl.incomp_trans old e x (equal_iff.mp ha.2)
        (equal_iff.mp (equal_symm heq)))
    | delete =>
      simp only [HashOp.run, hashDelete, hf]
      exact ⟨ha, hremoved.rehash hl hhash malloc⟩

end

/-! ### Every sequence of calls -/

variable [DecidableEq ε]

/-- **A hash table is a set up to equality.** In every state that a sequence of calls leads to, the
    table is in order, and each function finds the element it should and changes the set as it
    should; `hash_apply` comes to every element once. -/
theorem hash_is_set (hl : IsStrictWeakOrder ε (fun x y => less x y = true))
    (hhash : ∀ x y, equal less x y → hash x = hash y)
    (hrun : Relation.ReflTransGen (Step hash less) init h) :
    Table hash less h ∧
      (∀ (op : HashOp) (malloc : Nat → Bool) (e : ε),
        Answer less h.contents e (op.run hash less malloc e h).1 ∧
          (op.run hash less malloc e h).2.contents
            = after e (op.run hash less malloc e h).1 h.contents op) ∧
      (∀ e, Answer less h.contents e (h.hashFind hash less e)) ∧
      h.hashApply.Nodup ∧ ∀ e, e ∈ h.hashApply ↔ e ∈ h.contents := by
  obtain ⟨S, hh⟩ : ∃ S, Has hash less h S := by
    induction hrun with
    | refl => exact ⟨∅, has_init⟩
    | tail _ hstep ih =>
      obtain ⟨S, hh⟩ := ih
      obtain ⟨op, malloc, e, rfl⟩ := hstep
      exact ⟨_, (hh.run hl hhash op malloc e).2⟩
  obtain ⟨hT, rfl⟩ := hh.table hl hhash
  refine ⟨hT, fun op malloc e => ?_, hh.answer hhash, nodup_of_distinct hl hT.distinct,
    fun _ => Iff.rfl⟩
  obtain ⟨ha, hh'⟩ := hh.run hl hhash op malloc e
  exact ⟨ha, (hh'.table hl hhash).2⟩

/-- Numbers, with their remainders as hash values. -/
theorem hash_is_set_nine : ∃ h : Hash Nat, h.elemCnt = 2 ∧ Table (· % 8) (fun x y => x < y) h ∧
    h.hashFind (· % 8) (fun x y => x < y) 9 = some 9 := by
  have hrun : Relation.ReflTransGen (Step (· % 8) (fun x y : Nat => decide (x < y))) init _ :=
    .tail (.single ⟨.insert, fun _ => true, 1, rfl⟩) ⟨.insert, fun _ => true, 9, rfl⟩
  refine ⟨_, ?_, (hash_is_set ?_ ?_ hrun).1, ?_⟩
  · decide
  · exact { irrefl := by simp, trans := by simp; omega, incomp_trans := by simp; omega }
  · simp [equal]
    omega
  · decide

end Hash

end KernelSanders

import KernelSanders.Devices.Block

namespace KernelSanders

open Lib
open List

/-!
# `devices/partition.c` — scanning a device for partitions

`read_partition_table` calls itself for each extended partition of a table, and whatever sector it
is called for, it reads sector 0.  A scan is `none` if it has not come to its end within the given
depth of calls.  What is printed is left out, and memory is always there.

* `partition_scan_follows` — the images on which the tables are followed, and the scan ends;
* `extended_partition_loops` — one extended partition with one partition in it, where it does not.
-/

/-- `struct partition_table_entry`, as far as it is read. -/
structure PartitionTableEntry where
  type : UInt8
  offset : UInt32
  size : UInt32
  deriving DecidableEq

/-- `struct partition_table`, as far as it is read. -/
structure PartitionTable where
  partitions : List PartitionTableEntry
  signature : Nat
  deriving DecidableEq

/-- The number in the `n` bytes from `i` on. -/
def littleEndian (buf : Sector) (i n : Nat) : Nat :=
  ((range n).map (fun j => 256 ^ j * (buf.byte (i + j)).toNat)).sum

/-- The partition table in a sector. -/
def Device.table (d : Device) (sector : Nat) : PartitionTable where
  partitions := (range 4).map (fun i =>
    ⟨(d.sectors sector).byte (446 + 16 * i + 4),
      .ofNat (littleEndian (d.sectors sector) (446 + 16 * i + 8) 4),
      .ofNat (littleEndian (d.sectors sector) (446 + 16 * i + 12) 4)⟩)
  signature := littleEndian (d.sectors sector) 510 2

def PartitionTableEntry.isExtended (e : PartitionTableEntry) : Bool :=
  e.type = 0x05 || e.type = 0x0f || e.type = 0x85 || e.type = 0xc5

structure Partition where
  type : BlockType
  start : UInt32
  size : UInt32
  partNr : Int

/-- What has been registered, and the tables that were interpreted, each with the sector that
    `read_partition_table` was called for. -/
structure Scan where
  partNr : Int := 0
  registered : List Partition := []
  tables : List (UInt32 × PartitionTable) := []

/-- The type that a partition is registered with. -/
def blockType (partType : UInt8) : BlockType :=
  if partType = 0x20 then .kernel else if partType = 0x21 then .filesys
  else if partType = 0x22 then .scratch else if partType = 0x23 then .swap else .foreign

def foundPartition (d : Device) (partType : UInt8) (start size : UInt32) (k : Scan) : Scan :=
  if d.size ≤ start.toNat then k
  else if start + size < start ∨ d.size < (start + size).toNat then k
  else { k with registered := ⟨blockType partType, start, size, k.partNr⟩ :: k.registered }

/-- What `read_partition_table` is called with for an extended partition. -/
def nestedCall (call : UInt32 × UInt32) (e : PartitionTableEntry) : UInt32 × UInt32 :=
  if call.1 = 0 then (e.offset, e.offset) else (e.offset + call.2, call.2)

/-- One turn of the loop over the entries of a table. -/
def parsePartition (d : Device) (nested : UInt32 × UInt32 → Scan → Option Scan)
    (call : UInt32 × UInt32) (k : Scan) (e : PartitionTableEntry) : Option Scan :=
  if e.size = 0 ∨ e.type = 0 then some k
  else if e.isExtended then nested (nestedCall call e) k
  else some (foundPartition d e.type (e.offset + call.1) e.size { k with partNr := k.partNr + 1 })

/-- Called with a sector and the sector of the primary extended partition. -/
def readPartitionTable (d : Device) : Nat → UInt32 × UInt32 → Scan → Option Scan
  | 0, _, _ => none
  | depth + 1, call, k =>
    if d.size ≤ call.1.toNat then some k
    else
      -- `block_read (block, 0, pt)`
      let pt := d.table 0
      let k := { k with tables := (call.1, pt) :: k.tables }
      if pt.signature ≠ 0xaa55 then some k
      else pt.partitions.foldlM (parsePartition d (readPartitionTable d depth) call) k

def partitionScan (d : Device) (depth : Nat) : Option Scan := readPartitionTable d depth (0, 0) {}

/-- Each table was that of the sector, and each partition is on the device. -/
structure Scan.Right (d : Device) (k : Scan) : Prop where
  tables : ∀ t ∈ k.tables, t.2 = d.table t.1.toNat
  registered : ∀ p ∈ k.registered, p.start.toNat + p.size.toNat ≤ d.size

/-- An extended partition in sector 0. -/
def Device.Extended (d : Device) (e : PartitionTableEntry) : Prop :=
  e ∈ (d.table 0).partitions ∧ e.size ≠ 0 ∧ e.isExtended = true

/-- An extended partition on the device has the table of sector 0, whose extended partitions are
    not on the device when they are taken to be inside of it. -/
def Device.Flat (d : Device) : Prop :=
  (d.table 0).signature = 0xaa55 → ∀ e, d.Extended e → e.offset.toNat < d.size →
    d.table e.offset.toNat = d.table 0 ∧
      ∀ e', d.Extended e' → d.size ≤ (e'.offset + e.offset).toNat

variable {d : Device} {k k' : Scan} {depth : Nat} {call : UInt32 × UInt32}

theorem Scan.Right.foundPartition (h : k.Right d) (partType : UInt8) (start size : UInt32) :
    (foundPartition d partType start size k).Right d := by
  unfold KernelSanders.foundPartition
  split_ifs with hstart hend
  · exact h
  · exact h
  · refine ⟨h.tables, fun p hp => ?_⟩
    rcases mem_cons.mp hp with rfl | hp
    · obtain ⟨hwrap, hfits⟩ := not_or.mp hend
      rw [UInt32.lt_iff_toNat_lt, UInt32.toNat_add] at hwrap
      rw [UInt32.toNat_add] at hfits
      have := size.toNat_lt
      show start.toNat + size.toNat ≤ d.size
      omega
    · exact h.registered p hp

/-- A loop that has returned: every turn has, and no table was forgotten. -/
theorem foldlM_visits {f : Scan → PartitionTableEntry → Option Scan}
    {es : List PartitionTableEntry} (hf : ∀ k e k', f k e = some k' → k.tables ⊆ k'.tables)
    (h : es.foldlM f k = some k') : k.tables ⊆ k'.tables ∧
      ∀ e ∈ es, ∃ k₁ k₂, f k₁ e = some k₂ ∧ k₂.tables ⊆ k'.tables := by
  induction es generalizing k with
  | nil =>
    cases h
    exact ⟨Subset.refl _, nofun⟩
  | cons e es ih =>
    rw [foldlM_cons] at h
    obtain ⟨k₁, hk₁, h⟩ := Option.bind_eq_some_iff.mp h
    obtain ⟨hsub, hes⟩ := ih h
    exact ⟨Subset.trans (hf k e k₁ hk₁) hsub, forall_mem_cons.mpr ⟨⟨k, k₁, hk₁, hsub⟩, hes⟩⟩

/-- The table of sector 0 is read for a sector that has the same, and the nested calls return. -/
theorem readPartitionTable_returns (h : k.Right d)
    (htable : call.1.toNat < d.size → d.table 0 = d.table call.1.toNat)
    (hnested : call.1.toNat < d.size → (d.table 0).signature = 0xaa55 → ∀ e, d.Extended e →
      ∀ k, k.Right d →
        ∃ k', readPartitionTable d depth (nestedCall call e) k = some k' ∧ k'.Right d) :
    ∃ k', readPartitionTable d (depth + 1) call k = some k' ∧ k'.Right d := by
  rw [readPartitionTable]
  split_ifs with hsize
  · exact ⟨k, rfl, h⟩
  · have hin : call.1.toNat < d.size := Nat.lt_of_not_le hsize
    have hk : Scan.Right d { k with tables := (call.1, d.table 0) :: k.tables } := by
      refine ⟨fun t ht => ?_, h.registered⟩
      rcases mem_cons.mp ht with rfl | ht
      · exact htable hin
      · exact h.tables t ht
    dsimp only
    split_ifs with hsig
    · exact ⟨_, rfl, hk⟩
    · refine foldlM_returns (fun e he k hk => ?_) hk
      rw [parsePartition]
      split_ifs with hempty hext
      · exact ⟨k, rfl, hk⟩
      · exact hnested hin (not_not.mp hsig) e ⟨he, (not_or.mp hempty).1, hext⟩ k hk
      · exact ⟨_, rfl, .foundPartition (k := { k with partNr := k.partNr + 1 }) ⟨hk.1, hk.2⟩ ..⟩

/-- What a call that has returned has done: its own table and its nested calls. -/
theorem readPartitionTable_visits (h : readPartitionTable d depth call k = some k') :
    k.tables ⊆ k'.tables ∧ (call.1.toNat < d.size → (call.1, d.table 0) ∈ k'.tables ∧
      ((d.table 0).signature = 0xaa55 → ∀ e, d.Extended e → ∃ n < depth, ∃ k₁ k₂,
        readPartitionTable d n (nestedCall call e) k₁ = some k₂ ∧ k₂.tables ⊆ k'.tables)) := by
  induction depth generalizing call k k' with
  | zero => cases h
  | succ depth ih =>
    rw [readPartitionTable] at h
    dsimp only at h
    split_ifs at h with hsize hsig
    · cases h
      exact ⟨Subset.refl _, fun hin => absurd hsize (Nat.not_le_of_lt hin)⟩
    · cases h
      exact ⟨subset_cons_self _ _, fun _ => ⟨mem_cons_self, fun hok => absurd hok hsig⟩⟩
    · have hturn : ∀ k e k', parsePartition d (readPartitionTable d depth) call k e = some k' →
          k.tables ⊆ k'.tables := by
        intro k e k' h
        rw [parsePartition] at h
        split_ifs at h
        · cases h
          exact Subset.refl _
        · exact (ih h).1
        · cases h
          unfold foundPartition
          split_ifs <;> exact Subset.refl _
      obtain ⟨hsub, hes⟩ := foldlM_visits hturn h
      rw [cons_subset] at hsub
      refine ⟨hsub.2, fun _ => ⟨hsub.1, fun _ e ⟨he, hlive, hext⟩ => ?_⟩⟩
      obtain ⟨k₁, k₂, hcall, htables⟩ := hes e he
      have hused : ¬ (e.size = 0 ∨ e.type = 0) := by
        rintro (hzero | hzero)
        · exact hlive hzero
        · rw [PartitionTableEntry.isExtended, hzero] at hext
          cases hext
      rw [parsePartition, if_neg hused, if_pos hext] at hcall
      exact ⟨depth, Nat.lt_succ_self _, k₁, k₂, hcall, htables⟩

/-- Calls that lead to each other do not return. -/
theorem no_return {P : UInt32 × UInt32 → Prop} (hsig : (d.table 0).signature = 0xaa55)
    (hP : ∀ call, P call → call.1.toNat < d.size ∧ ∃ e, d.Extended e ∧ P (nestedCall call e))
    (hcall : P call) : readPartitionTable d depth call k ≠ some k' := by
  induction depth using Nat.strongRecOn generalizing call k k' with
  | ind depth ih =>
    intro h
    obtain ⟨hin, e, he, hnext⟩ := hP call hcall
    obtain ⟨n, hn, k₁, k₂, hk₂, -⟩ := ((readPartitionTable_visits h).2 hin).2 hsig e he
    exact ih n hn hnext hk₂

/-- A scan that returns has not found an extended partition inside of one. -/
theorem shallow_of_returns (hsig : (d.table 0).signature = 0xaa55) {e e' : PartitionTableEntry}
    (he : d.Extended e) (hin : e.offset.toNat < d.size) (he' : d.Extended e')
    (h : readPartitionTable d depth (e.offset, e.offset) k = some k') :
    d.size ≤ (e'.offset + e.offset).toNat := by
  by_contra hlt
  -- from the extended partition and from the one inside of it the calls go on to one of the two
  refine no_return (P := fun call => call.2 = e.offset ∧
    (call.1 = e.offset ∨ call.1 = e'.offset + e.offset)) hsig ?_ ⟨rfl, .inl rfl⟩ h
  rintro ⟨sector, _⟩ ⟨rfl, hsector⟩
  refine ⟨?_, ?_⟩
  · rcases hsector with hs | hs <;> rw [hs]
    · exact hin
    · exact Nat.lt_of_not_le hlt
  · by_cases hzero : sector = 0
    · exact ⟨e, he, by simp [nestedCall, hzero]⟩
    · exact ⟨e', he', by simp [nestedCall, hzero]⟩

/-- The scan ends, with every table that of its sector and every partition on the device, exactly
    if the extended partitions on the device have the table of sector 0 and lead out of the device
    from there. -/
theorem partition_scan_follows (d : Device) :
    (∃ depth k, partitionScan d depth = some k ∧ k.Right d) ↔ d.Flat := by
  constructor
  · rintro ⟨depth, k, hscan, hright⟩ hsig e he hin
    have hpos : (0 : UInt32).toNat < d.size := by
      show 0 < _
      omega
    obtain ⟨n, -, k₁, k₂, hk₂, hsub⟩ := ((readPartitionTable_visits hscan).2 hpos).2 hsig e he
    refine ⟨?_, fun e' he' => shallow_of_returns hsig he hin he' hk₂⟩
    exact (hright.tables _ (hsub ((readPartitionTable_visits hk₂).2 hin).1)).symm
  · intro hflat
    refine ⟨3, readPartitionTable_returns ⟨nofun, nofun⟩ (fun _ => rfl) (fun _ hsig e he k hk => ?_)⟩
    refine readPartitionTable_returns hk (fun hin => (hflat hsig e he hin).1.symm) ?_
    intro (hin : e.offset.toNat < d.size) _ e' he' k hk
    have hsize := (hflat hsig e he hin).2
    have hne : e.offset ≠ 0 := by
      intro hzero
      have := hsize e he
      rw [hzero] at this hin
      exact absurd this (Nat.not_le_of_lt hin)
    refine ⟨k, ?_, hk⟩
    have hcall : nestedCall (nestedCall (0, 0) e) e' = (e'.offset + e.offset, e.offset) := by
      simp [nestedCall, hne]
    rw [hcall, readPartitionTable, if_pos (hsize e' he')]

/-- An extended partition in sector 1, with one partition in it, in sector 2. -/
def nestedDisk : Device where
  type := .raw
  size := 3
  sectors s i :=
    if i = 510 then 0x55 else if i = 511 then 0xaa
    else if i = 450 then (if s = 0 then 0x05 else 0x21)
    else if i = 454 ∨ i = 458 then 1 else 0
  size_lt := by decide
  owned := by decide

/-- There is no extended partition in sector 1, and the scan does not end. -/
theorem extended_partition_loops :
    (∀ e ∈ (nestedDisk.table 1).partitions, e.isExtended = false) ∧
      ∀ depth, partitionScan nestedDisk depth = none := by
  refine ⟨by decide +kernel, fun depth => Option.eq_none_iff_forall_ne_some.mpr fun k hk => ?_⟩
  have hext : nestedDisk.Extended ⟨0x05, 1, 1⟩ := by
    unfold Device.Extended
    decide +kernel
  obtain ⟨n, -, k₁, k₂, hk₂, -⟩ := ((readPartitionTable_visits hk).2 (by decide)).2
    (by decide +kernel) _ hext
  exact absurd (shallow_of_returns (by decide +kernel) hext (by decide) hext hk₂) (by decide)

end KernelSanders

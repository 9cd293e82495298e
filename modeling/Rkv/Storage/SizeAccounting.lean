import Rkv.Foundation.MapSum
import Rkv.Storage.MemTable

/-!
# The size of the table

`put` adjusts `size_bytes` by the entry it replaces and the one it stores,
`evict_expired` adds the sizes up again and `drain` starts from 0.  The counter
is the sum of the sizes modulo 2^64 after any of them, so it is the sum as long
as the sum fits.
-/

namespace Rkv.Storage

open Std (ExtTreeMap)
open Rkv.Foundation

inductive TableOp where
  | put (key : String) (value : VersionedValue)
  | delete (key nodeId : String) (now : Int64)
  | evictExpired (now : Int64)
  | drain

namespace MemTable

def apply (table : MemTable) : TableOp → MemTable
  | .put key value => (table.put key value).1
  | .delete key nodeId now => (table.delete key nodeId now).1
  | .evictExpired now => (table.evictExpired now).1
  | .drain => table.drain.1

def runOps (maxSizeBytes : UInt64) (ops : List TableOp) : MemTable :=
  ops.foldl apply (new maxSizeBytes)

/-- Key length, value length and 128 bytes, without a bound. -/
def weight (key : String) (value : VersionedValue) : Nat :=
  key.utf8ByteSize + value.value.length + 128

def storedSize (table : MemTable) : Nat := entrySum weight table.data

theorem entrySize_eq (key : String) (value : VersionedValue) :
    entrySize key value = UInt64.ofNat (weight key value) := rfl

theorem sum_entrySize (entries : List (String × VersionedValue)) :
    (entries.map fun p => entrySize p.1 p.2).sum =
      UInt64.ofNat (entries.map fun p => weight p.1 p.2).sum := by
  induction entries with
  | nil => rfl
  | cons entry entries ih =>
      rw [List.map_cons, List.map_cons, List.sum_cons, List.sum_cons, ih,
        UInt64.ofNat_add, entrySize_eq]

/-- The counter is the sum of the sizes, as far as 64 bits hold it. -/
def Counted (table : MemTable) : Prop :=
  table.sizeBytes = UInt64.ofNat table.storedSize

variable {table : MemTable}

theorem weight_le_storedSize {key : String} {old : VersionedValue}
    (h : table.getRaw key = some old) : weight key old ≤ table.storedSize := by
  rw [storedSize, entrySum_eq_of_getElem? h]
  exact Nat.le_add_right _ _

theorem Counted.put (h : table.Counted) (key : String) (value : VersionedValue) :
    (table.put key value).1.Counted := by
  have hstored : (table.put key value).1.storedSize =
      weight key value + entrySum weight (table.data.erase key) :=
    entrySum_insert
  unfold Counted at h ⊢
  rw [hstored]
  unfold MemTable.put
  cases hold : table.data[key]? with
  | none =>
      dsimp only
      rw [entrySum_erase_of_getElem?_eq_none hold, h, entrySize_eq, add_comm,
        ← UInt64.ofNat_add]
      rfl
  | some old =>
      -- the old weight is part of the sum, so taking it off does not wrap
      dsimp only
      have hsplit : table.storedSize =
          weight key old + entrySum weight (table.data.erase key) :=
        entrySum_eq_of_getElem? hold
      rw [h, hsplit, entrySize_eq, entrySize_eq,
        ← UInt64.ofNat_sub (Nat.le_add_right _ _), Nat.add_sub_cancel_left,
        add_comm, ← UInt64.ofNat_add]

theorem Counted.apply (h : table.Counted) (op : TableOp) :
    (table.apply op).Counted := by
  cases op with
  | put key value => exact h.put key value
  | delete key nodeId now => exact h.put key _
  | evictExpired now => exact sum_entrySize _
  | drain => rfl

theorem counted_runOps (maxSizeBytes : UInt64) (ops : List TableOp) :
    (runOps maxSizeBytes ops).Counted := by
  induction ops using List.reverseRecOn with
  | nil => rfl
  | append_singleton ops op ih =>
      rw [runOps, List.foldl_append]
      exact ih.apply op

theorem maxSizeBytes_runOps (maxSizeBytes : UInt64) (ops : List TableOp) :
    (runOps maxSizeBytes ops).maxSizeBytes = maxSizeBytes := by
  induction ops using List.reverseRecOn with
  | nil => rfl
  | append_singleton ops op ih =>
      rw [runOps, List.foldl_append]
      cases op <;> exact ih

theorem Counted.toNat_sizeBytes (h : table.Counted)
    (hfits : table.storedSize < 2 ^ 64) :
    table.sizeBytes.toNat = table.storedSize := by
  rw [h, UInt64.toNat_ofNat_of_lt' hfits]

theorem Counted.le_sizeBytes_iff (h : table.Counted)
    (hfits : table.storedSize < 2 ^ 64) {bound : UInt64} :
    bound ≤ table.sizeBytes ↔ bound.toNat ≤ table.storedSize := by
  rw [UInt64.le_iff_toNat_le, h.toNat_sizeBytes hfits]

/-- Where the sizes add up to less than 2^64, `size_bytes` is their sum, no entry
that `put` takes off is larger than it, and a put reports a full table exactly
when the sum after it has reached the limit. -/
theorem size_accounting_exact (maxSizeBytes : UInt64) (ops : List TableOp) :
    let table := runOps maxSizeBytes ops
    (table.storedSize < 2 ^ 64 →
      table.sizeBytes.toNat = table.storedSize ∧
        (table.isFull = true ↔ maxSizeBytes.toNat ≤ table.storedSize) ∧
        ∀ key old, table.getRaw key = some old →
          (entrySize key old).toNat =
              key.utf8ByteSize + old.value.length + 128 ∧
            entrySize key old ≤ table.sizeBytes) ∧
      ∀ key value, (table.put key value).1.storedSize < 2 ^ 64 →
        ((table.put key value).2 = true ↔
          maxSizeBytes.toNat ≤ (table.put key value).1.storedSize) := by
  intro table
  have hcounted : table.Counted := counted_runOps maxSizeBytes ops
  have hmax : table.maxSizeBytes = maxSizeBytes :=
    maxSizeBytes_runOps maxSizeBytes ops
  refine ⟨fun hfits => ⟨hcounted.toNat_sizeBytes hfits, ?_, ?_⟩, ?_⟩
  · rw [isFull, decide_eq_true_iff, hmax, hcounted.le_sizeBytes_iff hfits]
  · intro key old hold
    have hweight := weight_le_storedSize hold
    have hsize : (entrySize key old).toNat = weight key old :=
      UInt64.toNat_ofNat_of_lt' (hweight.trans_lt hfits)
    exact ⟨hsize, (hcounted.le_sizeBytes_iff hfits).mpr (hsize ▸ hweight)⟩
  · intro key value hfits
    change decide (table.maxSizeBytes ≤ (table.put key value).1.sizeBytes) =
      true ↔ _
    rw [decide_eq_true_iff, hmax, (hcounted.put key value).le_sizeBytes_iff hfits]

/-- An overwrite, a delete, an eviction and a drain, and the put that fills a
table of 130 bytes. -/
theorem size_accounting_overwrites :
    let value := VersionedValue.new [1, 2, 3] "node1" 0 1700000000000
    let table := runOps 130
      [.put "a" value, .put "b" value, .drain, .put "a" value,
        .put "a" (.new [1] "node1" 1000 1700000000000),
        .delete "b" "node1" 1700000000000, .evictExpired 1700000100000]
    table.storedSize = 129 ∧ table.sizeBytes.toNat = table.storedSize ∧
      table.isFull = false ∧ (table.put "a" value).2 = true := by
  intro value table
  obtain ⟨hsize, hput⟩ := size_accounting_exact 130
    [.put "a" value, .put "b" value, .drain, .put "a" value,
      .put "a" (.new [1] "node1" 1000 1700000000000),
      .delete "b" "node1" 1700000000000, .evictExpired 1700000100000]
  have hstored : table.storedSize = 129 := by decide +kernel
  obtain ⟨hcount, hfull, -⟩ := hsize (by rw [hstored]; decide)
  refine ⟨hstored, hcount, ?_, (hput "a" value ?_).mpr ?_⟩
  · rw [Bool.eq_false_iff, Ne, hfull, hstored]
    decide
  · decide +kernel
  · decide +kernel

end MemTable

end Rkv.Storage

import Mathlib

/-!
# Quorums

`replication/quorum.rs`, and the counting fact behind `R + W > N`.  The fields
are `u32` values and their sum wraps.
-/

namespace Rkv.Replication

structure QuorumConfig where
  replicationFactor : Nat
  readQuorum : Nat
  writeQuorum : Nat

namespace QuorumConfig

def defaultStrong : QuorumConfig := ⟨3, 2, 2⟩

def eventual : QuorumConfig := ⟨3, 1, 1⟩

def isStronglyConsistent (q : QuorumConfig) : Bool :=
  decide (q.replicationFactor < (q.readQuorum + q.writeQuorum) % 2 ^ 32)

/-- An override of 0 stands for the default. -/
def effectiveReadQuorum (q : QuorumConfig) (overrideR : Nat) : Nat :=
  if 0 < overrideR then overrideR else q.readQuorum

def effectiveWriteQuorum (q : QuorumConfig) (overrideW : Nat) : Nat :=
  if 0 < overrideW then overrideW else q.writeQuorum

end QuorumConfig

structure QuorumResult (α : Type) where
  value : Option α
  successes : Nat
  failures : Nat
  required : Nat

def QuorumResult.isSuccess {α : Type} (r : QuorumResult α) : Bool :=
  decide (r.required ≤ r.successes)

/-- Two counts that together exceed a list overlap in it. -/
theorem exists_mem_of_length_lt_countP {α : Type*} {l : List α}
    {p q : α → Bool} (h : l.length < l.countP p + l.countP q) :
    ∃ a ∈ l, p a = true ∧ q a = true := by
  induction l with
  | nil => simp at h
  | cons a l ih =>
      by_cases hp : p a = true
      · by_cases hq : q a = true
        · exact ⟨a, by simp, hp, hq⟩
        · simp only [List.countP_cons, hp, hq, List.length_cons, if_true] at h
          obtain ⟨b, hb, hboth⟩ := ih (by simp at h; omega)
          exact ⟨b, by simp [hb], hboth⟩
      · simp only [List.countP_cons, hp, List.length_cons] at h
        have hle : (if q a = true then 1 else 0) ≤ 1 := by
          split <;> omega
        obtain ⟨b, hb, hboth⟩ := ih (by simp at h hle; omega)
        exact ⟨b, by simp [hb], hboth⟩

end Rkv.Replication

import Mathlib

/-!
# Replaying a log of writes over a map

A log is a list of key-value pairs, oldest first.  Replaying it over a map
leaves at each key the last write to that key, and the map's own entry where
the log has none.  Appending to a log and replaying in two parts both reduce to
`lastWrite`.
-/

namespace Rkv.Foundation

variable {K V : Type*} [DecidableEq K]

def lastWrite (key : K) : List (K × V) → Option V
  | [] => none
  | (k, v) :: rest => (lastWrite key rest).or (if k = key then some v else none)

/-- What a key holds after replaying a log over a map. -/
def overlay (log : List (K × V)) (base : K → Option V) (key : K) : Option V :=
  (lastWrite key log).or (base key)

@[simp] theorem lastWrite_nil (key : K) :
    lastWrite key ([] : List (K × V)) = none := rfl

theorem lastWrite_append (key : K) (first second : List (K × V)) :
    lastWrite key (first ++ second) =
      (lastWrite key second).or (lastWrite key first) := by
  induction first with
  | nil => simp
  | cons write first ih =>
      rw [List.cons_append, lastWrite, ih, lastWrite, Option.or_assoc]

@[simp] theorem overlay_nil (base : K → Option V) (key : K) :
    overlay [] base key = base key := rfl

theorem overlay_concat (log : List (K × V)) (base : K → Option V)
    (k : K) (v : V) (key : K) :
    overlay (log ++ [(k, v)]) base key =
      if k = key then some v else overlay log base key := by
  simp only [overlay, lastWrite_append, lastWrite, Option.none_or]
  split <;> simp

theorem overlay_of_lastWrite_eq_none {log : List (K × V)} {key : K}
    (h : lastWrite key log = none) (base : K → Option V) :
    overlay log base key = base key := by
  simp [overlay, h]

theorem overlay_of_lastWrite_eq_some {log : List (K × V)} {key : K} {v : V}
    (h : lastWrite key log = some v) (base : K → Option V) :
    overlay log base key = some v := by
  simp [overlay, h]

theorem mem_of_lastWrite_eq_some {log : List (K × V)} {key : K} {v : V}
    (h : lastWrite key log = some v) : (key, v) ∈ log := by
  induction log with
  | nil => simp at h
  | cons write log ih =>
      obtain ⟨k, w⟩ := write
      rw [lastWrite, Option.or_eq_some_iff] at h
      rcases h with h | ⟨-, h⟩
      · exact List.mem_cons_of_mem _ (ih h)
      · split at h
        · rename_i hk
          cases h
          simp [hk]
        · contradiction

theorem ne_of_lastWrite_eq_none {log : List (K × V)} {key : K}
    (h : lastWrite key log = none) {write : K × V} (hmem : write ∈ log) :
    write.1 ≠ key := by
  induction log with
  | nil => simp at hmem
  | cons head log ih =>
      obtain ⟨k, w⟩ := head
      rw [lastWrite, Option.or_eq_none_iff] at h
      rcases List.mem_cons.mp hmem with rfl | hmem
      · intro hk
        simp [show k = key from hk] at h
      · exact ih h.1 hmem

theorem lastWrite_of_nodup {log : List (K × V)}
    (hnodup : (log.map Prod.fst).Nodup) {key : K} {v : V}
    (hmem : (key, v) ∈ log) : lastWrite key log = some v := by
  cases hlast : lastWrite key log with
  | none => exact absurd rfl (ne_of_lastWrite_eq_none hlast hmem)
  | some w =>
      have hfound := mem_of_lastWrite_eq_some hlast
      have hsame := List.inj_on_of_nodup_map hnodup hfound hmem rfl
      rw [(Prod.mk.inj hsame).2]

end Rkv.Foundation

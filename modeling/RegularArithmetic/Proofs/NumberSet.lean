import RegularArithmetic.NumberSet
import Mathlib.Tactic.Common

/-!
Membership in the sets that are made from others. A set is determined by its members.
-/

set_option autoImplicit false

namespace RegularArithmetic

theorem eq_of_increasing {l l' : List Nat} (h : l.Pairwise (· < ·)) (h' : l'.Pairwise (· < ·))
    (hmem : ∀ n, n ∈ l ↔ n ∈ l') : l = l' := by
  have hnodup : ∀ {l : List Nat}, l.Pairwise (· < ·) → l.Nodup := fun h => h.imp Nat.ne_of_lt
  have hperm : l.Perm l' := (List.perm_ext_iff_of_nodup (hnodup h) (hnodup h')).2 hmem
  exact hperm.eq_of_pairwise (fun a b _ _ hab hba => absurd hab (Nat.lt_asymm hba)) h h'

namespace NumberSet

variable {s t : NumberSet} {n : Nat}

@[simp] theorem not_mem_empty : n ∉ (∅ : NumberSet) := List.not_mem_nil

theorem mem_insertAll {l : List Nat} : n ∈ s.insertAll l ↔ n ∈ l ∨ n ∈ s := by
  induction l generalizing s with
  | nil => simp [insertAll]
  | cons m l ih =>
    have hstep : s.insertAll (m :: l) = (s.insert m).insertAll l := rfl
    rw [hstep, ih, mem_insert, List.mem_cons]
    tauto

theorem mem_ofList {l : List Nat} : n ∈ ofList l ↔ n ∈ l := by
  have hofList : ofList l = insertAll ∅ l := rfl
  simp [hofList, mem_insertAll]

theorem mem_union : n ∈ s.union t ↔ n ∈ s ∨ n ∈ t := by
  rw [union, mem_insertAll, or_comm]
  rfl

theorem mem_image {f : Nat → Nat} : n ∈ s.image f ↔ ∃ m ∈ s, f m = n := by
  rw [image, mem_ofList, List.mem_map]
  rfl

theorem mem_diff : n ∈ s.diff t ↔ n ∈ s ∧ n ∉ t := by
  simp [mem_def, diff]

theorem isEmpty_iff : s.isEmpty = true ↔ ∀ n, n ∉ s := by
  rw [isEmpty, List.isEmpty_iff, List.eq_nil_iff_forall_not_mem]
  rfl

end NumberSet

end RegularArithmetic

import Mathlib.Algebra.Group.Nat.Defs
import Mathlib.Tactic.Common
import RegularArithmetic.Store.DirectMapped
import RegularArithmetic.Store.Interner

/-!
What one step of the interning table and of the direct-mapped table does. A value that is put in
is found or linked behind its bucket; links lead from number to later number of one bucket, so that
they can be followed to their end. A look-up is answered by the entry last inserted on its line, if
that entry has the same key.
-/

set_option autoImplicit false

namespace RegularArithmetic.Store

universe u v

theorem lineOf_eq_mod {α : Type u} [Keyed α] {bits : Nat} (h : bits ≤ 31) (v : α) :
    lineOf bits v = (key v).toNat % 2 ^ bits := by
  have hpos : 0 < 2 ^ bits := Nat.two_pow_pos bits
  have hbits : 2 ^ bits ≤ 2 ^ 31 := Nat.pow_le_pow_right (by decide) h
  have hmask : (UInt64.ofNat (2 ^ bits - 1)).toNat = 2 ^ bits - 1 :=
    UInt64.toNat_ofNat_of_lt (by simp only [UInt64.size]; omega)
  rw [lineOf, Nat.pow_eq, UInt64.toNat_and, hmask, Nat.and_two_pow_sub_one_eq_mod]

theorem lineOf_lt {α : Type u} [Keyed α] {bits : Nat} (h : bits ≤ 31) (v : α) :
    lineOf bits v < 2 ^ bits := by
  rw [lineOf_eq_mod h]
  exact Nat.mod_lt _ (Nat.two_pow_pos bits)

namespace Interner

variable {α : Type u} {t t' : Interner α} {v w : α} {b i j k : Nat} {l : List Nat}

theorem get?_empty (bits i : Nat) : (empty bits : Interner α).get? i = none := by
  cases i <;> simp [get?, cell?, empty]

theorem cell?_add : (t.add v).2.cell? i = if i = t.size + 1 then some ⟨v, 0⟩ else t.cell? i := by
  cases i with
  | zero => simp [cell?]
  | succ i => simp only [cell?, add, size, Array.getElem?_push, Nat.add_right_cancel_iff]

theorem cell?_link (hj : j ≠ 0) : (t.link j i).cell? k =
    (t.cell? k).map fun c => if k = j then { c with next := i } else c := by
  cases k with
  | zero => rfl
  | succ k =>
    simp only [cell?, link, Array.getElem?_modify]
    by_cases hk : j - 1 = k
    · rw [if_pos hk]
      simp [show k + 1 = j by omega]
    · rw [if_neg hk]
      simp [show k + 1 ≠ j by omega]

theorem get?_add (i : Nat) :
    (t.add v).2.get? i = if i = t.size + 1 then some v else t.get? i := by
  simp only [get?, cell?_add]
  split <;> rfl

theorem next?_add (i : Nat) :
    (t.add v).2.next? i = if i = t.size + 1 then some 0 else t.next? i := by
  simp only [next?, cell?_add]
  split <;> rfl

theorem get?_link (hj : j ≠ 0) (k : Nat) : (t.link j i).get? k = t.get? k := by
  simp only [get?, cell?_link hj, Option.map_map]
  congr 1
  funext c
  simp only [Function.comp]
  split <;> rfl

theorem next?_link (hj : j ≠ 0) (k : Nat) :
    (t.link j i).next? k = (t.next? k).map fun n => if k = j then i else n := by
  simp only [next?, cell?_link hj, Option.map_map]
  congr 1
  funext c
  simp only [Function.comp]
  split <;> rfl

theorem get?_eq_none_of_lt (h : t.size < i) : t.get? i = none := by
  obtain ⟨i, rfl⟩ : ∃ j, i = j + 1 := ⟨i - 1, by omega⟩
  simp only [get?, cell?, size] at *
  rw [Array.getElem?_eq_none (by omega), Option.map_none]

theorem le_size_of_get? (h : t.get? i = some v) : i ≠ 0 ∧ i ≤ t.size := by
  constructor
  · rintro rfl
    cases h
  · by_contra hlt
    rw [get?_eq_none_of_lt (by omega)] at h
    cases h

theorem exists_get? (h0 : i ≠ 0) (hi : i ≤ t.size) : ∃ v, t.get? i = some v := by
  obtain ⟨i, rfl⟩ : ∃ j, i = j + 1 := ⟨i - 1, by omega⟩
  simp only [get?, cell?, size] at *
  exact ⟨t.cells[i].value, by rw [Array.getElem?_eq_getElem (by omega), Option.map_some]⟩

theorem exists_next? (h : t.get? i = some v) : ∃ j, t.next? i = some j := by
  simp only [get?, Option.map_eq_some_iff] at h
  obtain ⟨c, hc, -⟩ := h
  exact ⟨c.next, by rw [next?, hc, Option.map_some]⟩

/-- The numbers met when the links are followed from a number on until there is none. -/
inductive Chain (t : Interner α) : Nat → List Nat → Prop
  | done : Chain t 0 []
  | next {i j : Nat} {l : List Nat} : t.next? i = some j → Chain t j l → Chain t i (i :: l)

namespace Chain

theorem unique (h : t.Chain i l) {m : List Nat} (h' : t.Chain i m) : l = m := by
  induction h generalizing m with
  | done =>
    cases h' with
    | done => rfl
    | next hnext _ => cases hnext
  | next hnext _ ih =>
    cases h' with
    | done => cases hnext
    | next hnext' h' =>
      rw [hnext] at hnext'
      cases hnext'
      rw [ih h']

/-- Only the links of the numbers that are met matter. -/
theorem congr (h : t.Chain i l) (ht : ∀ k ∈ l, t'.next? k = t.next? k) : t'.Chain i l := by
  induction h with
  | done => exact .done
  | next hnext _ ih =>
    rw [List.forall_mem_cons] at ht
    exact .next (ht.1.trans hnext) (ih ht.2)

/-- When the last number met is linked to one without a link, that one is met as well. -/
theorem link (h : t.Chain i l) (hl : l.Nodup) (hlast : l.getLast? = some j) (hj : j ≠ 0)
    (hkj : k ≠ j) (hk : t.next? k = some 0) : (t.link j k).Chain i (l ++ [k]) := by
  have hnext : ∀ m n, t.next? m = some n →
      (t.link j k).next? m = some (if m = j then k else n) := by
    intro m n hm
    rw [next?_link hj, hm, Option.map_some]
  induction h with
  | done => cases hlast
  | @next i i' l hi h ih =>
    obtain ⟨hil, hl⟩ := List.nodup_cons.1 hl
    cases h with
    | done =>
      obtain rfl : i = j := by simpa using hlast
      refine .next (by rw [hnext _ _ hi, if_pos rfl]) (.next (j := 0) ?_ .done)
      rw [hnext _ _ hk, if_neg hkj]
    | next _ _ =>
      rw [List.getLast?_cons_cons] at hlast
      have hij : i ≠ j := fun h => hil (h ▸ List.mem_of_getLast? hlast)
      exact .next (by rw [hnext _ _ hi, if_neg hij]) (ih hl hlast)

theorem linkedFrom_eq (h : t.Chain i l) {fuel : Nat} (hfuel : l.length ≤ fuel) :
    t.linkedFrom fuel i = l := by
  induction h generalizing fuel with
  | done => cases fuel <;> rfl
  | next hnext _ ih =>
    cases fuel with
    | zero => cases hfuel
    | succ fuel =>
      rw [linkedFrom, hnext]
      exact congrArg _ (ih (Nat.le_of_succ_le_succ hfuel))

end Chain

variable [Keyed α]

/-- Number `i` is that of a value which falls into bucket `b`. -/
def InBucket (t : Interner α) (b i : Nat) : Prop :=
  ∃ v, t.get? i = some v ∧ lineOf t.bits v = b

theorem InBucket.unique {c : Nat} (h : t.InBucket b i) (h' : t.InBucket c i) : b = c := by
  obtain ⟨v, hv, rfl⟩ := h
  obtain ⟨w, hw, rfl⟩ := h'
  rw [Option.some.inj (hv.symm.trans hw)]

theorem InBucket.le_size (h : t.InBucket b i) : i ≠ 0 ∧ i ≤ t.size := by
  obtain ⟨v, hv, -⟩ := h
  exact le_size_of_get? hv

theorem inBucket_add : (t.add v).2.InBucket b i ↔
    if i = t.size + 1 then lineOf t.bits v = b else t.InBucket b i := by
  simp only [InBucket, get?_add, show (t.add v).2.bits = t.bits from rfl]
  split <;> simp

theorem inBucket_link (hj : j ≠ 0) : (t.link j i).InBucket b k ↔ t.InBucket b k := by
  simp only [InBucket, get?_link hj, show (t.link j i).bits = t.bits from rfl]

/-- The table has the buckets that its bits say. A bucket starts with one of its numbers, and a
link leads to a later number of the same bucket. -/
structure Shaped (t : Interner α) : Prop where
  bits_le : t.bits ≤ 31
  size_heads : t.heads.size = 2 ^ t.bits
  head : ∀ b i, t.heads[b]? = some i → i = 0 ∨ t.InBucket b i
  next : ∀ b i j, t.InBucket b i → t.next? i = some j → j = 0 ∨ i < j ∧ t.InBucket b j

theorem bucket_congr (h : lineOf t.bits w = lineOf t.bits v) : t.bucket w = t.bucket v := by
  rw [bucket, bucket, first, first, h]

namespace Shaped

theorem empty (bits : Nat) : (empty bits : Interner α).Shaped := by
  refine ⟨?_, ?_, fun b i hi => .inl ?_, fun b i j hi _ => ?_⟩
  · simp only [Interner.empty]
    omega
  · simp [Interner.empty]
  · simp only [Interner.empty, Array.getElem?_replicate] at hi
    split at hi <;> cases hi
    rfl
  · obtain ⟨v, hv, -⟩ := hi
    rw [get?_empty] at hv
    cases hv

theorem add (h : t.Shaped) (v : α) : (t.add v).2.Shaped := by
  have hold : ∀ b i, t.InBucket b i → (t.add v).2.InBucket b i := by
    intro b i hi
    have := hi.le_size
    rwa [inBucket_add, if_neg (by omega)]
  refine ⟨h.bits_le, h.size_heads, fun b i hi => (h.head b i hi).imp_right (hold b i), ?_⟩
  intro b i j hi hj
  rw [inBucket_add] at hi
  rw [next?_add] at hj
  split at hi
  · rw [if_pos ‹_›] at hj
    exact .inl (Option.some.inj hj).symm
  · rw [if_neg ‹_›] at hj
    exact (h.next b i j hi hj).imp_right fun ⟨hlt, hj⟩ => ⟨hlt, hold b j hj⟩

theorem link (h : t.Shaped) (hj : t.InBucket b j) (hi : t.InBucket b i) (hji : j < i) :
    (t.link j i).Shaped := by
  have hj0 := hj.le_size.1
  refine ⟨h.bits_le, h.size_heads, fun c k hk => ?_, fun c k m hk hm => ?_⟩
  · rw [inBucket_link hj0]
    exact h.head c k hk
  · rw [inBucket_link hj0] at hk ⊢
    rw [next?_link hj0, Option.map_eq_some_iff] at hm
    obtain ⟨n, hn, rfl⟩ := hm
    split
    · subst k
      rw [hk.unique hj]
      exact .inr ⟨hji, hi⟩
    · exact h.next c k n hk hn

theorem start (h : t.Shaped) (hi : t.InBucket (lineOf t.bits v) i) : (t.start v i).Shaped := by
  refine ⟨h.bits_le, by simpa [Interner.start] using h.size_heads, fun c k hk => ?_, h.next⟩
  simp only [Interner.start, Array.getElem?_setIfInBounds] at hk
  split at hk
  · split at hk <;> cases hk
    exact .inr (‹_ = c› ▸ hi)
  · exact h.head c k hk

theorem exists_chain (h : t.Shaped) {i : Nat} (hi : t.InBucket b i) :
    ∃ l, t.Chain i l ∧ (∀ k ∈ l, i ≤ k ∧ t.InBucket b k) ∧ l.Nodup ∧ l.length + i ≤ t.size + 1 := by
  have hle := hi.le_size
  obtain ⟨j, hj⟩ : ∃ j, t.next? i = some j := exists_next? hi.choose_spec.1
  obtain rfl | ⟨hlt, hjb⟩ := h.next b i j hi hj
  · exact ⟨[i], .next hj .done, by simp [hi], by simp, by simp; omega⟩
  · have := hjb.le_size
    obtain ⟨l, hl, hmem, hnodup, hlength⟩ := exists_chain h hjb
    refine ⟨i :: l, .next hj hl, ?_, ?_, by rw [List.length_cons]; omega⟩
    · rintro k (_ | ⟨_, hk⟩)
      · exact ⟨Nat.le_refl i, hi⟩
      · exact ⟨by have := (hmem k hk).1; omega, (hmem k hk).2⟩
    · exact List.nodup_cons.2 ⟨fun h => by have := (hmem i h).1; omega, hnodup⟩
termination_by t.size - i

theorem exists_chain_head (h : t.Shaped) (hb : t.heads[b]? = some i) :
    ∃ l, t.Chain i l ∧ (∀ k ∈ l, t.InBucket b k) ∧ l.Nodup ∧ l.length ≤ t.size := by
  obtain rfl | hi := h.head b i hb
  · exact ⟨[], .done, by simp, by simp, by simp⟩
  · have := hi.le_size
    obtain ⟨l, hl, hmem, hnodup, hlength⟩ := h.exists_chain hi
    exact ⟨l, hl, fun k hk => (hmem k hk).2, hnodup, by omega⟩

theorem lineOf_lt_size (h : t.Shaped) (v : α) : lineOf t.bits v < t.heads.size := by
  rw [h.size_heads]
  exact lineOf_lt h.bits_le v

theorem getElem?_heads (h : t.Shaped) (v : α) : t.heads[lineOf t.bits v]? = some (t.first v) := by
  rw [first, Array.getD_eq_getD_getElem?, Array.getElem?_eq_getElem (h.lineOf_lt_size v),
    Option.getD_some]

theorem bucket_spec (h : t.Shaped) (v : α) : t.Chain (t.first v) (t.bucket v) ∧
    (∀ i ∈ t.bucket v, t.InBucket (lineOf t.bits v) i) ∧ (t.bucket v).Nodup := by
  obtain ⟨l, hl, hmem, hnodup, hlength⟩ := h.exists_chain_head (h.getElem?_heads v)
  rw [bucket, hl.linkedFrom_eq hlength]
  exact ⟨hl, hmem, hnodup⟩

theorem bucket_eq (h : t.Shaped) (hl : t.Chain (t.first v) l) : t.bucket v = l :=
  (h.bucket_spec v).1.unique hl

theorem bucket_add (h : t.Shaped) (v w : α) : (t.add v).2.bucket w = t.bucket w := by
  obtain ⟨hchain, hmem, -⟩ := h.bucket_spec w
  refine (h.add v).bucket_eq (hchain.congr fun k hk => ?_)
  have := (hmem k hk).le_size
  rw [next?_add, if_neg (by omega)]

theorem bucket_start (h : t.Shaped) (hi : t.InBucket (lineOf t.bits v) i)
    (hnext : t.next? i = some 0) (w : α) : (t.start v i).bucket w =
      if lineOf t.bits w = lineOf t.bits v then [i] else t.bucket w := by
  have hfirst : (t.start v i).first w =
      if lineOf t.bits w = lineOf t.bits v then i else t.first w := by
    simp only [first, Interner.start, Array.getD_eq_getD_getElem?, Array.getElem?_setIfInBounds,
      if_pos (h.lineOf_lt_size v), eq_comm (a := lineOf t.bits w)]
    split <;> rfl
  refine (h.start hi).bucket_eq ?_
  rw [hfirst]
  split
  · exact .next hnext .done
  · exact (h.bucket_spec w).1.congr fun _ _ => rfl

theorem bucket_link (h : t.Shaped) (hlast : (t.bucket v).getLast? = some j)
    (hi : t.InBucket (lineOf t.bits v) i) (hji : j < i) (hnext : t.next? i = some 0) (w : α) :
    (t.link j i).bucket w =
      if lineOf t.bits w = lineOf t.bits v then t.bucket w ++ [i] else t.bucket w := by
  have hj := (h.bucket_spec v).2.1 j (List.mem_of_getLast? hlast)
  obtain ⟨hchain, hmem, hnodup⟩ := h.bucket_spec w
  refine (h.link hj hi hji).bucket_eq ?_
  change (t.link j i).Chain (t.first w) _
  split
  · rw [← bucket_congr ‹_›] at hlast
    exact hchain.link hnodup hlast hj.le_size.1 (by omega) hnext
  · refine hchain.congr fun k hk => ?_
    have hkj : k ≠ j := by
      rintro rfl
      exact ‹¬_› ((hmem k hk).unique hj)
    rw [next?_link hj.le_size.1]
    simp [hkj]

end Shaped

/-- The table `t'` has one more value, which is linked behind its bucket. -/
structure Appended (t : Interner α) (v : α) (t' : Interner α) : Prop where
  shaped : t'.Shaped
  new : ∀ i ∈ t.bucket v, t.get? i ≠ some v
  get?_eq : ∀ i, t'.get? i = if i = t.size + 1 then some v else t.get? i
  bucket_eq : ∀ w, t'.bucket w =
    if lineOf t.bits w = lineOf t.bits v then t.bucket w ++ [t.size + 1] else t.bucket w

namespace Appended

theorem get?_last (h : t.Appended v t') : t'.get? (t.size + 1) = some v := by
  rw [h.get?_eq, if_pos rfl]

theorem get?_of_some (h : t.Appended v t') (hi : t.get? i = some w) : t'.get? i = some w := by
  have := (le_size_of_get? hi).2
  rw [h.get?_eq, if_neg (by omega), hi]

theorem cases (h : t.Appended v t') (hi : t'.get? i = some w) :
    i = t.size + 1 ∧ w = v ∨ t.get? i = some w := by
  rw [h.get?_eq] at hi
  split at hi
  · exact .inl ⟨‹_›, (Option.some.inj hi).symm⟩
  · exact .inr hi

theorem size_eq (h : t.Appended v t') : t'.size = t.size + 1 := by
  have hle := (le_size_of_get? h.get?_last).2
  obtain ⟨w, hw⟩ := exists_get? (t := t') (i := t'.size) (by omega) (Nat.le_refl _)
  obtain ⟨hsize, -⟩ | hold := h.cases hw
  · exact hsize
  · have := (le_size_of_get? hold).2
    omega

theorem linked (h : t.Appended v t') (hlinked : t.get? i = some w → i ∈ t.bucket w)
    (hi : t'.get? i = some w) : i ∈ t'.bucket w := by
  rw [h.bucket_eq]
  obtain ⟨rfl, rfl⟩ | hold := h.cases hi
  · rw [if_pos rfl]
    exact List.mem_append_right _ List.mem_cons_self
  · split
    · exact List.mem_append_left _ (hlinked hold)
    · exact hlinked hold

theorem unique (h : t.Appended v t') (hilinked : t.get? i = some w → i ∈ t.bucket w)
    (hjlinked : t.get? j = some w → j ∈ t.bucket w)
    (hold : t.get? i = some w → t.get? j = some w → i = j)
    (hi : t'.get? i = some w) (hj : t'.get? j = some w) : i = j := by
  obtain ⟨rfl, rfl⟩ | hi := h.cases hi
  · obtain ⟨rfl, -⟩ | hj := h.cases hj
    · rfl
    · exact absurd hj (h.new j (hjlinked hj))
  · obtain ⟨-, rfl⟩ | hj := h.cases hj
    · exact absurd hi (h.new i (hilinked hi))
    · exact hold hi hj

end Appended

variable [DecidableEq α]

theorem find?_eq_some (h : t.find? v = some i) : t.get? i = some v := by
  simpa using List.find?_some h

theorem find?_eq_none (h : t.find? v = none) (hi : i ∈ t.bucket v) : t.get? i ≠ some v := by
  simp only [find?, List.find?_eq_none] at h
  simpa using h i hi

theorem put_cases (v : α) (h : t.Shaped) :
    (∃ i, t.put v = (i, t) ∧ t.get? i = some v) ∨
    ∃ t', t.put v = (t.size + 1, t') ∧ t.Appended v t' := by
  cases hfind : t.find? v with
  | some i => exact .inl ⟨i, by simp only [put, hfind], find?_eq_some hfind⟩
  | none =>
    have hnew : (t.add v).2.InBucket (lineOf t.bits v) (t.size + 1) := by
      rw [inBucket_add, if_pos rfl]
    have hnext : (t.add v).2.next? (t.size + 1) = some 0 := by rw [next?_add, if_pos rfl]
    cases hlast : (t.bucket v).getLast? with
    | none =>
      refine .inr ⟨(t.add v).2.start v (t.size + 1), by simp only [put, hfind, hlast]; rfl,
        (h.add v).start hnew, fun i => find?_eq_none hfind, get?_add, fun w => ?_⟩
      rw [(h.add v).bucket_start hnew hnext, h.bucket_add]
      refine ite_congr rfl (fun hw => ?_) fun _ => rfl
      rw [bucket_congr hw, List.getLast?_eq_none_iff.1 hlast, List.nil_append]
    | some j =>
      have hj := (h.bucket_spec v).2.1 j (List.mem_of_getLast? hlast)
      have hlt : j < t.size + 1 := by have := hj.le_size; omega
      refine .inr ⟨(t.add v).2.link j (t.size + 1), by simp only [put, hfind, hlast]; rfl,
        ?_, fun i => find?_eq_none hfind, fun i => ?_, fun w => ?_⟩
      · exact (h.add v).link (inBucket_add.2 (by rwa [if_neg (by omega)])) hnew hlt
      · rw [get?_link hj.le_size.1, get?_add]
      · rw [(h.add v).bucket_link (by rwa [h.bucket_add]) hnew hlt hnext, h.bucket_add]
        rfl

end Interner

namespace DirectMapped

variable {κ : Type u} {ν : Type v} [Keyed κ] [DecidableEq κ]

theorem peek_eq_none {t : DirectMapped κ ν} {n : Nat} (h : t.lines = Array.replicate n none)
    (k : κ) : t.peek k = none := by
  simp only [peek, h, Array.getElem?_replicate]
  split
  · rename_i heq
    split at heq <;> cases heq
  · rfl

theorem peek_empty (bits : Nat) (k : κ) : (empty bits : DirectMapped κ ν).peek k = none :=
  peek_eq_none rfl k

theorem peek_clear (t : DirectMapped κ ν) (k : κ) : t.clear.peek k = none :=
  peek_eq_none rfl k

theorem peek_insert {t : DirectMapped κ ν} {k l : κ} {v w : ν}
    (h : (t.insert k v).peek l = some w) : (l = k ∧ w = v) ∨ t.peek l = some w := by
  simp only [peek, insert, Array.getElem?_setIfInBounds] at h
  by_cases hline : lineOf t.bits k = lineOf t.bits l
  · rw [if_pos hline] at h
    split at h <;> rename_i heq
    · split at heq <;> simp only [Option.some.injEq, Prod.mk.injEq, reduceCtorEq] at heq
      obtain ⟨rfl, rfl⟩ := heq
      split at h <;> simp_all
    · cases h
  · rw [if_neg hline] at h
    exact .inr (by simpa only [peek] using h)

@[simp] theorem peek_find {t : DirectMapped κ ν} (k l : κ) : (t.find k).2.peek l = t.peek l := by
  simp only [find]
  split <;> rfl

@[simp] theorem find_fst {t : DirectMapped κ ν} (k : κ) : (t.find k).1 = t.peek k := by
  simp only [find]
  split <;> simp_all

end DirectMapped

end RegularArithmetic.Store

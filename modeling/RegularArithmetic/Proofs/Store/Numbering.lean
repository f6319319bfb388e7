import Mathlib.Data.Finset.Card
import RegularArithmetic.Proofs.Store.Interner

/-!
A table into which values were only put, never just added, numbers them: equal values have one
number, unequal ones two, and the numbers are 1, 2, 3, … in the order in which the values first
came. Whatever the keys of the values are, the links of a bucket lead through all its values.
-/

set_option autoImplicit false

namespace RegularArithmetic.Store

/-! ### Numbers in the order of their first use -/

section

variable {is : List Nat} {n i : Nat}

theorem mem_iff_of_ascending (h : is.eraseDups = List.range' 1 n) :
    i ∈ is ↔ i ≠ 0 ∧ i ≤ n := by
  rw [← List.mem_eraseDups, h, List.mem_range'_1]
  omega

theorem ascending_again (h : is.eraseDups = List.range' 1 n) (hi : i ≠ 0 ∧ i ≤ n) :
    (is ++ [i]).eraseDups = List.range' 1 n := by
  rw [List.eraseDups_append, h]
  simp [List.removeAll, (mem_iff_of_ascending h).2 hi]

theorem ascending_next (h : is.eraseDups = List.range' 1 n) :
    (is ++ [n + 1]).eraseDups = List.range' 1 (n + 1) := by
  have hnew : n + 1 ∉ is := fun hmem => by
    have := (mem_iff_of_ascending h).1 hmem
    omega
  have hremove : List.removeAll [n + 1] is = [n + 1] := by simp [List.removeAll, hnew]
  rw [List.eraseDups_append, h, hremove, List.range'_concat, Nat.one_mul, Nat.add_comm 1]
  rfl

end

namespace Interner

universe u

variable {α : Type u} [Keyed α]

/-- Every value is linked to its bucket, and none is stored twice. -/
structure Interned (t : Interner α) : Prop extends t.Shaped where
  linked : ∀ i v, t.get? i = some v → i ∈ t.bucket v
  unique : ∀ i j v, t.get? i = some v → t.get? j = some v → i = j

theorem Interned.empty (bits : Nat) : (empty bits : Interner α).Interned where
  toShaped := .empty bits
  linked i v hv := by
    rw [get?_empty] at hv
    cases hv
  unique i j v hv := by
    rw [get?_empty] at hv
    cases hv

variable {t : Interner α} {v : α} {i : Nat} {vs us : List α} {is : List Nat}

theorem Interned.chain_iff (h : t.Interned) {b : Nat} (hb : t.heads[b]? = some i) :
    ∃ l, t.Chain i l ∧ ∀ j, j ∈ l ↔ t.InBucket b j := by
  obtain ⟨l, hl, hmem, -, -⟩ := h.exists_chain_head hb
  refine ⟨l, hl, fun j => ⟨hmem j, ?_⟩⟩
  rintro ⟨v, hv, rfl⟩
  rw [h.getElem?_heads, Option.some.injEq] at hb
  subst hb
  rw [← h.bucket_eq hl]
  exact h.linked j v hv

variable [DecidableEq α]

/-- What is put in is stored already, or it gets the next number. -/
theorem Interned.put (h : t.Interned) (v : α) : ∃ i t', t.put v = (i, t') ∧ t'.Interned ∧
    (t' = t ∧ t.get? i = some v ∨ i = t.size + 1 ∧ t.Appended v t') := by
  rcases put_cases v h.toShaped with ⟨i, hput, hi⟩ | ⟨t', hput, happended⟩
  · exact ⟨i, t, hput, h, .inl ⟨rfl, hi⟩⟩
  · refine ⟨_, t', hput, ⟨happended.shaped, ?_, ?_⟩, .inr ⟨rfl, happended⟩⟩
    · intro i w
      exact happended.linked (h.linked i w)
    · intro i j w
      exact happended.unique (h.linked i w) (h.linked j w) (h.unique i j w)

/-- The values are put in one after the other, each of which gives a number. -/
def putAll (t : Interner α) : List α → List Nat × Interner α
  | [] => ([], t)
  | v :: vs =>
    let (i, t) := t.put v
    let (is, t) := t.putAll vs
    (i :: is, t)

theorem Interned.get?_putAll (h : t.Interned) (hi : t.get? i = some v) (us : List α) :
    (t.putAll us).2.get? i = some v := by
  induction us generalizing t with
  | nil => exact hi
  | cons u us ih =>
    obtain ⟨k, t', hput, ht', hcases⟩ := h.put u
    simp only [putAll, hput]
    refine ih ht' ?_
    obtain ⟨rfl, -⟩ | ⟨-, happended⟩ := hcases
    · exact hi
    · exact happended.get?_of_some hi

/-- The table holds the values `vs` and no others. They were put in one after the other, which
gave the numbers `is`. -/
structure Numbers (t : Interner α) (vs : List α) (is : List Nat) : Prop where
  interned : t.Interned
  stored : is.map t.get? = vs.map some
  mem : ∀ i v, t.get? i = some v → v ∈ vs
  ascending : is.eraseDups = List.range' 1 t.size
  size_eq : t.size = vs.toFinset.card

namespace Numbers

theorem empty (bits : Nat) : (empty bits : Interner α).Numbers [] [] where
  interned := .empty bits
  stored := rfl
  mem i v hv := by
    rw [get?_empty] at hv
    cases hv
  ascending := rfl
  size_eq := rfl

theorem exists_of_mem (h : t.Numbers vs is) (hv : v ∈ vs) : ∃ i ∈ is, t.get? i = some v := by
  rw [← List.mem_map, h.stored]
  exact List.mem_map_of_mem hv

theorem get?_of_mem (h : t.Numbers vs is) (hi : i ∈ is) : ∃ v, t.get? i = some v := by
  have hmem : t.get? i ∈ vs.map some := h.stored ▸ List.mem_map_of_mem hi
  obtain ⟨v, -, hv⟩ := List.mem_map.1 hmem
  exact ⟨v, hv.symm⟩

theorem getElem?_eq_iff (h : t.Numbers vs is) (j k : Nat) :
    is[j]? = is[k]? ↔ vs[j]? = vs[k]? := by
  have hstored : ∀ j : Nat, is[j]?.map t.get? = vs[j]?.map some := by
    intro j
    rw [← List.getElem?_map, h.stored, List.getElem?_map]
  rw [← (Option.map_injective (Option.some_injective α)).eq_iff, ← hstored, ← hstored]
  refine ⟨fun hjk => by rw [hjk], fun hjk => ?_⟩
  cases hj : is[j]? with
  | none => simpa [hj, eq_comm] using hjk
  | some m =>
    obtain ⟨v, hv⟩ := h.get?_of_mem (List.mem_of_getElem? hj)
    rw [hj, Option.map_some, hv, eq_comm, Option.map_eq_some_iff] at hjk
    obtain ⟨n, hn, hget⟩ := hjk
    rw [hn, h.interned.unique m n v hv hget]

/-- A value comes again. -/
theorem again (h : t.Numbers vs is) (hi : t.get? i = some v) :
    t.Numbers (vs ++ [v]) (is ++ [i]) where
  interned := h.interned
  stored := by simp [h.stored, hi]
  mem j w hw := List.mem_append_left _ (h.mem j w hw)
  ascending := ascending_again h.ascending (le_size_of_get? hi)
  size_eq := by
    have hv : v ∈ vs.toFinset := List.mem_toFinset.2 (h.mem i v hi)
    rw [h.size_eq, List.toFinset_append, List.toFinset_cons, List.toFinset_nil,
      Finset.union_eq_left.2 (by simpa using hv)]

theorem push (h : t.Numbers vs is) {t' : Interner α} (ht' : t'.Interned)
    (happended : t.Appended v t') : t'.Numbers (vs ++ [v]) (is ++ [t.size + 1]) := by
  have hv : v ∉ vs := by
    intro hv
    obtain ⟨i, -, hi⟩ := h.exists_of_mem hv
    exact happended.new i (h.interned.linked i v hi) hi
  refine ⟨ht', ?_, ?_, ?_, ?_⟩
  · rw [List.map_append, List.map_append, ← h.stored, List.map_singleton, List.map_singleton,
      happended.get?_last]
    congr 1
    refine List.map_congr_left fun i hi => ?_
    obtain ⟨w, hw⟩ := h.get?_of_mem hi
    rw [hw, happended.get?_of_some hw]
  · intro j w hw
    obtain ⟨-, rfl⟩ | hold := happended.cases hw
    · exact List.mem_append_right _ List.mem_cons_self
    · exact List.mem_append_left _ (h.mem j w hold)
  · rw [happended.size_eq]
    exact ascending_next h.ascending
  · rw [happended.size_eq, h.size_eq, List.toFinset_append, List.toFinset_cons,
      List.toFinset_nil, Finset.card_union_of_disjoint (by simpa using hv)]
    rfl

theorem put (h : t.Numbers vs is) (v : α) :
    (t.put v).2.Numbers (vs ++ [v]) (is ++ [(t.put v).1]) := by
  obtain ⟨i, t', hput, ht', hcases⟩ := h.interned.put v
  rw [hput]
  obtain ⟨rfl, hi⟩ | ⟨rfl, happended⟩ := hcases
  · exact h.again hi
  · exact h.push ht' happended

theorem putAll (h : t.Numbers vs is) (us : List α) :
    (t.putAll us).2.Numbers (vs ++ us) (is ++ (t.putAll us).1) := by
  induction us generalizing t vs is with
  | nil => simpa [Interner.putAll] using h
  | cons u us ih => simpa [Interner.putAll] using ih (h.put u)

end Numbers

/-- Whatever is put into a new table, in whatever order and with whatever keys: each value is
found under its number, values have one number if and only if they are equal, the numbers are
1, 2, 3, … in the order of their first use, as many as there are different values, and no further
value moves a stored one. Every value falls into a bucket, and the links of a bucket lead through
all its values and no others, and then end. -/
theorem putAll_empty {bits : Nat} (hbits : bits ≤ 31) :
    ∃ t₀ : Interner α, empty? bits = .ok t₀ ∧ ∀ (vs : List α) is t, t₀.putAll vs = (is, t) →
      is.map t.get? = vs.map some ∧
      (∀ j k : Nat, is[j]? = is[k]? ↔ vs[j]? = vs[k]?) ∧
      is.eraseDups = List.range' 1 t.size ∧
      t.size = vs.toFinset.card ∧
      (∀ us i v, t.get? i = some v → (t.putAll us).2.get? i = some v) ∧
      (∀ v : α, lineOf t.bits v < t.heads.size) ∧
      ∀ b i, t.heads[b]? = some i → ∃ l, t.Chain i l ∧ ∀ j, j ∈ l ↔ t.InBucket b j := by
  refine ⟨empty bits, if_pos hbits, fun vs is t hrun => ?_⟩
  have h := (Numbers.empty (α := α) bits).putAll vs
  rw [hrun, List.nil_append, List.nil_append] at h
  exact ⟨h.stored, h.getElem?_eq_iff, h.ascending, h.size_eq,
    fun us i v hi => h.interned.get?_putAll hi us, h.interned.lineOf_lt_size,
    fun b i hb => h.interned.chain_iff hb⟩

theorem putAll_empty_collisions : 2 ≤ 31 ∧ ∃ t : Interner UInt64,
    (empty 2 : Interner UInt64).putAll [1, 5, 1, 9, 2] = ([1, 2, 1, 3, 4], t) ∧ t.size = 4 ∧
      ∃ l, t.Chain 1 l ∧ ∀ j, j ∈ l ↔ t.InBucket 1 j := by
  obtain ⟨t₀, hnew, h⟩ := putAll_empty (α := UInt64) (show 2 ≤ 31 by decide)
  obtain rfl : empty 2 = t₀ := Except.ok.inj hnew
  obtain ⟨-, -, -, hsize, -, -, hchain⟩ := h [1, 5, 1, 9, 2] [1, 2, 1, 3, 4] _ rfl
  exact ⟨by decide, _, rfl, hsize, hchain 1 1 rfl⟩

end Interner

end RegularArithmetic.Store

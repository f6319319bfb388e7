import Mathlib.Data.List.Count
import RegularArithmetic.Proofs.Store.Interner

/-!
What a direct-mapped table remembers of what was done with it. An entry is found until the table is
cleared or another entry takes its line. Every look-up is counted once.
-/

set_option autoImplicit false

namespace RegularArithmetic.Store.DirectMapped

universe u v

variable {κ : Type u} {ν : Type v}

/-- What a table is asked to do. -/
inductive Request (κ : Type u) (ν : Type v) where
  | insert (k : κ) (v : ν)
  | find (k : κ)
  | clear

/-- Whether a request is a look-up. -/
def Request.isFind : Request κ ν → Bool
  | .find _ => true
  | _ => false

/-- The last entry for `k` since the table was cleared is `v`, and the requests `later` came after
it. -/
def LastInsert (rs : List (Request κ ν)) (k : κ) (v : ν) (later : List (Request κ ν)) : Prop :=
  (∃ earlier, rs = earlier ++ .insert k v :: later) ∧ .clear ∉ later ∧ ∀ w, .insert k w ∉ later

variable {t : DirectMapped κ ν} {k l : κ} {v w : ν} {rs later : List (Request κ ν)}

theorem LastInsert.cons (h : LastInsert rs k v later) (r : Request κ ν) :
    LastInsert (r :: rs) k v later := by
  obtain ⟨⟨earlier, rfl⟩, h⟩ := h
  exact ⟨⟨r :: earlier, rfl⟩, h⟩

/-- There are as many lines as the bits say. -/
structure Lined (t : DirectMapped κ ν) : Prop where
  bits_le : t.bits ≤ 31
  size_lines : t.lines.size = 2 ^ t.bits

theorem Lined.empty {bits : Nat} (h : bits ≤ 31) : (empty bits : DirectMapped κ ν).Lined where
  bits_le := h
  size_lines := by simp [DirectMapped.empty]

theorem Lined.clear (h : t.Lined) : t.clear.Lined where
  bits_le := h.bits_le
  size_lines := by simpa [DirectMapped.clear] using h.size_lines

variable [Keyed κ]

theorem Lined.insert (h : t.Lined) (k : κ) (v : ν) : (t.insert k v).Lined where
  bits_le := h.bits_le
  size_lines := by simpa [DirectMapped.insert] using h.size_lines

theorem Lined.lineOf_lt_size (h : t.Lined) (k : κ) : lineOf t.bits k < t.lines.size := by
  rw [h.size_lines]
  exact lineOf_lt h.bits_le k

variable [DecidableEq κ]

theorem find_snd (t : DirectMapped κ ν) (k : κ) :
    ((t.find k).2.bits = t.bits ∧ (t.find k).2.lines = t.lines) ∧
      (t.find k).2.hits = (t.hits + if (t.peek k).isSome then 1 else 0) ∧
      (t.find k).2.misses = (t.misses + if (t.peek k).isNone then 1 else 0) := by
  simp only [find]
  split <;> simp [*]

theorem Lined.find (h : t.Lined) (k : κ) : (t.find k).2.Lined := by
  obtain ⟨⟨hbits, hlines⟩, -⟩ := find_snd t k
  exact ⟨hbits ▸ h.bits_le, by rw [hlines, hbits, h.size_lines]⟩

theorem Lined.peek_insert_eq (h : t.Lined) (k l : κ) (v : ν) : (t.insert k v).peek l =
    if lineOf t.bits k = lineOf t.bits l then if k = l then some v else none else t.peek l := by
  simp only [peek, DirectMapped.insert, Array.getElem?_setIfInBounds, if_pos (h.lineOf_lt_size k)]
  by_cases hline : lineOf t.bits k = lineOf t.bits l
  · simp only [if_pos hline]
  · simp only [if_neg hline]

/-- Serves the requests in their order, and gives the answers to the look-ups among them. -/
def serve (t : DirectMapped κ ν) : List (Request κ ν) → List (Option ν) × DirectMapped κ ν
  | [] => ([], t)
  | .insert k v :: rs => (t.insert k v).serve rs
  | .clear :: rs => t.clear.serve rs
  | .find k :: rs =>
    let (answer, t) := t.find k
    let (answers, t) := t.serve rs
    (answer :: answers, t)

theorem Lined.serve (h : t.Lined) (rs : List (Request κ ν)) :
    (t.serve rs).2.Lined ∧ (t.serve rs).2.bits = t.bits := by
  induction rs generalizing t with
  | nil => exact ⟨h, rfl⟩
  | cons r rs ih =>
    cases r with
    | insert k v => exact ih (h.insert k v)
    | clear => exact ih h.clear
    | find k =>
      rw [← (find_snd t k).1.1]
      exact ih (h.find k)

/-- As long as there is no other entry for its key, an entry is found exactly until another one
takes its line. -/
theorem Lined.peek_serve_iff (h : t.Lined) (hclear : .clear ∉ rs)
    (hinsert : ∀ w, .insert k w ∉ rs) : (t.serve rs).2.peek k = some v ↔
      t.peek k = some v ∧ ∀ l w, .insert l w ∈ rs → lineOf t.bits l ≠ lineOf t.bits k := by
  induction rs generalizing t with
  | nil => simp [DirectMapped.serve]
  | cons r rs ih =>
    simp only [List.mem_cons, not_or] at hclear hinsert
    have ih {t : DirectMapped κ ν} (h : t.Lined) := ih h hclear.2 fun w => (hinsert w).2
    cases r with
    | insert m u =>
      have hkm : m ≠ k := by
        rintro rfl
        exact (hinsert u).1 rfl
      rw [DirectMapped.serve, ih (h.insert m u), h.peek_insert_eq, if_neg hkm]
      change _ ∧ (∀ l w, _ → lineOf t.bits l ≠ lineOf t.bits k) ↔ _
      by_cases hline : lineOf t.bits m = lineOf t.bits k
      · refine iff_of_false (by simp [hline]) fun hrest => ?_
        exact hrest.2 m u List.mem_cons_self hline
      · simp [hline, or_imp, forall_and]
    | clear => exact absurd rfl hclear.1
    | find m =>
      simp only [DirectMapped.serve, ih (h.find m), peek_find, (find_snd t m).1.1, List.mem_cons,
        reduceCtorEq, false_or]

theorem Lined.last_of_peek_serve (h : t.Lined) (hfound : (t.serve rs).2.peek k = some v) :
    (t.peek k = some v ∧ .clear ∉ rs ∧ ∀ w, .insert k w ∉ rs) ∨
      ∃ later, LastInsert rs k v later := by
  induction rs generalizing t with
  | nil => exact .inl ⟨hfound, by simp, by simp⟩
  | cons r rs ih =>
    cases r with
    | insert m u =>
      obtain ⟨hpeek, hclear, hinsert⟩ | ⟨later, hlast⟩ := ih (h.insert m u) hfound
      · rw [h.peek_insert_eq] at hpeek
        by_cases hmk : m = k
        · subst m
          rw [if_pos rfl, if_pos rfl] at hpeek
          cases hpeek
          exact .inr ⟨rs, ⟨[], rfl⟩, hclear, hinsert⟩
        · rw [if_neg hmk] at hpeek
          split at hpeek
          · cases hpeek
          · refine .inl ⟨hpeek, by simpa using hclear, ?_⟩
            simpa [Ne.symm hmk] using hinsert
      · exact .inr ⟨later, hlast.cons _⟩
    | clear =>
      obtain ⟨hpeek, -⟩ | ⟨later, hlast⟩ := ih h.clear hfound
      · rw [peek_clear] at hpeek
        cases hpeek
      · exact .inr ⟨later, hlast.cons _⟩
    | find m =>
      obtain ⟨hpeek, hrest⟩ | ⟨later, hlast⟩ := ih (h.find m) hfound
      · rw [peek_find] at hpeek
        exact .inl ⟨hpeek, by simpa using hrest⟩
      · exact .inr ⟨later, hlast.cons _⟩

theorem serve_append (t : DirectMapped κ ν) (qs rs : List (Request κ ν)) :
    t.serve (qs ++ rs) =
      ((t.serve qs).1 ++ ((t.serve qs).2.serve rs).1, ((t.serve qs).2.serve rs).2) := by
  induction qs generalizing t with
  | nil => rfl
  | cons q qs ih => cases q <;> simp [DirectMapped.serve, ih]

theorem Lined.peek_iff_of_lastInsert (h : t.Lined) (hlast : LastInsert rs k v later) :
    (t.serve rs).2.peek k = some v ↔
      ∀ l w, .insert l w ∈ later → lineOf t.bits l ≠ lineOf t.bits k := by
  obtain ⟨⟨earlier, rfl⟩, hclear, hinsert⟩ := hlast
  obtain ⟨hearlier, hbits⟩ := h.serve earlier
  rw [serve_append, DirectMapped.serve, (hearlier.insert k v).peek_serve_iff hclear hinsert,
    hearlier.peek_insert_eq, if_pos rfl, if_pos rfl]
  change _ ∧ (∀ l w, _ → lineOf (t.serve earlier).2.bits l ≠ lineOf (t.serve earlier).2.bits k) ↔ _
  rw [hbits]
  exact and_iff_right rfl

theorem serve_counts (t : DirectMapped κ ν) (rs : List (Request κ ν)) :
    (t.serve rs).1.length = rs.countP (·.isFind) ∧
      (t.serve rs).2.hits = t.hits + (t.serve rs).1.countP (·.isSome) ∧
      (t.serve rs).2.misses = t.misses + (t.serve rs).1.countP (·.isNone) := by
  induction rs generalizing t with
  | nil => simp [DirectMapped.serve]
  | cons r rs ih =>
    cases r with
    | insert k v => exact ih (t.insert k v)
    | clear => exact ih t.clear
    | find k =>
      obtain ⟨hlength, hhits, hmisses⟩ := ih (t.find k).2
      obtain ⟨-, hhit, hmiss⟩ := find_snd t k
      refine ⟨?_, ?_, ?_⟩
      · rw [List.countP_cons_of_pos rfl, ← hlength]
        rfl
      · simp only [DirectMapped.serve, hhits, hhit, find_fst, List.countP_cons]
        omega
      · simp only [DirectMapped.serve, hmisses, hmiss, find_fst, List.countP_cons]
        omega

theorem getElem?_serve (t : DirectMapped κ ν) (earlier : List (Request κ ν)) (k : κ)
    (later : List (Request κ ν)) : (t.serve (earlier ++ .find k :: later)).1[
      earlier.countP (·.isFind)]? = some ((t.serve earlier).2.find k).1 := by
  rw [serve_append, ← (serve_counts t earlier).1, List.getElem?_append_right (Nat.le_refl _),
    Nat.sub_self]
  rfl

/-- Whatever a table of `2 ^ bits` lines is asked for, in whatever order and with whatever keys:
looking a key up gives nothing or the last value that was entered for it since the table was
cleared, and it gives that value unless a later entry has a key on the same line. So does every
look-up on the way, of which each is either a hit or a miss. No key is without a line. -/
theorem serve_empty {bits : Nat} (hbits : bits ≤ 31) :
    ∃ t₀ : DirectMapped κ ν, empty? bits = .ok t₀ ∧ ∀ rs answers t, t₀.serve rs = (answers, t) →
      (∀ k, (t.find k).1 = none ∨
        ∃ v later, LastInsert rs k v later ∧ (t.find k).1 = some v) ∧
      (∀ k v later, LastInsert rs k v later → ((t.find k).1 = some v ↔
        ∀ l w, .insert l w ∈ later → (key l).toNat % 2 ^ bits ≠ (key k).toNat % 2 ^ bits)) ∧
      (∀ earlier k later, rs = earlier ++ .find k :: later →
        answers[earlier.countP (·.isFind)]? = some ((t₀.serve earlier).2.find k).1) ∧
      t.hits + t.misses = rs.countP (·.isFind) ∧
      answers.length = rs.countP (·.isFind) ∧ t.hits = answers.countP (·.isSome) ∧
      ∀ k : κ, lineOf t.bits k < t.lines.size := by
  refine ⟨empty bits, if_pos hbits, fun rs answers t hserve => ?_⟩
  obtain rfl : ((empty bits).serve rs).1 = answers := by rw [hserve]
  obtain rfl : ((empty bits).serve rs).2 = t := by rw [hserve]
  have hempty : (empty bits : DirectMapped κ ν).Lined := .empty hbits
  obtain ⟨hlength, hhits, hmisses⟩ := serve_counts (empty bits) rs
  refine ⟨fun k => ?_, fun k v later hlast => ?_, ?_, ?_, hlength, ?_,
    (hempty.serve rs).1.lineOf_lt_size⟩
  · rw [find_fst]
    cases hpeek : ((empty bits).serve rs).2.peek k with
    | none => exact .inl rfl
    | some v =>
      obtain ⟨hbefore, -⟩ | ⟨later, hlast⟩ := hempty.last_of_peek_serve hpeek
      · rw [peek_empty] at hbefore
        cases hbefore
      · exact .inr ⟨v, later, hlast, rfl⟩
  · rw [find_fst, hempty.peek_iff_of_lastInsert hlast]
    simp only [DirectMapped.empty, lineOf_eq_mod hbits]
  · rintro earlier k later rfl
    exact getElem?_serve (empty bits) earlier k later
  · have hsplit := List.length_eq_countP_add_countP (·.isSome) (l := ((empty bits).serve rs).1)
    simp only [Bool.not_eq_true, Option.isSome_eq_false_iff, Bool.decide_eq_true] at hsplit
    rw [← hlength, hsplit, hhits, hmisses]
    simp only [DirectMapped.empty, Nat.zero_add]
  · rw [hhits]
    exact Nat.zero_add _

/-- Two keys on one of two lines, and the first one is asked for again. -/
theorem serve_empty_collision : 1 ≤ 31 ∧ ∃ t : DirectMapped UInt64 String,
    (empty 1).serve [.insert 0 "a", .find 0, .insert 2 "b", .find 0, .find 2] =
      ([some "a", none, some "b"], t) ∧ t.hits + t.misses = 3 ∧ (t.find 0).1 ≠ some "a" := by
  obtain ⟨t₀, hnew, h⟩ := serve_empty (κ := UInt64) (ν := String) (show 1 ≤ 31 by decide)
  obtain rfl : empty 1 = t₀ := Except.ok.inj hnew
  obtain ⟨-, hevicted, -, hcount, -⟩ :=
    h [.insert 0 "a", .find 0, .insert 2 "b", .find 0, .find 2] [some "a", none, some "b"] _ rfl
  refine ⟨by decide, _, rfl, hcount, fun hfound => ?_⟩
  have hlast := hevicted 0 "a" [.find 0, .insert 2 "b", .find 0, .find 2]
    ⟨⟨[], rfl⟩, by simp, by simp⟩
  exact hlast.1 hfound 2 "b" (by simp) (by decide)

end RegularArithmetic.Store.DirectMapped

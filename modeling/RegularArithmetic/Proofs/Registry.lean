import RegularArithmetic.Proofs.Alphabet
import RegularArithmetic.Proofs.Store.Numbering
import RegularArithmetic.Registry

/-!
The two tables of a registry stay inverse to each other, whatever names are registered and made up.
So a new proposition is the next one, the attempts to find a name for it end, and an alphabet that
searches its names gives the same answers.
-/

set_option autoImplicit false

namespace RegularArithmetic

open Alphabet (Request)

namespace Alphabet

variable {a : Alphabet} {name : String} {p : Nat}

theorem nameOf_eq_ok_iff : a.nameOf p = .ok name ↔ p ≠ 0 ∧ a.names[p - 1]? = some name := by
  cases p with
  | zero => simp [nameOf]
  | succ i =>
    simp only [nameOf, Nat.add_sub_cancel]
    cases a.names[i]? <;> simp

theorem exists_nameOf_iff : (∃ name, a.nameOf p = .ok name) ↔ p ≠ 0 ∧ p ≤ a.size := by
  simp only [nameOf_eq_ok_iff, exists_and_left, and_congr_right_iff, size]
  intro hp
  rw [← Option.isSome_iff_exists, isSome_getElem?]
  omega

theorem nameOf_of_find? (h : a.find? name = some p) : a.nameOf p = .ok name := by
  obtain ⟨i, hi, rfl⟩ := Option.map_eq_some_iff.1 h
  obtain ⟨hlt, heq, -⟩ := Array.findIdx?_eq_some_iff_getElem.1 hi
  rw [nameOf_eq_ok_iff, Nat.add_sub_cancel, Array.getElem?_eq_getElem hlt]
  exact ⟨Nat.succ_ne_zero i, congrArg some (eq_of_beq heq)⟩

theorem find?_ne_none (h : a.nameOf p = .ok name) : a.find? name ≠ none := by
  rw [Ne, find?_eq_none_iff, not_not, Array.mem_toList_iff]
  exact Array.mem_of_getElem? (nameOf_eq_ok_iff.1 h).2

theorem nameOf_push_iff {b : Alphabet} {other : String} (hb : b.names = a.names.push name) :
    b.nameOf p = .ok other ↔ p = a.size + 1 ∧ name = other ∨ a.nameOf p = .ok other := by
  cases p with
  | zero => simp [nameOf]
  | succ i =>
    simp only [nameOf_eq_ok_iff, hb, Nat.add_sub_cancel, Array.getElem?_push, size,
      Nat.add_right_cancel_iff, ne_eq, Nat.succ_ne_zero, not_false_eq_true, true_and]
    split
    · subst i
      simp
    · simp [*]

end Alphabet

namespace Registry

variable {r s : Registry} {hint name : String} {p k : Nat}

def Consistent (r : Registry) : Prop :=
  ∀ name p, r.lookup? name = some p ↔ r.nameOf p = .ok name

theorem register_of_some (h : r.lookup? name = some p) : r.register name = (p, r) := by
  simp only [register, h]

theorem register_of_none (h : r.lookup? name = none) : r.register name =
    (r.size + 1, { r with
      names := r.names.push name
      numbers := r.numbers.insert name (r.size + 1) }) := by
  simp only [register, h, Array.size_push]
  rfl

namespace Consistent

theorem le_size (h : r.Consistent) (hp : r.lookup? name = some p) : p ≠ 0 ∧ p ≤ r.size :=
  Alphabet.exists_nameOf_iff.1 ⟨name, (h name p).1 hp⟩

theorem nodup (h : r.Consistent) : r.names.toList.Nodup := by
  rw [List.nodup_iff_getElem?_ne_getElem?]
  intro i j hij hj heq
  obtain ⟨name, hname⟩ : ∃ name, r.names.toList[j]? = some name := ⟨_, List.getElem?_eq_getElem hj⟩
  have hfound : ∀ k : Nat, r.names.toList[k]? = some name → r.lookup? name = some (k + 1) := by
    intro k hk
    rw [h, Alphabet.nameOf_eq_ok_iff, Nat.add_sub_cancel, ← Array.getElem?_toList]
    exact ⟨Nat.succ_ne_zero k, hk⟩
  have hsame := (hfound i (heq.trans hname)).symm.trans (hfound j hname)
  rw [Option.some.injEq, Nat.add_right_cancel_iff] at hsame
  omega

theorem find?_eq (h : r.Consistent) (name : String) : r.find? name = r.lookup? name := by
  cases hfind : r.find? name with
  | some p => exact ((h name p).2 (Alphabet.nameOf_of_find? hfind)).symm
  | none =>
    cases hlookup : r.lookup? name with
    | some p => exact absurd hfind (Alphabet.find?_ne_none ((h name p).1 hlookup))
    | none => rfl

theorem of_register (h : r.Consistent) (name : String) : (r.register name).2.Consistent := by
  cases hlookup : r.lookup? name with
  | some p =>
    rw [register_of_some hlookup]
    exact h
  | none =>
    rw [register_of_none hlookup]
    intro other p
    rw [Alphabet.nameOf_push_iff rfl]
    simp only [lookup?, Std.HashMap.getElem?_insert, beq_iff_eq]
    constructor
    · intro hfound
      split at hfound
      · exact .inl ⟨(Option.some.inj hfound).symm, ‹_›⟩
      · exact .inr ((h other p).1 hfound)
    · rintro (⟨rfl, rfl⟩ | hold)
      · exact if_pos rfl
      · have hother := (h other p).2 hold
        rw [if_neg]
        · exact hother
        · rintro rfl
          rw [hlookup] at hother
          cases hother

theorem perform_register (h : r.Consistent) (name : String) :
    Alphabet.register name r.toAlphabet =
      .ok (r.register name).1 (r.register name).2.toAlphabet := by
  simp only [Alphabet.register, h.find?_eq]
  cases hlookup : r.lookup? name with
  | some p => rw [register_of_some hlookup]
  | none =>
    rw [register_of_none hlookup]
    rfl

theorem tries_unusedFrom (h : r.Consistent) (hint : String) (n : Nat) : ∀ k,
    r.find? (r.unusedFrom hint k n) = none →
      r.Tries hint k (r.register (r.unusedFrom hint k n)) := by
  induction n with
  | zero =>
    intro k hnone
    rw [h.find?_eq] at hnone
    exact .unused hnone
  | succ n ih =>
    intro k hnone
    rw [Alphabet.unusedFrom] at hnone ⊢
    cases hfirst : r.lookup? s!"{hint}#{k}" with
    | none =>
      have hunused : (r.find? s!"{hint}#{k}").isNone = true := by
        rw [h.find?_eq, hfirst, Option.isNone_none]
      rw [if_pos hunused]
      exact .unused hfirst
    | some p =>
      have hused : (r.find? s!"{hint}#{k}").isNone = false := by
        rw [h.find?_eq, hfirst, Option.isNone_some]
      rw [hused, if_neg Bool.false_ne_true] at hnone ⊢
      exact .used hfirst (ih (k + 1) hnone)

theorem tries (h : r.Consistent) (hint : String) : ∃ s, r.Tries hint r.size (r.size + 1, s) ∧
    s.Consistent ∧ s.size = r.size + 1 ∧
    Alphabet.fresh hint r.toAlphabet = .ok (r.size + 1) s.toAlphabet := by
  have hnone := find?_unusedFrom (a := r.toAlphabet) hint r.size
  have htries := h.tries_unusedFrom hint (r.size + 1) r.size hnone
  have hconsistent := h.of_register (r.unusedFrom hint r.size (r.size + 1))
  have hperform := h.perform_register (r.unusedFrom hint r.size (r.size + 1))
  rw [h.find?_eq] at hnone
  rw [register_of_none hnone] at htries hconsistent hperform
  exact ⟨_, htries, hconsistent, Array.size_push _, hperform⟩

end Consistent

/-! ### The attempts for one new name -/

theorem Tries.unique {result result' : Nat × Registry} (h : r.Tries hint k result)
    (h' : r.Tries hint k result') : result = result' := by
  induction h with
  | unused hnone =>
    cases h' with
    | unused _ => rfl
    | used hsome _ =>
      rw [hnone] at hsome
      cases hsome
  | used hsome _ ih =>
    cases h' with
    | unused hnone =>
      rw [hnone] at hsome
      cases hsome
    | used _ h' => exact ih h'

theorem Tries.exists_first {result : Nat × Registry} (h : r.Tries hint k result) :
    ∃ j, k ≤ j ∧ result = r.register s!"{hint}#{j}" ∧ r.lookup? s!"{hint}#{j}" = none ∧
      ∀ i, k ≤ i → i < j → r.lookup? s!"{hint}#{i}" ≠ none := by
  induction h with
  | @unused k hnone => exact ⟨k, le_rfl, rfl, hnone, fun i hki hik => by omega⟩
  | @used k p _ hsome _ ih =>
    obtain ⟨j, hkj, heq, hnone, hused⟩ := ih
    refine ⟨j, by omega, heq, hnone, fun i hki hij => ?_⟩
    obtain rfl | hlt : i = k ∨ k + 1 ≤ i := by omega
    · rw [hsome]
      exact Option.some_ne_none p
    · exact hused i hlt hij

/-! ### Whole runs -/

theorem Serves.unique {q : Request} {result result' : Nat × Registry} (h : r.Serves q result)
    (h' : r.Serves q result') : result = result' := by
  cases h with
  | register name =>
    cases h'
    rfl
  | fresh h =>
    cases h' with
    | fresh h' => exact h.unique h'

theorem ServesAll.unique {qs : List Request} {result result' : List Nat × Registry}
    (h : r.ServesAll qs result) (h' : r.ServesAll qs result') : result = result' := by
  induction h generalizing result' with
  | done =>
    cases h'
    rfl
  | next hstep _ ih =>
    cases h' with
    | next hstep' h' =>
      cases hstep.unique hstep'
      cases ih h'
      rfl

/-- The numbers that have been given out so far are 1, 2, 3, … in the order of their first use. -/
structure History (ps : List Nat) (r : Registry) : Prop where
  consistent : r.Consistent
  ascending : ps.eraseDups = List.range' 1 r.size

namespace History

variable {ps : List Nat}

theorem of_empty (store : Diagram.Store) : History [] ⟨⟨store, #[], 0, none⟩, ∅⟩ where
  consistent name p := by simp [lookup?, Alphabet.nameOf_eq_ok_iff]
  ascending := rfl

theorem serves (h : History ps r) (q : Request) : ∃ p s, r.Serves q (p, s) ∧
    q.perform r.toAlphabet = .ok p s.toAlphabet ∧ History (ps ++ [p]) s := by
  cases q with
  | register name =>
    have hperform := h.consistent.perform_register name
    refine ⟨(r.register name).1, (r.register name).2, .register name, hperform,
      h.consistent.of_register name, ?_⟩
    cases hlookup : r.lookup? name with
    | some p =>
      rw [register_of_some hlookup]
      exact Store.ascending_again h.ascending (h.consistent.le_size hlookup)
    | none =>
      rw [register_of_none hlookup]
      simpa [Alphabet.size] using Store.ascending_next h.ascending
  | fresh hint =>
    obtain ⟨s, htries, hs, hsize, hperform⟩ := h.consistent.tries hint
    exact ⟨_, s, .fresh htries, hperform, hs, hsize ▸ Store.ascending_next h.ascending⟩

theorem servesAll (h : History ps r) (qs : List Request) : ∃ ps' s,
    r.ServesAll qs (ps', s) ∧ qs.mapM Request.perform r.toAlphabet = .ok ps' s.toAlphabet ∧
      History (ps ++ ps') s ∧ ps'.length = qs.length := by
  induction qs generalizing r ps with
  | nil => exact ⟨[], r, .done, rfl, by simpa using h, rfl⟩
  | cons q qs ih =>
    obtain ⟨p, s, hserves, hperform, hs⟩ := h.serves q
    obtain ⟨ps', t, hall, hrun, ht, hlength⟩ := ih hs
    refine ⟨p :: ps', t, .next hserves hall, ?_, by simpa using ht, by simp [hlength]⟩
    rw [List.mapM_cons, bind_of_ok hperform, bind_of_ok hrun]
    rfl

theorem size_le (h : History ps r) : r.size ≤ ps.length := by
  have hsub : List.range' 1 r.size ⊆ ps := fun p hp => by
    rwa [← List.mem_eraseDups, h.ascending]
  have hnodup : (List.range' 1 r.size).Nodup := List.nodup_range' ..
  have hle := (hnodup.subperm hsub).length_le
  rwa [List.length_range'] at hle

end History

/-- Whatever names are registered, and whatever hints new names are made from: the requests have
one answer each, the same from an alphabet that keeps no second table. The propositions are
numbered 1, 2, 3, … in the order of their first use, at most one for each request. Their names are
pairwise distinct, and the two tables are inverse to each other. A name that is known is answered
by its proposition, and nothing changes. The attempts for a new name end, with the first name that
is not in use, which becomes the name of the next proposition. -/
theorem servesAll_empty {bits : Nat} {a₀ : Alphabet} (ha₀ : Alphabet.empty? bits = .ok a₀)
    (qs : List Request) : ∃ ps r,
      (∀ result, ServesAll ⟨a₀, ∅⟩ qs result ↔ result = (ps, r)) ∧
      qs.mapM Request.perform a₀ = .ok ps r.toAlphabet ∧
      (∀ name, r.toAlphabet.find? name = r.lookup? name) ∧
      ps.eraseDups = List.range' 1 r.size ∧ r.size ≤ qs.length ∧
      (∀ p, (∃ name, r.nameOf p = .ok name) ↔ p ≠ 0 ∧ p ≤ r.size) ∧
      r.names.toList.Nodup ∧
      (∀ name p, r.lookup? name = some p ↔ r.nameOf p = .ok name) ∧
      (∀ name p, r.lookup? name = some p → r.register name = (p, r)) ∧
      ∀ hint, ∃ k s, (∀ result, r.Tries hint r.size result ↔ result = (r.size + 1, s)) ∧
        s.names = r.names.push s!"{hint}#{k}" ∧ r.lookup? s!"{hint}#{k}" = none ∧
        (∀ i, r.size ≤ i → i < k → r.lookup? s!"{hint}#{i}" ≠ none) ∧ r.size + 1 ∉ ps := by
  obtain ⟨store, -, rfl⟩ := Alphabet.exists_of_empty? ha₀
  obtain ⟨ps, r, hall, hrun, hhistory, hlength⟩ := (History.of_empty store).servesAll qs
  rw [List.nil_append] at hhistory
  have hr := hhistory.consistent
  refine ⟨ps, r, fun result => ⟨fun h => h.unique hall, fun h => h ▸ hall⟩, hrun, hr.find?_eq,
    hhistory.ascending, hlength ▸ hhistory.size_le, fun p => Alphabet.exists_nameOf_iff, hr.nodup,
    hr, fun name p => register_of_some, fun hint => ?_⟩
  obtain ⟨s, htries, -, -, -⟩ := hr.tries hint
  obtain ⟨k, hk, heq, hnone, hused⟩ := htries.exists_first
  rw [register_of_none hnone] at heq
  refine ⟨k, s, fun result => ⟨fun h => h.unique htries, fun h => h ▸ htries⟩, ?_, hnone, hused,
    fun hmem => ?_⟩
  · rw [(Prod.mk.inj heq).2]
  · have := ((Store.mem_iff_of_ascending hhistory.ascending).1 hmem).2
    omega

/-- The first name for a new proposition is in use. -/
theorem servesAll_empty_taken : ∃ (a₀ : Alphabet) (r : Registry), Alphabet.empty? 4 = .ok a₀ ∧
    ServesAll ⟨a₀, ∅⟩ [.register "t#1", .fresh "t", .register "t#1"] ([1, 2, 1], r) ∧
      r.names = #["t#1", "t#2"] := by
  obtain ⟨store, hstore⟩ : ∃ store, Diagram.Store.empty? 4 = .ok store :=
    ⟨_, Diagram.Store.empty?_eq (by decide)⟩
  have hnew : Alphabet.empty? 4 = .ok ⟨store, #[], 0, none⟩ := by
    rw [Alphabet.empty?, hstore]
    rfl
  obtain ⟨ps, r, hall, hrun, -⟩ :=
    servesAll_empty hnew [.register "t#1", .fresh "t", .register "t#1"]
  have hfirst : Alphabet.register "t#1" ⟨store, #[], 0, none⟩ =
      .ok 1 ⟨store, #["t#1"], 0, none⟩ := by
    simp [Alphabet.register, Alphabet.find?]
  have hname : (⟨store, #["t#1"], 0, none⟩ : Alphabet).unusedFrom "t" 1 2 = "t#2" := by
    have htaken : toString "t" ++ toString "#" ++ toString 1 = "t#1" := by decide
    have hnext : toString "t" ++ toString "#" ++ toString 2 = "t#2" := by decide
    rw [Alphabet.unusedFrom, htaken, Alphabet.unusedFrom, hnext]
    simp [Alphabet.find?]
  have hfresh : Alphabet.fresh "t" ⟨store, #["t#1"], 0, none⟩ =
      .ok 2 ⟨store, #["t#1", "t#2"], 0, none⟩ := by
    rw [fresh_eq]
    simp [Alphabet.size, hname]
  have hagain : Alphabet.register "t#1" ⟨store, #["t#1", "t#2"], 0, none⟩ =
      .ok 1 ⟨store, #["t#1", "t#2"], 0, none⟩ := by
    simp [Alphabet.register, Alphabet.find?, List.findIdx?_cons]
  have hanswers : [Request.register "t#1", .fresh "t", .register "t#1"].mapM Request.perform
      ⟨store, #[], 0, none⟩ = .ok [1, 2, 1] ⟨store, #["t#1", "t#2"], 0, none⟩ := by
    simp only [List.mapM_cons, List.mapM_nil, Request.perform, bind, EStateM.bind, hfirst, hfresh,
      hagain]
    rfl
  rw [hanswers] at hrun
  obtain ⟨rfl, hr⟩ := EStateM.Result.ok.inj hrun
  exact ⟨_, r, hnew, (hall _).2 rfl, by rw [← hr]⟩

end Registry

end RegularArithmetic

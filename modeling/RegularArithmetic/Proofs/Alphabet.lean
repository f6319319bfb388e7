import Mathlib.Data.List.Nodup
import Mathlib.Data.List.Perm.Subperm
import Std.Data.String.ToNat
import RegularArithmetic.Alphabet
import RegularArithmetic.Proofs.Diagram.Choice
import RegularArithmetic.Proofs.Success

/-!
An alphabet grows: its diagrams keep their functions and its propositions their names. A new
proposition has a number that none had before.
-/

set_option autoImplicit false

namespace RegularArithmetic

namespace Alphabet

instance : Preorder Alphabet where
  le a b := a.diagrams ≤ b.diagrams ∧ a.names.toList <+: b.names.toList
  le_refl a := ⟨le_refl a.diagrams, List.prefix_refl _⟩
  le_trans _ _ _ h h' := ⟨le_trans h.1 h'.1, h.2.trans h'.2⟩

variable {a b : Alphabet}

theorem size_mono (h : a ≤ b) : a.size ≤ b.size := by
  have hlength := h.2.length_le
  simpa [size] using hlength

theorem exists_of_empty? {bits : Nat} (h : empty? bits = .ok a) :
    ∃ store, Diagram.Store.empty? bits = .ok store ∧ a = ⟨store, #[], 0, none⟩ := by
  unfold empty? at h
  cases hstore : Diagram.Store.empty? bits with
  | error f =>
    rw [hstore] at h
    cases h
  | ok store =>
    rw [hstore] at h
    cases h
    exact ⟨store, rfl, rfl⟩

theorem sound_of_empty? {bits : Nat} (h : empty? bits = .ok a) : a.diagrams.Sound := by
  obtain ⟨store, hstore, rfl⟩ := exists_of_empty? h
  exact .empty? hstore

end Alphabet

section

variable {α : Type} {a : Alphabet}

theorem Yields.liftDiagram {x : Diagram.M α} {P : α → Diagram.Store → Prop}
    (h : Yields x a.diagrams P) :
    Yields (liftM x : Alphabet.M α) a fun r b => P r b.diagrams := by
  obtain ⟨diagrams, names, literals, budget⟩ := a
  refine .intro (fun r b hr => ?_) fun e b he => ?_
  · simp only [liftM, monadLift, MonadLift.monadLift] at hr
    split at hr <;> cases hr
    rename_i heq
    exact ⟨⟨(h.of_ok heq).1, List.prefix_refl _⟩, (h.of_ok heq).2⟩
  · simp only [liftM, monadLift, MonadLift.monadLift] at he
    split at he <;> cases he
    rename_i heq
    exact ⟨h.of_error heq, List.prefix_refl _⟩

/-- An answer without effects, over an alphabet. -/
theorem Yields.liftFault {x : Except Fault α} {P : α → Alphabet → Prop} (h : Gives x (P · a)) :
    Yields (liftM x : Alphabet.M α) a P := by
  cases x with
  | ok r => exact .pure (h r rfl)
  | error e => exact .throw

theorem Returns.liftDiagram {x : Diagram.M α} {P : α → Diagram.Store → Prop}
    (h : Returns x a.diagrams P) :
    Returns (liftM x : Alphabet.M α) a fun r b => P r b.diagrams ∧ b.budget = a.budget := by
  obtain ⟨diagrams, names, literals, budget⟩ := a
  obtain ⟨r, t, hr, hst, hP⟩ := h
  refine ⟨r, ⟨t, names, literals, budget⟩, ?_, ⟨hst, List.prefix_refl _⟩, hP, rfl⟩
  simp only [liftM, monadLift, MonadLift.monadLift, hr]

theorem Returns.liftFault {x : Except Fault α} {P : α → Prop} (h : Answers x P) :
    Returns (liftM x : Alphabet.M α) a fun r b => a = b ∧ P r := by
  obtain ⟨r, rfl, hr⟩ := h
  exact .pure ⟨rfl, hr⟩

theorem returns_spend (n : Nat) (ha : a.budget = none) :
    Returns (Alphabet.spend n) a fun _ b => a = b := by
  refine ⟨(), a, ?_, le_rfl, rfl⟩
  simp only [Alphabet.spend, Alphabet.affords, ha]

theorem Alphabet.find?_eq_none_iff {name : String} :
    a.find? name = none ↔ name ∉ a.names.toList := by
  simp only [Alphabet.find?, Option.map_eq_none_iff, Array.findIdx?_eq_none_iff,
    Array.mem_toList_iff, beq_eq_false_iff_ne]
  exact ⟨fun h hname => h name hname rfl, fun h n hn heq => h (heq ▸ hn)⟩

private theorem unusedFrom_cases (hint : String) (n : Nat) : ∀ k,
    a.find? (a.unusedFrom hint k n) = none ∨
      ∀ i < n, s!"{hint}#{k + i}" ∈ a.names.toList := by
  induction n with
  | zero => exact fun k => .inr (by simp)
  | succ n ih =>
    intro k
    rw [Alphabet.unusedFrom]
    split
    · rename_i h
      exact .inl (Option.isNone_iff_eq_none.1 h)
    · rename_i h
      rcases ih (k + 1) with hunused | hused
      · exact .inl hunused
      · refine .inr fun i hi => ?_
        cases i with
        | zero =>
          by_contra hnot
          exact h (Option.isNone_iff_eq_none.2 (Alphabet.find?_eq_none_iff.2 hnot))
        | succ i =>
          have := hused i (by omega)
          rwa [Nat.add_assoc, Nat.add_comm 1 i] at this

theorem find?_unusedFrom (hint : String) (k : Nat) :
    a.find? (a.unusedFrom hint k (a.size + 1)) = none := by
  rcases unusedFrom_cases (a := a) hint (a.size + 1) k with h | h
  · exact h
  · have hnodup : ((List.range (a.size + 1)).map fun i => s!"{hint}#{k + i}").Nodup := by
      refine List.nodup_range.map fun i j hij => ?_
      simpa using hij
    have hsub : ((List.range (a.size + 1)).map fun i => s!"{hint}#{k + i}") ⊆ a.names.toList := by
      intro name hname
      obtain ⟨i, hi, rfl⟩ := List.mem_map.1 hname
      exact h i (List.mem_range.1 hi)
    have hlength := (hnodup.subperm hsub).length_le
    simp only [List.length_map, List.length_range, Array.length_toList, Alphabet.size] at hlength
    omega

theorem exists_unusedFrom_eq (hint : String) (n : Nat) : ∀ k,
    ∃ i : Nat, a.unusedFrom hint k n = s!"{hint}#{i}" := by
  induction n with
  | zero => exact fun k => ⟨k, rfl⟩
  | succ n ih =>
    intro k
    rw [Alphabet.unusedFrom]
    split
    · exact ⟨k, rfl⟩
    · exact ih (k + 1)

theorem fresh_eq (hint : String) : Alphabet.fresh hint a = .ok (a.size + 1)
    ⟨a.diagrams, a.names.push (a.unusedFrom hint a.size (a.size + 1)), a.literals, a.budget⟩ := by
  have hunused := find?_unusedFrom (a := a) hint a.size
  simp only [Alphabet.fresh, Alphabet.register]
  rw [hunused]
  rfl

theorem returns_fresh (hint : String) : Returns (Alphabet.fresh hint) a fun p b =>
    p = a.size + 1 ∧ b = ⟨a.diagrams, a.names.push (a.unusedFrom hint a.size (a.size + 1)),
      a.literals, a.budget⟩ :=
  ⟨_, _, fresh_eq hint, ⟨le_rfl, by simp⟩, rfl, rfl⟩

theorem returns_next (hint : String) : Returns (Alphabet.fresh hint) a fun p b =>
    p = a.size + 1 ∧ b.size = a.size + 1 ∧ b.diagrams = a.diagrams := by
  refine (returns_fresh hint).mono ?_
  rintro p b - ⟨rfl, rfl⟩
  exact ⟨rfl, by simp [Alphabet.size], rfl⟩

theorem yields_fresh (hint : String) : Yields (Alphabet.fresh hint) a fun p b =>
    p = a.size + 1 ∧ b.size = a.size + 1 ∧ b.diagrams = a.diagrams :=
  (returns_next hint).yields

/-- The alphabet has the new propositions `ps` for the hints, in their order; all else stays. -/
structure Announced (a : Alphabet) (hints : List String) (ps : List Nat) (b : Alphabet) :
    Prop where
  diagrams : b.diagrams = a.diagrams
  budget : b.budget = a.budget
  numbers : ps = List.range' (a.size + 1) hints.length
  names : ∃ names, b.names.toList = a.names.toList ++ names ∧
    List.Forall₂ (fun hint name => ∃ i : Nat, name = s!"{hint}#{i}") hints names

theorem returns_announce (hints : List String) :
    Returns (hints.mapM Alphabet.fresh) a fun ps b => Announced a hints ps b := by
  induction hints generalizing a with
  | nil =>
    rw [List.mapM_nil]
    exact .pure ⟨rfl, rfl, rfl, [], by simp, .nil⟩
  | cons hint hints ih =>
    rw [List.mapM_cons]
    obtain ⟨i, hi⟩ := exists_unusedFrom_eq (a := a) hint (a.size + 1) a.size
    refine (returns_fresh hint).bind ?_
    rintro p b - ⟨rfl, rfl⟩
    refine ih.bind fun ps c _ hc => .pure ⟨hc.diagrams, hc.budget, ?_, ?_⟩
    · rw [hc.numbers]
      simp [Alphabet.size, List.range'_succ]
    · obtain ⟨names, hnames, hhints⟩ := hc.names
      exact ⟨_ :: names, by simpa using hnames, .cons ⟨i, hi⟩ hhints⟩

theorem yields_spend (n : Nat) : Yields (Alphabet.spend n) a fun _ b => a = b := by
  simp only [Yields, Alphabet.spend]
  split
  · rename_i heq
    split at heq <;> cases heq
    exact ⟨le_rfl, rfl⟩
  · rename_i heq
    split at heq <;> cases heq
    exact le_rfl

end

end RegularArithmetic

import RegularArithmetic.Proofs.Automaton.Quantification
import RegularArithmetic.Proofs.Automaton.Reduction

/-!
Renamed propositions as they are seen from outside. The renamed automaton accepts a word if the
given one accepts the word in which every proposition is as true as the one that stands for it. It
is the smallest automaton that does, since renaming ends with a reduction.
-/

set_option autoImplicit false

namespace RegularArithmetic

theorem lookup_reverse {α β : Type} [BEq α] [LawfulBEq α] {l : List (α × β)}
    (hnodup : (l.map (·.1)).Nodup) {a : α} {b : β} (h : (a, b) ∈ l) :
    l.reverse.lookup a = some b := by
  obtain ⟨l₁, l₂, hl⟩ := List.append_of_mem (List.mem_reverse.2 h)
  refine List.lookup_eq_some_iff.2 ⟨l₁, l₂, hl, fun q hq => bne_iff_ne.2 ?_⟩
  rintro rfl
  have hrev : (l.reverse.map (·.1)).Nodup := by
    rw [List.map_reverse]
    exact List.nodup_reverse.2 hnodup
  rw [hl, List.map_append, List.map_cons, List.nodup_append] at hrev
  exact hrev.2.2 _ (List.mem_map.2 ⟨q, hq, rfl⟩) _ (by simp) rfl

namespace Letter

variable {pairs : List (Nat × Nat)} {l : Letter} {p : Nat}

/-- The letter in which the first proposition of each pair is as true as the second one is here;
all others are as they are. -/
def retold (pairs : List (Nat × Nat)) (l : Letter) : Letter :=
  (l.diff (.ofList (pairs.map (·.1)))).insertAll ((pairs.filter fun (_, q) => q ∈ l).map (·.1))

theorem mem_retold : p ∈ retold pairs l ↔
    (∃ q ∈ l, (p, q) ∈ pairs) ∨ p ∈ l ∧ ∀ q, (p, q) ∉ pairs := by
  simp only [retold, NumberSet.mem_insertAll, NumberSet.mem_diff, NumberSet.mem_ofList,
    List.mem_map, List.mem_filter, decide_eq_true_eq, Prod.exists, exists_and_right,
    exists_eq_right, not_exists]
  refine or_congr (exists_congr fun q => and_comm) Iff.rfl

/-- The proposition that stands for `p`: of two entries for one, the later counts. -/
def actual (pairs : List (Nat × Nat)) (p : Nat) : Nat := (pairs.reverse.lookup p).getD p

theorem actual_of_mem {q : Nat} (hnodup : (pairs.map (·.1)).Nodup) (h : (p, q) ∈ pairs) :
    actual pairs p = q := by
  rw [actual, lookup_reverse hnodup h, Option.getD_some]

theorem actual_of_forall_not_mem (h : ∀ q, (p, q) ∉ pairs) : actual pairs p = p := by
  have hnone : pairs.reverse.lookup p = none := by
    rw [List.lookup_eq_none_iff]
    rintro ⟨p', q⟩ hq
    rw [bne_iff_ne]
    rintro rfl
    exact h q (List.mem_reverse.1 hq)
  rw [actual, hnone, Option.getD_none]

theorem actual_ne_zero (hnodup : (pairs.map (·.1)).Nodup) (hpositive : ∀ pq ∈ pairs, 0 < pq.2) :
    ∀ p ≠ 0, actual pairs p ≠ 0 := by
  intro p hp
  by_cases h : ∃ q, (p, q) ∈ pairs
  · obtain ⟨q, hq⟩ := h
    rw [actual_of_mem hnodup hq]
    exact (hpositive _ hq).ne'
  · rwa [actual_of_forall_not_mem (not_exists.1 h)]

theorem assignment_retold (hnodup : (pairs.map (·.1)).Nodup) :
    assignment (retold pairs l) = assignment l ∘ actual pairs := by
  funext p
  simp only [assignment, Function.comp, mem_retold, decide_eq_decide]
  by_cases h : ∃ q, (p, q) ∈ pairs
  · obtain ⟨q, hq⟩ := h
    rw [actual_of_mem hnodup hq]
    constructor
    · rintro (⟨q', hl, hq'⟩ | ⟨-, hnot⟩)
      · rwa [← actual_of_mem hnodup hq, actual_of_mem hnodup hq']
      · exact absurd hq (hnot q)
    · exact fun hl => .inl ⟨q, hl, hq⟩
  · rw [not_exists] at h
    rw [actual_of_forall_not_mem h]
    constructor
    · rintro (⟨q, -, hq⟩ | ⟨hl, -⟩)
      · exact absurd hq (h q)
      · exact hl
    · exact fun hl => .inr ⟨hl, h⟩

end Letter

theorem Word.ofLetters_retold {pairs : List (Nat × Nat)} (hnodup : (pairs.map (·.1)).Nodup)
    (u : List Letter) : ofLetters (u.map (Letter.retold pairs)) =
      (ofLetters u).map (· ∘ Letter.actual pairs) := by
  simp only [ofLetters, List.map_map]
  exact List.map_congr_left fun l _ => Letter.assignment_retold hnodup

namespace Automaton

open Diagram (Edge)

variable {s : Diagram.Store} {a : Automaton} {V : Set Nat} {L : Word → Prop} {ρ : Nat → Nat}

theorem returns_reduced_rename (hs : s.Sound) (ha : a.Recognizes s V L) (hρ : ∀ p ≠ 0, ρ p ≠ 0) :
    Returns (a.rename ρ) s fun b t =>
      (b.Recognizes t (ρ '' V) fun w => L (w.map (· ∘ ρ))) ∧ b.Reduced t := by
  unfold rename
  apply (returns_renameStates hs ha hρ).bind
  intro states t hle hstates
  exact returns_reduced (hs.mono hle) hstates

theorem relabel_filter {β : Type} {f : Edge → Diagram.M Edge} (hf : f .zero = pure .zero)
    (ms : List Move) : ∀ k : List Move → Diagram.M β,
    (do
      let ns ← (ms.filter (·.label ≠ .zero)).mapM fun m => return ⟨m.target, ← f m.label⟩
      k (ns.filter (·.label ≠ .zero)) : Diagram.M β) = (do
      let ns ← ms.mapM fun m => return ⟨m.target, ← f m.label⟩
      k (ns.filter (·.label ≠ .zero)) : Diagram.M β) := by
  induction ms with
  | nil => exact fun _ => rfl
  | cons m ms ih =>
    intro k
    by_cases hz : m.label = .zero
    · rw [List.filter_cons_of_neg (by simpa using hz), ih, List.mapM_cons, hz, hf]
      simp
    · rw [List.filter_cons_of_pos (by simpa using hz), List.mapM_cons, List.mapM_cons]
      simp only [bind_assoc, pure_bind]
      apply bind_congr
      intro e
      have htail := ih fun ns => k (([⟨m.target, e⟩] : List Move).filter (·.label ≠ .zero) ++ ns)
      simpa only [← List.filter_append, List.singleton_append] using htail

theorem rename_pruned (ρ : Nat → Nat) : a.pruned.rename ρ = a.rename ρ := by
  have hzero : Diagram.rename ρ .zero = pure .zero := by
    rw [Diagram.rename, Diagram.renameIn]
    rfl
  unfold rename
  simp only [pruned, Array.mapM_map, Function.comp_def]
  congr 2
  funext st
  exact relabel_filter hzero st.moves fun moves => pure { st with moves }

/-- Renaming a deterministic automaton by finitely many pairs ends with the smallest automaton that
accepts a word if the given one accepts the word in which the first proposition of each pair is as
true as the second one is here. Several propositions may get one name, also the name of one that is
renamed itself. -/
theorem returns_smallest_rename (hs : s.Sound) (ha : a.Readable s) (had : a.Deterministic s)
    {pairs : List (Nat × Nat)} (hnodup : (pairs.map (·.1)).Nodup)
    (hpositive : ∀ pq ∈ pairs, 0 < pq.2) :
    Returns (a.rename (Letter.actual pairs)) s fun c t =>
      c.Smallest t fun w => a.Admits s (w.map (Letter.retold pairs)) := by
  rw [← rename_pruned]
  apply (returns_reduced_rename hs (ha.recognizes_pruned had)
    (Letter.actual_ne_zero hnodup hpositive)).mono
  rintro c t hst ⟨hc, hreduced⟩
  apply hreduced.smallest_of_recognizes (hs.mono hst) hc
  intro w
  rw [ha.admits_iff hs had, Word.ofLetters_retold hnodup]

/-- The words in which a proposition is always true, told with two propositions exchanged and a
third one read as the first. -/
theorem returns_smallest_rename_loop : ∃ s t e, Diagram.Store.empty? 1 = .ok s ∧
    Diagram.makeVariable 1 s = .ok e t ∧ t.Sound ∧
    (loop e).Readable t ∧ (loop e).Deterministic t ∧
    ([(1, 2), (2, 1), (3, 1)].map fun pq : Nat × Nat => pq.1).Nodup ∧
    (∀ pq ∈ [((1 : Nat), (2 : Nat)), (2, 1), (3, 1)], 0 < pq.2) ∧
    Returns ((loop e).rename (Letter.actual [(1, 2), (2, 1), (3, 1)])) t fun c u =>
      c.Smallest u fun w => (loop e).Admits t (w.map (Letter.retold [(1, 2), (2, 1), (3, 1)])) := by
  obtain ⟨s, t, e, hs, ht, hsound, hformed, -⟩ := exists_formed_loop one_ne_zero
  refine ⟨s, t, e, hs, ht, hsound, hformed.readable, deterministic_loop e, by decide, by decide, ?_⟩
  exact returns_smallest_rename hsound hformed.readable (deterministic_loop e) (by decide)
    (by decide)

end Automaton

end RegularArithmetic

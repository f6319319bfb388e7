import RegularArithmetic.Proofs.Automaton.Letters

/-!
Quantified propositions as they are seen from outside, by the words of letters that are accepted.
Unsatisfiable moves, which an automaton given to the quantifier may have, make no difference.
-/

set_option autoImplicit false

namespace RegularArithmetic.Automaton

open Diagram (Edge)

variable {s : Diagram.Store} {a : Automaton} {q r : Nat} {l : Diagram.Assignment} {ps : NumberSet}

/-- The automaton without its unsatisfiable moves. -/
def pruned (a : Automaton) : Automaton :=
  { a with states := a.states.map fun st =>
      { st with moves := st.moves.filter (·.label ≠ .zero) } }

@[simp] theorem props_pruned : a.pruned.props = a.props := rfl

@[simp] theorem size_pruned : a.pruned.size = a.size := by simp [pruned, size]

theorem hasMove_pruned {m : Move} : a.pruned.HasMove q m ↔ a.HasMove q m ∧ m.label ≠ .zero := by
  simp only [HasMove, pruned, Array.getElem?_map, Option.map_eq_some_iff]
  constructor
  · rintro ⟨_, ⟨st, hst, rfl⟩, hm⟩
    obtain ⟨hm, hz⟩ := List.mem_filter.1 hm
    exact ⟨⟨st, hst, hm⟩, of_decide_eq_true hz⟩
  · rintro ⟨⟨st, hst, hm⟩, hz⟩
    exact ⟨_, ⟨st, hst, rfl⟩, List.mem_filter.2 ⟨hm, decide_eq_true hz⟩⟩

theorem accepting_pruned : a.pruned.Accepting q ↔ a.Accepting q := by
  simp [Accepting, pruned]

theorem step_pruned : Step s a.pruned q l r ↔ Step s a q l r := by
  refine exists_congr fun m => ?_
  rw [hasMove_pruned]
  refine ⟨fun ⟨⟨hm, _⟩, h⟩ => ⟨hm, h⟩, fun ⟨hm, hl, hr⟩ => ⟨⟨hm, fun hz => ?_⟩, hl, hr⟩⟩
  simp [hz] at hl

theorem acceptsFrom_pruned {w : Word} : AcceptsFrom s a.pruned q w ↔ AcceptsFrom s a q w := by
  induction w generalizing q with
  | nil => exact accepting_pruned
  | cons l w ih => simp only [AcceptsFrom, step_pruned, ih]

theorem Readable.recognizes_pruned (h : a.Readable s) (ha : a.Deterministic s) :
    a.pruned.Recognizes s Set.univ (a.Accepts s) where
  formed := {
    nonempty := by simpa using h.nonempty
    closed := fun q m hm => by simpa using h.closed q m (hasMove_pruned.1 hm).1
    valid := fun q m hm => h.valid q m (hasMove_pruned.1 hm).1
    satisfiable := fun q m hm => (hasMove_pruned.1 hm).2 }
  deterministic := fun q l r r' hr hr' => ha q l r r' (step_pruned.1 hr) (step_pruned.1 hr')
  reads := reads_univ _
  accepts := fun _ => acceptsFrom_pruned

theorem foldlM_merge_filter {f : Edge → Diagram.M Edge} (hf : f .zero = pure .zero)
    (ms : List Move) : ∀ acc : List Move,
    (ms.filter (·.label ≠ .zero)).foldlM (fun acc m => do merge acc ⟨m.target, ← f m.label⟩) acc =
      ms.foldlM (fun acc m => do merge acc ⟨m.target, ← f m.label⟩) acc := by
  induction ms with
  | nil => exact fun _ => rfl
  | cons m ms ih =>
    intro acc
    by_cases hz : m.label = .zero
    · rw [List.filter_cons_of_neg (by simpa using hz), ih, List.foldlM_cons, hz, hf]
      simp [merge]
    · rw [List.filter_cons_of_pos (by simpa using hz), List.foldlM_cons, List.foldlM_cons]
      exact bind_congr ih

theorem mapLabels_pruned {f : Edge → Diagram.M Edge} (hf : f .zero = pure .zero) :
    a.pruned.mapLabels f = a.mapLabels f := by
  unfold mapLabels
  simp only [pruned, Array.mapM_map, Function.comp_def, foldlM_merge_filter hf]

theorem project_pruned (hps : ps.isEmpty = false) : a.pruned.project ps = a.project ps := by
  have hzero : Diagram.forSome .zero ps.toList = pure .zero := by
    obtain ⟨_ | ⟨p, l⟩, h⟩ := ps
    · rfl
    · rfl
  unfold project
  rw [if_neg (by simp [hps]), if_neg (by simp [hps]), mapLabels_pruned hzero]

/-- The letters differ at most at `ps`. -/
def SameOff (ps : NumberSet) (l l' : Letter) : Prop := ∀ p ∉ ps, p ∈ l' ↔ p ∈ l

theorem sameOff_iff {l l' : Letter} :
    SameOff ps l l' ↔ AgreeOff ps.toList (Letter.assignment l) (Letter.assignment l') := by
  simp [SameOff, AgreeOff, Letter.assignment, NumberSet.mem_def]

theorem exists_ofLetters_eq {w : List Letter} {u : Word}
    (h : List.Forall₂ (AgreeOff ps.toList) (Word.ofLetters w) u) :
    ∃ w', Word.ofLetters w' = u ∧ List.Forall₂ (SameOff ps) w w' := by
  rw [Word.ofLetters, List.forall₂_map_left_iff] at h
  induction h with
  | nil => exact ⟨[], rfl, .nil⟩
  | @cons l σ w u hl _ ih =>
    obtain ⟨w', rfl, hw'⟩ := ih
    obtain ⟨l', rfl⟩ := Letter.exists_eq_of_agreeOff hl
    exact ⟨l' :: w', rfl, .cons (sameOff_iff.2 hl) hw'⟩

theorem projected_ofLetters (hs : s.Sound) (ha : a.Readable s) (had : a.Deterministic s)
    (w : List Letter) : Projected (a.Accepts s) ps.toList (Word.ofLetters w) ↔
      ∃ (k : Nat) (w' : List Letter),
        List.Forall₂ (SameOff ps) (w ++ List.replicate k ∅) w' ∧ a.Admits s w' := by
  refine exists_congr fun k => ?_
  rw [← Word.ofLetters_append_blank]
  constructor
  · rintro ⟨u, hu, haccepts⟩
    obtain ⟨w', rfl, hw'⟩ := exists_ofLetters_eq hu
    exact ⟨w', hw', (ha.admits_iff hs had).2 haccepts⟩
  · rintro ⟨w', hw', hadmits⟩
    refine ⟨Word.ofLetters w', ?_, (ha.admits_iff hs had).1 hadmits⟩
    rw [Word.ofLetters, Word.ofLetters, List.forall₂_map_left_iff, List.forall₂_map_right_iff]
    exact hw'.imp fun l l' => sameOff_iff.1

/-- Without a budget, quantifying propositions ends with a deterministic automaton. It accepts a
word if some accepted word differs from it, made longer by letters in which every proposition is
false, at the quantified propositions only. These are neither declared nor read any more. -/
theorem returns_decides_project {x : Alphabet} (hs : x.diagrams.Sound) (hbudget : x.budget = none)
    (ha : a.Readable x.diagrams) (had : a.Deterministic x.diagrams) (hps : ps.isEmpty = false)
    (hpositive : ∀ p ∈ ps, p ≠ 0) :
    Returns (a.project ps) x fun c y =>
      (c.Decides y.diagrams fun w => ∃ (k : Nat) (w' : List Letter),
        List.Forall₂ (SameOff ps) (w ++ List.replicate k ∅) w' ∧ a.Admits x.diagrams w') ∧
      c.props = a.props.diff ps ∧
      ∀ q m, c.HasMove q m → DependsOn {p | p ∉ ps} (y.diagrams.value m.label) := by
  rw [← project_pruned hps]
  refine (returns_project hs hbudget (ha.recognizes_pruned had) hps hpositive).mono
    fun c y hle ⟨⟨hprops, hsimple⟩, hc⟩ => ⟨?_, hprops, fun q m hm => ?_⟩
  · exact hc.decides (hs.mono hle.1) hsimple (projected_ofLetters hs ha had)
  · exact (hc.reads.labels q m hm).mono fun p hp => hp.2

/-- Quantifying the proposition that every letter of an accepted word makes true. -/
theorem returns_decides_project_loop : ∃ s t e, Diagram.Store.empty? 1 = .ok s ∧
    Diagram.makeVariable 1 s = .ok e t ∧ t.Sound ∧
    (loop e).Readable t ∧ (loop e).Deterministic t ∧
    Returns ((loop e).project (.ofList [1])) ⟨t, #["p"], 0, none⟩ fun c y =>
      (c.Decides y.diagrams fun w => ∃ (k : Nat) (w' : List Letter),
        List.Forall₂ (SameOff (.ofList [1])) (w ++ List.replicate k ∅) w' ∧ (loop e).Admits t w') ∧
      c.props = (loop e).props.diff (.ofList [1]) ∧ ∀ q m, c.HasMove q m →
        DependsOn {p | p ∉ NumberSet.ofList [1]} (y.diagrams.value m.label) := by
  obtain ⟨s, t, e, hs, ht, hsound, hformed, -⟩ := exists_formed_loop one_ne_zero
  refine ⟨s, t, e, hs, ht, hsound, hformed.readable, deterministic_loop e, ?_⟩
  exact returns_decides_project (x := ⟨t, #["p"], 0, none⟩) hsound rfl hformed.readable
    (deterministic_loop e) (by decide) (by decide)

end RegularArithmetic.Automaton

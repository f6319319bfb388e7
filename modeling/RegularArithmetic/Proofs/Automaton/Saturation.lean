import RegularArithmetic.Proofs.Automaton.ShortestWord

/-!
Saturation as it is seen from outside, by the words of letters that are accepted. Which states
accept is found by a loop that ends of itself, and the loop has nothing to do in an automaton that
is saturated.
-/

set_option autoImplicit false

namespace RegularArithmetic.Automaton

variable {s : Diagram.Store} {a : Automaton}

theorem withAccepting_congr {marks marks' : Array Bool}
    (h : ∀ q : Nat, marks[q]? = some true ↔ marks'[q]? = some true) :
    a.withAccepting marks = a.withAccepting marks' := by
  have hgetD : ∀ q, marks.getD q false = marks'.getD q false := fun q => by
    rw [Bool.eq_iff_iff, getD_marks_eq_true, getD_marks_eq_true, h]
  simp only [withAccepting, hgetD]

theorem withAccepting_withAccepting (marks marks' : Array Bool) :
    (a.withAccepting marks).withAccepting marks' = a.withAccepting marks' := by
  simp only [withAccepting, Array.mapIdx_mapIdx]
  rfl

theorem moves_withAccepting (marks : Array Bool) :
    (a.withAccepting marks).states.map (·.moves) = a.states.map (·.moves) := by
  refine Array.ext_getElem? fun q => ?_
  simp only [withAccepting, Array.getElem?_map, Array.getElem?_mapIdx, Option.map_map]
  rfl

theorem Readable.withAccepting (h : a.Readable s) (marks : Array Bool) :
    (a.withAccepting marks).Readable s where
  nonempty := by simpa [Automaton.withAccepting, size] using h.nonempty
  closed q m hm := by
    simpa [Automaton.withAccepting, size] using h.closed q m (hasMove_withAccepting.1 hm)
  valid q m hm := h.valid q m (hasMove_withAccepting.1 hm)

theorem exists_acceptsFrom_padding_append {q : Nat} :
    (∃ k j, AcceptsFrom s a q (padding k ++ padding j)) ↔ ∃ k, AcceptsFrom s a q (padding k) := by
  simp only [padding, List.replicate_append_replicate]
  exact ⟨fun ⟨k, j, h⟩ => ⟨k + j, h⟩, fun ⟨k, h⟩ => ⟨k, 0, h⟩⟩

theorem saturate_saturated (hs : s.Sound) (ha : a.Readable s) (had : a.Deterministic s)
    {marks : Array Bool} (hsize : marks.size = a.size)
    (hmarks : ∀ q : Nat, marks[q]? = some true ↔ ∃ k, AcceptsFrom s a q (padding k)) :
    (a.withAccepting marks).saturate s = .ok (a.withAccepting marks) s := by
  have hb := ha.withAccepting marks
  obtain ⟨-, marks', -, -, hrun, -, hmarks'⟩ :=
    saturate_eq hs hb.closed hb.valid (had.withAccepting marks)
  have hsame : ∀ q : Nat, marks'[q]? = some true ↔ marks[q]? = some true := by
    intro q
    simp only [hmarks', hmarks, acceptsFrom_withAccepting hsize hmarks,
      exists_acceptsFrom_padding_append]
  rw [hrun, withAccepting_withAccepting, withAccepting_congr hsame]

/-- Saturating a deterministic automaton. Sweeping over the states from those that accept comes to
an end of itself, and only the accepting states are changed. Then a word is accepted if it was
accepted with some all-false letters behind it, and every word is answered; saturating once more
changes nothing. -/
theorem saturate_accepts (hs : s.Sound) (ha : a.Readable s) (had : a.Deterministic s) :
    ∃ next marks b, a.zeroSuccessors s = .ok next s ∧
      Settles (next.map (·.take 1)) (a.states.map (·.accepting)) marks ∧
      a.saturate s = .ok b s ∧ b = a.withAccepting marks ∧
      b.states.map (·.moves) = a.states.map (·.moves) ∧ b.props = a.props ∧
      b.saturate s = .ok b s ∧
      ∀ w, ∃ x, b.accepts w s = .ok x s ∧
        (x = true ↔ ∃ k, a.Admits s (w ++ List.replicate k ∅)) := by
  obtain ⟨next, marks, hnext, hsettles, hrun, hsize, hmarks⟩ :=
    saturate_eq hs ha.closed ha.valid had
  refine ⟨next, marks, _, hnext, hsettles, hrun, rfl, moves_withAccepting marks, rfl,
    saturate_saturated hs ha had hsize hmarks, fun w => ?_⟩
  obtain ⟨x, hx, hiff⟩ :=
    (ha.withAccepting marks).accepts_eq hs (had.withAccepting marks) w
  refine ⟨x, hx, hiff.trans ?_⟩
  simp only [ha.admits_iff hs had, Word.ofLetters_append_blank]
  exact acceptsFrom_withAccepting hsize hmarks _ 0

/-- The words that go on up to the first letter in which a proposition is false: saturated, the
automaton accepts them also without that letter. -/
theorem saturate_accepts_firstOf : ∃ s t e b, Diagram.Store.empty? 1 = .ok s ∧
    Diagram.makeVariable 1 s = .ok e t ∧ t.Sound ∧ (firstOf (-e)).Readable t ∧
    (firstOf (-e)).Deterministic t ∧ (firstOf (-e)).saturate t = .ok b t ∧
    b.saturate t = .ok b t ∧ ¬(firstOf (-e)).Admits t [] ∧ b.Admits t [] := by
  obtain ⟨s, t, e, hs, ht, hsound, hformed, hformed'⟩ := exists_formed_loop one_ne_zero
  have he : t.Denotes e fun σ => σ 1 :=
    ((Diagram.yields_makeVariable (Diagram.Store.Sound.empty? hs) 1).of_ok ht).2
  have hvalid := (he.neg hsound).valid
  have hread : (firstOf (-e)).Readable t := by
    have hz : -(-e) ≠ .zero := by
      rw [Diagram.Edge.neg_neg]
      exact hformed.satisfiable 0 _ (hasMove_loop.2 ⟨rfl, rfl⟩)
    exact (formed_firstOf hvalid (hformed'.satisfiable 0 _ (hasMove_loop.2 ⟨rfl, rfl⟩)) hz).readable
  have hdeterministic := deterministic_firstOf hsound hvalid
  obtain ⟨next, marks, b, -, -, hrun, -, -, -, hagain, haccepts⟩ :=
    saturate_accepts hsound hread hdeterministic
  refine ⟨s, t, e, b, hs, ht, hsound, hread, hdeterministic, hrun, hagain, ?_, ?_⟩
  · rw [hread.admits_iff hsound hdeterministic]
    rintro ⟨st, hst, haccepting⟩
    cases hst
    cases haccepting
  · obtain ⟨x, hx, hiff⟩ := haccepts []
    have hone : (firstOf (-e)).Admits t ([] ++ List.replicate 1 ∅) := by
      rw [hread.admits_iff hsound hdeterministic, Word.ofLetters_append_blank]
      have hlabel : t.value (-e) blankLetter = true := by
        rw [(he.neg hsound).value_eq]
        rfl
      exact ⟨1, ⟨_, hasMove_firstOf.2 ⟨rfl, .inr rfl⟩, hlabel, rfl⟩, _, rfl, rfl⟩
    rwa [Admits, ← hiff.2 ⟨1, hone⟩]

end RegularArithmetic.Automaton

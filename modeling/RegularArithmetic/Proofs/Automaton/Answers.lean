import RegularArithmetic.Proofs.Automaton.Letters

/-!
Intersection, union and complement as they are seen from outside, by the words that are accepted,
and the questions about all words. Without a budget each of them ends with a result.
-/

set_option autoImplicit false

namespace RegularArithmetic.Automaton

variable {a b : Automaton}

/-- The operations end with deterministic automata for the intersection, the union and the
complement of the languages, and the questions are answered as the languages are. -/
structure Answerable (x : Alphabet) (a b : Automaton) : Prop where
  intersect : Returns (a.intersect b) x fun c y => c.Decides y.diagrams fun w =>
    a.Admits x.diagrams w ∧ b.Admits x.diagrams w
  union : Returns (a.union b) x fun c y => c.Decides y.diagrams fun w =>
    a.Admits x.diagrams w ∨ b.Admits x.diagrams w
  complement : Returns a.complement x.diagrams fun c t => c.Decides t fun w =>
    ¬a.Admits x.diagrams w
  isEmpty : Answers a.isEmpty fun v => v = true ↔ ∀ w, ¬a.Admits x.diagrams w
  isUniversal : Returns a.isUniversal x.diagrams fun v _ => v = true ↔
    ∀ w, a.Admits x.diagrams w
  isEquivalent : Returns (a.isEquivalent b) x fun v _ => v = true ↔
    ∀ w, a.Admits x.diagrams w ↔ b.Admits x.diagrams w
  truth : Returns a.truth x.diagrams fun v _ => v.Says (a.Admits x.diagrams)

section

variable {x : Alphabet} (hs : x.diagrams.Sound) (ha : a.Formed x.diagrams)
  (had : a.Deterministic x.diagrams)

include hs ha had

theorem returns_decides_complement : Returns a.complement x.diagrams fun c t =>
    c.Decides t fun w => ¬a.Admits x.diagrams w :=
  (returns_complement hs (ha.recognizes had)).mono fun _ _ hle ⟨hc, hsimple⟩ =>
    hc.decides (hs.mono hle) hsimple fun _ => not_congr (ha.readable.admits_iff hs had).symm

theorem answers_isEmpty_iff : Answers a.isEmpty fun v => v = true ↔
    ∀ w, ¬a.Admits x.diagrams w := by
  refine (answers_isEmpty_of_recognizes hs (ha.recognizes had)).mono fun v hv => hv.trans ?_
  simp only [ha.readable.admits_iff hs had]
  exact forall_accepts_iff hs hs ha.readable ha.readable fun P _ => ¬P

theorem returns_isUniversal_iff : Returns a.isUniversal x.diagrams fun v _ => v = true ↔
    ∀ w, a.Admits x.diagrams w := by
  refine (returns_isUniversal hs (ha.recognizes had)).mono fun v _ _ hv => hv.trans ?_
  simp only [ha.readable.admits_iff hs had]
  exact forall_accepts_iff hs hs ha.readable ha.readable fun P _ => P

theorem returns_truth_says : Returns a.truth x.diagrams fun v _ =>
    v.Says (a.Admits x.diagrams) := by
  refine (returns_truth hs (ha.recognizes had)).mono fun v _ _ hv => ?_
  have hadmits := fun w => ha.readable.admits_iff hs had (w := w)
  have hall := forall_accepts_iff hs hs ha.readable ha.readable fun P _ => P
  have hnone := forall_accepts_iff hs hs ha.readable ha.readable fun P _ => ¬P
  cases v <;> simp only [Truth.Says, hadmits] at hv ⊢
  · exact hall.1 hv
  · exact hnone.1 hv
  · refine hv.imp ?_ ?_
    · simpa using not_imp_not.2 hnone.2
    · simpa using not_imp_not.2 hall.2

variable (hbudget : x.budget = none) (hb : b.Formed x.diagrams) (hbd : b.Deterministic x.diagrams)

include hbudget hb hbd

theorem returns_decides_intersect : Returns (a.intersect b) x fun c y =>
    c.Decides y.diagrams fun w => a.Admits x.diagrams w ∧ b.Admits x.diagrams w :=
  (returns_intersect hs hbudget (ha.recognizes had) (hb.recognizes hbd)).mono
    fun _ _ hle ⟨⟨_, hsimple⟩, hc⟩ => hc.decides (hs.mono hle.1) hsimple fun _ =>
      and_congr (ha.readable.admits_iff hs had).symm (hb.readable.admits_iff hs hbd).symm

theorem returns_decides_union : Returns (a.union b) x fun c y =>
    c.Decides y.diagrams fun w => a.Admits x.diagrams w ∨ b.Admits x.diagrams w :=
  (returns_union hs hbudget (ha.recognizes had) (hb.recognizes hbd)).mono
    fun _ _ hle ⟨⟨_, hsimple⟩, hc⟩ => hc.decides (hs.mono hle.1) hsimple fun _ =>
      or_congr (ha.readable.admits_iff hs had).symm (hb.readable.admits_iff hs hbd).symm

theorem returns_isEquivalent_iff : Returns (a.isEquivalent b) x fun v _ => v = true ↔
    ∀ w, a.Admits x.diagrams w ↔ b.Admits x.diagrams w := by
  refine (returns_isEquivalent hs hbudget (ha.recognizes had) (hb.recognizes hbd)).mono
    fun v _ _ hv => hv.trans ?_
  simp only [ha.readable.admits_iff hs had, hb.readable.admits_iff hs hbd]
  exact forall_accepts_iff hs hs ha.readable hb.readable Iff

/-- Well-formed deterministic automata can be combined and asked, if there is no budget. -/
theorem answerable : Answerable x a b where
  intersect := returns_decides_intersect hs ha had hbudget hb hbd
  union := returns_decides_union hs ha had hbudget hb hbd
  complement := returns_decides_complement hs ha had
  isEmpty := answers_isEmpty_iff hs ha had
  isUniversal := returns_isUniversal_iff hs ha had
  isEquivalent := returns_isEquivalent_iff hs ha had hbudget hb hbd
  truth := returns_truth_says hs ha had

end

/-- The words in which a proposition is always true, and those in which it never is. -/
theorem answerable_loop : ∃ s t e, Diagram.Store.empty? 1 = .ok s ∧
    Diagram.makeVariable 1 s = .ok e t ∧ t.Sound ∧
    ((loop e).Formed t ∧ (loop e).Deterministic t) ∧
    ((loop (-e)).Formed t ∧ (loop (-e)).Deterministic t) ∧
    Answerable ⟨t, #["p"], 0, none⟩ (loop e) (loop (-e)) := by
  obtain ⟨s, t, e, hs, ht, hsound, hformed, hformed'⟩ := exists_formed_loop one_ne_zero
  refine ⟨s, t, e, hs, ht, hsound, ⟨hformed, deterministic_loop e⟩,
    ⟨hformed', deterministic_loop _⟩, ?_⟩
  exact answerable (x := ⟨t, #["p"], 0, none⟩) hsound hformed (deterministic_loop e) rfl hformed'
    (deterministic_loop _)

end RegularArithmetic.Automaton

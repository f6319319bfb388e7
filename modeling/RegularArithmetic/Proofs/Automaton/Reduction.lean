import RegularArithmetic.Proofs.Automaton.Canonical
import RegularArithmetic.Proofs.Automaton.Letters

/-!
Reduction as it is seen from outside: the smallest deterministic automaton for the words of letters
that are accepted, which is one and the same for all automata that accept them.
-/

set_option autoImplicit false

namespace RegularArithmetic.Automaton

variable {s t u : Diagram.Store} {a b c d : Automaton} {V : Set Nat} {L : Word → Prop}

/-- A deterministic automaton for `L` without superfluous states or moves, of the least size. -/
structure Smallest (t : Diagram.Store) (c : Automaton) (L : List Letter → Prop) : Prop where
  decides : c.Decides t L
  simple : c.Simple
  reachable : ∀ q < c.size, ∃ w, Reaches t c 0 w q
  productive : (∀ q < c.size, ∃ w, AcceptsFrom t c q w) ∨
    (∀ w, ¬L w) ∧ c.size = 1 ∧ ∀ q m, ¬c.HasMove q m
  least : ∀ (u : Diagram.Store) (b : Automaton), u.Sound → b.Readable u → b.Deterministic u →
    (∀ w, b.Admits u w ↔ L w) → c.size ≤ b.size

theorem accepts_iff_of_admits_iff (hs : s.Sound) (hu : u.Sound) (ha : a.Readable s)
    (had : a.Deterministic s) (hb : b.Readable u) (hbd : b.Deterministic u)
    (h : ∀ w, b.Admits u w ↔ a.Admits s w) (w : Word) : a.Accepts s w ↔ b.Accepts u w := by
  simp only [ha.admits_iff hs had, hb.admits_iff hu hbd] at h
  exact (forall_accepts_iff hs hu ha hb Iff).2 (fun w => (h w).symm) w

theorem Reduced.smallest_of_recognizes (ht : t.Sound) (hc : c.Recognizes t V L)
    (hreduced : c.Reduced t) {K : List Letter → Prop} (hK : ∀ w, L (Word.ofLetters w) ↔ K w) :
    c.Smallest t K where
  decides := hc.decides ht hreduced.simple hK
  simple := hreduced.simple
  reachable := hreduced.trim.reachable
  productive := (hreduced.trim.cases hreduced.formed.nonempty).imp_right fun ⟨hempty, halone⟩ =>
    ⟨fun w hw => hempty _ ((hc.accepts _).2 ((hK w).2 hw)), halone⟩
  least u b hu hb hbd hL := by
    apply hreduced.size_le hb.nonempty hbd
    apply accepts_iff_of_admits_iff ht hu hc.formed.readable hc.deterministic hb hbd
    intro w
    rw [hL, ← hK, ← hc.accepts, hc.formed.readable.admits_iff ht hc.deterministic]

theorem Reduced.smallest (hs : s.Sound) (hle : s ≤ t) (ha : a.Formed s) (had : a.Deterministic s)
    (hc : c.Recognizes t V (a.Accepts s)) (hreduced : c.Reduced t) :
    c.Smallest t (a.Admits s) :=
  hreduced.smallest_of_recognizes (hs.mono hle) hc fun _ => (ha.readable.admits_iff hs had).symm

/-- Reducing ends with the smallest automaton for the language. If later any automaton for the same
language is reduced, then the result is the same but for the numbers of the states. -/
theorem returns_smallest (hs : s.Sound) (ha : a.Formed s) (had : a.Deterministic s) :
    Returns a.reduce s fun c t => c.Smallest t (a.Admits s) ∧
      ∀ (u : Diagram.Store) (b : Automaton), t ≤ u → b.Formed u → b.Deterministic u →
        (∀ w, b.Admits u w ↔ a.Admits s w) →
        Returns b.reduce u fun d _ => ∃ f, Isomorphism c d f := by
  refine (returns_reduced hs (ha.recognizes had)).mono fun c t hst ⟨hc, hreduced⟩ =>
    ⟨hreduced.smallest hs hst ha had hc, fun u b htu hb hbd hL => ?_⟩
  have ht := hs.mono hst
  have hu := ht.mono htu
  refine (returns_reduced hu (hb.recognizes hbd)).mono fun d v huv ⟨hd, hreduced'⟩ => ?_
  refine Reduced.exists_isomorphism (hu.mono huv) (hreduced.mono_store ht (le_trans htu huv))
    hreduced' fun w => ?_
  rw [Accepts, acceptsFrom_mono ht (le_trans htu huv) hc.formed]
  exact ((hc.accepts w).trans (accepts_iff_of_admits_iff hs hu ha.readable had hb.readable hbd
    hL w)).trans (hd.accepts w).symm

/-- The words in which a proposition is always true, reduced twice. -/
theorem returns_smallest_loop : ∃ s t e, Diagram.Store.empty? 1 = .ok s ∧
    Diagram.makeVariable 1 s = .ok e t ∧ t.Sound ∧
    (loop e).Formed t ∧ (loop e).Deterministic t ∧
    Returns (loop e).reduce t fun c u => c.Smallest u ((loop e).Admits t) ∧
      Returns (loop e).reduce u fun d _ => ∃ f, Isomorphism c d f := by
  obtain ⟨s, t, e, hs, ht, hsound, hformed, -⟩ := exists_formed_loop one_ne_zero
  refine ⟨s, t, e, hs, ht, hsound, hformed, deterministic_loop e, ?_⟩
  refine (returns_smallest hsound hformed (deterministic_loop e)).mono fun c u htu ⟨hc, hd⟩ =>
    ⟨hc, hd u _ le_rfl (hformed.mono_store htu) (deterministic_loop e) fun w => ?_⟩
  rw [hformed.readable.admits_iff hsound (deterministic_loop e),
    (hformed.mono_store htu).readable.admits_iff (hsound.mono htu) (deterministic_loop e)]
  exact acceptsFrom_mono hsound htu hformed

end RegularArithmetic.Automaton

import Mathlib.Data.Set.Card
import RegularArithmetic.Proofs.Automaton.Minimization

/-!
A reduced automaton is the smallest one for its language, and the only one of its size: the states
of two reduced automata for one language correspond by the words that they accept, and since equal
functions have equal edges, so do the labels.
-/

set_option autoImplicit false

namespace RegularArithmetic.Automaton

open Diagram (Edge Assignment)

variable {s t u : Diagram.Store} {a b c d : Automaton} {V : Set Nat} {L : Word → Prop}
  {p q r : Nat} {w : Word}

/-- A deterministic automaton without superfluous states or moves, in which different states
accept different words. -/
structure Reduced (s : Diagram.Store) (a : Automaton) : Prop where
  formed : a.Formed s
  deterministic : a.Deterministic s
  simple : a.Simple
  trim : a.IsTrim s
  separated : a.Separated s

/-- The states accept the same words, each in its own automaton. -/
def Same (s t : Diagram.Store) (a b : Automaton) (p q : Nat) : Prop :=
  ∀ w, AcceptsFrom s a p w ↔ AcceptsFrom t b q w

theorem Same.symm (h : Same s t a b p q) : Same t s b a q p := fun w => (h w).symm

/-- A state without accepted words is alone and has no moves. -/
theorem IsTrim.cases (h : a.IsTrim s) (hpos : 0 < a.size) :
    (∀ q < a.size, ∃ w, AcceptsFrom s a q w) ∨
      (∀ w, ¬a.Accepts s w) ∧ a.size = 1 ∧ ∀ q m, ¬a.HasMove q m := by
  by_cases hempty : ∃ w, a.Accepts s w
  · refine .inl ?_
    obtain hproductive | ⟨hsize, -⟩ := h.productive
    · exact hproductive
    · intro q hq
      obtain rfl : q = 0 := by omega
      exact hempty
  · push Not at hempty
    obtain hproductive | ⟨hsize, hmoves⟩ := h.productive
    · obtain ⟨w, hw⟩ := hproductive 0 hpos
      exact absurd hw (hempty w)
    · exact .inr ⟨hempty, hsize, hmoves⟩

theorem same_of_reaches (ha : a.Deterministic s) (hb : b.Deterministic t)
    (hL : ∀ w, a.Accepts s w ↔ b.Accepts t w) (hp : Reaches s a 0 w p) (hq : Reaches t b 0 w q) :
    Same s t a b p q := by
  intro v
  have hleft : a.Accepts s (w ++ v) ↔ AcceptsFrom s a p v := by
    rw [Accepts, acceptsFrom_append]
    exact ⟨fun ⟨p', hp', hv⟩ => ha.reaches_unique hp' hp ▸ hv, fun hv => ⟨p, hp, hv⟩⟩
  have hright : b.Accepts t (w ++ v) ↔ AcceptsFrom t b q v := by
    rw [Accepts, acceptsFrom_append]
    exact ⟨fun ⟨q', hq', hv⟩ => hb.reaches_unique hq' hq ▸ hv, fun hv => ⟨q, hq, hv⟩⟩
  rw [← hleft, ← hright, hL]

theorem exists_same (ha : a.Deterministic s) (hb : b.Deterministic t)
    (hL : ∀ w, a.Accepts s w ↔ b.Accepts t w) (hreach : ∃ w, Reaches s a 0 w p)
    (hproductive : ∃ w, AcceptsFrom s a p w) : ∃ q < b.size, Same s t a b p q := by
  obtain ⟨w, hw⟩ := hreach
  obtain ⟨v, hv⟩ := hproductive
  have haccepts : b.Accepts t (w ++ v) := (hL _).1 (acceptsFrom_append.2 ⟨p, hw, hv⟩)
  obtain ⟨q, hq, hvq⟩ := acceptsFrom_append.1 haccepts
  exact ⟨q, hvq.lt, same_of_reaches ha hb hL hw hq⟩

theorem Separated.eq_of_same (h : a.Separated s) (hp : p < a.size) (hq : q < a.size)
    (hpr : Same s t a b p r) (hqr : Same s t a b q r) : p = q :=
  h p q hp hq fun w => (hpr w).trans (hqr w).symm

theorem Reduced.size_le (ha : a.Reduced s) (hpos : 0 < b.size) (hb : b.Deterministic t)
    (hL : ∀ w, a.Accepts s w ↔ b.Accepts t w) : a.size ≤ b.size := by
  obtain hproductive | ⟨-, hsize, -⟩ := ha.trim.cases ha.formed.nonempty
  · have hsame : ∀ p : Fin a.size, ∃ q : Fin b.size, Same s t a b p q := fun p => by
      obtain ⟨q, hq, hpq⟩ := exists_same ha.deterministic hb hL (ha.trim.reachable p p.2)
        (hproductive p p.2)
      exact ⟨⟨q, hq⟩, hpq⟩
    choose f hf using hsame
    have hinj : Function.Injective f := fun p q hpq => Fin.ext <|
      ha.separated.eq_of_same p.2 q.2 (hf p) (hpq ▸ hf q)
    simpa using Fintype.card_le_of_injective f hinj
  · omega

/-- The states correspond one to one, with the moves and their labels. -/
structure Isomorphism (a b : Automaton) (f : Nat → Nat) : Prop where
  bijOn : Set.BijOn f (Set.Iio a.size) (Set.Iio b.size)
  initial : f 0 = 0
  accepting : ∀ q < a.size, (b.Accepting (f q) ↔ a.Accepting q)
  moves : ∀ q < a.size, ∀ r < a.size, ∀ e, b.HasMove (f q) ⟨f r, e⟩ ↔ a.HasMove q ⟨r, e⟩

theorem Same.exists_step (ha : a.Deterministic s) (hb : b.Deterministic t) (h : Same s t a b p q)
    {l : Assignment} (hr : Step s a p l r) (hproductive : ∃ w, AcceptsFrom s a r w) :
    ∃ r', Step t b q l r' ∧ Same s t a b r r' := by
  obtain ⟨w, hw⟩ := hproductive
  obtain ⟨r', hr', -⟩ := (h (l :: w)).1 ⟨r, hr, hw⟩
  refine ⟨r', hr', fun v => ?_⟩
  have hleft : AcceptsFrom s a p (l :: v) ↔ AcceptsFrom s a r v :=
    ⟨fun ⟨r₁, hr₁, hv⟩ => ha p l r₁ r hr₁ hr ▸ hv, fun hv => ⟨r, hr, hv⟩⟩
  have hright : AcceptsFrom t b q (l :: v) ↔ AcceptsFrom t b r' v :=
    ⟨fun ⟨r₁, hr₁, hv⟩ => hb q l r₁ r' hr₁ hr' ▸ hv, fun hv => ⟨r', hr', hv⟩⟩
  rw [← hleft, ← hright, h (l :: v)]

theorem Simple.step_iff (ha : a.Simple) {e : Edge} (hm : a.HasMove q ⟨r, e⟩) {l : Assignment} :
    Step s a q l r ↔ s.value e l = true := by
  refine ⟨?_, fun hl => ⟨⟨r, e⟩, hm, hl, rfl⟩⟩
  rintro ⟨m, ⟨st, hst, hm'⟩, hl, rfl⟩
  rw [List.inj_on_of_nodup_map (ha q st hst) hm' ((hasMove_iff hst).1 hm) rfl] at hl
  exact hl

theorem hasMove_of_step_iff (hs : s.Sound) (ha : a.Formed s) (hb : b.Formed s) (hasimple : a.Simple)
    (hbsimple : b.Simple) {q' r' : Nat} (hstep : ∀ l, Step s a q l r ↔ Step s b q' l r') {e : Edge}
    (hm : a.HasMove q ⟨r, e⟩) : b.HasMove q' ⟨r', e⟩ := by
  obtain ⟨l, hl⟩ := ha.exists_step hs hm
  obtain ⟨⟨_, e'⟩, hm', -, rfl⟩ := (hstep l).1 hl
  obtain rfl : e = e' := hs.eq_of_value_eq (ha.valid _ _ hm) (hb.valid _ _ hm') fun l =>
    Bool.eq_iff_iff.2 ((hasimple.step_iff hm).symm.trans
      ((hstep l).trans (hbsimple.step_iff hm')))
  exact hm'

theorem Reduced.exists_isomorphism (hs : s.Sound) (ha : a.Reduced s) (hb : b.Reduced s)
    (hL : ∀ w, a.Accepts s w ↔ b.Accepts s w) : ∃ f, Isomorphism a b f := by
  obtain hproductive | ⟨hempty, hsize, hmoves⟩ := ha.trim.cases ha.formed.nonempty
  · have hproductive' : ∀ q < b.size, ∃ w, AcceptsFrom s b q w := by
      refine (hb.trim.cases hb.formed.nonempty).resolve_right fun ⟨hempty, _⟩ => ?_
      obtain ⟨w, hw⟩ := hproductive 0 ha.formed.nonempty
      exact hempty w ((hL w).1 hw)
    have hsame : ∀ p, ∃ q, p < a.size → q < b.size ∧ Same s s a b p q := fun p => by
      by_cases hp : p < a.size
      · obtain ⟨q, hq⟩ := exists_same ha.deterministic hb.deterministic hL
          (ha.trim.reachable p hp) (hproductive p hp)
        exact ⟨q, fun _ => hq⟩
      · exact ⟨0, fun h => absurd h hp⟩
    choose f hf using hsame
    have hunique : ∀ {p q}, p < a.size → q < b.size → Same s s a b p q → f p = q := fun hp hq h =>
      hb.separated.eq_of_same (hf _ hp).1 hq (hf _ hp).2.symm h.symm
    have hstep : ∀ q < a.size, ∀ r < a.size, ∀ l, Step s a q l r ↔ Step s b (f q) l (f r) := by
      intro q hq r hr l
      constructor
      · intro h
        obtain ⟨r', hr', hsame⟩ :=
          (hf q hq).2.exists_step ha.deterministic hb.deterministic h (hproductive r hr)
        rwa [hunique hr (hr'.lt hb.formed) hsame]
      · intro h
        obtain ⟨r', hr', hsame⟩ := (hf q hq).2.symm.exists_step hb.deterministic ha.deterministic h
          (hproductive' _ (hf r hr).1)
        rwa [ha.separated.eq_of_same hr (hr'.lt ha.formed) (hf r hr).2 hsame.symm]
    refine ⟨f, ⟨fun p hp => (hf p hp).1, fun p hp q hq hpq => ?_, fun q hq => ?_⟩, ?_,
      fun q hq => ((hf q hq).2 []).symm, fun q hq r hr e => ?_⟩
    · exact ha.separated.eq_of_same hp hq (hf p hp).2 (hpq ▸ (hf q hq).2)
    · obtain ⟨p, hp, hpq⟩ := exists_same hb.deterministic ha.deterministic (fun w => (hL w).symm)
        (hb.trim.reachable q hq) (hproductive' q hq)
      exact ⟨p, hp, hunique hp hq hpq.symm⟩
    · exact hunique ha.formed.nonempty hb.formed.nonempty hL
    · exact ⟨hasMove_of_step_iff hs hb.formed ha.formed hb.simple ha.simple fun l =>
        (hstep q hq r hr l).symm, hasMove_of_step_iff hs ha.formed hb.formed ha.simple hb.simple
          (hstep q hq r hr)⟩
  · obtain ⟨hempty', hsize', hmoves'⟩ := (hb.trim.cases hb.formed.nonempty).resolve_left
      fun hproductive => by
        obtain ⟨w, hw⟩ := hproductive 0 hb.formed.nonempty
        exact hempty w ((hL w).2 hw)
    refine ⟨id, ?_, rfl, fun q hq => ?_, fun q _ r _ e =>
      iff_of_false (hmoves' _ _) (hmoves _ _)⟩
    · rw [hsize, hsize']
      exact Set.bijOn_id _
    · obtain rfl : q = 0 := by omega
      exact iff_of_false (hempty' []) (hempty [])

theorem Reduced.mono_store (hs : s.Sound) (hst : s ≤ t) (h : a.Reduced s) : a.Reduced t where
  formed := h.formed.mono_store hst
  deterministic := h.deterministic.mono_store hs hst h.formed
  simple := h.simple
  trim := h.trim.mono_store hs hst h.formed
  separated p q hp hq hpq := h.separated p q hp hq fun w => by
    rw [← acceptsFrom_mono hs hst h.formed, ← acceptsFrom_mono hs hst h.formed, hpq]

theorem Reduced.declaring (h : a.Reduced s) (ps : NumberSet) : (a.declaring ps).Reduced s where
  formed := h.formed.declaring ps
  deterministic := h.deterministic
  simple := h.simple
  trim := {
    reachable := fun q hq =>
      let ⟨w, hw⟩ := h.trim.reachable q hq
      ⟨w, (reaches_declaring ps).2 hw⟩
    productive := h.trim.productive.imp_left fun hproductive q hq =>
      let ⟨w, hw⟩ := hproductive q hq
      ⟨w, (acceptsFrom_declaring ps).2 hw⟩ }
  separated p q hp hq hpq := h.separated p q hp hq fun w =>
    (acceptsFrom_declaring ps).symm.trans ((hpq w).trans (acceptsFrom_declaring ps))

theorem returns_reduced (hs : s.Sound) (h : a.Recognizes s V L) :
    Returns a.reduce s fun b t => b.Recognizes t V L ∧ b.Reduced t :=
  (returns_reduce hs h).mono fun _ _ _ ⟨hb, hsimple, htrim, hseparated⟩ =>
    ⟨hb, hb.formed, hb.deterministic, hsimple, htrim, hseparated⟩

end RegularArithmetic.Automaton

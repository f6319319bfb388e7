import RegularArithmetic.Proofs.Automaton.Determinization

/-!
Automata that are made move by move, described by their steps.
-/

set_option autoImplicit false

namespace RegularArithmetic.Automaton

open Diagram (Edge Assignment)

variable {s t : Diagram.Store} {a b : Automaton} {V : Set Nat} {n : Nat} {F : Nat → Prop}
  {N : Nat → Assignment → Nat → Prop}

/-- An automaton with states below `n`, of which those in `F` accept, and the steps in `N`. -/
structure Built (s : Diagram.Store) (V : Set Nat) (n : Nat) (F : Nat → Prop)
    (N : Nat → Assignment → Nat → Prop) (a : Automaton) : Prop where
  size_eq : a.size = n
  accepting : ∀ q, a.Accepting q ↔ F q
  labels : ∀ q m, a.HasMove q m → IsLabel s V m.label ∧ m.target < n
  step : ∀ q l r, Step s a q l r ↔ N q l r
  simple : a.Simple
  props : a.props = ∅

theorem Built.congr {N' : Nat → Assignment → Nat → Prop} (h : Built s V n F N a)
    (hN : ∀ q l r, N q l r ↔ N' q l r) : Built s V n F N' a :=
  { h with step := fun q l r => (h.step q l r).trans (hN q l r) }

theorem Built.mono (h : Built s V n F N a) (hs : s.Sound) (hst : s ≤ t) : Built t V n F N a :=
  { h with
    labels := fun q m hm => ⟨(h.labels q m hm).1.mono_store hs hst, (h.labels q m hm).2⟩
    step := fun q l r => by
      rw [← h.step]
      simp only [Step]
      exact exists_congr fun m => and_congr_right fun hm => by
        rw [hs.value_mono hst (h.labels q m hm).1.valid] }

theorem Built.formed (h : Built s V n F N a) (hn : 0 < n) : a.Formed s where
  nonempty := h.size_eq ▸ hn
  closed q m hm := h.size_eq ▸ (h.labels q m hm).2
  valid q m hm := (h.labels q m hm).1.valid
  satisfiable q m hm := (h.labels q m hm).1.ne_zero

theorem Built.reads (h : Built s V n F N a) : a.Reads s V :=
  ⟨fun q m hm => (h.labels q m hm).1.depends, by simp [h.props]⟩

/-- Some run on the word leads from `q` to an accepting state, in terms of the steps. -/
def RunFrom (F : Nat → Prop) (N : Nat → Assignment → Nat → Prop) : Nat → Word → Prop
  | q, [] => F q
  | q, l :: w => ∃ r, N q l r ∧ RunFrom F N r w

theorem Built.acceptsFrom_iff (h : Built s V n F N a) (w : Word) :
    ∀ q, AcceptsFrom s a q w ↔ RunFrom F N q w := by
  induction w with
  | nil => exact h.accepting
  | cons l w ih => exact fun q => exists_congr fun r => and_congr (h.step q l r) (ih r)

theorem built_blank (hn : 0 < n) :
    Built s V n (fun _ => False) (fun _ _ _ => False) (Automaton.blank n) := by
  have hget : ∀ {p : Nat} {st}, (Automaton.blank n).states[p]? = some st → st = ⟨false, []⟩ := by
    intro p st hst
    simp only [blank, Array.getElem?_replicate] at hst
    split at hst <;> cases hst
    rfl
  have hmove : ∀ p m, ¬(Automaton.blank n).HasMove p m := by
    rintro p m ⟨st, hst, hm⟩
    rw [hget hst] at hm
    simp at hm
  refine ⟨?_, fun p => iff_of_false ?_ id, fun p m hm => absurd hm (hmove p m),
    fun p l r => iff_of_false ?_ id, fun p st hst => ?_, rfl⟩
  · simpa [blank, size] using Nat.max_eq_left hn
  · rintro ⟨st, hst, haccepting⟩
    rw [hget hst] at haccepting
    cases haccepting
  · rintro ⟨m, hm, -⟩
    exact hmove p m hm
  · rw [hget hst]
    exact List.nodup_nil

theorem Built.answers_setAccepting (h : Built s V n F N a) {q : Nat} (hq : q < n) (b : Bool) :
    Answers (a.setAccepting q b) fun c =>
      Built s V n (fun p => if p = q then b = true else F p) N c := by
  have hqa : q < a.size := lt_of_lt_of_eq hq h.size_eq.symm
  unfold setAccepting
  rw [if_pos hqa]
  refine .ok ?_
  set states := a.states.modify q fun st => { st with accepting := b } with hstates
  have hget : ∀ p : Nat, states[p]? =
      (a.states[p]?).map fun st => if p = q then { st with accepting := b } else st := by
    intro p
    rw [hstates, Array.getElem?_modify]
    by_cases hp : q = p
    · subst hp
      simp
    · simp [hp, Ne.symm hp]
  have hmove : ∀ p m, HasMove ⟨states, a.props⟩ p m ↔ a.HasMove p m := by
    intro p m
    simp only [HasMove, hget, Option.map_eq_some_iff]
    constructor
    · rintro ⟨_, ⟨st, hst, rfl⟩, hm⟩
      refine ⟨st, hst, ?_⟩
      split at hm <;> exact hm
    · rintro ⟨st, hst, hm⟩
      refine ⟨_, ⟨st, hst, rfl⟩, ?_⟩
      split <;> exact hm
  refine ⟨by simpa [hstates, size] using h.size_eq, fun p => ?_, fun p m hm => ?_,
    fun p l r => ?_, fun p st hst => ?_, h.props⟩
  · simp only [Accepting, hget]
    by_cases hp : p = q
    · subst hp
      simp [Array.getElem?_eq_getElem (show p < a.states.size from hqa)]
    · simpa [hp, Accepting] using h.accepting p
  · exact h.labels p m ((hmove p m).1 hm)
  · simpa only [Step, hmove] using h.step p l r
  · obtain ⟨st, hst', rfl⟩ := Option.map_eq_some_iff.1 ((hget p).symm.trans hst)
    have hnodup := h.simple p st hst'
    split <;> exact hnodup

theorem answers_start {n q : Nat} (hq : q < n) :
    Answers ((Automaton.blank n).setAccepting q true) fun a =>
      Built s V n (· = q) (fun _ _ _ => False) a := by
  have hblank := built_blank (s := s) (V := V) (Nat.zero_lt_of_lt hq)
  exact (hblank.answers_setAccepting hq true).mono fun a ha =>
    { ha with accepting := fun p => (ha.accepting p).trans (by simp) }

theorem gives_start {n q : Nat} (hn : 0 < n) :
    Gives ((Automaton.blank n).setAccepting q true) fun a =>
      Built s V n (· = q) (fun _ _ _ => False) a := by
  by_cases hq : q < n
  · exact (answers_start hq).gives
  · have hsize : ¬q < (Automaton.blank n).size := by
      rwa [(built_blank (s := s) (V := V) hn).size_eq]
    rw [setAccepting, if_neg hsize]
    exact .error

theorem yields_addMove (hs : s.Sound) (h : Built s V n F N a) {q r : Nat} (hr : r < n) {e : Edge}
    {φ : Assignment → Bool} (he : s.Denotes e φ) (hV : DependsOn V φ) :
    Yields (a.addMove q ⟨r, e⟩) s fun b t =>
      Built t V n F (fun q' l r' => N q' l r' ∨ q' = q ∧ φ l = true ∧ r' = r) b := by
  unfold addMove
  refine Yields.ite (fun hz => .pure (h.congr fun q' l r' => ?_)) fun _ => ?_
  · have hφ : φ l = false := by
      rw [← he.value_eq, show e = .zero from hz, Diagram.Store.value_zero]
    simp [hφ]
  · refine Yields.bind (P := fun st t => s = t ∧ a.states[q]? = some st)
      (Yields.liftExcept (gives_state.mono fun st hst => ⟨rfl, hst⟩)) ?_
    rintro st t - ⟨rfl, hst⟩
    have hms : ∀ m ∈ st.moves, IsLabel s V m.label := fun m hm =>
      (h.labels q m ((hasMove_iff hst).2 hm)).1
    refine (returns_merge hs hms he.valid (he.value_eq ▸ hV) (h.simple q st hst)).yields.bind
      fun ms t hle hmerged => .pure ?_
    obtain ⟨⟨hms', htakes⟩, hnodup⟩ := hmerged
    set states := a.states.setIfInBounds q { st with moves := ms } with hstates
    have hself : (⟨states, a.props⟩ : Automaton).states[q]? = some { st with moves := ms } := by
      have hq : q < a.states.size := (Array.getElem?_eq_some_iff.1 hst).1
      simp [hstates, hq]
    have hother : ∀ {q' : Nat}, q' ≠ q →
        (⟨states, a.props⟩ : Automaton).states[q']? = a.states[q']? := by
      intro q' hne
      simp only [hstates, Array.getElem?_setIfInBounds, if_neg hne.symm]
    have ht := h.mono hs hle
    refine ⟨by simpa [hstates, size] using h.size_eq, fun q' => ?_, fun q' m hm => ?_,
      fun q' l r' => ?_, fun q' st' hst' => ?_, h.props⟩
    · by_cases hq' : q' = q
      · subst hq'
        rw [accepting_iff hself, ← h.accepting, accepting_iff hst]
      · rw [← h.accepting]
        simp only [Accepting, hother hq']
    · by_cases hq' : q' = q
      · subst hq'
        rw [hasMove_iff hself] at hm
        refine ⟨hms' m hm, ?_⟩
        obtain ⟨l, hl⟩ := (hms' m hm).exists_value (hs.mono hle)
        rcases (htakes l m.target).1 ⟨m, hm, hl, rfl⟩ with ⟨m', hm', -, heq⟩ | ⟨-, heq⟩
        · exact heq ▸ (h.labels q' m' ((hasMove_iff hst).2 hm')).2
        · exact heq ▸ hr
      · simp only [HasMove, hother hq'] at hm
        exact ht.labels q' m hm
    · by_cases hq' : q' = q
      · subst hq'
        rw [step_iff_takes hself, htakes, ← h.step, step_iff_takes hst, he.value_eq]
        refine or_congr Iff.rfl ?_
        rw [eq_self, true_and, eq_comm (a := r')]
      · rw [← ht.step]
        simp only [Step, HasMove, hother hq', hq', false_and, or_false]
    · by_cases hq' : q' = q
      · subst hq'
        cases hself.symm.trans hst'
        exact hnodup
      · exact h.simple q' st' ((hother hq').symm.trans hst')

theorem Built.succeeds_addMove (hs : s.Sound) (h : Built s V n F N a) {q : Nat} (hq : q < n)
    {m : Move} (hm : s.Valid m.label) (hV : DependsOn V (s.value m.label)) :
    Succeeds (a.addMove q m) s := by
  unfold addMove
  refine Succeeds.ite (fun _ => .pure) fun _ => ?_
  have hst := answers_state (lt_of_lt_of_eq hq h.size_eq.symm)
  refine (Returns.liftExcept (P := fun st t => s = t ∧ a.states[q]? = some st)
    (hst.mono fun st hst => ⟨rfl, hst⟩)).bind_succeeds ?_
  rintro st _ - ⟨rfl, hst⟩
  refine (succeeds_merge hs (fun m hm => ?_) hm hV).bind_pure
  exact (h.labels q m ((hasMove_iff hst).2 hm)).1

theorem returns_addMove (hs : s.Sound) (h : Built s V n F N a) {q r : Nat} (hq : q < n)
    (hr : r < n) {e : Edge} {φ : Assignment → Bool} (he : s.Denotes e φ) (hV : DependsOn V φ) :
    Returns (a.addMove q ⟨r, e⟩) s fun b t =>
      Built t V n F (fun q' l r' => N q' l r' ∨ q' = q ∧ φ l = true ∧ r' = r) b :=
  (h.succeeds_addMove hs hq he.valid (he.value_eq ▸ hV)).returns (yields_addMove hs h hr he hV)

end RegularArithmetic.Automaton

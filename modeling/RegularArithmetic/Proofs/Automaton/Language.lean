import RegularArithmetic.Automaton.Basic
import RegularArithmetic.Proofs.Diagram.Choice
import RegularArithmetic.Proofs.NumberSet

/-!
The language of an automaton: a word is accepted if some run on it ends in an accepting state.
An automaton is described by its language together with the propositions that it reads, and
keeps both while the diagrams of its labels are joined by others.
-/

set_option autoImplicit false

namespace RegularArithmetic

open Diagram (Edge Assignment)

/-- Each letter gives a truth value to every proposition. -/
abbrev Word := List Assignment

namespace Automaton

variable {s t : Diagram.Store} {a b : Automaton} {q r : Nat} {l : Assignment} {w : Word}

def Accepting (a : Automaton) (q : Nat) : Prop :=
  ∃ st, a.states[q]? = some st ∧ st.accepting = true

/-- The automaton has this move from `q`. -/
def HasMove (a : Automaton) (q : Nat) (m : Move) : Prop :=
  ∃ st, a.states[q]? = some st ∧ m ∈ st.moves

/-- A move from `q` to `r` takes the letter. -/
def Step (s : Diagram.Store) (a : Automaton) (q : Nat) (l : Assignment) (r : Nat) : Prop :=
  ∃ m, a.HasMove q m ∧ s.value m.label l = true ∧ m.target = r

/-- Some run on the word leads from `q` to an accepting state. -/
def AcceptsFrom (s : Diagram.Store) (a : Automaton) : Nat → Word → Prop
  | q, [] => a.Accepting q
  | q, l :: w => ∃ r, Step s a q l r ∧ AcceptsFrom s a r w

/-- The word is accepted from the initial state. -/
def Accepts (s : Diagram.Store) (a : Automaton) (w : Word) : Prop := AcceptsFrom s a 0 w

/-- There is an initial state, every move leads to a state, and every label is satisfiable. -/
structure Formed (s : Diagram.Store) (a : Automaton) : Prop where
  nonempty : 0 < a.size
  closed : ∀ q m, a.HasMove q m → m.target < a.size
  valid : ∀ q m, a.HasMove q m → s.Valid m.label
  satisfiable : ∀ q m, a.HasMove q m → m.label ≠ .zero

/-- From every state each letter leads to at most one state. -/
def Deterministic (s : Diagram.Store) (a : Automaton) : Prop :=
  ∀ q l r r', Step s a q l r → Step s a q l r' → r = r'

def Simple (a : Automaton) : Prop :=
  ∀ (q : Nat) (st : State), a.states[q]? = some st → (st.moves.map (·.target)).Nodup

/-- The function depends only on the propositions in `V`. -/
def DependsOn (V : Set Nat) (φ : Assignment → Bool) : Prop :=
  ∀ σ τ : Assignment, (∀ p ∈ V, σ p = τ p) → φ σ = φ τ

/-- Labels and declarations are about propositions in `V` only. -/
structure Reads (s : Diagram.Store) (a : Automaton) (V : Set Nat) : Prop where
  labels : ∀ q m, a.HasMove q m → DependsOn V (s.value m.label)
  props : ∀ p ∈ a.props, p ∈ V

/-- The automaton is well-formed and deterministic, reads only propositions in `V`, and accepts
exactly the words in `L`. -/
structure Recognizes (s : Diagram.Store) (a : Automaton) (V : Set Nat) (L : Word → Prop) :
    Prop where
  formed : a.Formed s
  deterministic : a.Deterministic s
  reads : a.Reads s V
  accepts : ∀ w, a.Accepts s w ↔ L w

theorem state_eq_ok {st : State} : a.state q = .ok st ↔ a.states[q]? = some st := by
  simp only [state]
  split <;> simp_all

theorem gives_state : Gives (a.state q) fun st => a.states[q]? = some st :=
  fun _ h => state_eq_ok.1 h

theorem isAccepting_eq_ok {x : Bool} :
    a.isAccepting q = .ok x ↔ q < a.size ∧ (x = true ↔ a.Accepting q) := by
  simp only [isAccepting, state, Accepting, size]
  by_cases hq : q < a.states.size
  · rw [Array.getElem?_eq_getElem hq]
    cases x <;> cases h : a.states[q].accepting <;>
      simp [bind, Except.bind, pure, Except.pure, h, hq]
  · rw [Array.getElem?_eq_none (Nat.le_of_not_lt hq)]
    simp [bind, Except.bind, hq]

theorem Accepting.lt (h : a.Accepting q) : q < a.size := by
  obtain ⟨st, hst, -⟩ := h
  exact (Array.getElem?_eq_some_iff.1 hst).1

theorem HasMove.lt {m : Move} (h : a.HasMove q m) : q < a.size := by
  obtain ⟨st, hst, -⟩ := h
  exact (Array.getElem?_eq_some_iff.1 hst).1

theorem hasMove_iff {st : State} {m : Move} (h : a.states[q]? = some st) :
    a.HasMove q m ↔ m ∈ st.moves := by
  simp [HasMove, h]

theorem accepting_iff {st : State} (h : a.states[q]? = some st) :
    a.Accepting q ↔ st.accepting = true := by
  simp [Accepting, h]

theorem Formed.exists_state (_ : a.Formed s) (hq : q < a.size) : ∃ st, a.states[q]? = some st :=
  ⟨a.states[q], Array.getElem?_eq_getElem hq⟩

theorem Step.lt (h : a.Formed s) (hs : Step s a q l r) : r < a.size := by
  obtain ⟨m, hm, -, rfl⟩ := hs
  exact h.closed q m hm

theorem DependsOn.mono {V W : Set Nat} {φ : Assignment → Bool} (h : DependsOn V φ) (hVW : V ⊆ W) :
    DependsOn W φ :=
  fun σ τ hστ => h σ τ fun p hp => hστ p (hVW hp)

theorem Reads.mono {V W : Set Nat} (h : a.Reads s V) (hVW : V ⊆ W) : a.Reads s W :=
  ⟨fun q m hm => (h.labels q m hm).mono hVW, fun p hp => hVW (h.props p hp)⟩

theorem dependsOn_univ (φ : Assignment → Bool) : DependsOn Set.univ φ :=
  fun _ _ hστ => congrArg φ (funext fun p => hστ p trivial)

theorem reads_univ (a : Automaton) : a.Reads s Set.univ :=
  ⟨fun _ _ _ => dependsOn_univ _, fun _ _ => trivial⟩

theorem Formed.mono_store (h : a.Formed s) (hst : s ≤ t) : a.Formed t :=
  { h with valid := fun q m hm => (h.valid q m hm).mono hst }

section

variable (hs : s.Sound) (hst : s ≤ t)

include hs hst

theorem step_mono (h : a.Formed s) : Step t a q l r ↔ Step s a q l r := by
  constructor
  · rintro ⟨m, hm, hl, rfl⟩
    exact ⟨m, hm, by rwa [hs.value_mono hst (h.valid q m hm)] at hl, rfl⟩
  · rintro ⟨m, hm, hl, rfl⟩
    exact ⟨m, hm, by rwa [hs.value_mono hst (h.valid q m hm)], rfl⟩

theorem acceptsFrom_mono (h : a.Formed s) : AcceptsFrom t a q w ↔ AcceptsFrom s a q w := by
  induction w generalizing q with
  | nil => rfl
  | cons l w ih => simp only [AcceptsFrom, step_mono hs hst h, ih]

theorem Deterministic.mono_store (h : a.Formed s) (hd : a.Deterministic s) :
    a.Deterministic t := by
  intro q l r r' hr hr'
  rw [step_mono hs hst h] at hr hr'
  exact hd q l r r' hr hr'

theorem Reads.mono_store {V : Set Nat} (h : a.Formed s) (hr : a.Reads s V) : a.Reads t V :=
  ⟨fun q m hm => by
    rw [hs.value_mono hst (h.valid q m hm)]
    exact hr.labels q m hm, hr.props⟩

theorem Recognizes.mono_store {V : Set Nat} {L : Word → Prop} (h : a.Recognizes s V L) :
    a.Recognizes t V L where
  formed := h.formed.mono_store hst
  deterministic := h.deterministic.mono_store hs hst h.formed
  reads := h.reads.mono_store hs hst h.formed
  accepts w := (acceptsFrom_mono hs hst h.formed).trans (h.accepts w)

end

theorem Recognizes.mono {V W : Set Nat} {L : Word → Prop} (h : a.Recognizes s V L)
    (hVW : V ⊆ W) : a.Recognizes s W L :=
  { h with reads := h.reads.mono hVW }

theorem Recognizes.congr {V : Set Nat} {L L' : Word → Prop} (h : a.Recognizes s V L)
    (hL : ∀ w, L w ↔ L' w) : a.Recognizes s V L' :=
  { h with accepts := fun w => (h.accepts w).trans (hL w) }

/-- If `R` relates the states of one automaton to states of another that can follow every
accepting run, then what the one accepts is accepted by the other. -/
theorem acceptsFrom_of_simulation (R : Nat → Nat → Prop)
    (haccepting : ∀ q q', R q q' → a.Accepting q → b.Accepting q')
    (hstep : ∀ q q' l r w, R q q' → Step s a q l r → AcceptsFrom s a r w →
      ∃ r', Step t b q' l r' ∧ R r r') :
    ∀ (w : Word) (q q' : Nat), R q q' → AcceptsFrom s a q w → AcceptsFrom t b q' w
  | [], q, q', hR, h => haccepting q q' hR h
  | l :: w, q, q', hR, ⟨r, hr, hw⟩ => by
    obtain ⟨r', hr', hR'⟩ := hstep q q' l r w hR hr hw
    exact ⟨r', hr', acceptsFrom_of_simulation R haccepting hstep w r r' hR' hw⟩

theorem AcceptsFrom.lt (h : AcceptsFrom s a q w) : q < a.size := by
  cases w with
  | nil => exact Accepting.lt h
  | cons l w =>
    obtain ⟨r, ⟨m, hm, -⟩, -⟩ := h
    exact hm.lt

/-- Some run on the word leads from `q` to `r`. -/
def Reaches (s : Diagram.Store) (a : Automaton) : Nat → Word → Nat → Prop
  | q, [], r => q = r
  | q, l :: w, r => ∃ p, Step s a q l p ∧ Reaches s a p w r

theorem reaches_append {w w' : Word} :
    Reaches s a q (w ++ w') r ↔ ∃ p, Reaches s a q w p ∧ Reaches s a p w' r := by
  induction w generalizing q with
  | nil => simp [Reaches]
  | cons l w ih =>
    simp only [List.cons_append, Reaches, ih]
    constructor
    · rintro ⟨p, hp, p', hp', hr⟩
      exact ⟨p', ⟨p, hp, hp'⟩, hr⟩
    · rintro ⟨p', ⟨p, hp, hp'⟩, hr⟩
      exact ⟨p, hp, p', hp', hr⟩

theorem reaches_concat : Reaches s a q (w ++ [l]) r ↔ ∃ p, Reaches s a q w p ∧ Step s a p l r := by
  simp [reaches_append, Reaches]

theorem acceptsFrom_append {w' : Word} :
    AcceptsFrom s a q (w ++ w') ↔ ∃ r, Reaches s a q w r ∧ AcceptsFrom s a r w' := by
  induction w generalizing q with
  | nil => simp [Reaches]
  | cons l w ih =>
    simp only [List.cons_append, AcceptsFrom, Reaches, ih]
    constructor
    · rintro ⟨p, hp, r, hr, hw⟩
      exact ⟨r, ⟨p, hp, hr⟩, hw⟩
    · rintro ⟨r, ⟨p, hp, hr⟩, hw⟩
      exact ⟨p, hp, r, hr, hw⟩

theorem acceptsFrom_iff_reaches : AcceptsFrom s a q w ↔ ∃ r, Reaches s a q w r ∧ a.Accepting r := by
  rw [← List.append_nil w, acceptsFrom_append, List.append_nil]
  rfl

theorem Reaches.lt (h : a.Formed s) (hq : q < a.size) (hr : Reaches s a q w r) : r < a.size := by
  induction w generalizing q with
  | nil => exact lt_of_eq_of_lt hr.symm hq
  | cons l w ih =>
    obtain ⟨p, hp, hr⟩ := hr
    exact ih (hp.lt h) hr

theorem Deterministic.reaches_unique (h : a.Deterministic s) {r' : Nat} (hr : Reaches s a q w r)
    (hr' : Reaches s a q w r') : r = r' := by
  induction w generalizing q with
  | nil => exact (Eq.symm hr).trans hr'
  | cons l w ih =>
    obtain ⟨p, hp, hr⟩ := hr
    obtain ⟨p', hp', hr'⟩ := hr'
    obtain rfl := h q l p p' hp hp'
    exact ih hr hr'

theorem Formed.exists_step (h : a.Formed s) (hs : s.Sound) {m : Move} (hm : a.HasMove q m) :
    ∃ l, Step s a q l m.target := by
  obtain ⟨l, hl⟩ := hs.exists_value (h.valid q m hm) (h.satisfiable q m hm)
  exact ⟨l, m, hm, hl, rfl⟩

def declaring (a : Automaton) (ps : NumberSet) : Automaton := { a with props := ps }

theorem acceptsFrom_declaring (ps : NumberSet) :
    AcceptsFrom s (a.declaring ps) q w ↔ AcceptsFrom s a q w := by
  induction w generalizing q with
  | nil => rfl
  | cons l w ih =>
    simp only [AcceptsFrom, ih]
    rfl

theorem reaches_declaring (ps : NumberSet) {r : Nat} :
    Reaches s (a.declaring ps) q w r ↔ Reaches s a q w r := by
  induction w generalizing q with
  | nil => rfl
  | cons l w ih =>
    simp only [Reaches, ih]
    rfl

theorem Formed.declaring (h : a.Formed s) (ps : NumberSet) : (a.declaring ps).Formed s :=
  ⟨h.nonempty, h.closed, h.valid, h.satisfiable⟩

theorem Recognizes.declaring {V : Set Nat} {L : Word → Prop} (h : a.Recognizes s V L)
    {ps : NumberSet} (hps : ∀ p ∈ ps, p ∈ V) : (a.declaring ps).Recognizes s V L where
  formed := h.formed.declaring ps
  deterministic := h.deterministic
  reads := ⟨h.reads.labels, hps⟩
  accepts w := (acceptsFrom_declaring ps).trans (h.accepts w)

theorem Recognizes.withProps {V : Set Nat} {L : Word → Prop} (h : a.Recognizes s V L)
    {ps : List Nat} (hps : ∀ p ∈ ps, p ∈ V) : (a.withProps ps).Recognizes s V L :=
  h.declaring fun p hp => (NumberSet.mem_insertAll.1 hp).elim (hps p) (h.reads.props p)

end Automaton

end RegularArithmetic

import RegularArithmetic.Automaton.ZeroPadding
import RegularArithmetic.Proofs.Automaton.Minimization

/-!
Saturating a deterministic automaton: a word is accepted if all-false letters behind it lead to
acceptance.
-/

set_option autoImplicit false

namespace RegularArithmetic.Automaton

open Diagram (Edge Assignment)

variable {s t : Diagram.Store} {a b : Automaton} {V : Set Nat} {L : Word → Prop}

/-- The letter that makes every proposition false. -/
def blankLetter : Assignment := fun _ => false

def padding (k : Nat) : Word := List.replicate k blankLetter

@[simp] theorem length_padding (k : Nat) : (padding k).length = k := List.length_replicate

theorem gives_eval (e : Edge) (l : Assignment) :
    Gives (s.eval l e) fun b => b = true ↔ s.value e l = true := by
  intro b hb
  rw [Diagram.Store.value, hb]
  rfl

theorem gives_zeroMoves (st : State) :
    Gives (zeroMoves s st) fun ms => ∀ m, m ∈ ms ↔ m ∈ st.moves ∧ s.value m.label blankLetter := by
  unfold zeroMoves
  exact Gives.filterM fun m _ => gives_eval m.label blankLetter

theorem yields_zeroSuccessors : Yields a.zeroSuccessors s fun next t =>
    s = t ∧ next.size = a.size ∧ ∀ q r, r ∈ next.getD q [] ↔ Step s a q blankLetter r := by
  refine Diagram.Yields.ask (Gives.mono (Gives.mapMArray
    (fun st (rs : List Nat) => ∀ r, r ∈ rs ↔ Takes s st.moves blankLetter r) a.states
    fun st _ => (gives_zeroMoves st).bind fun ms hms => .pure fun r => ?_) fun next hnext => ?_)
  · simp only [List.mem_map, hms, Takes, and_assoc]
  · have hsize : next.size = a.size := by
      simpa [size] using hnext.length_eq.symm
    refine ⟨rfl, hsize, fun q r => ?_⟩
    by_cases hq : q < a.size
    · have hst : a.states[q]? = some a.states[q] := Array.getElem?_eq_getElem hq
      obtain ⟨rs, hrs, hR⟩ := forall₂_getElem? hnext (i := q) (a := a.states[q])
        (by rw [Array.getElem?_toList, hst])
      rw [Array.getElem?_toList] at hrs
      rw [Array.getD_eq_getD_getElem?, hrs, Option.getD_some, hR, step_iff_takes hst]
    · rw [Array.getD_eq_getD_getElem?, Array.getElem?_eq_none (by omega)]
      refine iff_of_false (by simp) ?_
      rintro ⟨m, hm, -⟩
      exact hq hm.lt

theorem returns_zeroSuccessors (hs : s.Sound) (h : ∀ q m, a.HasMove q m → s.Valid m.label) :
    Returns a.zeroSuccessors s fun next t =>
      s = t ∧ next.size = a.size ∧ ∀ q r, r ∈ next.getD q [] ↔ Step s a q blankLetter r := by
  refine Succeeds.returns ?_ yields_zeroSuccessors
  obtain ⟨next, hnext, -⟩ : Answers (a.states.mapM fun q => do
      return (← zeroMoves s q).map (·.target)) fun _ => True := by
    refine (Answers.mapMArray (fun _ _ => True) a.states fun st hst => ?_).mono
      fun _ _ => trivial
    obtain ⟨q, hq⟩ := Array.mem_iff_getElem?.1 (Array.mem_toList_iff.1 hst)
    refine (Answers.filterM fun m hm => ?_).bind fun _ _ => .pure trivial
    exact ⟨_, hs.eval_eq (h q m ((hasMove_iff hq).2 hm)) _, trivial⟩
  exact ⟨next, s, Diagram.ask_of_ok hnext⟩

theorem leads_iff {next : Array (List Nat)} {marks : Array Bool}
    (hmarks : ∀ q : Nat, marks[q]? = some true ↔ a.Accepting q)
    (hnext : ∀ q r, r ∈ next.getD q [] ↔ Step s a q blankLetter r) {q : Nat} :
    Leads next marks q ↔ ∃ k, AcceptsFrom s a q (padding k) := by
  constructor
  · intro h
    induction h with
    | marked h => exact ⟨0, (hmarks _).1 h⟩
    | step hr _ ih =>
      obtain ⟨k, hk⟩ := ih
      exact ⟨k + 1, _, (hnext _ _).1 hr, hk⟩
  · rintro ⟨k, hk⟩
    induction k generalizing q with
    | zero => exact .marked ((hmarks q).2 hk)
    | succ k ih =>
      obtain ⟨r, hr, hw⟩ := hk
      exact .step ((hnext q r).2 hr) (ih hw)

/-- Of the all-false successors of a state of a deterministic automaton the first is the only
one. -/
theorem mem_take_one (ha : a.Deterministic s) {next : Array (List Nat)}
    (hnext : ∀ q r, r ∈ next.getD q [] ↔ Step s a q blankLetter r) (q r : Nat) :
    r ∈ (next.map (·.take 1)).getD q [] ↔ Step s a q blankLetter r := by
  have htake : (next.map (·.take 1)).getD q [] = (next.getD q []).take 1 := by
    simp only [Array.getD_eq_getD_getElem?, Array.getElem?_map]
    cases next[q]? <;> rfl
  rw [htake]
  cases hlist : next.getD q [] with
  | nil =>
    have := hnext q r
    simpa [hlist] using this
  | cons r' rs =>
    have hr' : Step s a q blankLetter r' := (hnext q r').1 (by simp [hlist])
    rw [List.take_succ_cons, List.take_zero, List.mem_singleton]
    refine ⟨fun h => h ▸ hr', fun h => ha q blankLetter r r' h hr'⟩

theorem hasMove_withAccepting {marks : Array Bool} {q : Nat} {m : Move} :
    (a.withAccepting marks).HasMove q m ↔ a.HasMove q m := by
  simp only [HasMove, withAccepting, Array.getElem?_mapIdx, Option.map_eq_some_iff]
  constructor
  · rintro ⟨_, ⟨st, hst, rfl⟩, hm⟩
    exact ⟨st, hst, hm⟩
  · rintro ⟨st, hst, hm⟩
    exact ⟨_, ⟨st, hst, rfl⟩, hm⟩

theorem accepting_withAccepting {marks : Array Bool} (hsize : marks.size = a.size) {q : Nat} :
    (a.withAccepting marks).Accepting q ↔ marks[q]? = some true := by
  simp only [Accepting, withAccepting, Array.getElem?_mapIdx, Option.map_eq_some_iff]
  constructor
  · rintro ⟨_, ⟨st, hst, rfl⟩, h⟩
    exact getD_marks_eq_true.1 h
  · intro h
    have hq : q < a.states.size := lt_of_lt_of_eq (Array.getElem?_eq_some_iff.1 h).1 hsize
    exact ⟨_, ⟨a.states[q], Array.getElem?_eq_getElem hq, rfl⟩, getD_marks_eq_true.2 h⟩

theorem step_withAccepting {marks : Array Bool} {q r : Nat} {l : Assignment} :
    Step s (a.withAccepting marks) q l r ↔ Step s a q l r := by
  simp only [Step, hasMove_withAccepting]

theorem Formed.withAccepting (h : a.Formed s) (marks : Array Bool) :
    (a.withAccepting marks).Formed s where
  nonempty := by simpa [Automaton.withAccepting, size] using h.nonempty
  closed q m hm := by
    simpa [Automaton.withAccepting, size] using h.closed q m (hasMove_withAccepting.1 hm)
  valid q m hm := h.valid q m (hasMove_withAccepting.1 hm)
  satisfiable q m hm := h.satisfiable q m (hasMove_withAccepting.1 hm)

theorem Deterministic.withAccepting (h : a.Deterministic s) (marks : Array Bool) :
    (a.withAccepting marks).Deterministic s := fun q l r r' hr hr' =>
  h q l r r' (step_withAccepting.1 hr) (step_withAccepting.1 hr')

theorem acceptsFrom_withAccepting {marks : Array Bool} (hsize : marks.size = a.size)
    (hmarks : ∀ q : Nat, marks[q]? = some true ↔ ∃ k, AcceptsFrom s a q (padding k))
    (w : Word) : ∀ q, AcceptsFrom s (a.withAccepting marks) q w ↔
      ∃ k, AcceptsFrom s a q (w ++ padding k) := by
  induction w with
  | nil => exact fun q => (accepting_withAccepting hsize).trans (hmarks q)
  | cons l w ih =>
    intro q
    simp only [AcceptsFrom, List.cons_append, step_withAccepting, ih]
    constructor
    · rintro ⟨r, hr, k, hk⟩
      exact ⟨k, r, hr, hk⟩
    · rintro ⟨k, r, hr, hk⟩
      exact ⟨r, hr, k, hk⟩

/-- The loop that saturates a deterministic automaton comes to an end of itself, and then the
accepting states are those from which all-false letters lead to acceptance. -/
theorem saturate_eq (hs : s.Sound) (hclosed : ∀ q m, a.HasMove q m → m.target < a.size)
    (hvalid : ∀ q m, a.HasMove q m → s.Valid m.label) (ha : a.Deterministic s) :
    ∃ next marks, a.zeroSuccessors s = .ok next s ∧
      Settles (next.map (·.take 1)) (a.states.map (·.accepting)) marks ∧
      a.saturate s = .ok (a.withAccepting marks) s ∧ marks.size = a.size ∧
      ∀ q : Nat, marks[q]? = some true ↔ ∃ k, AcceptsFrom s a q (padding k) := by
  obtain ⟨next, t, hrun, -, rfl, hsize, hnext⟩ := returns_zeroSuccessors hs hvalid
  have htake := mem_take_one ha hnext
  have hmarks : ∀ q : Nat, (a.states.map (·.accepting))[q]? = some true ↔ a.Accepting q := by
    intro q
    simp [Accepting]
  have hlt : ∀ q, ∀ r ∈ (next.map (·.take 1)).getD q [],
      r < (a.states.map (·.accepting)).size := by
    intro q r hr
    obtain ⟨m, hm, -, rfl⟩ := (htake q r).1 hr
    simpa [size] using hclosed q m hm
  have hnextsize : (next.map (·.take 1)).size ≤ (a.states.map (·.accepting)).size := by
    simp [hsize, size]
  obtain ⟨marks, hleading, hsettles⟩ := answers_leadingTo_settles hlt
  obtain ⟨hmarksize, hleads⟩ := gives_leadingTo hnextsize marks hleading
  refine ⟨next, marks, hrun, hsettles, ?_, by simpa [size] using hmarksize, fun q => ?_⟩
  · rw [saturate, bind_of_ok hrun]
    simp only [hleading]
    rfl
  · rw [hleads, leads_iff hmarks htake]

theorem returns_saturate (hs : s.Sound) (ha : a.Recognizes s V L) :
    Returns a.saturate s fun b t => b.Recognizes t V fun w => ∃ k, L (w ++ padding k) := by
  obtain ⟨-, marks, -, -, hrun, hsize, hmarks⟩ :=
    saturate_eq hs ha.formed.closed ha.formed.valid ha.deterministic
  exact ⟨_, s, hrun, le_rfl, {
    formed := ha.formed.withAccepting marks
    deterministic := ha.deterministic.withAccepting marks
    reads := ⟨fun q m hm => ha.reads.labels q m (hasMove_withAccepting.1 hm), ha.reads.props⟩
    accepts := fun w => (acceptsFrom_withAccepting hsize hmarks w 0).trans
      (exists_congr fun k => ha.accepts _) }⟩

end RegularArithmetic.Automaton

import RegularArithmetic.Proofs.Automaton.Reduction

/-!
The subset construction as it is seen from outside. Different moves from a set of states lead to
different sets, hence their labels exclude each other and the result is found deterministic. It
accepts the words on which some run of the given automaton ends in an accepting state.
-/

set_option autoImplicit false

namespace RegularArithmetic

open Diagram (Edge)

namespace Exploration

variable {rule : Rule} {done : List (List Nat)} {d : List Nat} {q j : Nat} {e : Edge}
  {x : Exploration}

/-- Different moves of a state lead to different states. State `q` has moves to combinations in
`done` only, and the states behind it have none. -/
structure Spread (q : Nat) (done : List (List Nat)) (x : Exploration) : Prop where
  size_eq : x.states.size = x.combinations.size
  number : ∀ (c : List Nat) (i : Nat), x.numbers[c]? = some i → x.combinations[i]? = some c
  nodup : ∀ (i : Nat) st, x.states[i]? = some st → (st.moves.map (·.target)).Nodup
  targets : ∀ st, x.states[q]? = some st → ∀ m ∈ st.moves,
    ∃ c ∈ done, x.combinations[m.target]? = some c
  behind : ∀ (i : Nat) st, q < i → x.states[i]? = some st → st.moves = []

theorem Spread.push (h : Spread q done x) (d : List Nat) (b : Bool) :
    Spread q done ⟨x.combinations.push d, x.numbers.insert d x.states.size,
      x.states.push ⟨b, []⟩⟩ := by
  have hcases : ∀ {i : Nat} {st}, (x.states.push ⟨b, []⟩)[i]? = some st →
      st.moves = [] ∨ x.states[i]? = some st := by
    intro i st hi
    rcases cases_of_getElem?_push hi with ⟨-, rfl⟩ | hst
    · exact .inl rfl
    · exact .inr hst
  constructor
  · simp [h.size_eq]
  · intro c i hc
    dsimp only at hc ⊢
    rw [Std.TreeMap.getElem?_insert] at hc
    split at hc
    · rename_i hdc
      obtain rfl : d = c := by simpa using hdc
      obtain rfl := Option.some.inj hc
      rw [h.size_eq, Array.getElem?_push, if_pos rfl]
    · exact getElem?_push_of_some (h.number c i hc)
  · intro i st hst
    rcases hcases hst with hnil | hst
    · simp [hnil]
    · exact h.nodup i st hst
  · intro st hst m hm
    rcases hcases hst with hnil | hst
    · simp [hnil] at hm
    · obtain ⟨c, hc, hget⟩ := h.targets st hst m hm
      exact ⟨c, hc, getElem?_push_of_some hget⟩
  · intro i st hi hst
    rcases hcases hst with hnil | hst
    · exact hnil
    · exact h.behind i st hi hst

theorem Spread.yields_meet {a : Alphabet} (h : Spread q done x) (d : List Nat) :
    Yields (meet rule x d) a fun r _ => Spread q done r.2 ∧ r.2.combinations[r.1]? = some d := by
  unfold meet
  cases hfound : x.numbers[d]? with
  | some i => exact .pure ⟨h, h.number d i hfound⟩
  | none =>
    apply (yields_spend _).bind
    rintro _ _ - -
    apply (Yields.liftFault (P := fun _ _ => True) fun _ _ => trivial).bind
    intro b _ _ _
    apply Yields.pure
    refine ⟨h.push d b, ?_⟩
    dsimp only
    rw [h.size_eq, Array.getElem?_push, if_pos rfl]

theorem Spread.addMove (h : Spread q done x) (hj : x.combinations[j]? = some d)
    (hnew : d ∉ done) : Spread q (done ++ [d]) (x.addMove q ⟨j, e⟩) := by
  constructor
  · simpa [Exploration.addMove] using h.size_eq
  · exact h.number
  · intro i st hst
    rcases cases_of_addMove hst with ⟨rfl, st', hst', rfl⟩ | ⟨-, hst⟩
    · rw [List.map_append, List.map_singleton, List.nodup_append_comm]
      refine List.nodup_cons.2 ⟨?_, h.nodup i st' hst'⟩
      intro hmem
      obtain ⟨m, hm, htarget⟩ := List.mem_map.1 hmem
      obtain ⟨c, hc, hcombination⟩ := h.targets st' hst' m hm
      rw [show m.target = j from htarget, hj] at hcombination
      cases hcombination
      exact hnew hc
    · exact h.nodup i st hst
  · intro st hst m hm
    rcases cases_of_addMove hst with ⟨-, st', hst', rfl⟩ | ⟨hne, -⟩
    · rcases List.mem_append.1 hm with hm | hm
      · obtain ⟨c, hc, hcombination⟩ := h.targets st' hst' m hm
        exact ⟨c, List.mem_append_left _ hc, hcombination⟩
      · cases List.mem_singleton.1 hm
        exact ⟨d, by simp, hj⟩
    · exact absurd rfl hne
  · intro i st hi hst
    rcases cases_of_addMove hst with ⟨rfl, -⟩ | ⟨-, hst⟩
    · omega
    · exact h.behind i st hi hst

/-- The turn passes to the next state, which has no moves yet. -/
theorem Spread.next (h : Spread q done x) : Spread (q + 1) [] x where
  size_eq := h.size_eq
  number := h.number
  nodup := h.nodup
  targets st hst m hm := by
    rw [h.behind (q + 1) st (by omega) hst] at hm
    cases hm
  behind i st hi := h.behind i st (by omega)

theorem Spread.yields_addMoves {a : Alphabet} (h : Spread q [] x) {ms : List (List Nat × Edge)}
    (hms : (ms.map (·.1)).Nodup) :
    Yields (ms.foldlM (fun x (d, label) => do
        let (t, x) ← meet rule x d
        return x.addMove q ⟨t, label⟩) x : Alphabet.M Exploration) a fun y _ =>
      Spread q (ms.map (·.1)) y := by
  apply Yields.foldlM (fun (done : List (List Nat × Edge)) y _ => Spread q (done.map (·.1)) y)
  · exact h
  · rintro done ⟨d, e⟩ rest rfl y b hy
    apply (hy.yields_meet d).bind
    rintro ⟨j, z⟩ b' - ⟨hz, hj⟩
    apply Yields.pure
    rw [List.map_append, List.map_singleton]
    apply hz.addMove hj
    rw [List.map_append, List.map_cons] at hms
    intro hmem
    exact (List.nodup_append.1 hms).2.2 d hmem d (by simp) rfl

theorem yields_spread_runFrom {s : Diagram.Store}
    (hmoves : ∀ c t, s ≤ t → Yields (rule.moves c) t fun ms _ => (ms.map (·.1)).Nodup)
    (left : Nat) : ∀ (q : Nat) (x : Exploration) (a : Alphabet), s ≤ a.diagrams → Spread q [] x →
      Yields (runFrom rule left q x) a fun y _ =>
        ∀ (i : Nat) st, y.states[i]? = some st → (st.moves.map (·.target)).Nodup := by
  induction left with
  | zero => exact fun q x a _ h => .pure h.nodup
  | succ left ih =>
    intro q x a hsa h
    rw [runFrom]
    cases x.combinations[q]? with
    | none => exact .pure h.nodup
    | some c =>
      apply (Yields.liftDiagram (hmoves c a.diagrams hsa)).bind
      intro ms b hab hms
      apply (h.yields_addMoves hms).bind
      intro y b' hbb' hy
      exact ih (q + 1) y b' (le_trans hsa (le_trans hab.1 hbb'.1)) hy.next

theorem gives_spread_start (c : List Nat) : Gives (start rule c) (Spread 0 []) := by
  apply Gives.bind_of_forall
  intro b
  apply Gives.pure
  constructor
  · rfl
  · intro d i hd
    dsimp only at hd
    rw [Std.TreeMap.getElem?_insert] at hd
    split at hd
    · rename_i heq
      obtain rfl : c = d := by simpa using heq
      obtain rfl := Option.some.inj hd
      rfl
    · simp at hd
  · intro i st hst
    rw [(eq_of_getElem?_singleton hst).2]
    exact .nil
  · intro st hst m hm
    rw [(eq_of_getElem?_singleton hst).2] at hm
    cases hm
  · intro i st hi hst
    rw [(eq_of_getElem?_singleton hst).2]

theorem yields_simple_run {a : Alphabet} {c : List Nat} {bound : Nat} {props : NumberSet}
    (hmoves : ∀ c t, a.diagrams ≤ t → Yields (rule.moves c) t fun ms _ => (ms.map (·.1)).Nodup) :
    Yields (run rule c bound props) a fun r _ => r.Simple := by
  have hstart : Yields (start rule c : Alphabet.M Exploration) a fun x b => a = b ∧ Spread 0 [] x :=
    Yields.liftFault ((gives_spread_start c).mono fun _ hx => ⟨rfl, hx⟩)
  apply hstart.bind
  rintro x _ - ⟨rfl, hx⟩
  apply (yields_spread_runFrom hmoves bound 0 x a le_rfl hx).bind
  intro y b _ hy
  exact .pure hy

end Exploration

namespace Automaton

variable {s : Diagram.Store} {x : Alphabet} {a : Automaton} {q : Nat} {e : Edge} {m : Move}

theorem yields_unambiguous (hs : x.diagrams.Sound) (h : a.Formed x.diagrams) :
    Yields a.determinize x fun b y => b.Unambiguous y.diagrams := by
  unfold determinize
  apply (Yields.liftDiagram (returns_isDeterministic hs h).yields).bind
  intro b y hxy hb
  cases b with
  | true => exact .pure ((hb.1 rfl).mono_store hs hxy.1 h)
  | false =>
    have hy := hs.mono hxy.1
    have hformed := h.mono_store hxy.1
    have hrun := Exploration.yields_run (V := Set.univ) hy (singleton_mem_subsets hformed)
      (subsets_follows hy hformed (reads_univ a)) (card_subsets_le hformed)
      (subsets_deterministic hformed) fun p (_ : p ∈ a.props) => Set.mem_univ p
    have hnodup : ∀ qs t, y.diagrams ≤ t →
        Yields (a.subsetMoves qs) t fun ms _ => (ms.map (·.1)).Nodup := by
      intro qs t ht
      apply (yields_subsetMoves hy hformed (reads_univ a) ht qs).mono
      intro ms _ _ hms
      exact hms.1.nodup_keys
    apply (hrun.and (Exploration.yields_simple_run hnodup)).mono
    intro r z _ hr
    exact hr.1.deterministic.unambiguous hr.2

theorem returns_reduced_finish (hs : x.diagrams.Sound) (hbudget : x.budget = none)
    (h : a.Formed x.diagrams) :
    Returns a.finish x fun b y =>
      b.Recognizes y.diagrams Set.univ (a.Accepts x.diagrams) ∧ b.Reduced y.diagrams := by
  apply (returns_determinize hs hbudget h (reads_univ a)).bind
  intro b y hxy hb
  apply (returns_reduced (hs.mono hxy.1) hb.2).liftDiagram.mono
  intro c z _ hc
  exact hc.1

theorem returns_finish_of_unambiguous {V : Set Nat} {L : Word → Prop} (hs : x.diagrams.Sound)
    (h : a.Recognizes x.diagrams V L) (ha : a.Unambiguous x.diagrams) :
    Returns a.finish x fun b y => b.Recognizes y.diagrams V L ∧ b.Reduced y.diagrams := by
  unfold finish determinize
  rw [bind_assoc]
  apply (returns_isDeterministic hs h.formed).liftDiagram.bind
  rintro b y hxy ⟨hb, -⟩
  rw [if_pos (hb.2 ha), pure_bind]
  apply (returns_reduced (hs.mono hxy.1) (h.mono_store hs hxy.1)).liftDiagram.mono
  exact fun _ _ _ hc => hc.1

/-- Some run on the word ends in an accepting state. -/
def Permits (s : Diagram.Store) (a : Automaton) (w : List Letter) : Prop :=
  ∃ r, Reaches s a 0 (Word.ofLetters w) r ∧ a.Accepting r

theorem accepts_ofLetters_iff {w : List Letter} :
    a.Accepts s (Word.ofLetters w) ↔ a.Permits s w :=
  acceptsFrom_iff_reaches

/-- Without a budget, determinizing an automaton with satisfiable labels ends with one that is found
deterministic. It accepts the words on which some run of the given automaton ends in an accepting
state. Finishing ends with the smallest such automaton. -/
theorem returns_determinized (hs : x.diagrams.Sound) (hbudget : x.budget = none)
    (ha : a.Formed x.diagrams) :
    Returns a.determinize x (fun b y => b.Decides y.diagrams (a.Permits x.diagrams)) ∧
      Returns a.finish x fun c y => c.Smallest y.diagrams (a.Permits x.diagrams) := by
  constructor
  · apply ((returns_determinize hs hbudget ha (reads_univ a)).and (yields_unambiguous hs ha)).mono
    rintro b y hxy ⟨⟨-, hb⟩, hunambiguous⟩
    exact hb.decides_of_unambiguous (hs.mono hxy.1) hunambiguous fun _ => accepts_ofLetters_iff
  · apply (returns_reduced_finish hs hbudget ha).mono
    rintro c y hxy ⟨hc, hreduced⟩
    exact hreduced.smallest_of_recognizes (hs.mono hxy.1) hc fun _ => accepts_ofLetters_iff

def lastOf (e : Edge) : Automaton :=
  ⟨#[⟨false, [⟨0, .one⟩, ⟨1, e⟩]⟩, ⟨true, [⟨1, -e⟩]⟩], ∅⟩

theorem hasMove_lastOf :
    (lastOf e).HasMove q m ↔ q = 0 ∧ (m = ⟨0, .one⟩ ∨ m = ⟨1, e⟩) ∨ q = 1 ∧ m = ⟨1, -e⟩ := by
  simp only [HasMove, lastOf, List.getElem?_toArray]
  rcases q with _ | _ | q <;> simp

theorem formed_lastOf (hs : s.Sound) (hvalid : s.Valid e) (hz : e ≠ .zero) (hz' : -e ≠ .zero) :
    (lastOf e).Formed s := by
  have hall : ∀ q m, (lastOf e).HasMove q m →
      m.target < (lastOf e).size ∧ s.Valid m.label ∧ m.label ≠ .zero := by
    intro q m hm
    rcases hasMove_lastOf.1 hm with ⟨-, rfl | rfl⟩ | ⟨-, rfl⟩
    · exact ⟨by simp [lastOf, size], hs.valid_one, Edge.zero_ne_one.symm⟩
    · exact ⟨by simp [lastOf, size], hvalid, hz⟩
    · exact ⟨by simp [lastOf, size], Diagram.Store.valid_neg.2 hvalid, hz'⟩
  constructor
  · simp [lastOf, size]
  · exact fun q m hm => (hall q m hm).1
  · exact fun q m hm => (hall q m hm).2.1
  · exact fun q m hm => (hall q m hm).2.2

theorem not_deterministic_lastOf (hs : s.Sound) (h : (lastOf e).Formed s) :
    ¬(lastOf e).Deterministic s := by
  intro hdeterministic
  have hmove : (lastOf e).HasMove 0 ⟨1, e⟩ := hasMove_lastOf.2 (.inl ⟨rfl, .inr rfl⟩)
  obtain ⟨l, hstep⟩ := h.exists_step hs hmove
  have hstay : Step s (lastOf e) 0 l 0 :=
    ⟨⟨0, .one⟩, hasMove_lastOf.2 (.inl ⟨rfl, .inl rfl⟩), Diagram.Store.value_one, rfl⟩
  exact Nat.zero_ne_one (hdeterministic 0 l 0 1 hstay hstep)

theorem exists_formed_lastOf : ∃ s t e, Diagram.Store.empty? 1 = .ok s ∧
    Diagram.makeVariable 1 s = .ok e t ∧ t.Sound ∧ (lastOf e).Formed t ∧
    ¬(lastOf e).Deterministic t := by
  obtain ⟨s, t, e, hs, ht, hsound, hformed, hformed'⟩ := exists_formed_loop one_ne_zero
  have hmove : (loop e).HasMove 0 ⟨0, e⟩ := hasMove_loop.2 ⟨rfl, rfl⟩
  have hmove' : (loop (-e)).HasMove 0 ⟨0, -e⟩ := hasMove_loop.2 ⟨rfl, rfl⟩
  have h := formed_lastOf hsound (hformed.valid 0 _ hmove) (hformed.satisfiable 0 _ hmove)
    (hformed'.satisfiable 0 _ hmove')
  exact ⟨s, t, e, hs, ht, hsound, h, not_deterministic_lastOf hsound h⟩

/-- The words in which a proposition is true at least once, by an automaton that guesses. -/
theorem returns_determinized_lastOf : ∃ s t e, Diagram.Store.empty? 1 = .ok s ∧
    Diagram.makeVariable 1 s = .ok e t ∧ t.Sound ∧
    (lastOf e).Formed t ∧ ¬(lastOf e).Deterministic t ∧
    Returns (lastOf e).determinize ⟨t, #["p"], 0, none⟩
      (fun b y => b.Decides y.diagrams ((lastOf e).Permits t)) ∧
    Returns (lastOf e).finish ⟨t, #["p"], 0, none⟩
      fun c y => c.Smallest y.diagrams ((lastOf e).Permits t) := by
  obtain ⟨s, t, e, hs, ht, hsound, hformed, hguesses⟩ := exists_formed_lastOf
  refine ⟨s, t, e, hs, ht, hsound, hformed, hguesses, ?_⟩
  exact returns_determinized (x := ⟨t, #["p"], 0, none⟩) hsound rfl hformed

end Automaton

end RegularArithmetic

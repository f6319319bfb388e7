import Mathlib.Data.Finset.Card
import Mathlib.Data.List.Nodup
import RegularArithmetic.Automaton.Exploration
import RegularArithmetic.Proofs.Alphabet
import RegularArithmetic.Proofs.Automaton.Labels

/-!
An exploration makes the automaton of all combinations that can be met: from the state for a
combination the words are accepted that lead from it through the moves between combinations to
an accepting one.
-/

set_option autoImplicit false

namespace RegularArithmetic

open Diagram (Edge Assignment)

/-- What combinations are and how they move: `D` lists all of them. -/
structure Combinations where
  D : Finset (List Nat)
  Accepting : List Nat → Prop
  Next : List Nat → Assignment → List Nat → Prop
  closed : ∀ c l d, c ∈ D → Next c l d → d ∈ D

namespace Combinations

/-- Some run on the word leads from the combination to an accepting one. -/
def AcceptsFrom (K : Combinations) : List Nat → Word → Prop
  | c, [] => K.Accepting c
  | c, l :: w => ∃ d, K.Next c l d ∧ K.AcceptsFrom d w

end Combinations

namespace Exploration

section

variable {α : Type} {xs : Array α} {y z : α} {i : Nat}

theorem getElem?_push_of_some (h : xs[i]? = some z) : (xs.push y)[i]? = some z := by
  have hlt := (Array.getElem?_eq_some_iff.1 h).1
  rw [Array.getElem?_push, if_neg (by omega), h]

theorem cases_of_getElem?_push (h : (xs.push y)[i]? = some z) :
    i = xs.size ∧ z = y ∨ xs[i]? = some z := by
  rw [Array.getElem?_push] at h
  split at h
  · exact .inl ⟨‹_›, (Option.some.inj h).symm⟩
  · exact .inr h

theorem eq_of_getElem?_singleton (h : #[y][i]? = some z) : i = 0 ∧ z = y := by
  rcases i with _ | i
  · exact ⟨rfl, by simpa [eq_comm] using h⟩
  · simp at h

theorem cases_of_addMove {x : Exploration} {q : Nat} {m : Move} {st : State}
    (h : (x.addMove q m).states[i]? = some st) :
    (i = q ∧ ∃ st', x.states[i]? = some st' ∧ st = { st' with moves := st'.moves ++ [m] }) ∨
      i ≠ q ∧ x.states[i]? = some st := by
  simp only [addMove, Array.getElem?_modify] at h
  split at h
  · rename_i heq
    obtain ⟨st', hst', rfl⟩ := Option.map_eq_some_iff.1 h
    exact .inl ⟨heq.symm, st', hst', rfl⟩
  · rename_i hne
    exact .inr ⟨Ne.symm hne, h⟩

end

variable {s t : Diagram.Store} {V : Set Nat} {K : Combinations} {c₀ : List Nat} {x : Exploration}

/-- The moves lead, on the letters that `N` says, to the states for the combinations. -/
structure Matches (s : Diagram.Store) (combinations : Array (List Nat)) (ms : List Move)
    (N : Assignment → List Nat → Prop) : Prop where
  sound : ∀ l j, Automaton.Takes s ms l j → ∃ d, combinations[j]? = some d ∧ N l d
  complete : ∀ l d, N l d → ∃ j : Nat, combinations[j]? = some d ∧ Automaton.Takes s ms l j

/-- The states stand for the combinations met so far, and state `i` has the moves that `N i`
says. -/
structure Explored (s : Diagram.Store) (V : Set Nat) (K : Combinations) (c₀ : List Nat)
    (N : Nat → Assignment → List Nat → Prop) (x : Exploration) : Prop where
  size_eq : x.states.size = x.combinations.size
  first : x.combinations[0]? = some c₀
  number_iff : ∀ (c : List Nat) (i : Nat), x.numbers[c]? = some i ↔ x.combinations[i]? = some c
  holds : ∀ (i : Nat) c, x.combinations[i]? = some c → c ∈ K.D
  accepting : ∀ (i : Nat) c st, x.combinations[i]? = some c → x.states[i]? = some st →
    (st.accepting = true ↔ K.Accepting c)
  labels : ∀ (i : Nat) st, x.states[i]? = some st → ∀ m ∈ st.moves, IsLabel s V m.label
  moves : ∀ (i : Nat) st, x.states[i]? = some st → Matches s x.combinations st.moves (N i)

variable {N : Nat → Assignment → List Nat → Prop}

theorem Explored.inj (h : Explored s V K c₀ N x) {i j : Nat} {c : List Nat}
    (hi : x.combinations[i]? = some c) (hj : x.combinations[j]? = some c) : i = j := by
  have := ((h.number_iff c i).2 hi).symm.trans ((h.number_iff c j).2 hj)
  exact Option.some.inj this

theorem Explored.mono (h : Explored s V K c₀ N x) (hs : s.Sound) (hst : s ≤ t) :
    Explored t V K c₀ N x :=
  { h with
    labels := fun i st hi m hm => (h.labels i st hi m hm).mono_store hs hst
    moves := fun i st hi => by
      have htakes := fun l j => Automaton.takes_mono (l := l) (r := j) hs hst (h.labels i st hi)
      exact ⟨fun l j hj => (h.moves i st hi).sound l j ((htakes l j).1 hj), fun l d hd => by
        obtain ⟨j, hj, htake⟩ := (h.moves i st hi).complete l d hd
        exact ⟨j, hj, (htakes l j).2 htake⟩⟩ }

theorem Explored.congr {N' : Nat → Assignment → List Nat → Prop} (h : Explored s V K c₀ N x)
    (hN : ∀ i < x.states.size, ∀ l d, N i l d ↔ N' i l d) : Explored s V K c₀ N' x :=
  { h with
    moves := fun i st hi => by
      have hlt := (Array.getElem?_eq_some_iff.1 hi).1
      refine ⟨fun l j hj => ?_, fun l d hd => (h.moves i st hi).complete l d ((hN i hlt l d).2 hd)⟩
      obtain ⟨d, hd, hNd⟩ := (h.moves i st hi).sound l j hj
      exact ⟨d, hd, (hN i hlt l d).1 hNd⟩ }

theorem Explored.size_le (h : Explored s V K c₀ N x) : x.combinations.size ≤ K.D.card := by
  have hnodup : x.combinations.toList.Nodup := by
    rw [List.nodup_iff_getElem?_ne_getElem?]
    intro i j hij hj heq
    rw [Array.getElem?_toList, Array.getElem?_toList] at heq
    have hlt : i < x.combinations.size := by
      have : j < x.combinations.size := by simpa using hj
      omega
    have := h.inj (Array.getElem?_eq_getElem hlt)
      (heq.symm.trans (Array.getElem?_eq_getElem hlt))
    omega
  have hsub : x.combinations.toList.toFinset ⊆ K.D := by
    intro c hc
    obtain ⟨i, hi⟩ := Array.mem_iff_getElem?.1 (Array.mem_toList_iff.1 (List.mem_toFinset.1 hc))
    exact h.holds i c hi
  have hcard := Finset.card_le_card hsub
  rwa [List.toFinset_card_of_nodup hnodup, Array.length_toList] at hcard

private theorem Explored.push (h : Explored s V K c₀ N x) {d : List Nat}
    (hnew : x.numbers[d]? = none) (hd : d ∈ K.D) {accepting : Bool}
    (haccepting : accepting = true ↔ K.Accepting d) (hN : ∀ l d, ¬N x.states.size l d) :
    Explored s V K c₀ N ⟨x.combinations.push d, x.numbers.insert d x.states.size,
      x.states.push ⟨accepting, []⟩⟩ := by
  have hnot : ∀ i : Nat, x.combinations[i]? ≠ some d := by
    intro i hi
    rw [(h.number_iff d i).2 hi] at hnew
    cases hnew
  refine ⟨by simp [h.size_eq], getElem?_push_of_some h.first, fun c i => ?_, fun i c hi => ?_,
    fun i c st hi hst => ?_, fun i st hst => ?_, fun i st hst => ?_⟩
  · dsimp only
    rw [Std.TreeMap.getElem?_insert, Array.getElem?_push, h.size_eq]
    by_cases hdc : d = c
    · subst hdc
      have := hnot i
      by_cases hi : i = x.combinations.size
      · simp [hi]
      · simp [hi, this, Ne.symm hi]
    · rw [if_neg (by simpa using hdc), h.number_iff]
      split
      · rename_i hi
        simp [hi, hdc]
      · rfl
  · rcases cases_of_getElem?_push hi with ⟨-, rfl⟩ | hi
    · exact hd
    · exact h.holds i c hi
  · dsimp only at hi hst
    rw [Array.getElem?_push] at hi
    rcases cases_of_getElem?_push hst with ⟨rfl, rfl⟩ | hst
    · rw [if_pos h.size_eq] at hi
      obtain rfl := Option.some.inj hi
      exact haccepting
    · have hlt := (Array.getElem?_eq_some_iff.1 hst).1
      rw [h.size_eq] at hlt
      rw [if_neg (by omega)] at hi
      exact h.accepting i c st hi hst
  · rcases cases_of_getElem?_push hst with ⟨-, rfl⟩ | hst
    · simp
    · exact h.labels i st hst
  · rcases cases_of_getElem?_push hst with ⟨rfl, rfl⟩ | hst
    · exact ⟨fun l j hj => by simp [Automaton.Takes] at hj, fun l d hd => absurd hd (hN l d)⟩
    · obtain ⟨hsound, hcomplete⟩ := h.moves i st hst
      refine ⟨fun l j hj => ?_, fun l c hc => ?_⟩
      · obtain ⟨c, hc, hNc⟩ := hsound l j hj
        exact ⟨c, getElem?_push_of_some hc, hNc⟩
      · obtain ⟨j, hj, htake⟩ := hcomplete l c hc
        exact ⟨j, getElem?_push_of_some hj, htake⟩

structure Grows (x y : Exploration) : Prop where
  size_le : x.states.size ≤ y.states.size
  keeps : ∀ (i : Nat) c, x.combinations[i]? = some c → y.combinations[i]? = some c

theorem Grows.refl (x : Exploration) : Grows x x := ⟨le_rfl, fun _ _ h => h⟩

theorem Grows.trans {x y z : Exploration} (h : Grows x y) (h' : Grows y z) : Grows x z :=
  ⟨le_trans h.size_le h'.size_le, fun i c hi => h'.keeps i c (h.keeps i c hi)⟩

theorem yields_meet {rule : Rule} {a : Alphabet} (h : Explored s V K c₀ N x) {d : List Nat}
    (hd : d ∈ K.D) (haccepting : Gives (rule.accepting d) fun b => b = true ↔ K.Accepting d)
    (hN : ∀ i ≥ x.states.size, ∀ l d, ¬N i l d) :
    Yields (meet rule x d) a fun r b => a = b ∧ Explored s V K c₀ N r.2 ∧
      r.2.combinations[r.1]? = some d ∧ Grows x r.2 := by
  unfold meet
  cases hfound : x.numbers[d]? with
  | some q => exact .pure ⟨rfl, h, (h.number_iff d q).1 hfound, .refl x⟩
  | none =>
    dsimp only
    refine (yields_spend _).bind ?_
    rintro _ _ - rfl
    refine (Yields.liftFault (P := fun b a' => a = a' ∧ (b = true ↔ K.Accepting d))
      (haccepting.mono fun _ hb => ⟨rfl, hb⟩)).bind ?_
    rintro accepting _ - ⟨rfl, hb⟩
    refine .pure ⟨rfl, h.push hfound hd hb (hN _ le_rfl), ?_, by simp,
      fun i c hi => getElem?_push_of_some hi⟩
    dsimp only
    rw [h.size_eq, Array.getElem?_push, if_pos rfl]

private theorem Explored.addMove (h : Explored s V K c₀ N x) {q j : Nat} {d : List Nat} {e : Edge}
    (hj : x.combinations[j]? = some d) (he : IsLabel s V e) :
    Explored s V K c₀ (fun i l c => N i l c ∨ i = q ∧ c = d ∧ s.value e l = true)
      (x.addMove q ⟨j, e⟩) := by
  have hget : ∀ {i : Nat} {st}, (x.addMove q ⟨j, e⟩).states[i]? = some st →
      ∃ st', x.states[i]? = some st' ∧ st.accepting = st'.accepting ∧
        ∀ m, m ∈ st.moves ↔ m ∈ st'.moves ∨ i = q ∧ m = ⟨j, e⟩ := by
    intro i st hi
    rcases cases_of_addMove hi with ⟨rfl, st', hst', rfl⟩ | ⟨hne, hst⟩
    · exact ⟨st', hst', rfl, by simp⟩
    · exact ⟨st, hst, rfl, by simp [hne]⟩
  have htakes : ∀ {i : Nat} {st st' : State} {l r},
      (∀ m, m ∈ st.moves ↔ m ∈ st'.moves ∨ i = q ∧ m = ⟨j, e⟩) →
      (Automaton.Takes s st.moves l r ↔
        Automaton.Takes s st'.moves l r ∨ i = q ∧ s.value e l = true ∧ j = r) := by
    intro i st st' l r hm
    simp only [Automaton.Takes, hm, or_and_right, exists_or, and_assoc, exists_and_left,
      exists_eq_left]
  refine ⟨by simpa [Exploration.addMove] using h.size_eq, h.first, h.number_iff, h.holds,
    fun i c st hi hst => ?_, fun i st hst m hm => ?_, fun i st hst => ?_⟩
  all_goals obtain ⟨st', hst', hacc, hmoves⟩ := hget hst
  · rw [hacc]
    exact h.accepting i c st' hi hst'
  · rcases (hmoves m).1 hm with hm | ⟨-, rfl⟩
    · exact h.labels i st' hst' m hm
    · exact he
  · obtain ⟨hsound, hcomplete⟩ := h.moves i st' hst'
    refine ⟨fun l r hr => ?_, fun l c hc => ?_⟩
    · rcases (htakes hmoves).1 hr with hr | ⟨rfl, hl, rfl⟩
      · obtain ⟨c, hc, hNc⟩ := hsound l r hr
        exact ⟨c, hc, .inl hNc⟩
      · exact ⟨d, hj, .inr ⟨rfl, rfl, hl⟩⟩
    · rcases hc with hc | ⟨rfl, rfl, hl⟩
      · obtain ⟨r, hr, htake⟩ := hcomplete l c hc
        exact ⟨r, hr, (htakes hmoves).2 (.inl htake)⟩
      · exact ⟨j, hj, (htakes hmoves).2 (.inr ⟨rfl, hl, rfl⟩)⟩

/-- What a rule has to say about the combinations. -/
structure Rule.Follows (rule : Rule) (s : Diagram.Store) (V : Set Nat) (K : Combinations) :
    Prop where
  accepting : ∀ c ∈ K.D, Gives (rule.accepting c) fun b => b = true ↔ K.Accepting c
  moves : ∀ c ∈ K.D, ∀ t, s ≤ t → Yields (rule.moves c) t fun ms u =>
    (∀ d e, (d, e) ∈ ms → IsLabel u V e) ∧ ∀ d l, Keyed u ms d l ↔ K.Next c l d

private theorem yields_addMoves {rule : Rule} {a : Alphabet} {q : Nat}
    (h : Explored a.diagrams V K c₀ N x) (hq : q < x.states.size)
    (hN : ∀ i ≥ x.states.size, ∀ l d, ¬N i l d) {ms : List (List Nat × Edge)}
    (hms : ∀ d e, (d, e) ∈ ms → IsLabel a.diagrams V e ∧ d ∈ K.D)
    (haccepting : ∀ c ∈ K.D, Gives (rule.accepting c) fun b => b = true ↔ K.Accepting c) :
    Yields (ms.foldlM (fun x (d, label) => do
        let (t, x) ← meet rule x d
        return x.addMove q ⟨t, label⟩) x : Alphabet.M Exploration) a fun y b =>
      a = b ∧ Grows x y ∧ Explored a.diagrams V K c₀
        (fun i l d => N i l d ∨ i = q ∧ Keyed a.diagrams ms d l) y := by
  refine Yields.foldlM (fun done y b => a = b ∧ Grows x y ∧ Explored a.diagrams V K c₀
    (fun i l d => N i l d ∨ i = q ∧ Keyed a.diagrams done d l) y) ?_ ?_
  · exact ⟨rfl, .refl x, h.congr fun i _ l d => by simp [Keyed]⟩
  · rintro done ⟨d, e⟩ rest hl y _ ⟨rfl, hgrows, hy⟩
    obtain ⟨he, hd⟩ := hms d e (by simp [hl])
    refine (yields_meet hy hd (haccepting d hd) fun i hi l c => ?_).bind ?_
    · rintro (hc | ⟨rfl, -⟩)
      · exact hN i (le_trans hgrows.size_le hi) l c hc
      · have := hgrows.size_le
        omega
    · rintro ⟨j, z⟩ _ - ⟨rfl, hz, hj, hgrows'⟩
      dsimp only at hz hj hgrows' ⊢
      have hgrows := hgrows.trans hgrows'
      have hsize : (z.addMove q ⟨j, e⟩).states.size = z.states.size := by
        simp [Exploration.addMove]
      refine .pure ⟨rfl, ⟨by rw [hsize]; exact hgrows.size_le, hgrows.keeps⟩,
        (hz.addMove hj he).congr fun i _ l c => ?_⟩
      simp only [Keyed, List.mem_append, List.mem_singleton, Prod.mk.injEq, or_and_right, exists_or,
        and_assoc, exists_and_left, exists_eq_left, and_or_left, or_assoc]

theorem yields_runFrom {rule : Rule} (bound : Nat) (hbound : K.D.card ≤ bound)
    (hrule : rule.Follows s V K) (left : Nat) : ∀ (q : Nat) (x : Exploration) (a : Alphabet),
      a.diagrams.Sound → s ≤ a.diagrams → bound ≤ left + q →
      Explored a.diagrams V K c₀
        (fun i l d => i < q ∧ ∃ c, x.combinations[i]? = some c ∧ K.Next c l d) x →
      Yields (runFrom rule left q x) a fun y b => Explored b.diagrams V K c₀
        (fun i l d => ∃ c, y.combinations[i]? = some c ∧ K.Next c l d) y := by
  have hdone : ∀ {q : Nat} {x : Exploration} {a : Alphabet}, x.states.size ≤ q →
      Explored a.diagrams V K c₀
        (fun i l d => i < q ∧ ∃ c, x.combinations[i]? = some c ∧ K.Next c l d) x →
      Explored a.diagrams V K c₀
        (fun i l d => ∃ c, x.combinations[i]? = some c ∧ K.Next c l d) x :=
    fun hq h => h.congr fun i hi l d => and_iff_right (lt_of_lt_of_le hi hq)
  induction left with
  | zero =>
    intro q x a _ _ hq h
    rw [runFrom]
    refine .pure (hdone ?_ h)
    have := h.size_le
    have := h.size_eq
    omega
  | succ left ih =>
    intro q x a ha hsa hq h
    rw [runFrom]
    cases hc : x.combinations[q]? with
    | none =>
      refine .pure (hdone ?_ h)
      rw [h.size_eq]
      exact Array.getElem?_eq_none_iff.1 hc
    | some c =>
      have hcD := h.holds q c hc
      have hlt : q < x.states.size := by
        rw [h.size_eq]
        exact (Array.getElem?_eq_some_iff.1 hc).1
      refine (Yields.liftDiagram (hrule.moves c hcD a.diagrams hsa)).bind
        fun ms b hab ⟨hlabels, hkeyed⟩ => ?_
      have hb := ha.mono hab.1
      have hmem : ∀ d e, (d, e) ∈ ms → IsLabel b.diagrams V e ∧ d ∈ K.D := by
        intro d e hde
        obtain ⟨l, hl⟩ := (hlabels d e hde).exists_value hb
        exact ⟨hlabels d e hde, K.closed c l d hcD ((hkeyed d l).1 ⟨e, hde, hl⟩)⟩
      refine (yields_addMoves (h.mono ha hab.1) hlt (fun i hi l d hN => ?_) hmem
        hrule.accepting).bind ?_
      · omega
      · rintro y _ - ⟨rfl, hgrows, hy⟩
        refine ih (q + 1) y b hb (le_trans hsa hab.1) (by omega) (hy.congr fun i hi l d => ?_)
        have hy_c := hgrows.keeps q c hc
        rcases lt_trichotomy i q with hi | rfl | hi
        · have hx : i < x.combinations.size := by rw [← h.size_eq]; omega
          have hxi := Array.getElem?_eq_getElem hx
          rw [hgrows.keeps i _ hxi, hxi]
          simp [hi, Nat.ne_of_lt hi, Nat.lt_succ_of_lt hi]
        · rw [hy_c, hkeyed]
          simp
        · simp [Nat.not_lt.2 hi.le, Nat.ne_of_gt hi, show ¬i < q + 1 by omega]

theorem gives_start {rule : Rule} (hc : c₀ ∈ K.D)
    (haccepting : Gives (rule.accepting c₀) fun b => b = true ↔ K.Accepting c₀) :
    Gives (start rule c₀) fun x => Explored s V K c₀ (fun _ _ _ => False) x := by
  refine haccepting.bind fun b hb => .pure ?_
  refine ⟨rfl, rfl, fun c i => ?_, fun i c hi => ?_, fun i c st hi hst => ?_, fun i st hst => ?_,
    fun i st hst => ?_⟩
  · rw [Std.TreeMap.getElem?_insert]
    by_cases hc : c₀ = c
    · subst hc
      rcases i with _ | i <;> simp
    · rcases i with _ | i <;> simp [hc]
  · rw [(eq_of_getElem?_singleton hi).2]
    exact hc
  · rw [(eq_of_getElem?_singleton hi).2, (eq_of_getElem?_singleton hst).2]
    exact hb
  · rw [(eq_of_getElem?_singleton hst).2]
    simp
  · rw [(eq_of_getElem?_singleton hst).2]
    exact ⟨fun l j hj => by simp [Automaton.Takes] at hj, fun l d hd => hd.elim⟩

section

variable {x : Exploration}
  (h : Explored s V K c₀ (fun i l d => ∃ c, x.combinations[i]? = some c ∧ K.Next c l d) x)
  {props : NumberSet}

include h

private theorem Explored.exists_state {i : Nat} {c : List Nat}
    (hi : x.combinations[i]? = some c) : ∃ st, x.states[i]? = some st := by
  have hlt := (Array.getElem?_eq_some_iff.1 hi).1
  rw [← h.size_eq] at hlt
  exact ⟨_, Array.getElem?_eq_getElem hlt⟩

private theorem Explored.of_hasMove {i : Nat} {m : Move}
    (hm : Automaton.HasMove ⟨x.states, props⟩ i m) :
    (∃ c, x.combinations[i]? = some c) ∧ IsLabel s V m.label := by
  obtain ⟨st, hst, hm⟩ := hm
  refine ⟨?_, h.labels i st hst m hm⟩
  have hlt := (Array.getElem?_eq_some_iff.1 hst).1
  rw [h.size_eq] at hlt
  exact ⟨_, Array.getElem?_eq_getElem hlt⟩

private theorem Explored.step_iff {i j : Nat} {c : List Nat} {l : Assignment}
    (hi : x.combinations[i]? = some c) : Automaton.Step s ⟨x.states, props⟩ i l j ↔
      ∃ d, x.combinations[j]? = some d ∧ K.Next c l d := by
  obtain ⟨st, hst⟩ := h.exists_state hi
  rw [Automaton.step_iff_takes (a := ⟨x.states, props⟩) hst]
  obtain ⟨hsound, hcomplete⟩ := h.moves i st hst
  constructor
  · intro hj
    obtain ⟨d, hd, c', hc', hnext⟩ := hsound l j hj
    rw [hi] at hc'
    cases hc'
    exact ⟨d, hd, hnext⟩
  · rintro ⟨d, hd, hnext⟩
    obtain ⟨j', hj', htake⟩ := hcomplete l d ⟨c, hi, hnext⟩
    rwa [h.inj hd hj']

private theorem Explored.acceptsFrom_iff (w : Word) : ∀ (i : Nat) (c : List Nat),
    x.combinations[i]? = some c →
      (Automaton.AcceptsFrom s ⟨x.states, props⟩ i w ↔ K.AcceptsFrom c w) := by
  induction w with
  | nil =>
    intro i c hi
    obtain ⟨st, hst⟩ := h.exists_state hi
    exact (Automaton.accepting_iff (a := ⟨x.states, props⟩) hst).trans (h.accepting i c st hi hst)
  | cons l w ih =>
    intro i c hi
    simp only [Automaton.AcceptsFrom, Combinations.AcceptsFrom, h.step_iff hi]
    constructor
    · rintro ⟨j, ⟨d, hd, hnext⟩, hw⟩
      exact ⟨d, hnext, (ih j d hd).1 hw⟩
    · rintro ⟨d, hnext, hw⟩
      obtain ⟨st, hst⟩ := h.exists_state hi
      obtain ⟨j, hj, -⟩ := (h.moves i st hst).complete l d ⟨c, hi, hnext⟩
      exact ⟨j, ⟨d, hj, hnext⟩, (ih j d hj).2 hw⟩

theorem Explored.recognizes (hs : s.Sound)
    (hdeterministic : ∀ c ∈ K.D, ∀ l d d', K.Next c l d → K.Next c l d' → d = d')
    (hprops : ∀ p ∈ props, p ∈ V) :
    Automaton.Recognizes s ⟨x.states, props⟩ V (K.AcceptsFrom c₀) := by
  have hlt : ∀ {i : Nat} {c}, x.combinations[i]? = some c → i < x.states.size := fun hi =>
    h.size_eq ▸ (Array.getElem?_eq_some_iff.1 hi).1
  refine ⟨⟨hlt h.first, fun i m hm => ?_, fun i m hm => (h.of_hasMove hm).2.valid,
    fun i m hm => (h.of_hasMove hm).2.ne_zero⟩, ?_,
    ⟨fun i m hm => (h.of_hasMove hm).2.depends, hprops⟩, fun w => h.acceptsFrom_iff w 0 c₀ h.first⟩
  · obtain ⟨⟨c, hc⟩, hlabel⟩ := h.of_hasMove hm
    obtain ⟨l, hl⟩ := hlabel.exists_value hs
    obtain ⟨d, hd, -⟩ := (h.step_iff hc).1 ⟨m, hm, hl, rfl⟩
    exact hlt hd
  · intro i l j j' hj hj'
    obtain ⟨c, hc⟩ : ∃ c, x.combinations[i]? = some c := by
      obtain ⟨m, hm, -⟩ := hj
      exact (h.of_hasMove hm).1
    obtain ⟨d, hd, hnext⟩ := (h.step_iff hc).1 hj
    obtain ⟨d', hd', hnext'⟩ := (h.step_iff hc).1 hj'
    obtain rfl := hdeterministic c (h.holds i c hc) l d d' hnext hnext'
    exact h.inj hd hd'

end

/-- The result of an exploration accepts what leads from the initial combination to an accepting
one. -/
theorem yields_run {rule : Rule} {a : Alphabet} (ha : a.diagrams.Sound) (hc : c₀ ∈ K.D)
    (hrule : rule.Follows a.diagrams V K) {bound : Nat} (hbound : K.D.card ≤ bound)
    (hdeterministic : ∀ c ∈ K.D, ∀ l d d', K.Next c l d → K.Next c l d' → d = d')
    {props : NumberSet} (hprops : ∀ p ∈ props, p ∈ V) :
    Yields (run rule c₀ bound props) a fun r b =>
      r.Recognizes b.diagrams V (K.AcceptsFrom c₀) := by
  unfold run
  refine (Yields.liftFault (P := fun x b => a = b ∧
    Explored a.diagrams V K c₀ (fun _ _ _ => False) x)
    ((gives_start hc (hrule.accepting c₀ hc)).mono fun _ hx => ⟨rfl, hx⟩)).bind ?_
  rintro x _ - ⟨rfl, hx⟩
  refine (yields_runFrom bound hbound hrule bound 0 x a ha le_rfl (by omega)
    (hx.congr fun i _ l d => by simp)).bind fun y b hab hy => ?_
  exact .pure (hy.recognizes (ha.mono hab.1) hdeterministic hprops)

/-- The rule has an answer for every combination. -/
structure Rule.Total (rule : Rule) (s : Diagram.Store) (K : Combinations) : Prop where
  accepting : ∀ c ∈ K.D, Answers (rule.accepting c) fun _ => True
  moves : ∀ c ∈ K.D, ∀ t, s ≤ t → Succeeds (rule.moves c) t

/-- Only combinations are met. -/
private def Within (K : Combinations) (x : Exploration) : Prop :=
  ∀ (i : Nat) c, x.combinations[i]? = some c → c ∈ K.D

private theorem returns_addMoves {rule : Rule} {a : Alphabet} {q : Nat} (ha : a.budget = none)
    (hx : Within K x) {ms : List (List Nat × Edge)} (hms : ∀ d e, (d, e) ∈ ms → d ∈ K.D)
    (haccepting : ∀ c ∈ K.D, Answers (rule.accepting c) fun _ => True) :
    Returns (ms.foldlM (fun x (d, label) => do
        let (t, x) ← meet rule x d
        return x.addMove q ⟨t, label⟩) x : Alphabet.M Exploration) a fun y b =>
      a = b ∧ Within K y := by
  refine Returns.foldlM (fun _ y b => a = b ∧ Within K y) ⟨rfl, hx⟩ ?_
  rintro done ⟨d, e⟩ rest hl y _ ⟨rfl, hy⟩
  have hd := hms d e (by simp [hl])
  refine Returns.bind (P := fun r b => a = b ∧ Within K r.2) ?_ ?_
  · unfold meet
    cases hfound : y.numbers[d]? with
    | some q => exact .pure ⟨rfl, hy⟩
    | none =>
      dsimp only
      refine (returns_spend _ ha).bind ?_
      rintro _ _ - rfl
      refine (Returns.liftFault (haccepting d hd)).bind ?_
      rintro accepting _ - ⟨rfl, -⟩
      refine .pure ⟨rfl, fun i c hi => ?_⟩
      rcases cases_of_getElem?_push hi with ⟨-, rfl⟩ | hi
      · exact hd
      · exact hy i c hi
  · rintro ⟨j, z⟩ _ - ⟨rfl, hz⟩
    exact .pure ⟨rfl, hz⟩

private theorem succeeds_runFrom {rule : Rule} (hrule : rule.Follows s V K)
    (htotal : rule.Total s K) (left : Nat) : ∀ (q : Nat) (x : Exploration) (a : Alphabet),
      a.diagrams.Sound → s ≤ a.diagrams → a.budget = none → Within K x →
      Returns (runFrom rule left q x) a fun _ b => b.budget = none := by
  induction left with
  | zero => exact fun _ _ _ _ _ hbudget _ => .pure hbudget
  | succ left ih =>
    intro q x a ha hsa hbudget hx
    rw [runFrom]
    cases hc : x.combinations[q]? with
    | none => exact .pure hbudget
    | some c =>
      have hcD := hx q c hc
      have hmoves := (htotal.moves c hcD _ hsa).returns (hrule.moves c hcD _ hsa)
      refine hmoves.liftDiagram.bind fun ms b hab ⟨⟨hlabels, hkeyed⟩, hb⟩ => ?_
      have hbs := ha.mono hab.1
      rw [hbudget] at hb
      refine (returns_addMoves hb hx (fun d e hde => ?_) htotal.accepting).bind ?_
      · obtain ⟨l, hl⟩ := (hlabels d e hde).exists_value hbs
        exact K.closed c l d hcD ((hkeyed d l).1 ⟨e, hde, hl⟩)
      · rintro y _ - ⟨rfl, hy⟩
        exact ih (q + 1) y b hbs (le_trans hsa hab.1) hb hy

theorem returns_run {rule : Rule} {a : Alphabet} (ha : a.diagrams.Sound) (hbudget : a.budget = none)
    (hc : c₀ ∈ K.D) (hrule : rule.Follows a.diagrams V K) (htotal : rule.Total a.diagrams K)
    {bound : Nat} (hbound : K.D.card ≤ bound)
    (hdeterministic : ∀ c ∈ K.D, ∀ l d d', K.Next c l d → K.Next c l d' → d = d')
    {props : NumberSet} (hprops : ∀ p ∈ props, p ∈ V) :
    Returns (run rule c₀ bound props) a fun r b =>
      b.budget = none ∧ r.Recognizes b.diagrams V (K.AcceptsFrom c₀) := by
  refine Returns.and ?_ (yields_run ha hc hrule hbound hdeterministic hprops)
  unfold run
  refine (Returns.liftFault (P := Within K) ?_).bind ?_
  · refine (htotal.accepting c₀ hc).bind fun b _ => .pure fun i c hi => ?_
    rcases i with _ | i
    · obtain rfl : c₀ = c := by simpa using hi
      exact hc
    · simp at hi
  · rintro x _ - ⟨rfl, hx⟩
    exact (succeeds_runFrom hrule htotal bound 0 x a ha le_rfl hbudget hx).bind
      fun _ _ _ hb => .pure hb

end Exploration

end RegularArithmetic

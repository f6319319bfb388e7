import RegularArithmetic.Automaton.Reduction
import RegularArithmetic.Proofs.Automaton.Search
import RegularArithmetic.Proofs.Store.Sorting

/-!
Trimming keeps the language: the states that are dropped lie on no accepting run, and the others
keep their moves to each other.
-/

set_option autoImplicit false

namespace RegularArithmetic.Automaton

variable {s : Diagram.Store} {a b : Automaton} {q r i : Nat}

section

variable {n : Nat} {order : List Nat}

private theorem numbering_append (order : List Nat) (q : Nat) :
    numbering n (order ++ [q]) = (numbering n order).setIfInBounds q (some order.length) := by
  simp [numbering, List.zipIdx_append]

theorem size_numbering : (numbering n order).size = n := by
  induction order using List.reverseRecOn with
  | nil => simp [numbering]
  | append_singleton order q ih => rw [numbering_append, Array.size_setIfInBounds, ih]

theorem numbering_eq_some (hnodup : order.Nodup) (hlt : ∀ q ∈ order, q < n) :
    (numbering n order).getD q none = some i ↔ order[i]? = some q := by
  induction order using List.reverseRecOn generalizing i with
  | nil =>
    simp only [numbering, List.zipIdx_nil, List.foldl_nil, Array.getD_eq_getD_getElem?,
      Array.getElem?_replicate]
    split <;> simp
  | append_singleton order p ih =>
    rw [List.nodup_append] at hnodup
    have ih := ih (i := i) hnodup.1 fun q hq => hlt q (by simp [hq])
    rw [numbering_append, Array.getD_eq_getD_getElem?, Array.getElem?_setIfInBounds, size_numbering]
    by_cases hp : p = q
    · subst hp
      have hnot : p ∉ order := fun h => (hnodup.2.2 p h p (by simp)) rfl
      rw [if_pos rfl, if_pos (hlt p (by simp))]
      rw [List.getElem?_append]
      split
      · rename_i hi
        have hne : order[i]? ≠ some p := fun h => hnot (List.mem_of_getElem? h)
        have : order.length ≠ i := by omega
        simp [this, hne]
      · by_cases hi : i = order.length
        · simp [hi]
        · have : order.length ≠ i := Ne.symm hi
          have h1 : 0 < i - order.length := by omega
          simp [this, Nat.ne_of_gt h1]
    · rw [if_neg hp, ← Array.getD_eq_getD_getElem?, ih, List.getElem?_append]
      split
      · rfl
      · rename_i hi
        have hnone : order[i]? = none := List.getElem?_eq_none (by omega)
        simp [hnone, List.getElem?_cons, hp]

end

private def keep (a : Automaton) (order : List Nat) : Automaton :=
  ⟨(order.map fun q =>
    let s := a.states.getD q default
    let moves := s.moves.filterMap fun m =>
      ((numbering a.size order).getD m.target none).map fun t => ⟨t, m.label⟩
    { s with moves := inOrder (fun m n => m.target ≤ n.target) moves }).toArray, a.props⟩

section

variable {order : List Nat} (hlt : ∀ q ∈ order, q < a.size)

include hlt

private theorem accepting_keep (hq : order[i]? = some q) :
    (keep a order).Accepting i ↔ a.Accepting q := by
  have hqlt := hlt q (List.mem_of_getElem? hq)
  have hget : a.states[q]? = some a.states[q] := Array.getElem?_eq_getElem hqlt
  simp [Accepting, keep, hq, Array.getD_eq_getD_getElem?, hget]

variable (hnodup : order.Nodup)

include hnodup

private theorem hasMove_keep (hq : order[i]? = some q) (m : Move) :
    (keep a order).HasMove i m ↔ ∃ r, a.HasMove q ⟨r, m.label⟩ ∧ order[m.target]? = some r := by
  have hqlt := hlt q (List.mem_of_getElem? hq)
  have hget : a.states[q]? = some a.states[q] := Array.getElem?_eq_getElem hqlt
  have hkeep : (keep a order).states[i]? = some ⟨a.states[q].accepting,
      inOrder (fun m n => m.target ≤ n.target) (a.states[q].moves.filterMap fun m =>
        ((numbering a.size order).getD m.target none).map fun t => (⟨t, m.label⟩ : Move))⟩ := by
    simp only [keep, List.getElem?_toArray, List.getElem?_map, hq, Option.map_some]
    rw [Array.getD_eq_getD_getElem?, hget]
    rfl
  rw [hasMove_iff hkeep, mem_inOrder, List.mem_filterMap]
  constructor
  · rintro ⟨⟨r, label⟩, hm, hnum⟩
    obtain ⟨t, ht, rfl⟩ := Option.map_eq_some_iff.1 hnum
    exact ⟨r, (hasMove_iff hget).2 hm, (numbering_eq_some hnodup hlt).1 ht⟩
  · rintro ⟨r, hm, hr⟩
    refine ⟨⟨r, m.label⟩, (hasMove_iff hget).1 hm, ?_⟩
    rw [(numbering_eq_some hnodup hlt).2 hr]
    rfl

private theorem Recognizes.keep {V : Set Nat} {L : Word → Prop} (h : a.Recognizes s V L)
    (hzero : order[0]? = some 0)
    (hclosed : ∀ q ∈ order, ∀ r l w, Step s a q l r → AcceptsFrom s a r w → r ∈ order) :
    (Automaton.keep a order).Recognizes s V L := by
  have hsize : (Automaton.keep a order).size = order.length := by simp [Automaton.keep, size]
  have hmove : ∀ i m, (Automaton.keep a order).HasMove i m → ∃ q r, order[i]? = some q ∧
      a.HasMove q ⟨r, m.label⟩ ∧ order[m.target]? = some r := by
    intro i m hm
    have hi : i < order.length := hsize ▸ hm.lt
    obtain ⟨r, hr⟩ := (hasMove_keep hlt hnodup (List.getElem?_eq_getElem hi) m).1 hm
    exact ⟨_, r, List.getElem?_eq_getElem hi, hr⟩
  have hstep : ∀ i q j l, order[i]? = some q → Step s (Automaton.keep a order) i l j →
      ∃ r, order[j]? = some r ∧ Step s a q l r := by
    rintro i q j l hq ⟨m, hm, hl, rfl⟩
    obtain ⟨q', r, hq', hr, hj⟩ := hmove i m hm
    rw [hq] at hq'
    cases hq'
    exact ⟨r, hj, _, hr, hl, rfl⟩
  have hlt0 : 0 < order.length := (List.getElem?_eq_some_iff.1 hzero).1
  refine ⟨⟨hsize ▸ hlt0, ?_, ?_, ?_⟩, ?_, ⟨?_, h.reads.props⟩, fun w => ?_⟩
  · intro i m hm
    obtain ⟨_, _, -, -, hj⟩ := hmove i m hm
    exact hsize ▸ (List.getElem?_eq_some_iff.1 hj).1
  · intro i m hm
    obtain ⟨q, r, -, hr, -⟩ := hmove i m hm
    exact h.formed.valid q ⟨r, m.label⟩ hr
  · intro i m hm
    obtain ⟨q, r, -, hr, -⟩ := hmove i m hm
    exact h.formed.satisfiable q ⟨r, m.label⟩ hr
  · intro i l j j' hj hj'
    have hi : i < order.length := by
      obtain ⟨m, hm, -⟩ := hj
      exact hsize ▸ hm.lt
    obtain ⟨r, hr, hqr⟩ := hstep i _ j l (List.getElem?_eq_getElem hi) hj
    obtain ⟨r', hr', hqr'⟩ := hstep i _ j' l (List.getElem?_eq_getElem hi) hj'
    obtain rfl := h.deterministic _ _ _ _ hqr hqr'
    exact (List.getElem?_inj (List.getElem?_eq_some_iff.1 hr).1 hnodup).1 (hr.trans hr'.symm)
  · intro i m hm
    obtain ⟨q, r, -, hr, -⟩ := hmove i m hm
    exact h.reads.labels q ⟨r, m.label⟩ hr
  · rw [← h.accepts w]
    constructor
    · refine acceptsFrom_of_simulation (fun i q => order[i]? = some q) ?_ ?_ w 0 0 hzero
      · exact fun i q hq hi => (accepting_keep hlt hq).1 hi
      · intro i q l j w hq hj _
        obtain ⟨r, hr, hstep⟩ := hstep i q j l hq hj
        exact ⟨r, hstep, hr⟩
    · refine acceptsFrom_of_simulation (fun q i => order[i]? = some q) ?_ ?_ w 0 0 hzero
      · exact fun q i hq hi => (accepting_keep hlt hq).2 hi
      · rintro q i l r w hq ⟨m, hm, hl, rfl⟩ hw
        have hr := hclosed q (List.mem_of_getElem? hq) m.target l w ⟨m, hm, hl, rfl⟩ hw
        obtain ⟨j, hj⟩ := List.mem_iff_getElem?.1 hr
        exact ⟨j, ⟨⟨j, m.label⟩, (hasMove_keep hlt hnodup hq _).2 ⟨m.target, hm, hj⟩, hl, rfl⟩, hj⟩

end

private theorem leads_of_acceptsFrom {w : Word} (h : AcceptsFrom s a q w) :
    Leads (a.states.map fun s => s.moves.map (·.target)) (a.states.map (·.accepting)) q := by
  induction w generalizing q with
  | nil =>
    obtain ⟨st, hst, hacc⟩ := h
    exact .marked (by simp [hst, hacc])
  | cons l w ih =>
    obtain ⟨r, ⟨m, ⟨st, hst, hm⟩, -, rfl⟩, hw⟩ := h
    refine .step ?_ (ih hw)
    simpa [Array.getD_eq_getD_getElem?, hst] using ⟨m, hm, rfl⟩

theorem recognizes_empty {V : Set Nat} {L : Word → Prop} {props : NumberSet}
    (hprops : ∀ p ∈ props, p ∈ V) (hL : ∀ w, ¬L w) :
    Recognizes s { empty with props } V L := by
  have hmove : ∀ q m, ¬HasMove { empty with props } q m := by
    rintro q m ⟨st, hst, hm⟩
    simp only [empty, List.getElem?_toArray] at hst
    rcases q with _ | q <;> simp at hst
    subst hst
    simp at hm
  have haccept : ∀ q, ¬Accepting { empty with props } q := by
    rintro q ⟨st, hst, hacc⟩
    simp only [empty, List.getElem?_toArray] at hst
    rcases q with _ | q <;> simp at hst
    subst hst
    simp at hacc
  refine ⟨⟨by simp [empty, size], fun q m h => absurd h (hmove q m),
    fun q m h => absurd h (hmove q m), fun q m h => absurd h (hmove q m)⟩, ?_,
    ⟨fun q m h => absurd h (hmove q m), hprops⟩, fun w => iff_of_false ?_ (hL w)⟩
  · rintro q l r r' ⟨m, hm, -⟩
    exact absurd hm (hmove q m)
  · cases w with
    | nil => exact haccept 0
    | cons l w =>
      rintro ⟨r, ⟨m, hm, -⟩, -⟩
      exact hmove 0 m hm

theorem gives_trim {V : Set Nat} {L : Word → Prop} (h : a.Recognizes s V L) :
    Gives a.trim fun b => b.Recognizes s V L := by
  unfold trim
  refine (Search.gives_run (R := fun _ => True) h.formed.nonempty trivial
    fun _ _ _ _ _ _ => trivial).bind ?_
  rintro ⟨met, found⟩ ⟨hmet, hfirst, hended⟩
  dsimp only at hmet hfirst hended ⊢
  refine .bind_of_forall fun _ => ?_
  refine (gives_leadingTo (by simp)).bind fun useful ⟨hsize, huseful⟩ => ?_
  by_cases hzero : useful.getD 0 false = true
  · rw [hzero]
    obtain ⟨rest, horder⟩ : ∃ rest, met.order = 0 :: rest := by
      cases h : met.order with
      | nil => simp [h] at hfirst
      | cons q rest =>
        obtain rfl : q = 0 := by simpa [h] using hfirst
        exact ⟨rest, rfl⟩
    refine .pure (Recognizes.keep (fun q hq => ?_) (hmet.nodup.filter _) h ?_ ?_)
    · exact hmet.lt (List.mem_filter.1 hq).1
    · rw [horder, List.filter_cons, if_pos hzero]
      rfl
    · rintro q hq r l w ⟨m, hm, -, rfl⟩ hw
      rw [List.mem_filter] at hq ⊢
      obtain ⟨ms, hms, hin⟩ := hended.closed hq.1
      exact ⟨hin m (((moves_eq_ok hms).2 m).1 hm),
        getD_marks_eq_true.2 ((huseful _).2 (leads_of_acceptsFrom hw))⟩
  · rw [Bool.eq_false_of_not_eq_true hzero]
    refine .pure (recognizes_empty h.reads.props fun w hw => hzero ?_)
    exact getD_marks_eq_true.2 ((huseful 0).2 (leads_of_acceptsFrom ((h.accepts w).2 hw)))

/-- Every state is reached and leads to acceptance, unless nothing is accepted by one state without
moves. -/
structure IsTrim (s : Diagram.Store) (a : Automaton) : Prop where
  reachable : ∀ q < a.size, ∃ w, Reaches s a 0 w q
  productive : (∀ q < a.size, ∃ w, AcceptsFrom s a q w) ∨ a.size = 1 ∧ ∀ q m, ¬a.HasMove q m

theorem reaches_mono {t : Diagram.Store} (hs : s.Sound) (hst : s ≤ t) (h : a.Formed s) {w : Word} :
    Reaches t a q w r ↔ Reaches s a q w r := by
  induction w generalizing q with
  | nil => rfl
  | cons l w ih => simp only [Reaches, step_mono hs hst h, ih]

theorem IsTrim.mono_store {t : Diagram.Store} (hs : s.Sound) (hst : s ≤ t) (h : a.Formed s)
    (ha : a.IsTrim s) : a.IsTrim t := by
  obtain ⟨hreachable, hproductive⟩ := ha
  refine ⟨fun q hq => ?_, hproductive.imp (fun hproductive q hq => ?_) id⟩
  · simpa only [reaches_mono hs hst h] using hreachable q hq
  · simpa only [acceptsFrom_mono hs hst h] using hproductive q hq

private theorem mem_targets
    (hr : r ∈ (a.states.map fun s => s.moves.map (·.target)).getD q []) :
    ∃ st, a.states[q]? = some st ∧ ∃ m ∈ st.moves, m.target = r := by
  rw [Array.getD_eq_getD_getElem?, Array.getElem?_map] at hr
  cases hst : a.states[q]? with
  | none => simp [hst] at hr
  | some st => exact ⟨st, rfl, by simpa [hst] using hr⟩

private theorem leads_iff_acceptsFrom (hs : s.Sound) (h : a.Formed s) :
    Leads (a.states.map fun s => s.moves.map (·.target)) (a.states.map (·.accepting)) q ↔
      ∃ w, AcceptsFrom s a q w := by
  refine ⟨fun hleads => ?_, fun ⟨w, hw⟩ => leads_of_acceptsFrom hw⟩
  induction hleads with
  | marked hq => exact ⟨[], by simpa [AcceptsFrom, Accepting] using hq⟩
  | @step q r hr _ ih =>
    obtain ⟨w, hw⟩ := ih
    obtain ⟨st, hst, m, hm, rfl⟩ := mem_targets hr
    obtain ⟨l, hl⟩ := h.exists_step hs ((hasMove_iff hst).2 hm)
    exact ⟨l :: w, m.target, hl, hw⟩

section

variable {order : List Nat} (hlt : ∀ q ∈ order, q < a.size) (hnodup : order.Nodup)

include hlt hnodup

private theorem step_keep (hq : order[i]? = some q) {l : Diagram.Assignment} {j : Nat} :
    Step s (keep a order) i l j ↔ ∃ r, order[j]? = some r ∧ Step s a q l r := by
  constructor
  · rintro ⟨m, hm, hl, rfl⟩
    obtain ⟨r, hr, hj⟩ := (hasMove_keep hlt hnodup hq m).1 hm
    exact ⟨r, hj, _, hr, hl, rfl⟩
  · rintro ⟨r, hj, m, hm, hl, rfl⟩
    exact ⟨⟨j, m.label⟩, (hasMove_keep hlt hnodup hq _).2 ⟨m.target, hm, hj⟩, hl, rfl⟩

end

section

variable {order : List Nat} (hnodup : order.Nodup) (hzero : order[0]? = some 0)
  (hmem : ∀ q, q ∈ order ↔ (∃ w, Reaches s a 0 w q) ∧ ∃ w, AcceptsFrom s a q w)

include hnodup hmem

private theorem reaches_keep (hlt : ∀ q ∈ order, q < a.size) (hzero : order[0]? = some 0)
    {w : Word} :
    ∀ {q i : Nat}, order[i]? = some q → Reaches s a 0 w q → Reaches s (keep a order) 0 w i := by
  induction w using List.reverseRecOn with
  | nil =>
    rintro q i hi rfl
    exact (List.getElem?_inj (List.getElem?_eq_some_iff.1 hzero).1 hnodup).1 (hzero.trans hi.symm)
  | append_singleton w l ih =>
    intro q i hi hq
    obtain ⟨p, hp, hstep⟩ := reaches_concat.1 hq
    obtain ⟨-, v, hv⟩ := (hmem q).1 (List.mem_of_getElem? hi)
    obtain ⟨j, hj⟩ := List.mem_iff_getElem?.1 ((hmem p).2 ⟨⟨w, hp⟩, l :: v, q, hstep, hv⟩)
    exact reaches_concat.2 ⟨j, ih hj hp, (step_keep hlt hnodup hj).2 ⟨q, hi, hstep⟩⟩

private theorem acceptsFrom_keep (hlt : ∀ q ∈ order, q < a.size) {w : Word} : ∀ {q i : Nat},
    order[i]? = some q → AcceptsFrom s a q w → AcceptsFrom s (keep a order) i w := by
  induction w with
  | nil => exact fun hi hq => (accepting_keep hlt hi).2 hq
  | cons l w ih =>
    rintro q i hi ⟨r, hr, hw⟩
    obtain ⟨⟨v, hv⟩, -⟩ := (hmem q).1 (List.mem_of_getElem? hi)
    obtain ⟨j, hj⟩ := List.mem_iff_getElem?.1
      ((hmem r).2 ⟨⟨v ++ [l], reaches_concat.2 ⟨q, hv, hr⟩⟩, w, hw⟩)
    exact ⟨j, (step_keep hlt hnodup hi).2 ⟨r, hj, hr⟩, ih hj hw⟩

include hzero

private theorem isTrim_keep (h : a.Formed s) : (keep a order).IsTrim s := by
  have hlt : ∀ q ∈ order, q < a.size := fun q hq => by
    obtain ⟨⟨w, hw⟩, -⟩ := (hmem q).1 hq
    exact hw.lt h h.nonempty
  have hget : ∀ i < (keep a order).size, ∃ q, order[i]? = some q ∧ q ∈ order := by
    intro i hi
    have hi : i < order.length := by simpa [keep, size] using hi
    exact ⟨order[i], List.getElem?_eq_getElem hi, List.getElem_mem hi⟩
  refine ⟨fun i hi => ?_, .inl fun i hi => ?_⟩
  all_goals
    obtain ⟨q, hq, hin⟩ := hget i hi
    obtain ⟨⟨w, hw⟩, v, hv⟩ := (hmem q).1 hin
  · exact ⟨w, reaches_keep hnodup hmem hlt hzero hq hw⟩
  · exact ⟨v, acceptsFrom_keep hnodup hmem hlt hq hv⟩

end

private theorem isTrim_empty {props : NumberSet} : IsTrim s { empty with props } := by
  refine ⟨fun q hq => ⟨[], (Nat.lt_one_iff.1 hq).symm⟩, .inr ⟨rfl, ?_⟩⟩
  rintro q m ⟨st, hst, hm⟩
  simp only [empty, List.getElem?_toArray] at hst
  rcases q with _ | q <;> simp at hst
  subst hst
  simp at hm

theorem answers_trim {V : Set Nat} {L : Word → Prop} (hs : s.Sound) (h : a.Recognizes s V L) :
    Answers a.trim fun b => b.Recognizes s V L ∧ b.IsTrim s := by
  suffices htrim : Answers a.trim fun b => b.IsTrim s from
    (htrim.and (gives_trim h)).mono fun _ hb => hb.symm
  let R (q : Nat) : Prop := q < a.size ∧ ∃ w, Reaches s a 0 w q
  unfold trim
  refine (Search.answers_run (R := R) (fun q hq => hq.1) ⟨h.formed.nonempty, [], rfl⟩
    (fun q hq => ?_) fun _ _ => .ok trivial).bind ?_
  · refine (answers_moves hq.1).mono fun ms hms m hm => ?_
    have hmove := (hms m).2 hm
    obtain ⟨w, hw⟩ := hq.2
    obtain ⟨l, hl⟩ := h.formed.exists_step hs hmove
    exact ⟨h.formed.closed q m hmove, w ++ [l], reaches_concat.2 ⟨q, hw, hl⟩⟩
  rintro ⟨met, found⟩ ⟨hmet, hfirst, hended⟩
  dsimp only at hmet hfirst hended ⊢
  refine (answers_requireClosed h.formed).bind fun _ _ => ?_
  refine (answers_leadingTo (by simp) fun q r hr => ?_).bind fun useful hleading => ?_
  · obtain ⟨st, hst, m, hm, rfl⟩ := mem_targets hr
    simpa [size] using h.formed.closed q m ((hasMove_iff hst).2 hm)
  obtain ⟨hsize, huseful⟩ := hleading
  have huseful : ∀ q, useful.getD q false = true ↔ ∃ w, AcceptsFrom s a q w := by
    intro q
    rw [getD_marks_eq_true, huseful, leads_iff_acceptsFrom hs h.formed]
  by_cases hzero : useful.getD 0 false = true
  · rw [hzero]
    obtain ⟨rest, horder⟩ : ∃ rest, met.order = 0 :: rest := by
      cases h : met.order with
      | nil => simp [h] at hfirst
      | cons q rest =>
        obtain rfl : q = 0 := by simpa [h] using hfirst
        exact ⟨rest, rfl⟩
    have hreached : ∀ w q, Reaches s a 0 w q → q ∈ met.order := by
      intro w
      induction w using List.reverseRecOn with
      | nil =>
        rintro q rfl
        simp [horder]
      | append_singleton w l ih =>
        intro q hq
        obtain ⟨p, hp, m, hm, -, rfl⟩ := reaches_concat.1 hq
        obtain ⟨ms, hms, hin⟩ := hended.closed (ih p hp)
        exact hin m (((moves_eq_ok hms).2 m).1 hm)
    refine ⟨keep a (met.order.filter fun q => useful.getD q false), rfl,
      isTrim_keep (hmet.nodup.filter _) ?_ (fun q => ?_) h.formed⟩
    · rw [horder, List.filter_cons, if_pos hzero]
      rfl
    · rw [List.mem_filter, huseful]
      refine and_congr_left fun _ => ⟨fun hq => (hmet.holds q hq).2, ?_⟩
      rintro ⟨w, hw⟩
      exact hreached w q hw
  · rw [Bool.eq_false_of_not_eq_true hzero]
    exact ⟨_, rfl, isTrim_empty⟩

end RegularArithmetic.Automaton

import RegularArithmetic.Proofs.Automaton.Boolean
import RegularArithmetic.Proofs.Automaton.Projection

/-!
Words as they are put to an automaton: lists of letters, each the finite set of propositions that
it makes true. The automaton is walked through such a word letter by letter, which ends with an
answer. Its labels test finitely many propositions, so there is no other word that it could tell
from all of these.
-/

set_option autoImplicit false

namespace RegularArithmetic

open Diagram (Edge Assignment)

namespace Letter

/-- The truth values that a letter gives to the propositions. -/
def assignment (l : Letter) : Assignment := fun p => decide (p ∈ l)

/-- The letter of the propositions below `n` that are true. -/
def below (n : Nat) (σ : Assignment) : Letter :=
  ⟨(List.range n).filter (σ ·), List.pairwise_lt_range.filter _⟩

theorem assignment_below {n p : Nat} (hp : p < n) (σ : Assignment) :
    assignment (below n σ) p = σ p := by
  simp [assignment, below, NumberSet.mem_def, hp]

theorem assignment_empty : assignment (∅ : NumberSet) = Automaton.blankLetter := by
  funext p
  simp [assignment, Automaton.blankLetter]

theorem exists_eq_of_agreeOff {ps : NumberSet} {l : Letter} {σ : Assignment}
    (h : Automaton.AgreeOff ps.toList (assignment l) σ) : ∃ l' : Letter, assignment l' = σ := by
  refine ⟨(l.diff ps).insertAll (ps.toList.filter (σ ·)), funext fun p => Bool.eq_iff_iff.2 ?_⟩
  rw [assignment, decide_eq_true_eq, NumberSet.mem_insertAll, List.mem_filter,
    NumberSet.mem_diff, NumberSet.mem_def (s := ps)]
  by_cases hp : p ∈ ps.toList
  · simp [hp]
  · simp [hp, h p hp, assignment]

end Letter

/-- The word of the truth values. -/
def Word.ofLetters (w : List Letter) : Word := w.map Letter.assignment

theorem Word.ofLetters_append_blank (w : List Letter) (k : Nat) :
    ofLetters (w ++ List.replicate k ∅) = ofLetters w ++ Automaton.padding k := by
  simp only [ofLetters, List.map_append, List.map_replicate, Letter.assignment_empty]
  rfl

theorem findM?_eq_find? {ε α : Type} {f : α → Except ε Bool} {p : α → Bool} :
    ∀ {l : List α}, (∀ a ∈ l, f a = .ok (p a)) → l.findM? f = .ok (l.find? p)
  | [], _ => rfl
  | a :: l, h => by
    rw [List.findM?, List.find?, h a (by simp)]
    cases p a with
    | true => rfl
    | false => exact findM?_eq_find? fun a' ha' => h a' (by simp [ha'])

namespace Automaton

variable {s t : Diagram.Store} {a b : Automaton} {V : Set Nat} {L : Word → Prop} {q : Nat}

/-- There is an initial state, every move leads to a state, and every label names a node. -/
structure Readable (s : Diagram.Store) (a : Automaton) : Prop where
  nonempty : 0 < a.size
  closed : ∀ q m, a.HasMove q m → m.target < a.size
  valid : ∀ q m, a.HasMove q m → s.Valid m.label

theorem Formed.readable (h : a.Formed s) : a.Readable s := ⟨h.nonempty, h.closed, h.valid⟩

theorem Formed.recognizes (h : a.Formed s) (ha : a.Deterministic s) :
    a.Recognizes s Set.univ (a.Accepts s) := ⟨h, ha, reads_univ a, fun _ => Iff.rfl⟩

theorem Readable.follow_cons (hs : s.Sound) (h : a.Readable s) {q : Nat} (hq : q < a.size)
    (l : Letter) (w : List Letter) : a.follow s q (l :: w) =
      match a.states[q].moves.find? fun m => s.value m.label (Letter.assignment l) with
      | some m => a.follow s m.target w
      | none => .ok none := by
  have hst := Array.getElem?_eq_getElem hq
  have htaken : a.states[q].moves.findM? (fun m => s.eval (· ∈ l) m.label) =
      .ok (a.states[q].moves.find? fun m => s.value m.label (Letter.assignment l)) :=
    findM?_eq_find? fun m hm => hs.eval_eq (h.valid q m ((hasMove_iff hst).2 hm)) _
  rw [follow, state_eq_ok.2 hst]
  simp only [bind, Except.bind, htaken]
  rfl

theorem Readable.follow_eq (hs : s.Sound) (h : a.Readable s) (ha : a.Deterministic s) :
    ∀ (w : List Letter) {q : Nat}, q < a.size → ∃ r?, a.follow s q w = .ok r? ∧
      ∀ r, r? = some r ↔ r < a.size ∧ Reaches s a q (Word.ofLetters w) r
  | [], q, hq => by
    refine ⟨some q, rfl, fun r => ?_⟩
    rw [Option.some.injEq]
    exact ⟨fun hr => ⟨hr ▸ hq, hr⟩, fun hr => hr.2⟩
  | l :: w, q, hq => by
    have hst := Array.getElem?_eq_getElem hq
    rw [h.follow_cons hs hq]
    cases hfind : a.states[q].moves.find? fun m => s.value m.label (Letter.assignment l) with
    | none =>
      refine ⟨none, rfl, fun r => iff_of_false (by simp) ?_⟩
      rintro ⟨-, p, ⟨m, hm, hl, -⟩, -⟩
      exact List.find?_eq_none.1 hfind m ((hasMove_iff hst).1 hm) hl
    | some m =>
      have hm : a.HasMove q m := (hasMove_iff hst).2 (List.mem_of_find?_eq_some hfind)
      have hl := List.find?_some (p := fun m : Move => s.value m.label (Letter.assignment l)) hfind
      have hstep : Step s a q (Letter.assignment l) m.target := ⟨m, hm, hl, rfl⟩
      obtain ⟨r?, hr, hiff⟩ := follow_eq hs h ha w (h.closed q m hm)
      refine ⟨r?, hr, fun r => (hiff r).trans (and_congr_right fun _ =>
        ⟨fun hr => ⟨_, hstep, hr⟩, ?_⟩)⟩
      rintro ⟨p, hp, hr⟩
      rwa [← ha q _ p _ hp hstep]

theorem Readable.accepts_eq (hs : s.Sound) (h : a.Readable s) (ha : a.Deterministic s)
    (w : List Letter) :
    ∃ x, a.accepts w s = .ok x s ∧ (x = true ↔ a.Accepts s (Word.ofLetters w)) := by
  obtain ⟨r?, hr, hiff⟩ := h.follow_eq hs ha w h.nonempty
  have haccepts : a.Accepts s (Word.ofLetters w) ↔ ∃ r, r? = some r ∧ a.Accepting r := by
    rw [Accepts, acceptsFrom_iff_reaches]
    constructor
    · rintro ⟨r, hreach, haccepting⟩
      exact ⟨r, (hiff r).2 ⟨Accepting.lt haccepting, hreach⟩, haccepting⟩
    · rintro ⟨r, hsome, haccepting⟩
      exact ⟨r, ((hiff r).1 hsome).2, haccepting⟩
  rw [haccepts]
  cases r? with
  | none => exact ⟨false, by simp only [accepts, Diagram.ask, hr]; rfl, by simp⟩
  | some r =>
    obtain ⟨x, hx⟩ : ∃ x, a.isAccepting r = .ok x := by
      have hlt := ((hiff r).1 rfl).1
      exact ⟨_, by rw [isAccepting, state_eq_ok.2 (Array.getElem?_eq_getElem hlt)]; rfl⟩
    refine ⟨x, ?_, by simpa using (isAccepting_eq_ok.1 hx).2⟩
    simp only [accepts, Diagram.ask, hr, bind, Except.bind, hx]

/-- The word is answered with "accepted". -/
def Admits (s : Diagram.Store) (a : Automaton) (w : List Letter) : Prop :=
  a.accepts w s = .ok true s

theorem Readable.admits_iff (hs : s.Sound) (h : a.Readable s) (ha : a.Deterministic s)
    {w : List Letter} : a.Admits s w ↔ a.Accepts s (Word.ofLetters w) := by
  obtain ⟨x, hx, hiff⟩ := h.accepts_eq hs ha w
  rw [← hiff, Admits, hx]
  simp

/-- Every word is answered, the ones in `L` with "accepted" and all others with "rejected". The
program finds the automaton deterministic. -/
structure Decides (s : Diagram.Store) (a : Automaton) (L : List Letter → Prop) : Prop where
  formed : a.Formed s
  isDeterministic : Returns a.isDeterministic s fun x _ => x = true
  accepts : ∀ w, ∃ x, a.accepts w s = .ok x s ∧ (x = true ↔ L w)

theorem Recognizes.decides_of_unambiguous (hs : s.Sound) (h : a.Recognizes s V L)
    (ha : a.Unambiguous s) {K : List Letter → Prop} (hK : ∀ w, L (Word.ofLetters w) ↔ K w) :
    a.Decides s K where
  formed := h.formed
  isDeterministic := (returns_isDeterministic hs h.formed).mono fun _ _ _ hx => hx.2 ha
  accepts w := by
    obtain ⟨x, hx, hiff⟩ := h.formed.readable.accepts_eq hs h.deterministic w
    exact ⟨x, hx, hiff.trans ((h.accepts _).trans (hK w))⟩

theorem Recognizes.decides (hs : s.Sound) (h : a.Recognizes s V L) (hsimple : a.Simple)
    {K : List Letter → Prop} (hK : ∀ w, L (Word.ofLetters w) ↔ K w) : a.Decides s K :=
  h.decides_of_unambiguous hs (h.deterministic.unambiguous hsimple) hK

section

variable {N : Nat}

theorem exists_bound (s : Diagram.Store) : ∃ N, ∀ i n, s.nodes.get? i = some n → n.var < N := by
  refine ⟨(s.nodes.cells.toList.map (·.value.var)).sum + 1, fun i n hn => Nat.lt_succ_of_le ?_⟩
  obtain ⟨c, hc, rfl⟩ := Option.map_eq_some_iff.1 hn
  cases i with
  | zero => cases hc
  | succ i =>
    have hmem : c ∈ s.nodes.cells.toList := Array.mem_toList_iff.2 (Array.mem_of_getElem? hc)
    exact List.single_le_sum (by simp) _ (List.mem_map_of_mem hmem)

theorem dependsOn_of_bound (hs : s.Sound) (hN : ∀ i n, s.nodes.get? i = some n → n.var < N)
    {e : Edge} (he : s.Valid e) : DependsOn {p | p < N} (s.value e) := by
  intro σ τ hστ
  refine Diagram.Store.Valid.induction (motive := fun e => s.value e σ = s.value e τ) ?_ ?_ e he
  · intro e he
    rw [Diagram.Store.value_terminal he, Diagram.Store.value_terminal he]
  · intro e n hn hi ih
    rw [hs.value_node hn hi, hs.value_node hn hi, hστ n.var (hN _ n hn)]
    exact ih _ (by simpa using hs.valid_select hn hi _)
      (by simpa using (hs.placed _ n hi hn).select_lt _)

theorem acceptsFrom_congr (hlabels : ∀ q m, a.HasMove q m → DependsOn V (s.value m.label))
    {w w' : Word} (h : List.Forall₂ (fun l l' => ∀ p ∈ V, l p = l' p) w w') :
    AcceptsFrom s a q w ↔ AcceptsFrom s a q w' := by
  induction h generalizing q with
  | nil => rfl
  | @cons l l' w w' hl _ ih =>
    have hstep : ∀ r, Step s a q l r ↔ Step s a q l' r := fun r =>
      exists_congr fun m => and_congr_right fun hm => by rw [hlabels q m hm l l' hl]
    simp only [AcceptsFrom, hstep, ih]

end

theorem exists_letters (hs : s.Sound) (ht : t.Sound) (w : Word) : ∃ v : List Letter,
    (∀ a : Automaton, a.Readable s → (a.Accepts s (Word.ofLetters v) ↔ a.Accepts s w)) ∧
      ∀ a : Automaton, a.Readable t → (a.Accepts t (Word.ofLetters v) ↔ a.Accepts t w) := by
  obtain ⟨M, hM⟩ := exists_bound s
  obtain ⟨N, hN⟩ := exists_bound t
  have hagree : List.Forall₂ (fun l l' => ∀ p ∈ {p | p < max M N}, l p = l' p)
      (Word.ofLetters (w.map (Letter.below (max M N)))) w := by
    rw [Word.ofLetters, List.map_map, List.forall₂_map_left_iff, List.forall₂_same]
    exact fun l _ p hp => Letter.assignment_below hp l
  refine ⟨_, fun a ha => acceptsFrom_congr (fun q m hm => ?_) hagree,
    fun a ha => acceptsFrom_congr (fun q m hm => ?_) hagree⟩
  · exact dependsOn_of_bound hs (fun i n hn => lt_max_of_lt_left (hM i n hn)) (ha.valid q m hm)
  · exact dependsOn_of_bound ht (fun i n hn => lt_max_of_lt_right (hN i n hn)) (ha.valid q m hm)

theorem forall_accepts_iff (hs : s.Sound) (ht : t.Sound) (ha : a.Readable s) (hb : b.Readable t)
    (R : Prop → Prop → Prop) :
    (∀ w : Word, R (a.Accepts s w) (b.Accepts t w)) ↔
      ∀ w : List Letter, R (a.Accepts s (Word.ofLetters w)) (b.Accepts t (Word.ofLetters w)) := by
  refine ⟨fun h w => h _, fun h w => ?_⟩
  obtain ⟨v, hv, hv'⟩ := exists_letters hs ht w
  rw [← hv a ha, ← hv' b hb]
  exact h v

/-- One accepting state, in which the letters that satisfy the label keep a run. -/
def loop (e : Edge) : Automaton := ⟨#[⟨true, [⟨0, e⟩]⟩], ∅⟩

theorem hasMove_loop {e : Edge} {m : Move} : (loop e).HasMove q m ↔ q = 0 ∧ m = ⟨0, e⟩ := by
  simp only [HasMove, loop, List.getElem?_toArray]
  cases q <;> simp

theorem readable_loop {e : Edge} (he : s.Valid e) : (loop e).Readable s where
  nonempty := Nat.zero_lt_one
  closed q m hm := by
    rw [(hasMove_loop.1 hm).2]
    exact Nat.zero_lt_one
  valid q m hm := by
    rw [(hasMove_loop.1 hm).2]
    exact he

theorem formed_loop {e : Edge} (he : s.Valid e) (hz : e ≠ .zero) : (loop e).Formed s where
  nonempty := (readable_loop he).nonempty
  closed := (readable_loop he).closed
  valid := (readable_loop he).valid
  satisfiable q m hm := by
    rw [(hasMove_loop.1 hm).2]
    exact hz

theorem deterministic_loop (e : Edge) : (loop e).Deterministic s := by
  rintro q l r r' ⟨m, hm, -, rfl⟩ ⟨m', hm', -, rfl⟩
  rw [(hasMove_loop.1 hm).2, (hasMove_loop.1 hm').2]

theorem exists_formed_loop {v : Nat} (hv : v ≠ 0) : ∃ s t e, Diagram.Store.empty? 1 = .ok s ∧
    Diagram.makeVariable v s = .ok e t ∧ t.Sound ∧ (loop e).Formed t ∧ (loop (-e)).Formed t := by
  have hs : Diagram.Store.empty? 1 = _ := Diagram.Store.empty?_eq (by decide)
  have hsound := Diagram.Store.Sound.empty? hs
  obtain ⟨e, t, ht, hle, he⟩ :=
    (Diagram.succeeds_makeNode hsound hv .zero .one).returns
      (Diagram.yields_makeVariable hsound v)
  have htsound := hsound.mono hle
  refine ⟨_, t, e, hs, ht, htsound, formed_loop he.valid fun hz => ?_,
    formed_loop (he.neg htsound).valid fun hz => ?_⟩
  · simpa using (he.eq_zero_iff htsound).1 hz fun _ => true
  · simpa using ((he.neg htsound).eq_zero_iff htsound).1 hz fun _ => false

/-- The test of a variable that is made in a new store, for evaluation. -/
def testVariable (v : Nat) (test : Diagram.Store → Diagram.Edge → Bool) : Bool :=
  match Diagram.Store.empty? 1 with
  | .ok s =>
    match Diagram.makeVariable v s with
    | .ok e t => test t e
    | .error _ _ => false
  | .error _ => false

theorem testVariable_eq {v : Nat} {t : Diagram.Store} {e : Diagram.Edge}
    (test : Diagram.Store → Diagram.Edge → Bool) (hs : Diagram.Store.empty? 1 = .ok s)
    (ht : Diagram.makeVariable v s = .ok e t) : testVariable v test = test t e := by
  simp only [testVariable, hs, ht]

end Automaton

end RegularArithmetic

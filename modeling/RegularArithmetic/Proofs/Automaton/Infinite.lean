import RegularArithmetic.Interchange.Reader
import RegularArithmetic.Proofs.Automaton.Padding
import RegularArithmetic.Proofs.Automaton.Recurrence
import RegularArithmetic.Proofs.Automaton.Subsets

/-!
Automata for infinite words, read as automata for finite ones that all-false letters follow forever.
A state accepts a word that is over if these letters can lead from it to an accepting state on one
of their cycles. The language that is read is closed under padding.
-/

set_option autoImplicit false

namespace RegularArithmetic.Automaton

open Diagram (Edge Assignment)

variable {s t : Diagram.Store} {x : Alphabet} {a b : Automaton}

section

variable {next : Array (List Nat)} {marks : Array Bool} {q : Nat}

def Follows (next : Array (List Nat)) (q r : Nat) : Prop := r ∈ next.getD q []

theorem met_blank (n : Nat) (R : Nat → Prop) : Search.Met n R (Search.blank n) where
  size_seen := by simp [Search.blank]
  seen_iff q := by
    simp only [Search.blank, Search.order, Array.getElem?_replicate]
    split <;> simp
  nodup := by simp [Search.blank, Search.order]
  holds := by simp [Search.blank, Search.order]

theorem answers_onCycle (hnext : ∀ q r, Follows next q r → r < next.size) :
    Answers (onCycle next q) fun c => c = true ↔ Relation.TransGen (Follows next) q q := by
  let moves (p : Nat) : List Move := (next.getD p []).map fun t => ⟨t, .one⟩
  have hmoves : ∀ p r, (∃ m ∈ moves p, m.target = r) ↔ Follows next p r := by
    intro p r
    simp [moves, Follows]
  let Met (r : Nat) : Prop := Relation.TransGen (Follows next) q r
  have hlt : ∀ r, Met r → r < next.size := by
    intro r hr
    obtain ⟨p, -, hlast⟩ := Relation.TransGen.tail'_iff.1 hr
    exact hnext p r hlast
  have hfirst : ∀ m ∈ moves q, Met m.target := fun m hm => .single ((hmoves q _).1 ⟨m, hm, rfl⟩)
  have hlater : ∀ p ms, Met p → (Except.ok (moves p) : Except Fault _) = .ok ms →
      ∀ m ∈ ms, Met m.target := by
    rintro p ms hp ⟨⟩ m hm
    exact .tail hp ((hmoves p _).1 ⟨m, hm, rfl⟩)
  -- The search does not stop before it has met all that can be reached.
  let stop : Nat → Except Fault Bool := fun _ => .ok false
  have hstop : ∀ p, Met p → Answers (stop p) fun _ => True := fun _ _ => .ok trivial
  unfold onCycle
  refine Answers.bind (P := (· = moves q)) (.ok rfl) ?_
  rintro _ rfl
  refine ((Search.answers_meetAll [] hlt hfirst (met_blank next.size Met)).and
    (Search.gives_meetAll [] hfirst (met_blank next.size Met))).bind fun w ⟨hw, _, hall, _⟩ => ?_
  refine ((Search.answers_runFrom hlt
    (fun p hp => .ok (hlater p _ hp rfl)) hstop w.seen.size 0 w hw).and
    (Search.gives_runFrom hlater _ 0 w hw (by rw [hw.size_seen]; omega) (by simp))).bind
      fun r ⟨_, hmet, hprefix, hended⟩ => .pure ?_
  -- All that can be reached is met, since the targets of the moves of a met state are.
  have hreached : ∀ p, Met p → p ∈ r.1.order := by
    intro p hp
    induction hp with
    | single h =>
      obtain ⟨m, hm, rfl⟩ := (hmoves _ _).2 h
      exact hprefix.subset (hall m hm)
    | tail _ h ih =>
      obtain ⟨ms, hms, hin⟩ := hended.closed ih
      cases hms
      obtain ⟨m, hm, rfl⟩ := (hmoves _ _).2 h
      exact hin m hm
  rw [getD_marks_eq_true, hmet.seen_iff]
  exact ⟨hmet.holds q, hreached q⟩

theorem leads_iff_reflTransGen : Leads next marks q ↔
    ∃ p, marks[p]? = some true ∧ Relation.ReflTransGen (Follows next) q p := by
  constructor
  · intro h
    induction h with
    | marked hq => exact ⟨_, hq, .refl⟩
    | step hr _ ih =>
      obtain ⟨p, hp, hreach⟩ := ih
      exact ⟨p, hp, hreach.head hr⟩
  · rintro ⟨p, hp, hreach⟩
    exact hreach.head_induction_on (.marked hp) fun hr _ ih => .step hr ih

end

/-- The automaton as one for infinite words. -/
def buchi (s : Diagram.Store) (a : Automaton) : Buchi := ⟨a.size, 0, a.Accepting, Step s a⟩

/-- The states that accept when all-false letters follow forever. -/
def infiniteMarks (a : Automaton) : Alphabet.M (Array Bool) := do
  let next ← a.zeroSuccessors
  let recurrent ← a.states.toList.zipIdx.mapM fun (s, q) =>
    if s.accepting then onCycle next q else .ok false
  leadingTo next recurrent.toArray

theorem ofInfinite_eq (a : Automaton) : a.ofInfinite = (do
    let marks ← a.infiniteMarks
    let a ← (a.withAccepting marks).finish
    (← a.saturate).reduce) := by
  simp only [ofInfinite, infiniteMarks, bind_assoc]

theorem returns_infiniteMarks (hs : x.diagrams.Sound) (ha : a.Formed x.diagrams) :
    Returns a.infiniteMarks x fun marks y => y.budget = x.budget ∧ marks.size = a.size ∧
      ∀ q : Nat, marks[q]? = some true ↔
        (a.buchi x.diagrams).AcceptsFrom q (Word.forever []) := by
  unfold infiniteMarks
  refine (returns_zeroSuccessors hs ha.valid).liftDiagram.bind ?_
  rintro next y hxy ⟨⟨-, hsize, hnext⟩, hbudget⟩
  have hfollows : Follows next = (Step x.diagrams a · blankLetter ·) :=
    funext₂ fun q r => propext (hnext q r)
  have hlt : ∀ q r, Follows next q r → r < next.size := by
    intro q r hr
    rw [hsize]
    exact ((hnext q r).1 hr).lt ha
  let Marked (p : State × Nat) (c : Bool) : Prop :=
    c = true ↔ p.1.accepting = true ∧ Relation.TransGen (Follows next) p.2 p.2
  refine (Returns.mapM_keeping (I := fun z => z = y) (fun p c _ => Marked p c)
    (fun _ _ _ _ _ h => h) _ y rfl ?_).bind ?_
  · rintro ⟨st, q⟩ - z - rfl
    refine Returns.ite (fun haccepting => ?_) fun haccepting => .pure ⟨rfl, ?_⟩
    · refine (Returns.liftFault (answers_onCycle hlt)).mono fun c _ _ ⟨heq, hc⟩ => ⟨heq.symm, ?_⟩
      simpa [Marked, haccepting] using hc
    · simp [Marked, haccepting]
  rintro recurrent _ - ⟨rfl, hmarked⟩
  have hlength : recurrent.toArray.size = a.size := by
    have := hmarked.length_eq
    simp only [List.length_zipIdx, Array.length_toList] at this
    simp [← this, size]
  have hrecurrent : ∀ q : Nat, recurrent.toArray[q]? = some true ↔
      a.Accepting q ∧ Relation.TransGen (Follows next) q q := by
    intro q
    rw [List.getElem?_toArray]
    constructor
    · intro hq
      obtain ⟨p, hp, hcycle⟩ := forall₂_getElem? hmarked.flip hq
      rw [List.getElem?_zipIdx, Option.map_eq_some_iff] at hp
      obtain ⟨st, hst, rfl⟩ := hp
      obtain ⟨haccepting, hcycle⟩ := hcycle.1 rfl
      rw [Nat.zero_add] at hcycle
      exact ⟨⟨st, by simpa using hst, haccepting⟩, hcycle⟩
    · rintro ⟨⟨st, hst, haccepting⟩, hcycle⟩
      have hp : a.states.toList.zipIdx[q]? = some (st, q) := by
        rw [List.getElem?_zipIdx, Array.getElem?_toList, hst]
        simp
      obtain ⟨c, hc, hiff⟩ := forall₂_getElem? hmarked hp
      rwa [← hiff.2 ⟨haccepting, hcycle⟩]
  refine (Returns.liftFault (answers_leadingTo (by omega) fun q r hr => ?_)).mono ?_
  · rw [hlength, ← hsize]
    exact hlt q r hr
  rintro marks _ - ⟨rfl, hmarksize, hleads⟩
  refine ⟨hbudget, hmarksize.trans hlength, fun q => ?_⟩
  rw [hleads, leads_iff_reflTransGen, Buchi.acceptsFrom_blank_iff fun p r hstep => ?_]
  · simp only [hrecurrent, hfollows]
    rfl
  · obtain ⟨m, hm, -⟩ := hstep
    exact hm.lt

theorem accepts_withAccepting_iff {marks : Array Bool} (hsize : marks.size = a.size)
    (hmarks : ∀ q : Nat, marks[q]? = some true ↔ (a.buchi s).AcceptsFrom q (Word.forever []))
    (w : Word) : (a.withAccepting marks).Accepts s w ↔ (a.buchi s).Accepts w.forever := by
  suffices h : ∀ q, AcceptsFrom s (a.withAccepting marks) q w ↔
      (a.buchi s).AcceptsFrom q w.forever from h 0
  induction w with
  | nil =>
    intro q
    rw [← hmarks]
    exact accepting_withAccepting hsize
  | cons l w ih =>
    intro q
    have hstep : ∀ r, Step s (a.withAccepting marks) q l r ↔ q < a.size ∧ Step s a q l r := by
      intro r
      rw [step_withAccepting]
      refine ⟨fun h => ⟨?_, h⟩, And.right⟩
      obtain ⟨m, hm, -⟩ := h
      exact hm.lt
    rw [Buchi.acceptsFrom_iff_exists_step, AcceptsFrom]
    exact exists_congr fun r => and_congr (hstep r) (ih r)

theorem buchi_mono (hs : s.Sound) (hst : s ≤ t) (ha : a.Formed s) : a.buchi t = a.buchi s := by
  have hstep : Step t a = Step s a :=
    funext fun q => funext fun l => funext fun r => propext (step_mono hs hst ha)
  rw [buchi, buchi, hstep]

theorem forever_append_padding (w : Word) (k : Nat) : (w ++ padding k).forever = w.forever := by
  funext i
  simp only [Word.forever, List.getD_eq_getElem?_getD, List.getElem?_append, padding,
    List.getElem?_replicate]
  split
  · rfl
  · rw [List.getElem?_eq_none (by omega)]
    split <;> rfl

/-- What an automaton for infinite words accepts when all-false letters follow. -/
def AcceptsForever (s : Diagram.Store) (a : Automaton) (w : Word) : Prop :=
  (a.buchi s).Accepts w.forever

theorem paddingClosed_acceptsForever : PaddingClosed (a.AcceptsForever s) := fun w => by
  rw [AcceptsForever, AcceptsForever]
  exact iff_of_eq (congrArg (a.buchi s).Accepts (forever_append_padding w 1))

theorem yields_ofInfinite (hs : x.diagrams.Sound) (ha : a.Formed x.diagrams) :
    Yields a.ofInfinite x fun b y =>
      b.Recognizes y.diagrams Set.univ (a.AcceptsForever x.diagrams) := by
  rw [ofInfinite_eq]
  refine (returns_infiniteMarks hs ha).yields.bind fun marks y hxy ⟨_, hsize, hmarks⟩ => ?_
  have hy := hs.mono hxy.1
  have hformed := (ha.mono_store hxy.1).withAccepting marks
  have haccepts : ∀ w, (a.withAccepting marks).Accepts y.diagrams w ↔
      a.AcceptsForever x.diagrams w := by
    intro w
    rw [← buchi_mono hs hxy.1 ha] at hmarks
    rw [accepts_withAccepting_iff hsize hmarks, buchi_mono hs hxy.1 ha, AcceptsForever]
  refine (yields_finish hy hformed (reads_univ _)).bind fun b z hyz hb => ?_
  have hz := hy.mono hyz.1
  refine (Yields.liftDiagram (returns_saturate hz (hb.congr haccepts)).yields).bind
    fun c u hzu hc => ?_
  refine Yields.liftDiagram ((yields_reduce (hz.mono hzu.1) hc).mono fun d _ _ hd =>
    hd.congr fun w => ?_)
  simp only [paddingClosed_acceptsForever.append, exists_const]

theorem returns_ofInfinite (hs : x.diagrams.Sound) (hbudget : x.budget = none)
    (ha : a.Formed x.diagrams) : Returns a.ofInfinite x fun b y =>
      b.Simple ∧ b.Recognizes y.diagrams Set.univ (a.AcceptsForever x.diagrams) := by
  refine Returns.and ?_ (yields_ofInfinite hs ha)
  rw [ofInfinite_eq]
  refine (returns_infiniteMarks hs ha).bind fun marks y hxy ⟨hy, _⟩ => ?_
  have hys := hs.mono hxy.1
  have hformed := (ha.mono_store hxy.1).withAccepting marks
  refine (returns_finish hys (hy.trans hbudget) hformed (reads_univ _)).bind fun b z hyz hb => ?_
  have hzs := hys.mono hyz.1
  refine (returns_saturate hzs hb.2).liftDiagram.bind fun c u hzu hc => ?_
  exact (returns_reduce (hzs.mono hzu.1) hc.1).liftDiagram.mono fun d _ _ hd => hd.1.2.1

/-- Without a budget, reading an automaton for infinite words ends with one that is found
deterministic. It accepts a finite word if some run of the given automaton on this word, followed by
all-false letters forever, is at accepting states infinitely often. All-false letters at the end
make no difference to it. -/
theorem returns_decides_ofInfinite (hs : x.diagrams.Sound) (hbudget : x.budget = none)
    (ha : a.Formed x.diagrams) : Returns a.ofInfinite x fun b y =>
      b.Decides y.diagrams
        (fun w => (a.buchi x.diagrams).Accepts (Word.ofLetters w).forever) ∧
      ∀ w k, b.Admits y.diagrams (w ++ List.replicate k ∅) ↔ b.Admits y.diagrams w := by
  apply (returns_ofInfinite hs hbudget ha).mono
  rintro b y hxy ⟨hsimple, hb⟩
  have hy := hs.mono hxy.1
  have hadmits : ∀ w, b.Admits y.diagrams w ↔ a.AcceptsForever x.diagrams (Word.ofLetters w) := by
    intro w
    rw [hb.formed.readable.admits_iff hy hb.deterministic, hb.accepts]
  constructor
  · exact hb.decides hy hsimple fun _ => Iff.rfl
  · intro w k
    rw [hadmits, hadmits, Word.ofLetters_append_blank, paddingClosed_acceptsForever.append]

/-- The words in which a proposition is true at least once, but not infinitely often. -/
theorem returns_decides_ofInfinite_lastOf : ∃ s t e, Diagram.Store.empty? 1 = .ok s ∧
    Diagram.makeVariable 1 s = .ok e t ∧ t.Sound ∧
    (lastOf e).Formed t ∧ ¬(lastOf e).Deterministic t ∧
    Returns (lastOf e).ofInfinite ⟨t, #["p"], 0, none⟩ fun b y =>
      b.Decides y.diagrams (fun w => ((lastOf e).buchi t).Accepts (Word.ofLetters w).forever) ∧
      ∀ w k, b.Admits y.diagrams (w ++ List.replicate k ∅) ↔ b.Admits y.diagrams w := by
  obtain ⟨s, t, e, hs, ht, hsound, hformed, hguesses⟩ := exists_formed_lastOf
  refine ⟨s, t, e, hs, ht, hsound, hformed, hguesses, ?_⟩
  exact returns_decides_ofInfinite (x := ⟨t, #["p"], 0, none⟩) hsound rfl hformed

/-! ### Deterministic automata that are closed under padding -/

/-- From the state one all-false letter more or less makes no difference. -/
def ClosedFrom (s : Diagram.Store) (a : Automaton) (q : Nat) : Prop :=
  PaddingClosed (AcceptsFrom s a q)

section

variable {q r : Nat} (hdet : a.Deterministic s) (hq : a.ClosedFrom s q)

include hdet hq

theorem ClosedFrom.step {l : Assignment} (h : Step s a q l r) : a.ClosedFrom s r := by
  have hcons : ∀ w, AcceptsFrom s a q (l :: w) ↔ AcceptsFrom s a r w := by
    intro w
    constructor
    · rintro ⟨r', hr', haccepts⟩
      rwa [hdet q l r r' h hr']
    · intro haccepts
      exact ⟨r, h, haccepts⟩
  intro w
  rw [← hcons, ← hcons]
  exact hq (l :: w)

/-- On all-false letters an accepting state leads to accepting states only, and no other state leads
to one. -/
theorem ClosedFrom.accepts_blank_iff :
    (a.buchi s).AcceptsFrom q (Word.forever []) ↔ a.Accepting q := by
  constructor
  · intro h
    obtain ⟨p, ⟨hp, -⟩, hreach⟩ := (Buchi.acceptsFrom_blank_iff fun p r hstep => by
      obtain ⟨m, hm, -⟩ := hstep
      exact hm.lt).1 h
    clear h
    induction hreach using Relation.ReflTransGen.head_induction_on with
    | refl => exact hp
    | head hstep _ ih => exact (hq []).1 ⟨_, hstep, ih (hq.step hdet hstep)⟩
  · intro haccepting
    let A (p : Nat) : Prop := a.Accepting p ∧ a.ClosedFrom s p
    have hback : ∀ p, A p → ∃ k, Arrives (Step s a · blankLetter ·) A (k + 1) p := by
      rintro p ⟨hp, hclosed⟩
      obtain ⟨r, hstep, hr⟩ := (hclosed []).2 hp
      exact ⟨0, r, hstep, hr, hclosed.step hdet hstep⟩
    obtain ⟨ρ, hfirst, hρ, hrecurs⟩ := exists_recurrent hback ⟨0, haccepting, hq⟩
    refine ⟨ρ, hfirst, fun i => ?_, hρ, fun i => ?_⟩
    · obtain ⟨m, hm, -⟩ := hρ i
      exact hm.lt
    · obtain ⟨j, hj, hA, -⟩ := hrecurs i
      exact ⟨j, hj, hA⟩

theorem ClosedFrom.accepts_forever_iff (w : Word) :
    (a.buchi s).AcceptsFrom q w.forever ↔ AcceptsFrom s a q w := by
  induction w generalizing q with
  | nil => exact hq.accepts_blank_iff hdet
  | cons l w ih =>
    rw [Buchi.acceptsFrom_iff_exists_step, AcceptsFrom]
    refine exists_congr fun r => ?_
    constructor
    · rintro ⟨⟨-, hstep⟩, haccepts⟩
      exact ⟨hstep, (ih (hq.step hdet hstep)).1 haccepts⟩
    · rintro ⟨hstep, haccepts⟩
      refine ⟨⟨?_, hstep⟩, (ih (hq.step hdet hstep)).2 haccepts⟩
      obtain ⟨m, hm, -⟩ := hstep
      exact hm.lt

end

theorem acceptsForever_iff (hdet : a.Deterministic s) (hclosed : PaddingClosed (a.Accepts s))
    (w : Word) : a.AcceptsForever s w ↔ a.Accepts s w :=
  ClosedFrom.accepts_forever_iff (q := 0) hdet hclosed w

end RegularArithmetic.Automaton

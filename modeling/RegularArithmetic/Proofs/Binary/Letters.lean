import RegularArithmetic.Proofs.Binary

/-!
The relations of base 2 as they are seen from outside: each of the four automata is made, whatever
the budget is, and answers every word of letters by the numbers whose digits are in the word.
-/

set_option autoImplicit false

namespace RegularArithmetic

/-- The sum of `2 ^ i` over the places `i` of the word at which the proposition is true. -/
def digitSum (w : List Letter) (p : Nat) : Nat :=
  ((w.zipIdx.filter fun (l, _) => p ∈ l).map fun (_, i) => 2 ^ i).sum

theorem sum_zipIdx (p : Nat) (w : List Letter) (k : Nat) :
    (((w.zipIdx k).filter fun (l, _) => p ∈ l).map fun (_, i) => 2 ^ i).sum =
      2 ^ k * numbers (Word.ofLetters w) p := by
  induction w generalizing k with
  | nil => simp [numbers, Word.ofLetters]
  | cons l w ih =>
    have hrest := ih (k + 1)
    have hdigit : numbers (Word.ofLetters (l :: w)) p =
        (if p ∈ l then 1 else 0) + 2 * numbers (Word.ofLetters w) p := by
      by_cases hp : p ∈ l <;> simp [Word.ofLetters, numbers, Letter.assignment, hp]
    rw [hdigit, mul_add, List.zipIdx_cons, List.filter_cons]
    rw [pow_succ, mul_assoc] at hrest
    by_cases hp : p ∈ l
    · simp only [hp, decide_true, if_true, List.map_cons, List.sum_cons, mul_one]
      rw [hrest]
    · simp only [hp, decide_false, if_false, Bool.false_eq_true, mul_zero, zero_add]
      rw [hrest]

theorem digitSum_eq (w : List Letter) : digitSum w = numbers (Word.ofLetters w) := by
  funext p
  rw [digitSum, sum_zipIdx, pow_zero, one_mul]

/-- The relation has so many different propositions for its arguments, and is the smallest automaton
that accepts the words of letters in which the digit sums of the arguments satisfy `R`. -/
structure Relation.Judges (s : Diagram.Store) (r : Relation) (n : Nat) (R : List Nat → Prop) :
    Prop where
  arity : r.args.length = n
  nodup : r.args.Nodup
  smallest : r.automaton.Smallest s fun w => R (r.args.map (digitSum w))

theorem Relation.Settles.judges {s : Diagram.Store} {r : Relation} {n : Nat} {R : List Nat → Prop}
    (hs : s.Sound) (h : r.Settles s n R) : r.Judges s n R where
  arity := h.arity
  nodup := h.means.nodup
  smallest := h.reduced.smallest_of_recognizes hs h.means.recognizes fun w => by
    rw [digitSum_eq]

namespace Binary

variable {x : Alphabet}

/-- Addition, equality, order and zero are decided on the words of every length. Only an alphabet
in which a new proposition has no opposite literal leaves addition without an automaton. -/
theorem returns_judging (hs : x.diagrams.Sound) :
    (Yields add x (fun r y => r.Judges y.diagrams 3 IsSum) ∧
      (2 ^ 31 ∉ [x.size + 1, x.size + 2, x.size + 3] → Succeeds add x)) ∧
    Returns equal x (fun r y => r.Judges y.diagrams 2 AreEqual) ∧
    Returns less x (fun r y => r.Judges y.diagrams 2 IsLess) ∧
    Returns zero x fun r y => r.Judges y.diagrams 1 IsZero := by
  have hjudges : ∀ {n R} (r : Relation) (y : Alphabet), x ≤ y → r.Settles y.diagrams n R →
      r.Judges y.diagrams n R := fun _ _ hle hr => hr.judges (hs.mono hle.1)
  refine ⟨⟨(yields_settled_add hs).mono hjudges, fun hroom => ?_⟩, (returns_equal hs).mono hjudges,
    (returns_less hs).mono hjudges, (returns_zero hs).mono hjudges⟩
  exact (returns_add hs fun p hp hle => hroom (hle ▸ hp)).succeeds

/-- In the empty alphabet all four are made. -/
theorem returns_judging_empty : ∃ s, Diagram.Store.empty? 1 = .ok s ∧ s.Sound ∧
    Returns add ⟨s, #[], 0, none⟩ (fun r y => r.Judges y.diagrams 3 IsSum) ∧
    Returns equal ⟨s, #[], 0, none⟩ (fun r y => r.Judges y.diagrams 2 AreEqual) ∧
    Returns less ⟨s, #[], 0, none⟩ (fun r y => r.Judges y.diagrams 2 IsLess) ∧
    Returns zero ⟨s, #[], 0, none⟩ fun r y => r.Judges y.diagrams 1 IsZero := by
  have hs : Diagram.Store.empty? 1 = _ := Diagram.Store.empty?_eq (by decide)
  have hsound := Diagram.Store.Sound.empty? hs
  obtain ⟨⟨hadd, hroom⟩, hrest⟩ := returns_judging (x := ⟨_, #[], 0, none⟩) hsound
  exact ⟨_, hs, hsound, (hroom (by simp [Alphabet.size])).returns hadd, hrest⟩

end Binary

end RegularArithmetic

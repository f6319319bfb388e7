import RegularArithmetic.Proofs.Diagram.Connectives
import RegularArithmetic.Proofs.Diagram.Paths

/-!
The nodes below an edge, and the variables that they test. In a reduced diagram these are the
variables that matter: a variable is tested somewhere below an edge exactly if fixing it in one way
or the other gives different edges.
-/

set_option autoImplicit false

namespace RegularArithmetic.Diagram

variable {s : Store} {e : Edge} {n : Node} {i j k v : Nat} {marked : Array Bool} {l : List Nat}

namespace Store

def Child (s : Store) (i j : Nat) : Prop :=
  ∃ n b, s.nodes.get? i = some n ∧ i ≠ 1 ∧ (n.select b).index = j

def Reaches (s : Store) : Nat → Nat → Prop := Relation.ReflTransGen s.Child

theorem reaches_one : s.Reaches 1 j ↔ j = 1 := by
  constructor
  · intro h
    rcases h.cases_head with rfl | ⟨i, ⟨n, b, -, hne, -⟩, -⟩
    · rfl
    · exact absurd rfl hne
  · rintro rfl
    exact .refl

theorem reaches_node (hn : s.nodes.get? i = some n) (hi : i ≠ 1) :
    s.Reaches i j ↔ j = i ∨ s.Reaches n.low.index j ∨ s.Reaches n.high.index j := by
  constructor
  · intro h
    rcases h.cases_head with rfl | ⟨k, ⟨n', b, hn', -, rfl⟩, h⟩
    · exact .inl rfl
    · obtain rfl : n = n' := Option.some.inj (hn.symm.trans hn')
      cases b
      · exact .inr (.inl h)
      · exact .inr (.inr h)
  · rintro (rfl | h | h)
    · exact .refl
    · exact h.head ⟨n, false, hn, hi, rfl⟩
    · exact h.head ⟨n, true, hn, hi, rfl⟩

theorem Sound.exists_get?_of_reaches (hs : s.Sound) (h : s.Reaches i j)
    (hi : ∃ n, s.nodes.get? i = some n) : ∃ n, s.nodes.get? j = some n := by
  induction h with
  | refl => exact hi
  | tail _ hchild _ =>
    obtain ⟨n, b, hn, hne, rfl⟩ := hchild
    exact hs.valid_select hn hne b

def Marked (marked : Array Bool) (i : Nat) : Prop := marked.getD i false = true

theorem marked_set (hj : j < marked.size) :
    Marked (marked.setIfInBounds j true) i ↔ i = j ∨ Marked marked i := by
  simp only [Marked, Array.getD_eq_getD_getElem?, Array.getElem?_setIfInBounds]
  by_cases hij : j = i
  · subst hij
    simp [hj]
  · simp [hij, Ne.symm hij]

/-- The list has what is at or below the marked numbers up to `k`. -/
def Found (s : Store) (marked : Array Bool) (k : Nat) (l : List Nat) : Prop :=
  ∀ j, j ∈ l ↔ ∃ i ≤ k, Marked marked i ∧ s.Reaches i j

theorem exists_marked_succ : (∃ i ≤ k + 1, Marked marked i ∧ s.Reaches i j) ↔
    (∃ i ≤ k, Marked marked i ∧ s.Reaches i j) ∨ Marked marked (k + 1) ∧ s.Reaches (k + 1) j := by
  simp only [Nat.le_succ_iff, or_and_right, exists_or, exists_eq_left]

theorem Found.unmarked (h : s.Found marked k l) (hk : ¬Marked marked (k + 1)) :
    s.Found marked (k + 1) l := by
  intro j
  rw [h, exists_marked_succ]
  simp only [hk, false_and, or_false]

theorem Found.terminal (h : s.Found marked 0 l) (hmarked : Marked marked 1) :
    s.Found marked 1 (l ++ [1]) := by
  intro j
  rw [List.mem_append, h, exists_marked_succ, List.mem_singleton, reaches_one]
  simp only [hmarked, true_and]

/-- Marking what the edges of a marked node lead to does not change what is below the marked ones,
the node itself apart. -/
theorem Found.node {marked' : Array Bool} (h : s.Found marked' k l) (hk : Marked marked (k + 1))
    (hn : s.nodes.get? (k + 1) = some n) (hk1 : k + 1 ≠ 1) (hlow : n.low.index < k + 1)
    (hhigh : n.high.index < k + 1)
    (hmarked : ∀ i, Marked marked' i ↔ i = n.high.index ∨ i = n.low.index ∨ Marked marked i) :
    s.Found marked (k + 1) (l ++ [k + 1]) := by
  intro j
  rw [List.mem_append, h, exists_marked_succ, List.mem_singleton, reaches_node hn hk1]
  simp only [hmarked, hk, true_and]
  constructor
  · rintro (⟨i, hik, rfl | rfl | h, hreach⟩ | rfl)
    · exact .inr (.inr (.inr hreach))
    · exact .inr (.inr (.inl hreach))
    · exact .inl ⟨i, hik, h, hreach⟩
    · exact .inr (.inl rfl)
  · rintro (⟨i, hik, h, hreach⟩ | rfl | hreach | hreach)
    · exact .inl ⟨i, hik, .inr (.inr h), hreach⟩
    · exact .inr rfl
    · exact .inl ⟨_, by omega, .inr (.inl rfl), hreach⟩
    · exact .inl ⟨_, by omega, .inl rfl, hreach⟩

/-- One pass from the top down finds all that is below the marked numbers, since an edge leads to
a smaller number. -/
theorem answers_below (hs : s.Sound) (k : Nat) (marked : Array Bool) (hk : k < marked.size)
    (hmarked : ∀ i ≤ k, Marked marked i → ∃ n, s.nodes.get? i = some n) :
    Answers (s.below marked k) (s.Found marked k) := by
  induction k generalizing marked with
  | zero =>
    have h0 : ∀ i ≤ 0, ¬Marked marked i := by
      intro i hi h
      obtain ⟨n, hn⟩ := hmarked i hi h
      rw [Nat.le_zero.1 hi] at hn
      cases hn
    rw [below, if_neg (show ¬marked.getD 0 false = true from h0 0 le_rfl)]
    apply Answers.ok
    intro j
    constructor
    · intro h
      exact absurd h List.not_mem_nil
    · rintro ⟨i, hi, h, -⟩
      exact absurd h (h0 i hi)
  | succ k ih =>
    have hle : ∀ i ≤ k, Marked marked i → ∃ n, s.nodes.get? i = some n :=
      fun i hi => hmarked i (by omega)
    rw [below]
    by_cases hk1 : Marked marked (k + 1)
    · rw [if_pos (show marked.getD (k + 1) false = true from hk1)]
      by_cases h0 : k = 0
      · subst h0
        rw [if_pos rfl]
        exact (ih marked (by omega) hle).bind fun l hl => .pure (hl.terminal hk1)
      · rw [if_neg h0]
        have hi : k + 1 ≠ 1 := by omega
        obtain ⟨n, hn⟩ := hmarked (k + 1) le_rfl hk1
        have hp := hs.placed _ n hi hn
        have hlow := hp.low_lt
        have hhigh := hp.high_lt
        rw [node_eq (e := .toNode (k + 1)) hn]
        have hchildren : ∀ i, Marked ((marked.setIfInBounds n.low.index true).setIfInBounds
            n.high.index true) i ↔ i = n.high.index ∨ i = n.low.index ∨ Marked marked i := by
          intro i
          rw [marked_set (by rw [Array.size_setIfInBounds]; omega), marked_set (by omega)]
        refine (ih _ (by simp only [Array.size_setIfInBounds]; omega) fun i hik h => ?_).bind
          fun l hl => .pure (hl.node hk1 hn hi hlow hhigh hchildren)
        rcases (hchildren i).1 h with rfl | rfl | h
        · exact hs.valid_select hn hi true
        · exact hs.valid_select hn hi false
        · exact hle i hik h
    · rw [if_neg (show ¬marked.getD (k + 1) false = true from hk1)]
      exact (ih marked (by omega) hle).mono fun l hl => hl.unmarked hk1

theorem answers_descendants (hs : s.Sound) (he : s.Valid e) :
    Answers (s.descendants [e]) fun l => ∀ j, j ∈ l ↔ s.Reaches e.index j := by
  have hmark : ∀ i, Marked ((Array.replicate (e.index + 1) false).setIfInBounds e.index true) i ↔
      i = e.index := by
    intro i
    rw [marked_set (by simp)]
    simp [Marked, Array.getD_eq_getD_getElem?, Array.getElem?_replicate,
      apply_ite (Option.getD · false)]
  have hvalid : ∀ i ≤ e.index, Marked ((Array.replicate (e.index + 1) false).setIfInBounds e.index
      true) i → ∃ n, s.nodes.get? i = some n := by
    intro i _ hi
    rw [(hmark i).1 hi]
    exact he
  rw [descendants]
  simp only [List.foldl_cons, List.foldl_nil, Nat.zero_max]
  apply (answers_below hs e.index _ (by simp) hvalid).mono
  intro l hl j
  rw [hl]
  constructor
  · rintro ⟨i, -, hi, h⟩
    rwa [(hmark i).1 hi] at h
  · intro h
    exact ⟨e.index, le_rfl, (hmark _).2 rfl, h⟩

/-- The node `i` at or below an edge tests the variable `v`. -/
structure Tests (s : Store) (e : Edge) (i v : Nat) : Prop where
  reaches : s.Reaches e.index i
  inner : i ≠ 1
  node : ∃ n, s.nodes.get? i = some n ∧ n.var = v

theorem answers_support (hs : s.Sound) (he : s.Valid e) :
    Answers (s.support e) fun vs => ∀ v, v ∈ vs ↔ ∃ i, s.Tests e i v := by
  rw [support]
  refine (answers_descendants hs he).bind fun l hl => ?_
  have hvars : Answers (l.mapM fun i => do return (← s.node (.toNode i)).var) fun vs =>
      List.Forall₂ (fun i v => ∃ n, s.nodes.get? i = some n ∧ n.var = v) l vs := by
    apply Answers.mapM
    intro i hi
    obtain ⟨n, hn⟩ := hs.exists_get?_of_reaches ((hl i).1 hi) he
    rw [node_eq (e := .toNode i) hn]
    exact .pure ⟨n, hn, rfl⟩
  refine hvars.bind fun vs hvs => .pure fun v => ?_
  rw [List.mem_eraseDups, mem_inOrder, List.mem_filter]
  constructor
  · rintro ⟨hv, h0⟩
    obtain ⟨i, hi, n, hn, rfl⟩ := exists_mem_of_forall₂ hvs.flip hv
    refine ⟨i, (hl i).1 hi, ?_, n, hn, rfl⟩
    rintro rfl
    rw [hs.terminal] at hn
    cases hn
    simp [Node.terminal] at h0
  · rintro ⟨i, hreach, hi, n, hn, rfl⟩
    obtain ⟨v, hv, n', hn', rfl⟩ := exists_mem_of_forall₂ hvs ((hl i).2 hreach)
    obtain rfl : n = n' := Option.some.inj (hn.symm.trans hn')
    exact ⟨hv, by simpa using (hs.placed i n hi hn).var_ne_zero⟩

theorem tests_node (hn : s.nodes.get? e.index = some n) (he : e.index ≠ 1) :
    s.Tests e i v ↔ (i = e.index ∧ n.var = v) ∨ ∃ b, s.Tests (e.along (n.select b)) i v := by
  constructor
  · rintro ⟨hreach, hi, m, hm, rfl⟩
    rcases (reaches_node hn he).1 hreach with rfl | h | h
    · obtain rfl : n = m := Option.some.inj (hn.symm.trans hm)
      exact .inl ⟨rfl, rfl⟩
    · exact .inr ⟨false, by rwa [Edge.index_along], hi, m, hm, rfl⟩
    · exact .inr ⟨true, by rwa [Edge.index_along], hi, m, hm, rfl⟩
  · rintro (⟨rfl, rfl⟩ | ⟨b, hreach, hi, hm⟩)
    · exact ⟨.refl, he, n, hn, rfl⟩
    · rw [Edge.index_along] at hreach
      refine ⟨(reaches_node hn he).2 ?_, hi, hm⟩
      cases b
      · exact .inr (.inl hreach)
      · exact .inr (.inr hreach)

theorem exists_tests_iff (hs : s.Sound) (he : s.Valid e) :
    (∃ i, s.Tests e i v) ↔ s.Matters e v := by
  refine Valid.induction (motive := fun e => (∃ i, s.Tests e i v) ↔ s.Matters e v) ?_ ?_ e he
  · intro e he
    constructor
    · rintro ⟨i, hreach, hi, -⟩
      rw [he] at hreach
      exact absurd (reaches_one.1 hreach) hi
    · rintro ⟨σ, hσ⟩
      rw [value_terminal he, value_terminal he] at hσ
      exact absurd rfl hσ
  · intro e n hn he ih
    have hp := hs.placed _ n he hn
    have ih : ∀ b, (∃ i, s.Tests (e.along (n.select b)) i v) ↔ s.Matters (e.along (n.select b)) v :=
      fun b => ih _ (valid_along.2 (hs.valid_select hn he b)) (by simpa using hp.select_lt b)
    constructor
    · rintro ⟨i, h⟩
      rcases (tests_node hn he).1 h with ⟨-, rfl⟩ | ⟨b, h⟩
      · exact hs.exists_value_update_ne hn he
      · exact hs.matters_of_select hn he ((ih b).1 ⟨i, h⟩)
    · rintro ⟨σ, hσ⟩
      by_cases hv : n.var = v
      · exact ⟨e.index, (tests_node hn he).2 (.inl ⟨rfl, hv⟩)⟩
      · rw [hs.value_node hn he, hs.value_node hn he, Function.update_of_ne hv,
          Function.update_of_ne hv] at hσ
        obtain ⟨i, hi⟩ := (ih _).2 ⟨σ, hσ⟩
        exact ⟨i, (tests_node hn he).2 (.inr ⟨_, hi⟩)⟩

theorem answers_support_matters (hs : s.Sound) (he : s.Valid e) :
    Answers (s.support e) fun vs => ∀ v, v ∈ vs ↔ s.Matters e v :=
  (answers_support hs he).mono fun _ hvs v => (hvs v).trans (exists_tests_iff hs he)

end Store
end RegularArithmetic.Diagram

import RegularArithmetic.Proofs.Diagram.Cube
import RegularArithmetic.Proofs.Success

/-!
The cubes along the paths of a diagram: together they say what the diagram says, and their literals
are about variables on which it depends.
-/

set_option autoImplicit false

namespace RegularArithmetic.Diagram

variable {s : Store} {e : Edge} {n : Node} {v : Nat}

/-- The value of the edge depends on the variable. -/
def Store.Matters (s : Store) (e : Edge) (v : Nat) : Prop :=
  ∃ σ : Assignment, s.value e (Function.update σ v true) ≠ s.value e (Function.update σ v false)

theorem Store.Matters.mem {V : Set Nat} (h : s.Matters e v)
    (hV : ∀ σ τ : Assignment, (∀ p ∈ V, σ p = τ p) → s.value e σ = s.value e τ) : v ∈ V := by
  obtain ⟨σ, hσ⟩ := h
  by_contra hnot
  refine hσ (hV _ _ fun p hp => ?_)
  have hne : p ≠ v := fun h => hnot (h ▸ hp)
  rw [Function.update_of_ne hne, Function.update_of_ne hne]

theorem Store.Sound.matters_of_select (hs : s.Sound) (hn : s.nodes.get? e.index = some n)
    (he : e.index ≠ 1) {b : Bool} (h : s.Matters (e.along (n.select b)) v) : s.Matters e v := by
  have hp := hs.placed _ n he hn
  have hvalid : s.Valid (e.along (n.select b)) := by simpa using hs.valid_select hn he b
  have habove : s.Above n.var (e.along (n.select b)) := by simpa using hp.above_select b
  obtain ⟨σ, hσ⟩ := h
  rcases eq_or_ne v n.var with rfl | hv
  · exact absurd (by simp only [hs.value_update_of_above hvalid habove]) hσ
  · refine ⟨Function.update σ n.var b, ?_⟩
    rw [Function.update_comm hv.symm, hs.value_update hn he, Function.update_comm hv.symm,
      hs.value_update hn he]
    exact hσ

theorem Store.Sound.lt_of_matters {w : Nat} (hs : s.Sound) (he : s.Valid e) (hv : s.Above v e)
    (hw : s.Matters e w) : v < w := by
  by_contra hle
  have habove : s.Above w e := hv.mono (by omega)
  obtain ⟨σ, hσ⟩ := hw
  rw [hs.value_update_of_above he habove, hs.value_update_of_above he habove] at hσ
  exact hσ rfl

theorem Store.Sound.ne_zero_of_matters (hs : s.Sound) (he : s.Valid e) (h : s.Matters e v) :
    v ≠ 0 := by
  have habove : s.Above 0 e := fun n hn hi => Nat.pos_of_ne_zero (hs.placed _ n hi hn).var_ne_zero
  exact (hs.lt_of_matters he habove h).ne'

theorem Store.Sound.matters_mono {t : Store} (hs : s.Sound) (hst : s ≤ t) (he : s.Valid e) :
    t.Matters e v ↔ s.Matters e v := by
  simp only [Matters, hs.value_mono hst he]

theorem literalOf_eq (hv : v < 2 ^ 31) : literalOf v = v := by
  have hpow : Nat.pow 2 32 = 4294967296 := by simp
  unfold literalOf
  rw [hpow]
  apply Int.bmod_eq_of_le <;> omega

theorem opposite_eq {l : Int} (hl : l ≠ Edge.leastWord) : opposite l = .ok (-l) := if_neg hl

theorem natCast_ne_leastWord (v : Nat) : (v : Int) ≠ Edge.leastWord := by
  rw [Edge.leastWord]
  omega

theorem cubes_zero : s.cubes .zero = .ok [] := by
  rw [Store.cubes, if_pos rfl]
  rfl

theorem cubes_one : s.cubes .one = .ok [[]] := by
  rw [Store.cubes, if_neg Edge.zero_ne_one.symm, if_pos rfl]
  rfl

theorem answers_cubes_node (hs : s.Sound) (hn : s.nodes.get? e.index = some n) (he : e.index ≠ 1)
    (hl : literalOf n.var ≠ Edge.leastWord) {P : List (List Int) → Prop}
    (h : Answers (s.cubes (e.along n.high)) fun high => Answers (s.cubes (e.along n.low)) fun low =>
      P (high.map (literalOf n.var :: ·) ++ low.map (-literalOf n.var :: ·))) :
    Answers (s.cubes e) P := by
  have hzero : e ≠ .zero := fun h => he (h ▸ Edge.index_zero)
  have hone : e ≠ .one := fun h => he (h ▸ Edge.index_one)
  obtain ⟨_, _, hbranch⟩ := hs.branch_eq hn he
  rw [Store.cubes, if_neg hzero, if_neg hone, hbranch]
  refine h.bind fun high hlow => ?_
  rw [opposite_eq hl]
  exact hlow.bind fun low hP => .pure hP

/-- The cubes have the value of the edge, and their literals are about what matters. -/
structure Covers (s : Store) (e : Edge) (cubes : List (List Int)) : Prop where
  value : ∀ σ, s.value e σ = cubes.any fun cube => cube.all (agrees σ)
  literals : ∀ cube ∈ cubes, ∀ l ∈ cube, l ≠ 0 ∧ s.Matters e l.natAbs

theorem Covers.node (hs : s.Sound) (hn : s.nodes.get? e.index = some n) (he : e.index ≠ 1)
    {high low : List (List Int)} (hhigh : Covers s (e.along n.high) high)
    (hlow : Covers s (e.along n.low) low) :
    Covers s e (high.map ((n.var : Int) :: ·) ++ low.map (-(n.var : Int) :: ·)) where
  value := by
    intro σ
    have hpos : 0 < n.var := Nat.pos_of_ne_zero (hs.placed _ n he hn).var_ne_zero
    have hagree : agrees σ (n.var : Int) = σ n.var := by simp [agrees, hpos]
    have hdiffer : agrees σ (-(n.var : Int)) = !σ n.var := by
      have hneg : ¬(0 : Int) < -(n.var : Int) := by omega
      rw [agrees, decide_eq_false hneg, Int.natAbs_neg, Int.natAbs_natCast]
      cases σ n.var <;> rfl
    rw [hs.value_node hn he, List.any_append, List.any_map, List.any_map]
    simp only [Function.comp_def, List.all_cons, hagree, hdiffer]
    cases σ n.var
    · simpa [Node.select, List.any_eq_false.2] using hlow.value σ
    · simpa [Node.select, List.any_eq_false.2] using hhigh.value σ
  literals := by
    have hmatters : s.Matters e n.var := hs.exists_value_update_ne hn he
    have hvar : (n.var : Int) ≠ 0 := by
      exact_mod_cast (hs.placed _ n he hn).var_ne_zero
    intro cube hcube l hl
    rw [List.mem_append, List.mem_map, List.mem_map] at hcube
    rcases hcube with ⟨c, hc, rfl⟩ | ⟨c, hc, rfl⟩
    · rcases List.mem_cons.1 hl with rfl | hl
      · exact ⟨hvar, by simpa using hmatters⟩
      · obtain ⟨hne, hm⟩ := hhigh.literals c hc l hl
        exact ⟨hne, hs.matters_of_select (b := true) hn he hm⟩
    · rcases List.mem_cons.1 hl with rfl | hl
      · exact ⟨Int.neg_ne_zero.2 hvar, by simpa using hmatters⟩
      · obtain ⟨hne, hm⟩ := hlow.literals c hc l hl
        exact ⟨hne, hs.matters_of_select (b := false) hn he hm⟩

/-- What holds of the cubes of the constants, and of those of a node if it does of those of its
edges, holds of the cubes of every edge whose variables are small enough for literals. -/
theorem answers_cubes_of {P : Edge → List (List Int) → Prop} (hs : s.Sound) (hzero : P .zero [])
    (hone : P .one [[]])
    (hnode : ∀ e n high low, s.nodes.get? e.index = some n → e.index ≠ 1 →
      n.var < 2 ^ 31 → P (e.along n.high) high → P (e.along n.low) low →
      P e (high.map ((n.var : Int) :: ·) ++ low.map (-(n.var : Int) :: ·)))
    (hvars : ∀ v, s.Matters e v → v < 2 ^ 31) (he : s.Valid e) : Answers (s.cubes e) (P e) := by
  refine Store.Valid.induction (motive := fun e => (∀ v, s.Matters e v → v < 2 ^ 31) →
    Answers (s.cubes e) (P e)) ?_ ?_ e he hvars
  · intro e he _
    rcases Edge.index_eq_one.1 he with rfl | rfl
    · exact ⟨_, cubes_one, hone⟩
    · exact ⟨_, cubes_zero, hzero⟩
  · intro e n hn he ih hvars
    have hp := hs.placed _ n he hn
    have hsmall : n.var < 2 ^ 31 := hvars _ (hs.exists_value_update_ne hn he)
    have hchild : ∀ b, Answers (s.cubes (e.along (n.select b))) (P (e.along (n.select b))) := by
      intro b
      refine ih _ (by simpa using hs.valid_select hn he b) (by simpa using hp.select_lt b) ?_
      intro v hv
      exact hvars v (hs.matters_of_select hn he hv)
    have hleast : literalOf n.var ≠ Edge.leastWord := by
      rw [literalOf_eq hsmall]
      exact natCast_ne_leastWord n.var
    apply answers_cubes_node hs hn he hleast
    rw [literalOf_eq hsmall]
    apply (hchild true).mono
    intro high hhigh
    apply (hchild false).mono
    intro low hlow
    exact hnode e n high low hn he hsmall hhigh hlow

theorem answers_cubes (hs : s.Sound) (hvars : ∀ v, s.Matters e v → v < 2 ^ 31) (he : s.Valid e) :
    Answers (s.cubes e) (Covers s e) := by
  refine answers_cubes_of hs ?_ ?_ ?_ hvars he
  · exact ⟨fun σ => by simp, by simp⟩
  · exact ⟨fun σ => by simp, by simp⟩
  · intro e n high low hn he _ hhigh hlow
    exact hhigh.node hs hn he hlow

end RegularArithmetic.Diagram

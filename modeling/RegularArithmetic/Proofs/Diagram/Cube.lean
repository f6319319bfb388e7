import RegularArithmetic.Diagram.Paths
import RegularArithmetic.Proofs.Diagram.Choice
import RegularArithmetic.Proofs.Store.Sorting

/-!
The conjunction of literals of different variables: it is built from the largest variable down,
so that every new node comes before those that are there.
-/

set_option autoImplicit false

namespace RegularArithmetic.Diagram

variable {s : Store}

/-- The literal is true under the assignment. -/
def agrees (σ : Assignment) (l : Int) : Bool := σ l.natAbs == decide (0 < l)

theorem yields_literal (hs : s.Sound) {l : Int} (hl : l ≠ 0) {e : Edge} {φ : Assignment → Bool}
    (he : s.Denotes e φ) (habove : s.Above l.natAbs e) :
    Yields (if l < 0 then makeNode l.natAbs e .zero else makeNode l.natAbs .zero e) s fun r t =>
      t.Denotes r (fun σ => agrees σ l && φ σ) ∧ ∀ v, v < l.natAbs → t.Above v r := by
  have hone : ∀ e, e = .one ∨ e = .zero → s.Above l.natAbs e := fun e h =>
    Store.above_of_index_eq_one (Edge.index_eq_one.2 h)
  suffices hdenotes : Yields (if l < 0 then makeNode l.natAbs e .zero
      else makeNode l.natAbs .zero e) s fun r t => t.Denotes r fun σ => agrees σ l && φ σ from
    hdenotes.mono fun r t hst hr => ⟨hr, fun v hv =>
      (hs.mono hst).above_of_value_congr fun σ τ hστ => by
        have hφ : φ σ = φ τ := by
          rw [← he.value_eq]
          exact hs.value_congr (fun w hw => hστ w (hv.trans hw)) he.valid habove
        simp only [hr.value_eq, agrees, hστ _ hv, hφ]⟩
  refine Yields.ite (fun hneg => ?_) fun hpos => ?_
  · refine (yields_makeNode hs he hs.denotes_zero habove (hone _ (.inr rfl))).mono
      fun r t _ hr => hr.congr fun σ => ?_
    rw [agrees, decide_eq_false (by omega : ¬0 < l)]
    cases σ l.natAbs <;> simp
  · refine (yields_makeNode hs hs.denotes_zero he (hone _ (.inr rfl)) habove).mono
      fun r t _ hr => hr.congr fun σ => ?_
    rw [agrees, decide_eq_true (by omega : 0 < l)]
    cases σ l.natAbs <;> simp

theorem yields_literals (ls : List Int) (hsorted : ls.Pairwise (·.natAbs > ·.natAbs))
    (hne : ∀ l ∈ ls, l ≠ 0) {e : Edge} {φ : Assignment → Bool} (hs : s.Sound)
    (he : s.Denotes e φ) (habove : ∀ l ∈ ls, s.Above l.natAbs e) :
    Yields (ls.foldlM (fun e l =>
      if l < 0 then makeNode l.natAbs e .zero else makeNode l.natAbs .zero e) e) s fun r t =>
        t.Denotes r fun σ => ls.all (agrees σ) && φ σ := by
  induction ls generalizing s e φ with
  | nil => exact .pure (he.congr fun σ => by simp)
  | cons l ls ih =>
    obtain ⟨hlt, hsorted⟩ := List.pairwise_cons.1 hsorted
    rw [List.foldlM_cons]
    refine (yields_literal hs (hne l (by simp)) he (habove l (by simp))).bind fun r t hst hr => ?_
    refine (ih hsorted (fun l' hl' => hne l' (by simp [hl'])) (hs.mono hst) hr.1
      fun l' hl' => hr.2 _ (hlt l' hl')).mono fun _ _ _ h => h.congr fun σ => ?_
    simp only [List.all_cons]
    cases agrees σ l <;> simp

/-- The literals from the largest variable down, the order in which a cube takes them. -/
def descending (ls : List Int) : List Int :=
  (inOrder (fun a b => a.natAbs ≤ b.natAbs) ls).reverse

theorem descending_perm (ls : List Int) : (descending ls).Perm ls :=
  (List.reverse_perm _).trans (perm_inOrder _ ls)

theorem mem_descending {ls : List Int} {l : Int} : l ∈ descending ls ↔ l ∈ ls :=
  (descending_perm ls).mem_iff

theorem pairwise_descending {ls : List Int} (hdistinct : (ls.map Int.natAbs).Nodup) :
    (descending ls).Pairwise (·.natAbs > ·.natAbs) := by
  have hle : (descending ls).Pairwise fun a b => b.natAbs ≤ a.natAbs := by
    rw [descending, List.pairwise_reverse]
    refine (pairwise_inOrder _ (fun a b => ?_) (fun a b c h h' => ?_) ls).imp fun h => ?_
    · simp only [decide_eq_true_eq]
      omega
    · simp only [decide_eq_true_eq] at *
      omega
    · simpa using h
  have hnodup : ((descending ls).map Int.natAbs).Nodup :=
    ((descending_perm ls).map _).nodup_iff.2 hdistinct
  exact (hle.and (List.pairwise_map.1 hnodup)).imp fun h => by omega

theorem yields_cube (hs : s.Sound) {ls : List Int} (hdistinct : (ls.map Int.natAbs).Nodup)
    (hne : ∀ l ∈ ls, l ≠ 0) :
    Yields (cube ls) s fun r t => t.Denotes r fun σ => ls.all (agrees σ) := by
  unfold cube
  by_cases hover : 1 < ls.length ∧ Edge.leastWord ∈ ls
  · rw [if_pos hover]
    exact .throw
  · rw [if_neg hover]
    refine (yields_literals (descending ls) (pairwise_descending hdistinct)
      (fun l hl => hne l (mem_descending.1 hl)) hs hs.denotes_one
      fun _ _ => Store.above_of_index_eq_one rfl).mono fun _ _ _ h => h.congr fun σ => ?_
    rw [Bool.and_true, Bool.eq_iff_iff, List.all_eq_true, List.all_eq_true]
    exact forall_congr' fun l => by rw [mem_descending]

end RegularArithmetic.Diagram

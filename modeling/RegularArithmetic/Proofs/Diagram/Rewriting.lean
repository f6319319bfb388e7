import RegularArithmetic.Proofs.Diagram.Support

/-!
Fixing, quantifying and renaming the variables of an edge, as seen by reading the answer, and the
support of an edge as the variables whose two cofactors differ. A variable that was fixed or
quantified is not in the support of the answer.
-/

set_option autoImplicit false

namespace RegularArithmetic.Diagram

variable {s : Store} {e : Edge} {v : Nat} {b : Bool} {φ : Assignment → Bool}

namespace Store

/-- The support of the edge is found, and the variable is not in it. -/
def Lacks (s : Store) (e : Edge) (v : Nat) : Prop := Answers (s.support e) (v ∉ ·)

theorem Denotes.lacks (he : s.Denotes e φ) (hs : s.Sound)
    (hφ : ∀ σ b, φ (Function.update σ v b) = φ σ) : s.Lacks e v := by
  apply (answers_support_matters hs he.valid).mono
  intro vs hvs hv
  obtain ⟨σ, hσ⟩ := (hvs v).1 hv
  rw [he.value_eq, hφ, hφ] at hσ
  exact hσ rfl

theorem matters_iff : s.Matters e v ↔ fixed v false (s.value e) ≠ fixed v true (s.value e) := by
  rw [Function.ne_iff]
  exact exists_congr fun σ => ne_comm

end Store

theorem fixed_update (σ : Assignment) (b' : Bool) :
    fixed v b φ (Function.update σ v b') = fixed v b φ σ := by
  rw [fixed, fixed, Function.update_idem]

theorem someOf_update {vs : List Nat} (hv : v ∈ vs) (σ : Assignment) (b : Bool) :
    someOf φ vs (Function.update σ v b) = someOf φ vs σ := by
  have hagree : ∀ τ : Assignment, (∀ w, w ∉ vs → τ w = Function.update σ v b w) ↔
      ∀ w, w ∉ vs → τ w = σ w := by
    intro τ
    apply forall₂_congr
    intro w hw
    have hne : w ≠ v := fun h => hw (h ▸ hv)
    rw [Function.update_of_ne hne]
  rw [Bool.eq_iff_iff, someOf_iff, someOf_iff]
  simp only [hagree]

theorem returns_cofactors (hs : s.Sound) (hv : v ≠ 0) (he : s.Valid e) :
    Returns (fix e v false) s fun low t =>
      Returns (fix e v true) t fun high _ => s.Matters e v ↔ low ≠ high := by
  apply (returns_fix hs hv false he.denotes).mono
  intro low t hst hlow
  have ht := hs.mono hst
  apply (returns_fix ht hv true (he.denotes.mono hs hst)).mono
  intro high u htu hhigh
  have hu := ht.mono htu
  have hlow := hlow.mono ht htu
  rw [Store.matters_iff, not_iff_not, ← hlow.value_eq, ← hhigh.value_eq]
  constructor
  · intro heq
    exact hu.eq_of_value_eq hlow.valid hhigh.valid (congrFun heq)
  · intro heq
    rw [heq]

/-- What comes of an edge when its variables are fixed, quantified or renamed. -/
structure Store.Rewrites (s : Store) (e : Edge) : Prop where
  value : s.Evaluates e (s.value e)
  fix : ∀ v b, v ≠ 0 → Returns (fix e v b) s fun r t =>
    (t.Evaluates r fun σ => s.value e (Function.update σ v b)) ∧ t.Lacks r v
  forSome : ∀ vs : List Nat, (∀ v ∈ vs, v ≠ 0) → Returns (forSome e vs) s fun r t =>
    (∀ σ, Answers (t.eval σ r) fun b =>
      b = true ↔ ∃ τ, (∀ v, v ∉ vs → τ v = σ v) ∧ s.value e τ = true) ∧
    ∀ v ∈ vs, t.Lacks r v
  rename : ∀ map : Nat → Option Nat, (∀ v, s.Matters e v → map v ≠ some 0) →
    Returns (rename (fun v => (map v).getD v) e) s fun r t =>
      t.Evaluates r fun σ => s.value e fun v => σ ((map v).getD v)
  support : Answers (s.support e) fun vs => 0 ∉ vs ∧ ∀ v, v ≠ 0 →
    Returns (Diagram.fix e v false) s fun low t =>
      Returns (Diagram.fix e v true) t fun high _ => v ∈ vs ↔ low ≠ high

theorem Store.Sound.rewrites (hs : s.Sound) (he : s.Valid e) : s.Rewrites e where
  value := he.denotes.evaluates hs
  fix := by
    intro v b hv
    apply (returns_fix hs hv b he.denotes).mono
    intro r t hst hr
    exact ⟨hr.evaluates (hs.mono hst), hr.lacks (hs.mono hst) fixed_update⟩
  forSome := by
    intro vs hvs
    apply (returns_forSome hs he.denotes hvs).mono
    intro r t hst hr
    have ht := hs.mono hst
    constructor
    · intro σ
      exact ⟨_, hr.evaluates ht σ, someOf_iff vs _ σ⟩
    · intro v hv
      exact hr.lacks ht (someOf_update hv)
  rename := by
    intro map hmap
    have hpositive : ∀ v, s.Matters e v → (map v).getD v ≠ 0 := by
      intro v hv
      cases hmapv : map v with
      | none => exact hs.ne_zero_of_matters he hv
      | some w =>
        rintro rfl
        exact hmap v hv hmapv
    exact returns_evaluates hs (returns_rename_of_matters hs hpositive he.denotes)
  support := by
    apply (answers_support_matters hs he).mono
    intro vs hvs
    constructor
    · intro h0
      exact hs.ne_zero_of_matters he ((hvs 0).1 h0) rfl
    · intro v hv
      simp only [hvs v]
      exact returns_cofactors hs hv he

variable {rs : List Request}

/-- Whatever was asked for before, variables are replaced as their values say. -/
theorem after_rewrites {bits : Nat} (hs : Store.empty? bits = .ok s) (hrs : Orderly rs s)
    (he : (after rs s).Valid e) : (after rs s).Rewrites e :=
  (sound_after hs hrs).rewrites he

/-- The first two variables change places, which turns their order around. -/
def exchanged : Nat → Option Nat
  | 1 => some 2
  | 2 => some 1
  | _ => none

theorem after_rewrites_exchanged : ∃ s, Store.empty? 1 = .ok s ∧
    Orderly [.var 2, .node 1 .zero ⟨2⟩] s ∧ (after [.var 2, .node 1 .zero ⟨2⟩] s).Valid ⟨3⟩ ∧
    (∀ v, exchanged v ≠ some 0) ∧
    Returns (rename (fun v => (exchanged v).getD v) ⟨3⟩) (after [.var 2, .node 1 .zero ⟨2⟩] s)
      fun r t => t.Evaluates r fun σ =>
        (after [.var 2, .node 1 .zero ⟨2⟩] s).value ⟨3⟩ fun v => σ ((exchanged v).getD v) := by
  have hs : Store.empty? 1 = _ := Store.empty?_eq (by decide)
  obtain ⟨hrs, -, he, -⟩ := orderly_pair hs
  have hpositive : ∀ v, exchanged v ≠ some 0 := by
    intro v
    unfold exchanged
    split <;> simp
  exact ⟨_, hs, hrs, he, hpositive,
    (after_rewrites hs hrs he).rename exchanged fun v _ => hpositive v⟩

end RegularArithmetic.Diagram

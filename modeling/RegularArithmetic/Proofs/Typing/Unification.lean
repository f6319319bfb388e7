import RegularArithmetic.Proofs.Meaning.FreeVariables
import RegularArithmetic.Proofs.Program.Prelude
import RegularArithmetic.Typing.Unification

/-!
The common domain of two domains, as sets of values: if the oracle is right about which formulas
always hold, it is the smaller of the two, and there is one if the sets are comparable. The
questions are about a value of the name `__v`, so this is not said of domains that have a parameter
of that name.
-/

set_option autoImplicit false

namespace RegularArithmetic

/-- A value and the numbers that parameters stand for, in words with room for all of them. -/
structure Point where
  length : Nat
  value : Nat
  params : Valuation
  value_lt : value < 2 ^ length
  params_lt : ∀ v, params v < 2 ^ length

namespace Point

/-- The value with the name that questions have for it, beside the parameters. -/
def probe (p : Point) : Valuation := Function.update p.params probeName p.value

theorem probe_lt (p : Point) (v : String) : p.probe v < 2 ^ p.length := by
  rw [probe, Function.update_apply]
  split
  · exact p.value_lt
  · exact p.params_lt v

/-- The value that a question is asked of, all numbers being parameters. -/
def asked {n : Nat} {τ : Valuation} (hτ : ∀ v, τ v < 2 ^ n) : Point :=
  ⟨n, τ probeName, τ, hτ probeName, hτ⟩

end Point

namespace Domain

/-- The names that the domain speaks of. -/
def freeVars : Domain → List String
  | .restricted c => c.freeVars
  | _ => []

/-- The values in a domain, for all numbers that its parameters may stand for. -/
def extent (I : Interpretation) : Domain → Set Point
  | .restricted c => {p | c.Holds I p.length (Function.update p.params selfName p.value)}
  | _ => Set.univ

/-- One of two domains that restrict is part of the other; a domain that restricts agrees with the
one of all numbers if it is as large. -/
def Compatible (I : Interpretation) : Domain → Domain → Prop
  | .restricted c, .restricted d =>
    extent I (.restricted c) ⊆ extent I (.restricted d) ∨
      extent I (.restricted d) ⊆ extent I (.restricted c)
  | .restricted c, .any => extent I (.restricted c) = Set.univ
  | .any, .restricted d => extent I (.restricted d) = Set.univ
  | _, _ => True

theorem Compatible.symm {I : Interpretation} {a b : Domain} (h : a.Compatible I b) :
    b.Compatible I a := by
  cases a <;> cases b <;> first | exact h | exact Or.symm h

end Domain

/-- The formula holds of all numbers, in words with room for them. -/
def Expr.Valid (I : Interpretation) (B : Bounds) (x : Expr) : Prop :=
  ∀ n τ, (∀ v, τ v < 2 ^ n) → x.Holds I B n τ

/-- The oracle always answers, and "always" of the valid formulas alone. -/
def Decides (I : Interpretation) (B : Bounds) {σ : Type}
    (truth : Expr → EStateM Failure σ Truth) : Prop :=
  ∀ x s, ∃ t s', truth x s = .ok t s' ∧ (t = .always ↔ x.Valid I B)

namespace Domain

variable {I : Interpretation} {B : Bounds} {c d : Call}

theorem asked_mem_extent {n : Nat} {τ : Valuation} (hτ : ∀ v, τ v < 2 ^ n) :
    Point.asked hτ ∈ extent I (.restricted c) ↔ (c.subst selfName probeName).Holds I n τ :=
  (Call.holds_subst c n τ).symm

theorem mem_extent_iff (hc : probeName ∉ c.freeVars) (p : Point) :
    p ∈ extent I (.restricted c) ↔ (c.subst selfName probeName).Holds I p.length p.probe := by
  rw [Call.holds_subst]
  refine Call.holds_iff_of_freeVars (fun v hv => ?_) p.length
  have hne : v ≠ probeName := fun h => hc (h ▸ hv)
  simp only [Point.probe, Function.update_apply, if_neg hne, if_pos]

theorem valid_probe_iff (hc : probeName ∉ c.freeVars) :
    (c.subst selfName probeName).toExpr.Valid I B ↔ extent I (.restricted c) = Set.univ := by
  rw [Set.eq_univ_iff_forall]
  constructor
  · intro h p
    exact (mem_extent_iff hc p).2 (h p.length p.probe p.probe_lt)
  · intro h n τ hτ
    exact (asked_mem_extent hτ).1 (h (Point.asked hτ))

theorem valid_implication_iff (hc : probeName ∉ c.freeVars) (hd : probeName ∉ d.freeVars) :
    (Expr.or (.not (c.subst selfName probeName).toExpr)
      (d.subst selfName probeName).toExpr).Valid I B ↔
        extent I (.restricted c) ⊆ extent I (.restricted d) := by
  constructor
  · intro h p hp
    have hor := h p.length p.probe p.probe_lt
    exact (mem_extent_iff hd p).2 (hor.resolve_left fun hn => hn ((mem_extent_iff hc p).1 hp))
  · intro h n τ hτ
    by_cases hx : (c.subst selfName probeName).Holds I n τ
    · exact .inr ((asked_mem_extent hτ).1 (h ((asked_mem_extent hτ).2 hx)))
    · exact .inl hx

variable {σ : Type} {truth : Expr → EStateM Failure σ Truth} {a b : Domain}

theorem isTrue_run (htruth : Decides I B truth) (x : Expr) (s : σ) :
    ∃ r s', isTrue truth x s = .ok r s' ∧ (r = true ↔ x.Valid I B) := by
  obtain ⟨t, s', hrun, ht⟩ := htruth x s
  refine ⟨t = .always, s', ?_, by rw [decide_eq_true_iff, ht]⟩
  simp only [isTrue, bind, EStateM.bind, hrun]
  rfl

theorem implies_run (htruth : Decides I B truth) (ha : probeName ∉ a.freeVars)
    (hb : probeName ∉ b.freeVars) (s : σ) :
    ∃ r s', implies truth a b s = .ok r s' ∧ (r = true ↔ a.extent I ⊆ b.extent I) := by
  cases b with
  | any => exact ⟨true, s, by cases a <;> rfl, iff_of_true rfl (Set.subset_univ _)⟩
  | pending => exact ⟨true, s, by cases a <;> rfl, iff_of_true rfl (Set.subset_univ _)⟩
  | restricted d =>
    have htop : ∃ r s', isTrue truth (d.subst selfName probeName).toExpr s = .ok r s' ∧
        (r = true ↔ Set.univ ⊆ extent I (.restricted d)) := by
      obtain ⟨r, s', hrun, hr⟩ := isTrue_run htruth (d.subst selfName probeName).toExpr s
      exact ⟨r, s', hrun, hr.trans ((valid_probe_iff hb).trans Set.univ_subset_iff.symm)⟩
    cases a with
    | any => exact htop
    | pending => exact htop
    | restricted c =>
      obtain ⟨r, s', hrun, hr⟩ := isTrue_run htruth
        (.or (.not (c.subst selfName probeName).toExpr) (d.subst selfName probeName).toExpr) s
      exact ⟨r, s', hrun, hr.trans (valid_implication_iff ha hb)⟩

theorem unify_any_run (htruth : Decides I B truth) (hc : probeName ∉ c.freeVars) (s : σ) :
    ∃ s', (extent I (.restricted c) = Set.univ ∧
        unify truth .any (.restricted c) s = .ok (.restricted c) s' ∧
        unify truth (.restricted c) .any s = .ok (.restricted c) s') ∨
      (extent I (.restricted c) ≠ Set.univ ∧
        unify truth .any (.restricted c) s =
          .error (.error (.unification any.text (restricted c).text)) s' ∧
        unify truth (.restricted c) .any s =
          .error (.error (.unification (restricted c).text any.text)) s') := by
  obtain ⟨r, s', hrun, hr⟩ :=
    implies_run (a := .any) (b := .restricted c) htruth List.not_mem_nil hc s
  rw [show extent I .any = Set.univ from rfl, Set.univ_subset_iff] at hr
  refine ⟨s', ?_⟩
  cases r with
  | true =>
    refine .inl ⟨hr.1 rfl, ?_, ?_⟩ <;>
      (simp only [unify, bind, EStateM.bind, hrun]; rfl)
  | false =>
    refine .inr ⟨fun h => Bool.false_ne_true (hr.2 h), ?_, ?_⟩ <;>
      (simp only [unify, bind, EStateM.bind, hrun]; rfl)

theorem unify_restricted_run (htruth : Decides I B truth) (hc : probeName ∉ c.freeVars)
    (hd : probeName ∉ d.freeVars) (s : σ) :
    ∃ s', (extent I (.restricted c) ⊆ extent I (.restricted d) ∧
        unify truth (.restricted c) (.restricted d) s = .ok (.restricted c) s') ∨
      (extent I (.restricted d) ⊆ extent I (.restricted c) ∧
        unify truth (.restricted c) (.restricted d) s = .ok (.restricted d) s') ∨
      (¬Compatible I (.restricted c) (.restricted d) ∧
        unify truth (.restricted c) (.restricted d) s =
          .error (.error (.unification (restricted c).text (restricted d).text)) s') := by
  by_cases hcd : c = d
  · subst hcd
    refine ⟨s, .inl ⟨subset_rfl, ?_⟩⟩
    simp only [unify, if_pos]
    rfl
  obtain ⟨inner, s₁, hinner, hi⟩ :=
    implies_run (a := .restricted c) (b := .restricted d) htruth hc hd s
  obtain ⟨outer, s₂, houter, ho⟩ :=
    implies_run (a := .restricted d) (b := .restricted c) htruth hd hc s₁
  have hrun : unify truth (.restricted c) (.restricted d) s =
      (if inner then pure (.restricted c) else if outer then pure (.restricted d)
      else throw (.error (.unification (restricted c).text (restricted d).text)) :
        EStateM Failure σ Domain) s₂ := by
    simp only [unify, if_neg hcd, bind, EStateM.bind, hinner, houter]
  refine ⟨s₂, ?_⟩
  cases inner with
  | true => exact .inl ⟨hi.1 rfl, hrun⟩
  | false =>
    cases outer with
    | true => exact .inr (.inl ⟨ho.1 rfl, hrun⟩)
    | false =>
      refine .inr (.inr ⟨?_, hrun⟩)
      rintro (h | h)
      · exact Bool.false_ne_true (hi.2 h)
      · exact Bool.false_ne_true (ho.2 h)

theorem unify_run (htruth : Decides I B truth) (ha : a ≠ .pending) (hb : b ≠ .pending)
    (hva : probeName ∉ a.freeVars) (hvb : probeName ∉ b.freeVars) (s : σ) :
    ∃ s', (a.Compatible I b ∧ ∃ d, unify truth a b s = .ok d s' ∧ (d = a ∨ d = b) ∧
        d.extent I = a.extent I ∩ b.extent I) ∨
      (¬a.Compatible I b ∧
        unify truth a b s = .error (.error (.unification a.text b.text)) s') := by
  cases a with
  | pending => exact absurd rfl ha
  | any =>
    cases b with
    | pending => exact absurd rfl hb
    | any => exact ⟨s, .inl ⟨trivial, .any, rfl, .inl rfl, (Set.inter_self _).symm⟩⟩
    | restricted d =>
      obtain ⟨s', ⟨hd, hrun, -⟩ | ⟨hd, hrun, -⟩⟩ := unify_any_run htruth hvb s
      · exact ⟨s', .inl ⟨hd, _, hrun, .inr rfl, (Set.univ_inter _).symm⟩⟩
      · exact ⟨s', .inr ⟨hd, hrun⟩⟩
  | restricted c =>
    cases b with
    | pending => exact absurd rfl hb
    | any =>
      obtain ⟨s', ⟨hc, -, hrun⟩ | ⟨hc, -, hrun⟩⟩ := unify_any_run htruth hva s
      · exact ⟨s', .inl ⟨hc, _, hrun, .inl rfl, (Set.inter_univ _).symm⟩⟩
      · exact ⟨s', .inr ⟨hc, hrun⟩⟩
    | restricted d =>
      obtain ⟨s', ⟨h, hrun⟩ | ⟨h, hrun⟩ | ⟨h, hrun⟩⟩ := unify_restricted_run htruth hva hvb s
      · exact ⟨s', .inl ⟨.inl h, _, hrun, .inl rfl, (Set.inter_eq_left.2 h).symm⟩⟩
      · exact ⟨s', .inl ⟨.inr h, _, hrun, .inr rfl, (Set.inter_eq_right.2 h).symm⟩⟩
      · exact ⟨s', .inr ⟨h, hrun⟩⟩

theorem unify_ok (htruth : Decides I B truth) (ha : a ≠ .pending) (hb : b ≠ .pending)
    (hva : probeName ∉ a.freeVars) (hvb : probeName ∉ b.freeVars) {s s' : σ} {d : Domain}
    (hrun : unify truth a b s = .ok d s') :
    (d = a ∨ d = b) ∧ d.extent I = a.extent I ∩ b.extent I := by
  obtain ⟨r, ⟨-, e, he, hspec⟩ | ⟨-, he⟩⟩ := unify_run htruth ha hb hva hvb s
  · cases hrun.symm.trans he
    exact hspec
  · cases hrun.symm.trans he

theorem unify_ok_iff (htruth : Decides I B truth) (ha : a ≠ .pending) (hb : b ≠ .pending)
    (hva : probeName ∉ a.freeVars) (hvb : probeName ∉ b.freeVars) (s : σ) :
    (∃ d s', unify truth a b s = .ok d s') ↔ a.Compatible I b := by
  obtain ⟨r, ⟨hab, e, he, -⟩ | ⟨hab, he⟩⟩ := unify_run htruth ha hb hva hvb s
  · exact iff_of_true ⟨e, r, he⟩ hab
  · refine iff_of_false ?_ hab
    rintro ⟨d, s', hrun⟩
    cases hrun.symm.trans he

/-- What unification gives is one of the two domains, and their intersection. It succeeds on
compatible domains only, in either order, with domains of the same values. -/
theorem unify_intersection (htruth : Decides I B truth) (ha : a ≠ .pending) (hb : b ≠ .pending)
    (hva : probeName ∉ a.freeVars) (hvb : probeName ∉ b.freeVars) :
    (∀ s d s', unify truth a b s = .ok d s' →
      (d = a ∨ d = b) ∧ d.extent I = a.extent I ∩ b.extent I) ∧
    (∀ s, (∃ d s', unify truth a b s = .ok d s') ↔ a.Compatible I b) ∧
    (∀ s r, (∃ d s', unify truth a b s = .ok d s') ↔ ∃ e r', unify truth b a r = .ok e r') ∧
    ∀ s d s' r e r', unify truth a b s = .ok d s' → unify truth b a r = .ok e r' →
      d.extent I = e.extent I := by
  refine ⟨fun s d s' hrun => unify_ok htruth ha hb hva hvb hrun,
    unify_ok_iff htruth ha hb hva hvb, fun s r => ?_, fun s d s' r e r' hd he => ?_⟩
  · rw [unify_ok_iff htruth ha hb hva hvb, unify_ok_iff htruth hb ha hvb hva]
    exact ⟨Compatible.symm, Compatible.symm⟩
  · rw [(unify_ok htruth ha hb hva hvb hd).2, (unify_ok htruth hb ha hvb hva he).2, Set.inter_comm]

end Domain

open Classical in
/-- The oracle that knows which formulas are valid. -/
noncomputable def validity (I : Interpretation) (B : Bounds) : Expr → EStateM Failure Unit Truth :=
  fun x => pure (if x.Valid I B then .always else .sometimes)

theorem decides_validity (I : Interpretation) (B : Bounds) : Decides I B (validity I B) := by
  refine fun x s => ⟨_, s, rfl, ?_⟩
  split
  · exact iff_of_true rfl ‹_›
  · exact iff_of_false nofun ‹_›

/-- The names of base 2 are read as its relations. -/
def base2 : Interpretation := Relations.binary.interpretation fun _ => False

/-- Nothing is demanded of the values of quantified variables. -/
def unbounded : Bounds := fun _ _ _ => True

theorem holds_bin_equal {u v : String} {n : Nat} {τ : Valuation} (hτ : ∀ v, τ v < 2 ^ n) :
    Call.Holds base2 ⟨"bin_equal", [.var u, .var v]⟩ n τ ↔ τ u = τ v := by
  have hpair := Operand.joined_pair (Operand.is_known (hτ u)) (Operand.is_known (hτ v))
    (Relations.binary "bin_equal")
  refine hpair.trans ⟨?_, fun h => ⟨τ u, τ v, rfl, rfl, h⟩⟩
  rintro ⟨a, b, ha, hb, hab⟩
  rw [Option.some_inj.1 ha, Option.some_inj.1 hb]
  exact hab

namespace Domain

/-- The values that are equal to what the variable stands for. -/
def equalTo (v : String) : Domain := .restricted ⟨"bin_equal", [.var selfName, .var v]⟩

theorem mem_extent_equalTo {v : String} (p : Point) :
    p ∈ (equalTo v).extent base2 ↔ p.value = Function.update p.params selfName p.value v := by
  have hlt : ∀ u, Function.update p.params selfName p.value u < 2 ^ p.length := by
    intro u
    rw [Function.update_apply]
    split
    · exact p.value_lt
    · exact p.params_lt u
  refine (holds_bin_equal hlt).trans ?_
  rw [Function.update_self]

/-- All values are equal to themselves, which does not depend on a parameter. -/
theorem unify_intersection_equalTo :
    ∃ d, unify (validity base2 unbounded) (equalTo "w") (equalTo selfName) () = .ok d () ∧
      (d = equalTo "w" ∨ d = equalTo selfName) ∧
      d.extent base2 = (equalTo "w").extent base2 ∩ (equalTo selfName).extent base2 := by
  obtain ⟨hspec, hok, -, -⟩ := unify_intersection (decides_validity base2 unbounded)
    (a := equalTo "w") (b := equalTo selfName) nofun nofun (by decide) (by decide)
  have huniv : (equalTo selfName).extent base2 = Set.univ := by
    refine Set.eq_univ_of_forall fun p => (mem_extent_equalTo p).2 ?_
    rw [Function.update_self]
  obtain ⟨d, s', hd⟩ := (hok ()).2 (.inl (huniv ▸ Set.subset_univ _))
  exact ⟨d, hd, hspec () d s' hd⟩

/-- A parameter that is named `__v` is taken for the value that the question is about. -/
theorem unify_mistakes_parameter :
    Decides base2 unbounded (validity base2 unbounded) ∧
      unify (validity base2 unbounded) .any (equalTo probeName) () = .ok (equalTo probeName) () ∧
      (equalTo probeName).extent base2 ≠ Set.univ := by
  refine ⟨decides_validity base2 unbounded, ?_, ?_⟩
  · have hvalid : Expr.Valid base2 unbounded
        (Call.toExpr ⟨"bin_equal", [.var probeName, .var probeName]⟩) :=
      fun n τ hτ => (holds_bin_equal hτ).2 rfl
    have himplies :
        implies (validity base2 unbounded) .any (equalTo probeName) () = .ok true () := by
      change isTrue (validity base2 unbounded)
        (Call.toExpr ⟨"bin_equal", [.var probeName, .var probeName]⟩) () = _
      simp only [isTrue, validity, if_pos hvalid]
      rfl
    simp only [equalTo] at himplies ⊢
    simp only [unify, bind, EStateM.bind, himplies]
    rfl
  · intro h
    have hmem := (mem_extent_equalTo ⟨1, 0, fun _ => 1, by decide, fun _ => by decide⟩).1
      (h ▸ Set.mem_univ _)
    revert hmem
    decide

end Domain

end RegularArithmetic

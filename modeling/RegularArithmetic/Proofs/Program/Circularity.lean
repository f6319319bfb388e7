import RegularArithmetic.Proofs.Program.Prelude
import RegularArithmetic.Proofs.Program.Stepwise

/-!
Restrictions that mention each other. The domain of a sum is asked for by the domains of its
variables, and whether a restriction restricts anything is asked of the evaluator, which has to find
the domains of the parameters first. If each of some variables is restricted by a sum with another
one of them, no such question is ever answered: the evaluator uses up any depth.
-/

set_option autoImplicit false

namespace RegularArithmetic

/-- The computation ends because it nests too deep. -/
def Exhausts {α : Type} (x : Program.M α) (w : Workspace) : Prop :=
  ∃ w', x w = .error (.fault .exhausted) w'

namespace Exhausts

variable {α β : Type} {x : Program.M α} {f : α → Program.M β} {w w' : Workspace}

theorem bind (h : Exhausts x w) : Exhausts (x >>= f) w := by
  obtain ⟨w', h⟩ := h
  exact ⟨w', by simp only [Bind.bind, EStateM.bind, h]⟩

theorem of_eq_ok {a : α} (hx : x w = .ok a w') (h : Exhausts (f a) w') : Exhausts (x >>= f) w := by
  obtain ⟨w'', h⟩ := h
  exact ⟨w'', by simp only [Bind.bind, EStateM.bind, hx, h]⟩

theorem withFrame {g : Frame}
    (h : Exhausts x ⟨w.alphabet, { w.program with frames := g :: w.program.frames }⟩) :
    Exhausts (Program.withFrame g x) w := by
  obtain ⟨w', h⟩ := h
  refine ⟨⟨w'.alphabet, { w'.program with frames := w'.program.frames.drop 1 }⟩, ?_⟩
  have hrun : Program.withFrame g x w = Program.followedBy x (Program.change fun p =>
      { p with frames := p.frames.drop 1 })
        ⟨w.alphabet, { w.program with frames := g :: w.program.frames }⟩ := rfl
  rw [hrun, Program.followedBy, h]
  rfl

end Exhausts

namespace Program

/-- The call about `v` whose parameter is the sum of two variables. -/
def sumCall (name v u z : String) : Call := ⟨name, [.var v, .arith .add (.var u) (.var z)]⟩

/-- The first restriction of each of the variables has a sum for its parameter, of another of them
and one that is not restricted. -/
structure Knotted (V : Set String) (r : Restrictions) : Prop where
  entangled : ∀ v ∈ V, ∃ name u z, u ∈ V ∧ u ≠ selfName ∧ z ≠ selfName ∧
    r.domainOf v = .ok (.restricted (sumCall name selfName u z)) ∧ r.domainOf z = .ok .any
  probe : ∃ d, r.domainOf probeName = .ok d

variable {V : Set String} {r : Restrictions} {w : Workspace} {truth : Expr → M Truth}
  {v u z name : String} {d : Domain} {c : Call}

theorem subst_sumCall (hu : u ≠ selfName) (hz : z ≠ selfName) :
    (sumCall name selfName u z).subst selfName v = sumCall name v u z := by
  simp [sumCall, Call.subst, substArgs, Expr.var, Expr.arith, Form.plain, Expr.subst, Form.subst,
    substName, hu, hz]

theorem inferExpr_var (h : w.program.restrictions.domainOf v = .ok d) :
    inferExpr truth (.var v) w = .ok ⟨.var v, some d⟩ w := by
  simp only [Expr.var, Form.plain, inferExpr, inferForm, Domain.known?, Bind.bind, EStateM.bind,
    ask, h]
  rfl

/-- A restricted variable and one that is not restricted have a common domain only if the
restriction restricts nothing. -/
theorem exhausts_commonDomain {x y : Expr} (hx : x.domain = some (.restricted c))
    (hy : y.domain = some .any) (h : Exhausts (truth (c.subst selfName probeName).toExpr) w) :
    Exhausts (commonDomain truth x y) w := by
  simp only [commonDomain, Expr.stated, hx, hy, Option.getD_some, Domain.unify]
  exact h.bind.bind

theorem exhausts_operands (hv : w.program.restrictions.domainOf v = .ok (.restricted c))
    (hz : w.program.restrictions.domainOf z = .ok .any)
    (h : Exhausts (truth (c.subst selfName probeName).toExpr) w) :
    Exhausts (inferExpr truth (.arith .add (.var v) (.var z))) w ∧
      Exhausts (inferExpr truth (.equal (.var v) (.var z))) w := by
  have hcommon : Exhausts (commonDomain truth ⟨.var v, some (.restricted c)⟩
      ⟨.var z, some .any⟩) w := exhausts_commonDomain rfl rfl h
  constructor
  · rw [Expr.arith, Form.plain, inferExpr, inferForm]
    exact .of_eq_ok (inferExpr_var hv) (.of_eq_ok (inferExpr_var hz) hcommon.bind)
  · rw [Expr.equal, Form.plain, inferExpr, inferForm]
    exact .of_eq_ok (inferExpr_var hv) (.of_eq_ok (inferExpr_var hz) hcommon.bind)

theorem Knotted.exhausts_probe (hknot : Knotted V r) (n : Nat) : ∀ {w : Workspace} {v : String}
    {c : Call}, w.program.restrictions = r → v ∈ V → r.domainOf v = .ok (.restricted c) →
      Exhausts ((Engine.ofDepth n).truth (c.subst selfName probeName).toExpr) w := by
  induction n with
  | zero => exact fun {w _ _} _ _ _ => ⟨w, rfl⟩
  | succ n ih =>
    intro w v c hr hv hc
    obtain ⟨name, u, z, hu, huself, hzself, hdomain, hz⟩ := hknot.entangled v hv
    obtain ⟨d, hprobe⟩ := hknot.probe
    cases hc.symm.trans hdomain
    rw [subst_sumCall huself hzself]
    -- The call is about the probe, but its parameter is about `u`, which is as knotted as `v`.
    obtain ⟨name', u', z', -, -, -, hdomain', -⟩ := hknot.entangled u hu
    refine Exhausts.withFrame (Exhausts.bind (Exhausts.bind ?_))
    generalize hw₁ : (⟨w.alphabet, { w.program with
      frames := Engine.queryFrame :: w.program.frames }⟩ : Workspace) = w₁
    have hr₁ : w₁.program.restrictions = r := by
      rw [← hw₁]
      exact hr
    have hsum := (exhausts_operands (hr₁ ▸ hdomain') (hr₁ ▸ hz) (ih hr₁ hu hdomain')).1
    rw [sumCall, Call.toExpr, Form.plain, inferExpr, inferForm, inferCall, inferArgs, inferArgs]
    exact (Exhausts.of_eq_ok (inferExpr_var (hr₁ ▸ hprobe)) hsum.bind.bind).bind.bind

/-- The domains of an equation with a knotted variable are never found, to whatever depth one
looks for them. -/
theorem Knotted.exhausts_infer (hknot : Knotted V w.program.restrictions) (hv : v ∈ V)
    (hz : w.program.restrictions.domainOf z = .ok .any) (n : Nat) :
    Exhausts (infer (Engine.ofDepth n).truth (.equal (.var v) (.var z))) w := by
  obtain ⟨name, u, z', -, -, -, hdomain, -⟩ := hknot.entangled v hv
  exact (exhausts_operands hdomain hz (hknot.exhausts_probe n rfl hv hdomain)).2.bind

/-- Two variables, each restricted by a sum of the other and a third. -/
def knot (name x y z : String) : Restrictions :=
  ⟨[(x, [sumCall name x y z]), (y, [sumCall name y x z])], []⟩

variable {x y : String}

theorem restriction_sumCall (hu : u ≠ v) (hz : z ≠ v) :
    Domain.restriction v (sumCall name v u z) = .ok (.restricted (sumCall name selfName u z)) := by
  simp [Domain.restriction, Call.requireAbout, Call.isAbout, sumCall, Expr.var, Expr.arith,
    Form.plain, Call.subst, substArgs, Expr.subst, Form.subst, substName, hu, hz, Bind.bind,
    Except.bind, Pure.pure, Except.pure]

theorem domainOf_knot_left : (knot name x y z).domainOf x =
    Domain.restriction x (sumCall name x y z) := by
  simp [knot, Restrictions.domainOf, Restrictions.visible, Restrictions.layers, Scope.get,
    includeCall]

theorem domainOf_knot_right (hxy : x ≠ y) : (knot name x y z).domainOf y =
    Domain.restriction y (sumCall name y x z) := by
  simp [knot, Restrictions.domainOf, Restrictions.visible, Restrictions.layers, Scope.get,
    includeCall, List.lookup_cons, beq_eq_false_iff_ne.mpr hxy.symm]

theorem domainOf_knot_of_ne (hx : v ≠ x) (hy : v ≠ y) :
    (knot name x y z).domainOf v = .ok .any := by
  simp [knot, Restrictions.domainOf, Restrictions.visible, Restrictions.layers, Scope.get,
    List.lookup_cons, beq_eq_false_iff_ne.mpr hx, beq_eq_false_iff_ne.mpr hy]

theorem knotted_knot (h : [x, y, z, selfName].Nodup) (hprobe : probeName ∉ [x, y]) :
    Knotted {x, y} (knot name x y z) := by
  simp only [List.nodup_cons, List.mem_cons, List.not_mem_nil, not_or] at h hprobe
  obtain ⟨⟨hxy, hxz, hxs, -⟩, ⟨hyz, hys, -⟩, ⟨hzs, -⟩, -⟩ := h
  have hz : (knot name x y z).domainOf z = .ok .any :=
    domainOf_knot_of_ne (Ne.symm hxz) (Ne.symm hyz)
  refine ⟨?_, .any, domainOf_knot_of_ne hprobe.1 hprobe.2.1⟩
  rintro v (rfl | rfl)
  · refine ⟨name, y, z, by simp, hys, hzs, ?_, hz⟩
    rw [domainOf_knot_left, restriction_sumCall (Ne.symm hxy) (Ne.symm hxz)]
  · refine ⟨name, x, z, by simp, hxs, hzs, ?_, hz⟩
    rw [domainOf_knot_right hxy, restriction_sumCall hxy (Ne.symm hyz)]

theorem restrictBy_everywhere {c : Call} (hc : c.isAbout v = true) (w : Workspace) :
    restrictBy (·.restrictEverywhere v c) w = .ok () ⟨w.alphabet, { w.program with
      restrictions := { w.program.restrictions with
        everywhere := w.program.restrictions.everywhere.add v c } }⟩ := by
  simp only [restrictBy, Restrictions.restrictEverywhere, Call.requireAbout, hc]
  rfl

/-- Once two variables are restricted by sums with each other, the domains of an equation with one
of them are never found, to whatever depth one looks for them. -/
theorem exhausts_infer_of_restricted (h : [x, y, z, selfName].Nodup) (hprobe : probeName ∉ [x, y])
    {w : Workspace} (hw : w.program.restrictions = .none) (n : Nat) : Exhausts (do
      restrictBy (·.restrictEverywhere x (sumCall name x y z))
      restrictBy (·.restrictEverywhere y (sumCall name y x z))
      infer (Engine.ofDepth n).truth (.equal (.var x) (.var z))) w := by
  have habout : ∀ v u, (sumCall name v u z).isAbout v = true := fun v u => by
    simp [sumCall, Call.isAbout, Expr.var, Form.plain]
  have hne : y ≠ x ∧ z ≠ x ∧ z ≠ y := by
    simp only [List.nodup_cons, List.mem_cons, not_or] at h
    exact ⟨Ne.symm h.1.1, Ne.symm h.1.2.1, Ne.symm h.2.1.1⟩
  refine .of_eq_ok (restrictBy_everywhere (habout x y) w)
    (.of_eq_ok (restrictBy_everywhere (habout y x) _) ?_)
  generalize hw' : (⟨w.alphabet, _⟩ : Workspace) = w'
  have hknot : w'.program.restrictions = knot name x y z := by
    subst hw'
    simp [hw, knot, Restrictions.none, Scope.add, Scope.update, includeCall, hne.1.symm]
  refine (hknot ▸ knotted_knot h hprobe).exhausts_infer (.inl rfl) ?_ n
  rw [hknot]
  exact domainOf_knot_of_ne hne.2.1 hne.2.2

/-- In a new program the evaluator of all requests does not find them. -/
theorem exhausts_infer_of_restricted_new : ∃ w : Workspace,
    w.Idle .binary Workspace.aliases ⟨6, none, true, true⟩ ∧ Exhausts (do
      restrictBy (·.restrictEverywhere "x" (sumCall "bin_equal" "x" "y" "z"))
      restrictBy (·.restrictEverywhere "y" (sumCall "bin_equal" "y" "x" "z"))
      infer Engine.standard.truth (.equal (.var "x") (.var "z"))) w := by
  obtain ⟨w, hidle⟩ := Workspace.exists_idle
  exact ⟨w, hidle, exhausts_infer_of_restricted (by decide) (by decide) hidle.atRest.restrictions
    Engine.limit⟩

end Program

end RegularArithmetic

import RegularArithmetic.Program.Inference
import RegularArithmetic.Proofs.Meaning.Annotation
import RegularArithmetic.Proofs.Program.Scopes

/-!
Inference on expressions without annotations, where no variable is restricted: it succeeds, leaves
the state as it is, and fills in that all numbers are allowed.
-/

set_option autoImplicit false

namespace RegularArithmetic

namespace Restrictions

def Free (r : Restrictions) : Prop := ∀ v, r.visible v = []

variable {r : Restrictions}

theorem free_none : none.Free := fun _ => rfl

theorem Free.domainOf (h : r.Free) (v : String) : r.domainOf v = .ok .any := by
  rw [Restrictions.domainOf, h v]

/-- An empty scope restricts nothing. -/
theorem Free.enter (h : r.Free) : (r.enter []).Free := by
  intro v
  refine List.eq_nil_iff_forall_not_mem.2 fun c hc => ?_
  have hmem : c ∈ r.visible v ∨ v = v ∧ c ∈ (Option.none : Option Call) :=
    Program.mem_visible_enter.1 hc
  simp [h v] at hmem

end Restrictions

namespace Program

variable {α : Type} {w w' : Workspace} {truth : Expr → M Truth} {N : Set String}

theorem withScope_eq_ok {s : Scope} {x : M α} {a : α}
    (h : x (w.under (w.program.restrictions.enter s)) =
      .ok a (w.under (w.program.restrictions.enter s))) : withScope s x w = .ok a w := by
  have hrun : withScope s x w = followedBy x exitScope (w.under (w.program.restrictions.enter s)) :=
    rfl
  rw [hrun, followedBy, h]
  rfl

theorem exists_of_followedBy_eq_ok {x : M α} {after : M Unit} {a : α}
    (h : followedBy x after w = .ok a w') :
    ∃ w₁, x w = .ok a w₁ := by
  simp only [followedBy] at h
  split at h
  · rename_i b w₁ hx
    split at h
    · cases h
      exact ⟨w₁, hx⟩
    · cases h
  · split at h <;> cases h

theorem exists_of_withScope_eq_ok {s : Scope} {x : M α} {a : α}
    (h : withScope s x w = .ok a w') :
    ∃ w₁, x (w.under (w.program.restrictions.enter s)) = .ok a w₁ := by
  have hrun : withScope s x w = followedBy x exitScope (w.under (w.program.restrictions.enter s)) :=
    rfl
  exact exists_of_followedBy_eq_ok (hrun.symm.trans h)

theorem unify_eq_ok {a b : Domain} (ha : some a ∈ unrestricted) (hb : some b ∈ unrestricted) :
    ∃ e, some e ∈ unrestricted ∧ Domain.unify truth a b w = .ok e w := by
  simp only [unrestricted, Set.mem_insert_iff, Set.mem_singleton_iff, Option.some_inj,
    reduceCtorEq, false_or] at ha hb
  obtain rfl | rfl := ha
  · obtain rfl | rfl := hb
    · exact ⟨.any, .inr (.inl rfl), rfl⟩
    · exact ⟨.any, .inr (.inl rfl), rfl⟩
  · exact ⟨b, .inr (hb.imp (congrArg some) (congrArg some)), rfl⟩

theorem stated_mem {x : Expr} (h : x.IsPlain unrestricted N) : some x.stated ∈ unrestricted := by
  obtain ⟨f, d⟩ := x
  obtain rfl | rfl | rfl := h.1
  · exact .inr (.inr rfl)
  · exact .inr (.inl rfl)
  · exact .inr (.inr rfl)

theorem commonDomain_eq_ok (truth : Expr → M Truth) (w : Workspace) {x x' y y' : Expr}
    (hx : x.Annotates unrestricted N x') (hy : y.Annotates unrestricted N y') :
    ∃ e, some e ∈ unrestricted ∧ commonDomain truth x' y' w = .ok e w ∧
      x.Annotates unrestricted N (x'.settle e) ∧ y.Annotates unrestricted N (y'.settle e) := by
  obtain ⟨e, he, hcommon⟩ :
      ∃ e, some e ∈ unrestricted ∧ commonDomain truth x' y' w = .ok e w :=
    unify_eq_ok (stated_mem hx.plain) (stated_mem hy.plain)
  exact ⟨e, he, hcommon, hx.trans (Expr.annotates_settle he hx.plain),
    hy.trans (Expr.annotates_settle he hy.plain)⟩

/-- Inference gives the expression with annotations that restrict nothing. -/
def Infers (truth : Expr → M Truth) (N : Set String) (w : Workspace) (x : Expr) : Prop :=
  ∃ y, inferExpr truth x w = .ok y w ∧ x.Annotates unrestricted N y

/-- Each argument gets annotations that restrict nothing. -/
def InfersArgs (truth : Expr → M Truth) (N : Set String) (w : Workspace) (xs : List Expr) : Prop :=
  ∃ ys, inferArgs truth xs w = .ok ys w ∧ eraseArgs ys = eraseArgs xs ∧ plainArgs unrestricted N ys

theorem none_mem_unrestricted : (none : Option Domain) ∈ unrestricted := .inl rfl

section

variable {x y : Expr} {xs : List Expr}

theorem infers_var {v : String} (hv : IsOwn v) (hw : w.program.restrictions.Free) :
    Infers truth N w ⟨.var v, none⟩ := by
  refine ⟨⟨.var v, some .any⟩, ?_, rfl, .inr (.inl rfl), hv⟩
  simp only [inferExpr, inferForm, Domain.known?, bind, EStateM.bind, ask, liftM, monadLift,
    MonadLift.monadLift, hw.domainOf v]
  rfl

theorem infers_arith (op : Operation) (hx : Infers truth N w x) (hy : Infers truth N w y)
    (hkind : x.isFormula = false ∧ y.isFormula = false) :
    Infers truth N w ⟨.arith op x y, none⟩ := by
  obtain ⟨x', hx, hxx'⟩ := hx
  obtain ⟨y', hy, hyy'⟩ := hy
  obtain ⟨e, he, hcommon, hx', hy'⟩ := commonDomain_eq_ok truth w hxx' hyy'
  refine ⟨⟨.arith op (x'.settle e) (y'.settle e), some e⟩, ?_, ?_, he,
    ⟨hx'.isFormula.trans hkind.1, hx'.plain⟩, hy'.isFormula.trans hkind.2, hy'.plain⟩
  · simp only [inferExpr, inferForm, bind, EStateM.bind, hx, hy, hcommon, arithmeticDomain,
      Domain.known?]
    rfl
  · simp only [Expr.erase, Form.erase, hx'.erase, hy'.erase]

theorem infers_compare (op : Comparison) (hx : Infers truth N w x) (hy : Infers truth N w y) :
    Infers truth N w ⟨.compare op x y, none⟩ := by
  obtain ⟨x', hx, hxx'⟩ := hx
  obtain ⟨y', hy, hyy'⟩ := hy
  cases hkind : x.isFormula || y.isFormula with
  | true =>
    refine ⟨⟨.compare op x' y', none⟩, ?_, ?_, none_mem_unrestricted, hxx'.plain, hyy'.plain⟩
    · simp only [inferExpr, inferForm, bind, EStateM.bind, hx, hy, hkind]
      rfl
    · simp only [Expr.erase, Form.erase, hxx'.erase, hyy'.erase]
  | false =>
    obtain ⟨e, he, hcommon, hx', hy'⟩ := commonDomain_eq_ok truth w hxx' hyy'
    refine ⟨⟨.compare op (x'.settle e) (y'.settle e), none⟩, ?_, ?_, none_mem_unrestricted,
      hx'.plain, hy'.plain⟩
    · simp only [inferExpr, inferForm, bind, EStateM.bind, hx, hy, hkind, Bool.false_eq_true,
        if_false, hcommon]
      rfl
    · simp only [Expr.erase, Form.erase, hx'.erase, hy'.erase]

theorem infers_and (hx : Infers truth N w x) (hy : Infers truth N w y)
    (hkind : x.isFormula = true ∧ y.isFormula = true) : Infers truth N w ⟨.and x y, none⟩ := by
  obtain ⟨x', hx, hxx'⟩ := hx
  obtain ⟨y', hy, hyy'⟩ := hy
  refine ⟨⟨.and x' y', none⟩, ?_, ?_, none_mem_unrestricted,
    ⟨hxx'.isFormula.trans hkind.1, hxx'.plain⟩, hyy'.isFormula.trans hkind.2, hyy'.plain⟩
  · simp only [inferExpr, inferForm, bind, EStateM.bind, hx, hy]
    rfl
  · simp only [Expr.erase, Form.erase, hxx'.erase, hyy'.erase]

theorem infers_or (hx : Infers truth N w x) (hy : Infers truth N w y)
    (hkind : x.isFormula = true ∧ y.isFormula = true) : Infers truth N w ⟨.or x y, none⟩ := by
  obtain ⟨x', hx, hxx'⟩ := hx
  obtain ⟨y', hy, hyy'⟩ := hy
  refine ⟨⟨.or x' y', none⟩, ?_, ?_, none_mem_unrestricted,
    ⟨hxx'.isFormula.trans hkind.1, hxx'.plain⟩, hyy'.isFormula.trans hkind.2, hyy'.plain⟩
  · simp only [inferExpr, inferForm, bind, EStateM.bind, hx, hy]
    rfl
  · simp only [Expr.erase, Form.erase, hxx'.erase, hyy'.erase]

theorem infers_not (hx : Infers truth N w x) (hkind : x.isFormula = true) :
    Infers truth N w ⟨.not x, none⟩ := by
  obtain ⟨x', hx, hxx'⟩ := hx
  refine ⟨⟨.not x', none⟩, ?_, ?_, none_mem_unrestricted, hxx'.isFormula.trans hkind, hxx'.plain⟩
  · simp only [inferExpr, inferForm, bind, EStateM.bind, hx]
    rfl
  · simp only [Expr.erase, Form.erase, hxx'.erase]

theorem infers_forSome {v : String} (hv : IsOwn v)
    (hx : Infers truth N (w.under (w.program.restrictions.enter [])) x)
    (hkind : x.isFormula = true) : Infers truth N w ⟨.forSome v none x, none⟩ := by
  obtain ⟨x', hx, hxx'⟩ := hx
  refine ⟨⟨.forSome v none x', none⟩, ?_, ?_, none_mem_unrestricted, hv, rfl,
    hxx'.isFormula.trans hkind, hxx'.plain⟩
  · rw [inferExpr, inferForm]
    refine withScope_eq_ok ?_
    simp only [bind, EStateM.bind, pure, EStateM.pure, hx]
  · simp only [Expr.erase, Form.erase, hxx'.erase]

theorem infers_call {name : String} (hname : name ∈ N) (hxs : InfersArgs truth N w xs) :
    Infers truth N w ⟨.call ⟨name, xs⟩, none⟩ := by
  obtain ⟨ys, hxs, herase, hplain⟩ := hxs
  refine ⟨⟨.call ⟨name, ys⟩, none⟩, ?_, ?_, none_mem_unrestricted, hname, hplain⟩
  · simp only [inferExpr, inferForm, inferCall, bind, EStateM.bind, hxs]
    rfl
  · simp only [Expr.erase, Form.erase, Call.erase, herase]

theorem infers_index {name : String} (hname : name ∈ N) (hx : Infers truth N w x)
    (hkind : x.isFormula = false) : Infers truth N w ⟨.index name x, none⟩ := by
  obtain ⟨x', hx, hxx'⟩ := hx
  refine ⟨⟨.index name x', none⟩, ?_, ?_, none_mem_unrestricted, hname,
    hxx'.isFormula.trans hkind, hxx'.plain⟩
  · simp only [inferExpr, inferForm, bind, EStateM.bind, hx]
    rfl
  · simp only [Expr.erase, Form.erase, hxx'.erase]

theorem infersArgs_cons (hx : Infers truth N w x) (hkind : x.isFormula = false)
    (hxs : InfersArgs truth N w xs) : InfersArgs truth N w (x :: xs) := by
  obtain ⟨x', hx, hxx'⟩ := hx
  obtain ⟨ys, hxs, herase, hplain⟩ := hxs
  refine ⟨x' :: ys, ?_, ?_, ⟨hxx'.isFormula.trans hkind, hxx'.plain⟩, hplain⟩
  · simp only [inferArgs, bind, EStateM.bind, hx, hxs]
    rfl
  · simp only [eraseArgs, hxx'.erase, herase]

end

mutual

/-- Inference asks no questions, whatever would answer them. -/
theorem infers_expr : ∀ {x : Expr} {w : Workspace}, x.IsPlain {none} N →
    w.program.restrictions.Free → Infers truth N w x
  | ⟨f, _⟩, _, h, hw => by
    obtain ⟨rfl, hf⟩ := h
    exact infers_form hf hw

theorem infers_form : ∀ {f : Form} {w : Workspace}, f.IsPlain {none} N →
    w.program.restrictions.Free → Infers truth N w ⟨f, none⟩
  | .var _, _, h, hw => infers_var h hw
  | .num k, _, _, _ => ⟨⟨.num k, some .pending⟩, rfl, rfl, .inr (.inr rfl), trivial⟩
  | .truth b, _, _, _ => ⟨⟨.truth b, none⟩, rfl, rfl, none_mem_unrestricted, trivial⟩
  | .arith op _ _, _, h, hw =>
    infers_arith op (infers_expr h.1.2 hw) (infers_expr h.2.2 hw) ⟨h.1.1, h.2.1⟩
  | .compare op _ _, _, h, hw => infers_compare op (infers_expr h.1 hw) (infers_expr h.2 hw)
  | .and _ _, _, h, hw => infers_and (infers_expr h.1.2 hw) (infers_expr h.2.2 hw) ⟨h.1.1, h.2.1⟩
  | .or _ _, _, h, hw => infers_or (infers_expr h.1.2 hw) (infers_expr h.2.2 hw) ⟨h.1.1, h.2.1⟩
  | .not _, _, h, hw => infers_not (infers_expr h.2 hw) h.1
  | .forSome _ _ _, _, h, hw => by
    obtain ⟨hv, rfl, hx, hplain⟩ := h
    exact infers_forSome hv (infers_expr hplain hw.enter) hx
  | .call ⟨_, _⟩, _, h, hw => infers_call h.1 (infers_args h.2 hw)
  | .index _ _, _, h, hw => infers_index h.1 (infers_expr h.2.2 hw) h.2.1
  | .automaton _, _, h, _ => h.elim
  | .rangeEq .., _, h, _ => h.elim

theorem infers_args : ∀ {xs : List Expr} {w : Workspace}, plainArgs {none} N xs →
    w.program.restrictions.Free → InfersArgs truth N w xs
  | [], _, _, _ => ⟨[], rfl, rfl, trivial⟩
  | _ :: _, _, h, hw => infersArgs_cons (infers_expr h.1.2 hw) h.1.1 (infers_args h.2 hw)

end

/-- The domains of a plain expression are found without any effect, and say nothing. -/
theorem infer_eq_ok (truth : Expr → M Truth) {x : Expr} (hx : x.IsPlain {none} N)
    (hw : w.program.restrictions.Free) :
    ∃ y, infer truth x w = .ok y w ∧ x.Annotates settledOpen N y := by
  obtain ⟨y, hrun, hxy⟩ : Infers truth N w x := infers_expr hx hw
  refine ⟨y.close, ?_, hxy.trans (Expr.annotates_close hxy.plain)⟩
  simp only [infer, bind, EStateM.bind, hrun]
  rfl

end Program

end RegularArithmetic

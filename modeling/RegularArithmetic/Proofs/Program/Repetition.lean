import RegularArithmetic.Proofs.Program.Annotating
import RegularArithmetic.Proofs.Success

/-!
Inference under an oracle whose answers depend on the restrictions alone. Its result is annotated
already: from the same restrictions, inference gives it back. Settled operands ask the questions
that were asked before, or the same two in the other order.
-/

set_option autoImplicit false

namespace RegularArithmetic

namespace Domain

/-- The domain, or another one where it was not found out. -/
def filled : Domain → Domain → Domain
  | .pending, k => k
  | d, _ => d

theorem filled_of_ne {k d : Domain} (h : d ≠ .pending) : d.filled k = d := by
  cases d with
  | pending => exact absurd rfl h
  | any => rfl
  | restricted c => rfl

theorem filled_ne_pending {k d : Domain} (hk : k ≠ .pending) : d.filled k ≠ .pending := by
  cases d with
  | pending => exact hk
  | any => exact nofun
  | restricted c => exact nofun

end Domain

section

variable {k : Domain} {x : Expr}

theorem Expr.settle_of_known {f : Form} {d : Domain} (hd : d ≠ .pending) (k : Domain) :
    Expr.settle k ⟨f, some d⟩ = ⟨f, some d⟩ := by
  rw [Expr.settle, Domain.known?_some hd]

theorem Expr.settle_of_unknown {f : Form} {d : Option Domain} (hd : Domain.known? d = none)
    (k : Domain) : Expr.settle k ⟨f, d⟩ = ⟨f.settle k, some k⟩ := by
  rw [Expr.settle, hd]

mutual

/-- What is settled without a domain can still be settled. -/
theorem Expr.settle_pending_settle (hk : k ≠ .pending) : ∀ x : Expr,
    (x.settle .pending).settle k = x.settle k
  | ⟨f, d⟩ => by
    cases hd : Domain.known? d with
    | some e =>
      obtain ⟨rfl, he⟩ := Domain.known?_eq_some.1 hd
      rw [Expr.settle_of_known he, Expr.settle_of_known he]
    | none =>
      rw [Expr.settle_of_unknown hd, Expr.settle_of_unknown rfl, Expr.settle_of_unknown hd,
        Form.settle_pending_settle hk f]

theorem Form.settle_pending_settle (hk : k ≠ .pending) : ∀ f : Form,
    (f.settle .pending).settle k = f.settle k
  | .arith _ x y => by
    simp only [Form.settle, Expr.settle_pending_settle hk x, Expr.settle_pending_settle hk y]
  | .var _ => rfl
  | .num _ => rfl
  | .truth _ => rfl
  | .automaton _ => rfl
  | .compare .. => rfl
  | .and .. => rfl
  | .or .. => rfl
  | .not _ => rfl
  | .forSome .. => rfl
  | .call _ => rfl
  | .index .. => rfl
  | .rangeEq .. => rfl

end

mutual

/-- What is settled without a domain is closed as all numbers. -/
theorem Expr.close_settle_pending : ∀ x : Expr, (x.settle .pending).close = (x.settle .any).close
  | ⟨f, d⟩ => by
    cases hd : Domain.known? d with
    | some e =>
      obtain ⟨rfl, he⟩ := Domain.known?_eq_some.1 hd
      rw [Expr.settle_of_known he, Expr.settle_of_known he]
    | none =>
      rw [Expr.settle_of_unknown hd, Expr.settle_of_unknown hd, Expr.close_mk, Expr.close_mk,
        Form.close_settle_pending f]
      rfl

theorem Form.close_settle_pending : ∀ f : Form, (f.settle .pending).close = (f.settle .any).close
  | .arith _ x y => by
    simp only [Form.settle, Form.close, Expr.close_settle_pending x, Expr.close_settle_pending y]
  | .var _ => rfl
  | .num _ => rfl
  | .truth _ => rfl
  | .automaton _ => rfl
  | .compare .. => rfl
  | .and .. => rfl
  | .or .. => rfl
  | .not _ => rfl
  | .forSome .. => rfl
  | .call _ => rfl
  | .index .. => rfl
  | .rangeEq .. => rfl

end

theorem Expr.domain_close_settle (hk : k ≠ .pending) (x : Expr) :
    (x.settle k).close.domain = some (x.stated.filled k) := by
  obtain ⟨f, d⟩ := x
  cases hd : Domain.known? d with
  | some e =>
    obtain ⟨rfl, he⟩ := Domain.known?_eq_some.1 hd
    rw [Expr.settle_of_known he, Expr.close_mk]
    cases e with
    | pending => exact absurd rfl he
    | any => rfl
    | restricted c => rfl
  | none =>
    have hstated : Expr.stated ⟨f, d⟩ = .pending := by
      obtain rfl | rfl := Domain.known?_eq_none.1 hd <;> rfl
    rw [Expr.settle_of_unknown hd, Expr.close_mk, hstated]
    cases k with
    | pending => exact absurd rfl hk
    | any => rfl
    | restricted c => rfl

end

namespace Program

variable {α β : Type} {r : Restrictions} {x : M α} {f : α → M β} {a : α} {b : β}
  {w w' : Workspace}

/-- Wherever the restrictions are `r`, the computation gives `a` and keeps them. -/
def GivesUnder (r : Restrictions) (x : M α) (a : α) : Prop :=
  ∀ w, w.program.restrictions = r → ∃ w', x w = .ok a w' ∧ w'.program.restrictions = r

/-- What the computation gives once, it gives wherever the same restrictions are in force. -/
def Repeats (x : M α) : Prop := ∀ w a w', x w = .ok a w' → GivesUnder w.program.restrictions x a

namespace GivesUnder

theorem pure (a : α) : GivesUnder r (Pure.pure a) a := fun w hw => ⟨w, rfl, hw⟩

theorem bind (hx : GivesUnder r x a) (hf : GivesUnder r (f a) b) : GivesUnder r (x >>= f) b := by
  intro w hw
  obtain ⟨u, hxu, hu⟩ := hx w hw
  obtain ⟨w', hfw', hw'⟩ := hf u hu
  exact ⟨w', by simp only [Bind.bind, EStateM.bind, hxu, hfw'], hw'⟩

theorem restrictions : GivesUnder r (ask (·.restrictions)) r :=
  fun w hw => ⟨w, by simp only [ask, hw], hw⟩

theorem withScope {s : Scope} (hx : GivesUnder (r.enter s) x a) :
    GivesUnder r (withScope s x) a := by
  rintro w rfl
  obtain ⟨u, hxu, hu⟩ := hx (w.under (w.program.restrictions.enter s)) rfl
  refine ⟨u.under w.program.restrictions, ?_, rfl⟩
  have hrun : Program.withScope s x w =
      followedBy x exitScope (w.under (w.program.restrictions.enter s)) := rfl
  simp only [hrun, followedBy, hxu, exitScope_eq hu]

theorem guardedScope {v : String} {g : Option Call} (hg : ∀ c ∈ g, c.isAbout v)
    (hx : GivesUnder (r.enter (guardScopeOf v g)) x a) :
    GivesUnder r (Program.withScope [] do
      if let some c := g then restrictBy (·.restrict v c)
      x) a := by
  refine (congrArg (GivesUnder r · a) (withScope_restrictBy v g x)).mpr ?_
  rw [if_pos hg]
  exact hx.withScope

end GivesUnder

namespace Repeats

theorem restrictions_eq (hx : Repeats x) (h : x w = .ok a w') :
    w'.program.restrictions = w.program.restrictions := by
  obtain ⟨u, hu, hr⟩ := hx w a w' h w rfl
  cases h.symm.trans hu
  exact hr

theorem of_bind (hx : Repeats x) (h : (x >>= f) w = .ok b w') :
    ∃ a u, x w = .ok a u ∧ f a u = .ok b w' ∧ u.program.restrictions = w.program.restrictions := by
  obtain ⟨a, u, hxu, hfu⟩ := exists_of_bind_eq_ok h
  exact ⟨a, u, hxu, hfu, hx.restrictions_eq hxu⟩

theorem pure (a : α) : Repeats (Pure.pure a : M α) := by
  rintro w b w' ⟨⟩
  exact .pure a

theorem throw (e : Failure) : Repeats (MonadExcept.throw e : M α) := by
  rintro w b w' ⟨⟩

theorem bind (hx : Repeats x) (hf : ∀ a, Repeats (f a)) : Repeats (x >>= f) := by
  intro w b w' h
  obtain ⟨a, u, hxu, hfu, hr⟩ := hx.of_bind h
  exact (hx w a u hxu).bind (hr ▸ hf a u b w' hfu)

theorem ite {c : Prop} [Decidable c] {y : M α} (hx : c → Repeats x) (hy : ¬c → Repeats y) :
    Repeats (if c then x else y) := by
  split
  · exact hx ‹_›
  · exact hy ‹_›

theorem restrictions : Repeats (ask (·.restrictions)) := by
  rintro w b w' ⟨⟩
  exact .restrictions

theorem liftError (x : Except Error α) : Repeats (liftM x : M α) := by
  cases x with
  | ok a => exact .pure a
  | error e => exact .throw (.error e)

theorem withScope {s : Scope} (hx : Repeats x) : Repeats (withScope s x) := by
  intro w a w' h
  obtain ⟨u, hu⟩ := exists_of_withScope_eq_ok h
  exact (hx _ a u hu).withScope

theorem guardedScope {v : String} {g : Option Call} (hx : Repeats x) :
    Repeats (Program.withScope [] do
      if let some c := g then restrictBy (·.restrict v c)
      x) := by
  refine (congrArg Repeats (withScope_restrictBy v g x)).mpr ?_
  exact .ite (fun _ => hx.withScope) fun _ => .throw _

end Repeats

section

variable {truth : Expr → M Truth} {a b c : Domain}

theorem repeats_implies (htruth : ∀ x, Repeats (truth x)) (a b : Domain) :
    Repeats (Domain.implies truth a b) := by
  have htrue : ∀ x, Repeats (Domain.isTrue truth x) := fun x =>
    (htruth x).bind fun _ => .pure _
  unfold Domain.implies
  split
  · exact .pure _
  · exact htrue _
  · exact htrue _

theorem repeats_unify (htruth : ∀ x, Repeats (truth x)) (a b : Domain) :
    Repeats (Domain.unify truth a b) := by
  unfold Domain.unify
  split
  · exact .pure _
  · exact .pure _
  · exact .pure _
  · exact (repeats_implies htruth _ _).bind fun _ => .ite (fun _ => .pure _) fun _ => .throw _
  · exact (repeats_implies htruth _ _).bind fun _ => .ite (fun _ => .pure _) fun _ => .throw _
  · refine .ite (fun _ => .pure _) fun _ => ?_
    refine (repeats_implies htruth _ _).bind fun _ => (repeats_implies htruth _ _).bind fun _ => ?_
    exact .ite (fun _ => .pure _) fun _ => .ite (fun _ => .pure _) fun _ => .throw _

theorem repeats_arithmeticDomain (htruth : ∀ x, Repeats (truth x)) (s : Option Domain)
    (d : Domain) : Repeats (arithmeticDomain truth s d) := by
  unfold arithmeticDomain
  split
  · exact repeats_unify htruth _ _
  · exact .pure _

mutual

theorem repeats_inferExpr (htruth : ∀ x, Repeats (truth x)) :
    ∀ x : Expr, Repeats (inferExpr truth x)
  | ⟨f, d⟩ => repeats_inferForm htruth f d

theorem repeats_inferForm (htruth : ∀ x, Repeats (truth x)) :
    ∀ (f : Form) (d : Option Domain), Repeats (inferForm truth d f)
  | .var v, d => by
    rw [inferForm]
    split
    · exact .pure _
    · exact Repeats.restrictions.bind fun r => (Repeats.liftError _).bind fun _ => .pure _
  | .num _, _ => .pure _
  | .truth _, _ => .pure _
  | .automaton _, _ => .pure _
  | .arith op x y, d => by
    rw [inferForm]
    refine (repeats_inferExpr htruth x).bind fun x' => ?_
    refine (repeats_inferExpr htruth y).bind fun y' => ?_
    refine (repeats_unify htruth _ _).bind fun e => ?_
    exact (repeats_arithmeticDomain htruth _ _).bind fun _ => .pure _
  | .compare op x y, d => by
    rw [inferForm]
    refine (repeats_inferExpr htruth x).bind fun x' => ?_
    refine (repeats_inferExpr htruth y).bind fun y' => ?_
    exact .ite (fun _ => .pure _) fun _ => (repeats_unify htruth _ _).bind fun _ => .pure _
  | .and x y, d => by
    rw [inferForm]
    exact (repeats_inferExpr htruth x).bind fun _ =>
      (repeats_inferExpr htruth y).bind fun _ => .pure _
  | .or x y, d => by
    rw [inferForm]
    exact (repeats_inferExpr htruth x).bind fun _ =>
      (repeats_inferExpr htruth y).bind fun _ => .pure _
  | .not x, d => by
    rw [inferForm]
    exact (repeats_inferExpr htruth x).bind fun _ => .pure _
  | .forSome v g x, d => by
    rw [inferForm]
    exact .guardedScope ((repeats_inferExpr htruth x).bind fun _ => .pure _)
  | .call ⟨n, xs⟩, d => by
    rw [inferForm, inferCall]
    exact Repeats.bind ((repeats_inferArgs htruth xs).bind fun _ => .pure _) fun _ => .pure _
  | .index _ i, d => by
    rw [inferForm]
    exact (repeats_inferExpr htruth i).bind fun _ => .pure _
  | .rangeEq _ s e _ t f, d => by
    rw [inferForm]
    refine (repeats_inferExpr htruth s).bind fun _ => (repeats_inferExpr htruth e).bind fun _ => ?_
    exact (repeats_inferExpr htruth t).bind fun _ =>
      (repeats_inferExpr htruth f).bind fun _ => .pure _

theorem repeats_inferArgs (htruth : ∀ x, Repeats (truth x)) :
    ∀ xs : List Expr, Repeats (inferArgs truth xs)
  | [] => .pure _
  | x :: xs => by
    rw [inferArgs]
    exact (repeats_inferExpr htruth x).bind fun _ =>
      (repeats_inferArgs htruth xs).bind fun _ => .pure _

end

/-! ### Questions that are asked again -/

theorem unify_self (hk : a ≠ .pending) (r : Restrictions) :
    GivesUnder r (Domain.unify truth a a) a := by
  cases a with
  | pending => exact absurd rfl hk
  | any => exact .pure _
  | restricted c =>
    simp only [Domain.unify, if_pos]
    exact .pure _

theorem unify_pending_right (r : Restrictions) (a : Domain) :
    GivesUnder r (Domain.unify truth a .pending) a := by
  cases a <;> exact .pure _

theorem unify_swap (htruth : ∀ x, Repeats (truth x)) (ha : a ≠ .pending) (hb : b ≠ .pending)
    (h : Domain.unify truth a b w = .ok c w') : (c = a ∨ c = b) ∧
      ∃ e, (e = a ∨ e = b) ∧ GivesUnder w.program.restrictions (Domain.unify truth b a) e := by
  cases a with
  | pending => exact absurd rfl ha
  | any =>
    cases b with
    | pending => exact absurd rfl hb
    | any =>
      cases h
      exact ⟨.inl rfl, .any, .inl rfl, .pure _⟩
    | restricted d =>
      obtain ⟨i, u, hi, h⟩ := exists_of_bind_eq_ok h
      have hgives := repeats_implies htruth _ _ w i u hi
      cases i with
      | false => cases h
      | true =>
        cases h
        exact ⟨.inr rfl, .restricted d, .inr rfl, hgives.bind (.pure _)⟩
  | restricted d =>
    cases b with
    | pending => exact absurd rfl hb
    | any =>
      obtain ⟨i, u, hi, h⟩ := exists_of_bind_eq_ok h
      have hgives := repeats_implies htruth _ _ w i u hi
      cases i with
      | false => cases h
      | true =>
        cases h
        exact ⟨.inl rfl, .restricted d, .inl rfl, hgives.bind (.pure _)⟩
    | restricted e =>
      by_cases hde : d = e
      · subst hde
        simp only [Domain.unify, if_pos] at h
        cases h
        exact ⟨.inl rfl, .restricted d, .inl rfl, unify_self (a := .restricted d) nofun _⟩
      simp only [Domain.unify, if_neg hde] at h
      obtain ⟨i, u, hi, h, hr⟩ := (repeats_implies htruth _ _).of_bind h
      obtain ⟨o, v, ho, h⟩ := exists_of_bind_eq_ok h
      have hinner := repeats_implies htruth _ _ w i u hi
      have houter := hr ▸ repeats_implies htruth _ _ u o v ho
      simp only [Domain.unify, if_neg (Ne.symm hde)]
      cases i with
      | true =>
        cases h
        cases o with
        | true => exact ⟨.inl rfl, .restricted e, .inr rfl, houter.bind (hinner.bind (.pure _))⟩
        | false => exact ⟨.inl rfl, .restricted d, .inl rfl, houter.bind (hinner.bind (.pure _))⟩
      | false =>
        cases o with
        | true =>
          cases h
          exact ⟨.inr rfl, .restricted e, .inr rfl, houter.bind (hinner.bind (.pure _))⟩
        | false => cases h

theorem unify_found (htruth : ∀ x, Repeats (truth x)) {d : Option Domain} {e k : Domain}
    (h : arithmeticDomain truth d c w = .ok e w') (hk : k ≠ .pending)
    (he : e = k ∨ e = .pending) (hc : c ≠ .pending) :
    GivesUnder w.program.restrictions (Domain.unify truth k c) k := by
  cases hd : Domain.known? d with
  | none =>
    simp only [arithmeticDomain, hd] at h
    cases h
    obtain rfl := he.resolve_right hc
    exact unify_self hc _
  | some s =>
    simp only [arithmeticDomain, hd] at h
    have hs := (Domain.known?_eq_some.1 hd).2
    obtain rfl | rfl := (unify_swap htruth hs hc h).1
    · obtain rfl := he.resolve_right hs
      exact repeats_unify htruth _ _ w _ w' h
    · obtain rfl := he.resolve_right hc
      exact unify_self hc _

theorem unify_settled (htruth : ∀ x, Repeats (truth x)) {d : Option Domain} {e k : Domain}
    {w₁ w₂ : Workspace}
    (h : Domain.unify truth a b w = .ok c w₁) (h' : arithmeticDomain truth d c w₁ = .ok e w₂)
    (hk : k ≠ .pending) (he : e = k ∨ e = .pending) :
    ∃ c', GivesUnder w.program.restrictions (Domain.unify truth (a.filled k) (b.filled k)) c' ∧
      GivesUnder w.program.restrictions (Domain.unify truth k c') k := by
  have hfound : c ≠ .pending → GivesUnder w.program.restrictions (Domain.unify truth k c) k :=
    fun hc => (repeats_unify htruth a b).restrictions_eq h ▸ unify_found htruth h' hk he hc
  by_cases ha : a = .pending
  · subst ha
    by_cases hb : b = .pending
    · subst hb
      exact ⟨k, unify_self hk _, unify_self hk _⟩
    · cases h
      rw [Domain.filled_of_ne hb]
      exact ⟨k, hfound hb, unify_self hk _⟩
  rw [Domain.filled_of_ne ha]
  by_cases hb : b = .pending
  · subst hb
    have hgives : GivesUnder w.program.restrictions (Domain.unify truth a .pending) a :=
      unify_pending_right _ a
    obtain ⟨u, hu, -⟩ := hgives w rfl
    cases h.symm.trans hu
    -- The stated domain was on the left before; now it is on the right.
    obtain ⟨v, hv, -⟩ := hfound ha w rfl
    obtain ⟨-, c', rfl | rfl, hc'⟩ := unify_swap htruth hk ha hv
    · exact ⟨_, hc', unify_self hk _⟩
    · exact ⟨_, hc', hfound ha⟩
  · rw [Domain.filled_of_ne hb]
    have hc : c ≠ .pending := by
      obtain rfl | rfl := (unify_swap htruth ha hb h).1
      · exact ha
      · exact hb
    exact ⟨c, repeats_unify htruth a b w c w₁ h, hfound hc⟩

end

/-! ### Annotated expressions -/

abbrev IsFixed (truth : Expr → M Truth) (r : Restrictions) (x : Expr) : Prop :=
  GivesUnder r (inferExpr truth x) x

/-- Inference gives the expression back once it is closed, also if it is settled before. -/
structure Ready (truth : Expr → M Truth) (r : Restrictions) (x : Expr) : Prop where
  closed : IsFixed truth r x.close
  settled : ∀ k : Domain, k ≠ .pending → IsFixed truth r (x.settle k).close

section

variable {truth : Expr → M Truth}

theorem Ready.of_form {f : Form} {d : Option Domain} (hf : ∀ k, f.settle k = f)
    (h : ∀ d', IsFixed truth r ⟨f.close, d'⟩) : Ready truth r ⟨f, d⟩ where
  closed := Expr.close_mk f d ▸ h _
  settled k _ := by
    cases hd : Domain.known? d with
    | some e =>
      obtain ⟨rfl, he⟩ := Domain.known?_eq_some.1 hd
      rw [Expr.settle_of_known he, Expr.close_mk]
      exact h _
    | none =>
      rw [Expr.settle_of_unknown hd, hf, Expr.close_mk]
      exact h _

theorem isFixed_var {v : String} {k : Domain} (hk : k ≠ .pending) :
    IsFixed truth r ⟨.var v, some k⟩ := by
  rw [IsFixed, inferExpr, inferForm, Domain.known?_some hk]
  exact .pure _

theorem ready_num (n : Nat) (k : Domain) : Ready truth r ⟨.num n, some k⟩ := by
  have hfixed : ∀ k, IsFixed truth r ⟨.num n, some k⟩ := fun k => .pure _
  refine ⟨?_, fun k' hk' => ?_⟩
  · cases k <;> exact hfixed _
  · by_cases hk : k = .pending
    · subst hk
      rw [Expr.settle_of_unknown rfl, Expr.close_mk, closeDomain_of_ne hk']
      exact hfixed k'
    · rw [Expr.settle_of_known hk, Expr.close_mk, closeDomain_of_ne hk]
      exact hfixed k

theorem isFixed_arith {op : Operation} {x y : Expr} {a b c k : Domain} (hx : IsFixed truth r x)
    (hy : IsFixed truth r y) (hxa : x.domain = some a) (hyb : y.domain = some b)
    (ha : a ≠ .pending) (hb : b ≠ .pending) (hk : k ≠ .pending)
    (hc : GivesUnder r (Domain.unify truth a b) c) (hck : GivesUnder r (Domain.unify truth k c) k) :
    IsFixed truth r ⟨.arith op x y, some k⟩ := by
  obtain ⟨f, d⟩ := x
  obtain ⟨g, e⟩ := y
  obtain rfl : d = some a := hxa
  obtain rfl : e = some b := hyb
  rw [IsFixed, inferExpr, inferForm]
  refine hx.bind (hy.bind (hc.bind ?_))
  refine GivesUnder.bind (a := k) ?_ ?_
  · rw [arithmeticDomain, Domain.known?_some hk]
    exact hck
  · rw [Expr.settle_of_known ha, Expr.settle_of_known hb]
    exact .pure _

theorem isFixed_compare {op : Comparison} {x y : Expr} {a b c : Domain} {d : Option Domain}
    (hx : IsFixed truth r x) (hy : IsFixed truth r y) (hxa : x.domain = some a)
    (hyb : y.domain = some b) (ha : a ≠ .pending) (hb : b ≠ .pending)
    (hkind : (x.isFormula || y.isFormula) = false)
    (hc : GivesUnder r (Domain.unify truth a b) c) : IsFixed truth r ⟨.compare op x y, d⟩ := by
  obtain ⟨f, e⟩ := x
  obtain ⟨g, e'⟩ := y
  obtain rfl : e = some a := hxa
  obtain rfl : e' = some b := hyb
  rw [IsFixed, inferExpr, inferForm, hkind]
  refine hx.bind (hy.bind (hc.bind ?_))
  rw [Expr.settle_of_known ha, Expr.settle_of_known hb]
  exact .pure _

theorem isFixed_compare_formulas {op : Comparison} {x y : Expr} {d : Option Domain}
    (hx : IsFixed truth r x) (hy : IsFixed truth r y)
    (hkind : (x.isFormula || y.isFormula) = true) : IsFixed truth r ⟨.compare op x y, d⟩ := by
  rw [IsFixed, inferExpr, inferForm, hkind]
  exact hx.bind (hy.bind (.pure _))

theorem isFormula_settle_close (k : Domain) (x : Expr) :
    (x.settle k).close.isFormula = x.isFormula :=
  ((Expr.fills_settle k x).trans (Expr.fills_close _)).isFormula

section

variable {x y : Expr} {c : Domain} {w₁ w₂ : Workspace}

/-- Arithmetic over operands that were settled with its domain. Without a domain, it is settled
later, with the operands, or closed as all numbers. -/
theorem ready_arith (htruth : ∀ x, Repeats (truth x)) {op : Operation} {d : Option Domain}
    {e : Domain}
    (hx : Ready truth w.program.restrictions x) (hy : Ready truth w.program.restrictions y)
    (hc : Domain.unify truth x.stated y.stated w = .ok c w₁)
    (he : arithmeticDomain truth d c w₁ = .ok e w₂) :
    Ready truth w.program.restrictions ⟨.arith op (x.settle e) (y.settle e), some e⟩ := by
  have hnode : ∀ k, k ≠ .pending → e = k ∨ e = .pending → IsFixed truth w.program.restrictions
      ⟨.arith op (x.settle k).close (y.settle k).close, some k⟩ := by
    intro k hk hek
    obtain ⟨c', hc', hck⟩ := unify_settled htruth hc he hk hek
    exact isFixed_arith (hx.settled k hk) (hy.settled k hk) (Expr.domain_close_settle hk x)
      (Expr.domain_close_settle hk y) (Domain.filled_ne_pending hk) (Domain.filled_ne_pending hk)
      hk hc' hck
  by_cases hpending : e = .pending
  · subst hpending
    constructor
    · rw [Expr.close_mk, Form.close, Expr.close_settle_pending, Expr.close_settle_pending]
      exact hnode .any nofun (.inr rfl)
    · intro k hk
      rw [Expr.settle_of_unknown rfl, Form.settle, Expr.settle_pending_settle hk,
        Expr.settle_pending_settle hk, Expr.close_mk, closeDomain_of_ne hk]
      exact hnode k hk (.inr rfl)
  · have hclosed := hnode e hpending (.inl rfl)
    rw [← closeDomain_of_ne hpending] at hclosed
    refine ⟨(Expr.close_mk _ _).symm ▸ hclosed, fun k _ => ?_⟩
    rw [Expr.settle_of_known hpending, Expr.close_mk]
    exact hclosed

theorem ready_compare (htruth : ∀ x, Repeats (truth x)) {op : Comparison} {d : Option Domain}
    (hx : Ready truth w.program.restrictions x) (hy : Ready truth w.program.restrictions y)
    (hkind : (x.isFormula || y.isFormula) = false)
    (hc : Domain.unify truth x.stated y.stated w = .ok c w₁) :
    Ready truth w.program.restrictions ⟨.compare op (x.settle c) (y.settle c), d⟩ := by
  obtain ⟨k, hk, hck, hclose⟩ : ∃ k, k ≠ .pending ∧ (c = k ∨ c = .pending) ∧
      ∀ x : Expr, (x.settle c).close = (x.settle k).close := by
    by_cases hpending : c = .pending
    · exact ⟨.any, nofun, .inr hpending, fun x => hpending ▸ Expr.close_settle_pending x⟩
    · exact ⟨c, hpending, .inl rfl, fun _ => rfl⟩
  have hnone : arithmeticDomain truth none c w₁ = .ok c w₁ := rfl
  obtain ⟨c', hc', -⟩ := unify_settled htruth hc hnone hk hck
  refine .of_form (fun _ => rfl) fun d' => ?_
  rw [Form.close, hclose, hclose]
  refine isFixed_compare (hx.settled k hk) (hy.settled k hk) (Expr.domain_close_settle hk x)
    (Expr.domain_close_settle hk y) (Domain.filled_ne_pending hk) (Domain.filled_ne_pending hk)
    ?_ hc'
  rwa [isFormula_settle_close, isFormula_settle_close]

theorem domainOf_ne_pending {v : String} {k : Domain} (h : r.domainOf v = .ok k) :
    k ≠ .pending := by
  rw [Restrictions.domainOf] at h
  split at h
  · obtain ⟨-, -, h⟩ := Answers.of_bind h
    cases h
    simp
  · cases h
    simp

/-- Whatever inference makes of the expression, it gives back. -/
def Prepares (truth : Expr → M Truth) (x : Expr) : Prop :=
  ∀ ⦃y : Expr⦄ ⦃w w' : Workspace⦄, inferExpr truth x w = .ok y w' →
    Ready truth w.program.restrictions y

def PreparesArgs (truth : Expr → M Truth) (xs : List Expr) : Prop :=
  ∀ ⦃ys : List Expr⦄ ⦃w w' : Workspace⦄, inferArgs truth xs w = .ok ys w' →
    GivesUnder w.program.restrictions (inferArgs truth (closeArgs ys)) (closeArgs ys)

section

variable {x z : Expr} {xs : List Expr}

theorem prepares_var (v : String) (d : Option Domain) : Prepares truth ⟨.var v, d⟩ := by
  intro y w w' h
  have hfixed : ∀ k : Domain, k ≠ .pending →
      Ready truth w.program.restrictions ⟨.var v, some k⟩ := by
    intro k hk
    refine ⟨?_, fun k' _ => ?_⟩
    · rw [Expr.close_mk, closeDomain_of_ne hk]
      exact isFixed_var hk
    · rw [Expr.settle_of_known hk, Expr.close_mk, closeDomain_of_ne hk]
      exact isFixed_var hk
  rw [inferExpr] at h
  cases hd : Domain.known? d with
  | some k =>
    simp only [inferForm, hd] at h
    cases h
    exact hfixed k (Domain.known?_eq_some.1 hd).2
  | none =>
    simp only [inferForm, hd] at h
    obtain ⟨r, w₁, -, h⟩ := exists_of_bind_eq_ok h
    obtain ⟨k, w₂, hk, h⟩ := exists_of_bind_eq_ok h
    cases h
    cases hdomain : r.domainOf v with
    | error e =>
      rw [hdomain] at hk
      cases hk
    | ok k' =>
      rw [hdomain] at hk
      cases hk
      exact hfixed _ (domainOf_ne_pending hdomain)

section

variable (htruth : ∀ x, Repeats (truth x))

include htruth

theorem prepares_arith (op : Operation) (d : Option Domain) (hx : Prepares truth x)
    (hz : Prepares truth z) : Prepares truth ⟨.arith op x z, d⟩ := by
  intro y w w' h
  rw [inferExpr, inferForm] at h
  obtain ⟨x', w₁, hrun, h, h₁⟩ := (repeats_inferExpr htruth x).of_bind h
  obtain ⟨z', w₂, hrun', h, h₂⟩ := (repeats_inferExpr htruth z).of_bind h
  obtain ⟨c, w₃, hc, h⟩ := exists_of_bind_eq_ok h
  obtain ⟨e, w₄, he, h⟩ := exists_of_bind_eq_ok h
  cases h
  have hx' := hx hrun
  have hz' := hz hrun'
  rw [← h₁, ← h₂] at hx' ⊢
  rw [← h₂] at hz'
  exact ready_arith htruth hx' hz' hc he

theorem prepares_compare (op : Comparison) (d : Option Domain) (hx : Prepares truth x)
    (hz : Prepares truth z) : Prepares truth ⟨.compare op x z, d⟩ := by
  intro y w w' h
  rw [inferExpr, inferForm] at h
  obtain ⟨x', w₁, hrun, h, h₁⟩ := (repeats_inferExpr htruth x).of_bind h
  obtain ⟨z', w₂, hrun', h, h₂⟩ := (repeats_inferExpr htruth z).of_bind h
  have hx' := hx hrun
  have hz' := hz hrun'
  rw [← h₁, ← h₂] at hx' ⊢
  rw [← h₂] at hz'
  have hkind : (x'.isFormula || z'.isFormula) = (x.isFormula || z.isFormula) := by
    rw [(annotates x hrun).isFormula, (annotates z hrun').isFormula]
  split at h
  · rename_i hformulas
    cases h
    refine .of_form (fun _ => rfl) fun d' => isFixed_compare_formulas hx'.closed hz'.closed ?_
    rw [(Expr.fills_close x').isFormula, (Expr.fills_close z').isFormula, hkind]
    exact hformulas
  · rename_i hformulas
    obtain ⟨c, w₃, hc, h⟩ := exists_of_bind_eq_ok h
    cases h
    exact ready_compare htruth hx' hz' (hkind.trans (Bool.eq_false_iff.2 hformulas)) hc

/-- A form with two operands, which keeps its annotation. -/
theorem prepares_two {f : Expr → Expr → Form}
    (hinfer : ∀ d x z, inferForm truth d (f x z) =
      do return ⟨f (← inferExpr truth x) (← inferExpr truth z), d⟩)
    (hclose : ∀ x z, (f x z).close = f x.close z.close)
    (hsettle : ∀ k x z, (f x z).settle k = f x z) (d : Option Domain)
    (hx : Prepares truth x) (hz : Prepares truth z) : Prepares truth ⟨f x z, d⟩ := by
  intro y w w' h
  rw [inferExpr, hinfer] at h
  obtain ⟨x', w₁, hrun, h, h₁⟩ := (repeats_inferExpr htruth x).of_bind h
  obtain ⟨z', w₂, hrun', h⟩ := exists_of_bind_eq_ok h
  cases h
  have hx' := (hx hrun).closed
  have hz' := (h₁ ▸ hz hrun').closed
  refine .of_form (hsettle · x' z') fun d' => ?_
  rw [IsFixed, hclose, inferExpr, hinfer]
  exact hx'.bind (hz'.bind (.pure _))

theorem prepares_and (d : Option Domain) (hx : Prepares truth x) (hz : Prepares truth z) :
    Prepares truth ⟨.and x z, d⟩ :=
  prepares_two htruth (fun _ _ _ => by rw [inferForm]) (fun _ _ => by rw [Form.close])
    (fun _ _ _ => rfl) d hx hz

theorem prepares_or (d : Option Domain) (hx : Prepares truth x) (hz : Prepares truth z) :
    Prepares truth ⟨.or x z, d⟩ :=
  prepares_two htruth (fun _ _ _ => by rw [inferForm]) (fun _ _ => by rw [Form.close])
    (fun _ _ _ => rfl) d hx hz

theorem prepares_rangeEq {s e t f : Expr} (name name' : String) (d : Option Domain)
    (hs : Prepares truth s) (he : Prepares truth e) (ht : Prepares truth t)
    (hf : Prepares truth f) : Prepares truth ⟨.rangeEq name s e name' t f, d⟩ := by
  intro y w w' h
  rw [inferExpr, inferForm] at h
  obtain ⟨s', w₁, hrun₁, h, h₁⟩ := (repeats_inferExpr htruth s).of_bind h
  obtain ⟨e', w₂, hrun₂, h, h₂⟩ := (repeats_inferExpr htruth e).of_bind h
  obtain ⟨t', w₃, hrun₃, h, h₃⟩ := (repeats_inferExpr htruth t).of_bind h
  obtain ⟨f', w₄, hrun₄, h⟩ := exists_of_bind_eq_ok h
  cases h
  have hs' := (hs hrun₁).closed
  have he' := (h₁ ▸ he hrun₂).closed
  have ht' := (h₂.trans h₁ ▸ ht hrun₃).closed
  have hf' := (h₃.trans (h₂.trans h₁) ▸ hf hrun₄).closed
  refine .of_form (fun _ => rfl) fun d' => ?_
  rw [IsFixed, Form.close, inferExpr, inferForm]
  exact hs'.bind (he'.bind (ht'.bind (hf'.bind (.pure _))))

theorem preparesArgs_cons (hx : Prepares truth x) (hxs : PreparesArgs truth xs) :
    PreparesArgs truth (x :: xs) := by
  intro ys w w' h
  rw [inferArgs] at h
  obtain ⟨x', w₁, hrun, h, h₁⟩ := (repeats_inferExpr htruth x).of_bind h
  obtain ⟨ys', w₂, hrun', h⟩ := exists_of_bind_eq_ok h
  cases h
  have hx' := (hx hrun).closed
  have hxs' := h₁ ▸ hxs hrun'
  rw [closeArgs, inferArgs]
  exact hx'.bind (hxs'.bind (.pure _))

end

/-- A form with one operand, which keeps its annotation. -/
theorem prepares_one {f : Expr → Form}
    (hinfer : ∀ d x, inferForm truth d (f x) = do return ⟨f (← inferExpr truth x), d⟩)
    (hclose : ∀ x, (f x).close = f x.close) (hsettle : ∀ k x, (f x).settle k = f x)
    (d : Option Domain) (hx : Prepares truth x) : Prepares truth ⟨f x, d⟩ := by
  intro y w w' h
  rw [inferExpr, hinfer] at h
  obtain ⟨x', w₁, hrun, h⟩ := exists_of_bind_eq_ok h
  cases h
  refine .of_form (hsettle · x') fun d' => ?_
  rw [IsFixed, hclose, inferExpr, hinfer]
  exact (hx hrun).closed.bind (.pure _)

theorem prepares_not (d : Option Domain) (hx : Prepares truth x) :
    Prepares truth ⟨.not x, d⟩ :=
  prepares_one (fun _ _ => by rw [inferForm]) (fun _ => by rw [Form.close]) (fun _ _ => rfl) d hx

theorem prepares_forSome (v : String) (g : Option Call) (d : Option Domain)
    (hx : Prepares truth x) : Prepares truth ⟨.forSome v g x, d⟩ := by
  intro y w w' h
  rw [inferExpr, inferForm] at h
  obtain ⟨hg, h⟩ := of_guardedScope h
  obtain ⟨w₁, h⟩ := exists_of_withScope_eq_ok h
  obtain ⟨x', w₂, hrun, h⟩ := exists_of_bind_eq_ok h
  cases h
  refine .of_form (fun _ => rfl) fun d' => ?_
  rw [IsFixed, Form.close, inferExpr, inferForm]
  exact .guardedScope hg ((hx hrun).closed.bind (.pure _))

theorem prepares_call (n : String) (d : Option Domain) (hxs : PreparesArgs truth xs) :
    Prepares truth ⟨.call ⟨n, xs⟩, d⟩ := by
  intro y w w' h
  rw [inferExpr, inferForm, inferCall] at h
  obtain ⟨c, w₁, hc, h⟩ := exists_of_bind_eq_ok h
  obtain ⟨ys, w₂, hrun, hc⟩ := exists_of_bind_eq_ok hc
  cases hc
  cases h
  refine .of_form (fun _ => rfl) fun d' => ?_
  rw [IsFixed, Form.close, Call.close, inferExpr, inferForm, inferCall]
  exact GivesUnder.bind ((hxs hrun).bind (.pure _)) (.pure _)

theorem prepares_index (name : String) (d : Option Domain) (hx : Prepares truth x) :
    Prepares truth ⟨.index name x, d⟩ :=
  prepares_one (fun _ _ => by rw [inferForm]) (fun _ => by rw [Form.close]) (fun _ _ => rfl) d hx

end

mutual

theorem prepares (htruth : ∀ x, Repeats (truth x)) : ∀ x : Expr, Prepares truth x
  | ⟨f, d⟩ => prepares_form htruth f d

theorem prepares_form (htruth : ∀ x, Repeats (truth x)) :
    ∀ (f : Form) (d : Option Domain), Prepares truth ⟨f, d⟩
  | .var v, d => prepares_var v d
  | .num n, d => fun _ _ _ h => by
    cases h
    exact ready_num n _
  | .truth _, _ | .automaton _, _ => fun _ _ _ h => by
    cases h
    exact .of_form (fun _ => rfl) fun _ => .pure _
  | .arith op x z, d => prepares_arith htruth op d (prepares htruth x) (prepares htruth z)
  | .compare op x z, d => prepares_compare htruth op d (prepares htruth x) (prepares htruth z)
  | .and x z, d => prepares_and htruth d (prepares htruth x) (prepares htruth z)
  | .or x z, d => prepares_or htruth d (prepares htruth x) (prepares htruth z)
  | .not x, d => prepares_not d (prepares htruth x)
  | .forSome v g x, d => prepares_forSome v g d (prepares htruth x)
  | .call ⟨n, xs⟩, d => prepares_call n d (preparesArgs htruth xs)
  | .index name i, d => prepares_index name d (prepares htruth i)
  | .rangeEq name s e name' t f, d =>
    prepares_rangeEq htruth name name' d (prepares htruth s) (prepares htruth e)
      (prepares htruth t) (prepares htruth f)

theorem preparesArgs (htruth : ∀ x, Repeats (truth x)) : ∀ xs : List Expr, PreparesArgs truth xs
  | [] => fun _ _ _ h => by
    cases h
    exact .pure _
  | x :: xs => preparesArgs_cons htruth (prepares htruth x) (preparesArgs htruth xs)

end

/-- What inference gave is given back by it, wherever the same restrictions are in force. -/
theorem infer_infer (htruth : ∀ x, Repeats (truth x)) {v : Workspace}
    (h : infer truth x w = .ok y w') (hv : v.program.restrictions = w.program.restrictions) :
    ∃ v', infer truth y v = .ok y v' ∧ v'.program.restrictions = v.program.restrictions := by
  obtain ⟨z, w₁, hz, h⟩ := exists_of_bind_eq_ok h
  cases h
  have hclosed : GivesUnder v.program.restrictions (infer truth z.close) z.close.close :=
    (hv ▸ (prepares htruth x hz).closed).bind (.pure _)
  rw [Expr.close_close] at hclosed
  exact hclosed v rfl

end

end

/-- A variable takes over the domain of the number that it is compared with, when all questions
about domains are answered in the affirmative. -/
theorem infer_infer_compared : ∃ w y w', infer (fun _ => pure .always)
      (.equal (.var "x") ⟨.num 2, some (.restricted ⟨"even", [.var selfName]⟩)⟩) w = .ok y w' ∧
    ∃ v', infer (fun _ => pure .always) y w' = .ok y v' ∧
      v'.program.restrictions = w'.program.restrictions := by
  let w : Workspace := ⟨⟨default, #[], 0, none⟩, .blank ⟨6, none, true, true⟩⟩
  have hrepeats : ∀ _ : Expr, Repeats (pure .always : M Truth) := fun _ => .pure _
  have hrun : ∃ y, infer (fun _ => pure .always)
      (.equal (.var "x") ⟨.num 2, some (.restricted ⟨"even", [.var selfName]⟩)⟩) w = .ok y w :=
    ⟨_, rfl⟩
  obtain ⟨y, hrun⟩ := hrun
  exact ⟨w, y, w, hrun, infer_infer hrepeats hrun rfl⟩

end Program

end RegularArithmetic

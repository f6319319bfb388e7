import RegularArithmetic.Proofs.Meaning.FreeVariables

/-!
Putting one variable for another in a formula. A formula that admits it says of the second variable
what it said of the first. It does not admit it if the name of a relation or a variable of a literal
is the first variable, and if a quantifier over the second variable has the first in its scope: the
substitution changes the one, leaves the other as it is, and is captured by the third.
-/

set_option autoImplicit false

namespace RegularArithmetic

mutual

/-- The variables that are quantified in a formula. -/
def Expr.binders : Expr → List String
  | ⟨f, _⟩ => f.binders

def Form.binders : Form → List String
  | .compare _ x y => x.binders ++ y.binders
  | .and x y => x.binders ++ y.binders
  | .or x y => x.binders ++ y.binders
  | .not x => x.binders
  | .forSome v _ x => v :: x.binders
  | _ => []

end

section

variable (a b : String)

mutual

/-- Putting `b` for `a` reaches all that the formula says of `a`, and changes nothing else. Since a
guard is also asked of the values of inner quantifiers over its variable, no guard for these has
`a` in it. -/
def Expr.Admits : Expr → Prop
  | ⟨f, _⟩ => f.Admits

def Form.Admits : Form → Prop
  | .compare _ x y => x.Admits ∧ y.Admits
  | .and x y => x.Admits ∧ y.Admits
  | .or x y => x.Admits ∧ y.Admits
  | .not x => x.Admits
  | .forSome v g x => v = a ∨ x.Admits ∧ (v = b → a ∉ guardVars g ++ x.freeVars) ∧
    (a ∈ guardVars g → v ∉ x.binders)
  | .automaton l => a ∉ l.vars.map (·.1)
  | .index w _ => w ≠ a
  | .rangeEq w _ _ u _ _ => w ≠ a ∧ u ≠ a
  | _ => True

end

end

section

variable {I : Interpretation} {B B' : Bounds} {a b v : String} {vs : List String} {g : Option Call}
  {n : Nat} {τ : Valuation}

mutual

/-- What is asked of the values of a variable matters only where it is quantified. -/
theorem Expr.holds_congr_bounds : ∀ {x : Expr} {B B' : Bounds} {n : Nat} {τ : Valuation},
    (∀ v ∈ x.binders, ∀ n τ, B v n τ ↔ B' v n τ) → (x.Holds I B n τ ↔ x.Holds I B' n τ)
  | ⟨f, _⟩, _, _, _, _, h => Form.holds_congr_bounds (f := f) h

theorem Form.holds_congr_bounds : ∀ {f : Form} {B B' : Bounds} {n : Nat} {τ : Valuation},
    (∀ v ∈ f.binders, ∀ n τ, B v n τ ↔ B' v n τ) → (f.Holds I B n τ ↔ f.Holds I B' n τ)
  | .and x y, _, _, _, _, h =>
    have ⟨hx, hy⟩ := List.forall_mem_append.1 h
    and_congr (Expr.holds_congr_bounds hx) (Expr.holds_congr_bounds hy)
  | .or x y, _, _, _, _, h =>
    have ⟨hx, hy⟩ := List.forall_mem_append.1 h
    or_congr (Expr.holds_congr_bounds hx) (Expr.holds_congr_bounds hy)
  | .not x, _, _, _, _, h => not_congr (Expr.holds_congr_bounds (x := x) h)
  | .forSome v g x, B, B', _, τ, h => by
    have ⟨hv, hx⟩ := List.forall_mem_cons.1 h
    refine exists_congr fun m => and_congr_right fun _ => exists_congr fun c =>
      and_congr_right fun _ => and_congr_right fun _ => and_congr (hv _ _) ?_
    exact Expr.holds_congr_bounds fun u hu n τ => and_congr_left' (hx u hu n τ)
  | .compare op x y, _, _, _, _, h => by
    obtain ⟨hx, hy⟩ := List.forall_mem_append.1 h
    simp only [Form.Holds, Expr.holds_congr_bounds hx, Expr.holds_congr_bounds hy]
  | .truth _, _, _, _, _, _ => Iff.rfl
  | .call _, _, _, _, _, _ => Iff.rfl
  | .automaton _, _, _, _, _, _ => Iff.rfl
  | .index .., _, _, _, _, _ => Iff.rfl
  | .rangeEq .., _, _, _, _, _ => Iff.rfl
  | .var _, _, _, _, _, _ => Iff.rfl
  | .num _, _, _, _, _, _ => Iff.rfl
  | .arith .., _, _, _, _, _ => Iff.rfl

end

/-! ### Variables that are not free -/

/-- What is asked of the values of these variables, other than `a`, is not about `a`. -/
def Bounds.Ignores (B : Bounds) (a : String) (vs : List String) : Prop :=
  ∀ v ∈ vs, v ≠ a → ∀ n τ c, B v n (Function.update τ a c) ↔ B v n τ

theorem update_eq_of_notMem (h : a ∉ vs) (c : Nat) : ∀ v ∈ vs, Function.update τ a c v = τ v := by
  intro v hv
  refine Function.update_of_ne ?_ c τ
  rintro rfl
  exact h hv

theorem guardHolds_update (h : a ∉ guardVars g) (c : Nat) :
    GuardHolds I g n (Function.update τ a c) ↔ GuardHolds I g n τ := by
  refine forall₂_congr fun call hcall => Call.holds_iff_of_freeVars ?_ n
  rw [Option.mem_def] at hcall
  subst hcall
  exact update_eq_of_notMem h c

theorem Bounds.Ignores.restrict (h : B.Ignores a (v :: vs)) (hg : a ∈ guardVars g → v ∉ vs) :
    (B.restrict v (GuardHolds I g)).Ignores a vs := by
  intro u hu hne n τ c
  refine and_congr (h u (List.mem_cons_of_mem v hu) hne n τ c) (imp_congr_right fun huv => ?_)
  exact guardHolds_update (fun hmem => hg hmem (huv ▸ hu)) c

mutual

/-- A formula says nothing of a variable that is not free in it. -/
theorem Expr.holds_update : ∀ {x : Expr} {B : Bounds} {n : Nat} {τ : Valuation} (c : Nat),
    a ∉ x.freeVars → B.Ignores a x.binders →
      (x.Holds I B n (Function.update τ a c) ↔ x.Holds I B n τ)
  | ⟨f, _⟩, _, _, _, c, ha, hB => Form.holds_update (f := f) c ha hB

theorem Form.holds_update : ∀ {f : Form} {B : Bounds} {n : Nat} {τ : Valuation} (c : Nat),
    a ∉ f.freeVars → B.Ignores a f.binders →
      (f.Holds I B n (Function.update τ a c) ↔ f.Holds I B n τ)
  | .and x y, _, _, _, c, ha, hB => by
    rw [Form.freeVars, List.mem_append, not_or] at ha
    obtain ⟨hx, hy⟩ := List.forall_mem_append.1 hB
    exact and_congr (Expr.holds_update c ha.1 hx) (Expr.holds_update c ha.2 hy)
  | .or x y, _, _, _, c, ha, hB => by
    rw [Form.freeVars, List.mem_append, not_or] at ha
    obtain ⟨hx, hy⟩ := List.forall_mem_append.1 hB
    exact or_congr (Expr.holds_update c ha.1 hx) (Expr.holds_update c ha.2 hy)
  | .not x, _, _, _, c, ha, hB => not_congr (Expr.holds_update (x := x) c ha hB)
  | .forSome v g x, B, n, τ, c, ha, hB => by
    refine exists_congr fun m => and_congr_right fun _ => exists_congr fun d =>
      and_congr_right fun _ => ?_
    by_cases hv : v = a
    · subst hv
      rw [Function.update_idem]
    · have ha : a ∉ guardVars g ++ x.freeVars := fun hmem =>
        ha (List.mem_filter.2 ⟨hmem, by simpa using Ne.symm hv⟩)
      rw [List.mem_append, not_or] at ha
      rw [Function.update_comm (Ne.symm hv)]
      refine and_congr (guardHolds_update ha.1 c) (and_congr (hB v List.mem_cons_self hv m _ c) ?_)
      exact Expr.holds_update c ha.2 (hB.restrict fun hg => absurd hg ha.1)
  | .call call, _, n, _, c, ha, _ =>
    Call.holds_iff_of_freeVars (c := call) (update_eq_of_notMem ha c) n
  | .automaton l, _, n, τ, c, ha, _ => by
    have hvalues : (l.vars.map fun v => Function.update τ a c v.1) = l.vars.map fun v => τ v.1 :=
      List.map_congr_left fun v hv => update_eq_of_notMem ha c v.1 (List.mem_map_of_mem hv)
    exact iff_of_eq (congrArg (I.literal l n) hvalues)
  | .index w i, _, _, _, c, ha, _ => by
    simp only [Form.Holds, Expr.operand_eq_of_freeVars (x := i) (update_eq_of_notMem ha c)]
  | .rangeEq w s e u t f, _, _, _, c, ha, _ => by
    simp only [Form.freeVars, List.mem_append, not_or] at ha
    obtain ⟨⟨hs, he⟩, ht, hf⟩ := ha
    simp only [Form.Holds, Expr.operand_eq_of_freeVars (update_eq_of_notMem hs c),
      Expr.operand_eq_of_freeVars (update_eq_of_notMem he c),
      Expr.operand_eq_of_freeVars (update_eq_of_notMem ht c),
      Expr.operand_eq_of_freeVars (update_eq_of_notMem hf c)]
  | .compare op x y, _, _, _, c, ha, hB => by
    rw [Form.freeVars, List.mem_append, not_or] at ha
    obtain ⟨hx, hy⟩ := List.forall_mem_append.1 hB
    simp only [Form.Holds, Expr.operand_eq_of_freeVars (update_eq_of_notMem ha.1 c),
      Expr.operand_eq_of_freeVars (update_eq_of_notMem ha.2 c), Expr.holds_update c ha.1 hx,
      Expr.holds_update c ha.2 hy]
  | .truth _, _, _, _, _, _, _ => Iff.rfl
  | .var _, _, _, _, _, _, _ => Iff.rfl
  | .num _, _, _, _, _, _, _ => Iff.rfl
  | .arith .., _, _, _, _, _, _ => Iff.rfl

end

/-! ### Substitution -/

theorem guardHolds_subst (g : Option Call) (n : Nat) (τ : Valuation) :
    GuardHolds I (substGuard a b g) n τ ↔ GuardHolds I g n (Function.update τ a (τ b)) := by
  cases g with
  | none => exact iff_of_true nofun nofun
  | some c =>
    simp only [GuardHolds, substGuard, Option.mem_some_iff, forall_eq']
    exact Call.holds_subst c n τ

theorem restrict_subst_iff (hg : a ∈ guardVars g → v ∉ vs) :
    ∀ u ∈ vs, ∀ n τ, B.restrict v (GuardHolds I (substGuard a b g)) u n τ ↔
      B.restrict v (GuardHolds I g) u n τ := by
  intro u hu n τ
  refine and_congr_right fun _ => imp_congr_right fun huv => ?_
  rw [guardHolds_subst]
  exact guardHolds_update (fun hmem => hg hmem (huv ▸ hu)) (τ b)

theorem Bounds.Ignores.congr (h : B.Ignores a vs) (hB : ∀ v ∈ vs, ∀ n τ, B' v n τ ↔ B v n τ) :
    B'.Ignores a vs := by
  intro v hv hne n τ c
  rw [hB v hv, hB v hv]
  exact h v hv hne n τ c

/-- The value of `a` that was taken over from `b` outside a quantifier is the one inside, unless the
quantifier is over `b`. -/
theorem update_outside_iff {P : Valuation → Prop} {c : Nat}
    (h : v = b → ∀ d, P (Function.update (Function.update τ v c) a d) ↔ P (Function.update τ v c)) :
    P (Function.update (Function.update τ v c) a (Function.update τ v c b)) ↔
      P (Function.update (Function.update τ v c) a (τ b)) := by
  by_cases hvb : v = b
  · rw [h hvb, h hvb]
  · rw [Function.update_of_ne (Ne.symm hvb)]

mutual

theorem Expr.holds_subst : ∀ {x : Expr} {B : Bounds} {n : Nat} {τ : Valuation}, x.Admits a b →
    B.Ignores a x.binders →
      ((x.subst a b).Holds I B n τ ↔ x.Holds I B n (Function.update τ a (τ b)))
  | ⟨f, _⟩, _, _, _, h, hB => Form.holds_subst (f := f) h hB

theorem Form.holds_subst : ∀ {f : Form} {B : Bounds} {n : Nat} {τ : Valuation}, f.Admits a b →
    B.Ignores a f.binders →
      ((f.subst a b).Holds I B n τ ↔ f.Holds I B n (Function.update τ a (τ b)))
  | .and x y, _, _, _, h, hB =>
    have ⟨hx, hy⟩ := List.forall_mem_append.1 hB
    and_congr (Expr.holds_subst h.1 hx) (Expr.holds_subst h.2 hy)
  | .or x y, _, _, _, h, hB =>
    have ⟨hx, hy⟩ := List.forall_mem_append.1 hB
    or_congr (Expr.holds_subst h.1 hx) (Expr.holds_subst h.2 hy)
  | .not x, _, _, _, h, hB => not_congr (Expr.holds_subst (x := x) h hB)
  | .forSome v g x, B, n, τ, h, hB => by
    by_cases hv : v = a
    · subst hv
      simp only [Form.subst, if_pos, Form.Holds, Function.update_idem]
    · obtain ⟨hx, hb, hg⟩ := h.resolve_left hv
      have hinner := restrict_subst_iff (I := I) (B := B) (b := b) hg
      have hignores := hB.restrict (I := I) hg
      rw [Form.subst, if_neg hv]
      refine exists_congr fun m => and_congr_right fun _ => exists_congr fun c =>
        and_congr_right fun _ => ?_
      rw [Function.update_comm (Ne.symm hv)]
      refine and_congr ?_ (and_congr ?_ ?_)
      · refine (guardHolds_subst g m _).trans (update_outside_iff fun hvb d => ?_)
        exact guardHolds_update (fun hmem => hb hvb (List.mem_append_left _ hmem)) d
      · exact (hB v List.mem_cons_self hv m _ _).symm
      · refine (Expr.holds_subst hx (hignores.congr hinner)).trans ?_
        refine (Expr.holds_congr_bounds hinner).trans (update_outside_iff fun hvb d => ?_)
        exact Expr.holds_update d (fun hmem => hb hvb (List.mem_append_right _ hmem)) hignores
  | .call c, _, n, τ, _, _ => Call.holds_subst c n τ
  | .automaton l, _, n, τ, h, hB => (Form.holds_update (f := .automaton l) (τ b) h hB).symm
  | .index w i, _, _, _, h, _ => by
    simp only [Form.subst, Form.Holds, substName, if_neg h, Expr.operand_subst]
  | .rangeEq w s e u t f, _, _, _, h, _ => by
    have hfirst := Form.value?_subst (a := a) (b := b) (.arith .sub e s)
    have hsecond := Form.value?_subst (a := a) (b := b) (.arith .sub f t)
    simp only [Form.subst] at hfirst hsecond
    simp only [Form.subst, Form.Holds, substName, if_neg h.1, if_neg h.2, hfirst, hsecond,
      Expr.value?_subst, Expr.operand_subst]
  | .compare op x y, _, _, _, h, hB => by
    obtain ⟨hx, hy⟩ := List.forall_mem_append.1 hB
    simp only [Form.subst, Form.Holds, Expr.isFormula_subst, Expr.operand_subst,
      Expr.holds_subst h.1 hx, Expr.holds_subst h.2 hy]
  | .truth _, _, _, _, _, _ => Iff.rfl
  | .var _, _, _, _, _, _ => Iff.rfl
  | .num _, _, _, _, _, _ => Iff.rfl
  | .arith .., _, _, _, _, _ => Iff.rfl

end

/-- Under a quantifier over `b` the inserted `b` is captured: the formula is about one number for
both variables. -/
theorem Form.holds_subst_captured {x : Expr} (hab : b ≠ a) (hx : x.Admits a b)
    (hB : B.Ignores a (b :: x.binders)) :
    ((Form.forSome b none x).subst a b).Holds I B n τ ↔ ∃ m ≥ n, ∃ c < 2 ^ m,
      B b m (Function.update τ b c) ∧ x.Holds I (B.restrict b (GuardHolds I none)) m
        (Function.update (Function.update τ b c) a c) := by
  rw [Form.subst, if_neg hab]
  refine exists_congr fun m => and_congr_right fun _ => exists_congr fun c =>
    and_congr_right fun _ => ?_
  rw [and_iff_right (show GuardHolds I (substGuard a b none) m _ from nofun)]
  refine and_congr_right fun _ => ?_
  have hinner := hB.restrict (I := I) (g := none) nofun
  refine (Expr.holds_subst hx hinner).trans ?_
  rw [Function.update_self]

/-- The name of a relation is taken for a variable. -/
example : (Form.index "w" ⟨.var "w", none⟩).subst "w" "v" = .index "v" ⟨.var "v", none⟩ := by
  simp [Form.subst, Expr.subst, substName]

end

end RegularArithmetic

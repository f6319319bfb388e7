import RegularArithmetic.Proofs.Meaning.Annotation

/-!
The free variables of an expression. What a plain expression says depends on their values alone,
and an expression is made of no other variables but those that are quantified in it.
-/

set_option autoImplicit false

namespace RegularArithmetic

mutual

/-- The variables that an expression speaks of, unless they are quantified. -/
def Expr.freeVars : Expr → List String
  | ⟨f, _⟩ => f.freeVars

def Form.freeVars : Form → List String
  | .var v => [v]
  | .num _ => []
  | .truth _ => []
  | .arith _ x y => x.freeVars ++ y.freeVars
  | .compare _ x y => x.freeVars ++ y.freeVars
  | .and x y => x.freeVars ++ y.freeVars
  | .or x y => x.freeVars ++ y.freeVars
  | .not x => x.freeVars
  | .forSome v g x => (guardVars g ++ x.freeVars).filter (· ≠ v)
  | .call c => c.freeVars
  | .automaton l => l.vars.map (·.1)
  | .index _ i => i.freeVars
  | .rangeEq _ s e _ t f => (s.freeVars ++ e.freeVars) ++ (t.freeVars ++ f.freeVars)

def Call.freeVars : Call → List String
  | ⟨_, xs⟩ => argVars xs

def argVars : List Expr → List String
  | [] => []
  | x :: xs => x.freeVars ++ argVars xs

def guardVars : Option Call → List String
  | none => []
  | some c => c.freeVars

end

theorem Form.mem_freeVars_forSome {u v : String} {g : Option Call} {x : Expr}
    (hu : u ∈ guardVars g ++ x.freeVars) : u = v ∨ u ∈ (Form.forSome v g x).freeVars := by
  by_cases huv : u = v
  · exact .inl huv
  · exact .inr (List.mem_filter.2 ⟨hu, by simpa using huv⟩)

mutual

theorem Expr.freeVars_erase : ∀ x : Expr, x.erase.freeVars = x.freeVars
  | ⟨f, _⟩ => Form.freeVars_erase f

theorem Form.freeVars_erase : ∀ f : Form, f.erase.freeVars = f.freeVars
  | .arith _ x y => congrArg₂ _ (Expr.freeVars_erase x) (Expr.freeVars_erase y)
  | .compare _ x y => congrArg₂ _ (Expr.freeVars_erase x) (Expr.freeVars_erase y)
  | .and x y => congrArg₂ _ (Expr.freeVars_erase x) (Expr.freeVars_erase y)
  | .or x y => congrArg₂ _ (Expr.freeVars_erase x) (Expr.freeVars_erase y)
  | .not x => Expr.freeVars_erase x
  | .forSome _ _ x => by simp only [Form.erase, Form.freeVars, Expr.freeVars_erase x]
  | .call ⟨_, xs⟩ => argVars_erase xs
  | .index _ i => Expr.freeVars_erase i
  | .rangeEq _ s e _ t f => by
    simp only [Form.erase, Form.freeVars, Expr.freeVars_erase s, Expr.freeVars_erase e,
      Expr.freeVars_erase t, Expr.freeVars_erase f]
  | .var _ => rfl
  | .num _ => rfl
  | .truth _ => rfl
  | .automaton _ => rfl

theorem argVars_erase : ∀ xs : List Expr, argVars (eraseArgs xs) = argVars xs
  | [] => rfl
  | x :: xs => congrArg₂ _ (Expr.freeVars_erase x) (argVars_erase xs)

end

theorem Expr.Annotates.freeVars_eq {A : Set (Option Domain)} {N : Set String} {x y : Expr}
    (h : x.Annotates A N y) : y.freeVars = x.freeVars := by
  rw [← Expr.freeVars_erase y, h.erase, Expr.freeVars_erase]

section

variable {τ τ' : Valuation}

mutual

theorem Expr.number_congr : ∀ {x : Expr}, (∀ v ∈ x.freeVars, τ v = τ' v) →
    x.number τ = x.number τ'
  | ⟨f, _⟩, h => Form.number_congr (f := f) h

theorem Form.number_congr : ∀ {f : Form}, (∀ v ∈ f.freeVars, τ v = τ' v) →
    f.number τ = f.number τ'
  | .var v, h => congrArg some (h v (List.mem_singleton_self v))
  | .arith op x y, h => by
    obtain ⟨hx, hy⟩ := List.forall_mem_append.1 h
    simp only [Form.number, Expr.number_congr hx, Expr.number_congr hy]
  | .num _, _ => rfl
  | .truth _, _ => rfl
  | .compare .., _ => rfl
  | .and .., _ => rfl
  | .or .., _ => rfl
  | .not _, _ => rfl
  | .forSome .., _ => rfl
  | .call _, _ => rfl
  | .automaton _, _ => rfl
  | .index .., _ => rfl
  | .rangeEq .., _ => rfl

end

/-- The numbers of arguments depend on the values of their free variables. -/
theorem forall₂_number_congr : ∀ {xs : List Expr}, (∀ v ∈ argVars xs, τ v = τ' v) →
    ∀ as : List Nat, List.Forall₂ (fun x a => x.number τ = some a) xs as ↔
      List.Forall₂ (fun x a => x.number τ' = some a) xs as
  | [], _, as => by cases as <;> simp
  | x :: xs, h, as => by
    obtain ⟨hx, hxs⟩ := List.forall_mem_append.1 h
    cases as with
    | nil => simp
    | cons a as =>
      rw [List.forall₂_cons, List.forall₂_cons, Expr.number_congr hx, forall₂_number_congr hxs as]

end

section

variable {a b : String}

/-- `u` is one of the variables, or `b` put for one of them that is `a`. -/
def IsAmong (a b : String) (vars : List String) (u : String) : Prop :=
  u ∈ vars ∨ u = b ∧ a ∈ vars

theorem isAmong_append {us us' vs vs' : List String} (h : ∀ u ∈ us', IsAmong a b us u)
    (h' : ∀ v ∈ vs', IsAmong a b vs v) : ∀ u ∈ us' ++ vs', IsAmong a b (us ++ vs) u := by
  refine List.forall_mem_append.2 ⟨fun u hu => ?_, fun u hu => ?_⟩
  · exact (h u hu).imp (List.mem_append_left _) (And.imp_right (List.mem_append_left _))
  · exact (h' u hu).imp (List.mem_append_right _) (And.imp_right (List.mem_append_right _))

mutual

/-- Putting `b` for `a` brings in no other variable but `b`. -/
theorem Expr.freeVars_subst : ∀ x : Expr, ∀ u ∈ (x.subst a b).freeVars, IsAmong a b x.freeVars u
  | ⟨f, _⟩ => Form.freeVars_subst f

theorem Form.freeVars_subst : ∀ f : Form, ∀ u ∈ (f.subst a b).freeVars, IsAmong a b f.freeVars u
  | .var v => by
    intro u hu
    have hu : u = substName a b v := List.mem_singleton.1 hu
    by_cases hv : v = a
    · exact .inr ⟨by rw [hu, substName, if_pos hv], hv ▸ List.mem_singleton_self v⟩
    · exact .inl (by rw [hu, substName, if_neg hv]; exact List.mem_singleton_self v)
  | .num _ => nofun
  | .truth _ => nofun
  | .arith _ x y => isAmong_append (Expr.freeVars_subst x) (Expr.freeVars_subst y)
  | .compare _ x y => isAmong_append (Expr.freeVars_subst x) (Expr.freeVars_subst y)
  | .and x y => isAmong_append (Expr.freeVars_subst x) (Expr.freeVars_subst y)
  | .or x y => isAmong_append (Expr.freeVars_subst x) (Expr.freeVars_subst y)
  | .not x => Expr.freeVars_subst x
  | .forSome v g x => by
    intro u hu
    by_cases hv : v = a
    · rw [Form.subst, if_pos hv] at hu
      exact .inl hu
    · rw [Form.subst, if_neg hv, Form.freeVars, List.mem_filter] at hu
      have hbody := isAmong_append (guardVars_subst g) (Expr.freeVars_subst x) u hu.1
      exact hbody.imp (fun h => List.mem_filter.2 ⟨h, hu.2⟩)
        (And.imp_right fun h => List.mem_filter.2 ⟨h, by simpa using Ne.symm hv⟩)
  | .call c => Call.freeVars_subst c
  | .automaton _ => fun _ hu => .inl hu
  | .index _ i => Expr.freeVars_subst i
  | .rangeEq _ s e _ t f =>
    isAmong_append (isAmong_append (Expr.freeVars_subst s) (Expr.freeVars_subst e))
      (isAmong_append (Expr.freeVars_subst t) (Expr.freeVars_subst f))

theorem Call.freeVars_subst : ∀ c : Call, ∀ u ∈ (c.subst a b).freeVars, IsAmong a b c.freeVars u
  | ⟨_, xs⟩ => argVars_subst xs

theorem argVars_subst : ∀ xs : List Expr, ∀ u ∈ argVars (substArgs a b xs),
    IsAmong a b (argVars xs) u
  | [] => nofun
  | x :: xs => isAmong_append (Expr.freeVars_subst x) (argVars_subst xs)

theorem guardVars_subst : ∀ g : Option Call, ∀ u ∈ guardVars (substGuard a b g),
    IsAmong a b (guardVars g) u
  | none => nofun
  | some c => Call.freeVars_subst c

end

theorem substArgs_drop (n : Nat) : ∀ xs : List Expr,
    substArgs a b (xs.drop n) = (substArgs a b xs).drop n := by
  induction n with
  | zero => exact fun xs => rfl
  | succ n ih =>
    intro xs
    cases xs with
    | nil => rfl
    | cons x xs => exact ih xs

theorem mem_argVars {xs : List Expr} {u : String} : u ∈ argVars xs ↔ ∃ x ∈ xs, u ∈ x.freeVars := by
  induction xs with
  | nil => simp [argVars]
  | cons x xs ih => simp [argVars, ih]

theorem Call.mem_freeVars {c : Call} {u : String} :
    u ∈ c.freeVars ↔ ∃ x ∈ c.args, u ∈ x.freeVars := by
  obtain ⟨name, xs⟩ := c
  exact mem_argVars

end

section

variable {I : Interpretation} {τ τ' : Valuation}

mutual

theorem Expr.operand_eq_of_freeVars : ∀ {x : Expr}, (∀ v ∈ x.freeVars, τ v = τ' v) →
    x.operand I τ = x.operand I τ'
  | ⟨f, _⟩, h => Form.operand_eq_of_freeVars (f := f) h

theorem Form.operand_eq_of_freeVars {D : Sense} : ∀ {f : Form},
    (∀ v ∈ f.freeVars, τ v = τ' v) → f.operand I D τ = f.operand I D τ'
  | .var v, h => by simp only [Form.operand, h v (List.mem_singleton_self v)]
  | .arith _ x y, h => by
    obtain ⟨hx, hy⟩ := List.forall_mem_append.1 h
    simp only [Form.operand, Expr.operand_eq_of_freeVars hx, Expr.operand_eq_of_freeVars hy]
  | .num _, _ => rfl
  | .truth _, _ => rfl
  | .compare .., _ => rfl
  | .and .., _ => rfl
  | .or .., _ => rfl
  | .not _, _ => rfl
  | .forSome .., _ => rfl
  | .call _, _ => rfl
  | .automaton _, _ => rfl
  | .index .., _ => rfl
  | .rangeEq .., _ => rfl

end

theorem operands_eq_of_freeVars : ∀ {xs : List Expr}, (∀ v ∈ argVars xs, τ v = τ' v) →
    operands I xs τ = operands I xs τ'
  | [], _ => rfl
  | _ :: _, h =>
    have ⟨hx, hxs⟩ := List.forall_mem_append.1 h
    congrArg₂ List.cons (Expr.operand_eq_of_freeVars hx) (operands_eq_of_freeVars hxs)

theorem Call.holds_iff_of_freeVars {c : Call} (h : ∀ v ∈ c.freeVars, τ v = τ' v) (n : Nat) :
    c.Holds I n τ ↔ c.Holds I n τ' := by
  obtain ⟨name, xs⟩ := c
  rw [Call.Holds, Call.Holds, operands_eq_of_freeVars h]

end

mutual

theorem Expr.satisfied_congr {Γ : Relations} : ∀ {x : Expr} {τ τ' : Valuation},
    (∀ v ∈ x.freeVars, τ v = τ' v) → (x.Satisfied Γ τ ↔ x.Satisfied Γ τ')
  | ⟨f, _⟩, _, _, h => Form.satisfied_congr (f := f) h

theorem Form.satisfied_congr {Γ : Relations} : ∀ {f : Form} {τ τ' : Valuation},
    (∀ v ∈ f.freeVars, τ v = τ' v) → (f.Satisfied Γ τ ↔ f.Satisfied Γ τ')
  | .truth _, _, _, _ => Iff.rfl
  | .and x y, _, _, h =>
    have ⟨hx, hy⟩ := List.forall_mem_append.1 h
    and_congr (Expr.satisfied_congr hx) (Expr.satisfied_congr hy)
  | .or x y, _, _, h =>
    have ⟨hx, hy⟩ := List.forall_mem_append.1 h
    or_congr (Expr.satisfied_congr hx) (Expr.satisfied_congr hy)
  | .not x, _, _, h => not_congr (Expr.satisfied_congr (x := x) h)
  | .forSome v g x, τ, τ', h => by
    refine exists_congr fun a => Expr.satisfied_congr fun u hu => ?_
    rw [Function.update_apply, Function.update_apply]
    split
    · rfl
    · rename_i huv
      exact h u ((Form.mem_freeVars_forSome (List.mem_append_right _ hu)).resolve_left huv)
  | .call ⟨_, xs⟩, _, _, h =>
    exists_congr fun as => and_congr_left' (@forall₂_number_congr _ _ xs h as)
  | .index w i, _, _, h => by simp only [Form.Satisfied, Expr.number_congr (x := i) h]
  | .compare op x y, τ, τ', h => by
    obtain ⟨hx, hy⟩ := List.forall_mem_append.1 h
    simp only [Form.Satisfied, Expr.number_congr hx, Expr.number_congr hy,
      Expr.satisfied_congr hx, Expr.satisfied_congr hy]
  | .var _, _, _, _ => Iff.rfl
  | .num _, _, _, _ => Iff.rfl
  | .arith .., _, _, _ => Iff.rfl
  | .automaton _, _, _, _ => Iff.rfl
  | .rangeEq .., _, _, _ => Iff.rfl

end

mutual

/-- What is within limits is within those that have its free variables only, as far as these are
allowed. -/
theorem Expr.Within.withVars : ∀ {x : Expr} {K : Limits} {V : Set String}, x.Within K →
    (∀ v ∈ x.freeVars, v ∈ K.vars → v ∈ V) → x.Within { K with vars := V }
  | ⟨_, d⟩, _, _, h, hV =>
    ⟨Form.Within.withVars h.1 hV, fun hd => withinClosed.mono (d := d) (h.2 hd) subset_rfl⟩

theorem Form.Within.withVars : ∀ {f : Form} {K : Limits} {V : Set String}, f.Within K →
    (∀ v ∈ f.freeVars, v ∈ K.vars → v ∈ V) → f.Within { K with vars := V }
  | .var v, _, _, h, hV => hV v (List.mem_singleton_self v) h
  | .num _, _, _, _, _ => trivial
  | .truth _, _, _, _, _ => trivial
  | .arith _ _ _, _, _, h, hV =>
    have ⟨hx, hy⟩ := List.forall_mem_append.1 hV
    ⟨⟨h.1.1, h.1.2.withVars hx⟩, h.2.1, h.2.2.withVars hy⟩
  | .compare _ _ _, _, _, h, hV =>
    have ⟨hx, hy⟩ := List.forall_mem_append.1 hV
    ⟨h.1.withVars hx, h.2.withVars hy⟩
  | .and _ _, _, _, h, hV =>
    have ⟨hx, hy⟩ := List.forall_mem_append.1 hV
    ⟨h.1.withVars hx, h.2.withVars hy⟩
  | .or _ _, _, _, h, hV =>
    have ⟨hx, hy⟩ := List.forall_mem_append.1 hV
    ⟨h.1.withVars hx, h.2.withVars hy⟩
  | .not x, _, _, h, hV => Expr.Within.withVars (x := x) h hV
  | .forSome v g x, K, V, h, hV => by
    have hbody : ∀ u ∈ guardVars g ++ x.freeVars, u ∈ (K.bind v).vars → u ∈ insert v V := by
      rintro u hu (rfl | hK)
      · exact .inl rfl
      · exact (Form.mem_freeVars_forSome hu).imp_right (hV u · hK)
    obtain ⟨hg, hx⟩ := List.forall_mem_append.1 hbody
    exact ⟨h.1, withinGuard.withVars (g := g) (K := K.bind v) h.2.1 hg, h.2.2.withVars hx⟩
  | .call c, _, _, h, hV => Call.Within.withVars (c := c) h hV
  | .automaton _, _, _, h, hV =>
    ⟨h.1, fun v hv => hV _ (List.mem_map_of_mem hv) (h.2 v hv)⟩
  | .index _ _, _, _, h, hV => ⟨h.1, h.2.1, h.2.2.withVars hV⟩
  | .rangeEq .., _, _, h, hV =>
    have ⟨hse, htf⟩ := List.forall_mem_append.1 hV
    have ⟨hs, he⟩ := List.forall_mem_append.1 hse
    have ⟨ht, hf⟩ := List.forall_mem_append.1 htf
    ⟨h.1, ⟨⟨h.2.1.1.1, h.2.1.1.2.withVars hs⟩, h.2.1.2.1, h.2.1.2.2.withVars he⟩,
      ⟨h.2.2.1.1, h.2.2.1.2.withVars ht⟩, h.2.2.2.1, h.2.2.2.2.withVars hf⟩

theorem Call.Within.withVars : ∀ {c : Call} {K : Limits} {V : Set String}, c.Within K →
    (∀ v ∈ c.freeVars, v ∈ K.vars → v ∈ V) → c.Within { K with vars := V }
  | ⟨_, xs⟩, _, _, h, hV => ⟨h.1, @withinArgs.withVars xs _ _ h.2 hV⟩

theorem withinArgs.withVars : ∀ {xs : List Expr} {K : Limits} {V : Set String}, withinArgs xs K →
    (∀ v ∈ argVars xs, v ∈ K.vars → v ∈ V) → withinArgs xs { K with vars := V }
  | [], _, _, _, _ => trivial
  | _ :: _, _, _, h, hV =>
    have ⟨hx, hxs⟩ := List.forall_mem_append.1 hV
    ⟨⟨h.1.1, h.1.2.withVars hx⟩, withinArgs.withVars h.2 hxs⟩

theorem withinGuard.withVars : ∀ {g : Option Call} {K : Limits} {V : Set String}, withinGuard g K →
    (∀ v ∈ guardVars g, v ∈ K.vars → v ∈ V) → withinGuard g { K with vars := V }
  | none, _, _, _, _ => trivial
  | some c, _, _, h, hV => Call.Within.withVars (c := c) h hV

end

end RegularArithmetic

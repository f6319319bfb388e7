import RegularArithmetic.Proofs.Meaning.Plain

/-!
Annotations of plain expressions. What such an expression says does not depend on them; filling
them in leaves the expression below the annotations as it is.
-/

set_option autoImplicit false

namespace RegularArithmetic

mutual

/-- The expression without its annotations. -/
def Expr.erase : Expr → Expr
  | ⟨f, _⟩ => ⟨f.erase, none⟩

def Form.erase : Form → Form
  | .arith op x y => .arith op x.erase y.erase
  | .compare op x y => .compare op x.erase y.erase
  | .and x y => .and x.erase y.erase
  | .or x y => .or x.erase y.erase
  | .not x => .not x.erase
  | .forSome v g x => .forSome v g x.erase
  | .call c => .call c.erase
  | .index w i => .index w i.erase
  | .rangeEq w s e u t f => .rangeEq w s.erase e.erase u t.erase f.erase
  | .var v => .var v
  | .num n => .num n
  | .truth b => .truth b
  | .automaton l => .automaton l

def Call.erase : Call → Call
  | ⟨n, xs⟩ => ⟨n, eraseArgs xs⟩

def eraseArgs : List Expr → List Expr
  | [] => []
  | x :: xs => x.erase :: eraseArgs xs

end

theorem Expr.isFormula_erase (x : Expr) : x.erase.isFormula = x.isFormula := by
  obtain ⟨f, d⟩ := x
  cases f <;> rfl

mutual

theorem Expr.value?_erase : ∀ x : Expr, x.erase.value? = x.value?
  | ⟨f, _⟩ => Form.value?_erase f

theorem Form.value?_erase : ∀ f : Form, f.erase.value? = f.value?
  | .arith _ x y => by
    simp only [Form.erase, Form.value?, Expr.value?_erase x, Expr.value?_erase y]
  | .var _ => rfl
  | .num _ => rfl
  | .truth _ => rfl
  | .compare .. => rfl
  | .and .. => rfl
  | .or .. => rfl
  | .not _ => rfl
  | .forSome .. => rfl
  | .call _ => rfl
  | .automaton _ => rfl
  | .index .. => rfl
  | .rangeEq .. => rfl

end

mutual

theorem Expr.number_erase (τ : Valuation) : ∀ x : Expr, x.erase.number τ = x.number τ
  | ⟨f, _⟩ => Form.number_erase τ f

theorem Form.number_erase (τ : Valuation) : ∀ f : Form, f.erase.number τ = f.number τ
  | .arith _ x y => by
    simp only [Form.erase, Form.number, Expr.value?_erase, Expr.number_erase τ x,
      Expr.number_erase τ y]
  | .var _ => rfl
  | .num _ => rfl
  | .truth _ => rfl
  | .compare .. => rfl
  | .and .. => rfl
  | .or .. => rfl
  | .not _ => rfl
  | .forSome .. => rfl
  | .call _ => rfl
  | .automaton _ => rfl
  | .index .. => rfl
  | .rangeEq .. => rfl

end

theorem forall₂_number_erase (τ : Valuation) : ∀ (xs : List Expr) (as : List Nat),
    List.Forall₂ (fun x a => x.number τ = some a) (eraseArgs xs) as ↔
      List.Forall₂ (fun x a => x.number τ = some a) xs as
  | [], as => by rw [eraseArgs]
  | x :: xs, [] => by simp [eraseArgs]
  | x :: xs, a :: as => by
    rw [eraseArgs, List.forall₂_cons, List.forall₂_cons, Expr.number_erase,
      forall₂_number_erase τ xs as]

mutual

theorem Expr.satisfied_erase (Γ : Relations) : ∀ (x : Expr) (τ : Valuation),
    x.erase.Satisfied Γ τ ↔ x.Satisfied Γ τ
  | ⟨f, _⟩ => Form.satisfied_erase Γ f

theorem Form.satisfied_erase (Γ : Relations) : ∀ (f : Form) (τ : Valuation),
    f.erase.Satisfied Γ τ ↔ f.Satisfied Γ τ
  | .truth _, _ => Iff.rfl
  | .and x y, τ => and_congr (Expr.satisfied_erase Γ x τ) (Expr.satisfied_erase Γ y τ)
  | .or x y, τ => or_congr (Expr.satisfied_erase Γ x τ) (Expr.satisfied_erase Γ y τ)
  | .not x, τ => not_congr (Expr.satisfied_erase Γ x τ)
  | .forSome _ _ x, _ => exists_congr fun _ => Expr.satisfied_erase Γ x _
  | .call ⟨_, xs⟩, τ => exists_congr fun as => and_congr_left' (forall₂_number_erase τ xs as)
  | .index _ i, τ => by simp only [Form.erase, Form.Satisfied, Expr.number_erase]
  | .compare _ x y, τ => by
    simp only [Form.erase, Form.Satisfied, Expr.isFormula_erase, Expr.number_erase,
      Expr.satisfied_erase Γ x τ, Expr.satisfied_erase Γ y τ]
  | .var _, _ => Iff.rfl
  | .num _, _ => Iff.rfl
  | .arith .., _ => Iff.rfl
  | .automaton _, _ => Iff.rfl
  | .rangeEq .., _ => Iff.rfl

end

/-- `y` is `x` with annotations from `A`; its relations have names in `N`. -/
structure Expr.Annotates (A : Set (Option Domain)) (N : Set String) (x y : Expr) : Prop where
  erase : y.erase = x.erase
  plain : y.IsPlain A N

section

variable {A A' : Set (Option Domain)} {N : Set String} {x y z : Expr}

theorem Expr.Annotates.trans (h : x.Annotates A N y) (h' : y.Annotates A' N z) :
    x.Annotates A' N z :=
  ⟨h'.erase.trans h.erase, h'.plain⟩

theorem Expr.Annotates.isFormula (h : x.Annotates A N y) : y.isFormula = x.isFormula := by
  rw [← Expr.isFormula_erase y, h.erase, Expr.isFormula_erase]

theorem Expr.Annotates.satisfied_iff (h : x.Annotates A N y) (Γ : Relations) (τ : Valuation) :
    y.Satisfied Γ τ ↔ x.Satisfied Γ τ := by
  rw [← Expr.satisfied_erase, h.erase, Expr.satisfied_erase]

end

section

variable {N : Set String} {d : Domain}

mutual

theorem Expr.annotates_settle (hd : some d ∈ unrestricted) : ∀ {x : Expr},
    x.IsPlain unrestricted N → x.Annotates unrestricted N (x.settle d)
  | ⟨f, e⟩, h => by
    rw [Expr.settle]
    split
    · obtain ⟨herase, hplain⟩ := Form.erase_settle hd h.2
      exact ⟨by rw [Expr.erase, Expr.erase, herase], hd, hplain⟩
    · exact ⟨rfl, h⟩

theorem Form.erase_settle (hd : some d ∈ unrestricted) : ∀ {f : Form}, f.IsPlain unrestricted N →
    (f.settle d).erase = f.erase ∧ (f.settle d).IsPlain unrestricted N
  | .arith _ x y, h => by
    have hx := Expr.annotates_settle hd h.1.2
    have hy := Expr.annotates_settle hd h.2.2
    refine ⟨?_, ⟨hx.isFormula.trans h.1.1, hx.plain⟩, hy.isFormula.trans h.2.1, hy.plain⟩
    simp only [Form.settle, Form.erase, hx.erase, hy.erase]
  | .var _, h => ⟨rfl, h⟩
  | .num _, h => ⟨rfl, h⟩
  | .truth _, h => ⟨rfl, h⟩
  | .compare .., h => ⟨rfl, h⟩
  | .and .., h => ⟨rfl, h⟩
  | .or .., h => ⟨rfl, h⟩
  | .not _, h => ⟨rfl, h⟩
  | .forSome .., h => ⟨rfl, h⟩
  | .call _, h => ⟨rfl, h⟩
  | .automaton _, h => ⟨rfl, h⟩
  | .index .., h => ⟨rfl, h⟩
  | .rangeEq .., h => ⟨rfl, h⟩

end

end

section

variable {N : Set String}

mutual

theorem Expr.annotates_close : ∀ {x : Expr}, x.IsPlain unrestricted N →
    x.Annotates settledOpen N x.close
  | ⟨f, d⟩, h => by
    obtain ⟨herase, hplain⟩ := Form.erase_close h.2
    obtain rfl | rfl | rfl := h.1
    · exact ⟨by simp only [Expr.close, Expr.erase, herase], .inl rfl, hplain⟩
    · exact ⟨by simp only [Expr.close, Expr.erase, herase], .inr rfl, hplain⟩
    · exact ⟨by simp only [Expr.close, Expr.erase, herase], .inr rfl, hplain⟩

theorem Form.erase_close : ∀ {f : Form}, f.IsPlain unrestricted N →
    f.close.erase = f.erase ∧ f.close.IsPlain settledOpen N
  | .arith _ x y, h => by
    have hx := Expr.annotates_close h.1.2
    have hy := Expr.annotates_close h.2.2
    refine ⟨?_, ⟨hx.isFormula.trans h.1.1, hx.plain⟩, hy.isFormula.trans h.2.1, hy.plain⟩
    simp only [Form.close, Form.erase, hx.erase, hy.erase]
  | .compare _ x y, h => by
    have hx := Expr.annotates_close h.1
    have hy := Expr.annotates_close h.2
    exact ⟨by simp only [Form.close, Form.erase, hx.erase, hy.erase], hx.plain, hy.plain⟩
  | .and x y, h => by
    have hx := Expr.annotates_close h.1.2
    have hy := Expr.annotates_close h.2.2
    refine ⟨?_, ⟨hx.isFormula.trans h.1.1, hx.plain⟩, hy.isFormula.trans h.2.1, hy.plain⟩
    simp only [Form.close, Form.erase, hx.erase, hy.erase]
  | .or x y, h => by
    have hx := Expr.annotates_close h.1.2
    have hy := Expr.annotates_close h.2.2
    refine ⟨?_, ⟨hx.isFormula.trans h.1.1, hx.plain⟩, hy.isFormula.trans h.2.1, hy.plain⟩
    simp only [Form.close, Form.erase, hx.erase, hy.erase]
  | .not x, h => by
    have hx := Expr.annotates_close h.2
    exact ⟨by simp only [Form.close, Form.erase, hx.erase], hx.isFormula.trans h.1, hx.plain⟩
  | .forSome v g x, h => by
    have hx := Expr.annotates_close h.2.2.2
    exact ⟨by simp only [Form.close, Form.erase, hx.erase], h.1, h.2.1,
      hx.isFormula.trans h.2.2.1, hx.plain⟩
  | .call ⟨_, xs⟩, h => by
    obtain ⟨herase, hplain⟩ := erase_closeArgs h.2
    exact ⟨by simp only [Form.close, Call.close, Form.erase, Call.erase, herase], h.1, hplain⟩
  | .index _ i, h => by
    have hi := Expr.annotates_close h.2.2
    exact ⟨by simp only [Form.close, Form.erase, hi.erase], h.1, hi.isFormula.trans h.2.1, hi.plain⟩
  | .var _, h => ⟨rfl, h⟩
  | .num _, h => ⟨rfl, h⟩
  | .truth _, h => ⟨rfl, h⟩
  | .automaton _, h => h.elim
  | .rangeEq .., h => h.elim

theorem erase_closeArgs : ∀ {xs : List Expr}, plainArgs unrestricted N xs →
    eraseArgs (closeArgs xs) = eraseArgs xs ∧ plainArgs settledOpen N (closeArgs xs)
  | [], _ => ⟨rfl, trivial⟩
  | x :: xs, h => by
    have hx := Expr.annotates_close h.1.2
    obtain ⟨herase, hplain⟩ := erase_closeArgs h.2
    exact ⟨by simp only [closeArgs, eraseArgs, hx.erase, herase],
      ⟨hx.isFormula.trans h.1.1, hx.plain⟩, hplain⟩

end

end

end RegularArithmetic

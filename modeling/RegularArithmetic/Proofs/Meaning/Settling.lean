import Mathlib.Data.List.Forall2
import RegularArithmetic.Proofs.Meaning.Annotation

/-!
Filling in annotations, whatever they say. Settling and closing leave the expression below its
annotations as it is and keep the domains that are known; after both, every integer expression has
a domain. Quantifier guards are not annotated.
-/

set_option autoImplicit false

namespace RegularArithmetic

/-- The annotation `e` says what `d` says, if that says anything. -/
def Keeps (d e : Option Domain) : Prop := ∀ k, Domain.known? d = some k → e = some k

namespace Domain

theorem known?_some {d : Domain} (h : d ≠ .pending) : known? (some d) = some d := by
  cases d with
  | pending => exact absurd rfl h
  | any => rfl
  | restricted c => rfl

theorem known?_eq_some {d : Option Domain} {k : Domain} :
    known? d = some k ↔ d = some k ∧ k ≠ .pending := by
  constructor
  · intro h
    rcases d with _ | _ | _ | c <;> cases h
    · exact ⟨rfl, nofun⟩
    · exact ⟨rfl, nofun⟩
  · rintro ⟨rfl, hk⟩
    exact known?_some hk

theorem known?_eq_none {d : Option Domain} : known? d = none ↔ d = none ∨ d = some .pending := by
  rcases d with _ | _ | _ | c
  · exact iff_of_true rfl (.inl rfl)
  · exact iff_of_false nofun nofun
  · exact iff_of_true rfl (.inr rfl)
  · exact iff_of_false nofun nofun

end Domain

theorem Keeps.refl (d : Option Domain) : Keeps d d := fun _ hk => (Domain.known?_eq_some.1 hk).1

theorem Keeps.trans {d e f : Option Domain} (h : Keeps d e) (h' : Keeps e f) : Keeps d f := by
  intro k hk
  refine h' k ?_
  rw [h k hk, Domain.known?_some (Domain.known?_eq_some.1 hk).2]

theorem Keeps.of_unknown {d e : Option Domain} (h : Domain.known? d = none) : Keeps d e :=
  fun _ hk => nomatch h.symm.trans hk

mutual

/-- The annotations of variables and literals. -/
def Expr.leaves : Expr → List (Option Domain)
  | ⟨f, d⟩ => f.leaves d

def Form.leaves (d : Option Domain) : Form → List (Option Domain)
  | .var _ => [d]
  | .num _ => [d]
  | .truth _ => []
  | .automaton _ => []
  | .arith _ x y => x.leaves ++ y.leaves
  | .compare _ x y => x.leaves ++ y.leaves
  | .and x y => x.leaves ++ y.leaves
  | .or x y => x.leaves ++ y.leaves
  | .not x => x.leaves
  | .forSome _ _ x => x.leaves
  | .call c => c.leaves
  | .index _ i => i.leaves
  | .rangeEq _ s e _ t f => (s.leaves ++ e.leaves) ++ (t.leaves ++ f.leaves)

def Call.leaves : Call → List (Option Domain)
  | ⟨_, xs⟩ => leavesOf xs

def leavesOf : List Expr → List (Option Domain)
  | [] => []
  | x :: xs => x.leaves ++ leavesOf xs

end

/-- `y` is `x` with other annotations; those of variables and literals that say a domain are
kept. -/
structure Expr.Fills (x y : Expr) : Prop where
  erase : y.erase = x.erase
  kept : List.Forall₂ Keeps x.leaves y.leaves

structure FillsArgs (xs ys : List Expr) : Prop where
  erase : eraseArgs ys = eraseArgs xs
  kept : List.Forall₂ Keeps (leavesOf xs) (leavesOf ys)

theorem forall₂_keeps_refl (ds : List (Option Domain)) : List.Forall₂ Keeps ds ds :=
  List.forall₂_same.2 fun d _ => Keeps.refl d

theorem forall₂_keeps_trans : ∀ {ds es fs : List (Option Domain)}, List.Forall₂ Keeps ds es →
    List.Forall₂ Keeps es fs → List.Forall₂ Keeps ds fs
  | _, _, _, .nil, .nil => .nil
  | _, _, _, .cons h hs, .cons h' hs' => .cons (h.trans h') (forall₂_keeps_trans hs hs')

namespace Expr.Fills

variable {x x' y y' z : Expr} {s s' t t' : Expr} {d d' : Option Domain}

theorem isFormula (h : x.Fills y) : y.isFormula = x.isFormula := by
  rw [← Expr.isFormula_erase y, h.erase, Expr.isFormula_erase]

theorem refl (x : Expr) : x.Fills x := ⟨rfl, forall₂_keeps_refl _⟩

theorem trans (h : x.Fills y) (h' : y.Fills z) : x.Fills z :=
  ⟨h'.erase.trans h.erase, forall₂_keeps_trans h.kept h'.kept⟩

theorem var {v : String} (h : Keeps d d') : Fills ⟨.var v, d⟩ ⟨.var v, d'⟩ := ⟨rfl, .cons h .nil⟩

theorem num {n : Nat} (h : Keeps d d') : Fills ⟨.num n, d⟩ ⟨.num n, d'⟩ := ⟨rfl, .cons h .nil⟩

theorem truth {b : Bool} : Fills ⟨.truth b, d⟩ ⟨.truth b, d'⟩ := ⟨rfl, .nil⟩

theorem automaton {l : Literal} : Fills ⟨.automaton l, d⟩ ⟨.automaton l, d'⟩ := ⟨rfl, .nil⟩

theorem arith {op : Operation} (hx : x.Fills x') (hy : y.Fills y') :
    Fills ⟨.arith op x y, d⟩ ⟨.arith op x' y', d'⟩ :=
  ⟨by simp only [Expr.erase, Form.erase, hx.erase, hy.erase], List.rel_append hx.kept hy.kept⟩

theorem compare {op : Comparison} (hx : x.Fills x') (hy : y.Fills y') :
    Fills ⟨.compare op x y, d⟩ ⟨.compare op x' y', d'⟩ :=
  ⟨by simp only [Expr.erase, Form.erase, hx.erase, hy.erase], List.rel_append hx.kept hy.kept⟩

theorem and (hx : x.Fills x') (hy : y.Fills y') : Fills ⟨.and x y, d⟩ ⟨.and x' y', d'⟩ :=
  ⟨by simp only [Expr.erase, Form.erase, hx.erase, hy.erase], List.rel_append hx.kept hy.kept⟩

theorem or (hx : x.Fills x') (hy : y.Fills y') : Fills ⟨.or x y, d⟩ ⟨.or x' y', d'⟩ :=
  ⟨by simp only [Expr.erase, Form.erase, hx.erase, hy.erase], List.rel_append hx.kept hy.kept⟩

theorem not (hx : x.Fills x') : Fills ⟨.not x, d⟩ ⟨.not x', d'⟩ :=
  ⟨by simp only [Expr.erase, Form.erase, hx.erase], hx.kept⟩

theorem forSome {v : String} {g : Option Call} (hx : x.Fills x') :
    Fills ⟨.forSome v g x, d⟩ ⟨.forSome v g x', d'⟩ :=
  ⟨by simp only [Expr.erase, Form.erase, hx.erase], hx.kept⟩

theorem call {n : String} {xs ys : List Expr} (h : FillsArgs xs ys) :
    Fills ⟨.call ⟨n, xs⟩, d⟩ ⟨.call ⟨n, ys⟩, d'⟩ :=
  ⟨by simp only [Expr.erase, Form.erase, Call.erase, h.erase], h.kept⟩

theorem index {w : String} (hx : x.Fills x') : Fills ⟨.index w x, d⟩ ⟨.index w x', d'⟩ :=
  ⟨by simp only [Expr.erase, Form.erase, hx.erase], hx.kept⟩

theorem rangeEq {v w : String} (hx : x.Fills x') (hy : y.Fills y') (hs : s.Fills s')
    (ht : t.Fills t') : Fills ⟨.rangeEq v x y w s t, d⟩ ⟨.rangeEq v x' y' w s' t', d'⟩ :=
  ⟨by simp only [Expr.erase, Form.erase, hx.erase, hy.erase, hs.erase, ht.erase],
    List.rel_append (List.rel_append hx.kept hy.kept) (List.rel_append hs.kept ht.kept)⟩

end Expr.Fills

theorem FillsArgs.nil : FillsArgs [] [] := ⟨rfl, .nil⟩

theorem FillsArgs.cons {x y : Expr} {xs ys : List Expr} (hx : x.Fills y) (h : FillsArgs xs ys) :
    FillsArgs (x :: xs) (y :: ys) :=
  ⟨congrArg₂ List.cons hx.erase h.erase, List.rel_append hx.kept h.kept⟩

mutual

theorem Expr.fills_settle (k : Domain) : ∀ x : Expr, x.Fills (x.settle k)
  | ⟨f, e⟩ => by
    rw [Expr.settle]
    split
    · exact Form.fills_settle k f ‹_›
    · exact .refl _

theorem Form.fills_settle (k : Domain) : ∀ (f : Form) {d d' : Option Domain},
    Domain.known? d = none → Expr.Fills ⟨f, d⟩ ⟨f.settle k, d'⟩
  | .var _, _, _, h => .var (.of_unknown h)
  | .num _, _, _, h => .num (.of_unknown h)
  | .arith _ x y, _, _, _ => .arith (Expr.fills_settle k x) (Expr.fills_settle k y)
  | .truth _, _, _, _ => .truth
  | .automaton _, _, _, _ => .automaton
  | .compare _ x y, _, _, _ => .compare (.refl x) (.refl y)
  | .and x y, _, _, _ => .and (.refl x) (.refl y)
  | .or x y, _, _, _ => .or (.refl x) (.refl y)
  | .not x, _, _, _ => .not (.refl x)
  | .forSome _ _ x, _, _, _ => .forSome (.refl x)
  | .call ⟨_, xs⟩, _, _, _ => .call ⟨rfl, forall₂_keeps_refl (leavesOf xs)⟩
  | .index _ i, _, _, _ => .index (.refl i)
  | .rangeEq _ s e _ t f, _, _, _ => .rangeEq (.refl s) (.refl e) (.refl t) (.refl f)

end

def closeDomain : Option Domain → Option Domain
  | some .pending => some .any
  | d => d

theorem closeDomain_of_ne {k : Domain} (h : k ≠ .pending) : closeDomain (some k) = some k := by
  cases k with
  | pending => exact absurd rfl h
  | any => rfl
  | restricted c => rfl

theorem Expr.close_mk (f : Form) (d : Option Domain) :
    Expr.close ⟨f, d⟩ = ⟨f.close, closeDomain d⟩ := by
  rcases d with _ | _ | _ | c <;> rfl

theorem keeps_closeDomain (d : Option Domain) : Keeps d (closeDomain d) := by
  rcases d with _ | _ | _ | c
  · exact .refl _
  · exact .refl _
  · exact .of_unknown rfl
  · exact .refl _

mutual

theorem Expr.fills_close : ∀ x : Expr, x.Fills x.close
  | ⟨f, d⟩ => by
    rw [Expr.close_mk]
    exact Form.fills_close f (keeps_closeDomain d)

theorem Form.fills_close : ∀ (f : Form) {d d' : Option Domain}, Keeps d d' →
    Expr.Fills ⟨f, d⟩ ⟨f.close, d'⟩
  | .var _, _, _, h => .var h
  | .num _, _, _, h => .num h
  | .arith _ x y, _, _, _ => .arith (Expr.fills_close x) (Expr.fills_close y)
  | .truth _, _, _, _ => .truth
  | .automaton _, _, _, _ => .automaton
  | .compare _ x y, _, _, _ => .compare (Expr.fills_close x) (Expr.fills_close y)
  | .and x y, _, _, _ => .and (Expr.fills_close x) (Expr.fills_close y)
  | .or x y, _, _, _ => .or (Expr.fills_close x) (Expr.fills_close y)
  | .not x, _, _, _ => .not (Expr.fills_close x)
  | .forSome _ _ x, _, _, _ => .forSome (Expr.fills_close x)
  | .call ⟨_, xs⟩, _, _, _ => .call (fills_closeArgs xs)
  | .index _ i, _, _, _ => .index (Expr.fills_close i)
  | .rangeEq _ s e _ t f, _, _, _ => .rangeEq (Expr.fills_close s) (Expr.fills_close e)
    (Expr.fills_close t) (Expr.fills_close f)

theorem fills_closeArgs : ∀ xs : List Expr, FillsArgs xs (closeArgs xs)
  | [] => .nil
  | x :: xs => .cons (Expr.fills_close x) (fills_closeArgs xs)

end

theorem closeDomain_closeDomain (d : Option Domain) :
    closeDomain (closeDomain d) = closeDomain d := by
  rcases d with _ | _ | _ | c <;> rfl

mutual

theorem Expr.close_close : ∀ x : Expr, x.close.close = x.close
  | ⟨f, d⟩ => by
    rw [Expr.close_mk, Expr.close_mk, Form.close_close f, closeDomain_closeDomain]

theorem Form.close_close : ∀ f : Form, f.close.close = f.close
  | .arith _ x y => by simp only [Form.close, Expr.close_close x, Expr.close_close y]
  | .compare _ x y => by simp only [Form.close, Expr.close_close x, Expr.close_close y]
  | .and x y => by simp only [Form.close, Expr.close_close x, Expr.close_close y]
  | .or x y => by simp only [Form.close, Expr.close_close x, Expr.close_close y]
  | .not x => by simp only [Form.close, Expr.close_close x]
  | .forSome _ _ x => by simp only [Form.close, Expr.close_close x]
  | .call ⟨_, xs⟩ => by simp only [Form.close, Call.close, closeArgs_closeArgs xs]
  | .index _ i => by simp only [Form.close, Expr.close_close i]
  | .rangeEq _ s e _ t f => by
    simp only [Form.close, Expr.close_close s, Expr.close_close e, Expr.close_close t,
      Expr.close_close f]
  | .var _ => rfl
  | .num _ => rfl
  | .truth _ => rfl
  | .automaton _ => rfl

theorem closeArgs_closeArgs : ∀ xs : List Expr, closeArgs (closeArgs xs) = closeArgs xs
  | [] => rfl
  | x :: xs => by simp only [closeArgs, Expr.close_close x, closeArgs_closeArgs xs]

end

section

variable (P : Option Domain → Prop)

mutual

/-- Every integer expression in it has an annotation with the property. -/
def Expr.Annotated : Expr → Prop
  | ⟨f, d⟩ => (Expr.isFormula ⟨f, d⟩ = false → P d) ∧ f.Annotated

def Form.Annotated : Form → Prop
  | .var _ => True
  | .num _ => True
  | .truth _ => True
  | .automaton _ => True
  | .arith _ x y => x.Annotated ∧ y.Annotated
  | .compare _ x y => x.Annotated ∧ y.Annotated
  | .and x y => x.Annotated ∧ y.Annotated
  | .or x y => x.Annotated ∧ y.Annotated
  | .not x => x.Annotated
  | .forSome _ _ x => x.Annotated
  | .call c => c.Annotated
  | .index _ i => i.Annotated
  | .rangeEq _ s e _ t f => (s.Annotated ∧ e.Annotated) ∧ t.Annotated ∧ f.Annotated

def Call.Annotated : Call → Prop
  | ⟨_, xs⟩ => AnnotatedArgs xs

def AnnotatedArgs : List Expr → Prop
  | [] => True
  | x :: xs => x.Annotated ∧ AnnotatedArgs xs

end

end

def IsNoted (d : Option Domain) : Prop := d ≠ none

def IsKnown (d : Option Domain) : Prop := ∃ k, d = some k ∧ k ≠ .pending

section

variable {k : Domain}

mutual

theorem Expr.annotated_settle : ∀ {x : Expr}, x.Annotated IsNoted → (x.settle k).Annotated IsNoted
  | ⟨f, _⟩, h => by
    rw [Expr.settle]
    split
    · exact ⟨fun _ => nofun, Form.annotated_settle h.2⟩
    · exact h

theorem Form.annotated_settle : ∀ {f : Form}, f.Annotated IsNoted → (f.settle k).Annotated IsNoted
  | .arith _ _ _, h => ⟨Expr.annotated_settle h.1, Expr.annotated_settle h.2⟩
  | .var _, h => h
  | .num _, h => h
  | .truth _, h => h
  | .automaton _, h => h
  | .compare .., h => h
  | .and .., h => h
  | .or .., h => h
  | .not _, h => h
  | .forSome .., h => h
  | .call _, h => h
  | .index .., h => h
  | .rangeEq .., h => h

end

theorem isKnown_closeDomain {d : Option Domain} (h : IsNoted d) : IsKnown (closeDomain d) := by
  rcases d with _ | _ | _ | c
  · exact absurd rfl h
  · exact ⟨.any, rfl, nofun⟩
  · exact ⟨.any, rfl, nofun⟩
  · exact ⟨.restricted c, rfl, nofun⟩

mutual

theorem Expr.annotated_close : ∀ {x : Expr}, x.Annotated IsNoted → x.close.Annotated IsKnown
  | ⟨f, d⟩, h => by
    rw [Expr.close_mk]
    refine ⟨fun hf => isKnown_closeDomain (h.1 ?_), Form.annotated_close h.2⟩
    rwa [← Expr.close_mk, (Expr.fills_close _).isFormula] at hf

theorem Form.annotated_close : ∀ {f : Form}, f.Annotated IsNoted → f.close.Annotated IsKnown
  | .var _, _ => trivial
  | .num _, _ => trivial
  | .truth _, _ => trivial
  | .automaton _, _ => trivial
  | .arith _ _ _, h => ⟨Expr.annotated_close h.1, Expr.annotated_close h.2⟩
  | .compare _ _ _, h => ⟨Expr.annotated_close h.1, Expr.annotated_close h.2⟩
  | .and _ _, h => ⟨Expr.annotated_close h.1, Expr.annotated_close h.2⟩
  | .or _ _, h => ⟨Expr.annotated_close h.1, Expr.annotated_close h.2⟩
  | .not x, h => Expr.annotated_close (x := x) h
  | .forSome _ _ x, h => Expr.annotated_close (x := x) h
  | .call ⟨_, xs⟩, h => annotated_closeArgs (show AnnotatedArgs IsNoted xs from h)
  | .index _ i, h => Expr.annotated_close (x := i) h
  | .rangeEq .., h => ⟨⟨Expr.annotated_close h.1.1, Expr.annotated_close h.1.2⟩,
    Expr.annotated_close h.2.1, Expr.annotated_close h.2.2⟩

theorem annotated_closeArgs : ∀ {xs : List Expr}, AnnotatedArgs IsNoted xs →
    AnnotatedArgs IsKnown (closeArgs xs)
  | [], _ => trivial
  | _ :: _, h => ⟨Expr.annotated_close h.1, annotated_closeArgs h.2⟩

end

end

end RegularArithmetic

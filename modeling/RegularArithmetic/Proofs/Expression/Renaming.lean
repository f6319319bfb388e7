import Mathlib.Tactic.Common
import RegularArithmetic.Expression.Domain

/-!
Renaming by way of a name that is not in use. Putting a fresh name for another one and a third name
for the fresh one is putting the third name for the first, whatever is quantified in between. So a
domain keeps all that the call says of its variable: the call is found again at any name.
-/

set_option autoImplicit false

namespace RegularArithmetic

mutual

/-- The names that may stand for a variable or a word, and those that are quantified. The names of
relations, of literals and of annotations are not among them, since nothing is put for these. -/
def Expr.names : Expr → List String
  | ⟨f, _⟩ => f.names

def Form.names : Form → List String
  | .var v => [v]
  | .num _ => []
  | .truth _ => []
  | .arith _ x y => x.names ++ y.names
  | .compare _ x y => x.names ++ y.names
  | .and x y => x.names ++ y.names
  | .or x y => x.names ++ y.names
  | .not x => x.names
  | .forSome v g x => v :: (guardNames g ++ x.names)
  | .call c => c.names
  | .automaton _ => []
  | .index w i => w :: i.names
  | .rangeEq w s e u t f => w :: u :: ((s.names ++ e.names) ++ (t.names ++ f.names))

def Call.names : Call → List String
  | ⟨_, xs⟩ => argNames xs

def argNames : List Expr → List String
  | [] => []
  | x :: xs => x.names ++ argNames xs

def guardNames : Option Call → List String
  | none => []
  | some c => c.names

end

section

variable {a b c : String}

theorem substName_eq_self {v : String} (h : b = v → b = c) : substName b c v = v := by
  unfold substName
  split
  · rename_i hv
    exact (h hv.symm).symm.trans hv.symm
  · rfl

theorem substName_substName {v : String} (h : b ≠ v) :
    substName b c (substName a b v) = substName a c v := by
  unfold substName
  split
  · rw [if_pos rfl]
  · rw [if_neg h.symm]

mutual

/-- Nothing is replaced if the name does not occur, or is put for itself. -/
theorem Expr.subst_eq_self : ∀ {x : Expr}, (b ∈ x.names → b = c) → x.subst b c = x
  | ⟨_, d⟩, h => congrArg (Expr.mk · d) (Form.subst_eq_self h)

theorem Form.subst_eq_self : ∀ {f : Form}, (b ∈ f.names → b = c) → f.subst b c = f
  | .var _, h => congrArg Form.var (substName_eq_self (h ∘ List.mem_singleton.2))
  | .num _, _ => rfl
  | .truth _, _ => rfl
  | .arith op _ _, h => congrArg₂ (Form.arith op) (Expr.subst_eq_self (h ∘ List.mem_append_left _))
    (Expr.subst_eq_self (h ∘ List.mem_append_right _))
  | .compare op _ _, h => congrArg₂ (Form.compare op)
    (Expr.subst_eq_self (h ∘ List.mem_append_left _))
    (Expr.subst_eq_self (h ∘ List.mem_append_right _))
  | .and _ _, h => congrArg₂ Form.and (Expr.subst_eq_self (h ∘ List.mem_append_left _))
    (Expr.subst_eq_self (h ∘ List.mem_append_right _))
  | .or _ _, h => congrArg₂ Form.or (Expr.subst_eq_self (h ∘ List.mem_append_left _))
    (Expr.subst_eq_self (h ∘ List.mem_append_right _))
  | .not _, h => congrArg Form.not (Expr.subst_eq_self h)
  | .forSome v g x, h => by
    have hbody : b ∈ guardNames g ++ x.names → b = c := h ∘ List.mem_cons_of_mem v
    rw [Form.subst, substGuard_eq_self (hbody ∘ List.mem_append_left _),
      Expr.subst_eq_self (hbody ∘ List.mem_append_right _), ite_self]
  | .call _, h => congrArg Form.call (Call.subst_eq_self h)
  | .automaton _, _ => rfl
  | .index _ _, h => congrArg₂ Form.index (substName_eq_self (h ∘ List.mem_cons.2 ∘ .inl))
    (Expr.subst_eq_self (h ∘ List.mem_cons_of_mem _))
  | .rangeEq .., h => by
    simp only [Form.names, List.mem_cons, List.mem_append, or_imp] at h
    obtain ⟨hw, hu, ⟨hs, he⟩, ht, hf⟩ := h
    rw [Form.subst, substName_eq_self hw, substName_eq_self hu, Expr.subst_eq_self hs,
      Expr.subst_eq_self he, Expr.subst_eq_self ht, Expr.subst_eq_self hf]

theorem Call.subst_eq_self : ∀ {r : Call}, (b ∈ r.names → b = c) → r.subst b c = r
  | ⟨name, _⟩, h => congrArg (Call.mk name) (substArgs_eq_self h)

theorem substArgs_eq_self : ∀ {xs : List Expr}, (b ∈ argNames xs → b = c) → substArgs b c xs = xs
  | [], _ => rfl
  | _ :: _, h => congrArg₂ List.cons (Expr.subst_eq_self (h ∘ List.mem_append_left _))
    (substArgs_eq_self (h ∘ List.mem_append_right _))

theorem substGuard_eq_self : ∀ {g : Option Call}, (b ∈ guardNames g → b = c) →
    substGuard b c g = g
  | none, _ => rfl
  | some _, h => congrArg some (Call.subst_eq_self h)

end

mutual

/-- A name that does not occur can stand in between: no quantifier captures it, and it is not taken
for what stands there already. -/
theorem Expr.subst_subst : ∀ {x : Expr}, b ∉ x.names → (x.subst a b).subst b c = x.subst a c
  | ⟨_, d⟩, h => congrArg (Expr.mk · d) (Form.subst_subst h)

theorem Form.subst_subst : ∀ {f : Form}, b ∉ f.names → (f.subst a b).subst b c = f.subst a c
  | .var _, h => congrArg Form.var (substName_substName (List.ne_of_not_mem_cons h))
  | .num _, _ => rfl
  | .truth _, _ => rfl
  | .arith op _ _, h => by
    obtain ⟨hx, hy⟩ := not_or.1 (mt List.mem_append.2 h)
    exact congrArg₂ (Form.arith op) (Expr.subst_subst hx) (Expr.subst_subst hy)
  | .compare op _ _, h => by
    obtain ⟨hx, hy⟩ := not_or.1 (mt List.mem_append.2 h)
    exact congrArg₂ (Form.compare op) (Expr.subst_subst hx) (Expr.subst_subst hy)
  | .and _ _, h => by
    obtain ⟨hx, hy⟩ := not_or.1 (mt List.mem_append.2 h)
    exact congrArg₂ Form.and (Expr.subst_subst hx) (Expr.subst_subst hy)
  | .or _ _, h => by
    obtain ⟨hx, hy⟩ := not_or.1 (mt List.mem_append.2 h)
    exact congrArg₂ Form.or (Expr.subst_subst hx) (Expr.subst_subst hy)
  | .not _, h => congrArg Form.not (Expr.subst_subst h)
  | .forSome v g x, h => by
    by_cases hv : v = a
    · -- The occurrences are bound, so the fresh name is not put anywhere.
      rw [Form.subst, if_pos hv, Form.subst_eq_self (absurd · h), Form.subst, if_pos hv]
    · obtain ⟨hvb, h⟩ := not_or.1 (mt List.mem_cons.2 h)
      obtain ⟨hg, hx⟩ := not_or.1 (mt List.mem_append.2 h)
      rw [Form.subst, if_neg hv, Form.subst, if_neg (Ne.symm hvb), substGuard_substGuard hg,
        Expr.subst_subst hx, Form.subst, if_neg hv]
  | .call _, h => congrArg Form.call (Call.subst_subst h)
  | .automaton _, _ => rfl
  | .index _ _, h => by
    obtain ⟨hw, hi⟩ := not_or.1 (mt List.mem_cons.2 h)
    exact congrArg₂ Form.index (substName_substName hw) (Expr.subst_subst hi)
  | .rangeEq .., h => by
    simp only [Form.names, List.mem_cons, List.mem_append, not_or] at h
    obtain ⟨hw, hu, ⟨hs, he⟩, ht, hf⟩ := h
    rw [Form.subst, Form.subst, substName_substName hw, substName_substName hu,
      Expr.subst_subst hs, Expr.subst_subst he, Expr.subst_subst ht, Expr.subst_subst hf,
      Form.subst]

theorem Call.subst_subst : ∀ {r : Call}, b ∉ r.names → (r.subst a b).subst b c = r.subst a c
  | ⟨name, _⟩, h => congrArg (Call.mk name) (substArgs_substArgs h)

theorem substArgs_substArgs : ∀ {xs : List Expr}, b ∉ argNames xs →
    substArgs b c (substArgs a b xs) = substArgs a c xs
  | [], _ => rfl
  | _ :: _, h => by
    obtain ⟨hx, hxs⟩ := not_or.1 (mt List.mem_append.2 h)
    exact congrArg₂ List.cons (Expr.subst_subst hx) (substArgs_substArgs hxs)

theorem substGuard_substGuard : ∀ {g : Option Call}, b ∉ guardNames g →
    substGuard b c (substGuard a b g) = substGuard a c g
  | none, _ => rfl
  | some _, h => congrArg some (Call.subst_subst h)

end

end

namespace Call

theorem isAbout_iff {r : Call} {v : String} :
    r.isAbout v = true ↔ ∃ d xs, r.args = ⟨.var v, d⟩ :: xs := by
  unfold isAbout
  split
  · rename_i w d xs hargs
    rw [hargs, decide_eq_true_eq]
    constructor
    · rintro rfl
      exact ⟨d, xs, rfl⟩
    · rintro ⟨d', xs', h⟩
      injection h with hfirst
      injection hfirst with hform
      exact Form.var.inj hform
  · rename_i hargs
    refine iff_of_false Bool.false_ne_true ?_
    rintro ⟨d, xs, h⟩
    exact hargs v d xs h

theorem isAbout_subst {r : Call} {v : String} (h : r.isAbout v = true) (u : String) :
    (r.subst v u).isAbout u = true := by
  obtain ⟨name, xs⟩ := r
  obtain ⟨d, ys, rfl⟩ := isAbout_iff.1 h
  exact isAbout_iff.2 ⟨d, substArgs v u ys, by
    simp only [Call.subst, substArgs, Expr.subst, Form.subst, substName, if_pos]⟩

end Call

namespace Domain

variable {v : String} {r : Call}

theorem restriction_eq_ok (h : r.isAbout v = true) :
    restriction v r = .ok (.restricted (r.subst v selfName)) := by
  rw [restriction, Call.requireAbout, if_pos h]
  rfl

theorem restriction_eq_error (h : ¬r.isAbout v = true) :
    restriction v r = .error (.malformedRestriction v r.text) := by
  rw [restriction, Call.requireAbout, if_neg h]
  rfl

theorem restriction_eq_ok_iff {d : Domain} :
    restriction v r = .ok d ↔ r.isAbout v = true ∧ d = .restricted (r.subst v selfName) := by
  by_cases h : r.isAbout v = true
  · rw [restriction_eq_ok h]
    simp [h, eq_comm]
  · rw [restriction_eq_error h]
    simp [h]

theorem instantiate?_of_restriction {d : Domain} (hself : selfName ∉ r.names)
    (h : restriction v r = .ok d) : d.instantiate? v = some r := by
  obtain ⟨-, rfl⟩ := restriction_eq_ok_iff.1 h
  rw [instantiate?, Call.subst_subst hself, Call.subst_eq_self fun _ => rfl]

/-- A call makes a domain exactly if its first argument is the constrained variable. It is found
again at that variable, so different calls make different domains; and the same call about any
other variable that does not occur in it makes the same domain. -/
theorem restriction_canonical (hself : selfName ∉ r.names) :
    ((∃ d, restriction v r = .ok d) ↔ ∃ e xs, r.args = ⟨.var v, e⟩ :: xs) ∧
    ((¬∃ e xs, r.args = ⟨.var v, e⟩ :: xs) →
      restriction v r = .error (.malformedRestriction v r.text)) ∧
    ∀ d, restriction v r = .ok d →
      d.instantiate? v = some r ∧
      (∀ u ∉ r.names, restriction u (r.subst v u) = .ok d) ∧
      ∀ r', selfName ∉ r'.names → restriction v r' = .ok d → r' = r := by
  refine ⟨?_, fun h => ?_, fun d hd => ?_⟩
  · rw [← Call.isAbout_iff]
    constructor
    · rintro ⟨d, hd⟩
      exact (restriction_eq_ok_iff.1 hd).1
    · exact fun h => ⟨_, restriction_eq_ok h⟩
  · exact restriction_eq_error (mt Call.isAbout_iff.1 h)
  · have hback := instantiate?_of_restriction hself hd
    obtain ⟨habout, hdomain⟩ := restriction_eq_ok_iff.1 hd
    refine ⟨hback, fun u hu => ?_, fun r' hself' hd' => ?_⟩
    · rw [restriction_eq_ok (Call.isAbout_subst habout u), Call.subst_subst hu, hdomain]
    · exact Option.some.inj ((instantiate?_of_restriction hself' hd').symm.trans hback)

/-- A call about `x`, which is free in the guard and in the body of a quantifier, and is quantified
again inside. -/
def beyondListed : Call :=
  ⟨"beyond", [.var "x", .forSome "z" (some ⟨"in_list", [.var "z", .var "x"]⟩)
    (.and (.less (.var "z") (.var "x")) (.forSome "x" none (.index "w" (.var "x"))))]⟩

/-- The variable is renamed where it is free, also under a quantifier and in its guard. -/
theorem restriction_canonical_beyondListed :
    selfName ∉ beyondListed.names ∧ "y" ∉ beyondListed.names ∧
    ∃ d, restriction "x" beyondListed = .ok d ∧ d.instantiate? "x" = some beyondListed ∧
      restriction "y" (beyondListed.subst "x" "y") = .ok d ∧
      beyondListed.subst "x" "y" =
        ⟨"beyond", [.var "y", .forSome "z" (some ⟨"in_list", [.var "z", .var "y"]⟩)
          (.and (.less (.var "z") (.var "y")) (.forSome "x" none (.index "w" (.var "x"))))]⟩ := by
  have hself : selfName ∉ beyondListed.names := by decide
  have hfresh : "y" ∉ beyondListed.names := by decide
  obtain ⟨hiff, -, hdomain⟩ := restriction_canonical (v := "x") hself
  obtain ⟨d, hd⟩ := hiff.2 ⟨_, _, rfl⟩
  obtain ⟨hback, hrenamed, -⟩ := hdomain d hd
  exact ⟨hself, hfresh, d, hd, hback, hrenamed "y" hfresh, rfl⟩

end Domain

end RegularArithmetic

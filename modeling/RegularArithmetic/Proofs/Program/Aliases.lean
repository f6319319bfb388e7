import Mathlib.Tactic.Common
import RegularArithmetic.Program.Basic

/-!
Names that stand for predicates. Aliases lead from a name to the next one, perhaps round in a
circle; a predicate ends the chain, also where there is an alias of its name. The first `aliasLimit`
names on the chain are looked at, the one that was asked for among them, so a predicate behind fewer
than `aliasLimit` aliases is found, and one behind `aliasLimit` of them is not.
-/

set_option autoImplicit false

namespace RegularArithmetic.Program

/-- The predicate `b` is the first one on the chain of names that starts at `a`, and `k` aliases
lead to it. -/
inductive StandsFor (p : Program) : Nat → String → String → Prop
  | self {a : String} (h : p.predicates.contains a = true) : StandsFor p 0 a a
  | next {k : Nat} {a b c : String} (hnone : p.predicates.contains a = false)
      (halias : p.context[a]? = some b) (h : StandsFor p k b c) : StandsFor p (k + 1) a c

variable {p p' : Program} {a b c name target : String} {k l n : Nat}

theorem contains_of_getElem?_eq_some {q : Predicate} (h : p.predicates[name]? = some q) :
    p.predicates.contains name = true := by
  rw [Std.TreeMap.contains_eq_isSome_getElem?, h, Option.isSome_some]

theorem contains_of_getElem?_eq_none (h : p.predicates[name]? = none) :
    p.predicates.contains name = false := by
  rw [Std.TreeMap.contains_eq_isSome_getElem?, h, Option.isSome_none]

theorem StandsFor.contains (h : p.StandsFor k a b) : p.predicates.contains b = true := by
  induction h with
  | self h => exact h
  | next _ _ _ ih => exact ih

theorem StandsFor.unique (h : p.StandsFor k a b) (h' : p.StandsFor l a c) : k = l ∧ b = c := by
  induction h generalizing l with
  | self hpredicate =>
    cases h' with
    | self => exact ⟨rfl, rfl⟩
    | next hnone => exact absurd hpredicate (hnone ▸ Bool.false_ne_true)
  | next hnone halias _ ih =>
    cases h' with
    | self hpredicate => exact absurd hpredicate (hnone ▸ Bool.false_ne_true)
    | next _ halias' hrest =>
      obtain rfl := Option.some_inj.1 (halias.symm.trans halias')
      obtain ⟨rfl, rfl⟩ := ih hrest
      exact ⟨rfl, rfl⟩

theorem followAlias_eq_ok_iff :
    p.followAlias name n a = .ok b ↔ ∃ k < n, p.StandsFor k a b := by
  induction n generalizing a with
  | zero => simp [followAlias]
  | succ n ih =>
    rw [followAlias]
    cases hpredicate : p.predicates.contains a with
    | true =>
      rw [if_pos rfl]
      constructor
      · intro h
        obtain rfl := Except.ok.inj h
        exact ⟨0, n.succ_pos, .self hpredicate⟩
      · rintro ⟨k, -, h⟩
        exact congrArg Except.ok (StandsFor.unique (.self hpredicate) h).2
    | false =>
      rw [if_neg Bool.false_ne_true]
      cases halias : p.context[a]? with
      | none =>
        refine ⟨nofun, ?_⟩
        rintro ⟨k, -, h⟩
        cases h with
        | self h => exact absurd h (hpredicate ▸ Bool.false_ne_true)
        | next _ h => exact absurd (halias.symm.trans h) nofun
      | some next =>
        refine ih.trans ⟨?_, ?_⟩
        · rintro ⟨k, hk, h⟩
          exact ⟨k + 1, Nat.succ_lt_succ hk, .next hpredicate halias h⟩
        · rintro ⟨k, hk, h⟩
          cases h with
          | self h => exact absurd h (hpredicate ▸ Bool.false_ne_true)
          | next _ h hrest =>
            obtain rfl := Option.some_inj.1 (halias.symm.trans h)
            exact ⟨_, Nat.lt_of_succ_lt_succ hk, hrest⟩

theorem followAlias_eq_ok_or_error (n : Nat) (a : String) :
    (∃ b, p.followAlias name n a = .ok b) ∨
      p.followAlias name n a = .error (.unboundPredicate name) := by
  induction n generalizing a with
  | zero => exact .inr rfl
  | succ n ih =>
    rw [followAlias]
    split
    · exact .inl ⟨a, rfl⟩
    · split
      · exact ih _
      · exact .inr rfl

theorem resolveAlias_congr (hpredicates : p'.predicates = p.predicates)
    (hcontext : p'.context = p.context) (name : String) :
    p'.resolveAlias name = p.resolveAlias name := by
  have hfollow : ∀ n a, p'.followAlias name n a = p.followAlias name n a := by
    intro n
    induction n with
    | zero => exact fun _ => rfl
    | succ n ih =>
      intro a
      simp only [followAlias, hpredicates, hcontext, ih]
  exact hfollow _ _

/-- A name is resolved to the first predicate on its chain, if fewer than `aliasLimit` aliases lead
there. -/
theorem resolveAlias_eq_ok_iff :
    p.resolveAlias name = .ok target ↔ ∃ k < aliasLimit, p.StandsFor k name target :=
  followAlias_eq_ok_iff

theorem resolveAlias_self (h : p.predicates.contains name = true) :
    p.resolveAlias name = .ok name :=
  resolveAlias_eq_ok_iff.2 ⟨0, by decide, .self h⟩

theorem resolveAlias_alias (hnone : p.predicates.contains name = false)
    (halias : p.context[name]? = some target) (h : p.predicates.contains target = true) :
    p.resolveAlias name = .ok target :=
  resolveAlias_eq_ok_iff.2 ⟨1, by decide, .next hnone halias (.self h)⟩

/-- In all other cases it is unbound: where the chain ends in a name without an alias, where it
goes round, and where it is too long. -/
theorem resolveAlias_eq_error_iff :
    p.resolveAlias name = .error (.unboundPredicate name) ↔
      ∀ k < aliasLimit, ∀ target, ¬p.StandsFor k name target := by
  constructor
  · intro herror k hk target h
    have hok := resolveAlias_eq_ok_iff.2 ⟨k, hk, h⟩
    exact absurd (herror.symm.trans hok) nofun
  · intro hnone
    refine (followAlias_eq_ok_or_error aliasLimit name).resolve_left ?_
    rintro ⟨target, hok⟩
    obtain ⟨k, hk, h⟩ := followAlias_eq_ok_iff.1 hok
    exact hnone k hk target h

/-- Whatever predicates and aliases there are, circular ones among them: a name is resolved to the
first predicate on its chain if fewer than `aliasLimit` aliases lead there, and is unbound if there
is no predicate on the chain or it is further away. -/
theorem resolveAlias_cases (p : Program) (name : String) :
    (∃ k < aliasLimit, ∃ target, p.StandsFor k name target ∧ p.resolveAlias name = .ok target) ∨
      (∀ k target, p.StandsFor k name target → aliasLimit ≤ k) ∧
        p.resolveAlias name = .error (.unboundPredicate name) := by
  by_cases h : ∃ k < aliasLimit, ∃ target, p.StandsFor k name target
  · obtain ⟨k, hk, target, hstands⟩ := h
    exact .inl ⟨k, hk, target, hstands, resolveAlias_eq_ok_iff.2 ⟨k, hk, hstands⟩⟩
  · have hfar : ∀ k target, p.StandsFor k name target → aliasLimit ≤ k := fun k target hstands =>
      Nat.not_lt.1 fun hk => h ⟨k, hk, target, hstands⟩
    refine .inr ⟨hfar, resolveAlias_eq_error_iff.2 fun k hk target hstands => ?_⟩
    exact absurd (hfar k target hstands) (Nat.not_le.2 hk)

/-- A predicate behind `aliasLimit` aliases is not found: `aliasLimit` is the number of names on the
chain that are looked at, which is one more than the aliases between them. -/
theorem resolveAlias_of_aliasLimit_le (h : p.StandsFor k name target) (hk : aliasLimit ≤ k) :
    p.resolveAlias name = .error (.unboundPredicate name) := by
  refine resolveAlias_eq_error_iff.2 fun l hl target' h' => ?_
  obtain ⟨rfl, -⟩ := h.unique h'
  exact absurd hl (Nat.not_lt.2 hk)

end RegularArithmetic.Program

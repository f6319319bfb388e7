/-!
The ways a request can end without an answer. An error is an answer about the input and has a
wording; a fault is a request outside what an operation is defined for, and has none.
-/

set_option autoImplicit false

namespace RegularArithmetic

/-- A request that an operation is not defined for. -/
inductive Fault where
  /-- Variable 0 is the terminal's and labels no other node. -/
  | zeroVariable
  /-- No node is stored under the number. -/
  | missingNode
  /-- A cofactor is taken by a variable below the topmost one. -/
  | misordered
  /-- A signed literal does not fit into 32 bits. -/
  | literalOverflow
  /-- A table of more than `2 ^ 31` lines, or a list announced with `2 ^ 61` names or more. -/
  | oversized
  /-- The number is not one of the automaton's states. -/
  | missingState
  /-- The number is not one of the alphabet's propositions. -/
  | missingProposition
  /-- The two automata read different alphabets. -/
  | foreignAlphabet
  /-- There is no open scope to leave. -/
  | noOpenScope
  /-- A file is provided under a path that is not the name of one. -/
  | misnamedFile
  /-- The evaluation nests deeper than the evaluator goes. -/
  | exhausted
  deriving DecidableEq, Repr, Inhabited

/-- What can be wrong with a program, a formula or a text. -/
inductive Error where
  | arity (name : String) (expected actual : Nat)
  | noMatchingPredicate (call reason : String)
  | unification (left right : String)
  | malformedRestriction (name call : String)
  | arithmetic (expression reason : String)
  | unboundPredicate (name : String)
  | unboundVariable (name owner : String)
  | cyclicPredicate (name : String)
  | budgetExceeded (states limit : Nat)
  | format (line : Nat) (reason : String)
  | file
  deriving DecidableEq, Repr

namespace Error

/-- The wording of an error; a failing file has none of its own. -/
def message : Error → Option String
  | arity name expected actual =>
    some s!"predicate `{name}` expects {expected} argument(s), got {actual}"
  | noMatchingPredicate call reason => some s!"no matching predicate for `{call}`: {reason}"
  | unification left right => some s!"cannot unify `{left}` with `{right}`"
  | malformedRestriction v call =>
    some (s!"malformed restriction on `{v}`: `{call}` is not a call with `{v}` " ++
      "as its first argument")
  | arithmetic expression reason => some s!"arithmetic type error in `{expression}`: {reason}"
  | unboundPredicate name => some s!"unbound predicate `{name}`"
  | unboundVariable v owner => some s!"unbound variable `{v}` in `{owner}`"
  | cyclicPredicate name => some s!"predicate `{name}` depends on itself"
  | budgetExceeded states limit =>
    some s!"automaton exceeds the state budget ({states} > {limit})"
  | format line reason => some s!"format error at line {line}: {reason}"
  | file => none

end Error

/-- The end of a computation that gives no value. -/
inductive Failure where
  | error (e : Error)
  | fault (f : Fault)
  deriving DecidableEq, Repr

end RegularArithmetic

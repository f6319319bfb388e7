import RegularArithmetic.Truth

/-!
What became of the assertions of a session.
-/

set_option autoImplicit false

namespace RegularArithmetic

/-- What was expected of a predicate, and what it is. -/
structure Assertion where
  name : String
  expected : Truth
  actual : Truth
  deriving DecidableEq, Repr

namespace Assertion

def passed (a : Assertion) : Bool := a.expected = a.actual

def text (a : Assertion) : String :=
  let status := if a.passed then "ok" else "FAILED"
  s!"{a.name}: expected {a.expected.text}, got {a.actual.text} ... {status}"

end Assertion

/-- The assertions in the order they were made. -/
structure Report where
  assertions : List Assertion
  deriving DecidableEq, Repr

namespace Report

def empty : Report := ⟨[]⟩

def passed (r : Report) : Bool := r.assertions.all (·.passed)

def failures (r : Report) : List Assertion := r.assertions.filter (!·.passed)

/-- A line for each assertion, and a summary. -/
def text (r : Report) : String :=
  let failed := r.failures.length
  let total := r.assertions.length
  String.join (r.assertions.map (·.text ++ "\n")) ++
    s!"{total} assertion(s), {total - failed} passed, {failed} failed"

end Report

end RegularArithmetic

import RegularArithmetic.Program.Evaluation

/-!
Defining predicates. The body gets its domains, may be simplified, and is evaluated at once; a
predicate whose evaluation fails is taken out again. The relations between numbers that every
program starts with are defined in the same way.
-/

set_option autoImplicit false

namespace RegularArithmetic

namespace Predicate

def ofBody (name : String) (args : List String) (guards : List (String × Call)) (body : Expr) :
    Predicate :=
  ⟨name, args, guards, body, none, none⟩

end Predicate

namespace Program

/-- The guards of a predicate as a scope, unless one is malformed. -/
def guardScope (guards : List (String × Call)) : Except Error Scope :=
  guards.foldlM (fun s (v, c) => do
    c.requireAbout v
    return s.update v (· ++ [c])) []

def removePredicate (p : Program) (name : String) : Program :=
  { p with predicates := p.predicates.erase name }

/-- Defines a predicate, in place of another of its name. -/
def define (q : Predicate) : M Unit := do
  let guards ← guardScope q.guards
  let body ← withScope guards (inferred q.body)
  let body := if (← ask (·.config)).optimize then (body.simplify.run 0).1 else body
  change (·.adopt { q with body, closure := none, memo := none })
  try
    discard (Engine.standard.memoOf q.name)
  catch e =>
    change (·.removePredicate q.name)
    throw e

/-- A relation as a literal whose arguments have the given names, the shorter list deciding. -/
def literalOf (name : String) (r : Relation) (args : List String) : M Literal := do
  let stamp ← Alphabet.freshLiteral
  return ⟨name, stamp, r.automaton, args.zip r.args⟩

def defineRelation (name : String) (args : List String) (r : Relation) : M Unit := do
  let l ← literalOf name r args
  define (.ofBody name args [] (.automaton l))

/-- Defines the relations of base 2, and puts them into the places that evaluation asks for. -/
def installBinary : M Unit := do
  defineRelation "bin_add" ["a", "b", "c"] (← Binary.add)
  defineRelation "bin_equal" ["a", "b"] (← Binary.equal)
  defineRelation "bin_less" ["a", "b"] (← Binary.less)
  defineRelation "bin_zero" ["a"] (← Binary.zero)
  change fun p => ((p.setAlias "adder" "bin_add").setAlias "equal" "bin_equal").setAlias
    "less" "bin_less"

end Program

end RegularArithmetic

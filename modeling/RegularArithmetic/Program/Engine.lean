import RegularArithmetic.Automaton.Boolean
import RegularArithmetic.Automaton.Projection
import RegularArithmetic.Program.Basic

/-!
Calls of predicates. Formulas, integer expressions and predicates are evaluated in terms of each
other; each of these modules says how one of them is evaluated, given an engine for whatever it
meets.
-/

set_option autoImplicit false

namespace RegularArithmetic.Program

/-- How formulas and integer expressions are evaluated, and questions about formulas answered. -/
structure Engine where
  formula : Expr → M Automaton
  value : Expr → M Value
  truth : Expr → M Truth

/-- The automaton read over other propositions: of two entries for one, the later counts. -/
def renameBy (a : Automaton) (pairs : List (Nat × Nat)) : Diagram.M Automaton := do
  let ρ (p : Nat) : Nat := (pairs.reverse.lookup p).getD p
  return (← a.rename ρ).withProps (pairs.map fun (p, _) => ρ p)

def temporaryProps (vs : List Value) : NumberSet :=
  .ofList ((vs.filter (·.temporary)).map (·.prop))

/-- Joins an automaton with the values that it is about, and quantifies the temporary ones. -/
def combine (a : Automaton) (vs : List Value) : Alphabet.M Automaton := do
  let a ← vs.foldlM (fun a v => a.intersect v.automaton) a
  a.project (temporaryProps vs)

/-- The conjunction of calls and a formula. -/
def conjoin (cs : List Call) (x : Expr) : Expr :=
  cs.foldr (fun c x => .and c.toExpr x) x

namespace Engine

variable (k : Engine)

/-- The predicate with the name. -/
def predicate (name : String) : M Predicate := do
  match (← ask (·.predicates))[name]? with
  | some q => return q
  | none => throw (.error (.unboundPredicate name))

/-- The restrictions that the body is evaluated under, which are those in force if this is the
first time. -/
def closureOf (q : Predicate) : M Scope := do
  match q.closure with
  | some s => return s
  | none =>
    let s := (← ask (·.restrictions)).snapshot
    change (·.adopt { q with closure := some s })
    return s

/-- The relation that the body of a predicate defines. Nothing is bound in it but the
arguments. -/
def evaluateBody (name : String) : M Relation := do
  let q ← predicate name
  let closure ← closureOf q
  withScope (q.guards.foldl (fun s (v, g) => s.add v g) closure) do
    let formals ← q.args.mapM fun v => (Alphabet.fresh v : M Nat)
    withFrame ⟨.sealed, name, (q.args.zip formals).reverse⟩ do
      let r ← ask (·.restrictions)
      let a ← k.formula (conjoin (q.args.flatMap r.visible) q.body)
      return ⟨a.withProps formals, formals⟩

/-- Computes while a predicate is in progress. -/
def whileInProgress {α : Type} (name : String) (x : M α) : M α := do
  change fun p => { p with inProgress := name :: p.inProgress }
  followedBy x (change fun p => { p with inProgress := p.inProgress.drop 1 })

/-- The memo of a predicate, which is made at the first call. -/
def memoOf (name : String) : M Relation := do
  match (← predicate name).memo with
  | some r => return r
  | none =>
    if (← ask (·.config)).detectCycles && (← ask (·.inProgress)).contains name then
      throw (.error (.cyclicPredicate name))
    let r ← whileInProgress name (k.evaluateBody name)
    change (·.adopt { ← predicate name with memo := some r })
    return r

/-- The relation that a predicate or alias names, with the predicate's own name. -/
def relationOf (name : String) : M (String × Relation) := do
  let target ← (← ask id).resolveAlias name
  return (target, ← k.memoOf target)

/-- The relation that a predicate or alias names, said of the given variables. -/
def callOn (name : String) (vars : List String) : M Automaton := do
  let (target, r) ← k.relationOf name
  if vars.length ≠ r.args.length then
    throw (.error (.arity target r.args.length vars.length))
  let actuals ← vars.mapM propOf
  renameBy r.automaton (r.args.zip actuals)

/-- An argument as a variable, with the value that the variable stands for if it is not one of
the caller's. -/
def argument (x : Expr) : M (String × Option Value) := do
  match x.form with
  | .var v => return (v, none)
  | _ =>
    if x.isFormula then
      throw (.error (.arithmetic x.text "formula passed as a predicate argument"))
    let v ← k.value x
    return (v.var, some v)

def apply (c : Call) : M Automaton := do
  let args ← c.args.mapM k.argument
  let a ← k.callOn c.name (args.map (·.1))
  combine a (args.filterMap (·.2))

/-- Evaluates a call. -/
def call (c : Call) : M Automaton := do
  let p ← ask id
  k.apply (← p.resolveCall c (c.args.map p.domainOf))

/-- A relation of the context, said of variables in the given domains. -/
def relation (name : String) (vars : List (String × Domain)) : M Automaton := do
  let c : Call := ⟨name, vars.map fun (v, d) => ⟨.var v, some d⟩⟩
  k.apply (← (← ask id).resolveCall c (vars.map (·.2)))

end Engine

end RegularArithmetic.Program

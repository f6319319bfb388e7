import RegularArithmetic.Program.Arithmetic
import RegularArithmetic.Program.Inference

/-!
Evaluating formulas. The automaton of a formula accepts the assignments of its free variables
that make it true. An engine of some depth follows that many steps of evaluation into each
other, and ends in a fault beyond.
-/

set_option autoImplicit false

namespace RegularArithmetic.Program

namespace Engine

variable (k : Engine)

/-- "For some value of `v`", which is restricted by the guard and by what is in force. -/
def evaluateSome (v : String) (guard : Option Call) (x : Expr) : M Automaton := do
  let r ← ask (·.restrictions)
  let full := conjoin (guard.toList ++ r.visible v) x
  withScope [] do
    if let some c := guard then restrictBy (·.restrict v c)
    let p ← Alphabet.fresh v
    withFrame ⟨.transparent, v, [(v, p)]⟩ do
      (← k.formula full).project (.ofList [p])

/-- An automaton literal, said of the variables in scope. -/
def evaluateLiteral (l : Literal) : M Automaton := do
  let pairs ← l.vars.mapM fun (v, p) => return (p, ← propOf v)
  renameBy l.automaton pairs

def evaluateComparison (op : Comparison) (x y : Expr) : M Automaton := do
  let v ← k.value x
  let w ← k.value y
  let p ← ask id
  let name := match op with
    | .equal => "equal"
    | .less => "less"
  let a ← k.relation name [(v.var, p.domainOf x), (w.var, p.domainOf y)]
  combine a [v, w]

def evaluateIff (x y : Expr) : M Automaton := do
  let a ← k.formula x
  let b ← k.formula y
  let both ← a.intersect b
  let a' ← a.complement
  let b' ← b.complement
  let neither ← a'.intersect b'
  both.union neither

/-- "The ranges have a common length, and agree at each place below it". -/
def rangesAgree (len n : String) (w : String) (s e : Expr) (u : String) (t f : Expr) : Expr :=
  let sameLength := Expr.and (.equal (.var len) (.arith .sub e s))
    (.equal (.var len) (.arith .sub f t))
  let agree := Expr.equal (.index w (.arith .add s (.var n))) (.index u (.arith .add t (.var n)))
  .forSome len none
    (.and sameLength (.forAll n none (.implies (.less (.var n) (.var len)) agree)))

/-- Evaluates a formula. A conjunction whose first part is never true is not evaluated
further. -/
def evaluateFormula (x : Expr) : M Automaton := do
  match x.form with
  | .truth true => return .universal
  | .truth false => return .empty
  | .and y z =>
    let a ← k.formula y
    if ← a.isEmpty then return a
    a.intersect (← k.formula z)
  | .or y z =>
    let a ← k.formula y
    let b ← k.formula z
    a.union b
  | .not y => (← k.formula y).complement
  | .forSome v g y => k.evaluateSome v g y
  | .call c => k.call c
  | .automaton l => evaluateLiteral l
  | .index w i => k.call ⟨w, [i]⟩
  | .rangeEq w s e u t f =>
    let len ← temporaryName "len"
    let n ← temporaryName "n"
    k.formula (rangesAgree len n w s e u t f)
  | .compare op y z =>
    match op, y.isFormula, z.isFormula with
    | _, false, false => k.evaluateComparison op y z
    | .equal, true, true => k.evaluateIff y z
    | _, _, _ => throw (.error (.arithmetic x.text "comparison mixes formulas and integers"))
  | .var _ | .num _ | .arith .. =>
    throw (.error (.arithmetic x.text "integer expression used as a formula"))

/-- The frame of a question, in which all variables that are not bound are free. -/
def queryFrame : Frame := ⟨.free, "query", []⟩

/-- Whether a formula holds always, never, or of some values of its free variables. -/
def evaluateTruth (x : Expr) : M Truth :=
  withFrame queryFrame do
    let x ← infer k.truth x
    (← k.formula x).truth

/-- The engine that follows so many steps. -/
def ofDepth : Nat → Engine
  | 0 => ⟨fun _ => throw (.fault .exhausted), fun _ => throw (.fault .exhausted),
      fun _ => throw (.fault .exhausted)⟩
  | n + 1 => ⟨fun x => evaluateFormula (ofDepth n) x, fun x => evaluateValue (ofDepth n) x,
      fun x => evaluateTruth (ofDepth n) x⟩

/-- The depth of the engine of all requests. An evaluation nests only as deep as the expressions,
the bodies of predicates and the restrictions that it meets, far above which this lies. -/
def limit : Nat := 1000000000

/-- The engine of all requests. -/
def standard : Engine := ofDepth limit

end Engine

/-- Finds the domains of an expression. -/
def inferred (x : Expr) : M Expr := infer Engine.standard.truth x

/-- Whether a formula holds always, never, or of some values of its free variables. -/
def truthOf (x : Expr) : M Truth := Engine.standard.truth x

def automatonOf (name : String) : M Automaton :=
  return (← Engine.standard.relationOf name).2.automaton

def callOn (name : String) (vars : List String) : M Automaton := Engine.standard.callOn name vars

/-- Whether a predicate holds always, never, or of some arguments. -/
def predicateTruth (name : String) : M Truth := do
  (← automatonOf name).truth

/-- A number as an automaton, with the proposition of its digits. -/
def constantOf (d : Domain) (n : Nat) : M Relation := do
  let v ← Engine.standard.constant d n
  return ⟨v.automaton, [v.prop]⟩

/-- The variables of the innermost frame that do not belong to the evaluator. -/
def openVars (p : Program) : List (String × Nat) :=
  match p.frames with
  | f :: _ => f.vars.filter fun (v, _) => !reservedStart.toList.isPrefixOf v.toList
  | [] => []

/-- The number whose lowest digit comes first in the word. -/
def numberIn (p : Nat) (w : List Letter) : Nat :=
  w.foldr (fun l n => 2 * n + (if p ∈ l then 1 else 0)) 0

/-- Values of the free variables that make a formula true, if there are some. -/
def witness (x : Expr) : M (Option (List (String × Nat))) :=
  withFrame Engine.queryFrame do
    let x ← inferred x
    let a ← Engine.standard.formula x
    let vars ← ask (·.openVars)
    match ← a.acceptedWord? with
    | none => return none
    | some w => return some (vars.map fun (v, p) => (v, numberIn p w))

end RegularArithmetic.Program

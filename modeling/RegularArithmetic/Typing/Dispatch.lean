import RegularArithmetic.Expression.Domain

/-!
Calls that are resolved by the domains of their arguments. A declaration is made for the domains
of one shape and gives methods their targets; a call of a method goes to the target on which all
its arguments agree.
-/

set_option autoImplicit false

namespace RegularArithmetic

/-- The shape of a domain, whose first argument is the constrained variable and whose other
variables are parameters, and the targets of the methods. -/
structure Declaration where
  shape : Call
  methods : List (String × Call)
  deriving DecidableEq

/-- What an argument asks of the target: nothing, or a name with some arguments already given. -/
inductive Pattern where
  | wildcard
  | target (name : String) (args : List (Option Expr))
  deriving DecidableEq

namespace Declaration

/-- The values of the parameters after one more argument of the shape is compared. -/
def bindArg (bound : List (String × Expr)) (p x : Expr) : Option (List (String × Expr)) :=
  match p.form with
  | .var v =>
    if v = selfName then
      if p.form.beq x.form then some bound else none
    else
      match bound.lookup v with
      | some y => if y = x then some bound else none
      | none => some ((v, x) :: bound)
  | f => if f.beq x.form then some bound else none

/-- The values of the parameters after all arguments of the shape are compared. -/
def bindArgs (bound : List (String × Expr)) :
    List Expr → List Expr → Option (List (String × Expr))
  | p :: ps, x :: xs => do bindArgs (← bindArg bound p x) ps xs
  | _, _ => some bound

/-- The values of the parameters, if the restricting call has the shape. -/
def bind? (d : Declaration) (c : Call) : Option (List (String × Expr)) :=
  match d.shape.args with
  | ⟨.var v, _⟩ :: _ =>
    let ps := d.shape.subst v selfName
    if ps.name = c.name ∧ ps.args.length = c.args.length then
      bindArgs [] (ps.args.drop 1) (c.args.drop 1)
    else none
  | _ => none

/-- The target of a method, where parameters have their values and other variables are open. -/
def fill (bound : List (String × Expr)) (target : Call) : Pattern :=
  .target target.name (target.args.map fun x =>
    match x.form with
    | .var v => bound.lookup v
    | _ => some x)

end Declaration

namespace Pattern

/-- What a value of the domain asks of the target of a method, by the first declaration that
has the method and is made for the domain. -/
def ofDomain (ds : List Declaration) (method : String) : Domain → Pattern
  | .restricted c =>
    let targets := ds.filterMap fun d => do
      let target ← d.methods.lookup method
      return Declaration.fill (← d.bind? c) target
    targets.headD .wildcard
  | _ => .wildcard

/-- Arguments that are given twice have to agree. -/
def unifyArgs (name : String) : List (Option Expr) → List (Option Expr) →
    Except String (List (Option Expr))
  | none :: xs, y :: ys => return y :: (← unifyArgs name xs ys)
  | some x :: xs, none :: ys => return some x :: (← unifyArgs name xs ys)
  | some x :: xs, some y :: ys =>
    if x = y then return some x :: (← unifyArgs name xs ys)
    else throw s!"`{name}` is bound to both `{x.text}` and `{y.text}`"
  | _, _ => return []

/-- Both demands at once, or why they disagree. -/
def unify : Pattern → Pattern → Except String Pattern
  | wildcard, p => return p
  | p, wildcard => return p
  | target m xs, target n ys =>
    if m ≠ n then throw s!"arguments select both `{m}` and `{n}`"
    else if xs.length ≠ ys.length then throw s!"`{m}` is declared with different arities"
    else return target m (← unifyArgs m xs ys)

def openCount (slots : List (Option Expr)) : Nat := (slots.filter Option.isNone).length

/-- Puts the arguments into the open places, in order. -/
def fillSlots : List (Option Expr) → List Expr → List Expr
  | some x :: slots, args => x :: fillSlots slots args
  | none :: slots, x :: args => x :: fillSlots slots args
  | _, _ => []

end Pattern

/-- The call that a call of `name` stands for, given the domains of its arguments. Where these
ask for nothing, the call stands for itself, unless there is only a method of that name. -/
def resolve (ds : List Declaration) (callable : String → Bool) (c : Call)
    (domains : List Domain) : Except Error Call := do
  let fail {α : Type} (reason : String) : Except Error α :=
    .error (.noMatchingPredicate c.text reason)
  let pattern := domains.foldlM (fun p d => p.unify (.ofDomain ds c.name d)) Pattern.wildcard
  match pattern with
  | .error reason => fail reason
  | .ok .wildcard =>
    if !callable c.name && ds.any fun d => (d.methods.lookup c.name).isSome then
      fail "the argument types match no declaration defining it"
    else return c
  | .ok (.target name slots) =>
    let n := Pattern.openCount slots
    if n ≠ c.args.length then
      fail s!"`{name}` has {n} open slot(s) for {c.args.length} argument(s)"
    else return ⟨name, Pattern.fillSlots slots c.args⟩

end RegularArithmetic

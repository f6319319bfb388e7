import Std.Data.TreeMap
import RegularArithmetic.Binary
import RegularArithmetic.Typing.Dispatch
import RegularArithmetic.Typing.Restrictions

/-!
The state of a program: its predicates, the restrictions and declarations in force, the
variables in scope and the constants made so far. Inside a scope or a frame a computation leaves
both as it found them, also when it fails.
-/

set_option autoImplicit false

namespace RegularArithmetic

/-- A named formula about its arguments. The restrictions in force at its first evaluation are
kept as its closure, and the relation that it defines as its memo. -/
structure Predicate where
  name : String
  args : List String
  guards : List (String × Call)
  body : Expr
  closure : Option Scope
  memo : Option Relation
  deriving DecidableEq

/-- What becomes of a variable that a frame does not hold: it is looked up further out, it is
free and gets a proposition here, or it is unbound. -/
inductive FrameKind where
  | transparent | free | sealed
  deriving DecidableEq, Repr

/-- Variables and their propositions, the newest first. -/
structure Frame where
  kind : FrameKind
  owner : String
  vars : List (String × Nat)
  deriving DecidableEq, Repr

/-- The value of an integer expression: the automaton says what `var` is, given the variables of
the expression. A temporary variable was made for this value only. -/
structure Value where
  automaton : Automaton
  var : String
  prop : Nat
  temporary : Bool
  deriving DecidableEq

/-- Settings: the size of the tables, the largest number of states, whether bodies are
simplified, and whether a predicate may meet itself. -/
structure Config where
  bits : Nat
  budget : Option Nat
  optimize : Bool
  detectCycles : Bool
  deriving DecidableEq, Repr

namespace Config

def usual : Config := ⟨16, none, true, true⟩

end Config

/-- The frames are listed from the innermost; `inProgress` are the predicates whose bodies are
being evaluated, and `temporaries` counts the names made for temporary variables. -/
structure Program where
  config : Config
  predicates : Std.TreeMap String Predicate
  declarations : List Declaration
  context : Std.TreeMap String String
  restrictions : Restrictions
  frames : List Frame
  constants : List ((Nat × Domain) × Value)
  inProgress : List String
  temporaries : Nat

/-- A program and the alphabet that it may share with others. -/
structure Workspace where
  alphabet : Alphabet
  program : Program

namespace Program

/-- A program without definitions; outside all predicates, variables are free. -/
def blank (config : Config) : Program where
  config
  predicates := ∅
  declarations := []
  context := ∅
  restrictions := .none
  frames := [⟨.free, "top level", []⟩]
  constants := []
  inProgress := []
  temporaries := 0

/-- Calls of a name that are not resolved otherwise go to the target. -/
def setAlias (p : Program) (name target : String) : Program :=
  { p with context := p.context.insert name target }

/-- Replaces the declaration for a shape of the same name, or adds it behind the others. -/
def addDeclaration (p : Program) (d : Declaration) : Program :=
  { p with declarations := place p.declarations }
where
  /-- The list with the declaration at its place. -/
  place : List Declaration → List Declaration
    | [] => [d]
    | e :: es => if e.shape.name = d.shape.name then d :: es else e :: place es

def isCallable (p : Program) (name : String) : Bool :=
  p.predicates.contains name || p.context.contains name

/-- The longest chain of aliases that is followed. -/
def aliasLimit : Nat := 16

/-- Follows aliases from `current` until one names a predicate, within so many names. -/
def followAlias (p : Program) (name : String) : Nat → String → Except Error String
  | 0, _ => .error (.unboundPredicate name)
  | n + 1, current =>
    if p.predicates.contains current then .ok current
    else
      match p.context[current]? with
      | some target => p.followAlias name n target
      | none => .error (.unboundPredicate name)

/-- The name of the predicate that a name or alias stands for. -/
def resolveAlias (p : Program) (name : String) : Except Error String :=
  p.followAlias name aliasLimit name

/-- The call that a call stands for. One that is not resolved by its own name is tried once more
under its alias. -/
def resolveCall (p : Program) (c : Call) (domains : List Domain) : Except Error Call :=
  match resolve p.declarations p.isCallable c domains with
  | .ok c => .ok c
  | .error e =>
    match p.context[c.name]? with
    | some target => resolve p.declarations p.isCallable { c with name := target } domains
    | none => .error e

/-- The domain of a variable, all numbers if its restriction is malformed. -/
def domainOfVar (p : Program) (v : String) : Domain :=
  match p.restrictions.domainOf v with
  | .ok d => d
  | .error _ => .any

/-- The domain of an argument; a plain variable has that of its restrictions. -/
def domainOf (p : Program) (x : Expr) : Domain :=
  match x.domain, x.form with
  | some .pending, .var v | none, .var v => p.domainOfVar v
  | some .pending, _ | none, _ => .any
  | some d, _ => d

/-- A computation of a program over its alphabet. -/
abbrev M := EStateM Failure Workspace

instance : MonadLift Alphabet.M M where
  monadLift x := fun ⟨alphabet, program⟩ =>
    match x alphabet with
    | .ok r alphabet => .ok r ⟨alphabet, program⟩
    | .error e alphabet => .error e ⟨alphabet, program⟩

instance : MonadLift (Except Error) M where
  monadLift
    | .ok r => pure r
    | .error e => throw (.error e)

def ask {α : Type} (q : Program → α) : M α := fun w => .ok (q w.program) w

def change (f : Program → Program) : M Unit := fun ⟨alphabet, program⟩ =>
  .ok () ⟨alphabet, f program⟩

/-- Changes the restrictions, unless that is an error. -/
def restrictBy (f : Restrictions → Except Error Restrictions) : M Unit := do
  let r ← f (← ask (·.restrictions))
  change fun p => { p with restrictions := r }

def exitScope : M Unit := do
  let r ← (← ask (·.restrictions)).exit
  change fun p => { p with restrictions := r }

/-- Goes on with `after` however `x` ends. -/
def followedBy {α : Type} (x : M α) (after : M Unit) : M α := fun w =>
  match x w with
  | .ok r w =>
    match after w with
    | .ok _ w => .ok r w
    | .error e w => .error e w
  | .error e w =>
    match after w with
    | .ok _ w => .error e w
    | .error e w => .error e w

def withScope {α : Type} (s : Scope) (x : M α) : M α := do
  change fun p => { p with restrictions := p.restrictions.enter s }
  followedBy x exitScope

def withFrame {α : Type} (f : Frame) (x : M α) : M α := do
  change fun p => { p with frames := f :: p.frames }
  followedBy x (change fun p => { p with frames := p.frames.drop 1 })

/-- What the frames say of a variable. -/
inductive Found where
  | bound (p : Nat)
  | free
  | unbound (owner : String)
  deriving DecidableEq, Repr

/-- Looks a variable up from the innermost frame outwards. -/
def findVar (v : String) : List Frame → Found
  | [] => .unbound "top level"
  | f :: fs =>
    match f.vars.lookup v with
    | some p => .bound p
    | none =>
      match f.kind with
      | .transparent => findVar v fs
      | .sealed => .unbound f.owner
      | .free => .free

/-- Binds a variable in the innermost frame where unknown variables are free. -/
def bindFree (v : String) (p : Nat) : List Frame → List Frame
  | [] => []
  | f :: fs =>
    if f.kind = .free then { f with vars := (v, p) :: f.vars } :: fs else f :: bindFree v p fs

def propOf (v : String) : M Nat := do
  match findVar v (← ask (·.frames)) with
  | .bound p => return p
  | .unbound owner => throw (.error (.unboundVariable v owner))
  | .free =>
    let p ← Alphabet.fresh v
    change fun q => { q with frames := bindFree v p q.frames }
    return p

def temporaryName (hint : String) : M String := do
  change fun p => { p with temporaries := p.temporaries + 1 }
  return s!"{reservedStart}{hint}{← ask (·.temporaries)}"

def bindInnermost (v : String) (p : Nat) : List Frame → List Frame
  | [] => []
  | f :: fs => { f with vars := (v, p) :: f.vars } :: fs

/-- A new temporary variable, bound in the innermost frame. -/
def temporary (hint : String) : M (String × Nat) := do
  let name ← temporaryName hint
  let p ← Alphabet.fresh name
  change fun q => { q with frames := bindInnermost name p q.frames }
  return (name, p)

def adopt (p : Program) (q : Predicate) : Program :=
  { p with predicates := p.predicates.insert q.name q }

end Program

end RegularArithmetic

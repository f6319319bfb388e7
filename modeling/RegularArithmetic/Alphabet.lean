import RegularArithmetic.Diagram.Choice

/-!
The propositions that letters are made of. Each has a name of its own and is the diagram
variable with the same number; numbers are given out as 1, 2, 3, … . The alphabet also keeps
the diagrams of all labels and the state budget of the automata that read it.
-/

set_option autoImplicit false

namespace RegularArithmetic

/-- The names of the propositions in the order of their numbers, the diagrams over them, the
number of automaton literals made so far, and the largest number of states allowed. -/
structure Alphabet where
  diagrams : Diagram.Store
  names : Array String
  literals : Nat
  budget : Option Nat
  deriving Inhabited

namespace Alphabet

/-- A computation over an alphabet, which may name new propositions also when it fails. -/
abbrev M := EStateM Failure Alphabet

/-- No propositions and no budget. -/
def empty? (bits : Nat) : Except Fault Alphabet := do
  return ⟨← Diagram.Store.empty? bits, #[], 0, none⟩

instance : MonadLift Diagram.M M where
  monadLift x := fun ⟨diagrams, names, literals, budget⟩ =>
    match x diagrams with
    | .ok r diagrams => .ok r ⟨diagrams, names, literals, budget⟩
    | .error f diagrams => .error (.fault f) ⟨diagrams, names, literals, budget⟩

instance : MonadLift (Except Fault) M where
  monadLift
    | .ok r => pure r
    | .error f => throw (.fault f)

/-- The number of propositions. -/
def size (a : Alphabet) : Nat := a.names.size

/-- The proposition with the given name. -/
def find? (a : Alphabet) (name : String) : Option Nat :=
  (a.names.findIdx? (· == name)).map (· + 1)

/-- The name of a proposition. -/
def nameOf (a : Alphabet) (p : Nat) : Except Fault String :=
  match p with
  | 0 => .error .missingProposition
  | i + 1 =>
    match a.names[i]? with
    | some name => .ok name
    | none => .error .missingProposition

/-- The proposition with the given name, which is new if none has it. -/
def register (name : String) : M Nat := fun a =>
  match a.find? name with
  | some p => .ok p a
  | none =>
    let ⟨diagrams, names, literals, budget⟩ := a
    .ok (names.size + 1) ⟨diagrams, names.push name, literals, budget⟩

/-- The first unused name `hint#k` from `k` on, within so many attempts. -/
def unusedFrom (a : Alphabet) (hint : String) (k : Nat) : Nat → String
  | 0 => s!"{hint}#{k}"
  | attempts + 1 =>
    let name := s!"{hint}#{k}"
    if (a.find? name).isNone then name else a.unusedFrom hint (k + 1) attempts

/-- A new proposition. The names in use are too few to block all attempts. -/
def fresh (hint : String) : M Nat := fun a =>
  let name := a.unusedFrom hint a.size (a.size + 1)
  register name a

/-- The diagram of one proposition. -/
def proposition (p : Nat) : M Diagram.Edge :=
  Diagram.makeVariable p

def freshLiteral : M Nat := fun ⟨diagrams, names, literals, budget⟩ =>
  .ok literals ⟨diagrams, names, literals + 1, budget⟩

def setBudget (limit : Option Nat) : M Unit := fun ⟨diagrams, names, literals, _⟩ =>
  .ok () ⟨diagrams, names, literals, limit⟩

/-- Whether an automaton may have so many states. -/
def affords (a : Alphabet) (states : Nat) : Except Error Unit :=
  match a.budget with
  | some limit => if limit < states then .error (.budgetExceeded states limit) else .ok ()
  | none => .ok ()

/-- Fails once an automaton outgrows the budget. -/
def spend (states : Nat) : M Unit := fun a =>
  match a.affords states with
  | .ok () => .ok () a
  | .error e => .error (.error e) a

end Alphabet

end RegularArithmetic

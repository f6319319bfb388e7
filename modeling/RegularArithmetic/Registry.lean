import Std.Data.HashMap
import RegularArithmetic.Alphabet

/-!
The propositions of an alphabet in two tables, one for the names by their numbers and one for the
numbers by their names, so that neither has to be searched. New names are tried one after the other
until one is not in use.
-/

set_option autoImplicit false

namespace RegularArithmetic

/-- A request for a proposition: the one of a name, or a new one. -/
inductive Alphabet.Request where
  | register (name : String)
  | fresh (hint : String)

/-- The answer of an alphabet. -/
def Alphabet.Request.perform : Request → M Nat
  | register name => Alphabet.register name
  | fresh hint => Alphabet.fresh hint

open Alphabet (Request)

/-- An alphabet with the numbers of its propositions by their names. -/
structure Registry extends Alphabet where
  numbers : Std.HashMap String Nat

namespace Registry

/-- The proposition with the given name. -/
def lookup? (r : Registry) (name : String) : Option Nat :=
  r.numbers[name]?

/-- The proposition with the given name, which is entered into both tables if none has it. -/
def register (r : Registry) (name : String) : Nat × Registry :=
  match r.lookup? name with
  | some p => (p, r)
  | none =>
    let names := r.names.push name
    let p := names.size
    (p, { r with names, numbers := r.numbers.insert name p })

/-- The names `hint#k`, `hint#(k + 1)`, … are tried until one is not in use, which is registered
then. -/
inductive Tries (r : Registry) (hint : String) : Nat → Nat × Registry → Prop
  | unused {k : Nat} : r.lookup? s!"{hint}#{k}" = none → Tries r hint k (r.register s!"{hint}#{k}")
  | used {k p : Nat} {result : Nat × Registry} : r.lookup? s!"{hint}#{k}" = some p →
      Tries r hint (k + 1) result → Tries r hint k result

/-- The answer to a request, and the tables afterwards. -/
inductive Serves (r : Registry) : Request → Nat × Registry → Prop
  | register (name : String) : Serves r (.register name) (r.register name)
  | fresh {hint : String} {result : Nat × Registry} :
      r.Tries hint r.size result → Serves r (.fresh hint) result

/-- The answers to requests one after the other. -/
inductive ServesAll : Registry → List Request → List Nat × Registry → Prop
  | done {r : Registry} : ServesAll r [] ([], r)
  | next {r s t : Registry} {q : Request} {qs : List Request} {p : Nat} {ps : List Nat} :
      r.Serves q (p, s) → ServesAll s qs (ps, t) → ServesAll r (q :: qs) (p :: ps, t)

end Registry

end RegularArithmetic

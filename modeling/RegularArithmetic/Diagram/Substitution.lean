import Std.Data.TreeMap
import RegularArithmetic.Diagram.Choice

/-!
Fixing, quantifying and renaming the variables of a diagram. A node that is reached along many
paths is dealt with once: the results met so far are passed along.
-/

set_option autoImplicit false

namespace RegularArithmetic.Diagram

/-- The edges that take the place of others, by the code of the edge replaced. -/
abbrev Replaced := Std.TreeMap Int Edge

/-- `e` with `v` fixed to `b`, and what replaces the nodes above `v` by then. -/
def fixIn (v : Nat) (b : Bool) (e : Edge) (done : Replaced) : M (Edge × Replaced) := do
  if v = 0 then throw .zeroVariable
  if e.isTerminal then return (e, done)
  let n ← ask (·.branch e)
  if v < n.var then return (e, done)
  if v = n.var then return (if b then n.high else n.low, done)
  if let some r := done[e.code]? then return (r, done)
  let (low, done) ← fixIn v b n.low done
  let (high, done) ← fixIn v b n.high done
  let r ← makeNode n.var low high
  return (r, done.insert e.code r)
termination_by e.index
decreasing_by
  · exact n.low_lt
  · exact n.high_lt

def fix (e : Edge) (v : Nat) (b : Bool) : M Edge := do
  return (← fixIn v b e ∅).1

/-- "For some values of the variables": each in turn is fixed to both values. -/
def forSome (e : Edge) : List Nat → M Edge
  | [] => pure e
  | v :: vs => do
    if e.isTerminal then return e
    let low ← fix e v false
    let high ← fix e v true
    forSome (← disj low high) vs

/-- `e` with every variable `v` read as `ρ v`, and what replaces the nodes by then. -/
def renameIn (ρ : Nat → Nat) (e : Edge) (done : Replaced) : M (Edge × Replaced) := do
  if e.isTerminal then return (e, done)
  if let some r := done[e.code]? then return (r, done)
  let n ← ask (·.branch e)
  let (low, done) ← renameIn ρ n.low done
  let (high, done) ← renameIn ρ n.high done
  let r ← ite (← makeVariable (ρ n.var)) high low
  return (r, done.insert e.code r)
termination_by e.index
decreasing_by
  · exact n.low_lt
  · exact n.high_lt

/-- `e` with every variable `v` read as `ρ v`, all at once; `ρ` may send two to the same. -/
def rename (ρ : Nat → Nat) (e : Edge) : M Edge := do
  return (← renameIn ρ e ∅).1

end RegularArithmetic.Diagram

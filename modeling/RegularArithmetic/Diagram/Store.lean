import RegularArithmetic.Failure
import RegularArithmetic.Store.DirectMapped
import RegularArithmetic.Store.Interner
import RegularArithmetic.Diagram.Edge

/-!
The nodes of all diagrams, stored once each. A node tests one variable and has an edge for each
of its two values. Variables are tested in increasing order, a high edge is never negated, and
the two edges of a node differ, so that equal functions have equal edges.
-/

set_option autoImplicit false

namespace RegularArithmetic.Diagram

open RegularArithmetic.Store

/-- A test of `var`; the terminal is the only node with variable 0. -/
structure Node where
  var : Nat
  low : Edge
  high : Edge
  deriving DecidableEq, Repr, Inhabited

namespace Node

/-- The node that both constants name. -/
def terminal : Node := ⟨0, ⟨0⟩, ⟨0⟩⟩

instance : Keyed Node :=
  ⟨fun n => pairThree (.ofNat n.var) (key n.low) (key n.high)⟩

end Node

/-- The arguments of one if-then-else: `f` chooses between `g` and `h`. -/
structure Triple where
  f : Edge
  g : Edge
  h : Edge
  deriving DecidableEq, Repr, Inhabited

instance : Keyed Triple := ⟨fun t => pairThree (key t.f) (key t.g) (key t.h)⟩

/-- The stored nodes and the if-then-else results that are still remembered. -/
structure Store where
  nodes : Interner Node
  results : DirectMapped Triple Edge

/-- A computation on diagrams, which may store new nodes also when it ends in a fault. -/
abbrev M := EStateM Fault Store

/-- A node as it is seen along an edge to it: a negated edge negates both of its edges. Both
lead to nodes stored before it. -/
structure Branch (e : Edge) where
  var : Nat
  low : Edge
  high : Edge
  low_lt : low.index < e.index
  high_lt : high.index < e.index

namespace Store

/-- Only the terminal is stored. -/
def empty? (bits : Nat) : Except Fault Store := do
  let nodes ← Interner.empty? bits
  let results ← DirectMapped.empty? (min bits 16)
  return ⟨(nodes.add .terminal).2, results⟩

instance : Inhabited Store := ⟨⟨((Interner.empty 0).add .terminal).2, .empty 0⟩⟩

/-- The number of stored nodes, the terminal included. -/
def size (s : Store) : Nat := s.nodes.size

/-- The node that an edge names. -/
def node (s : Store) (e : Edge) : Except Fault Node :=
  match s.nodes.get? e.index with
  | some n => .ok n
  | none => .error .missingNode

/-- The edges of a node, along an edge to it. -/
def branch (s : Store) (e : Edge) : Except Fault (Branch e) := do
  let n ← s.node e
  let low := if e.isNegated then -n.low else n.low
  let high := if e.isNegated then -n.high else n.high
  if h : low.index < e.index ∧ high.index < e.index then
    return ⟨n.var, low, high, h.1, h.2⟩
  else
    throw .missingNode

end Store

instance : MonadLift (Except Fault) M where
  monadLift
    | .ok a => pure a
    | .error e => throw e

/-- Asks the store without changing it. -/
def ask {α : Type} (q : Store → Except Fault α) : M α := fun s =>
  match q s with
  | .ok a => .ok a s
  | .error e => .error e s

/-- The edge to a node that tests `v`, stored only if its two edges differ and it is new. -/
def internNode (v : Nat) (low high : Edge) : M Edge := fun s =>
  if low = high then .ok low s
  else
    let ⟨nodes, results⟩ := s
    let (i, nodes) := nodes.put ⟨v, low, high⟩
    .ok (.toNode i) ⟨nodes, results⟩

/-- "If `v` then `high` else `low`": a negated high edge moves the negation out. -/
def makeNode (v : Nat) (low high : Edge) : M Edge := do
  if v = 0 then throw .zeroVariable
  if high.isNegated then return -(← internNode v (-low) (-high))
  internNode v low high

/-- The function that is true exactly where `v` is. -/
def makeVariable (v : Nat) : M Edge :=
  makeNode v .zero .one

end RegularArithmetic.Diagram

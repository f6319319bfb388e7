import RegularArithmetic.Diagram.Store

/-!
If-then-else on diagrams, and the connectives, each of which is one such choice. Equivalent
choices are first brought into one form, so that they share their remembered result.
-/

set_option autoImplicit false

namespace RegularArithmetic.Diagram

namespace Triple

/-- The choices that are settled by comparing edges. -/
def settled? (t : Triple) : Option Edge :=
  let ⟨f, g, h⟩ := t
  if f = .one then some g
  else if f = .zero then some h
  else if g = h then some g
  else if g = .one ∧ h = .zero then some f
  else if g = .zero ∧ h = .one then some (-f)
  else if g = .one ∧ h = -f then some .one
  else if g = f ∧ h = .one then some .one
  else if g = -f ∧ h = .zero then some .zero
  else if g = .zero ∧ h = f then some .zero
  else none

/-- A branch that repeats the condition is a constant there. -/
def absorb (t : Triple) : Triple :=
  let ⟨f, g, h⟩ := t
  if g = f then ⟨f, .one, h⟩
  else if h = f then ⟨f, g, .zero⟩
  else if g = -f then ⟨f, .zero, h⟩
  else if h = -f then ⟨f, g, .one⟩
  else t

/-- Of the two forms of a symmetric choice, the one whose condition has the smaller variable. -/
def orient (s : Store) (t : Triple) : Except Fault Triple := do
  let ⟨f, g, h⟩ := t
  let i := (← s.node f).var
  let j := (← s.node g).var
  let k := (← s.node h).var
  return if g = .one ∧ k < i then ⟨h, .one, f⟩
    else if h = .zero ∧ j < i then ⟨g, f, .zero⟩
    else if h = .one ∧ j < i then ⟨-g, -f, .one⟩
    else if g = .zero ∧ k < i then ⟨-h, .zero, -f⟩
    else if g = -h ∧ j < i then ⟨g, f, -f⟩
    else t

/-- Neither the condition nor the first branch is negated; the flag tells whether the result
is. -/
def regular (t : Triple) : Triple × Bool :=
  let ⟨f, g, h⟩ := t
  let (f, g, h) := if f.isNegated then (-f, h, g) else (f, g, h)
  if g.isNegated then (⟨f, -g, -h⟩, true) else (⟨f, g, h⟩, false)

/-- The smallest variable that one of the three nodes tests. -/
def top (s : Store) (t : Triple) : Except Fault Nat := do
  let i := (← s.node t.f).var
  let j := (← s.node t.g).var
  let k := (← s.node t.h).var
  let m := if j = 0 then i else min i j
  return if k = 0 then m else min m k

end Triple

/-- The values of `e` where `v` is false and where it is true; `v` has to come no later than the
variable of the node. -/
def Store.cofactors (s : Store) (e : Edge) (v : Nat) : Except Fault (Edge × Edge) := do
  if v = 0 then throw .zeroVariable
  if e.isTerminal then return (e, e)
  let n ← s.node e
  if v < n.var then return (e, e)
  if v ≠ n.var then throw .misordered
  return if e.isNegated then (-n.low, -n.high) else (n.low, n.high)

/-- The remembered result of a choice. -/
def remembered (t : Triple) : M (Option Edge) := fun s =>
  let ⟨nodes, results⟩ := s
  let (e, results) := results.find t
  .ok e ⟨nodes, results⟩

def remember (t : Triple) (e : Edge) : M Unit := fun s =>
  let ⟨nodes, results⟩ := s
  .ok () ⟨nodes, results.insert t e⟩

/-- The choice on the smallest variable of a triple, with `choose` for the two halves. -/
def split (choose : Triple → M Edge) (t : Triple) : M Edge := do
  let m ← ask t.top
  let (f₀, f₁) ← ask (·.cofactors t.f m)
  let (g₀, g₁) ← ask (·.cofactors t.g m)
  let (h₀, h₁) ← ask (·.cofactors t.h m)
  let low ← choose ⟨f₀, g₀, h₀⟩
  let high ← choose ⟨f₁, g₁, h₁⟩
  makeNode m low high

def chooseWithin : Nat → Triple → M Edge
  | 0, _ => throw .exhausted
  | depth + 1, t => do
    if let some e := t.settled? then return e
    let t := t.absorb
    if let some e := t.settled? then return e
    let t ← ask t.orient
    let (t, negated) := t.regular
    let result ← do
      match ← remembered t with
      | some e => pure e
      | none => do
        let e ← split (chooseWithin depth) t
        remember t e
        pure e
    return if negated then -result else result

/-- `g` where `f` is true and `h` where it is false. Every step down replaces nodes by nodes
stored before them, so the sum of their numbers bounds the depth. -/
def ite (f g h : Edge) : M Edge :=
  chooseWithin (f.index + g.index + h.index + 1) ⟨f, g, h⟩

def conj (u v : Edge) : M Edge := ite u v .zero

def disj (u v : Edge) : M Edge := ite u .one v

def xor (u v : Edge) : M Edge := ite u (-v) v

def iff (u v : Edge) : M Edge := ite u v (-v)

def implies (u v : Edge) : M Edge := ite u v .one

/-- The conjunction from the left; of no edges, true. -/
def conjAll (es : List Edge) : M Edge := es.foldlM conj .one

/-- The disjunction from the left; of no edges, false. -/
def disjAll (es : List Edge) : M Edge := es.foldlM disj .zero

end RegularArithmetic.Diagram

import RegularArithmetic.Diagram.Store
import RegularArithmetic.Store.Sorting

/-!
Reading diagrams: their value under an assignment, the nodes below an edge, and the paths to
the constant true as cubes of signed literals.
-/

set_option autoImplicit false

namespace RegularArithmetic.Diagram

def literalOf (v : Nat) : Int := Int.bmod v (Nat.pow 2 32)

/-- The opposite literal, unless it leaves the 32-bit range. -/
def opposite (l : Int) : Except Fault Int :=
  if l = Edge.leastWord then .error .literalOverflow else .ok (-l)

namespace Store

/-- The value of `e` where exactly the variables in `σ` are true. -/
def eval (s : Store) (σ : Nat → Bool) (e : Edge) : Except Fault Bool := do
  if e.isTerminal then return e = .one
  let n ← s.branch e
  if σ n.var then s.eval σ n.high else s.eval σ n.low
termination_by e.index
decreasing_by
  · exact n.high_lt
  · exact n.low_lt

/-- A cube that implies `e`, along the low edges wherever they are not false. -/
def someCube? (s : Store) (e : Edge) : Except Fault (Option (List Int)) := do
  if e = .zero then return none
  return some (← along e)
where
  along (e : Edge) : Except Fault (List Int) := do
    if e = .one then return []
    let n ← s.branch e
    let l := literalOf n.var
    if n.low ≠ .zero then
      let l ← opposite l
      return l :: (← along n.low)
    else
      return l :: (← along n.high)
  termination_by e.index
  decreasing_by
    · exact n.low_lt
    · exact n.high_lt

/-- The cubes along all paths from `e` to the constant true, high edges first. -/
def cubes (s : Store) (e : Edge) : Except Fault (List (List Int)) := do
  if e = .zero then return []
  if e = .one then return [[]]
  let n ← s.branch e
  let l := literalOf n.var
  let high ← s.cubes n.high
  let l' ← opposite l
  let low ← s.cubes n.low
  return high.map (l :: ·) ++ low.map (l' :: ·)
termination_by e.index
decreasing_by
  · exact n.high_lt
  · exact n.low_lt

/-- The marked nodes with numbers up to `i`, after marking everything below the marked ones. -/
def below (s : Store) (marked : Array Bool) : Nat → Except Fault (List Nat)
  | 0 => if marked.getD 0 false then .error .missingNode else .ok []
  | i + 1 =>
    if marked.getD (i + 1) false then do
      if i = 0 then return (← s.below marked 0) ++ [1]
      let n ← s.node (.toNode (i + 1))
      let marked := (marked.setIfInBounds n.low.index true).setIfInBounds n.high.index true
      return (← s.below marked i) ++ [i + 1]
    else s.below marked i

/-- The numbers of the nodes below the given edges, their own included, in increasing order. -/
def descendants (s : Store) (es : List Edge) : Except Fault (List Nat) :=
  let top := es.foldl (fun m e => max m e.index) 0
  let marked := es.foldl (fun a e => a.setIfInBounds e.index true) (Array.replicate (top + 1) false)
  s.below marked top

/-- The variables tested below `e`, in increasing order. -/
def support (s : Store) (e : Edge) : Except Fault (List Nat) := do
  let vs ← (← s.descendants [e]).mapM fun i => return (← s.node (.toNode i)).var
  return (inOrder (· ≤ ·) (vs.filter (· ≠ 0))).eraseDups

end Store

/-- The conjunction of signed literals, largest variable first. -/
def cube (literals : List Int) : M Edge := do
  if 1 < literals.length ∧ Edge.leastWord ∈ literals then throw .literalOverflow
  let sorted := (inOrder (fun a b => a.natAbs ≤ b.natAbs) literals).reverse
  sorted.foldlM (fun e l =>
    if l < 0 then makeNode l.natAbs e .zero else makeNode l.natAbs .zero e) .one

end RegularArithmetic.Diagram

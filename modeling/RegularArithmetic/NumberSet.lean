/-!
Finite sets of numbers as strictly increasing lists, so that equal sets are equal values.
-/

set_option autoImplicit false

namespace RegularArithmetic

/-- A strictly increasing list. -/
structure NumberSet where
  toList : List Nat
  increasing : toList.Pairwise (· < ·)
  deriving DecidableEq

namespace NumberSet

/-- Puts a number at its place in an increasing list, unless it is there. -/
def place (n : Nat) : List Nat → List Nat
  | [] => [n]
  | m :: ms => if n < m then n :: m :: ms else if n = m then m :: ms else m :: place n ms

theorem mem_place {n k : Nat} {l : List Nat} : k ∈ place n l ↔ k = n ∨ k ∈ l := by
  induction l with
  | nil => simp [place]
  | cons m ms ih => grind [place]

theorem pairwise_place {n : Nat} {l : List Nat} (h : l.Pairwise (· < ·)) :
    (place n l).Pairwise (· < ·) := by
  induction l with
  | nil => simp [place]
  | cons m ms ih => grind [place, mem_place, List.pairwise_cons]

instance : EmptyCollection NumberSet := ⟨⟨[], .nil⟩⟩

instance : Inhabited NumberSet := ⟨∅⟩

instance : Membership Nat NumberSet := ⟨fun s n => n ∈ s.toList⟩

instance (n : Nat) (s : NumberSet) : Decidable (n ∈ s) :=
  inferInstanceAs (Decidable (n ∈ s.toList))

def insert (s : NumberSet) (n : Nat) : NumberSet :=
  ⟨place n s.toList, pairwise_place s.increasing⟩

def ofList (l : List Nat) : NumberSet := l.foldl insert ∅

def insertAll (s : NumberSet) (l : List Nat) : NumberSet := l.foldl insert s

def union (s t : NumberSet) : NumberSet := s.insertAll t.toList

def image (f : Nat → Nat) (s : NumberSet) : NumberSet := ofList (s.toList.map f)

def isEmpty (s : NumberSet) : Bool := s.toList.isEmpty

/-- The members of `s` outside `t`. -/
def diff (s t : NumberSet) : NumberSet :=
  ⟨s.toList.filter (· ∉ t), s.increasing.filter _⟩

theorem mem_def {n : Nat} {s : NumberSet} : n ∈ s ↔ n ∈ s.toList := Iff.rfl

theorem mem_insert {n k : Nat} {s : NumberSet} : k ∈ s.insert n ↔ k = n ∨ k ∈ s :=
  mem_place

end NumberSet

end RegularArithmetic

import RegularArithmetic.Diagram.Paths
import RegularArithmetic.Proofs.Computation
import RegularArithmetic.Proofs.Store.Interner

/-!
The function that an edge denotes, and the invariant of the stored nodes under which every edge
denotes one: nodes are reduced, ordered and stored once, and remembered results are right. A
store only grows, and its edges keep their functions.
-/

set_option autoImplicit false

namespace RegularArithmetic.Diagram

abbrev Assignment := Nat → Bool

namespace Edge

@[simp] theorem index_neg (e : Edge) : (-e).index = e.index := Int.natAbs_neg e.code

@[simp] theorem neg_neg (e : Edge) : - -e = e :=
  congrArg Edge.mk (Int.neg_neg e.code)

theorem neg_inj {e f : Edge} : -e = -f ↔ e = f :=
  ⟨fun h => by rw [← neg_neg e, h, neg_neg], fun h => h ▸ rfl⟩

theorem isNegated_neg {e : Edge} (h : e.index ≠ 0) : (-e).isNegated = !e.isNegated := by
  have hcode : (-e).code = -e.code := rfl
  simp only [isNegated, hcode, index] at *
  rcases lt_trichotomy e.code 0 with h' | h' | h'
  · simp [h', Int.not_lt.2 h'.le]
  · simp [h'] at h
  · simp [h', Int.not_lt.2 h'.le]

@[simp] theorem neg_zero : -zero = one := rfl

@[simp] theorem neg_one : -one = zero := rfl

@[simp] theorem index_one : one.index = 1 := rfl

@[simp] theorem index_zero : zero.index = 1 := rfl

@[simp] theorem isNegated_one : one.isNegated = false := rfl

@[simp] theorem isNegated_zero : zero.isNegated = true := rfl

theorem zero_ne_one : zero ≠ one := by decide

theorem index_eq_one {e : Edge} : e.index = 1 ↔ e = one ∨ e = zero := by
  obtain ⟨c⟩ := e
  simp only [index, one, zero, Edge.mk.injEq]
  omega

theorem isTerminal_iff {e : Edge} : e.isTerminal = true ↔ e.index = 1 := by
  simp [isTerminal, index_eq_one]

theorem eq_of_index {e f : Edge} (h : e.index = f.index) (hs : e.isNegated = f.isNegated) :
    e = f := by
  obtain ⟨c⟩ := e
  obtain ⟨d⟩ := f
  simp only [index, isNegated, Edge.mk.injEq, decide_eq_decide] at *
  omega

@[simp] theorem index_toNode (i : Nat) : (toNode i).index = i := rfl

@[simp] theorem isNegated_toNode (i : Nat) : (toNode i).isNegated = false :=
  decide_eq_false (Int.not_lt.2 (Int.natCast_nonneg i))

def along (e d : Edge) : Edge := if e.isNegated then -d else d

@[simp] theorem index_along (e d : Edge) : (e.along d).index = d.index := by
  simp only [along]
  split <;> simp

theorem along_neg {e d : Edge} (h : e.index ≠ 0) : (-e).along d = -e.along d := by
  simp only [along, isNegated_neg h]
  cases e.isNegated <;> simp

@[simp] theorem along_toNode (i : Nat) (d : Edge) : (toNode i).along d = d := by
  rw [along, isNegated_toNode]
  rfl

theorem along_inj {e c d : Edge} : e.along c = e.along d ↔ c = d := by
  simp only [along]
  split
  · exact neg_inj
  · rfl

theorem along_congr {e f d : Edge} (h : e.isNegated = f.isNegated) : e.along d = f.along d := by
  rw [along, along, h]

end Edge

def Node.select (n : Node) (b : Bool) : Edge := if b then n.high else n.low

namespace Store

/-- The edge names a stored node. -/
def Valid (s : Store) (e : Edge) : Prop := ∃ n, s.nodes.get? e.index = some n

/-- The edge tests only variables behind `v`. -/
def Above (s : Store) (v : Nat) (e : Edge) : Prop :=
  ∀ n, s.nodes.get? e.index = some n → e.index ≠ 1 → v < n.var

/-- The value of an edge under an assignment, false for an edge that has none. -/
def value (s : Store) (e : Edge) (σ : Assignment) : Bool := (s.eval σ e).toOption.getD false

/-- The three edges of a choice name stored nodes. -/
structure ValidTriple (s : Store) (t : Triple) : Prop where
  f : s.Valid t.f
  g : s.Valid t.g
  h : s.Valid t.h

/-- The value of `t.g` where `t.f` is true and that of `t.h` elsewhere. -/
def chosen (s : Store) (t : Triple) (σ : Assignment) : Bool :=
  if s.value t.f σ then s.value t.g σ else s.value t.h σ

/-- The edge is the result of the choice. -/
structure IsChoice (s : Store) (t : Triple) (e : Edge) : Prop where
  triple : s.ValidTriple t
  valid : s.Valid e
  value_eq : ∀ σ, s.value e σ = s.chosen t σ

/-- Node `i` is reduced and has its place behind the nodes of its edges. -/
structure Placed (s : Store) (i : Nat) (n : Node) : Prop where
  var_ne_zero : n.var ≠ 0
  low_ne_zero : n.low.index ≠ 0
  high_ne_zero : n.high.index ≠ 0
  low_lt : n.low.index < i
  high_lt : n.high.index < i
  high_positive : n.high.isNegated = false
  low_ne_high : n.low ≠ n.high
  above_low : s.Above n.var n.low
  above_high : s.Above n.var n.high

/-- All nodes are in their places and stored once, and remembered results are right. -/
structure Sound (s : Store) : Prop where
  shaped : s.nodes.Shaped
  terminal : s.nodes.get? 1 = some .terminal
  placed : ∀ i n, i ≠ 1 → s.nodes.get? i = some n → s.Placed i n
  linked : ∀ i n, i ≠ 1 → s.nodes.get? i = some n → i ∈ s.nodes.bucket n
  distinct : ∀ i j n, i ≠ 1 → j ≠ 1 → s.nodes.get? i = some n → s.nodes.get? j = some n → i = j
  results : ∀ t e, s.results.peek t = some e → s.IsChoice t e

variable {s : Store} {e : Edge} {n : Node} {σ : Assignment}

theorem node_eq (h : s.nodes.get? e.index = some n) : s.node e = .ok n := by
  simp only [node, h]

theorem get?_of_node (h : s.node e = .ok n) : s.nodes.get? e.index = some n := by
  simp only [node] at h
  split at h
  · rename_i heq
    rw [heq, Except.ok.inj h]
  · cases h

theorem Valid.index_ne_zero (h : s.Valid e) : e.index ≠ 0 := by
  obtain ⟨n, hn⟩ := h
  exact (Store.Interner.le_size_of_get? hn).1

@[simp] theorem valid_neg : s.Valid (-e) ↔ s.Valid e := by simp [Valid]

@[simp] theorem valid_along {d : Edge} : s.Valid (e.along d) ↔ s.Valid d := by simp [Valid]

@[simp] theorem above_neg {v : Nat} : s.Above v (-e) ↔ s.Above v e := by simp [Above]

@[simp] theorem above_along {v : Nat} {d : Edge} : s.Above v (e.along d) ↔ s.Above v d := by
  simp [Above]

theorem above_of_index_eq_one {v : Nat} (h : e.index = 1) : s.Above v e :=
  fun _ _ hne => absurd h hne

theorem Above.mono {v w : Nat} (h : s.Above v e) (hw : w ≤ v) : s.Above w e :=
  fun n hn hne => lt_of_le_of_lt hw (h n hn hne)

theorem Sound.valid_one (h : s.Sound) : s.Valid .one := ⟨_, h.terminal⟩

theorem Sound.valid_zero (h : s.Sound) : s.Valid .zero := ⟨_, h.terminal⟩

theorem Sound.valid_of_lt (_ : s.Sound) {i : Nat} (hi : s.nodes.get? i = some n)
    (h0 : e.index ≠ 0) (hlt : e.index < i) : s.Valid e :=
  Store.Interner.exists_get? h0 (by have := Store.Interner.le_size_of_get? hi; omega)

theorem Placed.select_lt {i : Nat} (h : s.Placed i n) (b : Bool) : (n.select b).index < i := by
  cases b
  · exact h.low_lt
  · exact h.high_lt

theorem Placed.above_select {i : Nat} (h : s.Placed i n) (b : Bool) :
    s.Above n.var (n.select b) := by
  cases b
  · exact h.above_low
  · exact h.above_high

theorem Sound.valid_select (h : s.Sound) {i : Nat} (hn : s.nodes.get? i = some n) (hi : i ≠ 1)
    (b : Bool) : s.Valid (n.select b) := by
  have hp := h.placed i n hi hn
  refine h.valid_of_lt hn ?_ (hp.select_lt b)
  cases b
  · exact hp.low_ne_zero
  · exact hp.high_ne_zero

theorem branch_eq_of_lt (hn : s.nodes.get? e.index = some n) (hlow : n.low.index < e.index)
    (hhigh : n.high.index < e.index) :
    ∃ hlow hhigh, s.branch e = .ok ⟨n.var, e.along n.low, e.along n.high, hlow, hhigh⟩ := by
  have hlow : (e.along n.low).index < e.index := by simpa using hlow
  have hhigh : (e.along n.high).index < e.index := by simpa using hhigh
  refine ⟨hlow, hhigh, ?_⟩
  have hlt := And.intro hlow hhigh
  simp only [Edge.along] at hlt
  simp only [branch, node_eq hn, bind, Except.bind, Edge.along, hlt, and_self, ↓reduceDIte]
  rfl

theorem Sound.branch_eq (h : s.Sound) (hn : s.nodes.get? e.index = some n) (he : e.index ≠ 1) :
    ∃ hlow hhigh, s.branch e = .ok ⟨n.var, e.along n.low, e.along n.high, hlow, hhigh⟩ :=
  branch_eq_of_lt hn (h.placed _ n he hn).low_lt (h.placed _ n he hn).high_lt

theorem eval_terminal (he : e.index = 1) : s.eval σ e = .ok (decide (e = .one)) := by
  rw [eval, if_pos (Edge.isTerminal_iff.2 he)]
  rfl

theorem eval_congr {s t : Store} (h : s.nodes = t.nodes) (σ : Assignment) (e : Edge) :
    s.eval σ e = t.eval σ e := by
  obtain ⟨nodes, r⟩ := s
  obtain ⟨_, r'⟩ := t
  obtain rfl : nodes = _ := h
  induction hk : e.index using Nat.strong_induction_on generalizing e with
  | _ k ih =>
    have hbranch : branch ⟨nodes, r⟩ e = branch ⟨nodes, r'⟩ e := rfl
    rw [eval, eval, hbranch]
    cases branch ⟨nodes, r'⟩ e with
    | error f => rfl
    | ok n =>
      have hhigh := ih n.high.index (hk ▸ n.high_lt) n.high rfl
      have hlow := ih n.low.index (hk ▸ n.low_lt) n.low rfl
      simp only [bind, Except.bind, hhigh, hlow]

theorem value_terminal (he : e.index = 1) : s.value e σ = decide (e = .one) := by
  rw [value, eval_terminal he]
  rfl

@[simp] theorem value_one : s.value .one σ = true := value_terminal rfl

@[simp] theorem value_zero : s.value .zero σ = false := value_terminal rfl

theorem eval_node_of_lt (hn : s.nodes.get? e.index = some n) (he : e.index ≠ 1)
    (hlow : n.low.index < e.index) (hhigh : n.high.index < e.index) :
    s.eval σ e = if σ n.var then s.eval σ (e.along n.high) else s.eval σ (e.along n.low) := by
  obtain ⟨hlow, hhigh, hbranch⟩ := branch_eq_of_lt hn hlow hhigh
  have hterm : ¬e.isTerminal = true := fun ht => he (Edge.isTerminal_iff.1 ht)
  rw [eval, if_neg hterm, hbranch]
  rfl

theorem Sound.eval_node (h : s.Sound) (hn : s.nodes.get? e.index = some n) (he : e.index ≠ 1) :
    s.eval σ e = if σ n.var then s.eval σ (e.along n.high) else s.eval σ (e.along n.low) :=
  eval_node_of_lt hn he (h.placed _ n he hn).low_lt (h.placed _ n he hn).high_lt

theorem Sound.value_node (h : s.Sound) (hn : s.nodes.get? e.index = some n) (he : e.index ≠ 1) :
    s.value e σ = s.value (e.along (n.select (σ n.var))) σ := by
  simp only [value, h.eval_node hn he, Node.select]
  split <;> rfl

theorem Valid.induction {motive : Edge → Prop} (terminal : ∀ e, e.index = 1 → motive e)
    (inner : ∀ e n, s.nodes.get? e.index = some n → e.index ≠ 1 →
      (∀ d, s.Valid d → d.index < e.index → motive d) → motive e) :
    ∀ e, s.Valid e → motive e := by
  intro e
  induction hk : e.index using Nat.strong_induction_on generalizing e with
  | _ k ih =>
    rintro ⟨n, hn⟩
    by_cases he : e.index = 1
    · exact terminal e he
    · exact inner e n hn he fun d hd hlt => ih d.index (hk ▸ hlt) d rfl hd

theorem Sound.value_neg (h : s.Sound) (he : s.Valid e) : s.value (-e) σ = !s.value e σ := by
  refine Valid.induction (motive := fun e => s.value (-e) σ = !s.value e σ) ?_ ?_ e he
  · intro e he
    rcases Edge.index_eq_one.1 he with rfl | rfl <;> simp
  · intro e n hn he ih
    have hp := h.placed _ n he hn
    have h0 : e.index ≠ 0 := Valid.index_ne_zero ⟨n, hn⟩
    rw [h.value_node (e := -e) (by simpa using hn) (by simpa using he), h.value_node hn he,
      Edge.along_neg h0]
    exact ih _ (by simpa using h.valid_select hn he _) (by simpa using hp.select_lt _)

theorem Sound.value_along (h : s.Sound) {d : Edge} (hd : s.Valid d) :
    s.value (e.along d) σ = (e.isNegated ^^ s.value d σ) := by
  simp only [Edge.along]
  split <;> simp_all [h.value_neg hd]

/-- An edge depends only on variables that come no earlier than the one it tests. -/
theorem Sound.value_congr (h : s.Sound) {v : Nat} {σ τ : Assignment}
    (hστ : ∀ w, v < w → σ w = τ w) (he : s.Valid e) (hv : s.Above v e) :
    s.value e σ = s.value e τ := by
  refine Valid.induction (motive := fun e => s.Above v e → s.value e σ = s.value e τ) ?_ ?_ e
    he hv
  · intro e he _
    rw [value_terminal he, value_terminal he]
  · intro e n hn he ih hv
    have hp := h.placed _ n he hn
    have hlt := hv n hn he
    rw [h.value_node hn he, h.value_node hn he, hστ n.var hlt]
    exact ih _ (by simpa using h.valid_select hn he _) (by simpa using hp.select_lt _)
      (by simpa using (hp.above_select _).mono hlt.le)

theorem Sound.value_update (h : s.Sound) (hn : s.nodes.get? e.index = some n)
    (he : e.index ≠ 1) (b : Bool) :
    s.value e (Function.update σ n.var b) = s.value (e.along (n.select b)) σ := by
  have hp := h.placed _ n he hn
  rw [h.value_node hn he, Function.update_self]
  exact h.value_congr (fun w hw => Function.update_of_ne hw.ne' b σ)
    (by simpa using h.valid_select hn he b) (by simpa using hp.above_select b)

theorem Sound.eval_eq (hs : s.Sound) (he : s.Valid e) (σ : Assignment) :
    s.eval σ e = .ok (s.value e σ) := by
  suffices h : ∃ b, s.eval σ e = .ok b by
    obtain ⟨b, hb⟩ := h
    rw [value, hb]
    rfl
  refine Valid.induction (motive := fun e => ∃ b, s.eval σ e = .ok b) ?_ ?_ e he
  · exact fun e he => ⟨_, eval_terminal he⟩
  · intro e n hn hi ih
    have hp := hs.placed _ n hi hn
    rw [hs.eval_node hn hi]
    split
    · exact ih _ (valid_along.2 (hs.valid_select hn hi true)) (by simpa using hp.high_lt)
    · exact ih _ (valid_along.2 (hs.valid_select hn hi false)) (by simpa using hp.low_lt)

end Store

end RegularArithmetic.Diagram

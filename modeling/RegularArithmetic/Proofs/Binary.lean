import RegularArithmetic.Binary
import RegularArithmetic.Proofs.Automaton.Construction
import RegularArithmetic.Proofs.Automaton.Numbers
import RegularArithmetic.Proofs.Automaton.Subsets
import RegularArithmetic.Proofs.Diagram.Cube

/-!
The relations of base 2 say of the numbers in a word what their names promise.
-/

set_option autoImplicit false

namespace RegularArithmetic

open Diagram (Edge Assignment)

/-- The relation has distinct propositions for its arguments, reads nothing else, and accepts
the words of length `n` whose numbers satisfy `R n`. -/
structure Relation.Means (s : Diagram.Store) (r : Relation) (R : Nat → List Nat → Prop) :
    Prop where
  nodup : r.args.Nodup
  recognizes : r.automaton.Recognizes s {p | p ∈ r.args} fun w =>
    R w.length (r.args.map (numbers w))

theorem Relation.Means.mono_store {s t : Diagram.Store} {r : Relation} {R : Nat → List Nat → Prop}
    (h : r.Means s R) (hs : s.Sound) (hst : s ≤ t) : r.Means t R :=
  ⟨h.nodup, h.recognizes.mono_store hs hst⟩

/-- A relation between so many numbers, in its smallest form. -/
structure Relation.Settles (s : Diagram.Store) (r : Relation) (n : Nat) (R : List Nat → Prop) :
    Prop where
  arity : r.args.length = n
  means : r.Means s fun _ => R
  reduced : r.automaton.Reduced s

namespace Binary

open Automaton (DependsOn Built RunFrom)

variable {s t : Diagram.Store} {x : Alphabet}

/-- "The last number is the sum of the others." -/
def IsSum : List Nat → Prop
  | [a, b, c] => a + b = c
  | _ => False

/-- "Both numbers are equal." -/
def AreEqual : List Nat → Prop
  | [a, b] => a = b
  | _ => False

/-- "The first number is less." -/
def IsLess : List Nat → Prop
  | [a, b] => a < b
  | _ => False

/-- "The number is zero." -/
def IsZero : List Nat → Prop
  | [a] => a = 0
  | _ => False

/-- Below 2 ^ 31 names, the digits are read with the 32-bit literals of the propositions. -/
theorem digits_eq_cube {ds : List (Nat × Bool)} (hsmall : ∀ d ∈ ds, d.1 < 2 ^ 31) :
    digits ds = Diagram.cube (ds.map fun (p, d) =>
      if d then Diagram.literalOf p else -Diagram.literalOf p) := by
  refine congrArg Diagram.cube (List.map_congr_left fun d hd => ?_)
  simp only [Diagram.literalOf_eq (hsmall d hd)]

theorem returns_digits (hs : s.Sound) {ds : List (Nat × Bool)} (hnodup : (ds.map (·.1)).Nodup)
    (hne : ∀ d ∈ ds, d.1 ≠ 0) (hroom : ∀ d ∈ ds, d.1 ≠ 2 ^ 31) :
    Returns (digits ds) s fun e t => t.Denotes e fun σ => ds.all fun d => σ d.1 == d.2 := by
  unfold digits
  have habs : ∀ d : Nat × Bool, (if d.2 then (d.1 : Int) else -d.1).natAbs = d.1 := by
    rintro ⟨p, _ | _⟩ <;> simp
  refine (Diagram.returns_cube hs ?_ ?_ ?_).mono fun e t _ he => he.congr fun σ => ?_
  · rw [List.map_map]
    exact (List.map_congr_left fun d _ => habs d).symm ▸ hnodup
  · intro l hl
    obtain ⟨d, hd, rfl⟩ := List.mem_map.1 hl
    have := habs d
    have := hne d hd
    dsimp only at *
    omega
  · intro hl
    obtain ⟨d, hd, hleast⟩ := List.mem_map.1 hl
    have := habs d
    have := hroom d hd
    rw [Diagram.Edge.leastWord] at hleast
    dsimp only at *
    omega
  · rw [List.all_map, Bool.eq_iff_iff, List.all_eq_true, List.all_eq_true]
    refine forall₂_congr fun d hd => ?_
    have hpos : 0 < d.1 := Nat.pos_of_ne_zero (hne d hd)
    rw [Function.comp, Diagram.agrees, habs d]
    obtain ⟨p, _ | _⟩ := d
    · have hneg : ¬(p : Int) < 0 := by omega
      simp [hneg]
    · have hpos' : 0 < p := hpos
      simp [hpos']

/-- The columns of an addition as steps: `q` is the carry into the column, `r` the one out of
it. -/
def Adds (a b c : Nat) (q : Nat) (l : Assignment) (r : Nat) : Prop :=
  q ≤ 1 ∧ (l a).toNat + (l b).toNat + q = (l c).toNat + 2 * r

theorem runFrom_adds {a b c : Nat} (w : Word) : ∀ q ≤ 1,
    RunFrom (· = 0) (Adds a b c) q w ↔ numbers w a + numbers w b + q = numbers w c := by
  induction w with
  | nil =>
    intro q _
    simp [RunFrom, numbers]
  | cons l w ih =>
    intro q hq
    simp only [RunFrom, numbers, Adds]
    have hdigit : ∀ p, (l p).toNat ≤ 1 := fun p => Bool.toNat_le (l p)
    have ha := hdigit a
    have hb := hdigit b
    have hc := hdigit c
    constructor
    · rintro ⟨r, ⟨-, hr⟩, hw⟩
      rw [ih r (by omega)] at hw
      omega
    · intro h
      refine ⟨((l a).toNat + (l b).toNat + q) / 2, ⟨hq, by omega⟩, ?_⟩
      rw [ih _ (by omega)]
      omega

def Column (a b c : Nat) (column : Bool × Bool × Bool) (q : Nat) (l : Assignment) (r : Nat) :
    Prop :=
  q = column.1.toNat ∧ l a = column.2.1 ∧ l b = column.2.2 ∧
    (l c).toNat + 2 * r = column.1.toNat + column.2.1.toNat + column.2.2.toNat

theorem column_iff_adds {a b c q r : Nat} {l : Assignment} :
    (∃ column ∈ columns, Column a b c column q l r) ↔ Adds a b c q l r := by
  simp only [columns, Column, Adds, List.mem_flatMap, List.mem_map, Prod.exists]
  constructor
  · rintro ⟨carry, x, y, -, rfl, ha, hb, hsum⟩
    rw [ha, hb]
    exact ⟨Bool.toNat_le carry, by omega⟩
  · rintro ⟨hq, hsum⟩
    have hdigit : ∀ b : Bool, b ∈ [false, true] := by decide
    obtain ⟨carry, rfl⟩ : ∃ carry : Bool, q = carry.toNat := by
      obtain rfl | rfl : q = 0 ∨ q = 1 := by omega
      · exact ⟨false, rfl⟩
      · exact ⟨true, rfl⟩
    exact ⟨carry, l a, l b, ⟨carry, hdigit _, l a, hdigit _, l b, hdigit _, rfl⟩, rfl, rfl, rfl,
      by omega⟩

theorem returns_addColumn (hs : s.Sound) {a b c : Nat} (hnodup : [a, b, c].Nodup)
    (hne : ∀ p ∈ [a, b, c], p ≠ 0) (hroom : ∀ p ∈ [a, b, c], p ≠ 2 ^ 31) {m : Automaton}
    {N : Nat → Assignment → Nat → Prop} (hm : Built s {p | p ∈ [a, b, c]} 2 (· = 0) N m)
    (column : Bool × Bool × Bool) :
    Returns (addColumn a b c m column) s fun m' t => Built t {p | p ∈ [a, b, c]} 2 (· = 0)
      (fun q l r => N q l r ∨ Column a b c column q l r) m' := by
  obtain ⟨carry, x, y⟩ := column
  unfold addColumn
  refine (returns_digits hs (by simpa using hnodup) (by simpa using hne)
    (by simpa using hroom)).bind fun e t hst he => ?_
  refine (Automaton.returns_addMove (hs.mono hst) (hm.mono hs hst)
    (Nat.lt_succ_of_le (Bool.toNat_le carry)) (by split <;> omega) he
    fun σ τ hστ => ?_).mono fun m' u _ hm' => hm'.congr fun q l r => or_congr Iff.rfl ?_
  · simp only [List.all_cons, List.all_nil, Bool.and_true]
    rw [hστ a (by simp), hστ b (by simp), hστ c (by simp)]
  · simp only [Column, List.all_cons, List.all_nil, Bool.and_true, Bool.and_eq_true, beq_iff_eq]
    refine and_congr_right fun _ => ?_
    cases carry <;> cases x <;> cases y <;> cases l a <;> cases l b <;> cases l c <;>
      simp [eq_comm] <;> omega

theorem returns_finishBuilt (hs : x.diagrams.Sound) {m : Automaton} {ps : List Nat} {n : Nat}
    {F : Nat → Prop} {N : Nat → Assignment → Nat → Prop} (hn : 0 < n) (hnodup : ps.Nodup)
    (hm : Built x.diagrams {p | p ∈ ps} n F N m) (hN : ∀ q l r r', N q l r → N q l r' → r = r')
    {R : List Nat → Prop} (hR : ∀ w, RunFrom F N 0 w ↔ R (ps.map (numbers w))) :
    Returns (m.withProps ps).finish x fun m' y =>
      Relation.Settles y.diagrams ⟨m', ps⟩ ps.length R := by
  have hrecognizes : m.Recognizes x.diagrams {p | p ∈ ps} fun w => R (ps.map (numbers w)) := by
    refine ⟨hm.formed hn, fun q l r r' hr hr' => ?_, hm.reads, fun w => ?_⟩
    · rw [hm.step] at hr hr'
      exact hN q l r r' hr hr'
    · exact (hm.acceptsFrom_iff w 0).trans (hR w)
  have hdeclared := hrecognizes.withProps fun p hp => hp
  exact (Automaton.returns_finish_of_unambiguous hs hdeclared
    (hdeclared.deterministic.unambiguous hm.simple)).mono fun m' y _ ⟨hm', hreduced⟩ =>
      ⟨rfl, ⟨hnodup, hm'⟩, hreduced⟩

theorem returns_columns (hs : s.Sound) {a b c : Nat} (hnodup : [a, b, c].Nodup)
    (hne : ∀ p ∈ [a, b, c], p ≠ 0) (hroom : ∀ p ∈ [a, b, c], p ≠ 2 ^ 31) {m : Automaton}
    (hm : Built s {p | p ∈ [a, b, c]} 2 (· = 0) (fun _ _ _ => False) m) :
    Returns (columns.foldlM (addColumn a b c) m) s fun m t =>
      Built t {p | p ∈ [a, b, c]} 2 (· = 0) (Adds a b c) m := by
  refine (Returns.foldlM (fun done m t => t.Sound ∧ Built t {p | p ∈ [a, b, c]} 2 (· = 0)
    (fun q l r => ∃ column ∈ done, Column a b c column q l r) m) ?_ ?_).mono ?_
  · exact ⟨hs, hm.congr fun q l r => by simp⟩
  · rintro done column rest - m t ⟨ht, hm⟩
    refine (returns_addColumn ht hnodup hne hroom hm column).mono fun m' u htu hm' =>
      ⟨ht.mono htu, hm'.congr fun q l r => ?_⟩
    simp [or_and_right, exists_or]
  · rintro m t - ⟨-, hm⟩
    exact hm.congr fun q l r => column_iff_adds

theorem returns_add (hs : x.diagrams.Sound)
    (hroom : ∀ p ∈ [x.size + 1, x.size + 2, x.size + 3], p ≠ 2 ^ 31) :
    Returns add x fun r y => r.Settles y.diagrams 3 IsSum := by
  unfold add
  refine (returns_next "a").bind fun a x₁ _ ⟨ha, hsize₁, hd₁⟩ => ?_
  refine (returns_next "b").bind fun b x₂ _ ⟨hb, hsize₂, hd₂⟩ => ?_
  refine (returns_next "c").bind fun c x₃ _ ⟨hc, hsize₃, hd₃⟩ => ?_
  have hs₃ : x₃.diagrams.Sound := by rwa [hd₃, hd₂, hd₁]
  rw [hsize₁] at hb hsize₂
  rw [hsize₂] at hc
  have hnodup : [a, b, c].Nodup := by simp [ha, hb, hc]
  have hne : ∀ p ∈ [a, b, c], p ≠ 0 := by simp [ha, hb, hc]
  have hroom' : ∀ p ∈ [a, b, c], p ≠ 2 ^ 31 := by
    rw [ha, hb, hc]
    exact hroom
  refine (Returns.liftFault (Automaton.answers_start (s := x₃.diagrams)
    (V := {p | p ∈ [a, b, c]}) (n := 2) (q := 0) (by omega))).bind ?_
  rintro m _ - ⟨rfl, hm⟩
  refine (returns_columns hs₃ hnodup hne hroom' hm).liftDiagram.bind fun m' x₄ hle ⟨hm', _⟩ => ?_
  refine (returns_finishBuilt (hs₃.mono hle.1) (by omega) hnodup hm' ?_ (R := IsSum)
    fun w => ?_).bind fun m'' y _ hm'' => .pure hm''
  · rintro q l r r' ⟨-, hr⟩ ⟨-, hr'⟩
    omega
  · exact (runFrom_adds w 0 (by omega)).trans (by simp [IsSum])

theorem columns_eq_cons : columns = (false, false, false) :: columns.tail := rfl

theorem addColumn_of_overflow {a b c : Nat} (h : 2 ^ 31 ∈ [a, b, c]) (m : Automaton) :
    addColumn a b c m (false, false, false) = throw .literalOverflow := by
  have hleast : Diagram.Edge.leastWord ∈ [-(a : Int), -(b : Int), -(c : Int)] := by
    rw [Diagram.Edge.leastWord]
    simp only [List.mem_cons, List.not_mem_nil, or_false] at h ⊢
    omega
  have hdigits : digits [(a, false), (b, false), (c, false)] = throw .literalOverflow :=
    if_pos ⟨by simp, hleast⟩
  change digits [(a, false), (b, false), (c, false)] >>= _ = _
  rw [hdigits]
  rfl

theorem yields_settled_add (hs : x.diagrams.Sound) :
    Yields add x fun r y => r.Settles y.diagrams 3 IsSum := by
  by_cases hroom : 2 ^ 31 ∈ [x.size + 1, x.size + 2, x.size + 3]
  · unfold add
    refine (yields_fresh "a").bind fun a x₁ _ ⟨ha, hsize₁, _⟩ => ?_
    refine (yields_fresh "b").bind fun b x₂ _ ⟨hb, hsize₂, _⟩ => ?_
    refine (yields_fresh "c").bind fun c x₃ _ ⟨hc, _⟩ => ?_
    refine (Yields.liftFault (P := fun _ _ => True) fun _ _ => trivial).bind fun m x₄ _ _ => ?_
    rw [hsize₁] at hb hsize₂
    rw [hsize₂] at hc
    have hthrows : columns.foldlM (addColumn a b c) m = throw .literalOverflow := by
      rw [columns_eq_cons, List.foldlM_cons, addColumn_of_overflow (by rwa [ha, hb, hc])]
      rfl
    rw [hthrows]
    exact (Yields.liftDiagram (P := fun _ _ => False) .throw).bind fun _ _ _ h => h.elim
  · exact (returns_add hs fun p hp hle => hroom (hle ▸ hp)).yields

theorem yields_add (hs : x.diagrams.Sound) :
    Yields add x fun r y => r.args.length = 3 ∧ r.Means y.diagrams fun _ => IsSum :=
  (yields_settled_add hs).mono fun _ _ _ hr => ⟨hr.arity, hr.means⟩

theorem runFrom_equal {a b : Nat} (w : Word) :
    RunFrom (· = 0) (fun q l r => q = 0 ∧ (l a == l b) = true ∧ r = 0) 0 w ↔
      numbers w a = numbers w b := by
  induction w with
  | nil => simp [RunFrom, numbers]
  | cons l w ih =>
    simp only [RunFrom, numbers]
    have hdigit : (l a).toNat + 2 * numbers w a = (l b).toNat + 2 * numbers w b ↔
        (l a == l b) = true ∧ numbers w a = numbers w b := by
      cases l a <;> cases l b <;> simp <;> omega
    rw [hdigit, ← ih]
    constructor
    · rintro ⟨r, ⟨-, hl, rfl⟩, hw⟩
      exact ⟨hl, hw⟩
    · rintro ⟨hl, hw⟩
      exact ⟨0, ⟨trivial, hl, rfl⟩, hw⟩

theorem returns_equal (hs : x.diagrams.Sound) :
    Returns equal x fun r y => r.Settles y.diagrams 2 AreEqual := by
  unfold equal
  refine (returns_next "a").bind fun a x₁ _ ⟨ha, hsize₁, hd₁⟩ => ?_
  refine (returns_next "b").bind fun b x₂ _ ⟨hb, hsize₂, hd₂⟩ => ?_
  have hs₂ : x₂.diagrams.Sound := by rwa [hd₂, hd₁]
  have hnodup : [a, b].Nodup := by simp [ha, hb, hsize₁]
  refine (Returns.liftFault (Automaton.answers_start (s := x₂.diagrams)
    (V := {p | p ∈ [a, b]}) (n := 1) (q := 0) (by omega))).bind ?_
  rintro m _ - ⟨rfl, hm⟩
  refine (Diagram.returns_makeVariable hs₂ (by omega : a ≠ 0)).liftDiagram.bind
    fun ea x₄ h₄ ⟨hea, _⟩ => ?_
  have hs₄ := hs₂.mono h₄.1
  refine (Diagram.returns_makeVariable hs₄ (by omega : b ≠ 0)).liftDiagram.bind
    fun eb x₅ h₅ ⟨heb, _⟩ => ?_
  have hs₅ := hs₄.mono h₅.1
  refine (Diagram.returns_iff hs₅ (hea.mono hs₄ h₅.1) heb).liftDiagram.bind
    fun same x₆ h₆ ⟨hsame, _⟩ => ?_
  have hs₆ := hs₅.mono h₆.1
  have hm₆ := hm.mono hs₂ (le_trans h₄.1 (le_trans h₅.1 h₆.1))
  refine (Automaton.returns_addMove (q := 0) (r := 0) hs₆ hm₆ (by omega) (by omega) hsame
    fun σ τ hστ => ?_).liftDiagram.bind fun m' x₇ h₇ ⟨hm', _⟩ => ?_
  · rw [hστ a (by simp), hστ b (by simp)]
  · refine (returns_finishBuilt (hs₆.mono h₇.1) (by omega) hnodup
      (hm'.congr fun q l r => by rw [false_or]) ?_ (R := AreEqual) fun w => ?_).bind
        fun m'' y _ hm'' => .pure hm''
    · rintro q l r r' ⟨-, -, rfl⟩ ⟨-, -, rfl⟩
      rfl
    · exact (runFrom_equal w).trans (by simp [AreEqual])

theorem yields_equal (hs : x.diagrams.Sound) :
    Yields equal x fun r y => r.args.length = 2 ∧ r.Means y.diagrams fun _ => AreEqual :=
  (returns_equal hs).yields.mono fun _ _ _ hr => ⟨hr.arity, hr.means⟩

/-- The steps of the comparison for order: state 1 stands for a lower first number so far. -/
def Compares (a b : Nat) (q : Nat) (l : Assignment) (r : Nat) : Prop :=
  q ≤ 1 ∧ ((l a = l b ∧ r = q) ∨ (l a = false ∧ l b = true ∧ r = 1) ∨
    (l a = true ∧ l b = false ∧ r = 0))

theorem runFrom_compares {a b : Nat} (w : Word) : ∀ q ≤ 1, RunFrom (· = 1) (Compares a b) q w ↔
    numbers w a < numbers w b ∨ numbers w a = numbers w b ∧ q = 1 := by
  induction w with
  | nil =>
    intro q _
    simp [RunFrom, numbers]
  | cons l w ih =>
    intro q hq
    simp only [RunFrom, numbers, Compares]
    constructor
    · rintro ⟨r, ⟨-, ⟨hl, rfl⟩ | ⟨ha, hb, rfl⟩ | ⟨ha, hb, rfl⟩⟩, hw⟩
      · rw [ih r hq] at hw
        rw [hl]
        omega
      · rw [ih 1 le_rfl] at hw
        rw [ha, hb, Bool.toNat_false, Bool.toNat_true]
        omega
      · rw [ih 0 (by omega)] at hw
        rw [ha, hb, Bool.toNat_false, Bool.toNat_true]
        omega
    · intro h
      cases ha : l a <;> cases hb : l b <;>
        simp only [ha, hb, Bool.toNat_false, Bool.toNat_true] at h
      · exact ⟨q, ⟨hq, .inl ⟨rfl, rfl⟩⟩, (ih q hq).2 (by omega)⟩
      · exact ⟨1, ⟨hq, .inr (.inl ⟨rfl, rfl, rfl⟩)⟩, (ih 1 le_rfl).2 (by omega)⟩
      · exact ⟨0, ⟨hq, .inr (.inr ⟨rfl, rfl, rfl⟩)⟩, (ih 0 (by omega)).2 (by omega)⟩
      · exact ⟨q, ⟨hq, .inl ⟨rfl, rfl⟩⟩, (ih q hq).2 (by omega)⟩

theorem returns_compareState (hs : x.diagrams.Sound) {a b q : Nat} (hq : q ≤ 1) {F : Nat → Prop}
    {N : Nat → Assignment → Nat → Prop} {m : Automaton}
    (hm : Built x.diagrams {p | p ∈ [a, b]} 2 F N m) {same below above : Edge}
    (hsame : x.diagrams.Denotes same fun σ => σ a == σ b)
    (hbelow : x.diagrams.Denotes below fun σ => !σ a && σ b)
    (habove : x.diagrams.Denotes above fun σ => σ a && !σ b) :
    Returns (do
      let m ← m.addMove q ⟨q, same⟩
      let m ← m.addMove q ⟨1, below⟩
      m.addMove q ⟨0, above⟩ : Alphabet.M Automaton) x fun m y =>
        Built y.diagrams {p | p ∈ [a, b]} 2 F
          (fun q' l r => N q' l r ∨ q' = q ∧ Compares a b q l r) m := by
  have hV : ∀ f : Bool → Bool → Bool,
      DependsOn {p | p ∈ [a, b]} fun σ : Assignment => f (σ a) (σ b) :=
    fun f σ τ hστ => congrArg₂ f (hστ a (by simp)) (hστ b (by simp))
  refine (Automaton.returns_addMove hs hm (by omega) (by omega) hsame
    (hV fun x y => x == y)).liftDiagram.bind fun m₁ y h₁ ⟨hm₁, _⟩ => ?_
  have hy := hs.mono h₁.1
  refine (Automaton.returns_addMove hy hm₁ (by omega) (by omega) (hbelow.mono hs h₁.1)
    (hV fun x y => !x && y)).liftDiagram.bind fun m₂ z h₂ ⟨hm₂, _⟩ => ?_
  refine (Automaton.returns_addMove (hy.mono h₂.1) hm₂ (by omega) (by omega)
    ((habove.mono hs h₁.1).mono hy h₂.1) (hV fun x y => x && !y)).liftDiagram.mono
      fun m₃ u _ ⟨hm₃, _⟩ => hm₃.congr fun q' l r => ?_
  simp only [Compares, or_assoc]
  refine or_congr Iff.rfl ⟨?_, ?_⟩
  · rintro (⟨rfl, hl, rfl⟩ | ⟨rfl, hl, rfl⟩ | ⟨rfl, hl, rfl⟩)
    · exact ⟨rfl, hq, .inl ⟨by simpa using hl, rfl⟩⟩
    · exact ⟨rfl, hq, .inr (.inl (by simpa using hl))⟩
    · exact ⟨rfl, hq, .inr (.inr (by simpa using hl))⟩
  · rintro ⟨rfl, -, ⟨hl, rfl⟩ | ⟨ha, hb, rfl⟩ | ⟨ha, hb, rfl⟩⟩
    · exact .inl ⟨rfl, by simpa using hl, rfl⟩
    · exact .inr (.inl ⟨rfl, by simp [ha, hb], rfl⟩)
    · exact .inr (.inr ⟨rfl, by simp [ha, hb], rfl⟩)

theorem Compares.unique {a b q r r' : Nat} {l : Assignment} (h : Compares a b q l r)
    (h' : Compares a b q l r') : r = r' := by
  obtain ⟨-, ⟨hl, hr⟩ | ⟨ha, hb, hr⟩ | ⟨ha, hb, hr⟩⟩ := h <;>
    obtain ⟨-, ⟨hl', hr'⟩ | ⟨ha', hb', hr'⟩ | ⟨ha', hb', hr'⟩⟩ := h' <;> simp_all

theorem returns_less (hs : x.diagrams.Sound) :
    Returns less x fun r y => r.Settles y.diagrams 2 IsLess := by
  unfold less
  refine (returns_next "a").bind fun a x₁ _ ⟨ha, hsize₁, hd₁⟩ => ?_
  refine (returns_next "b").bind fun b x₂ _ ⟨hb, hsize₂, hd₂⟩ => ?_
  have hs₂ : x₂.diagrams.Sound := by rwa [hd₂, hd₁]
  have hnodup : [a, b].Nodup := by simp [ha, hb, hsize₁]
  refine (Diagram.returns_makeVariable hs₂ (by omega : a ≠ 0)).liftDiagram.bind
    fun ea x₃ h₃ ⟨hea, _⟩ => ?_
  have hs₃ := hs₂.mono h₃.1
  refine (Diagram.returns_makeVariable hs₃ (by omega : b ≠ 0)).liftDiagram.bind
    fun eb x₄ h₄ ⟨heb, _⟩ => ?_
  have hs₄ := hs₃.mono h₄.1
  have hea := hea.mono hs₃ h₄.1
  refine (Returns.liftFault (Automaton.answers_start (s := x₄.diagrams)
    (V := {p | p ∈ [a, b]}) (n := 2) (q := 1) (by omega))).bind ?_
  rintro m _ - ⟨rfl, hm⟩
  refine (Diagram.returns_iff hs₄ hea heb).liftDiagram.bind fun same x₅ h₅ ⟨hsame, _⟩ => ?_
  have hs₅ := hs₄.mono h₅.1
  have hea := hea.mono hs₄ h₅.1
  have heb := heb.mono hs₄ h₅.1
  refine (Diagram.returns_conj hs₅ (hea.neg hs₅) heb).liftDiagram.bind
    fun below x₆ h₆ ⟨hbelow, _⟩ => ?_
  have hs₆ := hs₅.mono h₆.1
  refine (Diagram.returns_conj hs₆ (hea.mono hs₅ h₆.1)
    ((heb.mono hs₅ h₆.1).neg hs₆)).liftDiagram.bind fun above x₇ h₇ ⟨habove, _⟩ => ?_
  have hs₇ := hs₆.mono h₇.1
  have hsame := hsame.mono hs₅ (le_trans h₆.1 h₇.1)
  have hbelow := hbelow.mono hs₆ h₇.1
  have hm := hm.mono hs₄ (le_trans h₅.1 (le_trans h₆.1 h₇.1))
  refine Returns.bind (P := fun m y => x₇.diagrams ≤ y.diagrams ∧
    Built y.diagrams {p | p ∈ [a, b]} 2 (· = 1) (Compares a b) m) ?_ ?_
  · refine Returns.mono (Returns.foldlM (fun done m (y : Alphabet) => x₇.diagrams ≤ y.diagrams ∧
      Built y.diagrams {p | p ∈ [a, b]} 2 (· = 1)
        (fun q l r => q ∈ done ∧ Compares a b q l r) m) ?_ ?_) ?_
    · exact ⟨le_rfl, hm.congr fun q l r => by simp⟩
    · rintro done q rest hqs m y ⟨hle, hm⟩
      have hq : q ≤ 1 := by
        have hmem : q ∈ [0, 1] := by simp [hqs]
        simp only [List.mem_cons, List.not_mem_nil, or_false] at hmem
        omega
      refine (returns_compareState (hs₇.mono hle) hq hm (hsame.mono hs₇ hle)
        (hbelow.mono hs₇ hle) (habove.mono hs₇ hle)).mono
          fun m' z hyz hm' => ⟨le_trans hle hyz.1, hm'.congr fun q' l r => ?_⟩
      rw [List.mem_append, List.mem_singleton, or_and_right]
      exact or_congr Iff.rfl (and_congr_right fun heq => by rw [heq])
    · rintro m y - ⟨hle, hm⟩
      refine ⟨hle, hm.congr fun q l r => ⟨fun h => h.2, fun h => ⟨?_, h⟩⟩⟩
      have := h.1
      simp only [List.mem_cons, List.not_mem_nil, or_false]
      omega
  · rintro m y - ⟨hle, hm⟩
    refine (returns_finishBuilt (hs₇.mono hle) (by omega) hnodup hm
      (fun _ _ _ _ => Compares.unique) (R := IsLess) fun w => ?_).bind
        fun m' z _ hm' => .pure hm'
    exact (runFrom_compares w 0 (by omega)).trans (by simp [IsLess])

theorem yields_less (hs : x.diagrams.Sound) :
    Yields less x fun r y => r.args.length = 2 ∧ r.Means y.diagrams fun _ => IsLess :=
  (returns_less hs).yields.mono fun _ _ _ hr => ⟨hr.arity, hr.means⟩

theorem runFrom_zeros {a : Nat} (w : Word) :
    RunFrom (· = 0) (fun q l r => q = 0 ∧ (!l a) = true ∧ r = 0) 0 w ↔ numbers w a = 0 := by
  induction w with
  | nil => simp [RunFrom, numbers]
  | cons l w ih =>
    simp only [RunFrom, numbers]
    have hdigit : (l a).toNat + 2 * numbers w a = 0 ↔ (!l a) = true ∧ numbers w a = 0 := by
      cases l a <;> simp
    rw [hdigit, ← ih]
    constructor
    · rintro ⟨r, ⟨-, hl, rfl⟩, hw⟩
      exact ⟨hl, hw⟩
    · rintro ⟨hl, hw⟩
      exact ⟨0, ⟨trivial, hl, rfl⟩, hw⟩

theorem recognizes_zeros {m : Automaton} {a : Nat}
    (hm : Built s {p | p ∈ [a]} 1 (· = 0) (fun q l r => q = 0 ∧ (!l a) = true ∧ r = 0) m) :
    (m.withProps [a]).Recognizes s {p | p ∈ [a]} fun w => numbers w a = 0 := by
  refine Automaton.Recognizes.withProps ⟨hm.formed (by omega), ?_, hm.reads, fun w => ?_⟩ (by simp)
  · intro q l r r' hr hr'
    rw [hm.step] at hr hr'
    rw [hr.2.2, hr'.2.2]
  · exact (hm.acceptsFrom_iff w 0).trans (runFrom_zeros w)

theorem yields_addZeros (hs : s.Sound) {m : Automaton} {a : Nat} {e : Edge}
    (hm : Built s {p | p ∈ [a]} 1 (· = 0) (fun _ _ _ => False) m) (he : s.Denotes e (· a)) :
    Yields (m.addMove 0 ⟨0, -e⟩) s fun m t =>
      (m.withProps [a]).Recognizes t {p | p ∈ [a]} fun w => numbers w a = 0 := by
  refine (Automaton.yields_addMove (q := 0) (r := 0) hs hm (by omega) (he.neg hs)
    fun σ τ hστ => ?_).mono fun m' t _ hm' => ?_
  · rw [hστ a (by simp)]
  · exact recognizes_zeros (hm'.congr fun q l r => by rw [false_or])

theorem returns_zero (hs : x.diagrams.Sound) :
    Returns zero x fun r y => r.Settles y.diagrams 1 IsZero := by
  unfold zero
  refine (returns_next "a").bind fun a x₁ _ ⟨ha, _, hd⟩ => ?_
  have hs₁ : x₁.diagrams.Sound := by rwa [hd]
  refine (Returns.liftFault (Automaton.answers_start (s := x₁.diagrams)
    (V := {p | p ∈ [a]}) (n := 1) (q := 0) (by omega))).bind ?_
  rintro m _ - ⟨rfl, hm⟩
  refine (Diagram.returns_makeVariable hs₁ (by omega : a ≠ 0)).liftDiagram.bind
    fun e x₂ h₂ ⟨he, _⟩ => ?_
  have hs₂ := hs₁.mono h₂.1
  refine (Automaton.returns_addMove (q := 0) (r := 0) hs₂ (hm.mono hs₁ h₂.1) (by omega)
    (by omega) (he.neg hs₂) fun σ τ hστ => ?_).liftDiagram.bind fun m' x₃ h₃ ⟨hm', _⟩ => ?_
  · rw [hστ a (by simp)]
  · refine (returns_finishBuilt (hs₂.mono h₃.1) (by omega) (List.nodup_singleton a)
      (hm'.congr fun q l r => by rw [false_or]) ?_ (R := IsZero) fun w => ?_).bind
        fun m'' y _ hm'' => .pure hm''
    · rintro q l r r' ⟨-, -, rfl⟩ ⟨-, -, rfl⟩
      rfl
    · exact (runFrom_zeros w).trans (by simp [IsZero])

theorem yields_zero (hs : x.diagrams.Sound) :
    Yields zero x fun r y => r.args.length = 1 ∧ r.Means y.diagrams fun _ => IsZero :=
  (returns_zero hs).yields.mono fun _ _ _ hr => ⟨hr.arity, hr.means⟩

end Binary

end RegularArithmetic

import Mathlib.Data.Finset.Prod
import RegularArithmetic.Automaton.Boolean
import RegularArithmetic.Proofs.Automaton.Canonical
import RegularArithmetic.Proofs.Automaton.Determinization

/-!
Intersection, union and complement, and what the questions about an automaton answer. A product
follows both automata at once; where each of them has a move for every letter, it also follows
those runs that only one of them accepts.
-/

set_option autoImplicit false

namespace RegularArithmetic

/-- What a truth value says of a property: that all have it, none, or some only. -/
def Truth.Says {α : Type} (S : α → Prop) : Truth → Prop
  | .always => ∀ x, S x
  | .never => ∀ x, ¬S x
  | .sometimes => (∃ x, S x) ∧ ∃ x, ¬S x

/-- The verdict about a condition on things of which there are some. -/
theorem Truth.Says.iff {α : Type} [Nonempty α] {S : α → Prop} {t : Truth} (h : t.Says S) :
    (t = .always ↔ ∀ a, S a) ∧ (t = .never ↔ ∀ a, ¬S a) ∧
      (t = .sometimes ↔ (∃ a, S a) ∧ ∃ a, ¬S a) := by
  have a : α := Classical.arbitrary α
  cases t with
  | always =>
    have h : ∀ a, S a := h
    simp [h]
  | never =>
    have h : ∀ a, ¬S a := h
    simp [h]
  | sometimes =>
    obtain ⟨⟨b, hb⟩, c, hc⟩ := h
    exact ⟨⟨nofun, fun h => absurd (h c) hc⟩, ⟨nofun, fun h => absurd hb (h b)⟩,
      fun _ => ⟨⟨b, hb⟩, c, hc⟩, fun _ => rfl⟩

/-- There is only one verdict. -/
theorem Truth.Says.eq {α : Type} [Nonempty α] {S : α → Prop} {t t' : Truth} (h : t.Says S)
    (h' : t'.Says S) : t = t' := by
  cases t' with
  | always => exact h.iff.1.2 h'
  | never => exact h.iff.2.1.2 h'
  | sometimes => exact h.iff.2.2.2 h'

end RegularArithmetic

namespace RegularArithmetic.Automaton

open Diagram (Edge Assignment)

variable {s t : Diagram.Store} {a b : Automaton} {V : Set Nat} {L L' : Word → Prop}

/-- From every state each letter leads to a state. -/
def Complete (s : Diagram.Store) (a : Automaton) : Prop :=
  ∀ q < a.size, ∀ l, ∃ r, Step s a q l r

section Product

variable (accept : Bool → Bool → Bool)

open Classical in
/-- The pairs of states of two automata, which move together. -/
def pairs (s : Diagram.Store) (a b : Automaton) (ha : a.Formed s) (hb : b.Formed s) :
    Combinations where
  D := (Finset.range a.size ×ˢ Finset.range b.size).image fun (p, q) => [p, q]
  Accepting c := ∃ p q, c = [p, q] ∧ p < a.size ∧ q < b.size ∧
    accept (decide (a.Accepting p)) (decide (b.Accepting q)) = true
  Next c l d := ∃ p q p' q', c = [p, q] ∧ d = [p', q'] ∧ Step s a p l p' ∧ Step s b q l q'
  closed := by
    rintro _ l _ - ⟨p, q, p', q', rfl, rfl, hp, hq⟩
    exact Finset.mem_image.2 ⟨(p', q'), by simp [hp.lt ha, hq.lt hb], rfl⟩

variable {accept} (ha : a.Formed s) (hb : b.Formed s)

theorem mem_pairs {c : List Nat} :
    c ∈ (pairs accept s a b ha hb).D ↔ ∃ p q, c = [p, q] ∧ p < a.size ∧ q < b.size := by
  simp only [pairs, Finset.mem_image, Finset.mem_product, Finset.mem_range, Prod.exists]
  constructor
  · rintro ⟨p, q, ⟨hp, hq⟩, rfl⟩
    exact ⟨p, q, rfl, hp, hq⟩
  · rintro ⟨p, q, rfl, hp, hq⟩
    exact ⟨p, q, ⟨hp, hq⟩, rfl⟩

theorem card_pairs_le : (pairs accept s a b ha hb).D.card ≤ a.size * b.size := by
  have hle : (pairs accept s a b ha hb).D.card ≤
    (Finset.range a.size ×ˢ Finset.range b.size).card := Finset.card_image_le
  rwa [Finset.card_product, Finset.card_range, Finset.card_range] at hle

theorem pairs_accepting_iff {p q : Nat} :
    (pairs accept s a b ha hb).Accepting [p, q] ↔ p < a.size ∧ q < b.size ∧
      ∃ x y, accept x y = true ∧ (x = true ↔ a.Accepting p) ∧ (y = true ↔ b.Accepting q) := by
  classical
  simp only [pairs, List.cons.injEq, and_true]
  constructor
  · rintro ⟨_, _, ⟨rfl, rfl⟩, hp, hq, haccept⟩
    exact ⟨hp, hq, _, _, haccept, decide_eq_true_iff, decide_eq_true_iff⟩
  · rintro ⟨hp, hq, x, y, haccept, hx, hy⟩
    obtain rfl : x = decide (a.Accepting p) := Bool.eq_iff_iff.2 (hx.trans decide_eq_true_iff.symm)
    obtain rfl : y = decide (b.Accepting q) := Bool.eq_iff_iff.2 (hy.trans decide_eq_true_iff.symm)
    exact ⟨p, q, ⟨rfl, rfl⟩, hp, hq, haccept⟩

theorem pairs_next_iff {p q : Nat} {l : Assignment} {d : List Nat} :
    (pairs accept s a b ha hb).Next [p, q] l d ↔
      ∃ p' q', d = [p', q'] ∧ Step s a p l p' ∧ Step s b q l q' := by
  simp only [pairs, List.cons.injEq, and_true]
  constructor
  · rintro ⟨_, _, p', q', ⟨rfl, rfl⟩, h⟩
    exact ⟨p', q', h⟩
  · rintro ⟨p', q', h⟩
    exact ⟨p, q, p', q', ⟨rfl, rfl⟩, h⟩

theorem pairs_acceptsFrom_and_iff (w : Word) : ∀ p q,
    (pairs (· && ·) s a b ha hb).AcceptsFrom [p, q] w ↔
      AcceptsFrom s a p w ∧ AcceptsFrom s b q w := by
  induction w with
  | nil =>
    intro p q
    simp only [Combinations.AcceptsFrom, pairs_accepting_iff, AcceptsFrom, Bool.and_eq_true]
    constructor
    · rintro ⟨-, -, x, y, ⟨rfl, rfl⟩, hx, hy⟩
      exact ⟨hx.1 rfl, hy.1 rfl⟩
    · rintro ⟨hp, hq⟩
      exact ⟨hp.lt, hq.lt, true, true, ⟨rfl, rfl⟩, by simpa using hp, by simpa using hq⟩
  | cons l w ih =>
    intro p q
    simp only [Combinations.AcceptsFrom, pairs_next_iff, AcceptsFrom]
    constructor
    · rintro ⟨d, ⟨p', q', rfl, hp, hq⟩, hw⟩
      exact ⟨⟨p', hp, ((ih p' q').1 hw).1⟩, q', hq, ((ih p' q').1 hw).2⟩
    · rintro ⟨⟨p', hp, hpw⟩, q', hq, hqw⟩
      exact ⟨[p', q'], ⟨p', q', rfl, hp, hq⟩, (ih p' q').2 ⟨hpw, hqw⟩⟩

theorem pairs_acceptsFrom_or_iff (hac : a.Complete s) (hbc : b.Complete s) (w : Word) :
    ∀ p < a.size, ∀ q < b.size, (pairs (· || ·) s a b ha hb).AcceptsFrom [p, q] w ↔
      AcceptsFrom s a p w ∨ AcceptsFrom s b q w := by
  induction w with
  | nil =>
    classical
    intro p hp q hq
    simp only [Combinations.AcceptsFrom, pairs_accepting_iff, AcceptsFrom, Bool.or_eq_true]
    constructor
    · rintro ⟨-, -, x, y, rfl | rfl, hx, hy⟩
      · exact .inl (hx.1 rfl)
      · exact .inr (hy.1 rfl)
    · intro h
      refine ⟨hp, hq, decide (a.Accepting p), decide (b.Accepting q), ?_, decide_eq_true_iff,
        decide_eq_true_iff⟩
      simpa using h
  | cons l w ih =>
    intro p hp q hq
    simp only [Combinations.AcceptsFrom, pairs_next_iff, AcceptsFrom]
    constructor
    · rintro ⟨d, ⟨p', q', rfl, hp', hq'⟩, hw⟩
      rcases (ih p' (hp'.lt ha) q' (hq'.lt hb)).1 hw with h | h
      · exact .inl ⟨p', hp', h⟩
      · exact .inr ⟨q', hq', h⟩
    · rintro (⟨p', hp', hw⟩ | ⟨q', hq', hw⟩)
      · obtain ⟨q', hq'⟩ := hbc q hq l
        exact ⟨[p', q'], ⟨p', q', rfl, hp', hq'⟩,
          (ih p' (hp'.lt ha) q' (hq'.lt hb)).2 (.inl hw)⟩
      · obtain ⟨p', hp'⟩ := hac p hp l
        exact ⟨[p', q'], ⟨p', q', rfl, hp', hq'⟩,
          (ih p' (hp'.lt ha) q' (hq'.lt hb)).2 (.inr hw)⟩

theorem returns_pairMoves (hs : s.Sound) (hst : s ≤ t) (har : a.Reads s V) (hbr : b.Reads s V)
    {c : List Nat} (hc : c ∈ (pairs accept s a b ha hb).D) :
    Returns (pairMoves a b c) t fun ms u => (∀ d e, (d, e) ∈ ms → IsLabel u V e) ∧
      ∀ d l, Keyed u ms d l ↔ (pairs accept s a b ha hb).Next c l d := by
  obtain ⟨p, q, rfl, hp, hq⟩ := (mem_pairs ha hb).1 hc
  unfold pairMoves
  refine Returns.bind (P := fun ms _ => ∀ m, a.HasMove p m ↔ m ∈ ms)
    (Returns.liftExcept (answers_moves hp)) fun left t₁ ht₁ hleft => ?_
  refine Returns.bind (P := fun ms _ => ∀ m, b.HasMove q m ↔ m ∈ ms)
    (Returns.liftExcept (answers_moves hq)) fun right t₂ ht₂ hright => ?_
  have hst₂ : s ≤ t₂ := le_trans hst (le_trans ht₁ ht₂)
  let Joint (m n : Move) (r : List Nat × Edge) (u : Diagram.Store) : Prop :=
    s ≤ u ∧ r.1 = [m.target, n.target] ∧
      u.Denotes r.2 fun l => s.value m.label l && s.value n.label l
  have hmono : ∀ m n r u v, u ≤ v → Joint m n r u → Joint m n r v := by
    rintro m n r u v huv ⟨hsu, htargets, he⟩
    exact ⟨le_trans hsu huv, htargets, he.mono (hs.mono hsu) huv⟩
  refine Returns.bind (P := fun joint u => s ≤ u ∧ List.Forall₂ (fun m rs =>
    List.Forall₂ (fun n r => Joint m n r u) right rs) left joint) ?_ ?_
  · refine (Returns.mapM (fun m rs u => List.Forall₂ (fun n r => Joint m n r u) right rs) ?_ left t₂
      fun m hm u htu => ?_).mono fun joint u hu hjoint => ⟨le_trans hst₂ hu, hjoint⟩
    · intro m rs u v huv h
      exact h.imp fun n r => hmono m n r u v huv
    · refine Returns.mapM (fun n r u => Joint m n r u) (fun n r u v => hmono m n r u v) right u
        fun n hn v huv => ?_
      have hsv : s ≤ v := le_trans hst₂ (le_trans htu huv)
      have hml := (ha.valid p m ((hleft m).2 hm)).denotes.mono hs hsv
      have hnl := (hb.valid q n ((hright n).2 hn)).denotes.mono hs hsv
      exact (Diagram.returns_conj (hs.mono hsv) hml hnl).bind fun e w hvw he =>
        .pure ⟨le_trans hsv hvw, rfl, he⟩
  · rintro joint u - ⟨hsu, hjoint⟩
    have hu := hs.mono hsu
    have hmem : ∀ r, r ∈ joint.flatten ↔ ∃ m n, a.HasMove p m ∧ b.HasMove q n ∧
        Joint m n r u ∧ r ∈ joint.flatten := by
      refine fun r => ⟨fun hr => ?_, fun ⟨_, _, _, _, _, hr⟩ => hr⟩
      obtain ⟨rs, hrs, hr'⟩ := List.mem_flatten.1 hr
      obtain ⟨m, hm, hrow⟩ := exists_mem_of_forall₂ hjoint.flip hrs
      obtain ⟨n, hn, hR⟩ := exists_mem_of_forall₂ hrow.flip hr'
      exact ⟨m, n, (hleft m).2 hm, (hright n).2 hn, hR, hr⟩
    refine .pure ⟨fun d e hde => ?_, fun d l => ?_⟩
    · obtain ⟨hflat, hz⟩ := List.mem_filter.1 hde
      obtain ⟨m, n, hm, hn, ⟨-, -, he⟩, -⟩ := (hmem _).1 hflat
      refine ⟨he.valid, of_decide_eq_true hz, he.value_eq ▸ ?_⟩
      exact (har.labels p m hm).and (hbr.labels q n hn)
    · rw [pairs_next_iff]
      constructor
      · rintro ⟨e, hde, hl⟩
        obtain ⟨m, n, hm, hn, ⟨-, htargets, he⟩, -⟩ := (hmem _).1 (List.mem_filter.1 hde).1
        rw [he.value_eq, Bool.and_eq_true] at hl
        exact ⟨m.target, n.target, htargets, ⟨m, hm, hl.1, rfl⟩, n, hn, hl.2, rfl⟩
      · rintro ⟨_, _, rfl, ⟨m, hm, hml, rfl⟩, n, hn, hnl, rfl⟩
        obtain ⟨row, hrow, hR⟩ := exists_mem_of_forall₂ hjoint ((hleft m).1 hm)
        obtain ⟨⟨d, e⟩, hr, -, rfl, he⟩ := exists_mem_of_forall₂ hR ((hright n).1 hn)
        have hl : u.value e l = true := by simp [he.value_eq, hml, hnl]
        have hz : e ≠ .zero := fun hz => by simp [hz] at hl
        exact ⟨e, List.mem_filter.2 ⟨List.mem_flatten.2 ⟨row, hrow, hr⟩, by simpa using hz⟩, hl⟩

variable (accept) in
/-- The rule of a product: pairs of states, which accept by their answers. -/
def pairRule (a b : Automaton) : Exploration.Rule where
  accepting
    | [p, q] => do
      let x ← a.isAccepting p
      let y ← b.isAccepting q
      return accept x y
    | _ => .ok false
  moves := a.pairMoves b

theorem pairs_total (hs : s.Sound) :
    (pairRule accept a b).Total s (pairs accept s a b ha hb) where
  accepting c hc := by
    obtain ⟨p, q, rfl, hp, hq⟩ := (mem_pairs ha hb).1 hc
    exact (answers_isAccepting hp).bind fun x _ => (answers_isAccepting hq).bind fun y _ =>
      .pure trivial
  moves c hc t ht := (returns_pairMoves (V := Set.univ) ha hb hs ht (reads_univ a) (reads_univ b)
    hc).succeeds

theorem pairs_follows (hs : s.Sound) (har : a.Reads s V) (hbr : b.Reads s V) :
    (pairRule accept a b).Follows s V (pairs accept s a b ha hb) where
  accepting c hc := by
    obtain ⟨p, q, rfl, hp, hq⟩ := (mem_pairs ha hb).1 hc
    refine Gives.bind (P := fun x => x = true ↔ a.Accepting p)
      (fun x hx => (isAccepting_eq_ok.1 hx).2) fun x hx => ?_
    refine Gives.bind (P := fun y => y = true ↔ b.Accepting q)
      (fun y hy => (isAccepting_eq_ok.1 hy).2) fun y hy => .pure ?_
    rw [pairs_accepting_iff]
    refine ⟨fun h => ⟨hp, hq, x, y, h, hx, hy⟩, ?_⟩
    rintro ⟨-, -, x', y', h, hx', hy'⟩
    rwa [Bool.eq_iff_iff.2 (hx.trans hx'.symm), Bool.eq_iff_iff.2 (hy.trans hy'.symm)]
  moves c hc t ht := (returns_pairMoves ha hb hs ht har hbr hc).yields

theorem pairs_deterministic (had : a.Deterministic s) (hbd : b.Deterministic s) :
    ∀ c ∈ (pairs accept s a b ha hb).D, ∀ l d d', (pairs accept s a b ha hb).Next c l d →
      (pairs accept s a b ha hb).Next c l d' → d = d' := by
  intro c hc l d d' hd hd'
  obtain ⟨p, q, rfl, -, -⟩ := (mem_pairs _ _).1 hc
  obtain ⟨p₁, q₁, rfl, hp₁, hq₁⟩ := (pairs_next_iff _ _).1 hd
  obtain ⟨p₂, q₂, rfl, hp₂, hq₂⟩ := (pairs_next_iff _ _).1 hd'
  rw [had p l p₁ p₂ hp₁ hp₂, hbd q l q₁ q₂ hq₁ hq₂]

end Product

theorem zero_mem_pairs {accept : Bool → Bool → Bool} (ha : a.Formed s) (hb : b.Formed s) :
    [0, 0] ∈ (pairs accept s a b ha hb).D :=
  (mem_pairs _ _).2 ⟨0, 0, rfl, ha.nonempty, hb.nonempty⟩

theorem mem_props_union (ha : a.Reads s V) (hb : b.Reads s V) :
    ∀ p ∈ a.props.union b.props, p ∈ V := fun p hp =>
  (NumberSet.mem_union.1 hp).elim (ha.props p) (hb.props p)

theorem product_eq (a b : Automaton) (accept : Bool → Bool → Bool) :
    a.product b accept = (do
      let c ← Exploration.run (pairRule accept a b) [0, 0] (a.size * b.size)
        (a.props.union b.props)
      liftM c.reduce) :=
  rfl

theorem yields_reduced_product {x : Alphabet} (hs : x.diagrams.Sound)
    (ha : a.Recognizes x.diagrams V L) (hb : b.Recognizes x.diagrams V L')
    (accept : Bool → Bool → Bool) :
    Yields (a.product b accept) x fun c y => c.Recognizes y.diagrams V
      ((pairs accept x.diagrams a b ha.formed hb.formed).AcceptsFrom [0, 0]) ∧
      c.Reduced y.diagrams := by
  rw [product_eq]
  exact (Exploration.yields_run (V := V) hs (zero_mem_pairs ha.formed hb.formed)
    (pairs_follows _ _ hs ha.reads hb.reads) (card_pairs_le _ _)
    (pairs_deterministic _ _ ha.deterministic hb.deterministic)
    (mem_props_union ha.reads hb.reads)).bind fun c y hxy hc =>
      Yields.liftDiagram (returns_reduced (hs.mono hxy.1) hc).yields

theorem yields_product {x : Alphabet} (hs : x.diagrams.Sound) (ha : a.Recognizes x.diagrams V L)
    (hb : b.Recognizes x.diagrams V L') (accept : Bool → Bool → Bool) :
    Yields (a.product b accept) x fun c y => c.Recognizes y.diagrams V
      ((pairs accept x.diagrams a b ha.formed hb.formed).AcceptsFrom [0, 0]) :=
  (yields_reduced_product hs ha hb accept).mono fun _ _ _ hc => hc.1

theorem returns_product {x : Alphabet} (hs : x.diagrams.Sound) (hbudget : x.budget = none)
    (ha : a.Recognizes x.diagrams V L) (hb : b.Recognizes x.diagrams V L')
    (accept : Bool → Bool → Bool) :
    Returns (a.product b accept) x fun c y => (y.budget = none ∧ c.Simple) ∧
      c.Recognizes y.diagrams V
        ((pairs accept x.diagrams a b ha.formed hb.formed).AcceptsFrom [0, 0]) := by
  refine Returns.and ?_ (yields_product hs ha hb accept)
  rw [product_eq]
  refine (Exploration.returns_run (V := V) hs hbudget (zero_mem_pairs ha.formed hb.formed)
    (pairs_follows _ _ hs ha.reads hb.reads) (pairs_total _ _ hs) (card_pairs_le _ _)
    (pairs_deterministic _ _ ha.deterministic hb.deterministic)
    (mem_props_union ha.reads hb.reads)).bind fun c y hxy ⟨hy, hc⟩ => ?_
  exact (returns_reduce (hs.mono hxy.1) hc).liftDiagram.mono fun d z _ ⟨hd, hz⟩ =>
    ⟨hz.trans hy, hd.2.1⟩

theorem yields_intersect {x : Alphabet} (hs : x.diagrams.Sound) (ha : a.Recognizes x.diagrams V L)
    (hb : b.Recognizes x.diagrams V L') :
    Yields (a.intersect b) x fun c y => c.Recognizes y.diagrams V fun w => L w ∧ L' w :=
  (yields_product hs ha hb _).mono fun _ _ _ hc => hc.congr fun w =>
    (pairs_acceptsFrom_and_iff _ _ w 0 0).trans (and_congr (ha.accepts w) (hb.accepts w))

theorem yields_reduced_intersect {x : Alphabet} (hs : x.diagrams.Sound)
    (ha : a.Recognizes x.diagrams V L) (hb : b.Recognizes x.diagrams V L') :
    Yields (a.intersect b) x fun c y => c.Reduced y.diagrams :=
  (yields_reduced_product hs ha hb _).mono fun _ _ _ hc => hc.2

theorem returns_intersect {x : Alphabet} (hs : x.diagrams.Sound) (hbudget : x.budget = none)
    (ha : a.Recognizes x.diagrams V L) (hb : b.Recognizes x.diagrams V L') :
    Returns (a.intersect b) x fun c y => (y.budget = none ∧ c.Simple) ∧
      c.Recognizes y.diagrams V fun w => L w ∧ L' w :=
  ((returns_product hs hbudget ha hb _).mono fun _ _ _ hc => hc.1).and (yields_intersect hs ha hb)

def Stuck (s : Diagram.Store) (a : Automaton) (q : Nat) (l : Assignment) : Prop :=
  ∀ r, ¬Step s a q l r

theorem returns_uncovered (hs : s.Sound) {st : State} (hst : ∀ m ∈ st.moves, IsLabel s V m.label) :
    Returns st.uncovered s fun e t => t.Valid e ∧ DependsOn V (t.value e) ∧
      ∀ l, t.value e l = true ↔ ∀ r, ¬Takes s st.moves l r := by
  have hlabels : ∀ e ∈ st.moves.map (·.label), IsLabel s V e := by
    intro e he
    obtain ⟨m, hm, rfl⟩ := List.mem_map.1 he
    exact hst m hm
  unfold State.uncovered
  refine (Diagram.returns_disjAll hs fun e he => (hlabels e he).valid).bind fun e t hst he =>
    .pure ?_
  have he := he.neg (hs.mono hst)
  refine ⟨he.valid, ?_, fun l => ?_⟩
  · rw [he.value_eq]
    refine DependsOn.not fun σ τ hστ => ?_
    rw [Bool.eq_iff_iff, List.any_eq_true, List.any_eq_true]
    exact exists_congr fun e => and_congr_right fun he => by rw [(hlabels e he).depends σ τ hστ]
  · rw [he.value_eq]
    simp only [Bool.not_eq_true', List.any_eq_false, List.mem_map, forall_exists_index, and_imp,
      forall_apply_eq_imp_iff₂, Takes, not_exists, not_and]
    exact ⟨fun h r m hm hl => absurd hl (h m hm), fun h m hm hl => h m.target m hm hl rfl⟩

/-- The same states, from which stuck letters lead to a new rejecting one. -/
structure Completes (s : Diagram.Store) (V : Set Nat) (a b : Automaton) : Prop where
  size_eq : b.size = a.size + 1
  accepting : ∀ q, b.Accepting q ↔ a.Accepting q
  labels : ∀ q m, b.HasMove q m → IsLabel s V m.label ∧ m.target < b.size
  props : b.props = a.props
  step : ∀ q l r, Step s b q l r ↔ Step s a q l r ∨ q ≤ a.size ∧ r = a.size ∧ Stuck s a q l

theorem Completes.acceptsFrom_iff (h : Completes s V a b) (w : Word) :
    ∀ q, AcceptsFrom s b q w ↔ AcceptsFrom s a q w := by
  induction w with
  | nil => exact h.accepting
  | cons l w ih =>
    intro q
    simp only [AcceptsFrom, h.step, ih]
    constructor
    · rintro ⟨r, hr | ⟨-, rfl, -⟩, hw⟩
      · exact ⟨r, hr, hw⟩
      · exact absurd hw.lt (Nat.lt_irrefl _)
    · rintro ⟨r, hr, hw⟩
      exact ⟨r, .inl hr, hw⟩

theorem Completes.complete (h : Completes s V a b) : b.Complete s := by
  intro q hq l
  rw [h.size_eq] at hq
  by_cases hstuck : Stuck s a q l
  · exact ⟨a.size, (h.step q l _).2 (.inr ⟨Nat.le_of_lt_succ hq, rfl, hstuck⟩)⟩
  · simp only [Stuck, not_forall, not_not] at hstuck
    obtain ⟨r, hr⟩ := hstuck
    exact ⟨r, (h.step q l r).2 (.inl hr)⟩

theorem Completes.recognizes (h : Completes s V a b) (ha : a.Recognizes s V L) :
    b.Recognizes s V L where
  formed := {
    nonempty := by rw [h.size_eq]; omega
    closed := fun q m hm => (h.labels q m hm).2
    valid := fun q m hm => (h.labels q m hm).1.valid
    satisfiable := fun q m hm => (h.labels q m hm).1.ne_zero }
  deterministic := by
    intro q l r r' hr hr'
    rw [h.step] at hr hr'
    rcases hr with hr | ⟨-, rfl, hstuck⟩
    · rcases hr' with hr' | ⟨-, -, hstuck⟩
      · exact ha.deterministic q l r r' hr hr'
      · exact absurd hr (hstuck r)
    · rcases hr' with hr' | ⟨-, rfl, -⟩
      · exact absurd hr' (hstuck r')
      · rfl
  reads := ⟨fun q m hm => (h.labels q m hm).1.depends, h.props ▸ ha.reads.props⟩
  accepts w := (h.acceptsFrom_iff w 0).trans (ha.accepts w)

/-- The label covers exactly the letters that no move of the state takes. -/
def Covers (s : Diagram.Store) (V : Set Nat) (st : State) (e : Edge) : Prop :=
  s.Valid e ∧ DependsOn V (s.value e) ∧ ∀ l, s.value e l = true ↔ ∀ r, ¬Takes s st.moves l r

@[simp] theorem accepting_orElse (st : State) (e : Edge) (n : Nat) :
    (st.orElse e n).accepting = st.accepting := by
  unfold State.orElse
  split <;> rfl

theorem mem_orElse {st : State} {e : Edge} {n : Nat} {m : Move} :
    m ∈ (st.orElse e n).moves ↔ m ∈ st.moves ∨ e ≠ .zero ∧ m = ⟨n, e⟩ := by
  unfold State.orElse
  split
  · rename_i hz
    simp [hz]
  · rename_i hz
    simp [hz]

theorem takes_orElse {st : State} {e : Edge} {n r : Nat} {l : Assignment} :
    Takes s (st.orElse e n).moves l r ↔
      Takes s st.moves l r ∨ s.value e l = true ∧ n = r := by
  unfold State.orElse
  split
  · rename_i hz
    simp [hz]
  · simp [Takes, or_and_right, exists_or]

/-- Each state with a move for its stuck letters to a new state behind all others. -/
structure Extends (s : Diagram.Store) (V : Set Nat) (a b : Automaton) : Prop where
  size_eq : b.size = a.size + 1
  props : b.props = a.props
  inner : ∀ q < a.size, ∃ st e, a.states[q]? = some st ∧ Covers s V st e ∧
    b.states[q]? = some (st.orElse e a.size)
  last : b.states[a.size]? = some ⟨false, [⟨a.size, .one⟩]⟩

theorem extends_orElse {missing : List Edge}
    (hmissing : List.Forall₂ (Covers s V) a.states.toList missing) :
    Extends s V a ⟨(a.states.toList.zipWith (fun st label => st.orElse label a.size)
      missing).toArray.push ⟨false, [⟨a.size, .one⟩]⟩, a.props⟩ := by
  set states := a.states.toList.zipWith (fun st label => st.orElse label a.size) missing with hdef
  have hsize : states.length = a.size := by
    rw [hdef, List.length_zipWith, ← hmissing.length_eq, Array.length_toList]
    exact Nat.min_self _
  refine ⟨?_, rfl, fun q hq => ?_, ?_⟩
  · simp only [size, Array.size_push, List.size_toArray, hsize]
  · have hst : a.states[q]? = some a.states[q] := Array.getElem?_eq_getElem hq
    obtain ⟨e, he, hcovers⟩ := forall₂_getElem? hmissing (i := q) (a := a.states[q])
      (by rw [Array.getElem?_toList, hst])
    refine ⟨_, e, hst, hcovers, ?_⟩
    rw [Array.getElem?_push, if_neg (by simp; omega), List.getElem?_toArray, hdef,
      List.getElem?_zipWith, Array.getElem?_toList, hst, he]
  · rw [Array.getElem?_push, if_pos (by simp [hsize])]

theorem Extends.cases (h : Extends s V a b) {q : Nat} (hq : q < b.size) :
    (∃ st e, q < a.size ∧ a.states[q]? = some st ∧ Covers s V st e ∧
      b.states[q]? = some (st.orElse e a.size)) ∨ q = a.size := by
  rw [h.size_eq] at hq
  rcases Nat.lt_succ_iff_lt_or_eq.1 hq with hq | rfl
  · obtain ⟨st, e, h⟩ := h.inner q hq
    exact .inl ⟨st, e, hq, h⟩
  · exact .inr rfl

theorem Extends.accepting_iff (h : Extends s V a b) (q : Nat) : b.Accepting q ↔ a.Accepting q := by
  constructor
  · intro hq
    obtain ⟨st, e, -, hst, -, hst'⟩ | rfl := h.cases hq.lt
    · rwa [Automaton.accepting_iff hst, ← accepting_orElse st e a.size,
        ← Automaton.accepting_iff hst']
    · rw [Automaton.accepting_iff h.last] at hq
      cases hq
  · intro hq
    obtain ⟨st, e, hst, -, hst'⟩ := h.inner q hq.lt
    rwa [Automaton.accepting_iff hst', accepting_orElse, ← Automaton.accepting_iff hst]

theorem Extends.label (h : Extends s V a b) (ha : a.Recognizes s V L) (hs : s.Sound) {q : Nat}
    {m : Move} (hm : b.HasMove q m) : IsLabel s V m.label ∧ m.target < b.size := by
  rw [h.size_eq]
  obtain ⟨st, e, -, hst, hcovers, hst'⟩ | rfl := h.cases hm.lt
  · rw [hasMove_iff hst', mem_orElse] at hm
    rcases hm with hm | ⟨hz, rfl⟩
    · have hmove := (hasMove_iff hst).2 hm
      exact ⟨ha.isLabel hmove, Nat.lt_succ_of_lt (ha.formed.closed q m hmove)⟩
    · exact ⟨⟨hcovers.1, hz, hcovers.2.1⟩, Nat.lt_succ_self _⟩
  · rw [hasMove_iff h.last, List.mem_singleton] at hm
    subst hm
    exact ⟨⟨hs.valid_one, Edge.zero_ne_one.symm, fun σ τ _ => by simp⟩, Nat.lt_succ_self _⟩

theorem Extends.step_iff (h : Extends s V a b) (q : Nat) (l : Assignment) (r : Nat) :
    Step s b q l r ↔ Step s a q l r ∨ q ≤ a.size ∧ r = a.size ∧ Stuck s a q l := by
  rcases lt_trichotomy q a.size with hlt | rfl | hgt
  · obtain ⟨st, e, hst, hcovers, hst'⟩ := h.inner q hlt
    rw [step_iff_takes hst', takes_orElse, hcovers.2.2, step_iff_takes hst]
    simp only [Stuck, step_iff_takes hst, hlt.le, true_and]
    tauto
  · have hstuck : Stuck s a a.size l := by
      rintro r ⟨m, hm, -⟩
      exact absurd hm.lt (Nat.lt_irrefl _)
    have hself : Takes s [⟨a.size, .one⟩] l r ↔ a.size = r := by simp [Takes]
    rw [step_iff_takes h.last, hself]
    simp [hstuck r, hstuck, eq_comm]
  · have hno : ¬Step s a q l r := by
      rintro ⟨m, hm, -⟩
      exact absurd hm.lt hgt.not_gt
    have hno' : ¬Step s b q l r := by
      rintro ⟨m, hm, -⟩
      have hlt := h.size_eq ▸ hm.lt
      omega
    simp only [hno, hno', false_or, false_iff, not_and]
    omega

theorem Extends.completes (h : Extends s V a b) (ha : a.Recognizes s V L) (hs : s.Sound) :
    Completes s V a b :=
  ⟨h.size_eq, h.accepting_iff, fun _ _ hm => h.label ha hs hm, h.props, h.step_iff⟩

theorem returns_complete (hs : s.Sound) (ha : a.Recognizes s V L) :
    Returns a.complete s fun b t => b.Recognizes t V L ∧ b.Complete t := by
  unfold complete
  have hlabel : ∀ st ∈ a.states.toList, ∀ m ∈ st.moves, IsLabel s V m.label := by
    intro st hst m hm
    obtain ⟨q, hq⟩ := Array.mem_iff_getElem?.1 (Array.mem_toList_iff.1 hst)
    exact ha.isLabel ((hasMove_iff hq).2 hm)
  refine Returns.bind (P := fun missing t => s ≤ t ∧
    List.Forall₂ (Covers t V) a.states.toList missing) ?_ ?_
  · let R (st : State) (e : Edge) (t : Diagram.Store) : Prop := s ≤ t ∧
      (∀ m ∈ st.moves, IsLabel s V m.label) ∧ Covers t V st e
    refine (Returns.mapM R ?_ _ s fun st hst t hle => ?_).mono
      fun missing t hle h => ⟨hle, h.imp fun st e h => h.2.2⟩
    · rintro st e t u htu ⟨hle, hst, he, hV, hcovers⟩
      have ht := hs.mono hle
      refine ⟨le_trans hle htu, hst, he.mono htu, ?_, fun l => ?_⟩
      · rwa [ht.value_mono htu he]
      · rw [ht.value_mono htu he, hcovers]
        exact forall_congr' fun r => not_congr
          (takes_mono ht htu fun m hm => (hst m hm).mono_store hs hle).symm
    · have ht := hs.mono hle
      have hst' := fun m hm => (hlabel st hst m hm).mono_store hs hle
      refine (returns_uncovered ht hst').mono fun e u htu ⟨he, hV, hcovers⟩ =>
        ⟨le_trans hle htu, hlabel st hst, he, hV, fun l => ?_⟩
      rw [hcovers]
      exact forall_congr' fun r => not_congr (takes_mono ht htu hst').symm
  · rintro missing t - ⟨hle, hmissing⟩
    have ht := hs.mono hle
    have ha := ha.mono_store hs hle
    refine Returns.ite (fun hall => .pure ⟨ha, fun q hq l => ?_⟩) fun _ => ?_
    · obtain ⟨st, hst⟩ := ha.formed.exists_state hq
      obtain ⟨e, he, -, -, hcovers⟩ := forall₂_getElem? hmissing (i := q) (a := st)
        (by rw [Array.getElem?_toList, hst])
      have hz : e = .zero := by
        simpa using List.all_eq_true.1 hall e (List.mem_of_getElem? he)
      have hnot : ¬∀ r, ¬Takes t st.moves l r := by simp [← hcovers, hz]
      simpa [step_iff_takes hst] using hnot
    · have h := (extends_orElse hmissing).completes ha ht
      exact .pure ⟨h.recognizes ha, h.complete⟩

theorem Complete.mono_store (hs : s.Sound) (hst : s ≤ t) (h : a.Formed s) (hc : a.Complete s) :
    a.Complete t := fun q hq l => by
  obtain ⟨r, hr⟩ := hc q hq l
  exact ⟨r, (step_mono hs hst h).2 hr⟩

theorem yields_union {x : Alphabet} (hs : x.diagrams.Sound) (ha : a.Recognizes x.diagrams V L)
    (hb : b.Recognizes x.diagrams V L') :
    Yields (a.union b) x fun c y => c.Recognizes y.diagrams V fun w => L w ∨ L' w := by
  unfold union
  refine (Yields.liftDiagram (returns_complete hs ha).yields).bind fun a' y hxy ⟨ha', hac⟩ => ?_
  have hy := hs.mono hxy.1
  refine (Yields.liftDiagram (returns_complete hy (hb.mono_store hs hxy.1)).yields).bind
    fun b' z hyz ⟨hb', hbc⟩ => ?_
  have ha'' := ha'.mono_store hy hyz.1
  have hac' := hac.mono_store hy hyz.1 ha'.formed
  refine (yields_product (hy.mono hyz.1) ha'' hb' _).mono fun c _ _ hc => hc.congr fun w => ?_
  rw [pairs_acceptsFrom_or_iff _ _ hac' hbc w 0 ha''.formed.nonempty 0 hb'.formed.nonempty]
  exact or_congr (ha''.accepts w) (hb'.accepts w)

theorem returns_union {x : Alphabet} (hs : x.diagrams.Sound) (hbudget : x.budget = none)
    (ha : a.Recognizes x.diagrams V L) (hb : b.Recognizes x.diagrams V L') :
    Returns (a.union b) x fun c y => (y.budget = none ∧ c.Simple) ∧
      c.Recognizes y.diagrams V fun w => L w ∨ L' w := by
  refine Returns.and ?_ (yields_union hs ha hb)
  unfold union
  refine (returns_complete hs ha).liftDiagram.bind fun a' y hxy ⟨⟨ha', _⟩, hy⟩ => ?_
  have hys := hs.mono hxy.1
  refine (returns_complete hys (hb.mono_store hs hxy.1)).liftDiagram.bind
    fun b' z hyz ⟨⟨hb', _⟩, hz⟩ => ?_
  exact (returns_product (hys.mono hyz.1) (hz.trans (hy.trans hbudget)) (ha'.mono_store hys hyz.1)
    hb' _).mono fun _ _ _ hc => hc.1

def flipped (a : Automaton) : Automaton :=
  { a with states := a.states.map fun st => { st with accepting := !st.accepting } }

theorem hasMove_flipped {q : Nat} {m : Move} : a.flipped.HasMove q m ↔ a.HasMove q m := by
  simp only [HasMove, flipped, Array.getElem?_map, Option.map_eq_some_iff]
  constructor
  · rintro ⟨_, ⟨st, hst, rfl⟩, hm⟩
    exact ⟨st, hst, hm⟩
  · rintro ⟨st, hst, hm⟩
    exact ⟨_, ⟨st, hst, rfl⟩, hm⟩

theorem step_flipped {q r : Nat} {l : Assignment} :
    Step s a.flipped q l r ↔ Step s a q l r := by
  simp only [Step, hasMove_flipped]

theorem accepting_flipped {q : Nat} (hq : q < a.size) :
    a.flipped.Accepting q ↔ ¬a.Accepting q := by
  have hst : a.states[q]? = some a.states[q] := Array.getElem?_eq_getElem hq
  simp [Accepting, flipped, hst]

theorem acceptsFrom_flipped (hformed : a.Formed s) (hdeterministic : a.Deterministic s)
    (hcomplete : a.Complete s) (w : Word) :
    ∀ q < a.size, AcceptsFrom s a.flipped q w ↔ ¬AcceptsFrom s a q w := by
  induction w with
  | nil => exact fun q hq => accepting_flipped hq
  | cons l w ih =>
    intro q hq
    obtain ⟨r, hr⟩ := hcomplete q hq l
    have honly : ∀ {P : Nat → Prop}, (∃ r', Step s a q l r' ∧ P r') ↔ P r := by
      refine fun {P} => ⟨?_, fun h => ⟨r, hr, h⟩⟩
      rintro ⟨r', hr', h⟩
      rwa [hdeterministic q l r r' hr hr']
    simp only [AcceptsFrom, step_flipped]
    rw [honly, honly]
    exact ih r (hr.lt hformed)

theorem returns_complement (hs : s.Sound) (ha : a.Recognizes s V L) :
    Returns a.complement s fun b t => (b.Recognizes t V fun w => ¬L w) ∧ b.Simple := by
  unfold complement
  refine (returns_complete hs ha).bind fun b t hst ⟨hb, hcomplete⟩ => ?_
  have hflipped : b.flipped.Recognizes t V fun w => ¬L w := {
    formed := {
      nonempty := by simpa [flipped, size] using hb.formed.nonempty
      closed := fun q m hm => by
        simpa [flipped, size] using hb.formed.closed q m (hasMove_flipped.1 hm)
      valid := fun q m hm => hb.formed.valid q m (hasMove_flipped.1 hm)
      satisfiable := fun q m hm => hb.formed.satisfiable q m (hasMove_flipped.1 hm) }
    deterministic := fun q l r r' hr hr' =>
      hb.deterministic q l r r' (step_flipped.1 hr) (step_flipped.1 hr')
    reads := ⟨fun q m hm => hb.reads.labels q m (hasMove_flipped.1 hm), hb.reads.props⟩
    accepts := fun w => (acceptsFrom_flipped hb.formed hb.deterministic hcomplete w 0
      hb.formed.nonempty).trans (not_congr (hb.accepts w)) }
  exact (returns_reduce (hs.mono hst) hflipped).mono fun _ _ _ hb => ⟨hb.1, hb.2.1⟩

theorem yields_complement (hs : s.Sound) (ha : a.Recognizes s V L) :
    Yields a.complement s fun b t => b.Recognizes t V fun w => ¬L w :=
  (returns_complement hs ha).yields.mono fun _ _ _ hb => hb.1

theorem answers_isEmpty_of_recognizes (hs : s.Sound) (ha : a.Recognizes s V L) :
    Answers a.isEmpty fun x => x = true ↔ ∀ w, ¬L w :=
  (answers_isEmpty hs ha.formed).mono fun x hx => by simpa only [ha.accepts] using hx

theorem gives_isEmpty_of_recognizes (hs : s.Sound) (ha : a.Recognizes s V L) :
    Gives a.isEmpty fun x => x = true ↔ ∀ w, ¬L w :=
  (answers_isEmpty_of_recognizes hs ha).gives

theorem returns_isUniversal (hs : s.Sound) (ha : a.Recognizes s V L) :
    Returns a.isUniversal s fun x _ => x = true ↔ ∀ w, L w := by
  unfold isUniversal
  refine (returns_complement hs ha).bind fun b t hst ⟨hb, _⟩ => Returns.liftExcept ?_
  exact (answers_isEmpty_of_recognizes (hs.mono hst) hb).mono fun x hx => by simpa using hx

theorem recognizes_universal (hs : s.Sound) : universal.Recognizes s V fun _ => True := by
  have hmove : ∀ q m, universal.HasMove q m ↔ q = 0 ∧ m = ⟨0, .one⟩ := by
    intro q m
    simp only [HasMove, universal, List.getElem?_toArray]
    cases q <;> simp
  have hlabel : ∀ {q m}, universal.HasMove q m → m = ⟨0, .one⟩ := fun h => ((hmove _ _).1 h).2
  refine ⟨⟨by simp [universal, size], fun q m h => ?_, fun q m h => ?_, fun q m h => ?_⟩,
    fun q l r r' hr hr' => ?_, ⟨fun q m h σ τ _ => ?_, fun p hp => ?_⟩, fun w => ?_⟩
  · rw [hlabel h]
    simp [universal, size]
  · rw [hlabel h]
    exact hs.valid_one
  · rw [hlabel h]
    decide
  · obtain ⟨m, hm, -, rfl⟩ := hr
    obtain ⟨m', hm', -, rfl⟩ := hr'
    rw [hlabel hm, hlabel hm']
  · rw [hlabel h, Diagram.Store.value_one, Diagram.Store.value_one]
  · exact absurd hp NumberSet.not_mem_empty
  · refine iff_of_true ?_ trivial
    induction w with
    | nil => exact ⟨⟨true, [⟨0, .one⟩]⟩, rfl, rfl⟩
    | cons l w ih =>
      exact ⟨0, ⟨⟨0, .one⟩, (hmove _ _).2 ⟨rfl, rfl⟩, Diagram.Store.value_one, rfl⟩, ih⟩

theorem returns_truth (hs : s.Sound) (ha : a.Recognizes s V L) :
    Returns a.truth s fun v _ => v.Says L := by
  unfold truth
  refine Returns.bind (P := fun x t => s = t ∧ (x = true ↔ ∀ w, ¬L w)) (Returns.liftExcept
    ((answers_isEmpty_of_recognizes hs ha).mono fun x hx => ⟨rfl, hx⟩)) ?_
  rintro x _ - ⟨rfl, hx⟩
  cases x with
  | true => exact .pure (hx.1 rfl)
  | false =>
    refine (returns_isUniversal hs ha).bind fun y t _ hy => ?_
    cases y with
    | true => exact .pure (hy.1 rfl)
    | false =>
      refine .pure ⟨?_, ?_⟩
      · simpa using hx
      · simpa using hy

theorem yields_truth (hs : s.Sound) (ha : a.Recognizes s V L) :
    Yields a.truth s fun v _ => v.Says L :=
  (returns_truth hs ha).yields

theorem returns_isEquivalent {x : Alphabet} (hs : x.diagrams.Sound) (hbudget : x.budget = none)
    (ha : a.Recognizes x.diagrams V L) (hb : b.Recognizes x.diagrams V L') :
    Returns (a.isEquivalent b) x fun v _ => v = true ↔ ∀ w, L w ↔ L' w := by
  unfold isEquivalent
  refine (returns_complement hs hb).liftDiagram.bind fun b' y hxy ⟨⟨hb', _⟩, hy⟩ => ?_
  have hys := hs.mono hxy.1
  refine (returns_intersect hys (hy.trans hbudget) (ha.mono_store hs hxy.1) hb').bind
    fun c z hyz ⟨⟨hz, _⟩, hc⟩ => ?_
  have hzs := hys.mono hyz.1
  have hle := le_trans hxy.1 hyz.1
  refine (Returns.liftFault (answers_isEmpty_of_recognizes hzs hc)).bind ?_
  rintro v _ - ⟨rfl, hv⟩
  cases v with
  | false =>
    refine .pure (iff_of_false (by simp) fun h => ?_)
    have hnone : ∀ w, ¬(L w ∧ ¬L' w) := fun w hw => hw.2 ((h w).1 hw.1)
    simpa using hv.2 hnone
  | true =>
    have hsub : ∀ w, L w → L' w := fun w hw => not_not.1 fun hw' => hv.1 rfl w ⟨hw, hw'⟩
    refine (returns_complement hzs (ha.mono_store hs hle)).liftDiagram.bind
      fun a' u hzu ⟨⟨ha', _⟩, hu⟩ => ?_
    have hus := hzs.mono hzu.1
    refine (returns_intersect hus (hu.trans hz) (hb.mono_store hs (le_trans hle hzu.1)) ha').bind
      fun d v huv ⟨_, hd⟩ => ?_
    refine (Returns.liftFault (answers_isEmpty_of_recognizes (hus.mono huv.1) hd)).mono ?_
    rintro v' _ - ⟨-, hv'⟩
    rw [hv']
    exact ⟨fun h w => ⟨hsub w, fun hw => not_not.1 fun hw' => h w ⟨hw, hw'⟩⟩,
      fun h w hw => hw.2 ((h w).2 hw.1)⟩

end RegularArithmetic.Automaton

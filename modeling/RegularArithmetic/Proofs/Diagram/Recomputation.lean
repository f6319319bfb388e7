import Mathlib.Algebra.BigOperators.Fin
import Mathlib.Algebra.Order.BigOperators.Group.Finset
import RegularArithmetic.Proofs.Diagram.Agreement

/-!
A choice that was made before and is forgotten is made again without a new node, and no choice
reaches the end of its depth. So it does not matter which results a store still remembers.
-/

set_option autoImplicit false

namespace RegularArithmetic.Diagram

open RegularArithmetic.Store (Interner DirectMapped)
open RegularArithmetic.Diagram.Store (Twins)

variable {s t : Store} {e f g h : Edge} {tr tr' : Triple} {v m : Nat} {σ : Assignment}

namespace Triple

/-- The numbers of the three nodes. -/
def nodes (t : Triple) : Finset Nat := {t.f.index, t.g.index, t.h.index}

/-- The numbers of the inner nodes of a triple, added up. A node that occurs twice counts once,
since the two forms of a symmetric choice may repeat different nodes. -/
def weight (t : Triple) : Nat := ∑ i ∈ t.nodes, (i - 1)

theorem mem_nodes {i : Nat} : i ∈ tr.nodes ↔ i = tr.f.index ∨ i = tr.g.index ∨ i = tr.h.index := by
  simp [nodes]

theorem weight_le_of_nodes (h : ∀ i ∈ tr'.nodes, i ≠ 1 → i ∈ tr.nodes) :
    tr'.weight ≤ tr.weight := by
  refine Finset.sum_le_sum_of_ne_zero fun i hi hne => h i hi ?_
  rintro rfl
  exact hne rfl

theorem weight_le (tr : Triple) : tr.weight ≤ tr.f.index + tr.g.index + tr.h.index := by
  have hmap : tr.nodes = Finset.univ.image ![tr.f.index, tr.g.index, tr.h.index] := by
    ext i
    simp [mem_nodes, Fin.exists_fin_succ, eq_comm]
  calc tr.weight
      ≤ ∑ k, (![tr.f.index, tr.g.index, tr.h.index] k - 1) := by
        rw [weight, hmap]
        exact Finset.sum_image_le_of_nonneg fun _ _ => Nat.zero_le _
    _ ≤ tr.f.index + tr.g.index + tr.h.index := by
        simp only [Fin.sum_univ_three, Matrix.cons_val]
        omega

theorem weight_lt_of_image {c : Nat → Nat} (hle : ∀ i ∈ tr.nodes, c i ≤ i)
    (hlt : ∃ i ∈ tr.nodes, 1 < i ∧ c i < i) (hnodes : tr'.nodes = tr.nodes.image c) :
    tr'.weight < tr.weight := by
  calc tr'.weight
      ≤ ∑ i ∈ tr.nodes, (c i - 1) := by
        rw [weight, hnodes]
        exact Finset.sum_image_le_of_nonneg fun _ _ => Nat.zero_le _
    _ < tr.weight := by
        refine Finset.sum_lt_sum (fun i hi => Nat.sub_le_sub_right (hle i hi) 1) ?_
        obtain ⟨i, hi, hone, hlt⟩ := hlt
        exact ⟨i, hi, by omega⟩

theorem ne_of_settled? (h : tr.settled? = none) :
    tr.f ≠ .one ∧ tr.f ≠ .zero ∧ tr.g ≠ tr.h ∧ ¬(tr.g = .one ∧ tr.h = .zero) ∧
      ¬(tr.g = .zero ∧ tr.h = .one) := by
  obtain ⟨f, g, h⟩ := tr
  simp only [settled?] at h
  split_ifs at h
  exact ⟨‹_›, ‹_›, ‹_›, ‹_›, ‹_›⟩

theorem nodes_absorb {i : Nat} (hi : i ∈ tr.absorb.nodes) (hne : i ≠ 1) : i ∈ tr.nodes := by
  obtain ⟨f, g, h⟩ := tr
  simp only [absorb] at hi
  split_ifs at hi
  all_goals simp only [mem_nodes, Edge.index_one, Edge.index_zero] at hi ⊢
  all_goals tauto

theorem exists_orient (htr : s.ValidTriple tr) (hnone : tr.settled? = none) :
    ∃ tr', tr.orient s = .ok tr' ∧ tr'.f.index ≠ 1 ∧ ∀ i ∈ tr'.nodes, i ≠ 1 → i ∈ tr.nodes := by
  obtain ⟨hone, hzero, hne, hid, hneg⟩ := ne_of_settled? hnone
  obtain ⟨f, g, h⟩ := tr
  obtain ⟨i, hi⟩ := htr.f
  obtain ⟨j, hj⟩ := htr.g
  obtain ⟨k, hk⟩ := htr.h
  refine ⟨_, by simp only [orient, Store.node_eq hi, Store.node_eq hj, Store.node_eq hk]; rfl, ?_⟩
  constructor
  · -- Otherwise two constants would settle the choice.
    have hconst : ∀ a b : Edge, a.index = 1 → b.index = 1 → a = g → b = h → False := by
      rintro a b ha hb rfl rfl
      rcases Edge.index_eq_one.1 ha with rfl | rfl <;> rcases Edge.index_eq_one.1 hb with rfl | rfl
      · exact hne rfl
      · exact hid ⟨rfl, rfl⟩
      · exact hneg ⟨rfl, rfl⟩
      · exact hne rfl
    split_ifs with h₁ h₂ h₃ h₄ h₅ <;> intro hterm <;> simp only [Edge.index_neg] at hterm
    · exact hconst _ _ rfl hterm h₁.1.symm rfl
    · exact hconst _ _ hterm rfl rfl h₂.1.symm
    · exact hconst _ _ hterm rfl rfl h₃.1.symm
    · exact hconst _ _ rfl hterm h₄.1.symm rfl
    · exact hconst _ _ hterm (by rw [← hterm, h₅.1, Edge.index_neg]) rfl rfl
    · exact (Edge.index_eq_one.1 hterm).elim hone hzero
  · intro i hi hi1
    split_ifs at hi with h₁ h₂ h₃ h₄ h₅
    all_goals simp only [mem_nodes, Edge.index_one, Edge.index_zero, Edge.index_neg] at hi ⊢
    all_goals omega

theorem nodes_regular : tr.regular.1.nodes = tr.nodes := by
  obtain ⟨f, g, h⟩ := tr
  ext i
  simp only [regular]
  split_ifs
  all_goals simp only [mem_nodes, Edge.index_neg]
  all_goals omega

theorem index_regular (htr : tr.f.index ≠ 1) : tr.regular.1.f.index ≠ 1 := by
  obtain ⟨f, g, h⟩ := tr
  simp only [regular]
  split_ifs <;> simpa using htr

theorem exists_top (hs : s.Sound) (htr : s.ValidTriple tr) (hf : tr.f.index ≠ 1) :
    ∃ m, tr.top s = .ok m ∧ m ≠ 0 ∧
      ∃ i ∈ tr.nodes, ∃ n, s.nodes.get? i = some n ∧ i ≠ 1 ∧ n.var = m := by
  obtain ⟨f, g, h⟩ := tr
  obtain ⟨i, hi⟩ := htr.f
  obtain ⟨j, hj⟩ := htr.g
  obtain ⟨k, hk⟩ := htr.h
  have hi0 : i.var ≠ 0 := (hs.placed _ i hf hi).var_ne_zero
  have hinner : ∀ {a n}, s.nodes.get? a = some n → n.var ≠ 0 → a ≠ 1 := by
    rintro a n ha hn rfl
    rw [hs.terminal] at ha
    cases ha
    exact hn rfl
  obtain ⟨m, htop, hm0, hm⟩ : ∃ m, top s ⟨f, g, h⟩ = .ok m ∧ m ≠ 0 ∧
      (m = i.var ∨ m = j.var ∨ m = k.var) := by
    refine ⟨_, by simp only [top, Store.node_eq hi, Store.node_eq hj, Store.node_eq hk]; rfl, ?_⟩
    split_ifs <;> omega
  refine ⟨m, htop, hm0, ?_⟩
  rcases hm with rfl | rfl | rfl
  · exact ⟨_, by simp [mem_nodes], i, hi, hf, rfl⟩
  · exact ⟨_, by simp [mem_nodes], j, hj, hinner hj hm0, rfl⟩
  · exact ⟨_, by simp [mem_nodes], k, hk, hinner hk hm0, rfl⟩

end Triple

namespace Store

/-- The number of the node that an edge to node `i` leads to when `v` gets the value `b`. -/
def descend (s : Store) (v : Nat) (b : Bool) (i : Nat) : Nat :=
  match s.nodes.get? i with
  | some n => if n.var = v then (n.select b).index else i
  | none => i

theorem descend_eq {n : Node} {i : Nat} (hn : s.nodes.get? i = some n) (v : Nat) (b : Bool) :
    s.descend v b i = if n.var = v then (n.select b).index else i := by
  rw [descend, hn]

theorem Sound.descend_le (hs : s.Sound) (hv : v ≠ 0) (b : Bool) (i : Nat) :
    s.descend v b i ≤ i := by
  cases hn : s.nodes.get? i with
  | none => simp only [descend, hn, le_refl]
  | some n =>
    rw [descend_eq hn]
    split
    · have hi : i ≠ 1 := by
        rintro rfl
        rw [hs.terminal] at hn
        cases hn
        exact hv (by assumption : Node.terminal.var = v).symm
      exact ((hs.placed i n hi hn).select_lt b).le
    · exact le_rfl

theorem Sound.exists_cofactors (hs : s.Sound) (hv : v ≠ 0) (he : s.Valid e)
    (habove : s.Above (v - 1) e) :
    ∃ c, s.cofactors e v = .ok c ∧ s.AreHalves e v c ∧
      c.1.index = s.descend v false e.index ∧ c.2.index = s.descend v true e.index := by
  obtain ⟨c, hc, hindex⟩ : ∃ c, s.cofactors e v = .ok c ∧
      c.1.index = s.descend v false e.index ∧ c.2.index = s.descend v true e.index := by
    obtain ⟨n, hn⟩ := he
    rw [descend_eq hn, descend_eq hn]
    unfold cofactors
    rw [if_neg hv]
    by_cases ht : e.isTerminal = true
    · rw [if_pos ht]
      rw [Edge.isTerminal_iff.1 ht, hs.terminal] at hn
      cases hn
      have hvar : Node.terminal.var ≠ v := hv.symm
      exact ⟨(e, e), rfl, by rw [if_neg hvar], by rw [if_neg hvar]⟩
    rw [if_neg ht, node_eq hn]
    have hle := habove n hn fun hi => ht (Edge.isTerminal_iff.2 hi)
    by_cases hlt : v < n.var
    · exact ⟨(e, e), by simp only [bind, Except.bind, if_pos hlt]; rfl,
        by rw [if_neg hlt.ne'], by rw [if_neg hlt.ne']⟩
    obtain rfl : n.var = v := by omega
    refine ⟨(e.along n.low, e.along n.high), ?_, by rw [if_pos rfl]; exact Edge.index_along e _,
      by rw [if_pos rfl]; exact Edge.index_along e _⟩
    simp only [bind, Except.bind, if_neg hlt, ne_eq, not_true_eq_false, if_false, Edge.along]
    cases e.isNegated <;> rfl
  exact ⟨c, hc, gives_cofactors hs he habove c hc, hindex⟩

theorem AreHalves.value_update {c : Edge × Edge} (hc : s.AreHalves e v c) (hs : s.Sound)
    (σ : Assignment) (b : Bool) :
    s.value e (Function.update σ v b) = s.value (if b then c.2 else c.1) σ := by
  rw [hc.value_eq, Function.update_self]
  cases b
  · exact hs.value_update_of_above hc.low hc.above_low false
  · exact hs.value_update_of_above hc.high hc.above_high true

theorem AreHalves.mono {c : Edge × Edge} (hc : s.AreHalves e v c) (hs : s.Sound) (he : s.Valid e)
    (hst : s ≤ t) : t.AreHalves e v c where
  ne_zero := hc.ne_zero
  low := hc.low.mono hst
  high := hc.high.mono hst
  above_low := hc.above_low.mono_store hc.low hst
  above_high := hc.above_high.mono_store hc.high hst
  value_eq σ := by
    rw [hs.value_mono hst he, hs.value_mono hst hc.low, hs.value_mono hst hc.high, hc.value_eq]

/-- Halves at a variable depend on it and later ones only. -/
theorem AreHalves.value_congr {c : Edge × Edge} (hc : s.AreHalves e v c) (hs : s.Sound)
    {σ τ : Assignment} (hστ : ∀ w, v - 1 < w → σ w = τ w) : s.value e σ = s.value e τ := by
  have hv := hc.ne_zero
  have hlater : ∀ w, v < w → σ w = τ w := fun w hw => hστ w (by omega)
  rw [hc.value_eq, hc.value_eq, hστ v (by omega), hs.value_congr hlater hc.low hc.above_low,
    hs.value_congr hlater hc.high hc.above_high]

/-- The halves of a triple at its smallest variable are those of its edges. -/
structure Halves (s : Store) (tr : Triple) (m : Nat) (low high : Triple) : Prop where
  f : s.AreHalves tr.f m (low.f, high.f)
  g : s.AreHalves tr.g m (low.g, high.g)
  h : s.AreHalves tr.h m (low.h, high.h)
  low_lt : low.weight < tr.weight
  high_lt : high.weight < tr.weight

variable {low high : Triple}

theorem Halves.valid_low (h : s.Halves tr m low high) : s.ValidTriple low :=
  ⟨h.f.low, h.g.low, h.h.low⟩

theorem Halves.valid_high (h : s.Halves tr m low high) : s.ValidTriple high :=
  ⟨h.f.high, h.g.high, h.h.high⟩

theorem Sound.exists_halves (hs : s.Sound) (htr : s.ValidTriple tr) (hf : tr.f.index ≠ 1) :
    ∃ m low high, s.Halves tr m low high ∧ ∀ choose t, s.Alike t → split choose tr t =
      (choose low >>= fun a => choose high >>= fun b => makeNode m a b) t := by
  obtain ⟨m, htop, hm, i, hi, n, hn, hi1, hvar⟩ := Triple.exists_top hs htr hf
  obtain ⟨haf, hag, hah⟩ := Triple.gives_top hs tr m htop hm
  obtain ⟨cf, hcf, hhf, hf₀, hf₁⟩ := hs.exists_cofactors hm htr.f haf
  obtain ⟨cg, hcg, hhg, hg₀, hg₁⟩ := hs.exists_cofactors hm htr.g hag
  obtain ⟨ch, hch, hhh, hh₀, hh₁⟩ := hs.exists_cofactors hm htr.h hah
  have hlt : ∀ b, 1 < i ∧ s.descend m b i < i := by
    intro b
    have hi0 := (Interner.le_size_of_get? hn).1
    refine ⟨by omega, ?_⟩
    rw [descend_eq hn, if_pos hvar]
    exact (hs.placed i n hi1 hn).select_lt b
  have hweight : ∀ b (tr' : Triple), tr'.nodes = tr.nodes.image (s.descend m b) →
      tr'.weight < tr.weight := fun b tr' hnodes =>
    Triple.weight_lt_of_image (fun j _ => hs.descend_le hm b j) ⟨i, hi, hlt b⟩ hnodes
  refine ⟨m, ⟨cf.1, cg.1, ch.1⟩, ⟨cf.2, cg.2, ch.2⟩,
    ⟨hhf, hhg, hhh, hweight false _ ?_, hweight true _ ?_⟩, ?_⟩
  · simp only [Triple.nodes, Finset.image_insert, Finset.image_singleton, hf₀, hg₀, hh₀]
  · simp only [Triple.nodes, Finset.image_insert, Finset.image_singleton, hf₁, hg₁, hh₁]
  intro choose t hst
  rw [hst.top] at htop
  rw [hst.cofactors] at hcf hcg hch
  calc split choose tr t = _ := bind_of_ok (ask_of_ok htop)
    _ = _ := bind_of_ok (ask_of_ok hcf)
    _ = _ := bind_of_ok (ask_of_ok hcg)
    _ = _ := bind_of_ok (ask_of_ok hch)

theorem IsChoice.exists_halves (he : s.IsChoice tr e) (hs : s.Sound)
    {low high : Triple} (hh : s.Halves tr m low high) :
    ∃ c, s.AreHalves e m c ∧ s.IsChoice low c.1 ∧ s.IsChoice high c.2 := by
  have habove : s.Above (m - 1) e := hs.above_of_value_congr fun σ τ hστ => by
    simp only [he.value_eq, chosen, hh.f.value_congr hs hστ, hh.g.value_congr hs hστ,
      hh.h.value_congr hs hστ]
  obtain ⟨c, -, hc, -⟩ := hs.exists_cofactors hh.f.ne_zero he.valid habove
  have hvalue : ∀ σ (b : Bool), s.value (if b then c.2 else c.1) σ =
      s.chosen (if b then high else low) σ := by
    intro σ b
    rw [← hc.value_update hs, he.value_eq]
    simp only [chosen, hh.f.value_update hs, hh.g.value_update hs, hh.h.value_update hs]
    cases b <;> rfl
  exact ⟨c, hc, ⟨hh.valid_low, hc.low, fun σ => hvalue σ false⟩,
    ⟨hh.valid_high, hc.high, fun σ => hvalue σ true⟩⟩

end Store

/-- The choice between the edges of a regular triple, from memory if it is remembered. -/
def recollect (depth : Nat) (tr : Triple) : M Edge := do
  match ← remembered tr with
  | some e => pure e
  | none => do
    let e ← split (chooseWithin depth) tr
    remember tr e
    pure e

theorem Store.Sound.exists_regular (hs : s.Sound) (htr : s.ValidTriple tr)
    (hnone : tr.settled? = none) (hnone' : tr.absorb.settled? = none) :
    ∃ reg negated, s.ValidTriple reg ∧ reg.f.index ≠ 1 ∧ reg.weight ≤ tr.weight ∧
      (∀ σ, s.chosen reg σ = (negated ^^ s.chosen tr σ)) ∧
      ∀ depth t, s.Alike t → chooseWithin (depth + 1) tr t =
        (recollect depth reg >>= fun e => pure (if negated = true then -e else e)) t := by
  have habsorb := Triple.validTriple_absorb hs htr
  obtain ⟨tr', horient, hf, hnodes⟩ := Triple.exists_orient habsorb hnone'
  obtain ⟨htr', hchosen⟩ := Triple.gives_orient hs habsorb tr' horient
  refine ⟨tr'.regular.1, tr'.regular.2, Triple.validTriple_regular htr',
    Triple.index_regular hf, ?_, fun σ => ?_, fun depth t hst => ?_⟩
  · refine Triple.weight_le_of_nodes fun i hi hi1 => ?_
    rw [Triple.nodes_regular] at hi
    exact Triple.nodes_absorb (hnodes i hi hi1) hi1
  · rw [Triple.chosen_regular hs htr', hchosen, Triple.chosen_absorb hs htr]
  · rw [hst.orient] at horient
    rw [chooseWithin, hnone]
    dsimp only
    rw [hnone']
    refine (bind_of_ok (ask_of_ok (q := fun s => tr.absorb.orient s) horient)).trans ?_
    rw [recollect, bind_assoc]
    refine congrFun (congrArg (remembered tr'.regular.1 >>= ·) (funext fun found => ?_)) t
    cases found with
    | some e => rfl
    | none => simp only [bind_assoc, pure_bind]

theorem remembered_eq (hs : s.Sound) (tr : Triple) :
    ∃ t, remembered tr s = .ok (s.results.peek tr) t ∧ t.nodes = s.nodes ∧ s ≤ t := by
  refine ⟨⟨s.nodes, (s.results.find tr).2⟩, ?_, rfl, ?_⟩
  · rw [← DirectMapped.find_fst]
    rfl
  · refine s.le_withResults fun _ tr' e he => hs.results tr' e ?_
    rwa [DirectMapped.peek_find] at he

section

variable {depth : Nat}

private theorem recollect_of_isChoice (hchoose : ∀ s : Store, s.Sound → ∀ tr e, s.IsChoice tr e →
      tr.weight < depth → ∃ t, chooseWithin depth tr s = .ok e t ∧ t.nodes = s.nodes)
    (hs : s.Sound) (he : s.IsChoice tr e) (hf : tr.f.index ≠ 1) (hweight : tr.weight ≤ depth) :
    ∃ t, recollect depth tr s = .ok e t ∧ t.nodes = s.nodes := by
  obtain ⟨t, hfind, hnodes, hst⟩ := remembered_eq hs tr
  have ht := hs.mono hst
  have he := he.mono hs hst
  unfold recollect
  rw [bind_of_ok hfind]
  cases hpeek : s.results.peek tr with
  | some d =>
    have hd := (hs.results tr d hpeek).mono hs hst
    obtain rfl : d = e := ht.eq_of_value_eq hd.valid he.valid fun σ => by
      rw [hd.value_eq, he.value_eq]
    exact ⟨t, rfl, hnodes⟩
  | none =>
    obtain ⟨m, low, high, hh, hsplit⟩ := ht.exists_halves he.triple hf
    obtain ⟨c, hc, hlow, hhigh⟩ := he.exists_halves ht hh
    obtain ⟨u, hrunlow, hu⟩ := hchoose t ht low c.1 hlow (hh.low_lt.trans_le hweight)
    obtain ⟨htu, -⟩ := (yields_chooseWithin depth t ht low hh.valid_low).of_ok hrunlow
    have hus := ht.mono htu
    obtain ⟨w, hrunhigh, hw⟩ := hchoose u hus high c.2 (hhigh.mono ht htu)
      (hh.high_lt.trans_le hweight)
    obtain ⟨huw, -⟩ :=
      (yields_chooseWithin depth u hus high (hh.valid_high.mono htu)).of_ok hrunhigh
    have htw := le_trans htu huw
    have hmake := makeNode_of_areHalves (ht.mono htw) (he.valid.mono htw) (hc.mono ht he.valid htw)
    have hrun : split (chooseWithin depth) tr t = .ok e w := by
      rw [hsplit _ t fun _ => rfl, bind_of_ok hrunlow, bind_of_ok hrunhigh, hmake]
    exact ⟨⟨w.nodes, w.results.insert tr e⟩, bind_of_ok hrun, hw.trans (hu.trans hnodes)⟩

theorem chooseWithin_of_isChoice : ∀ s : Store, s.Sound → ∀ tr e, s.IsChoice tr e →
    tr.weight < depth → ∃ t, chooseWithin depth tr s = .ok e t ∧ t.nodes = s.nodes := by
  induction depth with
  | zero => exact fun _ _ _ _ _ h => absurd h (Nat.not_lt_zero _)
  | succ depth ih =>
    intro s hs tr e he hweight
    have hsame : ∀ {d}, s.Valid d → (∀ σ, s.value d σ = s.chosen tr σ) → d = e := fun hd hvalue =>
      hs.eq_of_value_eq hd he.valid fun σ => by rw [hvalue, he.value_eq]
    cases hsettled : tr.settled? with
    | some d =>
      have hd := Triple.isChoice_settled? hs he.triple hsettled
      obtain rfl := hsame hd.valid hd.value_eq
      exact ⟨s, by rw [chooseWithin, hsettled]; rfl, rfl⟩
    | none =>
      cases hsettled' : tr.absorb.settled? with
      | some d =>
        have hd := Triple.isChoice_settled? hs (Triple.validTriple_absorb hs he.triple) hsettled'
        obtain rfl := hsame hd.valid fun σ => by
          rw [hd.value_eq, Triple.chosen_absorb hs he.triple]
        refine ⟨s, ?_, rfl⟩
        rw [chooseWithin, hsettled]
        dsimp only
        rw [hsettled']
        rfl
      | none =>
        obtain ⟨reg, negated, hreg, hf, hle, hchosen, hrun⟩ :=
          hs.exists_regular he.triple hsettled hsettled'
        have hreg : s.IsChoice reg (if negated = true then -e else e) := by
          refine ⟨hreg, ?_, fun σ => ?_⟩
          · cases negated
            · exact he.valid
            · exact Store.valid_neg.2 he.valid
          · rw [hchosen, ← he.value_eq]
            cases negated
            · simp
            · simp [hs.value_neg he.valid]
        obtain ⟨t, ht, hnodes⟩ := recollect_of_isChoice ih hs hreg hf (by omega)
        refine ⟨t, ?_, hnodes⟩
        rw [hrun depth s fun _ => rfl, bind_of_ok ht]
        cases negated
        · rfl
        · exact congrArg (EStateM.Result.ok · t) (Edge.neg_neg e)

private theorem agree_recollect (hchoose : ∀ s t : Store, s.Twins t → ∀ tr, s.ValidTriple tr →
      tr.weight < depth → Agree (chooseWithin depth tr) s t)
    (h : s.Twins t) (htr : s.ValidTriple tr) (hf : tr.f.index ≠ 1) (hweight : tr.weight ≤ depth) :
    Agree (recollect depth tr) s t := by
  have hknown : ∀ e, s.IsChoice tr e → Agree (recollect depth tr) s t := by
    intro e he
    obtain ⟨s', hs, hs'⟩ := recollect_of_isChoice chooseWithin_of_isChoice h.left he hf hweight
    obtain ⟨t', ht, ht'⟩ :=
      recollect_of_isChoice chooseWithin_of_isChoice h.right (he.mono h.left h.le) hf hweight
    exact .ok hs ht rfl fun i => by rw [hs', ht', h.alike i]
  cases hs : s.results.peek tr with
  | some e => exact hknown e (h.left.results tr e hs)
  | none =>
    cases ht : t.results.peek tr with
    | some e => exact hknown e ((h.right.results tr e ht).mono h.right h.symm.le)
    | none =>
      obtain ⟨s', hfind, hnodes, hle⟩ := remembered_eq h.left tr
      obtain ⟨t', hfind', hnodes', hle'⟩ := remembered_eq h.right tr
      have h' : s'.Twins t' := ⟨h.left.mono hle, h.right.mono hle', fun i => by
        rw [hnodes, hnodes', h.alike i]⟩
      obtain ⟨m, low, high, hh, hsplit⟩ := h'.left.exists_halves (htr.mono hle) hf
      have hsplit : Agree (split (chooseWithin depth) tr) s' t' := by
        refine .of_run (hsplit _ s' fun _ => rfl) (hsplit _ t' h'.alike) ?_
        refine .bind h' (hchoose s' t' h' low hh.valid_low (hh.low_lt.trans_le hweight))
          (yields_chooseWithin depth s' h'.left low hh.valid_low)
          (yields_chooseWithin depth t' h'.right low (hh.valid_low.mono h'.le))
          fun a u w huw hsu _ => ?_
        have hhigh := hh.valid_high.mono hsu
        exact .bind huw (hchoose u w huw high hhigh (hh.high_lt.trans_le hweight))
          (yields_chooseWithin depth u huw.left high hhigh)
          (yields_chooseWithin depth w huw.right high (hhigh.mono huw.le))
          fun b u w huw _ _ => agree_makeNode huw m a b
      rw [hs] at hfind
      rw [ht] at hfind'
      refine .of_run (bind_of_ok hfind) (bind_of_ok hfind') ?_
      obtain ⟨e, u, w, hu, hw, halike⟩ | ⟨e, u, w, hu, hw, halike⟩ := hsplit.cases
      · exact .ok (bind_of_ok hu) (bind_of_ok hw) rfl halike
      · exact .error (bind_of_error hu) (bind_of_error hw) rfl halike

theorem agree_chooseWithin : ∀ s t : Store, s.Twins t → ∀ tr, s.ValidTriple tr →
    tr.weight < depth → Agree (chooseWithin depth tr) s t := by
  induction depth with
  | zero => exact fun _ _ _ _ _ h => absurd h (Nat.not_lt_zero _)
  | succ depth ih =>
    intro s t h tr htr hweight
    cases hsettled : tr.settled? with
    | some d =>
      rw [chooseWithin, hsettled]
      exact .pure h d
    | none =>
      cases hsettled' : tr.absorb.settled? with
      | some d =>
        rw [chooseWithin, hsettled]
        dsimp only
        rw [hsettled']
        exact .pure h d
      | none =>
        obtain ⟨reg, negated, hreg, hf, hle, -, hrun⟩ :=
          h.left.exists_regular htr hsettled hsettled'
        exact .of_run (hrun depth s fun _ => rfl) (hrun depth t h.alike)
          ((agree_recollect ih h hreg hf (by omega)).bind_pure _)

end

section

variable (H : s.Twins t) (hf : s.Valid f) (hg : s.Valid g)

include H hf hg

theorem agree_ite (hh : s.Valid h) : Agree (ite f g h) s t :=
  agree_chooseWithin s t H ⟨f, g, h⟩ ⟨hf, hg, hh⟩ (Nat.lt_succ_of_le (Triple.weight_le _))

theorem agree_conj : Agree (conj f g) s t := agree_ite H hf hg H.left.valid_zero

theorem agree_disj : Agree (disj f g) s t := agree_ite H hf H.left.valid_one hg

theorem agree_xor : Agree (xor f g) s t := agree_ite H hf (Store.valid_neg.2 hg) hg

theorem agree_iff : Agree (iff f g) s t := agree_ite H hf hg (Store.valid_neg.2 hg)

theorem agree_implies : Agree (implies f g) s t := agree_ite H hf hg H.left.valid_one

end

end RegularArithmetic.Diagram

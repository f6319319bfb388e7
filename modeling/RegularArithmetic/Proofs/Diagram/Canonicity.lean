import RegularArithmetic.Proofs.Diagram.Value

/-!
Edges with the same function are the same edge, so that comparing two edges decides whether
their functions agree. A store that has grown gives its old edges their old functions.
-/

set_option autoImplicit false

namespace RegularArithmetic.Diagram.Store

variable {s t : Store} {e f : Edge} {n : Node} {σ : Assignment}

theorem Sound.value_true (h : s.Sound) (he : s.Valid e) :
    s.value e (fun _ => true) = !e.isNegated := by
  refine Valid.induction (motive := fun e => s.value e (fun _ => true) = !e.isNegated) ?_ ?_ e he
  · intro e he
    rcases Edge.index_eq_one.1 he with rfl | rfl <;> simp
  · intro e n hn he ih
    have hp := h.placed _ n he hn
    have hhigh : s.Valid n.high := h.valid_select hn he true
    rw [h.value_node hn he, Node.select, if_pos rfl, h.value_along hhigh, ih _ hhigh hp.high_lt,
      hp.high_positive]
    simp

private theorem exists_value_ne (h : s.Sound) (hn : s.nodes.get? e.index = some n)
    (he : e.index ≠ 1)
    (ih : ∀ c d, s.Valid c → s.Valid d → c.index < e.index → d.index < e.index →
      (∀ σ, s.value c σ = s.value d σ) → c = d) :
    ∃ σ, s.value e (Function.update σ n.var true) ≠ s.value e (Function.update σ n.var false) := by
  have hp := h.placed _ n he hn
  by_contra hall
  push Not at hall
  refine hp.low_ne_high ?_
  change n.select false = n.select true
  refine Edge.along_inj.1 (ih (e.along _) (e.along _) ?_ ?_ ?_ ?_ fun σ => ?_)
  · simpa using h.valid_select hn he false
  · simpa using h.valid_select hn he true
  · simpa using hp.select_lt false
  · simpa using hp.select_lt true
  · have hσ := hall σ
    rw [h.value_update hn he, h.value_update hn he] at hσ
    exact hσ.symm

theorem Sound.value_update_of_above (h : s.Sound) {v : Nat} (he : s.Valid e) (hv : s.Above v e)
    (b : Bool) : s.value e (Function.update σ v b) = s.value e σ :=
  h.value_congr (fun _ hw => Function.update_of_ne hw.ne' b σ) he hv

private theorem var_le_var (h : s.Sound) {m : Node} (hn : s.nodes.get? e.index = some n)
    (hm : s.nodes.get? f.index = some m) (he : e.index ≠ 1) (_ : f.index ≠ 1)
    (heq : ∀ σ, s.value e σ = s.value f σ)
    (ih : ∀ c d, s.Valid c → s.Valid d → c.index < e.index → d.index < e.index →
      (∀ σ, s.value c σ = s.value d σ) → c = d) : m.var ≤ n.var := by
  by_contra hlt
  obtain ⟨σ, hσ⟩ := exists_value_ne h hn he ih
  have habove : s.Above n.var f := by
    intro m' hm' _
    rw [hm] at hm'
    cases hm'
    omega
  rw [heq, heq, h.value_update_of_above ⟨m, hm⟩ habove, h.value_update_of_above ⟨m, hm⟩ habove]
    at hσ
  exact hσ rfl

private theorem eq_of_value_eq_of_index_le (h : s.Sound) :
    ∀ (k : Nat) (e f : Edge), s.Valid e → s.Valid f → e.index ≤ k → f.index ≤ k →
      (∀ σ, s.value e σ = s.value f σ) → e = f := by
  intro k
  induction k with
  | zero =>
    intro e f he _ hek
    exact absurd (Nat.le_zero.1 hek) he.index_ne_zero
  | succ k ih =>
    intro e f he hf hek hfk heq
    have hsign : e.isNegated = f.isNegated := by
      have htrue := heq fun _ => true
      rwa [h.value_true he, h.value_true hf, Bool.not_inj_iff] at htrue
    refine Edge.eq_of_index ?_ hsign
    obtain ⟨n, hn⟩ := he
    obtain ⟨m, hm⟩ := hf
    have ihe : ∀ c d, s.Valid c → s.Valid d → c.index < e.index → d.index < e.index →
        (∀ σ, s.value c σ = s.value d σ) → c = d :=
      fun c d hc hd hce hde => ih c d hc hd (by omega) (by omega)
    have ihf : ∀ c d, s.Valid c → s.Valid d → c.index < f.index → d.index < f.index →
        (∀ σ, s.value c σ = s.value d σ) → c = d :=
      fun c d hc hd hce hde => ih c d hc hd (by omega) (by omega)
    by_cases he1 : e.index = 1 <;> by_cases hf1 : f.index = 1
    · rw [he1, hf1]
    · obtain ⟨σ, hσ⟩ := exists_value_ne h hm hf1 ihf
      rw [← heq, ← heq, value_terminal he1, value_terminal he1] at hσ
      exact absurd rfl hσ
    · obtain ⟨σ, hσ⟩ := exists_value_ne h hn he1 ihe
      rw [heq, heq, value_terminal hf1, value_terminal hf1] at hσ
      exact absurd rfl hσ
    · have hvar : n.var = m.var := le_antisymm
        (var_le_var h hm hn hf1 he1 (fun σ => (heq σ).symm) ihf)
        (var_le_var h hn hm he1 hf1 heq ihe)
      -- Fixing the tested variable turns the common function into those of the two edges.
      have hselect : ∀ b, n.select b = m.select b := by
        intro b
        have hpn := (h.placed _ n he1 hn).select_lt b
        have hpm := (h.placed _ m hf1 hm).select_lt b
        have halong : e.along (n.select b) = f.along (m.select b) := by
          refine ih _ _ ?_ ?_ ?_ ?_ fun σ => ?_
          · simpa using h.valid_select hn he1 b
          · simpa using h.valid_select hm hf1 b
          · rw [Edge.index_along]
            omega
          · rw [Edge.index_along]
            omega
          · rw [← h.value_update hn he1, ← h.value_update hm hf1, heq, hvar]
        rw [Edge.along_congr hsign] at halong
        exact Edge.along_inj.1 halong
      have hnm : n = m := by
        obtain ⟨v, low, high⟩ := n
        obtain ⟨w, low', high'⟩ := m
        have hlow : low = low' := hselect false
        have hhigh : high = high' := hselect true
        have hvar : v = w := hvar
        rw [hvar, hlow, hhigh]
      exact h.distinct _ _ n he1 hf1 hn (hnm ▸ hm)

theorem Sound.eq_of_value_eq (h : s.Sound) (he : s.Valid e) (hf : s.Valid f)
    (heq : ∀ σ, s.value e σ = s.value f σ) : e = f :=
  eq_of_value_eq_of_index_le h (max e.index f.index) e f he hf (le_max_left _ _)
    (le_max_right _ _) heq

theorem Sound.eq_zero_iff (h : s.Sound) (he : s.Valid e) :
    e = .zero ↔ ∀ σ, s.value e σ = false :=
  ⟨fun hz σ => by rw [hz, value_zero],
    fun hz => h.eq_of_value_eq he h.valid_zero fun σ => by rw [hz, value_zero]⟩

theorem Sound.exists_value (h : s.Sound) (he : s.Valid e) (hz : e ≠ .zero) :
    ∃ σ, s.value e σ = true := by
  by_contra hall
  push Not at hall
  exact hz ((h.eq_zero_iff he).2 fun σ => Bool.eq_false_of_not_eq_true (hall σ))

theorem Sound.exists_value_update_ne (h : s.Sound) (hn : s.nodes.get? e.index = some n)
    (he : e.index ≠ 1) :
    ∃ σ, s.value e (Function.update σ n.var true) ≠ s.value e (Function.update σ n.var false) :=
  exists_value_ne h hn he fun _ _ hc hd _ _ => h.eq_of_value_eq hc hd

theorem Sound.above_of_value_congr (h : s.Sound) {v : Nat}
    (hv : ∀ σ τ : Assignment, (∀ w, v < w → σ w = τ w) → s.value e σ = s.value e τ) :
    s.Above v e := by
  intro n hn he1
  by_contra hle
  obtain ⟨σ, hσ⟩ := h.exists_value_update_ne hn he1
  refine hσ (hv _ _ fun w hw => ?_)
  rw [Function.update_of_ne (by omega), Function.update_of_ne (by omega)]

instance : Preorder Store where
  le s t := (s.Sound → t.Sound) ∧ ∀ i n, s.nodes.get? i = some n → t.nodes.get? i = some n
  le_refl _ := ⟨id, fun _ _ => id⟩
  le_trans _ _ _ h h' := ⟨h'.1 ∘ h.1, fun i n hn => h'.2 i n (h.2 i n hn)⟩

theorem Sound.mono (h : s.Sound) (hst : s ≤ t) : t.Sound := hst.1 h

theorem Valid.mono (he : s.Valid e) (hst : s ≤ t) : t.Valid e :=
  he.imp fun n hn => hst.2 _ n hn

theorem Sound.value_mono (h : s.Sound) (hst : s ≤ t) (he : s.Valid e) :
    t.value e = s.value e := by
  funext σ
  refine Valid.induction (motive := fun e => t.value e σ = s.value e σ) ?_ ?_ e he
  · intro e he
    rw [value_terminal he, value_terminal he]
  · intro e n hn he ih
    have hp := h.placed _ n he hn
    rw [h.value_node hn he, (h.mono hst).value_node (hst.2 _ n hn) he]
    exact ih _ (by simpa using h.valid_select hn he _) (by simpa using hp.select_lt _)

theorem Above.mono_store {v : Nat} (hv : s.Above v e) (he : s.Valid e) (hst : s ≤ t) :
    t.Above v e := by
  intro n hn he1
  obtain ⟨m, hm⟩ := he
  have := hst.2 _ m hm
  rw [hn] at this
  cases this
  exact hv n hm he1

theorem ValidTriple.mono {tr : Triple} (h : s.ValidTriple tr) (hst : s ≤ t) : t.ValidTriple tr :=
  ⟨h.f.mono hst, h.g.mono hst, h.h.mono hst⟩

theorem Sound.chosen_mono (h : s.Sound) (hst : s ≤ t) {tr : Triple} (htr : s.ValidTriple tr) :
    t.chosen tr = s.chosen tr := by
  funext σ
  simp only [chosen, h.value_mono hst htr.f, h.value_mono hst htr.g, h.value_mono hst htr.h]

theorem IsChoice.mono {tr : Triple} (hc : s.IsChoice tr e) (h : s.Sound) (hst : s ≤ t) :
    t.IsChoice tr e where
  triple := hc.triple.mono hst
  valid := hc.valid.mono hst
  value_eq σ := by rw [h.value_mono hst hc.valid, h.chosen_mono hst hc.triple, hc.value_eq]

structure Denotes (s : Store) (e : Edge) (f : Assignment → Bool) : Prop where
  valid : s.Valid e
  value_eq : s.value e = f

theorem Valid.denotes (he : s.Valid e) : s.Denotes e (s.value e) := ⟨he, rfl⟩

theorem Denotes.congr {φ ψ : Assignment → Bool} (he : s.Denotes e φ) (h : ∀ σ, φ σ = ψ σ) :
    s.Denotes e ψ :=
  ⟨he.valid, he.value_eq.trans (funext h)⟩

theorem Denotes.mono {φ : Assignment → Bool} (he : s.Denotes e φ) (h : s.Sound) (hst : s ≤ t) :
    t.Denotes e φ :=
  ⟨he.valid.mono hst, by rw [h.value_mono hst he.valid, he.value_eq]⟩

theorem Denotes.neg {φ : Assignment → Bool} (he : s.Denotes e φ) (h : s.Sound) :
    s.Denotes (-e) fun σ => !φ σ :=
  ⟨valid_neg.2 he.valid, by funext σ; rw [h.value_neg he.valid, he.value_eq]⟩

theorem Sound.denotes_one (h : s.Sound) : s.Denotes .one fun _ => true :=
  ⟨h.valid_one, by funext σ; exact value_one⟩

theorem Sound.denotes_zero (h : s.Sound) : s.Denotes .zero fun _ => false :=
  ⟨h.valid_zero, by funext σ; exact value_zero⟩

theorem Denotes.eq_zero_iff {φ : Assignment → Bool} (he : s.Denotes e φ) (h : s.Sound) :
    e = .zero ↔ ∀ σ, φ σ = false := by
  rw [h.eq_zero_iff he.valid, he.value_eq]

end RegularArithmetic.Diagram.Store

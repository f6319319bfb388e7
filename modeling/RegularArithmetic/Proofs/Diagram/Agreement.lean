import RegularArithmetic.Proofs.Diagram.Cube
import RegularArithmetic.Proofs.Diagram.Substitution

/-!
What is answered, and which nodes are stored for it, depends on the stored nodes alone. Two stores
with the same nodes may keep them in different buckets and remember different results: what is
remembered in one of them and computed again in the other needs no node that is not there.
-/

set_option autoImplicit false

namespace RegularArithmetic.Diagram

open RegularArithmetic.Store (Interner)

variable {s t : Store} {e f g h : Edge} {φ ψ : Assignment → Bool}

namespace Store

def Alike (s t : Store) : Prop := ∀ i, s.nodes.get? i = t.nodes.get? i

theorem Alike.node (hst : s.Alike t) (e : Edge) : s.node e = t.node e := by
  unfold Store.node
  rw [hst]

theorem Alike.branch (hst : s.Alike t) (e : Edge) : s.branch e = t.branch e := by
  unfold Store.branch
  rw [hst.node]

theorem Alike.cofactors (hst : s.Alike t) (e : Edge) (v : Nat) :
    s.cofactors e v = t.cofactors e v := by
  unfold Store.cofactors
  rw [hst.node]

theorem Alike.top (hst : s.Alike t) (tr : Triple) : tr.top s = tr.top t := by
  unfold Triple.top
  rw [hst.node, hst.node, hst.node]

theorem Alike.orient (hst : s.Alike t) (tr : Triple) : tr.orient s = tr.orient t := by
  obtain ⟨f, g, h⟩ := tr
  simp only [Triple.orient, hst.node]

theorem Alike.size_eq (hst : s.Alike t) : s.size = t.size := by
  have hle : ∀ {s t : Store}, s.Alike t → s.size ≤ t.size := by
    intro s t hst
    by_contra hlt
    obtain ⟨n, hn⟩ := Interner.exists_get? (t := s.nodes) (i := s.size) (by omega) le_rfl
    have hle := (Interner.le_size_of_get? ((hst s.size).symm.trans hn)).2
    exact hlt hle
  exact le_antisymm (hle hst) (hle fun i => (hst i).symm)

/-- Two sound stores with the same nodes. -/
structure Twins (s t : Store) : Prop where
  left : s.Sound
  right : t.Sound
  alike : s.Alike t

theorem Twins.le (h : s.Twins t) : s ≤ t :=
  ⟨fun _ => h.right, fun i _ hn => (h.alike i).symm.trans hn⟩

theorem Twins.symm (h : s.Twins t) : t.Twins s := ⟨h.right, h.left, fun i => (h.alike i).symm⟩

end Store

section

variable {α : Type}

theorem ask_of_ok {q : Store → Except Fault α} {a : α} (hq : q s = .ok a) :
    ask q s = .ok a s := by
  simp only [ask, hq]

theorem ask_of_error {q : Store → Except Fault α} {a : Fault} (hq : q s = .error a) :
    ask q s = .error a s := by
  simp only [ask, hq]

end

/-- Started in either store, the computation ends in the same way, and leaves stores with the same
nodes. -/
def Agree {α : Type} (x : M α) (s t : Store) : Prop :=
  match x s, x t with
  | .ok a s', .ok b t' => a = b ∧ s'.Alike t'
  | .error a s', .error b t' => a = b ∧ s'.Alike t'
  | _, _ => False

section

variable {α β : Type} {x : M α} {y : α → M β}

theorem Agree.ok {a b : α} {s' t' : Store} (hs : x s = .ok a s') (ht : x t = .ok b t')
    (hab : a = b) (halike : s'.Alike t') : Agree x s t := by
  simp only [Agree, hs, ht]
  exact ⟨hab, halike⟩

theorem Agree.error {a b : Fault} {s' t' : Store} (hs : x s = .error a s')
    (ht : x t = .error b t') (hab : a = b) (halike : s'.Alike t') : Agree x s t := by
  simp only [Agree, hs, ht]
  exact ⟨hab, halike⟩

/-- There are two ways to agree. -/
theorem Agree.cases (h : Agree x s t) :
    (∃ a s' t', x s = .ok a s' ∧ x t = .ok a t' ∧ s'.Alike t') ∨
      ∃ a s' t', x s = .error a s' ∧ x t = .error a t' ∧ s'.Alike t' := by
  unfold Agree at h
  split at h
  · obtain ⟨rfl, halike⟩ := h
    exact .inl ⟨_, _, _, ‹_›, ‹_›, halike⟩
  · obtain ⟨rfl, halike⟩ := h
    exact .inr ⟨_, _, _, ‹_›, ‹_›, halike⟩
  · exact h.elim

theorem Agree.of_run {x' : M α} {s' t' : Store} (hs : x s = x' s') (ht : x t = x' t')
    (h : Agree x' s' t') : Agree x s t := by
  rwa [Agree, hs, ht]

theorem Agree.pure (h : s.Twins t) (a : α) : Agree (Pure.pure a : M α) s t :=
  .ok rfl rfl rfl h.alike

theorem Agree.throw (h : s.Twins t) (a : Fault) : Agree (MonadExcept.throw a : M α) s t :=
  .error rfl rfl rfl h.alike

theorem Agree.ite {c : Prop} [Decidable c] {x' : M α} (hx : c → Agree x s t)
    (hx' : ¬c → Agree x' s t) : Agree (if c then x else x') s t := by
  split
  · exact hx ‹_›
  · exact hx' ‹_›

/-- The computations go on from stores with the same nodes, which are sound if the first part
yields anything at all. -/
theorem Agree.bind {P Q : α → Store → Prop} (h : s.Twins t) (hx : Agree x s t)
    (hs : Yields x s P) (ht : Yields x t Q)
    (hy : ∀ a s' t', s'.Twins t' → s ≤ s' → P a s' → Agree (y a) s' t') :
    Agree (x >>= y) s t := by
  obtain ⟨a, s', t', hxs, hxt, halike⟩ | ⟨a, s', t', hxs, hxt, halike⟩ := hx.cases
  · obtain ⟨hle, ha⟩ := hs.of_ok hxs
    have hy := hy a s' t' ⟨h.left.mono hle, h.right.mono (ht.of_ok hxt).1, halike⟩ hle ha
    exact .of_run (bind_of_ok hxs) (bind_of_ok hxt) hy
  · exact .error (bind_of_error hxs) (bind_of_error hxt) rfl halike

theorem Agree.bind_pure (hx : Agree x s t) (f : α → β) :
    Agree (x >>= fun a => Pure.pure (f a)) s t := by
  obtain ⟨a, s', t', hs, ht, halike⟩ | ⟨a, s', t', hs, ht, halike⟩ := hx.cases
  · exact .ok (bind_of_ok hs) (bind_of_ok ht) rfl halike
  · exact .error (bind_of_error hs) (bind_of_error ht) rfl halike

theorem Agree.ask_bind {q : Store → Except Fault α} (h : s.Twins t) (hq : q s = q t)
    (hy : ∀ a, q s = .ok a → Agree (y a) s t) : Agree (Diagram.ask q >>= y) s t := by
  cases hqs : q s with
  | ok a =>
    exact .of_run (bind_of_ok (ask_of_ok hqs)) (bind_of_ok (ask_of_ok (hq ▸ hqs))) (hy a hqs)
  | error a =>
    exact .error (bind_of_error (ask_of_error hqs)) (bind_of_error (ask_of_error (hq ▸ hqs))) rfl
      h.alike

end

theorem internNode_cases (hs : s.Sound) (v : Nat) (low high : Edge) :
    ∃ e t, internNode v low high s = .ok e t ∧ (t = s ∨ e.index = s.size + 1) := by
  by_cases heq : low = high
  · exact ⟨low, s, by simp [internNode, heq], .inl rfl⟩
  rcases Interner.put_cases (t := s.nodes) ⟨v, low, high⟩ hs.shaped with
    ⟨i, hput, -⟩ | ⟨nodes, hput, -⟩
  · exact ⟨.toNode i, s, by simp [internNode, heq, hput], .inl rfl⟩
  · exact ⟨.toNode (s.size + 1), ⟨nodes, s.results⟩, by simp [internNode, heq, hput, Store.size],
      .inr rfl⟩

theorem makeNode_cases (hs : s.Sound) {v : Nat} (hv : v ≠ 0) (low high : Edge) :
    ∃ e t, makeNode v low high s = .ok e t ∧ (t = s ∨ e.index = s.size + 1) := by
  unfold makeNode
  rw [if_neg hv]
  by_cases hneg : high.isNegated = true
  · obtain ⟨e, t, hrun, ht⟩ := internNode_cases hs v (-low) (-high)
    refine ⟨-e, t, ?_, by rwa [Edge.index_neg]⟩
    rw [if_pos hneg]
    exact bind_of_ok hrun
  · rw [if_neg hneg]
    exact internNode_cases hs v low high

theorem makeNode_of_areHalves (hs : s.Sound) (he : s.Valid e) {v : Nat} {c : Edge × Edge}
    (hc : s.AreHalves e v c) : makeNode v c.1 c.2 s = .ok e s := by
  obtain ⟨d, t, hrun, ht⟩ := makeNode_cases hs hc.ne_zero c.1 c.2
  obtain ⟨hst, hd⟩ :=
    (yields_makeNode hs hc.low.denotes hc.high.denotes hc.above_low hc.above_high).of_ok hrun
  obtain rfl : d = e := by
    refine (hs.mono hst).eq_of_value_eq hd.valid (he.mono hst) fun σ => ?_
    rw [hd.value_eq, hs.value_mono hst he, hc.value_eq]
  obtain rfl | hindex := ht
  · exact hrun
  · obtain ⟨n, hn⟩ := he
    have hle := (Interner.le_size_of_get? hn).2
    simp only [Store.size] at hindex
    omega

theorem agree_internNode (h : s.Twins t) {v : Nat} (hv : v ≠ 0) (low high : Edge) :
    Agree (internNode v low high) s t := by
  by_cases heq : low = high
  · exact .ok (a := low) (b := low) (by simp [internNode, heq]) (by simp [internNode, heq]) rfl
      h.alike
  have hne : ∀ {u : Store}, u.Sound → ∀ i, u.nodes.get? i = some ⟨v, low, high⟩ → i ≠ 1 := by
    rintro u hu i hi rfl
    rw [hu.terminal] at hi
    cases hi
    exact hv rfl
  rcases Interner.put_cases (t := s.nodes) ⟨v, low, high⟩ h.left.shaped with
    ⟨i, hput, hi⟩ | ⟨nodes, hput, happended⟩ <;>
  rcases Interner.put_cases (t := t.nodes) ⟨v, low, high⟩ h.right.shaped with
    ⟨j, hput', hj⟩ | ⟨nodes', hput', happended'⟩
  · refine .ok (a := .toNode i) (b := .toNode j) (by simp [internNode, heq, hput])
      (by simp [internNode, heq, hput']) ?_ h.alike
    rw [← h.alike] at hj
    rw [h.left.distinct i j _ (hne h.left i hi) (hne h.left j hj) hi hj]
  · rw [h.alike] at hi
    exact absurd hi (happended'.new i (h.right.linked i _ (hne h.right i hi) hi))
  · rw [← h.alike] at hj
    exact absurd hj (happended.new j (h.left.linked j _ (hne h.left j hj) hj))
  · have hsize : s.nodes.size = t.nodes.size := h.alike.size_eq
    have hrun : internNode v low high s = .ok (.toNode (s.nodes.size + 1)) ⟨nodes, s.results⟩ := by
      simp [internNode, heq, hput]
    have hrun' : internNode v low high t =
        .ok (.toNode (t.nodes.size + 1)) ⟨nodes', t.results⟩ := by
      simp [internNode, heq, hput']
    refine .ok hrun hrun' (by rw [hsize]) fun i => ?_
    simp only [happended.get?_eq, happended'.get?_eq, hsize, h.alike i]

theorem agree_makeNode (h : s.Twins t) (v : Nat) (low high : Edge) :
    Agree (makeNode v low high) s t := by
  unfold makeNode
  refine .ite (fun _ => .throw h _) fun hv => ?_
  refine .ite (fun _ => ?_) fun _ => agree_internNode h hv low high
  exact (agree_internNode h hv (-low) (-high)).bind_pure _

end RegularArithmetic.Diagram

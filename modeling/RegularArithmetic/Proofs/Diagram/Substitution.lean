import RegularArithmetic.Diagram.Substitution
import RegularArithmetic.Proofs.Diagram.Choice

/-!
Fixing, quantifying and renaming variables act on the functions of the edges. What is passed
along for the nodes dealt with so far is right about each of them.
-/

set_option autoImplicit false

namespace RegularArithmetic.Diagram

variable {s t : Store} {e : Edge} {φ : Assignment → Bool}

theorem Yields.ask_bind {α β : Type} {q : Store → Except Fault α} {a : α} {f : α → M β}
    {P : β → Store → Prop} (hq : q s = .ok a) (hf : Yields (f a) s P) :
    Yields (Diagram.ask q >>= f) s P := by
  have hrun : (Diagram.ask q >>= f) s = f a s := by
    simp only [bind, EStateM.bind, Diagram.ask, hq]
  rwa [Yields, hrun]

/-- Every edge that is replaced is replaced by one with the changed function. -/
def Replaced.Right (change : (Assignment → Bool) → Assignment → Bool) (done : Replaced)
    (s : Store) : Prop :=
  ∀ c r, done[c]? = some r → s.Valid ⟨c⟩ ∧ s.Denotes r (change (s.value ⟨c⟩))

namespace Replaced.Right

variable {change : (Assignment → Bool) → Assignment → Bool} {done : Replaced}

theorem empty : Right change ∅ s := by
  intro c r h
  simp at h

theorem mono (h : Right change done s) (hs : s.Sound) (hst : s ≤ t) : Right change done t := by
  intro c r hr
  obtain ⟨hv, hd⟩ := h c r hr
  exact ⟨hv.mono hst, by rw [hs.value_mono hst hv]; exact hd.mono hs hst⟩

theorem insert (h : Right change done s) {r : Edge} (he : s.Valid e)
    (hr : s.Denotes r (change (s.value e))) : Right change (done.insert e.code r) s := by
  intro c d hd
  rw [Std.TreeMap.getElem?_insert] at hd
  split at hd
  · rename_i heq
    obtain rfl : e.code = c := by simpa using heq
    cases hd
    exact ⟨he, hr⟩
  · exact h c d hd

end Replaced.Right

def fixed (v : Nat) (b : Bool) (φ : Assignment → Bool) : Assignment → Bool :=
  fun σ => φ (Function.update σ v b)

private theorem above_of_denotes_fixed (hs : s.Sound) {v w : Nat} {b : Bool} {d r : Edge}
    (hd : s.Valid d) (hw : s.Above w d) (hr : s.Denotes r (fixed v b (s.value d))) :
    s.Above w r := by
  refine hs.above_of_value_congr fun σ τ hστ => ?_
  rw [hr.value_eq]
  refine hs.value_congr (fun u hu => ?_) hd hw
  by_cases huv : u = v
  · rw [huv, Function.update_self, Function.update_self]
  · rw [Function.update_of_ne huv, Function.update_of_ne huv, hστ u hu]

theorem yields_fixIn (hs : s.Sound) (v : Nat) (b : Bool) {done : Replaced} (he : s.Valid e)
    (hdone : done.Right (fixed v b) s) :
    Yields (fixIn v b e done) s fun r t =>
      t.Denotes r.1 (fixed v b (s.value e)) ∧ r.2.Right (fixed v b) t := by
  induction hk : e.index using Nat.strong_induction_on generalizing s e done with
  | _ k ih =>
    subst hk
    rw [fixIn]
    by_cases hv : v = 0
    · rw [if_pos hv]
      exact .throw
    rw [if_neg hv]
    by_cases ht : e.isTerminal = true
    · rw [if_pos ht]
      have hi := Edge.isTerminal_iff.1 ht
      refine .pure ⟨⟨he, funext fun σ => ?_⟩, hdone⟩
      rw [fixed, Store.value_terminal hi, Store.value_terminal hi]
    rw [if_neg ht]
    have hi : e.index ≠ 1 := fun hi => ht (Edge.isTerminal_iff.2 hi)
    obtain ⟨n, hn⟩ := he
    have hp := hs.placed _ n hi hn
    obtain ⟨hlow, hhigh, hbranch⟩ := hs.branch_eq hn hi
    refine Yields.ask_bind hbranch ?_
    have hvlow : s.Valid (e.along n.low) := Store.valid_along.2 (hs.valid_select hn hi false)
    have hvhigh : s.Valid (e.along n.high) := Store.valid_along.2 (hs.valid_select hn hi true)
    by_cases hlt : v < n.var
    · rw [if_pos hlt]
      have habove : s.Above v e := by
        intro m hm _
        rw [hn] at hm
        cases hm
        exact hlt
      exact .pure ⟨⟨⟨n, hn⟩, funext fun σ => (hs.value_update_of_above ⟨n, hn⟩ habove b).symm⟩,
        hdone⟩
    rw [if_neg hlt]
    by_cases heq : v = n.var
    · rw [if_pos heq]
      subst heq
      refine .pure ⟨⟨?_, funext fun σ => ?_⟩, hdone⟩
      · cases b
        · exact hvlow
        · exact hvhigh
      · rw [fixed, hs.value_update hn hi]
        cases b <;> rfl
    rw [if_neg heq]
    cases hfound : done[e.code]? with
    | some r => exact .pure ⟨(hdone _ r hfound).2, hdone⟩
    | none =>
      refine (ih _ hlow hs hvlow hdone rfl).bind ?_
      rintro ⟨low, done⟩ t hst ⟨hl, hdone⟩
      have ht := hs.mono hst
      refine (ih _ hhigh ht (hvhigh.mono hst) hdone rfl).bind ?_
      rintro ⟨high, done⟩ u htu ⟨hh, hdone⟩
      have hu := ht.mono htu
      have hsu := le_trans hst htu
      have hl := hl.mono ht htu
      rw [hs.value_mono hst hvhigh, ← hs.value_mono hsu hvhigh] at hh
      rw [← hs.value_mono hsu hvlow] at hl
      refine (yields_makeNode hu hl hh
        (above_of_denotes_fixed hu (hvlow.mono hsu)
          ((Store.above_along.2 hp.above_low).mono_store hvlow hsu) hl)
        (above_of_denotes_fixed hu (hvhigh.mono hsu)
          ((Store.above_along.2 hp.above_high).mono_store hvhigh hsu) hh)).bind
        fun r w huw hr => ?_
      have hsw := le_trans hsu huw
      have hw := hu.mono huw
      have hr : w.Denotes r (fixed v b (s.value e)) := by
        refine hr.congr fun σ => ?_
        simp only [fixed, hs.value_mono hsu hvlow, hs.value_mono hsu hvhigh]
        rw [hs.value_node hn hi, Function.update_of_ne (Ne.symm heq), Node.select]
        split <;> rfl
      refine .pure ⟨hr, (hdone.mono hu huw).insert (Store.Valid.mono ⟨n, hn⟩ hsw) ?_⟩
      rwa [hs.value_mono hsw ⟨n, hn⟩]

theorem yields_fix (hs : s.Sound) (v : Nat) (b : Bool) (he : s.Denotes e φ) :
    Yields (fix e v b) s fun r t => t.Denotes r (fixed v b φ) := by
  refine (yields_fixIn hs v b he.valid Replaced.Right.empty).bind fun r t _ hr => ?_
  rw [he.value_eq] at hr
  exact .pure hr.1

/-- "For some values of the variables" in terms of the function. -/
def someOf (φ : Assignment → Bool) : List Nat → Assignment → Bool
  | [] => φ
  | v :: vs => someOf (fun σ => fixed v false φ σ || fixed v true φ σ) vs

theorem someOf_const (b : Bool) (vs : List Nat) : someOf (fun _ => b) vs = fun _ => b := by
  induction vs with
  | nil => rfl
  | cons v vs ih => simpa [someOf, fixed] using ih

/-- Some assignment that differs on the given variables only makes the function true. -/
theorem someOf_iff (vs : List Nat) (φ : Assignment → Bool) (σ : Assignment) :
    someOf φ vs σ = true ↔ ∃ τ, (∀ v, v ∉ vs → τ v = σ v) ∧ φ τ = true := by
  induction vs generalizing φ with
  | nil =>
    refine ⟨fun h => ⟨σ, fun _ _ => rfl, h⟩, ?_⟩
    rintro ⟨τ, hτ, h⟩
    obtain rfl : τ = σ := funext fun v => hτ v (by simp)
    exact h
  | cons v vs ih =>
    rw [someOf, ih]
    constructor
    · rintro ⟨τ, hτ, h⟩
      obtain ⟨b, hb⟩ : ∃ b, φ (Function.update τ v b) = true := by
        rcases Bool.or_eq_true_iff.1 h with h | h
        · exact ⟨false, h⟩
        · exact ⟨true, h⟩
      refine ⟨_, fun w hw => ?_, hb⟩
      rw [List.mem_cons, not_or] at hw
      rw [Function.update_of_ne hw.1, hτ w hw.2]
    · rintro ⟨τ, hτ, h⟩
      by_cases hv : v ∈ vs
      · refine ⟨τ, fun w hw => hτ w ?_, ?_⟩
        · rw [List.mem_cons, not_or]
          exact ⟨fun hwv => hw (hwv ▸ hv), hw⟩
        · have hφ : φ (Function.update τ v (τ v)) = true := by rw [Function.update_eq_self, h]
          simp only [fixed, Bool.or_eq_true]
          cases hb : τ v <;> rw [hb] at hφ
          · exact .inl hφ
          · exact .inr hφ
      · refine ⟨Function.update τ v (σ v), fun w hw => ?_, ?_⟩
        · by_cases hwv : w = v
          · rw [hwv, Function.update_self]
          · rw [Function.update_of_ne hwv, hτ w (by simp [hwv, hw])]
        · have hφ : φ (Function.update τ v (τ v)) = true := by rw [Function.update_eq_self, h]
          simp only [fixed, Bool.or_eq_true, Function.update_idem]
          cases hb : τ v <;> rw [hb] at hφ
          · exact .inl hφ
          · exact .inr hφ

theorem yields_forSome (hs : s.Sound) (he : s.Denotes e φ) (vs : List Nat) :
    Yields (forSome e vs) s fun r t => t.Denotes r (someOf φ vs) := by
  induction vs generalizing s e φ with
  | nil => exact .pure he
  | cons v vs ih =>
    rw [forSome]
    by_cases ht : e.isTerminal = true
    · rw [if_pos ht]
      have hconst : φ = fun _ => decide (e = .one) := by
        rw [← he.value_eq]
        exact funext fun σ => Store.value_terminal (Edge.isTerminal_iff.1 ht)
      rw [hconst, someOf_const]
      exact .pure (hconst ▸ he)
    rw [if_neg ht]
    refine (yields_fix hs v false he).bind fun low t hst hlow => ?_
    have ht := hs.mono hst
    refine (yields_fix ht v true (he.mono hs hst)).bind fun high u htu hhigh => ?_
    have hu := ht.mono htu
    refine (yields_disj hu (hlow.mono ht htu) hhigh).bind fun r w huw hr => ?_
    exact ih (hu.mono huw) hr

/-- The function read over renamed variables. -/
def renamed (ρ : Nat → Nat) (φ : Assignment → Bool) : Assignment → Bool := fun σ => φ (σ ∘ ρ)

theorem yields_renameIn (hs : s.Sound) (ρ : Nat → Nat) {done : Replaced} (he : s.Valid e)
    (hdone : done.Right (renamed ρ) s) :
    Yields (renameIn ρ e done) s fun r t =>
      t.Denotes r.1 (renamed ρ (s.value e)) ∧ r.2.Right (renamed ρ) t := by
  induction hk : e.index using Nat.strong_induction_on generalizing s e done with
  | _ k ih =>
    subst hk
    rw [renameIn]
    by_cases ht : e.isTerminal = true
    · rw [if_pos ht]
      have hi := Edge.isTerminal_iff.1 ht
      refine .pure ⟨⟨he, funext fun σ => ?_⟩, hdone⟩
      rw [renamed, Store.value_terminal hi, Store.value_terminal hi]
    rw [if_neg ht]
    cases hfound : done[e.code]? with
    | some r => exact .pure ⟨(hdone _ r hfound).2, hdone⟩
    | none =>
      have hi : e.index ≠ 1 := fun hi => ht (Edge.isTerminal_iff.2 hi)
      obtain ⟨n, hn⟩ := he
      obtain ⟨hlow, hhigh, hbranch⟩ := hs.branch_eq hn hi
      have hvlow : s.Valid (e.along n.low) := Store.valid_along.2 (hs.valid_select hn hi false)
      have hvhigh : s.Valid (e.along n.high) := Store.valid_along.2 (hs.valid_select hn hi true)
      refine Yields.ask_bind hbranch ?_
      refine (ih _ hlow hs hvlow hdone rfl).bind ?_
      rintro ⟨low, done⟩ t hst ⟨hl, hdone⟩
      have ht := hs.mono hst
      refine (ih _ hhigh ht (hvhigh.mono hst) hdone rfl).bind ?_
      rintro ⟨high, done⟩ u htu ⟨hh, hdone⟩
      have hu := ht.mono htu
      have hsu := le_trans hst htu
      rw [hs.value_mono hst hvhigh] at hh
      refine (yields_makeVariable hu (ρ n.var)).bind fun test w huw htest => ?_
      have hw := hu.mono huw
      refine (yields_ite hw htest (hh.mono hu huw) (hl.mono ht (le_trans htu huw))).bind
        fun r x hwx hr => ?_
      have hsx := le_trans (le_trans hsu huw) hwx
      have hr : x.Denotes r (renamed ρ (s.value e)) := by
        refine hr.congr fun σ => ?_
        simp only [renamed]
        rw [hs.value_node hn hi, Node.select]
        simp only [Function.comp_apply]
        split <;> rfl
      refine .pure ⟨hr, (hdone.mono hu (le_trans huw hwx)).insert (Store.Valid.mono ⟨n, hn⟩ hsx) ?_⟩
      rwa [hs.value_mono hsx ⟨n, hn⟩]

theorem yields_rename (hs : s.Sound) (ρ : Nat → Nat) (he : s.Denotes e φ) :
    Yields (rename ρ e) s fun r t => t.Denotes r (renamed ρ φ) := by
  refine (yields_renameIn hs ρ he.valid Replaced.Right.empty).bind fun r t _ hr => ?_
  rw [he.value_eq] at hr
  exact .pure hr.1

end RegularArithmetic.Diagram

import RegularArithmetic.Proofs.Diagram.Cube
import RegularArithmetic.Proofs.Diagram.Recomputation
import RegularArithmetic.Proofs.Diagram.Substitution

/-!
Everything a store is asked to do, one request after another. The nodes stay reduced, ordered and
stored once, the answers keep their functions, and stores with buckets and lines of any number
answer alike.
-/

set_option autoImplicit false

namespace RegularArithmetic.Diagram

open RegularArithmetic.Store (Interner)
open RegularArithmetic.Diagram.Store (Twins)

variable {s t : Store} {e f g h : Edge} {v : Nat} {b : Bool}

section

variable (H : s.Twins t)

include H

theorem agree_makeVariable (v : Nat) : Agree (makeVariable v) s t := agree_makeNode H v .zero .one

private theorem agree_joined {join : Edge → Edge → M Edge}
    (hjoin : ∀ {s t : Store} {r e : Edge}, s.Twins t → s.Valid r → s.Valid e →
      Agree (join r e) s t ∧ Yields (join r e) s fun r u => u.Valid r)
    {es : List Edge} (hes : ∀ e ∈ es, s.Valid e) {r : Edge} (hr : s.Valid r) :
    Agree (es.foldlM join r) s t := by
  induction es generalizing s t r with
  | nil => exact .pure H r
  | cons e es ih =>
    rw [List.foldlM_cons]
    have he : s.Valid e := hes e (by simp)
    refine .bind H (hjoin H hr he).1 (hjoin H hr he).2
      (hjoin H.symm (hr.mono H.le) (he.mono H.le)).2 fun r s' t' H' hst hr => ?_
    exact ih H' (fun e he => (hes e (by simp [he])).mono hst) hr

theorem agree_conjAll {es : List Edge} (hes : ∀ e ∈ es, s.Valid e) : Agree (conjAll es) s t :=
  agree_joined H (fun H hr he => ⟨agree_conj H hr he,
    (yields_conj H.left hr.denotes he.denotes).mono fun _ _ _ h => h.valid⟩) hes H.left.valid_one

theorem agree_disjAll {es : List Edge} (hes : ∀ e ∈ es, s.Valid e) : Agree (disjAll es) s t :=
  agree_joined H (fun H hr he => ⟨agree_disj H hr he,
    (yields_disj H.left hr.denotes he.denotes).mono fun _ _ _ h => h.valid⟩) hes H.left.valid_zero

private theorem agree_literals {ls : List Int} (hsorted : ls.Pairwise (·.natAbs > ·.natAbs))
    (hne : ∀ l ∈ ls, l ≠ 0) (he : s.Valid e) (habove : ∀ l ∈ ls, s.Above l.natAbs e) :
    Agree (ls.foldlM (fun e l =>
      if l < 0 then makeNode l.natAbs e .zero else makeNode l.natAbs .zero e) e) s t := by
  induction ls generalizing s t e with
  | nil => exact .pure H e
  | cons l ls ih =>
    obtain ⟨hlt, hsorted⟩ := List.pairwise_cons.1 hsorted
    rw [List.foldlM_cons]
    have hl := hne l (by simp)
    have hl' := habove l (by simp)
    refine .bind H ?_ (yields_literal H.left hl he.denotes hl')
      (yields_literal H.right hl (he.mono H.le).denotes (hl'.mono_store he H.le))
      fun r s' t' H' _ hr => ?_
    · exact .ite (fun _ => agree_makeNode H _ _ _) fun _ => agree_makeNode H _ _ _
    · exact ih H' hsorted (fun l' hl' => hne l' (by simp [hl'])) hr.1.valid
        fun l' hl' => hr.2 _ (hlt l' hl')

theorem agree_cube {ls : List Int} (hdistinct : (ls.map Int.natAbs).Nodup)
    (hne : ∀ l ∈ ls, l ≠ 0) : Agree (cube ls) s t := by
  unfold cube
  refine .ite (fun _ => .throw H _) fun _ => ?_
  exact agree_literals H (pairwise_descending hdistinct) (fun l hl => hne l (mem_descending.1 hl))
    H.left.valid_one fun _ _ => Store.above_of_index_eq_one rfl

end

theorem Store.Sound.valid_branch (hs : s.Sound) (he : s.Valid e) (hi : ¬e.isTerminal = true)
    {n : Branch e} (hn : s.branch e = .ok n) : s.Valid n.low ∧ s.Valid n.high := by
  have hi : e.index ≠ 1 := fun h => hi (Edge.isTerminal_iff.2 h)
  obtain ⟨m, hm⟩ := he
  obtain ⟨_, _, hbranch⟩ := hs.branch_eq hm hi
  obtain rfl := Except.ok.inj (hbranch.symm.trans hn)
  exact ⟨valid_along.2 (hs.valid_select hm hi false), valid_along.2 (hs.valid_select hm hi true)⟩

theorem agree_fixIn (H : s.Twins t) (v : Nat) (b : Bool) {done : Replaced} (he : s.Valid e)
    (hdone : done.Right (fixed v b) s) : Agree (fixIn v b e done) s t := by
  induction hk : e.index using Nat.strong_induction_on generalizing s t e done with
  | _ k ih =>
    subst hk
    rw [fixIn]
    refine .ite (fun _ => .throw H _) fun _ => ?_
    refine .ite (fun _ => .pure H _) fun hi => ?_
    refine .ask_bind H (H.alike.branch e) fun n hn => ?_
    obtain ⟨hlow, hhigh⟩ := H.left.valid_branch he hi hn
    refine .ite (fun _ => .pure H _) fun _ => ?_
    refine .ite (fun _ => .pure H _) fun _ => ?_
    cases done[e.code]? with
    | some r => exact .pure H _
    | none =>
      refine .bind H (ih _ n.low_lt H hlow hdone rfl) (yields_fixIn H.left v b hlow hdone)
        (yields_fixIn H.right v b (hlow.mono H.le) (hdone.mono H.left H.le)) ?_
      rintro ⟨low, done⟩ s' t' H hst ⟨-, hdone⟩
      have hhigh := hhigh.mono hst
      refine .bind H (ih _ n.high_lt H hhigh hdone rfl) (yields_fixIn H.left v b hhigh hdone)
        (yields_fixIn H.right v b (hhigh.mono H.le) (hdone.mono H.left H.le)) ?_
      rintro ⟨high, done⟩ s' t' H - -
      exact (agree_makeNode H n.var low high).bind_pure _

theorem agree_fix (H : s.Twins t) (he : s.Valid e) (v : Nat) (b : Bool) :
    Agree (fix e v b) s t :=
  (agree_fixIn H v b he Replaced.Right.empty).bind_pure _

theorem agree_forSome (H : s.Twins t) (he : s.Valid e) (vs : List Nat) :
    Agree (forSome e vs) s t := by
  induction vs generalizing s t e with
  | nil => exact .pure H e
  | cons v vs ih =>
    rw [forSome]
    refine .ite (fun _ => .pure H _) fun _ => ?_
    refine .bind H (agree_fix H he v false) (yields_fix H.left v false he.denotes)
      (yields_fix H.right v false (he.mono H.le).denotes) fun low s' t' H hst hlow => ?_
    have he := he.mono hst
    refine .bind H (agree_fix H he v true) (yields_fix H.left v true he.denotes)
      (yields_fix H.right v true (he.mono H.le).denotes) fun high s' t' H hst hhigh => ?_
    have hlow := hlow.valid.mono hst
    refine .bind H (agree_disj H hlow hhigh.valid) (yields_disj H.left hlow.denotes hhigh)
      (yields_disj H.right (hlow.mono H.le).denotes (hhigh.valid.mono H.le).denotes)
      fun r s' t' H _ hr => ih H hr.valid

theorem agree_renameIn (H : s.Twins t) (ρ : Nat → Nat) {done : Replaced} (he : s.Valid e)
    (hdone : done.Right (renamed ρ) s) : Agree (renameIn ρ e done) s t := by
  induction hk : e.index using Nat.strong_induction_on generalizing s t e done with
  | _ k ih =>
    subst hk
    rw [renameIn]
    refine .ite (fun _ => .pure H _) fun hi => ?_
    cases done[e.code]? with
    | some r => exact .pure H _
    | none =>
      refine .ask_bind H (H.alike.branch e) fun n hn => ?_
      obtain ⟨hlow, hhigh⟩ := H.left.valid_branch he hi hn
      refine .bind H (ih _ n.low_lt H hlow hdone rfl) (yields_renameIn H.left ρ hlow hdone)
        (yields_renameIn H.right ρ (hlow.mono H.le) (hdone.mono H.left H.le)) ?_
      rintro ⟨low, done⟩ s' t' H hst ⟨hl, hdone⟩
      have hhigh := hhigh.mono hst
      refine .bind H (ih _ n.high_lt H hhigh hdone rfl) (yields_renameIn H.left ρ hhigh hdone)
        (yields_renameIn H.right ρ (hhigh.mono H.le) (hdone.mono H.left H.le)) ?_
      rintro ⟨high, done⟩ s' t' H hst ⟨hh, -⟩
      have hl := hl.valid.mono hst
      refine .bind H (agree_makeVariable H (ρ n.var)) (yields_makeVariable H.left _)
        (yields_makeVariable H.right _) fun test s' t' H hst htest => ?_
      exact (agree_ite H htest.valid (hh.valid.mono hst) (hl.mono hst)).bind_pure _

theorem agree_rename (H : s.Twins t) (he : s.Valid e) (ρ : Nat → Nat) :
    Agree (rename ρ e) s t :=
  (agree_renameIn H ρ he Replaced.Right.empty).bind_pure _

/-- The connectives of two edges. -/
inductive Connective where
  | conj
  | disj
  | xor
  | iff
  | implies
  deriving DecidableEq, Repr

def Connective.join : Connective → Edge → Edge → M Edge
  | conj => Diagram.conj
  | disj => Diagram.disj
  | xor => Diagram.xor
  | iff => Diagram.iff
  | implies => Diagram.implies

/-- Something that a store is asked for, with edges that it has. -/
inductive Request where
  | var (v : Nat)
  | node (v : Nat) (low high : Edge)
  | cube (literals : List Int)
  | ite (f g h : Edge)
  | negation (e : Edge)
  | join (c : Connective) (f g : Edge)
  | conjAll (es : List Edge)
  | disjAll (es : List Edge)
  | fix (e : Edge) (v : Nat) (b : Bool)
  | forSome (e : Edge) (vs : List Nat)
  | rename (ρ : Nat → Nat) (e : Edge)

namespace Request

def perform : Request → M Edge
  | var v => makeVariable v
  | node v low high => makeNode v low high
  | cube ls => Diagram.cube ls
  | ite f g h => Diagram.ite f g h
  | negation e => pure (-e)
  | join c f g => c.join f g
  | conjAll es => Diagram.conjAll es
  | disjAll es => Diagram.disjAll es
  | fix e v b => Diagram.fix e v b
  | forSome e vs => Diagram.forSome e vs
  | rename ρ e => Diagram.rename ρ e

/-- The edges are there, a node is asked for in front of its two edges only, and a cube for
different variables. -/
def Proper (s : Store) : Request → Prop
  | var _ => True
  | node v low high => s.Valid low ∧ s.Valid high ∧ s.Above v low ∧ s.Above v high
  | cube ls => (ls.map Int.natAbs).Nodup ∧ ∀ l ∈ ls, l ≠ 0
  | ite f g h => s.Valid f ∧ s.Valid g ∧ s.Valid h
  | negation e => s.Valid e
  | join _ f g => s.Valid f ∧ s.Valid g
  | conjAll es => ∀ e ∈ es, s.Valid e
  | disjAll es => ∀ e ∈ es, s.Valid e
  | fix e _ _ => s.Valid e
  | forSome e _ => s.Valid e
  | rename _ e => s.Valid e

variable {r : Request}

theorem yields_join (hs : s.Sound) (c : Connective) (hf : s.Valid f) (hg : s.Valid g) :
    Yields (c.join f g) s fun e t => t.Valid e := by
  have hite : ∀ {d e}, s.Valid d → s.Valid e → Yields (Diagram.ite f d e) s fun e t => t.Valid e :=
    fun hd he => (yields_ite hs hf.denotes hd.denotes he.denotes).mono fun _ _ _ h => h.valid
  cases c with
  | conj => exact hite hg hs.valid_zero
  | disj => exact hite hs.valid_one hg
  | xor => exact hite (Store.valid_neg.2 hg) hg
  | iff => exact hite hg (Store.valid_neg.2 hg)
  | implies => exact hite hg hs.valid_one

theorem yields_perform (hs : s.Sound) (hr : r.Proper s) :
    Yields r.perform s fun e t => t.Valid e := by
  have hall : ∀ (c : Connective) {es : List Edge} {e : Edge}, (∀ e ∈ es, s.Valid e) → s.Valid e →
      Yields (es.foldlM c.join e) s fun e t => t.Valid e := by
    intro c es e hes he
    refine Yields.foldlM (fun _ e t => s ≤ t ∧ t.Valid e) ⟨le_rfl, he⟩ ?_ |>.mono
      fun _ _ _ h => h.2
    rintro done d rest rfl e t ⟨hst, he⟩
    have hd : s.Valid d := hes d (by simp)
    exact (yields_join (hs.mono hst) c he (hd.mono hst)).mono
      fun _ _ htu h => ⟨le_trans hst htu, h⟩
  cases r with
  | var v => exact (yields_makeVariable hs v).mono fun _ _ _ h => h.valid
  | node v low high =>
    obtain ⟨hlow, hhigh, halow, hahigh⟩ := hr
    exact (yields_makeNode hs hlow.denotes hhigh.denotes halow hahigh).mono fun _ _ _ h => h.valid
  | cube ls => exact (yields_cube hs hr.1 hr.2).mono fun _ _ _ h => h.valid
  | ite f g h =>
    exact (yields_ite hs hr.1.denotes hr.2.1.denotes hr.2.2.denotes).mono fun _ _ _ h => h.valid
  | negation e => exact .pure (Store.valid_neg.2 hr)
  | join c f g => exact yields_join hs c hr.1 hr.2
  | conjAll es => exact hall .conj hr hs.valid_one
  | disjAll es => exact hall .disj hr hs.valid_zero
  | fix e v b => exact (yields_fix hs v b (Store.Valid.denotes hr)).mono fun _ _ _ h => h.valid
  | forSome e vs =>
    exact (yields_forSome hs (Store.Valid.denotes hr) vs).mono fun _ _ _ h => h.valid
  | rename ρ e =>
    exact (yields_rename hs ρ (Store.Valid.denotes hr)).mono fun _ _ _ h => h.valid

theorem agree_perform (H : s.Twins t) (hr : r.Proper s) : Agree r.perform s t := by
  cases r with
  | var v => exact agree_makeVariable H v
  | node v low high => exact agree_makeNode H v low high
  | cube ls => exact agree_cube H hr.1 hr.2
  | ite f g h => exact agree_ite H hr.1 hr.2.1 hr.2.2
  | negation e => exact .pure H _
  | join c f g =>
    cases c with
    | conj => exact agree_conj H hr.1 hr.2
    | disj => exact agree_disj H hr.1 hr.2
    | xor => exact agree_xor H hr.1 hr.2
    | iff => exact agree_iff H hr.1 hr.2
    | implies => exact agree_implies H hr.1 hr.2
  | conjAll es => exact agree_conjAll H hr
  | disjAll es => exact agree_disjAll H hr
  | fix e v b => exact agree_fix H hr v b
  | forSome e vs => exact agree_forSome H hr vs
  | rename ρ e => exact agree_rename H hr ρ

/-- The answer or the fault, and the store that is left. -/
def step (r : Request) (s : Store) : Except Fault Edge × Store :=
  match r.perform s with
  | .ok e t => (.ok e, t)
  | .error a t => (.error a, t)

theorem step_sound (hs : s.Sound) (hr : r.Proper s) :
    s ≤ (r.step s).2 ∧ ∀ e, (r.step s).1 = .ok e → (r.step s).2.Valid e := by
  have hyields := yields_perform hs hr
  cases hrun : r.perform s with
  | ok e t =>
    obtain ⟨hst, he⟩ := hyields.of_ok hrun
    simp only [step, hrun]
    refine ⟨hst, ?_⟩
    rintro _ ⟨⟩
    exact he
  | error a t =>
    simp only [step, hrun]
    exact ⟨hyields.of_error hrun, fun _ h => by cases h⟩

theorem step_twins (H : s.Twins t) (hr : r.Proper s) (hr' : r.Proper t) :
    (r.step s).1 = (r.step t).1 ∧ (r.step s).2.Twins (r.step t).2 := by
  have hsound := H.left.mono (step_sound H.left hr).1
  have hsound' := H.right.mono (step_sound H.right hr').1
  obtain ⟨a, s', t', hs, ht, halike⟩ | ⟨a, s', t', hs, ht, halike⟩ := (agree_perform H hr).cases
  all_goals
    simp only [step, hs, ht] at hsound hsound' ⊢
    exact ⟨trivial, hsound, hsound', halike⟩

theorem Proper.mono (hr : r.Proper s) (hst : s ≤ t) : r.Proper t := by
  cases r with
  | var v => trivial
  | node v low high =>
    exact ⟨hr.1.mono hst, hr.2.1.mono hst, hr.2.2.1.mono_store hr.1 hst,
      hr.2.2.2.mono_store hr.2.1 hst⟩
  | cube ls => exact hr
  | ite f g h => exact ⟨hr.1.mono hst, hr.2.1.mono hst, hr.2.2.mono hst⟩
  | negation e => exact Store.Valid.mono hr hst
  | join c f g => exact ⟨hr.1.mono hst, hr.2.mono hst⟩
  | conjAll es => exact fun e he => (hr e he).mono hst
  | disjAll es => exact fun e he => (hr e he).mono hst
  | fix e v b => exact Store.Valid.mono hr hst
  | forSome e vs => exact Store.Valid.mono hr hst
  | rename ρ e => exact Store.Valid.mono hr hst

end Request

/-- What becomes of the requests, one after another, each in the store that the one before
left. -/
def history : List Request → Store → List (Except Fault Edge × Store)
  | [], _ => []
  | r :: rs, s => r.step s :: history rs (r.step s).2

/-- The store that is left after all the requests. -/
def after (rs : List Request) (s : Store) : Store :=
  rs.foldl (fun s r => (r.step s).2) s

/-- Every request is proper when it is made. -/
def Orderly : List Request → Store → Prop
  | [], _ => True
  | r :: rs, s => r.Proper s ∧ Orderly rs (r.step s).2

variable {rs rs' : List Request}

theorem orderly_append : Orderly (rs ++ rs') s ↔ Orderly rs s ∧ Orderly rs' (after rs s) := by
  induction rs generalizing s with
  | nil => simp [Orderly, after]
  | cons r rs ih => simp only [List.cons_append, Orderly, ih, after, List.foldl_cons, and_assoc]

theorem after_sound (hs : s.Sound) (hrs : Orderly rs s) :
    s ≤ after rs s ∧ ∀ e, .ok e ∈ (history rs s).map Prod.fst → (after rs s).Valid e := by
  induction rs generalizing s with
  | nil => exact ⟨le_rfl, by simp [history]⟩
  | cons r rs ih =>
    obtain ⟨hst, he⟩ := Request.step_sound hs hrs.1
    obtain ⟨htu, hes⟩ := ih (hs.mono hst) hrs.2
    refine ⟨le_trans hst htu, fun e hmem => ?_⟩
    simp only [history, List.map_cons, List.mem_cons] at hmem
    rcases hmem with hmem | hmem
    · exact (he e hmem.symm).mono htu
    · exact hes e hmem

/-- A new store stays sound, whatever it is asked for in order. -/
theorem sound_after {bits : Nat} (hs : Store.empty? bits = .ok s) (hrs : Orderly rs s) :
    (after rs s).Sound :=
  (Store.Sound.empty? hs).mono (after_sound (Store.Sound.empty? hs) hrs).1

/-- Every inner node is reduced and ordered, and no two nodes are equal. -/
structure Store.Reduced (s : Store) : Prop where
  high_positive : ∀ i n, i ≠ 1 → s.nodes.get? i = some n → n.high.isNegated = false
  low_ne_high : ∀ i n, i ≠ 1 → s.nodes.get? i = some n → n.low ≠ n.high
  ordered : ∀ i n, i ≠ 1 → s.nodes.get? i = some n → ∀ c, c = n.low ∨ c = n.high →
    c.isTerminal = true ∨ ∃ m, s.nodes.get? c.index = some m ∧ n.var < m.var
  distinct : ∀ i j n, s.nodes.get? i = some n → s.nodes.get? j = some n → i = j

theorem Store.Sound.reduced (hs : s.Sound) : s.Reduced where
  high_positive i n hi hn := (hs.placed i n hi hn).high_positive
  low_ne_high i n hi hn := (hs.placed i n hi hn).low_ne_high
  ordered := by
    intro i n hi hn c hc
    obtain ⟨b, rfl⟩ : ∃ b, c = n.select b := by
      rcases hc with rfl | rfl
      · exact ⟨false, rfl⟩
      · exact ⟨true, rfl⟩
    obtain ⟨m, hm⟩ := hs.valid_select hn hi b
    by_cases hterm : (n.select b).index = 1
    · exact .inl (Edge.isTerminal_iff.2 hterm)
    · exact .inr ⟨m, hm, (hs.placed i n hi hn).above_select b m hm hterm⟩
  distinct := by
    have hterminal : ∀ j n, s.nodes.get? 1 = some n → s.nodes.get? j = some n → j = 1 := by
      intro j n hn hj
      by_contra hj1
      rw [hs.terminal] at hn
      cases hn
      exact (hs.placed j _ hj1 hj).var_ne_zero rfl
    intro i j n hi hj
    by_cases hi1 : i = 1
    · subst hi1
      exact (hterminal j n hi hj).symm
    by_cases hj1 : j = 1
    · subst hj1
      exact hterminal i n hj hi
    exact hs.distinct i j n hi1 hj1 hi hj

/-- Whatever was asked for, the nodes are reduced, ordered and stored once, what was answered
keeps its function while more is asked for, and edges are equal exactly if their functions are. -/
theorem after_canonical {bits : Nat} {s : Store} (hs : Store.empty? bits = .ok s)
    (hrs : Orderly (rs ++ rs') s) :
    (after (rs ++ rs') s).Reduced ∧
      (∀ e, .ok e ∈ (history rs s).map Prod.fst → (after (rs ++ rs') s).Valid e ∧ ∀ σ, ∃ b,
        (after rs s).eval σ e = .ok b ∧ (after (rs ++ rs') s).eval σ e = .ok b) ∧
      ∀ e f, (after (rs ++ rs') s).Valid e → (after (rs ++ rs') s).Valid f →
        (e = f ↔ ∀ σ, (after (rs ++ rs') s).eval σ e = (after (rs ++ rs') s).eval σ f) := by
  have hsound := Store.Sound.empty? hs
  obtain ⟨hrs, hrs'⟩ := orderly_append.1 hrs
  obtain ⟨hle, hvalid⟩ := after_sound hsound hrs
  obtain ⟨hle', -⟩ := after_sound (hsound.mono hle) hrs'
  have hafter : after (rs ++ rs') s = after rs' (after rs s) := List.foldl_append
  rw [hafter]
  have hmid := hsound.mono hle
  have hend := hmid.mono hle'
  refine ⟨hend.reduced, fun e he => ⟨(hvalid e he).mono hle', fun σ => ?_⟩, fun e f he hf => ?_⟩
  · refine ⟨_, hmid.eval_eq (hvalid e he) σ, ?_⟩
    rw [hend.eval_eq ((hvalid e he).mono hle'), hmid.value_mono hle' (hvalid e he)]
  · refine ⟨fun h σ => by rw [h], fun h => hend.eq_of_value_eq he hf fun σ => ?_⟩
    have hσ := h σ
    rwa [hend.eval_eq he, hend.eval_eq hf, Except.ok.injEq] at hσ

theorem orderly_conj (hs : Store.empty? 1 = .ok s) :
    Orderly [.var 2, .node 1 .zero ⟨2⟩, .join .conj ⟨2⟩ ⟨3⟩] s := by
  rw [Store.empty?_eq (by decide)] at hs
  cases hs
  refine ⟨trivial, ⟨⟨.terminal, rfl⟩, ⟨⟨2, .zero, .one⟩, rfl⟩, ?_, ?_⟩, ⟨⟨⟨2, .zero, .one⟩, rfl⟩,
    ⟨⟨1, .zero, ⟨2⟩⟩, rfl⟩⟩, trivial⟩
  · exact Store.above_of_index_eq_one rfl
  · rintro n hn -
    cases hn
    decide

theorem orderly_pair (hs : Store.empty? 1 = .ok s) :
    Orderly [.var 2, .node 1 .zero ⟨2⟩] s ∧
      (after [.var 2, .node 1 .zero ⟨2⟩] s).Valid ⟨2⟩ ∧
      (after [.var 2, .node 1 .zero ⟨2⟩] s).Valid ⟨3⟩ ∧
      (after [.var 2, .node 1 .zero ⟨2⟩] s).Valid .zero := by
  have hconj := orderly_conj hs
  rw [show [Request.var 2, .node 1 .zero ⟨2⟩, .join .conj ⟨2⟩ ⟨3⟩] =
    [.var 2, .node 1 .zero ⟨2⟩] ++ [.join .conj ⟨2⟩ ⟨3⟩] from rfl, orderly_append] at hconj
  obtain ⟨hrs, hvalid, -⟩ := hconj
  exact ⟨hrs, hvalid.1, hvalid.2, (sound_after hs hrs).valid_zero⟩

theorem after_canonical_conj : ∃ s, Store.empty? 1 = .ok s ∧
    Orderly ([.var 2, .node 1 .zero ⟨2⟩] ++ [.join .conj ⟨2⟩ ⟨3⟩]) s ∧
    (after ([.var 2, .node 1 .zero ⟨2⟩] ++ [.join .conj ⟨2⟩ ⟨3⟩]) s).Reduced := by
  have hs : Store.empty? 1 = _ := Store.empty?_eq (by decide)
  exact ⟨_, hs, orderly_conj hs, (after_canonical hs (orderly_conj hs)).1⟩

/-- What is seen of the requests: each answer or fault, and the number of nodes after it. -/
def outcomes (rs : List Request) (s : Store) : List (Except Fault Edge × Nat) :=
  (history rs s).map fun p => (p.1, p.2.size)

theorem outcomes_eq_of_twins (H : s.Twins t) (hrs : Orderly rs s) :
    outcomes rs s = outcomes rs t := by
  induction rs generalizing s t with
  | nil => rfl
  | cons r rs ih =>
    obtain ⟨hanswer, H'⟩ := Request.step_twins H hrs.1 (hrs.1.mono H.le)
    have ih := ih H' hrs.2
    simp only [outcomes, history, List.map_cons] at ih ⊢
    rw [hanswer, H'.alike.size_eq, ih]

theorem Store.twins_empty? {bits bits' : Nat} {s t : Store} (hs : Store.empty? bits = .ok s)
    (ht : Store.empty? bits' = .ok t) : s.Twins t := by
  refine ⟨Sound.empty? hs, Sound.empty? ht, fun i => ?_⟩
  rw [get?_empty? hs, get?_empty? ht]

/-- The room for nodes and for remembered results is never seen in the answers or in the number
of nodes. -/
theorem outcomes_eq {bits bits' : Nat} (hbits : bits ≤ 31) (hbits' : bits' ≤ 31) :
    ∃ s t, Store.empty? bits = .ok s ∧ Store.empty? bits' = .ok t ∧
      ∀ rs, Orderly rs s → outcomes rs s = outcomes rs t := by
  have hs := Store.empty?_eq hbits
  have ht := Store.empty?_eq hbits'
  exact ⟨_, _, hs, ht, fun rs hrs => outcomes_eq_of_twins (Store.twins_empty? hs ht) hrs⟩

theorem outcomes_eq_conj : ∃ s t, Store.empty? 1 = .ok s ∧ Store.empty? 31 = .ok t ∧
    Orderly [.var 2, .node 1 .zero ⟨2⟩, .join .conj ⟨2⟩ ⟨3⟩] s ∧
    outcomes [.var 2, .node 1 .zero ⟨2⟩, .join .conj ⟨2⟩ ⟨3⟩] s =
      outcomes [.var 2, .node 1 .zero ⟨2⟩, .join .conj ⟨2⟩ ⟨3⟩] t := by
  obtain ⟨s, t, hs, ht, heq⟩ := @outcomes_eq 1 31 (by decide) (by decide)
  exact ⟨s, t, hs, ht, orderly_conj hs, heq _ (orderly_conj hs)⟩

end RegularArithmetic.Diagram

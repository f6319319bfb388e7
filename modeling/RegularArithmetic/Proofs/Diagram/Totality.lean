import RegularArithmetic.Proofs.Diagram.Paths
import RegularArithmetic.Proofs.Diagram.Recomputation

/-!
Operations on diagrams do not fail on edges of the store. The depth that a choice is given is
never used up, literals of variables are conjoined, and a variable can be fixed or quantified unless
its number is 0.
-/

set_option autoImplicit false

namespace RegularArithmetic.Diagram

variable {s t : Store} {e f g h : Edge} {φ ψ χ : Assignment → Bool} {tr : Triple}

theorem succeeds_makeNode (hs : s.Sound) {v : Nat} (hv : v ≠ 0) (low high : Edge) :
    Succeeds (makeNode v low high) s := by
  obtain ⟨e, t, hrun, -⟩ := makeNode_cases hs hv low high
  exact ⟨e, t, hrun⟩

theorem returns_makeVariable (hs : s.Sound) {v : Nat} (hv : v ≠ 0) :
    Returns (makeVariable v) s fun e t => t.Denotes e fun σ => σ v :=
  (succeeds_makeNode hs hv .zero .one).returns (yields_makeVariable hs v)

private theorem succeeds_recollect {depth : Nat}
    (hchoose : ∀ s : Store, s.Sound → ∀ tr, s.ValidTriple tr → tr.weight < depth →
      Succeeds (chooseWithin depth tr) s)
    (hs : s.Sound) (htr : s.ValidTriple tr) (hf : tr.f.index ≠ 1) (hweight : tr.weight ≤ depth) :
    Succeeds (recollect depth tr) s := by
  obtain ⟨t, hfind, -, hst⟩ := remembered_eq hs tr
  have ht := hs.mono hst
  have hrun := fun y : Option Edge → M Edge => bind_of_ok (y := y) hfind
  cases hpeek : s.results.peek tr with
  | some d => exact ⟨d, t, (hrun _).trans (by rw [hpeek]; rfl)⟩
  | none =>
    obtain ⟨m, low, high, hh, hsplit⟩ := ht.exists_halves (htr.mono hst) hf
    have hlow := (hchoose t ht low hh.valid_low (hh.low_lt.trans_le hweight)).returns
      (yields_chooseWithin depth t ht low hh.valid_low)
    obtain ⟨e, u, hsplitrun⟩ : Succeeds (split (chooseWithin depth) tr) t := by
      refine Succeeds.of_eq ?_ (hsplit _ t fun _ => rfl)
      refine hlow.bind_succeeds fun a u htu _ => ?_
      have hu := ht.mono htu
      have hhigh := hh.valid_high.mono htu
      refine ((hchoose u hu high hhigh (hh.high_lt.trans_le hweight)).returns
        (yields_chooseWithin depth u hu high hhigh)).bind_succeeds fun b w huw _ => ?_
      exact succeeds_makeNode (hu.mono huw) hh.f.ne_zero a b
    refine ⟨e, ⟨u.nodes, u.results.insert tr e⟩, (hrun _).trans ?_⟩
    rw [hpeek]
    exact bind_of_ok hsplitrun

theorem succeeds_chooseWithin (depth : Nat) : ∀ s : Store, s.Sound → ∀ tr, s.ValidTriple tr →
    tr.weight < depth → Succeeds (chooseWithin depth tr) s := by
  induction depth with
  | zero => exact fun _ _ _ _ h => absurd h (Nat.not_lt_zero _)
  | succ depth ih =>
    intro s hs tr htr hweight
    cases hsettled : tr.settled? with
    | some d => exact ⟨d, s, by rw [chooseWithin, hsettled]; rfl⟩
    | none =>
      cases hsettled' : tr.absorb.settled? with
      | some d =>
        refine ⟨d, s, ?_⟩
        rw [chooseWithin, hsettled]
        dsimp only
        rw [hsettled']
        rfl
      | none =>
        obtain ⟨reg, negated, hreg, hf, hle, -, hrun⟩ := hs.exists_regular htr hsettled hsettled'
        exact ((succeeds_recollect ih hs hreg hf (by omega)).bind_pure).of_eq
          (hrun depth s fun _ => rfl)

section

variable (hs : s.Sound) (he : s.Denotes e φ) (hf : s.Denotes f ψ)

include hs he hf

theorem returns_ite (hg : s.Denotes g χ) :
    Returns (ite e f g) s fun r t => t.Denotes r fun σ => if φ σ then ψ σ else χ σ :=
  (succeeds_chooseWithin _ s hs ⟨e, f, g⟩ ⟨he.valid, hf.valid, hg.valid⟩
    (Nat.lt_succ_of_le (Triple.weight_le _))).returns (yields_ite hs he hf hg)

theorem returns_conj : Returns (conj e f) s fun r t => t.Denotes r fun σ => φ σ && ψ σ :=
  (returns_ite hs he hf hs.denotes_zero).succeeds.returns (yields_conj hs he hf)

theorem returns_disj : Returns (disj e f) s fun r t => t.Denotes r fun σ => φ σ || ψ σ :=
  (returns_ite hs he hs.denotes_one hf).succeeds.returns (yields_disj hs he hf)

theorem returns_iff : Returns (iff e f) s fun r t => t.Denotes r fun σ => φ σ == ψ σ :=
  (returns_ite hs he hf (hf.neg hs)).succeeds.returns (yields_iff hs he hf)

end

theorem returns_disjAll (hs : s.Sound) {es : List Edge} (hes : ∀ e ∈ es, s.Valid e) :
    Returns (disjAll es) s fun r t => t.Denotes r fun σ => es.any (s.value · σ) := by
  refine Succeeds.returns (Returns.succeeds (P := fun r t => s ≤ t ∧ t.Valid r) ?_)
    (yields_disjAll hs hes)
  refine Returns.foldlM (fun _ r t => s ≤ t ∧ t.Valid r) ⟨le_rfl, hs.valid_zero⟩ ?_
  rintro done d rest hl r t ⟨hst, hr⟩
  refine (returns_disj (hs.mono hst) hr.denotes ((hes d (by simp [hl])).mono hst).denotes).mono
    fun r' u htu hr' => ⟨le_trans hst htu, hr'.valid⟩

theorem returns_literal (hs : s.Sound) {l : Int} (hl : l ≠ 0) (he : s.Denotes e φ)
    (habove : s.Above l.natAbs e) :
    Returns (if l < 0 then makeNode l.natAbs e .zero else makeNode l.natAbs .zero e) s fun r t =>
      t.Denotes r (fun σ => agrees σ l && φ σ) ∧ ∀ v, v < l.natAbs → t.Above v r := by
  have hv : l.natAbs ≠ 0 := Int.natAbs_ne_zero.2 hl
  apply Succeeds.returns
  · apply Succeeds.ite
    · intro _
      exact succeeds_makeNode hs hv e .zero
    · intro _
      exact succeeds_makeNode hs hv .zero e
  · exact yields_literal hs hl he habove

theorem succeeds_literals (ls : List Int) (hsorted : ls.Pairwise (·.natAbs > ·.natAbs))
    (hne : ∀ l ∈ ls, l ≠ 0) (hs : s.Sound) (he : s.Denotes e φ)
    (habove : ∀ l ∈ ls, s.Above l.natAbs e) :
    Succeeds (ls.foldlM (fun e l =>
      if l < 0 then makeNode l.natAbs e .zero else makeNode l.natAbs .zero e) e) s := by
  induction ls generalizing s e φ with
  | nil => exact .pure
  | cons l ls ih =>
    obtain ⟨hlt, hsorted⟩ := List.pairwise_cons.1 hsorted
    rw [List.foldlM_cons]
    apply (returns_literal hs (hne l (by simp)) he (habove l (by simp))).bind_succeeds
    intro r t hst hr
    apply ih hsorted (fun l' hl' => hne l' (by simp [hl'])) (hs.mono hst) hr.1
    intro l' hl'
    exact hr.2 _ (hlt l' hl')

theorem returns_cube (hs : s.Sound) {c : List Int} (hdistinct : (c.map Int.natAbs).Nodup)
    (hne : ∀ l ∈ c, l ≠ 0) (hleast : Edge.leastWord ∉ c) :
    Returns (cube c) s fun r t => t.Denotes r fun σ => c.all (agrees σ) := by
  apply Succeeds.returns
  · rw [cube, if_neg fun h => hleast h.2]
    apply succeeds_literals (descending c) (pairwise_descending hdistinct)
      (fun l hl => hne l (mem_descending.1 hl)) hs hs.denotes_one
    intro l _
    exact Store.above_of_index_eq_one rfl
  · exact yields_cube hs hdistinct hne

theorem succeeds_fixIn (hs : s.Sound) {v : Nat} (hv : v ≠ 0) (b : Bool) {done : Replaced}
    (he : s.Valid e) (hdone : done.Right (fixed v b) s) : Succeeds (fixIn v b e done) s := by
  induction hk : e.index using Nat.strong_induction_on generalizing s e done with
  | _ k ih =>
    subst hk
    rw [fixIn, if_neg hv]
    refine .ite (fun _ => .pure) fun ht => ?_
    have hi : e.index ≠ 1 := fun hi => ht (Edge.isTerminal_iff.2 hi)
    obtain ⟨n, hn⟩ := he
    have hp := hs.placed _ n hi hn
    obtain ⟨hlow, hhigh, hbranch⟩ := hs.branch_eq hn hi
    have hvlow : s.Valid (e.along n.low) := Store.valid_along.2 (hs.valid_select hn hi false)
    have hvhigh : s.Valid (e.along n.high) := Store.valid_along.2 (hs.valid_select hn hi true)
    refine Succeeds.of_eq ?_ (bind_of_ok (ask_of_ok hbranch))
    refine .ite (fun _ => .pure) fun _ => .ite (fun _ => .pure) fun _ => ?_
    cases hfound : done[e.code]? with
    | some r => exact .pure
    | none =>
      refine ((ih _ hlow hs hvlow hdone rfl).returns
        (yields_fixIn hs v b hvlow hdone)).bind_succeeds ?_
      rintro ⟨low, done⟩ t hst ⟨-, hdone⟩
      have ht := hs.mono hst
      refine ((ih _ hhigh ht (hvhigh.mono hst) hdone rfl).returns
        (yields_fixIn ht v b (hvhigh.mono hst) hdone)).bind_succeeds ?_
      rintro ⟨high, done⟩ u htu -
      exact (succeeds_makeNode (ht.mono htu) hp.var_ne_zero low high).bind_pure

theorem returns_fix (hs : s.Sound) {v : Nat} (hv : v ≠ 0) (b : Bool) (he : s.Denotes e φ) :
    Returns (fix e v b) s fun r t => t.Denotes r (fixed v b φ) :=
  (succeeds_fixIn hs hv b he.valid Replaced.Right.empty).bind_pure.returns (yields_fix hs v b he)

theorem returns_forSome (hs : s.Sound) (he : s.Denotes e φ) {vs : List Nat}
    (hvs : ∀ v ∈ vs, v ≠ 0) :
    Returns (forSome e vs) s fun r t => t.Denotes r (someOf φ vs) := by
  refine Succeeds.returns ?_ (yields_forSome hs he vs)
  induction vs generalizing s e φ with
  | nil => exact .pure
  | cons v vs ih =>
    rw [forSome]
    refine .ite (fun _ => .pure) fun _ => ?_
    have hv := hvs v (by simp)
    refine (returns_fix hs hv false he).bind_succeeds fun low t hst hlow => ?_
    have ht := hs.mono hst
    refine (returns_fix ht hv true (he.mono hs hst)).bind_succeeds fun high u htu hhigh => ?_
    have hu := ht.mono htu
    refine (returns_disj hu (hlow.mono ht htu) hhigh).bind_succeeds fun r w huw hr => ?_
    exact ih (hu.mono huw) hr fun w hw => hvs w (by simp [hw])

theorem succeeds_renameIn (hs : s.Sound) {ρ : Nat → Nat} (hρ : ∀ v, s.Matters e v → ρ v ≠ 0)
    {done : Replaced} (he : s.Valid e) (hdone : done.Right (renamed ρ) s) :
    Succeeds (renameIn ρ e done) s := by
  induction hk : e.index using Nat.strong_induction_on generalizing s e done with
  | _ k ih =>
    subst hk
    rw [renameIn]
    refine .ite (fun _ => .pure) fun ht => ?_
    cases hfound : done[e.code]? with
    | some r => exact .pure
    | none =>
      have hi : e.index ≠ 1 := fun hi => ht (Edge.isTerminal_iff.2 hi)
      obtain ⟨n, hn⟩ := he
      obtain ⟨hlow, hhigh, hbranch⟩ := hs.branch_eq hn hi
      have hvlow : s.Valid (e.along n.low) := Store.valid_along.2 (hs.valid_select hn hi false)
      have hvhigh : s.Valid (e.along n.high) := Store.valid_along.2 (hs.valid_select hn hi true)
      have hρlow : ∀ v, s.Matters (e.along n.low) v → ρ v ≠ 0 :=
        fun v hv => hρ v (hs.matters_of_select (b := false) hn hi hv)
      have hρhigh : ∀ v, s.Matters (e.along n.high) v → ρ v ≠ 0 :=
        fun v hv => hρ v (hs.matters_of_select (b := true) hn hi hv)
      refine Succeeds.of_eq ?_ (bind_of_ok (ask_of_ok hbranch))
      refine ((ih _ hlow hs hρlow hvlow hdone rfl).returns
        (yields_renameIn hs ρ hvlow hdone)).bind_succeeds ?_
      rintro ⟨low, done⟩ t hst ⟨hl, hdone⟩
      have ht := hs.mono hst
      have hρhigh : ∀ v, t.Matters (e.along n.high) v → ρ v ≠ 0 :=
        fun v hv => hρhigh v ((hs.matters_mono hst hvhigh).1 hv)
      refine ((ih _ hhigh ht hρhigh (hvhigh.mono hst) hdone rfl).returns
        (yields_renameIn ht ρ (hvhigh.mono hst) hdone)).bind_succeeds ?_
      rintro ⟨high, done⟩ u htu ⟨hh, -⟩
      have hu := ht.mono htu
      have hvar : ρ n.var ≠ 0 := hρ _ (hs.exists_value_update_ne hn hi)
      refine ((succeeds_makeNode hu hvar .zero .one).returns
        (yields_makeVariable hu (ρ n.var))).bind_succeeds fun test w huw htest => ?_
      have hw := hu.mono huw
      exact (returns_ite hw htest (hh.mono hu huw)
        (hl.mono ht (le_trans htu huw))).succeeds.bind_pure

theorem returns_rename_of_matters (hs : s.Sound) {ρ : Nat → Nat}
    (hρ : ∀ v, s.Matters e v → ρ v ≠ 0) (he : s.Denotes e φ) :
    Returns (rename ρ e) s fun r t => t.Denotes r (renamed ρ φ) :=
  (succeeds_renameIn hs hρ he.valid Replaced.Right.empty).bind_pure.returns (yields_rename hs ρ he)

theorem returns_rename (hs : s.Sound) {ρ : Nat → Nat} (hρ : ∀ v ≠ 0, ρ v ≠ 0)
    (he : s.Denotes e φ) : Returns (rename ρ e) s fun r t => t.Denotes r (renamed ρ φ) :=
  returns_rename_of_matters hs (fun v hv => hρ v (hs.ne_zero_of_matters he.valid hv)) he

end RegularArithmetic.Diagram

import RegularArithmetic.Proofs.Diagram.Requests
import RegularArithmetic.Proofs.Diagram.Totality

/-!
The cubes along the paths of an edge divide its function among them. Their variables come in
increasing order, no two cubes agree, and put together again they give the edge itself. All this
needs variables that fit signed literals: the literal of a larger one is about another variable.
-/

set_option autoImplicit false

namespace RegularArithmetic.Diagram

variable {s t : Store} {e : Edge} {n : Node} {v : Nat} {l : Int} {c d : List Int}
  {cs high low : List (List Int)}

/-- A variable is true in one of the cubes and false in the other. -/
def Contradict (c d : List Int) : Prop := ∃ l ∈ c, -l ∈ d

theorem Contradict.cons (l : Int) (h : Contradict c d) : Contradict (l :: c) (l :: d) := by
  obtain ⟨l', hc, hd⟩ := h
  exact ⟨l', List.mem_cons_of_mem l hc, List.mem_cons_of_mem l hd⟩

theorem pairwise_contradict_append (l : Int) (hhigh : high.Pairwise Contradict)
    (hlow : low.Pairwise Contradict) :
    (high.map (l :: ·) ++ low.map (-l :: ·)).Pairwise Contradict := by
  rw [List.pairwise_append]
  refine ⟨hhigh.map _ fun _ _ h => h.cons l, hlow.map _ fun _ _ h => h.cons (-l), ?_⟩
  intro c hc d hd
  obtain ⟨c, -, rfl⟩ := List.mem_map.1 hc
  obtain ⟨d, -, rfl⟩ := List.mem_map.1 hd
  exact ⟨l, List.mem_cons_self, List.mem_cons_self⟩

namespace Store

theorem someCube?_eq_none : s.someCube? e = .ok none ↔ e = .zero := by
  rw [someCube?]
  by_cases he : e = .zero
  · rw [if_pos he]
    exact iff_of_true rfl he
  · rw [if_neg he]
    constructor
    · cases someCube?.along s e <;> rintro ⟨⟩
    · intro h
      exact absurd h he

theorem someCube?_eq_some : s.someCube? e = .ok (some c) ↔
    e ≠ .zero ∧ someCube?.along s e = .ok c := by
  rw [someCube?]
  by_cases he : e = .zero
  · rw [if_pos he]
    constructor
    · rintro ⟨⟩
    · intro h
      exact absurd he h.1
  · rw [if_neg he]
    constructor
    · intro h
      cases halong : someCube?.along s e with
      | error f =>
        rw [halong] at h
        cases h
      | ok d =>
        rw [halong] at h
        cases h
        exact ⟨he, rfl⟩
    · rintro ⟨-, h⟩
      rw [h]
      rfl

theorem Sound.answers_along (hs : s.Sound) (hn : s.nodes.get? e.index = some n)
    (he : e.index ≠ 1) (hv : n.var < 2 ^ 31) {P : List Int → Prop}
    (hlow : e.along n.low ≠ .zero →
      Answers (someCube?.along s (e.along n.low)) fun c => P (-(n.var : Int) :: c))
    (hhigh : e.along n.low = .zero →
      Answers (someCube?.along s (e.along n.high)) fun c => P ((n.var : Int) :: c)) :
    Answers (someCube?.along s e) P := by
  have hone : e ≠ .one := fun h => he (h ▸ Edge.index_one)
  obtain ⟨_, _, hbranch⟩ := hs.branch_eq hn he
  rw [someCube?.along, if_neg hone, hbranch]
  change Answers (if e.along n.low ≠ .zero then _ else _) P
  rw [literalOf_eq hv]
  by_cases hzero : e.along n.low = .zero
  · rw [if_neg (not_not.2 hzero)]
    exact (hhigh hzero).bind fun c hc => .pure hc
  · rw [if_pos hzero]
    dsimp only
    rw [opposite_eq (natCast_ne_leastWord n.var)]
    exact (hlow hzero).bind fun c hc => .pure hc

theorem Sound.someCube?_node (hs : s.Sound) (hn : s.nodes.get? e.index = some n)
    (he : e.index ≠ 1) (hv : n.var < 2 ^ 31)
    (hhigh : s.someCube? (e.along n.high) = .ok high.getLast?)
    (hlow : s.someCube? (e.along n.low) = .ok low.getLast?) :
    s.someCube? e =
      .ok (high.map ((n.var : Int) :: ·) ++ low.map (-(n.var : Int) :: ·)).getLast? := by
  have hzero : e ≠ .zero := fun h => he (h ▸ Edge.index_zero)
  have hsome : ∀ d, Answers (someCube?.along s e) (· = d) → s.someCube? e = .ok (some d) := by
    rintro d ⟨_, halong, rfl⟩
    exact someCube?_eq_some.2 ⟨hzero, halong⟩
  rw [List.getLast?_append, List.getLast?_map, List.getLast?_map]
  cases hc : low.getLast? with
  | some c =>
    rw [hc] at hlow
    obtain ⟨hne, halong⟩ := someCube?_eq_some.1 hlow
    apply hsome
    apply hs.answers_along hn he hv
    · intro _
      exact ⟨c, halong, rfl⟩
    · intro heq
      exact absurd heq hne
  | none =>
    rw [hc] at hlow
    have heq := someCube?_eq_none.1 hlow
    cases hd : high.getLast? with
    | some d =>
      rw [hd] at hhigh
      obtain ⟨-, halong⟩ := someCube?_eq_some.1 hhigh
      apply hsome
      apply hs.answers_along hn he hv
      · intro hne
        exact absurd heq hne
      · intro _
        exact ⟨d, halong, rfl⟩
    | none =>
      rw [hd] at hhigh
      have heq' := someCube?_eq_none.1 hhigh
      have hlowhigh : n.low = n.high := Edge.along_inj.1 (heq.trans heq'.symm)
      exact absurd hlowhigh (hs.placed _ n he hn).low_ne_high

end Store

/-- The variables of each cube come in increasing order, different cubes contradict each other, and
the last one is what is found when one is asked for. -/
structure Divides (s : Store) (e : Edge) (cs : List (List Int)) : Prop extends Covers s e cs where
  increasing : ∀ c ∈ cs, c.Pairwise (·.natAbs < ·.natAbs)
  contradictory : cs.Pairwise Contradict
  last : s.someCube? e = .ok cs.getLast?

theorem increasing_cons (hv : ∀ c ∈ cs, ∀ l ∈ c, v < l.natAbs)
    (hcs : ∀ c ∈ cs, c.Pairwise (·.natAbs < ·.natAbs)) (hl : l.natAbs = v) :
    ∀ c ∈ cs.map (l :: ·), c.Pairwise (·.natAbs < ·.natAbs) := by
  intro c hc
  obtain ⟨d, hd, rfl⟩ := List.mem_map.1 hc
  apply List.pairwise_cons.2
  constructor
  · intro l' hl'
    rw [hl]
    exact hv d hd l' hl'
  · exact hcs d hd

theorem Divides.node (hs : s.Sound) (hn : s.nodes.get? e.index = some n) (he : e.index ≠ 1)
    (hv : n.var < 2 ^ 31) (hhigh : Divides s (e.along n.high) high)
    (hlow : Divides s (e.along n.low) low) :
    Divides s e (high.map ((n.var : Int) :: ·) ++ low.map (-(n.var : Int) :: ·)) where
  toCovers := hhigh.toCovers.node hs hn he hlow.toCovers
  increasing := by
    have hbehind : ∀ {b cs}, Covers s (e.along (n.select b)) cs →
        ∀ c ∈ cs, ∀ l ∈ c, n.var < l.natAbs := by
      intro b cs hcs c hc l hl
      exact hs.lt_of_matters (Store.valid_along.2 (hs.valid_select hn he b))
        (Store.above_along.2 ((hs.placed _ n he hn).above_select b)) (hcs.literals c hc l hl).2
    intro c hc
    rcases List.mem_append.1 hc with hc | hc
    · exact increasing_cons (hbehind (b := true) hhigh.toCovers) hhigh.increasing (by simp) c hc
    · exact increasing_cons (hbehind (b := false) hlow.toCovers) hlow.increasing (by simp) c hc
  contradictory := pairwise_contradict_append _ hhigh.contradictory hlow.contradictory
  last := hs.someCube?_node hn he hv hhigh.last hlow.last

theorem answers_divides (hs : s.Sound) (hvars : ∀ v, s.Matters e v → v < 2 ^ 31)
    (he : s.Valid e) : Answers (s.cubes e) (Divides s e) := by
  refine answers_cubes_of hs ?_ ?_ ?_ hvars he
  · refine ⟨⟨fun σ => by simp, by simp⟩, by simp, .nil, ?_⟩
    exact Store.someCube?_eq_none.2 rfl
  · refine ⟨⟨fun σ => by simp, by simp⟩, by simp, by simp, ?_⟩
    apply Store.someCube?_eq_some.2
    refine ⟨Edge.zero_ne_one.symm, ?_⟩
    rw [Store.someCube?.along, if_pos rfl]
    rfl
  · intro e n high low hn he hv hhigh hlow
    exact hhigh.node hs hn he hv hlow

theorem Divides.returns_cubes (hs : s.Sound) (hvars : ∀ v, s.Matters e v → v < 2 ^ 31)
    (h : Divides s e cs) :
    Returns (cs.mapM cube) s fun es t =>
      List.Forall₂ (fun c r => t.Denotes r fun σ => c.all (agrees σ)) cs es := by
  have hcube : ∀ c ∈ cs, ∀ t, s ≤ t → Returns (cube c) t fun r t =>
      t.Sound ∧ t.Denotes r fun σ => c.all (agrees σ) := by
    intro c hc t hst
    have ht := hs.mono hst
    have hdistinct : (c.map Int.natAbs).Nodup := by
      apply List.pairwise_map.2
      exact (h.increasing c hc).imp fun hlt => hlt.ne
    have hleast : Edge.leastWord ∉ c := by
      intro hl
      have hsmall := hvars _ (h.literals c hc _ hl).2
      exact absurd hsmall (by decide)
    apply (returns_cube ht hdistinct (fun l hl => (h.literals c hc l hl).1) hleast).mono
    intro r u htu hr
    exact ⟨ht.mono htu, hr⟩
  have hall := Returns.mapM (fun c r t => t.Sound ∧ t.Denotes r fun σ => c.all (agrees σ))
    (fun c r t u htu hr => ⟨hr.1.mono htu, hr.2.mono hr.1 htu⟩) cs s hcube
  exact hall.mono fun es t _ hes => hes.imp fun _ _ hr => hr.2

theorem any_value_eq {es : List Edge} (h : List.Forall₂ (fun c r => t.Denotes r fun σ =>
    c.all (agrees σ)) cs es) (σ : Assignment) :
    es.any (t.value · σ) = cs.any fun c => c.all (agrees σ) := by
  induction h with
  | nil => rfl
  | cons hr _ ih => rw [List.any_cons, List.any_cons, ih, hr.value_eq]

theorem Divides.returns_disjAll (hs : s.Sound) (hvars : ∀ v, s.Matters e v → v < 2 ^ 31)
    (he : s.Valid e) (h : Divides s e cs) :
    Returns (cs.mapM cube >>= disjAll) s fun r _ => r = e := by
  apply (h.returns_cubes hs hvars).bind
  intro es t hst hes
  have ht := hs.mono hst
  have hvalid : ∀ r ∈ es, t.Valid r := by
    intro r hr
    obtain ⟨c, -, hc⟩ := exists_mem_of_forall₂ hes.flip hr
    exact hc.valid
  apply (Diagram.returns_disjAll ht hvalid).mono
  intro r u htu hr
  have hu := ht.mono htu
  have hsu := le_trans hst htu
  apply hu.eq_of_value_eq hr.valid (he.mono hsu)
  intro σ
  calc
    u.value r σ = es.any (t.value · σ) := congrFun hr.value_eq σ
    _ = cs.any fun c => c.all (agrees σ) := any_value_eq hes σ
    _ = s.value e σ := (h.value σ).symm
    _ = u.value e σ := by rw [hs.value_mono hsu he]

variable {rs : List Request}

/-- Whatever was asked for before, the cubes of an edge whose variables fit signed literals cover it
without overlap, are put together to the same edge, and end with the one that is found alone. -/
theorem after_divides {bits : Nat} (hs : Store.empty? bits = .ok s) (hrs : Orderly rs s)
    (he : (after rs s).Valid e) (hvars : ∀ v, (after rs s).Matters e v → v < 2 ^ 31) :
    ∃ cs, (after rs s).cubes e = .ok cs ∧
      (∀ c ∈ cs, c.Pairwise (·.natAbs < ·.natAbs)) ∧ cs.Pairwise Contradict ∧
      Returns (cs.mapM cube >>= disjAll) (after rs s) (fun r _ => r = e) ∧
      (after rs s).someCube? e = .ok cs.getLast? ∧ (cs = [] ↔ e = .zero) := by
  have hsound := sound_after hs hrs
  obtain ⟨cs, hcs, h⟩ := answers_divides hsound hvars he
  refine ⟨cs, hcs, h.increasing, h.contradictory, h.returns_disjAll hsound hvars he, h.last, ?_⟩
  have hnone := Store.someCube?_eq_none (s := after rs s) (e := e)
  rwa [h.last, Except.ok.injEq, List.getLast?_eq_none_iff] at hnone

theorem exists_after_var : ∃ s e, Store.empty? 1 = .ok s ∧ Orderly [.var 1] s ∧
    (after [.var 1] s).Valid e ∧ ∀ v, (after [.var 1] s).Matters e v → v = 1 := by
  obtain ⟨s, hs⟩ : ∃ s, Store.empty? 1 = .ok s := ⟨_, Store.empty?_eq (by decide)⟩
  have hsound := Store.Sound.empty? hs
  obtain ⟨e, t, ht, -, he⟩ := (succeeds_makeNode hsound Nat.one_ne_zero .zero .one).returns
    (yields_makeVariable hsound 1)
  have hafter : after [.var 1] s = t := by
    have hrun : makeVariable 1 s = .ok e t := ht
    simp only [after, List.foldl_cons, List.foldl_nil, Request.step, Request.perform, hrun]
  refine ⟨s, e, hs, ⟨trivial, trivial⟩, hafter ▸ he.valid, fun v hv => ?_⟩
  rw [hafter] at hv
  refine hv.mem (V := {1}) fun σ τ hστ => ?_
  rw [he.value_eq]
  exact hστ 1 rfl

theorem after_divides_var : ∃ s e cs, Store.empty? 1 = .ok s ∧ Orderly [.var 1] s ∧
    (after [.var 1] s).cubes e = .ok cs ∧ cs.Pairwise Contradict ∧
    Returns (cs.mapM cube >>= disjAll) (after [.var 1] s) fun r _ => r = e := by
  obtain ⟨s, e, hs, hrs, he, hvars⟩ := exists_after_var
  have hsmall : ∀ v, (after [.var 1] s).Matters e v → v < 2 ^ 31 := fun v hv => by
    rw [hvars v hv]
    decide
  obtain ⟨cs, hcs, -, hpairwise, hreturns, -⟩ := after_divides hs hrs he hsmall
  exact ⟨s, e, cs, hs, hrs, hcs, hpairwise, hreturns⟩

theorem literalOf_of_large (hlow : 2 ^ 31 < v) (hhigh : v < 2 ^ 32) :
    literalOf v = (v : Int) - 2 ^ 32 := by
  have hpow : Nat.pow 2 32 = 4294967296 := by simp
  unfold literalOf
  rw [hpow, Int.bmod_def]
  omega

/-- The cube of such a variable is about another one, which is false in it. -/
theorem cubes_of_large (hs : s.Sound) (hlow : 2 ^ 31 < v) (hhigh : v < 2 ^ 32)
    (hn : s.nodes.get? e.index = some ⟨v, .zero, .one⟩) (he : e.isNegated = false) :
    s.cubes e = .ok [[(v : Int) - 2 ^ 32]] := by
  have hi : e.index ≠ 1 := by
    intro hi
    rw [hi, hs.terminal] at hn
    cases hn
  have hliteral := literalOf_of_large hlow hhigh
  have hleast : literalOf v ≠ Edge.leastWord := by
    rw [hliteral, Edge.leastWord]
    omega
  have halong : ∀ d, e.along d = d := by
    intro d
    simp [Edge.along, he]
  have hcubes : Answers (s.cubes e) (· = [[(v : Int) - 2 ^ 32]]) := by
    apply answers_cubes_node hs hn hi hleast
    rw [halong, halong, cubes_one, cubes_zero]
    apply Answers.ok
    apply Answers.ok
    simp [hliteral]
  obtain ⟨_, hcubes, rfl⟩ := hcubes
  exact hcubes

end RegularArithmetic.Diagram

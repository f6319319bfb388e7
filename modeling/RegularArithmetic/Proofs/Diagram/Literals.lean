import RegularArithmetic.Proofs.Diagram.Connectives

/-!
Cubes and conjunctions of the same literals. A cube is read as the conjunction of its literals,
whatever they are, but it is the edge that the conjunction gives only if they are of different
variables: of two literals of one variable, each gets a node of its own, the one in front of the
other.
-/

set_option autoImplicit false

namespace RegularArithmetic.Diagram

open RegularArithmetic.Store (Interner)

variable {s s₀ t : Store} {e low high : Edge} {n : Node} {v : Nat} {σ : Assignment} {l : Int}
  {ls : List Int}

namespace Store

/-- The edges of every node lead to nodes stored before it. In what order the variables come is not
said. -/
structure Backed (s : Store) : Prop where
  shaped : s.nodes.Shaped
  terminal : s.nodes.get? 1 = some .terminal
  valid_select : ∀ i n, i ≠ 1 → s.nodes.get? i = some n → ∀ b, s.Valid (n.select b)
  select_lt : ∀ i n, i ≠ 1 → s.nodes.get? i = some n → ∀ b, (n.select b).index < i

theorem Sound.backed (hs : s.Sound) : s.Backed where
  shaped := hs.shaped
  terminal := hs.terminal
  valid_select _ _ hi hn := hs.valid_select hn hi
  select_lt i n hi hn := (hs.placed i n hi hn).select_lt

def Kept (s t : Store) : Prop := ∀ i n, s.nodes.get? i = some n → t.nodes.get? i = some n

theorem Kept.trans {u : Store} (hst : s.Kept t) (htu : t.Kept u) : s.Kept u :=
  fun i n hn => htu i n (hst i n hn)

theorem Kept.valid (hst : s.Kept t) (he : s.Valid e) : t.Valid e :=
  he.imp fun n hn => hst _ n hn

theorem Backed.eval_node (hs : s.Backed) (hn : s.nodes.get? e.index = some n) (he : e.index ≠ 1) :
    s.eval σ e = s.eval σ (e.along (n.select (σ n.var))) := by
  rw [eval_node_of_lt hn he (hs.select_lt _ n he hn false) (hs.select_lt _ n he hn true)]
  cases σ n.var <;> rfl

theorem Backed.eval_kept (hs : s.Backed) (ht : t.Backed) (hst : s.Kept t) (he : s.Valid e) :
    t.eval σ e = s.eval σ e := by
  apply Valid.induction (motive := fun e => t.eval σ e = s.eval σ e) _ _ e he
  · intro e he
    rw [eval_terminal he, eval_terminal he]
  · intro e n hn hi ih
    rw [hs.eval_node hn hi, ht.eval_node (hst _ n hn) hi]
    apply ih
    · exact valid_along.2 (hs.valid_select _ n hi hn _)
    · rw [Edge.index_along]
      exact hs.select_lt _ n hi hn _

theorem Backed.valid_terminal (hs : s.Backed) (he : e.index = 1) : s.Valid e :=
  ⟨_, he ▸ hs.terminal⟩

/-- The edge leads to an inner node of `t` with this variable, from which one sees these two
edges. All nodes of `s` are still there. -/
structure InFront (s t : Store) (v : Nat) (low high e : Edge) : Prop where
  backed : t.Backed
  kept : s.Kept t
  inner : e.index ≠ 1
  node : ∃ n, t.nodes.get? e.index = some n ∧ n.var = v ∧ e.along n.low = low ∧
    e.along n.high = high

theorem Backed.push {nodes : Interner Node} (hs : s.Backed)
    (happended : s.nodes.Appended n nodes) (hvalid : ∀ b, s.Valid (n.select b)) :
    Backed ⟨nodes, s.results⟩ ∧ s.Kept ⟨nodes, s.results⟩ := by
  have hkept : s.Kept ⟨nodes, s.results⟩ := fun _ _ => happended.get?_of_some
  refine ⟨⟨happended.shaped, hkept 1 _ hs.terminal, ?_, ?_⟩, hkept⟩
  · intro i m hi hm b
    rcases happended.cases hm with ⟨-, rfl⟩ | hm
    · exact hkept.valid (hvalid b)
    · exact hkept.valid (hs.valid_select i m hi hm b)
  · intro i m hi hm b
    rcases happended.cases hm with ⟨rfl, rfl⟩ | hm
    · obtain ⟨m', hm'⟩ := hvalid b
      have hle := (Interner.le_size_of_get? hm').2
      omega
    · exact hs.select_lt i m hi hm b

theorem Backed.exists_internNode (hs : s.Backed) (hv : v ≠ 0) (hne : low ≠ high)
    (hlow : s.Valid low) (hhigh : s.Valid high) :
    ∃ i t, internNode v low high s = .ok (.toNode i) t ∧ t.Backed ∧ s.Kept t ∧ i ≠ 1 ∧
      t.nodes.get? i = some ⟨v, low, high⟩ := by
  rcases Interner.put_cases (t := s.nodes) ⟨v, low, high⟩ hs.shaped with
    ⟨i, hput, hget⟩ | ⟨nodes, hput, happended⟩
  · refine ⟨i, s, by simp [internNode, hne, hput], hs, fun _ _ h => h, ?_, hget⟩
    rintro rfl
    rw [hs.terminal] at hget
    cases hget
    exact hv rfl
  · have hvalid : ∀ b, s.Valid (Node.select ⟨v, low, high⟩ b) := by
      intro b
      cases b
      · exact hlow
      · exact hhigh
    have hpositive := (Interner.le_size_of_get? hs.terminal).2
    obtain ⟨hbacked, hkept⟩ := hs.push happended hvalid
    exact ⟨s.nodes.size + 1, ⟨nodes, s.results⟩, by simp [internNode, hne, hput], hbacked, hkept,
      by omega, happended.get?_last⟩

theorem Backed.exists_makeNode (hs : s.Backed) (hv : v ≠ 0) (hne : low ≠ high)
    (hlow : s.Valid low) (hhigh : s.Valid high) :
    ∃ e t, makeNode v low high s = .ok e t ∧ InFront s t v low high e := by
  by_cases hneg : high.isNegated = true
  · obtain ⟨i, t, hrun, ht, hkept, hi, hget⟩ := hs.exists_internNode hv (mt Edge.neg_inj.1 hne)
      (valid_neg.2 hlow) (valid_neg.2 hhigh)
    have hzero : (Edge.toNode i).index ≠ 0 := (Interner.le_size_of_get? hget).1
    refine ⟨-.toNode i, t, ?_, ht, hkept, ?_, ⟨v, -low, -high⟩, ?_, rfl, ?_, ?_⟩
    · rw [makeNode, if_neg hv, if_pos hneg]
      exact bind_of_ok hrun
    · rwa [Edge.index_neg]
    · rwa [Edge.index_neg]
    · rw [Edge.along_neg hzero, Edge.along_toNode, Edge.neg_neg]
    · rw [Edge.along_neg hzero, Edge.along_toNode, Edge.neg_neg]
  · obtain ⟨i, t, hrun, ht, hkept, hi, hget⟩ := hs.exists_internNode hv hne hlow hhigh
    refine ⟨.toNode i, t, ?_, ht, hkept, hi, _, hget, rfl, Edge.along_toNode i low,
      Edge.along_toNode i high⟩
    rw [makeNode, if_neg hv, if_neg hneg]
    exact hrun

theorem InFront.valid (h : InFront s t v low high e) : t.Valid e :=
  h.node.imp fun _ hn => hn.1

theorem InFront.ne_zero (h : InFront s t v low high e) : e ≠ .zero := by
  rintro rfl
  exact h.inner rfl

theorem InFront.eval_eq (h : InFront s t v low high e) :
    t.eval σ e = if σ v then t.eval σ high else t.eval σ low := by
  obtain ⟨n, hn, rfl, rfl, rfl⟩ := h.node
  rw [h.backed.eval_node hn h.inner]
  cases σ n.var <;> rfl

theorem InFront.placed (h : InFront s t v low high e) (hs : s₀.Sound) (hst : s₀.Kept t)
    (he : s₀.Valid e) : (s₀.Valid low ∧ s₀.Above v low) ∧ (s₀.Valid high ∧ s₀.Above v high) ∧
      ∀ w, s₀.Above w e → w < v := by
  obtain ⟨n, hn, rfl, rfl, rfl⟩ := h.node
  obtain ⟨m, hm⟩ := he
  obtain rfl : m = n := Option.some.inj ((hst _ m hm).symm.trans hn)
  have hplaced := hs.placed _ m h.inner hm
  refine ⟨⟨?_, ?_⟩, ⟨?_, ?_⟩, ?_⟩
  · exact valid_along.2 (hs.valid_select hm h.inner false)
  · exact above_along.2 hplaced.above_low
  · exact valid_along.2 (hs.valid_select hm h.inner true)
  · exact above_along.2 hplaced.above_high
  · intro w hw
    exact hw m hm h.inner

theorem Backed.exists_inFront (hs : s.Backed) (hl : l ≠ 0) (he : s.Valid e) (hz : e ≠ .zero) :
    ∃ r t, (if l < 0 then makeNode l.natAbs e .zero else makeNode l.natAbs .zero e) s = .ok r t ∧
      ∃ low high, InFront s t l.natAbs low high r ∧
        (l < 0 ∧ low = e ∧ high = .zero ∨ 0 < l ∧ low = .zero ∧ high = e) := by
  have hv : l.natAbs ≠ 0 := Int.natAbs_ne_zero.2 hl
  have hzero : s.Valid .zero := hs.valid_terminal rfl
  by_cases hneg : l < 0
  · obtain ⟨r, t, hrun, hfront⟩ := hs.exists_makeNode hv hz he hzero
    exact ⟨r, t, by rw [if_pos hneg, hrun], e, .zero, hfront, .inl ⟨hneg, rfl, rfl⟩⟩
  · obtain ⟨r, t, hrun, hfront⟩ := hs.exists_makeNode hv hz.symm hzero he
    exact ⟨r, t, by rw [if_neg hneg, hrun], .zero, e, hfront, .inr ⟨by omega, rfl, rfl⟩⟩

/-- What the literals leave when each gets a node in front of those before it, begun in `s`: the
edge is read as their conjunction, and it is one of `s` only if the variables went down all the
way. -/
structure Stacked (s t : Store) (ls : List Int) (e : Edge) : Prop where
  backed : t.Backed
  kept : s.Kept t
  valid : t.Valid e
  ne_zero : e ≠ .zero
  evaluates : t.Evaluates e fun σ => ls.all (agrees σ)
  descending : s.Valid e → ls.Pairwise (·.natAbs > ·.natAbs)
  behind : s.Valid e → ∀ v, s.Above v e → ∀ l ∈ ls, v < l.natAbs

theorem Stacked.nil (hs : s.Sound) : Stacked s s [] .one where
  backed := hs.backed
  kept _ _ h := h
  valid := hs.valid_one
  ne_zero := Edge.zero_ne_one.symm
  evaluates _ := eval_terminal rfl
  descending _ := .nil
  behind _ _ _ _ hl := absurd hl List.not_mem_nil

/-- One more literal. -/
theorem Stacked.literal (hs : s.Sound) (h : Stacked s t ls e) (hl : l ≠ 0) :
    ∃ r u, (if l < 0 then makeNode l.natAbs e .zero else makeNode l.natAbs .zero e) t = .ok r u ∧
      Stacked s u (ls ++ [l]) r := by
  obtain ⟨r, u, hrun, low, high, hfront, hsides⟩ := h.backed.exists_inFront hl h.valid h.ne_zero
  have hplaced : s.Valid r → s.Valid e ∧ s.Above l.natAbs e ∧ ∀ w, s.Above w r → w < l.natAbs := by
    intro hr
    obtain ⟨hlow, hhigh, hbelow⟩ := hfront.placed hs (h.kept.trans hfront.kept) hr
    rcases hsides with ⟨-, rfl, rfl⟩ | ⟨-, rfl, rfl⟩
    · exact ⟨hlow.1, hlow.2, hbelow⟩
    · exact ⟨hhigh.1, hhigh.2, hbelow⟩
  refine ⟨r, u, hrun, hfront.backed, h.kept.trans hfront.kept, hfront.valid, hfront.ne_zero, ?_, ?_,
    ?_⟩
  · intro σ
    have hkept : u.eval σ e = .ok (ls.all (agrees σ)) :=
      (h.backed.eval_kept hfront.backed hfront.kept h.valid).trans (h.evaluates σ)
    have hfalse : u.eval σ .zero = .ok false := eval_terminal rfl
    dsimp only
    rw [hfront.eval_eq, List.all_append, List.all_cons, List.all_nil, Bool.and_true]
    rcases hsides with ⟨hneg, rfl, rfl⟩ | ⟨hpos, rfl, rfl⟩
    · rw [hkept, hfalse, agrees, decide_eq_false (by omega : ¬0 < l)]
      cases σ l.natAbs <;> simp
    · rw [hkept, hfalse, agrees, decide_eq_true hpos]
      cases σ l.natAbs <;> simp
  · intro hr
    obtain ⟨he, habove, -⟩ := hplaced hr
    apply List.pairwise_append.2
    refine ⟨h.descending he, List.pairwise_singleton _ _, ?_⟩
    intro k hk l' hl'
    rw [List.mem_singleton.1 hl']
    exact h.behind he _ habove k hk
  · intro hr w hw k hk
    obtain ⟨he, habove, hbelow⟩ := hplaced hr
    rcases List.mem_append.1 hk with hk | hk
    · exact (hbelow w hw).trans (h.behind he _ habove k hk)
    · rw [List.mem_singleton.1 hk]
      exact hbelow w hw

theorem Sound.exists_stacked (hs : s.Sound) (ls : List Int) (hne : ∀ l ∈ ls, l ≠ 0) :
    ∃ e t, ls.foldlM (fun e l =>
      if l < 0 then makeNode l.natAbs e .zero else makeNode l.natAbs .zero e) .one s = .ok e t ∧
        Stacked s t ls e := by
  induction ls using List.reverseRecOn with
  | nil => exact ⟨.one, s, rfl, .nil hs⟩
  | append_singleton ls l ih =>
    obtain ⟨e, t, hrun, h⟩ := ih fun l' hl' => hne l' (by simp [hl'])
    obtain ⟨r, u, hlast, hr⟩ := h.literal hs (hne l (by simp))
    refine ⟨r, u, ?_, hr⟩
    rw [List.foldlM_append, bind_of_ok hrun, List.foldlM_cons, bind_of_ok hlast]
    rfl

end Store

/-- A cube is read as the conjunction of its literals. In the store that it was made in it is an old
edge only if the literals are of different variables. -/
theorem exists_cube (hs : s.Sound) (hne : ∀ l ∈ ls, l ≠ 0)
    (hrange : 1 < ls.length → Edge.leastWord ∉ ls) :
    ∃ e t, cube ls s = .ok e t ∧ t.Evaluates e (fun σ => ls.all (agrees σ)) ∧
      (s.Valid e → (ls.map Int.natAbs).Nodup) := by
  obtain ⟨e, t, hrun, h⟩ :=
    hs.exists_stacked (descending ls) fun l hl => hne l (mem_descending.1 hl)
  refine ⟨e, t, ?_, ?_, ?_⟩
  · rw [cube, if_neg fun hover => hrange hover.1 hover.2]
    exact hrun
  · intro σ
    exact (h.evaluates σ).trans (congrArg Except.ok (descending_perm ls).all_eq)
  · intro he
    apply ((descending_perm ls).map _).nodup_iff.1
    apply List.pairwise_map.2
    exact (h.descending he).imp fun hlt => Nat.ne_of_gt hlt

/-- The variable of a literal, negated if the literal is. -/
def makeLiteral (l : Int) : M Edge := do
  let e ← makeVariable l.natAbs
  return if l < 0 then -e else e

theorem returns_makeLiteral (hs : s.Sound) (hl : l ≠ 0) :
    Returns (makeLiteral l) s fun e t => t.Denotes e (agrees · l) := by
  unfold makeLiteral
  apply ((succeeds_makeNode hs (Int.natAbs_ne_zero.2 hl) .zero .one).returns
    (yields_makeVariable hs l.natAbs)).bind
  intro e t hst he
  apply Returns.pure
  by_cases hneg : l < 0
  · rw [if_pos hneg]
    apply (he.neg (hs.mono hst)).congr
    intro σ
    rw [agrees, decide_eq_false (by omega : ¬0 < l)]
    cases σ l.natAbs <;> rfl
  · rw [if_neg hneg]
    apply he.congr
    intro σ
    rw [agrees, decide_eq_true (by omega : 0 < l)]
    cases σ l.natAbs <;> rfl

theorem returns_conjAll_literals (hs : s.Sound) (hne : ∀ l ∈ ls, l ≠ 0) :
    Returns (do conjAll (← ls.mapM makeLiteral)) s fun e t =>
      t.Denotes e fun σ => ls.all (agrees σ) := by
  let Literal (l : Int) (e : Edge) (t : Store) : Prop := t.Sound ∧ t.Denotes e (agrees · l)
  have hmono : ∀ l e t u, t ≤ u → Literal l e t → Literal l e u :=
    fun l e t u htu ⟨ht, he⟩ => ⟨ht.mono htu, he.mono ht htu⟩
  apply (Returns.mapM Literal hmono ls s _).bind
  · intro es t hst hes
    have hvalue : ∀ σ, es.all (t.value · σ) = ls.all (agrees σ) := by
      intro σ
      clear hne
      induction hes with
      | nil => rfl
      | cons he _ ih => rw [List.all_cons, List.all_cons, he.2.value_eq, ih]
    apply (returns_conjAll (hs.mono hst) _).mono
    · intro r u _ hr
      exact hr.congr hvalue
    · intro e he
      obtain ⟨l, -, -, hdenotes⟩ := exists_mem_of_forall₂ hes.flip he
      exact hdenotes.valid
  · intro l hl t hst
    apply (returns_makeLiteral (hs.mono hst) (hne l hl)).mono
    intro e u htu he
    exact ⟨(hs.mono hst).mono htu, he⟩

/-- When literals have been conjoined one by one, their cube is read as the conjunction as well. It
is the same edge exactly if the literals are of different variables. -/
theorem returns_cube_eq_iff (hs : s.Sound) (hne : ∀ l ∈ ls, l ≠ 0)
    (hrange : 1 < ls.length → Edge.leastWord ∉ ls) :
    Returns (do conjAll (← ls.mapM makeLiteral)) s fun e t => ∃ r u, cube ls t = .ok r u ∧
      u.Evaluates r (fun σ => ls.all (agrees σ)) ∧ (r = e ↔ (ls.map Int.natAbs).Nodup) := by
  apply (returns_conjAll_literals hs hne).mono
  intro e t hst he
  have ht := hs.mono hst
  obtain ⟨r, u, hrun, hevaluates, hdistinct⟩ := exists_cube ht hne hrange
  refine ⟨r, u, hrun, hevaluates, ?_, ?_⟩
  · rintro rfl
    exact hdistinct he.valid
  · intro hnodup
    obtain ⟨htu, hr⟩ := (yields_cube ht hnodup hne).of_ok hrun
    have he' := he.mono ht htu
    apply (ht.mono htu).eq_of_value_eq hr.valid he'.valid
    intro σ
    rw [hr.value_eq, he'.value_eq]

/-- Whatever was asked for before. -/
theorem after_cube_eq_iff {bits : Nat} {rs : List Request} (hs : Store.empty? bits = .ok s)
    (hrs : Orderly rs s) (hne : ∀ l ∈ ls, l ≠ 0) (hrange : 1 < ls.length → Edge.leastWord ∉ ls) :
    Returns (do conjAll (← ls.mapM makeLiteral)) (after rs s) fun e t => ∃ r u,
      cube ls t = .ok r u ∧ u.Evaluates r (fun σ => ls.all (agrees σ)) ∧
        (r = e ↔ (ls.map Int.natAbs).Nodup) :=
  returns_cube_eq_iff (sound_after hs hrs) hne hrange

/-- One literal twice. -/
theorem after_cube_eq_iff_twice : ∃ s, Store.empty? 1 = .ok s ∧ Orderly [.var 1] s ∧
    Returns (do conjAll (← [1, 1].mapM makeLiteral)) (after [.var 1] s) fun e t => ∃ r u,
      cube [1, 1] t = .ok r u ∧ u.Evaluates r (fun σ => [1, 1].all (agrees σ)) ∧ r ≠ e := by
  have hs : Store.empty? 1 = _ := Store.empty?_eq (by decide)
  have hrs : ∀ s, Orderly [.var 1] s := fun _ => ⟨trivial, trivial⟩
  refine ⟨_, hs, hrs _, (after_cube_eq_iff hs (hrs _) (by decide) fun _ => by decide).mono ?_⟩
  rintro e t - ⟨r, u, hrun, hr, hiff⟩
  exact ⟨r, u, hrun, hr, fun heq => absurd (hiff.1 heq) (by decide)⟩

-- The conjunction is the edge of the variable, the cube another one.
example : EStateM.run' (do
    let e ← conjAll (← [1, 1].mapM makeLiteral)
    return (e, ← cube [1, 1]) : M (Edge × Edge)) default = some (⟨2⟩, ⟨3⟩) := by cbv

end RegularArithmetic.Diagram

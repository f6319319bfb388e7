import RegularArithmetic.Diagram.Calls
import RegularArithmetic.Proofs.Diagram.Requests
import RegularArithmetic.Proofs.Diagram.Totality

/-!
If-then-else ends, call by call. A choice is handed on at most twice before it is settled or split,
and a split takes weight off, so calls are not nested deeper than three for each unit of weight.
No call meets a node that is missing, a condition without a variable or a variable in the wrong
place, and the result is the one that the choice has.
-/

set_option autoImplicit false

namespace RegularArithmetic.Diagram

variable {s : Store} {f g h : Edge}

theorem Store.node_neg (s : Store) (e : Edge) : s.node (-e) = s.node e := by
  rw [Store.node, Store.node, Edge.index_neg]

theorem Store.Valid.exists_node {e : Edge} (he : s.Valid e) : ∃ n, s.node e = .ok n := by
  obtain ⟨n, hn⟩ := he
  exact ⟨n, Store.node_eq hn⟩

theorem Edge.ne_neg {e : Edge} (h : e.index ≠ 0) : e ≠ -e := by
  intro heq
  have hsign := Edge.isNegated_neg h
  rw [← heq] at hsign
  cases e.isNegated <;> simp at hsign

namespace Triple

variable {t t' : Triple}

/-- No branch repeats the condition or its opposite. -/
structure Bare (t : Triple) : Prop where
  g_ne : t.g ≠ t.f
  h_ne : t.h ≠ t.f
  g_ne_neg : t.g ≠ -t.f
  h_ne_neg : t.h ≠ -t.f

theorem Bare.absorb_eq (hbare : t.Bare) : t.absorb = t := by
  obtain ⟨f, g, h⟩ := t
  obtain ⟨h₁, h₂, h₃, h₄⟩ := hbare
  simp only [absorb, if_neg h₁, if_neg h₂, if_neg h₃, if_neg h₄]

attribute [local grind =] Edge.neg_neg Edge.neg_one Edge.neg_zero Edge.neg_inj

theorem bare_absorb (hnone : t.settled? = none) (hnone' : t.absorb.settled? = none) :
    t.absorb.Bare := by
  obtain ⟨f, g, h⟩ := t
  have hne := Edge.zero_ne_one
  simp only [settled?, absorb] at hnone hnone' ⊢
  constructor <;> grind

theorem settled?_eq_none (hbare : t.Bare) (hf : t.f ≠ .one ∧ t.f ≠ .zero) (hne : t.g ≠ t.h)
    (hid : ¬(t.g = .one ∧ t.h = .zero)) (hneg : ¬(t.g = .zero ∧ t.h = .one)) :
    t.settled? = none := by
  obtain ⟨f, g, h⟩ := t
  obtain ⟨h₁, h₂, h₃, h₄⟩ := hbare
  simp_all [settled?, ite_eq_iff]

theorem orient_eq {i j k : Node} (hi : s.node f = .ok i) (hj : s.node g = .ok j)
    (hk : s.node h = .ok k) : orient s ⟨f, g, h⟩ = .ok (
      if g = .one ∧ k.var < i.var then ⟨h, .one, f⟩
      else if h = .zero ∧ j.var < i.var then ⟨g, f, .zero⟩
      else if h = .one ∧ j.var < i.var then ⟨-g, -f, .one⟩
      else if g = .zero ∧ k.var < i.var then ⟨-h, .zero, -f⟩
      else if g = -h ∧ j.var < i.var then ⟨g, f, -f⟩
      else ⟨f, g, h⟩) := by
  simp only [orient, hi, hj, hk]
  rfl

theorem orient_orient (hs : s.Sound) (ht : s.ValidTriple t) (hnone : t.settled? = none)
    (hbare : t.Bare) (horient : t.orient s = .ok t') (hne : t' ≠ t) :
    t'.settled? = none ∧ t'.Bare ∧ t'.orient s = .ok t' := by
  have hone : s.node .one = .ok .terminal := Store.node_eq hs.terminal
  have hzero : s.node .zero = .ok .terminal := Store.node_eq hs.terminal
  obtain ⟨i, hi⟩ := ht.f.exists_node
  obtain ⟨j, hj⟩ := ht.g.exists_node
  obtain ⟨k, hk⟩ := ht.h.exists_node
  have hself := Edge.ne_neg ht.f.index_ne_zero
  obtain ⟨hfone, hfzero, hgh, hid, hneg⟩ := ne_of_settled? hnone
  obtain ⟨f, g, h⟩ := t
  obtain ⟨h₁, h₂, h₃, h₄⟩ := hbare
  dsimp only at *
  rw [orient_eq hi hj hk] at horient
  have horient := Except.ok.inj horient
  have hdiffer := Edge.zero_ne_one
  split_ifs at horient with h₁ h₂ h₃ h₄ h₅
  · subst horient
    have hbare : Bare ⟨h, .one, f⟩ := by constructor <;> grind
    refine ⟨settled?_eq_none hbare (by grind) (by grind) (by grind) (by grind), hbare, ?_⟩
    rw [orient_eq hk hone hi]
    grind
  · subst horient
    have hbare : Bare ⟨g, f, .zero⟩ := by constructor <;> grind
    refine ⟨settled?_eq_none hbare (by grind) (by grind) (by grind) (by grind), hbare, ?_⟩
    rw [orient_eq hj hi hzero]
    grind
  · subst horient
    have hbare : Bare ⟨-g, -f, .one⟩ := by constructor <;> grind
    refine ⟨settled?_eq_none hbare (by grind) (by grind) (by grind) (by grind), hbare, ?_⟩
    rw [orient_eq ((s.node_neg g).trans hj) ((s.node_neg f).trans hi) hone]
    grind
  · subst horient
    have hbare : Bare ⟨-h, .zero, -f⟩ := by constructor <;> grind
    refine ⟨settled?_eq_none hbare (by grind) (by grind) (by grind) (by grind), hbare, ?_⟩
    rw [orient_eq ((s.node_neg h).trans hk) hzero ((s.node_neg f).trans hi)]
    grind
  · subst horient
    have hbare : Bare ⟨g, f, -f⟩ := by constructor <;> grind
    refine ⟨settled?_eq_none hbare (by grind) (by grind) (by grind) (by grind), hbare, ?_⟩
    rw [orient_eq hj hi ((s.node_neg f).trans hi)]
    grind
  · exact absurd horient.symm hne

theorem rule_eq {i j k : Node} (hnone : (⟨f, g, h⟩ : Triple).settled? = none)
    (hbare : Bare ⟨f, g, h⟩) (hi : s.node f = .ok i) (hj : s.node g = .ok j)
    (hk : s.node h = .ok k) (h0 : i.var ≠ 0) : rule s ⟨f, g, h⟩ = .ok (
      if g = .one ∧ k.var < i.var then .again ⟨h, .one, f⟩
      else if h = .zero ∧ j.var < i.var then .again ⟨g, f, .zero⟩
      else if h = .one ∧ j.var < i.var then .again ⟨-g, -f, .one⟩
      else if g = .zero ∧ k.var < i.var then .again ⟨-h, .zero, -f⟩
      else if g = -h ∧ j.var < i.var then .again ⟨g, f, -f⟩
      else .halved (regular ⟨f, g, h⟩).1 (regular ⟨f, g, h⟩).2) := by
  obtain ⟨h₁, h₂, h₃, h₄⟩ := hbare
  rw [rule, hnone]
  simp only [if_neg h₁, if_neg h₂, if_neg h₃, if_neg h₄, hi, hj, hk, bind, Except.bind, if_neg h0]
  rfl

theorem rule_of_orient (hs : s.Sound) (ht : s.ValidTriple t) (hnone : t.settled? = none)
    (hbare : t.Bare) (horient : t.orient s = .ok t') :
    t.rule s = .ok (if t' = t then .halved t.regular.1 t.regular.2 else .again t') := by
  obtain ⟨hone, hzero, -⟩ := ne_of_settled? hnone
  have hinner : t.f.index ≠ 1 := fun hi => (Edge.index_eq_one.1 hi).elim hone hzero
  obtain ⟨i, hi⟩ := ht.f.exists_node
  obtain ⟨j, hj⟩ := ht.g.exists_node
  obtain ⟨k, hk⟩ := ht.h.exists_node
  have h0 : i.var ≠ 0 := (hs.placed _ i hinner (Store.get?_of_node hi)).var_ne_zero
  obtain ⟨f, g, h⟩ := t
  rw [orient_eq hi hj hk] at horient
  obtain rfl := Except.ok.inj horient
  rw [rule_eq hnone hbare hi hj hk h0]
  -- The other form has another condition, since no branch repeats the one that was there.
  obtain ⟨hg, hh, hgneg, hhneg⟩ := hbare
  dsimp only at hg hh hgneg hhneg
  split_ifs <;> grind

theorem rule_cases (hs : s.Sound) (ht : s.ValidTriple t) :
    (∃ e, t.settled? = some e ∧ t.rule s = .ok (.settled e)) ∨
    (t.settled? = none ∧ ¬t.Bare ∧ t.rule s = .ok (.again t.absorb)) ∨
    (t.settled? = none ∧ t.Bare ∧ ∃ t', t.orient s = .ok t' ∧ t' ≠ t ∧
      t.rule s = .ok (.again t')) ∨
    t.settled? = none ∧ t.Bare ∧ t.orient s = .ok t ∧
      t.rule s = .ok (.halved t.regular.1 t.regular.2) := by
  cases hsettled : t.settled? with
  | some e => exact .inl ⟨e, rfl, by rw [rule, hsettled]⟩
  | none =>
    apply Or.inr
    by_cases hbare : t.Bare
    · apply Or.inr
      obtain ⟨t', horient, -⟩ := exists_orient ht hsettled
      have hrule := rule_of_orient hs ht hsettled hbare horient
      by_cases heq : t' = t
      · rw [if_pos heq] at hrule
        exact .inr ⟨rfl, hbare, heq ▸ horient, hrule⟩
      · rw [if_neg heq] at hrule
        exact .inl ⟨rfl, hbare, t', horient, heq, hrule⟩
    · refine .inl ⟨rfl, hbare, ?_⟩
      obtain ⟨f, g, h⟩ := t
      rw [rule, hsettled]
      simp only [absorb]
      grind [Bare]

instance : Decidable t.Bare :=
  decidable_of_iff (t.g ≠ t.f ∧ t.h ≠ t.f ∧ t.g ≠ -t.f ∧ t.h ≠ -t.f)
    ⟨fun ⟨h₁, h₂, h₃, h₄⟩ => ⟨h₁, h₂, h₃, h₄⟩, fun ⟨h₁, h₂, h₃, h₄⟩ => ⟨h₁, h₂, h₃, h₄⟩⟩

/-- How often a choice is still handed on before it is settled or split. -/
def rank (s : Store) (t : Triple) : Nat :=
  if t.settled?.isSome then 0
  else if ¬t.Bare then 2
  else if t.orient s = .ok t then 0 else 1

theorem rank_le (s : Store) (t : Triple) : t.rank s ≤ 2 := by
  simp only [rank]
  split_ifs <;> omega

theorem rank_lt_of_again (hs : s.Sound) (ht : s.ValidTriple t)
    (hrule : t.rule s = .ok (.again t')) : t'.rank s < t.rank s := by
  rcases rule_cases hs ht with ⟨e, -, h⟩ | ⟨hnone, hbare, h⟩ | ⟨hnone, hbare, t₁, horient, hne, h⟩ |
    ⟨-, -, -, h⟩
  · simp [h] at hrule
  · obtain rfl : t.absorb = t' := by simpa [h] using hrule
    have hrank : t.rank s = 2 := by simp [rank, hnone, hbare]
    rw [hrank, rank]
    split_ifs with hsettled hbare'
    · omega
    · omega
    · omega
    · exact absurd (bare_absorb hnone (by simpa using hsettled)) hbare'
  · obtain rfl : t₁ = t' := by simpa [h] using hrule
    obtain ⟨hnone', hbare', horient'⟩ := orient_orient hs ht hnone hbare horient hne
    have hrank : t.rank s = 1 := by simp [rank, hnone, hbare, horient, hne]
    have hrank' : t₁.rank s = 0 := by simp [rank, hnone', hbare', horient']
    omega
  · simp [h] at hrule

end Triple

section

variable {t t' : Triple} {e : Edge} {depth : Nat}

theorem chooseWithin_of_settled (s : Store) (h : t.settled? = some e) :
    chooseWithin (depth + 1) t s = .ok e s := by
  rw [chooseWithin, h]
  rfl

theorem chooseWithin_of_absorbed (s : Store) (hnone : t.settled? = none)
    (h : t.absorb.settled? = some e) : chooseWithin (depth + 1) t s = .ok e s := by
  rw [chooseWithin, hnone]
  dsimp only
  rw [h]
  rfl

theorem chooseWithin_of_oriented (hnone : t.settled? = none) (hnone' : t.absorb.settled? = none)
    (horient : t.absorb.orient s = .ok t') : chooseWithin (depth + 1) t s =
      (recollect depth t'.regular.1 >>= fun e =>
        pure (if t'.regular.2 = true then -e else e)) s := by
  rw [chooseWithin, hnone]
  dsimp only
  rw [hnone']
  refine (bind_of_ok (ask_of_ok (q := fun s => t.absorb.orient s) horient)).trans ?_
  rw [recollect, bind_assoc]
  refine congrFun (congrArg (remembered t'.regular.1 >>= ·) (funext fun found => ?_)) s
  cases found with
  | some e => rfl
  | none => simp only [bind_assoc, pure_bind]

theorem chooseWithin_of_again (hs : s.Sound) (ht : s.ValidTriple t)
    (hrule : t.rule s = .ok (.again t')) :
    s.ValidTriple t' ∧ t'.weight ≤ t.weight ∧
      ∀ depth, chooseWithin (depth + 1) t s = chooseWithin (depth + 1) t' s := by
  rcases Triple.rule_cases hs ht with ⟨e, -, h⟩ | ⟨hnone, -, h⟩ |
    ⟨hnone, hbare, t₁, horient, hne, h⟩ | ⟨-, -, -, h⟩
  · simp [h] at hrule
  · obtain rfl : t.absorb = t' := by simpa [h] using hrule
    have hvalid := Triple.validTriple_absorb hs ht
    refine ⟨hvalid, Triple.weight_le_of_nodes fun i => Triple.nodes_absorb, fun depth => ?_⟩
    cases hsettled : t.absorb.settled? with
    | some e => rw [chooseWithin_of_absorbed s hnone hsettled, chooseWithin_of_settled s hsettled]
    | none =>
      obtain ⟨t₂, horient, -⟩ := Triple.exists_orient hvalid hsettled
      have habsorb := (Triple.bare_absorb hnone hsettled).absorb_eq
      rw [chooseWithin_of_oriented hnone hsettled horient,
        chooseWithin_of_oriented hsettled (by rw [habsorb, hsettled]) (by rw [habsorb, horient])]
  · obtain rfl : t₁ = t' := by simpa [h] using hrule
    obtain ⟨t₂, horient₂, -, hnodes⟩ := Triple.exists_orient ht hnone
    obtain rfl : t₁ = t₂ := Except.ok.inj (horient.symm.trans horient₂)
    obtain ⟨hnone', hbare', horient'⟩ := Triple.orient_orient hs ht hnone hbare horient hne
    refine ⟨(Triple.gives_orient hs ht t₁ horient).1, Triple.weight_le_of_nodes hnodes,
      fun depth => ?_⟩
    rw [chooseWithin_of_oriented hnone (by rw [hbare.absorb_eq, hnone])
        (by rw [hbare.absorb_eq, horient]),
      chooseWithin_of_oriented hnone' (by rw [hbare'.absorb_eq, hnone'])
        (by rw [hbare'.absorb_eq, horient'])]
  · simp [h] at hrule

theorem callWithin_of_settled (hrule : t.rule s = .ok (.settled e)) :
    callWithin (depth + 1) t s = .ok e s := by
  rw [callWithin, bind_of_ok (ask_of_ok hrule)]
  rfl

theorem callWithin_of_again (hrule : t.rule s = .ok (.again t')) :
    callWithin (depth + 1) t s = callWithin depth t' s := by
  rw [callWithin, bind_of_ok (ask_of_ok hrule)]

theorem callWithin_of_halved {negated : Bool} (hrule : t.rule s = .ok (.halved t' negated)) :
    callWithin (depth + 1) t s =
      (recallOr (callWithin depth) t' >>= fun e => pure (if negated then -e else e)) s := by
  rw [callWithin, bind_of_ok (ask_of_ok hrule)]

theorem bind_congr_of_eq {α β : Type} {x x' : M α} {y y' : α → M β} (hx : x s = x' s)
    (hy : ∀ a t, x' s = .ok a t → y a t = y' a t) : (x >>= y) s = (x' >>= y') s := by
  cases hrun : x' s with
  | ok a t => rw [bind_of_ok (hx.trans hrun), bind_of_ok hrun, hy a t hrun]
  | error a t => rw [bind_of_error (hx.trans hrun), bind_of_error hrun]

theorem recallOr_congr {choose choose' : Triple → M Edge} (hs : s.Sound) (ht : s.ValidTriple t)
    (hf : t.f.index ≠ 1)
    (hchoose : ∀ u half, s ≤ u → u.ValidTriple half → half.weight < t.weight →
      choose half u = choose' half u)
    (hyields : ∀ u half, s ≤ u → u.ValidTriple half →
      Yields (choose' half) u fun _ _ => True) :
    recallOr choose t s = recallOr choose' t s := by
  obtain ⟨u, hfind, -, hsu⟩ := remembered_eq hs t
  have hu := hs.mono hsu
  apply bind_congr_of_eq rfl
  intro found u' hfound
  obtain ⟨rfl, rfl⟩ : s.results.peek t = found ∧ u = u' := by simpa [hfind] using hfound
  cases s.results.peek t with
  | some e => rfl
  | none =>
    obtain ⟨m, low, high, hh, hsplit⟩ := hu.exists_halves (ht.mono hsu) hf
    refine bind_congr_of_eq ?_ fun _ _ _ => rfl
    rw [hsplit choose u fun _ => rfl, hsplit choose' u fun _ => rfl]
    apply bind_congr_of_eq (hchoose u low hsu hh.valid_low hh.low_lt)
    intro a w hlow
    have huw := ((hyields u low hsu hh.valid_low).of_ok hlow).1
    have hhigh := hh.valid_high.mono huw
    exact bind_congr_of_eq (hchoose w high (le_trans hsu huw) hhigh hh.high_lt) fun _ _ _ => rfl

/-- Calls that are nested deeply enough make the choice. What they need is three calls for each
unit of weight, since a choice is handed on at most twice before its weight goes down. -/
theorem callWithin_eq (depth : Nat) : ∀ s : Store, s.Sound → ∀ t, s.ValidTriple t →
    3 * t.weight + t.rank s < depth → ∀ deep, t.weight < deep →
      callWithin depth t s = chooseWithin deep t s := by
  induction depth with
  | zero => exact fun _ _ _ _ h => absurd h (Nat.not_lt_zero _)
  | succ depth ih =>
    intro s hs t ht hdepth deep hdeep
    obtain ⟨deep, rfl⟩ : ∃ d, deep = d + 1 := ⟨deep - 1, by omega⟩
    have hagain : ∀ t', t.rule s = .ok (.again t') →
        callWithin (depth + 1) t s = chooseWithin (deep + 1) t s := by
      intro t' hrule
      obtain ⟨ht', hweight, hchoose⟩ := chooseWithin_of_again hs ht hrule
      have hrank := Triple.rank_lt_of_again hs ht hrule
      rw [callWithin_of_again hrule, hchoose]
      exact ih s hs t' ht' (by omega) (deep + 1) (by omega)
    rcases Triple.rule_cases hs ht with ⟨e, hsettled, hrule⟩ | ⟨-, -, hrule⟩ |
      ⟨-, -, t', -, -, hrule⟩ | ⟨hnone, hbare, horient, hrule⟩
    · rw [callWithin_of_settled hrule, chooseWithin_of_settled s hsettled]
    · exact hagain _ hrule
    · exact hagain t' hrule
    · have habsorb := hbare.absorb_eq
      obtain ⟨t', horient', hf, -⟩ := Triple.exists_orient ht hnone
      obtain rfl : t = t' := Except.ok.inj (horient.symm.trans horient')
      rw [callWithin_of_halved hrule,
        chooseWithin_of_oriented hnone (by rw [habsorb, hnone]) (by rw [habsorb, horient])]
      have hweight : t.regular.1.weight = t.weight := by
        rw [Triple.weight, Triple.nodes_regular]
        rfl
      refine bind_congr_of_eq ?_ fun _ _ _ => rfl
      refine recallOr_congr hs (Triple.validTriple_regular ht) (Triple.index_regular hf) ?_ ?_
      · intro u half hsu hhalf hlt
        have hrank := half.rank_le u
        exact ih u (hs.mono hsu) half hhalf (by omega) deep (by omega)
      · intro u half hsu hhalf
        exact (yields_chooseWithin deep u (hs.mono hsu) half hhalf).mono fun _ _ _ _ => trivial

end

/-- If-then-else ends and meets no fault: its calls are not nested deeper than three for each of
the nodes up to those of the three edges. -/
theorem after_ite_ends {bits depth : Nat} {rs : List Request} (hs : Store.empty? bits = .ok s)
    (hrs : Orderly rs s) (hf : (after rs s).Valid f) (hg : (after rs s).Valid g)
    (hh : (after rs s).Valid h) (hdepth : 3 * (f.index + g.index + h.index + 1) ≤ depth) :
    ∃ e t, callWithin depth ⟨f, g, h⟩ (after rs s) = .ok e t ∧
      ite f g h (after rs s) = .ok e t := by
  have hsound := sound_after hs hrs
  have hweight := Triple.weight_le ⟨f, g, h⟩
  have hrank := Triple.rank_le (after rs s) ⟨f, g, h⟩
  have heq := callWithin_eq depth (after rs s) hsound ⟨f, g, h⟩ ⟨hf, hg, hh⟩ (by
    simp only at hweight
    omega) _ (Nat.lt_succ_of_le hweight)
  obtain ⟨e, t, hrun⟩ := (returns_ite hsound hf.denotes hg.denotes hh.denotes).succeeds
  exact ⟨e, t, heq.trans hrun, hrun⟩

/-- The condition of a conjunction tests a later variable than its first branch, so that the two
change places first. -/
theorem after_ite_ends_conj : ∃ s, Store.empty? 1 = .ok s ∧
    Orderly [.var 2, .node 1 .zero ⟨2⟩] s ∧
    ∃ e t, callWithin 21 ⟨⟨2⟩, ⟨3⟩, .zero⟩ (after [.var 2, .node 1 .zero ⟨2⟩] s) = .ok e t ∧
      ite ⟨2⟩ ⟨3⟩ .zero (after [.var 2, .node 1 .zero ⟨2⟩] s) = .ok e t := by
  have hs : Store.empty? 1 = _ := Store.empty?_eq (by decide)
  obtain ⟨hrs, hf, hg, hzero⟩ := orderly_pair hs
  exact ⟨_, hs, hrs, after_ite_ends hs hrs hf hg hzero (by decide)⟩

end RegularArithmetic.Diagram

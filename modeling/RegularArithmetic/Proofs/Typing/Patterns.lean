import Mathlib.Order.Bounds.Basic
import RegularArithmetic.Proofs.Typing.Declarations

/-!
What the arguments of a call ask of its target together. Patterns are ordered by what they ask, and
unifying two of them gives the least pattern that asks for both. So it does not matter in which
order the arguments are unified, nor in which order declarations with different names are listed,
and the arguments disagree exactly if two of them do.
-/

set_option autoImplicit false

namespace RegularArithmetic

theorem toOption_eq_of_ok_iff {ε ε' α : Type} {x : Except ε α} {y : Except ε' α}
    (h : ∀ a, x = .ok a ↔ y = .ok a) : x.toOption = y.toOption := by
  cases x with
  | ok a => rw [(h a).1 rfl]; rfl
  | error e =>
    cases y with
    | ok a => exact absurd ((h a).2 rfl) nofun
    | error e' => rfl

theorem bind_pure_eq_ok_iff {ε α β : Type} {x : Except ε α} {f : α → β} {b : β} :
    (do return f (← x)) = .ok b ↔ ∃ a, x = .ok a ∧ b = f a := by
  constructor
  · intro h
    cases x with
    | error e => cases h
    | ok a => exact ⟨a, rfl, (Except.ok.inj h).symm⟩
  · rintro ⟨a, rfl, rfl⟩
    rfl

namespace Pattern

/-- What the one place gives, the other gives as well. -/
def Within (x y : Option Expr) : Prop := ∀ e ∈ x, e ∈ y

/-- The places do not give different arguments. -/
def Agree (x y : Option Expr) : Prop := ∀ e ∈ x, ∀ f ∈ y, e = f

section

variable {x y u : Option Expr}

theorem Within.trans (h : Within x y) (h' : Within y u) : Within x u := fun e he => h' e (h e he)

theorem Within.antisymm (h : Within x y) (h' : Within y x) : x = y :=
  Option.ext fun e => ⟨h e, h' e⟩

theorem within_or_left : Within x (x.or y) := fun _ he => Option.or_eq_some_iff.2 (.inl he)

theorem Agree.within_or_right (h : Agree x y) : Within y (x.or y) := by
  intro e he
  cases x with
  | none => exact he
  | some a => exact congrArg some (h a rfl e he)

theorem Within.or (hx : Within x u) (hy : Within y u) : Within (x.or y) u := fun e he =>
  (Option.or_eq_some_iff.1 he).elim (hx e) fun h => hy e h.2

theorem Within.agree (hx : Within x u) (hy : Within y u) : Agree x y := fun e he f hf =>
  Option.some_inj.1 ((hx e he).symm.trans (hy f hf))

theorem Agree.or (hx : Agree x u) (hy : Agree y u) : Agree (x.or y) u := fun e he =>
  (Option.or_eq_some_iff.1 he).elim (hx e) fun h => hy e h.2

end

section

variable {name : String} {xs ys zs us : List (Option Expr)}

theorem unifyArgs_cons_eq_ok_iff {x y : Option Expr} :
    unifyArgs name (x :: xs) (y :: ys) = .ok zs ↔
      Agree x y ∧ ∃ rest, unifyArgs name xs ys = .ok rest ∧ zs = x.or y :: rest := by
  have hpure : ∀ a : Option Expr, (do return a :: (← unifyArgs name xs ys)) = Except.ok zs ↔
      ∃ rest, unifyArgs name xs ys = .ok rest ∧ zs = a :: rest := fun _ => bind_pure_eq_ok_iff
  cases x with
  | none =>
    refine (hpure y).trans (iff_and_self.2 fun _ a ha => ?_)
    cases ha
  | some e =>
    cases y with
    | none =>
      refine (hpure (some e)).trans (iff_and_self.2 fun _ a _ b hb => ?_)
      cases hb
    | some f =>
      rw [unifyArgs]
      split
      · rename_i hef
        refine (hpure (some e)).trans (iff_and_self.2 fun _ => ?_)
        rintro a ha b hb
        rw [← Option.some_inj.1 ha, ← Option.some_inj.1 hb, hef]
      · rename_i hef
        refine iff_of_false ?_ fun h => hef (h.1 e rfl f rfl)
        intro h
        cases h

theorem exists_unifyArgs_iff (hlength : xs.length = ys.length) :
    (∃ zs, unifyArgs name xs ys = .ok zs) ↔ List.Forall₂ Agree xs ys := by
  induction xs generalizing ys with
  | nil =>
    obtain rfl := List.eq_nil_of_length_eq_zero hlength.symm
    exact ⟨fun _ => .nil, fun _ => ⟨[], rfl⟩⟩
  | cons x xs ih =>
    cases ys with
    | nil => cases hlength
    | cons y ys =>
      simp only [unifyArgs_cons_eq_ok_iff, List.forall₂_cons, ← ih (Nat.succ.inj hlength)]
      constructor
      · rintro ⟨_, hagree, rest, hrest, -⟩
        exact ⟨hagree, rest, hrest⟩
      · rintro ⟨hagree, rest, hrest⟩
        exact ⟨_, hagree, rest, hrest, rfl⟩

theorem within_unifyArgs (h : unifyArgs name xs ys = .ok zs) (hlength : xs.length = ys.length) :
    List.Forall₂ Within xs zs ∧ List.Forall₂ Within ys zs ∧
      ∀ us, List.Forall₂ Within xs us → List.Forall₂ Within ys us → List.Forall₂ Within zs us := by
  induction xs generalizing ys zs with
  | nil =>
    obtain rfl := List.eq_nil_of_length_eq_zero hlength.symm
    cases h
    exact ⟨.nil, .nil, fun us hxs _ => hxs⟩
  | cons x xs ih =>
    cases ys with
    | nil => cases hlength
    | cons y ys =>
      obtain ⟨hagree, rest, hrest, rfl⟩ := unifyArgs_cons_eq_ok_iff.1 h
      obtain ⟨hxs, hys, hleast⟩ := ih hrest (Nat.succ.inj hlength)
      refine ⟨.cons within_or_left hxs, .cons hagree.within_or_right hys, fun us hxu hyu => ?_⟩
      cases hxu with
      | cons hx hxu =>
        cases hyu with
        | cons hy hyu => exact .cons (hx.or hy) (hleast _ hxu hyu)

theorem forall₂_within_refl : ∀ xs : List (Option Expr), List.Forall₂ Within xs xs
  | [] => .nil
  | _ :: xs => .cons (fun _ he => he) (forall₂_within_refl xs)

theorem forall₂_within_trans (h : List.Forall₂ Within xs ys) (h' : List.Forall₂ Within ys zs) :
    List.Forall₂ Within xs zs := by
  induction h generalizing zs with
  | nil => exact h'
  | cons hxy _ ih =>
    cases h' with
    | cons hyz hrest => exact .cons (hxy.trans hyz) (ih hrest)

theorem forall₂_within_antisymm (h : List.Forall₂ Within xs ys) (h' : List.Forall₂ Within ys xs) :
    xs = ys := by
  induction h with
  | nil => rfl
  | cons hxy _ ih =>
    cases h' with
    | cons hyx hrest => rw [hxy.antisymm hyx, ih hrest]

/-- Places that are both bounded by others agree. -/
theorem forall₂_agree (hxs : List.Forall₂ Within xs us) (hys : List.Forall₂ Within ys us) :
    List.Forall₂ Agree xs ys := by
  induction hxs generalizing ys with
  | nil => cases hys; exact .nil
  | cons hx _ ih =>
    cases hys with
    | cons hy hys => exact .cons (hx.agree hy) (ih hys)

/-- What agrees with both sides agrees with what comes out. -/
theorem forall₂_agree_of_unifyArgs (h : unifyArgs name xs ys = .ok zs)
    (hxs : List.Forall₂ Agree xs us) (hys : List.Forall₂ Agree ys us) :
    List.Forall₂ Agree zs us := by
  induction hxs generalizing ys zs with
  | nil => cases hys; cases h; exact .nil
  | cons hx _ ih =>
    cases hys with
    | cons hy hys =>
      obtain ⟨-, rest, hrest, rfl⟩ := unifyArgs_cons_eq_ok_iff.1 h
      exact .cons (hx.or hy) (ih hrest hys)

end

/-- Everything asks for no less than nothing; targets of one name are compared place by place. -/
inductive AsksNoMore : Pattern → Pattern → Prop
  | wildcard (p : Pattern) : AsksNoMore .wildcard p
  | target (name : String) {xs ys : List (Option Expr)} (h : List.Forall₂ Within xs ys) :
      AsksNoMore (.target name xs) (.target name ys)

instance : PartialOrder Pattern where
  le := AsksNoMore
  le_refl p := by
    cases p with
    | wildcard => exact .wildcard _
    | target name xs => exact .target name (forall₂_within_refl xs)
  le_trans p q r hpq hqr := by
    cases hpq with
    | wildcard => exact .wildcard r
    | target name h =>
      cases hqr with
      | target _ h' => exact .target name (forall₂_within_trans h h')
  le_antisymm p q hpq hqp := by
    cases hpq with
    | wildcard => cases hqp; rfl
    | target name h =>
      cases hqp with
      | target _ h' => rw [forall₂_within_antisymm h h']

instance : OrderBot Pattern where
  bot := .wildcard
  bot_le := .wildcard

variable {p q r s : Pattern}

theorem target_le_target_iff {m n : String} {xs ys : List (Option Expr)} :
    Pattern.target m xs ≤ .target n ys ↔ m = n ∧ List.Forall₂ Within xs ys := by
  constructor
  · intro h
    cases h with
    | target _ h => exact ⟨rfl, h⟩
  · rintro ⟨rfl, h⟩
    exact .target m h

theorem unify_wildcard (p : Pattern) : p.unify .wildcard = .ok p := by
  cases p <;> rfl

theorem unify_target_eq_ok_iff {m n : String} {xs ys : List (Option Expr)} :
    (Pattern.target m xs).unify (.target n ys) = .ok r ↔
      m = n ∧ xs.length = ys.length ∧ ∃ zs, unifyArgs m xs ys = .ok zs ∧ r = .target m zs := by
  rw [unify]
  split
  · rename_i hmn
    refine iff_of_false ?_ fun h => hmn h.1
    intro h
    cases h
  split
  · rename_i hlength
    refine iff_of_false ?_ fun h => hlength h.2.1
    intro h
    cases h
  · rename_i hmn hlength
    simp only [not_not.1 hmn, not_not.1 hlength, true_and]
    exact bind_pure_eq_ok_iff

theorem isLUB_of_unify (h : p.unify q = .ok r) : IsLUB {p, q} r := by
  refine isLUB_iff_le_iff.2 fun s => ?_
  rw [upperBounds_insert, upperBounds_singleton, Set.mem_inter_iff, Set.mem_Ici, Set.mem_Ici]
  cases p with
  | wildcard =>
    obtain rfl := Except.ok.inj h
    exact (and_iff_right bot_le).symm
  | target m xs =>
    cases q with
    | wildcard =>
      obtain rfl := Except.ok.inj h
      exact (and_iff_left bot_le).symm
    | target n ys =>
      obtain ⟨rfl, hlength, zs, hzs, rfl⟩ := unify_target_eq_ok_iff.1 h
      obtain ⟨hxs, hys, hleast⟩ := within_unifyArgs hzs hlength
      refine ⟨fun h => ⟨le_trans (.target m hxs) h, le_trans (.target m hys) h⟩, ?_⟩
      rintro ⟨hp, hq⟩
      cases hp with
      | target _ hxs' => exact .target m (hleast _ hxs' (target_le_target_iff.1 hq).2)

theorem exists_unify (hp : p ≤ s) (hq : q ≤ s) : ∃ r, p.unify q = .ok r := by
  cases hp with
  | wildcard => exact ⟨q, rfl⟩
  | target m hxs =>
    cases hq with
    | wildcard => exact ⟨_, unify_wildcard _⟩
    | target _ hys =>
      have hlength := hxs.length_eq.trans hys.length_eq.symm
      obtain ⟨zs, hzs⟩ := (exists_unifyArgs_iff hlength).2 (forall₂_agree hxs hys)
      exact ⟨_, unify_target_eq_ok_iff.2 ⟨rfl, hlength, zs, hzs, rfl⟩⟩

theorem unify_eq_ok_iff : p.unify q = .ok r ↔ IsLUB {p, q} r := by
  refine ⟨isLUB_of_unify, fun h => ?_⟩
  obtain ⟨r', hr'⟩ := exists_unify (h.1 (Set.mem_insert p _)) (h.1 (Set.mem_insert_of_mem p rfl))
  rwa [h.unique (isLUB_of_unify hr')]

theorem isLUB_insert_of_unify {S : Set Pattern} (h : p.unify q = .ok r) :
    IsLUB (insert r S) s ↔ IsLUB (insert p (insert q S)) s := by
  have hbounds : upperBounds (insert r S) = upperBounds (insert p (insert q S)) := by
    rw [upperBounds_insert, upperBounds_insert, upperBounds_insert, ← Set.inter_assoc,
      ← (isLUB_of_unify h).upperBounds_eq, upperBounds_insert, upperBounds_singleton]
  rw [IsLUB, IsLUB, hbounds]

theorem unify_comm (p q : Pattern) : (p.unify q).toOption = (q.unify p).toOption :=
  toOption_eq_of_ok_iff fun r => by rw [unify_eq_ok_iff, unify_eq_ok_iff, Set.pair_comm]

theorem unify_bind_eq_ok_iff {S : Set Pattern} {f : Pattern → Except String Pattern}
    (hf : ∀ t, f t = .ok s ↔ IsLUB (insert t S) s) :
    (p.unify q >>= f) = .ok s ↔ IsLUB (insert p (insert q S)) s := by
  cases hunify : p.unify q with
  | error e =>
    refine ⟨nofun, fun h => ?_⟩
    obtain ⟨t, ht⟩ := exists_unify (h.1 (Set.mem_insert p _))
      (h.1 (Set.mem_insert_of_mem p (Set.mem_insert q S)))
    exact absurd (hunify.symm.trans ht) nofun
  | ok t => exact (hf t).trans (isLUB_insert_of_unify hunify)

theorem unify_assoc (p q r : Pattern) :
    (p.unify q >>= (·.unify r)).toOption = (q.unify r >>= p.unify).toOption := by
  refine toOption_eq_of_ok_iff fun s => ?_
  have hleft : (p.unify q >>= (·.unify r)) = .ok s ↔ IsLUB {p, q, r} s :=
    unify_bind_eq_ok_iff fun t => unify_eq_ok_iff
  have hright : (q.unify r >>= p.unify) = .ok s ↔ IsLUB {q, r, p} s :=
    unify_bind_eq_ok_iff fun t => by rw [unify_eq_ok_iff, Set.pair_comm]
  have hset : ({q, r, p} : Set Pattern) = {p, q, r} := by
    rw [Set.pair_comm r p, Set.insert_comm q p]
  rw [hleft, hright, hset]

section

variable {α : Type} {g : α → Pattern} {l : List α}

theorem foldlM_unify_eq_ok_iff :
    l.foldlM (fun p a => p.unify (g a)) p = .ok r ↔ IsLUB (insert p (g '' {a | a ∈ l})) r := by
  induction l generalizing p with
  | nil =>
    have hset : insert p (g '' {a | a ∈ ([] : List α)}) = {p} := by simp
    rw [hset]
    refine ⟨fun h => Except.ok.inj h ▸ isLUB_singleton, fun h => ?_⟩
    exact congrArg Except.ok (isLUB_singleton.unique h)
  | cons a l ih =>
    have hset : g '' {b | b ∈ a :: l} = insert (g a) (g '' {b | b ∈ l}) := by
      rw [← Set.image_insert_eq]
      exact congrArg _ (Set.ext fun b => List.mem_cons)
    rw [List.foldlM_cons, hset]
    exact unify_bind_eq_ok_iff fun t => ih

theorem exists_unify_of_unify (h : p.unify q = .ok r) (hp : ∃ t, p.unify s = .ok t)
    (hq : ∃ t, q.unify s = .ok t) : ∃ t, r.unify s = .ok t := by
  cases p with
  | wildcard => exact Except.ok.inj h ▸ hq
  | target m xs =>
    cases q with
    | wildcard => exact Except.ok.inj h ▸ hp
    | target n ys =>
      cases s with
      | wildcard => exact ⟨r, unify_wildcard r⟩
      | target l us =>
        obtain ⟨rfl, hlength, zs, hzs, rfl⟩ := unify_target_eq_ok_iff.1 h
        obtain ⟨_, hp⟩ := hp
        obtain ⟨_, hq⟩ := hq
        obtain ⟨rfl, hxs, vs, hvs, -⟩ := unify_target_eq_ok_iff.1 hp
        obtain ⟨-, hys, ws, hws, -⟩ := unify_target_eq_ok_iff.1 hq
        have hagree := forall₂_agree_of_unifyArgs hzs ((exists_unifyArgs_iff hxs).1 ⟨vs, hvs⟩)
          ((exists_unifyArgs_iff hys).1 ⟨ws, hws⟩)
        obtain ⟨ts, hts⟩ := (exists_unifyArgs_iff hagree.length_eq).2 hagree
        exact ⟨_, unify_target_eq_ok_iff.2 ⟨rfl, hagree.length_eq, ts, hts, rfl⟩⟩

theorem exists_foldlM_unify (hp : ∀ a ∈ l, ∃ r, p.unify (g a) = .ok r)
    (hl : ∀ a ∈ l, ∀ b ∈ l, ∃ r, (g a).unify (g b) = .ok r) :
    ∃ r, l.foldlM (fun p a => p.unify (g a)) p = .ok r := by
  induction l generalizing p with
  | nil => exact ⟨p, rfl⟩
  | cons a l ih =>
    obtain ⟨q, hq⟩ := hp a List.mem_cons_self
    rw [List.foldlM_cons, hq]
    refine ih (fun b hb => ?_) fun b hb c hc =>
      hl b (List.mem_cons_of_mem a hb) c (List.mem_cons_of_mem a hc)
    exact exists_unify_of_unify hq (hp b (List.mem_cons_of_mem a hb))
      (hl a List.mem_cons_self b (List.mem_cons_of_mem a hb))

end

/-- What values of the domains ask of the target of a method together. -/
def demanded (ds : List Declaration) (method : String) (domains : List Domain) :
    Except String Pattern :=
  domains.foldlM (fun p d => p.unify (ofDomain ds method d)) .wildcard

/-- Values of the two domains ask for different things. -/
def Conflict (ds : List Declaration) (method : String) (d e : Domain) : Prop :=
  ∀ r, (ofDomain ds method d).unify (ofDomain ds method e) ≠ .ok r

variable {ds ds' : List Declaration} {method : String} {domains domains' : List Domain}

theorem demanded_eq_ok_iff :
    demanded ds method domains = .ok r ↔ IsLUB (ofDomain ds method '' {d | d ∈ domains}) r := by
  rw [demanded, foldlM_unify_eq_ok_iff, IsLUB, IsLUB, upperBounds_insert,
    show Set.Ici Pattern.wildcard = Set.univ from Set.Ici_bot, Set.univ_inter]

theorem exists_demanded_iff : (∃ r, demanded ds method domains = .ok r) ↔
    ∀ d ∈ domains, ∀ e ∈ domains, ¬Conflict ds method d e := by
  simp only [Conflict, not_forall, not_not]
  constructor
  · rintro ⟨r, hr⟩ d hd e he
    have hr := demanded_eq_ok_iff.1 hr
    exact exists_unify (hr.1 ⟨d, hd, rfl⟩) (hr.1 ⟨e, he, rfl⟩)
  · exact exists_foldlM_unify fun d _ => ⟨_, rfl⟩

theorem name_eq_of_offer {d : Declaration} {c : Call} (h : offer method c d = some p) :
    d.shape.name = c.name := by
  obtain ⟨-, bound, -, hbound, -⟩ := offer_eq_some h
  exact Declaration.name_eq_of_bind? hbound

theorem pairwise_offers (h : (Declaration.names ds).Nodup) (c : Call) :
    (ds.filterMap (offer method c)).Pairwise fun _ _ => False := by
  refine List.pairwise_filterMap.2 ((List.pairwise_map.1 h).imp fun hne p hp q hq => ?_)
  exact hne ((name_eq_of_offer hp).trans (name_eq_of_offer hq).symm)

theorem ofDomain_perm (hnames : (Declaration.names ds).Nodup) (hds : ds.Perm ds') (d : Domain) :
    ofDomain ds method d = ofDomain ds' method d := by
  cases d with
  | any => rfl
  | pending => rfl
  | restricted c =>
    have hnames' : (Declaration.names ds').Nodup := (hds.map _).nodup_iff.1 hnames
    have hoffers : ds.filterMap (offer method c) = ds'.filterMap (offer method c) :=
      (hds.filterMap _).eq_of_pairwise (fun _ _ _ _ => False.elim) (pairwise_offers hnames c)
        (pairwise_offers hnames' c)
    rw [ofDomain_restricted, ofDomain_restricted, hoffers]

theorem demanded_perm (hnames : (Declaration.names ds).Nodup) (hds : ds.Perm ds')
    (hdomains : domains.Perm domains') :
    demanded ds method domains = .ok r ↔ demanded ds' method domains' = .ok r := by
  have hoffers : ofDomain ds method = ofDomain ds' method := funext (ofDomain_perm hnames hds)
  have hset : {d | d ∈ domains} = {d | d ∈ domains'} := Set.ext fun d => hdomains.mem_iff
  rw [demanded_eq_ok_iff, demanded_eq_ok_iff, hoffers, hset]

theorem exists_conflict_iff (hnames : (Declaration.names ds).Nodup) (hds : ds.Perm ds')
    (hdomains : domains.Perm domains') :
    (∃ d ∈ domains, ∃ e ∈ domains, Conflict ds method d e) ↔
      ∃ reason, demanded ds' method domains' = .error reason := by
  have hagree : (∃ r, demanded ds' method domains' = .ok r) ↔
      ∀ d ∈ domains, ∀ e ∈ domains, ¬Conflict ds method d e :=
    (exists_congr fun r => (demanded_perm hnames hds hdomains).symm).trans exists_demanded_iff
  constructor
  · rintro ⟨d, hd, e, he, hconflict⟩
    cases h : demanded ds' method domains' with
    | ok r => exact absurd hconflict (hagree.1 ⟨r, h⟩ d hd e he)
    | error reason => exact ⟨reason, rfl⟩
  · rintro ⟨reason, herror⟩
    by_contra hnone
    obtain ⟨r, hr⟩ := hagree.2 fun d hd e he hconflict => hnone ⟨d, hd, e, he, hconflict⟩
    exact absurd (herror.symm.trans hr) nofun

end Pattern

open Pattern (demanded Conflict)

variable {ds ds' : List Declaration} {callable : String → Bool} {c : Call}
  {domains domains' : List Domain}

theorem resolve_of_demanded_error {reason : String}
    (h : demanded ds c.name domains = .error reason) :
    resolve ds callable c domains = .error (.noMatchingPredicate c.text reason) := by
  simp only [resolve, demanded] at h ⊢
  rw [h]

theorem resolve_congr {p : Pattern} (h : demanded ds c.name domains = .ok p)
    (h' : demanded ds' c.name domains' = .ok p)
    (hmethods : (ds.any fun d => (d.methods.lookup c.name).isSome) =
      ds'.any fun d => (d.methods.lookup c.name).isSome) :
    resolve ds callable c domains = resolve ds' callable c domains' := by
  simp only [resolve, demanded] at h h' ⊢
  rw [h, h', hmethods]

/-- A call resolves to the same call, or to none, in whatever order the domains of its arguments are
looked at and the declarations are listed, if these have different names: unifying patterns is
commutative and associative but for the message, and two domains that conflict are found in every
order. -/
theorem resolve_perm (hnames : (Declaration.names ds).Nodup) (hds : ds.Perm ds')
    (hdomains : domains.Perm domains') :
    (resolve ds callable c domains).toOption = (resolve ds' callable c domains').toOption ∧
    (∀ p q : Pattern, (p.unify q).toOption = (q.unify p).toOption) ∧
    (∀ p q r : Pattern, (p.unify q >>= (·.unify r)).toOption = (q.unify r >>= p.unify).toOption) ∧
    ((∃ d ∈ domains, ∃ e ∈ domains, Conflict ds c.name d e) ↔
      ∃ reason, demanded ds' c.name domains' = .error reason ∧
        resolve ds' callable c domains' = .error (.noMatchingPredicate c.text reason)) := by
  refine ⟨?_, Pattern.unify_comm, Pattern.unify_assoc, ?_⟩
  · cases h : demanded ds c.name domains with
    | ok p =>
      have h' := (Pattern.demanded_perm hnames hds hdomains).1 h
      rw [resolve_congr h h' hds.any_eq]
    | error reason =>
      cases h' : demanded ds' c.name domains' with
      | ok p =>
        have hok := (Pattern.demanded_perm hnames hds hdomains).2 h'
        exact absurd (h.symm.trans hok) nofun
      | error reason' =>
        rw [resolve_of_demanded_error h, resolve_of_demanded_error h']
        rfl
  · rw [Pattern.exists_conflict_iff hnames hds hdomains]
    exact exists_congr fun reason => (and_iff_left_of_imp resolve_of_demanded_error).symm

/-- In both orders the call goes to `step_mod(a, 5, b)` if one argument is a multiple of five and
nothing is known of the other, and to nothing if the other one is even. -/
theorem resolve_perm_step :
    (Declaration.names stepDeclarations).Nodup ∧
    stepDeclarations.Perm stepDeclarations.reverse ∧
    [fives, .any].Perm [.any, fives] ∧ [fives, evens].Perm [evens, fives] ∧
    (resolve stepDeclarations (fun _ => false) stepCall [fives, .any]).toOption =
      some ⟨"step_mod", [.var "a", .num 5, .var "b"]⟩ ∧
    (resolve stepDeclarations.reverse (fun _ => false) stepCall [.any, fives]).toOption =
      some ⟨"step_mod", [.var "a", .num 5, .var "b"]⟩ ∧
    ∃ reason, resolve stepDeclarations.reverse (fun _ => false) stepCall [evens, fives] =
      .error (.noMatchingPredicate "step(a, b)" reason) := by
  have hnames : (Declaration.names stepDeclarations).Nodup := by decide
  have hds := stepDeclarations.reverse_perm.symm
  have hone : [fives, .any].Perm [.any, fives] := .swap _ _ []
  have hboth : [fives, evens].Perm [evens, fives] := .swap _ _ []
  have hsome : (resolve stepDeclarations (fun _ => false) stepCall [fives, .any]).toOption =
      some ⟨"step_mod", [.var "a", .num 5, .var "b"]⟩ := rfl
  have hconflict : ∃ d ∈ [fives, evens], ∃ e ∈ [fives, evens],
      Conflict stepDeclarations stepCall.name d e :=
    ⟨fives, List.mem_cons_self, evens, List.mem_cons_of_mem _ List.mem_cons_self, fun _ => nofun⟩
  obtain ⟨reason, -, herror⟩ := (resolve_perm hnames hds hboth).2.2.2.1 hconflict
  exact ⟨hnames, hds, hone, hboth, hsome, (resolve_perm hnames hds hone).1.symm.trans hsome,
    reason, herror⟩

end RegularArithmetic

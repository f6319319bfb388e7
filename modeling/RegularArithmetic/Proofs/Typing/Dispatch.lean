import RegularArithmetic.Proofs.Meaning.FreeVariables
import RegularArithmetic.Proofs.Success
import RegularArithmetic.Typing.Dispatch

/-!
What a resolved call is made of. The actual arguments stand in the open places of the target, in
order, and the other places hold parameters of the domains or what the target itself gives.
-/

set_option autoImplicit false

namespace RegularArithmetic

namespace Declaration

variable {bound bound' : List (String × Expr)}

theorem bindArg_cases {p x : Expr} (h : bindArg bound p x = some bound') :
    bound' = bound ∨ ∃ v, bound' = (v, x) :: bound := by
  rw [bindArg] at h
  split at h
  · rename_i v _
    split at h
    · exact .inl (Option.some_inj.1 (Option.ite_none_right_eq_some.1 h).2).symm
    · split at h
      · exact .inl (Option.some_inj.1 (Option.ite_none_right_eq_some.1 h).2).symm
      · exact .inr ⟨v, (Option.some_inj.1 h).symm⟩
  · exact .inl (Option.some_inj.1 (Option.ite_none_right_eq_some.1 h).2).symm

theorem lookup_of_bindArgs {v : String} {y : Expr} : ∀ {ps xs bound},
    bindArgs bound ps xs = some bound' → bound'.lookup v = some y →
      bound.lookup v = some y ∨ y ∈ xs
  | [], _, _, h, hy => .inl (Option.some_inj.1 h ▸ hy)
  | _ :: _, [], _, h, hy => .inl (Option.some_inj.1 h ▸ hy)
  | p :: ps, x :: xs, bound, h, hy => by
    rw [bindArgs, Option.bind_eq_bind, Option.bind_eq_some_iff] at h
    obtain ⟨mid, hmid, hrest⟩ := h
    rcases lookup_of_bindArgs hrest hy with hlookup | hxs
    · obtain rfl | ⟨u, rfl⟩ := bindArg_cases hmid
      · exact .inl hlookup
      · rw [List.lookup_cons] at hlookup
        split at hlookup
        · exact .inr (Option.some_inj.1 hlookup ▸ List.mem_cons_self)
        · exact .inl hlookup
    · exact .inr (List.mem_cons_of_mem x hxs)

theorem mem_of_bind? {d : Declaration} {c : Call} {v : String} {y : Expr}
    (h : d.bind? c = some bound) (hy : bound.lookup v = some y) : y ∈ c.args.drop 1 := by
  rw [bind?] at h
  split at h
  · exact (lookup_of_bindArgs (Option.ite_none_right_eq_some.1 h).2 hy).resolve_left nofun
  · cases h

end Declaration

/-- Of a value in the domain of `r`, the declarations give `y` to the target of a method: it is a
parameter of the domain, or an argument of the target that is not a variable. -/
def Supplies (ds : List Declaration) (method : String) (r : Call) (y : Expr) : Prop :=
  y ∈ r.args.drop 1 ∨ ∃ d ∈ ds, ∃ target, d.methods.lookup method = some target ∧
    y ∈ target.args ∧ ∀ v, y.form ≠ .var v

namespace Pattern

/-- The pattern gives the argument to the target. -/
def Gives (y : Expr) : Pattern → Prop
  | .wildcard => False
  | .target _ slots => some y ∈ slots

variable {ds : List Declaration} {method : String} {y : Expr}

/-- What a declaration asks of the target of a method for a value in the domain of `r`. -/
def offer (method : String) (r : Call) (d : Declaration) : Option Pattern := do
  let target ← d.methods.lookup method
  return Declaration.fill (← d.bind? r) target

theorem ofDomain_restricted (r : Call) :
    ofDomain ds method (.restricted r) = (ds.filterMap (offer method r)).headD .wildcard := rfl

theorem offer_eq_some {d : Declaration} {r : Call} {p : Pattern} (h : offer method r d = some p) :
    ∃ target bound, d.methods.lookup method = some target ∧ d.bind? r = some bound ∧
      p = Declaration.fill bound target := by
  simp only [offer, Option.bind_eq_bind, Option.bind_eq_some_iff] at h
  obtain ⟨target, htarget, bound, hbound, hfill⟩ := h
  exact ⟨target, bound, htarget, hbound, (Option.some_inj.1 hfill).symm⟩

theorem offer_eq_none {d : Declaration} {r : Call} (h : d.bind? r = none) :
    offer method r d = none := by
  refine Option.eq_none_iff_forall_ne_some.2 fun p hp => ?_
  obtain ⟨target, bound, -, hbound, -⟩ := offer_eq_some hp
  exact Option.some_ne_none bound (hbound.symm.trans h)

theorem gives_offer {d : Declaration} {r : Call} {p : Pattern} (hd : d ∈ ds)
    (h : offer method r d = some p) (hy : p.Gives y) : Supplies ds method r y := by
  obtain ⟨target, bound, htarget, hbound, rfl⟩ := offer_eq_some h
  obtain ⟨x, hx, hxy⟩ := List.mem_map.1 hy
  split at hxy
  · exact .inl (Declaration.mem_of_bind? hbound hxy)
  · rename_i hvar
    obtain rfl := Option.some_inj.1 hxy
    exact .inr ⟨d, hd, target, htarget, hx, hvar⟩

theorem gives_ofDomain {d : Domain} (hy : (ofDomain ds method d).Gives y) :
    ∃ r, d = .restricted r ∧ Supplies ds method r y := by
  cases d with
  | any => exact hy.elim
  | pending => exact hy.elim
  | restricted r =>
    refine ⟨r, rfl, ?_⟩
    rw [ofDomain_restricted] at hy
    cases hoffers : ds.filterMap (offer method r) with
    | nil =>
      rw [hoffers] at hy
      exact hy.elim
    | cons p ps =>
      rw [hoffers] at hy
      obtain ⟨d, hd, hp⟩ := List.mem_filterMap.1 (hoffers ▸ List.mem_cons_self)
      exact gives_offer hd hp hy

theorem unifyArgs_eq_zipWith {name : String} : ∀ {xs ys zs : List (Option Expr)},
    unifyArgs name xs ys = .ok zs → zs = List.zipWith Option.or xs ys
  | none :: _, _ :: _, _, h => by
    obtain ⟨rest, hrest, hzs⟩ := Answers.of_bind h
    rw [← Except.ok.inj hzs, unifyArgs_eq_zipWith hrest]
    rfl
  | some _ :: _, none :: _, _, h => by
    obtain ⟨rest, hrest, hzs⟩ := Answers.of_bind h
    rw [← Except.ok.inj hzs, unifyArgs_eq_zipWith hrest]
    rfl
  | some x :: xs, some y :: ys, zs, h => by
    rw [unifyArgs] at h
    split at h
    · obtain ⟨rest, hrest, hzs⟩ := Answers.of_bind h
      rw [← Except.ok.inj hzs, unifyArgs_eq_zipWith hrest]
      rfl
    · cases h
  | [], _, _, h => (Except.ok.inj h).symm
  | none :: _, [], _, h => (Except.ok.inj h).symm
  | some _ :: _, [], _, h => (Except.ok.inj h).symm

theorem gives_unify {p q r : Pattern} (h : p.unify q = .ok r) (hy : r.Gives y) :
    p.Gives y ∨ q.Gives y := by
  cases p with
  | wildcard => exact .inr (Except.ok.inj h ▸ hy)
  | target m xs =>
    cases q with
    | wildcard => exact .inl (Except.ok.inj h ▸ hy)
    | target n ys =>
      rw [unify] at h
      split at h
      · cases h
      split at h
      · cases h
      obtain ⟨zs, hzs, hr⟩ := Answers.of_bind h
      obtain rfl := Except.ok.inj hr
      obtain ⟨i, hi⟩ := List.mem_iff_getElem?.1 hy
      rw [unifyArgs_eq_zipWith hzs, List.getElem?_zipWith_eq_some] at hi
      obtain ⟨a, b, ha, hb, hab⟩ := hi
      obtain rfl | ⟨-, rfl⟩ := Option.or_eq_some_iff.1 hab
      · exact .inl (List.mem_of_getElem? ha)
      · exact .inr (List.mem_of_getElem? hb)

theorem gives_foldlM : ∀ {domains : List Domain} {p q : Pattern},
    domains.foldlM (fun p d => p.unify (ofDomain ds method d)) p = .ok q → q.Gives y →
      p.Gives y ∨ ∃ r, .restricted r ∈ domains ∧ Supplies ds method r y
  | [], _, _, h, hy => .inl (Except.ok.inj h ▸ hy)
  | d :: domains, p, q, h, hy => by
    rw [List.foldlM_cons] at h
    obtain ⟨mid, hmid, hrest⟩ := Answers.of_bind h
    rcases gives_foldlM hrest hy with hgives | ⟨r, hr, hsupplies⟩
    · rcases gives_unify hmid hgives with hp | hd
      · exact .inl hp
      · obtain ⟨r, rfl, hsupplies⟩ := gives_ofDomain hd
        exact .inr ⟨r, List.mem_cons_self, hsupplies⟩
    · exact .inr ⟨r, List.mem_cons_of_mem d hr, hsupplies⟩

/-- The arguments that stand in the open places. -/
def atOpen : List (Option Expr) → List Expr → List Expr
  | none :: slots, x :: xs => x :: atOpen slots xs
  | some _ :: slots, _ :: xs => atOpen slots xs
  | _, _ => []

theorem fillSlots_spec : ∀ {slots : List (Option Expr)} {args : List Expr},
    openCount slots = args.length → atOpen slots (fillSlots slots args) = args ∧
      List.Forall₂ (fun slot x => ∀ y, slot = some y → x = y) slots (fillSlots slots args)
  | [], [], _ => ⟨rfl, .nil⟩
  | [], _ :: _, h => nomatch h
  | some z :: slots, args, h => by
    have hcount : openCount slots = args.length := h
    obtain ⟨hopen, hgiven⟩ := fillSlots_spec hcount
    rw [fillSlots]
    exact ⟨hopen, .cons (fun y hy => Option.some_inj.1 hy) hgiven⟩
  | none :: slots, [], h => nomatch h
  | none :: slots, x :: args, h => by
    have hcount : openCount slots = args.length := Nat.succ.inj h
    obtain ⟨hopen, hgiven⟩ := fillSlots_spec hcount
    exact ⟨congrArg (x :: ·) hopen, .cons nofun hgiven⟩

theorem mem_fillSlots {x : Expr} : ∀ {slots : List (Option Expr)} {args : List Expr},
    x ∈ fillSlots slots args → x ∈ args ∨ some x ∈ slots
  | [], _, h => nomatch h
  | some z :: slots, args, h => by
    rw [fillSlots, List.mem_cons] at h
    obtain rfl | h := h
    · exact .inr List.mem_cons_self
    · exact (mem_fillSlots h).imp_right (List.mem_cons_of_mem _)
  | none :: _, [], h => nomatch h
  | none :: slots, z :: args, h => by
    rw [fillSlots, List.mem_cons] at h
    obtain rfl | h := h
    · exact .inl List.mem_cons_self
    · exact (mem_fillSlots h).imp (List.mem_cons_of_mem _) (List.mem_cons_of_mem _)

end Pattern

section

variable {ds : List Declaration} {callable : String → Bool} {c r : Call} {domains : List Domain}

theorem resolve_cases (h : resolve ds callable c domains = .ok r) :
    r = c ∨ ∃ name slots, Pattern.openCount slots = c.args.length ∧
      r = ⟨name, Pattern.fillSlots slots c.args⟩ ∧
      ∀ y, some y ∈ slots → ∃ d, .restricted d ∈ domains ∧ Supplies ds c.name d y := by
  simp only [resolve] at h
  split at h
  · cases h
  · split at h
    · cases h
    · exact .inl (Except.ok.inj h).symm
  · rename_i name slots hpattern
    split at h
    · cases h
    · rename_i hcount
      refine .inr ⟨name, slots, not_not.1 hcount, (Except.ok.inj h).symm, fun y hy => ?_⟩
      exact (Pattern.gives_foldlM hpattern hy).resolve_left id

/-- In the call that a declaration gives, the actual arguments stand in the open places, each of
them once and in order; the other places hold what the declarations give to the target. -/
theorem resolve_arranges (h : resolve ds callable c domains = .ok r) :
    r = c ∨ ∃ slots, Pattern.atOpen slots r.args = c.args ∧
      List.Forall₂ (fun slot x => ∀ y, slot = some y → x = y) slots r.args ∧
      ∀ y, some y ∈ slots → ∃ d, .restricted d ∈ domains ∧ Supplies ds c.name d y := by
  obtain rfl | ⟨name, slots, hcount, rfl, hgiven⟩ := resolve_cases h
  · exact .inl rfl
  · obtain ⟨hopen, hplaces⟩ := Pattern.fillSlots_spec hcount
    exact .inr ⟨slots, hopen, hplaces, hgiven⟩

theorem mem_args_of_resolve (h : resolve ds callable c domains = .ok r) {x : Expr}
    (hx : x ∈ r.args) : x ∈ c.args ∨ ∃ d, .restricted d ∈ domains ∧ Supplies ds c.name d x := by
  obtain rfl | ⟨name, slots, -, rfl, hgiven⟩ := resolve_cases h
  · exact .inl hx
  · exact (Pattern.mem_fillSlots hx).imp_right (hgiven x)

/-- The variables of a resolved call, where the domains are made from restrictions: those of the
actual arguments, those of the parameters of a restriction, the name that a domain has for its
value, if the restriction has that value for a parameter, and those of compound arguments of the
target. -/
theorem freeVars_of_resolve (h : resolve ds callable c domains = .ok r)
    (hdomains : ∀ d ∈ domains, ∀ e, d = .restricted e → ∃ v call, Domain.restriction v call = .ok d)
    {u : String} (hu : u ∈ r.freeVars) :
    u ∈ c.freeVars ∨
    (∃ v call d, d ∈ domains ∧ Domain.restriction v call = .ok d ∧
      IsAmong v selfName (argVars (call.args.drop 1)) u) ∨
    ∃ d ∈ ds, ∃ target, d.methods.lookup c.name = some target ∧
      ∃ x ∈ target.args, (∀ v, x.form ≠ .var v) ∧ u ∈ x.freeVars := by
  obtain ⟨x, hx, hux⟩ := Call.mem_freeVars.1 hu
  obtain hx | ⟨e, he, hx | ⟨d, hd, target, htarget, hx, hvar⟩⟩ := mem_args_of_resolve h hx
  · exact .inl (Call.mem_freeVars.2 ⟨x, hx, hux⟩)
  · obtain ⟨v, call, hcall⟩ := hdomains _ he e rfl
    refine .inr (.inl ⟨v, call, _, he, hcall, ?_⟩)
    obtain ⟨-, -, hsubst⟩ := Answers.of_bind hcall
    cases Except.ok.inj hsubst
    obtain ⟨name, args⟩ := call
    refine argVars_subst (args.drop 1) u (mem_argVars.2 ⟨x, ?_, hux⟩)
    rwa [substArgs_drop]
  · exact .inr (.inr ⟨d, hd, target, htarget, x, hx, hvar, hux⟩)

end

def fives : Domain := .restricted ⟨"Mod", [.var selfName, .num 5]⟩

/-- The even numbers. -/
def evens : Domain := .restricted ⟨"Even", [.var selfName]⟩

/-- A step among the multiples of a number, and one among the even numbers. -/
def stepDeclarations : List Declaration :=
  [⟨⟨"Mod", [.var "x", .var "m"]⟩, [("step", ⟨"step_mod", [.var "x", .var "m", .var "y"]⟩)]⟩,
    ⟨⟨"Even", [.var "x"]⟩, [("step", ⟨"step_even", [.var "x", .var "y"]⟩)]⟩]

def stepCall : Call := ⟨"step", [.var "a", .var "b"]⟩

/-- The modulus of a restriction is in the call, `step_mod(a, n, b)`. -/
theorem freeVars_of_resolve_step : ∃ r d,
    Domain.restriction "a" ⟨"Mod", [.var "a", .var "n"]⟩ = .ok d ∧
    resolve stepDeclarations (fun _ => false) stepCall [d, .any] = .ok r ∧ "n" ∈ r.freeVars ∧
    ("n" ∈ stepCall.freeVars ∨
      (∃ v call e, e ∈ [d, .any] ∧ Domain.restriction v call = .ok e ∧
        IsAmong v selfName (argVars (call.args.drop 1)) "n") ∨
      ∃ e ∈ stepDeclarations, ∃ target, e.methods.lookup stepCall.name = some target ∧
        ∃ x ∈ target.args, (∀ v, x.form ≠ .var v) ∧ "n" ∈ x.freeVars) := by
  let d : Domain := .restricted ⟨"Mod", [.var selfName, .var "n"]⟩
  have hd : Domain.restriction "a" ⟨"Mod", [.var "a", .var "n"]⟩ = .ok d := rfl
  have hresolve : resolve stepDeclarations (fun _ => false) stepCall [d, .any] =
      .ok ⟨"step_mod", [.var "a", .var "n", .var "b"]⟩ := rfl
  have hn : "n" ∈ Call.freeVars ⟨"step_mod", [.var "a", .var "n", .var "b"]⟩ := by decide
  refine ⟨_, d, hd, hresolve, hn, freeVars_of_resolve hresolve (fun e he r hr => ?_) hn⟩
  obtain rfl | he := List.mem_cons.1 he
  · exact ⟨"a", _, hd⟩
  · cases List.mem_singleton.1 he
    cases hr

end RegularArithmetic

import RegularArithmetic.Proofs.Meaning.FreeVariables
import RegularArithmetic.Proofs.Program.Evaluation

/-!
Which variables an evaluation looks up: those of the expression, as far as they are the user's.
A question is evaluated in a frame for its free variables, inside of which only quantifiers have
frames; each free variable is bound once, and no others are.
-/

set_option autoImplicit false

namespace RegularArithmetic

open Program (findVar bindInnermost bindFree guardScopeOf Engine)

theorem decide_isOwn (v : String) :
    decide (IsOwn v) = !reservedStart.toList.isPrefixOf v.toList := by
  rw [Bool.eq_iff_iff, decide_eq_true_eq, IsOwn, Bool.not_eq_true', ← Bool.not_eq_true,
    List.isPrefixOf_iff_prefix]

def Frame.ownNames (f : Frame) : List String := (f.vars.map (·.1)).filter fun v => IsOwn v

namespace Frame

variable {f : Frame} {v : String} {p : Nat}

theorem mem_ownNames : v ∈ f.ownNames ↔ IsOwn v ∧ f.vars.lookup v ≠ none := by
  have hlookup : f.vars.lookup v ≠ none ↔ v ∈ f.vars.map (·.1) := by
    simp only [ne_eq, List.lookup_eq_none_iff, List.mem_map, not_forall, bne_iff_ne, not_not]
    constructor
    · rintro ⟨e, he, hv⟩
      exact ⟨e, he, hv.symm⟩
    · rintro ⟨e, he, hv⟩
      exact ⟨e, he, hv.symm⟩
  rw [ownNames, List.mem_filter, hlookup, decide_eq_true_eq, and_comm]

theorem ownNames_bind_of_own (hv : IsOwn v) :
    ({ f with vars := (v, p) :: f.vars } : Frame).ownNames = v :: f.ownNames :=
  List.filter_cons_of_pos (by simpa using hv)

theorem ownNames_bind_of_reserved (hv : ¬IsOwn v) :
    ({ f with vars := (v, p) :: f.vars } : Frame).ownNames = f.ownNames :=
  List.filter_cons_of_neg (by simpa using hv)

end Frame

/-- The frames of a question about the free variables `U`, with the names that each frame of a
quantifier binds. -/
inductive Scoped (U : List String) : List (List String) → List Frame → Prop
  | query {f : Frame} {fs : List Frame} (hkind : f.kind = .free) (hnodup : f.ownNames.Nodup)
    (hU : f.ownNames ⊆ U) : Scoped U [] (f :: fs)
  | within {Bs : List (List String)} {f : Frame} {fs : List Frame} (hkind : f.kind = .transparent)
    (h : Scoped U Bs fs) : Scoped U (f.ownNames :: Bs) (f :: fs)

/-- Where the free variables are `U` and quantifiers bind `Bs`, an expression may be about these and
about the evaluator's variables. -/
def reach (U : List String) (Bs : List (List String)) : Limits :=
  ⟨{v | IsOwn v → v ∈ U ∨ v ∈ Bs.flatten}, Set.univ, Set.univ, Set.univ, Set.univ⟩

theorem mem_reach_of_reserved {U : List String} {Bs : List (List String)} {v : String}
    (hv : ¬IsOwn v) : v ∈ (reach U Bs).vars := fun hown => absurd hown hv

theorem allows_reach_cons {U : List String} {Bs : List (List String)} (B : List String) :
    (reach U (B :: Bs)).Allows (reach U Bs) where
  vars v hv hown := (hv hown).imp_right fun hBs => by simp [hBs]
  binders := subset_rfl
  names := subset_rfl
  domains := subset_rfl
  literals := subset_rfl

namespace Scoped

variable {U : List String} {Bs : List (List String)} {fs : List Frame} {v : String} {p : Nat}

theorem drop {B : List String} (h : Scoped U (B :: Bs) fs) : Scoped U Bs (fs.drop 1) := by
  cases h with
  | within _ h => exact h

/-- A variable of the evaluator is bound without a change for the user's. -/
theorem bindInnermost (h : Scoped U Bs fs) (hv : ¬IsOwn v) :
    Scoped U Bs (bindInnermost v p fs) := by
  cases h with
  | @query f fs hkind hnodup hU =>
    have heq := Frame.ownNames_bind_of_reserved (f := f) (p := p) hv
    exact .query hkind (heq.symm ▸ hnodup) (heq.symm ▸ hU)
  | @within Bs f fs hkind h =>
    rw [← Frame.ownNames_bind_of_reserved (f := f) (p := p) hv]
    exact .within hkind h

theorem bindFree (h : Scoped U Bs fs) (hfree : findVar v fs = .free) (hv : v ∈ (reach U Bs).vars) :
    Scoped U Bs (bindFree v p fs) := by
  induction h with
  | @query f fs hkind hnodup hU =>
    have hnone : f.vars.lookup v = none := by
      rw [findVar] at hfree
      split at hfree
      · cases hfree
      · assumption
    rw [Program.bindFree, if_pos hkind]
    by_cases hown : IsOwn v
    · have hmem : v ∉ f.ownNames := fun hmem => (Frame.mem_ownNames.1 hmem).2 hnone
      have hvU : v ∈ U := by simpa using hv hown
      refine .query hkind ?_ ?_ <;> rw [Frame.ownNames_bind_of_own hown]
      · exact List.nodup_cons.2 ⟨hmem, hnodup⟩
      · exact List.cons_subset.2 ⟨hvU, hU⟩
    · refine .query hkind ?_ ?_ <;> rwa [Frame.ownNames_bind_of_reserved hown]
  | @within Bs f fs hkind h ih =>
    rw [findVar] at hfree
    split at hfree
    · cases hfree
    · rename_i hnone
      rw [hkind] at hfree
      rw [Program.bindFree, if_neg (by simp [hkind])]
      refine .within hkind (ih hfree fun hown => ?_)
      have hmem : v ∉ f.ownNames := fun hmem => (Frame.mem_ownNames.1 hmem).2 hnone
      simpa [hmem] using hv hown

theorem openVars {q : Program} (h : Scoped U [] q.frames) :
    (q.openVars.map (·.1)).Nodup ∧ q.openVars.map (·.1) ⊆ U := by
  generalize hfs : q.frames = fs at h
  cases h with
  | @query f fs hkind hnodup hU =>
    have hnames : q.openVars.map (·.1) = f.ownNames := by
      rw [Program.openVars, hfs, Frame.ownNames, List.filter_map]
      exact congrArg _ (List.filter_congr fun e _ => (decide_isOwn e.1).symm)
    exact ⟨hnames ▸ hnodup, hnames ▸ hU⟩

theorem mem_openVars {q : Program} (h : Scoped U [] q.frames) (hv : IsOwn v)
    (hbound : findVar v q.frames = .bound p) : (v, p) ∈ q.openVars := by
  generalize hfs : q.frames = fs at h hbound
  cases h with
  | @query f fs hkind hnodup hU =>
    rw [findVar] at hbound
    split at hbound
    · rename_i hlookup
      cases hbound
      rw [Program.openVars, hfs]
      refine List.mem_filter.2 ⟨Program.mem_of_lookup hlookup, ?_⟩
      exact (decide_isOwn v).symm.trans (decide_eq_true hv)
    · simp [hkind] at hbound

end Scoped

/-- An evaluation under the restrictions `r`, of a question about `U` and inside quantifiers of
`Bs`. All predicates are evaluated, and the restrictions are about variables that may be looked
up. -/
structure Workspace.Scoping (r : Restrictions) (U : List String) (Bs : List (List String))
    (w : Workspace) : Prop where
  frames : Scoped U Bs w.program.frames
  restrictions : w.program.restrictions = r
  declarations : w.program.declarations = []
  evaluated : ∀ (name : String) (q : Predicate), w.program.predicates[name]? = some q →
    q.memo ≠ none
  within : ∀ v, ∀ c ∈ r.visible v, c.Within ((reach U Bs).bind v)

/-- What an engine looks up are variables of the expression. -/
structure Program.Engine.Confined (k : Engine) : Prop where
  formula : ∀ {r : Restrictions} {U : List String} {Bs : List (List String)} {w : Workspace}
    {x : Expr}, w.Scoping r U Bs → x.Within (reach U Bs) →
      Maintains (Workspace.Scoping r U Bs) (k.formula x) w fun _ => True
  value : ∀ {r : Restrictions} {U : List String} {Bs : List (List String)} {w : Workspace}
    {x : Expr}, w.Scoping r U Bs → x.isFormula = false → x.Within (reach U Bs) →
      Maintains (Workspace.Scoping r U Bs) (k.value x) w fun v => v.var ∈ (reach U Bs).vars

theorem Workspace.Scoping.of_eq {r : Restrictions} {U : List String} {Bs : List (List String)}
    {w w' : Workspace} (hw : w.Scoping r U Bs) (hframes : w'.program.frames = w.program.frames)
    (hrestrictions : w'.program.restrictions = w.program.restrictions)
    (hdeclarations : w'.program.declarations = w.program.declarations)
    (hpredicates : w'.program.predicates = w.program.predicates) : w'.Scoping r U Bs :=
  ⟨hframes ▸ hw.frames, hrestrictions.trans hw.restrictions, hdeclarations.trans hw.declarations,
    hpredicates ▸ hw.evaluated, hw.within⟩

namespace Program

open Workspace (Scoping)

variable {α : Type} {r : Restrictions} {U : List String} {Bs : List (List String)}
  {w : Workspace} {k : Engine} {x : M α} {P : α → Prop}

/-! ### Single steps -/

section

variable (hw : w.Scoping r U Bs)

include hw

theorem maintains_ask (q : Program → α) :
    Maintains (Scoping r U Bs) (ask q) w fun a => a = q w.program := by
  rintro a t ⟨⟩
  exact ⟨hw, rfl⟩

theorem maintains_liftAlphabet (y : Alphabet.M α) :
    Maintains (Scoping r U Bs) (liftM y : M α) w fun _ => True := by
  obtain ⟨alphabet, program⟩ := w
  intro a t h
  simp only [liftM, monadLift, MonadLift.monadLift] at h
  split at h
  · cases h
    exact ⟨hw.of_eq rfl rfl rfl rfl, trivial⟩
  · cases h

theorem maintains_liftDiagram (y : Diagram.M α) :
    Maintains (Scoping r U Bs) (liftM y : M α) w fun _ => True :=
  maintains_liftAlphabet hw (liftM y)

theorem maintains_liftFault (y : Except Fault α) :
    Maintains (Scoping r U Bs) (liftM y : M α) w fun _ => True :=
  maintains_liftAlphabet hw (liftM y)

theorem maintains_liftError (y : Except Error α) :
    Maintains (Scoping r U Bs) (liftM y : M α) w fun a => y = .ok a := by
  cases y with
  | ok a => exact .pure hw rfl
  | error e => exact .throw

theorem maintains_temporaryName (hint : String) :
    Maintains (Scoping r U Bs) (temporaryName hint) w fun v => ¬IsOwn v := by
  rintro v t ⟨⟩
  have hreserved := reserved_temporaryNameOf hint (w.program.temporaries + 1)
  exact ⟨hw.of_eq rfl rfl rfl rfl, fun hown => hown hreserved⟩

theorem maintains_temporary (hint : String) :
    Maintains (Scoping r U Bs) (temporary hint) w fun e => ¬IsOwn e.1 := by
  refine (maintains_temporaryName hw hint).bind fun name w₁ hw₁ hname => ?_
  refine (maintains_liftAlphabet hw₁ (Alphabet.fresh name)).bind fun p w₂ hw₂ _ => ?_
  refine Maintains.bind (P := fun _ => True) ?_ fun _ _ hw₃ _ => .pure hw₃ hname
  rintro _ t ⟨⟩
  exact ⟨⟨hw₂.frames.bindInnermost hname, hw₂.restrictions, hw₂.declarations, hw₂.evaluated,
    hw₂.within⟩, trivial⟩

theorem maintains_propOf {v : String} (hv : v ∈ (reach U Bs).vars) :
    Maintains (Scoping r U Bs) (propOf v) w fun _ => True := by
  intro p t h
  simp only [propOf, ask, Bind.bind, EStateM.bind] at h
  cases hfind : findVar v w.program.frames with
  | bound q =>
    simp only [hfind] at h
    cases h
    exact ⟨hw, trivial⟩
  | unbound owner =>
    simp only [hfind] at h
    cases h
  | free =>
    simp only [hfind, liftM, monadLift, MonadLift.monadLift, EStateM.bind, fresh_eq, change] at h
    cases h
    exact ⟨⟨hw.frames.bindFree hfind hv, hw.restrictions, hw.declarations, hw.evaluated,
      hw.within⟩, trivial⟩

theorem maintains_withScope {s : Scope}
    (hs : ∀ v, ∀ c ∈ (r.enter s).visible v, c.Within ((reach U Bs).bind v))
    (h : ∀ w', w'.Scoping (r.enter s) U Bs → Maintains (Scoping (r.enter s) U Bs) x w' P) :
    Maintains (Scoping r U Bs) (withScope s x) w P := by
  have hr := hw.restrictions
  intro a t hrun
  change followedBy x exitScope (w.under (w.program.restrictions.enter s)) = _ at hrun
  rw [hr, followedBy] at hrun
  have hinside : (w.under (r.enter s)).Scoping (r.enter s) U Bs :=
    ⟨hw.frames, rfl, hw.declarations, hw.evaluated, hs⟩
  cases hx : x (w.under (r.enter s)) with
  | error e w' =>
    simp only [hx] at hrun
    split at hrun <;> cases hrun
  | ok b w' =>
    obtain ⟨hw', hb⟩ := h _ hinside b w' hx
    simp only [hx, exitScope_eq hw'.restrictions] at hrun
    cases hrun
    exact ⟨⟨hw'.frames, rfl, hw'.declarations, hw'.evaluated, hw.within⟩, hb⟩

omit hw in
theorem maintains_withGuard {v : String} {g : Option Call}
    (h : Maintains (Scoping r U Bs) (withScope (guardScopeOf v g) x) w P) :
    Maintains (Scoping r U Bs) (withScope [] do
      if let some c := g then restrictBy (·.restrict v c)
      x) w P := by
  refine (congrArg (Maintains (Scoping r U Bs) · w P) (withScope_restrictBy v g x)).mpr ?_
  exact .ite (fun _ => h) fun _ => .throw

theorem maintains_withFrame {f : Frame} (hkind : f.kind = .transparent)
    (h : ∀ w', w'.Scoping r U (f.ownNames :: Bs) →
      Maintains (Scoping r U (f.ownNames :: Bs)) x w' P) :
    Maintains (Scoping r U Bs) (withFrame f x) w P := by
  intro a t hrun
  obtain ⟨w', hx, rfl⟩ := withFrame_eq_ok_iff.1 hrun
  have hinside : (w.framing (f :: w.program.frames)).Scoping r U (f.ownNames :: Bs) :=
    ⟨.within hkind hw.frames, hw.restrictions, hw.declarations, hw.evaluated, fun v c hc =>
      (hw.within v c hc).mono ((allows_reach_cons _).bind v)⟩
  obtain ⟨hw', ha⟩ := h _ hinside a w' hx
  exact ⟨⟨hw'.frames.drop, hw'.restrictions, hw'.declarations, hw'.evaluated, hw.within⟩, ha⟩

/-! ### Calls -/

theorem maintains_predicate (name : String) :
    Maintains (Scoping r U Bs) (Engine.predicate name) w fun q => q.memo ≠ none := by
  unfold Engine.predicate
  refine (maintains_ask hw (·.predicates)).bind fun qs w₁ hw₁ hqs => ?_
  split
  · exact .pure hw₁ (hw.evaluated name _ (hqs ▸ ‹_›))
  · exact .throw

theorem maintains_relationOf (name : String) :
    Maintains (Scoping r U Bs) (k.relationOf name) w fun _ => True := by
  unfold Engine.relationOf
  refine (maintains_ask hw id).bind fun p w₁ hw₁ _ => ?_
  refine (maintains_liftError hw₁ _).bind fun target w₂ hw₂ _ => ?_
  refine Maintains.map (P := fun _ => True) ?_ fun _ _ => trivial
  unfold Engine.memoOf
  refine (maintains_predicate hw₂ target).bind fun q w₃ hw₃ hq => ?_
  split
  · exact .pure hw₃ trivial
  · exact absurd ‹_› hq

theorem maintains_callOn (name : String) {vars : List String}
    (hvars : ∀ v ∈ vars, v ∈ (reach U Bs).vars) :
    Maintains (Scoping r U Bs) (k.callOn name vars) w fun _ => True := by
  unfold Engine.callOn
  refine (maintains_relationOf hw name).bind fun (target, r) w₁ hw₁ _ => ?_
  refine .ite (fun _ => .throw_bind) fun _ => ?_
  refine (Maintains.mapM hw₁ fun v hv w₂ hw₂ => maintains_propOf hw₂ (hvars v hv)).bind
    fun actuals w₂ hw₂ _ => ?_
  exact maintains_liftDiagram hw₂ _

theorem maintains_relation (name : String) {vars : List (String × Domain)}
    (hvars : ∀ v ∈ vars, v.1 ∈ (reach U Bs).vars) :
    Maintains (Scoping r U Bs) (k.relation name vars) w fun _ => True := by
  unfold Engine.relation
  refine (maintains_ask hw id).bind fun p w₁ hw₁ hp => ?_
  rw [hp, id_eq, resolveCall_eq hw.declarations]
  change Maintains (Scoping r U Bs) (k.apply _) w₁ _
  unfold Engine.apply
  rw [mapM_argument, pure_bind]
  refine (maintains_callOn hw₁ name fun v hv => ?_).bind fun a w₂ hw₂ _ =>
    maintains_liftAlphabet hw₂ _
  rw [List.map_map] at hv
  obtain ⟨e, he, rfl⟩ := List.mem_map.1 hv
  exact hvars e he

/-! ### Values -/

theorem maintains_result (a : Automaton) (operands : List Value) {name : String} (p : Nat)
    (hname : ¬IsOwn name) : Maintains (Scoping r U Bs) (Engine.result a operands name p) w
      fun v => v.var ∈ (reach U Bs).vars :=
  (maintains_liftAlphabet hw _).bind fun _ _ hw₁ _ => .pure hw₁ (mem_reach_of_reserved hname)

variable {y z : Value} (hy : y.var ∈ (reach U Bs).vars) (hz : z.var ∈ (reach U Bs).vars)

include hy hz

theorem maintains_add (d : Domain) :
    Maintains (Scoping r U Bs) (k.add d y z) w fun v => v.var ∈ (reach U Bs).vars := by
  unfold Engine.add
  refine (maintains_temporary hw "t").bind fun (name, p) w₁ hw₁ hname => ?_
  refine (maintains_ask hw₁ _).bind fun domain w₂ hw₂ _ => ?_
  refine (maintains_relation hw₂ "adder" ?_).bind fun a w₃ hw₃ _ =>
    maintains_result hw₃ a _ p hname
  simpa using ⟨hy, hz, mem_reach_of_reserved hname⟩

theorem maintains_sub (d : Domain) :
    Maintains (Scoping r U Bs) (k.sub d y z) w fun v => v.var ∈ (reach U Bs).vars := by
  unfold Engine.sub
  refine (maintains_temporary hw "t").bind fun (name, p) w₁ hw₁ hname => ?_
  refine (maintains_ask hw₁ _).bind fun domain w₂ hw₂ _ => ?_
  refine (maintains_relation hw₂ "adder" ?_).bind fun a w₃ hw₃ _ =>
    maintains_result hw₃ a _ p hname
  simpa using ⟨hz, mem_reach_of_reserved hname, hy⟩

omit hy hz

omit hw in
theorem maintains_multiple (d : Domain) (m : Nat) : ∀ {w : Workspace} {acc : Option Value}
    {power : Value}, w.Scoping r U Bs → (∀ a ∈ acc, a.var ∈ (reach U Bs).vars) →
      power.var ∈ (reach U Bs).vars → Maintains (Scoping r U Bs) (k.multiple d acc power m) w
        fun v => v.var ∈ (reach U Bs).vars := by
  induction m using Nat.strong_induction_on with
  | _ m ih =>
    intro w acc power hw hacc hpower
    -- Whether the power is added or comes first, it is doubled next.
    have hnext : ∀ {added : M Value},
        Maintains (Scoping r U Bs) added w (fun v => v.var ∈ (reach U Bs).vars) →
          Maintains (Scoping r U Bs) (if m ≤ 1 then added else do
            let acc ← if m % 2 = 1 then some <$> added else pure acc
            let power ← k.add d power power
            k.multiple d acc power (m / 2)) w fun v => v.var ∈ (reach U Bs).vars := by
      intro added hadded
      refine .ite (fun _ => hadded) fun hm => ?_
      have hrest : ∀ {acc : Option Value} {w₁ : Workspace}, w₁.Scoping r U Bs →
          (∀ a ∈ acc, a.var ∈ (reach U Bs).vars) → Maintains (Scoping r U Bs) (do
            let power ← k.add d power power
            k.multiple d acc power (m / 2)) w₁ fun v => v.var ∈ (reach U Bs).vars :=
        fun hw₁ hacc => (maintains_add hw₁ hpower hpower d).bind fun power w₂ hw₂ hpower =>
          ih (m / 2) (by omega) hw₂ hacc hpower
      split
      · refine (hadded.map (f := some) fun a ha => ?_).bind fun acc w₁ hw₁ hacc => hrest hw₁ hacc
        simpa using ha
      · exact hrest hw hacc
    rw [Engine.multiple.eq_def]
    cases acc with
    | none => exact hnext (.pure hw hpower)
    | some a => exact hnext (maintains_add hw (hacc a rfl) hpower d)

theorem maintains_rebind (v : Value) :
    Maintains (Scoping r U Bs) (rebind v) w fun v => v.var ∈ (reach U Bs).vars := by
  unfold rebind
  refine (maintains_temporary hw "c").bind fun (name, p) w₁ hw₁ hname => ?_
  exact (maintains_liftDiagram hw₁ _).bind fun a w₂ hw₂ _ =>
    .pure hw₂ (mem_reach_of_reserved hname)

end

/-! ### Integer expressions -/

section

variable (hk : k.Confined)

include hk

theorem maintains_argument (hw : w.Scoping r U Bs) {x : Expr} (hx : x.isFormula = false)
    (hwithin : x.Within (reach U Bs)) :
    Maintains (Scoping r U Bs) (k.argument x) w fun e => e.1 ∈ (reach U Bs).vars := by
  unfold Engine.argument
  split
  · rename_i v hform
    obtain ⟨f, d⟩ := x
    cases hform
    exact .pure hw hwithin.1
  · rw [if_neg (by simp [hx])]
    exact (hk.value hw hx hwithin).bind fun v w₁ hw₁ hv => .pure hw₁ hv

theorem maintains_call (hw : w.Scoping r U Bs) {c : Call} (hc : c.Within (reach U Bs)) :
    Maintains (Scoping r U Bs) (k.call c) w fun _ => True := by
  obtain ⟨name, xs⟩ := c
  have hargs : ∀ {xs : List Expr}, withinArgs xs (reach U Bs) → ∀ x ∈ xs,
      x.isFormula = false ∧ x.Within (reach U Bs) := by
    intro xs hxs
    induction xs with
    | nil => exact fun x hx => absurd hx List.not_mem_nil
    | cons x xs ih => exact List.forall_mem_cons.2 ⟨hxs.1, ih hxs.2⟩
  unfold Engine.call
  refine (maintains_ask hw id).bind fun p w₁ hw₁ hp => ?_
  rw [hp, id_eq, resolveCall_eq hw.declarations]
  change Maintains (Scoping r U Bs) (k.apply _) w₁ _
  unfold Engine.apply
  refine (Maintains.mapM hw₁ fun x hx w₂ hw₂ => maintains_argument hk hw₂
    (hargs hc.2 x hx).1 (hargs hc.2 x hx).2).bind fun args w₂ hw₂ hall => ?_
  refine (maintains_callOn hw₂ name fun v hv => ?_).bind fun a w₃ hw₃ _ =>
    maintains_liftAlphabet hw₃ _
  obtain ⟨e, he, rfl⟩ := List.mem_map.1 hv
  exact hall e he

theorem maintains_zero (hw : w.Scoping r U Bs) {d : Domain} (hd : d.Closed (reach U Bs)) :
    Maintains (Scoping r U Bs) (k.zero d) w fun v => v.var ∈ (reach U Bs).vars := by
  unfold Engine.zero
  refine (maintains_temporary hw "c").bind fun (name, p) w₁ hw₁ hname => ?_
  have hreach : name ∈ (reach U Bs).vars := mem_reach_of_reserved hname
  refine (maintains_liftFault hw₁ _).bind fun m w₂ hw₂ _ => ?_
  refine (maintains_liftAlphabet hw₂ _).bind fun e w₃ hw₃ _ => ?_
  refine (maintains_liftDiagram hw₃ _).bind fun m w₄ hw₄ _ => ?_
  split
  · exact .pure hw₄ hreach
  · rename_i c hsome
    have hc : c.Within (reach U Bs) :=
      within_instantiate hd (Set.subset_univ _) subset_rfl hreach c hsome
    refine (maintains_call hk hw₄ hc).bind fun b w₅ hw₅ _ => ?_
    exact (maintains_liftAlphabet hw₅ _).bind fun _ w₆ hw₆ _ => .pure hw₆ hreach

theorem maintains_one (hw : w.Scoping r U Bs) {d : Domain} (hd : d.Closed (reach U Bs)) :
    Maintains (Scoping r U Bs) (k.one d) w fun v => v.var ∈ (reach U Bs).vars := by
  unfold Engine.one
  refine (maintains_temporary hw "c").bind fun (name, p) w₁ hw₁ hname => ?_
  refine (maintains_temporaryName hw₁ "y").bind fun y w₂ hw₂ hy => ?_
  have hwithin : (Engine.isOne d name y).Within (reach U Bs) :=
    (within_isOne hd (Set.subset_univ _) name y).mono
      ⟨Set.singleton_subset_iff.2 (mem_reach_of_reserved hname), Set.subset_univ _, subset_rfl,
        subset_rfl, Set.empty_subset _⟩
  exact (hk.formula hw₂ hwithin).bind fun a w₃ hw₃ _ => .pure hw₃ (mem_reach_of_reserved hname)

theorem maintains_constant {d : Domain} (hd : d.Closed (reach U Bs)) (n : Nat) :
    ∀ {w : Workspace}, w.Scoping r U Bs →
      Maintains (Scoping r U Bs) (k.constant d n) w fun v => v.var ∈ (reach U Bs).vars := by
  induction n using Nat.strong_induction_on with
  | _ n ih =>
    intro w hw
    rw [constant_eq]
    refine (maintains_ask hw (·.constants)).bind fun constants w₁ hw₁ _ => ?_
    split
    · exact maintains_rebind hw₁ _
    · have hmade : Maintains (Scoping r U Bs) (k.made d n) w₁ fun v =>
          v.var ∈ (reach U Bs).vars := by
        unfold Engine.made
        refine .ite (fun _ => maintains_zero hk hw₁ hd) fun hzero => ?_
        refine .ite (fun _ => maintains_one hk hw₁ hd) fun _ => .ite (fun _ => ?_) fun hpower => ?_
        · exact (ih (n / 2) (by omega) hw₁).bind fun v w₂ hw₂ hv => maintains_add hw₂ hv hv d
        · have hpos : 0 < Nat.pow 2 n.log2 := Nat.two_pow_pos _
          have hlt : Nat.pow 2 n.log2 < n :=
            Nat.lt_of_le_of_ne (Nat.log2_self_le hzero) (Ne.symm hpower)
          refine (ih _ hlt hw₁).bind fun v w₂ hw₂ hv => ?_
          exact (ih _ (by omega) hw₂).bind fun u w₃ hw₃ hu => maintains_add hw₃ hv hu d
      refine hmade.bind fun v w₂ hw₂ hv => ?_
      refine Maintains.bind (P := fun _ => True) ?_ fun _ w₃ hw₃ _ => .pure hw₃ hv
      rintro _ t ⟨⟩
      exact ⟨hw₂.of_eq rfl rfl rfl rfl, trivial⟩

theorem maintains_scale (hw : w.Scoping r U Bs) {d : Domain} (hd : d.Closed (reach U Bs)) (n : Nat)
    {x : Expr} (hx : x.isFormula = false) (hwithin : x.Within (reach U Bs)) :
    Maintains (Scoping r U Bs) (k.scale d n x) w fun v => v.var ∈ (reach U Bs).vars := by
  unfold Engine.scale
  refine .ite (fun _ => maintains_constant hk hd 0 hw) fun _ => ?_
  refine (hk.value hw hx hwithin).bind fun v w₁ hw₁ hv => ?_
  exact maintains_multiple d n hw₁ (by simp) hv

theorem maintains_evaluateValue (hw : w.Scoping r U Bs) {x : Expr} (hx : x.isFormula = false)
    (hwithin : x.Within (reach U Bs)) :
    Maintains (Scoping r U Bs) (k.evaluateValue x) w fun v => v.var ∈ (reach U Bs).vars := by
  obtain ⟨f, d⟩ := x
  unfold Engine.evaluateValue
  simp only [Expr.value?]
  cases hvalue : f.value? with
  | some n =>
    have huses : f.usesDomain = true := by
      cases f with
      | num m => rfl
      | arith op y z => cases op <;> simp [Form.usesDomain, hvalue]
      | _ => cases hvalue
    exact maintains_constant hk (closed_known (hwithin.2 huses)) n hw
  | none =>
    cases f with
    | var v => exact (maintains_propOf hw hwithin.1).bind fun p w₁ hw₁ _ => .pure hw₁ hwithin.1
    | num n => cases hvalue
    | arith op y z =>
      obtain ⟨⟨hy, hyK⟩, hz, hzK⟩ := hwithin.1
      cases op with
      | add =>
        refine (hk.value hw hy hyK).bind fun v w₁ hw₁ hv => ?_
        exact (hk.value hw₁ hz hzK).bind fun u w₂ hw₂ hu => maintains_add hw₂ hv hu _
      | sub =>
        refine (hk.value hw hy hyK).bind fun v w₁ hw₁ hv => ?_
        exact (hk.value hw₁ hz hzK).bind fun u w₂ hw₂ hu => maintains_sub hw₂ hv hu _
      | mul =>
        have hd := closed_known (hwithin.2 rfl)
        dsimp only
        split
        · exact maintains_scale hk hw hd _ hz hzK
        · exact maintains_scale hk hw hd _ hy hyK
        · exact .throw
      | div => exact .throw
    | _ => cases hx

/-! ### Formulas -/

/-- The variable of a quantifier is bound in a frame of its own, so that the body does not look it
up outside. -/
theorem maintains_evaluateSome (hw : w.Scoping r U Bs) {v : String} {g : Option Call} {x : Expr}
    (hg : withinGuard g ((reach U Bs).bind v)) (hx : x.Within ((reach U Bs).bind v)) :
    Maintains (Scoping r U Bs) (k.evaluateSome v g x) w fun _ => True := by
  unfold Engine.evaluateSome
  refine (maintains_ask hw (·.restrictions)).bind fun r' w₁ hw₁ hr' => ?_
  obtain rfl : r' = r := hr'.trans hw.restrictions
  refine maintains_withGuard (maintains_withScope hw₁ (fun u c hc => ?_) fun w₂ hw₂ => ?_)
  · rcases mem_visible_enter.1 hc with hc | ⟨rfl, hguard⟩
    · exact hw.within u c hc
    · rw [Option.mem_def] at hguard
      subst hguard
      exact hg
  refine (maintains_liftAlphabet hw₂ (Alphabet.fresh v)).bind fun p w₃ hw₃ _ => ?_
  refine maintains_withFrame hw₃ rfl fun w₄ hw₄ => ?_
  have hallows : ∀ B : List String, (IsOwn v → v ∈ B) →
      (reach U (B :: Bs)).Allows ((reach U Bs).bind v) := fun B hB =>
    ⟨Set.insert_subset (fun hown => .inr (by simp [hB hown])) (allows_reach_cons B).vars,
      subset_rfl, subset_rfl, subset_rfl, subset_rfl⟩
  have hbody := hallows (Frame.ownNames ⟨.transparent, v, [(v, p)]⟩) fun hown =>
    Frame.mem_ownNames.2 ⟨hown, by simp⟩
  refine (hk.formula hw₄ (within_conjoin (fun c hc => ?_) (hx.mono hbody))).bind
    fun a w₅ hw₅ _ => maintains_liftAlphabet hw₅ _
  rcases List.mem_append.1 hc with hc | hc
  · obtain rfl : g = some c := by simpa using hc
    exact Call.Within.mono (c := c) hg hbody
  · exact (hw.within v c hc).mono hbody

omit hk in
theorem maintains_evaluateLiteral (hw : w.Scoping r U Bs) {l : Literal}
    (hl : ∀ v ∈ l.vars, v.1 ∈ (reach U Bs).vars) :
    Maintains (Scoping r U Bs) (Engine.evaluateLiteral l) w fun _ => True := by
  unfold Engine.evaluateLiteral
  refine (Maintains.mapM (Q := fun _ => True) hw fun e he w₁ hw₁ => ?_).bind
    fun pairs w₁ hw₁ _ => maintains_liftDiagram hw₁ _
  exact (maintains_propOf hw₁ (hl e he)).bind fun p w₂ hw₂ _ => .pure hw₂ trivial

theorem maintains_evaluateComparison (hw : w.Scoping r U Bs) (op : Comparison) {x y : Expr}
    (hx : x.isFormula = false) (hxK : x.Within (reach U Bs)) (hy : y.isFormula = false)
    (hyK : y.Within (reach U Bs)) :
    Maintains (Scoping r U Bs) (k.evaluateComparison op x y) w fun _ => True := by
  unfold Engine.evaluateComparison
  refine (hk.value hw hx hxK).bind fun v w₁ hw₁ hv => ?_
  refine (hk.value hw₁ hy hyK).bind fun u w₂ hw₂ hu => ?_
  refine (maintains_ask hw₂ id).bind fun p w₃ hw₃ _ => ?_
  refine (maintains_relation hw₃ _ ?_).bind fun a w₄ hw₄ _ => maintains_liftAlphabet hw₄ _
  simpa using ⟨hv, hu⟩

theorem maintains_evaluateIff (hw : w.Scoping r U Bs) {x y : Expr} (hx : x.Within (reach U Bs))
    (hy : y.Within (reach U Bs)) :
    Maintains (Scoping r U Bs) (k.evaluateIff x y) w fun _ => True := by
  unfold Engine.evaluateIff
  refine (hk.formula hw hx).bind fun a w₁ hw₁ _ => ?_
  refine (hk.formula hw₁ hy).bind fun b w₂ hw₂ _ => ?_
  refine (maintains_liftAlphabet hw₂ _).bind fun both w₃ hw₃ _ => ?_
  refine (maintains_liftDiagram hw₃ _).bind fun a' w₄ hw₄ _ => ?_
  refine (maintains_liftDiagram hw₄ _).bind fun b' w₅ hw₅ _ => ?_
  exact (maintains_liftAlphabet hw₅ _).bind fun neither w₆ hw₆ _ => maintains_liftAlphabet hw₆ _

theorem maintains_evaluateFormula (hw : w.Scoping r U Bs) {x : Expr}
    (hwithin : x.Within (reach U Bs)) :
    Maintains (Scoping r U Bs) (k.evaluateFormula x) w fun _ => True := by
  obtain ⟨f, d⟩ := x
  obtain ⟨hf, -⟩ := hwithin
  unfold Engine.evaluateFormula
  cases f with
  | truth b => cases b <;> exact .pure hw trivial
  | and y z =>
    refine (hk.formula hw hf.1).bind fun a w₁ hw₁ _ => ?_
    refine (maintains_liftFault hw₁ _).bind fun empty w₂ hw₂ _ => ?_
    refine .ite (fun _ => .pure hw₂ trivial) fun _ => ?_
    exact (hk.formula hw₂ hf.2).bind fun b w₃ hw₃ _ => maintains_liftAlphabet hw₃ _
  | or y z =>
    refine (hk.formula hw hf.1).bind fun a w₁ hw₁ _ => ?_
    exact (hk.formula hw₁ hf.2).bind fun b w₂ hw₂ _ => maintains_liftAlphabet hw₂ _
  | not y =>
    refine (hk.formula (x := y) hw hf).bind fun a w₁ hw₁ _ => ?_
    exact maintains_liftDiagram hw₁ _
  | forSome v g y => exact maintains_evaluateSome hk hw hf.2.1 hf.2.2
  | call c => exact maintains_call hk hw hf
  | automaton l => exact maintains_evaluateLiteral hw hf.2
  | index s i => exact maintains_call hk hw ⟨hf.1, hf.2, trivial⟩
  | rangeEq s e i u t j =>
    refine (maintains_temporaryName hw "len").bind fun len w₁ hw₁ hlen => ?_
    refine (maintains_temporaryName hw₁ "n").bind fun n w₂ hw₂ hn => ?_
    exact hk.formula hw₂ ((within_rangesAgree hf).mono
      ⟨subset_rfl, Set.subset_univ _, subset_rfl, subset_rfl, subset_rfl⟩)
  | compare op y z =>
    dsimp only
    split
    · rename_i hy hz
      exact maintains_evaluateComparison hk hw _ hy hf.1 hz hf.2
    · exact maintains_evaluateIff hk hw hf.1 hf.2
    · exact .throw
  | var v => exact .throw
  | num n => exact .throw
  | arith op y z => exact .throw

end

theorem confined_ofDepth (n : Nat) : (Engine.ofDepth n).Confined := by
  induction n with
  | zero => exact ⟨fun _ _ => .throw, fun _ _ _ => .throw⟩
  | succ n ih =>
    exact ⟨fun hw hx => maintains_evaluateFormula ih hw hx,
      fun hw hx hwithin => maintains_evaluateValue ih hw hx hwithin⟩

theorem confined_standard : Engine.standard.Confined := confined_ofDepth Engine.limit

end Program

end RegularArithmetic

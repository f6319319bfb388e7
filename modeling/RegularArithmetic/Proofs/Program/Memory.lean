import RegularArithmetic.Proofs.Program.Definition
import RegularArithmetic.Proofs.Program.Undisturbed

/-!
What becomes of the memos of predicates. Evaluation makes memos where there are none, and leaves a
memo that there is as it is, with its closure; only a definition of the same name replaces it.
-/

set_option autoImplicit false

namespace RegularArithmetic

/-- The predicate goes by the name, and its memo has a proposition of its own for each argument. -/
structure Predicate.Registered (name : String) (q : Predicate) : Prop where
  name_eq : q.name = name
  memo : ∀ r, q.memo = some r → r.args.Nodup ∧ r.args.length = q.args.length

/-- The predicate later on. Once it has a memo, nothing about it changes. -/
structure Predicate.Spared (q q' : Predicate) : Prop where
  args : q'.args = q.args
  eq : q.memo ≠ none → q' = q

theorem Predicate.Spared.refl (q : Predicate) : q.Spared q := ⟨rfl, fun _ => rfl⟩

theorem Predicate.Spared.trans {q r t : Predicate} (h : q.Spared r) (h' : r.Spared t) :
    q.Spared t where
  args := h'.args.trans h.args
  eq hq := by
    obtain rfl := h.eq hq
    exact h'.eq hq

namespace Program

def Registered (p : Program) : Prop :=
  ∀ (name : String) q, p.predicates[name]? = some q → q.Registered name

/-- The program later on: those of the names in `S` that named a predicate still name it, with the
memo that it had, and no others name one. -/
structure Spares (S : Set String) (p p' : Program) : Prop where
  registered : p.Registered → p'.Registered
  predicates : p.Registered → ∀ name ∈ S,
    Option.Rel Predicate.Spared p.predicates[name]? p'.predicates[name]?

namespace Spares

variable {S T : Set String} {p p' p'' : Program} {q : Predicate}

theorem of_eq (h : p'.predicates = p.predicates) : Spares S p p' where
  registered hp name q hq := hp name q (h ▸ hq)
  predicates _ name _ := by
    rw [h]
    cases p.predicates[name]? with
    | none => exact .none
    | some q => exact .some (.refl q)

theorem trans (h : Spares S p p') (h' : Spares S p' p'') : Spares S p p'' where
  registered hp := h'.registered (h.registered hp)
  predicates hp name hname := by
    have hrel := h.predicates hp name hname
    have hrel' := h'.predicates (h.registered hp) name hname
    revert hrel hrel'
    generalize p.predicates[name]? = o
    generalize p'.predicates[name]? = o'
    generalize p''.predicates[name]? = o''
    rintro (⟨hq⟩ | _) (⟨hq'⟩ | _)
    · exact .some (hq.trans hq')
    · exact .none

theorem getElem?_eq_some {name : String} (h : Spares S p p') (hp : p.Registered) (hname : name ∈ S)
    (hq : p.predicates[name]? = some q) (hmemo : q.memo ≠ none) :
    p'.predicates[name]? = some q := by
  have hrel := h.predicates hp name hname
  rw [hq] at hrel
  revert hrel
  generalize p'.predicates[name]? = o
  rintro ⟨hspared⟩
  rw [hspared.eq hmemo]

theorem getElem?_eq_none {name : String} (h : Spares S p p') (hp : p.Registered) (hname : name ∈ S)
    (hnone : p.predicates[name]? = none) : p'.predicates[name]? = none := by
  have hrel := h.predicates hp name hname
  rw [hnone] at hrel
  revert hrel
  generalize p'.predicates[name]? = o
  rintro ⟨⟩
  rfl

/-- Where a predicate of the name would have a memo, nothing about it changes. -/
theorem getElem?_eq {name : String} (h : Spares S p p') (hp : p.Registered) (hname : name ∈ S)
    (hmemo : ∀ q, p.predicates[name]? = some q → q.memo ≠ none) :
    p'.predicates[name]? = p.predicates[name]? := by
  cases hq : p.predicates[name]? with
  | none => exact h.getElem?_eq_none hp hname hq
  | some q => exact h.getElem?_eq_some hp hname hq (hmemo q hq)

theorem mono (h : Spares T p p') (hST : S ⊆ T) : Spares S p p' :=
  ⟨h.registered, fun hp name hname => h.predicates hp name (hST hname)⟩

/-- A predicate may be taken in, if it is one that was there before all, or its name is not among
those that matter. -/
theorem adopt (h : Spares S p p') (hq : p.Registered → q.Registered q.name)
    (hspared : p.Registered → q.name ∈ S →
      Option.Rel Predicate.Spared p.predicates[q.name]? (some q)) : Spares S p (p'.adopt q) where
  registered hp name q' hq' := by
    simp only [Program.adopt, Std.TreeMap.getElem?_insert] at hq'
    split at hq'
    · rename_i hname
      cases hq'
      exact Std.LawfulEqCmp.compare_eq_iff_eq.1 hname ▸ hq hp
    · exact h.registered hp name q' hq'
  predicates hp name hname := by
    simp only [Program.adopt, Std.TreeMap.getElem?_insert]
    split
    · rename_i heq
      obtain rfl := Std.LawfulEqCmp.compare_eq_iff_eq.1 heq
      exact hspared hp hname
    · exact h.predicates hp name hname

theorem removePredicate {name : String} (h : name ∉ S) : Spares S p (p.removePredicate name) where
  registered hp other q hq := by
    simp only [Program.removePredicate, Std.TreeMap.getElem?_erase] at hq
    split at hq
    · cases hq
    · exact hp other q hq
  predicates hp other hother := by
    simp only [Program.removePredicate, Std.TreeMap.getElem?_erase]
    split
    · rename_i heq
      obtain rfl := Std.LawfulEqCmp.compare_eq_iff_eq.1 heq
      exact absurd hother h
    · cases p.predicates[other]? with
      | none => exact .none
      | some q => exact .some (.refl q)

end Spares

instance {S : Set String} : IsPreorder Program (Spares S) where
  refl _ := .of_eq rfl
  trans _ _ _ := .trans

variable {α : Type} {k : Engine} {x : M α} {S : Set String} {w w' : Workspace} {name : String}
  {q : Predicate} {r : Relation}

theorem args_of_evaluateUnder {closure : Scope}
    (h : k.evaluateUnder name q closure w = .ok r w') :
    r.args.Nodup ∧ r.args.length = q.args.length := by
  obtain ⟨w₁, h⟩ := exists_of_withScope_eq_ok h
  obtain ⟨formals, w₂, hformals, h⟩ := exists_of_bind_eq_ok h
  obtain ⟨-, -, hlength, hnodup, -⟩ := (yields_formals q.args _).of_ok hformals
  obtain ⟨w₃, h, -⟩ := withFrame_eq_ok_iff.1 h
  obtain ⟨_, w₄, _, h⟩ := exists_of_bind_eq_ok h
  obtain ⟨a, w₅, _, h⟩ := exists_of_bind_eq_ok h
  cases h
  exact ⟨hnodup, hlength⟩

theorem endOf_predicate_bind {g : Predicate → M α} (h : w.program.predicates[name]? = none) :
    endOf (Engine.predicate name >>= g) w = w := by
  refine endOf_bind_of_eq_error (e := .error (.unboundPredicate name)) ?_
  simp only [Engine.predicate, ask, Bind.bind, EStateM.bind, h]
  rfl

theorem exists_closureOf (hq : w.program.predicates[name]? = some q) (hmemo : q.memo = none) :
    ∃ s w', Engine.closureOf q w = .ok s w' ∧ Spares S w.program w'.program := by
  cases hclosure : q.closure with
  | some s =>
    refine ⟨s, w, ?_, .of_eq rfl⟩
    rw [Engine.closureOf, hclosure]
    rfl
  | none =>
    let q' : Predicate := { q with closure := some w.program.restrictions.snapshot }
    refine ⟨w.program.restrictions.snapshot, ⟨w.alphabet, w.program.adopt q'⟩, ?_, ?_⟩
    · rw [Engine.closureOf, hclosure]
      rfl
    · refine (Spares.of_eq rfl).adopt (fun _ => ⟨rfl, fun r hr => ?_⟩) fun hp _ => ?_
      · cases hmemo.symm.trans hr
      · rw [(hp name q hq).name_eq, hq]
        exact .some ⟨rfl, (absurd hmemo ·)⟩

theorem spares_evaluateBody
    (h : ∀ q closure, Leads (Spares Set.univ) (k.evaluateUnder name q closure))
    (hq : w.program.predicates[name]? = some q) (hmemo : q.memo = none) :
    Spares Set.univ w.program (endOf (k.evaluateBody name) w).program ∧
      ∀ r w', k.evaluateBody name w = .ok r w' →
        r.args.Nodup ∧ r.args.length = q.args.length := by
  obtain ⟨s, w₁, hclosure, hspares⟩ := exists_closureOf (S := Set.univ) hq hmemo
  rw [Engine.evaluateBody_eq]
  constructor
  · rw [endOf_bind_of_eq_ok (predicate_eq_ok hq), endOf_bind_of_eq_ok hclosure]
    exact hspares.trans (h q s w₁)
  · intro r w' hrun
    obtain ⟨q', w₂, hq', hrun⟩ := exists_of_bind_eq_ok hrun
    cases (predicate_eq_ok hq).symm.trans hq'
    obtain ⟨s', w₃, -, hrun⟩ := exists_of_bind_eq_ok hrun
    exact args_of_evaluateUnder hrun

def entering (name : String) (w : Workspace) : Workspace :=
  ⟨w.alphabet, { w.program with inProgress := name :: w.program.inProgress }⟩

theorem whileInProgress_eq (name : String) (x : M α) (w : Workspace) :
    Engine.whileInProgress name x w =
      followedBy x (change fun p => { p with inProgress := p.inProgress.drop 1 })
        (entering name w) := rfl

theorem spares_whileInProgress (h : Spares S w.program (endOf x (entering name w)).program) :
    Spares S w.program (endOf (Engine.whileInProgress name x) w).program := by
  rw [endOf, whileInProgress_eq, ← endOf, endOf_followedBy_change]
  exact ⟨h.registered, h.predicates⟩

theorem spares_make (h : ∀ q closure, Leads (Spares Set.univ) (k.evaluateUnder name q closure))
    (hq : w.program.predicates[name]? = some q) (hmemo : q.memo = none) :
    Spares Set.univ w.program (endOf (do
      let r ← Engine.whileInProgress name (k.evaluateBody name)
      change (·.adopt { ← Engine.predicate name with memo := some r })
      return r) w).program := by
  obtain ⟨hbody, hargs⟩ := spares_evaluateBody (w := entering name w) h hq hmemo
  have hspares : Spares Set.univ w.program
      (endOf (Engine.whileInProgress name (k.evaluateBody name)) w).program :=
    spares_whileInProgress ⟨hbody.registered, hbody.predicates⟩
  cases hrun : Engine.whileInProgress name (k.evaluateBody name) w with
  | error e w₁ =>
    rw [endOf_bind_of_eq_error hrun]
    rwa [endOf_of_eq_error hrun] at hspares
  | ok r w₁ =>
    rw [endOf_bind_of_eq_ok hrun]
    rw [endOf_of_eq_ok hrun] at hspares
    rw [whileInProgress_eq] at hrun
    obtain ⟨w₂, hrun⟩ := exists_of_followedBy_eq_ok hrun
    have hargs := hargs r w₂ hrun
    cases hq₁ : w₁.program.predicates[name]? with
    | none =>
      rw [endOf_predicate_bind hq₁]
      exact hspares
    | some q₁ =>
      rw [endOf_bind_of_eq_ok (predicate_eq_ok hq₁)]
      have hkept : w.program.Registered → q₁.name = name ∧ q₁.args = q.args := fun hp => by
        have hrel := hspares.predicates hp name (Set.mem_univ name)
        rw [hq, hq₁] at hrel
        cases hrel with
        | some hspared =>
          exact ⟨(hspares.registered hp name q₁ hq₁).name_eq, hspared.args⟩
      refine hspares.adopt (fun hp => ⟨rfl, ?_⟩) fun hp _ => ?_
      · rintro r' ⟨⟩
        exact (hkept hp).2 ▸ hargs
      · rw [(hkept hp).1, hq]
        exact .some ⟨(hkept hp).2, (absurd hmemo ·)⟩

theorem spares_memoOf (name : String)
    (h : ∀ q closure, Leads (Spares Set.univ) (k.evaluateUnder name q closure)) :
    Leads (Spares Set.univ) (k.memoOf name) := by
  intro w
  change Spares Set.univ w.program (endOf (k.memoOf name) w).program
  unfold Engine.memoOf
  cases hq : w.program.predicates[name]? with
  | none =>
    rw [endOf_predicate_bind hq]
    exact .of_eq rfl
  | some q =>
    rw [endOf_bind_of_eq_ok (predicate_eq_ok hq)]
    cases hmemo : q.memo with
    | some r => exact .of_eq rfl
    | none =>
      have hmake := spares_make h hq hmemo
      change Spares Set.univ w.program (endOf (if (w.program.config.detectCycles &&
        w.program.inProgress.contains name) = true then _ else _) w).program
      split
      · exact .of_eq rfl
      · exact hmake

theorem spares_change {f : Program → Program}
    (hf : ∀ p, (f p).predicates = p.predicates) :
    Leads (Spares S) (change f) :=
  Leads.change fun p => .of_eq (hf p)

theorem spares_temporaryName (hint : String) : Leads (Spares S) (temporaryName hint) :=
  Along.bind (spares_change fun _ => rfl) fun _ => (Leads.ask _).bind fun _ => .pure _

theorem spares_temporary (hint : String) : Leads (Spares S) (temporary hint) :=
  (spares_temporaryName hint).bind fun _ => (Leads.liftAlphabet _).bind fun _ =>
    Along.bind (spares_change fun _ => rfl) fun _ => .pure _

theorem spares_propOf (v : String) : Leads (Spares S) (propOf v) := by
  refine (Leads.ask _).bind fun frames => ?_
  split
  · exact .pure _
  · exact .throw _
  · exact (Leads.liftAlphabet _).bind fun _ =>
      Along.bind (spares_change fun _ => rfl) fun _ => .pure _

theorem Stepwise.spares (h : Stepwise x) : Leads (Spares Set.univ) x := by
  induction h with
  | pure r => exact .pure r
  | throw f => exact .throw f
  | bind _ _ hx hg => exact Along.bind hx hg
  | reads _ _ hg => exact fun w => hg w.program w
  | alphabet _ => exact Leads.liftAlphabet _
  | temporaryName hint => exact spares_temporaryName hint
  | @temporary hint _ => exact spares_temporary hint
  | propOf v => exact spares_propOf v
  | remember key v => exact spares_change fun _ => rfl
  | inScope s hx ih =>
    rw [hx.quiet.withScope_eq]
    exact Leads.enclosed ih fun p q h => ⟨h.registered, h.predicates⟩
  | inFrame f _ ih => exact Leads.enclosed ih fun p q h => ⟨h.registered, h.predicates⟩
  | memoOf name _ h => exact spares_memoOf name h

/-- The program later on: frames have gained variables at most, and predicates of the names in `S`
have kept their memos. -/
structure Keeps (S : Set String) (p p' : Program) : Prop where
  frames : List.Forall₂ Frame.Extends p.frames p'.frames
  spares : Spares S p p'

namespace Keeps

variable {p p' p'' : Program}

theorem of_eq (hframes : p'.frames = p.frames) (hpredicates : p'.predicates = p.predicates) :
    Keeps S p p' := by
  refine ⟨?_, .of_eq hpredicates⟩
  rw [hframes]
  exact List.forall₂_same.2 fun f _ => .refl f

theorem trans (h : Keeps S p p') (h' : Keeps S p' p'') : Keeps S p p'' :=
  ⟨Workspace.forall₂_trans (fun _ _ _ hfg hgh => hfg.trans hgh) h.frames h'.frames,
    h.spares.trans h'.spares⟩

end Keeps

instance : IsPreorder Program (Keeps S) where
  refl _ := .of_eq rfl rfl
  trans _ _ _ := .trans

theorem Stepwise.keeps (h : Stepwise x) : Leads (Keeps S) x := fun w =>
  ⟨(h.quiet w).frames, (h.spares w).mono (Set.subset_univ S)⟩

/-- A definition replaces the predicate of its own name only. -/
theorem keeps_define (hq : q.name ∉ S) : Leads (Keeps S) (define q) := by
  refine fun w => ⟨(quiet_define q w).frames, ?_⟩
  have hadopt : ∀ body, Leads (Spares S)
      (change (·.adopt { q with body, closure := none, memo := none })) := fun body =>
    Leads.change fun p => (Spares.of_eq rfl).adopt (fun _ => ⟨rfl, nofun⟩) fun _ h => absurd h hq
  have hstep : ∀ {α : Type} {x : M α}, Stepwise x → Leads (Spares S) x := fun hx w =>
    (hx.spares w).mono (Set.subset_univ S)
  have hmemo : Leads (Spares S) (tryCatch (discard (Engine.standard.memoOf q.name)) fun e => do
      change (·.removePredicate q.name)
      throw e) :=
    ((hstep (steady_standard.memoOf q.name)).map _).tryCatch fun e =>
      Along.bind (Leads.change fun p => .removePredicate hq) fun _ => .throw e
  have hdefine : Leads (Spares S) (define q) := by
    unfold define
    refine (Leads.liftError _).bind fun guards => ?_
    refine Along.bind (hstep ((stepwise_inferred q.body).inScope guards)) fun body => ?_
    exact (Leads.ask _).bind fun config => Along.bind (hadopt _) fun _ => hmemo
  exact hdefine w

theorem liftError_eq_ok {y : Except Error α} {a : α} (h : (liftM y : M α) w = .ok a w') :
    y = .ok a ∧ w = w' := by
  cases y <;> cases h
  exact ⟨rfl, rfl⟩

theorem exists_of_define_eq_ok (hregistered : w.program.Registered)
    (hrun : define q w = .ok () w') :
    ∃ q', w'.program.predicates[q.name]? = some q' ∧ q'.args = q.args := by
  obtain ⟨scope, w₁, hguards, hrest⟩ := exists_of_bind_eq_ok hrun
  obtain ⟨hscope, heq⟩ := liftError_eq_ok hguards
  subst heq
  obtain ⟨y, v, hinfer, -⟩ := exists_of_bind_eq_ok hrest
  rw [Workspace.define_eq hscope hinfer] at hrun
  split at hrun
  · rename_i r w₂ hmemo
    cases hrun
    have hspares := ((stepwise_inferred q.body).inScope scope).spares w
    rw [endOf_of_eq_ok hinfer] at hspares
    have hprepared := (Spares.of_eq rfl).adopt (S := ∅) (p := v.program) (q := v.prepared q y)
      (fun _ => ⟨rfl, nofun⟩) fun _ h => absurd h (Set.notMem_empty _)
    have hadopted : (v.adopting (v.prepared q y)).program.predicates[q.name]? =
        some (v.prepared q y) := predicates_adopt v.program (v.prepared q y)
    have hmade := ((steady_standard.memoOf q.name).spares
      (v.adopting (v.prepared q y))).predicates
      (hprepared.registered (hspares.registered hregistered)) q.name (Set.mem_univ _)
    rw [endOf_of_eq_ok hmemo, hadopted] at hmade
    revert hmade
    generalize w'.program.predicates[q.name]? = o
    rintro ⟨hspared⟩
    exact ⟨_, rfl, hspared.args⟩
  · cases hrun

theorem leads_defineRelation {R : Program → Program → Prop} [IsPreorder Program R]
    {args : List String} (r : Relation)
    (h : ∀ l, Leads R (define (.ofBody name args [] (.automaton l)))) :
    Leads R (defineRelation name args r) :=
  Along.bind ((Leads.liftAlphabet _).bind fun _ => .pure _) h

theorem keeps_defineRelation (hname : name ∉ S) (args : List String) (r : Relation) :
    Leads (Keeps S) (defineRelation name args r) :=
  leads_defineRelation r fun _ => keeps_define hname

def binaryNames : List String := ["bin_add", "bin_equal", "bin_less", "bin_zero"]

theorem leads_installBinary {R : Program → Program → Prop} [IsPreorder Program R]
    (hdefine : ∀ name ∈ binaryNames, ∀ args r, Leads R (defineRelation name args r))
    (halias : ∀ p, R p (((p.setAlias "adder" "bin_add").setAlias "equal" "bin_equal").setAlias
      "less" "bin_less")) : Leads R installBinary := by
  unfold installBinary
  refine (Leads.liftAlphabet _).bind fun r => (hdefine _ (by decide) _ r).bind fun _ => ?_
  refine (Leads.liftAlphabet _).bind fun r => (hdefine _ (by decide) _ r).bind fun _ => ?_
  refine (Leads.liftAlphabet _).bind fun r => (hdefine _ (by decide) _ r).bind fun _ => ?_
  refine (Leads.liftAlphabet _).bind fun r => (hdefine _ (by decide) _ r).bind fun _ => ?_
  exact Leads.change halias

theorem keeps_installBinary (hS : ∀ name ∈ binaryNames, name ∉ S) :
    Leads (Keeps S) installBinary :=
  leads_installBinary (fun name hname => keeps_defineRelation (hS name hname)) fun _ =>
    .of_eq rfl rfl

def Takes (p : Program) (name : String) (n : Nat) : Prop :=
  ∃ q, p.predicates[name]? = some q ∧ q.args.length = n

theorem Takes.mono {p p' : Program} {n : Nat} (h : p.Takes name n) (hp : p.Registered)
    (hspares : Spares S p p') (hname : name ∈ S) : p'.Takes name n := by
  obtain ⟨q, hq, hn⟩ := h
  have hrel := hspares.predicates hp name hname
  rw [hq] at hrel
  unfold Takes
  revert hrel
  generalize p'.predicates[name]? = o
  rintro ⟨hspared⟩
  exact ⟨_, rfl, hspared.args ▸ hn⟩

theorem takes_of_defineRelation {x : Alphabet.M Relation} {w₁ : Workspace} {args : List String}
    (hregistered : w.program.Registered) (hmake : (liftM x : M Relation) w = .ok r w₁)
    (hdefine : defineRelation name args r w₁ = .ok () w') :
    w'.program.Registered ∧ w'.program.Takes name args.length ∧
      ∀ other n, other ≠ name → w.program.Takes other n → w'.program.Takes other n := by
  have hlifted : Spares Set.univ w.program w₁.program :=
    endOf_of_eq_ok hmake ▸ Leads.liftAlphabet (R := Spares Set.univ) x w
  have hkeeps : Keeps {other | other ≠ name} w₁.program w'.program :=
    endOf_of_eq_ok hdefine ▸
      keeps_defineRelation (S := {other | other ≠ name}) (fun h => h rfl) args r w₁
  have hw₁ := hlifted.registered hregistered
  refine ⟨hkeeps.spares.registered hw₁, ?_, fun other n hne hother => ?_⟩
  · obtain ⟨l, w₂, hliteral, hdefine⟩ := exists_of_bind_eq_ok hdefine
    have hspares : Keeps ∅ w₁.program w₂.program :=
      endOf_of_eq_ok hliteral ▸ (Leads.liftAlphabet _).bind (fun _ => .pure _) w₁
    obtain ⟨q, hq, hargs⟩ := exists_of_define_eq_ok (hspares.spares.registered hw₁) hdefine
    exact ⟨q, hq, congrArg List.length hargs⟩
  · exact (hother.mono hregistered hlifted (Set.mem_univ _)).mono hw₁ hkeeps.spares hne

theorem takes_of_installBinary (hregistered : w.program.Registered)
    (hrun : installBinary w = .ok () w') :
    w'.program.Takes "bin_add" 3 ∧ w'.program.Takes "bin_equal" 2 ∧
      w'.program.Takes "bin_less" 2 ∧ w'.program.Takes "bin_zero" 1 := by
  obtain ⟨_, w₁, hadd, hrun⟩ := exists_of_bind_eq_ok hrun
  obtain ⟨_, w₂, hdefineAdd, hrun⟩ := exists_of_bind_eq_ok hrun
  obtain ⟨_, w₃, hequal, hrun⟩ := exists_of_bind_eq_ok hrun
  obtain ⟨_, w₄, hdefineEqual, hrun⟩ := exists_of_bind_eq_ok hrun
  obtain ⟨_, w₅, hless, hrun⟩ := exists_of_bind_eq_ok hrun
  obtain ⟨_, w₆, hdefineLess, hrun⟩ := exists_of_bind_eq_ok hrun
  obtain ⟨_, w₇, hzero, hrun⟩ := exists_of_bind_eq_ok hrun
  obtain ⟨_, w₈, hdefineZero, hrun⟩ := exists_of_bind_eq_ok hrun
  cases hrun
  obtain ⟨hw₂, htakes, -⟩ := takes_of_defineRelation hregistered hadd hdefineAdd
  obtain ⟨hw₄, htakes₂, hold₂⟩ := takes_of_defineRelation hw₂ hequal hdefineEqual
  obtain ⟨hw₆, htakes₃, hold₃⟩ := takes_of_defineRelation hw₄ hless hdefineLess
  obtain ⟨hw₈, htakes₄, hold₄⟩ := takes_of_defineRelation hw₆ hzero hdefineZero
  exact ⟨hold₄ _ _ (by decide) (hold₃ _ _ (by decide) (hold₂ _ _ (by decide) htakes)),
    hold₄ _ _ (by decide) (hold₃ _ _ (by decide) htakes₂), hold₄ _ _ (by decide) htakes₃, htakes₄⟩

end Program

end RegularArithmetic

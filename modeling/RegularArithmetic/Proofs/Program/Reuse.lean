import RegularArithmetic.Proofs.Automaton.Answers
import RegularArithmetic.Proofs.Automaton.Renaming
import RegularArithmetic.Proofs.Program.Calls
import RegularArithmetic.Proofs.Program.Memory
import RegularArithmetic.Proofs.Program.Belonging

/-!
Calls of a predicate that has a memo. The memo is read over the propositions of the actual
variables, all at once, so that a word is accepted if the memo accepts what the word says of the
arguments; nothing is evaluated anew.
-/

set_option autoImplicit false

namespace RegularArithmetic

namespace Program

variable {k : Engine} {w : Workspace} {name v : String} {q : Predicate} {r : Relation}

theorem returns_renameBy [Automaton.LanguageFamily] {s : Diagram.Store} (hs : s.Sound)
    {a : Automaton} (ha : a.Belongs s) {pairs : List (Nat × Nat)} (hnodup : (pairs.map (·.1)).Nodup)
    (hpositive : ∀ pq ∈ pairs, 0 < pq.2) :
    Returns (renameBy a pairs) s fun b t =>
      b.Decides t fun u => a.Admits s (u.map (Letter.retold pairs)) := by
  obtain ⟨L, hL, -⟩ := ha
  unfold renameBy
  refine (Automaton.returns_rename hs (hL.formed.recognizes hL.deterministic)
    (Letter.actual_ne_zero hnodup hpositive)).bind
    fun b t hle ⟨hsimple, hb⟩ => .pure ?_
  refine (hb.mono (Set.subset_univ _)).withProps (fun _ _ => trivial) |>.decides (hs.mono hle)
    hsimple fun u => ?_
  rw [hL.formed.readable.admits_iff hs hL.deterministic, Word.ofLetters_retold hnodup]

/-- Outside all predicates there is one frame, in which unknown variables are free. -/
def AtTop (p : Program) : Prop :=
  ∃ vars, p.frames = [⟨.free, "top level", vars⟩] ∧ ∀ v q, (v, q) ∈ vars → 0 < q

theorem atTop_blank (config : Config) : (blank config).AtTop := ⟨[], rfl, nofun⟩

theorem AtTop.extend {p p' : Program} (h : p.AtTop)
    (hframes : List.Forall₂ Frame.Extends p.frames p'.frames) : p'.AtTop := by
  obtain ⟨vars, hp, hpositive⟩ := h
  rw [hp] at hframes
  obtain ⟨⟨kind, owner, vars'⟩, fs, hf, hnil, hp'⟩ := List.forall₂_cons_left_iff.1 hframes
  cases hnil
  obtain rfl : kind = .free := hf.kind
  obtain rfl : owner = "top level" := hf.owner
  exact ⟨vars', hp', fun v q hq => (hf.gained v q hq).elim (hpositive v q) id⟩

end Program

/-- Workspaces in the order in which they bind variables: what is bound keeps its proposition. -/
@[reducible] def Workspace.binding : Preorder Workspace :=
  Preorder.lift fun w v p => Program.findVar v w.program.frames = .bound p

attribute [local instance] Workspace.binding

namespace Program

variable {k : Engine} {w : Workspace} {name v : String} {q : Predicate} {r : Relation}

theorem findVar_bindFree_of_bound {fs : List Frame} {u : String} {p p' : Nat}
    (hv : findVar v fs = .free) (hu : findVar u fs = .bound p) :
    findVar u (bindFree v p' fs) = .bound p := by
  have huv : u ≠ v := by
    rintro rfl
    rw [hv] at hu
    cases hu
  induction fs with
  | nil => cases hv
  | cons f fs ih =>
    rw [bindFree]
    split
    · simpa only [findVar, List.lookup_cons, beq_false_of_ne huv] using hu
    · rename_i hkind
      simp only [findVar] at hu ⊢
      cases hlookup : f.vars.lookup u with
      | some q => simpa only [hlookup] using hu
      | none =>
        rw [hlookup] at hu
        cases hk : f.kind with
        | free => exact absurd hk hkind
        | «sealed» =>
          rw [hk] at hu
          cases hu
        | transparent =>
          rw [hk] at hu
          refine ih ?_ hu
          rw [findVar] at hv
          split at hv
          · cases hv
          · rwa [hk] at hv

theorem returns_propOf (h : w.program.AtTop) (v : String) : Returns (propOf v) w fun p w' =>
    (w'.program.AtTop ∧ w'.alphabet.diagrams = w.alphabet.diagrams) ∧
      findVar v w'.program.frames = .bound p ∧ 0 < p := by
  have htop := h.extend (Quiet.propOf v w).frames
  obtain ⟨vars, hframes, hpositive⟩ := h
  cases hlookup : vars.lookup v with
  | some p =>
    have hfind : findVar v w.program.frames = .bound p := by simp only [hframes, findVar, hlookup]
    have hrun : propOf v w = .ok p w := by
      simp only [propOf, ask, Bind.bind, EStateM.bind, hfind]
      rfl
    rw [endOf_of_eq_ok hrun] at htop
    exact ⟨p, w, hrun, le_refl w, ⟨htop, rfl⟩, hfind, hpositive v p (mem_of_lookup hlookup)⟩
  | none =>
    have hfind : findVar v w.program.frames = .free := by simp only [hframes, findVar, hlookup]
    obtain ⟨alphabet, program⟩ := w
    let names := alphabet.names.push (alphabet.unusedFrom v alphabet.size (alphabet.size + 1))
    have hrun : propOf v ⟨alphabet, program⟩ = .ok (alphabet.size + 1)
        ⟨{ alphabet with names },
          { program with frames := bindFree v (alphabet.size + 1) program.frames }⟩ := by
      simp only [propOf, ask, Bind.bind, EStateM.bind, hfind, liftM, monadLift,
        MonadLift.monadLift, fresh_eq, change]
      rfl
    rw [endOf_of_eq_ok hrun] at htop
    exact ⟨_, _, hrun, fun u p => findVar_bindFree_of_bound hfind, ⟨htop, rfl⟩,
      findVar_bindFree hfind, Nat.succ_pos _⟩

theorem findVar_of_le {w w' : Workspace} (hle : w ≤ w') {p : Nat}
    (h : findVar v w.program.frames = .bound p) : findVar v w'.program.frames = .bound p := by
  have hbound : ∀ v p, findVar v w.program.frames = .bound p →
      findVar v w'.program.frames = .bound p := hle
  exact hbound v p h

theorem returns_props (h : w.program.AtTop) (vars : List String) :
    Returns (vars.mapM propOf) w fun ps w' => w'.alphabet.diagrams = w.alphabet.diagrams ∧
      List.Forall₂ (fun v p => findVar v w'.program.frames = .bound p ∧ 0 < p) vars ps := by
  have hkeeping := Returns.mapM_keeping (f := propOf)
    (I := fun w' => w'.program.AtTop ∧ w'.alphabet.diagrams = w.alphabet.diagrams)
    (fun v p w' => findVar v w'.program.frames = .bound p ∧ 0 < p)
    (fun v p w₁ w₂ hle hp => ⟨findVar_of_le hle hp.1, hp.2⟩) vars w ⟨h, rfl⟩
  refine (hkeeping fun v _ w₁ _ hw₁ => ?_).mono fun ps w' _ ⟨hw', hps⟩ => ⟨hw'.2, hps⟩
  exact (returns_propOf hw₁.1 v).mono fun p w₂ _ ⟨hw₂, hp⟩ => ⟨⟨hw₂.1, hw₂.2.trans hw₁.2⟩, hp⟩

theorem relationOf_eq_of_resolveAlias {target : String}
    (hresolve : w.program.resolveAlias name = .ok target)
    (hq : w.program.predicates[target]? = some q) (hr : q.memo = some r) :
    k.relationOf name w = .ok (target, r) w := by
  have hmemo : k.memoOf target w = .ok r w := by
    simp only [Engine.memoOf, Bind.bind, EStateM.bind, predicate_eq_ok hq, hr]
    rfl
  change (do
    let target ← w.program.resolveAlias name
    return (target, ← k.memoOf target) : M (String × Relation)) w = .ok (target, r) w
  rw [hresolve]
  change (do
    return (target, ← k.memoOf target) : M (String × Relation)) w = .ok (target, r) w
  simp only [Bind.bind, EStateM.bind, hmemo]
  rfl

theorem relationOf_eq (hq : w.program.predicates[name]? = some q) (hr : q.memo = some r) :
    k.relationOf name w = .ok (name, r) w :=
  relationOf_eq_of_resolveAlias (resolveAlias_self (contains_of_getElem?_eq_some hq)) hq hr

/-- A predicate with a memo that is called on variables accepts a word if the memo accepts it with
the bits of the variables for those of the arguments. -/
theorem exists_callOn [Automaton.LanguageFamily] (hw : w.Belongs) (htop : w.program.AtTop)
    (hregistered : q.Registered name) (hq : w.program.predicates[name]? = some q)
    (hr : q.memo = some r) {vars : List String} (hlength : vars.length = q.args.length) :
    ∃ ps a w', k.callOn name vars w = .ok a w' ∧
      List.Forall₂ (fun v p => findVar v w'.program.frames = .bound p) vars ps ∧
      a.Decides w'.alphabet.diagrams fun u =>
        r.automaton.Admits w.alphabet.diagrams (u.map (Letter.retold (r.args.zip ps))) := by
  obtain ⟨hnodup, hargs⟩ := hregistered.memo r hr
  obtain ⟨ps, w₁, hrun, -, hdiagrams, hps⟩ := returns_props htop vars
  have hpslength := hps.length_eq
  have hfst : (r.args.zip ps).map (·.1) = r.args := List.map_fst_zip (by omega)
  have hpositive : ∀ pq ∈ r.args.zip ps, 0 < pq.2 := fun pq hpq => by
    obtain ⟨v, -, -, hpositive⟩ := exists_mem_of_forall₂ hps.flip (List.of_mem_zip hpq).2
    exact hpositive
  obtain ⟨a, t, hrename, hle, ha⟩ := returns_renameBy hw.sound
    ((hw.predicates name q hq).memo r hr) (hfst.symm ▸ hnodup) hpositive
  obtain ⟨⟨diagrams, names, literals, budget⟩, program⟩ := w₁
  obtain rfl : diagrams = w.alphabet.diagrams := hdiagrams
  refine ⟨ps, a, ⟨⟨t, names, literals, budget⟩, program⟩, ?_, hps.imp fun _ _ h => h.1, ha⟩
  have hcall : k.callOn name vars w = (do
      let actuals ← vars.mapM propOf
      renameBy r.automaton (r.args.zip actuals) : M Automaton) w := by
    rw [Engine.callOn]
    simp only [Bind.bind, EStateM.bind, relationOf_eq hq hr]
    rw [if_neg (by omega)]
    rfl
  rw [hcall]
  simp only [Bind.bind, EStateM.bind, hrun, liftM, monadLift, MonadLift.monadLift, hrename]

theorem exists_predicateTruth [Automaton.LanguageFamily] (hw : w.Belongs)
    (hq : w.program.predicates[name]? = some q) (hr : q.memo = some r) :
    ∃ t w', predicateTruth name w = .ok t w' ∧
      t.Says (r.automaton.Admits w.alphabet.diagrams) := by
  obtain ⟨L, hL, -⟩ := (hw.predicates name q hq).memo r hr
  obtain ⟨t, s, htruth, -, ht⟩ :=
    Automaton.returns_truth_says (x := w.alphabet) hw.sound hL.formed hL.deterministic
  have hautomaton : automatonOf name w = .ok r.automaton w := by
    simp only [automatonOf, Bind.bind, EStateM.bind, relationOf_eq hq hr]
    rfl
  obtain ⟨⟨diagrams, names, literals, budget⟩, program⟩ := w
  refine ⟨t, ⟨⟨s, names, literals, budget⟩, program⟩, ?_, ht⟩
  simp only [predicateTruth, Bind.bind, EStateM.bind, hautomaton, liftM, monadLift,
    MonadLift.monadLift, htruth]

end Program

end RegularArithmetic

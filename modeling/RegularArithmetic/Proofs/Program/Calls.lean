import RegularArithmetic.Proofs.Automaton.Renaming
import RegularArithmetic.Proofs.Program.Joining

/-!
Calls of predicates: a call says of its arguments what the relation of that name says of numbers.
-/

set_option autoImplicit false

namespace RegularArithmetic

open Program (findVar Engine temporaryPropsOf)

namespace Workspace

variable {I : Interpretation} {K : Limits} {w w' : Workspace} {v : Value}
  {X : Valuation → Operand} {start : Nat} {τ : Valuation} {e : Slot} {es : List Slot} {u : Word}

/-- The slot stands for one of the free variables, or for a proposition that is none of
theirs. -/
structure Admits (w : Workspace) (K : Limits) (τ : Valuation) (e : Slot) : Prop where
  known : e.operand.temporary = false → ∃ v ∈ K.vars,
    findVar v w.program.frames = .bound e.prop ∧ e.operand = .known (τ v)
  fresh : e.operand.temporary = true → e.prop ∉ w.propsOf K
  words : ∀ u, w.Fits K τ u → (e.words u ↔ e.operand.rel u.length (numbers u e.prop))

def slotOf (w : Workspace) (X : Operand) (v : Value) : Slot :=
  ⟨v.prop, X, v.automaton.Accepts w.alphabet.diagrams⟩

theorem Stands.admits (h : w.Stands K v X start) (τ : Valuation) :
    w.Admits K τ (w.slotOf (X τ) v) where
  known ht := by
    obtain ⟨hv, hX⟩ := h.known ((h.temporary τ).symm.trans ht)
    refine ⟨v.var, hv, h.bound, hX τ⟩
  fresh ht := (h.fresh ((h.temporary τ).symm.trans ht)).2
  words u hfits := h.accepts u τ hfits

theorem not_mem_propsOf_of_temporaries (hes : ∀ e ∈ es, w.Admits K τ e) {p : Nat}
    (hp : p ∈ Slot.temporaries es) : p ∉ w.propsOf K := by
  obtain ⟨e, he, rfl⟩ := List.mem_map.1 hp
  obtain ⟨he, ht⟩ := List.mem_filter.1 he
  exact (hes e he).fresh (by simpa using ht)

theorem Fits.of_completes {u' : Word} {T : List Nat} (hfits : w.Fits K τ u)
    (hT : ∀ p ∈ T, p ∉ w.propsOf K) (h : Completes T u u') : w.Fits K τ u' := by
  intro v hv p hp
  rw [hfits v hv p hp, h.2.2 p fun hpT => hT p hpT ⟨v, hv, hp⟩]

theorem fit_of_admits (hes : ∀ e ∈ es, w.Admits K τ e) (hnodup : (Slot.temporaries es).Nodup)
    (hfits : w.Fits K τ u) : Slot.Fit es u where
  known e he ht := by
    obtain ⟨v, hv, hbound, hoperand⟩ := (hes e he).known ht
    refine ⟨fun hmem => not_mem_propsOf_of_temporaries hes hmem ⟨v, hv, hbound⟩, ?_⟩
    rw [hoperand, hfits v hv _ hbound]
  nodup := hnodup
  words e he u' hcompletes := (hes e he).words u'
    (hfits.of_completes (fun _ => not_mem_propsOf_of_temporaries hes) hcompletes)

theorem Stands.mem_of_not_temporary (h : w.Stands K v X start) (ht : v.temporary = false) :
    v.prop ∈ w.propsOf K :=
  ⟨v.var, (h.known ht).1, h.bound⟩

theorem yields_combine {a : Automaton} {vs : List Value} {L : Word → Prop} {E : Set Nat}
    (hs : w.alphabet.diagrams.Sound) (hvs : ∀ v ∈ vs, ∃ X start, w.Stands K v X start)
    (ha : a.Recognizes w.alphabet.diagrams
      (w.propsOf K ∪ E ∪ {p | p ∈ temporaryPropsOf vs}) L) :
    Yields (liftM (Program.combine a vs) : Program.M Automaton) w fun b w' =>
      b.Recognizes w'.alphabet.diagrams (w.propsOf K ∪ E) (fun u =>
        ∃ u', Completes (temporaryPropsOf vs) u u' ∧ L u' ∧
          ∀ v ∈ vs, v.automaton.Accepts w.alphabet.diagrams u') ∧
      w'.program = w.program := by
  refine Program.yields_liftAlphabet ((Program.yields_combine hs ha
    (M := fun v => v.automaton.Accepts w.alphabet.diagrams) fun v hv => ?_).mono
      fun b y _ hb => hb.mono ?_)
  · obtain ⟨X, start, hX⟩ := hvs v hv
    refine hX.recognizes.mono (Set.insert_subset ?_ fun p hp => .inl (.inl hp))
    cases ht : v.temporary with
    | false => exact .inl (.inl (hX.mem_of_not_temporary ht))
    | true => exact .inr (List.mem_map.2 ⟨v, List.mem_filter.2 ⟨hv, ht⟩, rfl⟩)
  · rintro p ⟨hp | hp, hnot⟩
    · exact hp
    · exact absurd hp hnot

/-- What the argument of a call is: one of the free variables, or a value. -/
def Passes (w : Workspace) (K : Limits) (X : Valuation → Operand) (start : Nat) :
    String × Option Value → Prop
  | (v, none) => v ∈ K.vars ∧ ∀ τ, X τ = .known (τ v)
  | (v, some y) => y.var = v ∧ w.Stands K y X start

theorem Passes.mono {r : String × Option Value}
    (hv : ∀ v ∈ K.vars, ¬IsFuture w.program.temporaries v) (hle : w ≤ w')
    (hs : w.alphabet.diagrams.Sound) (h : w.Passes K X start r) : w'.Passes K X start r := by
  obtain ⟨v, _ | y⟩ := r
  · exact h
  · exact ⟨h.1, h.2.mono hv hle hs⟩

theorem Passes.of_start_le {r : String × Option Value} {start' : Nat} (h : w.Passes K X start r)
    (hstart : start' ≤ start) : w.Passes K X start' r := by
  obtain ⟨v, _ | y⟩ := r
  · exact h
  · exact ⟨h.1, h.2.of_start_le hstart⟩

end Workspace

/-- What an engine does with expressions of all limits: it gives automata that say what the
formulas do, and values that stand for what the integer expressions do. -/
structure Program.Engine.Sound (k : Engine) : Prop where
  formula : ∀ {I : Interpretation} {K : Limits} {w : Workspace} {x : Expr}, w.Ready I K →
    x.Within K → Yields (k.formula x) w fun a w' =>
      w'.Describes K a (x.Holds I (w.program.restrictions.bounds I))
  value : ∀ {I : Interpretation} {K : Limits} {w : Workspace} {x : Expr}, w.Ready I K →
    x.isFormula = false → x.Within K → Yields (k.value x) w fun v w' =>
      w'.Stands K v (x.operand I) w.alphabet.size

namespace Program

variable {I : Interpretation} {K : Limits} {w : Workspace} {k : Engine}

theorem yields_renameBy {s : Diagram.Store} (pairs : List (Nat × Nat))
    (R : Nat → List Nat → Prop) (hs : s.Sound) {a : Automaton} (hnodup : (pairs.map (·.1)).Nodup)
    (ha : a.Recognizes s {p | p ∈ pairs.map (·.1)} fun u =>
      R u.length ((pairs.map (·.1)).map (numbers u))) :
    Yields (renameBy a pairs) s fun b t =>
      b.Recognizes t {p | p ∈ pairs.map (·.2)} fun u =>
        R u.length ((pairs.map (·.2)).map (numbers u)) := by
  unfold renameBy
  have hρ : ∀ p q, (p, q) ∈ pairs → (pairs.reverse.lookup p).getD p = q := fun p q hpq => by
    rw [lookup_reverse hnodup hpq, Option.getD_some]
  refine (Automaton.yields_rename hs ha _).bind fun b t _ hb => .pure ?_
  have hreads : (fun p => (pairs.reverse.lookup p).getD p) '' {p | p ∈ pairs.map (·.1)} ⊆
      {p | p ∈ pairs.map (·.2)} := by
    rintro _ ⟨p, hp, rfl⟩
    obtain ⟨⟨p, q⟩, hpq, rfl⟩ := List.mem_map.1 hp
    exact List.mem_map.2 ⟨_, hpq, (hρ p q hpq).symm⟩
  refine ((hb.mono hreads).congr fun u => ?_).withProps fun q hq => ?_
  · have hnumbers : (pairs.map (·.1)).map (numbers (u.map (· ∘ fun p =>
        (pairs.reverse.lookup p).getD p))) = (pairs.map (·.2)).map (numbers u) := by
      rw [List.map_map, List.map_map]
      refine List.map_congr_left fun pq hpq => ?_
      simp only [Function.comp, numbers_map, hρ pq.1 pq.2 hpq]
    rw [hnumbers, List.length_map]
  · obtain ⟨pq, hpq, rfl⟩ := List.mem_map.1 hq
    exact hreads ⟨pq.1, List.mem_map.2 ⟨pq, hpq, rfl⟩, rfl⟩

theorem yields_predicate {name : String} : Yields (Engine.predicate name) w fun q w' =>
    w' = w ∧ w.program.predicates[name]? = some q := by
  unfold Engine.predicate
  refine (yields_ask (·.predicates)).bind fun qs w' _ ⟨hqs, hw'⟩ => ?_
  subst hqs hw'
  split
  · exact .pure ⟨rfl, ‹_›⟩
  · exact .throw

theorem yields_relationOf (hw : w.Ready I K) {name : String} (hname : name ∈ K.names) :
    Yields (k.relationOf name) w fun r w' =>
      w' = w ∧ r.2.Means w.alphabet.diagrams (I.holds name) := by
  unfold Engine.relationOf
  refine (yields_ask id).bind fun p w' _ ⟨hp, hw'⟩ => ?_
  subst hp hw'
  refine (yields_liftError (P := fun target => w'.program.resolveAlias name = .ok target)
    fun _ h => h).bind fun target w _ ⟨htarget, hw'⟩ => ?_
  subst hw'
  refine Yields.map (P := fun r w' => w' = w ∧ r.Means w.alphabet.diagrams (I.holds name)) ?_
    fun r w' _ h => h
  unfold Engine.memoOf
  refine yields_predicate.bind fun q w' _ ⟨hw', hq⟩ => ?_
  subst hw'
  cases hmemo : q.memo with
  | some r =>
    exact .pure ⟨rfl, hw.right.relations name (hw.suits.names hname) target q r htarget hq hmemo⟩
  | none =>
    obtain ⟨hdetect, hprogress⟩ := hw.suits.settled name hname target q htarget hq hmemo
    refine (yields_ask (·.config)).bind fun c w'' _ ⟨hc, hw''⟩ => ?_
    subst hc hw''
    refine (yields_ask (·.inProgress)).bind fun c w' _ ⟨hc, hw'⟩ => ?_
    subst hc hw'
    rw [if_pos (by simpa [hdetect] using hprogress)]
    exact .throw

theorem yields_callOn (hw : w.Ready I K) {name : String} (hname : name ∈ K.names)
    {vars : List String} (hvars : ∀ v ∈ vars, ¬IsFuture w.program.temporaries v) :
    Yields (k.callOn name vars) w fun a w' => ∃ ps : List Nat,
      List.Forall₂ (fun v p => findVar v w'.program.frames = .bound p) vars ps ∧
      a.Recognizes w'.alphabet.diagrams {p | p ∈ ps} fun u =>
        I.holds name u.length (ps.map (numbers u)) := by
  unfold Engine.callOn
  refine (yields_relationOf hw hname).bind fun (target, r) w' _ ⟨hw', hr⟩ => ?_
  subst hw'
  refine .ite (fun _ => .throw) fun hlength => ?_
  let Bound (v : String) (p : Nat) (w : Workspace) : Prop :=
    ¬IsFuture w.program.temporaries v ∧ findVar v w.program.frames = .bound p
  have hmono : ∀ v p w₁ w₂, w₁ ≤ w₂ → Bound v p w₁ → Bound v p w₂ := fun v p w₁ w₂ hle h =>
    ⟨fun hfuture => h.1 (hfuture.mono hle.temporaries), findVar_of_grows hle.frames h.1 h.2⟩
  refine (Yields.mapM Bound hmono vars w' fun v hv w₁ hle => ?_).bind fun ps w₁ hle hps => ?_
  · have hnot : ¬IsFuture w₁.program.temporaries v := fun hfuture =>
      hvars v hv (hfuture.mono hle.temporaries)
    exact (yields_propOf hnot).mono fun p w₂ hle hp =>
      ⟨fun hfuture => hnot (hfuture.mono hle.temporaries), hp⟩
  · have hlength : r.args.length = ps.length := (not_not.1 hlength).symm.trans hps.length_eq
    have hr₁ := hr.recognizes.mono_store hw.sound hle.alphabet.1
    have hfst : (r.args.zip ps).map (·.1) = r.args := List.map_fst_zip hlength.le
    have hsnd : (r.args.zip ps).map (·.2) = ps := List.map_snd_zip hlength.ge
    have hrename := yields_renameBy (r.args.zip ps) (I.holds name) (hw.mono hle).sound
      (hfst.symm ▸ hr.nodup) (hfst.symm ▸ hr₁)
    rw [hsnd] at hrename
    refine (yields_liftDiagram hrename).mono fun a w₂ _ ⟨ha, hprogram⟩ => ⟨ps, ?_, ha⟩
    rw [hprogram]
    exact hps.imp fun v p h => h.2

theorem yields_argument (hk : k.Sound) (hw : w.Ready I K) {x : Expr} (hx : x.isFormula = false)
    (hwithin : x.Within K) : Yields (k.argument x) w fun r w' =>
      w'.Passes K (x.operand I) w.alphabet.size r := by
  unfold Engine.argument
  split
  · rename_i v hform
    obtain ⟨f, d⟩ := x
    cases hform
    exact .pure ⟨hwithin.1, fun _ => rfl⟩
  · rw [if_neg (by simp [hx])]
    exact (hk.value hw hx hwithin).bind fun y w' _ hy => .pure ⟨rfl, hy⟩

theorem nodup_temporaryPropsOf_cons {y : Value} {vs : List Value}
    (hy : y.temporary = true → ∀ p ∈ temporaryPropsOf vs, p ≠ y.prop)
    (h : (temporaryPropsOf vs).Nodup) : (temporaryPropsOf (y :: vs)).Nodup := by
  rw [temporaryPropsOf, List.filter_cons]
  split
  · exact List.nodup_cons.2 ⟨fun hmem => hy ‹_› _ hmem rfl, h⟩
  · exact h

theorem lt_of_mem_temporaryPropsOf {xs : List Expr} {rs : List (String × Option Value)}
    {start : Nat} (h : List.Forall₂ (fun x r => w.Passes K (x.operand I) start r) xs rs) {p : Nat}
    (hp : p ∈ temporaryPropsOf (rs.filterMap (·.2))) : start < p := by
  obtain ⟨y, hy, rfl⟩ := List.mem_map.1 hp
  obtain ⟨hy, ht⟩ := List.mem_filter.1 hy
  obtain ⟨⟨v, z⟩, hr, hz⟩ := List.mem_filterMap.1 hy
  obtain rfl : z = some y := hz
  obtain ⟨x, -, hpasses⟩ := exists_mem_of_forall₂ h.flip hr
  exact (hpasses.2.fresh ht).1

theorem yields_arguments (hk : k.Sound) : ∀ {xs : List Expr} {w : Workspace}, w.Ready I K →
    withinArgs xs K → Yields (xs.mapM k.argument) w fun rs w' =>
      List.Forall₂ (fun x r => w'.Passes K (x.operand I) w.alphabet.size r) xs rs ∧
      (temporaryPropsOf (rs.filterMap (·.2))).Nodup
  | [], _, _, _ => by
    rw [List.mapM_nil]
    exact .pure ⟨.nil, by simp [temporaryPropsOf]⟩
  | x :: xs, w, hw, hxs => by
    rw [List.mapM_cons]
    refine (yields_argument hk hw hxs.1.1 hxs.1.2).bind fun r w₁ hle hr => ?_
    refine (yields_arguments hk (hw.mono hle) hxs.2).bind fun rs w₂ hle₁ ⟨hrs, hnodup⟩ => ?_
    have hw₁ := hw.mono hle
    refine .pure ⟨.cons (hr.mono hw₁.suits.vars hle₁ hw₁.sound) (hrs.imp fun y r hr => ?_), ?_⟩
    · exact hr.of_start_le (Alphabet.size_mono hle.alphabet)
    · obtain ⟨v, _ | y⟩ := r
      · exact hnodup
      · change (temporaryPropsOf (y :: rs.filterMap (·.2))).Nodup
        refine nodup_temporaryPropsOf_cons (fun ht p hp hpy => ?_) hnodup
        have hlt : w₁.alphabet.size < p := lt_of_mem_temporaryPropsOf hrs hp
        have hle := hr.2.le_size
        omega

theorem exists_slots {xs : List Expr} {rs : List (String × Option Value)} {start : Nat}
    (hrs : List.Forall₂ (fun x r => w.Passes K (x.operand I) start r) xs rs) {ps : List Nat}
    (hps : List.Forall₂ (fun v p => findVar v w.program.frames = .bound p) (rs.map (·.1)) ps)
    (τ : Valuation) :
    ∃ es : List Slot, es.map (·.prop) = ps ∧ es.map (·.operand) = operands I xs τ ∧
      Slot.temporaries es = temporaryPropsOf (rs.filterMap (·.2)) ∧
      (∀ e ∈ es, w.Admits K τ e) ∧
      ∀ u, (∀ e ∈ es, e.words u) ↔
        ∀ y ∈ rs.filterMap (·.2), y.automaton.Accepts w.alphabet.diagrams u := by
  induction hrs generalizing ps with
  | nil =>
    cases hps
    exact ⟨[], rfl, rfl, rfl, by simp, by simp⟩
  | @cons x r xs rs hr _ ih =>
    obtain ⟨v, y⟩ := r
    cases hps with
    | @cons _ p _ ps hp hps =>
      obtain ⟨es, hprops, hoperands, htemporaries, hadmits, hwords⟩ := ih hps
      cases y with
      | none =>
        refine ⟨⟨p, x.operand I τ, fun _ => True⟩ :: es, by simp [hprops], ?_, ?_, ?_, fun u => ?_⟩
        · rw [List.map_cons, hoperands, operands]
        · rw [Slot.temporaries, List.filter_cons_of_neg (by simp [hr.2, Operand.known])]
          exact htemporaries
        · rw [List.forall_mem_cons]
          refine ⟨⟨fun _ => ⟨v, hr.1, hp, hr.2 τ⟩, ?_, fun u hfits => ?_⟩, hadmits⟩
          · simp [hr.2, Operand.known]
          · simp [hr.2, Operand.known, hfits v hr.1 p hp]
        · rw [List.forall_mem_cons]
          exact (true_and _).to_iff.trans (hwords u)
      | some y =>
        obtain ⟨hvar, hy⟩ := hr
        have hprop : y.prop = p := by
          have hbound := hy.bound
          rw [hvar, hp] at hbound
          exact (Found.bound.inj hbound).symm
        refine ⟨w.slotOf (x.operand I τ) y :: es, ?_, ?_, ?_, ?_, fun u => ?_⟩
        · rw [List.map_cons, hprops, Workspace.slotOf, hprop]
        · rw [List.map_cons, hoperands, operands]
          rfl
        · change _ = temporaryPropsOf (y :: rs.filterMap (·.2))
          rw [Slot.temporaries, temporaryPropsOf, List.filter_cons, List.filter_cons]
          simp only [Workspace.slotOf, hy.temporary τ]
          split
          · rw [List.map_cons, List.map_cons]
            exact congrArg _ htemporaries
          · exact htemporaries
        · rw [List.forall_mem_cons]
          exact ⟨hy.admits τ, hadmits⟩
        · change _ ↔ ∀ z ∈ y :: rs.filterMap (·.2), _
          rw [List.forall_mem_cons, List.forall_mem_cons, hwords u]
          rfl

theorem yields_apply (hk : k.Sound) (hw : w.Ready I K) {c : Call} (hc : c.Within K) :
    Yields (k.apply c) w fun a w' => w'.Describes K a (c.Holds I) := by
  obtain ⟨name, xs⟩ := c
  unfold Engine.apply
  refine (yields_arguments hk hw hc.2).bind fun rs w₁ hle ⟨hrs, hnodup⟩ => ?_
  have hw₁ := hw.mono hle
  have hnamed : ∀ r ∈ rs, ¬IsFuture w₁.program.temporaries r.1 := by
    rintro ⟨v, _ | y⟩ hr
    all_goals obtain ⟨x, -, hpasses⟩ := exists_mem_of_forall₂ hrs.flip hr
    · exact hw₁.suits.vars v hpasses.1
    · exact hpasses.1 ▸ hpasses.2.named
  refine (yields_callOn hw₁ hc.1 fun v hv => ?_).bind fun a w₂ hle₁ ⟨ps, hps, ha⟩ => ?_
  · obtain ⟨r, hr, rfl⟩ := List.mem_map.1 hv
    exact hnamed r hr
  · have hrs := hrs.imp fun x r hr => hr.mono hw₁.suits.vars hle₁ hw₁.sound
    have hvalues : ∀ y ∈ rs.filterMap (·.2), ∃ X start, w₂.Stands K y X start := by
      intro y hy
      obtain ⟨⟨v, z⟩, hr, hz⟩ := List.mem_filterMap.1 hy
      obtain rfl : z = some y := hz
      obtain ⟨x, -, hpasses⟩ := exists_mem_of_forall₂ hrs.flip hr
      exact ⟨_, _, hpasses.2⟩
    have hreads : {p | p ∈ ps} ⊆
        w₂.propsOf K ∪ ∅ ∪ {p | p ∈ temporaryPropsOf (rs.filterMap (·.2))} := by
      obtain ⟨es, rfl, -, htemporaries, hadmits, -⟩ := exists_slots hrs hps fun _ => 0
      intro p hp
      obtain ⟨e, he, rfl⟩ := List.mem_map.1 hp
      cases ht : e.operand.temporary with
      | false =>
        obtain ⟨v, hv, hbound, -⟩ := (hadmits e he).known ht
        exact .inl (.inl ⟨v, hv, hbound⟩)
      | true =>
        have hmem : e.prop ∈ Slot.temporaries es :=
          List.mem_map.2 ⟨e, List.mem_filter.2 ⟨he, by simpa using ht⟩, rfl⟩
        exact .inr (htemporaries ▸ hmem)
    refine (Workspace.yields_combine (hw₁.mono hle₁).sound hvalues (ha.mono hreads)).mono
      fun b w₃ _ ⟨hb, hprogram⟩ => ?_
    have hprops : w₃.propsOf K = w₂.propsOf K ∪ ∅ := by
      simp only [Workspace.propsOf, hprogram, Set.union_empty]
    refine ⟨_, hprops ▸ hb, fun u τ hfits => ?_⟩
    have hfits : w₂.Fits K τ u := by simpa only [Workspace.Fits, hprogram] using hfits
    obtain ⟨es, rfl, hoperands, htemporaries, hadmits, hwords⟩ := exists_slots hrs hps τ
    have hjoined := Slot.joined_iff (Workspace.fit_of_admits hadmits (htemporaries ▸ hnodup) hfits)
      (I.holds name)
    rw [hoperands, htemporaries] at hjoined
    rw [Call.Holds, ← hjoined]
    simp only [hwords, List.map_map, Function.comp_def]

theorem resolveCall_eq {p : Program} (hp : p.declarations = []) (c : Call) (ds : List Domain) :
    p.resolveCall c ds = .ok c := by
  have hpattern : ds.foldlM (fun (q : Pattern) d => q.unify (.ofDomain [] c.name d)) .wildcard =
      .ok .wildcard := by
    induction ds with
    | nil => rfl
    | cons d ds ih =>
      rw [List.foldlM_cons]
      have hhead : Pattern.ofDomain [] c.name d = .wildcard := by cases d <;> rfl
      rw [hhead]
      exact ih
  have hresolve : ∀ callable : String → Bool, resolve [] callable c ds = .ok c := by
    intro callable
    simp only [resolve, hpattern, List.any_nil, Bool.and_false]
    rfl
  simp only [resolveCall, hp, hresolve]

theorem yields_call (hk : k.Sound) (hw : w.Ready I K) {c : Call} (hc : c.Within K) :
    Yields (k.call c) w fun a w' => w'.Describes K a (c.Holds I) := by
  unfold Engine.call
  refine (yields_ask id).bind fun p w' _ ⟨hp, hw'⟩ => ?_
  subst hp hw'
  rw [id_eq, resolveCall_eq hw.right.declarations]
  exact yields_apply hk hw hc

theorem mapM_propOf_eq {vars : List String} {ps : List Nat}
    (h : List.Forall₂ (fun v p => findVar v w.program.frames = .bound p) vars ps) :
    vars.mapM propOf w = .ok ps w := by
  induction h with
  | nil => rfl
  | @cons v p vars ps hv _ ih =>
    have hrun : propOf v w = .ok p w := by
      simp only [propOf, ask, Bind.bind, EStateM.bind, hv]
      rfl
    rw [List.mapM_cons, bind_of_ok hrun, bind_of_ok ih]
    rfl

theorem mapM_argument (vars : List (String × Domain)) :
    (vars.map fun (v, d) => (⟨.var v, some d⟩ : Expr)).mapM k.argument =
      (pure (vars.map fun (v, _) => (v, none)) : M _) := by
  induction vars with
  | nil => rfl
  | cons v vars ih =>
    rw [List.map_cons, List.mapM_cons, ih]
    rfl

theorem yields_relation (hw : w.Ready I K) {name : String} (hname : name ∈ K.names)
    {vars : List (String × Domain)} (hvars : ∀ v ∈ vars, ¬IsFuture w.program.temporaries v.1) :
    Yields (k.relation name vars) w fun a w' => ∃ ps : List Nat,
      List.Forall₂ (fun v p => findVar v.1 w'.program.frames = .bound p) vars ps ∧
      a.Recognizes w'.alphabet.diagrams {p | p ∈ ps} fun u =>
        I.holds name u.length (ps.map (numbers u)) := by
  unfold Engine.relation
  refine (yields_ask id).bind fun p w' _ ⟨hp, hw'⟩ => ?_
  subst hp hw'
  rw [id_eq, resolveCall_eq hw.right.declarations]
  change Yields (k.apply _) w' _
  unfold Engine.apply
  rw [mapM_argument, pure_bind]
  have hnames : (vars.map fun (v, _) => (v, (none : Option Value))).map (·.1) = vars.map (·.1) := by
    rw [List.map_map]
    rfl
  have hnone : (vars.map fun (v, _) => (v, (none : Option Value))).filterMap (·.2) = [] := by
    simp
  rw [hnames, hnone]
  refine (yields_callOn hw hname fun v hv => ?_).bind fun a w₁ _ ⟨ps, hps, ha⟩ => ?_
  · obtain ⟨r, hr, rfl⟩ := List.mem_map.1 hv
    exact hvars r hr
  · have hcombine : combine a [] = pure a := rfl
    rw [hcombine]
    exact .pure ⟨ps, List.forall₂_map_left_iff.1 hps, ha⟩

end Program

end RegularArithmetic

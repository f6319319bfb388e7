import RegularArithmetic.Program.Evaluation
import RegularArithmetic.Proofs.Meaning.Substitution
import RegularArithmetic.Proofs.Program.Arithmetic
import RegularArithmetic.Proofs.Program.Scopes

/-!
Formulas: the automaton of a formula accepts the words in which its free variables stand for
numbers of which it is true.
-/

set_option autoImplicit false

namespace RegularArithmetic

open Program (FrameGrows findVar Engine)

namespace Workspace

variable {I : Interpretation} {K : Limits} {w w' : Workspace} {a : Automaton}
  {S : Nat → Valuation → Prop} {v : String} {p : Nat}

theorem Describes.yields_project {f : Frame} {fs : List Frame} (hs : w.alphabet.diagrams.Sound)
    (ha : w.Describes (K.bind v) a S) (hframes : w.program.frames = f :: fs)
    (hfind : ∀ u ∈ (K.bind v).vars,
      findVar u (f :: fs) = if u = v then .bound p else findVar u fs)
    (hne : ∀ u ∈ K.vars, findVar u fs ≠ .bound p) :
    Yields (liftM (a.project (.ofList [p])) : Program.M Automaton) w fun b w' =>
      w'.program = w.program ∧ (w'.framing fs).Describes K b fun n τ =>
        ∃ m ≥ n, ∃ c < 2 ^ m, S m (Function.update τ v c) := by
  obtain ⟨L, hL, hS⟩ := ha
  have hmem : ∀ q, q ∈ (NumberSet.ofList [p]).toList ↔ q = p := fun q =>
    NumberSet.mem_ofList.trans List.mem_singleton
  have hempty : (NumberSet.ofList [p]).isEmpty = false := rfl
  refine (Program.yields_liftAlphabet (Automaton.yields_project hs hL hempty)).mono
    fun b w' _ ⟨hb, hprogram⟩ => ⟨hprogram, _, hb.mono ?_, fun u τ hfits => ?_⟩
  · rintro q ⟨⟨u, hu, hq⟩, hqp⟩
    have hqp : q ≠ p := fun heq => hqp ((hmem q).2 heq)
    rw [hframes, hfind u hu] at hq
    by_cases huv : u = v
    · rw [if_pos huv] at hq
      exact absurd (Program.Found.bound.inj hq).symm hqp
    · rw [if_neg huv] at hq
      exact ⟨u, hu.resolve_left huv, hq⟩
  · have hnumbers : ∀ u' c, (∀ q, q ≠ p → numbers u' q = numbers u q) → numbers u' p = c →
        w.Fits (K.bind v) (Function.update τ v c) u' := by
      intro u' c hoff hp x hx q hq
      rw [hframes, hfind x hx] at hq
      by_cases hxv : x = v
      · rw [if_pos hxv] at hq
        rw [hxv, Function.update_self, ← Program.Found.bound.inj hq, hp]
      · rw [if_neg hxv] at hq
        have hxK := hx.resolve_left hxv
        rw [Function.update_of_ne hxv, hoff q fun heq => hne x hxK (heq ▸ hq)]
        exact hfits x hxK q hq
    rw [Automaton.projected_iff]
    simp only [hmem]
    constructor
    · rintro ⟨u', hlength, hoff, hu'⟩
      exact ⟨u'.length, hlength, numbers u' p, numbers_lt u' p,
        (hS u' _ (hnumbers u' _ hoff rfl)).1 hu'⟩
    · rintro ⟨m, hm, c, hc, hSm⟩
      obtain ⟨u', hlength, hu'⟩ := exists_word (n := m) (σ := Function.update (numbers u) p c)
        fun q => by
          rw [Function.update_apply]
          split
          · exact hc
          · exact Nat.lt_of_lt_of_le (numbers_lt u q) (Nat.pow_le_pow_right (by decide) hm)
      have hoff : ∀ q, q ≠ p → numbers u' q = numbers u q := fun q hq => by
        rw [hu', Function.update_of_ne hq]
      have hp : numbers u' p = c := by rw [hu', Function.update_self]
      exact ⟨u', hlength ▸ hm, hoff, (hS u' _ (hnumbers u' c hoff hp)).2 (hlength ▸ hSm)⟩

/-- The state in which the body of a quantifier is evaluated. -/
theorem Ready.body {g : Option Call} (h : w.Ready I K) (hv : v ∈ K.binders)
    (hg : withinGuard g (K.bind v)) {x : Alphabet} (hx : w.alphabet ≤ x)
    (hp : p ≤ x.size) :
    Ready I (K.bind v) ⟨x, { w.program with
      restrictions := w.program.restrictions.enter (Program.guardScopeOf v g)
      frames := ⟨.transparent, v, [(v, p)]⟩ :: w.program.frames }⟩ where
  right :=
    have hright := Right.mono_alphabet (p := w.program) h.right hx
    ⟨hright.sound, hright.declarations, hright.names, hright.relations, hright.settled,
      hright.constants, hright.temporary, hright.known⟩
  framed := by
    refine ⟨by simp, fun f hf u q hq => ?_⟩
    rcases List.mem_cons.1 hf with rfl | hf
    · cases List.mem_singleton.1 hq
      exact hp
    · exact (h.framed.vars f hf u q hq).trans (Alphabet.size_mono hx)
  suits := {
    names := h.suits.names
    vars := by
      rintro u (rfl | hu)
      · exact h.suits.binders u hv
      · exact h.suits.vars u hu
    binders := h.suits.binders
    settled := h.suits.settled
    context := h.suits.context
    domains := h.suits.domains
    literals := fun l hl => (h.suits.literals l hl).mono_store h.sound hx.1 }
  restricted := by
    refine ⟨fun u hu c hc => ?_, fun u hne => ?_⟩
    · rcases Program.mem_visible_enter.1 hc with hvisible | ⟨rfl, hguard⟩
      · exact (h.restricted.within u hu c hvisible).mono ((K.allows_bind v).bind u)
      · rw [Option.mem_def] at hguard
        subst hguard
        exact Call.Within.mono (c := c) hg ((K.bind u).allows_bind u)
    · obtain ⟨c, hc⟩ := List.exists_mem_of_ne_nil _ hne
      rcases Program.mem_visible_enter.1 hc with hc | ⟨rfl, -⟩
      · exact h.restricted.vars u (List.ne_nil_of_mem hc)
      · exact h.suits.binders u hv

end Workspace

namespace Program

variable {I : Interpretation} {K : Limits} {w : Workspace} {k : Engine}

theorem holds_body {cs : List Call} {g : Option Call} {r : Restrictions} {v : String} {x : Expr}
    {B : Bounds} {n : Nat} {τ : Valuation} (hcs : cs = g.toList ++ r.visible v) :
    (conjoin cs x).Holds I B n τ ↔
      GuardHolds I g n τ ∧ r.bounds I v n τ ∧ x.Holds I B n τ := by
  rw [hcs, holds_conjoin]
  simp only [List.mem_append, Option.mem_toList, or_imp, forall_and, and_assoc]
  rfl

theorem yields_evaluateSome (hk : k.Sound) (hw : w.Ready I K) {v : String} {g : Option Call}
    {x : Expr} (hv : v ∈ K.binders) (hg : withinGuard g (K.bind v)) (hx : x.Within (K.bind v)) :
    Yields (k.evaluateSome v g x) w fun a w' => w'.Describes K a
      ((Form.forSome v g x).Holds I (w.program.restrictions.bounds I)) := by
  unfold Engine.evaluateSome
  refine (yields_ask _).bind ?_
  rintro r w' - ⟨rfl, rfl⟩
  simp only
  refine yields_withScope_restrictBy ((yields_withScope (P := fun a w₁ =>
    (w₁.under w'.program.restrictions).Describes K a
      ((Form.forSome v g x).Holds I (w'.program.restrictions.bounds I))) ?_).mono ?_)
  · refine (yields_liftAlphabet (yields_fresh v)).bind ?_
    rintro p ⟨x₁, program⟩ hle ⟨⟨hp, hsize, -⟩, rfl⟩
    have hbody : Workspace.Ready I (K.bind v) _ :=
      hw.body hv hg (x := x₁) hle.alphabet (hp.trans hsize.symm).le
    have hfull : (conjoin (g.toList ++ w'.program.restrictions.visible v) x).Within (K.bind v) := by
      refine within_conjoin (fun c hc => ?_) hx
      rcases List.mem_append.1 hc with hc | hc
      · obtain rfl : g = some c := by simpa using hc
        exact hg
      · exact hw.restricted.within v hv c hc
    refine (yields_withFrame (P := fun a w₁ => (w₁.framing (w₁.program.frames.drop 1)).Describes K a
      ((Form.forSome v g x).Holds I (w'.program.restrictions.bounds I))) ?_).mono ?_
    · refine (hk.formula hbody hfull).bind fun a w₁ hle₁ ha => ?_
      have hframes := hle₁.frames
      generalize hfs : w₁.program.frames = fs at hframes
      cases hframes with
      | @cons _ f _ fs hf hrest =>
        have hfind : ∀ u ∈ (K.bind v).vars,
            findVar u (f :: fs) = if u = v then .bound p else findVar u fs :=
          fun u hu => findVar_transparent (hbody.suits.vars u hu) hf
        have hne : ∀ u ∈ K.vars, findVar u fs ≠ .bound p := by
          intro u hu hbound
          rcases findVar_before hrest hbound with hbefore | hlt
          · exact absurd (hw.framed.le_size hbefore) (by rw [hp]; exact Nat.not_succ_le_self _)
          · exact absurd hlt (hp.trans hsize.symm).le.not_gt
        refine (ha.yields_project (hbody.mono hle₁).sound hfs hfind hne).mono ?_
        rintro b w₂ - ⟨hprogram, hb⟩
        have hdrop : w₂.program.frames.drop 1 = fs := by
          rw [hprogram, hfs, List.drop_one, List.tail_cons]
        rw [hdrop]
        refine hb.congr fun n τ => exists_congr fun m => and_congr_right fun _ =>
          exists_congr fun c => and_congr_right fun _ => ?_
        rw [holds_body rfl, ← bounds_enter]
    · rintro a _ - ⟨w₁, -, ha, rfl⟩
      exact ha
  · rintro a _ - ⟨w₁, -, ha, rfl⟩
    exact ha

theorem yields_evaluateLiteral (hw : w.Ready I K) {l : Literal} (hl : l ∈ K.literals)
    (hvars : ∀ v ∈ l.vars, v.1 ∈ K.vars) :
    Yields (Engine.evaluateLiteral l) w fun a w' => w'.Describes K a fun n τ =>
      I.literal l n (l.vars.map fun (v, _) => τ v) := by
  unfold Engine.evaluateLiteral
  let Paired (v : String × Nat) (pair : Nat × Nat) (w : Workspace) : Prop :=
    (pair.1 = v.2 ∧ v.1 ∈ K.vars) ∧ ¬IsFuture w.program.temporaries v.1 ∧
      findVar v.1 w.program.frames = .bound pair.2
  have hmono : ∀ v pair w₁ w₂, w₁ ≤ w₂ → Paired v pair w₁ → Paired v pair w₂ :=
    fun v pair w₁ w₂ hle h => ⟨h.1, fun hfuture => h.2.1 (hfuture.mono hle.temporaries),
      findVar_of_grows hle.frames h.2.1 h.2.2⟩
  refine (Yields.mapM Paired hmono l.vars w fun v hv w₁ hle => ?_).bind
    fun pairs w₁ hle hpairs => ?_
  · have hnot := (hw.mono hle).suits.vars v.1 (hvars v hv)
    exact (yields_propOf hnot).bind fun p w₂ hle₁ hp =>
      .pure ⟨⟨rfl, hvars v hv⟩, fun hfuture => hnot (hfuture.mono hle₁.temporaries), hp⟩
  · have hw₁ := hw.mono hle
    have hmeans := hw₁.suits.literals l hl
    have hfst : pairs.map (·.1) = l.vars.map (·.2) := by
      rw [eq_comm, ← List.forall₂_eq_eq_eq, List.forall₂_map_left_iff, List.forall₂_map_right_iff]
      exact hpairs.imp fun v pair h => h.1.1.symm
    have hrename := yields_renameBy pairs (I.literal l) hw₁.sound (hfst ▸ hmeans.nodup)
      (a := l.automaton) (hfst ▸ hmeans.recognizes)
    refine (yields_liftDiagram hrename).mono fun a w₂ hle₁ ⟨ha, _⟩ => ?_
    have hpairs := hpairs.imp fun v pair h => hmono v pair w₁ w₂ hle₁ h
    refine ⟨_, ha.mono fun p hp => ?_, fun u τ hfits => ?_⟩
    · obtain ⟨pair, hpair, rfl⟩ := List.mem_map.1 hp
      obtain ⟨v, -, ⟨-, hv⟩, -, hbound⟩ := exists_mem_of_forall₂ hpairs.flip hpair
      exact ⟨v.1, hv, hbound⟩
    · have hvalues : (pairs.map (·.2)).map (numbers u) = l.vars.map fun v => τ v.1 := by
        rw [List.map_map, eq_comm, ← List.forall₂_eq_eq_eq, List.forall₂_map_left_iff,
          List.forall₂_map_right_iff]
        exact hpairs.imp fun v pair h => hfits v.1 h.1.2 pair.2 h.2.2
      rw [hvalues]

theorem yields_evaluateComparison (hk : k.Sound) (hw : w.Ready I K) {op : Comparison} {x y : Expr}
    (hx : x.isFormula = false) (hxK : x.Within K) (hy : y.isFormula = false) (hyK : y.Within K) :
    Yields (k.evaluateComparison op x y) w fun a w' => w'.Describes K a fun n τ =>
      Operand.Related I op.relation (x.operand I τ) (y.operand I τ) n := by
  unfold Engine.evaluateComparison
  refine yields_values hk hw hx hxK hy hyK fun {v u w₂} hw₂ hle hv hu hvu => ?_
  refine (yields_ask id).bind fun p w' _ ⟨hp, hw'⟩ => ?_
  subst hp hw'
  have hpair := hasOperands_pair hv hu hvu
  have hname : op.relation ∈ K.names := by
    cases op
    · exact hw₂.suits.context.2.1
    · exact hw₂.suits.context.2.2
  have hbound : List.Forall₂ (fun y q => findVar y.1 w'.program.frames = .bound q ∧
      ¬IsFuture w'.program.temporaries y.1)
      [(v.var, w'.program.domainOf x), (u.var, w'.program.domainOf y)] [v.prop, u.prop] :=
    .cons ⟨hv.bound, hv.named⟩ (.cons ⟨hu.bound, hu.named⟩ .nil)
  refine (yields_relationBound hw₂ hname hbound).bind fun a w₃ hle₁ ha => ?_
  have hpair := hpair.mono hw₂.suits.vars hw₂.sound hle₁
  refine (hpair.yields_combine (hw₂.mono hle₁).sound [v, u] (by simp) (E := ∅)
    (R := fun n vs _ => I.holds op.relation n vs) (by simp) (fun _ _ _ _ _ => Iff.rfl) ?_).mono
      fun b w₄ _ ⟨⟨L, hb, hL⟩, hprogram⟩ => ?_
  · rw [Set.empty_union]
    exact ha
  · refine ⟨L, ?_, fun u τ hfits => hL u τ ?_⟩
    · simpa only [Workspace.propsOf, hprogram, Set.union_empty] using hb
    · simpa only [Workspace.Fits, hprogram] using hfits

section

variable {x y : Expr} {B : Bounds}

theorem yields_formulas (hk : k.Sound) (hw : w.Ready I K) (hx : x.Within K) (hy : y.Within K)
    {α : Type} {P : α → Workspace → Prop} {f : Automaton → Automaton → M α}
    (hf : ∀ {a b : Automaton} {w' : Workspace}, w'.Ready I K → w ≤ w' →
      w'.Describes K a (x.Holds I (w.program.restrictions.bounds I)) →
      w'.Describes K b (y.Holds I (w.program.restrictions.bounds I)) → Yields (f a b) w' P) :
    Yields (do f (← k.formula x) (← k.formula y)) w P := by
  refine (hk.formula hw hx).bind fun a w₁ hle ha => ?_
  have hw₁ := hw.mono hle
  refine (hk.formula hw₁ hy).bind fun b w₂ hle₁ hb => ?_
  rw [hle.restrictions] at hb
  exact hf (hw₁.mono hle₁) (le_trans hle hle₁) (ha.mono hw₁.suits.vars hle₁ hw₁.sound) hb

theorem yields_evaluateIff (hk : k.Sound) (hw : w.Ready I K) (hx : x.Within K) (hy : y.Within K) :
    Yields (k.evaluateIff x y) w fun a w' => w'.Describes K a fun n τ =>
      (x.Holds I (w.program.restrictions.bounds I) n τ ↔
        y.Holds I (w.program.restrictions.bounds I) n τ) := by
  unfold Engine.evaluateIff
  refine yields_formulas hk hw hx hy fun {a b w'} hw' hle ha hb => ?_
  have hv := hw'.suits.vars
  refine (ha.yields_intersect hw'.sound hb).bind fun both w₁ hle₁ hboth => ?_
  have hw₁ := hw'.mono hle₁
  refine ((ha.mono hv hle₁ hw'.sound).yields_complement hw₁.sound).bind fun a' w₂ hle₂ ha' => ?_
  have hw₂ := hw₁.mono hle₂
  refine (((hb.mono hv hle₁ hw'.sound).mono hw₁.suits.vars hle₂ hw₁.sound).yields_complement
    hw₂.sound).bind fun b' w₃ hle₃ hb' => ?_
  have hw₃ := hw₂.mono hle₃
  refine ((ha'.mono hw₂.suits.vars hle₃ hw₂.sound).yields_intersect hw₃.sound hb').bind
    fun neither w₄ hle₄ hneither => ?_
  have hboth := (hboth.mono hw₁.suits.vars (le_trans hle₂ (le_trans hle₃ hle₄)) hw₁.sound)
  refine (hboth.yields_union (hw₃.mono hle₄).sound hneither).mono fun c w₅ _ hc =>
    hc.congr fun n τ => ?_
  tauto

end

theorem within_plain {f : Form} (h : f.Within K) : f.plain.Within K := ⟨h, fun _ => trivial⟩

def withBinders (K : Limits) (len i : String) : Limits :=
  { K with binders := insert len (insert i K.binders) }

theorem allows_withBinders (K : Limits) (len i : String) : (withBinders K len i).Allows K :=
  ⟨subset_rfl, fun _ hv => .inr (.inr hv), subset_rfl, subset_rfl, subset_rfl⟩

section

variable {len i r u : String} {s e t f : Expr}

theorem within_rangesAgree (h : (Form.rangeEq r s e u t f).Within K) :
    (Engine.rangesAgree len i r s e u t f).Within (withBinders K len i) := by
  obtain ⟨⟨hr, hu⟩, ⟨⟨hs, hsK⟩, he, heK⟩, ⟨ht, htK⟩, hf, hfK⟩ := h
  have houter : ∀ {x : Expr}, x.Within K → x.Within ((withBinders K len i).bind len) := fun hx =>
    (hx.mono (allows_withBinders K len i)).mono (Limits.allows_bind _ len)
  have hinner : ∀ {x : Expr}, x.Within K → x.Within (((withBinders K len i).bind len).bind i) :=
    fun hx => (houter hx).mono (Limits.allows_bind _ i)
  have hlength : ∀ {x y : Expr}, x.isFormula = false → x.Within K → y.isFormula = false →
      y.Within K → (Expr.equal (.var len) (.arith .sub x y)).Within
        ((withBinders K len i).bind len) := fun hx hxK hy hyK =>
    within_plain ⟨within_plain (.inl rfl), within_plain ⟨⟨hx, houter hxK⟩, hy, houter hyK⟩⟩
  have hplace : ∀ {x : Expr} {v}, v ∈ K.names → x.isFormula = false → x.Within K →
      (Expr.index v (.arith .add x (.var i))).Within
        (((withBinders K len i).bind len).bind i) := fun hv hx hxK =>
    within_plain ⟨hv, rfl, within_plain ⟨⟨hx, hinner hxK⟩, rfl, within_plain (.inl rfl)⟩⟩
  have hbelow : (Expr.less (.var i) (.var len)).Within (((withBinders K len i).bind len).bind i) :=
    within_plain ⟨within_plain (.inl rfl), within_plain (.inr (.inl rfl))⟩
  have hagree := within_plain (f := .or (.not (.less (.var i) (.var len))) (.equal
    (.index r (.arith .add s (.var i))) (.index u (.arith .add t (.var i)))))
    ⟨within_plain hbelow, within_plain ⟨hplace hr hs hsK, hplace hu ht htK⟩⟩
  refine within_plain ⟨.inl rfl, trivial, within_plain ⟨within_plain ⟨hlength he heK hs hsK,
    hlength hf hfK ht htK⟩, within_plain (within_plain ⟨.inr (.inl rfl), trivial,
      within_plain hagree⟩)⟩⟩

theorem holds_rangesAgree (hlen : len ∉ K.vars) (hi : i ∉ K.vars) (hne : len ≠ i)
    (h : (Form.rangeEq r s e u t f).Within K) {B B' : Bounds}
    (hB : ∀ n τ, B len n τ ∧ B i n τ) (n : Nat) (τ : Valuation) :
    (Engine.rangesAgree len i r s e u t f).Holds I B n τ ↔
      (Form.rangeEq r s e u t f).Holds I B' n τ := by
  obtain ⟨-, ⟨⟨-, hs⟩, -, he⟩, ⟨-, ht⟩, -, hf⟩ := h
  have hvalue : ∀ (x : Expr) v, (Form.arith .add x (.var v)).value? = none := fun x v => by
    simp only [Form.value?, Expr.var, Form.plain, Expr.value?]
    cases x.value? <;> rfl
  have houter : ∀ {x : Expr}, x.Within K → ∀ a, x.operand I (Function.update τ len a) =
      x.operand I τ := fun hx a => Expr.operand_congr hx fun v hv =>
    Function.update_of_ne (ne_of_mem_of_not_mem hv hlen) _ _
  have hinner : ∀ {x : Expr}, x.Within K → ∀ a b, x.operand I
      (Function.update (Function.update τ len a) i b) = x.operand I τ := fun hx a b =>
    (Expr.operand_congr hx fun v hv =>
      Function.update_of_ne (ne_of_mem_of_not_mem hv hi) _ _).trans (houter hx a)
  have hB' : ∀ n τ, B len n τ ∧ (B.restrict len (GuardHolds I none)) i n τ := fun n τ =>
    ⟨(hB n τ).1, (hB n τ).2, fun h => absurd h.symm hne⟩
  have hguard : ∀ n τ, GuardHolds I none n τ := fun n τ c hc => by
    cases hc
  have hsum : ∀ (D : Sense) l r X Y,
    Operand.arith I D .add none l r X Y = .sum I X Y := fun _ _ _ _ _ => rfl
  have hanything : (⟨containsOf I none, I.known ((Domain.known? none).getD .any)⟩ : Sense) =
    I.anything := rfl
  simp only [Expr.var, Form.plain] at hvalue
  simp only [Engine.rangesAgree, Expr.forSome, Expr.forAll, Expr.and, Expr.equal, Expr.arith,
    Expr.implies, Expr.or, Expr.not, Expr.less, Expr.index, Expr.var, Form.plain, Expr.Holds,
    Form.Holds, Expr.isFormula, Expr.operand, Form.operand, RangesAgree, hB', hguard, hvalue,
    houter hs, houter he, houter ht, houter hf, hinner hs, hinner ht, hsum, hanything,
    Comparison.relation, Function.update_self, Function.update_of_ne hne, true_and]

end

theorem ready_withBinders {len i : String} (h : w.Ready I K)
    (hlen : ¬IsFuture w.program.temporaries len) (hi : ¬IsFuture w.program.temporaries i)
    (hvisible : w.program.restrictions.visible len = [])
    (hvisible' : w.program.restrictions.visible i = []) : w.Ready I (withBinders K len i) where
  right := h.right
  framed := h.framed
  suits := { h.suits with
    binders := by
      rintro v (rfl | rfl | hv)
      · exact hlen
      · exact hi
      · exact h.suits.binders v hv }
  restricted := by
    refine ⟨?_, h.restricted.vars⟩
    rintro v (rfl | rfl | hv) c hc
    · simp [hvisible] at hc
    · simp [hvisible'] at hc
    · exact (h.restricted.within v hv c hc).mono ((allows_withBinders K len i).bind v)

theorem yields_evaluateRangeEq (hk : k.Sound) (hw : w.Ready I K) {r u : String} {s e t f : Expr}
    (h : (Form.rangeEq r s e u t f).Within K) :
    Yields (do
      let len ← temporaryName "len"
      let n ← temporaryName "n"
      k.formula (Engine.rangesAgree len n r s e u t f)) w fun a w' => w'.Describes K a
        ((Form.rangeEq r s e u t f).Holds I (w.program.restrictions.bounds I)) := by
  refine yields_temporaryName.bind fun len w₁ hle ⟨hlen, hw₁⟩ => ?_
  refine yields_temporaryName.bind fun i w₂ hle₁ ⟨hi, hw₂⟩ => ?_
  have hle₂ := le_trans hle hle₁
  have hlen₁ : ¬IsFuture w₁.program.temporaries len := by
    rw [hlen, hw₁, isFuture_temporaryNameOf (by simp [hints])]
    exact Nat.lt_irrefl _
  have hi₁ : IsFuture w₁.program.temporaries i := by
    rw [hi, isFuture_temporaryNameOf (by simp [hints])]
    exact Nat.lt_succ_self _
  have hi₂ : ¬IsFuture w₂.program.temporaries i := by
    rw [hi, hw₂, isFuture_temporaryNameOf (by simp [hints])]
    exact Nat.lt_irrefl _
  have hlen₀ : IsFuture w.program.temporaries len := by
    rw [hlen, isFuture_temporaryNameOf (by simp [hints])]
    exact Nat.lt_succ_self _
  have hi₀ := hi₁.mono hle.temporaries
  have hready := ready_withBinders (hw.mono hle₂)
    (fun hfuture => hlen₁ (hfuture.mono hle₁.temporaries))
    hi₂ ((congrArg (·.visible len) hle₂.restrictions).trans (hw.restricted.visible_eq_nil hlen₀))
    ((congrArg (·.visible i) hle₂.restrictions).trans (hw.restricted.visible_eq_nil hi₀))
  refine (hk.formula hready (within_rangesAgree h)).mono fun a w₃ _ ha =>
    Workspace.Describes.congr (K := K) ha fun n τ => ?_
  refine holds_rangesAgree (fun hv => hw.suits.vars _ hv hlen₀) (fun hv => hw.suits.vars _ hv hi₀)
    (fun heq => hlen₁ (heq ▸ hi₁)) h (fun n τ => ?_) n τ
  rw [hle₂.restrictions]
  simp [Restrictions.bounds, hw.restricted.visible_eq_nil hlen₀, hw.restricted.visible_eq_nil hi₀]

theorem yields_evaluateFormula (hk : k.Sound) (hw : w.Ready I K) {x : Expr} (hx : x.Within K) :
    Yields (k.evaluateFormula x) w fun a w' =>
      w'.Describes K a (x.Holds I (w.program.restrictions.bounds I)) := by
  obtain ⟨f, d⟩ := x
  unfold Engine.evaluateFormula
  cases f with
  | truth b =>
    cases b with
    | true =>
      exact .pure ⟨_, Automaton.recognizes_universal hw.sound, fun u τ _ => by
        simp [Expr.Holds, Form.Holds]⟩
    | false =>
      exact .pure ⟨fun _ => False, Automaton.recognizes_empty (fun p hp =>
        absurd hp NumberSet.not_mem_empty) (fun _ => id), fun u τ _ => by
          simp [Expr.Holds, Form.Holds]⟩
  | and y z =>
    obtain ⟨hy, hz⟩ := hx.1
    refine (hk.formula hw hy).bind fun a w₁ hle ha => ?_
    have hw₁ := hw.mono hle
    refine (yields_liftFault (P := fun e _ => e = true → ∀ u τ, w₁.Fits K τ u →
      ¬y.Holds I (w.program.restrictions.bounds I) u.length τ) (ha.gives_isEmpty hw₁.sound)).bind
        fun empty w₂ hle₁ hdecided => ?_
    obtain ⟨hempty, hprogram⟩ := hdecided
    have hw₂ := hw₁.mono hle₁
    have ha₂ := ha.mono hw₁.suits.vars hle₁ hw₁.sound
    refine .ite (fun he => .pure ?_) fun _ => ?_
    · obtain ⟨L, hL, hS⟩ := ha₂
      refine ⟨L, hL, fun u τ hfits => ?_⟩
      have hnot := hempty he u τ (hfits.of_le hw₁.suits.vars hle₁)
      exact (hS u τ hfits).trans (iff_of_false hnot fun h => hnot h.1)
    · refine (hk.formula hw₂ hz).bind fun b w₃ hle₂ hb => ?_
      rw [hprogram, hle.restrictions] at hb
      exact (ha₂.mono hw₂.suits.vars hle₂ hw₂.sound).yields_intersect (hw₂.mono hle₂).sound hb
  | or y z =>
    exact yields_formulas hk hw hx.1.1 hx.1.2 fun hw' _ ha hb => ha.yields_union hw'.sound hb
  | not y =>
    exact (hk.formula hw hx.1).bind fun a w₁ hle ha => ha.yields_complement (hw.mono hle).sound
  | forSome v g y => exact yields_evaluateSome hk hw hx.1.1 hx.1.2.1 hx.1.2.2
  | call c => exact yields_call hk hw hx.1
  | automaton l => exact yields_evaluateLiteral hw hx.1.1 hx.1.2
  | index r i => exact yields_call hk hw ⟨hx.1.1, hx.1.2, trivial⟩
  | rangeEq r s e u t f => exact yields_evaluateRangeEq hk hw hx.1
  | compare op y z =>
    simp only
    split
    · rename_i hy hz
      refine (yields_evaluateComparison hk hw hy hx.1.1 hz hx.1.2).mono fun a w' _ ha =>
        ha.congr fun n τ => ?_
      simp only [Expr.Holds, Form.Holds, hy, hz]
    · rename_i hy hz
      refine (yields_evaluateIff hk hw hx.1.1 hx.1.2).mono fun a w' _ ha =>
        ha.congr fun n τ => ?_
      simp only [Expr.Holds, Form.Holds, hy, hz]
    · exact .throw
  | var v => exact .throw
  | num n => exact .throw
  | arith op y z => exact .throw

theorem sound_ofDepth (n : Nat) : (Engine.ofDepth n).Sound := by
  induction n with
  | zero => exact ⟨fun _ _ => .throw, fun _ _ _ => .throw⟩
  | succ n ih =>
    exact ⟨fun hw hx => yields_evaluateFormula ih hw hx,
      fun hw hx hwithin => yields_evaluateValue ih hw hx hwithin⟩

theorem sound_standard : Engine.standard.Sound := sound_ofDepth Engine.limit

end Program

end RegularArithmetic

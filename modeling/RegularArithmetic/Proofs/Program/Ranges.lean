import RegularArithmetic.Proofs.Automaton.Letters
import RegularArithmetic.Proofs.Meaning.Ranges
import RegularArithmetic.Proofs.Program.AtRest

/-!
Equations between ranges, asked in a state that restricts nothing. It is enough that the two
predicates and the relations of the context say something of numbers; what else has been defined
plays no part.
-/

set_option autoImplicit false

namespace RegularArithmetic

open Program (Engine)

/-- The names in `N` say what `Γ` does. Nothing is said of other names, no name is one of a domain,
and nothing is remembered. -/
def Relations.among (Γ : Relations) (N : Set String) : Interpretation :=
  ⟨N, ∅, fun name _ => Γ name, fun _ _ _ => False, fun _ _ => none⟩

theorem Relations.follows_among (Γ : Relations) (N : Set String) : (Γ.among N).Follows Γ :=
  ⟨fun _ _ => rfl, fun _ _ => rfl⟩

variable {Γ : Relations} {N : Set String} {w w' : Workspace} {r q : String} {s e t f : Expr}

theorem reflects_rangeEq {I : Interpretation} (hI : I.Follows Γ) (hΓ : Γ.Count) {B : Bounds}
    (hplain : plainArgs settledOpen N [s, e, t, f]) :
    Reflects ((Form.rangeEq r s e q t f).Holds I B) (RangesMatch Γ r s e q t f) where
  support := ⟨(Form.rangeEq r s e q t f).freeVars, fun _ _ h => rangesMatch_congr h⟩
  holds _ _ hτ := holds_rangeEq_iff hI hΓ hτ hplain

namespace Program

theorem infer_rangeEq_eq_ok (truth : Expr → M Truth) (hplain : plainArgs {none} N [s, e, t, f])
    (hw : w.program.restrictions.Free) : ∃ s' e' t' f',
      infer truth (Form.rangeEq r s e q t f).plain w =
        .ok (Form.rangeEq r s' e' q t' f').plain w ∧
      plainArgs settledOpen N [s', e', t', f'] ∧
      ∀ τ, RangesMatch Γ r s' e' q t' f' τ ↔ RangesMatch Γ r s e q t f τ := by
  obtain ⟨⟨hs, hsp⟩, ⟨he, hep⟩, ⟨ht, htp⟩, ⟨hf, hfp⟩, -⟩ := hplain
  obtain ⟨s', hs', hss⟩ : Infers truth N w s := infers_expr hsp hw
  obtain ⟨e', he', hee⟩ : Infers truth N w e := infers_expr hep hw
  obtain ⟨t', ht', htt⟩ : Infers truth N w t := infers_expr htp hw
  obtain ⟨f', hf', hff⟩ : Infers truth N w f := infers_expr hfp hw
  have hclose : ∀ {x y : Expr}, x.Annotates unrestricted N y → x.Annotates settledOpen N y.close :=
    fun h => h.trans (Expr.annotates_close h.plain)
  have hss := hclose hss
  have hee := hclose hee
  have htt := hclose htt
  have hff := hclose hff
  refine ⟨s'.close, e'.close, t'.close, f'.close, ?_, ?_, fun τ => ?_⟩
  · simp only [infer, Form.plain, inferExpr, inferForm, bind, EStateM.bind, hs', he', ht', hf']
    rfl
  · exact ⟨⟨hss.isFormula.trans hs, hss.plain⟩, ⟨hee.isFormula.trans he, hee.plain⟩,
      ⟨htt.isFormula.trans ht, htt.plain⟩, ⟨hff.isFormula.trans hf, hff.plain⟩, trivial⟩
  · rw [← rangesMatch_erase, hss.erase, hee.erase, htt.erase, hff.erase, rangesMatch_erase]

end Program

namespace Workspace

/-- Nothing is restricted or declared in the state, and the names in `N` are those of relations that
have been evaluated and say what `Γ` does; those that arithmetic asks for are among them. -/
structure Tells (Γ : Relations) (N : Set String) (w : Workspace) : Prop where
  count : Γ.Count
  right : w.Right (Γ.among N)
  framed : w.Framed
  free : w.program.restrictions.Free
  settled : ∀ name ∈ N, w.Settled name

namespace Tells

theorem context (h : w.Tells Γ N) : "adder" ∈ N ∧ "equal" ∈ N ∧ "less" ∈ N :=
  ⟨h.right.names (.inr (.inl rfl)), h.right.names (.inr (.inr (.inl rfl))),
    h.right.names (.inr (.inr (.inr rfl)))⟩

/-- In the frame of a question the names say the same. -/
theorem asking (h : w.Tells Γ N) :
    (w.framing (Engine.queryFrame :: w.program.frames)).Tells Γ N where
  count := h.count
  right := h.right.framing _
  framed := h.framed.framing .free "query"
  free := h.free
  settled := h.settled

theorem yields_describes (h : w.Tells Γ N) {k : Engine} (hk : k.Sound) (hr : r ∈ N) (hq : q ∈ N)
    (hplain : plainArgs {none} N [s, e, t, f]) :
    Yields (do k.formula (← Program.infer k.truth (Form.rangeEq r s e q t f).plain)) w
      fun a w' => ∃ T, w'.Describes (.own N ∅) a T ∧ Reflects T (RangesMatch Γ r s e q t f) := by
  obtain ⟨s', e', t', f', hrun, hplain', hmatch⟩ :=
    Program.infer_rangeEq_eq_ok (Γ := Γ) (r := r) (q := q) k.truth hplain h.free
  have hinfer : Yields (Program.infer k.truth (Form.rangeEq r s e q t f).plain) w
      fun z w' => z = (Form.rangeEq r s' e' q t' f').plain ∧ w' = w := by
    rw [Yields, hrun]
    exact ⟨le_rfl, rfl, rfl⟩
  have hready : w.Ready (Γ.among N) (.own N ∅) :=
    h.right.ready_own subset_rfl h.framed h.free h.settled h.context
      fun l hl => absurd hl (Set.notMem_empty l)
  have hbound : ∀ {x : Expr}, x.isFormula = false ∧ x.IsPlain settledOpen N →
      x.isFormula = false ∧ x.Within (.own N ∅) := fun hx =>
    ⟨hx.1, hx.2.within (fun _ hv => hv) (fun _ hv => hv) subset_rfl⟩
  have hwithin : (Form.rangeEq r s' e' q t' f').plain.Within (.own N ∅) := by
    obtain ⟨hs, he, ht, hf, -⟩ := hplain'
    exact Program.within_plain ⟨⟨hr, hq⟩, ⟨hbound hs, hbound he⟩, hbound ht, hbound hf⟩
  have hreflects := reflects_rangeEq (r := r) (q := q) (Γ.follows_among N) h.count
    (B := w.program.restrictions.bounds (Γ.among N)) hplain'
  have heq : RangesMatch Γ r s' e' q t' f' = RangesMatch Γ r s e q t f :=
    funext fun τ => propext (hmatch τ)
  rw [heq] at hreflects
  refine hinfer.bind ?_
  rintro z _ - ⟨rfl, rfl⟩
  exact (hk.formula hready hwithin).mono fun a w' _ ha => ⟨_, ha, hreflects⟩

theorem yields_truthOf (h : w.Tells Γ N) (hr : r ∈ N) (hq : q ∈ N)
    (hplain : plainArgs {none} N [s, e, t, f]) :
    Yields (Program.truthOf (Form.rangeEq r s e q t f).plain) w fun t' _ =>
      t'.Says (RangesMatch Γ r s e q t f) :=
  h.right.yields_evaluateTruth (h.asking.yields_describes (Program.sound_ofDepth _) hr hq hplain)

/-- Wherever an equation between ranges is evaluated, the automaton admits a word exactly if the
ranges match for the numbers that the variables in scope have in it; and the answer to the question
whether they are equal is right for all numbers. -/
theorem yields_rangeEq (h : w.Tells Γ N) (hr : r ∈ N) (hq : q ∈ N)
    (hplain : plainArgs {none} N [s, e, t, f]) :
    (Yields (do
        let x ← Program.infer Engine.standard.truth (Form.rangeEq r s e q t f).plain
        Engine.standard.formula x) w
      fun a w' => ∀ (u : List Letter) τ, w'.Fits (.own N ∅) τ (Word.ofLetters u) →
        (a.Admits w'.alphabet.diagrams u ↔ RangesMatch Γ r s e q t f τ)) ∧
    Yields (Program.truthOf (Form.rangeEq r s e q t f).plain) w fun t' _ =>
      t'.Says (RangesMatch Γ r s e q t f) := by
  refine ⟨?_, h.yields_truthOf hr hq hplain⟩
  refine (h.yields_describes Program.sound_standard hr hq hplain).mono fun a w' hle ha => ?_
  intro u τ hfits
  obtain ⟨T, ha, hT⟩ := ha
  have hsound := (hle.right _ h.right).sound
  have haccepts := ha.accepts_iff hT hfits
  obtain ⟨L, hL, -⟩ := ha
  exact (hL.formed.readable.admits_iff hsound hL.deterministic).trans haccepts

end Tells

theorem AtRest.tells (h : w.AtRest Γ) (hN : {"adder", "equal", "less"} ⊆ N) : w.Tells Γ N where
  count := h.count
  right := {
    sound := h.right.sound
    declarations := h.right.declarations
    names := by simpa [Relations.among] using hN
    relations := fun name _ => h.right.relations name trivial
    settled := fun name hname => absurd hname (Set.notMem_empty name)
    constants := fun n d v hv hd => (isOperand_constant_iff (Γ.follows_among N) rfl h.count hd).2
      ((isOperand_constant_iff (Γ.follows_interpretation _) rfl h.count hd).1
        (h.right.constants n d v hv hd))
    temporary := fun d n x hx => nomatch hx
    known := fun d n hn => absurd rfl hn }
  framed := h.framed
  free := h.free
  settled name _ := h.settled name

end Workspace

end RegularArithmetic

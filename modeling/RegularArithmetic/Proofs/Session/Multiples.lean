import RegularArithmetic.Proofs.Program.Multiples
import RegularArithmetic.Proofs.Session.Plain

/-!
Multiples of an expression, whatever state a session is in, as long as sums in the domain are what
they should be. An expression that is plain in a plain session is one whose multiples exist.
-/

set_option autoImplicit false

namespace RegularArithmetic

open Automaton (blankLetter times)
open Binary (IsSum)
open Program (Engine)

namespace Workspace

variable {Γ : Relations} {I : Interpretation} {K : Limits} {N : Set String} {w : Workspace}
  {x : Expr} {v : Value} {start : Nat}

section

variable (hI : I.Follows Γ) (hΓ : Γ.Count) (hx : x.isFormula = false)
  (hplain : x.IsPlain settledOpen N) (hv : w.Stands K v (x.operand I) start)

include hI hΓ hx hplain hv

theorem Stands.accepts_iff_number (u : Word) : v.automaton.Accepts w.alphabet.diagrams u ↔
    x.number (w.valuationOf u) = some (numbers u v.prop) :=
  (hv.accepts u _ (w.fits_valuationOf K u)).trans <|
    (Expr.is_operand hI hΓ (w.valuationOf_lt u) hx hplain).rel _ le_rfl _ (numbers_lt u v.prop)

theorem Stands.accepts_append_blank {u : Word}
    (hu : v.automaton.Accepts w.alphabet.diagrams u) :
    v.automaton.Accepts w.alphabet.diagrams (u ++ [blankLetter]) := by
  have hnumbers : numbers (u ++ [blankLetter]) = numbers u :=
    funext fun p => numbers_append_padding u 1 p
  have hvaluation : w.valuationOf (u ++ [blankLetter]) = w.valuationOf u := by
    funext y
    simp only [valuationOf, hnumbers]
  rw [hv.accepts_iff_number hI hΓ hx hplain] at hu ⊢
  rwa [hvaluation, hnumbers]

theorem Stands.eq_of_relates (hvars : ∀ y ∈ x.freeVars, y ∈ K.vars) {σ : Nat → Nat} {m m' : Nat}
    (h : v.automaton.Relates w.alphabet.diagrams (w.propsOf K) v.prop σ m)
    (h' : v.automaton.Relates w.alphabet.diagrams (w.propsOf K) v.prop σ m') : m = m' := by
  obtain ⟨u, hu, hσ, rfl⟩ := h
  obtain ⟨u', hu', hσ', rfl⟩ := h'
  rw [hv.accepts_iff_number hI hΓ hx hplain] at hu hu'
  have hsame : ∀ y ∈ x.freeVars, w.valuationOf u y = w.valuationOf u' y := by
    intro y hy
    simp only [valuationOf]
    split
    · rename_i p hp
      have hmem : p ∈ w.propsOf K := ⟨y, hvars y hy, hp⟩
      rw [hσ p hmem, hσ' p hmem]
    · rfl
  rw [Expr.number_congr hsame, hu'] at hu
  exact (Option.some.inj hu).symm

end

theorem AtRest.adds (h : w.AtRest Γ) (halias : w.program.resolveAlias "adder" = .ok "bin_add")
    (hadd : w.program.predicates["bin_add"]? ≠ none) (d : Domain) : w.Adds d where
  resolves := ⟨"adder", halias, fun _ _ _ => Program.resolveCall_eq h.right.declarations _ _⟩
  memo := by
    obtain ⟨q, hq⟩ := Option.ne_none_iff_exists'.1 hadd
    obtain ⟨r, hr⟩ := Option.ne_none_iff_exists'.1 (h.evaluated _ q hq)
    have hmeans := h.right.relations "adder" trivial "bin_add" q r halias hq hr
    rw [show (Γ.interpretation fun _ => False).holds "adder" = fun _ => IsSum from
      funext fun _ => h.count.adder] at hmeans
    exact ⟨q, r, hq, hr, hmeans⟩

end Workspace

namespace Program

variable {w w₁ w' : Workspace} {d : Domain} {V : Set Nat} {x : Expr} {v r : Value} {j n : Nat}

theorem not_functional_universal (hs : w.alphabet.diagrams.Sound) {p : Nat} (hp : p ∉ V)
    (h : ∀ σ m m', (Automaton.universal.withProps [p]).Relates w.alphabet.diagrams V p σ m →
      (Automaton.universal.withProps [p]).Relates w.alphabet.diagrams V p σ m' → m = m') :
    False := by
  have huniversal : (Automaton.universal.withProps [p]).Recognizes w.alphabet.diagrams {p}
      fun _ => True := (Automaton.recognizes_universal hs).withProps (by simp)
  have hrelates : ∀ b : Bool, (Automaton.universal.withProps [p]).Relates w.alphabet.diagrams V p
      (fun _ => 0) b.toNat := by
    intro b
    refine ⟨[fun q => if q = p then b else false], (huniversal.accepts _).2 trivial, ?_, ?_⟩
    · intro q hq
      have hne : q ≠ p := fun h => hp (h ▸ hq)
      simp [numbers, hne]
    · simp [numbers]
  exact absurd (h _ _ _ (hrelates true) (hrelates false)) (by decide)

/-- If the value of an expression is a function of other propositions that is closed under padding,
its multiple is the multiple of that function, about these propositions and its own alone. -/
theorem relates_scale (hframes : w.program.frames ≠ [])
    (hv : (Engine.ofDepth j).value x w = .ok v w₁) (hs : w₁.alphabet.diagrams.Sound)
    (hadds : w₁.Adds d) (hV : ∀ q ∈ insert v.prop V, q ≤ w₁.alphabet.size) (hnot : v.prop ∉ V)
    (hreads : v.automaton.Recognizes w₁.alphabet.diagrams (insert v.prop V)
      (v.automaton.Accepts w₁.alphabet.diagrams))
    (hpadded : ∀ u, v.automaton.Accepts w₁.alphabet.diagrams u →
      v.automaton.Accepts w₁.alphabet.diagrams (u ++ [blankLetter]))
    (hfunction : ∀ σ m m', v.automaton.Relates w₁.alphabet.diagrams V v.prop σ m →
      v.automaton.Relates w₁.alphabet.diagrams V v.prop σ m' → m = m')
    (hn : 0 < n) (hr : (Engine.ofDepth j).scale d n x w = .ok r w') :
    r.prop ∉ V ∧
      r.automaton.Recognizes w'.alphabet.diagrams (insert r.prop V)
        (r.automaton.Accepts w'.alphabet.diagrams) ∧
      ∀ σ b, r.automaton.Relates w'.alphabet.diagrams V r.prop σ b ↔
        ∃ m, v.automaton.Relates w₁.alphabet.diagrams V v.prop σ m ∧ b = n * m := by
  let M : (Nat → Nat) → Nat → Prop := v.automaton.Relates w₁.alphabet.diagrams V v.prop
  have hsteady := steady_ofDepth j
  have hframes₁ := frames_ne_nil ((hsteady.value x).fixes_of_eq_ok hv) hframes
  have hbears : w₁.Bears V (times 1 M) v := by
    rcases puts_ofDepth j x w v w₁ hframes hv with ⟨hplaced, htemporary⟩ | huniversal
    · exact ⟨hplaced, htemporary, hV _ (.inl rfl), hnot, hreads, hpadded, fun σ m => by
        rw [Automaton.times_one]⟩
    · rw [huniversal] at hfunction
      exact (not_functional_universal hs hnot hfunction).elim
  have hsums : w₁.Sums d V := ⟨hs, hframes₁, hadds, fun q hq => hV q (.inr hq)⟩
  have hmultiple : (Engine.ofDepth j).multiple d none v n w₁ = .ok r w' := by
    rw [Engine.scale, if_neg hn.ne', bind_of_ok hv] at hr
    exact hr
  have hnone : w₁.Gathers V M 0 none := rfl
  obtain ⟨-, hr'⟩ := (yields_multiple_bearing hfunction n hn hsums hnone (by simp)
    hbears).of_ok hmultiple
  rw [Nat.zero_add, Nat.mul_one] at hr'
  exact ⟨hr'.not_mem, hr'.carries.recognizes, hr'.carries.relates⟩

/-- The sum of a variable with itself. -/
def twice : Expr := (Form.arith .add (.var "x") (.var "x")).plain

/-- At the start of a session, `adder` leads to the sums, and twice this sum can be computed. -/
def doublesTwice : Bool :=
  match Session.start ⟨2, none, true, true⟩ with
  | .error _ => false
  | .ok s =>
    (match s.workspace.program.resolveAlias "adder" with
    | .error _ => false
    | .ok target => target == "bin_add") &&
    s.workspace.program.predicates["bin_add"]?.isSome &&
    match Engine.standard.value twice s.workspace with
    | .error _ _ => false
    | .ok v w =>
      match Engine.standard.multiple .any none v 2 w with
      | .error _ _ => false
      | .ok _ _ => true

theorem doublesTwice_eq_true : doublesTwice = true := by decide +kernel

/-- Four times a variable is twice the double. -/
theorem relates_scale_twice : ∃ s v w₁ r w', ∃ V : Set Nat,
    Session.start ⟨2, none, true, true⟩ = .ok s ∧
    Engine.standard.value twice s.workspace = .ok v w₁ ∧
    Engine.standard.scale .any 2 twice s.workspace = .ok r w' ∧ w₁.Adds .any ∧
    (∀ σ m m', v.automaton.Relates w₁.alphabet.diagrams V v.prop σ m →
      v.automaton.Relates w₁.alphabet.diagrams V v.prop σ m' → m = m') ∧
    r.prop ∉ V ∧
    r.automaton.Recognizes w'.alphabet.diagrams (insert r.prop V)
      (r.automaton.Accepts w'.alphabet.diagrams) ∧
    ∀ σ b, r.automaton.Relates w'.alphabet.diagrams V r.prop σ b ↔
      ∃ m, v.automaton.Relates w₁.alphabet.diagrams V v.prop σ m ∧ b = 2 * m := by
  have hruns := doublesTwice_eq_true
  unfold doublesTwice at hruns
  split at hruns
  · cases hruns
  rename_i s hstart
  simp only [Bool.and_eq_true] at hruns
  obtain ⟨⟨halias, hadd⟩, hruns⟩ := hruns
  split at hruns
  · cases hruns
  rename_i v w₁ hv
  split at hruns
  · cases hruns
  rename_i r w' hr
  have hscale : Engine.standard.scale .any 2 twice s.workspace = .ok r w' := by
    rw [Engine.scale, if_neg (by decide), bind_of_ok hv]
    exact hr
  have hrest := (Session.idle_start hstart).atRest
  have halias : s.workspace.program.resolveAlias "adder" = .ok "bin_add" := by
    split at halias
    · cases halias
    · rename_i target htarget
      rw [htarget, eq_of_beq halias]
  have hready : s.workspace.Ready (Relations.binary.interpretation fun _ => False)
      (.own Set.univ ∅) :=
    hrest.right.ready_own (Set.subset_univ _) hrest.framed hrest.free
      (fun name _ => hrest.settled name) ⟨trivial, trivial, trivial⟩
      fun l hl => absurd hl (Set.notMem_empty l)
  have hx : IsOwn "x" := by decide
  have hplain : twice.IsPlain settledOpen Set.univ :=
    ⟨.inl rfl, ⟨rfl, .inl rfl, hx⟩, rfl, .inl rfl, hx⟩
  have hwithin : twice.Within (.own Set.univ ∅) :=
    hplain.within (fun _ hv => hv) (fun _ hv => hv) subset_rfl
  obtain ⟨hle, hstands⟩ := (sound_standard.value hready rfl hwithin).of_ok hv
  have hrest₁ := hrest.mono hle
  have hadds : w₁.Adds .any := (hrest.adds halias (by simpa using hadd) .any).mono
    hrest.right.sound hle
  have hI := Relations.binary.follows_interpretation fun _ => False
  have hvars : ∀ y ∈ twice.freeVars, y ∈ (Limits.own Set.univ ∅).vars := by
    intro y hy
    obtain rfl : y = "x" := by
      simpa [twice, Form.plain, Expr.var, Expr.freeVars, Form.freeVars] using hy
    exact hx
  have hV : ∀ q ∈ insert v.prop (w₁.propsOf (.own Set.univ ∅)), q ≤ w₁.alphabet.size := by
    rintro q (rfl | ⟨y, -, hy⟩)
    · exact hstands.le_size
    · exact hrest₁.framed.le_size hy
  have hfunction : ∀ σ m m', v.automaton.Relates w₁.alphabet.diagrams
      (w₁.propsOf (.own Set.univ ∅)) v.prop σ m → v.automaton.Relates w₁.alphabet.diagrams
      (w₁.propsOf (.own Set.univ ∅)) v.prop σ m' → m = m' :=
    fun _ _ _ => hstands.eq_of_relates hI hrest.count rfl hplain hvars
  exact ⟨s, v, w₁, r, w', w₁.propsOf (.own Set.univ ∅), hstart, hv, hscale, hadds, hfunction,
    relates_scale hrest.framed.nonempty hv hrest₁.right.sound hadds hV
      (hstands.fresh ((hstands.temporary fun _ => 0).symm.trans rfl)).2 hstands.recognizes
      (fun u => hstands.accepts_append_blank hI hrest.count rfl hplain) hfunction (by decide)
      hscale⟩

end Program

end RegularArithmetic

import RegularArithmetic.Proofs.Automaton.Boolean
import RegularArithmetic.Proofs.Program.State

/-!
What the results of an evaluation say: an automaton reads the propositions of the variables in
scope, and says of them what a formula says of numbers; a value has one more proposition, whose
number is what the expression stands for.
-/

set_option autoImplicit false

namespace RegularArithmetic

open Program (findVar)

theorem Automaton.Recognizes.accepting {s : Diagram.Store} {a : Automaton} {V : Set Nat}
    {L : Word → Prop} (h : a.Recognizes s V L) : a.Recognizes s V (a.Accepts s) :=
  h.congr fun w => (h.accepts w).symm

namespace Workspace

variable {I : Interpretation} {K : Limits} {w w' : Workspace} {a b : Automaton}
  {S T : Nat → Valuation → Prop} {v : Value} {X : Valuation → Operand} {start : Nat}

/-- The propositions of the free variables, as far as they have some. -/
def propsOf (w : Workspace) (K : Limits) : Set Nat :=
  {p | ∃ v ∈ K.vars, findVar v w.program.frames = .bound p}

/-- The free variables stand for the numbers that their propositions have in the word. -/
def Fits (w : Workspace) (K : Limits) (τ : Valuation) (u : Word) : Prop :=
  ∀ v ∈ K.vars, ∀ p, findVar v w.program.frames = .bound p → τ v = numbers u p

/-- The automaton reads only free variables, and accepts the words in which they stand for
numbers of which `S` is true. -/
def Describes (w : Workspace) (K : Limits) (a : Automaton) (S : Nat → Valuation → Prop) : Prop :=
  ∃ L, a.Recognizes w.alphabet.diagrams (w.propsOf K) L ∧
    ∀ u τ, w.Fits K τ u → (L u ↔ S u.length τ)

/-- The value stands for what `X` says. Its variable is one of the free ones, or a temporary one
whose proposition was made after number `start`. -/
structure Stands (w : Workspace) (K : Limits) (v : Value) (X : Valuation → Operand)
    (start : Nat) : Prop where
  bound : findVar v.var w.program.frames = .bound v.prop
  named : ¬IsFuture w.program.temporaries v.var
  le_size : v.prop ≤ w.alphabet.size
  fresh : v.temporary = true → start < v.prop ∧ v.prop ∉ w.propsOf K
  known : v.temporary = false → v.var ∈ K.vars ∧ ∀ τ, X τ = .known (τ v.var)
  temporary : ∀ τ, (X τ).temporary = v.temporary
  recognizes : v.automaton.Recognizes w.alphabet.diagrams (insert v.prop (w.propsOf K))
    (v.automaton.Accepts w.alphabet.diagrams)
  accepts : ∀ u τ, w.Fits K τ u → (v.automaton.Accepts w.alphabet.diagrams u ↔
    (X τ).rel u.length (numbers u v.prop))

/-- A variable for a result, whose proposition was made after number `start` and is not that of
a free variable. -/
structure Offers (w : Workspace) (K : Limits) (name : String) (p start : Nat) : Prop where
  bound : findVar name w.program.frames = .bound p
  named : ¬IsFuture w.program.temporaries name
  lt : start < p
  le_size : p ≤ w.alphabet.size
  not_mem : p ∉ w.propsOf K

section

variable (hv : ∀ v ∈ K.vars, ¬IsFuture w.program.temporaries v) (hle : w ≤ w')

include hv hle

theorem propsOf_mono : w.propsOf K ⊆ w'.propsOf K := by
  rintro p ⟨v, hvK, hbound⟩
  exact ⟨v, hvK, Program.findVar_of_grows hle.frames (hv v hvK) hbound⟩

theorem Fits.of_le {τ : Valuation} {u : Word} (h : w'.Fits K τ u) : w.Fits K τ u :=
  fun v hvK p hbound => h v hvK p (Program.findVar_of_grows hle.frames (hv v hvK) hbound)

theorem Describes.mono (hs : w.alphabet.diagrams.Sound) (h : w.Describes K a S) :
    w'.Describes K a S := by
  obtain ⟨L, hL, hS⟩ := h
  exact ⟨L, (hL.mono_store hs hle.alphabet.1).mono (propsOf_mono hv hle),
    fun u τ hfits => hS u τ (hfits.of_le hv hle)⟩

omit hv in
theorem not_mem_propsOf {p : Nat} (hp : p ≤ w.alphabet.size) (h : p ∉ w.propsOf K) :
    p ∉ w'.propsOf K := by
  rintro ⟨v, hvK, hbound⟩
  rcases Program.findVar_before hle.frames hbound with hbefore | hlt
  · exact h ⟨v, hvK, hbefore⟩
  · exact absurd hp (Nat.not_le_of_lt hlt)

omit hle in
theorem Introduces.offers {name : String} {p : Nat} (h : w.Introduces w' name p) :
    w'.Offers K name p w.alphabet.size where
  bound := h.bound
  named := h.named
  lt := h.lt
  le_size := h.le_size
  not_mem := by
    rintro ⟨v, hvK, hbound⟩
    exact absurd (h.other v p (hv v hvK) hbound) (Nat.not_le_of_lt h.lt)

omit hv in
theorem Offers.mono {name : String} {p : Nat} (h : w.Offers K name p start) :
    w'.Offers K name p start where
  bound := Program.findVar_of_grows hle.frames h.named h.bound
  named hfuture := h.named (hfuture.mono hle.temporaries)
  lt := h.lt
  le_size := le_trans h.le_size (Alphabet.size_mono hle.alphabet)
  not_mem := not_mem_propsOf hle h.le_size h.not_mem

theorem Stands.mono (hs : w.alphabet.diagrams.Sound) (h : w.Stands K v X start) :
    w'.Stands K v X start where
  bound := Program.findVar_of_grows hle.frames h.named h.bound
  named hfuture := h.named (hfuture.mono hle.temporaries)
  le_size := le_trans h.le_size (Alphabet.size_mono hle.alphabet)
  fresh ht := ⟨(h.fresh ht).1, not_mem_propsOf hle h.le_size (h.fresh ht).2⟩
  known := h.known
  temporary := h.temporary
  recognizes := ((h.recognizes.mono_store hs hle.alphabet.1).mono
    (Set.insert_subset_insert (propsOf_mono hv hle))).accepting
  accepts u τ hfits := (Automaton.acceptsFrom_mono hs hle.alphabet.1 h.recognizes.formed).trans
    (h.accepts u τ (hfits.of_le hv hle))

end

/-- An automaton about a variable for a result is a value. -/
theorem Offers.stands {name : String} {p : Nat} (h : w.Offers K name p start) {L : Word → Prop}
    (ha : a.Recognizes w.alphabet.diagrams (insert p (w.propsOf K)) L)
    (hX : ∀ τ, (X τ).temporary = true)
    (hL : ∀ u τ, w.Fits K τ u → (L u ↔ (X τ).rel u.length (numbers u p))) :
    w.Stands K ⟨a, name, p, true⟩ X start :=
  ⟨h.bound, h.named, h.le_size, fun _ => ⟨h.lt, h.not_mem⟩, (fun ht => nomatch ht), hX,
    ha.accepting, fun u τ hfits => (ha.accepts u).trans (hL u τ hfits)⟩

theorem Stands.of_start_le {start' : Nat} (h : w.Stands K v X start) (hstart : start' ≤ start) :
    w.Stands K v X start' :=
  { h with fresh := fun ht => ⟨Nat.lt_of_le_of_lt hstart (h.fresh ht).1, (h.fresh ht).2⟩ }

theorem Describes.congr (h : w.Describes K a S) (hST : ∀ n τ, S n τ ↔ T n τ) :
    w.Describes K a T := by
  obtain ⟨L, hL, hS⟩ := h
  exact ⟨L, hL, fun u τ hfits => (hS u τ hfits).trans (hST _ _)⟩

theorem Describes.withProps (h : w.Describes K a S) {ps : List Nat}
    (hps : ∀ p ∈ ps, p ∈ w.propsOf K) : w.Describes K (a.withProps ps) S := by
  obtain ⟨L, hL, hS⟩ := h
  exact ⟨L, hL.withProps hps, hS⟩

/-- Only the alphabet, the frames and the names decide what a value stands for. -/
theorem Stands.of_eq (h : w.Stands K v X start) (halphabet : w'.alphabet = w.alphabet)
    (hframes : w'.program.frames = w.program.frames)
    (htemporaries : w'.program.temporaries = w.program.temporaries) : w'.Stands K v X start where
  bound := hframes ▸ h.bound
  named := htemporaries ▸ h.named
  le_size := halphabet ▸ h.le_size
  fresh := by simpa only [propsOf, hframes] using h.fresh
  known := h.known
  temporary := h.temporary
  recognizes := by simpa only [propsOf, hframes, halphabet] using h.recognizes
  accepts := by simpa only [Fits, hframes, halphabet] using h.accepts

theorem yields_describes {x : Alphabet.M Automaton}
    (h : Yields x w.alphabet fun c y => ∃ L, c.Recognizes y.diagrams (w.propsOf K) L ∧
      ∀ u τ, w.Fits K τ u → (L u ↔ S u.length τ)) :
    Yields (liftM x : Program.M Automaton) w fun c w' => w'.Describes K c S := by
  refine (Program.yields_liftAlphabet h).mono fun c w' _ ⟨⟨L, hL, hS⟩, hprogram⟩ => ?_
  have hprops : w'.propsOf K = w.propsOf K := by simp only [propsOf, hprogram]
  refine ⟨L, hprops ▸ hL, fun u τ hfits => hS u τ ?_⟩
  simpa only [Fits, hprogram] using hfits

section

variable (hs : w.alphabet.diagrams.Sound) (ha : w.Describes K a S)

include hs ha

theorem Describes.yields_intersect (hb : w.Describes K b T) :
    Yields (liftM (a.intersect b) : Program.M Automaton) w fun c w' =>
      w'.Describes K c fun n τ => S n τ ∧ T n τ := by
  obtain ⟨L, hL, hS⟩ := ha
  obtain ⟨M, hM, hT⟩ := hb
  exact yields_describes ((Automaton.yields_intersect hs hL hM).mono fun c y _ hc =>
    ⟨_, hc, fun u τ hfits => and_congr (hS u τ hfits) (hT u τ hfits)⟩)

theorem Describes.yields_union (hb : w.Describes K b T) :
    Yields (liftM (a.union b) : Program.M Automaton) w fun c w' =>
      w'.Describes K c fun n τ => S n τ ∨ T n τ := by
  obtain ⟨L, hL, hS⟩ := ha
  obtain ⟨M, hM, hT⟩ := hb
  exact yields_describes ((Automaton.yields_union hs hL hM).mono fun c y _ hc =>
    ⟨_, hc, fun u τ hfits => or_congr (hS u τ hfits) (hT u τ hfits)⟩)

theorem Describes.yields_complement :
    Yields (liftM a.complement : Program.M Automaton) w fun c w' =>
      w'.Describes K c fun n τ => ¬S n τ := by
  obtain ⟨L, hL, hS⟩ := ha
  have hcomplement := Yields.liftDiagram (a := w.alphabet) (Automaton.yields_complement hs hL)
  exact yields_describes (hcomplement.mono fun c y _ hc =>
    ⟨_, hc, fun u τ hfits => not_congr (hS u τ hfits)⟩)

theorem Describes.gives_isEmpty : Gives a.isEmpty fun x => x = true →
    ∀ u τ, w.Fits K τ u → ¬S u.length τ := by
  obtain ⟨L, hL, hS⟩ := ha
  exact (Automaton.gives_isEmpty_of_recognizes hs hL).mono fun x hx htrue u τ hfits =>
    (not_congr (hS u τ hfits)).1 (hx.1 htrue u)

end

end Workspace

end RegularArithmetic

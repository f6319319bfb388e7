import RegularArithmetic.Proofs.Automaton.Boolean
import RegularArithmetic.Proofs.Automaton.Letters
import RegularArithmetic.Proofs.Automaton.Numbers
import RegularArithmetic.Proofs.Binary

/-!
Languages to which all-false letters at the end of a word make no difference. Only such a language
is about numbers, since a number has as many zeros in front as one likes. All operations on automata
keep the property; of them quantification has to restore it. What evaluation does with automata, it
does with those of any family of languages that has these and is closed under the operations.
-/

set_option autoImplicit false

namespace RegularArithmetic.Automaton

open Diagram (Edge Assignment)

variable {s t : Diagram.Store} {x : Alphabet} {a b : Automaton} {V : Set Nat} {L L' : Word → Prop}

/-- One all-false letter more or less at the end makes no difference. -/
def PaddingClosed (L : Word → Prop) : Prop := ∀ w, L (w ++ [blankLetter]) ↔ L w

theorem PaddingClosed.and (h : PaddingClosed L) (h' : PaddingClosed L') :
    PaddingClosed fun w => L w ∧ L' w := fun w => and_congr (h w) (h' w)

theorem PaddingClosed.or (h : PaddingClosed L) (h' : PaddingClosed L') :
    PaddingClosed fun w => L w ∨ L' w := fun w => or_congr (h w) (h' w)

theorem PaddingClosed.not (h : PaddingClosed L) : PaddingClosed fun w => ¬L w :=
  fun w => not_congr (h w)

theorem PaddingClosed.append (h : PaddingClosed L) (w : Word) (k : Nat) :
    L (w ++ padding k) ↔ L w := by
  induction k with
  | zero => rw [padding, List.replicate_zero, List.append_nil]
  | succ k ih => rw [padding, List.replicate_succ', ← List.append_assoc, h, ← ih, padding]

theorem PaddingClosed.rename (h : PaddingClosed L) (ρ : Nat → Nat) :
    PaddingClosed fun w => L (w.map (· ∘ ρ)) := fun w => by
  have hmap : (w ++ [blankLetter]).map (· ∘ ρ) = w.map (· ∘ ρ) ++ [blankLetter] := List.map_append
  simp only [hmap]
  exact h _

theorem PaddingClosed.projected (h : PaddingClosed L) (ps : List Nat) :
    PaddingClosed (Projected L ps) := by
  intro w
  constructor
  · rintro ⟨k, w', hw', hL⟩
    refine ⟨k + 1, w', ?_, hL⟩
    rwa [padding, List.replicate_succ, List.append_cons]
  · rintro ⟨k, w', hw', hL⟩
    refine ⟨k, w' ++ [blankLetter], ?_, (h w').2 hL⟩
    have hswap : w ++ [blankLetter] ++ padding k = w ++ padding k ++ [blankLetter] := by
      rw [List.append_assoc, List.append_assoc, padding, ← List.replicate_succ',
        List.singleton_append, ← List.replicate_succ]
    rw [hswap]
    exact List.rel_append hw' (.cons (fun _ _ => rfl) .nil)

theorem paddingClosed_numbers (R : (Nat → Nat) → Prop) : PaddingClosed fun w => R (numbers w) := by
  intro w
  have hnumbers : numbers (w ++ [blankLetter]) = numbers w :=
    funext fun p => numbers_append_padding w 1 p
  simp only [hnumbers]

/-- A family of languages that has those to which padding makes no difference, and is closed under
what automata are combined by. -/
class LanguageFamily where
  Has : (Word → Prop) → Prop
  of_paddingClosed : ∀ {L}, PaddingClosed L → Has L
  and : ∀ {L L'}, Has L → Has L' → Has fun w => L w ∧ L' w
  or : ∀ {L L'}, Has L → Has L' → Has fun w => L w ∨ L' w
  not : ∀ {L}, Has L → Has fun w => ¬L w
  rename : ∀ {L}, Has L → ∀ ρ : Nat → Nat, Has fun w => L (w.map (· ∘ ρ))
  projected : ∀ {L}, Has L → ∀ ps, Has (Projected L ps)

@[reducible] def paddingClosedFamily : LanguageFamily :=
  ⟨PaddingClosed, id, .and, .or, .not, .rename, .projected⟩

@[reducible] def allLanguages : LanguageFamily :=
  ⟨fun _ => True, fun _ => trivial, fun _ _ => trivial, fun _ _ => trivial, fun _ => trivial,
    fun _ _ => trivial, fun _ _ => trivial⟩

section

variable [LanguageFamily]

def Belongs (s : Diagram.Store) (a : Automaton) : Prop :=
  ∃ L, a.Recognizes s Set.univ L ∧ LanguageFamily.Has L

theorem Recognizes.belongs (h : a.Recognizes s V L) (hL : PaddingClosed L) : a.Belongs s :=
  ⟨L, h.mono (Set.subset_univ V), LanguageFamily.of_paddingClosed hL⟩

theorem Belongs.mono_store (h : a.Belongs s) (hs : s.Sound) (hst : s ≤ t) : a.Belongs t := by
  obtain ⟨L, hL, hfamily⟩ := h
  exact ⟨L, hL.mono_store hs hst, hfamily⟩

theorem Belongs.admits_iff_of_le (h : a.Belongs s) (hs : s.Sound) (ht : t.Sound) (hst : s ≤ t)
    {w : List Letter} : a.Admits t w ↔ a.Admits s w := by
  obtain ⟨L, hL, -⟩ := h
  have hL' := hL.mono_store hs hst
  rw [hL'.formed.readable.admits_iff ht hL'.deterministic, hL'.accepts,
    hL.formed.readable.admits_iff hs hL.deterministic, hL.accepts]

theorem Belongs.withProps (h : a.Belongs s) (ps : List Nat) : (a.withProps ps).Belongs s := by
  obtain ⟨L, hL, hfamily⟩ := h
  exact ⟨L, hL.withProps fun _ _ => trivial, hfamily⟩

theorem belongs_universal (hs : s.Sound) : universal.Belongs s :=
  (recognizes_universal (V := Set.univ) hs).belongs fun _ => Iff.rfl

theorem belongs_empty : empty.Belongs s :=
  (recognizes_empty (V := Set.univ) (fun _ _ => trivial) fun _ h => h).belongs
    (L := fun _ => False) fun _ => Iff.rfl

theorem yields_belongs_intersect (hs : x.diagrams.Sound) (ha : a.Belongs x.diagrams)
    (hb : b.Belongs x.diagrams) : Yields (a.intersect b) x fun c y => c.Belongs y.diagrams := by
  obtain ⟨L, ha, hL⟩ := ha
  obtain ⟨L', hb, hL'⟩ := hb
  exact (yields_intersect hs ha hb).mono fun _ _ _ hc => ⟨_, hc, LanguageFamily.and hL hL'⟩

theorem yields_belongs_union (hs : x.diagrams.Sound) (ha : a.Belongs x.diagrams)
    (hb : b.Belongs x.diagrams) : Yields (a.union b) x fun c y => c.Belongs y.diagrams := by
  obtain ⟨L, ha, hL⟩ := ha
  obtain ⟨L', hb, hL'⟩ := hb
  exact (yields_union hs ha hb).mono fun _ _ _ hc => ⟨_, hc, LanguageFamily.or hL hL'⟩

theorem yields_belongs_complement (hs : s.Sound) (ha : a.Belongs s) :
    Yields a.complement s fun c t => c.Belongs t := by
  obtain ⟨L, ha, hL⟩ := ha
  exact (yields_complement hs ha).mono fun _ _ _ hc => ⟨_, hc, LanguageFamily.not hL⟩

theorem yields_belongs_rename (hs : s.Sound) (ha : a.Belongs s) (ρ : Nat → Nat) :
    Yields (a.rename ρ) s fun c t => c.Belongs t := by
  obtain ⟨L, ha, hL⟩ := ha
  exact (yields_rename hs ha ρ).mono fun _ _ _ hc =>
    ⟨_, hc.mono (Set.subset_univ _), LanguageFamily.rename hL ρ⟩

theorem yields_belongs_project (hs : x.diagrams.Sound) (ha : a.Belongs x.diagrams)
    (ps : NumberSet) : Yields (a.project ps) x fun c y => c.Belongs y.diagrams := by
  cases hps : ps.isEmpty with
  | true =>
    rw [project_of_isEmpty hps]
    exact .pure ha
  | false =>
    obtain ⟨L, ha, hL⟩ := ha
    exact (yields_project hs ha hps).mono fun _ _ _ hc =>
      ⟨_, hc.mono (Set.subset_univ _), LanguageFamily.projected hL _⟩

theorem belongs_of_means {r : Relation} {R : List Nat → Prop} (h : r.Means s fun _ => R) :
    r.automaton.Belongs s := h.recognizes.belongs (paddingClosed_numbers fun σ => R (r.args.map σ))

end

/-- Asked about a word of letters and about the word with one letter more, in which every
proposition is false, the automaton gives one answer. -/
def ZeroClosed (s : Diagram.Store) (a : Automaton) : Prop :=
  ∀ w : List Letter, ∃ x, a.accepts w s = .ok x s ∧ a.accepts (w ++ [∅]) s = .ok x s

theorem Belongs.zeroClosed (h : @Belongs paddingClosedFamily s a) (hs : s.Sound) :
    a.ZeroClosed s := by
  obtain ⟨L, h, hL⟩ := h
  have hL : PaddingClosed L := hL
  intro w
  obtain ⟨x, hx, hiff⟩ := h.formed.readable.accepts_eq hs h.deterministic w
  obtain ⟨y, hy, hiff'⟩ := h.formed.readable.accepts_eq hs h.deterministic (w ++ [∅])
  have hword : Word.ofLetters (w ++ [∅]) = Word.ofLetters w ++ [blankLetter] :=
    Word.ofLetters_append_blank w 1
  rw [hword, h.accepts, hL, ← h.accepts, ← hiff] at hiff'
  refine ⟨x, hx, ?_⟩
  rwa [Bool.eq_iff_iff.2 hiff'] at hy

end RegularArithmetic.Automaton

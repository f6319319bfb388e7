import RegularArithmetic.Program.Engine
import RegularArithmetic.Proofs.Program.Description

/-!
Joining an automaton with the values that it is about. The temporary ones among them may have any
numbers that they can stand for, in a word that is long enough.
-/

set_option autoImplicit false

namespace RegularArithmetic

/-- Some numbers for the propositions in `T`, in a word that is longer only if there are such. -/
def Completes (T : List Nat) (u u' : Word) : Prop :=
  u.length ≤ u'.length ∧ (T = [] → u'.length = u.length) ∧ ∀ p, p ∉ T → numbers u' p = numbers u p

theorem eq_of_numbers {u u' : Word} (hlength : u'.length = u.length)
    (h : ∀ p, numbers u' p = numbers u p) : u' = u := by
  have hall : List.Forall₂ (Automaton.AgreeOff []) u u' :=
    Automaton.forall₂_agreeOff_iff.2 ⟨hlength, fun p _ => h p⟩
  induction hall with
  | nil => rfl
  | @cons l l' u u' hl hrest ih =>
    obtain ⟨hlength, hnumbers⟩ := Automaton.forall₂_agreeOff_iff.1 hrest
    have hletter : l' = l := funext fun p => hl p (by simp)
    rw [hletter, ih hlength fun p => hnumbers p (by simp)]

theorem completes_nil_iff {u u' : Word} : Completes [] u u' ↔ u' = u := by
  constructor
  · rintro ⟨-, hlength, h⟩
    exact eq_of_numbers (hlength rfl) fun p => h p (by simp)
  · rintro rfl
    exact ⟨le_rfl, fun _ => rfl, fun _ _ => rfl⟩

/-- A proposition, what it may stand for, and the words in which it does. -/
structure Slot where
  prop : Nat
  operand : Operand
  words : Word → Prop

namespace Slot

/-- The propositions of the temporary ones. -/
def temporaries (es : List Slot) : List Nat :=
  (es.filter (·.operand.temporary)).map (·.prop)

/-- The temporary slots have propositions of their own, whose numbers are what they stand for,
and the others stand for the numbers in the word. -/
structure Fit (es : List Slot) (u : Word) : Prop where
  known : ∀ e ∈ es, e.operand.temporary = false →
    e.prop ∉ temporaries es ∧ e.operand = .known (numbers u e.prop)
  nodup : (temporaries es).Nodup
  words : ∀ e ∈ es, ∀ u', Completes (temporaries es) u u' →
    (e.words u' ↔ e.operand.rel u'.length (numbers u' e.prop))

variable {es : List Slot} {u : Word} {T vs : List Nat} {m : Nat}

private theorem exists_numbers (hm : u.length ≤ m)
    (hvs : List.Forall₂ (fun e a => e.operand.rel m a ∧ a < 2 ^ m) es vs)
    (hknown : ∀ e ∈ es, e.operand.temporary = false →
      e.prop ∉ T ∧ e.operand = .known (numbers u e.prop))
    (hT : ∀ e ∈ es, e.operand.temporary = true → e.prop ∈ T)
    (hnodup : (temporaries es).Nodup) :
    ∃ σ : Nat → Nat, (∀ p, p ∉ T → σ p = numbers u p) ∧ es.map (fun e => σ e.prop) = vs ∧
      ∀ p, σ p < 2 ^ m := by
  induction hvs with
  | nil =>
    exact ⟨numbers u, fun _ _ => rfl, rfl, fun p =>
      Nat.lt_of_lt_of_le (numbers_lt u p) (Nat.pow_le_pow_right (by decide) hm)⟩
  | @cons e a es vs hea _ ih =>
    have hrest : (temporaries es).Nodup := by
      refine hnodup.sublist ?_
      rw [temporaries, temporaries, List.filter_cons]
      split
      · simp
      · simp
    obtain ⟨σ, hoff, hmap, hlt⟩ := ih (fun f hf => hknown f (by simp [hf]))
      (fun f hf => hT f (by simp [hf])) hrest
    cases ht : e.operand.temporary with
    | false =>
      obtain ⟨hnot, hoperand⟩ := hknown e (by simp) ht
      have ha : a = numbers u e.prop := by simpa [hoperand, Operand.known] using hea.1
      exact ⟨σ, hoff, by rw [List.map_cons, hmap, hoff _ hnot, ha], hlt⟩
    | true =>
      have hpT := hT e (by simp) ht
      refine ⟨Function.update σ e.prop a, fun p hp => ?_, ?_, fun p => ?_⟩
      · have hne : p ≠ e.prop := fun heq => hp (heq ▸ hpT)
        rw [Function.update_of_ne hne, hoff p hp]
      · rw [List.map_cons, Function.update_self, ← hmap]
        congr 1
        refine List.map_congr_left fun f hf => Function.update_of_ne (fun heq => ?_) _ _
        cases hft : f.operand.temporary with
        | false => exact (hknown f (by simp [hf]) hft).1 (heq ▸ hpT)
        | true =>
          rw [temporaries, List.filter_cons_of_pos (by simpa using ht), List.map_cons,
            List.nodup_cons] at hnodup
          exact hnodup.1 (List.mem_map.2 ⟨f, List.mem_filter.2 ⟨hf, by simpa using hft⟩, heq⟩)
      · rw [Function.update_apply]
        split
        · exact hea.2
        · exact hlt p

theorem temporaries_eq_nil_iff :
    temporaries es = [] ↔ (es.map (·.operand)).any (·.temporary) = false := by
  simp [temporaries, List.filter_eq_nil_iff]

theorem joined_iff (h : Fit es u) (R : Nat → List Nat → Prop) :
    (∃ u', Completes (temporaries es) u u' ∧ R u'.length (es.map fun e => numbers u' e.prop) ∧
      ∀ e ∈ es, e.words u') ↔ Operand.Joined (es.map (·.operand)) R u.length := by
  constructor
  · rintro ⟨u', hcompletes, hR, hwords⟩
    refine ⟨u'.length, hcompletes.1, fun hnone =>
      hcompletes.2.1 (temporaries_eq_nil_iff.2 hnone), _, ?_, hR⟩
    rw [List.forall₂_map_left_iff, List.forall₂_map_right_iff, List.forall₂_same]
    exact fun e he => ⟨(h.words e he u' hcompletes).1 (hwords e he), numbers_lt u' e.prop⟩
  · rintro ⟨m, hm, hnone, vs, hvs, hR⟩
    rw [List.forall₂_map_left_iff] at hvs
    obtain ⟨σ, hoff, hmap, hlt⟩ := exists_numbers hm hvs h.known
      (fun e he ht => List.mem_map.2 ⟨e, List.mem_filter.2 ⟨he, by simpa using ht⟩, rfl⟩) h.nodup
    obtain ⟨u', hlength, hnumbers⟩ := exists_word hlt
    have hcompletes : Completes (temporaries es) u u' := by
      refine ⟨hlength ▸ hm, fun hnil => ?_, fun p hp => (hnumbers p).trans (hoff p hp)⟩
      rw [hlength, hnone (temporaries_eq_nil_iff.1 hnil)]
    have hvalues : es.map (fun e => numbers u' e.prop) = vs := by
      simpa only [hnumbers] using hmap
    refine ⟨u', hcompletes, by rwa [hvalues, hlength], fun e he => ?_⟩
    refine (h.words e he u' hcompletes).2 ?_
    rw [← hvalues, List.forall₂_map_right_iff, List.forall₂_same] at hvs
    exact hlength ▸ (hvs e he).1

end Slot

namespace Program

variable {x : Alphabet} {V : Set Nat} {L : Word → Prop} {a : Automaton} {vs : List Value}

def temporaryPropsOf (vs : List Value) : List Nat := (vs.filter (·.temporary)).map (·.prop)

theorem mem_temporaryProps {p : Nat} : p ∈ temporaryProps vs ↔ p ∈ temporaryPropsOf vs :=
  NumberSet.mem_ofList

theorem isEmpty_temporaryProps_iff : (temporaryProps vs).isEmpty = true ↔
    temporaryPropsOf vs = [] := by
  rw [NumberSet.isEmpty_iff, List.eq_nil_iff_forall_not_mem]
  simp only [mem_temporaryProps]

theorem yields_intersectAll (hs : x.diagrams.Sound) (ha : a.Recognizes x.diagrams V L)
    {M : Value → Word → Prop} (hvs : ∀ v ∈ vs, v.automaton.Recognizes x.diagrams V (M v)) :
    Yields (vs.foldlM (fun a v => a.intersect v.automaton) a) x fun b y =>
      b.Recognizes y.diagrams V fun u => L u ∧ ∀ v ∈ vs, M v u := by
  refine (Yields.foldlM (fun done b y => x ≤ y ∧ b.Recognizes y.diagrams V fun u =>
    L u ∧ ∀ v ∈ done, M v u) ⟨le_rfl, ha.congr fun u => by simp⟩ ?_).mono fun b y _ h => h.2
  rintro done v rest hsplit b y ⟨hxy, hb⟩
  have hv := (hvs v (by simp [hsplit])).mono_store hs hxy.1
  refine (Automaton.yields_intersect (hs.mono hxy.1) hb hv).mono fun c z hyz hc =>
    ⟨le_trans hxy hyz, hc.congr fun u => ?_⟩
  simp only [List.mem_append, List.mem_singleton, or_imp, forall_and, forall_eq]
  exact and_assoc

theorem yields_reduced_combine (hs : x.diagrams.Sound) (ha : a.Recognizes x.diagrams V L)
    {M : Value → Word → Prop} (hvs : ∀ v ∈ vs, v.automaton.Recognizes x.diagrams V (M v))
    (hne : temporaryPropsOf vs ≠ []) :
    Yields (combine a vs) x fun b y => b.Reduced y.diagrams := by
  unfold combine
  refine (yields_intersectAll hs ha hvs).bind fun b y hxy hb => ?_
  have hempty : (temporaryProps vs).isEmpty = false :=
    Bool.eq_false_iff.2 (mt isEmpty_temporaryProps_iff.1 hne)
  exact (Automaton.yields_reduced_project (hs.mono hxy.1) hb hempty).mono fun _ _ _ hc => hc.2

theorem yields_combine (hs : x.diagrams.Sound) (ha : a.Recognizes x.diagrams V L)
    {M : Value → Word → Prop} (hvs : ∀ v ∈ vs, v.automaton.Recognizes x.diagrams V (M v)) :
    Yields (combine a vs) x fun b y =>
      b.Recognizes y.diagrams (V \ {p | p ∈ temporaryPropsOf vs}) fun u =>
        ∃ u', Completes (temporaryPropsOf vs) u u' ∧ L u' ∧ ∀ v ∈ vs, M v u' := by
  unfold combine
  refine (yields_intersectAll hs ha hvs).bind fun b y hxy hb => ?_
  cases hempty : (temporaryProps vs).isEmpty with
  | true =>
    rw [Automaton.project_of_isEmpty hempty, isEmpty_temporaryProps_iff.1 hempty]
    have hreads : b.Recognizes y.diagrams (V \ {p | p ∈ []}) fun u => L u ∧ ∀ v ∈ vs, M v u :=
      hb.mono fun p hp => ⟨hp, List.not_mem_nil⟩
    exact .pure (hreads.congr fun u => by simp only [completes_nil_iff, exists_eq_left])
  | false =>
    refine (Automaton.yields_project (hs.mono hxy.1) hb hempty).mono fun c z _ hc => ?_
    have hset : {p | p ∈ temporaryProps vs} = {p | p ∈ temporaryPropsOf vs} :=
      Set.ext fun p => mem_temporaryProps
    rw [hset] at hc
    refine hc.congr fun u => ?_
    have hne : temporaryPropsOf vs ≠ [] :=
      mt isEmpty_temporaryProps_iff.2 (Bool.eq_false_iff.1 hempty)
    rw [Automaton.projected_iff]
    refine exists_congr fun u' => ?_
    have hmem : ∀ p, p ∉ (temporaryProps vs).toList ↔ p ∉ temporaryPropsOf vs := fun p =>
      not_congr mem_temporaryProps
    simp only [Completes, hmem, hne, false_implies, true_and, and_assoc]

end Program

end RegularArithmetic

import Mathlib.Data.Finset.Powerset
import Mathlib.Data.Finset.Sort
import RegularArithmetic.Proofs.Automaton.Exploration
import RegularArithmetic.Proofs.Automaton.Minimization

/-!
The subset construction. The letters are divided by the labels of the moves, so that in each
region every letter leads to the same set of states; the sets then accept what one of their
members does.
-/

set_option autoImplicit false

namespace RegularArithmetic.Automaton

open Diagram (Edge Assignment)

variable {s t : Diagram.Store} {a : Automaton} {V : Set Nat} {L : Word → Prop}

def Disjoint (s : Diagram.Store) (cs : List Edge) : Prop :=
  cs.Pairwise fun c d => ∀ l, ¬(s.value c l = true ∧ s.value d l = true)

def Unambiguous (s : Diagram.Store) (a : Automaton) : Prop :=
  ∀ st ∈ a.states.toList, Disjoint s (st.moves.map (·.label))

theorem disjoint_mono (hs : s.Sound) (hst : s ≤ t) {cs : List Edge} (hcs : ∀ c ∈ cs, s.Valid c) :
    Disjoint t cs ↔ Disjoint s cs := by
  have hiff : ∀ c ∈ cs, ∀ d ∈ cs, (∀ l, ¬(t.value c l = true ∧ t.value d l = true)) ↔
      ∀ l, ¬(s.value c l = true ∧ s.value d l = true) := fun c hc d hd => by
    rw [hs.value_mono hst (hcs c hc), hs.value_mono hst (hcs d hd)]
  exact ⟨fun h => h.imp_of_mem fun hc hd => (hiff _ hc _ hd).1,
    fun h => h.imp_of_mem fun hc hd => (hiff _ hc _ hd).2⟩

theorem returns_areDisjoint (hs : s.Sound) {cs : List Edge} (hcs : ∀ c ∈ cs, s.Valid c) :
    Returns (areDisjoint cs) s fun b _ => b = true ↔ Disjoint s cs := by
  induction cs generalizing s with
  | nil => exact .pure (by simp [Disjoint])
  | cons c cs ih =>
    rw [areDisjoint]
    have hc := hcs c (by simp)
    have hrest : ∀ d ∈ cs, s.Valid d := fun d hd => hcs d (by simp [hd])
    refine (Returns.allM (P := fun d => ∀ l, ¬(s.value c l = true ∧ s.value d l = true)) cs s
      fun d hd t hst => ?_).bind fun b t hst hb => ?_
    · have ht := hs.mono hst
      refine (Diagram.returns_conj ht (hc.denotes.mono hs hst)
        ((hrest d hd).denotes.mono hs hst)).bind fun e u htu he => .pure ?_
      rw [decide_eq_true_iff, he.eq_zero_iff (ht.mono htu)]
      simp
    · cases b with
      | false =>
        refine .pure (iff_of_false (by simp) fun h => ?_)
        exact absurd (hb.2 (List.pairwise_cons.1 h).1) (by simp)
      | true =>
        refine (ih (hs.mono hst) fun d hd => (hrest d hd).mono hst).mono fun b u _ h => ?_
        rw [h, disjoint_mono hs hst hrest, Disjoint, Disjoint, List.pairwise_cons]
        exact (and_iff_right (hb.1 rfl)).symm

theorem Formed.valid_of_mem (h : a.Formed s) {st : State} (hst : st ∈ a.states.toList) :
    ∀ c ∈ st.moves.map (·.label), s.Valid c := by
  intro c hc
  obtain ⟨q, hq⟩ := Array.mem_iff_getElem?.1 (Array.mem_toList_iff.1 hst)
  obtain ⟨m, hm, rfl⟩ := List.mem_map.1 hc
  exact h.valid q m ((hasMove_iff hq).2 hm)

theorem Unambiguous.mono_store (hs : s.Sound) (hst : s ≤ t) (h : a.Formed s)
    (ha : a.Unambiguous s) : a.Unambiguous t :=
  fun st hmem => (disjoint_mono hs hst (h.valid_of_mem hmem)).2 (ha st hmem)

theorem returns_isDeterministic (hs : s.Sound) (h : a.Formed s) :
    Returns a.isDeterministic s fun b _ => b = true ↔ a.Unambiguous s := by
  unfold isDeterministic
  refine Returns.allM (P := fun st => Disjoint s (st.moves.map (·.label))) a.states.toList s
    fun st hst t hle => ?_
  have hvalid := h.valid_of_mem hst
  refine (returns_areDisjoint (hs.mono hle) fun c hc => (hvalid c hc).mono hle).mono
    fun b _ _ hb => ?_
  rw [hb, disjoint_mono hs hle hvalid]

theorem Unambiguous.deterministic (h : a.Unambiguous s) : a.Deterministic s := by
  rintro q l r r' ⟨m, ⟨st, hst, hm⟩, hl, rfl⟩ ⟨m', ⟨st', hst', hm'⟩, hl', rfl⟩
  rw [hst] at hst'
  cases hst'
  have hpairwise := List.pairwise_map.1 (h st (by
    rw [Array.mem_toList_iff]
    exact Array.mem_of_getElem? hst))
  have : Std.Symm fun m m' : Move =>
      ∀ l, ¬(s.value m.label l = true ∧ s.value m'.label l = true) :=
    ⟨fun m m' hmm l hl => hmm l hl.symm⟩
  by_contra hne
  exact hpairwise.forall hm hm' (fun heq => hne (by rw [heq])) l ⟨hl, hl'⟩

theorem Deterministic.unambiguous (h : a.Deterministic s) (hsimple : a.Simple) :
    a.Unambiguous s := by
  intro st hst
  obtain ⟨q, hq⟩ := Array.mem_iff_getElem?.1 (Array.mem_toList_iff.1 hst)
  refine List.pairwise_map.2 ((List.pairwise_map.1 (hsimple q st hq)).imp_of_mem ?_)
  rintro m m' hm hm' hne l ⟨hl, hl'⟩
  exact hne (h q l _ _ ⟨m, (hasMove_iff hq).2 hm, hl, rfl⟩ ⟨m', (hasMove_iff hq).2 hm', hl', rfl⟩)

/-- The targets of the moves that take the letter, in increasing order. -/
def entered (s : Diagram.Store) (ms : List Move) (l : Assignment) : List Nat :=
  ms.foldl (fun ts m => if s.value m.label l then NumberSet.place m.target ts else ts) []

theorem entered_append {ms : List Move} {m : Move} {l : Assignment} :
    entered s (ms ++ [m]) l =
      if s.value m.label l then NumberSet.place m.target (entered s ms l) else entered s ms l := by
  simp [entered]

theorem increasing_entered (ms : List Move) (l : Assignment) :
    (entered s ms l).Pairwise (· < ·) := by
  induction ms using List.reverseRecOn with
  | nil => simp [entered]
  | append_singleton ms m ih =>
    rw [entered_append]
    split
    · exact NumberSet.pairwise_place ih
    · exact ih

theorem mem_entered {ms : List Move} {l : Assignment} {r : Nat} :
    r ∈ entered s ms l ↔ Takes s ms l r := by
  induction ms using List.reverseRecOn with
  | nil => simp [entered, Takes]
  | append_singleton ms m ih =>
    have htakes : Takes s (ms ++ [m]) l r ↔
        Takes s ms l r ∨ s.value m.label l = true ∧ m.target = r := by
      simp [Takes, or_and_right, exists_or]
    rw [entered_append, htakes, ← ih]
    split
    · rename_i hl
      rw [NumberSet.mem_place]
      simp [hl, or_comm, eq_comm]
    · rename_i hl
      simp [hl]

/-- The regions contain every letter, and each letter leads to the targets of its region. -/
structure Divided (s₀ s : Diagram.Store) (V : Set Nat) (ms : List Move)
    (regions : List (Edge × List Nat)) : Prop where
  labels : ∀ e ts, (e, ts) ∈ regions → IsLabel s V e
  covers : ∀ l, ∃ e ts, (e, ts) ∈ regions ∧ s.value e l = true
  targets : ∀ e ts l, (e, ts) ∈ regions → s.value e l = true → ts = entered s₀ ms l

private theorem yields_divideRegion {s₀ : Diagram.Store} (hs₀ : s₀.Sound) (h₀ : s₀ ≤ s)
    {ms : List Move} {m : Move} (hm : IsLabel s₀ V m.label) {e : Edge} {ts : List Nat}
    (he : IsLabel s V e) (htargets : ∀ l, s.value e l = true → ts = entered s₀ ms l) :
    Yields (do
      let inside ← Diagram.conj e m.label
      let outside ← Diagram.conj e (-m.label)
      let within := if inside = .zero then [] else [(inside, NumberSet.place m.target ts)]
      let without := if outside = .zero then [] else [(outside, ts)]
      return within ++ without : Diagram.M (List (Edge × List Nat))) s fun parts t =>
        (∀ f us, (f, us) ∈ parts → IsLabel t V f ∧
          ∀ l, t.value f l = true → us = entered s₀ (ms ++ [m]) l) ∧
        ∀ l, s.value e l = true → ∃ f us, (f, us) ∈ parts ∧ t.value f l = true := by
  have hs := hs₀.mono h₀
  have hml := hm.valid.denotes.mono hs₀ h₀
  refine (Diagram.yields_conj hs he.valid.denotes hml).bind fun inside t hst hin => ?_
  have ht := hs.mono hst
  refine (Diagram.yields_conj ht (he.valid.denotes.mono hs hst)
    ((hml.mono hs hst).neg ht)).bind fun outside u htu hout => ?_
  have hin := hin.mono ht htu
  have hu := ht.mono htu
  have hlabel : ∀ {f φ}, u.Denotes f φ → f ≠ .zero → DependsOn V φ → IsLabel u V f :=
    fun hf hz hV => ⟨hf.valid, hz, hf.value_eq ▸ hV⟩
  refine .pure ⟨fun f us hf => ?_, fun l hl => ?_⟩
  · rcases List.mem_append.1 hf with hf | hf
    · split at hf
      · simp at hf
      · rename_i hz
        cases List.mem_singleton.1 hf
        refine ⟨hlabel hin hz (he.depends.and hm.depends), fun l hl => ?_⟩
        rw [hin.value_eq, Bool.and_eq_true] at hl
        rw [entered_append, if_pos hl.2, htargets l hl.1]
    · split at hf
      · simp at hf
      · rename_i hz
        cases List.mem_singleton.1 hf
        refine ⟨hlabel hout hz (he.depends.and hm.depends.not), fun l hl => ?_⟩
        rw [hout.value_eq, Bool.and_eq_true, Bool.not_eq_true'] at hl
        rw [entered_append, if_neg (by simp [hl.2]), htargets l hl.1]
  · cases hml' : s₀.value m.label l with
    | true =>
      have hvalue : u.value inside l = true := by simp [hin.value_eq, hl, hml']
      have hz : inside ≠ .zero := fun hz => by simp [hz] at hvalue
      exact ⟨inside, NumberSet.place m.target ts, by simp [hz], hvalue⟩
    | false =>
      have hvalue : u.value outside l = true := by simp [hout.value_eq, hl, hml']
      have hz : outside ≠ .zero := fun hz => by simp [hz] at hvalue
      exact ⟨outside, ts, by simp [hz], hvalue⟩

theorem yields_divide {s₀ : Diagram.Store} (hs₀ : s₀.Sound) (h₀ : s₀ ≤ s) {ms : List Move}
    {m : Move} (hm : IsLabel s₀ V m.label) {regions : List (Edge × List Nat)}
    (h : Divided s₀ s V ms regions) :
    Yields (divide regions m) s fun regions' t => Divided s₀ t V (ms ++ [m]) regions' := by
  unfold divide
  let Parts (r : Edge × List Nat) (parts : List (Edge × List Nat)) (t : Diagram.Store) : Prop :=
    s ≤ t ∧ (∀ f us, (f, us) ∈ parts → IsLabel t V f ∧
      ∀ l, t.value f l = true → us = entered s₀ (ms ++ [m]) l) ∧
    ∀ l, s.value r.1 l = true → ∃ f us, (f, us) ∈ parts ∧ t.value f l = true
  have hs := hs₀.mono h₀
  refine (Yields.mapM Parts ?_ regions s ?_).bind fun parts t hst hparts => .pure ?_
  · rintro r parts t u htu ⟨hst, hall, hcover⟩
    have ht := hs.mono hst
    refine ⟨le_trans hst htu, fun f us hf => ?_, fun l hl => ?_⟩
    · obtain ⟨hlabel, htargets⟩ := hall f us hf
      exact ⟨hlabel.mono_store ht htu, fun l hl => htargets l
        (by rwa [ht.value_mono htu hlabel.valid] at hl)⟩
    · obtain ⟨f, us, hf, hfl⟩ := hcover l hl
      exact ⟨f, us, hf, by rwa [ht.value_mono htu (hall f us hf).1.valid]⟩
  · rintro ⟨e, ts⟩ hr t hst
    have he := h.labels e ts hr
    refine (yields_divideRegion hs₀ (le_trans h₀ hst) hm (he.mono_store hs hst)
      fun l hl => h.targets e ts l hr (by rwa [hs.value_mono hst he.valid] at hl)).mono
        fun parts u htu ⟨hall, hcover⟩ => ⟨le_trans hst htu, hall, fun l hl => hcover l ?_⟩
    rwa [hs.value_mono hst he.valid]
  · have hmem : ∀ {f us}, (f, us) ∈ parts.flatten → ∃ r ∈ regions, ∃ ps ∈ parts,
        Parts r ps t ∧ (f, us) ∈ ps := by
      intro f us hf
      obtain ⟨ps, hps, hf⟩ := List.mem_flatten.1 hf
      obtain ⟨r, hr, hR⟩ := exists_mem_of_forall₂ hparts.flip hps
      exact ⟨r, hr, ps, hps, hR, hf⟩
    refine ⟨fun f us hf => ?_, fun l => ?_, fun f us l hf hl => ?_⟩
    · obtain ⟨r, -, ps, -, ⟨-, hall, -⟩, hf⟩ := hmem hf
      exact (hall f us hf).1
    · obtain ⟨e, ts, hr, hl⟩ := h.covers l
      obtain ⟨ps, hps, -, -, hcover⟩ := exists_mem_of_forall₂ hparts hr
      obtain ⟨f, us, hf, hfl⟩ := hcover l hl
      exact ⟨f, us, List.mem_flatten.2 ⟨ps, hps, hf⟩, hfl⟩
    · obtain ⟨r, -, ps, -, ⟨-, hall, -⟩, hf⟩ := hmem hf
      exact (hall f us hf).2 l hl

theorem succeeds_divide {s₀ : Diagram.Store} (hs₀ : s₀.Sound) (h₀ : s₀ ≤ s) {m : Move}
    (hm : IsLabel s₀ V m.label) {regions : List (Edge × List Nat)}
    (h : ∀ e ts, (e, ts) ∈ regions → IsLabel s V e) : Succeeds (divide regions m) s := by
  unfold divide
  refine (Succeeds.mapM fun ⟨e, ts⟩ hr t hst => ?_).bind_pure
  have ht := (hs₀.mono h₀).mono hst
  have he := ((h e ts hr).mono_store (hs₀.mono h₀) hst).valid
  have hml := hm.valid.mono (le_trans h₀ hst)
  refine (Diagram.returns_conj ht he.denotes hml.denotes).bind fun inside u htu _ => ?_
  have hu := ht.mono htu
  refine (Diagram.returns_conj hu (he.mono htu).denotes
    (Diagram.Store.valid_neg.2 (hml.mono htu)).denotes).bind fun outside _ _ _ => .pure trivial

theorem returns_divideAll {s₀ : Diagram.Store} (hs₀ : s₀.Sound) (h₀ : s₀ ≤ s) {ms : List Move}
    (hms : ∀ m ∈ ms, IsLabel s₀ V m.label) :
    Returns (ms.foldlM divide [(.one, [])]) s fun regions t =>
      s₀ ≤ t ∧ Divided s₀ t V ms regions := by
  have hone : IsLabel s V .one :=
    ⟨(hs₀.mono h₀).valid_one, Edge.zero_ne_one.symm, fun σ τ _ => by simp⟩
  refine Returns.foldlM (fun done regions t => s₀ ≤ t ∧ Divided s₀ t V done regions) ?_ ?_
  · refine ⟨h₀, ?_, fun l => ⟨.one, [], by simp⟩, ?_⟩
    · rintro e ts he
      cases List.mem_singleton.1 he
      exact hone
    · rintro e ts l he -
      cases List.mem_singleton.1 he
      rfl
  · rintro done m rest hl regions t ⟨h₀t, hdivided⟩
    have hm := hms m (by simp [hl])
    exact ((succeeds_divide hs₀ h₀t hm hdivided.labels).returns
      (yields_divide hs₀ h₀t hm hdivided)).mono fun regions' u htu h => ⟨le_trans h₀t htu, h⟩

theorem mem_filterMap_regions {regions : List (Edge × List Nat)} {rs : List Nat} {e : Edge} :
    (rs, e) ∈ (regions.filterMap fun r => if r.2.isEmpty then none else some (r.2, r.1)) ↔
      rs ≠ [] ∧ (e, rs) ∈ regions := by
  simp only [List.mem_filterMap, Prod.exists, Option.ite_none_left_eq_some, Option.some.injEq,
    Prod.mk.injEq, List.isEmpty_iff]
  constructor
  · rintro ⟨e', rs', hmem, hne, rfl, rfl⟩
    exact ⟨hne, hmem⟩
  · rintro ⟨hne, hmem⟩
    exact ⟨e, rs, hmem, hne, rfl, rfl⟩

/-- The sets of states, which move to the states that their members move to. -/
def subsets (s : Diagram.Store) (a : Automaton) (h : a.Formed s) : Combinations where
  D := (Finset.range a.size).powerset.image fun qs => qs.sort (· ≤ ·)
  Accepting qs := ∃ q ∈ qs, a.Accepting q
  Next qs l rs := rs ≠ [] ∧ rs.Pairwise (· < ·) ∧ ∀ r, r ∈ rs ↔ ∃ q ∈ qs, Step s a q l r
  closed := by
    rintro qs l rs - ⟨-, hrs, hmem⟩
    refine Finset.mem_image.2 ⟨rs.toFinset, ?_, ?_⟩
    · rw [Finset.mem_powerset]
      intro r hr
      obtain ⟨q, -, hq⟩ := (hmem r).1 (List.mem_toFinset.1 hr)
      exact Finset.mem_range.2 (hq.lt h)
    · exact (List.toFinset_sort (· ≤ ·) (hrs.imp Nat.ne_of_lt)).2 (hrs.imp Nat.le_of_lt)

theorem card_subsets_le (h : a.Formed s) : (subsets s a h).D.card ≤ Nat.pow 2 a.size := by
  have hle : ((Finset.range a.size).powerset.image fun qs => qs.sort (· ≤ ·)).card ≤
      (Finset.range a.size).powerset.card := Finset.card_image_le
  rwa [Finset.card_powerset, Finset.card_range] at hle

theorem subsets_acceptsFrom_iff (h : a.Formed s) (w : Word) (qs : List Nat) :
    (subsets s a h).AcceptsFrom qs w ↔ ∃ q ∈ qs, AcceptsFrom s a q w := by
  induction w generalizing qs with
  | nil => rfl
  | cons l w ih =>
    simp only [Combinations.AcceptsFrom, ih, AcceptsFrom]
    constructor
    · rintro ⟨rs, ⟨-, -, hmem⟩, r, hr, hw⟩
      obtain ⟨q, hq, hstep⟩ := (hmem r).1 hr
      exact ⟨q, hq, r, hstep, hw⟩
    · rintro ⟨q, hq, r, hstep, hw⟩
      classical
      let rs := (List.range a.size).filter fun r => decide (∃ q ∈ qs, Step s a q l r)
      have hmem : ∀ r, r ∈ rs ↔ ∃ q ∈ qs, Step s a q l r := by
        intro r
        simp only [rs, List.mem_filter, List.mem_range, decide_eq_true_eq, and_iff_right_iff_imp]
        rintro ⟨q, -, hstep⟩
        exact hstep.lt h
      have hr : r ∈ rs := (hmem r).2 ⟨q, hq, hstep⟩
      exact ⟨rs, ⟨List.ne_nil_of_mem hr, List.pairwise_lt_range.filter _, hmem⟩, r, hr, hw⟩

theorem yields_subsetMoves (hs : s.Sound) (h : a.Formed s) (hreads : a.Reads s V) (hst : s ≤ t)
    (qs : List Nat) :
    Yields (a.subsetMoves qs) t fun ms u => Ascending ms ∧ (∀ rs e, (rs, e) ∈ ms → IsLabel u V e) ∧
      ∀ rs l, Keyed u ms rs l ↔ (subsets s a h).Next qs l rs := by
  have hlabel : ∀ q m, a.HasMove q m → IsLabel s V m.label := fun q m hm =>
    ⟨h.valid q m hm, h.satisfiable q m hm, hreads.labels q m hm⟩
  have ht := hs.mono hst
  unfold subsetMoves
  refine (Yields.mapM (fun q ms _ => ∀ m, a.HasMove q m ↔ m ∈ ms) (fun _ _ _ _ _ h => h) qs t
    fun q _ u _ => Yields.liftExcept fun ms hms => (moves_eq_ok hms).2).bind
      fun moves t₁ ht₁ hall => ?_
  have hmem : ∀ m, m ∈ moves.flatten ↔ ∃ q ∈ qs, a.HasMove q m := by
    intro m
    rw [List.mem_flatten]
    constructor
    · rintro ⟨ms, hms, hm⟩
      obtain ⟨q, hq, hiff⟩ := exists_mem_of_forall₂ hall.flip hms
      exact ⟨q, hq, (hiff m).2 hm⟩
    · rintro ⟨q, hq, hm⟩
      obtain ⟨ms, hms, hiff⟩ := exists_mem_of_forall₂ hall hq
      exact ⟨ms, hms, (hiff m).1 hm⟩
  have hlabels : ∀ m ∈ moves.flatten, IsLabel s V m.label := fun m hm => by
    obtain ⟨q, -, hm⟩ := (hmem m).1 hm
    exact hlabel q m hm
  refine (returns_divideAll hs (le_trans hst ht₁) hlabels).yields.bind ?_
  rintro regions u - ⟨hsu, hlabels, hcovers, htargets⟩
  refine (returns_gather (hs.mono hsu) fun rs e he =>
    hlabels e rs (mem_filterMap_regions.1 he).2).yields.mono
      fun ms v _ ⟨hascending, hgathered⟩ => ⟨hascending, hgathered.1, fun rs l => ?_⟩
  have hentered : ∀ r, r ∈ entered s moves.flatten l ↔ ∃ q ∈ qs, Step s a q l r := by
    intro r
    rw [mem_entered]
    simp only [Takes, hmem, Step]
    constructor
    · rintro ⟨m, ⟨q, hq, hm⟩, hl, rfl⟩
      exact ⟨q, hq, m, hm, hl, rfl⟩
    · rintro ⟨q, hq, m, hm, hl, rfl⟩
      exact ⟨m, ⟨q, hq, hm⟩, hl, rfl⟩
  rw [hgathered.2]
  constructor
  · rintro ⟨e, he, hl⟩
    obtain ⟨hne, hregion⟩ := mem_filterMap_regions.1 he
    obtain rfl := htargets e rs l hregion hl
    exact ⟨hne, increasing_entered _ _, hentered⟩
  · rintro ⟨hne, hincreasing, hiff⟩
    obtain rfl : rs = entered s moves.flatten l := eq_of_increasing hincreasing
      (increasing_entered _ _) fun r => (hiff r).trans (hentered r).symm
    obtain ⟨e, ts, hregion, hl⟩ := hcovers l
    obtain rfl := htargets e ts l hregion hl
    exact ⟨e, mem_filterMap_regions.2 ⟨hne, hregion⟩, hl⟩

theorem succeeds_subsetMoves (hs : s.Sound) (h : a.Formed s) (hst : s ≤ t) {qs : List Nat}
    (hqs : ∀ q ∈ qs, q < a.size) : Succeeds (a.subsetMoves qs) t := by
  unfold subsetMoves
  refine (Returns.mapM (fun _ (ms : List Move) _ => ∀ m ∈ ms, IsLabel s Set.univ m.label)
    (fun _ _ _ _ _ h => h) qs t fun q hq u _ => Returns.liftExcept ?_).bind_succeeds
      fun moves t₁ ht₁ hall => ?_
  · refine (answers_moves (hqs q hq)).mono fun ms hms m hm => ?_
    have hmove := (hms m).2 hm
    exact ⟨h.valid q m hmove, h.satisfiable q m hmove, fun σ τ hστ =>
      congrArg _ (funext fun p => hστ p trivial)⟩
  have hlabels : ∀ m ∈ moves.flatten, IsLabel s Set.univ m.label := fun m hm => by
    obtain ⟨ms, hms, hm⟩ := List.mem_flatten.1 hm
    obtain ⟨q, -, hms⟩ := exists_mem_of_forall₂ hall.flip hms
    exact hms m hm
  refine (returns_divideAll hs (le_trans hst ht₁) hlabels).bind_succeeds ?_
  rintro regions u - ⟨hsu, hdivided⟩
  exact (returns_gather (hs.mono hsu) fun rs e he =>
    hdivided.labels e rs (mem_filterMap_regions.1 he).2).succeeds

theorem subsets_follows (hs : s.Sound) (h : a.Formed s) (hreads : a.Reads s V) :
    Exploration.Rule.Follows ⟨fun qs => qs.anyM a.isAccepting, a.subsetMoves⟩ s V
      (subsets s a h) where
  accepting _ _ := Gives.anyM _ fun _ _ _ hb => (isAccepting_eq_ok.1 hb).2
  moves qs _ _ ht := (yields_subsetMoves hs h hreads ht qs).mono fun _ _ _ hms => hms.2

theorem subsets_total (hs : s.Sound) (h : a.Formed s) :
    Exploration.Rule.Total ⟨fun qs => qs.anyM a.isAccepting, a.subsetMoves⟩ s (subsets s a h) := by
  have hlt : ∀ qs ∈ (subsets s a h).D, ∀ q ∈ qs, q < a.size := by
    intro qs hqs q hq
    obtain ⟨rs, hrs, rfl⟩ := Finset.mem_image.1 hqs
    exact Finset.mem_range.1 (Finset.mem_powerset.1 hrs ((Finset.mem_sort _).1 hq))
  exact ⟨fun qs hqs => Answers.anyM _ fun q hq => (answers_isAccepting (hlt qs hqs q hq)).mono
    fun _ _ => trivial, fun qs hqs _ ht => succeeds_subsetMoves hs h ht (hlt qs hqs)⟩

theorem subsets_deterministic (h : a.Formed s) : ∀ qs ∈ (subsets s a h).D, ∀ l rs rs',
    (subsets s a h).Next qs l rs → (subsets s a h).Next qs l rs' → rs = rs' := by
  rintro qs - l rs rs' ⟨-, hrs, hmem⟩ ⟨-, hrs', hmem'⟩
  exact eq_of_increasing hrs hrs' fun r => (hmem r).trans (hmem' r).symm

theorem singleton_mem_subsets (h : a.Formed s) : [0] ∈ (subsets s a h).D :=
  Finset.mem_image.2 ⟨{0}, by simpa using h.nonempty, by simp⟩

theorem yields_determinize {x : Alphabet} (hs : x.diagrams.Sound) (h : a.Formed x.diagrams)
    (hreads : a.Reads x.diagrams V) :
    Yields a.determinize x fun b y => b.Recognizes y.diagrams V (a.Accepts x.diagrams) := by
  unfold determinize
  refine (Yields.liftDiagram (returns_isDeterministic hs h).yields).bind fun b y hxy hb => ?_
  have hle := hxy.1
  cases b with
  | true =>
    exact .pure (Recognizes.mono_store hs hle
      ⟨h, (hb.1 rfl).deterministic, hreads, fun _ => Iff.rfl⟩)
  | false =>
    have hs' := hs.mono hle
    have h' := h.mono_store hle
    have hreads' := hreads.mono_store hs hle h
    refine (Exploration.yields_run hs' (singleton_mem_subsets h') (subsets_follows hs' h' hreads')
      (card_subsets_le h') (subsets_deterministic h') hreads.props).mono
        fun b z _ hb => hb.congr fun w => ?_
    rw [subsets_acceptsFrom_iff]
    simp only [List.mem_singleton, exists_eq_left]
    exact acceptsFrom_mono hs hle h

theorem returns_determinize {x : Alphabet} (hs : x.diagrams.Sound) (hbudget : x.budget = none)
    (h : a.Formed x.diagrams) (hreads : a.Reads x.diagrams V) :
    Returns a.determinize x fun b y =>
      y.budget = none ∧ b.Recognizes y.diagrams V (a.Accepts x.diagrams) := by
  refine Returns.and ?_ (yields_determinize hs h hreads)
  unfold determinize
  refine (returns_isDeterministic hs h).liftDiagram.bind fun b y hxy ⟨_, hy⟩ => ?_
  rw [hbudget] at hy
  cases b with
  | true => exact .pure hy
  | false =>
    have hs' := hs.mono hxy.1
    have h' := h.mono_store hxy.1
    exact (Exploration.returns_run hs' hy (singleton_mem_subsets h')
      (subsets_follows hs' h' (hreads.mono_store hs hxy.1 h)) (subsets_total hs' h')
      (card_subsets_le h') (subsets_deterministic h') hreads.props).mono fun _ _ _ hb => hb.1

theorem yields_finish {x : Alphabet} (hs : x.diagrams.Sound) (h : a.Formed x.diagrams)
    (hreads : a.Reads x.diagrams V) :
    Yields a.finish x fun b y => b.Recognizes y.diagrams V (a.Accepts x.diagrams) :=
  (yields_determinize hs h hreads).bind fun _ _ hxy hb =>
    Yields.liftDiagram (yields_reduce (hs.mono hxy.1) hb)

theorem returns_finish {x : Alphabet} (hs : x.diagrams.Sound) (hbudget : x.budget = none)
    (h : a.Formed x.diagrams) (hreads : a.Reads x.diagrams V) :
    Returns a.finish x fun b y =>
      y.budget = none ∧ b.Recognizes y.diagrams V (a.Accepts x.diagrams) := by
  refine (returns_determinize hs hbudget h hreads).bind fun b y hxy ⟨hy, hb⟩ => ?_
  exact (returns_reduce (hs.mono hxy.1) hb).liftDiagram.mono fun c z _ ⟨hc, hz⟩ =>
    ⟨hz.trans hy, hc.1⟩

end RegularArithmetic.Automaton

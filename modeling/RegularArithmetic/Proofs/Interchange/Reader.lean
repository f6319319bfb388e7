import RegularArithmetic.Proofs.Automaton.Budget
import RegularArithmetic.Proofs.Automaton.Construction
import RegularArithmetic.Proofs.Automaton.Infinite
import RegularArithmetic.Proofs.Interchange.Document

/-!
The automaton that is made of a document is the one that the document describes, but for the number
of the start state. What is read off it accepts the finite words that are accepted when all-false
letters follow forever, so it is closed under padding.
-/

set_option autoImplicit false

namespace RegularArithmetic.Automaton

open Diagram (Edge Assignment)

variable {s t : Diagram.Store} {x : Alphabet} {a : Automaton} {d : Document} {props : List Nat}

theorem swapStart_lt {start q n : Nat} (hstart : start < n) (hq : q < n) :
    swapStart start q < n := by
  unfold swapStart
  split_ifs <;> omega

@[simp] theorem swapStart_swapStart (start q : Nat) : swapStart start (swapStart start q) = q := by
  unfold swapStart
  split_ifs <;> omega

theorem swapStart_zero (start : Nat) : swapStart start 0 = start := by
  unfold swapStart
  split_ifs <;> omega

theorem swapStart_self (start : Nat) : swapStart start start = 0 := if_pos rfl

theorem eq_swapStart_iff {start p q : Nat} : p = swapStart start q ↔ swapStart start p = q := by
  constructor
  · rintro rfl
    exact swapStart_swapStart start q
  · rintro rfl
    exact (swapStart_swapStart start p).symm

/-! ### Declared propositions play no part while an automaton is made -/

theorem setAccepting_declaring (ps : NumberSet) (q : Nat) (b : Bool) :
    (a.declaring ps).setAccepting q b = (·.declaring ps) <$> a.setAccepting q b := by
  have hsize : (a.declaring ps).size = a.size := rfl
  unfold setAccepting
  rw [hsize]
  split <;> rfl

theorem addMove_declaring (ps : NumberSet) (q : Nat) (m : Move) :
    (a.declaring ps).addMove q m = (·.declaring ps) <$> a.addMove q m := by
  unfold addMove
  split
  · rfl
  · simp only [map_bind, map_pure]
    rfl

theorem addItem_declaring (ps : NumberSet) (start : Nat) (names : Array Nat)
    (item : Document.Item) : addItem start names (a.declaring ps) item =
      (·.declaring ps) <$> addItem start names a item := by
  cases item with
  | state q b =>
    simp only [addItem, setAccepting_declaring]
    cases a.setAccepting (swapStart start q) b <;> rfl
  | move q label r => simp only [addItem, addMove_declaring, map_bind]

theorem ofDocument_eq (d : Document) (props : List Nat) : ofDocument d props =
    (·.declaring ((∅ : NumberSet).insertAll props)) <$>
      d.items.foldlM (addItem d.start props.toArray) (blank d.size) := by
  suffices h : ∀ (items : List Document.Item) (a : Automaton) (ps : NumberSet),
      items.foldlM (addItem d.start props.toArray) (a.declaring ps) =
        (·.declaring ps) <$> items.foldlM (addItem d.start props.toArray) a from
    h d.items (blank d.size) _
  intro items
  induction items with
  | nil => exact fun _ _ => rfl
  | cons item items ih =>
    intro a ps
    simp only [List.foldlM_cons, addItem_declaring, map_bind, bind_map_left, ih]

/-! ### The automaton of a document -/

theorem returns_addItems (hs : s.Sound) (hd : d.Proper) (hprops : ∀ p ∈ props, p ≠ 0)
    (hlength : props.length = d.names.length) :
    Returns (d.items.foldlM (addItem d.start props.toArray) (blank d.size)) s fun a t =>
      Built t Set.univ d.size (fun q => (d.buchi props).Accepting (swapStart d.start q))
        (fun q l r => (d.buchi props).Step (swapStart d.start q) l (swapStart d.start r)) a := by
  let F (done : List Document.Item) (q : Nat) : Prop :=
    Document.MarkedLast done (swapStart d.start q)
  let N (done : List Document.Item) (q : Nat) (l : Assignment) (r : Nat) : Prop :=
    ∃ label, .move (swapStart d.start q) label (swapStart d.start r) ∈ done ∧
      label.holds (fun i => l (props.getD i 0)) = true
  have hpositive : 0 < d.size := Nat.lt_of_le_of_lt (Nat.zero_le _) hd.start
  refine (Returns.foldlM (fun done a t => s ≤ t ∧ Built t Set.univ d.size (F done) (N done) a)
    ⟨le_rfl, ?_⟩ ?_).mono fun a t _ h => h.2
  · have hblank := built_blank (s := s) (V := Set.univ) hpositive
    refine { hblank with accepting := fun q => ?_, step := fun q l r => ?_ }
    · exact (hblank.accepting q).trans (by simp [F, Document.MarkedLast])
    · exact (hblank.step q l r).trans (by simp [N])
  · rintro done item rest hitems a t ⟨hle, ha⟩
    have ht := hs.mono hle
    cases item with
    | state q b =>
      have hq := swapStart_lt hd.start (hd.states q b (by simp [hitems]))
      refine Returns.liftExcept ((ha.answers_setAccepting hq b).mono fun c hc => ⟨hle, ?_⟩)
      refine { hc with accepting := fun p => (hc.accepting p).trans ?_, step := fun p l r => ?_ }
      · simp only [F, Document.markedLast_append_state, eq_swapStart_iff]
      · rw [hc.step]
        simp [N]
    | move q label r =>
      obtain ⟨hq, hr, hlabel⟩ := hd.moves q label r (by simp [hitems])
      have hq := swapStart_lt hd.start hq
      have hr := swapStart_lt hd.start hr
      have hbelow : label.Below props.toArray.size := by simpa [hlength] using hlabel
      refine (Label.returns_toDiagram (by simpa using hprops) hbelow ht).bind fun e u htu he => ?_
      have hu := ht.mono htu
      have ha := ha.mono ht htu
      refine ((ha.succeeds_addMove hu hq he.valid (dependsOn_univ _)).returns
        (yields_addMove hu ha hr he (dependsOn_univ _))).mono fun b v huv hb =>
          ⟨le_trans hle (le_trans htu huv), ?_⟩
      refine { hb with
        accepting := fun p => (hb.accepting p).trans ?_, step := fun p l p' => ?_ }
      · simp only [F, Document.markedLast_append_move]
      · rw [hb.step]
        simp only [N, List.mem_append, List.mem_singleton, or_and_right, exists_or]
        refine or_congr Iff.rfl ?_
        simp only [Document.Item.move.injEq, eq_swapStart_iff]
        constructor
        · rintro ⟨hp, hl, hp'⟩
          refine ⟨label, ⟨hp, rfl, hp'⟩, ?_⟩
          simpa using hl
        · rintro ⟨_, ⟨hp, rfl, hp'⟩, hl⟩
          refine ⟨hp, ?_, hp'⟩
          simpa using hl

theorem returns_ofDocument (hs : s.Sound) (hd : d.Proper) (hprops : ∀ p ∈ props, p ≠ 0)
    (hlength : props.length = d.names.length) :
    Returns (ofDocument d props) s fun a t => a.Formed t ∧
      ∀ w, a.AcceptsForever t w ↔ (d.buchi props).Accepts w.forever := by
  have hpositive : 0 < d.size := Nat.lt_of_le_of_lt (Nat.zero_le _) hd.start
  rw [ofDocument_eq]
  refine (returns_addItems hs hd hprops hlength).map fun a t hst ha => ?_
  have hformed := ha.formed hpositive
  have hsize := ha.size_eq
  refine ⟨⟨hformed.nonempty, hformed.closed, hformed.valid, hformed.satisfiable⟩, fun w => ?_⟩
  have hlt : ∀ q < d.size, swapStart d.start q < d.size := fun _ => swapStart_lt hd.start
  constructor
  · refine Buchi.Accepts.of_map (swapStart d.start) ?_ ?_ ?_ ?_
    · exact swapStart_zero d.start
    · intro q hq
      exact hlt q (lt_of_lt_of_eq hq ha.size_eq)
    · intro q l r _ haccepting
      exact (ha.accepting q).1 haccepting
    · intro q l r _ _ hstep
      exact (ha.step q l r).1 hstep
  · refine Buchi.Accepts.of_map (swapStart d.start) ?_ ?_ ?_ ?_
    · exact swapStart_self d.start
    · intro q hq
      exact lt_of_lt_of_eq (hlt q hq) ha.size_eq.symm
    · intro q l r _ haccepting
      refine (ha.accepting _).2 ?_
      rwa [swapStart_swapStart]
    · intro q l r _ _ hstep
      refine (ha.step _ l _).2 ?_
      rwa [swapStart_swapStart, swapStart_swapStart]

/-! ### The relation of a text -/

section

variable {text : String} {names : List String}

theorem ofText_of_ok (h : Document.read text [] = .ok d names) : ofText text = (do
    let announced ← names.mapM Alphabet.fresh
    let props := announced.drop (announced.length - d.names.length)
    let a ← ofDocument d props
    return ⟨← a.ofInfinite, props⟩) := by
  rw [ofText, EStateM.run, h]

theorem ofText_of_error {e : Failure} (h : Document.read text [] = .error e names) :
    ofText text = (do
      names.forM fun name => discard (Alphabet.fresh name)
      throw e) := by
  rw [ofText, EStateM.run, h]

theorem drop_announced {y : Alphabet} {ps : List Nat} (hps : Announced x names ps y)
    (hnames : d.names <:+ names) : ps.drop (ps.length - d.names.length) =
      List.range' (x.size + 1 + (names.length - d.names.length)) d.names.length := by
  have hle := hnames.length_le
  rw [hps.numbers, List.length_range', List.drop_range', mul_one]
  congr 1
  omega

/-- The relation is what the document says, for new propositions that are named as the text has
it. -/
structure ReadFrom (x : Alphabet) (d : Document) (names : List String) (r : Relation)
    (y : Alphabet) : Prop where
  args : r.args = List.range' (x.size + 1 + (names.length - d.names.length)) d.names.length
  names : ∃ names', x.names.toList ++ names' <+: y.names.toList ∧
    List.Forall₂ (fun hint name => ∃ i : Nat, name = s!"{hint}#{i}") names names'
  recognizes : r.automaton.Recognizes y.diagrams Set.univ fun w =>
    (d.buchi r.args).Accepts w.forever

variable (hs : x.diagrams.Sound) (h : Document.read text [] = .ok d names)

include hs h

theorem yields_readFrom : Yields (ofText text) x fun r y => ReadFrom x d names r y := by
  obtain ⟨-, hd, hnames⟩ := (Document.finds_read text).of_ok h
  rw [ofText_of_ok h]
  refine (returns_announce names).yields.bind fun ps y hxy hps => ?_
  dsimp only
  rw [drop_announced hps hnames]
  have hys : y.diagrams.Sound := hps.diagrams ▸ hs
  refine (Yields.liftDiagram (returns_ofDocument hys hd (by simp; omega) (by simp)).yields).bind
    fun a z hyz ⟨ha, haccepts⟩ => ?_
  refine (yields_ofInfinite (hys.mono hyz.1) ha).bind fun b u hzu hb => .pure ⟨rfl, ?_, ?_⟩
  · obtain ⟨names', hnames', hhints⟩ := hps.names
    exact ⟨names', hnames' ▸ hyz.2.trans hzu.2, hhints⟩
  · exact hb.congr haccepts

theorem returns_readFrom (hbudget : x.budget = none) :
    Returns (ofText text) x fun r y => r.automaton.Simple ∧ ReadFrom x d names r y := by
  refine Returns.and ?_ (yields_readFrom hs h)
  obtain ⟨-, hd, hnames⟩ := (Document.finds_read text).of_ok h
  rw [ofText_of_ok h]
  refine (returns_announce names).bind fun ps y hxy hps => ?_
  dsimp only
  rw [drop_announced hps hnames]
  have hys : y.diagrams.Sound := hps.diagrams ▸ hs
  refine (returns_ofDocument hys hd (by simp; omega) (by simp)).liftDiagram.bind
    fun a z hyz ⟨⟨ha, _⟩, hz⟩ => ?_
  have hbudget := hz.trans (hps.budget.trans hbudget)
  exact (returns_ofInfinite (hys.mono hyz.1) hbudget ha).bind fun b u _ hb => .pure hb.1

end

theorem yields_ofText [LanguageFamily] (hs : x.diagrams.Sound) (text : String) :
    Yields (ofText text) x fun r y => r.automaton.Belongs y.diagrams := by
  cases hread : Document.read text [] with
  | error e names =>
    rw [ofText_of_error hread]
    refine (Yields.forM names x fun name _ y _ => ?_).bind fun _ _ _ _ => .throw
    exact (yields_fresh name).map fun _ _ _ _ => trivial
  | ok d names =>
    refine (yields_readFrom hs hread).mono fun r y _ hr => ?_
    refine hr.recognizes.belongs fun w => ?_
    exact iff_of_eq (congrArg (d.buchi r.args).Accepts (forever_append_padding w 1))

theorem frugal_ofText (text : String) : Frugal (ofText text) := by
  cases hread : Document.read text [] with
  | error e names =>
    rw [ofText_of_error hread]
    exact (Frugal.forM (fun name => (Frugal.fresh name).map _) names).bind fun _ => .throw e
  | ok d names =>
    rw [ofText_of_ok hread]
    refine (Frugal.mapM Frugal.fresh names).bind fun ps => (Frugal.liftDiagram _).bind fun a => ?_
    exact (frugal_ofInfinite a).bind fun b => .pure _

/-- No text leads to a state or a proposition that is not there, under no budget. The only fault is
a list of names that is announced too long to make room for. -/
theorem fault_ofText (hs : x.diagrams.Sound) {text : String} {f : Fault} {y : Alphabet}
    (h : ofText text x = .error (.fault f) y) : f = .oversized := by
  obtain ⟨y, h⟩ := (frugal_ofText text).fault h
  cases hread : Document.read text [] with
  | error e names =>
    have hfault := Document.finds_read text
    rw [Document.Finds, hread] at hfault
    rw [ofText_of_error hread] at h
    obtain ⟨⟨⟩, z, hz, -⟩ := Returns.forM (f := fun name => discard (Alphabet.fresh name)) names
      (x.within none) fun name _ z _ => (returns_fresh name).map fun _ _ _ _ => trivial
    simp only [bind, EStateM.bind, hz] at h
    cases h
    exact hfault
  | ok d names =>
    obtain ⟨r, z, hr, -⟩ := returns_readFrom (x := x.within none) hs hread rfl
    rw [hr] at h
    cases h

end RegularArithmetic.Automaton

import RegularArithmetic.Proofs.Automaton.Answers
import RegularArithmetic.Proofs.Interchange.Reader
import RegularArithmetic.Proofs.Interchange.Writer

/-!
The relation that is read from a text, as it is seen from outside, and an automaton that is written
and read again.
-/

set_option autoImplicit false

namespace RegularArithmetic.Automaton

open Diagram (Edge Assignment)

variable {s : Diagram.Store} {x : Alphabet} {a : Automaton} {d : Document}
  {aps : List (Nat × String)}

/-- The words of letters that are accepted after reading are those that the text describes, followed
by all-false letters forever. No text leads to a state or a proposition that is not there. -/
theorem decides_ofText (hs : x.diagrams.Sound) (hbudget : x.budget = none) (text : String) :
    (∀ r y, ofText text x = .ok r y → Hanoi.Regular text →
      r.args.length = Hanoi.count text ∧ r.automaton.Decides y.diagrams fun w =>
        (Hanoi.buchi text r.args).Accepts (Word.ofLetters w).forever) ∧
    ∀ f y, ofText text x = .error (.fault f) y → f = .oversized := by
  refine ⟨fun r y hr hregular => ?_, fun f y hf => fault_ofText hs hf⟩
  cases hread : Document.read text [] with
  | error e names =>
    rw [ofText_of_error hread] at hr
    obtain ⟨_, z, -, hthrow⟩ := exists_of_bind_eq_ok hr
    cases hthrow
  | ok d names =>
    obtain ⟨hof, -, -⟩ := (Document.finds_read text).of_ok hread
    obtain ⟨hxy, hsimple, hfrom⟩ := (returns_readFrom hs hread hbudget).yields.of_ok hr
    refine ⟨?_, hfrom.recognizes.decides (hs.mono hxy.1) hsimple fun w => ?_⟩
    · rw [hfrom.args, List.length_range', hof.count]
    · exact (hof.buchi_accepts_iff hregular r.args _).symm

/-- The words in which a proposition is sometimes true. State 0 is named twice, and what its last
line says of it counts. -/
def sometimesText : String :=
  "HOA: v1\nStates: 2\nStart: 0\nAP: 1 \"p\"\nacc-name: Buchi\nAcceptance: 1 Inf(0)\n" ++
  "properties: trans-labels explicit-labels state-acc deterministic\n--BODY--\n" ++
  "State: 0 \x7b0\x7d\n[!0] 0\nState: 1 \x7b0\x7d\n[t] 1\nState: 0\n[0] 1\n--END--\n"

theorem lines_sometimesText : Text.lines sometimesText.toList =
    Document.headerText 2 ["p"] ++ "--BODY--".toList ::
      [Document.stateLine 0 true, Document.moveLine ['!', '0'] 0, Document.stateLine 1 true,
        Document.moveLine ['t'] 1, Document.stateLine 0 false, Document.moveLine ['0'] 1,
        "--END--".toList] := by
  decide +kernel

theorem read_sometimesText : Document.read sometimesText [] =
    .ok ⟨2, 0, ["p"], [.state 0 true, .move 0 (.not (.prop 0)) 0, .state 1 true,
      .move 1 (.truth true) 1, .state 0 false, .move 0 (.prop 0) 1]⟩ ["p"] := by
  obtain ⟨ls, hls, hread⟩ := Document.read_headerText (by decide) (by decide) (by decide)
    lines_sometimesText (by rw [lines_sometimesText]; decide +kernel)
  obtain ⟨l₁, ls, rfl, h₁, hls⟩ := List.map_eq_cons_iff.1 hls
  obtain ⟨l₂, ls, rfl, h₂, hls⟩ := List.map_eq_cons_iff.1 hls
  obtain ⟨l₃, ls, rfl, h₃, hls⟩ := List.map_eq_cons_iff.1 hls
  obtain ⟨l₄, ls, rfl, h₄, hls⟩ := List.map_eq_cons_iff.1 hls
  obtain ⟨l₅, ls, rfl, h₅, hls⟩ := List.map_eq_cons_iff.1 hls
  obtain ⟨l₆, ls, rfl, h₆, hls⟩ := List.map_eq_cons_iff.1 hls
  obtain ⟨l₇, ls, rfl, h₇, -⟩ := List.map_eq_cons_iff.1 hls
  let h : Document.Header := ⟨true, some 2, some 0, ["p"], false⟩
  have hstate : ∀ {q l b} current last ls, q < 2 → l.text = Document.stateLine q b →
      Document.readItems 2 h last current (l :: ls) =
        (.state q b :: ·) <$> Document.readItems 2 h last (some q) ls :=
    fun _ _ _ hq hl => Document.readItems_stateLine hl hq (by decide) rfl
  have hmove : ∀ {q r l label m} last ls, r < 2 → l.text = Document.moveLine label r →
      ']' ∉ label → Label.Derives 1 .disjunction label m →
      Document.readItems 2 h last (some q) (l :: ls) =
        (.move q m r :: ·) <$> Document.readItems 2 h last (some q) ls :=
    fun _ _ hr hl hbracket hderives => Document.readItems_moveLine hl hr (by decide) hbracket
      (Label.parse_of_derives (by decide) hderives)
  have hderives : Label.Derives 1 .atom ['0'] (.prop 0) :=
    .index (by decide) (List.forall_mem_singleton.2 rfl) (by decide)
  rw [hread, hstate none _ _ (by decide) h₁,
    hmove _ _ (by decide) h₂ (by decide) (.disjunction (.conjunction (.not (.factor hderives)))),
    hstate _ _ _ (by decide) h₃,
    hmove _ _ (by decide) h₄ (by decide) (.disjunction (.conjunction (.factor .yes))),
    hstate _ _ _ (by decide) h₅,
    hmove _ _ (by decide) h₆ (by decide) (.disjunction (.conjunction (.factor hderives))),
    Document.readItems_end h₇]
  rfl

theorem regular_sometimesText : Hanoi.Regular sometimesText := by
  unfold Hanoi.Regular Hanoi.Marked
  decide +kernel

theorem decides_ofText_sometimes : ∃ s r y, Diagram.Store.empty? 4 = .ok s ∧ s.Sound ∧
    ofText sometimesText ⟨s, #[], 0, none⟩ = .ok r y ∧ Hanoi.Regular sometimesText ∧
    r.args.length = Hanoi.count sometimesText ∧ r.automaton.Decides y.diagrams fun w =>
      (Hanoi.buchi sometimesText r.args).Accepts (Word.ofLetters w).forever := by
  obtain ⟨s, hempty⟩ : ∃ s, Diagram.Store.empty? 4 = .ok s :=
    ⟨_, Diagram.Store.empty?_eq (by decide)⟩
  have hs := Diagram.Store.Sound.empty? hempty
  obtain ⟨r, y, hr, -, -⟩ :=
    returns_readFrom (x := ⟨s, #[], 0, none⟩) hs read_sometimesText rfl
  obtain ⟨hcount, hdecides⟩ :=
    (decides_ofText hs rfl sometimesText).1 r y hr regular_sometimesText
  exact ⟨s, r, y, hempty, hs, hr, regular_sometimesText, hcount, hdecides⟩

/-! ### Writing and reading again -/

/-- New propositions have the names that they were announced with, with a number. -/
theorem forall₂_nameOf {y : Alphabet} {hints names : List String}
    (hnames : List.Forall₂ (fun hint name => ∃ i : Nat, name = s!"{hint}#{i}") hints names) :
    ∀ before : List String, before ++ names <+: y.names.toList →
      List.Forall₂ (fun p hint => ∃ i : Nat, y.nameOf p = .ok s!"{hint}#{i}")
        (List.range' (before.length + 1) hints.length) hints := by
  induction hnames with
  | nil => exact fun _ _ => .nil
  | @cons hint name hints names hhint _ ih =>
    intro before hprefix
    obtain ⟨i, rfl⟩ := hhint
    rw [List.length_cons, List.range'_succ]
    refine .cons ⟨i, ?_⟩ ?_
    · obtain ⟨rest, hrest⟩ := hprefix
      have hname : y.names[before.length]? = some s!"{hint}#{i}" := by
        rw [← Array.getElem?_toList, ← hrest]
        simp
      simp only [Alphabet.nameOf, hname]
    · have hlater := ih (before ++ [s!"{hint}#{i}"]) (by simpa using hprefix)
      simpa using hlater

/-- If only the last list of names was announced, its propositions are numbered in order, with these
names. -/
theorem ReadFrom.named {r : Relation} {y : Alphabet} (h : ReadFrom x d d.names r y) :
    r.args = List.range' (x.size + 1) d.names.length ∧
      List.Forall₂ (fun p name => ∃ i : Nat, y.nameOf p = .ok s!"{name}#{i}") r.args d.names := by
  have hargs : r.args = List.range' (x.size + 1) d.names.length := by
    rw [h.args, Nat.sub_self, Nat.add_zero]
  obtain ⟨names, hprefix, hhints⟩ := h.names
  refine ⟨hargs, ?_⟩
  rw [hargs]
  exact forall₂_nameOf hhints x.names.toList hprefix

theorem length_lt_of_nodup (hdistinct : (aps.map Prod.fst).Nodup)
    (hsmall : ∀ p ∈ aps.map Prod.fst, p < 2 ^ 31) : aps.length < 2 ^ 61 := by
  have hbounded : aps.map Prod.fst ⊆ List.range (2 ^ 31) := fun p hp =>
    List.mem_range.2 (hsmall p hp)
  have hle := (hdistinct.subperm hbounded).length_le
  rw [List.length_map, List.length_range] at hle
  omega

theorem forever_map_comp (w : Word) (ρ : Nat → Nat) :
    Word.forever (w.map (· ∘ ρ)) = fun i => w.forever i ∘ ρ := by
  funext i
  simp only [Word.forever, List.getD_eq_getElem?_getD, List.getElem?_map]
  cases w[i]? <;> rfl

theorem buchi_accepts_map_iff (hd : d.Proper) {args props : List Nat} {ρ : Nat → Nat}
    (hρ : args.map ρ = props) (hlength : args.length = d.names.length) (w : Word) :
    (d.buchi args).Accepts (Word.forever (w.map (· ∘ ρ))) ↔ (d.buchi props).Accepts w.forever := by
  refine Buchi.accepts_congr rfl rfl (fun _ => Iff.rfl) fun i q r => ?_
  rw [forever_map_comp]
  refine exists_congr fun label => and_congr_right fun hmove => ?_
  obtain ⟨-, -, hbelow⟩ := hd.moves q label r hmove
  rw [Label.holds_congr (fun j hj => ?_) hbelow]
  have hj : j < args.length := lt_of_lt_of_eq hj hlength.symm
  subst hρ
  simp [List.getD_eq_getElem?_getD, hj]

/-- Closure under padding is a matter of the words of letters, since the labels test finitely many
propositions. -/
theorem paddingClosed_of_admits (hs : s.Sound) (ha : a.Readable s) (hdet : a.Deterministic s)
    (h : ∀ w, a.Admits s (w ++ [∅]) ↔ a.Admits s w) : PaddingClosed (a.Accepts s) := by
  obtain ⟨N, hN⟩ := exists_bound s
  have hlabels : ∀ q m, a.HasMove q m → DependsOn {p | p < N} (s.value m.label) :=
    fun q m hm => dependsOn_of_bound hs hN (ha.valid q m hm)
  have hblank : ∀ v : List Letter, Word.ofLetters (v ++ [∅]) = Word.ofLetters v ++ [blankLetter] :=
    fun v => Word.ofLetters_append_blank v 1
  intro w
  let v : List Letter := w.map (Letter.below N)
  have hagree : List.Forall₂ (fun l l' => ∀ p ∈ {p | p < N}, l p = l' p) (Word.ofLetters v) w := by
    rw [Word.ofLetters, List.map_map, List.forall₂_map_left_iff, List.forall₂_same]
    exact fun l _ p hp => Letter.assignment_below hp l
  have hlonger : List.Forall₂ (fun l l' => ∀ p ∈ {p | p < N}, l p = l' p)
      (Word.ofLetters v ++ [blankLetter]) (w ++ [blankLetter]) :=
    List.rel_append hagree (.cons (fun _ _ => rfl) .nil)
  calc a.Accepts s (w ++ [blankLetter])
    _ ↔ a.Accepts s (Word.ofLetters v ++ [blankLetter]) := (acceptsFrom_congr hlabels hlonger).symm
    _ ↔ a.Admits s (v ++ [∅]) := by rw [ha.admits_iff hs hdet, hblank]
    _ ↔ a.Admits s v := h v
    _ ↔ a.Accepts s (Word.ofLetters v) := ha.admits_iff hs hdet
    _ ↔ a.Accepts s w := acceptsFrom_congr hlabels hagree

/-- A deterministic automaton whose language is closed under padding is written, over different
propositions of its alphabet that cover its labels, and read again: with a new proposition for each
of the names, in their order. When these get the old numbers back, the words that are accepted are
those that were accepted before. -/
theorem returns_roundtrip (hs : x.diagrams.Sound) (hbudget : x.budget = none)
    (ha : a.Formed x.diagrams) (hdet : a.Deterministic x.diagrams)
    (hclosed : ∀ w, a.Admits x.diagrams (w ++ [∅]) ↔ a.Admits x.diagrams w)
    (hdistinct : (aps.map Prod.fst).Nodup)
    (hlabels : ∀ q m, a.HasMove q m →
      DependsOn {p | p ∈ aps.map Prod.fst} (x.diagrams.value m.label))
    (hprops : ∀ p ∈ aps.map Prod.fst, p ≠ 0 ∧ p < 2 ^ 31)
    (hnames : ∀ name ∈ aps.map Prod.snd, '\n' ∉ name.toList) (hsize : a.size < 2 ^ 64) :
    ∃ text, a.text x.diagrams aps = .ok text ∧ Returns (ofText text) x fun r y =>
      r.args.Nodup ∧ (∀ p ∈ r.args, x.size < p) ∧
      List.Forall₂ (fun p name => ∃ i : Nat, y.nameOf p = .ok s!"{name}#{i}") r.args
        (aps.map Prod.snd) ∧
      ∀ ρ : Nat → Nat, r.args.map ρ = aps.map Prod.fst → (∀ p ∉ r.args, ρ p = p) →
        Returns (r.automaton.rename ρ) y.diagrams fun b t => b.Decides t (a.Admits x.diagrams) := by
  have hlength := length_lt_of_nodup hdistinct fun p hp => (hprops p hp).2
  obtain ⟨text, htext, -, d, hread, hd, hbuchi⟩ :=
    answers_written hs ha hlabels (fun p hp => (hprops p hp).2) hlength hnames hsize
  refine ⟨text, htext, (returns_readFrom hs hread hbudget).mono fun r y hxy ⟨hsimple, hfrom⟩ => ?_⟩
  obtain ⟨-, hproper, -⟩ := (Document.finds_read text).of_ok hread
  obtain ⟨hargs, hnamed⟩ := ReadFrom.named (hd.symm ▸ hfrom)
  refine ⟨?_, ?_, hd ▸ hnamed, fun ρ hρ hother => ?_⟩
  · rw [hargs]
    exact List.nodup_range'
  · intro p hp
    rw [hargs, List.mem_range'_1] at hp
    omega
  · have hy := hs.mono hxy.1
    have hpositive : ∀ p ≠ 0, ρ p ≠ 0 := by
      intro p hp
      by_cases hmem : p ∈ r.args
      · refine (hprops (ρ p) ?_).1
        rw [← hρ]
        exact List.mem_map_of_mem hmem
      · rwa [hother p hmem]
    refine (returns_rename hy hfrom.recognizes hpositive).mono fun b t hyt ⟨hsimple, hb⟩ => ?_
    refine hb.decides (hy.mono hyt) hsimple fun w => ?_
    have hcount : r.args.length = d.names.length := by rw [hargs, List.length_range']
    rw [buchi_accepts_map_iff hproper hρ hcount, hbuchi, ha.readable.admits_iff hs hdet]
    exact acceptsForever_iff hdet (paddingClosed_of_admits hs ha.readable hdet hclosed) _

theorem acceptsFrom_loop {e : Edge} {w : Word} :
    AcceptsFrom s (loop e) 0 w ↔ ∀ l ∈ w, s.value e l = true := by
  induction w with
  | nil => exact iff_of_true ⟨_, rfl, rfl⟩ (by simp)
  | cons l w ih =>
    have hstep : ∀ r, Step s (loop e) 0 l r ↔ s.value e l = true ∧ r = 0 := by
      intro r
      constructor
      · rintro ⟨m, hm, hl, rfl⟩
        rw [(hasMove_loop.1 hm).2] at hl ⊢
        exact ⟨hl, rfl⟩
      · rintro ⟨hl, rfl⟩
        exact ⟨_, hasMove_loop.2 ⟨rfl, rfl⟩, hl, rfl⟩
    rw [AcceptsFrom, List.forall_mem_cons]
    simp only [hstep]
    constructor
    · rintro ⟨r, ⟨hl, rfl⟩, hw⟩
      exact ⟨hl, ih.1 hw⟩
    · rintro ⟨hl, hw⟩
      exact ⟨0, ⟨hl, rfl⟩, ih.2 hw⟩

theorem admits_loop_append_blank {v : Nat} {e : Edge} (hs : s.Sound) (he : s.Denotes e fun σ => σ v)
    (hformed : (loop (-e)).Formed s) (w : List Letter) :
    (loop (-e)).Admits s (w ++ [∅]) ↔ (loop (-e)).Admits s w := by
  have hdet := deterministic_loop (s := s) (-e)
  have hblank : Word.ofLetters (w ++ [∅]) = Word.ofLetters w ++ padding 1 :=
    Word.ofLetters_append_blank w 1
  rw [hformed.readable.admits_iff hs hdet, hformed.readable.admits_iff hs hdet, hblank,
    Accepts, Accepts, acceptsFrom_loop, acceptsFrom_loop, List.forall_mem_append]
  refine and_iff_left ?_
  intro l hl
  rw [List.eq_of_mem_replicate hl, (he.neg hs).value_eq]
  rfl

theorem dependsOn_loop {v : Nat} {e : Edge} (hs : s.Sound) (he : s.Denotes e fun σ => σ v) :
    ∀ q m, (loop (-e)).HasMove q m → DependsOn {p | p ∈ [v]} (s.value m.label) := by
  intro q m hm σ τ hστ
  rw [(hasMove_loop.1 hm).2]
  simp only [(he.neg hs).value_eq, hστ v (by simp)]

/-- The automaton for the words in which a proposition is always false. -/
theorem returns_roundtrip_loop : ∃ s t e, Diagram.Store.empty? 1 = .ok s ∧
    Diagram.makeVariable 1 s = .ok e t ∧ t.Sound ∧
    (loop (-e)).Formed t ∧ (loop (-e)).Deterministic t ∧
    (∀ w, (loop (-e)).Admits t (w ++ [∅]) ↔ (loop (-e)).Admits t w) ∧
    (∀ q m, (loop (-e)).HasMove q m → DependsOn {p | p ∈ [1]} (t.value m.label)) ∧
    ∃ text, (loop (-e)).text t [(1, "p")] = .ok text ∧
      Returns (ofText text) ⟨t, #["p"], 0, none⟩ fun r y =>
        r.args.Nodup ∧ (∀ p ∈ r.args, 1 < p) ∧
        List.Forall₂ (fun p name => ∃ i : Nat, y.nameOf p = .ok s!"{name}#{i}") r.args ["p"] ∧
        ∀ ρ : Nat → Nat, r.args.map ρ = [1] → (∀ p ∉ r.args, ρ p = p) →
          Returns (r.automaton.rename ρ) y.diagrams fun b u =>
            b.Decides u ((loop (-e)).Admits t) := by
  obtain ⟨s, t, e, hs, ht, hsound, -, hformed⟩ := exists_formed_loop one_ne_zero
  have he : t.Denotes e fun σ => σ 1 :=
    ((Diagram.yields_makeVariable (Diagram.Store.Sound.empty? hs) 1).of_ok ht).2
  have hdet := deterministic_loop (s := t) (-e)
  have hclosed := admits_loop_append_blank hsound he hformed
  have hlabels := dependsOn_loop hsound he
  refine ⟨s, t, e, hs, ht, hsound, hformed, hdet, hclosed, hlabels, ?_⟩
  have hprops : ∀ p ∈ [(1, "p")].map Prod.fst, p ≠ 0 ∧ p < 2 ^ 31 := by decide
  have hnames : ∀ name ∈ [(1, "p")].map Prod.snd, '\n' ∉ name.toList := by decide
  have hsize : (loop (-e)).size < 2 ^ 64 := show 1 < 2 ^ 64 by decide
  let x : Alphabet := ⟨t, #["p"], 0, none⟩
  have hdiagrams : x.diagrams.Sound := hsound
  exact returns_roundtrip hdiagrams rfl hformed hdet hclosed (by decide) hlabels hprops hnames hsize

/-- What is written for the words in which the largest proposition is always false: the literal is
that of proposition 1, which is not listed. -/
def unlistedLines : List (List Char) := Document.headerText 1 ["p"] ++ "--BODY--".toList ::
  [Document.stateLine 0 true, Document.moveLine ['?', '1'] 0, "--END--".toList]

theorem ofText_unlisted_ne_ok {text : String}
    (htext : text.toList = unlistedLines.flatMap (· ++ ['\n'])) (x : Alphabet) (r : Relation)
    (y : Alphabet) : ofText text x ≠ .ok r y := by
  intro hr
  have hlines : Text.lines text.toList = unlistedLines := by
    rw [htext, Text.lines_flatMap]
    decide +kernel
  obtain ⟨ls, hls, hread⟩ := Document.read_headerText (by decide) (by decide) (by decide) hlines
    (by rw [hlines]; decide +kernel)
  obtain ⟨l₁, ls, rfl, h₁, hls⟩ := List.map_eq_cons_iff.1 hls
  obtain ⟨l₂, ls, rfl, h₂, -⟩ := List.map_eq_cons_iff.1 hls
  have hrefused : ∀ m, ¬Label.Derives 1 .disjunction (['?', '1'].filter (!Text.isBlank ·)) m := by
    intro m hderives
    exact absurd (hderives.char (c := '?') (by decide)) (by decide)
  rw [Document.readItems_stateLine h₁ (by decide) (by decide) rfl] at hread
  let h : Document.Header := ⟨true, some 1, some 0, ["p"], false⟩
  cases hitems : Document.readItems 1 h (Text.lines text.toList).length (some 0) (l₂ :: ls) with
  | ok items =>
    exact Document.gives_readItems_moveLine (h := h) h₂ (by decide) hrefused items hitems
  | error e =>
    rw [hitems] at hread
    rw [ofText_of_error hread] at hr
    obtain ⟨_, z, -, hthrow⟩ := exists_of_bind_eq_ok hr
    cases hthrow

/-- An automaton that is written, but not read again. -/
theorem exists_text_not_read : ∃ s t e text, Diagram.Store.empty? 1 = .ok s ∧
    Diagram.makeVariable 4294967295 s = .ok e t ∧ t.Sound ∧ (loop (-e)).Formed t ∧
    (loop (-e)).Deterministic t ∧
    (∀ w, (loop (-e)).Admits t (w ++ [∅]) ↔ (loop (-e)).Admits t w) ∧
    (∀ q m, (loop (-e)).HasMove q m → DependsOn {p | p ∈ [4294967295]} (t.value m.label)) ∧
    (loop (-e)).text t [(4294967295, "p")] = .ok text ∧ ∀ x r y, ofText text x ≠ .ok r y := by
  obtain ⟨s, t, e, hs, ht, hsound, -, hformed⟩ := exists_formed_loop (v := 4294967295) (by decide)
  have he : t.Denotes e fun σ => σ 4294967295 :=
    ((Diagram.yields_makeVariable (Diagram.Store.Sound.empty? hs) _).of_ok ht).2
  have hlabel : testVariable 4294967295 (fun t e =>
      t.disjunction (placeStyle [(4294967295, "p")]) (-e) = .ok "?1") = true := by
    decide +kernel
  rw [testVariable_eq _ hs ht, decide_eq_true_iff] at hlabel
  have hlabelText : labelText t [(4294967295, "p")] (-e) = ['?', '1'] := by
    rw [labelText, hlabel]
    rfl
  have hlabels : ∀ q m, (loop (-e)).HasMove q m →
      Answers (t.disjunction (placeStyle [(4294967295, "p")]) m.label) fun text =>
        text.toList = labelText t [(4294967295, "p")] m.label := fun q m hm => by
    rw [(hasMove_loop.1 hm).2, hlabelText]
    exact ⟨_, hlabel, rfl⟩
  obtain ⟨text, hwritten, htext⟩ := answers_text hlabels
  have htextLines : (loop (-e)).textLines t [(4294967295, "p")] = unlistedLines := by
    rw [unlistedLines, ← hlabelText]
    rfl
  rw [htextLines] at htext
  exact ⟨s, t, e, text, hs, ht, hsound, hformed, deterministic_loop _,
    admits_loop_append_blank hsound he hformed, dependsOn_loop hsound he, hwritten,
    ofText_unlisted_ne_ok htext⟩

end RegularArithmetic.Automaton

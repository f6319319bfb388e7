import RegularArithmetic.Interchange.Writer
import RegularArithmetic.Proofs.Diagram.Paths
import RegularArithmetic.Proofs.Interchange.Label
import RegularArithmetic.Proofs.Text

/-!
A label that is written from the cubes of a diagram is read as a label that says what the diagram
says.
-/

set_option autoImplicit false

namespace RegularArithmetic

open Diagram (Edge Assignment)
open Text (isBlank)

theorem intercalate_cons {α : Type} (sep l : List α) (ls : List (List α)) :
    sep.intercalate (l :: ls) = l ++ ls.flatMap (sep ++ ·) := by
  induction ls generalizing l with
  | nil => simp [List.intercalate]
  | cons l' ls ih =>
    have hcons : sep.intercalate (l :: l' :: ls) = l ++ sep ++ sep.intercalate (l' :: ls) := by
      simp [List.intercalate]
    rw [hcons, ih, List.flatMap_cons, List.append_assoc, List.append_assoc]

namespace Label

variable {n : Nat}

/-! ### What is written is derived -/

/-- A literal: the number of a proposition, after a mark if it is false. -/
def literalText (l : Nat × Bool) : List Char :=
  if l.2 then Nat.toDigits 10 l.1 else '!' :: Nat.toDigits 10 l.1

def cubeText (c : List (Nat × Bool)) : List Char := List.intercalate ['&'] (c.map literalText)

/-- The cubes, in brackets if there are several. -/
def cubesText : List (List (Nat × Bool)) → List Char
  | [c] => cubeText c
  | cs => List.intercalate ['|'] (cs.map fun c => '(' :: cubeText c ++ [')'])

def cubeHolds (c : List (Nat × Bool)) (σ : Nat → Bool) : Bool := c.all fun l => σ l.1 == l.2

/-- The text is one of a label with this meaning. -/
def Says (n : Nat) (k : Level) (s : List Char) (φ : (Nat → Bool) → Bool) : Prop :=
  ∃ l, Derives n k s l ∧ ∀ σ, l.holds σ = φ σ

theorem says_literalText {l : Nat × Bool} (hl : l.1 < n) :
    Says n .factor (literalText l) fun σ => σ l.1 == l.2 := by
  obtain ⟨i, b⟩ := l
  have hvalue : Nat.ofDigitChars 10 (Nat.toDigits 10 i) 0 = i := Nat.ofDigitChars_ten_toDigits
  have hnumber : Derives n .factor (Nat.toDigits 10 i) (.prop i) := by
    have hindex : Derives n .atom (Nat.toDigits 10 i) _ :=
      .index Nat.toDigits_ne_nil (fun _ => Text.isDigit_of_mem) (by rwa [hvalue])
    rw [hvalue] at hindex
    exact .factor hindex
  cases b with
  | true => exact ⟨_, hnumber, fun σ => by simp [holds]⟩
  | false => exact ⟨_, .not hnumber, fun σ => by simp [holds]⟩

theorem says_cubeText {c : List (Nat × Bool)} (hne : c ≠ []) (hc : ∀ l ∈ c, l.1 < n) :
    Says n .conjunction (cubeText c) (cubeHolds c) := by
  -- The grammar joins the literals from the left.
  have hextend : ∀ (c : List (Nat × Bool)) s φ, (∀ l ∈ c, l.1 < n) → Says n .conjunction s φ →
      Says n .conjunction (s ++ (c.map literalText).flatMap (['&'] ++ ·))
        fun σ => φ σ && cubeHolds c σ := by
    intro c
    induction c with
    | nil =>
      rintro s φ - ⟨l, hl, hφ⟩
      exact ⟨l, by simpa using hl, fun σ => by simp [hφ, cubeHolds]⟩
    | cons m c ih =>
      rintro s φ hc ⟨l, hl, hφ⟩
      obtain ⟨m', hm, hψ⟩ := says_literalText (hc m (by simp))
      obtain ⟨l', hl', hboth⟩ := ih (s ++ '&' :: literalText m) (fun σ => φ σ && (σ m.1 == m.2))
        (fun l hl => hc l (by simp [hl])) ⟨.and l m', .and hl hm, fun σ => by simp [holds, hφ, hψ]⟩
      refine ⟨l', by simpa using hl', fun σ => ?_⟩
      simp only [hboth, cubeHolds, List.all_cons, Bool.and_assoc]
  obtain ⟨m, c, rfl⟩ := List.exists_cons_of_ne_nil hne
  obtain ⟨m', hm, hψ⟩ := says_literalText (hc m (by simp))
  rw [cubeText, List.map_cons, intercalate_cons]
  exact hextend c _ _ (fun l hl => hc l (by simp [hl])) ⟨m', .conjunction hm, hψ⟩

theorem says_bracketed {c : List (Nat × Bool)} (hne : c ≠ []) (hc : ∀ l ∈ c, l.1 < n) :
    Says n .conjunction ('(' :: cubeText c ++ [')']) (cubeHolds c) := by
  obtain ⟨l, hl, hφ⟩ := says_cubeText hne hc
  exact ⟨l, .conjunction (.factor (.brackets (.disjunction hl))), hφ⟩

theorem says_cubesText {cs : List (List (Nat × Bool))} (hsome : cs ≠ []) (hne : ∀ c ∈ cs, c ≠ [])
    (hcs : ∀ c ∈ cs, ∀ l ∈ c, l.1 < n) :
    Says n .disjunction (cubesText cs) fun σ => cs.any (cubeHolds · σ) := by
  have hextend : ∀ (cs : List (List (Nat × Bool))) s φ, (∀ c ∈ cs, c ≠ []) →
      (∀ c ∈ cs, ∀ l ∈ c, l.1 < n) → Says n .disjunction s φ →
      Says n .disjunction (s ++ cs.flatMap fun c => ['|'] ++ ('(' :: cubeText c ++ [')']))
        fun σ => φ σ || cs.any (cubeHolds · σ) := by
    intro cs
    induction cs with
    | nil =>
      rintro s φ - - ⟨l, hl, hφ⟩
      exact ⟨l, by simpa using hl, fun σ => by simp [hφ]⟩
    | cons c cs ih =>
      rintro s φ hne hcs ⟨l, hl, hφ⟩
      obtain ⟨m, hm, hψ⟩ := says_bracketed (hne c (by simp)) (hcs c (by simp))
      obtain ⟨l', hl', hboth⟩ := ih (s ++ '|' :: ('(' :: cubeText c ++ [')']))
        (fun σ => φ σ || cubeHolds c σ) (fun c hc => hne c (by simp [hc]))
        (fun c hc => hcs c (by simp [hc])) ⟨.or l m, .or hl hm, fun σ => by simp [holds, hφ, hψ]⟩
      refine ⟨l', by simpa using hl', fun σ => ?_⟩
      simp only [hboth, List.any_cons, Bool.or_assoc]
  obtain ⟨c, cs, rfl⟩ := List.exists_cons_of_ne_nil hsome
  cases cs with
  | nil =>
    obtain ⟨l, hl, hφ⟩ := says_cubeText (hne c (by simp)) (hcs c (by simp))
    exact ⟨l, .disjunction hl, fun σ => by simp [hφ]⟩
  | cons c' cs =>
    have htext : cubesText (c :: c' :: cs) = '(' :: cubeText c ++ [')'] ++
        (c' :: cs).flatMap fun c => ['|'] ++ ('(' :: cubeText c ++ [')']) := by
      rw [cubesText, List.map_cons, intercalate_cons, List.flatMap_map]
      rintro c ⟨⟩
    obtain ⟨m, hm, hψ⟩ := says_bracketed (hne c (by simp)) (hcs c (by simp))
    rw [htext]
    exact hextend (c' :: cs) _ _ (fun c hc => hne c (by simp [hc]))
      (fun c hc => hcs c (by simp [hc])) ⟨m, .disjunction hm, hψ⟩

theorem char_of_mem_cubeText {c : List (Nat × Bool)} {ch : Char} (h : ch ∈ cubeText c) :
    ch.isDigit = true ∨ ch = '!' ∨ ch = '&' := by
  have hliteral : ∀ l, ch ∈ literalText l → ch.isDigit = true ∨ ch = '!' ∨ ch = '&' := by
    rintro ⟨i, b⟩ hl
    cases b with
    | true => exact .inl (Text.isDigit_of_mem hl)
    | false =>
      rcases List.mem_cons.1 hl with rfl | hl
      · exact .inr (.inl rfl)
      · exact .inl (Text.isDigit_of_mem hl)
  cases c with
  | nil => cases h
  | cons l c =>
    rw [cubeText, List.map_cons, intercalate_cons, List.mem_append, List.mem_flatMap] at h
    rcases h with h | ⟨s, hs, h⟩
    · exact hliteral l h
    · obtain ⟨l', -, rfl⟩ := List.mem_map.1 hs
      rcases List.mem_cons.1 h with rfl | h
      · exact .inr (.inr rfl)
      · exact hliteral l' h

end Label

/-! ### Writing -/

section Writing

variable {s : Diagram.Store} {e : Edge} {aps : List (Nat × String)}

open Diagram.Store (CubeStyle)
open Label (literalText cubeText cubesText cubeHolds)

theorem placeOf?_of_mem {p : Nat} (h : p ∈ aps.map Prod.fst) :
    ∃ i, placeOf? aps p = some i ∧ i < aps.length ∧ (aps.map Prod.fst).getD i 0 = p := by
  obtain ⟨⟨p', name⟩, hmem, rfl⟩ := List.mem_map.1 h
  obtain ⟨j, hj⟩ := List.mem_iff_getElem?.1 hmem
  have hsome : (aps.zipIdx.reverse.find? (·.1.1 = p')).isSome := by
    rw [List.find?_isSome]
    exact ⟨((p', name), j), List.mem_reverse.2 (List.mem_zipIdx_iff_getElem?.2 hj), by simp⟩
  obtain ⟨⟨⟨q, name'⟩, i⟩, hfind⟩ := Option.isSome_iff_exists.1 hsome
  have hq : q = p' := by simpa using List.find?_some hfind
  have hi : aps[i]? = some (q, name') :=
    List.mem_zipIdx_iff_getElem?.1 (List.mem_reverse.1 (List.mem_of_find?_eq_some hfind))
  refine ⟨i, by rw [placeOf?, hfind, Option.map_some], ?_, ?_⟩
  · exact (List.getElem?_eq_some_iff.1 hi).1
  · rw [List.getD_eq_getElem?_getD, List.getElem?_map, hi]
    exact hq

def placed (aps : List (Nat × String)) (l : Int) : Nat × Bool :=
  ((placeOf? aps l.natAbs).getD 0, 0 < l)

theorem placed_of_mem {l : Int} (h : l.natAbs ∈ aps.map Prod.fst) :
    (placed aps l).1 < aps.length ∧
      (aps.map Prod.fst).getD (placed aps l).1 0 = l.natAbs := by
  obtain ⟨i, hi, hlt, hp⟩ := placeOf?_of_mem h
  simp only [placed, hi, Option.getD_some]
  exact ⟨hlt, hp⟩

theorem answers_literal {l : Int} (h : l.natAbs ∈ aps.map Prod.fst) :
    Answers ((placeStyle aps).literal l.natAbs (0 < l)) fun text =>
      text.toList = literalText (placed aps l) := by
  obtain ⟨i, hi, -⟩ := placeOf?_of_mem h
  refine .ok ?_
  have hdigits : (toString i).toList = Nat.toDigits 10 i := Nat.toList_repr
  simp only [hi, placed, Option.getD_some, literalText]
  by_cases hl : 0 < l
  · simp [hl]
  · have hmark : (toString "!").toList = ['!'] := rfl
    have hplace : toString i.repr = i.repr := rfl
    simp [hl, hmark, hplace]

theorem Answers.mapM_map {ε α β γ : Type} {f : α → Except ε β} {g : β → γ} {k : α → γ}
    {l : List α} (h : ∀ a ∈ l, Answers (f a) fun b => g b = k a) :
    Answers (l.mapM f) fun bs => bs.map g = l.map k := by
  refine (Answers.mapM (fun a b => g b = k a) l h).mono fun bs hbs => ?_
  induction hbs with
  | nil => rfl
  | cons hb _ ih => rw [List.map_cons, List.map_cons, hb, ih fun a ha => h a (by simp [ha])]

def IsLabelChar (c : Char) : Prop := c.isDigit = true ∨ c ∈ ['!', '&', '(', ')', '|', ' ', 't']

theorem isLabelChar_of_mem_cubeText {c : List (Nat × Bool)} {ch : Char} (h : ch ∈ cubeText c) :
    IsLabelChar ch ∧ isBlank ch = false := by
  rcases Label.char_of_mem_cubeText h with hdigit | rfl | rfl
  · exact ⟨.inl hdigit, Text.isBlank_of_isDigit hdigit⟩
  · exact ⟨.inr (by decide), by decide⟩
  · exact ⟨.inr (by decide), by decide⟩

/-- The text is that of the cubes, but for blanks. -/
structure IsText (cs : List (List (Nat × Bool))) (text : String) : Prop where
  chars : ∀ c ∈ text.toList, IsLabelChar c
  filter : text.toList.filter (!isBlank ·) = cubesText cs

private theorem filter_cubeText (c : List (Nat × Bool)) :
    (cubeText c).filter (!isBlank ·) = cubeText c := by
  refine List.filter_eq_self.2 fun ch hch => ?_
  rw [(isLabelChar_of_mem_cubeText hch).2, Bool.not_false]

private theorem isText_one {term : String} {c : List (Nat × Bool)}
    (hterm : term.toList = cubeText c) : IsText [c] term := by
  refine ⟨fun ch hch => ?_, ?_⟩
  · rw [hterm] at hch
    exact (isLabelChar_of_mem_cubeText hch).1
  · rw [hterm, cubesText, filter_cubeText]

private theorem isText_bracketed {terms : List String} {cs : List (List (Nat × Bool))}
    (hterms : terms.map String.toList = cs.map cubeText)
    (hcs : cubesText cs = ['|'].intercalate (cs.map fun c => '(' :: cubeText c ++ [')'])) :
    IsText cs (" | ".intercalate (terms.map fun term => s!"({term})")) := by
  have hopen : (toString "(").toList = ['('] := rfl
  have hclose : (toString ")").toList = [')'] := rfl
  have hsep : (" | " : String).toList = [' ', '|', ' '] := rfl
  have hbracketed : (terms.map fun term => s!"({term})").map String.toList =
      cs.map fun c => '(' :: cubeText c ++ [')'] := by
    have hcomp := congrArg (List.map fun t : List Char => '(' :: t ++ [')']) hterms
    rw [List.map_map, List.map_map] at hcomp
    refine Eq.trans ?_ hcomp
    rw [List.map_map]
    refine List.map_congr_left fun term _ => ?_
    have hterm : toString term = term := rfl
    simp [hopen, hclose, hterm]
  have htext : (" | ".intercalate (terms.map fun term => s!"({term})")).toList =
      [' ', '|', ' '].intercalate (cs.map fun c => '(' :: cubeText c ++ [')']) := by
    rw [String.toList_intercalate, hbracketed, hsep]
  have hchars : ∀ (c : List (Nat × Bool)), ∀ ch ∈ '(' :: cubeText c ++ [')'], IsLabelChar ch := by
    intro c ch hch
    simp only [List.cons_append, List.mem_cons, List.mem_append, List.not_mem_nil, or_false] at hch
    rcases hch with rfl | hch | rfl
    · exact .inr (by decide)
    · exact (isLabelChar_of_mem_cubeText hch).1
    · exact .inr (by decide)
  have hfilter : ∀ c : List (Nat × Bool), ('(' :: cubeText c ++ [')']).filter (!isBlank ·) =
      '(' :: cubeText c ++ [')'] := by
    intro c
    rw [List.filter_append, List.filter_cons_of_pos (by decide), filter_cubeText]
    rfl
  cases cs with
  | nil =>
    refine ⟨?_, ?_⟩
    · rw [htext]
      intro ch hch
      cases hch
    · rw [htext, hcs]
      rfl
  | cons c cs =>
    rw [List.map_cons, intercalate_cons, List.flatMap_map] at htext hcs
    refine ⟨?_, ?_⟩
    · rw [htext]
      intro ch hch
      rw [List.mem_append, List.mem_flatMap] at hch
      rcases hch with hch | ⟨c', -, hch⟩
      · exact hchars c ch hch
      · rcases List.mem_append.1 hch with hch | hch
        · have hbar : ∀ ch ∈ [' ', '|', ' '], ch ∈ ['!', '&', '(', ')', '|', ' ', 't'] := by simp
          exact .inr (hbar ch hch)
        · exact hchars c' ch hch
    · rw [htext, hcs, List.filter_append, hfilter, List.filter_flatMap]
      congr 1
      refine List.flatMap_congr fun c' _ => ?_
      rw [List.filter_append, hfilter]
      rfl

theorem answers_terms (terms : List String) (cs : List (List (Nat × Bool))) :
    terms.map String.toList = cs.map cubeText →
    Answers (match terms with
      | [term] => pure term
      | _ => pure (" | ".intercalate (terms.map fun term => s!"({term})")) : Except Fault String)
      (IsText cs) := by
  intro hterms
  have hlength : terms.length = cs.length := by
    have h := congrArg List.length hterms
    rwa [List.length_map, List.length_map] at h
  match terms, cs, hterms, hlength with
  | [], [], h, _ => exact .pure (isText_bracketed h rfl)
  | [_], [_], h, _ => exact .pure (isText_one (List.cons.inj h).1)
  | _ :: _ :: _, _ :: _ :: _, h, _ => exact .pure (isText_bracketed h rfl)

theorem answers_disjunction (hs : s.Sound) (he : s.Valid e) (hne : e ≠ .zero)
    (hvars : ∀ v, s.Matters e v → v ∈ aps.map Prod.fst) (hsmall : ∀ v, s.Matters e v → v < 2 ^ 31)
    (hlength : aps.length ≤ 2 ^ 64) :
    Answers (s.disjunction (placeStyle aps) e) fun text => (∀ c ∈ text.toList, IsLabelChar c) ∧
      Answers (Label.parse aps.length (text.toList.filter (!isBlank ·))) fun l =>
        ∀ σ : Assignment, l.holds (fun i => σ ((aps.map Prod.fst).getD i 0)) = s.value e σ := by
  rw [Diagram.Store.disjunction, if_neg hne]
  refine (Diagram.answers_cubes hs hsmall he).bind
    fun cubes hcubes => ?_
  have hmem : ∀ cube ∈ cubes, ∀ l ∈ cube, l.natAbs ∈ aps.map Prod.fst :=
    fun cube hcube l hl => hvars _ (hcubes.literals cube hcube l hl).2
  split
  · rename_i hempty
    obtain ⟨cube, hcube, hnil⟩ := List.any_eq_true.1 hempty
    have htrue : ∀ σ, s.value e σ = true := by
      intro σ
      rw [hcubes.value, List.any_eq_true]
      exact ⟨cube, hcube, by rw [List.isEmpty_iff.1 hnil]; rfl⟩
    refine .pure ⟨?_, ?_⟩
    · intro c hc
      obtain rfl : c = 't' := by simpa using hc
      exact .inr (by decide)
    · have hderives : Label.Derives aps.length .disjunction ['t'] (.truth true) :=
        .disjunction (.conjunction (.factor .yes))
      exact ⟨.truth true, Label.parse_of_derives hlength hderives, fun σ => (htrue σ).symm⟩
  · rename_i hnonempty
    let cs := cubes.map fun cube => cube.map (placed aps)
    have hterms : Answers (cubes.mapM fun cube => do
        let literals ← cube.mapM fun l => (placeStyle aps).literal l.natAbs (0 < l)
        return (placeStyle aps).conjunction.intercalate literals) fun terms =>
          terms.map String.toList = cs.map cubeText := by
      rw [List.map_map]
      refine Answers.mapM_map fun cube hcube => ?_
      refine (Answers.mapM_map fun l hl => answers_literal (hmem cube hcube l hl)).bind
        fun literals hliterals => .pure ?_
      have hstyle : (placeStyle aps).conjunction = "&" := rfl
      have hsep : ("&" : String).toList = ['&'] := rfl
      rw [String.toList_intercalate, hliterals, hstyle, hsep, Function.comp_apply, cubeText,
        List.map_map]
      rfl
    refine hterms.bind fun terms hterms => ?_
    refine (answers_terms terms cs hterms).mono fun text htext => ⟨htext.chars, ?_⟩
    have hsome : cs ≠ [] := by
      intro hnil
      obtain ⟨σ, hσ⟩ := hs.exists_value he hne
      rw [hcubes.value, List.map_eq_nil_iff.1 hnil, List.any_nil] at hσ
      cases hσ
    have hfull : ∀ c ∈ cs, c ≠ [] := by
      intro c hc hnil
      obtain ⟨cube, hcube, rfl⟩ := List.mem_map.1 hc
      refine hnonempty (List.any_eq_true.2 ⟨cube, hcube, ?_⟩)
      rw [List.map_eq_nil_iff.1 hnil]
      rfl
    have hplaces : ∀ c ∈ cs, ∀ l ∈ c, l.1 < aps.length := by
      intro c hc l hl
      obtain ⟨cube, hcube, rfl⟩ := List.mem_map.1 hc
      obtain ⟨k, hk, rfl⟩ := List.mem_map.1 hl
      exact (placed_of_mem (hmem cube hcube k hk)).1
    obtain ⟨l, hderives, hl⟩ := Label.says_cubesText hsome hfull hplaces
    rw [← htext.filter] at hderives
    refine ⟨l, (Label.parse_eq_ok_iff hlength).2 hderives, fun σ => ?_⟩
    have hvalue : ∀ cube ∈ cubes, cubeHolds (cube.map (placed aps))
        (fun i => σ ((aps.map Prod.fst).getD i 0)) = cube.all (Diagram.agrees σ) := by
      intro cube hcube
      rw [cubeHolds, List.all_map, Bool.eq_iff_iff, List.all_eq_true, List.all_eq_true]
      refine forall₂_congr fun k hk => ?_
      rw [Function.comp_apply, (placed_of_mem (hmem cube hcube k hk)).2]
      rfl
    have hmeans : l.holds (fun i => σ ((aps.map Prod.fst).getD i 0)) =
        cs.any fun c => cubeHolds c fun i => σ ((aps.map Prod.fst).getD i 0) := hl _
    rw [hmeans, hcubes.value, List.any_map, Bool.eq_iff_iff, List.any_eq_true, List.any_eq_true]
    refine exists_congr fun cube => and_congr_right fun hcube => ?_
    rw [Function.comp_apply, hvalue cube hcube]

def labelText (s : Diagram.Store) (aps : List (Nat × String)) (e : Edge) : List Char :=
  ((s.disjunction (placeStyle aps) e).toOption.getD "").toList

def labelRead (s : Diagram.Store) (aps : List (Nat × String)) (e : Edge) : Label :=
  (Label.parse aps.length ((labelText s aps e).filter (!isBlank ·))).toOption.getD (.truth false)

/-- The label is written, and read again as what it was. -/
structure Legible (s : Diagram.Store) (aps : List (Nat × String)) (e : Edge) : Prop where
  text : Answers (s.disjunction (placeStyle aps) e) fun text => text.toList = labelText s aps e
  chars : ∀ c ∈ labelText s aps e, IsLabelChar c
  parse : Label.parse aps.length ((labelText s aps e).filter (!isBlank ·)) =
    .ok (labelRead s aps e)
  holds : ∀ σ : Assignment, (labelRead s aps e).holds (fun i => σ ((aps.map Prod.fst).getD i 0)) =
    s.value e σ

theorem legible (hs : s.Sound) (he : s.Valid e) (hne : e ≠ .zero)
    (hvars : ∀ v, s.Matters e v → v ∈ aps.map Prod.fst)
    (hsmall : ∀ p ∈ aps.map Prod.fst, p < 2 ^ 31) (hlength : aps.length ≤ 2 ^ 64) :
    Legible s aps e := by
  obtain ⟨text, htext, hchars, l, hl, hholds⟩ :=
    answers_disjunction hs he hne hvars (fun v hv => hsmall v (hvars v hv)) hlength
  have heq : labelText s aps e = text.toList := by rw [labelText, htext]; rfl
  rw [← heq] at hchars hl
  have hread : labelRead s aps e = l := by rw [labelRead, hl]; rfl
  exact ⟨⟨text, htext, heq.symm⟩, hchars, hread ▸ hl, hread ▸ hholds⟩

end Writing

end RegularArithmetic

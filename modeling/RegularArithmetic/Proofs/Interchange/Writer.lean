import RegularArithmetic.Proofs.Automaton.Infinite
import RegularArithmetic.Proofs.Interchange.Document
import RegularArithmetic.Proofs.Interchange.LabelText

/-!
The lines of a written automaton, and the document that is read from them: it has the states, the
names and the moves of the automaton.
-/

set_option autoImplicit false

namespace RegularArithmetic

open Diagram (Assignment)
open Text (trim cut? isBlank lines escape)

namespace Document

private theorem lift_ok {α : Type} (a : α) (acc : List String) :
    (liftM (Except.ok a : Except Error α) : Reading α) acc = .ok a acc := rfl

variable {l : Line} {ls : List Line} {h : Header}

/-! ### The header -/

theorem natural_toDigits {n : Nat} (hn : n < 2 ^ 64) : l.natural (Nat.toDigits 10 n) = .ok n := by
  rw [Line.natural, Text.trim_toDigits, Text.number?_toDigits hn]

theorem readHeader_line (key : String) {value : List Char}
    (hl : l.text = key.toList ++ ':' :: ' ' :: value)
    (hkey : key.toList.all fun c => !isBlank c && c != ':') :
    readHeader h (l :: ls) = (do readHeader (← h.extend l key.toList (trim value)) ls) := by
  have hchar : ∀ c ∈ key.toList, isBlank c = false ∧ c ≠ ':' := by simpa using hkey
  have hne : l.text ≠ [] := by simp [hl]
  have hbody : l.text ≠ "--BODY--".toList := by
    intro heq
    have hmem : ':' ∈ "--BODY--".toList := by
      rw [← heq, hl]
      simp
    exact absurd hmem (by decide)
  have hcut : cut? (· = ':') l.text = some (key.toList, ' ' :: value) := by
    rw [hl]
    exact Text.cut?_append_cons (fun c hc => by simpa using (hchar c hc).2) (by simp)
  have htrim : trim key.toList = key.toList :=
    Text.trim_eq_self (fun c hc => (hchar c (List.mem_of_mem_head? hc)).1)
      fun c hc => (hchar c (List.mem_of_mem_getLast? hc)).1
  rw [readHeader, if_neg hne, if_neg hbody, hcut]
  dsimp only
  rw [htrim, Text.trim_blank_cons (by decide)]

theorem readHeader_field (key : String) {value : List Char} {acc acc' : List String} {h' : Header}
    (hl : l.text = key.toList ++ ':' :: ' ' :: value)
    (hkey : key.toList.all fun c => !isBlank c && c != ':') (hvalue : trim value = value)
    (hextend : h.extend l key.toList value acc = .ok h' acc') :
    readHeader h (l :: ls) acc = readHeader h' ls acc' := by
  rw [readHeader_line key hl hkey, hvalue, bind_of_ok hextend]

theorem readNames_nil {s : List Char} (hs : Text.trimLeft s = []) : readNames l s = pure [] := by
  rw [readNames]
  split
  · rfl
  · rename_i heq
    rw [hs] at heq
    cases heq
  · rename_i hnil _
    exact absurd hs hnil

theorem readNames_quoted {s rest : List Char} {name : String}
    (hs : Text.trimLeft s = '"' :: (escape name.toList ++ '"' :: rest)) :
    readNames l s = (do
      announce name
      return name :: (← readNames l rest)) := by
  have hquote := Text.unquote?_escape name.toList rest
  rw [readNames]
  split
  · rename_i heq
    rw [hs] at heq
    cases heq
  · rename_i cs heq
    rw [hs] at heq
    obtain ⟨-, rfl⟩ := List.cons.inj heq
    split
    · rename_i hnone
      rw [hquote] at hnone
      cases hnone
    · rename_i name' rest' hsome
      rw [hquote] at hsome
      cases hsome
      rw [String.ofList_toList]
  · rename_i hother
    exact absurd hs (hother _)

def namesText (names : List String) : List Char :=
  names.flatMap fun name => ' ' :: '"' :: (escape name.toList ++ ['"'])

theorem readNames_namesText (names acc : List String) {s : List Char}
    (hs : Text.trimLeft s = Text.trimLeft (namesText names)) :
    readNames l s acc = .ok names (acc ++ names) := by
  induction names generalizing s acc with
  | nil =>
    rw [readNames_nil hs, List.append_nil]
    rfl
  | cons name names ih =>
    have htext : Text.trimLeft s = '"' :: (escape name.toList ++ '"' :: namesText names) := by
      rw [hs, namesText, List.flatMap_cons, List.cons_append, Text.trimLeft_blank_cons (by decide),
        Text.trimLeft_eq_self, namesText]
      · simp
      · rintro c ⟨⟩
        decide
    rw [readNames_quoted htext]
    have hrest := ih (acc ++ [name]) rfl
    have hannounce : announce name acc = .ok () (acc ++ [name]) := rfl
    rw [bind_of_ok hannounce, bind_of_ok hrest, List.append_assoc, List.singleton_append]
    rfl

theorem listed_append {n : Nat} {rest : List Char} (acc : List String) (hn : n < 2 ^ 61)
    (hrest : ∀ c ∈ rest.head?, isBlank c = true) :
    ∃ rest', Text.trimLeft rest' = Text.trimLeft rest ∧
      Header.listed l (Nat.toDigits 10 n ++ rest) acc = (do
        let names ← readNames l rest'
        if names.length ≠ n then l.wrong s!"AP count {n} does not match {names.length} names"
        else return names : Reading (List String)) acc := by
  have hdigits : ∀ c ∈ Nat.toDigits 10 n, isBlank c = false := fun _ => Text.isBlank_of_mem_digits
  obtain ⟨rest', hcut, hrest'⟩ : ∃ rest', (cut? isBlank (Nat.toDigits 10 n ++ rest)).getD
      (Nat.toDigits 10 n ++ rest, []) = (Nat.toDigits 10 n, rest') ∧
        Text.trimLeft rest' = Text.trimLeft rest := by
    cases rest with
    | nil =>
      refine ⟨[], ?_, rfl⟩
      rw [List.append_nil, Text.cut?_eq_none hdigits]
      rfl
    | cons c rest =>
      have hblank : isBlank c = true := hrest c rfl
      refine ⟨rest, ?_, (Text.trimLeft_blank_cons hblank).symm⟩
      rw [Text.cut?_append_cons hdigits hblank]
      rfl
  have hroom : ¬Nat.pow 2 61 ≤ n := by simpa using hn
  refine ⟨rest', hrest', ?_⟩
  rw [Header.listed, hcut]
  dsimp only
  rw [natural_toDigits (by omega), bind_of_ok (lift_ok _ acc), if_neg hroom]

theorem head?_namesText (names : List String) :
    ∀ c ∈ (namesText names).head?, isBlank c = true := by
  cases names with
  | nil => simp [namesText]
  | cons name names =>
    rintro c ⟨⟩
    decide

theorem listed_namesText {names acc : List String} (hlength : names.length < 2 ^ 61) :
    Header.listed l (Nat.toDigits 10 names.length ++ namesText names) acc =
      .ok names (acc ++ names) := by
  obtain ⟨rest, hrest, hlisted⟩ :=
    listed_append (l := l) acc hlength (head?_namesText names)
  rw [hlisted, bind_of_ok (readNames_namesText names acc hrest), if_neg (not_not.2 rfl)]
  rfl

theorem extend_version :
    h.extend l "HOA".toList ['v', '1'] = pure { h with versioned := true } := by
  rw [Header.extend, String.ofList_toList]
  rfl

theorem extend_states {n : Nat} (hn : n < 2 ^ 64) :
    h.extend l "States".toList (Nat.toDigits 10 n) = pure { h with size := some n } := by
  rw [Header.extend, String.ofList_toList]
  dsimp only
  rw [natural_toDigits hn]
  rfl

theorem extend_start (hstart : h.start = none) :
    h.extend l "Start".toList ['0'] = pure { h with start := some 0 } := by
  have hzero : l.natural (Nat.toDigits 10 0) = .ok 0 := natural_toDigits (by omega)
  rw [Nat.toDigits_zero] at hzero
  have hno : ¬(h.start.isSome = true ∨ '&' ∈ ['0']) := by simp [hstart]
  rw [Header.extend, String.ofList_toList]
  dsimp only
  rw [if_neg hno, hzero]
  rfl

theorem extend_names {names acc : List String} (hlength : names.length < 2 ^ 61) :
    h.extend l "AP".toList (Nat.toDigits 10 names.length ++ namesText names) acc =
      .ok { h with names } (acc ++ names) := by
  rw [Header.extend, String.ofList_toList]
  exact bind_of_ok (listed_namesText hlength)

theorem extend_acceptance :
    h.extend l "Acceptance".toList "1 Inf(0)".toList = pure { h with allAccepting := false } := by
  rw [Header.extend, String.ofList_toList]
  rfl

theorem extend_other {key : String} {value : List Char}
    (hkey : key ∉ ["HOA", "States", "Start", "AP", "Acceptance"]) :
    h.extend l key.toList value = pure h := by
  simp only [List.mem_cons, List.not_mem_nil, or_false, not_or] at hkey
  rw [Header.extend, String.ofList_toList]
  split
  · exact absurd rfl hkey.1
  · exact absurd rfl hkey.2.1
  · exact absurd rfl hkey.2.2.1
  · exact absurd rfl hkey.2.2.2.1
  · exact absurd rfl hkey.2.2.2.2
  · rfl

/-- The header of an automaton with so many states and with these names. -/
def headerText (size : Nat) (names : List String) : List (List Char) := [
  "HOA: v1".toList,
  "States: ".toList ++ Nat.toDigits 10 size,
  "Start: 0".toList,
  "AP: ".toList ++ (Nat.toDigits 10 names.length ++ namesText names),
  "acc-name: Buchi".toList,
  "Acceptance: 1 Inf(0)".toList,
  "properties: trans-labels explicit-labels state-acc deterministic".toList]

theorem isBlank_of_mem_getLast?_namesText (names : List String) {c : Char}
    (hc : c ∈ (Nat.toDigits 10 names.length ++ namesText names).getLast?) : isBlank c = false := by
  rcases List.eq_nil_or_concat names with rfl | ⟨names', name, rfl⟩
  · rw [namesText, List.flatMap_nil, List.append_nil] at hc
    exact Text.isBlank_of_mem_digits (List.mem_of_mem_getLast? hc)
  · have hlast : namesText (names'.concat name) =
        (namesText names' ++ ' ' :: '"' :: escape name.toList) ++ ['"'] := by
      simp [namesText]
    rw [hlast, ← List.append_assoc, List.getLast?_concat] at hc
    cases hc
    decide

theorem trim_namesText (names : List String) :
    trim (Nat.toDigits 10 names.length ++ namesText names) =
      Nat.toDigits 10 names.length ++ namesText names := by
  refine Text.trim_eq_self (fun c hc => ?_) fun _ => isBlank_of_mem_getLast?_namesText names
  rw [List.head?_append_of_ne_nil _ Nat.toDigits_ne_nil] at hc
  exact Text.isBlank_of_mem_digits (List.mem_of_mem_head? hc)

theorem readHeader_opening {size : Nat} {l₁ l₂ l₃ : Line} (hsize : size < 2 ^ 64)
    (h₁ : l₁.text = "HOA: v1".toList) (h₂ : l₂.text = "States: ".toList ++ Nat.toDigits 10 size)
    (h₃ : l₃.text = "Start: 0".toList) :
    readHeader .blank (l₁ :: l₂ :: l₃ :: ls) [] =
      readHeader ⟨true, some size, some 0, [], false⟩ ls [] := by
  have hversion := congrFun (extend_version (l := l₁) (h := .blank)) []
  have hstates := congrFun
    (extend_states (l := l₂) (h := { Header.blank with versioned := true }) hsize) []
  calc readHeader .blank (l₁ :: l₂ :: l₃ :: ls) []
    _ = readHeader { Header.blank with versioned := true } (l₂ :: l₃ :: ls) [] :=
      readHeader_field "HOA" h₁ (by decide) (by decide) hversion
    _ = readHeader ⟨true, some size, none, [], false⟩ (l₃ :: ls) [] :=
      readHeader_field "States" h₂ (by decide) (Text.trim_toDigits _) hstates
    _ = readHeader ⟨true, some size, some 0, [], false⟩ ls [] :=
      readHeader_field "Start" h₃ (by decide) (by decide) (congrFun (extend_start rfl) [])

theorem readHeader_headerText {size : Nat} {names : List String} {header : List Line}
    {mark : Line} (ls : List Line) (hsize : size < 2 ^ 64) (hnames : names.length < 2 ^ 61)
    (hheader : header.map (·.text) = headerText size names)
    (hmark : mark.text = "--BODY--".toList) :
    readHeader .blank (header ++ mark :: ls) [] =
      .ok (⟨true, some size, some 0, names, false⟩, some (mark, ls)) names := by
  obtain ⟨l₁, header, rfl, h₁, hheader⟩ := List.map_eq_cons_iff.1 hheader
  obtain ⟨l₂, header, rfl, h₂, hheader⟩ := List.map_eq_cons_iff.1 hheader
  obtain ⟨l₃, header, rfl, h₃, hheader⟩ := List.map_eq_cons_iff.1 hheader
  obtain ⟨l₄, header, rfl, h₄, hheader⟩ := List.map_eq_cons_iff.1 hheader
  obtain ⟨l₅, header, rfl, h₅, hheader⟩ := List.map_eq_cons_iff.1 hheader
  obtain ⟨l₆, header, rfl, h₆, hheader⟩ := List.map_eq_cons_iff.1 hheader
  obtain ⟨l₇, header, rfl, h₇, hheader⟩ := List.map_eq_cons_iff.1 hheader
  obtain rfl := List.map_eq_nil_iff.1 hheader
  calc readHeader .blank ([l₁, l₂, l₃, l₄, l₅, l₆, l₇] ++ mark :: ls) []
    _ = readHeader ⟨true, some size, some 0, [], false⟩ ([l₄, l₅, l₆, l₇] ++ mark :: ls) [] :=
      readHeader_opening hsize h₁ h₂ h₃
    _ = readHeader ⟨true, some size, some 0, names, false⟩ ([l₅, l₆, l₇] ++ mark :: ls) names :=
      readHeader_field "AP" h₄ (by decide) (trim_namesText names) (extend_names hnames)
    _ = readHeader ⟨true, some size, some 0, names, false⟩ ([l₆, l₇] ++ mark :: ls) names :=
      readHeader_field "acc-name" h₅ (by decide) (by decide)
        (congrFun (extend_other (by decide)) names)
    _ = readHeader ⟨true, some size, some 0, names, false⟩ ([l₇] ++ mark :: ls) names :=
      readHeader_field "Acceptance" h₆ (by decide) (by decide)
        (congrFun extend_acceptance names)
    _ = readHeader ⟨true, some size, some 0, names, false⟩ (mark :: ls) names :=
      readHeader_field "properties" h₇ (by decide) (by decide)
        (congrFun (extend_other (by decide)) names)
    _ = .ok (⟨true, some size, some 0, names, false⟩, some (mark, ls)) names := by
      rw [readHeader, if_neg (by rw [hmark]; decide), if_pos hmark]
      rfl

/-! ### The body -/

def stateLine (q : Nat) (accepting : Bool) : List Char :=
  "State:".toList ++ ' ' :: (Nat.toDigits 10 q ++ if accepting then [' ', '{', '0', '}'] else [])

def moveLine (label : List Char) (r : Nat) : List Char :=
  '[' :: (label ++ ']' :: ' ' :: Nat.toDigits 10 r)

section Body

variable {size last q r : Nat} {current : Option Nat} {accepting : Bool} {label : List Char}
  {m : Label}

theorem readState_stateLine (hq : q < size) (hsize : size ≤ 2 ^ 64) :
    readState size false l
      (' ' :: (Nat.toDigits 10 q ++ if accepting then [' ', '{', '0', '}'] else [])) =
      .ok (q, accepting) := by
  have hdigits : ∀ c ∈ Nat.toDigits 10 q, isBlank c = false := fun _ => Text.isBlank_of_mem_digits
  have hblank : isBlank ' ' = true := by decide
  have hbrace : '{' ∉ Nat.toDigits 10 q := fun hmem => absurd (Text.isDigit_of_mem hmem) (by decide)
  obtain ⟨rest, hpieces⟩ : ∃ rest, Text.pieces (' ' :: (Nat.toDigits 10 q ++
      if accepting then [' ', '{', '0', '}'] else [])) = Nat.toDigits 10 q :: rest := by
    rw [Text.pieces_blank_cons hblank]
    cases accepting with
    | true => exact ⟨_, Text.pieces_append_blank_cons hdigits Nat.toDigits_ne_nil hblank⟩
    | false =>
      refine ⟨[], ?_⟩
      rw [if_neg Bool.false_ne_true, List.append_nil]
      exact Text.pieces_eq_singleton hdigits Nat.toDigits_ne_nil
  have hmark : (' ' :: (Nat.toDigits 10 q ++
      if accepting then [' ', '{', '0', '}'] else [])).contains '{' = accepting := by
    cases accepting with
    | true => simp
    | false => simpa using hbrace
  have hstate : l.stateNumber size q = .ok () := if_neg (by omega)
  rw [readState, hpieces]
  dsimp only
  rw [natural_toDigits (by omega)]
  simp only [bind, Except.bind, hstate, hmark, Bool.false_or]
  rfl

theorem readItems_stateLine (hl : l.text = stateLine q accepting) (hq : q < size)
    (hsize : size ≤ 2 ^ 64) (hh : h.allAccepting = false) :
    readItems size h last current (l :: ls) =
      (.state q accepting :: ·) <$> readItems size h last (some q) ls := by
  have hne : l.text ≠ [] := by simp [hl, stateLine]
  have hend : l.text ≠ "--END--".toList := by
    intro heq
    have hhead : some 'S' = "--END--".toList.head? := by rw [← heq, hl]; rfl
    exact absurd hhead (by decide)
  have hstrip := Text.strip?_eq_some_iff.2 hl
  rw [readItems.eq_def]
  dsimp only
  rw [if_neg hne, if_neg hend, hstrip, hh]
  dsimp only
  rw [readState_stateLine hq hsize]
  rfl

theorem cut?_moveLine (hlabel : ']' ∉ label) (r : Nat) :
    cut? (· = ']') (label ++ ']' :: ' ' :: Nat.toDigits 10 r) =
      some (label, ' ' :: Nat.toDigits 10 r) := by
  refine Text.cut?_append_cons (fun c hc => ?_) (by simp)
  rw [decide_eq_false_iff_not]
  rintro rfl
  exact hlabel hc

theorem readMove_moveLine (hl : l.text = moveLine label r) (hr : r < size) (hsize : size ≤ 2 ^ 64)
    (hlabel : ']' ∉ label) {props : Nat}
    (hparse : Label.parse props (label.filter (!isBlank ·)) = .ok m) :
    readMove size props l = .ok (m, r) := by
  have hbrace : '{' ∉ ' ' :: Nat.toDigits 10 r := by
    intro hmem
    rcases List.mem_cons.1 hmem with hblank | hdigit
    · exact absurd hblank (by decide)
    · exact absurd (Text.isDigit_of_mem hdigit) (by decide)
  have htarget : l.natural (' ' :: Nat.toDigits 10 r) = .ok r := by
    rw [Line.natural, Text.trim_blank_cons (by decide), Text.trim_toDigits,
      Text.number?_toDigits (by omega)]
  have hstate : l.stateNumber size r = .ok () := if_neg (by omega)
  have hread : readLabel props l label = .ok m := by
    rw [readLabel, hparse]
  rw [readMove, hl, moveLine]
  simp only [cut?_moveLine hlabel, if_neg hbrace, bind, Except.bind, htarget, hstate, hread]
  rfl

theorem readItems_cons_moveLine (hl : l.text = moveLine label r) :
    readItems size h last (some q) (l :: ls) = do
      let (m, target) ← readMove size h.names.length l
      return .move q m target :: (← readItems size h last (some q) ls) := by
  have hne : l.text ≠ [] := by simp [hl, moveLine]
  have hend : l.text ≠ "--END--".toList := by
    intro heq
    have hhead : some '[' = "--END--".toList.head? := by rw [← heq, hl]; rfl
    exact absurd hhead (by decide)
  have hstrip : Text.strip? "State:".toList l.text = none := by
    rw [hl, moveLine]
    rfl
  rw [readItems.eq_def]
  dsimp only
  rw [if_neg hne, if_neg hend, hstrip]

theorem readItems_moveLine (hl : l.text = moveLine label r) (hr : r < size) (hsize : size ≤ 2 ^ 64)
    (hlabel : ']' ∉ label)
    (hparse : Label.parse h.names.length (label.filter (!isBlank ·)) = .ok m) :
    readItems size h last (some q) (l :: ls) =
      (.move q m r :: ·) <$> readItems size h last (some q) ls := by
  rw [readItems_cons_moveLine hl, readMove_moveLine hl hr hsize hlabel hparse]
  rfl

theorem gives_readItems_moveLine (hl : l.text = moveLine label r) (hlabel : ']' ∉ label)
    (hrefused : ∀ m, ¬Label.Derives h.names.length .disjunction (label.filter (!isBlank ·)) m) :
    Gives (readItems size h last (some q) (l :: ls)) fun _ => False := by
  rw [readItems_cons_moveLine hl]
  refine gives_readMove.bind fun (m, target) ⟨hmove, _⟩ => ?_
  rw [hl, moveLine, Hanoi.move?, cut?_moveLine hlabel] at hmove
  cases hparse : Label.parse h.names.length (label.filter (!isBlank ·)) with
  | ok m' => exact absurd (Label.derives_of_parse hparse) (hrefused m')
  | error stop => simp [hparse, Except.toOption] at hmove

theorem readItems_end (hl : l.text = "--END--".toList) :
    readItems size h last current (l :: ls) = .ok [] := by
  rw [readItems.eq_def]
  dsimp only
  rw [if_neg (by rw [hl]; decide), if_pos hl]
  rfl

end Body

end Document

/-! ### Lines -/

/-- The text is a line, and none of it is cut off. -/
structure IsLine (l : List Char) : Prop where
  ne_nil : l ≠ []
  newline : '\n' ∉ l
  trim : trim l = l

theorem isLine_of_ends {l : List Char} (hne : l ≠ []) (hnewline : '\n' ∉ l)
    (hhead : ∀ c ∈ l.head?, isBlank c = false) (hlast : ∀ c ∈ l.getLast?, isBlank c = false) :
    IsLine l :=
  ⟨hne, hnewline, Text.trim_eq_self hhead hlast⟩

theorem newline_notMem_digits (n : Nat) : '\n' ∉ Nat.toDigits 10 n := fun h =>
  absurd (Text.isDigit_of_mem h) (by decide)

theorem isLine_append_digits {c : Char} {s : List Char} (hc : isBlank c = false)
    (hnewline : '\n' ∉ c :: s) (n : Nat) : IsLine (c :: s ++ Nat.toDigits 10 n) := by
  refine isLine_of_ends (by simp) ?_ ?_ ?_
  · rw [List.mem_append, not_or]
    exact ⟨hnewline, newline_notMem_digits n⟩
  · rintro d ⟨⟩
    exact hc
  · intro d hd
    rw [List.getLast?_append_of_ne_nil _ Nat.toDigits_ne_nil] at hd
    exact Text.isBlank_of_mem_digits (List.mem_of_mem_getLast? hd)

namespace Document

theorem isLine_stateLine (q : Nat) (accepting : Bool) : IsLine (stateLine q accepting) := by
  cases accepting with
  | false =>
    have hline := isLine_append_digits (c := 'S') (s := "tate: ".toList) (by decide) (by decide) q
    rwa [stateLine, if_neg Bool.false_ne_true, List.append_nil]
  | true =>
    have hlast : stateLine q true =
        ("State:".toList ++ ' ' :: (Nat.toDigits 10 q ++ [' ', '{', '0'])) ++ ['}'] := by
      simp [stateLine]
    refine isLine_of_ends (by simp [stateLine]) ?_ ?_ ?_
    · rw [stateLine, List.mem_append, not_or, List.mem_cons, not_or, List.mem_append, not_or]
      exact ⟨by decide, by decide, newline_notMem_digits q, by decide⟩
    · rintro c ⟨⟩
      decide
    · rw [hlast, List.getLast?_concat]
      rintro c ⟨⟩
      decide

theorem isLine_moveLine {label : List Char} (hlabel : '\n' ∉ label) (r : Nat) :
    IsLine (moveLine label r) := by
  have hnewline : '\n' ∉ '[' :: (label ++ [']', ' ']) := by
    rw [List.mem_cons, not_or, List.mem_append, not_or]
    exact ⟨by decide, hlabel, by decide⟩
  have hline := isLine_append_digits (by decide) hnewline r
  rwa [List.cons_append, List.append_assoc] at hline

theorem newline_notMem_escape {s : List Char} (hs : '\n' ∉ s) : '\n' ∉ escape s := by
  induction s with
  | nil => exact hs
  | cons c s ih =>
    rw [List.mem_cons, not_or] at hs
    have hrest := ih hs.2
    rw [escape]
    split
    · rw [List.mem_cons, not_or, List.mem_cons, not_or]
      exact ⟨by decide, hs.1, hrest⟩
    · rw [List.mem_cons, not_or]
      exact ⟨hs.1, hrest⟩

theorem newline_notMem_namesText {names : List String}
    (hnames : ∀ name ∈ names, '\n' ∉ name.toList) : '\n' ∉ namesText names := by
  rw [namesText, List.mem_flatMap]
  rintro ⟨name, hname, hmem⟩
  rw [List.mem_cons, List.mem_cons, List.mem_append] at hmem
  rcases hmem with h | h | h | h
  · exact absurd h (by decide)
  · exact absurd h (by decide)
  · exact newline_notMem_escape (hnames name hname) h
  · exact absurd h (by decide)

theorem isLine_of_mem_headerText {size : Nat} {names : List String}
    (hnames : ∀ name ∈ names, '\n' ∉ name.toList) {l : List Char} (hl : l ∈ headerText size names) :
    IsLine l := by
  simp only [headerText, List.mem_cons, List.not_mem_nil, or_false] at hl
  rcases hl with rfl | rfl | rfl | rfl | rfl | rfl | rfl
  · exact ⟨by decide, by decide, by decide⟩
  · exact isLine_append_digits (c := 'S') (s := "tates: ".toList) (by decide) (by decide) size
  · exact ⟨by decide, by decide, by decide⟩
  · refine isLine_of_ends (by simp) ?_ ?_ fun c hc => ?_
    · rw [List.mem_append, not_or, List.mem_append, not_or]
      exact ⟨by decide, newline_notMem_digits _, newline_notMem_namesText hnames⟩
    · rintro c ⟨⟩
      decide
    · refine isBlank_of_mem_getLast?_namesText names ?_
      rwa [List.getLast?_append_of_ne_nil] at hc
      exact List.append_ne_nil_of_left_ne_nil Nat.toDigits_ne_nil _
  · exact ⟨by decide, by decide, by decide⟩
  · exact ⟨by decide, by decide, by decide⟩
  · exact ⟨by decide, by decide, by decide⟩

theorem read_headerText {size : Nat} {names : List String} {body : List (List Char)} {text : String}
    (hpositive : 0 < size) (hsize : size < 2 ^ 64) (hlength : names.length < 2 ^ 61)
    (htext : lines text.toList = headerText size names ++ "--BODY--".toList :: body)
    (htrim : ∀ l ∈ lines text.toList, trim l = l) :
    ∃ ls : List Line, ls.map (·.text) = body ∧ read text [] =
      (do return ⟨size, 0, names, ← readItems size ⟨true, some size, some 0, names, false⟩
        (lines text.toList).length none ls⟩ : Reading Document) names := by
  have hparts : (numbered (lines text.toList)).map (·.text) =
      headerText size names ++ "--BODY--".toList :: body := by
    rw [map_text_numbered, List.map_congr_left htrim, List.map_id', htext]
  obtain ⟨header, rest, hsplit, hheader, hrest⟩ := List.map_eq_append_iff.1 hparts
  obtain ⟨mark, ls, rfl, hmark, hls⟩ := List.map_eq_cons_iff.1 hrest
  have hread := readHeader_headerText ls hsize hlength hheader hmark
  have hstart : ¬size ≤ (some 0).getD 0 := by
    rw [Option.getD_some]
    omega
  refine ⟨ls, hls, ?_⟩
  rw [read]
  dsimp only
  rw [hsplit, bind_of_ok hread, if_neg (by simp)]
  dsimp only
  rw [if_neg hstart]
  rfl

end Document

namespace Automaton

variable {s : Diagram.Store} {a : Automaton} {aps : List (Nat × String)}

def bodyText (s : Diagram.Store) (aps : List (Nat × String)) (a : Automaton) : List (List Char) :=
  a.states.toList.zipIdx.flatMap fun (st, q) => Document.stateLine q st.accepting ::
    st.moves.map fun m => Document.moveLine (labelText s aps m.label) m.target

def itemsRead (s : Diagram.Store) (aps : List (Nat × String)) (a : Automaton) :
    List Document.Item :=
  a.states.toList.zipIdx.flatMap fun (st, q) => .state q st.accepting ::
    st.moves.map fun m => .move q (labelRead s aps m.label) m.target

theorem mem_zipIdx_states {st : State} {q : Nat} :
    (st, q) ∈ a.states.toList.zipIdx ↔ a.states[q]? = some st := by
  rw [List.mem_zipIdx_iff_getElem?, Array.getElem?_toList]

theorem move_mem_itemsRead {q r : Nat} {l : Label} : .move q l r ∈ a.itemsRead s aps ↔
    ∃ m, a.HasMove q m ∧ l = labelRead s aps m.label ∧ r = m.target := by
  rw [itemsRead, List.mem_flatMap]
  constructor
  · rintro ⟨⟨st, p⟩, hst, hmem⟩
    rw [mem_zipIdx_states] at hst
    rcases List.mem_cons.1 hmem with heq | hmem
    · cases heq
    · obtain ⟨m, hm, heq⟩ := List.mem_map.1 hmem
      cases heq
      exact ⟨m, ⟨st, hst, hm⟩, rfl, rfl⟩
  · rintro ⟨m, ⟨st, hst, hm⟩, rfl, rfl⟩
    exact ⟨(st, q), mem_zipIdx_states.2 hst, List.mem_cons_of_mem _ (List.mem_map.2 ⟨m, hm, rfl⟩)⟩

theorem getLast?_filter_iff {α : Type} {l : List (Nat × α)} (hl : (l.map Prod.fst).Nodup) {q : Nat}
    {c : α} : (l.filter (·.1 = q)).getLast? = some (q, c) ↔ (q, c) ∈ l := by
  constructor
  · intro h
    exact (List.mem_filter.1 (List.mem_of_getLast? h)).1
  · intro h
    have hmem : (q, c) ∈ l.filter (·.1 = q) := List.mem_filter.2 ⟨h, by simp⟩
    cases hlast : (l.filter (·.1 = q)).getLast? with
    | none =>
      rw [List.getLast?_eq_none_iff.1 hlast] at hmem
      cases hmem
    | some p =>
      obtain ⟨hp, hq⟩ := List.mem_filter.1 (List.mem_of_getLast? hlast)
      rw [List.inj_on_of_nodup_map hl hp h (by simpa using hq)]

theorem markedLast_itemsRead {q : Nat} :
    Document.MarkedLast (a.itemsRead s aps) q ↔ a.Accepting q := by
  have hblock : ∀ p : State × Nat, ((Document.Item.state p.2 p.1.accepting) ::
      p.1.moves.map fun m => Document.Item.move p.2 (labelRead s aps m.label) m.target).filterMap
        Document.Item.state? = [(p.2, p.1.accepting)] := by
    intro p
    rw [List.filterMap_cons, List.filterMap_map]
    simp [Document.Item.state?, Function.comp_def]
  have hstates : (a.itemsRead s aps).filterMap Document.Item.state? =
      a.states.toList.zipIdx.map fun p => (p.2, p.1.accepting) := by
    rw [itemsRead, List.filterMap_flatMap, List.map_eq_flatMap]
    exact List.flatMap_congr fun p _ => hblock p
  have hnodup :
      ((a.states.toList.zipIdx.map fun p => (p.2, p.1.accepting)).map Prod.fst).Nodup := by
    have hnumbers : (a.states.toList.zipIdx.map Prod.snd).Nodup := by
      rw [List.zipIdx_map_snd]
      exact List.nodup_range'
    rwa [List.map_map]
  rw [Document.MarkedLast, hstates, getLast?_filter_iff hnodup, List.mem_map]
  constructor
  · rintro ⟨⟨st, p⟩, hst, heq⟩
    obtain ⟨rfl, haccepting⟩ := Prod.mk.inj heq
    exact ⟨st, mem_zipIdx_states.1 hst, haccepting⟩
  · rintro ⟨st, hst, haccepting⟩
    exact ⟨(st, q), mem_zipIdx_states.2 hst, by rw [haccepting]⟩

/-! ### The text -/

def textLines (s : Diagram.Store) (aps : List (Nat × String)) (a : Automaton) : List (List Char) :=
  Document.headerText a.size (aps.map Prod.snd) ++ "--BODY--".toList ::
    (a.bodyText s aps ++ ["--END--".toList])

theorem answers_stateText {st : State} (hst : ∀ m ∈ st.moves,
    Answers (s.disjunction (placeStyle aps) m.label) fun text =>
      text.toList = labelText s aps m.label) (q : Nat) :
    Answers (stateText s aps q st) fun texts => texts.map String.toList =
      Document.stateLine q st.accepting ::
        st.moves.map fun m => Document.moveLine (labelText s aps m.label) m.target := by
  have hmoves : Answers (st.moves.mapM fun m => do
      return s!"[{← s.disjunction (placeStyle aps) m.label}] {m.target}") fun texts =>
        texts.map String.toList = st.moves.map fun m =>
          Document.moveLine (labelText s aps m.label) m.target := by
    refine Answers.mapM_map fun m hm => ?_
    refine (hst m hm).bind fun text htext => .pure ?_
    have hopen : (toString "[").toList = ['['] := rfl
    have hclose : (toString "] ").toList = [']', ' '] := rfl
    have hstring : toString text = text := rfl
    simp [Document.moveLine, hopen, hclose, hstring, htext]
  refine hmoves.bind fun texts htexts => .pure ?_
  rw [List.map_cons, htexts]
  congr 1
  have hstate : (toString "State: ").toList = "State:".toList ++ [' '] := rfl
  cases st.accepting with
  | true =>
    have hmark : (toString " \x7b0\x7d").toList = [' ', '{', '0', '}'] := rfl
    simp [Document.stateLine, hstate, hmark]
  | false =>
    have hmark : (toString "").toList = [] := rfl
    simp [Document.stateLine, hstate, hmark]

theorem toList_names (aps : List (Nat × String)) :
    (String.join (aps.map fun (_, name) => " " ++ Text.quoted name)).toList =
      Document.namesText (aps.map Prod.snd) := by
  rw [String.toList_join, List.flatMap_map, Document.namesText, List.flatMap_map]
  refine List.flatMap_congr fun ap _ => ?_
  have hblank : (" " : String).toList = [' '] := rfl
  have hquote : ("\"" : String).toList = ['"'] := rfl
  simp [Text.quoted, Text.escaped, hblank, hquote]

theorem map_toList_header (size : Nat) {names : List String}
    (hquoted : names = aps.map fun (_, name) => " " ++ Text.quoted name) : [
      "HOA: v1",
      s!"States: {size}",
      "Start: 0",
      s!"AP: {aps.length}{String.join names}",
      "acc-name: Buchi",
      "Acceptance: 1 Inf(0)",
      "properties: trans-labels explicit-labels state-acc deterministic",
      "--BODY--"].map String.toList =
    Document.headerText size (aps.map Prod.snd) ++ ["--BODY--".toList] := by
  have hstates : (s!"States: {size}").toList = "States: ".toList ++ Nat.toDigits 10 size := by
    have hkey : (toString "States: ").toList = "States: ".toList := rfl
    simp [hkey]
  have hnames : (s!"AP: {aps.length}{String.join names}").toList =
      "AP: ".toList ++ (Nat.toDigits 10 (aps.map Prod.snd).length ++
        Document.namesText (aps.map Prod.snd)) := by
    have hjoin : ∀ l : String, toString l = l := fun _ => rfl
    rw [← toList_names aps, hquoted]
    simp [hjoin]
  simp only [List.map_cons, List.map_nil, hstates, hnames]
  rfl

theorem answers_text (ha : ∀ q m, a.HasMove q m →
    Answers (s.disjunction (placeStyle aps) m.label) fun text =>
      text.toList = labelText s aps m.label) :
    Answers (a.text s aps) fun text =>
      text.toList = (a.textLines s aps).flatMap (· ++ ['\n']) := by
  have hbody : Answers (a.states.toList.zipIdx.mapM fun (st, q) => stateText s aps q st)
      fun texts => texts.map (List.map String.toList) = a.states.toList.zipIdx.map fun (st, q) =>
        Document.stateLine q st.accepting ::
          st.moves.map fun m => Document.moveLine (labelText s aps m.label) m.target := by
    refine Answers.mapM_map fun p hp => ?_
    obtain ⟨st, q⟩ := p
    exact answers_stateText (fun m hm => ha q m ⟨st, mem_zipIdx_states.1 hp, hm⟩) q
  refine hbody.bind fun texts htexts => .pure ?_
  have hflat : texts.flatten.map String.toList = a.bodyText s aps := by
    rw [List.map_flatten, htexts, bodyText, List.flatMap_def]
  have hnewline : ("\n" : String).toList = ['\n'] := rfl
  have hend : ["--END--"].map String.toList = ["--END--".toList] := rfl
  rw [String.toList_join, List.flatMap_map]
  simp only [String.toList_append, hnewline]
  rw [← List.flatMap_map (f := String.toList) (g := fun l => l ++ ['\n']), List.map_append,
    List.map_append, map_toList_header a.size rfl, hflat, hend, textLines]
  simp only [List.append_assoc, List.cons_append, List.nil_append]

/-! ### Reading it again -/

section Reading

open Document (Line Header readItems readHeader)

variable {size last q : Nat} {current : Option Nat} {h : Header}

theorem readItems_moves (h : Header) (last q : Nat) (hsize : size ≤ 2 ^ 64)
    (hh : h.names.length = aps.length) {ms : List Move}
    (hms : ∀ m ∈ ms, Legible s aps m.label ∧ m.target < size)
    {ls : List Line} {rest : List (List Char)}
    (hls : ls.map (·.text) =
      ms.map (fun m => Document.moveLine (labelText s aps m.label) m.target) ++ rest) :
    ∃ ls' : List Line, ls'.map (·.text) = rest ∧ readItems size h last (some q) ls =
      (ms.map (fun m => .move q (labelRead s aps m.label) m.target) ++ ·) <$>
        readItems size h last (some q) ls' := by
  induction ms generalizing ls with
  | nil =>
    refine ⟨ls, hls, ?_⟩
    simp only [List.map_nil, List.nil_append]
    exact (id_map' _).symm
  | cons m ms ih =>
    obtain ⟨l, ls, rfl, hl, hls⟩ := List.map_eq_cons_iff.1 hls
    obtain ⟨hm, htarget⟩ := hms m (by simp)
    obtain ⟨ls', hls', hread⟩ := ih (fun m' hm' => hms m' (by simp [hm'])) hls
    have hbracket : ']' ∉ labelText s aps m.label := fun hmem => by
      have hchar := hm.chars _ hmem
      exact absurd hchar (by unfold IsLabelChar; decide)
    refine ⟨ls', hls', ?_⟩
    rw [Document.readItems_moveLine hl htarget hsize hbracket (hh ▸ hm.parse), hread]
    simp only [Functor.map_map, List.map_cons, List.cons_append]

theorem readItems_body (hsize : size ≤ 2 ^ 64) (hh : h.names.length = aps.length)
    (haccepting : h.allAccepting = false) {ps : List (State × Nat)}
    (hps : ∀ p ∈ ps, p.2 < size ∧ ∀ m ∈ p.1.moves, Legible s aps m.label ∧ m.target < size)
    {ls : List Line}
    (hls : ls.map (·.text) = (ps.flatMap fun (st, q) => Document.stateLine q st.accepting ::
      st.moves.map fun m => Document.moveLine (labelText s aps m.label) m.target) ++
        ["--END--".toList]) :
    readItems size h last current ls = .ok (ps.flatMap fun (st, q) => .state q st.accepting ::
      st.moves.map fun m => .move q (labelRead s aps m.label) m.target) := by
  induction ps generalizing ls current with
  | nil =>
    obtain ⟨l, ls, rfl, hl, -⟩ := List.map_eq_cons_iff.1 hls
    exact Document.readItems_end hl
  | cons p ps ih =>
    obtain ⟨st, q⟩ := p
    obtain ⟨hq, hms⟩ := hps (st, q) (by simp)
    rw [List.flatMap_cons, List.append_assoc, List.cons_append] at hls
    obtain ⟨l, ls, rfl, hl, hls⟩ := List.map_eq_cons_iff.1 hls
    obtain ⟨ls', hls', hread⟩ := readItems_moves h last q hsize hh hms hls
    rw [Document.readItems_stateLine hl hq hsize haccepting, hread,
      ih (fun p hp => hps p (by simp [hp])) hls', List.flatMap_cons]
    rfl

theorem isLine_of_mem_textLines (ha : ∀ q m, a.HasMove q m → Legible s aps m.label)
    (hnames : ∀ name ∈ aps.map Prod.snd, '\n' ∉ name.toList) {l : List Char}
    (hl : l ∈ a.textLines s aps) : IsLine l := by
  rw [textLines, List.mem_append, List.mem_cons, List.mem_append, List.mem_singleton] at hl
  rcases hl with hl | rfl | hl | rfl
  · exact Document.isLine_of_mem_headerText hnames hl
  · exact ⟨by decide, by decide, by decide⟩
  · rw [bodyText, List.mem_flatMap] at hl
    obtain ⟨⟨st, q⟩, hst, hl⟩ := hl
    rcases List.mem_cons.1 hl with rfl | hl
    · exact Document.isLine_stateLine q _
    · obtain ⟨m, hm, rfl⟩ := List.mem_map.1 hl
      refine Document.isLine_moveLine (fun hmem => ?_) _
      have hchar := (ha q m ⟨st, mem_zipIdx_states.1 hst, hm⟩).chars _ hmem
      exact absurd hchar (by unfold IsLabelChar; decide)
  · exact ⟨by decide, by decide, by decide⟩

theorem lines_of_toList_eq (ha : ∀ q m, a.HasMove q m → Legible s aps m.label)
    (hnames : ∀ name ∈ aps.map Prod.snd, '\n' ∉ name.toList) {text : String}
    (htext : text.toList = (a.textLines s aps).flatMap (· ++ ['\n'])) :
    lines text.toList = a.textLines s aps := by
  rw [htext, Text.lines_flatMap fun l hl => (isLine_of_mem_textLines ha hnames hl).newline]

theorem head?_of_mem_bodyText {l : List Char} (hl : l ∈ a.bodyText s aps) :
    (∃ q accepting, l = Document.stateLine q accepting) ∨
      ∃ label r, l = Document.moveLine label r := by
  rw [bodyText, List.mem_flatMap] at hl
  obtain ⟨⟨st, q⟩, -, hl⟩ := hl
  rcases List.mem_cons.1 hl with rfl | hl
  · exact .inl ⟨q, st.accepting, rfl⟩
  · obtain ⟨m, -, rfl⟩ := List.mem_map.1 hl
    exact .inr ⟨_, _, rfl⟩

theorem body_of_toList_eq (ha : ∀ q m, a.HasMove q m → Legible s aps m.label)
    (hnames : ∀ name ∈ aps.map Prod.snd, '\n' ∉ name.toList) {text : String}
    (htext : text.toList = (a.textLines s aps).flatMap (· ++ ['\n'])) :
    Hanoi.body text = a.bodyText s aps := by
  have hmark : ∀ (c : Char) (mark : String), mark.toList.head? ≠ some c →
      ∀ l : List Char, l.head? = some c → l ≠ mark.toList := by
    rintro c mark hc l hl rfl
    exact hc hl
  have hheader : ∀ l ∈ Document.headerText a.size (aps.map Prod.snd), l ≠ "--BODY--".toList := by
    intro l hl
    simp only [Document.headerText, List.mem_cons, List.not_mem_nil, or_false] at hl
    rcases hl with rfl | rfl | rfl | rfl | rfl | rfl | rfl
    · exact hmark 'H' _ (by decide) _ rfl
    · exact hmark 'S' _ (by decide) _ rfl
    · exact hmark 'S' _ (by decide) _ rfl
    · exact hmark 'A' _ (by decide) _ rfl
    · exact hmark 'a' _ (by decide) _ rfl
    · exact hmark 'A' _ (by decide) _ rfl
    · exact hmark 'p' _ (by decide) _ rfl
  have hbody : ∀ l ∈ a.bodyText s aps, l ≠ "--END--".toList := by
    intro l hl
    rcases head?_of_mem_bodyText hl with ⟨q, accepting, rfl⟩ | ⟨label, r, rfl⟩
    · exact hmark 'S' _ (by decide) _ rfl
    · exact hmark '[' _ (by decide) _ rfl
  have hcontents : Hanoi.contents (lines text.toList) = a.textLines s aps := by
    have hisLine : ∀ l ∈ a.textLines s aps, IsLine l := fun l => isLine_of_mem_textLines ha hnames
    have htrim : (a.textLines s aps).map Text.trim = a.textLines s aps :=
      (List.map_congr_left fun l hl => (hisLine l hl).trim).trans (List.map_id _)
    rw [lines_of_toList_eq ha hnames htext, Hanoi.contents, htrim]
    exact List.filter_eq_self.2 fun l hl => decide_eq_true (hisLine l hl).ne_nil
  rw [Hanoi.body, hcontents, textLines, Hanoi.behind_append_mark hheader,
    Hanoi.upTo_append_mark hbody]

theorem regular_of_toList_eq (ha : ∀ q m, a.HasMove q m → Legible s aps m.label)
    (hnames : ∀ name ∈ aps.map Prod.snd, '\n' ∉ name.toList) {text : String}
    (htext : text.toList = (a.textLines s aps).flatMap (· ++ ['\n'])) : Hanoi.Regular text := by
  intro l hl hnamed hbrace
  rw [body_of_toList_eq ha hnames htext] at hl
  rcases head?_of_mem_bodyText hl with ⟨q, accepting, rfl⟩ | ⟨label, r, rfl⟩
  · cases accepting with
    | true =>
      refine ⟨"State:".toList ++ ' ' :: (Nat.toDigits 10 q ++ [' ']), ?_⟩
      simp [Document.stateLine]
    | false =>
      have hdigits : '{' ∉ Nat.toDigits 10 q := fun h => absurd (Text.isDigit_of_mem h) (by decide)
      rw [Document.stateLine, List.mem_append, List.mem_cons, List.mem_append] at hbrace
      rcases hbrace with h | h | h | h
      · exact absurd h (by decide)
      · exact absurd h (by decide)
      · exact absurd h hdigits
      · cases h
  · cases hnamed

theorem read_of_toList_eq (hnonempty : 0 < a.size) (hsize : a.size < 2 ^ 64)
    (ha : ∀ q m, a.HasMove q m → Legible s aps m.label ∧ m.target < a.size)
    (hnames : ∀ name ∈ aps.map Prod.snd, '\n' ∉ name.toList) (hlength : aps.length < 2 ^ 61)
    {text : String} (htext : text.toList = (a.textLines s aps).flatMap (· ++ ['\n'])) :
    Document.read text [] =
      .ok ⟨a.size, 0, aps.map Prod.snd, a.itemsRead s aps⟩ (aps.map Prod.snd) := by
  have hlegible : ∀ q m, a.HasMove q m → Legible s aps m.label := fun q m hm => (ha q m hm).1
  have hlines := lines_of_toList_eq hlegible hnames htext
  have htrim : ∀ l ∈ lines text.toList, Text.trim l = l := fun l hl =>
    (isLine_of_mem_textLines hlegible hnames (hlines ▸ hl)).trim
  obtain ⟨ls, hls, hread⟩ :=
    Document.read_headerText hnonempty hsize (by simpa using hlength) hlines htrim
  have hitems : readItems a.size ⟨true, some a.size, some 0, aps.map Prod.snd, false⟩
      (lines text.toList).length none ls = .ok (a.itemsRead s aps) := by
    refine readItems_body hsize.le (by simp) rfl (fun p hp => ?_) hls
    obtain ⟨st, q⟩ := p
    have hst := mem_zipIdx_states.1 hp
    exact ⟨(Array.getElem?_eq_some_iff.1 hst).1, fun m hm => ha q m ⟨st, hst, hm⟩⟩
  rw [hread, hitems]
  rfl

end Reading

theorem legible_labels (hs : s.Sound) (ha : a.Formed s)
    (hlabels : ∀ q m, a.HasMove q m → DependsOn {p | p ∈ aps.map Prod.fst} (s.value m.label))
    (hsmall : ∀ p ∈ aps.map Prod.fst, p < 2 ^ 31) (hlength : aps.length < 2 ^ 61) :
    ∀ q m, a.HasMove q m → Legible s aps m.label := by
  intro q m hm
  refine legible hs (ha.valid q m hm) (ha.satisfiable q m hm) ?_ hsmall (by omega)
  exact fun v hv => hv.mem (hlabels q m hm)

theorem answers_written (hs : s.Sound) (ha : a.Formed s)
    (hlabels : ∀ q m, a.HasMove q m → DependsOn {p | p ∈ aps.map Prod.fst} (s.value m.label))
    (hsmall : ∀ p ∈ aps.map Prod.fst, p < 2 ^ 31) (hlength : aps.length < 2 ^ 61)
    (hnames : ∀ name ∈ aps.map Prod.snd, '\n' ∉ name.toList) (hsize : a.size < 2 ^ 64) :
    Answers (a.text s aps) fun text => Hanoi.Regular text ∧
      ∃ d, Document.read text [] = .ok d (aps.map Prod.snd) ∧ d.names = aps.map Prod.snd ∧
        d.buchi (aps.map Prod.fst) = a.buchi s := by
  have hlegible := legible_labels hs ha hlabels hsmall hlength
  refine (answers_text fun q m hm => (hlegible q m hm).text).mono fun text htext =>
    ⟨regular_of_toList_eq hlegible hnames htext, ?_⟩
  have hread := read_of_toList_eq ha.nonempty hsize
    (fun q m hm => ⟨hlegible q m hm, ha.closed q m hm⟩) hnames hlength htext
  refine ⟨_, hread, rfl, ?_⟩
  have haccepting : Document.MarkedLast (a.itemsRead s aps) = a.Accepting :=
    funext fun q => propext markedLast_itemsRead
  have hstep : ∀ (q : Nat) (σ : Assignment) (r : Nat),
      (∃ label, .move q label r ∈ a.itemsRead s aps ∧
        label.holds (fun i => σ ((aps.map Prod.fst).getD i 0)) = true) ↔ Step s a q σ r := by
    intro q σ r
    simp only [move_mem_itemsRead]
    constructor
    · rintro ⟨_, ⟨m, hm, rfl, rfl⟩, hholds⟩
      rw [(hlegible q m hm).holds] at hholds
      exact ⟨m, hm, hholds, rfl⟩
    · rintro ⟨m, hm, hholds, rfl⟩
      refine ⟨_, ⟨m, hm, rfl, rfl⟩, ?_⟩
      rwa [(hlegible q m hm).holds]
  simp only [Document.buchi, buchi, haccepting, hstep]

end Automaton

end RegularArithmetic

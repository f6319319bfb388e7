import RegularArithmetic.Interchange.Reader
import RegularArithmetic.Proofs.Automaton.Recurrence
import RegularArithmetic.Proofs.Interchange.Label
import RegularArithmetic.Proofs.Text

/-!
What a text in the Hanoi format describes, said of its lines, and the document that is read from it,
which describes the same.
-/

set_option autoImplicit false

namespace RegularArithmetic

/-! ### The automaton that the lines of a text describe -/

namespace Hanoi

open Text (lines trim cut? strip? pieces number? isBlank)

/-- The lines that hold something, without the blanks at their ends. -/
def contents (ls : List (List Char)) : List (List Char) := (ls.map trim).filter (· ≠ [])

def upTo (mark : String) (ls : List (List Char)) : List (List Char) :=
  ls.takeWhile (· ≠ mark.toList)

def behind (mark : String) (ls : List (List Char)) : List (List Char) :=
  (ls.dropWhile (· ≠ mark.toList)).tail

def header (text : String) : List (List Char) := upTo "--BODY--" (contents (lines text.toList))

def body (text : String) : List (List Char) :=
  upTo "--END--" (behind "--BODY--" (contents (lines text.toList)))

/-- The value of a header line `key: value` with this key. -/
def value? (key : String) (l : List Char) : Option (List Char) :=
  match cut? (· = ':') l with
  | some (k, v) => if String.ofList (trim k) = key then some (trim v) else none
  | none => none

def numeral? (s : List Char) : Option Nat := number? (trim s)

def lastValue? (key : String) (ls : List (List Char)) : Option (List Char) :=
  (ls.filterMap (value? key)).getLast?

/-- The number of states. -/
def size (text : String) : Nat := ((lastValue? "States" (header text)).bind numeral?).getD 0

/-- The start state, 0 if none is named. -/
def start (text : String) : Nat := ((lastValue? "Start" (header text)).bind numeral?).getD 0

def count? (value : List Char) : Option Nat :=
  numeral? (((cut? isBlank value).map Prod.fst).getD value)

/-- The number of propositions. -/
def count (text : String) : Nat := ((lastValue? "AP" (header text)).bind count?).getD 0

def AllAccepting (text : String) : Prop :=
  (lastValue? "Acceptance" (header text)).map pieces = some ["0".toList, "t".toList]

def named? (l : List Char) : Option Nat := do
  let s ← strip? "State:".toList l
  numeral? (← (pieces s).head?)

def Marked (l : List Char) : Prop := "\x7b0\x7d".toList <:+ l

def MarkedLast (ls : List (List Char)) (q : Nat) : Prop :=
  ∃ l, (ls.filter (named? · = some q)).getLast? = some l ∧ Marked l

/-- The label and the target of a line `[label] target`, over `n` propositions. -/
def move? (n : Nat) : List Char → Option (Label × Nat)
  | '[' :: s => do
    let (label, target) ← cut? (· = ']') s
    let label ← (Label.parse n (label.filter (!isBlank ·))).toOption
    return (label, ← numeral? target)
  | _ => none

/-- There is a line for a move, and of the lines that name states the last before it names the state
that the move leaves. -/
def HasMove (n : Nat) (ls : List (List Char)) (q : Nat) (label : Label) (r : Nat) : Prop :=
  ∃ before l behind, ls = before ++ l :: behind ∧
    (before.filterMap named?).getLast? = some q ∧ move? n l = some (label, r)

/-- The automaton for infinite words that a text describes, with propositions for its names. -/
def buchi (text : String) (props : List Nat) : Buchi where
  size := size text
  start := start text
  Accepting q := AllAccepting text ∨ MarkedLast (body text) q
  Step q σ r := ∃ label, HasMove (count text) (body text) q label r ∧
    label.holds (fun i => σ (props.getD i 0)) = true

/-- The format has no names of states, so a brace on a line that names a state opens its mark, which
is written in the one way that there is. -/
def Regular (text : String) : Prop :=
  ∀ l ∈ body text, (named? l).isSome → '{' ∈ l → Marked l

section

variable {mark : String} {l : List Char} {ls : List (List Char)}

theorem upTo_cons_of_eq (h : l = mark.toList) : upTo mark (l :: ls) = [] :=
  List.takeWhile_cons_of_neg (by rw [decide_eq_true_eq]; exact not_not.2 h)

theorem upTo_cons_of_ne (h : l ≠ mark.toList) : upTo mark (l :: ls) = l :: upTo mark ls :=
  List.takeWhile_cons_of_pos (decide_eq_true h)

theorem behind_cons_of_eq (h : l = mark.toList) : behind mark (l :: ls) = ls := by
  rw [behind, List.dropWhile_cons_of_neg (by rw [decide_eq_true_eq]; exact not_not.2 h),
    List.tail_cons]

theorem behind_cons_of_ne (h : l ≠ mark.toList) : behind mark (l :: ls) = behind mark ls := by
  exact congrArg List.tail (List.dropWhile_cons_of_pos (decide_eq_true h))

theorem upTo_append_mark (h : ∀ l ∈ ls, l ≠ mark.toList) (rest : List (List Char)) :
    upTo mark (ls ++ mark.toList :: rest) = ls := by
  induction ls with
  | nil => exact upTo_cons_of_eq rfl
  | cons l ls ih =>
    rw [List.cons_append, upTo_cons_of_ne (h l (by simp)), ih fun l' hl' => h l' (by simp [hl'])]

theorem behind_append_mark (h : ∀ l ∈ ls, l ≠ mark.toList) (rest : List (List Char)) :
    behind mark (ls ++ mark.toList :: rest) = rest := by
  induction ls with
  | nil => exact behind_cons_of_eq rfl
  | cons l ls ih =>
    rw [List.cons_append, behind_cons_of_ne (h l (by simp)), ih fun l' hl' => h l' (by simp [hl'])]

end

end Hanoi

/-! ### The document that is read -/

namespace Document

open Text (lines trim cut? strip? pieces number? isBlank)
open Hanoi (contents upTo upTo_cons_of_eq upTo_cons_of_ne behind behind_cons_of_eq
  behind_cons_of_ne lastValue? value? numeral? count? named? move?)

/-- The states that are named are there, and all propositions of the labels have names. -/
structure Proper (d : Document) : Prop where
  start : d.start < d.size
  states : ∀ q b, .state q b ∈ d.items → q < d.size
  moves : ∀ q l r, .move q l r ∈ d.items → q < d.size ∧ r < d.size ∧ l.Below d.names.length

/-- The state that a line of the body names, with its mark. -/
def Item.state? : Item → Option (Nat × Bool)
  | .state q b => some (q, b)
  | .move _ _ _ => none

def MarkedLast (items : List Item) (q : Nat) : Prop :=
  ((items.filterMap Item.state?).filter (·.1 = q)).getLast? = some (q, true)

/-- The automaton for infinite words that a document describes. -/
def buchi (d : Document) (props : List Nat) : Buchi where
  size := d.size
  start := d.start
  Accepting := MarkedLast d.items
  Step q σ r := ∃ label, .move q label r ∈ d.items ∧
    label.holds (fun i => σ (props.getD i 0)) = true

theorem markedLast_append_state {items : List Item} {p q : Nat} {b : Bool} :
    MarkedLast (items ++ [.state q b]) p ↔ if p = q then b = true else MarkedLast items p := by
  simp only [MarkedLast, List.filterMap_append, List.filter_append]
  by_cases hp : p = q
  · simp [Item.state?, hp]
  · simp [Item.state?, hp, Ne.symm hp]

theorem markedLast_append_move {items : List Item} {p q r : Nat} {label : Label} :
    MarkedLast (items ++ [.move q label r]) p ↔ MarkedLast items p := by
  have hnone : [Item.move q label r].filterMap Item.state? = [] := rfl
  rw [MarkedLast, List.filterMap_append, hnone, List.append_nil, MarkedLast]

section Lines

variable {size props : Nat} {l : Line} {s : List Char}

theorem gives_natural : Gives (l.natural s) fun n => numeral? s = some n := by
  unfold Line.natural
  cases h : number? (trim s) with
  | none => exact .error
  | some n => exact .ok h

theorem gives_stateNumber {q : Nat} : Gives (l.stateNumber size q) fun _ => q < size := by
  unfold Line.stateNumber
  split
  · exact .error
  · exact .ok (by omega)

theorem gives_readState {b : Bool} (hs : strip? "State:".toList l.text = some s) :
    Gives (readState size b l s) fun r =>
      named? l.text = some r.1 ∧ r.2 = (b || s.contains '{') ∧ r.1 < size := by
  unfold readState
  cases hpieces : pieces s with
  | nil => exact .error
  | cons p ps =>
    refine gives_natural.bind fun q hq => ?_
    refine gives_stateNumber.bind fun _ hlt => .pure ⟨?_, rfl, hlt⟩
    simp only [named?, hs, Option.bind_eq_bind, Option.bind_some, hpieces, List.head?_cons, hq]

theorem gives_readLabel : Gives (readLabel props l s) fun label =>
    Label.parse props (s.filter (!isBlank ·)) = .ok label := by
  unfold readLabel
  dsimp only
  cases h : Label.parse props (s.filter (!isBlank ·)) with
  | ok label => exact .ok rfl
  | error stop => exact .error

theorem gives_readMove : Gives (readMove size props l) fun r =>
    move? props l.text = some r ∧ r.2 < size ∧ r.1.Below props := by
  unfold readMove
  split
  swap
  · exact .error
  rename_i s hs
  cases hcut : cut? (· = ']') s with
  | none => exact .error
  | some parts =>
    have hlast : Gives (do
        let target ← l.natural parts.2
        l.stateNumber size target
        return (← readLabel props l parts.1, target)) fun r : Label × Nat =>
          move? props l.text = some r ∧ r.2 < size ∧ r.1.Below props := by
      refine gives_natural.bind fun target htarget => ?_
      refine gives_stateNumber.bind fun _ hlt => ?_
      refine gives_readLabel.bind fun label hlabel => .pure ⟨?_, hlt, ?_⟩
      · simp [hs, move?, hcut, hlabel, htarget, Except.toOption]
      · exact Label.gives_parse _ _ label hlabel
    dsimp only
    split
    · exact .bind_of_forall fun _ => hlast
    · exact hlast

def held (ls : List Line) : List (List Char) := (ls.map (·.text)).filter (· ≠ [])

theorem held_cons (l : Line) (ls : List Line) :
    held (l :: ls) = if l.text = [] then held ls else l.text :: held ls := by
  by_cases h : l.text = [] <;> simp [held, h]

end Lines

section Body

variable {n size last : Nat} {current : Option Nat} {q r : Nat} {label : Label} {l : List Char}
  {ls : List (List Char)}

/-- As `Hanoi.HasMove`, where state `current` was named before the lines. -/
def HasMoveFrom (n : Nat) (current : Option Nat) (ls : List (List Char)) (q : Nat) (label : Label)
    (r : Nat) : Prop :=
  ∃ before l behind, ls = before ++ l :: behind ∧
    (before.filterMap named?).getLast?.or current = some q ∧ move? n l = some (label, r)

theorem hasMoveFrom_none : HasMoveFrom n none ls q label r ↔ Hanoi.HasMove n ls q label r := by
  simp only [HasMoveFrom, Hanoi.HasMove, Option.or_none]

theorem not_hasMoveFrom_nil : ¬HasMoveFrom n current [] q label r := by
  rintro ⟨before, l, behind, h, -⟩
  simp at h

theorem hasMoveFrom_cons : HasMoveFrom n current (l :: ls) q label r ↔
    (current = some q ∧ move? n l = some (label, r)) ∨
      HasMoveFrom n ((named? l).or current) ls q label r := by
  have hnamed : ∀ before : List (List Char),
      ((l :: before).filterMap named?).getLast?.or current =
        (before.filterMap named?).getLast?.or ((named? l).or current) := by
    intro before
    rw [List.filterMap_cons]
    cases named? l with
    | none => rfl
    | some p =>
      rw [List.getLast?_cons]
      cases (before.filterMap named?).getLast? <;> rfl
  constructor
  · rintro ⟨before, l', behind, heq, hlast, hmove⟩
    cases before with
    | nil =>
      obtain ⟨rfl, rfl⟩ := List.cons.inj heq
      exact .inl ⟨by simpa using hlast, hmove⟩
    | cons l'' before =>
      obtain ⟨rfl, rfl⟩ := List.cons.inj heq
      rw [hnamed] at hlast
      exact .inr ⟨before, l', behind, rfl, hlast, hmove⟩
  · rintro (⟨hcurrent, hmove⟩ | ⟨before, l', behind, rfl, hlast, hmove⟩)
    · exact ⟨[], l, ls, rfl, by simpa using hcurrent, hmove⟩
    · exact ⟨l :: before, l', behind, rfl, (hnamed before).trans hlast, hmove⟩

theorem named?_eq_none (h : strip? "State:".toList l = none) : named? l = none := by
  rw [named?, h]
  rfl

theorem move?_eq_none {s : List Char} (h : strip? "State:".toList l = some s) :
    move? n l = none := by
  cases l with
  | nil => rfl
  | cons c cs =>
    by_cases hc : c = '['
    · subst hc
      simp [strip?] at h
    · unfold move?
      split
      · rename_i heq
        exact absurd (List.cons.inj heq).1 hc
      · rfl

/-- The items are what the lines say. -/
structure Says (n size : Nat) (b : Bool) (current : Option Nat) (ls : List (List Char))
    (items : List Item) : Prop where
  marks : items.filterMap Item.state? =
    ls.filterMap fun l => (named? l).map fun q => (q, b || l.contains '{')
  moves : ∀ q label r, .move q label r ∈ items ↔ HasMoveFrom n current ls q label r
  states : ∀ q b, .state q b ∈ items → q < size
  targets : ∀ q label r, .move q label r ∈ items → q < size ∧ r < size ∧ label.Below n

section

variable {b : Bool} {items : List Item}

theorem Says.state (h : Says n size b (some q) ls items) {s : List Char} {c : Bool}
    (hstrip : strip? "State:".toList l = some s) (hnamed : named? l = some q)
    (hc : c = (b || s.contains '{')) (hq : q < size) :
    Says n size b current (l :: ls) (.state q c :: items) where
  marks := by
    have hmark : s.contains '{' = l.contains '{' := by
      rw [Text.strip?_eq_some_iff.1 hstrip, List.contains_append]
      rfl
    simp only [List.filterMap_cons, Item.state?, hnamed, Option.map_some, h.marks, hc, hmark]
  moves p label r := by
    rw [hasMoveFrom_cons, move?_eq_none hstrip, hnamed, Option.some_or, ← h.moves]
    simp
  states p c' hmem := by
    rcases List.mem_cons.1 hmem with heq | hmem
    · cases heq
      exact hq
    · exact h.states p c' hmem
  targets p label r hmem := by
    rcases List.mem_cons.1 hmem with heq | hmem
    · cases heq
    · exact h.targets p label r hmem

theorem Says.move (h : Says n size b (some q) ls items)
    (hstrip : strip? "State:".toList l = none) (hmove : move? n l = some (label, r))
    (htarget : q < size ∧ r < size ∧ label.Below n) :
    Says n size b (some q) (l :: ls) (.move q label r :: items) where
  marks := by
    simp only [List.filterMap_cons, Item.state?, named?_eq_none hstrip, Option.map_none, h.marks]
  moves p label' r' := by
    rw [hasMoveFrom_cons, hmove, named?_eq_none hstrip, Option.none_or, ← h.moves, List.mem_cons]
    simp only [Item.move.injEq, Option.some.injEq, Prod.mk.injEq]
    refine or_congr ?_ Iff.rfl
    rw [eq_comm, eq_comm (a := label'), eq_comm (a := r')]
  states p c hmem := by
    rcases List.mem_cons.1 hmem with heq | hmem
    · cases heq
    · exact h.states p c hmem
  targets p label' r' hmem := by
    rcases List.mem_cons.1 hmem with heq | hmem
    · cases heq
      exact htarget
    · exact h.targets p label' r' hmem

end

theorem gives_readItems {h : Header} : ∀ (ls : List Line) (current : Option Nat),
    (∀ q ∈ current, q < size) → Gives (readItems size h last current ls) fun items =>
      Says h.names.length size h.allAccepting current
        (upTo "--END--" (held ls)) items
  | [], _, _ => .error
  | l :: ls, current, hcurrent => by
    rw [readItems.eq_def]
    dsimp only
    split
    · rename_i hempty
      rw [held_cons, if_pos hempty]
      exact gives_readItems ls current hcurrent
    rename_i hne
    rw [held_cons, if_neg hne]
    split
    · rename_i hend
      refine .pure ?_
      rw [upTo_cons_of_eq hend]
      exact ⟨rfl, fun q label r => iff_of_false (by simp) not_hasMoveFrom_nil, by simp, by simp⟩
    rename_i hend
    rw [upTo_cons_of_ne hend]
    cases hstrip : strip? "State:".toList l.text with
    | some s =>
      refine (gives_readState hstrip).bind fun (q, b) ⟨hnamed, hb, hq⟩ => ?_
      refine (gives_readItems ls (some q) (by simpa using hq)).bind fun items hitems => .pure ?_
      exact hitems.state hstrip hnamed hb hq
    | none =>
      cases current with
      | none => exact .error
      | some q =>
        refine gives_readMove.bind fun (label, target) ⟨hmove, htarget, hlabel⟩ => ?_
        refine (gives_readItems ls (some q) hcurrent).bind fun items hitems => .pure ?_
        exact hitems.move hstrip hmove ⟨hcurrent q rfl, htarget, hlabel⟩

end Body

section Header

variable {α β : Type} {names : List String} {l : Line} {h : Header}

/-- `post` holds of what is read and of the names announced by then. No error is a fault, unless a
list is announced for which there is no room. -/
def Finds (x : Reading α) (names : List String) (post : α → List String → Prop) : Prop :=
  match x names with
  | .ok a names' => post a names'
  | .error (.error _) _ => True
  | .error (.fault f) _ => f = .oversized

variable {x : Reading α} {P : α → List String → Prop} {Q : β → List String → Prop}

theorem Finds.of_ok {a : α} {names' : List String} (h : Finds x names P)
    (hx : x names = .ok a names') : P a names' := by
  simpa only [Finds, hx] using h

theorem Finds.mono {P' : α → List String → Prop} (h : Finds x names P)
    (hP : ∀ a names', P a names' → P' a names') : Finds x names P' := by
  unfold Finds at *
  split at h
  · exact hP _ _ h
  · trivial
  · exact h

theorem Finds.pure {a : α} (h : P a names) : Finds (Pure.pure a) names P := h

theorem Finds.bind {f : α → Reading β} (h : Finds x names P)
    (hf : ∀ a names', P a names' → Finds (f a) names' Q) : Finds (x >>= f) names Q := by
  unfold Finds at h ⊢
  simp only [Bind.bind, EStateM.bind]
  cases hx : x names with
  | ok a names' =>
    rw [hx] at h
    exact hf a names' h
  | error e names' =>
    rw [hx] at h
    cases e <;> exact h

theorem Finds.ite {c : Prop} [Decidable c] {y : Reading α} (hx : c → Finds x names P)
    (hy : ¬c → Finds y names P) : Finds (if c then x else y) names P := by
  split
  · exact hx ‹_›
  · exact hy ‹_›

/-- An answer without effects. -/
theorem Finds.lift {x : Except Error α} (h : Gives x (P · names)) :
    Finds (liftM x : Reading α) names P := by
  cases x with
  | ok a => exact h a rfl
  | error e => trivial

theorem Finds.wrong {f : β → Reading α} {reason : String} :
    Finds ((l.wrong reason : Reading β) >>= f) names P := trivial

theorem finds_readNames (s : List Char) :
    Finds (readNames l s) names fun ns names' => names' = names ++ ns := by
  induction hk : s.length using Nat.strong_induction_on generalizing s names with
  | _ k ih =>
    subst hk
    rw [readNames]
    split
    · exact .pure (List.append_nil names).symm
    · rename_i cs hcs
      split
      · exact .lift .error
      · rename_i name rest hname
        have hlength : rest.length < s.length := by
          have hs := (List.dropWhile_suffix Text.isBlank (l := s)).length_le
          have := Text.length_of_unquote? hname
          rw [show s.dropWhile Text.isBlank = _ from hcs, List.length_cons] at hs
          omega
        refine Finds.bind (P := fun _ names' => names' = names ++ [String.ofList name]) rfl ?_
        rintro _ _ rfl
        refine (ih _ hlength rest rfl).bind ?_
        rintro ns _ rfl
        exact .pure (by simp)
    · exact .lift .error

theorem finds_listed (s : List Char) : Finds (Header.listed l s) names fun ns names' =>
    names' = names ++ ns ∧ count? s = some ns.length := by
  have hfirst : ((cut? isBlank s).getD (s, [])).1 = ((cut? isBlank s).map Prod.fst).getD s := by
    cases cut? isBlank s <;> rfl
  unfold Header.listed
  dsimp only
  refine Finds.bind (P := fun count names' =>
    numeral? ((cut? isBlank s).getD (s, [])).1 = some count ∧ names' = names)
    (.lift (gives_natural.mono fun n hn => ⟨hn, rfl⟩)) ?_
  rintro count _ ⟨hcount, rfl⟩
  refine .ite (fun _ => rfl) fun _ => ?_
  refine (finds_readNames _).bind ?_
  rintro ns _ rfl
  refine .ite (fun _ => .lift .error) fun hlength => .pure ⟨rfl, ?_⟩
  rw [count?, ← hfirst, hcount, not_not.1 hlength]

/-- One header line. The names that it lists are announced last. -/
structure Header.Extended (h : Header) (names : List String) (key value : List Char) (h' : Header)
    (names' : List String) : Prop where
  size : h'.size = if String.ofList key = "States" then numeral? value else h.size
  start : h'.start = if String.ofList key = "Start" then numeral? value else h.start
  allAccepting : h'.allAccepting = if String.ofList key = "Acceptance" then
    decide (pieces value = ["0".toList, "t".toList]) else h.allAccepting
  count : some h'.names.length =
    if String.ofList key = "AP" then count? value else some h.names.length
  names : h.names <:+ names → h'.names <:+ names'

/-- A line that says nothing of the fields. -/
theorem Header.Extended.other {key value : List Char} {h' : Header} (hsize : h'.size = h.size)
    (hstart : h'.start = h.start) (hall : h'.allAccepting = h.allAccepting)
    (hnames : h'.names = h.names)
    (hkey : String.ofList key ∉ ["States", "Start", "Acceptance", "AP"]) :
    h.Extended names key value h' names := by
  simp only [List.mem_cons, List.not_mem_nil, or_false, not_or] at hkey
  obtain ⟨hstates, hstart', hacceptance, hap⟩ := hkey
  refine ⟨?_, ?_, ?_, ?_, fun h => hnames ▸ h⟩
  · rw [if_neg hstates, hsize]
  · rw [if_neg hstart', hstart]
  · rw [if_neg hacceptance, hall]
  · rw [if_neg hap, hnames]

theorem pieces_eq_iff {value : List Char} {ss : List String} :
    (pieces value).map String.ofList = ss ↔ pieces value = ss.map String.toList := by
  constructor
  · rintro rfl
    simp [Function.comp_def]
  · intro h
    rw [h]
    simp [Function.comp_def]

theorem finds_extend (key value : List Char) :
    Finds (h.extend l key value) names (h.Extended names key value) := by
  unfold Header.extend
  split
  all_goals rename_i hkey
  · exact .ite (fun _ => .wrong) fun _ => .pure (.other rfl rfl rfl rfl (by rw [hkey]; decide))
  · refine Finds.bind (.lift (P := fun n names' => numeral? value = some n ∧ names' = names)
      (gives_natural.mono fun n hn => ⟨hn, rfl⟩)) ?_
    rintro n _ ⟨hn, rfl⟩
    refine .pure ⟨?_, ?_, ?_, ?_, id⟩ <;> simp [hkey, hn]
  · refine .ite (fun _ => .wrong) fun _ => ?_
    refine Finds.bind (.lift (P := fun n names' => numeral? value = some n ∧ names' = names)
      (gives_natural.mono fun n hn => ⟨hn, rfl⟩)) ?_
    rintro n _ ⟨hn, rfl⟩
    refine .pure ⟨?_, ?_, ?_, ?_, id⟩ <;> simp [hkey, hn]
  · refine (finds_listed value).bind ?_
    rintro ns _ ⟨rfl, hcount⟩
    refine .pure ⟨?_, ?_, ?_, ?_, fun _ => List.suffix_append _ _⟩ <;> simp [hkey, hcount]
  · split
    · rename_i hvalue
      refine .pure ⟨?_, ?_, ?_, ?_, id⟩ <;> simp [hkey, pieces_eq_iff.1 hvalue]
    · rename_i hvalue
      refine .pure ⟨?_, ?_, ?_, ?_, id⟩ <;> simp [hkey, pieces_eq_iff.1 hvalue]
    · exact .lift .error
  · rename_i hstates hstart hap hacceptance
    exact .pure (.other rfl rfl rfl rfl (by simp_all))

/-- What the header lines say, in addition to what was said before. -/
structure Header.Says (h : Header) (ls : List (List Char)) (h' : Header) : Prop where
  size : h'.size = ((lastValue? "States" ls).map numeral?).getD h.size
  start : h'.start = ((lastValue? "Start" ls).map numeral?).getD h.start
  allAccepting : h'.allAccepting = ((lastValue? "Acceptance" ls).map fun value =>
    decide (pieces value = ["0".toList, "t".toList])).getD h.allAccepting
  count : some h'.names.length = ((lastValue? "AP" ls).map count?).getD (some h.names.length)

theorem Header.Says.nil (h : Header) : h.Says [] h := ⟨rfl, rfl, rfl, rfl⟩

theorem getD_lastValue?_cons {γ : Type} {t : List Char} {ts : List (List Char)} {key : String}
    {k v : List Char} (ht : cut? (· = ':') t = some (k, v)) (g : List Char → γ) (c : γ) :
    ((lastValue? key (t :: ts)).map g).getD c =
      ((lastValue? key ts).map g).getD
        (if String.ofList (trim k) = key then g (trim v) else c) := by
  have hvalue : value? key t = if String.ofList (trim k) = key then some (trim v) else none := by
    rw [value?, ht]
  rw [lastValue?, List.filterMap_cons, hvalue, lastValue?]
  by_cases hkey : String.ofList (trim k) = key
  · simp only [if_pos hkey]
    rw [List.getLast?_cons]
    cases (ts.filterMap (value? key)).getLast? <;> rfl
  · simp only [if_neg hkey]

theorem Header.Extended.says {names' : List String} {h₁ h' : Header} {t : List Char}
    {ts : List (List Char)} {k v : List Char} (ht : cut? (· = ':') t = some (k, v))
    (h₁h : h.Extended names (trim k) (trim v) h₁ names') (htexts : h₁.Says ts h') :
    h.Says (t :: ts) h' where
  size := by rw [getD_lastValue?_cons ht, ← h₁h.size, htexts.size]
  start := by rw [getD_lastValue?_cons ht, ← h₁h.start, htexts.start]
  allAccepting := by rw [getD_lastValue?_cons ht, ← h₁h.allAccepting, htexts.allAccepting]
  count := by rw [getD_lastValue?_cons ht, ← h₁h.count, htexts.count]

theorem finds_readHeader : ∀ (ls : List Line) (h : Header) (names : List String),
    h.names <:+ names → Finds (readHeader h ls) names fun r names' => r.1.names <:+ names' ∧
      h.Says (upTo "--BODY--" (held ls)) r.1 ∧
      ∀ l rest, r.2 = some (l, rest) → held rest = behind "--BODY--" (held ls)
  | [], h, _, hnames => .pure ⟨hnames, .nil h, by simp⟩
  | l :: ls, h, names, hnames => by
    rw [readHeader]
    refine .ite (fun hempty => ?_) fun hne => .ite (fun hbody => ?_) fun hother => ?_
    · rw [held_cons, if_pos hempty]
      exact finds_readHeader ls h names hnames
    · rw [held_cons, if_neg hne, upTo_cons_of_eq hbody, behind_cons_of_eq hbody]
      refine .pure ⟨hnames, .nil h, ?_⟩
      rintro l' rest ⟨⟩
      rfl
    · rw [held_cons, if_neg hne, upTo_cons_of_ne hother, behind_cons_of_ne hother]
      cases hcut : cut? (· = ':') l.text with
      | none => exact .lift .error
      | some parts =>
        refine (finds_extend (trim parts.1) (trim parts.2)).bind fun h₁ names₁ h₁h => ?_
        exact (finds_readHeader ls h₁ names₁ (h₁h.names hnames)).mono
          fun r names' ⟨hr, htexts, hrest⟩ => ⟨hr, h₁h.says hcut htexts, hrest⟩

end Header

structure Of (text : String) (d : Document) : Prop where
  size : d.size = Hanoi.size text
  start : d.start = Hanoi.start text
  count : d.names.length = Hanoi.count text
  moves : ∀ q label r, .move q label r ∈ d.items ↔
    Hanoi.HasMove d.names.length (Hanoi.body text) q label r
  marks : ∃ b : Bool, (b = true ↔ Hanoi.AllAccepting text) ∧
    d.items.filterMap Item.state? = (Hanoi.body text).filterMap fun l =>
      (named? l).map fun q => (q, b || l.contains '{')

theorem getD_map_none {α β : Type} (o : Option α) (f : α → Option β) :
    (o.map f).getD none = o.bind f := by
  cases o <;> rfl

theorem map_text_numbered (texts : List (List Char)) :
    (numbered texts).map (·.text) = texts.map trim := by
  have hfst : texts.zipIdx.map Prod.fst = texts := List.zipIdx_map_fst 0 _
  rw [numbered, List.map_map, ← hfst, List.map_map, hfst]
  rfl

theorem held_numbered (texts : List (List Char)) : held (numbered texts) = contents texts := by
  rw [held, map_text_numbered, contents]

theorem finds_read (text : String) : Finds (read text) [] fun d names =>
    d.Of text ∧ d.Proper ∧ d.names <:+ names := by
  unfold read
  dsimp only
  refine (finds_readHeader (numbered (lines text.toList)) .blank [] List.nil_suffix).bind ?_
  rintro ⟨h, body⟩ names ⟨hnames, htexts, hbody⟩
  rw [held_numbered] at htexts hbody
  dsimp only at hnames htexts hbody ⊢
  refine .ite (fun _ => trivial) fun _ => ?_
  cases body with
  | none => trivial
  | some body =>
    obtain ⟨l, rest⟩ := body
    dsimp only
    cases hsize : h.size with
    | none => exact .lift .error
    | some size =>
      dsimp only
      refine .ite (fun _ => .wrong) fun hstart => ?_
      have hstart := Nat.lt_of_not_le hstart
      refine Finds.bind (.lift (P := fun items names' => names' = names ∧ Says h.names.length size
        h.allAccepting none (Hanoi.body text) items) ?_) ?_
      · rw [Hanoi.body, ← hbody l rest rfl]
        exact (gives_readItems rest none (by simp)).mono fun items hitems => ⟨rfl, hitems⟩
      rintro items _ ⟨rfl, hitems⟩
      refine .pure ⟨⟨?_, ?_, ?_, fun q label r => ?_, h.allAccepting, ?_, hitems.marks⟩,
        ⟨hstart, hitems.states, hitems.targets⟩, hnames⟩
      · have hsize' := htexts.size.trans (getD_map_none _ _)
        rw [Hanoi.size, Hanoi.header, ← hsize', hsize, Option.getD_some]
      · have hstart' := htexts.start.trans (getD_map_none _ _)
        rw [Hanoi.start, Hanoi.header, ← hstart']
      · have hcount' := htexts.count
        rw [Hanoi.count, Hanoi.header]
        cases hap : lastValue? "AP" (upTo "--BODY--" (contents (lines text.toList))) with
        | none =>
          rw [hap] at hcount'
          simpa [Header.blank] using hcount'
        | some value =>
          rw [hap, Option.map_some, Option.getD_some] at hcount'
          rw [Option.bind_some, ← hcount', Option.getD_some]
      · exact (hitems.moves q label r).trans hasMoveFrom_none
      · rw [htexts.allAccepting, Hanoi.AllAccepting, Hanoi.header]
        cases lastValue? "Acceptance" (upTo "--BODY--" (contents (lines text.toList))) with
        | none => simp [Header.blank]
        | some value => simp

variable {text : String} {d : Document}

theorem filter_filterMap_named? (c : List Char → Bool) (q : Nat) (ls : List (List Char)) :
    (ls.filterMap fun l => (named? l).map fun q => (q, c l)).filter (·.1 = q) =
      (ls.filter (named? · = some q)).map fun l => (q, c l) := by
  induction ls with
  | nil => rfl
  | cons l ls ih =>
    cases hl : named? l with
    | none => simp [hl, ih]
    | some p =>
      by_cases hp : p = q
      · simp [hl, hp, ih]
      · simp [hl, hp, ih]

theorem Of.markedLast_iff (h : d.Of text) (hregular : Hanoi.Regular text) {q : Nat} {l : List Char}
    (hl : l ∈ Hanoi.body text) (hq : named? l = some q) :
    MarkedLast d.items q ↔ Hanoi.AllAccepting text ∨ Hanoi.MarkedLast (Hanoi.body text) q := by
  obtain ⟨b, hb, hmarks⟩ := h.marks
  rw [MarkedLast, hmarks, filter_filterMap_named? fun l => b || l.contains '{', List.getLast?_map,
    Option.map_eq_some_iff]
  have hmem : l ∈ (Hanoi.body text).filter (named? · = some q) := by simp [hl, hq]
  obtain ⟨l', hlast⟩ : ∃ l', ((Hanoi.body text).filter (named? · = some q)).getLast? = some l' :=
    Option.ne_none_iff_exists'.1 (by simpa using List.ne_nil_of_mem hmem)
  have hl' := List.mem_of_getLast? hlast
  rw [List.mem_filter, decide_eq_true_eq] at hl'
  have hbrace : '{' ∈ l' ↔ Hanoi.Marked l' := by
    refine ⟨hregular l' hl'.1 (by rw [hl'.2]; rfl), fun hmarked => hmarked.subset ?_⟩
    decide
  simp only [Hanoi.MarkedLast, hlast, Option.some.injEq, exists_eq_left', Prod.mk.injEq, true_and,
    Bool.or_eq_true, hb, List.contains_iff_mem, hbrace]

theorem Of.buchi_accepts_iff (h : d.Of text) (hregular : Hanoi.Regular text) (props : List Nat)
    (w : Nat → Diagram.Assignment) :
    (Hanoi.buchi text props).Accepts w ↔ (d.buchi props).Accepts w := by
  have hmoves := h.moves
  rw [h.count] at hmoves
  have hnamed : ∀ {q label r}, Hanoi.HasMove (Hanoi.count text) (Hanoi.body text) q label r →
      (MarkedLast d.items q ↔ Hanoi.AllAccepting text ∨ Hanoi.MarkedLast (Hanoi.body text) q) := by
    rintro q label r ⟨before, l, behind, hbody, hlast, -⟩
    obtain ⟨l', hl', hq⟩ := List.mem_filterMap.1 (List.mem_of_getLast? hlast)
    exact h.markedLast_iff hregular (hbody ▸ List.mem_append_left _ hl') hq
  constructor
  · refine Buchi.Accepts.of_map id h.start.symm (fun q hq => lt_of_lt_of_eq hq h.size.symm) ?_ ?_
    · rintro q l r ⟨label, hmove, -⟩ haccepting
      exact (hnamed hmove).2 haccepting
    · rintro q l r - - ⟨label, hmove, hlabel⟩
      exact ⟨label, (hmoves q label r).2 hmove, hlabel⟩
  · refine Buchi.Accepts.of_map id h.start (fun q hq => lt_of_lt_of_eq hq h.size) ?_ ?_
    · rintro q l r ⟨label, hmove, -⟩ haccepting
      exact (hnamed ((hmoves q label r).1 hmove)).1 haccepting
    · rintro q l r - - ⟨label, hmove, hlabel⟩
      exact ⟨label, (hmoves q label r).1 hmove, hlabel⟩

end Document

end RegularArithmetic

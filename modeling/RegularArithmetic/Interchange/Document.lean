import RegularArithmetic.Failure
import RegularArithmetic.Interchange.Label
import RegularArithmetic.Text.Blank
import RegularArithmetic.Text.Quoted

/-!
Automata as text in the Hanoi format, as far as they have one start state, accepting states and
a label on every move. A header of `name: value` lines is followed by the states with their
moves. Reading a text gives a document, and the names that its header announced also when the
text is wrong further down.
-/

set_option autoImplicit false

namespace RegularArithmetic

/-- A line of the body: whether a state accepts, or a move from a state. -/
inductive Document.Item where
  | state (q : Nat) (accepting : Bool)
  | move (q : Nat) (label : Label) (target : Nat)
  deriving DecidableEq, Repr

/-- What a text describes. -/
structure Document where
  size : Nat
  start : Nat
  names : List String
  items : List Document.Item
  deriving DecidableEq, Repr

namespace Document

open Text (trim trimLeft cut? strip? pieces lines number? isBlank)

/-- Reading, with the names announced so far, which also remain when it fails. -/
abbrev Reading := EStateM Failure (List String)

/-- A text with the number of the line it stands on. -/
structure Line where
  text : List Char
  number : Nat
  deriving DecidableEq, Repr

namespace Line

/-- An error on the line. -/
def wrong {α : Type} (l : Line) (reason : String) : Except Error α :=
  .error (.format l.number reason)

/-- The number that a part of the line stands for. -/
def natural (l : Line) (s : List Char) : Except Error Nat :=
  match number? (trim s) with
  | some n => .ok n
  | none => l.wrong s!"expected a number, got `{String.ofList (trim s)}`"

def stateNumber (l : Line) (size q : Nat) : Except Error Unit :=
  if size ≤ q then l.wrong s!"state {q} out of range" else .ok ()

end Line

instance : MonadLift (Except Error) Reading where
  monadLift
    | .ok a => pure a
    | .error e => throw (.error e)

def announce (name : String) : Reading Unit :=
  modify (· ++ [name])

def readNames (l : Line) (s : List Char) : Reading (List String) :=
  match h : trimLeft s with
  | [] => return []
  | '"' :: cs =>
    match hr : Text.unquote? cs with
    | none => l.wrong "unterminated AP name"
    | some (name, rest) => do
      have : rest.length < s.length := by
        have hs : (trimLeft s).length ≤ s.length := (List.dropWhile_suffix _).length_le
        rw [h] at hs
        exact Nat.lt_trans (Text.length_of_unquote? hr) hs
      let name := String.ofList name
      announce name
      return name :: (← readNames l rest)
  | _ => l.wrong "AP names must be quoted"
termination_by s.length

/-- What the header lines have said so far. -/
structure Header where
  versioned : Bool
  size : Option Nat
  start : Option Nat
  names : List String
  allAccepting : Bool
  deriving DecidableEq, Repr

namespace Header

/-- Nothing is said. -/
def blank : Header := ⟨false, none, none, [], false⟩

/-- The names that a header line lists after their number, for which room is made at once. -/
def listed (l : Line) (value : List Char) : Reading (List String) := do
  let (count, rest) := (cut? isBlank value).getD (value, [])
  let count ← l.natural count
  if Nat.pow 2 61 ≤ count then throw (.fault .oversized)
  let names ← readNames l rest
  if names.length ≠ count then
    l.wrong s!"AP count {count} does not match {names.length} names"
  else return names

/-- Takes in one header line; names that mean nothing here are skipped. -/
def extend (h : Header) (l : Line) (key value : List Char) : Reading Header := do
  match String.ofList key with
  | "HOA" =>
    if value ≠ ['v', '1'] then l.wrong s!"unsupported version `{String.ofList value}`"
    return { h with versioned := true }
  | "States" => return { h with size := some (← l.natural value) }
  | "Start" =>
    if h.start.isSome ∨ '&' ∈ value then l.wrong "only a single start state is supported"
    return { h with start := some (← l.natural value) }
  | "AP" => return { h with names := ← listed l value }
  | "Acceptance" =>
    match (pieces value).map String.ofList with
    | ["1", "Inf(0)"] => return { h with allAccepting := false }
    | ["0", "t"] => return { h with allAccepting := true }
    | _ => l.wrong s!"unsupported acceptance `{String.ofList value}`"
  | _ => return h

end Header

/-- Reads up to the line that opens the body, and gives it with the lines behind it. -/
def readHeader (h : Header) : List Line → Reading (Header × Option (Line × List Line))
  | [] => return (h, none)
  | l :: ls => do
    if l.text = [] then readHeader h ls
    else if l.text = "--BODY--".toList then return (h, some (l, ls))
    else
      match cut? (· = ':') l.text with
      | some (key, value) => do readHeader (← h.extend l (trim key) (trim value)) ls
      | none => l.wrong "expected `name: value` header item"

def readState (size : Nat) (allAccepting : Bool) (l : Line) (s : List Char) :
    Except Error (Nat × Bool) := do
  match pieces s with
  | [] => l.wrong "missing state number"
  | q :: _ =>
    let q ← l.natural q
    l.stateNumber size q
    return (q, allAccepting || s.contains '{')

/-- The label between the brackets of a line, over so many propositions. -/
def readLabel (props : Nat) (l : Line) (s : List Char) : Except Error Label :=
  let s := s.filter (!isBlank ·)
  match Label.parse props s with
  | .ok label => .ok label
  | .error stop => l.wrong s!"{stop.reason} (at column {s.length - stop.left + 1})"

def readMove (size props : Nat) (l : Line) : Except Error (Label × Nat) := do
  match l.text with
  | '[' :: s =>
    match cut? (· = ']') s with
    | none => l.wrong "unterminated label"
    | some (label, target) =>
      if '{' ∈ target then l.wrong "transition-based acceptance is not supported"
      let target ← l.natural target
      l.stateNumber size target
      return (← readLabel props l label, target)
  | _ => l.wrong "expected an explicit label `[...]`"

/-- Reads the lines up to the end mark; moves leave the state `current`, which was named last. -/
def readItems (size : Nat) (h : Header) (last : Nat) (current : Option Nat) :
    List Line → Except Error (List Item)
  | [] => .error (.format last "missing `--END--`")
  | l :: ls => do
    if l.text = [] then readItems size h last current ls
    else if l.text = "--END--".toList then return []
    else
      match strip? "State:".toList l.text with
      | some s =>
        let (q, accepting) ← readState size h.allAccepting l s
        return .state q accepting :: (← readItems size h last (some q) ls)
      | none =>
        match current with
        | none => l.wrong "edge outside of a state"
        | some q =>
          let (label, target) ← readMove size h.names.length l
          return .move q label target :: (← readItems size h last current ls)

/-- The lines of a text, without the blanks around them, with their numbers. -/
def numbered (texts : List (List Char)) : List Line :=
  texts.zipIdx.map fun (s, i) => ⟨trim s, i + 1⟩

/-- Reads a whole text. -/
def read (text : String) : Reading Document := do
  let texts := lines text.toList
  let (h, body) ← readHeader .blank (numbered texts)
  if !h.versioned then throw <| .error (.format 1 "missing `HOA: v1` header")
  match body with
  | none => throw <| .error (.format texts.length "missing `--BODY--`")
  | some (l, ls) =>
    match h.size with
    | none => l.wrong "missing `States` header"
    | some size =>
      let start := h.start.getD 0
      if size ≤ start then l.wrong "start state out of range"
      return ⟨size, start, h.names, ← readItems size h texts.length none ls⟩

end Document

end RegularArithmetic

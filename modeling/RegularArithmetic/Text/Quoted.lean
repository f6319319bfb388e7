/-!
Text between quotation marks: a quotation mark or a backslash inside is written with a backslash
before it.
-/

set_option autoImplicit false

namespace RegularArithmetic.Text

/-- A backslash before every quotation mark and every backslash. -/
def escape : List Char → List Char
  | [] => []
  | c :: cs => if c = '"' ∨ c = '\\' then '\\' :: c :: escape cs else c :: escape cs

/-- Reads up to the closing quotation mark. A character after a backslash stands for itself;
`escaped` says that the character before was such a backslash. -/
def readQuoted? (escaped : Bool) : List Char → Option (List Char × List Char)
  | [] => none
  | c :: cs =>
    if escaped = false ∧ c = '"' then some ([], cs)
    else if escaped = false ∧ c = '\\' then readQuoted? true cs
    else (readQuoted? false cs).map fun (name, rest) => (c :: name, rest)

/-- What stands before the closing quotation mark, and what follows it. -/
def unquote? (s : List Char) : Option (List Char × List Char) := readQuoted? false s

theorem unquote?_escape (s rest : List Char) :
    unquote? (escape s ++ '"' :: rest) = some (s, rest) := by
  unfold unquote?
  induction s with
  | nil => simp [escape, readQuoted?]
  | cons c cs ih => by_cases h : c = '"' ∨ c = '\\' <;> grind [escape, readQuoted?]

theorem length_of_readQuoted? {escaped : Bool} {s name rest : List Char}
    (h : readQuoted? escaped s = some (name, rest)) : rest.length < s.length := by
  induction s generalizing escaped name with
  | nil => simp [readQuoted?] at h
  | cons c cs ih =>
    rw [readQuoted?] at h
    split at h
    · simp_all
    · split at h
      · exact Nat.lt_succ_of_lt (ih h)
      · obtain ⟨⟨n, r⟩, hr, e⟩ := Option.map_eq_some_iff.1 h
        cases e
        exact Nat.lt_succ_of_lt (ih hr)

theorem length_of_unquote? {s name rest : List Char} (h : unquote? s = some (name, rest)) :
    rest.length < s.length :=
  length_of_readQuoted? h

def escaped (s : String) : String := String.ofList (escape s.toList)

def quoted (s : String) : String := "\"" ++ escaped s ++ "\""

end RegularArithmetic.Text

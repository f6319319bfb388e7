import RegularArithmetic.Text.Hidden

/-!
Text as it is shown in descriptions: between quotation marks, with what cannot be seen written
by its number.
-/

set_option autoImplicit false

namespace RegularArithmetic.Text

def hexadecimal (n : Nat) : String := String.ofList (Nat.toDigits 16 n)

def printableChar (c : Char) : String :=
  match c with
  | '\x00' => "\\0"
  | '\t' => "\\t"
  | '\n' => "\\n"
  | '\r' => "\\r"
  | '"' => "\\\""
  | '\\' => "\\\\"
  | c =>
    if isHidden c then "\\u\x7b" ++ hexadecimal c.toNat ++ "\x7d"
    else c.toString

def printable (s : String) : String :=
  "\"" ++ String.join (s.toList.map printableChar) ++ "\""

end RegularArithmetic.Text

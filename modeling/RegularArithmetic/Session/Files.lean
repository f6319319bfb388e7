import RegularArithmetic.Failure

/-!
The files of a session, in one directory. A file that is not there cannot be read, and what is
not the name of a file can be neither read nor written.
-/

set_option autoImplicit false

namespace RegularArithmetic

/-- The texts of the files by their names. -/
structure Files where
  texts : List (String × String)
  deriving DecidableEq, Repr

namespace Files

def empty : Files := ⟨[]⟩

/-- A file name has at most 255 bytes, and two names are the directory's own. -/
def isName (name : String) : Bool :=
  name.utf8ByteSize ≤ 255 && name ≠ "." && name ≠ ".." && !name.contains '\x00'

/-- The file that a path from the directory leads to, if it does not leave the directory. -/
def locate? (path : String) : Option String :=
  if path.front = '/' then none
  else
    match (path.splitOn "/").dropWhile fun step => step = "" ∨ step = "." with
    | [name] => if isName name then some name else none
    | _ => none

/-- The text of a file. -/
def read (f : Files) (path : String) : Except Error String :=
  match (locate? path).bind fun name => f.texts.lookup name with
  | some text => .ok text
  | none => .error .file

/-- The files with one of them written, in place of what it held. -/
def write (f : Files) (path text : String) : Except Error Files :=
  match locate? path with
  | some name => .ok ⟨(name, text) :: f.texts.filter (·.1 ≠ name)⟩
  | none => .error .file

end Files

end RegularArithmetic

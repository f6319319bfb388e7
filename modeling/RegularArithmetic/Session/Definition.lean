import RegularArithmetic.Expression.Outline
import RegularArithmetic.Program.Definition

/-!
What a session is made of: definitions, directives and assertions, each with a short
description.
-/

set_option autoImplicit false

namespace RegularArithmetic

/-- A step of a session. The last two stand for further definitions, which depend on whether a
predicate is defined by then, and on whether a formula holds. -/
inductive Definition where
  | predicate (q : Predicate)
  | restrict (vars : List String) (name : String) (params : List Expr)
  | forget (vars : List String)
  | declaration (d : Declaration)
  | context (name target : String)
  | assertion (expected : Truth) (name : String)
  | save (name file : String)
  | load (file name : String) (args : List String)
  | nested (ds : List Definition)
  | ifDefined (name : String) (yes no : List Definition)
  | byTruth (x : Expr) (always never sometimes : List Definition)

namespace Definition

/-- The parts with commas between them. -/
def listed (parts : List String) : String := ", ".intercalate parts

def nameList (names : List String) : String := listText (names.map Text.printable)

/-- What kind of step it is, and what it is about. -/
def description : Definition → String
  | predicate q => s!"Predicate({q.name}({listed q.args}))"
  | restrict vars name params =>
    s!"Restrict({nameList vars}, {name}, {listText (params.map Expr.outline)})"
  | forget vars => s!"Forget({nameList vars})"
  | declaration d => s!"Type({d.shape.text})"
  | context name target => s!"Context({name} -> {target})"
  | assertion expected name => s!"AssertProp({name} is {expected.text})"
  | save name file => s!"Save({name} -> {file})"
  | load file name args => s!"Load({name} <- {file}, {nameList args})"
  | nested ds => s!"Import({ds.length} definitions)"
  | ifDefined .. => "Generate"
  | byTruth .. => "Generate"

end Definition

end RegularArithmetic

import RegularArithmetic.Interchange.Reader
import RegularArithmetic.Interchange.Writer
import RegularArithmetic.Session.Definition
import RegularArithmetic.Session.Files
import RegularArithmetic.Session.Report

/-!
Running the definitions of a session in order. They build up its program and its report; a
nested list of definitions runs in a program of its own over the same alphabet, of which the
session keeps what was defined.
-/

set_option autoImplicit false

namespace RegularArithmetic

structure Session where
  workspace : Workspace
  report : Report
  files : Files

namespace Session

/-- A computation of a session. -/
abbrev M := EStateM Failure Session

instance : MonadLift Program.M M where
  monadLift x := fun ⟨workspace, report, files⟩ =>
    match x workspace with
    | .ok r workspace => .ok r ⟨workspace, report, files⟩
    | .error e workspace => .error e ⟨workspace, report, files⟩

instance : MonadLift (Except Error) M where
  monadLift
    | .ok r => pure r
    | .error e => throw (.error e)

def readFile (name : String) : M String := fun s =>
  match s.files.read name with
  | .ok text => .ok text s
  | .error e => .error (.error e) s

def writeFile (name text : String) : M Unit := fun ⟨workspace, report, files⟩ =>
  match files.write name text with
  | .ok files => .ok () ⟨workspace, report, files⟩
  | .error e => .error (.error e) ⟨workspace, report, files⟩

def provideFile (name text : String) : M Unit :=
  tryCatch (writeFile name text) fun _ => throw (.fault .misnamedFile)

def record (a : Assertion) : M Unit := fun ⟨workspace, report, files⟩ =>
  .ok () ⟨workspace, ⟨report.assertions ++ [a]⟩, files⟩

def askAlphabet {α : Type} (q : Alphabet → Except Fault α) : Program.M α := fun w =>
  match q w.alphabet with
  | .ok r => .ok r w
  | .error e => .error (.fault e) w

/-- Restricts a variable everywhere by a call about it with further arguments. -/
def restrictVar (name : String) (params : List Expr) (v : String) : Program.M Unit :=
  Program.restrictBy (·.restrictEverywhere v ⟨name, .var v :: params⟩)

def check (expected : Truth) (name : String) : M Unit := do
  record ⟨name, expected, ← Program.predicateTruth name⟩

/-- Writes a predicate to a file, with its arguments as the names of the propositions. -/
def save (name file : String) : M Unit := do
  let (target, r) ← Program.Engine.standard.relationOf name
  let q ← Program.Engine.predicate target
  let text ← askAlphabet fun x => r.automaton.text x.diagrams (r.args.zip q.args)
  writeFile file text

/-- Writes the automaton of a predicate to a file. -/
def saveAutomaton (name file : String) : M Unit := do
  let a ← Program.automatonOf name
  let text ← askAlphabet (·.automatonText a)
  writeFile file text

def loadRelation (file : String) : M Relation := do
  let text ← readFile file
  let r ← (Automaton.ofText text : Program.M Relation)
  return r

/-- The literal for the relation that a text describes. -/
def literal (name text : String) (args : List String) : M Literal := do
  let r ← (Automaton.ofText text : Program.M Relation)
  Program.literalOf name r args

/-- Defines a predicate by a file. -/
def load (file name : String) (args : List String) : M Unit := do
  let r ← loadRelation file
  if r.args.length ≠ args.length then
    throw (.error (.arity name r.args.length args.length))
  Program.defineRelation name args r

/-- The outer program with what the inner one defined, declared and redirected. -/
def merge (outer inner : Program) : Program :=
  let p := inner.predicates.toList.foldl (fun p (_, q) => p.adopt q) outer
  let p := inner.declarations.foldl Program.addDeclaration p
  inner.context.toList.foldl (fun p (name, target) => p.setAlias name target) p

/-- A session without definitions over an alphabet, whose budget the settings decide. -/
def blank (config : Config) (alphabet : Alphabet) (files : Files) : Session :=
  ⟨⟨{ alphabet with budget := config.budget }, .blank config⟩, .empty, files⟩

def clear : Program.M Unit :=
  Program.change fun p => { p with restrictions := .none }

/-- Runs in a session of its own, which starts with the relations of base 2. The alphabet and
the files are shared; the rest is kept only if all goes well. -/
def inNested (x : M Unit) : M Unit := fun ⟨⟨alphabet, program⟩, report, files⟩ =>
  let inner : M Unit := do
    Program.installBinary
    x
    clear
  match inner (blank program.config alphabet files) with
  | .ok _ ⟨⟨alphabet, p⟩, r, files⟩ =>
    .ok () ⟨⟨alphabet, merge program p⟩, ⟨report.assertions ++ r.assertions⟩, files⟩
  | .error e ⟨⟨alphabet, _⟩, _, files⟩ => .error e ⟨⟨alphabet, program⟩, report, files⟩

mutual

def execute : Definition → M Unit
  | .predicate q => Program.define q
  | .restrict vars name params => vars.forM fun v => liftM (restrictVar name params v)
  | .forget vars => vars.forM fun v => liftM (Program.restrictBy fun r => .ok (r.forget v))
  | .declaration d => Program.change (·.addDeclaration d)
  | .context name target => Program.change (·.setAlias name target)
  | .assertion expected name => check expected name
  | .save name file => save name file
  | .load file name args => load file name args
  | .nested ds => inNested (executeAll ds)
  | .ifDefined name yes no => do
    let defined ← Program.ask (·.predicates.contains name)
    if defined then executeAll yes else executeAll no
  | .byTruth x always never sometimes => do
    match ← Program.truthOf x with
    | .always => executeAll always
    | .never => executeAll never
    | .sometimes => executeAll sometimes

def executeAll : List Definition → M Unit
  | [] => pure ()
  | d :: ds => do
    execute d
    executeAll ds

end

/-- Executes definitions in order. The restrictions are dropped once all are done. -/
def run (ds : List Definition) : M Report := do
  executeAll ds
  clear
  fun s => .ok s.report s

/-- A new session, in which the relations of base 2 are defined. -/
def start (config : Config) : Except Failure Session :=
  match Alphabet.empty? config.bits with
  | .error f => .error (.fault f)
  | .ok alphabet =>
    match (Program.installBinary : M Unit) (blank config alphabet .empty) with
    | .ok _ s => .ok s
    | .error e _ => .error e

end Session

end RegularArithmetic

import TemplateTree.CommandLine.Options
import TemplateTree.CommandLine.Report
import TemplateTree.Markup.Parse
import TemplateTree.View.Edit
import TemplateTree.View.Outline

/-!
A run of the command line: from the arguments and the bytes of the template to an exit code and what
is written.
-/
namespace TemplateTree.CommandLine

/-- Why a template cannot be read. -/
inductive ReadError
  | notFound
  | notDirectory
  | isDirectory
  | nameTooLong
  | other (reason : Text)
  deriving DecidableEq, Repr

def ReadError.message : ReadError → Text
  | notFound => "No such file or directory (os error 2)".toList
  | notDirectory => "Not a directory (os error 20)".toList
  | isDirectory => "Is a directory (os error 21)".toList
  | nameTooLong => "File name too long (os error 36)".toList
  | other reason => reason

/-- Where a template comes from. -/
inductive Source
  | standardInput
  | file (path : Text)
  deriving DecidableEq, Repr

def Source.name : Source → Text
  | standardInput => "<stdin>".toList
  | file path => path

/-- What a run answers with. -/
structure Outcome where
  code : Nat
  output : Text
  errors : Text
  deriving DecidableEq, Repr

namespace Options

/-- A lone dash means standard input, as does no path. -/
def source (o : Options) : Source :=
  match o.path with
  | none => .standardInput
  | some path => if path = ['-'] then .standardInput else .file path

def config (o : Options) : Config := { maxDepth := o.maxDepth }

/-- What is written about a template that was parsed. -/
def describe (o : Options) (v : View) (s : Store) : Text :=
  let outline :=
    if o.outline then
      "outline:\n".toList ++ (v.outline s o.outlineCap).flatMap fun line => ' ' :: ' ' :: line ++ ['\n']
    else []
  let edited := match o.title with
    | none => s
    | some title => (v.setTitle s title).1
  let rendered := if o.render then v.markup edited ++ ['\n'] else []
  Report.render v s ++ outline ++ rendered

/-- Answers for the template with the given bytes. -/
def run (o : Options) (bytes : Except ReadError (List UInt8)) : Outcome :=
  let fail (what reason : Text) : Outcome :=
    ⟨1, [], "error: failed to ".toList ++ what ++ ' ' :: o.source.name ++ ": ".toList ++ reason ++ ['\n']⟩
  match bytes with
  | .error e => fail "read".toList e.message
  | .ok bytes =>
    match Markup.parseBytes o.config bytes with
    | .error e => fail "parse".toList e.message
    | .ok markup =>
      let (v, s) := Store.empty.plantView markup.forest
      ⟨0, o.describe v s, []⟩

end Options

/-- Answers for arguments that cannot be used. -/
def UsageError.outcome (e : UsageError) : Outcome := ⟨2, [], "error: ".toList ++ e.message ++ ['\n']⟩

end TemplateTree.CommandLine

import TemplateTree.Text.Basic

/-!
Arguments of the command line. Options begin with two dashes and take a value after `=` or as the
next argument; each may be given once. One argument that is no option names the template.
-/
namespace TemplateTree.CommandLine

structure Options where
  path : Option Text := none
  outline : Bool := false
  outlineCap : Nat := 200
  render : Bool := false
  title : Option Text := none
  maxDepth : Nat := 512
  deriving DecidableEq, Repr

/-- What is wrong with the arguments. -/
inductive UsageError
  | unknownOption (argument : Text)
  | missingValue (option : Text)
  | unwantedValue (option : Text)
  | badNumber (option value : Text)
  | repeated (option : Text)
  | emptyPath
  | secondPath (argument : Text)
  deriving DecidableEq, Repr

namespace UsageError

def message : UsageError → Text
  | unknownOption argument => "unexpected argument ".toList ++ argument
  | missingValue option => "a value is required for ".toList ++ option
  | unwantedValue option => "no value is expected for ".toList ++ option
  | badNumber option value =>
    "invalid value for ".toList ++ option ++ ": ".toList ++ value
  | repeated option => option ++ " cannot be used more than once".toList
  | emptyPath => "the path is empty".toList
  | secondPath argument => "unexpected argument ".toList ++ argument

end UsageError

/-- The options by name. -/
inductive Key
  | outline
  | outlineCap
  | render
  | title
  | maxDepth
  deriving DecidableEq, Repr

namespace Key

def name : Key → Text
  | outline => "--outline".toList
  | outlineCap => "--outline-cap".toList
  | render => "--render".toList
  | title => "--set-title".toList
  | maxDepth => "--max-depth".toList

def ofName? (name : Text) : Option Key :=
  [outline, outlineCap, render, title, maxDepth].find? (·.name = name)

def takesValue : Key → Bool
  | outline | render => false
  | _ => true

end Key

/-- A number below 2^64, in digits after an optional plus sign. -/
def number? (t : Text) : Option Nat :=
  let digits := match t with
    | '+' :: r => r
    | t => t
  if digits ≠ [] ∧ digits.all Char.isDigit then
    let n := digits.foldl (fun n c => n * 10 + (c.toNat - '0'.toNat)) 0
    if n < UInt64.size then some n else none
  else none

/-- An argument that can be a value by itself: a dash only by itself. -/
def isPlain : Text → Bool
  | '-' :: _ :: _ => false
  | _ => true

namespace Options

/-- Sets an option; a flag has no value. -/
def set (o : Options) (key : Key) (value : Text) : Except UsageError Options :=
  match key, number? value with
  | .outline, _ => .ok { o with outline := true }
  | .render, _ => .ok { o with render := true }
  | .title, _ => .ok { o with title := some value }
  | .outlineCap, some n => .ok { o with outlineCap := n }
  | .maxDepth, some n => .ok { o with maxDepth := n }
  | _, none => .error (.badNumber key.name value)

def setPath (o : Options) (path : Text) : Except UsageError Options :=
  if path = [] then .error .emptyPath
  else if o.path.isSome then .error (.secondPath path)
  else .ok { o with path := some path }

/-- Arguments after a lone `--`, which are paths whatever they look like. -/
def readPaths (o : Options) : List Text → Except UsageError Options
  | [] => .ok o
  | a :: r => do readPaths (← o.setPath a) r

/-- Reads arguments; the keys in `seen` have been given. -/
def read (o : Options) (seen : List Key) : List Text → Except UsageError Options
  | [] => .ok o
  | a :: r =>
    if a = "--".toList then o.readPaths r
    else if isPlain a then do read (← o.setPath a) seen r
    else
      let name := a.takeWhile (· ≠ '=')
      let attached := a.dropWhile (· ≠ '=')
      match Key.ofName? name with
      | none => .error (.unknownOption a)
      | some key =>
        if key ∈ seen then .error (.repeated name)
        else if key.takesValue then
          match attached, r with
          | _ :: value, later => do read (← o.set key value) (key :: seen) later
          | [], value :: later =>
            if isPlain value then do read (← o.set key value) (key :: seen) later
            else .error (.missingValue name)
          | [], [] => .error (.missingValue name)
        else if attached = [] then do read (← o.set key []) (key :: seen) r
        else .error (.unwantedValue name)

def ofArguments (arguments : List Text) : Except UsageError Options := read {} [] arguments

end Options
end TemplateTree.CommandLine

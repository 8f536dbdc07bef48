import TemplateTree.CommandLine.Run

/-!
The program: reads a template from a file or from standard input and answers with a report.
-/
namespace TemplateTree.CommandLine

/-- The bytes of a source, or why they cannot be read. -/
def Source.read : Source → IO (Except ReadError (List UInt8))
  | .standardInput => do
    let bytes ← (← IO.getStdin).readBinToEnd
    return .ok bytes.toList
  | .file path => do
    try
      let bytes ← IO.FS.readBinFile (String.ofList path)
      return .ok bytes.toList
    catch
      | .noFileOrDirectory .. => return .error .notFound
      -- A directory can be opened but not read; what is opened below a file is refused by its name.
      | .inappropriateType none .. => return .error .isDirectory
      | .inappropriateType (some _) .. => return .error .notDirectory
      | .invalidArgument (some _) .. => return .error .nameTooLong
      | e => return .error (.other e.toString.toList)

/-- Reads the template that the arguments ask for. -/
def outcomeOf (arguments : List Text) : IO Outcome := do
  match Options.ofArguments arguments with
  | .error e => return e.outcome
  | .ok options => return options.run (← options.source.read)

end TemplateTree.CommandLine

def main (arguments : List String) : IO UInt32 := do
  let outcome ← TemplateTree.CommandLine.outcomeOf (arguments.map String.toList)
  IO.print (String.ofList outcome.output)
  IO.eprint (String.ofList outcome.errors)
  return UInt32.ofNat outcome.code

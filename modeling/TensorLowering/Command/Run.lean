import TensorLowering.Command.Arguments
import TensorLowering.Command.Sample
import TensorLowering.Lowering.Sparse
import TensorLowering.Machine.Lookup

/-!
# Running a request

Each request is answered by an exit code and the texts for the two output streams. Files are read
through the reader that is passed in; nothing else of the world is consulted.
-/

namespace TensorLowering

namespace Command

/-- What a run leaves behind. -/
structure Output where
  exit : Nat
  stdout : String := ""
  stderr : String := ""
deriving DecidableEq

/-- One line of text. -/
def line (text : String) : String := text ++ "\n"

/-- Lines of text, one for each item. -/
def linesOf {α : Type} (render : α → String) : List α → String
  | [] => ""
  | item :: rest => line (render item) ++ linesOf render rest

/-- The listing of entry points and codes. -/
def abiListing : String :=
  line "entry points:"
    ++ linesOf (fun entry => "  " ++ Text.padTo 18 entry.name ++ " " ++ entry.signature)
      EntryPoint.all
    ++ line "\nprimary types:"
    ++ linesOf (fun primary => "  " ++ Text.padTo 4 primary.suffix ++ " " ++ toString primary.code)
      Primary.all
    ++ line "\noverhead types:"
    ++ linesOf (fun overhead => "  " ++ Text.padTo 4 overhead.name ++ " " ++ toString overhead.code)
      Overhead.all
    ++ line "\ndimension level types:"
    ++ linesOf (fun level => "  " ++ level.name ++ " " ++ toString level.code) Level.all
    ++ line "\nactions:"
    ++ linesOf (fun action => "  " ++ Text.padTo 12 action.name ++ " " ++ toString action.code)
      Action.all

/-- The lines that report a diagnostic with its notes and help. -/
def report (diagnostic : Diagnostic) : String :=
  line ("error: " ++ diagnostic.message)
    ++ linesOf (fun note => "  note: " ++ note) diagnostic.notes
    ++ linesOf (fun help => "  help: " ++ help) diagnostic.help.toList

/-- The listing of a machine, or the report why there is none. -/
def showMachine (found : Description.Finding) : Output :=
  match found.result with
  | .ok machine => { exit := 0, stdout := line machine.render }
  | .error diagnostic => { exit := 1, stderr := report diagnostic }

/-- The machine of a request. -/
def findMachine (read : FileReader) (source : MachineSource) (variant : Variant) :
    Description.Finding :=
  match source with
  | .named name => Machine.resolve read name variant
  | .file path => Machine.load read path

/-- The sample program before and after lowering. -/
def demo (unsupported : Bool) : Except Halt Output := do
  let program ← Halt.guard [] (sample unsupported)
  let before ← Halt.guard [] program.render
  let input := line ("// input\n" ++ before ++ "\n")
  let outcome ← Lowering.lower program
  match outcome.result with
  | .ok stats =>
    let after ← Halt.guard outcome.log outcome.program.render
    return {
      exit := 0
      stdout := input ++ line ("// lowered\n" ++ after)
      stderr := line ("converted " ++ toString stats.converted ++ " ops and "
        ++ toString stats.signatures ++ " signatures") }
  | .error diagnostics =>
    return { exit := 1, stdout := input, stderr := String.join (diagnostics.map report) }

/-- The answer to a version request. -/
def versionText : String := "sparse-lower 0.1.0"

/-- The answer to a help request. -/
def helpText : String :=
  "Usage: sparse-lower [-v] <abi | target (NAME | --config FILE) | demo>\n\n"
    ++ "  abi      list the entry points and codes of the runtime library\n"
    ++ "  target   list the parameters of a machine\n"
    ++ "           [--sycl-device] [--fpga] [--windows]\n"
    ++ "  demo     lower a sample program [--unsupported]\n"

/-- Answers a request. -/
def Request.run (read : FileReader) : Request → Output
  | version => { exit := 0, stdout := line versionText }
  | help => { exit := 0, stdout := helpText }
  | abi => { exit := 0, stdout := abiListing }
  | target source variant => showMachine (findMachine read source variant)
  | demo unsupported =>
    match Command.demo unsupported with
    | .ok output => output
    | .error halt => { exit := 101, stderr := line halt.fault.message }

/-- The file that a request may read. -/
def Request.path? : Request → Option String
  | target (.file path) _ => some path
  | target (.named name) _ => some (Machine.descriptionPath name)
  | _ => none

/-- Answers a command line. -/
def run (read : FileReader) (args : List String) : Output :=
  match Request.ofArgs args with
  | .ok request => request.run read
  | .error error => { exit := 2, stderr := line ("error: " ++ error.message) }

end Command

end TensorLowering

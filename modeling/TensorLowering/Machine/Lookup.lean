import TensorLowering.Files
import TensorLowering.Machine.Description

/-!
# Looking up machines

A name is looked up among the built-in machines first, and then as a description file in the
directory `targets`. Names that could lead out of that directory are refused.
-/

namespace TensorLowering

namespace Machine

open Description

/-- Reads a machine from the description file at a path. -/
def load (read : FileReader) (path : String) : Finding :=
  match read.readText path with
  | .ok content => Description.parse path content
  | .error error =>
    { result := .error (.error
        ("cannot read target file '" ++ path ++ "': " ++ error.message) .nowhere) }

/-- Two dots in a row. -/
def hasDotDot : List Char → Bool
  | '.' :: '.' :: _ => true
  | _ :: rest => hasDotDot rest
  | [] => false

/-- Names that are empty, hidden, or contain a separator or two dots in a row are refused. -/
def validName (name : String) : Bool :=
  let text := name.toList
  !(text.isEmpty || text.contains '/' || text.contains '\\' || hasDotDot text
    || text.head? == some '.')

/-- The description file of a name, as reports show it. -/
def descriptionFile (name : String) : String := "targets/" ++ name ++ ".toml"

/-- The path of the description file of a name, from the working directory. -/
def descriptionPath (name : String) : String := "./" ++ descriptionFile name

/-- The machine of a name. The variant only matters for built-in machines. -/
def resolve (read : FileReader) (name : String) (variant : Variant) : Finding :=
  if !validName name then
    { result := .error (.error ("invalid target name '" ++ name ++ "'") .nowhere) }
  else
    match builtin? name variant with
    | some machine => { result := .ok machine, notices := [.builtin name] }
    | none =>
      let path := descriptionPath name
      if read.exist path then
        let found := load read path
        { found with notices := .load path :: found.notices }
      else
        { result := .error ((Diagnostic.error
            ("unknown target '" ++ name ++ "' (looked for '" ++ descriptionFile name ++ "')")
            .nowhere).withHelp "available targets: spir, spir64") }

end Machine

end TensorLowering

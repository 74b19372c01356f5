import TensorLowering.Diagnostic
import TensorLowering.Machine.Basic
import TensorLowering.Text.Blank
import TensorLowering.Text.Lines
import TensorLowering.Text.Number

/-!
# Description files

A description file derives a machine from a built-in one. It has headings in brackets and settings
`key = value` under them; blank lines and lines that start with a hash are skipped. Reading stops at
the first line that is neither, or whose value does not fit its key. Keys that are not known are
ignored and noted. A later setting of a key replaces an earlier one, and changes of single address
spaces apply, in order, after the choice of the whole map.
-/

namespace TensorLowering

namespace Description

/-- What one line of a file is. -/
inductive Line where
  | skipped
  | heading (title : List Char)
  | setting (key value : List Char)
  | malformed
deriving DecidableEq

/-- Reads a line whose blanks at both ends are gone. -/
def Line.ofTrimmed (text : List Char) : Line :=
  if text.isEmpty || text.head? == some '#' then
    .skipped
  else if text.head? == some '[' && text.getLast? == some ']' then
    .heading (Text.trim text.tail.dropLast)
  else
    match Text.splitFirst? '=' text with
    | none => .malformed
    | some (key, value) => .setting (Text.trim key) (Text.trim value)

/-- Why a file does not describe a machine. -/
inductive Defect where
  | malformed (text : String)
  | badNumber (what value : String)
  | badFlag (what value : String)
  | unknownSpace (name : String)
  | missingName
  | missingBase
  | unknownBase (name : String)
deriving DecidableEq

namespace Defect

/-- The wording of a defect. -/
def message : Defect → String
  | malformed text => "expected 'key = value', found '" ++ text ++ "'"
  | badNumber what value => "invalid " ++ what ++ ": " ++ value
  | badFlag what value => "invalid " ++ what ++ ": " ++ value ++ " (expected true or false)"
  | unknownSpace name => "unknown address space '" ++ name ++ "'"
  | missingName => "missing target.name"
  | missingBase => "missing target.base"
  | unknownBase name => "unknown base target '" ++ name ++ "' (expected 'spir' or 'spir64')"

/-- Advice on a defect. -/
def help? : Defect → Option String
  | unknownBase _ => some "a target file derives from a built-in target"
  | _ => none

/-- The report of a defect in the file of the given path. -/
def diagnostic (defect : Defect) (path : String) (span : Span) : Diagnostic :=
  { Diagnostic.error (path ++ ": " ++ defect.message) span with help := defect.help? }

end Defect

/-- What a valid setting asks for. -/
inductive Setting where
  | name (text : String)
  | base (text : String)
  | syclDevice (flag : Bool)
  | xilinxFpga (flag : Bool)
  | windows (flag : Bool)
  | dataLayout (text : String)
  | longWidth (width : Nat)
  | maxAtomicInlineWidth (width : Nat)
  | defaultIsGeneric (flag : Bool)
  | space (space : AddressSpace) (number : Nat)
deriving DecidableEq

/-- The text of a value without the quotation marks around it. -/
def textValue (value : List Char) : String := String.ofList (Text.unquote value)

/-- Reads a value that must be a number. -/
def numberValue (what : String) (value : List Char) : Except Defect Nat :=
  match Text.word32? value with
  | some number => .ok number
  | none => .error (.badNumber what (String.ofList value))

/-- Reads a value that must be a flag. -/
def flagValue (what : String) (value : List Char) : Except Defect Bool :=
  if value = "true".toList then .ok true
  else if value = "false".toList then .ok false
  else .error (.badFlag what (String.ofList value))

/-- Reads the number of the address space that a key names. -/
def spaceValue (key : String) (value : List Char) : Except Defect Setting :=
  match AddressSpace.ofName? key with
  | none => .error (.unknownSpace key)
  | some space => do
    let number ← numberValue ("address_space." ++ space.name) value
    return .space space number

/-- Reads a setting under a heading; nothing comes of a key that is not known. -/
def Setting.read (title key : String) (value : List Char) : Except Defect (Option Setting) :=
  match title, key with
  | "target", "name" => .ok (some (.name (textValue value)))
  | "target", "base" => .ok (some (.base (textValue value)))
  | "options", "sycl_device" => do
    return some (.syclDevice (← flagValue "options.sycl_device" value))
  | "options", "xilinx_fpga" => do
    return some (.xilinxFpga (← flagValue "options.xilinx_fpga" value))
  | "options", "windows" => do
    return some (.windows (← flagValue "options.windows" value))
  | "layout", "data_layout" => .ok (some (.dataLayout (textValue value)))
  | "layout", "long_width" => do
    return some (.longWidth (← numberValue "layout.long_width" value))
  | "layout", "max_atomic_inline_width" => do
    return some (.maxAtomicInlineWidth (← numberValue "layout.max_atomic_inline_width" value))
  | "address_space", "default_is_generic" => do
    return some (.defaultIsGeneric (← flagValue "address_space.default_is_generic" value))
  | "address_space", key => do
    return some (← spaceValue key value)
  | _, _ => .ok none

/-- The settings collected so far. -/
structure Draft where
  /-- The heading that the next settings stand under. -/
  title : String := ""
  name : String := ""
  base : String := ""
  baseSpan : Span := .nowhere
  variant : Variant := {}
  dataLayout : Option String := none
  longWidth : Option Nat := none
  maxAtomicInlineWidth : Option Nat := none
  defaultIsGeneric : Option Bool := none
  spaces : List (AddressSpace × Nat) := []
  /-- Headings and keys of the settings that were ignored. -/
  ignored : List (String × String) := []
deriving DecidableEq

/-- Takes a setting into account. -/
def Draft.apply (draft : Draft) (span : Span) : Setting → Draft
  | .name text => { draft with name := text }
  | .base text => { draft with base := text, baseSpan := span }
  | .syclDevice flag => { draft with variant := { draft.variant with syclDevice := flag } }
  | .xilinxFpga flag => { draft with variant := { draft.variant with xilinxFpga := flag } }
  | .windows flag => { draft with variant := { draft.variant with windows := flag } }
  | .dataLayout text => { draft with dataLayout := some text }
  | .longWidth width => { draft with longWidth := some width }
  | .maxAtomicInlineWidth width => { draft with maxAtomicInlineWidth := some width }
  | .defaultIsGeneric flag => { draft with defaultIsGeneric := some flag }
  | .space space number => { draft with spaces := draft.spaces ++ [(space, number)] }

/-- Reads one line, whose trimmed text and span are given. -/
def Draft.readLine (draft : Draft) (text : List Char) (span : Span) : Except Defect Draft :=
  match Line.ofTrimmed text with
  | .skipped => .ok draft
  | .malformed => .error (.malformed (String.ofList text))
  | .heading title => .ok { draft with title := String.ofList title }
  | .setting key value => do
    let key := String.ofList key
    match ← Setting.read draft.title key value with
    | some setting => return draft.apply span setting
    | none => return { draft with ignored := draft.ignored ++ [(draft.title, key)] }

/-- The span of the trimmed text of a line that starts at the given offset. Offsets are words of 32
bits. -/
def lineSpan (offset : Nat) (line : List Char) : Span :=
  let start := offset + Text.byteSize (line.takeWhile Text.isBlank)
  ⟨0, start % UInt32.size, (start + Text.byteSize (Text.trim line)) % UInt32.size⟩

/-- Reads lines in order, the first of which starts at the given offset. The draft so far comes
with the defect and span of the line that ended the reading, if one did. -/
def Draft.readLines (draft : Draft) (offset : Nat) :
    List (List Char) → Draft × Option (Defect × Span)
  | [] => (draft, none)
  | line :: rest =>
    let span := lineSpan offset line
    match draft.readLine (Text.trim line) span with
    | .error defect => (draft, some (defect, span))
    | .ok draft => draft.readLines (offset + Text.byteSize line) rest

/-- The machine that a complete draft describes. -/
def Draft.machine (draft : Draft) : Except (Defect × Span) Machine :=
  if draft.name.isEmpty then .error (.missingName, .nowhere)
  else if draft.base.isEmpty then .error (.missingBase, .nowhere)
  else
    match Machine.builtin? draft.base draft.variant with
    | none => .error (.unknownBase draft.base, draft.baseSpan)
    | some base =>
      let named := { base with
        name := draft.name
        dataLayout := draft.dataLayout.getD base.dataLayout
        longWidth := draft.longWidth.getD base.longWidth
        maxAtomicInlineWidth := draft.maxAtomicInlineWidth.getD base.maxAtomicInlineWidth }
      let moded := match draft.defaultIsGeneric with
        | some generic => named.setMode generic
        | none => named
      .ok (draft.spaces.foldl (fun machine entry => machine.setSpace entry.1 entry.2) moded)

/-- Something worth recording while a machine is looked up. -/
inductive Notice where
  /-- A setting with an unknown key, under its heading. -/
  | ignored (title key : String)
  | builtin (name : String)
  | load (path : String)
deriving DecidableEq

/-- A machine or the reason why there is none, with what was noticed on the way. -/
structure Finding where
  result : Except Diagnostic Machine
  notices : List Notice := []

/-- Reads the content of a description file. The path only serves the reports. -/
def parse (path content : String) : Finding :=
  let (draft, stopped) := Draft.readLines {} 0 (Text.lines content.toList)
  let result := match stopped with
    | some (defect, span) => .error (defect.diagnostic path span)
    | none =>
      match draft.machine with
      | .error (defect, span) => .error (defect.diagnostic path span)
      | .ok machine => .ok machine
  { result, notices := draft.ignored.map fun entry => .ignored entry.1 entry.2 }

end Description

end TensorLowering

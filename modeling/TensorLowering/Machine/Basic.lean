import TensorLowering.Machine.AddressSpace
import TensorLowering.Text.Layout

/-!
# Machine descriptions

The parameters of the virtual machines that programs are compiled for. Two machines are built in;
each comes in variants for device code, for one kind of hardware and for one host system.
-/

namespace TensorLowering

/-- Ways to call a function. -/
inductive CallConv where
  | c
  | x86StdCall
  | x86FastCall
  | x86VectorCall
  | spirFunction
  | openclKernel
deriving DecidableEq

namespace CallConv

/-- All calling conventions. -/
def all : List CallConv :=
  [c, x86StdCall, x86FastCall, x86VectorCall, spirFunction, openclKernel]

/-- The name of a calling convention. -/
def name : CallConv → String
  | c => "c"
  | x86StdCall => "x86_stdcall"
  | x86FastCall => "x86_fastcall"
  | x86VectorCall => "x86_vectorcall"
  | spirFunction => "spir_function"
  | openclKernel => "opencl_kernel"

end CallConv

/-- The integer types that stand for sizes and pointer differences. -/
inductive IntType where
  | int
  | unsignedInt
  | long
  | unsignedLong
  | longLong
  | unsignedLongLong
deriving DecidableEq

/-- The name of an integer type. -/
def IntType.name : IntType → String
  | int => "int"
  | unsignedInt => "unsigned int"
  | long => "long"
  | unsignedLong => "unsigned long"
  | longLong => "long long"
  | unsignedLongLong => "unsigned long long"

/-- Switches that vary a built-in machine. -/
structure Variant where
  /-- Device code, whose unannotated pointers are generic. -/
  syclDevice : Bool := false
  /-- Hardware with a data layout of its own. -/
  xilinxFpga : Bool := false
  /-- The conventions of a Windows host. -/
  windows : Bool := false
deriving DecidableEq

/-- The parameters of a machine. Widths are in bits. -/
structure Machine where
  name : String
  pointerWidth : Nat
  longWidth : Nat
  sizeType : IntType
  ptrDiffType : IntType
  /-- Zero if atomic operations are never done inline. -/
  maxAtomicInlineWidth : Nat
  dataLayout : String
  addressMap : AddressMap
  tlsSupported : Bool
  vlaSupported : Bool
  hasFloat16 : Bool
  hasInt128 : Bool
  acceptsVectorCall : Bool

namespace Machine

/-- The data layout of the built-in machines. -/
def plainLayout : String :=
  "e-i64:64-v16:16-v24:32-v32:32-v48:64-v96:128-v192:256-v256:256-v512:512-v1024:1024-n8:16:32:64"

/-- The data layout of the 32-bit machine on its special hardware. -/
def fpgaLayout32 : String :=
  "e-m:e-p:32:32-i64:64-i128:128-i256:256-i512:512-i1024:1024-i2048:2048-i4096:4096-n8:16:32:64"
    ++ "-S128-v16:16-v24:32-v32:32-v48:64-v96:128-v192:256-v256:256-v512:512-v1024:1024"

/-- The data layout of the 64-bit machine on its special hardware. -/
def fpgaLayout64 : String :=
  "e-m:e-i64:64-i128:128-i256:256-i512:512-i1024:1024-i2048:2048-i4096:4096-n8:16:32:64"
    ++ "-S128-v16:16-v24:32-v32:32-v48:64-v96:128-v192:256-v256:256-v512:512-v1024:1024"

/-- The width of inline atomic operations, which only device code and Windows hosts have. -/
def atomicWidth (variant : Variant) (width : Nat) : Nat :=
  if variant.syclDevice || variant.windows then width else 0

/-- The 32-bit machine. -/
def spir (variant : Variant) : Machine where
  name := "spir"
  pointerWidth := 32
  longWidth := 64
  sizeType := .unsignedInt
  ptrDiffType := .int
  maxAtomicInlineWidth := atomicWidth variant 32
  dataLayout := if variant.xilinxFpga then fpgaLayout32 else plainLayout
  addressMap := .ofMode variant.syclDevice
  tlsSupported := false
  vlaSupported := false
  hasFloat16 := true
  hasInt128 := false
  acceptsVectorCall := variant.windows

/-- The 64-bit machine. -/
def spir64 (variant : Variant) : Machine where
  name := "spir64"
  pointerWidth := 64
  longWidth := if variant.windows then 32 else 64
  sizeType := if variant.windows then .unsignedLongLong else .unsignedLong
  ptrDiffType := if variant.windows then .longLong else .long
  maxAtomicInlineWidth := atomicWidth variant 64
  dataLayout := if variant.xilinxFpga then fpgaLayout64 else plainLayout
  addressMap := .ofMode variant.syclDevice
  tlsSupported := false
  vlaSupported := false
  hasFloat16 := true
  hasInt128 := false
  acceptsVectorCall := variant.windows

/-- The built-in machine of a name. -/
def builtin? (name : String) (variant : Variant) : Option Machine :=
  if name = "spir" then some (spir variant)
  else if name = "spir64" then some (spir64 variant)
  else none

/-- Takes the address map of a language mode. -/
def setMode (machine : Machine) (generic : Bool) : Machine :=
  { machine with addressMap := .ofMode generic }

/-- Changes the number of one address space. -/
def setSpace (machine : Machine) (space : AddressSpace) (number : Nat) : Machine :=
  { machine with addressMap := machine.addressMap.set space number }

/-- The one feature that every machine of the family has. -/
def hasFeature (_machine : Machine) (feature : String) : Bool := feature == "spir"

/-- Debug information numbers address spaces as the machine does. -/
def debugAddressSpace (_machine : Machine) (number : Nat) : Nat := number

/-- The machine takes a calling convention without a warning. -/
def accepts (machine : Machine) : CallConv → Bool
  | .spirFunction | .openclKernel => true
  | .x86VectorCall => machine.acceptsVectorCall
  | _ => false

/-- The calling convention of ordinary functions. -/
def defaultCallConv (_machine : Machine) : CallConv := .spirFunction

/-- The listing of the address spaces, each on a line of its own. -/
def renderSpaces (map : AddressMap) : List AddressSpace → String
  | [] => ""
  | space :: rest =>
    "\n    " ++ Text.padTo 22 space.name ++ " " ++ toString (map.get space)
      ++ renderSpaces map rest

/-- The parameters as a listing. -/
def render (machine : Machine) : String :=
  "target " ++ machine.name
    ++ "\n  pointer width:      " ++ toString machine.pointerWidth
    ++ "\n  long width:         " ++ toString machine.longWidth
    ++ "\n  size type:          " ++ machine.sizeType.name
    ++ "\n  ptrdiff type:       " ++ machine.ptrDiffType.name
    ++ "\n  max atomic inline:  " ++ toString machine.maxAtomicInlineWidth
    ++ "\n  calling convention: " ++ machine.defaultCallConv.name
    ++ "\n  data layout:        " ++ machine.dataLayout
    ++ "\n  address spaces:" ++ renderSpaces machine.addressMap AddressSpace.all

end Machine

end TensorLowering

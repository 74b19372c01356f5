import TensorLowering.Ty.Basic

/-!
# Numeric codes of the runtime library

The entry point that makes a sparse tensor is overloaded on integer codes: one for the element
type, one for each overhead width, one for each level, and one for what the call should do. The
codes are fixed by the library; zero is never the code of a supported element type.
-/

namespace TensorLowering

/-- Element types that the runtime library supports. -/
inductive Primary where
  | f64
  | f32
  | i64
  | i32
  | i16
  | i8
deriving DecidableEq

namespace Primary

/-- All supported element types, by increasing code. -/
def all : List Primary := [f64, f32, i64, i32, i16, i8]

/-- The supported element type behind a type. -/
def of? : Ty → Option Primary
  | .f64 => some f64
  | .f32 => some f32
  | .int 64 => some i64
  | .int 32 => some i32
  | .int 16 => some i16
  | .int 8 => some i8
  | _ => none

/-- The code of an element type. -/
def code : Primary → Nat
  | f64 => 1
  | f32 => 2
  | i64 => 3
  | i32 => 4
  | i16 => 5
  | i8 => 6

/-- The ending of typed entry points. -/
def suffix : Primary → String
  | f64 => "F64"
  | f32 => "F32"
  | i64 => "I64"
  | i32 => "I32"
  | i16 => "I16"
  | i8 => "I8"

/-- The type that the library stores. -/
def ty : Primary → Ty
  | f64 => .f64
  | f32 => .f32
  | i64 => .int 64
  | i32 => .int 32
  | i16 => .int 16
  | i8 => .int 8

/-- The code of a type, zero if the library does not support it. -/
def codeOf (ty : Ty) : Nat := ((of? ty).map code).getD 0

end Primary

/-- Integers that the pointer and index arrays hold. -/
inductive Overhead where
  | u64
  | u32
  | u16
  | u8
deriving DecidableEq

namespace Overhead

/-- All overhead integers, by increasing code. -/
def all : List Overhead := [u64, u32, u16, u8]

/-- The integer for a width; any width without one of its own, the native one included, takes 64
bits. -/
def ofWidth : Nat → Overhead
  | 32 => u32
  | 16 => u16
  | 8 => u8
  | _ => u64

/-- The code of an overhead integer. -/
def code : Overhead → Nat
  | u64 => 1
  | u32 => 2
  | u16 => 3
  | u8 => 4

/-- The name of an overhead integer. -/
def name : Overhead → String
  | u64 => "u64"
  | u32 => "u32"
  | u16 => "u16"
  | u8 => "u8"

end Overhead

/-- All level storages, by increasing code. -/
def Level.all : List Level := [.dense, .compressed, .singleton]

/-- The code of a level storage. -/
def Level.code : Level → Nat
  | .dense => 0
  | .compressed => 1
  | .singleton => 2

/-- What the library does with the pointer it is given. -/
inductive Action where
  /-- Read the source that the pointer names. -/
  | fromMetadata
  /-- Take over the dense data behind the pointer. -/
  | fromData
deriving DecidableEq

namespace Action

/-- All actions, by increasing code. -/
def all : List Action := [fromMetadata, fromData]

/-- The code of an action. -/
def code : Action → Nat
  | fromMetadata => 0
  | fromData => 1

/-- The name of an action. -/
def name : Action → String
  | fromMetadata => "FromMetadata"
  | fromData => "FromData"

end Action

end TensorLowering

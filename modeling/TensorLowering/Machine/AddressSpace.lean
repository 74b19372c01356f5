/-!
# Address spaces

Source languages name address spaces; a machine numbers them. A map gives the number of each name.
-/

namespace TensorLowering

/-- The address spaces of the source languages. -/
inductive AddressSpace where
  | default
  | openclGlobal
  | openclLocal
  | openclConstant
  | openclPrivate
  | openclGeneric
  | openclGlobalDevice
  | openclGlobalHost
  | cudaDevice
  | cudaConstant
  | cudaShared
  | syclGlobal
  | syclGlobalDevice
  | syclGlobalHost
  | syclLocal
  | syclPrivate
  | ptr32Sptr
  | ptr32Uptr
  | ptr64
deriving DecidableEq

namespace AddressSpace

/-- All address spaces, in the order of tables. -/
def all : List AddressSpace :=
  [default, openclGlobal, openclLocal, openclConstant, openclPrivate, openclGeneric,
    openclGlobalDevice, openclGlobalHost, cudaDevice, cudaConstant, cudaShared, syclGlobal,
    syclGlobalDevice, syclGlobalHost, syclLocal, syclPrivate, ptr32Sptr, ptr32Uptr, ptr64]

/-- The name of an address space in files and listings. -/
def name : AddressSpace → String
  | default => "default"
  | openclGlobal => "opencl_global"
  | openclLocal => "opencl_local"
  | openclConstant => "opencl_constant"
  | openclPrivate => "opencl_private"
  | openclGeneric => "opencl_generic"
  | openclGlobalDevice => "opencl_global_device"
  | openclGlobalHost => "opencl_global_host"
  | cudaDevice => "cuda_device"
  | cudaConstant => "cuda_constant"
  | cudaShared => "cuda_shared"
  | syclGlobal => "sycl_global"
  | syclGlobalDevice => "sycl_global_device"
  | syclGlobalHost => "sycl_global_host"
  | syclLocal => "sycl_local"
  | syclPrivate => "sycl_private"
  | ptr32Sptr => "ptr32_sptr"
  | ptr32Uptr => "ptr32_uptr"
  | ptr64 => "ptr64"

/-- The address space of a name. -/
def ofName? (name : String) : Option AddressSpace := all.find? (·.name == name)

end AddressSpace

/-- The number of each address space on a machine. -/
structure AddressMap where
  get : AddressSpace → Nat

namespace AddressMap

/-- The map under which unannotated pointers are private. -/
def defaultIsPrivate : AddressMap where
  get
    | .openclGlobal => 1
    | .openclLocal => 3
    | .openclConstant => 2
    | .openclGeneric => 4
    | .openclGlobalDevice => 5
    | .openclGlobalHost => 6
    | _ => 0

/-- The map under which unannotated pointers are generic. -/
def defaultIsGeneric : AddressMap where
  get
    | .default => 4
    | .openclGlobal => 1
    | .openclConstant => 2
    | .syclGlobal => 1
    | .syclGlobalDevice => 5
    | .syclGlobalHost => 6
    | .syclLocal => 3
    | _ => 0

/-- The map for a language mode. -/
def ofMode (generic : Bool) : AddressMap := if generic then defaultIsGeneric else defaultIsPrivate

/-- Changes the number of one address space. -/
def set (map : AddressMap) (space : AddressSpace) (number : Nat) : AddressMap where
  get other := if other = space then number else map.get other

/-- The numbers in the order of tables. -/
def numbers (map : AddressMap) : List Nat := AddressSpace.all.map map.get

end AddressMap

end TensorLowering

import TensorLowering.Program.Basic

/-!
# Growing and editing a program

The ids that a step hands out are determined by the sizes of the arenas before it: `nextOp`,
`nextFunc` and `nextValues` name them, and the step itself returns the larger program only.
Replacing an operation never changes its kind or its results; the edits below touch its operands
and its erased mark.
-/

namespace TensorLowering

namespace Program

/-- The id that the next operation receives. -/
def nextOp (program : Program) : OpId := ⟨program.ops.length⟩

/-- The id that the next function receives. -/
def nextFunc (program : Program) : FuncId := ⟨program.funcs.length⟩

/-- The ids that the next values receive. -/
def nextValues (program : Program) (count : Nat) : List ValueId :=
  (List.range count).map fun i => ⟨program.values.length + i⟩

/-- Adds an operation that belongs to no block yet, with one fresh value for each result type. -/
def addOp (program : Program) (kind : OpKind) (operands : List ValueId) (types : List Ty)
    (span : Span) : Program :=
  { program with
    values := program.values ++ types.mapIdx fun i ty => ⟨ty, .result program.nextOp i⟩
    ops := program.ops ++
      [{ kind, operands, results := program.nextValues types.length, span }] }

/-- Changes the function of an id. -/
def modifyFunc (program : Program) (id : FuncId) (change : Func → Func) : Program :=
  { program with funcs := program.funcs.modify id.index change }

/-- Changes the operation of an id. -/
def modifyOp (program : Program) (id : OpId) (change : Operation → Operation) : Program :=
  { program with ops := program.ops.modify id.index change }

/-- Marks an operation as erased. -/
def eraseOp (program : Program) (id : OpId) : Program :=
  program.modifyOp id fun op => { op with erased := true }

/-- Adds an operation at the end of a block. -/
def appendOp (program : Program) (id : FuncId) (kind : OpKind) (operands : List ValueId)
    (types : List Ty) (span : Span) : Except Fault Program := do
  let func ← program.func id
  match func.body with
  | none => throw (.appendToDeclaration func.name)
  | some body =>
    let block := body ++ [program.nextOp]
    return (program.addOp kind operands types span).modifyFunc id fun func =>
      { func with body := some block }

/-- Adds a function with one fresh value for each argument, and gives it its name. -/
def insertFunc (program : Program) (name : String) (argTypes resultTypes : List Ty)
    (body : Option (List OpId)) (isPublic : Bool) : Program :=
  { program with
    values := program.values ++ argTypes.mapIdx fun i ty => ⟨ty, .argument program.nextFunc i⟩
    funcs := program.funcs ++
      [{ name, args := program.nextValues argTypes.length, argTypes, resultTypes, body, isPublic }]
    symbols := program.symbols.insert name program.nextFunc }

/-- Adds a public function with an empty block. Its name must be new. -/
def define (program : Program) (name : String) (argTypes resultTypes : List Ty) :
    Except Fault Program :=
  match program.lookupFunc? name with
  | some _ => .error (.redefinition name)
  | none => .ok (program.insertFunc name argTypes resultTypes (some []) true)

/-- Adds a private external declaration unless the name is known already. -/
def declare (program : Program) (name : String) (argTypes resultTypes : List Ty) : Program :=
  match program.lookupFunc? name with
  | some _ => program
  | none => program.insertFunc name argTypes resultTypes none false

/-- Gives one argument of a function a fresh value of the given type. The old value stays in the
arena for its remaining uses. -/
def replaceArg (program : Program) (id : FuncId) (index : Nat) (ty : Ty) : Program :=
  let fresh : ValueId := ⟨program.values.length⟩
  { program with
    values := program.values ++ [⟨ty, .argument id index⟩]
    funcs := program.funcs.modify id.index fun func =>
      { func with args := func.args.set index fresh, argTypes := func.argTypes.set index ty } }

/-- Drops the functions after the first `count`, with their names. -/
def truncateFuncs (program : Program) (count : Nat) : Program :=
  { program with
    funcs := program.funcs.take count
    symbols := (program.funcs.drop count).foldl (fun table func => table.erase func.name)
      program.symbols }

end Program

end TensorLowering

import TensorLowering.Abi.TensorBlock
import TensorLowering.Ty.Test

/-!
# Recipes: patterns as data

A recipe is a list of steps that a pattern takes one after the other. Steps refer to operands of
the root and to values that earlier steps produced. All references of a step are looked up before
its request is made.
-/

namespace TensorLowering

namespace Recipe

/-- A reference to a value. -/
inductive ValueRef where
  /-- An operand of the root after renaming. -/
  | operand (index : Nat)
  /-- An operand that the root was built with. -/
  | source (index : Nat)
  /-- A value that an earlier step produced; steps are counted from zero. -/
  | product (step index : Nat)
  | value (id : ValueId)

/-- References to several values. -/
inductive ValueRefs where
  /-- All operands of the root after renaming. -/
  | allOperands
  | list (refs : List ValueRef)

/-- A reference to a type. -/
inductive TypeRef where
  | literal (ty : Ty)
  | rootResult (index : Nat)
  | typeOf (value : ValueRef)

/-- One step of a recipe. -/
inductive Step where
  | create (kind : OpKind) (operands : ValueRefs) (types : List TypeRef)
  | createValue (kind : OpKind) (operands : ValueRefs) (ty : TypeRef)
  | declare (callee : String) (argTypes resultTypes : List TypeRef)
  | call (callee : String) (operands : ValueRefs) (types : List TypeRef)
  | replace (values : ValueRefs)
  | replaceWithNew (kind : OpKind) (operands : ValueRefs) (types : List TypeRef)
  | replaceWithCall (callee : String) (operands : ValueRefs) (types : List TypeRef)
  | intConstant (width : Nat) (value : Int)
  | intArray (width : Nat) (values : List Nat)
  | newTensor (sparsity : Sparsity) (action : Action) (pointer : ValueRef)
  | exposeBuffer (value : ValueRef)
  /-- Decline unless the type of the value passes the test. -/
  | require (value : ValueRef) (test : TypeTest)
  | decline

/-- The values that each step so far has produced. -/
abbrev Products := List (List ValueId)

/-- The value of a reference. -/
def ValueRef.resolve (site : Site) (products : Products) : ValueRef → Script ValueId
  | operand index => site.operand index
  | source index => site.source index
  | product step index => do
    let values ← Script.ofExcept (Fault.fetch products step)
    Script.ofExcept (Fault.fetch values index)
  | value id => pure id

/-- The values of several references. -/
def ValueRefs.resolve (site : Site) (products : Products) : ValueRefs → Script (List ValueId)
  | allOperands => pure site.operands
  | list refs => go refs
where
  go : List ValueRef → Script (List ValueId)
    | [] => pure []
    | ref :: rest => do
      let id ← ref.resolve site products
      let ids ← go rest
      return id :: ids

/-- The type of a reference. -/
def TypeRef.resolve (site : Site) (products : Products) : TypeRef → Script Ty
  | literal ty => pure ty
  | rootResult index => site.resultType index
  | typeOf value => do
    let id ← value.resolve site products
    Script.typeOf id

/-- The types of several references. -/
def TypeRef.resolveAll (site : Site) (products : Products) : List TypeRef → Script (List Ty)
  | [] => pure []
  | ref :: rest => do
    let ty ← ref.resolve site products
    let types ← resolveAll site products rest
    return ty :: types

/-- Takes one step; the reply is the values it produces. -/
def Step.perform (site : Site) (products : Products) : Step → Script (List ValueId)
  | create kind operands types => do
    let operands ← operands.resolve site products
    let types ← TypeRef.resolveAll site products types
    Script.create kind operands types .done
  | createValue kind operands ty => do
    let operands ← operands.resolve site products
    let ty ← ty.resolve site products
    let id ← Script.createValue kind operands ty
    return [id]
  | declare callee argTypes resultTypes => do
    let argTypes ← TypeRef.resolveAll site products argTypes
    let resultTypes ← TypeRef.resolveAll site products resultTypes
    Script.declare callee argTypes resultTypes (.done [])
  | call callee operands types => do
    let operands ← operands.resolve site products
    let types ← TypeRef.resolveAll site products types
    Script.createCall callee operands types
  | replace values => do
    let values ← values.resolve site products
    Script.replace values (.done [])
  | replaceWithNew kind operands types => do
    let operands ← operands.resolve site products
    let types ← TypeRef.resolveAll site products types
    Script.replaceWithNew kind operands types
  | replaceWithCall callee operands types => do
    let operands ← operands.resolve site products
    let types ← TypeRef.resolveAll site products types
    Script.replaceWithCall callee operands types
  | intConstant width value => do
    let id ← Script.intConstant width value
    return [id]
  | intArray width values => do
    let id ← Script.intArray width values
    return [id]
  | newTensor sparsity action pointer => do
    let pointer ← pointer.resolve site products
    site.replaceWithNewTensor sparsity action pointer
    return []
  | exposeBuffer value => do
    let value ← value.resolve site products
    let id ← site.exposeBuffer value
    return [id]
  | require value test => do
    let id ← value.resolve site products
    let ty ← Script.typeOf id
    if test.holds ty then return [] else Script.decline
  | decline => Script.decline

/-- Takes the steps in order. -/
def perform (site : Site) : Products → List Step → Script Unit
  | _, [] => pure ()
  | products, step :: rest => do
    let values ← step.perform site products
    perform site (products ++ [values]) rest

/-- The pattern that follows a recipe. -/
def pattern (name root : String) (steps : List Step) : Pattern where
  name
  root
  attempt site := perform site [] steps

end Recipe

end TensorLowering

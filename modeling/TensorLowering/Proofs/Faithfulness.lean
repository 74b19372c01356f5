import TensorLowering.Proofs.Inverses

/-!
# What a block tells apart

Two blocks are equal exactly if they were computed from the same description, up to three
conflations: an extent that only the running program knows counts as zero, no order counts as the
order of the dimensions, and all widths without an integer of their own count as one. Each part of a
block has its own encoder, and the encoders are taken one by one; that of the order is injective
because inverting twice gives the order back.
-/

namespace TensorLowering

/-- The extent, zero if it is not known. -/
def Dim.extent : Dim → Nat
  | static size => size
  | dynamic => 0

/-- The extents of a tensor or ranked buffer, zero where they are not known. -/
def Ty.extents? (ty : Ty) : Option (List Nat) := ty.shape?.map (List.map Dim.extent)

/-- The widths that have an integer of their own beside the native one. -/
def Overhead.narrowWidths : List Nat := [32, 16, 8]

/-- Two widths are the same, or neither has an integer of its own. -/
def Overhead.SameClass (width other : Nat) : Prop :=
  width = other ∨ (width ∉ narrowWidths ∧ other ∉ narrowWidths)

/-! ### The codes one by one -/

/-- Level storages have different codes. -/
theorem Level.code_injective : Function.Injective Level.code := by
  intro level other h
  cases level <;> cases other <;> first | rfl | contradiction

/-- Supported element types have different codes. -/
theorem Primary.code_injective : Function.Injective Primary.code := by
  intro primary other h
  cases primary <;> cases other <;> first | rfl | contradiction

/-- Overhead integers have different codes. -/
theorem Overhead.code_injective : Function.Injective Overhead.code := by
  intro overhead other h
  cases overhead <;> cases other <;> first | rfl | contradiction

/-- What is behind an element type is the type that the library stores. -/
theorem Primary.of?_eq_some {element : Ty} {primary : Primary} :
    of? element = some primary ↔ element = primary.ty := by
  constructor
  · intro h
    unfold of? at h
    split at h <;> cases h <;> rfl
  · intro h
    subst h
    cases primary <;> rfl

/-- Widths share an integer exactly if they are of one class. -/
theorem Overhead.ofWidth_eq_iff {width other : Nat} :
    ofWidth width = ofWidth other ↔ SameClass width other := by
  unfold ofWidth SameClass narrowWidths
  -- each width is one of the three narrow ones or none of them
  split <;> split <;> simp_all <;> omega

/-- Orders that rearrange the dimensions are told apart by their inverses. -/
theorem LevelOrder.inverse_inj {order other : LevelOrder}
    (horder : order.dims.Perm (List.range order.rank))
    (hother : other.dims.Perm (List.range other.rank)) :
    order.inverse = other.inverse ↔ order = other := by
  constructor
  · intro h
    have hdims : order.dims = other.dims := by
      rw [← inverse_inverse horder, ← inverse_inverse hother, h]
    exact congrArg LevelOrder.mk hdims
  · intro h
    rw [h]

/-! ### Whole blocks -/

namespace TensorBlock

/-- Extents are read as they stand in a block. -/
theorem sizes_eq_extents (shape : List Dim) :
    shape.map (fun dim => dim.size?.getD 0) = shape.map Dim.extent := by
  refine List.map_congr_left fun dim _ => ?_
  cases dim <;> rfl

/-- A block is a faithful description of a sparse type. Two blocks are equal exactly if the levels,
the element types and the actions are equal, the extents are equal with zero for those that are not
known, the orders are equal with that of the dimensions where none is given, and both pairs of
widths are of one class. -/
theorem encode_faithful {sparsity sparsity' : Sparsity} {ty ty' : Ty} {action action' : Action}
    {block block' : TensorBlock} (h : encode sparsity ty action = .ok block)
    (h' : encode sparsity' ty' action' = .ok block') :
    block = block' ↔ sparsity.levels = sparsity'.levels ∧ ty.extents? = ty'.extents? ∧
      sparsity.storedOrder = sparsity'.storedOrder ∧
      Overhead.SameClass sparsity.pointerWidth sparsity'.pointerWidth ∧
      Overhead.SameClass sparsity.indexWidth sparsity'.indexWidth ∧
      ty.element? = ty'.element? ∧ action = action' := by
  obtain ⟨shape, element, primary, hshape, -, horder, helement, hprimary, rfl⟩ := encode_eq_ok.mp h
  obtain ⟨shape', element', primary', hshape', -, horder', helement', hprimary', rfl⟩ :=
    encode_eq_ok.mp h'
  have hextents : ty.extents? = some (shape.map Dim.extent) := by
    rw [Ty.extents?, hshape, Option.map_some]
  have hextents' : ty'.extents? = some (shape'.map Dim.extent) := by
    rw [Ty.extents?, hshape', Option.map_some]
  have horders := LevelOrder.inverse_inj
    (LevelOrder.isPermutation_iff.mp (LevelOrder.isPermutation_and_rank.mpr horder).1)
    (LevelOrder.isPermutation_iff.mp (LevelOrder.isPermutation_and_rank.mpr horder').1)
  have helements : primary = primary' ↔ element = element' := by
    constructor
    · intro hsame
      rw [Primary.of?_eq_some.mp hprimary, Primary.of?_eq_some.mp hprimary', hsame]
    · intro hsame
      subst hsame
      exact Option.some.inj (hprimary.symm.trans hprimary')
  rw [hextents, hextents', helement, helement', Option.some.injEq, Option.some.injEq,
    TensorBlock.mk.injEq, sizes_eq_extents, sizes_eq_extents, horders,
    (List.map_injective_iff.mpr Level.code_injective).eq_iff, Overhead.code_injective.eq_iff,
    Overhead.code_injective.eq_iff, Overhead.ofWidth_eq_iff, Overhead.ofWidth_eq_iff,
    Primary.code_injective.eq_iff, helements]

/-- A matrix whose second extent is not known, without an order and with native widths. -/
def plainMatrix : Sparsity where
  levels := [.dense, .compressed]

/-- The same levels with the order of the dimensions, and with widths that no integer is for. -/
def spelledMatrix : Sparsity where
  levels := [.dense, .compressed]
  order := some ⟨[0, 1]⟩
  pointerWidth := 64
  indexWidth := 12

/-- All three conflations at once leave the block as it is, and a stored order changes it. -/
theorem encode_faithful_spelled :
    ∃ block block' swapped, encode plainMatrix (.dense [.static 3, .dynamic] .f32) .fromData =
        .ok block ∧
      encode spelledMatrix (.memref [.static 3, .static 0] .f32) .fromData = .ok block' ∧
      encode { spelledMatrix with order := some ⟨[1, 0]⟩ } (.memref [.static 3, .static 0] .f32)
        .fromData = .ok swapped ∧
      block = block' ∧ block ≠ swapped := by
  have hplain : ∃ block, encode plainMatrix (.dense [.static 3, .dynamic] .f32) .fromData =
      .ok block := ⟨_, rfl⟩
  have hspelled : ∃ block, encode spelledMatrix (.memref [.static 3, .static 0] .f32) .fromData =
      .ok block := ⟨_, rfl⟩
  have hswapped : ∃ block, encode { spelledMatrix with order := some ⟨[1, 0]⟩ }
      (.memref [.static 3, .static 0] .f32) .fromData = .ok block := ⟨_, rfl⟩
  obtain ⟨block, hplain⟩ := hplain
  obtain ⟨block', hspelled⟩ := hspelled
  obtain ⟨swapped, hswapped⟩ := hswapped
  refine ⟨block, block', swapped, hplain, hspelled, hswapped, ?_, fun hsame => ?_⟩
  · refine (encode_faithful hplain hspelled).mpr
      ⟨rfl, rfl, rfl, Or.inr ⟨?_, ?_⟩, Or.inr ⟨?_, ?_⟩, rfl, rfl⟩ <;> decide
  · obtain ⟨-, -, horder, -⟩ := (encode_faithful hplain hswapped).mp hsame
    exact absurd horder (by decide)

end TensorBlock

end TensorLowering

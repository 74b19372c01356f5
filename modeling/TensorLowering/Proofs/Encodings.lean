import Mathlib.Data.List.Perm.Subperm
import Mathlib.Data.Option.Basic
import TensorLowering.Abi.TensorBlock
import TensorLowering.Proofs.Faults
import TensorLowering.Ty.Check

/-!
# Annotations that fit a rank

Two checks ask whether an annotation fits a tensor: one when the type is formed, one when the
arguments of a new tensor are computed. Both mean the same by it. The levels are as many as the
dimensions, and an order, if there is one, rearranges the dimensions; the table of marks decides
this because a list without repetitions that is as long as the table leaves no place unmarked. The
loop asks for a mark only after it has compared the dimension with the size of the table, so that it
does the same on a plain table, where an access can miss.
-/

namespace TensorLowering

namespace LevelOrder

/-- Marking goes through if the dimensions are in the table, unmarked before and not repeated. -/
theorem markAll_eq_true {n : Nat} {dims : List Nat} {marked : Vector Bool n} :
    markAll dims marked = true ↔
      dims.Nodup ∧ ∀ dim ∈ dims, ∃ h : dim < n, marked[dim] = false := by
  induction dims generalizing marked with
  | nil => simp [markAll]
  | cons dim rest ih =>
    rw [markAll]
    by_cases hlt : dim < n
    · cases hmarked : marked[dim] with
      | true =>
        simp only [hlt, hmarked, ↓reduceDIte, ↓reduceIte, Bool.false_eq_true, false_iff, not_and]
        intro _ hall
        obtain ⟨_, hunmarked⟩ := hall dim List.mem_cons_self
        simp [hmarked] at hunmarked
      | false =>
        simp only [hlt, hmarked, ↓reduceDIte, Bool.false_eq_true, ↓reduceIte, ih, List.nodup_cons]
        constructor
        · rintro ⟨hnodup, hall⟩
          refine ⟨⟨fun hmem => ?_, hnodup⟩, List.forall_mem_cons.mpr ⟨⟨hlt, hmarked⟩, ?_⟩⟩
          · obtain ⟨_, hagain⟩ := hall dim hmem
            simp at hagain
          · intro other hother
            obtain ⟨hother', hunmarked⟩ := hall other hother
            rw [Vector.getElem_set] at hunmarked
            split at hunmarked
            · simp at hunmarked
            · exact ⟨hother', hunmarked⟩
        · rintro ⟨⟨hnew, hnodup⟩, hall⟩
          refine ⟨hnodup, fun other hother => ?_⟩
          obtain ⟨hother', hunmarked⟩ := hall other (List.mem_cons_of_mem _ hother)
          have hne : dim ≠ other := fun heq => hnew (heq ▸ hother)
          exact ⟨hother', by rw [Vector.getElem_set_ne _ _ hne, hunmarked]⟩
    · simp only [hlt, ↓reduceDIte, Bool.false_eq_true, false_iff, not_and]
      intro _ hall
      exact hlt (hall dim List.mem_cons_self).1

/-- An order is a permutation exactly if it rearranges the dimensions below its rank. -/
theorem isPermutation_iff {order : LevelOrder} :
    order.isPermutation = true ↔ order.dims.Perm (List.range order.rank) := by
  rw [isPermutation, markAll_eq_true]
  constructor
  · rintro ⟨hnodup, hall⟩
    have hsubset : order.dims ⊆ List.range order.rank := fun dim hdim =>
      List.mem_range.mpr (hall dim hdim).1
    exact (List.subperm_of_subset hnodup hsubset).perm_of_length_le (by simp [rank])
  · intro hperm
    refine ⟨hperm.nodup_iff.mpr List.nodup_range, fun dim hdim => ?_⟩
    exact ⟨List.mem_range.mp (hperm.mem_iff.mp hdim), by simp⟩

/-- A permutation of the right rank rearranges the dimensions below that rank. -/
theorem isPermutation_and_rank {order : LevelOrder} {rank : Nat} :
    order.isPermutation = true ∧ order.rank = rank ↔ order.dims.Perm (List.range rank) := by
  rw [isPermutation_iff]
  constructor
  · rintro ⟨hperm, rfl⟩
    exact hperm
  · intro hperm
    obtain rfl : order.rank = rank := by simpa [LevelOrder.rank] using hperm.length_eq
    exact ⟨hperm, rfl⟩

/-- Sets a mark in a table; a position outside the table is a fault. -/
def setMark (marked : List Bool) (dim : Nat) : Except Fault (List Bool) :=
  if dim < marked.length then .ok (marked.set dim true)
  else .error (.outOfBounds marked.length dim)

/-- Marks the listed dimensions in a table whose size is not tied to the bound that they are compared
with, so that every look at the table and every mark may miss it. -/
def markEach (bound : Nat) : List Nat → List Bool → Except Fault Bool
  | [], _ => .ok true
  | dim :: rest, marked =>
    if bound ≤ dim then
      .ok false
    else do
      if ← Fault.fetch marked dim then
        return false
      else
        let marked ← setMark marked dim
        markEach bound rest marked

/-- In a table of the size of the bound no access misses, and the answer is the same. -/
theorem markEach_eq_markAll {n : Nat} (dims : List Nat) (marked : Vector Bool n) :
    markEach n dims marked.toList = .ok (markAll dims marked) := by
  induction dims generalizing marked with
  | nil => rfl
  | cons dim rest ih =>
    rw [markEach, markAll]
    by_cases hlt : dim < n
    · have hread : Fault.fetch marked.toList dim = .ok marked[dim] :=
        Fault.fetch_eq_ok.mpr (by simp [hlt])
      have hwrite : setMark marked.toList dim = .ok (marked.set dim true).toList := by
        simp [setMark, hlt, Vector.toList_set]
      rw [if_neg (Nat.not_le.mpr hlt), dif_pos hlt, hread]
      cases hmarked : marked[dim] with
      | true => rfl
      | false => exact (congrArg (· >>= markEach n rest) hwrite).trans (ih _)
    · rw [if_pos (Nat.not_lt.mp hlt), dif_neg hlt]

/-- Every dimension below the rank is at one level and nothing else is at any, exactly if the order
rearranges these dimensions. -/
theorem perm_range_iff_count {dims : List Nat} {n : Nat} :
    dims.Perm (List.range n) ↔ ∀ dim, dims.count dim = if dim < n then 1 else 0 := by
  rw [List.perm_iff_count]
  refine forall_congr' fun dim => ?_
  simp only [List.nodup_range.count, List.mem_range]

/-- The check of an order is exact: it succeeds if and only if the order is a rearrangement of the
dimensions below its rank, so that each of them is at exactly one level and nothing else is at any.
It never looks or marks outside its table. -/
theorem isPermutation_exact (order : LevelOrder) :
    (order.isPermutation = true ↔ order.dims.Perm (List.range order.rank)) ∧
    (order.isPermutation = true ↔
      ∀ dim, order.dims.count dim = if dim < order.rank then 1 else 0) ∧
    markEach order.rank order.dims (List.replicate order.rank false) = .ok order.isPermutation := by
  have htable : (Vector.replicate order.rank false).toList = List.replicate order.rank false :=
    Vector.toList_replicate
  refine ⟨isPermutation_iff, isPermutation_iff.trans perm_range_iff_count, ?_⟩
  rw [← htable]
  exact markEach_eq_markAll order.dims _

end LevelOrder

/-- There is one level for each dimension, and an order rearranges the dimensions. -/
def Sparsity.FitsRank (sparsity : Sparsity) (rank : Nat) : Prop :=
  sparsity.levels.length = rank ∧
    ∀ order, sparsity.order = some order → order.dims.Perm (List.range rank)

/-- What passes the check of types fits. -/
theorem Sparsity.fitsRank_of_defect? {sparsity : Sparsity} {rank : Nat}
    (h : sparsity.defect? rank = none) : sparsity.FitsRank rank := by
  simp only [defect?, Option.orElse_eq_none] at h
  obtain ⟨hlevels, horder, -⟩ := h
  refine ⟨?_, fun order hsome => ?_⟩
  · by_contra hne
    simp [levelDefect?, Sparsity.rank, hne] at hlevels
  · rw [← LevelOrder.isPermutation_and_rank]
    by_contra hnot
    rw [hsome, orderDefect?, if_neg (by simpa [and_comm] using hnot)] at horder
    simp at horder

/-- The code of an element type is zero exactly if the library does not support it. -/
theorem Primary.codeOf_eq_zero {element : Ty} : codeOf element = 0 ↔ of? element = none := by
  rw [codeOf]
  cases of? element with
  | none => simp
  | some primary => cases primary <;> simp [code]

namespace TensorBlock

/-- The level of each dimension is known exactly if the order fits. -/
theorem exists_permutationOf {rank : Nat} {order : Option LevelOrder} :
    (∃ permutation, permutationOf rank order = .ok permutation) ↔
      ∀ given, order = some given → given.dims.Perm (List.range rank) := by
  cases order with
  | none => simp [permutationOf]
  | some given =>
    simp only [permutationOf, ← LevelOrder.isPermutation_and_rank, Option.some.injEq, forall_eq']
    cases given.isPermutation <;> by_cases hrank : given.rank = rank <;> simp [hrank]

/-- The arguments of a new tensor can be computed exactly if the annotation fits the rank and the
library supports the element type. -/
theorem exists_encode {sparsity : Sparsity} {shape : List Dim} {element : Ty}
    (format : Option Sparsity) (action : Action) :
    (∃ block, encode sparsity (.tensor shape element format) action = .ok block) ↔
      sparsity.FitsRank shape.length ∧ Primary.codeOf element ≠ 0 := by
  have hshape : (∃ extents, shapeOf sparsity.rank (.tensor shape element format) =
      .ok extents) ↔ sparsity.levels.length = shape.length := by
    simp only [shapeOf, Ty.shape?, Sparsity.rank]
    by_cases hlength : shape.length = sparsity.levels.length
    · simp [hlength]
    · simp [hlength, Ne.symm hlength]
  have hprimary : (∃ primary, primaryOf element = .ok primary) ↔ Primary.codeOf element ≠ 0 := by
    rw [ne_eq, Primary.codeOf_eq_zero, primaryOf]
    cases Primary.of? element <;> simp
  simp only [encode, bind_eq_ok, pure_eq_ok, Ty.element?, Option.getD_some, Sparsity.FitsRank,
    ← hprimary, ← hshape]
  constructor
  · rintro ⟨block, extents, hextents, permutation, hpermutation, primary, hprimary, -⟩
    have hlength := hshape.mp ⟨extents, hextents⟩
    exact ⟨⟨⟨extents, hextents⟩, exists_permutationOf.mp ⟨permutation, hlength ▸ hpermutation⟩⟩,
      primary, hprimary⟩
  · rintro ⟨⟨⟨extents, hextents⟩, horder⟩, primary, hprimary⟩
    have hlength : sparsity.rank = shape.length := hshape.mp ⟨extents, hextents⟩
    obtain ⟨permutation, hpermutation⟩ := exists_permutationOf.mpr horder
    exact ⟨_, extents, hextents, permutation, hlength ▸ hpermutation, primary, hprimary, rfl⟩

end TensorBlock

end TensorLowering

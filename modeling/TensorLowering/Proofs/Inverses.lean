import Mathlib.Data.List.Nodup
import TensorLowering.Proofs.Encodings

/-!
# Orders of levels and their inverses

An order lists the dimension of each level, and a block lists the level of each dimension. If the
order rearranges the dimensions, each list undoes the other, whatever the rank. The list in a block
is also what one pass over the order leaves in a table of zeros when it writes each level at the
place of its dimension: no place is written twice, and none is left out.
-/

namespace TensorLowering

namespace LevelOrder

/-- At the entries of the first list, up to a given length, the second list has their positions. -/
def Undoes (length : Nat) (second first : List Nat) : Prop :=
  ∀ i < length, ∃ entry, first[i]? = some entry ∧ second[entry]? = some i

/-- Writes the levels of the listed dimensions, counted from the given one, into a table that has a
place for each dimension. -/
def writeLevels : List Nat → Nat → List Nat → List Nat
  | [], _, table => table
  | dim :: rest, level, table => writeLevels rest (level + 1) (table.set dim level)

variable {order : LevelOrder}

/-! ### The inverse -/

/-- The inverse has one entry for each level. -/
@[simp]
theorem length_inverse (order : LevelOrder) : order.inverse.length = order.rank := by
  simp [inverse]

/-- The level of a dimension is where the order lists it. -/
theorem getElem?_inverse (horder : order.dims.Perm (List.range order.rank)) {dim level : Nat} :
    order.inverse[dim]? = some level ↔ order.dims[level]? = some dim := by
  have hnodup : order.dims.Nodup := horder.nodup_iff.mpr List.nodup_range
  constructor
  · intro h
    rw [inverse, List.getElem?_map, Option.map_eq_some_iff] at h
    obtain ⟨dim', hdim, rfl⟩ := h
    obtain ⟨hlt, rfl⟩ := List.getElem?_eq_some_iff.mp hdim
    rw [List.getElem_range]
    have hmem : dim ∈ order.dims := by
      rw [horder.mem_iff, List.mem_range]
      simpa using hlt
    exact List.getElem?_idxOf hmem
  · intro h
    obtain ⟨hlt, rfl⟩ := List.getElem?_eq_some_iff.mp h
    have hdim : order.dims[level] < order.rank :=
      List.mem_range.mp (horder.mem_iff.mp (List.getElem_mem hlt))
    rw [inverse, List.getElem?_map, List.getElem?_range hdim, Option.map_some,
      hnodup.idxOf_getElem]

/-- The order undoes its inverse. -/
theorem undoes_inverse (horder : order.dims.Perm (List.range order.rank)) :
    Undoes order.rank order.dims order.inverse := by
  intro dim hdim
  have hlt : dim < order.inverse.length := by simpa using hdim
  exact ⟨_, List.getElem?_eq_getElem hlt,
    (getElem?_inverse horder).mp (List.getElem?_eq_getElem hlt)⟩

/-- The inverse undoes its order. -/
theorem inverse_undoes (horder : order.dims.Perm (List.range order.rank)) :
    Undoes order.rank order.inverse order.dims := by
  intro level hlevel
  exact ⟨_, List.getElem?_eq_getElem hlevel,
    (getElem?_inverse horder).mpr (List.getElem?_eq_getElem hlevel)⟩

/-- The inverse rearranges the levels. -/
theorem inverse_perm (horder : order.dims.Perm (List.range order.rank)) :
    order.inverse.Perm (List.range order.rank) := by
  have hnodup : order.inverse.Nodup := by
    refine List.Nodup.map_on (fun dim hdim other _ hsame => ?_) List.nodup_range
    exact (List.idxOf_inj (horder.mem_iff.mpr hdim)).mp hsame
  have hsubset : order.inverse ⊆ List.range order.rank := by
    intro level hlevel
    obtain ⟨dim, hdim⟩ := List.mem_iff_getElem?.mp hlevel
    rw [List.mem_range]
    exact (List.getElem?_eq_some_iff.mp ((getElem?_inverse horder).mp hdim)).1
  exact (List.subperm_of_subset hnodup hsubset).perm_of_length_le (by simp)

/-- Inverting twice gives the order back. -/
theorem inverse_inverse (horder : order.dims.Perm (List.range order.rank)) :
    (LevelOrder.mk order.inverse).inverse = order.dims := by
  have hinverse : order.inverse.Perm (List.range (LevelOrder.mk order.inverse).rank) := by
    simpa [rank] using inverse_perm horder
  refine List.ext_getElem? fun level => Option.ext fun dim => ?_
  exact (getElem?_inverse hinverse).trans (getElem?_inverse horder)

/-- Dimensions in their own order are their own levels. -/
theorem inverse_identity (rank : Nat) : (identity rank).inverse = List.range rank := by
  have hidentity : (identity rank).dims.Perm (List.range (identity rank).rank) := by
    simp [identity, LevelOrder.rank]
  refine List.ext_getElem? fun dim => Option.ext fun level => ?_
  rw [getElem?_inverse hidentity]
  simp only [identity, List.getElem?_eq_some_iff, List.getElem_range, List.length_range]
  constructor <;> rintro ⟨hlt, rfl⟩ <;> exact ⟨hlt, rfl⟩

/-! ### One pass over the order -/

/-- Writing keeps the size of the table. -/
theorem length_writeLevels (dims : List Nat) (level : Nat) (table : List Nat) :
    (writeLevels dims level table).length = table.length := by
  induction dims generalizing level table with
  | nil => rfl
  | cons dim rest ih => simp [writeLevels, ih]

/-- After the pass, each listed dimension has the level at which it is listed, and the other places
are as before. -/
theorem getElem?_writeLevels {dims : List Nat} (hnodup : dims.Nodup) (level : Nat)
    {table : List Nat} {dim : Nat} (hdim : dim < table.length) :
    (writeLevels dims level table)[dim]? =
      if dim ∈ dims then some (level + dims.idxOf dim) else table[dim]? := by
  induction dims generalizing level table with
  | nil => simp [writeLevels]
  | cons first rest ih =>
    obtain ⟨hfirst, hrest⟩ := List.nodup_cons.mp hnodup
    rw [writeLevels, ih hrest (level + 1) (by simpa using hdim)]
    by_cases hsame : first = dim
    · subst hsame
      simp [hfirst, hdim]
    · rw [List.getElem?_set_ne hsame, List.idxOf_cons_ne _ hsame]
      simp only [List.mem_cons, Ne.symm hsame, false_or]
      split
      · congr 1
        omega
      · rfl

/-- One pass that writes each level at the place of its dimension computes the inverse. -/
theorem writeLevels_eq_inverse (horder : order.dims.Perm (List.range order.rank)) :
    writeLevels order.dims 0 (List.replicate order.rank 0) = order.inverse := by
  have hnodup : order.dims.Nodup := horder.nodup_iff.mpr List.nodup_range
  refine List.ext_getElem? fun dim => ?_
  by_cases hdim : dim < order.rank
  · have hmem : dim ∈ order.dims := horder.mem_iff.mpr (List.mem_range.mpr hdim)
    rw [getElem?_writeLevels hnodup 0 (by simpa using hdim), if_pos hmem, inverse,
      List.getElem?_map, List.getElem?_range hdim, Option.map_some, Nat.zero_add]
  · rw [List.getElem?_eq_none (by simpa [length_writeLevels] using hdim),
      List.getElem?_eq_none (by simpa using hdim)]

end LevelOrder

/-- The order in which the levels are stored: the given one, or that of the dimensions. -/
def Sparsity.storedOrder (sparsity : Sparsity) : LevelOrder :=
  sparsity.order.getD (.identity sparsity.rank)

namespace TensorBlock

variable {sparsity : Sparsity} {ty : Ty} {action : Action} {block : TensorBlock}

/-- The level of each dimension is the inverse of the stored order. -/
theorem permutationOf_eq_ok {rank : Nat} {order : Option LevelOrder} {permutation : List Nat} :
    permutationOf rank order = .ok permutation ↔
      (order.getD (.identity rank)).dims.Perm (List.range rank) ∧
        permutation = (order.getD (.identity rank)).inverse := by
  cases order with
  | none =>
    rw [Option.getD_none, LevelOrder.inverse_identity, permutationOf, Except.ok.injEq, eq_comm]
    simp [LevelOrder.identity]
  | some order =>
    rw [Option.getD_some, ← LevelOrder.isPermutation_and_rank, permutationOf]
    split
    · rename_i hfits
      rw [Bool.and_eq_true, beq_iff_eq] at hfits
      simp [hfits, eq_comm]
    · rename_i hfits
      rw [Bool.and_eq_true, beq_iff_eq] at hfits
      simp [hfits]

/-- The shape is that of the type, if the type has one of the rank. -/
theorem shapeOf_eq_ok {rank : Nat} {shape : List Dim} : shapeOf rank ty = .ok shape ↔
    ty.shape? = some shape ∧ shape.length = rank := by
  unfold shapeOf
  cases ty.shape? with
  | none => simp
  | some extents =>
    by_cases hlength : extents.length = rank
    · simp only [hlength, if_true, Except.ok.injEq, Option.some.injEq]
      exact ⟨fun h => ⟨h, h ▸ hlength⟩, fun h => h.1⟩
    · simp only [hlength, if_false, reduceCtorEq, Option.some.injEq, false_iff, not_and]
      exact fun h => h ▸ hlength

/-- A type that the library stores is behind the elements of the type. -/
theorem primaryOf_eq_ok {primary : Primary} : primaryOf (ty.element?.getD .index) = .ok primary ↔
    ∃ element, ty.element? = some element ∧ Primary.of? element = some primary := by
  unfold primaryOf
  cases ty.element? with
  | none => simp [Primary.of?]
  | some element => cases hprimary : Primary.of? element <;> simp [hprimary]

/-- When a block can be computed, and what it is then. -/
theorem encode_eq_ok : encode sparsity ty action = .ok block ↔
    ∃ shape element primary, ty.shape? = some shape ∧ shape.length = sparsity.rank ∧
      sparsity.storedOrder.dims.Perm (List.range sparsity.rank) ∧
      ty.element? = some element ∧ Primary.of? element = some primary ∧
      block = {
        levels := sparsity.levels.map Level.code
        sizes := shape.map fun dim => dim.size?.getD 0
        permutation := sparsity.storedOrder.inverse
        pointerOverhead := (Overhead.ofWidth sparsity.pointerWidth).code
        indexOverhead := (Overhead.ofWidth sparsity.indexWidth).code
        primary := primary.code
        action } := by
  simp only [encode, bind_eq_ok, pure_eq_ok, shapeOf_eq_ok, primaryOf_eq_ok, permutationOf_eq_ok,
    Sparsity.storedOrder]
  constructor
  · rintro ⟨shape, ⟨hextents, hlength⟩, _, ⟨horder, rfl⟩, primary, ⟨element, helement, hof⟩, rfl⟩
    exact ⟨shape, element, primary, hextents, hlength, horder, helement, hof, rfl⟩
  · rintro ⟨shape, element, primary, hextents, hlength, horder, helement, hof, rfl⟩
    exact ⟨shape, ⟨hextents, hlength⟩, _, ⟨horder, rfl⟩, primary, ⟨element, helement, hof⟩, rfl⟩

/-- A block can be computed for another order that rearranges the dimensions; only the levels of the
dimensions differ. -/
theorem encode_reordered (h : encode sparsity ty action = .ok block) {order : LevelOrder}
    (horder : order.dims.Perm (List.range sparsity.rank)) :
    encode { sparsity with order := some order } ty action =
      .ok { block with permutation := order.inverse } := by
  obtain ⟨shape, element, primary, hshape, hlength, -, helement, hprimary, rfl⟩ := encode_eq_ok.mp h
  exact encode_eq_ok.mpr
    ⟨shape, element, primary, hshape, hlength, horder, helement, hprimary, rfl⟩

/-- The levels of the dimensions invert the order, both ways and at every rank. They rearrange the
numbers below the rank, and as an order they give the original one back. One pass that writes each
level at the place of its dimension, over zeros, computes them. Without an order they are those of
the explicit order of the dimensions. -/
theorem encode_inverts_order (h : encode sparsity ty action = .ok block) :
    (∃ shape, ty.shape? = some shape ∧ shape.length = sparsity.rank) ∧
    block.permutation.length = sparsity.rank ∧
    (∀ order, sparsity.order = some order →
      LevelOrder.Undoes sparsity.rank block.permutation order.dims ∧
      LevelOrder.Undoes sparsity.rank order.dims block.permutation ∧
      block.permutation.Perm (List.range sparsity.rank) ∧
      encode { sparsity with order := some ⟨block.permutation⟩ } ty action =
        .ok { block with permutation := order.dims } ∧
      block.permutation = LevelOrder.writeLevels order.dims 0 (List.replicate sparsity.rank 0)) ∧
    (sparsity.order = none →
      encode { sparsity with order := some (.identity sparsity.rank) } ty action = .ok block) := by
  obtain ⟨shape, element, primary, hshape, hlength, hstored, -, -, hblock⟩ := encode_eq_ok.mp h
  have hpermutation : block.permutation = sparsity.storedOrder.inverse := by rw [hblock]
  have hrank : sparsity.storedOrder.rank = sparsity.rank :=
    (LevelOrder.isPermutation_and_rank.mpr hstored).2
  refine ⟨⟨shape, hshape, hlength⟩, ?_, fun order horder => ?_, fun hnone => ?_⟩
  · rw [hpermutation, LevelOrder.length_inverse, hrank]
  · have hsame : sparsity.storedOrder = order := by
      rw [Sparsity.storedOrder, horder, Option.getD_some]
    rw [hsame] at hpermutation hrank
    rw [hsame, ← hrank] at hstored
    rw [hpermutation, ← hrank]
    have hinverse := LevelOrder.inverse_perm hstored
    refine ⟨LevelOrder.inverse_undoes hstored, LevelOrder.undoes_inverse hstored, hinverse, ?_,
      (LevelOrder.writeLevels_eq_inverse hstored).symm⟩
    rw [← LevelOrder.inverse_inverse hstored]
    exact encode_reordered h (hrank ▸ hinverse)
  · have hsame : sparsity.storedOrder = .identity sparsity.rank := by
      rw [Sparsity.storedOrder, hnone, Option.getD_none]
    rw [hsame] at hpermutation hstored
    rw [encode_reordered h hstored, ← hpermutation]

/-- A tensor of four dimensions whose order is a cycle, so that it is not its own inverse. -/
def cycled : Sparsity where
  levels := [.dense, .compressed, .singleton, .compressed]
  order := some ⟨[2, 0, 3, 1]⟩
  pointerWidth := 16

/-- The type of that tensor. -/
def cycledTy : Ty := .tensor [.static 4, .dynamic, .static 2, .static 7] (.int 32) (some cycled)

/-- The block of that tensor. -/
def cycledBlock : TensorBlock where
  levels := [0, 1, 2, 1]
  sizes := [4, 0, 2, 7]
  permutation := [1, 3, 0, 2]
  pointerOverhead := 3
  indexOverhead := 1
  primary := 4
  action := .fromData

/-- The levels of the cycle invert it, and inverting them gives the cycle back. -/
theorem encode_inverts_order_cycled :
    encode cycled cycledTy .fromData = .ok cycledBlock ∧
      LevelOrder.Undoes 4 [1, 3, 0, 2] [2, 0, 3, 1] ∧
      LevelOrder.Undoes 4 [2, 0, 3, 1] [1, 3, 0, 2] ∧
      encode { cycled with order := some ⟨[1, 3, 0, 2]⟩ } cycledTy .fromData =
        .ok { cycledBlock with permutation := [2, 0, 3, 1] } := by
  have hencode : encode cycled cycledTy .fromData = .ok cycledBlock := by decide +kernel
  obtain ⟨-, -, hordered, -⟩ := encode_inverts_order hencode
  obtain ⟨hback, hforth, -, hagain, -⟩ := hordered ⟨[2, 0, 3, 1]⟩ rfl
  exact ⟨hencode, hback, hforth, hagain⟩

end TensorBlock

end TensorLowering

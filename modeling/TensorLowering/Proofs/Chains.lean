import Mathlib.Data.List.Perm.Subperm
import TensorLowering.Conversion.Renaming

/-!
# Chains of renamings

Resolving a value follows entries until a value has none. The number of steps is bounded by the
number of entries; this is enough exactly because a chain that ends visits no value twice. In an
acyclic renaming every value therefore resolves to one that is not renamed further, and recording
one more replacement changes the answers in the expected way: what ended at the replaced value now
ends where its replacement does.
-/

namespace TensorLowering

namespace Renaming

variable {aliases : Renaming}

/-- A chain of the given number of entries leads from one value to a value that has no entry. -/
inductive Chain (aliases : Renaming) : Nat → ValueId → ValueId → Prop
  | stop {v : ValueId} : aliases.next? v = none → Chain aliases 0 v v
  | step {n : Nat} {v u w : ValueId} :
      aliases.next? v = some u → Chain aliases n u w → Chain aliases (n + 1) v w

/-- Every chain ends. -/
def Acyclic (aliases : Renaming) : Prop := ∀ v, ∃ n w, aliases.Chain n v w

/-- The end of a chain is not renamed. -/
theorem Chain.next?_eq_none {n : Nat} {v w : ValueId} (h : aliases.Chain n v w) :
    aliases.next? w = none := by
  induction h with
  | stop hnone => exact hnone
  | step _ _ ih => exact ih

/-- A value determines the length of its chain and where it ends. -/
theorem Chain.unique {n m : Nat} {v w w' : ValueId} (h : aliases.Chain n v w)
    (h' : aliases.Chain m v w') : n = m ∧ w = w' := by
  induction h generalizing m with
  | stop hnone =>
    cases h' with
    | stop _ => exact ⟨rfl, rfl⟩
    | step hsome _ => simp [hnone] at hsome
  | step hsome _ ih =>
    cases h' with
    | stop hnone => simp [hnone] at hsome
    | step hsome' hrest =>
      obtain rfl := Option.some.inj (hsome.symm.trans hsome')
      obtain ⟨rfl, rfl⟩ := ih hrest
      exact ⟨rfl, rfl⟩

/-- A renamed value is the key of an entry. -/
theorem mem_keys_of_next? {v u : ValueId} (h : aliases.next? v = some u) :
    v ∈ aliases.entries.map Prod.fst := by
  obtain ⟨entries⟩ := aliases
  simp only [next?] at h
  induction entries with
  | nil => simp at h
  | cons entry rest ih =>
    obtain ⟨key, target⟩ := entry
    by_cases hv : v = key
    · simp [hv]
    · have hne : (v == key) = false := by simpa using hv
      simp only [List.lookup_cons, hne] at h
      exact List.mem_cons_of_mem _ (ih h)

/-- The values that a chain renames are distinct keys. -/
theorem Chain.exists_path {n : Nat} {v w : ValueId} (h : aliases.Chain n v w) :
    ∃ path : List ValueId, path.length = n ∧ path.Nodup ∧
      ∀ x ∈ path, x ∈ aliases.entries.map Prod.fst ∧ ∃ k, k ≤ n ∧ aliases.Chain k x w := by
  induction h with
  | stop _ => exact ⟨[], rfl, by simp, by simp⟩
  | @step n v u w hsome hrest ih =>
    obtain ⟨path, hlength, hnodup, hpath⟩ := ih
    have hchain : aliases.Chain (n + 1) v w := .step hsome hrest
    refine ⟨v :: path, by simp [hlength], List.nodup_cons.mpr ⟨fun hin => ?_, hnodup⟩, ?_⟩
    · -- A chain through its own start would have two lengths.
      obtain ⟨-, k, hk, hagain⟩ := hpath v hin
      have := (hchain.unique hagain).1
      omega
    · intro x hx
      rcases List.mem_cons.mp hx with rfl | htail
      · exact ⟨mem_keys_of_next? hsome, n + 1, Nat.le_refl _, hchain⟩
      · obtain ⟨hkey, k, hk, hx⟩ := hpath x htail
        exact ⟨hkey, k, by omega, hx⟩

/-- A chain is not longer than the renaming. -/
theorem Chain.length_le {n : Nat} {v w : ValueId} (h : aliases.Chain n v w) :
    n ≤ aliases.entries.length := by
  obtain ⟨path, rfl, hnodup, hpath⟩ := h.exists_path
  have hsubset : path ⊆ aliases.entries.map Prod.fst := fun x hx => (hpath x hx).1
  simpa using (List.subperm_of_subset hnodup hsubset).length_le

/-- With enough steps, following goes to the end of the chain. -/
theorem Chain.follow_eq {n steps : Nat} {v w : ValueId} (h : aliases.Chain n v w)
    (hsteps : n ≤ steps) : aliases.follow steps v = w := by
  induction h generalizing steps with
  | stop hnone => cases steps <;> simp [follow, hnone]
  | step hsome _ ih =>
    cases steps with
    | zero => simp at hsteps
    | succ steps =>
      simp only [follow, hsome]
      exact ih (by omega)

/-- Resolving goes to the end of the chain. -/
theorem Chain.resolve_eq {n : Nat} {v w : ValueId} (h : aliases.Chain n v w) :
    aliases.resolve v = w := h.follow_eq h.length_le

/-- A value that is not renamed resolves to itself. -/
theorem resolve_of_next?_eq_none {v : ValueId} (h : aliases.next? v = none) :
    aliases.resolve v = v := (Chain.stop h).resolve_eq

/-- In an acyclic renaming the resolved value is not renamed. -/
theorem Acyclic.next?_resolve (h : aliases.Acyclic) (v : ValueId) :
    aliases.next? (aliases.resolve v) = none := by
  obtain ⟨n, w, hchain⟩ := h v
  rw [hchain.resolve_eq]
  exact hchain.next?_eq_none

/-- Resolving twice is resolving once. -/
theorem Acyclic.resolve_resolve (h : aliases.Acyclic) (v : ValueId) :
    aliases.resolve (aliases.resolve v) = aliases.resolve v :=
  resolve_of_next?_eq_none (h.next?_resolve v)

/-- A renamed value resolves like its replacement. -/
theorem Acyclic.resolve_eq_of_next? (h : aliases.Acyclic) {v u : ValueId}
    (hnext : aliases.next? v = some u) : aliases.resolve v = aliases.resolve u := by
  obtain ⟨n, w, hchain⟩ := h u
  rw [hchain.resolve_eq, (Chain.step hnext hchain).resolve_eq]

/-- A renaming whose targets are not renamed themselves is acyclic. -/
theorem Acyclic.of_targets (h : ∀ v u, aliases.next? v = some u → aliases.next? u = none) :
    aliases.Acyclic := by
  intro v
  cases hnext : aliases.next? v with
  | none => exact ⟨0, v, .stop hnext⟩
  | some u => exact ⟨1, u, .step hnext (.stop (h v u hnext))⟩

/-- A chain is still there when entries are added, as long as its end has none. -/
theorem Chain.persist {more : Renaming} {n : Nat} {v w : ValueId} (h : aliases.Chain n v w)
    (hmore : ∀ x y, aliases.next? x = some y → more.next? x = some y)
    (hend : more.next? w = none) : more.Chain n v w := by
  induction h with
  | stop _ => exact .stop hend
  | step hnext _ ih => exact .step (hmore _ _ hnext) (ih hend)

/-- A recorded replacement is found first, and the others are found as before. -/
theorem next?_insert (aliases : Renaming) {old new : ValueId} (hne : old ≠ new) (v : ValueId) :
    (aliases.insert old new).next? v = if v = old then some new else aliases.next? v := by
  simp only [insert, if_neg hne, next?, List.lookup_cons]
  by_cases hv : v = old
  · simp [hv]
  · have hfalse : (v == old) = false := by simpa using hv
    simp [hv, hfalse]

/-- A chain that does not end at the replaced value is not affected. -/
theorem Chain.insert_of_ne {old new : ValueId} (hold : aliases.next? old = none) (hne : old ≠ new)
    {n : Nat} {v w : ValueId} (h : aliases.Chain n v w) (hw : w ≠ old) :
    (aliases.insert old new).Chain n v w := by
  induction h with
  | stop hnone => exact .stop (by rw [next?_insert aliases hne, if_neg hw, hnone])
  | @step n v u w hsome _ ih =>
    have hv : v ≠ old := by
      rintro rfl
      simp [hold] at hsome
    exact .step (by rw [next?_insert aliases hne, if_neg hv, hsome]) (ih hw)

/-- A chain that ended at the replaced value is continued by the chain of the replacement. -/
theorem Chain.insert_of_eq {old new : ValueId} (hold : aliases.next? old = none) (hne : old ≠ new)
    {n m : Nat} {v last w : ValueId} (h : aliases.Chain n v last) (hlast : last = old)
    (hnew : (aliases.insert old new).Chain m new w) :
    (aliases.insert old new).Chain (n + (m + 1)) v w := by
  induction h with
  | stop _ =>
    rw [Nat.zero_add]
    exact .step (by rw [next?_insert aliases hne, if_pos hlast]) hnew
  | @step n v u last hsome _ ih =>
    have hv : v ≠ old := by
      rintro rfl
      simp [hold] at hsome
    rw [Nat.add_right_comm]
    exact .step (by rw [next?_insert aliases hne, if_neg hv, hsome]) (ih hlast)

section Insert

variable (hacyclic : aliases.Acyclic) {old new : ValueId} (hold : aliases.next? old = none)
  (hnew : aliases.resolve new ≠ old)

include hold hnew in
/-- The replacement of a value that is not renamed, and to which it does not lead back, differs
from it. -/
theorem ne_of_resolve_ne : old ≠ new := by
  rintro rfl
  exact hnew (resolve_of_next?_eq_none hold)

include hacyclic hold hnew in
/-- Where the chain of a value ends after one more replacement. -/
theorem Acyclic.chain_insert (v : ValueId) : ∃ n, (aliases.insert old new).Chain n v
    (if aliases.resolve v = old then aliases.resolve new else aliases.resolve v) := by
  have hne := ne_of_resolve_ne hold hnew
  obtain ⟨m, w, hchainNew⟩ := hacyclic new
  obtain rfl := hchainNew.resolve_eq
  obtain ⟨n, u, hchain⟩ := hacyclic v
  obtain rfl := hchain.resolve_eq
  split
  · rename_i hv
    exact ⟨_, hchain.insert_of_eq hold hne hv (hchainNew.insert_of_ne hold hne hnew)⟩
  · rename_i hv
    exact ⟨_, hchain.insert_of_ne hold hne hv⟩

include hacyclic hold hnew in
/-- One more replacement that does not lead back closes no cycle. -/
theorem Acyclic.insert : (aliases.insert old new).Acyclic := fun v => by
  obtain ⟨n, hchain⟩ := hacyclic.chain_insert hold hnew v
  exact ⟨n, _, hchain⟩

end Insert

end Renaming

end TensorLowering

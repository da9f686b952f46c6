import Mathlib.Algebra.BigOperators.Group.Finset.Basic
import Mathlib.Algebra.Order.BigOperators.Group.Finset
import Mathlib.Data.Finmap
import Mathlib.Tactic.Abel

namespace DigitalWallet.Lib.FinmapSum

open Finset

variable {κ β M : Type} [DecidableEq κ] [AddCommGroup M]

def weightAt (v : β → M) (m : Finmap fun _ : κ => β) (k : κ) : M := (m.lookup k).elim 0 v

def total (v : β → M) (m : Finmap fun _ : κ => β) : M := ∑ k ∈ m.keys, weightAt v m k

variable {v : β → M} {m : Finmap fun _ : κ => β}

@[simp] theorem total_empty : total v (∅ : Finmap fun _ : κ => β) = 0 := rfl

theorem weightAt_of_lookup {k : κ} {b : β} (h : m.lookup k = some b) : weightAt v m k = v b := by
  simp [weightAt, h]

@[simp] theorem weightAt_of_notMem {k : κ} (h : k ∉ m) : weightAt v m k = 0 := by
  simp [weightAt, Finmap.lookup_eq_none.mpr h]

@[simp] theorem weightAt_insert_self (k : κ) (b : β) : weightAt v (m.insert k b) k = v b :=
  weightAt_of_lookup (Finmap.lookup_insert m)

theorem weightAt_insert_of_ne {k k' : κ} (h : k' ≠ k) (b : β) :
    weightAt v (m.insert k b) k' = weightAt v m k' := by
  simp [weightAt, Finmap.lookup_insert_of_ne m h]

theorem keys_insert (k : κ) (b : β) : (m.insert k b).keys = insert k m.keys := by
  ext k'
  rw [Finmap.mem_keys, Finmap.mem_insert, Finset.mem_insert, Finmap.mem_keys]

theorem total_insert (k : κ) (b : β) :
    total v (m.insert k b) = total v m - weightAt v m k + v b := by
  have hrest : ∑ k' ∈ m.keys.erase k, weightAt v (m.insert k b) k' =
      ∑ k' ∈ m.keys.erase k, weightAt v m k' :=
    sum_congr rfl fun k' hk' => weightAt_insert_of_ne (ne_of_mem_erase hk') b
  have hnew : total v (m.insert k b) = v b + ∑ k' ∈ m.keys.erase k, weightAt v m k' := by
    rw [total, keys_insert, ← insert_erase (mem_insert_self k m.keys), erase_insert_eq_erase,
      sum_insert (notMem_erase k m.keys), weightAt_insert_self, hrest]
  have hold : total v m = weightAt v m k + ∑ k' ∈ m.keys.erase k, weightAt v m k' := by
    by_cases hk : k ∈ m.keys
    · rw [total, add_sum_erase _ _ hk]
    · rw [total, erase_eq_of_notMem hk, weightAt_of_notMem (fun h => hk (Finmap.mem_keys.mpr h)),
        zero_add]
  rw [hnew, hold]
  abel

section Order

variable [PartialOrder M]

theorem weightAt_nonneg (h : ∀ k b, m.lookup k = some b → 0 ≤ v b) (k : κ) : 0 ≤ weightAt v m k := by
  cases hk : m.lookup k with
  | none => simp [weightAt, hk]
  | some b => rw [weightAt_of_lookup hk]; exact h k b hk

theorem lookup_le_total [IsOrderedAddMonoid M] (h : ∀ k b, m.lookup k = some b → 0 ≤ v b) {k : κ} {b : β}
    (hk : m.lookup k = some b) : v b ≤ total v m := by
  rw [← weightAt_of_lookup (v := v) hk]
  exact single_le_sum (fun k' _ => weightAt_nonneg h k')
    (Finmap.mem_keys.mpr (Finmap.mem_of_lookup_eq_some hk))

end Order

end DigitalWallet.Lib.FinmapSum

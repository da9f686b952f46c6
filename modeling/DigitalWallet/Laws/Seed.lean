import DigitalWallet.Laws.Accounts

namespace DigitalWallet

open Lib

def WriteOutcome.spoils : WriteOutcome → Bool
  | .failed => true
  | .lost => true
  | .stopped => true
  | _ => false

def Breaks (f : SeedFile) (o : SeedOutcomes) : Bool :=
  match f with
  | .absent => o.init.spoils || (o.init == .written && o.update.spoils)
  | .archive (some accountNum) => accountNum != 2 ^ 31 - 1 && o.update.spoils
  | .archive none => false

structure Seeding where
  file : SeedFile := .absent
  returned : List String := []

namespace Seeding

def call (s : Seeding) (o : SeedOutcomes) : Seeding :=
  match genAccountID o s.file with
  | (.returned id, f) => ⟨f, s.returned ++ [id]⟩
  | (_, f) => { s with file := f }

def calls (s : Seeding) (os : List SeedOutcomes) : Seeding := os.foldl call s

/-- The file is absent or holds a number that no identifier is beyond, and the
next call that goes through returns a new identifier. -/
structure Usable (s : Seeding) : Prop where
  decodes : s.file = .absent ∨
    ∃ k, s.file.read = some k ∧ ∀ id ∈ s.returned, ∃ i, id = accountID i ∧ i ≤ k
  next : ∃ id f, genAccountID {} s.file = (.returned id, f) ∧ id ∉ s.returned

structure Counts (s : Seeding) (k : Nat) : Prop where
  number : s.file.number = some (k : Int)
  returned : s.returned = (List.range k).map fun i : Nat => accountID ((i : Int) + 1)
  bound : (k : Int) ≤ 2 ^ 31 - 1

end Seeding

theorem genAccountID_outcomes {f : SeedFile} {k : Int} (hk : f.number = some k) (o : SeedOutcomes) :
    (Breaks f o = true ∧ (genAccountID o f).2 = .archive none) ∨
    (Breaks f o = false ∧ k ≠ 2 ^ 31 - 1 ∧
      genAccountID o f = (.returned (accountID (k + 1)), .archive (some (k + 1)))) ∨
    (Breaks f o = false ∧ (∀ id, (genAccountID o f).1 ≠ .returned id) ∧
      (genAccountID o f).2.number = some k) := by
  obtain ⟨init, update⟩ := o
  cases f with
  | absent =>
    cases hk
    cases init <;> cases update <;>
      simp [Breaks, WriteOutcome.spoils, genAccountID, generateSeedFile, SeedFile.present,
        SeedFile.write, SeedFile.read, SeedFile.number]
  | archive contents =>
    cases hk
    by_cases hmax : k = 2147483647 <;> cases update <;>
      simp [Breaks, WriteOutcome.spoils, genAccountID, generateSeedFile, SeedFile.present,
        SeedFile.write, SeedFile.read, SeedFile.number, hmax]

namespace Seeding

variable {s : Seeding} {k : Nat} {o : SeedOutcomes}

theorem Counts.init : Counts {} 0 := ⟨rfl, rfl, by decide⟩

theorem Counts.length (h : s.Counts k) : s.returned.length = k := by
  rw [h.returned, List.length_map, List.length_range]

theorem Counts.not_mem (h : s.Counts k) : accountID ((k : Int) + 1) ∉ s.returned := by
  rw [h.returned]
  intro hmem
  obtain ⟨i, hi, hid⟩ := List.mem_map.mp hmem
  have := accountID_inj (by omega) (by omega) hid
  have := List.mem_range.mp hi
  omega

theorem Counts.call (h : s.Counts k) (hb : Breaks s.file o = false) :
    (s.call o).Counts k ∨ (s.call o).Counts (k + 1) := by
  obtain ⟨hbreaks, -⟩ | ⟨-, hmax, hgen⟩ | ⟨-, hno, hnumber⟩ := genAccountID_outcomes h.number o
  · cases hb.symm.trans hbreaks
  · have := h.bound
    refine .inr ⟨?_, ?_, by push_cast; omega⟩
    · rw [Seeding.call, hgen]; rfl
    · simp [Seeding.call, hgen, h.returned, List.range_succ]
  · left
    unfold Seeding.call
    split
    · next id f hgen => exact absurd (by rw [hgen]) (hno id)
    · next hgen => rw [hgen] at hnumber; exact ⟨hnumber, h.returned, h.bound⟩

theorem Counts.broken (h : s.Counts k) (hb : Breaks s.file o = true) : ¬ (s.call o).Usable := by
  obtain ⟨-, hgen⟩ | ⟨hno, -⟩ | ⟨hno, -⟩ := genAccountID_outcomes h.number o
  · have hfile : (s.call o).file = .archive none := by
      unfold Seeding.call
      split
      · next hcall => rw [hcall] at hgen; exact hgen
      · next hcall => rw [hcall] at hgen; exact hgen
    rintro ⟨-, id, f, hnext, -⟩
    rw [hfile] at hnext
    cases hnext
  · cases hno.symm.trans hb
  · cases hno.symm.trans hb

theorem Counts.usable_iff (h : s.Counts k) : s.Usable ↔ (k : Int) < 2 ^ 31 - 1 := by
  have hbound := h.bound
  obtain ⟨k', hk', hmax, hgen⟩ | ⟨hnone, -⟩ | ⟨hmax, hgen⟩ := genAccountID_cases s.file
  · obtain rfl : (k : Int) = k' := Option.some.inj (h.number.symm.trans hk')
    refine iff_of_true ⟨?_, _, _, hgen, h.not_mem⟩ (by omega)
    cases hf : s.file with
    | absent => exact .inl rfl
    | archive contents =>
      refine .inr ⟨k, by rw [← h.number, hf]; rfl, fun id hid => ?_⟩
      rw [h.returned] at hid
      obtain ⟨i, hi, rfl⟩ := List.mem_map.mp hid
      have := List.mem_range.mp hi
      exact ⟨_, rfl, by omega⟩
  · cases h.number.symm.trans hnone
  · have hk := Option.some.inj (h.number.symm.trans hmax)
    refine iff_of_false ?_ (by omega)
    rintro ⟨-, id, f, hnext, -⟩
    cases hgen.symm.trans hnext

theorem calls_concat (s : Seeding) (os : List SeedOutcomes) (o : SeedOutcomes) :
    s.calls (os ++ [o]) = (s.calls os).call o := List.foldl_append ..

theorem returned_call (s : Seeding) (o : SeedOutcomes) : s.returned <+: (s.call o).returned := by
  unfold call
  split
  · exact List.prefix_append _ _
  · exact List.prefix_refl _

theorem returned_calls (s : Seeding) {os os' : List SeedOutcomes} (h : os <+: os') :
    (s.calls os).returned <+: (s.calls os').returned := by
  obtain ⟨rest, rfl⟩ := h
  induction rest using List.reverseRecOn with
  | nil => rw [List.append_nil]
  | append_singleton rest o ih =>
    rw [← List.append_assoc, calls_concat]
    exact ih.trans (returned_call _ o)

theorem counts_calls (os : List SeedOutcomes)
    (h : ∀ pre o, pre ++ [o] <+: os → Breaks (calls {} pre).file o = false) :
    ∃ k, (calls {} os).Counts k := by
  induction os using List.reverseRecOn with
  | nil => exact ⟨0, Counts.init⟩
  | append_singleton os o ih =>
    obtain ⟨hos, ho⟩ := forall_before_concat.mp h
    obtain ⟨k, hk⟩ := ih hos
    rw [calls_concat]
    rcases hk.call ho with hk' | hk'
    · exact ⟨k, hk'⟩
    · exact ⟨k + 1, hk'⟩

theorem unbroken (os : List SeedOutcomes) (h : ∀ pre, pre <+: os → (calls {} pre).Usable) :
    ∀ pre o, pre ++ [o] <+: os → Breaks (calls {} pre).file o = false := by
  induction os using List.reverseRecOn with
  | nil =>
    intro pre o hpre
    simp at hpre
  | append_singleton os o ih =>
    obtain ⟨hos, husable⟩ := forall_prefix_concat.mp h
    obtain ⟨k, hk⟩ := counts_calls os (ih hos)
    rw [calls_concat] at husable
    refine forall_before_concat.mpr ⟨ih hos, ?_⟩
    rw [← Bool.not_eq_true]
    exact fun hb => hk.broken hb husable

end Seeding

/-- The seed file stays usable through a sequence of calls just when no call
comes to a write that spoils it and the counter stays below the largest `int`. -/
theorem seed_usable_iff (os : List SeedOutcomes) :
    (∀ pre, pre <+: os → (Seeding.calls {} pre).Usable) ↔
      (∀ pre o, pre ++ [o] <+: os → Breaks (Seeding.calls {} pre).file o = false) ∧
        ((Seeding.calls {} os).returned.length : Int) < 2 ^ 31 - 1 := by
  constructor
  · intro h
    have hbreaks := Seeding.unbroken os h
    obtain ⟨k, hk⟩ := Seeding.counts_calls os hbreaks
    exact ⟨hbreaks, by rw [hk.length]; exact hk.usable_iff.mp (h os (List.prefix_refl _))⟩
  · rintro ⟨hbreaks, hlength⟩ pre hpre
    obtain ⟨k, hk⟩ := Seeding.counts_calls pre fun p o hp => hbreaks p o (hp.trans hpre)
    have hle := (Seeding.returned_calls {} hpre).length_le
    rw [hk.length] at hle
    exact hk.usable_iff.mpr (by omega)

theorem failed_update_spoils_seed :
    (Seeding.calls {} [{ update := .failed }]).file = .archive none ∧
      (Seeding.calls {} [{ update := .failed }]).file.read = none ∧
      (genAccountID {} (Seeding.calls {} [{ update := .failed }]).file).1 = .threw ∧
      ¬ (Seeding.calls {} [{ update := .failed }]).Usable := by
  refine ⟨by decide, by decide, by decide, ?_⟩
  rintro ⟨-, id, f, hnext, -⟩
  cases hnext

end DigitalWallet

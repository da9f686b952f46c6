import Mathlib.Data.List.GetD
import Mathlib.Data.List.TakeWhile

/-! C strings: a buffer of characters, offsets into it, and the terminator that
ends a string.  A `Char` stands for a byte. -/

namespace DigitalWallet.Lib.CString

def nul : Char := Char.ofNat 0

def peek (buf : List Char) (p : Nat) : Char := buf.getD p nul

def str (buf : List Char) (p : Nat) : List Char := (buf.drop p).takeWhile (· ≠ nul)

def strcspn (buf : List Char) (p : Nat) (reject : List Char) : Nat :=
  ((buf.drop p).takeWhile fun c => c ≠ nul ∧ c ∉ reject).length

variable (pre : List Char) {xs : List Char} {c : Char} {reject : List Char} (ys : List Char)

theorem peek_append (i : Nat) : peek (pre ++ ys) (pre.length + i) = peek ys i := by
  rw [peek, peek, List.getD_append_right _ _ _ _ (Nat.le_add_right _ _), Nat.add_sub_cancel_left]

@[simp] theorem peek_append_length (c : Char) (ys : List Char) :
    peek (pre ++ c :: ys) pre.length = c := by
  exact peek_append pre (c :: ys) 0

theorem str_append (hxs : ∀ x ∈ xs, x ≠ nul) : str (pre ++ (xs ++ nul :: ys)) pre.length = xs := by
  rw [str, List.drop_left, List.takeWhile_append_of_pos (by simpa using hxs),
    List.takeWhile_cons_of_neg (by simp), List.append_nil]

theorem strcspn_append (hxs : ∀ x ∈ xs, x ≠ nul ∧ x ∉ reject) (hc : c = nul ∨ c ∈ reject) :
    strcspn (pre ++ (xs ++ c :: ys)) pre.length reject = xs.length := by
  have hstop : ¬ (c ≠ nul ∧ c ∉ reject) := by
    rintro ⟨hn, hr⟩
    exact hc.elim hn hr
  rw [strcspn, List.drop_left, List.takeWhile_append_of_pos (by simpa using hxs),
    List.takeWhile_cons_of_neg (by simpa using hstop), List.append_nil]

theorem exists_cut (xs ys : List Char) :
    ∃ zs, xs ++ nul :: ys = xs.takeWhile (· ≠ nul) ++ nul :: zs := by
  induction xs with
  | nil => exact ⟨ys, rfl⟩
  | cons x xs ih =>
    obtain ⟨zs, hzs⟩ := ih
    by_cases hx : x = nul
    · exact ⟨xs ++ nul :: ys, by simp [hx]⟩
    · exact ⟨zs, by rw [List.takeWhile_cons_of_pos (by simpa using hx), List.cons_append, hzs]; rfl⟩

theorem splitOn_cases (sep : Char) (q : List Char) :
    (sep ∉ q ∧ q.splitOn sep = [q]) ∨
      ∃ p q', q = p ++ sep :: q' ∧ sep ∉ p ∧ q.splitOn sep = p :: q'.splitOn sep := by
  by_cases hsep : sep ∈ q
  · obtain ⟨p, q', rfl, hp⟩ := List.eq_append_cons_of_mem hsep
    exact .inr ⟨p, q', rfl, hp, List.splitOn_append_cons_self_of_not_mem hp q'⟩
  · exact .inl ⟨hsep, List.splitOn_eq_singleton hsep⟩

end DigitalWallet.Lib.CString

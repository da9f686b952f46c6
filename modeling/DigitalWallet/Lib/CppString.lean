import Mathlib.Data.List.TakeWhile
import Mathlib.Data.Int.Basic
import Mathlib.Tactic.Common

/-! The parts of the C++ string library that read and print numbers.  Texts are
sequences of code units; a base-10 `strtol` skips white space, takes one
optional sign and then the longest run of digits. -/

namespace DigitalWallet.Lib.Cpp

def isSpace (c : Char) : Bool := c == ' ' || (9 ≤ c.toNat && c.toNat ≤ 13)

def scanDigits (s : List Char) : Option Nat :=
  match s.takeWhile Char.isDigit with
  | [] => none
  | d :: ds => some (Nat.ofDigitChars 10 (d :: ds) 0)

def scanSigned : List Char → Option Int
  | '-' :: s => (scanDigits s).map fun n => -(n : Int)
  | '+' :: s => (scanDigits s).map fun n => (n : Int)
  | s => (scanDigits s).map fun n => (n : Int)

def strtol (s : String) : Option Int := scanSigned (s.toList.dropWhile isSpace)

inductive StoiError
  | invalidArgument | outOfRange
  deriving DecidableEq

/-- `std::stoi`, for a type `int` whose values are those that `fits` admits. -/
def stoi (fits : Int → Bool) (s : String) : Except StoiError Int :=
  match strtol s with
  | none => .error .invalidArgument
  | some n => if fits n then .ok n else .error .outOfRange

def toString (n : Int) : String := n.repr

def setw (width : Nat) (fill : Char) (s : String) : String :=
  String.ofList (s.toList.leftpad width fill)

theorem scanDigits_toDigits (n : Nat) : scanDigits (Nat.toDigits 10 n) = some n := by
  have hall : (Nat.toDigits 10 n).takeWhile Char.isDigit = Nat.toDigits 10 n :=
    List.takeWhile_eq_self_iff.mpr fun c hc =>
      Nat.isDigit_of_mem_toDigits (by decide) (by decide) hc
  unfold scanDigits
  rw [hall]
  cases h : Nat.toDigits 10 n with
  | nil => exact absurd h Nat.toDigits_ne_nil
  | cons d ds =>
    change some (Nat.ofDigitChars 10 (d :: ds) 0) = some n
    rw [← h, Nat.ofDigitChars_ten_toDigits]

theorem head_toDigits (n : Nat) : ∃ d ds, Nat.toDigits 10 n = d :: ds ∧ d.isDigit = true := by
  cases h : Nat.toDigits 10 n with
  | nil => exact absurd h Nat.toDigits_ne_nil
  | cons d ds =>
    refine ⟨d, ds, rfl, ?_⟩
    exact Nat.isDigit_of_mem_toDigits (n := n) (by decide) (by decide : (10 : Nat) ≤ 10) (by simp [h])

theorem isDigit_bounds {c : Char} (h : c.isDigit = true) : 48 ≤ c.toNat ∧ c.toNat ≤ 57 := by
  simp only [Char.isDigit, Bool.and_eq_true, decide_eq_true_eq] at h
  exact ⟨UInt32.le_iff_toNat_le.mp h.1, UInt32.le_iff_toNat_le.mp h.2⟩

theorem not_isSpace_of_isDigit {c : Char} (h : c.isDigit = true) : isSpace c = false := by
  have hb := isDigit_bounds h
  simp only [isSpace, Bool.or_eq_false_iff, Bool.and_eq_false_iff, decide_eq_false_iff_not, beq_eq_false_iff_ne]
  refine ⟨?_, Or.inr (by omega)⟩
  rintro rfl
  simp at hb

theorem scanSigned_digit {c : Char} (h : c.isDigit = true) (s : List Char) :
    scanSigned (c :: s) = (scanDigits (c :: s)).map fun n => (n : Int) := by
  have hb := isDigit_bounds h
  unfold scanSigned
  split
  · rename_i heq; cases heq; simp at hb
  · rename_i heq; cases heq; simp at hb
  · rfl

theorem toString_of_nonneg (n : Nat) : toString n = n.repr := by
  simp [toString, Int.repr_eq_if]

theorem toString_of_neg {n : Int} (h : n < 0) : toString n = "-" ++ (-n).toNat.repr := by
  rw [toString, Int.repr_eq_if, if_neg (by omega)]

theorem strtol_sign (n : Nat) :
    strtol (n.repr) = some (n : Int) ∧ strtol ("-" ++ n.repr) = some (-(n : Int)) ∧
      strtol ("+" ++ n.repr) = some (n : Int) := by
  obtain ⟨d, ds, hd, hdigit⟩ := head_toDigits n
  have hscan := scanDigits_toDigits n
  refine ⟨?_, ?_, ?_⟩
  · rw [hd] at hscan
    simp only [strtol, Nat.toList_repr, hd,
      List.dropWhile_cons_of_neg (by simp [not_isSpace_of_isDigit hdigit] : ¬ isSpace d = true)]
    rw [scanSigned_digit hdigit, hscan]
    rfl
  · have hs : isSpace '-' = false := by decide
    simp [strtol, hs, scanSigned, hscan]
  · have hs : isSpace '+' = false := by decide
    simp [strtol, hs, scanSigned, hscan]

@[simp] theorem strtol_toString (n : Int) : strtol (toString n) = some n := by
  by_cases h : n < 0
  · rw [toString_of_neg h, (strtol_sign _).2.1]
    simp; omega
  · obtain ⟨m, rfl⟩ := Int.eq_ofNat_of_zero_le (Int.not_lt.mp h)
    rw [toString_of_nonneg, (strtol_sign m).1]

@[simp] theorem stoi_toString (fits : Int → Bool) (n : Int) :
    stoi fits (toString n) = if fits n then .ok n else .error .outOfRange := by
  rw [stoi, strtol_toString]

theorem stoi_ok_iff {fits : Int → Bool} {s : String} {n : Int} :
    stoi fits s = .ok n ↔ strtol s = some n ∧ fits n = true := by
  unfold stoi
  cases strtol s with
  | none => simp
  | some m =>
    constructor
    · intro h
      simp only at h
      split at h
      · next hm => cases h; exact ⟨rfl, hm⟩
      · cases h
    · rintro ⟨heq, hfits⟩
      cases heq
      simp [hfits]

theorem toString_injective : Function.Injective toString := by
  intro m n h
  have := congrArg strtol h
  simpa using this

theorem strtol_minus_toString {n : Int} (h : 0 ≤ n) : strtol ("-" ++ toString n) = some (-n) := by
  obtain ⟨m, rfl⟩ := Int.eq_ofNat_of_zero_le h
  rw [toString_of_nonneg, (strtol_sign m).2.1]

theorem strtol_plus_toString {n : Int} (h : 0 ≤ n) : strtol ("+" ++ toString n) = some n := by
  obtain ⟨m, rfl⟩ := Int.eq_ofNat_of_zero_le h
  rw [toString_of_nonneg, (strtol_sign m).2.2]

theorem ofDigitChars_setw (width n : Nat) :
    Nat.ofDigitChars 10 (setw width '0' (toString n)).toList 0 = n := by
  simp [setw, toString_of_nonneg, List.leftpad, Nat.ofDigitChars_append]

theorem setw_toString_inj (width : Nat) {m n : Int} (hm : 0 ≤ m) (hn : 0 ≤ n)
    (h : setw width '0' (toString m) = setw width '0' (toString n)) : m = n := by
  obtain ⟨m, rfl⟩ := Int.eq_ofNat_of_zero_le hm
  obtain ⟨n, rfl⟩ := Int.eq_ofNat_of_zero_le hn
  have := congrArg (fun s => Nat.ofDigitChars 10 s.toList 0) h
  simp only [ofDigitChars_setw] at this
  exact congrArg Int.ofNat this

end DigitalWallet.Lib.Cpp

import DigitalWallet.Lib.CppString

namespace DigitalWallet.Lib.Cpp

inductive Signed : List Char → Nat → Int → Prop
  | none (m : Nat) : Signed [] m m
  | plus (m : Nat) : Signed ['+'] m m
  | minus (m : Nat) : Signed ['-'] m (-m)

inductive Numeral : List Char → Int → List Char → Prop
  | mk {space sign digits rest : List Char} {n : Int} : (∀ c ∈ space, isSpace c = true) →
      Signed sign (Nat.ofDigitChars 10 digits 0) n → digits ≠ [] →
      (∀ c ∈ digits, c.isDigit = true) → (∀ c, rest.head? = some c → c.isDigit = false) →
      Numeral (space ++ (sign ++ (digits ++ rest))) n rest

def Whole (s : String) (n : Int) : Prop := Numeral s.toList n []

def unsigned : List Char → List Char
  | '-' :: s => s
  | '+' :: s => s
  | s => s

def rest (s : List Char) : List Char := (unsigned (s.dropWhile isSpace)).dropWhile Char.isDigit

theorem scanDigits_eq_some {s : List Char} {m : Nat} :
    scanDigits s = some m ↔
      s.takeWhile Char.isDigit ≠ [] ∧ Nat.ofDigitChars 10 (s.takeWhile Char.isDigit) 0 = m := by
  unfold scanDigits
  split
  · next h => simp [h]
  · next d ds h => simp [h]

theorem unsigned_of_ne {s : List Char} (hminus : ∀ s', s ≠ '-' :: s') (hplus : ∀ s', s ≠ '+' :: s') :
    unsigned s = s := by
  unfold unsigned
  split
  · exact absurd rfl (hminus _)
  · exact absurd rfl (hplus _)
  · rfl

theorem scanned {f : Int → Int} {s : List Char} {n : Int}
    (h : (do let m ← scanDigits s; pure (m : Int) : Option Int).map f = some n) :
    ∃ m : Nat, scanDigits s = some m ∧ f m = n := by
  cases hm : scanDigits s with
  | none => simp [hm] at h
  | some m => exact ⟨m, rfl, by simpa [hm] using h⟩

theorem scanSigned_eq_some {s : List Char} {n : Int} :
    scanSigned s = some n ↔ ∃ sign m, Signed sign m n ∧ s = sign ++ unsigned s ∧
      scanDigits (unsigned s) = some m := by
  constructor
  · intro h
    unfold scanSigned at h
    split at h
    · obtain ⟨m, hm, rfl⟩ := scanned h
      exact ⟨['-'], m, .minus m, rfl, hm⟩
    · obtain ⟨m, hm, rfl⟩ := scanned h
      exact ⟨['+'], m, .plus m, rfl, hm⟩
    · next hminus hplus =>
      obtain ⟨m, hm, rfl⟩ := scanned h
      have hu := unsigned_of_ne hminus hplus
      exact ⟨[], m, .none m, by rw [hu]; rfl, by rw [hu]; exact hm⟩
  · rintro ⟨sign, m, hsign, hs, hm⟩
    cases hsign with
    | none =>
      unfold scanSigned
      split
      · exact absurd (congrArg List.length hs) (by simp [unsigned])
      · exact absurd (congrArg List.length hs) (by simp [unsigned])
      · rw [hs, List.nil_append, hm]; rfl
    | plus => rw [hs]; simp [scanSigned, hm]
    | minus => rw [hs]; simp [scanSigned, hm]

theorem Signed.head_not_space {sign digits : List Char} {m : Nat} {n : Int} (h : Signed sign m n)
    (hd : ∀ c ∈ digits, c.isDigit = true) (c : Char)
    (hc : (sign ++ digits).head? = some c) : isSpace c = false := by
  cases h with
  | none =>
    apply not_isSpace_of_isDigit
    exact hd c (List.mem_of_head? hc)
  | plus => cases hc; decide
  | minus => cases hc; decide

theorem Signed.unsigned_append {sign digits : List Char} {m : Nat} {n : Int} (h : Signed sign m n)
    (hne : digits ≠ []) (hd : ∀ c ∈ digits, c.isDigit = true) (r : List Char) :
    unsigned (sign ++ (digits ++ r)) = digits ++ r := by
  cases h with
  | none =>
    cases digits with
    | nil => exact absurd rfl hne
    | cons d ds =>
      have hb := isDigit_bounds (hd d List.mem_cons_self)
      refine unsigned_of_ne ?_ ?_ <;> intro s' hs' <;> cases hs' <;> simp at hb
  | plus => rfl
  | minus => rfl

theorem takeWhile_append_exact {p : Char → Bool} {xs r : List Char} (h : ∀ c ∈ xs, p c = true)
    (hr : ∀ c, r.head? = some c → p c = false) :
    (xs ++ r).takeWhile p = xs ∧ (xs ++ r).dropWhile p = r := by
  rw [List.takeWhile_append_of_pos h, List.dropWhile_append_of_pos h]
  cases r with
  | nil => simp
  | cons c r => simp [hr c rfl]

/-- `strtol` reads exactly the numerals. -/
theorem numeral_iff {s : List Char} {n : Int} {r : List Char} :
    Numeral s n r ↔ scanSigned (s.dropWhile isSpace) = some n ∧ r = rest s := by
  constructor
  · rintro ⟨hspace, hsign, hne, hd, hr⟩
    rename_i space sign digits
    have hstop : ∀ c, (sign ++ (digits ++ r)).head? = some c → isSpace c = false := by
      intro c hc
      refine hsign.head_not_space hd c ?_
      rw [← List.append_assoc, List.head?_append] at hc
      cases hhead : (sign ++ digits).head? with
      | none => simp [hne] at hhead
      | some c' => simpa [hhead] using hc
    have hdrop := (takeWhile_append_exact hspace hstop).2
    have hunsigned := hsign.unsigned_append hne hd r
    have hdigits := takeWhile_append_exact hd hr
    constructor
    · rw [hdrop]
      refine scanSigned_eq_some.mpr ⟨sign, _, hsign, by rw [hunsigned], ?_⟩
      rw [hunsigned]
      exact scanDigits_eq_some.mpr (by rw [hdigits.1]; exact ⟨hne, rfl⟩)
    · rw [rest, hdrop, hunsigned, hdigits.2]
  · rintro ⟨hscan, rfl⟩
    obtain ⟨sign, m, hsign, hs, hm⟩ := scanSigned_eq_some.mp hscan
    obtain ⟨hne, rfl⟩ := scanDigits_eq_some.mp hm
    have hsplit : s.takeWhile isSpace ++ (sign ++
        ((unsigned (s.dropWhile isSpace)).takeWhile Char.isDigit ++ rest s)) = s := by
      rw [rest, List.takeWhile_append_dropWhile, ← hs, List.takeWhile_append_dropWhile]
    have hnumeral : Numeral (s.takeWhile isSpace ++ (sign ++
        ((unsigned (s.dropWhile isSpace)).takeWhile Char.isDigit ++ rest s))) n (rest s) := by
      refine .mk (fun c hc => List.mem_takeWhile_imp hc) hsign hne
        (fun c hc => List.mem_takeWhile_imp hc) fun c hc => ?_
      have := List.head?_dropWhile_not Char.isDigit (unsigned (s.dropWhile isSpace))
      rw [rest] at hc
      rw [hc] at this
      simpa using this
    rwa [hsplit] at hnumeral

theorem stoi_eq_ok {fits : Int → Bool} {s : String} {n : Int} :
    stoi fits s = .ok n ↔ Numeral s.toList n (rest s.toList) ∧ fits n = true := by
  have hscan : Numeral s.toList n (rest s.toList) ↔ strtol s = some n := by
    rw [numeral_iff]
    exact and_iff_left rfl
  rw [hscan, stoi_ok_iff]

end DigitalWallet.Lib.Cpp

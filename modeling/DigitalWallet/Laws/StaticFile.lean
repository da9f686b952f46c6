import DigitalWallet.Defs.StaticFile

namespace DigitalWallet

open Lib CString

section Entry

variable (r : Char) (done rest : List Char)

theorem matchSpecial_append (ps : List Char) (i : Nat) :
    matchSpecial (done ++ rest) ps (done.length + i) = (matchSpecial rest ps i).map (done.length + ·) := by
  induction ps generalizing i with
  | nil => rfl
  | cons p ps ih =>
    simp only [matchSpecial, peek_append, List.length_append, Nat.add_le_add_iff_left, Nat.add_assoc, ih]
    split
    · rfl
    · split <;> rfl

theorem skipNumber_append (i : Nat) :
    skipNumber (done ++ rest) (done.length + i) = (skipNumber rest i).map (done.length + ·) := by
  simp only [skipNumber, peek_append, List.length_append, Nat.add_le_add_iff_left]
  split <;> rfl

theorem sanitizeSpecialFile_append (ps : List Char) (number : Bool) :
    sanitizeSpecialFile r (done ++ rest) done.length ps number =
      done ++ sanitizeSpecialFile r rest 0 ps number := by
  have hmatch := matchSpecial_append done rest ps 0
  have hend : ((matchSpecial (done ++ rest) ps done.length).bind fun i =>
      if number then skipNumber (done ++ rest) i else some i) =
        ((matchSpecial rest ps 0).bind fun i => if number then skipNumber rest i else some i).map
          (done.length + ·) := by
    rw [Nat.add_zero] at hmatch
    rw [hmatch]
    cases matchSpecial rest ps 0 with
    | none => rfl
    | some i => cases number <;> simp [skipNumber_append]
  rw [sanitizeSpecialFile, sanitizeSpecialFile, hend]
  cases (matchSpecial rest ps 0).bind fun i => if number then skipNumber rest i else some i with
  | none => rfl
  | some i =>
    simp only [Option.map_some, peek_append, List.length_append, Nat.add_le_add_iff_left]
    split
    · rw [List.take_length_add_append, List.drop_length_add_append, List.append_assoc, List.set_append_right _ _ le_rfl,
        Nat.sub_self]
    · rfl

theorem sanitizeEntry_append : sanitizeEntry r (done ++ rest) done.length = done ++ sanitizeEntry r rest 0 := by
  have hpeek := peek_append done rest 0
  rw [Nat.add_zero] at hpeek
  simp only [sanitizeEntry, hpeek]
  split <;> simp only [sanitizeSpecialFile_append]

theorem matchSpecial_le {ps : List Char} {i j : Nat} (h : matchSpecial rest ps i = some j) : i + ps.length = j := by
  induction ps generalizing i with
  | nil =>
    cases h
    rfl
  | cons p ps ih =>
    simp only [matchSpecial] at h
    split at h
    · cases h
    · split at h
      · cases h
      · have hnext := ih h
        rw [List.length_cons]
        omega

theorem sanitizeSpecialFile_cases {ps : List Char} (hps : ps ≠ []) (number : Bool) :
    sanitizeSpecialFile r rest 0 ps number = rest ∨
      ∃ tail, sanitizeSpecialFile r rest 0 ps number = r :: tail ∧ tail.length + 1 ≤ rest.length := by
  rw [sanitizeSpecialFile]
  cases hend : (matchSpecial rest ps 0).bind fun i => if number then skipNumber rest i else some i with
  | none => exact .inl rfl
  | some j =>
    simp only
    split
    · obtain ⟨i, hi, hj⟩ := Option.bind_eq_some_iff.mp hend
      have hlength := matchSpecial_le rest hi
      have hpos := List.length_pos_iff.mpr hps
      have hle : 0 < j := by
        cases number with
        | false =>
          cases hj
          omega
        | true =>
          simp only [if_true, skipNumber] at hj
          split at hj
          · cases hj
          · cases hj
            omega
      cases rest with
      | nil => exact .inl (by simp)
      | cons c cs => exact .inr ⟨cs.drop (j - 1), by simp [List.drop_cons hle], by simp⟩
    · exact .inl rfl

theorem sanitizeEntry_cases : sanitizeEntry r rest 0 = rest ∨
    ∃ tail, sanitizeEntry r rest 0 = r :: tail ∧ tail.length + 1 ≤ rest.length := by
  unfold sanitizeEntry
  split
  · exact sanitizeSpecialFile_cases r rest (by simp) false
  · rcases sanitizeSpecialFile_cases r rest (List.cons_ne_nil 'C' ['O', 'N']) false with heq | ⟨tail, heq, hle⟩
    · rw [heq]
      exact sanitizeSpecialFile_cases r rest (by simp) true
    · rw [heq]
      rcases sanitizeSpecialFile_cases r (r :: tail) (List.cons_ne_nil 'C' ['O', 'M']) true with heq' | ⟨tail', heq', hle'⟩
      · exact .inr ⟨tail, heq', hle⟩
      · exact .inr ⟨tail', heq', hle'.trans hle⟩
  · exact sanitizeSpecialFile_cases r rest (by simp) true
  · exact sanitizeSpecialFile_cases r rest (by simp) false
  · exact sanitizeSpecialFile_cases r rest (by simp) false
  · exact sanitizeSpecialFile_cases r rest (by simp) false
  · exact .inl rfl

def isSeparator (c : Char) : Bool := c = '/' ∨ c = '\\'

def Dots (l : List Char) : Prop := ∃ rest, l = '.' :: '.' :: rest ∧ ∀ c ∈ rest.head?, isSeparator c

variable {r rest}

theorem not_dots_entry (hr : r ≠ '.') : ¬Dots (sanitizeEntry r rest 0) := by
  rcases sanitizeEntry_cases r rest with heq | ⟨tail, heq, -⟩
  · rw [heq]
    rintro ⟨l, rfl, hl⟩
    have hdots : sanitizeEntry r ('.' :: '.' :: l) 0 = r :: l := by
      have hstop : ('.' :: '.' :: l).length ≤ 2 ∨ peek ('.' :: '.' :: l) 2 ∈ ['.', ':', '/', '\\'] := by
        cases l with
        | nil => exact .inl le_rfl
        | cons c l =>
          have hc := hl c rfl
          refine .inr ?_
          rw [show peek ('.' :: '.' :: c :: l) 2 = c from rfl]
          simp only [isSeparator, decide_eq_true_eq] at hc
          rcases hc with rfl | rfl <;> decide
      have hmatch : matchSpecial ('.' :: '.' :: l) ['.', '.'] 0 = some 2 := by
        simp [matchSpecial, peek, toUpper]
      have hupper : toUpper (peek ('.' :: '.' :: l) 0) = '.' := rfl
      simp only [sanitizeEntry, hupper, sanitizeSpecialFile, hmatch, Option.bind_some]
      rw [if_neg (by simp)]
      simp only
      rw [if_pos hstop]
      rfl
    rw [hdots] at heq
    exact hr (List.cons.inj heq).1
  · rw [heq]
    rintro ⟨l, hl, -⟩
    exact hr (List.cons.inj hl).1

end Entry

section Loop

variable (r : Char)

def cleaned : Nat → Bool → Bool → List Char → List Char
  | 0, _, _, rest => rest
  | n + 1, first, check, rest =>
    match if check then sanitizeEntry r rest 0 else rest with
    | [] => []
    | c :: cs =>
      if badChar c || (isSeparator c && first) then r :: cleaned n false false cs
      else c :: cleaned n false (isSeparator c) cs

theorem sanitizeLoop_append (n : Nat) (done : List Char) (check : Bool) (rest : List Char) :
    sanitizeLoop r n (done ++ rest) done.length check = done ++ cleaned r n done.isEmpty check rest := by
  induction n generalizing done check rest with
  | zero => rfl
  | succ n ih =>
    have hnext : ∀ (c : Char) (cs : List Char) (check : Bool),
        sanitizeLoop r n (done ++ c :: cs) (done.length + 1) check = done ++ c :: cleaned r n false check cs := by
      intro c cs check
      have hne : (done ++ [c]).isEmpty = false := by cases done <;> rfl
      have hstep := ih (done ++ [c]) check cs
      rw [hne] at hstep
      simpa using hstep
    have hentry : (if check then sanitizeEntry r (done ++ rest) done.length else done ++ rest) =
        done ++ if check then sanitizeEntry r rest 0 else rest := by
      cases check <;> simp [sanitizeEntry_append]
    rw [sanitizeLoop, cleaned, hentry]
    cases rest with
    | nil =>
      have hnil : (if check then sanitizeEntry r [] 0 else []) = [] := by cases check <;> rfl
      rw [if_neg (by simp), hnil]
    | cons c cs =>
      rw [if_pos (by simp)]
      cases hrest : if check then sanitizeEntry r (c :: cs) 0 else c :: cs with
      | nil =>
        cases check with
        | false => cases hrest
        | true => rcases sanitizeEntry_cases r (c :: cs) with heq | ⟨tail, heq, -⟩ <;> simp [heq] at hrest
      | cons d ds =>
        simp only [peek_append_length, hnext, List.set_append_right _ _ le_rfl, Nat.sub_self, List.set_cons_zero]
        cases badChar d with
        | true => simp
        | false =>
          by_cases hsep : d = '/' ∨ d = '\\'
          · cases done <;> simp [isSeparator, hsep]
          · simp [isSeparator, hsep]

variable {r}

inductive Kept (r : Char) : List Char → List Char → Prop
  | nil : Kept r [] []
  | replaced (c : Char) {out rest} : Kept r out rest → Kept r (r :: out) (c :: rest)
  | kept (c : Char) {out rest} : Kept r out rest → Kept r (c :: out) (c :: rest)
  | separator {c : Char} (hc : isSeparator c) (out rest) : Kept r (c :: out) (c :: rest)

theorem kept_cleaned {n : Nat} {rest : List Char} (hn : rest.length ≤ n) (first : Bool) :
    Kept r (cleaned r n first false rest) rest := by
  induction n generalizing rest first with
  | zero =>
    obtain rfl : rest = [] := List.length_eq_zero_iff.mp (Nat.le_zero.mp hn)
    exact .nil
  | succ n ih =>
    cases rest with
    | nil => exact .nil
    | cons c cs =>
      have hcs : cs.length ≤ n := Nat.le_of_succ_le_succ hn
      simp only [cleaned, Bool.false_eq_true, if_false]
      split
      · exact .replaced c (ih hcs false)
      · cases hc : isSeparator c with
        | true => exact .separator hc _ _
        | false => exact .kept c (ih hcs false)

theorem Kept.dots (hr : r ≠ '.') (hsep : isSeparator r = false) {out rest : List Char} (h : Kept r out rest)
    (hout : Dots out) : Dots rest := by
  obtain ⟨tail, rfl, htail⟩ := hout
  have hdot : isSeparator '.' = false := rfl
  cases h with
  | replaced => exact absurd rfl hr
  | separator hc => simp [hdot] at hc
  | kept _ h =>
    cases h with
    | replaced => exact absurd rfl hr
    | separator hc => simp [hdot] at hc
    | kept _ h =>
      refine ⟨_, rfl, ?_⟩
      cases h with
      | nil => simp
      | replaced => simp [hsep] at htail
      | kept => simpa using htail
      | separator hc => simpa using hc

/-- No name behind a separator is the way to the parent directory. -/
def Confined : List Char → Prop
  | [] => True
  | c :: cs => (isSeparator c → ¬Dots cs) ∧ Confined cs

theorem sanitizeEntry_length (r : Char) (rest : List Char) : (sanitizeEntry r rest 0).length ≤ rest.length := by
  rcases sanitizeEntry_cases r rest with heq | ⟨tail, heq, hle⟩
  · rw [heq]
  · rw [heq]
    exact hle

theorem not_dots_nil : ¬Dots [] := by
  rintro ⟨l, hl, -⟩
  cases hl

theorem not_dots_cleaned (hr : r ≠ '.') (hsep : isSeparator r = false) {n : Nat} {rest : List Char}
    (hn : rest.length ≤ n) (first : Bool) : ¬Dots (cleaned r n first true rest) := by
  cases n with
  | zero =>
    obtain rfl : rest = [] := List.length_eq_zero_iff.mp (Nat.le_zero.mp hn)
    exact not_dots_nil
  | succ n =>
    have hkept := kept_cleaned (r := r) ((sanitizeEntry_length r rest).trans hn) first
    exact fun hdots => not_dots_entry hr (hkept.dots hr hsep hdots)

structure Sanitized (first check : Bool) (out : List Char) : Prop where
  confined : Confined out
  start : check → ¬Dots out
  relative : first → ∀ c ∈ out.head?, isSeparator c = false
  clean : ∀ c ∈ out, badChar c = false

theorem sanitized_cleaned (hr : r ≠ '.') (hsep : isSeparator r = false) (hbad : badChar r = false) {n : Nat}
    {rest : List Char} (hn : rest.length ≤ n) (first check : Bool) :
    Sanitized first check (cleaned r n first check rest) := by
  have hstart : check → ¬Dots (cleaned r n first check rest) := by
    rintro rfl
    exact not_dots_cleaned hr hsep hn first
  induction n generalizing rest first check with
  | zero =>
    obtain rfl : rest = [] := List.length_eq_zero_iff.mp (Nat.le_zero.mp hn)
    exact ⟨trivial, hstart, by simp [cleaned], by simp [cleaned]⟩
  | succ n ih =>
    have hlength : (if check then sanitizeEntry r rest 0 else rest).length ≤ n + 1 := by
      cases check with
      | false => exact hn
      | true => exact (sanitizeEntry_length r rest).trans hn
    rw [cleaned] at hstart ⊢
    generalize (if check then sanitizeEntry r rest 0 else rest) = rest' at hlength hstart ⊢
    cases rest' with
    | nil => exact ⟨trivial, hstart, by simp, by simp⟩
    | cons c cs =>
      have hcs : cs.length ≤ n := Nat.le_of_succ_le_succ hlength
      simp only at hstart ⊢
      split
      · next hreplace =>
        rw [if_pos hreplace] at hstart
        have hrest := ih hcs false false (by simp)
        exact ⟨⟨by simp [hsep], hrest.confined⟩, hstart, by simp [hsep],
          List.forall_mem_cons.mpr ⟨hbad, hrest.clean⟩⟩
      · next hkeep =>
        rw [if_neg hkeep] at hstart
        simp only [Bool.or_eq_true, Bool.and_eq_true, not_or, not_and, Bool.not_eq_true] at hkeep
        have hrest := ih hcs false (isSeparator c) fun hc => by
          rw [hc]
          exact not_dots_cleaned hr hsep hcs false
        refine ⟨⟨hrest.start, hrest.confined⟩, hstart, ?_, List.forall_mem_cons.mpr ⟨hkeep.1, hrest.clean⟩⟩
        intro hfirst d hd
        cases hd
        cases hc : isSeparator c with
        | false => rfl
        | true => simp [hkeep.2 hc] at hfirst

theorem sanitizeFilename_spec (hr : r ≠ '.') (hsep : isSeparator r = false) (hbad : badChar r = false)
    (data : List Char) : Sanitized true true (sanitizeFilename r data) := by
  have hloop := sanitizeLoop_append r (data.take 255).length [] true (data.take 255)
  rw [sanitizeFilename]
  simp only [List.nil_append, List.length_nil, List.isEmpty_nil] at hloop
  rw [hloop]
  exact sanitized_cleaned hr hsep hbad le_rfl true true

end Loop

section Walk

def walk (dir : List (List Char)) (path : List Char) : List (List Char) :=
  (path.splitOn '/').foldl
    (fun dir name =>
      if name = [] ∨ name = ['.'] then dir
      else if name = ['.', '.'] then dir.dropLast
      else dir ++ [name])
    dir

theorem walk_below {path : List Char} (hpath : ['.', '.'] ∉ path.splitOn '/') (dir : List (List Char)) :
    dir <+: walk dir path := by
  unfold walk
  generalize path.splitOn '/' = names at hpath
  induction names generalizing dir with
  | nil => exact List.prefix_refl dir
  | cons name names ih =>
    rw [List.mem_cons, not_or] at hpath
    rw [List.foldl_cons]
    refine List.IsPrefix.trans ?_ (ih _ hpath.2)
    split
    · exact List.prefix_refl dir
    · rw [if_neg (Ne.symm hpath.1)]
      exact List.prefix_append dir [name]

theorem Confined.append {pre post : List Char} (h : Confined (pre ++ post)) : Confined post := by
  induction pre with
  | nil => exact h
  | cons c pre ih => exact ih h.2

theorem Confined.no_parent {out : List Char} (h : Confined out) (hstart : ¬Dots out) :
    ['.', '.'] ∉ out.splitOn '/' := by
  -- One name at a time: what follows a separator is confined again.
  induction hn : out.length using Nat.strong_induction_on generalizing out with
  | _ n ih =>
    rcases splitOn_cases '/' out with ⟨-, hsplit⟩ | ⟨name, rest, rfl, -, hsplit⟩
    · rw [hsplit, List.mem_singleton]
      rintro rfl
      exact hstart ⟨[], rfl, by simp⟩
    · rw [hsplit, List.mem_cons, not_or]
      have hrest := h.append
      constructor
      · rintro rfl
        exact hstart ⟨'/' :: rest, rfl, by simp [isSeparator]⟩
      · refine ih rest.length ?_ hrest.2 (hrest.1 (by simp [isSeparator])) rfl
        simp only [← hn, List.length_append, List.length_cons]
        omega

end Walk

/-- Whatever the URL names, the file lies below the static directory. -/
theorem staticFile_below (dir : List (List Char)) (filePathPartial : List Char) :
    dir ++ ["static".toList] <+: walk dir (staticFile filePathPartial) := by
  have hout := sanitizeFilename_spec (r := '_') (by decide) (by decide) (by decide) filePathPartial
  have hbelow := walk_below (hout.confined.no_parent (hout.start rfl)) (dir ++ ["static".toList])
  have hname : '/' ∉ "static".toList := by decide
  have hsplit : (staticFile filePathPartial).splitOn '/' =
      "static".toList :: (sanitizeFilename '_' filePathPartial).splitOn '/' :=
    List.splitOn_append_cons_self_of_not_mem hname _
  rw [walk, hsplit, List.foldl_cons]
  exact hbelow

end DigitalWallet

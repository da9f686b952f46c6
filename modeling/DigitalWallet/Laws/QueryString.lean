import DigitalWallet.Defs.QueryString
import Mathlib.Data.Bool.AllAny

namespace DigitalWallet

open Lib CString

theorem isQsChr_iff {c : Char} :
    qsIsQsChr c = true ↔ c ≠ '=' ∧ c ≠ '#' ∧ c ≠ '&' ∧ c ≠ nul := by
  simp [qsIsQsChr, and_assoc]

theorem isHex_of_not_isQsChr {c : Char} (h : qsIsQsChr c = false) : qsIsHex c = false := by
  simp only [qsIsQsChr, Bool.not_eq_false', Bool.or_eq_true, beq_iff_eq] at h
  rcases h with ((rfl | rfl) | rfl) | rfl <;> decide

theorem isQsChr_of_isHex {c : Char} (h : qsIsHex c = true) : qsIsQsChr c = true := by
  cases hc : qsIsQsChr c with
  | true => rfl
  | false => rw [isHex_of_not_isQsChr hc] at h; cases h

/-- A text and what it stands for, however its characters were written. -/
inductive Encodes : List Char → List Char → Prop
  | nil : Encodes [] []
  | plain {c e r} : qsIsQsChr c = true → c ≠ '+' → c ≠ '%' → Encodes e r → Encodes (c :: e) (c :: r)
  | plus {e r} : Encodes e r → Encodes ('+' :: e) (' ' :: r)
  | hex {unyb lnyb e r} : qsIsHex unyb = true → qsIsHex lnyb = true → Encodes e r →
      Encodes ('%' :: unyb :: lnyb :: e) (qsByte unyb lnyb :: r)

def qsStuck : List Char → Bool
  | [] => true
  | c :: cs => !qsIsQsChr c || c == '%' && !(qsIsHex (cs.headD nul) && qsIsHex (cs.tail.headD nul))

def percentDecode : List Char → List Char
  | [] => []
  | c :: cs =>
    if !qsIsQsChr c then []
    else if c = '+' then ' ' :: percentDecode cs
    else if c = '%' then
      match cs with
      | unyb :: lnyb :: cs =>
        if qsIsHex unyb && qsIsHex lnyb then qsByte unyb lnyb :: percentDecode cs else []
      | _ => []
    else c :: percentDecode cs

section Decode

theorem percentDecode_plain {c : Char} (hc : qsIsQsChr c = true) (hplus : c ≠ '+') (hpercent : c ≠ '%')
    (cs : List Char) : percentDecode (c :: cs) = c :: percentDecode cs := by
  rw [percentDecode.eq_def]
  simp [hc, hplus, hpercent]

theorem percentDecode_plus (cs : List Char) : percentDecode ('+' :: cs) = ' ' :: percentDecode cs := by
  rw [percentDecode.eq_def]
  simp [show qsIsQsChr '+' = true by decide]

theorem percentDecode_hex {unyb lnyb : Char} (hu : qsIsHex unyb = true) (hl : qsIsHex lnyb = true)
    (cs : List Char) :
    percentDecode ('%' :: unyb :: lnyb :: cs) = qsByte unyb lnyb :: percentDecode cs := by
  rw [percentDecode.eq_def]
  simp [show qsIsQsChr '%' = true by decide, hu, hl]

theorem percentDecode_stuck {cs : List Char} (h : qsStuck cs = true) : percentDecode cs = [] := by
  cases cs with
  | nil => rfl
  | cons c cs =>
    rw [percentDecode.eq_def]
    cases hc : qsIsQsChr c with
    | false => simp [hc]
    | true =>
      simp only [qsStuck, hc, Bool.not_true, Bool.false_or, Bool.and_eq_true, beq_iff_eq] at h
      obtain ⟨rfl, hhex⟩ := h
      match cs with
      | [] => simp [hc]
      | [unyb] => simp [hc]
      | unyb :: lnyb :: cs =>
        simp only [List.headD_cons, List.tail_cons, Bool.not_eq_true'] at hhex
        simp [hc, hhex]

theorem Encodes.percentDecode_append {e r : List Char} (h : Encodes e r) (rest : List Char) :
    percentDecode (e ++ rest) = r ++ percentDecode rest := by
  induction h with
  | nil => rfl
  | plain hc hplus hpercent _ ih =>
    rw [List.cons_append, percentDecode_plain hc hplus hpercent, ih, List.cons_append]
  | plus _ ih => rw [List.cons_append, percentDecode_plus, ih, List.cons_append]
  | hex hu hl _ ih =>
    rw [List.cons_append, List.cons_append, List.cons_append, percentDecode_hex hu hl, ih,
      List.cons_append]

theorem encodes_split (cs : List Char) :
    ∃ e rest, cs = e ++ rest ∧ Encodes e (percentDecode cs) ∧ qsStuck rest = true := by
  induction hn : cs.length using Nat.strong_induction_on generalizing cs with
  | _ n ih =>
    by_cases hstuck : qsStuck cs = true
    · exact ⟨[], cs, rfl, by rw [percentDecode_stuck hstuck]; exact .nil, hstuck⟩
    · cases cs with
      | nil => exact absurd rfl hstuck
      | cons c cs =>
        simp only [qsStuck, Bool.or_eq_true, Bool.not_eq_true', Bool.and_eq_true, beq_iff_eq, not_or,
          not_and, Bool.not_eq_false] at hstuck
        obtain ⟨hc, hhex⟩ := hstuck
        simp only [List.length_cons] at hn
        by_cases hpercent : c = '%'
        · subst hpercent
          obtain ⟨hu, hl⟩ := hhex rfl
          match cs, hu, hl with
          | unyb :: lnyb :: cs, hu, hl =>
            simp only [List.headD_cons, List.tail_cons] at hu hl
            simp only [List.length_cons] at hn
            obtain ⟨e, rest, rfl, he, hrest⟩ := ih cs.length (by omega) cs rfl
            exact ⟨'%' :: unyb :: lnyb :: e, rest, rfl,
              by rw [percentDecode_hex hu hl]; exact .hex hu hl he, hrest⟩
        · obtain ⟨e, rest, rfl, he, hrest⟩ := ih cs.length (by omega) cs rfl
          by_cases hplus : c = '+'
          · subst hplus
            exact ⟨'+' :: e, rest, rfl, by rw [percentDecode_plus]; exact .plus he, hrest⟩
          · exact ⟨c :: e, rest, rfl,
              by rw [percentDecode_plain hc hplus hpercent]; exact .plain hc hplus hpercent he, hrest⟩

theorem set_behind (pre stale rest : List Char) {u : List Char} (hu : u ≠ []) (x : Char) :
    (pre ++ (stale ++ (u ++ rest))).set pre.length x =
      (pre ++ [x]) ++ ((stale ++ u).tail ++ rest) := by
  rw [← List.append_assoc stale]
  cases h : stale ++ u with
  | nil => exact absurd (List.append_eq_nil_iff.mp h).2 hu
  | cons y ys => simp

def overwrite (r old : List Char) : List Char := r ++ nul :: old.drop (r.length + 1)

theorem overwrite_cons (x : Char) (r stale rest : List Char) {u : List Char} (hu : u ≠ []) :
    x :: overwrite r ((stale ++ u).tail ++ rest) = overwrite (x :: r) (stale ++ (u ++ rest)) := by
  rw [← List.append_assoc stale]
  cases h : stale ++ u with
  | nil => exact absurd (List.append_eq_nil_iff.mp h).2 hu
  | cons y ys => simp [overwrite]

theorem qsDecodeLoop_stuck (n i : Nat) (pre : List Char) {rest : List Char} (h : qsStuck rest = true) :
    qsDecodeLoop n (pre ++ rest) i pre.length = (pre ++ rest).set i nul := by
  cases n with
  | zero => rfl
  | succ n =>
    have h0 : peek (pre ++ rest) pre.length = rest.headD nul := by
      rw [← Nat.add_zero pre.length, peek_append]; cases rest <;> rfl
    have h1 : peek (pre ++ rest) (pre.length + 1) = rest.tail.headD nul := by
      rw [peek_append]; rcases rest with _ | ⟨_, _ | _⟩ <;> rfl
    have h2 : peek (pre ++ rest) (pre.length + 2) = rest.tail.tail.headD nul := by
      rw [peek_append]; rcases rest with _ | ⟨_, _ | ⟨_, _ | _⟩⟩ <;> rfl
    rw [qsDecodeLoop, h0, h1, h2]
    cases rest with
    | nil => rfl
    | cons c cs =>
      simp only [List.headD_cons, List.tail_cons]
      by_cases hc : qsIsQsChr c = true
      · simp only [qsStuck, hc, Bool.not_true, Bool.false_or, Bool.and_eq_true, beq_iff_eq] at h
        obtain ⟨rfl, hhex⟩ := h
        rw [Bool.not_and] at hhex
        simp only [hc, hhex, Bool.not_true, Bool.false_eq_true, if_false, if_true, Char.reduceEq]
      · simp [hc]

theorem peek_ahead (pre stale ys : List Char) (k : Nat) :
    peek (pre ++ (stale ++ ys)) (pre.length + stale.length + k) = peek ys k := by
  rw [Nat.add_assoc, peek_append, peek_append]

theorem qsDecodeLoop_round {n : Nat} {u e r rest : List Char} {x : Char} (hu : u ≠ [])
    (ih : ∀ pre stale, qsDecodeLoop n (pre ++ (stale ++ (e ++ rest))) pre.length (pre.length + stale.length) =
      pre ++ overwrite r (stale ++ (e ++ rest))) (pre stale : List Char) :
    qsDecodeLoop n ((pre ++ (stale ++ (u ++ (e ++ rest)))).set pre.length x) (pre.length + 1)
        (pre.length + stale.length + u.length) =
      pre ++ overwrite (x :: r) (stale ++ (u ++ (e ++ rest))) := by
  have hnext := ih (pre ++ [x]) (stale ++ u).tail
  have hlength : (pre ++ [x]).length + (stale ++ u).tail.length = pre.length + stale.length + u.length := by
    have := List.length_pos_iff.mpr hu
    simp
    omega
  rw [hlength, List.length_append, List.length_singleton] at hnext
  rw [set_behind pre stale (e ++ rest) hu, hnext, List.append_assoc, List.singleton_append,
    overwrite_cons x r stale (e ++ rest) hu]

theorem Encodes.qsDecodeLoop {e r : List Char} (h : Encodes e r) {n : Nat} (hn : e.length ≤ n)
    {rest : List Char} (hrest : qsStuck rest = true) (hne : rest ≠ []) (pre stale : List Char) :
    DigitalWallet.qsDecodeLoop n (pre ++ (stale ++ (e ++ rest))) pre.length (pre.length + stale.length) =
      pre ++ overwrite r (stale ++ (e ++ rest)) := by
  induction h generalizing n pre stale with
  | nil =>
    have hstuck := qsDecodeLoop_stuck n pre.length (pre ++ stale) hrest
    rw [List.length_append, List.append_assoc] at hstuck
    rw [List.nil_append, hstuck]
    cases hmid : stale ++ rest with
    | nil => exact absurd (List.append_eq_nil_iff.mp hmid).2 hne
    | cons y ys => simp [overwrite]
  | @plain c e r hc hplus hpercent _ ih =>
    obtain ⟨n, rfl⟩ : ∃ m, n = m + 1 := ⟨n - 1, by simp at hn; omega⟩
    have h0 : peek (pre ++ (stale ++ (c :: e ++ rest))) (pre.length + stale.length) = c :=
      peek_ahead pre stale (c :: e ++ rest) 0
    rw [DigitalWallet.qsDecodeLoop, h0]
    simp only [hc, hplus, hpercent, Bool.not_true, Bool.false_eq_true, if_false]
    exact qsDecodeLoop_round (u := [c]) (by simp) (ih (by simpa using hn)) pre stale
  | @plus e r _ ih =>
    obtain ⟨n, rfl⟩ : ∃ m, n = m + 1 := ⟨n - 1, by simp at hn; omega⟩
    have h0 : peek (pre ++ (stale ++ ('+' :: e ++ rest))) (pre.length + stale.length) = '+' :=
      peek_ahead pre stale ('+' :: e ++ rest) 0
    rw [DigitalWallet.qsDecodeLoop, h0]
    simp only [show qsIsQsChr '+' = true by decide, Bool.not_true, Bool.false_eq_true, if_false, if_true]
    exact qsDecodeLoop_round (u := ['+']) (by simp) (ih (by simpa using hn)) pre stale
  | @hex unyb lnyb e r hu hl _ ih =>
    obtain ⟨n, rfl⟩ : ∃ m, n = m + 1 := ⟨n - 1, by simp at hn; omega⟩
    have h0 : peek (pre ++ (stale ++ ('%' :: unyb :: lnyb :: e ++ rest))) (pre.length + stale.length) = '%' :=
      peek_ahead pre stale _ 0
    have h1 : peek (pre ++ (stale ++ ('%' :: unyb :: lnyb :: e ++ rest))) (pre.length + stale.length + 1) =
        unyb := peek_ahead pre stale _ 1
    have h2 : peek (pre ++ (stale ++ ('%' :: unyb :: lnyb :: e ++ rest))) (pre.length + stale.length + 2) =
        lnyb := peek_ahead pre stale _ 2
    rw [DigitalWallet.qsDecodeLoop, h0, h1, h2]
    simp only [show qsIsQsChr '%' = true by decide, hu, hl, Bool.not_true, Bool.false_eq_true,
      Bool.or_self, if_false, if_true, Char.reduceEq]
    exact qsDecodeLoop_round (u := ['%', unyb, lnyb]) (by simp) (ih (by simp at hn; omega)) pre stale

end Decode

section Region

theorem qsStuck_append {rest : List Char} (h : qsStuck rest = true) {t : Char}
    (ht : qsIsQsChr t = false) (ys : List Char) : qsStuck (rest ++ t :: ys) = true := by
  have hhex := isHex_of_not_isQsChr ht
  rcases rest with _ | ⟨c, _ | ⟨d, _ | ⟨e, cs⟩⟩⟩
  · simp [qsStuck, ht]
  · simpa [qsStuck, hhex, show qsIsHex nul = false by decide] using h
  · simpa [qsStuck, hhex, show qsIsHex nul = false by decide] using h
  · simpa [qsStuck] using h

theorem Encodes.length {e r : List Char} (h : Encodes e r) : r.length ≤ e.length := by
  induction h with
  | nil => exact le_rfl
  | plain _ _ _ _ ih => simpa using ih
  | plus _ ih => simpa using ih
  | hex _ _ _ ih => simp; omega

theorem percentDecode_length (v : List Char) : (percentDecode v).length ≤ v.length := by
  obtain ⟨e, rest, hv, he, -⟩ := encodes_split v
  have := he.length
  rw [hv] at this ⊢
  rw [List.length_append]
  omega

theorem qsDecode_value (pre v ys : List Char) {t : Char} (ht : qsIsQsChr t = false) :
    qsDecode (pre ++ (v ++ t :: ys)) pre.length =
      pre ++ (percentDecode v ++ nul :: ((v ++ [t]).drop ((percentDecode v).length + 1) ++ ys)) := by
  have hlength := percentDecode_length v
  obtain ⟨e, rest, hv, he, hrest⟩ := encodes_split v
  have hloop := he.qsDecodeLoop (n := (pre ++ (v ++ t :: ys)).length)
    (by rw [hv]; simp; omega) (qsStuck_append hrest ht ys) (by simp) pre []
  rw [List.nil_append, ← List.append_assoc e, ← hv, List.length_nil, Nat.add_zero] at hloop
  rw [qsDecode, hloop, overwrite, List.append_cons v, List.drop_append_of_le_length (by simpa using hlength)]

/-- What becomes of a pair and of the place after it. -/
inductive Region : List Char → List Char → Prop
  | bare {p} : (∀ x ∈ p, qsIsQsChr x = true) → Region p (p ++ [nul])
  | valued {k c v old} : (∀ x ∈ k, qsIsQsChr x = true) → (c = '=' ∨ c = '#') →
      Region (k ++ c :: v) (k ++ c :: (percentDecode v ++ nul :: old))

theorem pair_cases (p : List Char) (hp : ∀ x ∈ p, x ≠ '&' ∧ x ≠ nul) :
    (∀ x ∈ p, qsIsQsChr x = true) ∨
      ∃ k c v, p = k ++ c :: v ∧ (∀ x ∈ k, qsIsQsChr x = true) ∧ (c = '=' ∨ c = '#') := by
  induction p with
  | nil => exact .inl (by simp)
  | cons c p ih =>
    simp only [List.forall_mem_cons] at hp
    by_cases hc : c = '=' ∨ c = '#'
    · exact .inr ⟨[], c, p, rfl, by simp, hc⟩
    · rw [not_or] at hc
      have hchr : qsIsQsChr c = true := isQsChr_iff.mpr ⟨hc.1, hc.2, hp.1.1, hp.1.2⟩
      rcases ih hp.2 with hbare | ⟨k, d, v, rfl, hk, hd⟩
      · exact .inl (by simpa [hchr] using hbare)
      · exact .inr ⟨c :: k, d, v, rfl, by simpa [hchr] using hk, hd⟩

theorem qsDecodeValue_region (pre ys : List Char) {p : List Char} {sep : Char}
    (hp : ∀ x ∈ p, x ≠ '&' ∧ x ≠ nul) (hsep : sep = '&' ∨ sep = nul) :
    ∃ region, Region p region ∧ region.length = p.length + 1 ∧
      qsDecodeValue (pre ++ (p ++ sep :: ys)) pre.length = pre ++ (region ++ ys) := by
  rcases pair_cases p hp with hbare | ⟨k, c, v, rfl, hk, hc⟩
  · refine ⟨p ++ [nul], .bare hbare, by simp, ?_⟩
    have hscan : strcspn (pre ++ (p ++ sep :: ys)) pre.length ['=', '&', '#'] = p.length := by
      refine strcspn_append _ _ (fun x hx => ?_) (by rcases hsep with rfl | rfl <;> simp)
      have := isQsChr_iff.mp (hbare x hx)
      simp [this]
    have hstop : peek (pre ++ (p ++ sep :: ys)) (pre.length + p.length) = sep :=
      peek_ahead pre p (sep :: ys) 0
    simp only [qsDecodeValue, hscan, hstop, hsep, if_true]
    rw [← List.append_assoc, ← List.length_append]
    simp
  · have hscan : strcspn (pre ++ (k ++ c :: (v ++ sep :: ys))) pre.length ['=', '&', '#'] = k.length := by
      refine strcspn_append _ _ (fun x hx => ?_) (by rcases hc with rfl | rfl <;> simp)
      have := isQsChr_iff.mp (hk x hx)
      simp [this]
    have hstop : peek (pre ++ (k ++ c :: (v ++ sep :: ys))) (pre.length + k.length) = c :=
      peek_ahead pre k (c :: (v ++ sep :: ys)) 0
    have hgo : ¬ (c = '&' ∨ c = nul) := by
      rcases hc with rfl | rfl <;> decide
    have ht : qsIsQsChr sep = false := by rcases hsep with rfl | rfl <;> decide
    have hdecode := qsDecode_value (pre ++ (k ++ [c])) v ys ht
    have hregion : Region (k ++ c :: v)
        (k ++ c :: (percentDecode v ++ nul :: (v ++ [sep]).drop ((percentDecode v).length + 1))) := .valued hk hc
    refine ⟨_, hregion, ?_, ?_⟩
    · have := percentDecode_length v
      simp
      omega
    · rw [List.append_assoc, List.cons_append]
      simp only [qsDecodeValue, hscan, hstop, hgo, if_false]
      simpa [Nat.add_assoc] using hdecode

inductive Regions : List (List Char) → List Char → Prop
  | nil {text} : Regions [] text
  | cons {p ps region text} : Region p region → region.length = p.length + 1 → Regions ps text →
      Regions (p :: ps) (region ++ text)

def offsets : Nat → List (List Char) → List Nat
  | _, [] => []
  | start, p :: ps => start :: offsets (start + p.length + 1) ps

theorem qsPairs_offsets {q : List Char} (hq : ∀ x ∈ q, x ≠ nul) (n : Nat) (pre ys : List Char) :
    qsPairs (pre ++ (q ++ nul :: ys)) pre.length n = offsets pre.length ((q.splitOn '&').take n) := by
  induction n generalizing pre q with
  | zero => rfl
  | succ n ih =>
    rcases splitOn_cases '&' q with ⟨hamp, hsplit⟩ | ⟨p, q', rfl, hp, hsplit⟩
    · have hscan : strcspn (pre ++ (q ++ nul :: ys)) pre.length ['&'] = q.length := by
        refine strcspn_append _ _ (fun x hx => ⟨hq x hx, ?_⟩) (.inl rfl)
        rw [List.mem_singleton]
        rintro rfl
        exact hamp hx
      have hstop : peek (pre ++ (q ++ nul :: ys)) (pre.length + q.length) = nul :=
        peek_ahead pre q (nul :: ys) 0
      simp only [qsPairs, hscan, hstop, if_true, hsplit, List.take_succ_cons, List.take_nil, offsets]
    · simp only [List.forall_mem_append, List.forall_mem_cons] at hq
      have hscan : strcspn (pre ++ (p ++ '&' :: (q' ++ nul :: ys))) pre.length ['&'] = p.length := by
        refine strcspn_append _ _ (fun x hx => ⟨hq.1 x hx, ?_⟩) (.inr (by simp))
        rw [List.mem_singleton]
        rintro rfl
        exact hp hx
      have hstop : peek (pre ++ (p ++ '&' :: (q' ++ nul :: ys))) (pre.length + p.length) = '&' :=
        peek_ahead pre p _ 0
      have hrest := ih hq.2.2 (pre ++ (p ++ ['&']))
      rw [List.append_assoc p, List.cons_append]
      simp only [qsPairs, hscan, hstop, hsplit, List.take_succ_cons, offsets,
        show '&' ≠ nul by decide, if_false]
      simpa [Nat.add_assoc] using hrest

theorem foldl_regions {q : List Char} (hq : ∀ x ∈ q, x ≠ nul) (n : Nat) (pre ys : List Char) :
    ∃ text, Regions ((q.splitOn '&').take n) text ∧
      (offsets pre.length ((q.splitOn '&').take n)).foldl qsDecodeValue (pre ++ (q ++ nul :: ys)) =
        pre ++ text := by
  induction n generalizing pre q with
  | zero => exact ⟨_, .nil, rfl⟩
  | succ n ih =>
    rcases splitOn_cases '&' q with ⟨hamp, hsplit⟩ | ⟨p, q', rfl, hp, hsplit⟩
    · obtain ⟨region, hregion, hlength, hdecode⟩ := qsDecodeValue_region pre ys (p := q)
        (fun x hx => ⟨fun h => hamp (h ▸ hx), hq x hx⟩) (.inr rfl)
      refine ⟨region ++ ys, ?_, ?_⟩
      · rw [hsplit, List.take_succ_cons, List.take_nil]
        exact .cons hregion hlength .nil
      · simp only [hsplit, List.take_succ_cons, List.take_nil, offsets, List.foldl_cons, List.foldl_nil,
          hdecode]
    · simp only [List.forall_mem_append, List.forall_mem_cons] at hq
      obtain ⟨region, hregion, hlength, hdecode⟩ := qsDecodeValue_region pre (q' ++ nul :: ys) (p := p)
        (fun x hx => ⟨fun h => hp (h ▸ hx), hq.1 x hx⟩) (.inl rfl)
      obtain ⟨text, htext, hfold⟩ := ih hq.2.2 (pre ++ region)
      refine ⟨region ++ text, ?_, ?_⟩
      · rw [hsplit, List.take_succ_cons]
        exact .cons hregion hlength htext
      · rw [List.length_append, hlength, ← Nat.add_assoc, List.append_assoc] at hfold
        rw [hsplit, List.take_succ_cons, offsets, List.foldl_cons, List.append_assoc p,
          List.cons_append, hdecode, hfold, List.append_assoc]

end Region

section Lookup

theorem qsNext_append {k : List Char} (hk : ∀ x ∈ k, qsIsQsChr x = true) {t : Char}
    (ht : qsIsQsChr t = false) (ys : List Char) :
    ((qsNext k).1 = nul ∧ (qsNext (k ++ t :: ys)).1 = nul) ∨
      ∃ u k', qsNext k = (u, k') ∧ qsNext (k ++ t :: ys) = (u, k' ++ t :: ys) ∧
        ∀ x ∈ k', qsIsQsChr x = true := by
  have hhex := isHex_of_not_isQsChr ht
  have hnul : qsIsHex nul = false := by decide
  cases k with
  | nil => exact .inl ⟨by decide, by simp [qsNext, ht]⟩
  | cons c k =>
    simp only [List.forall_mem_cons] at hk
    by_cases hplus : c = '+'
    · subst hplus
      exact .inr ⟨' ', k, rfl, rfl, hk.2⟩
    by_cases hpercent : c = '%'
    · subst hpercent
      match k with
      | [] => exact .inl ⟨by simp [qsNext, hk.1, hnul], by simp [qsNext, hk.1, hhex]⟩
      | [unyb] => exact .inl ⟨by simp [qsNext, hk.1, hnul], by simp [qsNext, hk.1, hhex]⟩
      | unyb :: lnyb :: k =>
        simp only [List.forall_mem_cons] at hk
        exact .inr ⟨_, k, rfl, rfl, hk.2.2.2⟩
    · exact .inr ⟨c, k, by simp [qsNext, hk.1, hplus, hpercent],
        by simp [qsNext, hk.1, hplus, hpercent], hk.2⟩

theorem qsStrncmp_append {k : List Char} (hk : ∀ x ∈ k, qsIsQsChr x = true) {t : Char}
    (ht : qsIsQsChr t = false) (s ys : List Char) (n : Nat) :
    qsStrncmp s (k ++ t :: ys) n = qsStrncmp s k n := by
  induction n generalizing s k with
  | zero => cases k <;> simp [qsStrncmp, ht, show qsIsQsChr nul = false by decide]
  | succ n ih =>
    rcases qsNext_append hk ht ys with ⟨hend, hend'⟩ | ⟨u, k', hnext, hnext', hk'⟩
    · simp only [qsStrncmp, hend, hend']
      split
      · rfl
      · next heq =>
        rw [not_not] at heq
        rw [if_pos heq, if_pos heq]
    · simp only [qsStrncmp, hnext, hnext', ih hk']

def pairText (p : List Char) : List Char :=
  match p.dropWhile qsIsQsChr with
  | [] => p
  | c :: v => p.takeWhile qsIsQsChr ++ c :: (percentDecode v).takeWhile (· ≠ nul)

def pairValue (p : List Char) : List Char := ((pairText p).dropWhile (· ≠ '=')).tail

theorem pairText_bare {p : List Char} (hp : ∀ x ∈ p, qsIsQsChr x = true) : pairText p = p := by
  rw [pairText, List.dropWhile_eq_nil_iff.mpr hp]

theorem pairText_valued {k v : List Char} {c : Char} (hk : ∀ x ∈ k, qsIsQsChr x = true)
    (hc : qsIsQsChr c = false) :
    pairText (k ++ c :: v) = k ++ c :: (percentDecode v).takeWhile (· ≠ nul) := by
  rw [pairText, List.dropWhile_append_of_pos hk, List.dropWhile_cons_of_neg (by simp [hc]),
    List.takeWhile_append_of_pos hk, List.takeWhile_cons_of_neg (by simp [hc]), List.append_nil]

theorem Region.text {p region : List Char} (h : Region p region) (text : List Char) :
    (∀ x ∈ pairText p, x ≠ nul) ∧ ∃ ys, region ++ text = pairText p ++ nul :: ys := by
  cases h with
  | bare hp =>
    rw [pairText_bare hp]
    exact ⟨fun x hx => (isQsChr_iff.mp (hp x hx)).2.2.2, text, by simp⟩
  | @valued k c v old hk hc =>
    have hstop : qsIsQsChr c = false := by rcases hc with rfl | rfl <;> decide
    rw [pairText_valued hk hstop]
    constructor
    · intro x hx
      rcases List.mem_append.mp hx with hx | hx
      · exact (isQsChr_iff.mp (hk x hx)).2.2.2
      · rcases List.mem_cons.mp hx with rfl | hx
        · rcases hc with rfl | rfl <;> decide
        · simpa using List.mem_takeWhile_imp hx
    · obtain ⟨ys, hys⟩ := exists_cut (percentDecode v) (old ++ text)
      exact ⟨ys, by rw [List.append_assoc, List.cons_append, List.append_assoc, List.cons_append, hys,
        List.append_assoc, List.cons_append]⟩

theorem Region.compare {p region : List Char} (h : Region p region) (s text : List Char) (n : Nat) :
    qsStrncmp s (region ++ text) n = qsStrncmp s p n := by
  cases h with
  | bare hp =>
    rw [List.append_assoc]
    exact qsStrncmp_append hp (by decide) s text n
  | @valued k c v old hk hc =>
    have hstop : qsIsQsChr c = false := by rcases hc with rfl | rfl <;> decide
    rw [List.append_assoc, List.cons_append, qsStrncmp_append hk hstop, qsStrncmp_append hk hstop]

theorem str_value {w : List Char} (hw : ∀ x ∈ w, x ≠ nul) (pre ys : List Char) :
    str (pre ++ (w ++ nul :: ys)) (pre.length +
      if peek (pre ++ (w ++ nul :: ys)) (pre.length + strcspn (pre ++ (w ++ nul :: ys)) pre.length ['=']) = '='
      then strcspn (pre ++ (w ++ nul :: ys)) pre.length ['='] + 1
      else strcspn (pre ++ (w ++ nul :: ys)) pre.length ['=']) = (w.dropWhile (· ≠ '=')).tail := by
  by_cases heq : '=' ∈ w
  · obtain ⟨a, b, rfl, ha⟩ := List.eq_append_cons_of_mem heq
    simp only [List.forall_mem_append, List.forall_mem_cons] at hw
    have hne : ∀ x ∈ a, x ≠ '=' := fun x hx h => ha (h ▸ hx)
    have hscan : strcspn (pre ++ (a ++ '=' :: (b ++ nul :: ys))) pre.length ['='] = a.length :=
      strcspn_append _ _ (fun x hx => ⟨hw.1 x hx, by simpa using hne x hx⟩) (.inr (by simp))
    have hstop : peek (pre ++ (a ++ '=' :: (b ++ nul :: ys))) (pre.length + a.length) = '=' :=
      peek_ahead pre a _ 0
    have hstr := str_append (pre ++ (a ++ ['='])) ys hw.2.2
    rw [List.append_assoc a, List.cons_append, hscan, if_pos hstop,
      List.dropWhile_append_of_pos (by simpa using hne)]
    simpa [Nat.add_assoc] using hstr
  · have hne : ∀ x ∈ w, x ≠ '=' := fun x hx h => heq (h ▸ hx)
    have hscan : strcspn (pre ++ (w ++ nul :: ys)) pre.length ['='] = w.length :=
      strcspn_append _ _ (fun x hx => ⟨hw x hx, by simpa using hne x hx⟩) (.inl rfl)
    have hstop : peek (pre ++ (w ++ nul :: ys)) (pre.length + w.length) = nul :=
      peek_ahead pre w _ 0
    have hstr : str (pre ++ w ++ ([] ++ nul :: ys)) (pre ++ w).length = [] := str_append _ ys (by simp)
    rw [hscan, if_neg (by rw [hstop]; decide), List.dropWhile_eq_nil_iff.mpr (by simpa using hne)]
    simpa using hstr

theorem Regions.lookup {ps : List (List Char)} {text : List Char} (h : Regions ps text) (key pre : List Char) :
    (qsK2v key (pre ++ text) (offsets pre.length ps) 0).map (str (pre ++ text)) =
      (ps.find? fun p => qsStrncmp key p (str key 0).length = 0).map pairValue := by
  induction h generalizing pre with
  | nil => rfl
  | @cons p ps region text hregion hlength _ ih =>
    have hcompare := hregion.compare key text (str key 0).length
    rw [offsets, qsK2v, List.drop_left, hcompare, List.find?_cons]
    by_cases hmatch : qsStrncmp key p (str key 0).length = 0
    · obtain ⟨hw, ys, hys⟩ := hregion.text text
      have hvalue := str_value hw pre ys
      rw [← hys] at hvalue
      simp only [hmatch, if_true, decide_true, Option.map_some, pairValue, ← hvalue]
    · have hrest := ih (pre ++ region)
      rw [List.append_assoc, List.length_append, hlength, ← Nat.add_assoc] at hrest
      simp only [hmatch, if_false, decide_false]
      exact hrest

end Lookup

def queryPairs (url : List Char) : List (List Char) :=
  match (url.takeWhile (· ≠ nul)).dropWhile (· ∉ ['?', '#']) with
  | [] => []
  | _ :: query => (query.splitOn '&').take QueryString.maxKeyValuePairsCount

theorem queryPairs_of_split {url path query : List Char} {c : Char}
    (hurl : url.takeWhile (· ≠ nul) = path ++ c :: query) (hpath : ∀ x ∈ path, x ∉ ['?', '#'])
    (hc : c ∈ ['?', '#']) :
    queryPairs url = (query.splitOn '&').take QueryString.maxKeyValuePairsCount := by
  rw [queryPairs, hurl, List.dropWhile_append_of_pos (by simpa using hpath),
    List.dropWhile_cons_of_neg (by simpa only [decide_eq_true_eq, not_not] using hc)]

theorem qsParse_lookup (url key : List Char) :
    (qsK2v key (qsParse (url ++ [nul]) QueryString.maxKeyValuePairsCount).1
        (qsParse (url ++ [nul]) QueryString.maxKeyValuePairsCount).2 0).map
          (str (qsParse (url ++ [nul]) QueryString.maxKeyValuePairsCount).1) =
      ((queryPairs url).find? fun p => qsStrncmp key p (str key 0).length = 0).map pairValue := by
  obtain ⟨zs, hzs⟩ := exists_cut url []
  have hchars : ∀ x ∈ url.takeWhile (· ≠ nul), x ≠ nul := fun x hx => by
    simpa using List.mem_takeWhile_imp hx
  rw [hzs]
  cases hquery : (url.takeWhile (· ≠ nul)).find? (· ∈ ['?', '#']) with
  | some c =>
    obtain ⟨hc, path, query, hurl, hpath⟩ := List.find?_eq_some_iff_append.mp hquery
    replace hc : c ∈ ['?', '#'] := of_decide_eq_true hc
    replace hpath : ∀ x ∈ path, x ∉ ['?', '#'] := fun x hx => by simpa using hpath x hx
    rw [queryPairs_of_split hurl hpath hc, hurl]
    rw [hurl] at hchars
    simp only [List.forall_mem_append, List.forall_mem_cons] at hchars
    obtain ⟨hpathNul, hcNul, hqueryNul⟩ := hchars
    have hscan : strcspn (path ++ c :: (query ++ nul :: zs)) 0 ['?', '#'] = path.length :=
      strcspn_append [] _ (fun x hx => ⟨hpathNul x hx, hpath x hx⟩) (.inr hc)
    have hpairs := qsPairs_offsets hqueryNul QueryString.maxKeyValuePairsCount (path ++ [c]) zs
    obtain ⟨text, htext, hfold⟩ := foldl_regions hqueryNul QueryString.maxKeyValuePairsCount (path ++ [c]) zs
    have hparse : qsParse (path ++ c :: (query ++ nul :: zs)) QueryString.maxKeyValuePairsCount =
        (path ++ [c] ++ text, offsets (path ++ [c]).length
          ((query.splitOn '&').take QueryString.maxKeyValuePairsCount)) := by
      simp only [List.append_assoc, List.singleton_append, List.length_append, List.length_singleton]
        at hpairs hfold ⊢
      simp only [qsParse, hscan, peek_append_length, hcNul, if_false, hpairs, hfold]
    rw [List.append_assoc, List.cons_append, hparse]
    exact htext.lookup key _
  | none =>
    have hnone : ∀ x ∈ url.takeWhile (· ≠ nul), x ∉ ['?', '#'] := by
      simpa using List.find?_eq_none.mp hquery
    have hscan : strcspn (url.takeWhile (· ≠ nul) ++ nul :: zs) 0 ['?', '#'] =
        (url.takeWhile (· ≠ nul)).length :=
      strcspn_append [] _ (fun x hx => ⟨hchars x hx, hnone x hx⟩) (.inl rfl)
    have hparse : qsParse (url.takeWhile (· ≠ nul) ++ nul :: zs) QueryString.maxKeyValuePairsCount =
        (url.takeWhile (· ≠ nul) ++ nul :: zs, []) := by
      simp only [qsParse, hscan, peek_append_length, if_true]
    have hpairs : queryPairs url = [] := by
      rw [queryPairs, List.dropWhile_eq_nil_iff.mpr (by simpa using hnone)]
    rw [hparse, hpairs]
    rfl

theorem QueryString.get_parsed (url name : String) :
    (QueryString.ofUrl url).get name =
      ((qsK2v name.toList (qsParse (url.toList ++ [nul]) QueryString.maxKeyValuePairsCount).1
        (qsParse (url.toList ++ [nul]) QueryString.maxKeyValuePairsCount).2 0).map
          (str (qsParse (url.toList ++ [nul]) QueryString.maxKeyValuePairsCount).1)).map String.ofList := by
  rw [Option.map_map]
  by_cases hempty : url = ""
  · subst hempty
    rfl
  · rw [QueryString.ofUrl, if_neg (by simpa using hempty)]
    rfl

/-- For every URL and every name: what is decoded in place and found through
pointers is the value of the first pair whose key compares equal, each pair read
alone. -/
theorem query_get_eq (url name : String) :
    (QueryString.ofUrl url).get name =
      (((queryPairs url.toList).find? fun p => qsStrncmp name.toList p (str name.toList 0).length = 0).map
        pairValue).map String.ofList := by
  rw [QueryString.get_parsed, qsParse_lookup]

section RoundTrip

def Plain (name : List Char) : Prop := ∀ x ∈ name, qsIsQsChr x = true ∧ x ≠ '+' ∧ x ≠ '%'

instance (name : List Char) : Decidable (Plain name) :=
  List.decidableBAll _ name

theorem Encodes.isQsChr {e r : List Char} (h : Encodes e r) : ∀ x ∈ e, qsIsQsChr x = true := by
  induction h with
  | nil => simp
  | plain hc _ _ _ ih => exact List.forall_mem_cons.mpr ⟨hc, ih⟩
  | plus _ ih => exact List.forall_mem_cons.mpr ⟨by decide, ih⟩
  | hex hu hl _ ih =>
    simp only [List.forall_mem_cons]
    exact ⟨by decide, isQsChr_of_isHex hu, isQsChr_of_isHex hl, ih⟩

theorem Encodes.percentDecode_eq {e r : List Char} (h : Encodes e r) : percentDecode e = r := by
  simpa [percentDecode] using h.percentDecode_append []

theorem Encodes.qsNext_cons {e r : List Char} {u : Char} (h : Encodes e (u :: r)) :
    ∃ e', qsNext e = (u, e') ∧ Encodes e' r ∧ qsIsQsChr (e.headD nul) = true := by
  cases h with
  | @plain _ e _ hc hplus hpercent h => exact ⟨e, by simp [qsNext, hc, hplus, hpercent], h, hc⟩
  | @plus e _ h => exact ⟨e, rfl, h, by rw [List.headD_cons]; decide⟩
  | @hex unyb lnyb e _ hu hl h =>
    exact ⟨e, by simp [qsNext, hu, hl, show qsIsQsChr '%' = true by decide], h,
      by rw [List.headD_cons]; decide⟩

theorem Encodes.compare {name : List Char} (hname : Plain name) {e r : List Char} (h : Encodes e r) :
    qsStrncmp name e name.length = 0 ↔ r = name := by
  induction name generalizing e r with
  | nil =>
    cases r with
    | nil =>
      cases h
      simp [qsStrncmp, show qsIsQsChr nul = false by decide]
    | cons u r =>
      obtain ⟨-, -, -, hhead⟩ := h.qsNext_cons
      rw [List.length_nil, qsStrncmp, if_pos hhead]
      simp
  | cons c name ih =>
    simp only [Plain, List.forall_mem_cons] at hname
    obtain ⟨⟨hc, hplus, hpercent⟩, hrest⟩ := hname
    have hself : qsNext (c :: name) = (c, name) := by simp [qsNext, hc, hplus, hpercent]
    have hdiffer : ∀ u : Char, c ≠ u → (c.toNat : Int) - u.toNat ≠ 0 := by
      intro u hu heq
      exact hu (Char.toNat_inj.mp (by omega))
    have hnul : c ≠ nul := (isQsChr_iff.mp hc).2.2.2
    cases r with
    | nil =>
      cases h
      have hend : qsNext [] = (nul, []) := by decide
      simp [qsStrncmp, hself, hend, hnul, hdiffer nul hnul]
    | cons u r =>
      obtain ⟨e', hnext, he', -⟩ := h.qsNext_cons
      simp only [List.length_cons, qsStrncmp, hself, hnext]
      by_cases heq : c = u
      · subst heq
        simpa [hnul] using ih hrest he'
      · simp [heq, hdiffer u heq, Ne.symm heq]

theorem pairValue_encoded {k v rk rv : List Char} (hk : Encodes k rk) (hv : Encodes v rv) :
    pairValue (k ++ '=' :: v) = rv.takeWhile (· ≠ nul) := by
  have hkey : ∀ x ∈ k, x ≠ '=' := fun x hx => (isQsChr_iff.mp (hk.isQsChr x hx)).1
  rw [pairValue, pairText_valued hk.isQsChr (by decide), hv.percentDecode_eq,
    List.dropWhile_append_of_pos (by simpa using hkey), List.dropWhile_cons_of_neg (by simp), List.tail_cons]

def EncodesPairs : List (String × String) → List (String × String) → Prop :=
  List.Forall₂ fun e r => Encodes e.1.toList r.1.toList ∧ Encodes e.2.toList r.2.toList

-- a value is handed on as a C string, so an escaped NUL ends it
def cutNul (value : String) : String := String.ofList (value.toList.takeWhile (· ≠ nul))

theorem find_encoded {name : String} (hname : Plain name.toList) {encoded raw : List (String × String)}
    (h : EncodesPairs encoded raw) :
    (((encoded.map fun e => e.1.toList ++ '=' :: e.2.toList).find? fun p =>
      qsStrncmp name.toList p (str name.toList 0).length = 0).map pairValue).map String.ofList =
        (raw.lookup name).map cutNul := by
  have hlength : (str name.toList 0).length = name.toList.length := by
    rw [str, List.drop_zero, List.takeWhile_eq_self_iff.mpr]
    intro x hx
    simpa using (isQsChr_iff.mp (hname x hx).1).2.2.2
  rw [hlength]
  induction h with
  | nil => rfl
  | @cons e r encoded raw hpair _ ih =>
    obtain ⟨hk, hv⟩ := hpair
    have hcompare := hk.compare hname
    rw [List.map_cons, List.find?_cons, qsStrncmp_append hk.isQsChr (by decide), List.lookup_cons]
    by_cases heq : r.1 = name
    · subst heq
      simp [hcompare, pairValue_encoded hk hv, cutNul]
    · have hne : ¬ r.1.toList = name.toList := fun h => heq (String.toList_inj.mp h)
      simp only [hcompare, hne, decide_false, beq_eq_false_iff_ne.mpr (Ne.symm heq)]
      exact ih

theorem mem_of_mem_intercalate {x c : Char} {ls : List (List Char)} (h : x ∈ [c].intercalate ls) :
    x = c ∨ ∃ l ∈ ls, x ∈ l := by
  induction ls with
  | nil => simp at h
  | cons l ls ih =>
    cases ls with
    | nil => exact .inr ⟨l, by simp, by simpa using h⟩
    | cons l' ls =>
      rw [List.intercalate_cons_cons, List.append_assoc] at h
      rcases List.mem_append.mp h with h | h
      · exact .inr ⟨l, by simp, h⟩
      · rcases List.mem_cons.mp h with h | h
        · exact .inl h
        · rcases ih h with h | ⟨m, hm, hx⟩
          · exact .inl h
          · exact .inr ⟨m, List.mem_cons_of_mem _ hm, hx⟩

theorem EncodesPairs.pieces {encoded raw : List (String × String)} (h : EncodesPairs encoded raw) :
    ∀ p ∈ encoded.map (fun e => e.1.toList ++ '=' :: e.2.toList), ∀ x ∈ p, x ≠ '&' ∧ x ≠ nul := by
  induction h with
  | nil => simp
  | @cons e r encoded raw hpair _ ih =>
    refine List.forall_mem_cons.mpr ⟨fun x hx => ?_, ih⟩
    rcases List.mem_append.mp hx with hx | hx
    · exact (isQsChr_iff.mp (hpair.1.isQsChr x hx)).2.2
    · rcases List.mem_cons.mp hx with rfl | hx
      · decide
      · exact (isQsChr_iff.mp (hpair.2.isQsChr x hx)).2.2

def joined (encoded : List (String × String)) : List Char :=
  ['&'].intercalate (encoded.map fun e => e.1.toList ++ '=' :: e.2.toList)

theorem queryPairs_joined {path : List Char} {encoded raw : List (String × String)}
    (hpath : ∀ c ∈ path, c ≠ '?' ∧ c ≠ '#' ∧ c ≠ nul) (hpairs : EncodesPairs encoded raw) (hne : encoded ≠ [])
    (hcount : encoded.length ≤ 256) :
    queryPairs (path ++ '?' :: joined encoded) = encoded.map fun e => e.1.toList ++ '=' :: e.2.toList := by
  have hpieces := hpairs.pieces
  have hcut : (path ++ '?' :: joined encoded).takeWhile (· ≠ nul) = path ++ '?' :: joined encoded := by
    apply List.takeWhile_eq_self_iff.mpr
    intro x hx
    rw [decide_eq_true_eq]
    rcases List.mem_append.mp hx with hx | hx
    · exact (hpath x hx).2.2
    · rcases List.mem_cons.mp hx with rfl | hx
      · decide
      · rcases mem_of_mem_intercalate hx with rfl | ⟨p, hp, hx⟩
        · decide
        · exact (hpieces p hp x hx).2
  have hsplit := List.splitOn_intercalate '&' (fun p hp h => (hpieces p hp '&' h).1 rfl) (by simpa using hne)
  rw [queryPairs_of_split hcut (fun x hx => by simpa using ⟨(hpath x hx).1, (hpath x hx).2.1⟩) (by simp), joined,
    hsplit, List.take_of_length_le (by rw [List.length_map]; exact hcount)]

/-- The value of a name is read back from every way of writing the pairs, up to
its first NUL. -/
theorem query_round_trip {path name : String} {encoded raw : List (String × String)}
    (hpath : ∀ c ∈ path.toList, c ≠ '?' ∧ c ≠ '#' ∧ c ≠ nul) (hname : Plain name.toList)
    (hpairs : EncodesPairs encoded raw) (hne : encoded ≠ []) (hcount : encoded.length ≤ 256) :
    (QueryString.ofUrl (path ++ "?" ++ "&".intercalate (encoded.map fun e => e.1 ++ "=" ++ e.2))).get name =
      (raw.lookup name).map cutNul := by
  have hurl : (path ++ "?" ++ "&".intercalate (encoded.map fun e => e.1 ++ "=" ++ e.2)).toList =
      path.toList ++ '?' :: joined encoded := by
    simp [joined, Function.comp_def]
  rw [QueryString.get_parsed, qsParse_lookup, hurl, queryPairs_joined hpath hpairs hne hcount]
  exact find_encoded hname hpairs

section Encode

def hexDigit (n : Nat) : Char := if n < 10 then Char.ofNat (48 + n) else Char.ofNat (55 + n)

def percentEncode : List Char → List Char
  | [] => []
  | c :: cs =>
    if c = ' ' then '+' :: percentEncode cs
    else if qsIsQsChr c && c != '+' && c != '%' then c :: percentEncode cs
    else '%' :: hexDigit (c.toNat / 16) :: hexDigit (c.toNat % 16) :: percentEncode cs

theorem hexDigit_spec : ∀ n < 16, qsIsHex (hexDigit n) = true ∧ qsHex2Dec (hexDigit n) = n := by
  decide

theorem percentEncode_encodes {r : List Char} (h : ∀ c ∈ r, c.toNat < 256) : Encodes (percentEncode r) r := by
  induction r with
  | nil => exact .nil
  | cons c r ih =>
    simp only [List.forall_mem_cons] at h
    have hrest := ih h.2
    unfold percentEncode
    by_cases hspace : c = ' '
    · subst hspace
      exact .plus hrest
    · rw [if_neg hspace]
      by_cases hplain : (qsIsQsChr c && c != '+' && c != '%') = true
      · rw [if_pos hplain]
        simp only [Bool.and_eq_true, bne_iff_ne] at hplain
        exact .plain hplain.1.1 hplain.1.2 hplain.2 hrest
      · rw [if_neg hplain]
        obtain ⟨hu, hu'⟩ := hexDigit_spec (c.toNat / 16) (by omega)
        obtain ⟨hl, hl'⟩ := hexDigit_spec (c.toNat % 16) (by omega)
        have hbyte : qsByte (hexDigit (c.toNat / 16)) (hexDigit (c.toNat % 16)) = c := by
          rw [qsByte, hu', hl', show c.toNat / 16 * 16 + c.toNat % 16 = c.toNat by omega, Char.ofNat_toNat]
        have hcode := Encodes.hex hu hl hrest
        rwa [hbyte] at hcode

end Encode

-- the amount goes on behind a NUL
theorem query_round_trip_example :
    (QueryString.ofUrl "/api/1.0/wallet/balance_transfer?toAccount=a+b%26c&amount=102%00.5").get "amount" =
        some "102" ∧
      (QueryString.ofUrl "/api/1.0/wallet/balance_transfer?toAccount=a+b%26c&amount=102%00.5").get "toAccount" =
        some "a b&c" := by
  have hcode : ∀ e r : String, percentEncode r.toList = e.toList → (r.toList.all fun c => c.toNat < 256) →
      Encodes e.toList r.toList := fun e r he hr => he ▸ percentEncode_encodes (List.all_iff_forall_prop.mp hr)
  have hpairs : EncodesPairs [("toAccount", "a+b%26c"), ("amount", "102%00.5")]
      [("toAccount", "a b&c"), ("amount", "102\x00.5")] :=
    .cons ⟨hcode _ _ (by decide +kernel) (by decide +kernel), hcode _ _ (by decide +kernel) (by decide +kernel)⟩
      (.cons ⟨hcode _ _ (by decide +kernel) (by decide +kernel), hcode _ _ (by decide +kernel) (by decide +kernel)⟩
        .nil)
  have hpath : ∀ c ∈ "/api/1.0/wallet/balance_transfer".toList, c ≠ '?' ∧ c ≠ '#' ∧ c ≠ nul :=
    List.all_iff_forall_prop.mp (by decide +kernel)
  have hurl : "/api/1.0/wallet/balance_transfer?toAccount=a+b%26c&amount=102%00.5" =
      "/api/1.0/wallet/balance_transfer" ++ "?" ++ "&".intercalate
        ([("toAccount", "a+b%26c"), ("amount", "102%00.5")].map fun e => e.1 ++ "=" ++ e.2) := by
    decide +kernel
  rw [hurl]
  constructor
  · rw [query_round_trip hpath (by decide +kernel) hpairs (by simp) (by simp)]
    decide +kernel
  · rw [query_round_trip hpath (by decide +kernel) hpairs (by simp) (by simp)]
    decide +kernel

end RoundTrip

end DigitalWallet

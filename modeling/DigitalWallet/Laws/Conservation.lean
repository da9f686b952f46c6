import DigitalWallet.Laws.Serve
import DigitalWallet.Lib.FinmapSum

namespace DigitalWallet

open Lib FinmapSum

def issued (h : List Action) : Int := ((storedAccounts h).map fun account => value account.2).sum

def surplus (w : Wallet) : Int := total value w.accountDB - issued w.history

/-- The next request is a transfer from an account to itself that VALIDATE lets
through. -/
def SelfTransfers (P : Platform) (w : Wallet) (r : Request) : Prop :=
  ∃ c a n, r.command P = some c ∧ w.currentState = .listen ∧ c.account1 = c.account2 ∧
    Funded w.accountDB c a a n ∧ P.fits a = true

@[simp] theorem issued_append (h h' : List Action) : issued (h ++ h') = issued h + issued h' := by
  simp [issued]

section Settle

variable {db : AccountDB} {c : Command} {a b n : Int}

theorem total_settle (hne : c.account1 ≠ c.account2) (hf : Funded db c a b n) :
    total value ((db.insert c.account1 (Cpp.toString (a - n))).insert c.account2
      (Cpp.toString (b + n))) = total value db := by
  rw [total_insert, total_insert, weightAt_insert_of_ne hne.symm, weightAt_of_lookup hf.sender,
    weightAt_of_lookup hf.receiver]
  simp only [value_toString]
  omega

theorem total_settle_self (heq : c.account1 = c.account2) (hf : Funded db c a b n) :
    total value ((db.insert c.account1 (Cpp.toString (a - n))).insert c.account2
      (Cpp.toString (b + n))) = total value db + n := by
  have hab := hf.balances_eq heq
  rw [← heq, Finmap.insert_insert, total_insert, weightAt_of_lookup hf.sender]
  simp only [value_toString]
  omega

end Settle

theorem issued_of_storedAccounts {h : List Action} (hnil : storedAccounts h = []) : issued h = 0 := by
  simp [issued, hnil]

section Exact

variable {fits : Int → Bool} {text : Status → String} {w : Wallet}

theorem verdict_exact {db : AccountDB} {c : Command} {V : Int → Prop} (ht : Texts V db)
    (hc : Accepted (.exact fits text) c) :
    ((verdict (.exact fits text) .succeed db c).accountDB (.exact fits text) c db =
        db ∧ ¬ ∃ a n, Funded db c a a n ∧ fits a = true ∧ c.account1 = c.account2) ∨
      ∃ a b n, Funded db c a b n ∧ fits a = true ∧ 0 < n ∧
        (verdict (.exact fits text) .succeed db c).accountDB (.exact fits text) c db =
          (db.insert c.account1 (Cpp.toString (a - n))).insert c.account2
            (Cpp.toString (b + n)) := by
  have hself : ∀ {a n}, Funded db c a a n → fits a = true →
      verdict (.exact fits text) .succeed db c = .applied a a n := fun hf ha =>
    verdict_of_funded hf hc ha ha Outcomes.succeed_readsClear
  obtain ⟨s, hv⟩ | ⟨s, e, key, n, hv, -, -⟩ | ⟨a, b, n, hf, ha, -, hpos, -, -, -, hv⟩ :=
    verdict_split (o := .succeed) ht hc
  · refine .inl ⟨by rw [hv]; rfl, ?_⟩
    rintro ⟨a, n, hf, ha, -⟩
    cases hv.symm.trans (hself hf ha)
  · refine .inl ⟨by rw [hv]; rfl, ?_⟩
    rintro ⟨a, n, hf, ha, -⟩
    cases hv.symm.trans (hself hf ha)
  · exact .inr ⟨a, b, n, hf, ha, hpos, by rw [hv]; rfl⟩

theorem surplus_serve (hw : w.Reached (.exact fits text)) (r : Request) :
    SelfTransfers (.exact fits text) w r ∧ surplus w < surplus (serve (.exact fits text) w r) ∨
      ¬ SelfTransfers (.exact fits text) w r ∧
        surplus (serve (.exact fits text) w r) = surplus w := by
  obtain ⟨ts, hs⟩ := hw.sane (Platform.exact_holds fits text)
  have htexts : Texts _ w.accountDB := hs.texts
  have hserves := serves (P := .exact fits text) hw.lock r
  generalize serve (.exact fits text) w r = w' at hserves
  have hcommand : r.command (.exact fits text) = none → ¬ SelfTransfers (.exact fits text) w r := by
    rintro hnone ⟨c, a, n, hc, -⟩
    cases hnone.symm.trans hc
  cases hserves with
  | idle hnone => exact .inr ⟨hcommand hnone, rfl⟩
  | look hnone hreads =>
    refine .inr ⟨hcommand hnone, ?_⟩
    simp [surplus, issued_of_storedAccounts (reads_accounts hreads).2]
  | create hr hcheck hk =>
    refine .inr ⟨hcommand (by rw [hr]; rfl), ?_⟩
    have habsent := hw.next_absent hk
    simp [surplus, total_insert, habsent, issued, Action.stored?]
  | wait hc hlisten =>
    refine .inr ⟨?_, by simp [surplus, issued, Action.stored?]⟩
    rintro ⟨c, a, n, -, hlisten', -⟩
    exact hlisten hlisten'
  | @transfer c trail hc hlisten htrail =>
    simp only [surplus, Verdict.wallet, issued_append, issued_of_storedAccounts htrail.serve_stored,
      add_zero]
    have haccepted := Request.command_accepted hc
    obtain ⟨hsame, hno⟩ | ⟨a, b, n, hf, ha, hpos, hmoved⟩ :=
      verdict_exact htexts haccepted
    · refine .inr ⟨?_, by rw [hsame]⟩
      rintro ⟨c', a, n, hc', -, heq, hf, ha⟩
      cases hc.symm.trans hc'
      exact hno ⟨a, n, hf, ha, heq⟩
    · by_cases heq : c.account1 = c.account2
      · obtain rfl := hf.balances_eq heq
        refine .inl ⟨⟨c, a, n, hc, hlisten, heq, hf, ha⟩, ?_⟩
        rw [hmoved, total_settle_self heq hf]
        omega
      · refine .inr ⟨?_, by rw [hmoved, total_settle heq hf]⟩
        rintro ⟨c', _, _, hc', -, heq', -⟩
        cases hc.symm.trans hc'
        exact heq heq'

theorem surplus_serveAll (hw : w.Reached (.exact fits text)) (rs : List Request) :
    surplus w ≤ surplus (serveAll (.exact fits text) w rs) ∧
      (surplus (serveAll (.exact fits text) w rs) = surplus w ↔
        ∀ before r after, rs = before ++ r :: after →
          ¬ SelfTransfers (.exact fits text) (serveAll (.exact fits text) w before) r) := by
  induction rs generalizing w with
  | nil => exact ⟨le_rfl, by simp [serveAll]⟩
  | cons r rs ih =>
    obtain ⟨hle, hiff⟩ := ih (hw.serve r)
    have hstep := surplus_serve hw r
    change surplus w ≤ surplus (serveAll _ (serve _ w r) rs) ∧
      (surplus (serveAll _ (serve _ w r) rs) = surplus w ↔ _)
    constructor
    · rcases hstep with ⟨-, hlt⟩ | ⟨-, heq⟩ <;> omega
    · constructor
      · intro hsame
        rcases hstep with ⟨-, hlt⟩ | ⟨hno, heq⟩
        · omega
        · intro before r' after hsplit
          cases before with
          | nil => cases hsplit; exact hno
          | cons r₀ before =>
            cases hsplit
            exact hiff.mp (by omega) before r' after rfl
      · intro hno
        have hrest := hiff.mpr fun before r' after hsplit =>
          hno (r :: before) r' after (by rw [hsplit]; rfl)
        rcases hstep with ⟨hself, -⟩ | ⟨-, heq⟩
        · exact absurd hself (hno [] r rs rfl)
        · omega

end Exact

/-- Handled one after another from the empty database, requests keep the sum of
the balances at the sum of the start amounts, unless a transfer from an account
to itself gets through. -/
theorem conserved_iff (fits : Int → Bool) (text : Status → String) (rs : List Request) :
    total value (serveAll (.exact fits text) .empty rs).accountDB =
        issued (serveAll (.exact fits text) .empty rs).history ↔
      ∀ before r after, rs = before ++ r :: after →
        ¬ SelfTransfers (.exact fits text) (serveAll (.exact fits text) .empty before) r := by
  rw [← (surplus_serveAll .empty rs).2]
  have hempty : surplus .empty = 0 := rfl
  rw [hempty, surplus]
  omega

def selfTransfer : List Request :=
  [.createAccount (some "100"),
    .balanceTransfer (some "700000001") (some "700000001") (some "30") "tx-1"]

theorem self_transfer_makes_money :
    total value (serveAll (.exact fits32 fun _ => "OK") .empty selfTransfer).accountDB = 130 ∧
      issued (serveAll (.exact fits32 fun _ => "OK") .empty selfTransfer).history = 100 := by
  decide +kernel

end DigitalWallet

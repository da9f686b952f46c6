import DigitalWallet.Laws.Atomicity
import DigitalWallet.Laws.Serve
import DigitalWallet.Lib.CppNumeral

namespace DigitalWallet

open Lib

structure StartAmountWhole (text : Status → String) (s : String) : Prop where
  accepted : (∃ n, checkStartAmount (.int32 text) (some s) = .ok n) ↔
    ∃ n, Cpp.Whole s n ∧ fits32 n = true ∧ 0 ≤ n
  stored : ∀ o w new key t,
    ((handler (.int32 text) (.createAccount (some s))).run o w).2.history = w.history ++ new →
      .wrote .createAccount key t ∈ new → ∃ n, Cpp.Whole s n ∧ t = Cpp.toString n

structure AmountWhole (text : Status → String) (s : String) : Prop where
  accepted : ∀ fromAccount toAccount txId,
    (∃ c, checkTransfer (.int32 text) (some fromAccount) (some toAccount) (some s) txId = .ok c) ↔
      ∃ n, Cpp.Whole s n ∧ fits32 n = true ∧ 1 ≤ n
  queued : ∀ fromAccount toAccount txId c,
    checkTransfer (.int32 text) (some fromAccount) (some toAccount) (some s) txId = .ok c →
      ∃ n, Cpp.Whole s n ∧ c.amount = Cpp.toString n

def Trails (lo : Int) (s : String) : Prop :=
  ∃ n rest, Cpp.Numeral s.toList n rest ∧ rest ≠ [] ∧ fits32 n = true ∧ lo ≤ n

section Read

variable {text : Status → String} {lo n : Int} {s : String}

theorem not_trails_iff :
    ¬ Trails lo s ↔ ∀ n, Cpp.stoi fits32 s = .ok n → lo ≤ n → Cpp.Whole s n := by
  constructor
  · intro h n hn hlo
    obtain ⟨hnumeral, hfits⟩ := Cpp.stoi_eq_ok.mp hn
    by_cases hrest : Cpp.rest s.toList = []
    · rwa [hrest] at hnumeral
    · exact absurd ⟨n, _, hnumeral, hrest, hfits, hlo⟩ h
  · rintro h ⟨n, rest, hnumeral, hrest, hfits, hlo⟩
    obtain ⟨-, rfl⟩ := Cpp.numeral_iff.mp hnumeral
    obtain ⟨-, hwhole⟩ := Cpp.numeral_iff.mp (h n (Cpp.stoi_eq_ok.mpr ⟨hnumeral, hfits⟩) hlo)
    exact hrest hwhole.symm

theorem whole_of_accepted {n m : Int} (hn : Cpp.stoi fits32 s = .ok n) (hm : Cpp.Whole s m) :
    Cpp.Whole s n := by
  obtain ⟨hnumeral, -⟩ := Cpp.stoi_eq_ok.mp hn
  obtain ⟨-, hrest⟩ := Cpp.numeral_iff.mp hm
  rwa [← hrest] at hnumeral

theorem stoi_of_whole (h : Cpp.Whole s n) (hfits : fits32 n = true) : Cpp.stoi fits32 s = .ok n := by
  obtain ⟨-, hrest⟩ := Cpp.numeral_iff.mp h
  exact Cpp.stoi_eq_ok.mpr ⟨hrest ▸ h, hfits⟩

theorem checkStartAmount_iff :
    checkStartAmount (.int32 text) (some s) = .ok n ↔ Cpp.stoi fits32 s = .ok n ∧ 0 ≤ n := by
  simp only [checkStartAmount, Platform.int32]
  cases Cpp.stoi fits32 s with
  | error e => simp
  | ok m =>
    by_cases hm : m < 0
    · simp only [hm, if_true, reduceCtorEq, Except.ok.injEq, false_iff, not_and]
      rintro rfl
      omega
    · simp only [hm, if_false, Except.ok.injEq]
      constructor
      · rintro rfl
        exact ⟨rfl, by omega⟩
      · exact fun h => h.1

theorem checkTransfer_iff {fromAccount toAccount txId : String} {c : Command} :
    checkTransfer (.int32 text) (some fromAccount) (some toAccount) (some s) txId = .ok c ↔
      ∃ n, Cpp.stoi fits32 s = .ok n ∧ 1 ≤ n ∧
        c = ⟨txId, fromAccount, toAccount, Cpp.toString n, "TRANSFER"⟩ := by
  simp only [checkTransfer, Platform.int32]
  cases Cpp.stoi fits32 s with
  | error e => simp
  | ok m =>
    by_cases hm : m ≤ 0
    · simp only [hm, if_true, reduceCtorEq, Except.ok.injEq, false_iff, not_exists, not_and]
      rintro n rfl hpos
      omega
    · simp only [hm, if_false, Except.ok.injEq]
      constructor
      · rintro rfl
        exact ⟨m, rfl, by omega, rfl⟩
      · rintro ⟨n, rfl, -, rfl⟩
        rfl

end Read

section Store

variable {P : Platform} {o : Outcomes} {w : Wallet} {s : String} {key t : String}

theorem createAccount_stores {new : List Action}
    (hnew : ((createAccount P (some s)).run o w).2.history = w.history ++ new)
    (hwrote : .wrote .createAccount key t ∈ new) :
    ∃ n, checkStartAmount P (some s) = .ok n ∧ t = Cpp.toString n := by
  have hempty : ¬ w.history = w.history ++ new := fun h => by
    rw [List.self_eq_append_right.mp h] at hwrote
    cases hwrote
  cases hcheck : checkStartAmount P (some s) with
  | error resp => exact absurd (by simpa [createAccount, hcheck] using hnew) hempty
  | ok n =>
    refine ⟨n, rfl, ?_⟩
    cases hgen : genAccountID o.seed w.seedFile with
    | mk exit f =>
      cases exit with
      | returned id =>
        rw [createAccount_drawn hcheck hgen] at hnew
        cases hput : o.db .createAccount with
        | none =>
          rw [storeAccount_run id n hput] at hnew
          have hnew' : [.generated id, .wrote .createAccount id (Cpp.toString n)] = new := by
            simpa using hnew
          subst hnew'
          have hpair : key = id ∧ t = Cpp.toString n := by simpa using hwrote
          exact hpair.2
        | some f =>
          rw [storeAccount_run_failed id n hput] at hnew
          have hnew' : [.generated id] = new := by simpa using hnew
          subst hnew'
          simp at hwrote
      | threw =>
        rw [createAccount_threw hcheck hgen] at hnew
        exact absurd hnew hempty
      | stopped => exact absurd (by
          simpa [createAccount, hcheck, Prog.run, Proc.exec, perform, hgen] using hnew) hempty
      | overflow =>
        rw [createAccount_overflow hcheck hgen] at hnew
        exact absurd hnew hempty

end Store

/-- Both handlers accept the whole integers of their range and no other text,
except for the texts that only start with one. -/
theorem amounts_whole_iff (text : Status → String) (s : String) :
    (StartAmountWhole text s ↔ ¬ Trails 0 s) ∧ (AmountWhole text s ↔ ¬ Trails 1 s) := by
  refine ⟨⟨fun h => not_trails_iff.mpr ?_, fun h => ?_⟩, ⟨fun h => not_trails_iff.mpr ?_, fun h => ?_⟩⟩
  · intro n hn hlo
    obtain ⟨m, hm, -⟩ := h.accepted.mp ⟨n, checkStartAmount_iff.mpr ⟨hn, hlo⟩⟩
    exact whole_of_accepted hn hm
  · rw [not_trails_iff] at h
    refine ⟨⟨?_, ?_⟩, ?_⟩
    · rintro ⟨n, hn⟩
      obtain ⟨hstoi, hlo⟩ := checkStartAmount_iff.mp hn
      exact ⟨n, h n hstoi hlo, (Cpp.stoi_eq_ok.mp hstoi).2, hlo⟩
    · rintro ⟨n, hn, hfits, hlo⟩
      exact ⟨n, checkStartAmount_iff.mpr ⟨stoi_of_whole hn hfits, hlo⟩⟩
    · intro o w new key t hnew hwrote
      obtain ⟨n, hn, rfl⟩ := createAccount_stores hnew hwrote
      obtain ⟨hstoi, hlo⟩ := checkStartAmount_iff.mp hn
      exact ⟨n, h n hstoi hlo, rfl⟩
  · intro n hn hlo
    obtain ⟨m, hm, -⟩ := (h.accepted "" "" "").mp ⟨_, checkTransfer_iff.mpr ⟨n, hn, hlo, rfl⟩⟩
    exact whole_of_accepted hn hm
  · rw [not_trails_iff] at h
    refine ⟨fun fromAccount toAccount txId => ⟨?_, ?_⟩, ?_⟩
    · rintro ⟨c, hc⟩
      obtain ⟨n, hstoi, hlo, rfl⟩ := checkTransfer_iff.mp hc
      exact ⟨n, h n hstoi hlo, (Cpp.stoi_eq_ok.mp hstoi).2, hlo⟩
    · rintro ⟨n, hn, hfits, hlo⟩
      exact ⟨_, checkTransfer_iff.mpr ⟨n, stoi_of_whole hn hfits, hlo, rfl⟩⟩
    · intro fromAccount toAccount txId c hc
      obtain ⟨n, hstoi, hlo, rfl⟩ := checkTransfer_iff.mp hc
      exact ⟨n, h n hstoi hlo, rfl⟩

theorem trailing_text_accepted :
    (¬ ∃ n, Cpp.Whole "12abc" n) ∧
      checkStartAmount (.int32 exampleText) (some "12abc") = .ok 12 ∧
      checkTransfer (.int32 exampleText) (some "700000001") (some "700000002") (some "12abc") "tx-1" =
        .ok { exampleCommand with amount := "12" } ∧
      ¬ StartAmountWhole exampleText "12abc" ∧ ¬ AmountWhole exampleText "12abc" := by
  have hwhole : ¬ ∃ n, Cpp.Whole "12abc" n := by
    rintro ⟨n, hn⟩
    have hrest := (Cpp.numeral_iff.mp hn).2
    exact absurd hrest (by decide +kernel)
  have hstart : checkStartAmount (.int32 exampleText) (some "12abc") = .ok 12 := by decide +kernel
  have htransfer : checkTransfer (.int32 exampleText) (some "700000001") (some "700000002")
      (some "12abc") "tx-1" = .ok { exampleCommand with amount := "12" } := by decide +kernel
  refine ⟨hwhole, hstart, htransfer, fun h => ?_, fun h => ?_⟩
  · obtain ⟨n, hn, -⟩ := h.accepted.mp ⟨12, hstart⟩
    exact hwhole ⟨n, hn⟩
  · obtain ⟨n, hn, -⟩ := (h.accepted _ _ _).mp ⟨_, htransfer⟩
    exact hwhole ⟨n, hn⟩

end DigitalWallet

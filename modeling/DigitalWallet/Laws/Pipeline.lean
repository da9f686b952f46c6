import DigitalWallet.Laws.Events

namespace DigitalWallet

open Lib

structure LowBalance (o : Outcomes) (db : AccountDB) (c : Command) : Prop where
  validateReceiver : o.db .validateReceiver = none
  validateSender : o.db .validateSender = none
  low : ∃ a b n, db.lookup c.account1 = some (Cpp.toString a) ∧
    db.lookup c.account2 = some (Cpp.toString b) ∧ c.amount = Cpp.toString n ∧ a < n

section Verdict

variable {text : Status → String} {o : Outcomes} {db : AccountDB} {c : Command}

theorem LowBalance.verdict (h : LowBalance o db c) (ht : Texts (fun n => fits32 n = true) db)
    (hc : Accepted (.int32 text) c) : verdict (.int32 text) o db c = .refused .OK := by
  obtain ⟨hB, hA, a, b, n, ha, hb, hn, hlow⟩ := h
  obtain ⟨m, -, hm, hamount, -⟩ := hc
  obtain rfl : m = n := Cpp.toString_injective (hamount.symm.trans hn)
  obtain ⟨a', hfits, heq⟩ := ht _ _ ha
  obtain rfl := Cpp.toString_injective heq
  have hm' : fits32 m = true := hm
  simp [DigitalWallet.verdict, validation, readAt_of_lookup hB hb, readAt_of_lookup hA ha, hn,
    Platform.int32, hfits, hm', hlow]

theorem settlement_refused {a b n : Int} {st : Status} (h : settlement o a b n = .refused st) :
    st.ok = false := by
  unfold settlement at h
  split at h <;> cases h
  exact Failure.ok _

theorem application_refused {P : Platform} {st : Status} (h : application P o db c = .refused st) :
    st.ok = false := by
  unfold application at h
  split at h
  · cases h; exact Failure.ok _
  · split at h
    · cases h
    · split at h
      · cases h; exact Failure.ok _
      · split at h
        · cases h
        · cases h
        · exact settlement_refused h

theorem validation_refused (ht : Texts (fun n => fits32 n = true) db)
    (hc : Accepted (.int32 text) c) {st : Status}
    (h : validation (.int32 text) o db c = some (.refused st)) :
    st.ok = false ∨ LowBalance o db c := by
  obtain ⟨n, -, hn, hamount, haction⟩ := hc
  have hn' : fits32 n = true := hn
  unfold validation at h
  split at h
  · cases h; exact .inl (Failure.ok _)
  · next sB hB =>
    split at h
    · cases h; exact .inl (Failure.ok _)
    · next sA hA =>
      obtain ⟨a, ha, rfl⟩ := ht _ _ (lookup_of_readAt hA)
      obtain ⟨b, -, rfl⟩ := ht _ _ (lookup_of_readAt hB)
      by_cases hlow : a < n
      · exact .inr ⟨clear_of_readAt hB, clear_of_readAt hA, a, b, n, lookup_of_readAt hA,
          lookup_of_readAt hB, hamount, hlow⟩
      · simp [Platform.int32, ha, hamount, hn', hlow, haction] at h

theorem refused_status (h : ¬ LowBalance o db c) (ht : Texts (fun n => fits32 n = true) db)
    (hc : Accepted (.int32 text) c) {st : Status} (hv : verdict (.int32 text) o db c = .refused st) :
    st.ok = false := by
  unfold verdict at hv
  cases hvalid : validation (.int32 text) o db c with
  | none => rw [hvalid] at hv; exact application_refused hv
  | some v =>
    rw [hvalid] at hv
    cases hv
    exact (validation_refused ht hc hvalid).resolve_right h

theorem verdict_responds (ht : Texts (fun n => fits32 n = true) db) (hc : Accepted (.int32 text) c)
    (hlog : o.logThrows = false) :
    (verdict (.int32 text) o db c).response (.int32 text) = .returned
      { body := "Return Status: " ++ text (verdict (.int32 text) o db c).status ++ "\n" } := by
  rcases verdict_cases (fun _ h => h) ht hc with ⟨st, hv⟩ | ⟨a, b, n, -, -, -, hd, hv⟩
  · rw [hv]; rfl
  · rw [hv]
    cases hcredit : o.db .credit <;> simp only [settlement, hd, hcredit, hlog] <;> rfl

theorem status_performed_iff (ht : Texts (fun n => fits32 n = true) db)
    (hc : Accepted (.int32 text) c) (hlog : o.logThrows = false) {w w' : Wallet}
    (hdb : w.accountDB = db)
    (hdb' : w'.accountDB = (verdict (.int32 text) o db c).accountDB (.int32 text) c w.accountDB)
    (hlog' : w'.eventLog = (verdict (.int32 text) o db c).eventLog c w.eventLog) :
    ((verdict (.int32 text) o db c).status.ok = true ↔ Performed (.int32 text) c w w') ↔
      ¬ LowBalance o db c := by
  by_cases hlow : LowBalance o db c
  · rw [hlow.verdict ht hc] at hlog' ⊢
    have hno := not_performed (P := .int32 text) (c := c) hlog'
    simp [hno, hlow]
  · refine iff_of_true ?_ hlow
    rcases verdict_cases (fun _ h => h) ht hc with ⟨st, hv⟩ | ⟨a, b, n, hf, -, -, hd, hv⟩
    · have hst := refused_status hlow ht hc hv
      rw [hv] at hlog' ⊢
      have hno := not_performed (P := .int32 text) (c := c) hlog'
      simp [hno, hst]
    · rw [hv] at hdb' hlog' ⊢
      cases hcredit : o.db .credit with
      | some f =>
        simp only [settlement, hd, hcredit] at hlog' ⊢
        have hno := not_performed (P := .int32 text) (c := c) hlog'
        simp [hno]
      | none =>
        simp only [settlement, hd, hcredit, hlog] at hdb' hlog' ⊢
        subst hdb
        exact iff_of_true rfl ⟨a, b, n, hf.sender, hf.receiver, hf.amount, hdb', hlog'⟩

end Verdict

section Toggle

/-- A transfer handled alone reports an OK status just when it has been made,
unless VALIDATE refused it for a low balance. -/
theorem status_truthful_iff (text : Status → String) {s : System}
    (hr : Reachable (System.step (.int32 text)) (System.init .empty) s)
    {fromAccount toAccount amount : Option String} {txId : String}
    {c : Command} (hc : checkTransfer (.int32 text) fromAccount toAccount amount txId = .ok c)
    {o : Outcomes} (ho : o.logThrows = false) {exit : Exit Exn Response} {w : Wallet}
    (hrun : (handler (.int32 text) (.balanceTransfer fromAccount toAccount amount txId)).run o
      s.shared = (exit, w)) :
    (s.shared.currentState = .listen →
      ∃ st, exit = .returned { body := "Return Status: " ++ text st ++ "\n" } ∧
        ((st.ok = true ↔ Performed (.int32 text) c s.shared w) ↔
          ¬ LowBalance o s.shared.accountDB c)) ∧
    (s.shared.currentState ≠ .listen → exit = .blocked) := by
  have hs := System.Sane.of_reachable (Platform.int32_holds text) hr
  rw [handler, balanceTransfer_sent hc] at hrun
  constructor
  · intro hl
    obtain ⟨trail, -, hsection⟩ := toggleAndReport_run (P := .int32 text) (o := o) (c := c)
      (q := s.shared.commandQueue) (w := { s.shared with
        commandQueue := s.shared.commandQueue.send c, history := s.shared.history ++ [.sent c] })
      hs.lock hl rfl
    rw [hsection] at hrun
    obtain ⟨rfl, rfl⟩ := Prod.mk.inj hrun
    exact ⟨_, verdict_responds hs.texts (checkTransfer_ok hc) ho,
      status_performed_iff hs.texts (checkTransfer_ok hc) ho rfl rfl rfl⟩
  · intro hl
    have hblocked := toggleAndReport_blocked (P := .int32 text) (o := o) (w := { s.shared with
      commandQueue := s.shared.commandQueue.send c, history := s.shared.history ++ [.sent c] }) (.inr hl)
    rw [hblocked] at hrun
    cases hrun
    rfl

def exampleRequest (amount : String) : Request :=
  .balanceTransfer (some "700000001") (some "700000002") (some amount) "tx-1"

theorem exampleAfter_reachable :
    Reachable (System.step (.int32 exampleText)) (System.init .empty) (exampleAfter 6) :=
  ⟨exampleTransfers.take 6, by decide +kernel⟩

theorem status_truthful_example :
    ∃ st, ((handler (.int32 exampleText) (exampleRequest "30")).run failingCredit
        (exampleAfter 6).shared).1 =
          .returned { body := "Return Status: " ++ exampleText st ++ "\n" } ∧
      (st.ok = true ↔ Performed (.int32 exampleText) exampleCommand (exampleAfter 6).shared
        ((handler (.int32 exampleText) (exampleRequest "30")).run failingCredit
          (exampleAfter 6).shared).2) := by
  have hc : checkTransfer (.int32 exampleText) (some "700000001") (some "700000002") (some "30")
      "tx-1" = .ok exampleCommand := by decide +kernel
  obtain ⟨st, hst, hiff⟩ := (status_truthful_iff exampleText exampleAfter_reachable hc
    (o := failingCredit) rfl rfl).1 (by decide +kernel)
  refine ⟨st, hst, hiff.mpr ?_⟩
  rintro ⟨-, -, a, b, n, ha, -, hn, hlow⟩
  have ha' : (exampleAfter 6).shared.accountDB.lookup "700000001" = some (Cpp.toString 100) := by
    decide +kernel
  obtain rfl := Cpp.toString_injective (Option.some.inj (ha.symm.trans ha'))
  obtain rfl : n = 30 := Cpp.toString_injective (hn.symm.trans (by decide +kernel))
  omega

theorem low_balance_reported_ok :
    Reachable (System.step (.int32 exampleText)) (System.init .empty) (exampleAfter 6) ∧
      (exampleAfter 6).shared.commandQueue = {} ∧
      checkTransfer (.int32 exampleText) (some "700000001") (some "700000002") (some "500") "tx-1" =
        .ok { exampleCommand with amount := "500" } ∧
      ((handler (.int32 exampleText) (exampleRequest "500")).run .succeed (exampleAfter 6).shared).1 =
        .returned { body := "Return Status: " ++ exampleText .OK ++ "\n" } ∧
      ¬ Performed (.int32 exampleText) { exampleCommand with amount := "500" }
        (exampleAfter 6).shared
        ((handler (.int32 exampleText) (exampleRequest "500")).run .succeed
          (exampleAfter 6).shared).2 := by
  refine ⟨exampleAfter_reachable, ?_, ?_, ?_, not_performed ?_⟩ <;> decide +kernel

theorem Label.Logs.not_strandsAt {s : System} {l : Label} (h : l.Logs) : ¬ StrandsAt s l := by
  rintro ⟨i, o, own, q, c, rfl, -, -, -, -, hthrows⟩
  cases hthrows.symm.trans h

theorem listen_of_logs {text : Status → String} {ls : List Label} {s : System}
    (hlogs : ∀ l ∈ ls, l.Logs)
    (hrun : run (System.step (.int32 text)) (System.init .empty) ls = some s) :
    s.shared.currentState = .listen :=
  (listen_run (Meets.of_forall (fun l hl _ => (hlogs l hl).not_strandsAt) _) hrun).2

/-- One toggle in LISTEN, where it is only ever called and where the server stays
as long as no log append throws, is one conditional transfer. -/
theorem toggle_refines_transfer (text : Status → String) {ls : List Label} {s : System}
    (hrun : run (System.step (.int32 text)) (System.init .empty) ls = some s)
    (hlisten : s.shared.currentState = .listen ∨ ∀ l ∈ ls, l.Logs) {q : MessageQueue Command}
    {c : Command} {n : Int} (hq : s.shared.commandQueue = q.send c) (hn : c.amount = Cpp.toString n)
    {exit : Exit Exn Unit} {w : Wallet}
    (htoggle : (Service.toggle (.int32 text)).run .succeed s.shared = (exit, w)) :
    exit = .returned () ∧ w.commandQueue = q ∧ w.currentState = .listen ∧
      ((∃ a b, Funded s.shared.accountDB c a b n) ↔ Performed (.int32 text) c s.shared w) ∧
      ((¬ ∃ a b, Funded s.shared.accountDB c a b n) → Untouched s.shared w) ∧
      ∀ key, key ≠ c.account1 → key ≠ c.account2 →
        w.accountDB.lookup key = s.shared.accountDB.lookup key := by
  have hs := System.Sane.of_reachable (Platform.int32_holds text) ⟨ls, hrun⟩
  have hl : s.shared.currentState = .listen := hlisten.elim id fun hlogs => listen_of_logs hlogs hrun
  have hc := hs.queue c (by simp [hq, MessageQueue.send])
  obtain ⟨trail, -, hsection⟩ := toggle_run (P := .int32 text) (o := .succeed) hl hq
  rw [hsection] at htoggle
  obtain ⟨rfl, rfl⟩ := Prod.mk.inj htoggle
  rcases verdict_succeed (fun _ h => h) hs.texts hc with
    ⟨st, -, hv, hno⟩ | ⟨a, b, m, hf, -, -, -, hv⟩
  · have hno' : ¬ ∃ a b, Funded s.shared.accountDB c a b n := by
      rintro ⟨a, b, hf⟩
      exact hno ⟨a, b, n, hf⟩
    rw [hv]
    exact ⟨rfl, rfl, rfl, iff_of_false hno' (not_performed rfl), fun _ => ⟨rfl, rfl⟩, fun _ _ _ => rfl⟩
  · obtain rfl : m = n := Cpp.toString_injective (hf.amount.symm.trans hn)
    rw [hv]
    refine ⟨rfl, rfl, rfl, iff_of_true ⟨a, b, hf⟩ ?_, fun hno => absurd ⟨a, b, hf⟩ hno, ?_⟩
    · exact ⟨a, b, m, hf.sender, hf.receiver, hf.amount, rfl, rfl⟩
    · intro key h1 h2
      exact (Finmap.lookup_insert_of_ne _ h2).trans (Finmap.lookup_insert_of_ne _ h1)

theorem toggle_refines_example :
    Performed (.int32 exampleText) exampleCommand exampleState.shared
      ((Service.toggle (.int32 exampleText)).run .succeed exampleState.shared).2 := by
  have hrun : run (System.step (.int32 exampleText)) (System.init .empty) exampleRun =
      some exampleState := by decide +kernel
  have hrefines := toggle_refines_transfer exampleText (n := 30) hrun (.inl (by decide +kernel)) exampleState_queue (by decide +kernel) rfl
  refine hrefines.2.2.2.1.mp ⟨100, 50, ?_, ?_, ?_, by decide⟩ <;> decide +kernel

end Toggle

end DigitalWallet

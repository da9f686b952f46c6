import DigitalWallet.Laws.Accounts

namespace DigitalWallet

open Lib

def Request.command (P : Platform) : Request → Option Command
  | .balanceTransfer fromAccount toAccount amount txId =>
    (checkTransfer P fromAccount toAccount amount txId).toOption
  | _ => none

theorem Request.command_eq_some {P : Platform} {r : Request} {c : Command}
    (h : r.command P = some c) :
    ∃ fromAccount toAccount amount txId,
      r = .balanceTransfer fromAccount toAccount amount txId ∧
        checkTransfer P fromAccount toAccount amount txId = .ok c := by
  cases r with
  | balanceTransfer fromAccount toAccount amount txId =>
    refine ⟨fromAccount, toAccount, amount, txId, rfl, ?_⟩
    cases hcheck : checkTransfer P fromAccount toAccount amount txId with
    | error e => simp [command, hcheck, Except.toOption] at h
    | ok c' => simpa [command, hcheck, Except.toOption] using h
  | _ => cases h

theorem Request.command_accepted {P : Platform} {r : Request} {c : Command}
    (h : r.command P = some c) : Accepted P c := by
  obtain ⟨fromAccount, toAccount, amount, txId, rfl, hcheck⟩ := Request.command_eq_some h
  exact checkTransfer_ok hcheck

def Command.entries (c : Command) : List LogEntry := [.header, .event c.eventA, .event c.eventB]

/-- What handling one request can do to the service.  A transfer takes its own
command: it is the last one in the queue. -/
inductive Serves (P : Platform) (r : Request) (w : Wallet) : Wallet → Prop
  | idle : r.command P = none → Serves P r w w
  | look {key s reads} : r.command P = none →
      (∀ a ∈ reads, ∃ value, a = .got .getBalance key value) →
      Serves P r w { w with status := s, history := w.history ++ reads }
  | create {startAmount n k} : r = .createAccount startAmount →
      checkStartAmount P startAmount = .ok n → w.seedFile.number = some k →
      Serves P r w
        { w with
          accountDB := w.accountDB.insert (accountID (k + 1)) (Cpp.toString n)
          seedFile := .archive (some (k + 1))
          status := .OK
          history := w.history ++
            [.generated (accountID (k + 1)), .wrote .createAccount (accountID (k + 1)) (Cpp.toString n)] }
  | transfer {c trail} : r.command P = some c → w.currentState = .listen →
      Trail P .succeed w.accountDB c trail →
      Serves P r w
        ((verdict P .succeed w.accountDB c).wallet P c { w with commandToProcess := c }
          (.sent c :: .received c :: .entered .validate c :: trail ++
            (verdict P .succeed w.accountDB c).report c))
  | wait {c} : r.command P = some c → w.currentState ≠ .listen →
      Serves P r w
        { w with commandQueue := w.commandQueue.send c, history := w.history ++ [.sent c] }

theorem Trail.serve_stored {P : Platform} {o : Outcomes} {db : AccountDB} {c : Command}
    {trail : List Action} (h : Trail P o db c trail) {v : Verdict} :
    storedAccounts (.sent c :: .received c :: .entered .validate c :: trail ++ v.report c) = [] := by
  rw [List.cons_append, storedAccounts_cons, h.toggle_accounts.2]
  rfl

theorem reads_apply {key : String} {reads : List Action}
    (h : ∀ a ∈ reads, ∃ value, a = .got .getBalance key value) : enteredApply reads = [] := by
  apply List.filterMap_eq_nil_iff.mpr
  intro a ha
  obtain ⟨value, rfl⟩ := h a ha
  rfl

theorem Trail.serve_apply {P : Platform} {o : Outcomes} {db : AccountDB} {c : Command}
    {trail : List Action} (h : Trail P o db c trail) {v : Verdict} :
    enteredApply (.sent c :: .received c :: .entered .validate c :: trail ++ v.report c) =
      if validation P o db c = none then [c] else [] := by
  rw [enteredApply_append, ← h.apply]
  cases v <;> simp [Verdict.report, enteredApply]

section Serve

variable {P : Platform} {o : Outcomes} {w : Wallet}

theorem createAccount_drawn {startAmount : Option String} {n : Int} {id : String} {f : SeedFile}
    (hcheck : checkStartAmount P startAmount = .ok n)
    (hgen : genAccountID o.seed w.seedFile = (.returned id, f)) :
    (createAccount P startAmount).run o w =
      (storeAccount id n).run o { w with seedFile := f, history := w.history ++ [.generated id] } := by
  simp [createAccount, hcheck, Prog.run, Proc.exec, perform, hgen]

theorem createAccount_threw {startAmount : Option String} {n : Int} {f : SeedFile}
    (hcheck : checkStartAmount P startAmount = .ok n)
    (hgen : genAccountID o.seed w.seedFile = (.threw, f)) :
    (createAccount P startAmount).run o w = (.threw .archive, { w with seedFile := f }) := by
  simp [createAccount, hcheck, Prog.run, Proc.exec, perform, hgen]

theorem createAccount_overflow {startAmount : Option String} {n : Int} {f : SeedFile}
    (hcheck : checkStartAmount P startAmount = .ok n)
    (hgen : genAccountID o.seed w.seedFile = (.overflow, f)) :
    (createAccount P startAmount).run o w = (.blocked, w) := by
  simp [createAccount, hcheck, Prog.run, Proc.exec, perform, hgen]

theorem balanceTransfer_sent {fromAccount toAccount amount : Option String} {txId : String}
    {c : Command} (hcheck : checkTransfer P fromAccount toAccount amount txId = .ok c) :
    (balanceTransfer P fromAccount toAccount amount txId).run o w =
      (toggleAndReport P).run o
        { w with commandQueue := w.commandQueue.send c, history := w.history ++ [.sent c] } := by
  simp [balanceTransfer, hcheck, Prog.run, Proc.exec, perform]

theorem serves_transfer {r : Request} {c : Command} (hl : w.cvM = false)
    (hc : r.command P = some c) :
    Serves P r w (((toggleAndReport P).run .succeed
      { w with commandQueue := w.commandQueue.send c, history := w.history ++ [.sent c] }).2) := by
  by_cases hs : w.currentState = .listen
  · obtain ⟨trail, htrail, hrun⟩ := toggleAndReport_run (P := P) (o := .succeed)
      (w := { w with commandQueue := w.commandQueue.send c, history := w.history ++ [.sent c] })
      (c := c) hl hs rfl
    have := Serves.transfer hc hs htrail
    rw [hrun]
    simpa [Verdict.wallet] using this
  · have hblocked := toggleAndReport_blocked (P := P) (o := .succeed)
      (w := { w with commandQueue := w.commandQueue.send c, history := w.history ++ [.sent c] }) (.inr hs)
    rw [hblocked]
    exact .wait hc hs

theorem serves_create (startAmount : Option String) :
    Serves P (.createAccount startAmount) w
      ((createAccount P startAmount).run .succeed w).2 := by
  cases hcheck : checkStartAmount P startAmount with
  | error resp => simp only [createAccount, hcheck]; exact .idle rfl
  | ok n =>
    obtain ⟨k, hk, -, hgen⟩ | ⟨-, hgen⟩ | ⟨-, hgen⟩ := genAccountID_cases w.seedFile
    · have hserves := Serves.create (P := P) (w := w) rfl hcheck hk
      rw [createAccount_drawn (o := .succeed) hcheck hgen, storeAccount_run _ _ rfl]
      simpa using hserves
    · rw [createAccount_threw (o := .succeed) hcheck hgen]
      exact .idle rfl
    · rw [createAccount_overflow (o := .succeed) hcheck hgen]
      exact .idle rfl

theorem serves (hl : w.cvM = false) (r : Request) : Serves P r w (serve P w r) := by
  cases r with
  | createAccount startAmount => exact serves_create startAmount
  | balanceTransfer fromAccount toAccount amount txId =>
    cases hcheck : checkTransfer P fromAccount toAccount amount txId with
    | error resp =>
      have hidle : serve P w (.balanceTransfer fromAccount toAccount amount txId) = w := by
        simp [serve, handler, balanceTransfer, hcheck]
      rw [hidle]
      exact .idle (by simp [Request.command, hcheck, Except.toOption])
    | ok c =>
      rw [serve, handler, balanceTransfer_sent hcheck]
      exact serves_transfer hl (by simp [Request.command, hcheck, Except.toOption])
  | getBalance accountID =>
    cases accountID with
    | none => exact .idle rfl
    | some key =>
      obtain ⟨resp, s, reads, hreads, hrun⟩ := getBalance_run (o := .succeed) (w := w) key
      rw [serve, handler, hrun]
      exact .look rfl hreads
  | events =>
    rw [serve, handler]
    rcases events_run (o := .succeed) (w := w) with ⟨resp, hrun⟩ | hrun <;> rw [hrun] <;>
      exact .idle rfl

end Serve

theorem Serves.entered {P : Platform} {r : Request} {w w' : Wallet} (h : Serves P r w w') :
    ∃ cs, cs.Sublist (r.command P).toList ∧
      enteredApply w'.history = enteredApply w.history ++ cs := by
  cases h with
  | idle => exact ⟨[], List.nil_sublist _, by simp⟩
  | look _ hreads => exact ⟨[], List.nil_sublist _, by simp [reads_apply hreads]⟩
  | create => exact ⟨[], List.nil_sublist _, by simp [enteredApply]⟩
  | wait => exact ⟨[], List.nil_sublist _, by simp [enteredApply]⟩
  | @transfer c trail hc _ htrail =>
    refine ⟨if validation P .succeed w.accountDB c = none then [c] else [], ?_, ?_⟩
    · rw [hc]
      split
      · exact List.Sublist.refl _
      · exact List.nil_sublist _
    · rw [Verdict.wallet, enteredApply_append, htrail.serve_apply]

theorem Serves.aborted {P : Platform} {r : Request} {w w' : Wallet} (h : Serves P r w w') :
    w'.aborted = w.aborted := by
  cases h <;> rfl

namespace System

variable {P : Platform} {w : Wallet}

theorem step_arrive (ha : w.aborted = false) (ts : List Handler) (r : Request) :
    step P ⟨w, ts⟩ (.arrive r) = some ⟨w, ts ++ [.arrived r]⟩ := by
  simp [step, ha]

theorem step_last {t t' : Handler} {w' : Wallet} (ha : w.aborted = false) (ts : List Handler)
    (h : t.advance P .succeed w = some (t', w')) :
    step P ⟨w, ts ++ [t]⟩ (.advance ts.length .succeed) = some ⟨w', ts ++ [t']⟩ := by
  simp [step, ha, Pool.advance, h]

theorem serve_sections (ha : w.aborted = false) (hl : w.cvM = false) (r : Request) :
    serve P w r = w ∨
    (∃ t, (Handler.arrived r).advance P .succeed w = some (t, serve P w r)) ∨
    ∃ t w' t', (Handler.arrived r).advance P .succeed w = some (t, w') ∧ w'.aborted = false ∧
      t.advance P .succeed w' = some (t', serve P w r) := by
  cases r with
  | createAccount startAmount =>
    cases hcheck : checkStartAmount P startAmount with
    | error resp => exact .inl (by simp [serve, handler, createAccount, hcheck])
    | ok n =>
      obtain ⟨k, hk, -, hgen⟩ | ⟨-, hgen⟩ | ⟨-, hgen⟩ := genAccountID_cases w.seedFile
      · refine .inr (.inr ⟨.generated (accountID (k + 1)) n, { w with
          seedFile := .archive (some (k + 1))
          history := w.history ++ [.generated (accountID (k + 1))] }, .answered none
            { body := "Account: " ++ accountID (k + 1) ++ " : Balance: " ++ Cpp.toString n ++ "\n" },
          ?_, ha, ?_⟩)
        · simp [Handler.advance, hcheck, Prog.run, Proc.exec, perform, Outcomes.succeed, hgen]
        · rw [serve, handler, createAccount_drawn (o := .succeed) hcheck hgen, Handler.advance,
            storeAccount_run _ _ rfl]
          rfl
      · exact .inl (by rw [serve, handler, createAccount_threw (o := .succeed) hcheck hgen])
      · exact .inl (by rw [serve, handler, createAccount_overflow (o := .succeed) hcheck hgen])
  | balanceTransfer fromAccount toAccount amount txId =>
    cases hcheck : checkTransfer P fromAccount toAccount amount txId with
    | error resp => exact .inl (by simp [serve, handler, balanceTransfer, hcheck])
    | ok c =>
      have hsend : (Handler.arrived (.balanceTransfer fromAccount toAccount amount txId)).advance
          P .succeed w = some (.sent c, { w with
            commandQueue := w.commandQueue.send c, history := w.history ++ [.sent c] }) := by
        simp [Handler.advance, hcheck, Prog.run, Proc.exec, perform]
      rw [serve, handler, balanceTransfer_sent hcheck]
      by_cases hs : w.currentState = .listen
      · obtain ⟨trail, -, hrun⟩ := toggleAndReport_run (P := P) (o := .succeed)
          (w := { w with commandQueue := w.commandQueue.send c, history := w.history ++ [.sent c] })
          (c := c) hl hs rfl
        refine .inr (.inr ⟨_, _, (verdict P .succeed w.accountDB c).answer P c, hsend, ha, ?_⟩)
        rw [Handler.advance, hrun]
        cases verdict P .succeed w.accountDB c <;> rfl
      · have hblocked := toggleAndReport_blocked (P := P) (o := .succeed)
          (w := { w with commandQueue := w.commandQueue.send c, history := w.history ++ [.sent c] })
          (.inr hs)
        rw [hblocked]
        exact .inr (.inl ⟨_, hsend⟩)
  | getBalance accountID =>
    cases accountID with
    | none => exact .inl rfl
    | some key =>
      obtain ⟨resp, s, reads, hreads, hrun⟩ := getBalance_run (o := .succeed) (w := w) key
      refine .inr (.inl ⟨.answered none resp, ?_⟩)
      simp only [Handler.advance, serve, handler, hrun]
      rfl
  | events =>
    refine .inl ?_
    rw [serve, handler]
    rcases events_run (o := .succeed) (w := w) with ⟨resp, hrun⟩ | hrun <;> rw [hrun]

theorem serve_run (ha : w.aborted = false) (hl : w.cvM = false) (ts : List Handler) (r : Request) :
    ∃ ls ts', (∀ l ∈ ls, l.Succeeds) ∧ run (step P) ⟨w, ts⟩ ls = some ⟨serve P w r, ts'⟩ := by
  obtain h | ⟨t, h⟩ | ⟨t, w', t', h, ha', h'⟩ := serve_sections (P := P) ha hl r
  · exact ⟨[], ts, by simp, by rw [h]; rfl⟩
  · refine ⟨[.arrive r, .advance ts.length .succeed], ts ++ [t], by simp [Label.Succeeds], ?_⟩
    simp [run, step_arrive ha, step_last ha ts h]
  · refine ⟨[.arrive r, .advance ts.length .succeed, .advance ts.length .succeed], ts ++ [t'],
      by simp [Label.Succeeds], ?_⟩
    simp [run, step_arrive ha, step_last ha ts h, step_last ha' ts h']

end System

structure Wallet.Reached (P : Platform) (w : Wallet) : Prop where
  running : w.aborted = false
  run : ∃ ls ts, (∀ l ∈ ls, l.Succeeds) ∧ run (System.step P) (System.init .empty) ls = some ⟨w, ts⟩

namespace Wallet.Reached

variable {P : Platform} {w : Wallet}

theorem empty : Wallet.empty.Reached P := ⟨rfl, [], [], by simp, rfl⟩

theorem sane {V : Int → Prop} (hP : P.Holds V) (h : w.Reached P) : ∃ ts, System.Sane P V ⟨w, ts⟩ := by
  obtain ⟨-, ls, ts, -, hrun⟩ := h
  exact ⟨ts, System.Sane.of_reachable hP ⟨ls, hrun⟩⟩

theorem lock (h : w.Reached P) : w.cvM = false := by
  obtain ⟨ts, hs⟩ := h.sane (V := fun _ => True) ⟨fun _ => trivial, fun _ _ => trivial⟩
  exact hs.lock

theorem mem_iff (h : w.Reached P) {key : String} :
    key ∈ w.accountDB ↔ ∃ text, (key, text) ∈ storedAccounts w.history := by
  obtain ⟨-, ls, ts, -, hrun⟩ := h
  obtain ⟨ns, hd⟩ := System.distinct_of_reachable ⟨ls, hrun⟩
  have hkeys : w.accountDB.keys = (storedIDs w.history).toFinset := hd.keys
  rw [← Finmap.mem_keys, hkeys]
  simp [storedIDs]

theorem next_absent (h : w.Reached P) {k : Int} (hk : w.seedFile.number = some k) :
    accountID (k + 1) ∉ w.accountDB := by
  obtain ⟨-, ls, ts, -, hrun⟩ := h
  obtain ⟨ns, hd⟩ := System.distinct_of_reachable ⟨ls, hrun⟩
  obtain ⟨hk0, hle⟩ := hd.number k hk
  intro hmem
  obtain ⟨n, hn, hid⟩ := hd.mem hmem
  have := hle n hn
  have := accountID_inj (by omega) (hd.positive n hn) hid
  omega

theorem serve (h : w.Reached P) (r : Request) : (serve P w r).Reached P := by
  have hl := h.lock
  obtain ⟨ha, ls, ts, hall, hrun⟩ := h
  obtain ⟨ls', ts', hall', hrun'⟩ := System.serve_run (P := P) ha hl ts r
  refine ⟨?_, ls ++ ls', ts', ?_, by rw [Lib.run_append, hrun]; exact hrun'⟩
  · rw [(serves hl r).aborted, ha]
  · intro l hmem
    rcases List.mem_append.mp hmem with hmem | hmem
    · exact hall l hmem
    · exact hall' l hmem

theorem serveAll (h : w.Reached P) (rs : List Request) : (serveAll P w rs).Reached P := by
  induction rs generalizing w with
  | nil => exact h
  | cons r rs ih => exact ih (h.serve r)

theorem entered (h : w.Reached P) (rs : List Request) :
    ∃ cs, cs.Sublist (rs.filterMap (Request.command P)) ∧
      enteredApply (DigitalWallet.serveAll P w rs).history = enteredApply w.history ++ cs := by
  induction rs generalizing w with
  | nil => exact ⟨[], List.Sublist.refl _, by simp [DigitalWallet.serveAll]⟩
  | cons r rs ih =>
    obtain ⟨cs, hcs, hfirst⟩ := (serves h.lock r).entered
    obtain ⟨cs', hcs', hrest⟩ := ih (h.serve r)
    refine ⟨cs ++ cs', ?_, ?_⟩
    · have hcons : (r :: rs).filterMap (Request.command P) =
          (r.command P).toList ++ rs.filterMap (Request.command P) := by
        cases hr : r.command P <;> simp [hr]
      rw [hcons]
      exact hcs.append hcs'
    · rw [← List.append_assoc, ← hfirst]
      exact hrest

end Wallet.Reached

end DigitalWallet

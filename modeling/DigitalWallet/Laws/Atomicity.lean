import DigitalWallet.Laws.Invariant

namespace DigitalWallet

open Lib

def Untouched (w w' : Wallet) : Prop :=
  w'.accountDB = w.accountDB ∧ w'.eventLog = w.eventLog

def Performed (P : Platform) (c : Command) (w w' : Wallet) : Prop :=
  ∃ a b n : Int, w.accountDB.lookup c.account1 = some (Cpp.toString a) ∧
    w.accountDB.lookup c.account2 = some (Cpp.toString b) ∧ c.amount = Cpp.toString n ∧
    w'.accountDB = (w.accountDB.insert c.account1 (Cpp.toString (P.arith (a - n)))).insert c.account2
      (Cpp.toString (P.arith (b + n))) ∧
    w'.eventLog = w.eventLog ++ [.header, .event c.eventA, .event c.eventB]

def Debits (o : Outcomes) (w : Wallet) (c : Command) : Prop :=
  w.currentState = .listen ∧ o.ReadsClear ∧ (∃ a b n, Funded w.accountDB c a b n) ∧
    o.db .debit = none

/-- After the first `Put` the second one fails, or the event log throws. -/
def Torn (o : Outcomes) (w : Wallet) (c : Command) : Prop :=
  Debits o w c ∧ (o.db .credit ≠ none ∨ o.logThrows = true)

-- both `Put`s go through and the event log throws
def Stranded (o : Outcomes) (w : Wallet) (c : Command) : Prop :=
  Debits o w c ∧ o.db .credit = none ∧ o.logThrows = true

theorem bmod_add_ne {x n : Int} (hn : n ≠ 0) (hfits : fits32 n = true) :
    (x + n).bmod (2 ^ 32) ≠ x := by
  intro h
  have hmod : x % 4294967296 = (x + n) % 4294967296 := by
    have := Int.bmod_emod (x := x + n) (m := 2 ^ 32)
    rwa [h] at this
  rw [fits32_iff] at hfits
  omega

section Toggle

variable {text : Status → String} {o : Outcomes} {s : System} {c : Command} {q : MessageQueue Command}

theorem toggle_of_not_listen {P : Platform} {w : Wallet} (h : w.currentState ≠ .listen) :
    (Service.toggle P).run o w = (.returned (), w) := by
  simp only [Service.toggle, Proc.bind_eq, Proc.op_bind, Proc.ret_bind, run_currentState]
  cases hs : w.currentState with
  | listen => exact absurd hs h
  | validate => rfl
  | apply => rfl

theorem verdict_sane (hs : s.Sane (.int32 text) (fun n => fits32 n = true))
    (hq : s.shared.commandQueue = q.send c) :
    (∃ st, verdict (.int32 text) o s.shared.accountDB c = .refused st) ∨
      ∃ a b n, Funded s.shared.accountDB c a b n ∧ 0 < n ∧ o.ReadsClear ∧ o.db .debit = none ∧
        verdict (.int32 text) o s.shared.accountDB c = settlement o a b n :=
  verdict_cases (fun _ h => h) hs.texts (hs.queue c (by simp [hq, MessageQueue.send]))

theorem verdict_of_debits (hs : s.Sane (.int32 text) (fun n => fits32 n = true))
    (hq : s.shared.commandQueue = q.send c) (h : Debits o s.shared c) :
    ∃ a b n, Funded s.shared.accountDB c a b n ∧ 0 < n ∧ fits32 n = true ∧ fits32 a = true ∧
      fits32 b = true ∧ o.db .debit = none ∧
      verdict (.int32 text) o s.shared.accountDB c = settlement o a b n := by
  obtain ⟨-, hclear, ⟨a, b, n, hf⟩, hd⟩ := h
  have hc := hs.queue c (by simp [hq, MessageQueue.send])
  obtain ⟨m, hpos, hfits, hamount, -⟩ := hc
  obtain rfl : m = n := Cpp.toString_injective (hamount.symm.trans hf.amount)
  obtain ⟨a', ha, heq⟩ := hs.texts _ _ hf.sender
  obtain rfl := Cpp.toString_injective heq
  obtain ⟨b', hb, heq⟩ := hs.texts _ _ hf.receiver
  obtain rfl := Cpp.toString_injective heq
  exact ⟨a, b, m, hf, hpos, hfits, ha, hb, hd,
    verdict_of_funded hf (hs.queue c (by simp [hq, MessageQueue.send])) ha hb hclear⟩

theorem not_untouched {w w' : Wallet} (key : String) {x y : Int}
    (hx : w.accountDB.lookup key = some (Cpp.toString x))
    (hy : w'.accountDB.lookup key = some (Cpp.toString y)) (hne : y ≠ x) : ¬ Untouched w w' := by
  rintro ⟨hdb, -⟩
  rw [hdb, hx] at hy
  exact hne (Cpp.toString_injective (Option.some.inj hy)).symm

theorem not_performed {P : Platform} {w w' : Wallet} (hlog : w'.eventLog = w.eventLog) :
    ¬ Performed P c w w' := by
  rintro ⟨_, _, _, -, -, -, -, hev⟩
  simp [hlog] at hev

theorem settlement_atomic (text : Status → String) {a b n : Int} {w w' : Wallet} (hf : Funded w.accountDB c a b n)
    (hpos : 0 < n) (hn : fits32 n = true) (hd : o.db .debit = none)
    (hdb : w'.accountDB = (settlement o a b n).accountDB (.int32 text) c w.accountDB)
    (hlog : w'.eventLog = (settlement o a b n).eventLog c w.eventLog) :
    Untouched w w' ∨ Performed (.int32 text) c w w' ↔
      ¬ (o.db .credit ≠ none ∨ o.logThrows = true) := by
  have hneg : fits32 (-n) = true := by rw [fits32_iff] at hn ⊢; omega
  cases hc : o.db .credit with
  | some f =>
    simp only [settlement, hd, hc, Verdict.accountDB, Verdict.eventLog] at hdb hlog
    have hmoved : w'.accountDB.lookup c.account1 = some (Cpp.toString ((a + -n).bmod (2 ^ 32))) := by
      rw [hdb, Finmap.lookup_insert]; rfl
    have hU := not_untouched _ hf.sender hmoved (bmod_add_ne (by omega) hneg)
    have hP := not_performed (P := .int32 text) (c := c) hlog
    simp [hU, hP]
  | none =>
    cases hl : o.logThrows with
    | true =>
      simp only [settlement, hd, hc, hl, Verdict.accountDB, Verdict.eventLog] at hdb hlog
      have hmoved : w'.accountDB.lookup c.account2 = some (Cpp.toString ((b + n).bmod (2 ^ 32))) := by
        rw [hdb, Finmap.lookup_insert]; rfl
      have hU := not_untouched _ hf.receiver hmoved (bmod_add_ne (by omega) hn)
      have hP := not_performed (P := .int32 text) (c := c) hlog
      simp [hU, hP]
    | false =>
      simp only [settlement, hd, hc, hl, Verdict.accountDB, Verdict.eventLog] at hdb hlog
      have hP : Performed (.int32 text) c w w' :=
        ⟨a, b, n, hf.sender, hf.receiver, hf.amount, hdb, hlog⟩
      simp [hP]

/-- A toggle that holds `cv_m` from one end to the other leaves the database and
the event log as they were, or performs both updates and logs both events, unless
it is torn.  What another handler writes to `service._status` meanwhile is the
subject of `Threads`. -/
theorem toggle_atomic_iff (text : Status → String) {s : System}
    (hr : Reachable (System.step (.int32 text)) (System.init .empty) s) {q : MessageQueue Command}
    {c : Command} (hq : s.shared.commandQueue = q.send c) (o : Outcomes) :
    (Untouched s.shared ((Service.toggle (.int32 text)).run o s.shared).2 ∨
      Performed (.int32 text) c s.shared ((Service.toggle (.int32 text)).run o s.shared).2) ↔
      ¬ Torn o s.shared c := by
  have hs := System.Sane.of_reachable (Platform.int32_holds text) hr
  by_cases hl : s.shared.currentState = .listen
  · obtain ⟨trail, -, hrun⟩ := toggle_run (P := .int32 text) (o := o) hl hq
    rw [hrun]
    by_cases hdebits : Debits o s.shared c
    · obtain ⟨a, b, n, hf, hpos, hn, -, -, hd, hv⟩ := verdict_of_debits hs hq hdebits
      rw [settlement_atomic text hf hpos hn hd (by rw [hv]; rfl) (by rw [hv]; rfl)]
      simp only [Torn, hdebits, true_and]
    · rcases verdict_sane (o := o) hs hq with ⟨st, hv⟩ | ⟨a, b, n, hf, -, hclear, hd, -⟩
      · refine iff_of_true (.inl ⟨?_, ?_⟩) (fun h => hdebits h.1)
        · rw [hv]; rfl
        · rw [hv]; rfl
      · exact absurd ⟨hl, hclear, ⟨a, b, n, hf⟩, hd⟩ hdebits
  · rw [toggle_of_not_listen hl]
    exact iff_of_true (.inl ⟨rfl, rfl⟩) (fun h => hl h.1.1)

def exampleText (s : Status) : String := if s.ok then "OK" else "NotFound: "

def exampleRun : List Label :=
  [.arrive (.createAccount (some "100")), .advance 0 .succeed, .advance 0 .succeed,
    .arrive (.createAccount (some "50")), .advance 1 .succeed, .advance 1 .succeed,
    .arrive (.balanceTransfer (some "700000001") (some "700000002") (some "30") "tx-1"),
    .advance 2 .succeed]

def exampleCommand : Command := ⟨"tx-1", "700000001", "700000002", "30", "TRANSFER"⟩

def exampleState : System :=
  (run (System.step (.int32 exampleText)) (System.init .empty) exampleRun).getD (System.init .empty)

theorem exampleState_reachable :
    Reachable (System.step (.int32 exampleText)) (System.init .empty) exampleState :=
  ⟨exampleRun, by decide +kernel⟩

theorem exampleState_queue : exampleState.shared.commandQueue = MessageQueue.send {} exampleCommand := by
  decide +kernel

def failingCredit : Outcomes where
  db call := if call = .credit then some ⟨⟨.kIOError, ""⟩, rfl⟩ else none
  logThrows := false
  seed := {}

theorem toggle_atomic_example :
    Untouched exampleState.shared
        ((Service.toggle (.int32 exampleText)).run .succeed exampleState.shared).2 ∨
      Performed (.int32 exampleText) exampleCommand exampleState.shared
        ((Service.toggle (.int32 exampleText)).run .succeed exampleState.shared).2 :=
  (toggle_atomic_iff exampleText exampleState_reachable exampleState_queue .succeed).mpr
    (by rintro ⟨-, h | h⟩ <;> simp [Outcomes.succeed] at h)

theorem failing_credit_tears :
    Reachable (System.step (.int32 exampleText)) (System.init .empty) exampleState ∧
      exampleState.shared.commandQueue = MessageQueue.send {} exampleCommand ∧
      ¬ (Untouched exampleState.shared
          ((Service.toggle (.int32 exampleText)).run failingCredit exampleState.shared).2 ∨
        Performed (.int32 exampleText) exampleCommand exampleState.shared
          ((Service.toggle (.int32 exampleText)).run failingCredit exampleState.shared).2) := by
  refine ⟨exampleState_reachable, exampleState_queue, not_or.mpr ⟨?_, ?_⟩⟩
  · refine not_untouched "700000001" (x := 100) (y := 70) ?_ ?_ (by decide)
    · decide +kernel
    · decide +kernel
  · exact not_performed (by decide +kernel)

theorem settlement_state {a b n : Int} (hd : o.db .debit = none) :
    (settlement o a b n).state = .listen ↔ ¬ (o.db .credit = none ∧ o.logThrows = true) := by
  cases hc : o.db .credit <;> cases hl : o.logThrows <;> simp [settlement, hd, hc, hl]

theorem verdict_state (hs : s.Sane (.int32 text) (fun n => fits32 n = true))
    (hl : s.shared.currentState = .listen) (hq : s.shared.commandQueue = q.send c) :
    (verdict (.int32 text) o s.shared.accountDB c).state = .listen ↔ ¬ Stranded o s.shared c := by
  by_cases hdebits : Debits o s.shared c
  · obtain ⟨a, b, n, -, -, -, -, -, hd, hv⟩ := verdict_of_debits hs hq hdebits
    rw [hv, settlement_state hd]
    simp only [Stranded, hdebits, true_and]
  · rcases verdict_sane (o := o) hs hq with ⟨st, hv⟩ | ⟨a, b, n, hf, -, hclear, hd, -⟩
    · rw [hv]
      exact iff_of_true rfl (fun h => hdebits h.1)
    · exact absurd ⟨hl, hclear, ⟨a, b, n, hf⟩, hd⟩ hdebits

def StrandsAt (s : System) (l : Label) : Prop :=
  ∃ i o own, ∃ q : MessageQueue Command, ∃ c, l = .advance i o ∧ s.threads[i]? = some (.sent own) ∧
    s.shared.commandQueue = q.send c ∧ Stranded o s.shared c

theorem listen_step (hs : s.Sane (.int32 text) (fun n => fits32 n = true)) {s' : System} {l : Label}
    (hl : s.shared.currentState = .listen) (hno : ¬ StrandsAt s l)
    (h : System.step (.int32 text) s l = some s') : s'.shared.currentState = .listen := by
  rcases System.step_cases h with
    ⟨r, rfl, rfl⟩ | ⟨i, o, before, t, after, t', rfl, hi, -, -, hmove⟩ | ⟨rfl, rfl⟩
  · exact hl
  · obtain ⟨w', ts'⟩ := s'
    change Moves _ _ _ _ _ w' at hmove
    cases hmove with
    | @toggle own c q trail _ _ _ hqueue _ =>
      exact (verdict_state hs hl hqueue).mpr fun hstranded =>
        hno ⟨i, o, own, q, c, rfl, hi, hqueue, hstranded⟩
    | _ => exact hl
  · rfl

theorem listen_run {ls : List Label}
    (hmeets : Meets (System.step (.int32 text)) (fun s l => ¬ StrandsAt s l) (System.init .empty) ls)
    (hrun : run (System.step (.int32 text)) (System.init .empty) ls = some s) :
    s.Sane (.int32 text) (fun n => fits32 n = true) ∧ s.shared.currentState = .listen :=
  run_invariant
    (I := fun s => s.Sane (.int32 text) (fun n => fits32 n = true) ∧ s.shared.currentState = .listen)
    (fun hi hno hstep => ⟨hi.1.step (Platform.int32_holds text) hstep, listen_step hi.1 hi.2 hno hstep⟩)
    ⟨.init, rfl⟩ hmeets hrun

/-- A toggle is left in LISTEN unless it is stranded or started elsewhere; and
in a run of whole toggles of which none is stranded every state is LISTEN with
the lock free, so no transfer waits for ever.  Again `service._status` is left to
the toggle itself. -/
theorem toggle_listen_iff (text : Status → String) :
    (∀ s, Reachable (System.step (.int32 text)) (System.init .empty) s →
      ∀ (q : MessageQueue Command) c, s.shared.commandQueue = q.send c → ∀ o,
        ((Service.toggle (.int32 text)).run o s.shared).1 ≠ .blocked ∧
        (((Service.toggle (.int32 text)).run o s.shared).2.currentState = .listen ↔
          s.shared.currentState = .listen ∧ ¬ Stranded o s.shared c)) ∧
    (∀ ls s, run (System.step (.int32 text)) (System.init .empty) ls = some s →
      Meets (System.step (.int32 text)) (fun s l => ¬ StrandsAt s l) (System.init .empty) ls →
      s.shared.cvM = false ∧ s.shared.currentState = .listen) := by
  have hP := Platform.int32_holds text
  constructor
  · intro s hr q c hq o
    have hs := System.Sane.of_reachable hP hr
    by_cases hl : s.shared.currentState = .listen
    · obtain ⟨trail, -, hrun⟩ := toggle_run (P := .int32 text) (o := o) hl hq
      simp only [hrun, hl, true_and]
      refine ⟨?_, verdict_state hs hl hq⟩
      cases verdict (.int32 text) o s.shared.accountDB c <;> simp
    · rw [toggle_of_not_listen hl]
      simp [hl]
  · intro ls s hrun hmeets
    obtain ⟨hs, hl⟩ := listen_run hmeets hrun
    exact ⟨hs.lock, hl⟩

def throwingLog : Outcomes where
  db _ := none
  logThrows := true
  seed := {}

theorem toggle_listen_example :
    ((Service.toggle (.int32 exampleText)).run failingCredit exampleState.shared).2.currentState =
        .listen ∧
      exampleState.shared.cvM = false ∧ exampleState.shared.currentState = .listen := by
  have hl : exampleState.shared.currentState = .listen := by decide +kernel
  refine ⟨?_, ?_⟩
  · refine (((toggle_listen_iff exampleText).1 _ exampleState_reachable _ _ exampleState_queue
      failingCredit).2).mpr ⟨hl, ?_⟩
    rintro ⟨-, h, -⟩
    simp [failingCredit] at h
  · refine (toggle_listen_iff exampleText).2 exampleRun exampleState (by decide +kernel) ?_
    apply Meets.of_forall
    rintro l hl s ⟨i, o, own, q, c, rfl, -, -, -, -, hthrows⟩
    simp only [exampleRun, List.mem_cons, Label.advance.injEq, reduceCtorEq, List.not_mem_nil,
      or_false, false_or] at hl
    rcases hl with ⟨-, rfl⟩ | ⟨-, rfl⟩ | ⟨-, rfl⟩ | ⟨-, rfl⟩ | ⟨-, rfl⟩ <;>
      simp [Outcomes.succeed] at hthrows

theorem throwing_log_strands :
    Reachable (System.step (.int32 exampleText)) (System.init .empty) exampleState ∧
      exampleState.shared.currentState = .listen ∧
      exampleState.shared.commandQueue = MessageQueue.send {} exampleCommand ∧
      ((Service.toggle (.int32 exampleText)).run throwingLog exampleState.shared).1 =
        .threw .archive ∧
      ((Service.toggle (.int32 exampleText)).run throwingLog exampleState.shared).2.currentState =
        .apply := by
  refine ⟨exampleState_reachable, ?_, exampleState_queue, ?_, ?_⟩ <;> decide +kernel

theorem toggle_of_history {P : Platform} {w : Wallet} {new : List Action} (hne : new ≠ [])
    (hnew : ((Service.toggle P).run o w).2.history = w.history ++ new) :
    ∃ c q trail, w.commandQueue = MessageQueue.send q c ∧ Trail P o w.accountDB c trail ∧
      ((Service.toggle P).run o w).2.commandToProcess = c ∧
      new = .received c :: .entered .validate c :: trail := by
  by_cases hl : w.currentState = .listen
  · cases hq : w.commandQueue.receive with
    | none =>
      rw [toggle_starved hl (MessageQueue.receive_eq_none.mp hq)] at hnew
      exact absurd (List.self_eq_append_right.mp hnew) hne
    | some cq =>
      obtain ⟨c, q⟩ := cq
      have hq := MessageQueue.receive_eq_some.mp hq
      obtain ⟨trail, htrail, hrun⟩ := toggle_run (P := P) (o := o) hl hq
      rw [hrun] at hnew ⊢
      exact ⟨c, q, trail, hq, htrail, rfl, (List.append_cancel_left hnew).symm⟩
  · rw [toggle_of_not_listen hl] at hnew
    exact absurd (List.self_eq_append_right.mp hnew) hne

/-- After any run of whole toggles and whatever the outcomes, a new balance of the
sender is the one VALIDATE checked, read again, less an amount it covers. -/
theorem no_overdraft (text : Status → String) {s : System}
    (hr : Reachable (System.step (.int32 text)) (System.init .empty) s) {o : Outcomes}
    {key value : String} {new : List Action}
    (hnew : ((Service.toggle (.int32 text)).run o s.shared).2.history = s.shared.history ++ new)
    (hwrote : .wrote .debit key value ∈ new) :
    ∃ x n : Int,
      ((Service.toggle (.int32 text)).run o s.shared).2.commandToProcess.account1 = key ∧
      ((Service.toggle (.int32 text)).run o s.shared).2.commandToProcess.amount = Cpp.toString n ∧
      .got .validateSender key (Cpp.toString x) ∈ new ∧
      (∀ k t, .got .validateSender k t ∈ new → k = key ∧ t = Cpp.toString x) ∧
      .got .readSender key (Cpp.toString x) ∈ new ∧
      (∀ k t, .got .readSender k t ∈ new → k = key ∧ t = Cpp.toString x) ∧
      1 ≤ n ∧ n ≤ 2 ^ 31 - 1 ∧ fits32 (x - n) = true ∧ value = Cpp.toString (x - n) ∧
      0 ≤ x - n ∧ x - n ≤ 2 ^ 31 - 2 := by
  have hs := System.Sane.of_reachable (Platform.int32_holds text) hr
  obtain ⟨c, q, trail, hq, htrail, hcmd, rfl⟩ :=
    toggle_of_history (List.ne_nil_of_mem hwrote) hnew
  obtain ⟨rfl, t, a, n, ha, hn, hle, rfl, hchecked, hreread⟩ := htrail.debit (by simpa using hwrote)
  have hlookup := (htrail.within _ hreread).1
  obtain ⟨x, hx, rfl⟩ := hs.texts _ _ hlookup
  obtain ⟨m, hpos, hm, hamount, -⟩ := hs.queue c (by simp [hq, MessageQueue.send])
  -- the numbers `stoi` yields are the ones printed
  have hxa : x = a := by simpa [Platform.int32, hx] using ha
  have hmn : m = n := by
    have hm' : fits32 m = true := hm
    simpa [Platform.int32, hamount, hm'] using hn
  subst hxa hmn
  have hx' := fits32_iff.mp hx
  have hm' := fits32_iff.mp hm
  have harith : (Platform.int32 text).arith (x - m) = x - m := by
    apply Int.bmod_eq_of_le <;> omega
  have hreads : ∀ call k t', call = .validateSender ∨ call = .readSender →
      .got call k t' ∈ Action.received c :: Action.entered .validate c :: trail →
      k = c.account1 ∧ t' = Cpp.toString x := by
    intro call k t' hcall hmem
    obtain ⟨hk, hsender⟩ := htrail.within (.got call k t') (by simpa using hmem)
    obtain rfl := hsender hcall
    exact ⟨rfl, Option.some.inj (hk.symm.trans hlookup)⟩
  refine ⟨x, m, by rw [hcmd], by rw [hcmd, hamount], by simp [hchecked], ?_, by simp [hreread], ?_,
    by omega, by omega, fits32_iff.mpr (by omega), by rw [harith], by omega, by omega⟩
  · exact fun k t' => hreads .validateSender k t' (.inl rfl)
  · exact fun k t' => hreads .readSender k t' (.inr rfl)

def exampleTrail : List Action :=
  ((Service.toggle (.int32 exampleText)).run .succeed exampleState.shared).2.history.drop
    exampleState.shared.history.length

theorem no_overdraft_example : ∃ x n : Int,
    .got .validateSender "700000001" (Cpp.toString x) ∈ exampleTrail ∧
      .got .readSender "700000001" (Cpp.toString x) ∈ exampleTrail ∧
      1 ≤ n ∧ "70" = Cpp.toString (x - n) ∧ 0 ≤ x - n := by
  have hnew : ((Service.toggle (.int32 exampleText)).run .succeed exampleState.shared).2.history =
      exampleState.shared.history ++ exampleTrail := by decide +kernel
  have hwrote : .wrote .debit "700000001" "70" ∈ exampleTrail := by decide +kernel
  obtain ⟨x, n, -, -, hchecked, -, hreread, -, hpos, -, -, hvalue, hcovered, -⟩ :=
    no_overdraft exampleText exampleState_reachable hnew hwrote
  exact ⟨x, n, hchecked, hreread, hpos, hvalue, hcovered⟩

end Toggle

end DigitalWallet

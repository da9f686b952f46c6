import DigitalWallet.Defs.Handlers

/-! The three states of the service read as one decision.  `verdict` is a
function of the database, the command and the outcomes of the outside calls;
`toggle_run` says that one `Service::toggle` does what the verdict says. -/

namespace DigitalWallet

open Lib

def readAt (o : Outcomes) (db : AccountDB) (call : Call) (key : String) : Except Failure String :=
  match o.db call with
  | some f => .error f
  | none =>
    match db.lookup key with
    | some value => .ok value
    | none => .error ⟨.NotFound, rfl⟩

/-- What processing one command amounts to.  Numbers are the balances APPLY has
read and the amount. -/
inductive Verdict
  | refused (s : Status)
  | failed (s : StateName) (e : Cpp.StoiError)
  | debited (a b n : Int) (s : Status)
  | unlogged (a b n : Int)
  | applied (a b n : Int)
  deriving DecidableEq

section Verdict

variable (P : Platform) (o : Outcomes) (db : AccountDB) (c : Command)

def validation : Option Verdict :=
  match readAt o db .validateReceiver c.account2 with
  | .error f => some (.refused f.val)
  | .ok _ =>
    match readAt o db .validateSender c.account1 with
    | .error f => some (.refused f.val)
    | .ok balance =>
      match Cpp.stoi P.fits balance, Cpp.stoi P.fits c.amount with
      | .error e, _ => some (.failed .validate e)
      | .ok _, .error e => some (.failed .validate e)
      | .ok available, .ok amount =>
        if available < amount then some (.refused .OK)
        else if c.action = "TRANSFER" then none else some (.refused .OK)

def settlement (a b n : Int) : Verdict :=
  match o.db .debit, o.db .credit, o.logThrows with
  | some f, _, _ => .refused f.val
  | none, some f, _ => .debited a b n f.val
  | none, none, true => .unlogged a b n
  | none, none, false => .applied a b n

def application : Verdict :=
  match readAt o db .readSender c.account1 with
  | .error f => .refused f.val
  | .ok balance =>
    match Cpp.stoi P.fits balance with
    | .error e => .failed .apply e
    | .ok a =>
      match readAt o db .readReceiver c.account2 with
      | .error f => .refused f.val
      | .ok balance =>
        match Cpp.stoi P.fits balance, Cpp.stoi P.fits c.amount with
        | .error e, _ => .failed .apply e
        | .ok _, .error e => .failed .apply e
        | .ok b, .ok n => settlement o a b n

def verdict : Verdict := (validation P o db c).getD (application P o db c)

end Verdict

namespace Verdict

@[simp] def exit : Verdict → Exit Exn Unit
  | .failed _ e => .threw (.stoi e)
  | .unlogged _ _ _ => .threw .archive
  | _ => .returned ()

@[simp] def state : Verdict → StateName
  | .failed s _ => s
  | .unlogged _ _ _ => .apply
  | _ => .listen

@[simp] def status : Verdict → Status
  | .refused s => s
  | .debited _ _ _ s => s
  | _ => .OK

@[simp] def accountDB (P : Platform) (c : Command) (db : AccountDB) : Verdict → AccountDB
  | .debited a _ n _ => db.insert c.account1 (Cpp.toString (P.arith (a - n)))
  | .unlogged a b n =>
    (db.insert c.account1 (Cpp.toString (P.arith (a - n)))).insert c.account2
      (Cpp.toString (P.arith (b + n)))
  | .applied a b n =>
    (db.insert c.account1 (Cpp.toString (P.arith (a - n)))).insert c.account2
      (Cpp.toString (P.arith (b + n)))
  | _ => db

@[simp] def eventLog (c : Command) (log : List LogEntry) : Verdict → List LogEntry
  | .applied _ _ _ => log ++ [.header, .event c.eventA, .event c.eventB]
  | _ => log

end Verdict

def enteredApply (h : List Action) : List Command :=
  h.filterMap fun | .entered .apply c => some c | _ => none

@[simp] theorem enteredApply_append (h h' : List Action) :
    enteredApply (h ++ h') = enteredApply h ++ enteredApply h' := List.filterMap_append ..

theorem mem_enteredApply {h : List Action} {c : Command} :
    c ∈ enteredApply h ↔ .entered .apply c ∈ h := by
  rw [enteredApply, List.mem_filterMap]
  constructor
  · rintro ⟨x, hx, heq⟩
    split at heq
    · cases heq
      exact hx
    · cases heq
  · exact fun hc => ⟨_, hc, rfl⟩

def Verdict.numbers : Verdict → Option (Int × Int × Int)
  | .debited a b n _ => some (a, b, n)
  | .unlogged a b n => some (a, b, n)
  | .applied a b n => some (a, b, n)
  | _ => none

def Action.Reads (db : AccountDB) (c : Command) : Action → Prop
  | .got call key text => db.lookup key = some text ∧
      (call = .validateSender ∨ call = .readSender → key = c.account1)
  | _ => False

def Action.Within (db : AccountDB) (c : Command) : Action → Prop
  | .entered _ _ => True
  | .got call key text => (Action.got call key text).Reads db c
  | .wrote .debit _ _ => True
  | .wrote .credit _ _ => True
  | _ => False

theorem Action.Reads.within {db : AccountDB} {c : Command} {x : Action} (h : x.Reads db c) :
    x.Within db c := by
  cases x with
  | got call key text => exact h
  | _ => exact h.elim

section Run

variable {P : Platform} {o : Outcomes} {w : Wallet} {c : Command}

theorem get_of_ok {db : AccountDB} {call : Call} {key value : String}
    (h : readAt o db call key = .ok value) (out : String) :
    db.get (o.db call) key out = (.OK, value) := by
  unfold readAt at h
  split at h
  · cases h
  · next hf =>
    split at h
    · next hv => cases h; simp [AccountDB.get, hf, hv]
    · cases h

theorem get_of_error {db : AccountDB} {call : Call} {key : String} {f : Failure}
    (h : readAt o db call key = .error f) (out : String) :
    db.get (o.db call) key out = (f.val, out) := by
  unfold readAt at h
  split at h
  · next hf => cases h; simp [AccountDB.get, hf]
  · next hf =>
    split at h
    · cases h
    · next hv => cases h; simp [AccountDB.get, hf, hv]

theorem lookup_of_readAt {db : AccountDB} {call : Call} {key value : String}
    (h : readAt o db call key = .ok value) : db.lookup key = some value := by
  unfold readAt at h
  split at h
  · cases h
  · split at h
    · next hv => cases h; exact hv
    · cases h

section Settles

variable {db : AccountDB}

theorem validation_numbers {v : Verdict} (h : validation P o db c = some v) : v.numbers = none := by
  unfold validation at h
  split at h
  · cases h; rfl
  · split at h
    · cases h; rfl
    · split at h
      · cases h; rfl
      · cases h; rfl
      · split at h
        · cases h; rfl
        · split at h <;> cases h
          rfl

theorem application_settles {x : Int × Int × Int} (h : (application P o db c).numbers = some x) :
    c.account1 ∈ db ∧ c.account2 ∈ db ∧ ∃ a b n, application P o db c = settlement o a b n := by
  unfold application at h ⊢
  cases hA : readAt o db .readSender c.account1 with
  | error f => simp [hA, Verdict.numbers] at h
  | ok sA =>
    cases ha : Cpp.stoi P.fits sA with
    | error e => simp [hA, ha, Verdict.numbers] at h
    | ok a =>
      cases hB : readAt o db .readReceiver c.account2 with
      | error f => simp [hA, ha, hB, Verdict.numbers] at h
      | ok sB =>
        refine ⟨Finmap.mem_of_lookup_eq_some (lookup_of_readAt hA),
          Finmap.mem_of_lookup_eq_some (lookup_of_readAt hB), ?_⟩
        cases hb : Cpp.stoi P.fits sB with
        | error e => simp [hA, ha, hB, hb, Verdict.numbers] at h
        | ok b =>
          cases hn : Cpp.stoi P.fits c.amount with
          | error e => simp [hA, ha, hB, hb, hn, Verdict.numbers] at h
          | ok n => exact ⟨a, b, n, by simp [ha, hb]⟩

theorem verdict_settles (P : Platform) (o : Outcomes) (db : AccountDB) (c : Command) :
    (verdict P o db c).numbers = none ∨
      c.account1 ∈ db ∧ c.account2 ∈ db ∧ ∃ a b n, verdict P o db c = settlement o a b n := by
  unfold verdict
  cases hv : validation P o db c with
  | some v => exact .inl (validation_numbers hv)
  | none =>
    cases hnumbers : (application P o db c).numbers with
    | none => exact .inl hnumbers
    | some x => exact .inr (application_settles hnumbers)

end Settles

theorem run_get_ok {db : AccountDB} {call : Call} {key value : String}
    (h : readAt o db call key = .ok value) {w : Wallet} (hw : w.accountDB = db) (out : String)
    (k : String → Prog α) :
    Prog.run o (.op (.get call key out) k) w =
      (k value).run o { w with status := .OK, history := w.history ++ [.got call key value] } := by
  subst hw
  simp [Prog.run, Proc.exec, perform, get_of_ok h]

theorem run_get_error {db : AccountDB} {call : Call} {key : String} {f : Failure}
    (h : readAt o db call key = .error f) {w : Wallet} (hw : w.accountDB = db) (out : String)
    (k : String → Prog α) :
    Prog.run o (.op (.get call key out) k) w = (k out).run o { w with status := f.val } := by
  subst hw
  simp [Prog.run, Proc.exec, perform, get_of_error h]

theorem run_put_ok {call : Call} (h : o.db call = none) (key value : String) (k : Unit → Prog α) :
    Prog.run o (.op (.put call key value) k) w =
      (k ()).run o { w with
        accountDB := w.accountDB.insert key value
        status := .OK
        history := w.history ++ [.wrote call key value] } := by
  simp [Prog.run, Proc.exec, perform, AccountDB.put, h]

theorem run_put_error {call : Call} {f : Failure} (h : o.db call = some f) (key value : String)
    (k : Unit → Prog α) :
    Prog.run o (.op (.put call key value) k) w = (k ()).run o { w with status := f.val } := by
  simp [Prog.run, Proc.exec, perform, AccountDB.put, h]

@[simp] theorem run_ok (k : Bool → Prog α) :
    Prog.run o (.op .ok k) w = (k w.status.ok).run o w := rfl

@[simp] theorem run_ret (a : α) : Prog.run o (.ret a) w = (.returned a, w) := rfl

@[simp] theorem run_throw (e : Exn) : Prog.run o (.throw e : Prog α) w = (.threw e, w) := rfl

@[simp] theorem run_setState (s : StateName) (k : Unit → Prog α) :
    Prog.run o (.op (.setState s) k) w =
      (k ()).run o { w with
        currentState := s
        history := w.history ++ [.entered s w.commandToProcess] } := rfl

@[simp] theorem run_commandToProcess (k : Command → Prog α) :
    Prog.run o (.op .commandToProcess k) w = (k w.commandToProcess).run o w := rfl

@[simp] theorem run_currentState (k : StateName → Prog α) :
    Prog.run o (.op .currentState k) w = (k w.currentState).run o w := rfl

@[simp] theorem run_append (eventA eventB : Event) (k : Bool → Prog α) :
    Prog.run o (.op (.append eventA eventB) k) w =
      if o.logThrows then (k false).run o w
      else (k true).run o
        { w with eventLog := w.eventLog ++ [.header, .event eventA, .event eventB] } := by
  by_cases h : o.logThrows <;> simp [Prog.run, Proc.exec, perform, h]

theorem run_receive {q : MessageQueue Command} (h : w.commandQueue = q.send c) (k : Unit → Prog α) :
    Prog.run o (.op .receive k) w =
      (k ()).run o { w with
        commandQueue := q
        commandToProcess := c
        history := w.history ++ [.received c] } := by
  simp [Prog.run, Proc.exec, perform, h]

theorem run_wait (hl : w.cvM = false) (hs : w.currentState = .listen) (k : Unit → Prog α) :
    Prog.run o (.op .wait k) w = (k ()).run o { w with cvM := true } := by
  simp [Prog.run, Proc.exec, perform, hl, hs]

theorem stoi_of_ok {s : String} {n : Int} (h : Cpp.stoi P.fits s = .ok n) : stoi P s = .ret n := by
  simp [stoi, h]

theorem stoi_of_error {s : String} {e : Cpp.StoiError} (h : Cpp.stoi P.fits s = .error e) :
    stoi P s = .throw (.stoi e) := by
  simp [stoi, h]

def Verdict.wallet (P : Platform) (c : Command) (w : Wallet) (trail : List Action)
    (v : Verdict) : Wallet :=
  { w with
    accountDB := v.accountDB P c w.accountDB
    eventLog := v.eventLog c w.eventLog
    status := v.status
    currentState := v.state
    history := w.history ++ trail }

def writeTrail (P : Platform) (c : Command) : Verdict → List Action
  | .debited a _ n _ =>
    [.wrote .debit c.account1 (Cpp.toString (P.arith (a - n))), .entered .listen c]
  | .unlogged a b n =>
    [.wrote .debit c.account1 (Cpp.toString (P.arith (a - n))),
      .wrote .credit c.account2 (Cpp.toString (P.arith (b + n)))]
  | .applied a b n =>
    [.wrote .debit c.account1 (Cpp.toString (P.arith (a - n))),
      .wrote .credit c.account2 (Cpp.toString (P.arith (b + n))), .entered .listen c]
  | .refused _ => [.entered .listen c]
  | .failed _ _ => []

theorem update_run (hc : w.commandToProcess = c) (hs : w.currentState = .apply) (a b n : Int) :
    (ServiceApply.update c.eventA c.eventB (P.arith (a - n)) (P.arith (b + n))).run o w =
      ((settlement o a b n).exit,
        (settlement o a b n).wallet P c w (writeTrail P c (settlement o a b n))) := by
  subst hc
  simp only [ServiceApply.update, Proc.bind_eq, Proc.op_bind, Proc.ret_bind]
  cases hd : o.db .debit with
  | some f => simp [run_put_error hd, settlement, hd, Verdict.wallet, writeTrail]
  | none =>
    cases hcr : o.db .credit with
    | some f =>
      simp [run_put_ok hd, run_put_error hcr, settlement, hd, hcr, Verdict.wallet, writeTrail]
    | none =>
      cases hl : o.logThrows <;>
        simp [run_put_ok hd, run_put_ok hcr, settlement, hd, hcr, hl, hs, Verdict.wallet, writeTrail]

theorem writeTrail_within (db : AccountDB) (v : Verdict) :
    ∀ x ∈ writeTrail P c v, x.Within db c := by
  cases v <;> simp [writeTrail, Action.Within]

theorem enteredApply_writeTrail (v : Verdict) : enteredApply (writeTrail P c v) = [] := by
  cases v <;> simp [writeTrail, enteredApply]

theorem debit_mem_writeTrail {v : Verdict} {key value : String}
    (h : .wrote .debit key value ∈ writeTrail P c v) :
    key = c.account1 ∧ ∃ a b n, v.numbers = some (a, b, n) ∧ value = Cpp.toString (P.arith (a - n)) := by
  cases v with
  | refused | failed => simp [writeTrail] at h
  | debited a b n | unlogged a b n | applied a b n =>
    obtain ⟨rfl, rfl⟩ : key = c.account1 ∧ value = Cpp.toString (P.arith (a - n)) := by
      simpa [writeTrail] using h
    exact ⟨rfl, a, b, n, rfl, rfl⟩

theorem settlement_numbers {a b n : Int} {x : Int × Int × Int}
    (h : (settlement o a b n).numbers = some x) : x = (a, b, n) := by
  unfold settlement at h
  split at h <;> cases h <;> rfl

theorem enteredApply_reads {db : AccountDB} {reads : List Action} (h : ∀ x ∈ reads, x.Reads db c) :
    enteredApply reads = [] := by
  refine List.filterMap_eq_nil_iff.mpr fun x hx => ?_
  cases x with
  | entered s c' => exact (h _ hx).elim
  | _ => rfl

structure ApplyReads (P : Platform) (o : Outcomes) (db : AccountDB) (c : Command)
    (reads : List Action) : Prop where
  looks : ∀ x ∈ reads, x.Reads db c
  numbers : ∀ {a b n}, (application P o db c).numbers = some (a, b, n) →
    ∃ sender receiver, .got .readSender c.account1 sender ∈ reads ∧
      .got .readReceiver c.account2 receiver ∈ reads ∧ Cpp.stoi P.fits sender = .ok a ∧
      Cpp.stoi P.fits receiver = .ok b ∧ Cpp.stoi P.fits c.amount = .ok n

theorem apply_run (hc : w.commandToProcess = c) (hs : w.currentState = .apply) :
    ∃ reads, ApplyReads P o w.accountDB c reads ∧
      (ServiceApply.process P).run o w =
        ((application P o w.accountDB c).exit,
          (application P o w.accountDB c).wallet P c w
            (reads ++ writeTrail P c (application P o w.accountDB c))) := by
  subst hc
  simp only [ServiceApply.process, Proc.bind_eq, Proc.op_bind, Proc.ret_bind, run_commandToProcess]
  cases hA : readAt o w.accountDB .readSender w.commandToProcess.account1 with
  | error f =>
    refine ⟨[], ⟨by simp, by simp [application, hA, Verdict.numbers]⟩, ?_⟩
    simp [run_get_error hA, application, hA, Verdict.wallet, writeTrail]
  | ok sA =>
    have hreadA : (Action.got .readSender w.commandToProcess.account1 sA).Reads w.accountDB
        w.commandToProcess := ⟨lookup_of_readAt hA, fun _ => rfl⟩
    cases ha : Cpp.stoi P.fits sA with
    | error e =>
      refine ⟨[.got .readSender w.commandToProcess.account1 sA],
        ⟨by simpa using hreadA, by simp [application, hA, ha, Verdict.numbers]⟩, ?_⟩
      simp [run_get_ok hA, application, hA, stoi_of_error ha, ha, hs, Verdict.wallet, writeTrail]
    | ok a =>
      cases hB : readAt o w.accountDB .readReceiver w.commandToProcess.account2 with
      | error f =>
        refine ⟨[.got .readSender w.commandToProcess.account1 sA],
          ⟨by simpa using hreadA, by simp [application, hA, ha, hB, Verdict.numbers]⟩, ?_⟩
        simp [run_get_ok hA, run_get_error hB, application, hA, hB, stoi_of_ok ha, ha, Verdict.wallet,
          writeTrail]
      | ok sB =>
        have hreadB : (Action.got .readReceiver w.commandToProcess.account2 sB).Reads w.accountDB
            w.commandToProcess := ⟨lookup_of_readAt hB, by simp⟩
        have hreads : ∀ x ∈ [Action.got .readSender w.commandToProcess.account1 sA,
            .got .readReceiver w.commandToProcess.account2 sB], x.Reads w.accountDB w.commandToProcess := by
          simpa using ⟨hreadA, hreadB⟩
        refine ⟨[.got .readSender w.commandToProcess.account1 sA,
          .got .readReceiver w.commandToProcess.account2 sB], ?_⟩
        cases hb : Cpp.stoi P.fits sB with
        | error e =>
          refine ⟨⟨hreads, by simp [application, hA, ha, hB, hb, Verdict.numbers]⟩, ?_⟩
          simp [run_get_ok hA, run_get_ok hB, application, hA, hB,
            stoi_of_ok ha, stoi_of_error hb, ha, hb, hs, Verdict.wallet, writeTrail]
        | ok b =>
          cases hn : Cpp.stoi P.fits w.commandToProcess.amount with
          | error e =>
            refine ⟨⟨hreads, by simp [application, hA, ha, hB, hb, hn, Verdict.numbers]⟩, ?_⟩
            simp [run_get_ok hA, run_get_ok hB, application, hA, hB,
              stoi_of_ok ha, stoi_of_ok hb, stoi_of_error hn, ha, hb, hn, hs, Verdict.wallet, writeTrail]
          | ok n =>
            have hsettles : application P o w.accountDB w.commandToProcess = settlement o a b n := by
              simp [application, hA, ha, hB, hb, hn]
            refine ⟨⟨hreads, fun hnumbers => ?_⟩, ?_⟩
            · rw [hsettles] at hnumbers
              cases settlement_numbers hnumbers
              exact ⟨sA, sB, by simp, by simp, ha, hb, hn⟩
            · have hu := update_run (P := P) (o := o) (w := { w with
                status := .OK
                history := w.history ++ [.got .readSender w.commandToProcess.account1 sA,
                  .got .readReceiver w.commandToProcess.account2 sB] }) rfl hs a b n
              simp [run_get_ok hA, run_get_ok hB, hsettles, stoi_of_ok ha, stoi_of_ok hb, stoi_of_ok hn,
                hu, Verdict.wallet]

/-- What the ghost record says of one processing. -/
structure Trail (P : Platform) (o : Outcomes) (db : AccountDB) (c : Command)
    (trail : List Action) : Prop where
  within : ∀ x ∈ trail, x.Within db c
  apply : enteredApply trail = if validation P o db c = none then [c] else []
  debit : ∀ {key value}, .wrote .debit key value ∈ trail →
    key = c.account1 ∧ ∃ text a n, Cpp.stoi P.fits text = .ok a ∧
      Cpp.stoi P.fits c.amount = .ok n ∧ n ≤ a ∧ value = Cpp.toString (P.arith (a - n)) ∧
      .got .validateSender key text ∈ trail ∧ .got .readSender key text ∈ trail
  writes : ∃ reads, trail = reads ++ writeTrail P c (verdict P o db c) ∧
    ∀ x ∈ reads, x.Reads db c ∨ x = .entered .apply c
  numbers : ∀ {a b n}, (verdict P o db c).numbers = some (a, b, n) →
    ∃ sender receiver, .got .readSender c.account1 sender ∈ trail ∧
      .got .readReceiver c.account2 receiver ∈ trail ∧ Cpp.stoi P.fits sender = .ok a ∧
      Cpp.stoi P.fits receiver = .ok b ∧ Cpp.stoi P.fits c.amount = .ok n

theorem Trail.filterMap_eq_nil {db : AccountDB} {trail : List Action} (h : Trail P o db c trail)
    {f : Action → Option β} (hf : ∀ a : Action, a.Within db c → f a = none) :
    trail.filterMap f = [] :=
  List.filterMap_eq_nil_iff.mpr fun a ha => hf a (h.within a ha)

theorem Trail.of_reads {db : AccountDB} {reads : List Action} {v : Verdict}
    (hreads : ∀ x ∈ reads, x.Reads db c) (hv : validation P o db c = some v) :
    Trail P o db c (reads ++ writeTrail P c v) := by
  have hnone := validation_numbers hv
  have hverdict : verdict P o db c = v := by simp [verdict, hv]
  constructor
  · intro x hx
    rcases List.mem_append.mp hx with hx | hx
    · exact (hreads x hx).within
    · exact writeTrail_within _ _ x hx
  · rw [enteredApply_append, enteredApply_reads hreads, enteredApply_writeTrail, hv]
    rfl
  · intro key value hmem
    rcases List.mem_append.mp hmem with hmem | hmem
    · exact (hreads _ hmem).elim
    · obtain ⟨-, a, b, n, hnumbers, -⟩ := debit_mem_writeTrail hmem
      cases hnone.symm.trans hnumbers
  · exact ⟨reads, by rw [hverdict], fun x hx => .inl (hreads x hx)⟩
  · intro a b n hnumbers
    rw [hverdict] at hnumbers
    cases hnone.symm.trans hnumbers

theorem ApplyReads.validated {db : AccountDB} {reads : List Action} {sA sB : String} {a n : Int}
    (h : ApplyReads P o db c reads) (hv : validation P o db c = none)
    (hB : readAt o db .validateReceiver c.account2 = .ok sB)
    (hA : readAt o db .validateSender c.account1 = .ok sA) (ha : Cpp.stoi P.fits sA = .ok a)
    (hn : Cpp.stoi P.fits c.amount = .ok n) (hle : n ≤ a) :
    Trail P o db c ([.got .validateReceiver c.account2 sB, .got .validateSender c.account1 sA,
      .entered .apply c] ++ reads ++ writeTrail P c (application P o db c)) := by
  have hverdict : verdict P o db c = application P o db c := by simp [verdict, hv]
  have hreadB : (Action.got .validateReceiver c.account2 sB).Reads db c := ⟨lookup_of_readAt hB, by simp⟩
  have hreadA : (Action.got .validateSender c.account1 sA).Reads db c := ⟨lookup_of_readAt hA, fun _ => rfl⟩
  have hlooks : ∀ x ∈ [Action.got .validateReceiver c.account2 sB, .got .validateSender c.account1 sA,
      .entered .apply c] ++ reads, x.Reads db c ∨ x = .entered .apply c := by
    intro x hx
    rcases List.mem_append.mp hx with hx | hx
    · simp only [List.mem_cons, List.not_mem_nil, or_false] at hx
      rcases hx with rfl | rfl | rfl
      · exact .inl hreadB
      · exact .inl hreadA
      · exact .inr rfl
    · exact .inl (h.looks x hx)
  constructor
  · intro x hx
    rcases List.mem_append.mp hx with hx | hx
    · rcases hlooks x hx with hx | rfl
      · exact hx.within
      · trivial
    · exact writeTrail_within _ _ x hx
  · rw [enteredApply_append, enteredApply_append, enteredApply_reads h.looks, enteredApply_writeTrail,
      if_pos hv]
    rfl
  · intro key value hmem
    rcases List.mem_append.mp hmem with hmem | hmem
    · rcases hlooks _ hmem with hread | heq
      · exact hread.elim
      · cases heq
    · obtain ⟨rfl, a', b', n', hnumbers, rfl⟩ := debit_mem_writeTrail hmem
      obtain ⟨sender, -, hgot, -, ha', -, hn'⟩ := h.numbers hnumbers
      obtain rfl : sender = sA :=
        Option.some.inj ((h.looks _ hgot).1.symm.trans (lookup_of_readAt hA))
      cases ha.symm.trans ha'
      cases hn.symm.trans hn'
      exact ⟨rfl, sender, a, n, ha, hn, hle, rfl, by simp, by simp [hgot]⟩
  · exact ⟨_, by rw [hverdict], hlooks⟩
  · intro a b n hnumbers
    rw [hverdict] at hnumbers
    obtain ⟨sender, receiver, hsender, hreceiver, hstoi⟩ := h.numbers hnumbers
    exact ⟨sender, receiver, by simp [hsender], by simp [hreceiver], hstoi⟩

theorem validate_run (hc : w.commandToProcess = c) (hs : w.currentState = .validate) :
    ∃ trail, Trail P o w.accountDB c trail ∧
      (ServiceValidate.process P).run o w =
        ((verdict P o w.accountDB c).exit, (verdict P o w.accountDB c).wallet P c w trail) := by
  subst hc
  simp only [ServiceValidate.process, Proc.bind_eq, Proc.op_bind, Proc.ret_bind, run_commandToProcess]
  cases hB : readAt o w.accountDB .validateReceiver w.commandToProcess.account2 with
  | error f =>
    have hv : validation P o w.accountDB w.commandToProcess = some (.refused f.val) := by
      simp [validation, hB]
    refine ⟨_, Trail.of_reads (List.forall_mem_nil _) hv, ?_⟩
    simp [run_get_error hB, verdict, hv, Verdict.wallet, writeTrail]
  | ok sB =>
    have hreadB : (Action.got .validateReceiver w.commandToProcess.account2 sB).Reads w.accountDB
        w.commandToProcess := ⟨lookup_of_readAt hB, by simp⟩
    cases hA : readAt o w.accountDB .validateSender w.commandToProcess.account1 with
    | error f =>
      have hv : validation P o w.accountDB w.commandToProcess = some (.refused f.val) := by
        simp [validation, hB, hA]
      refine ⟨_, Trail.of_reads (List.forall_mem_singleton.mpr hreadB) hv, ?_⟩
      simp [run_get_ok hB, run_get_error hA, verdict, hv, Verdict.wallet, writeTrail]
    | ok sA =>
      have hreads : ∀ x ∈ [Action.got .validateReceiver w.commandToProcess.account2 sB,
          .got .validateSender w.commandToProcess.account1 sA],
          x.Reads w.accountDB w.commandToProcess := by
        have hreadA := lookup_of_readAt hA
        simpa [Action.Reads, hreadA] using hreadB
      cases ha : Cpp.stoi P.fits sA with
      | error e =>
        have hv : validation P o w.accountDB w.commandToProcess = some (.failed .validate e) := by
          simp [validation, hB, hA, ha]
        refine ⟨_, Trail.of_reads hreads hv, ?_⟩
        simp [run_get_ok hB, run_get_ok hA, stoi_of_error ha, verdict, hv, hs, Verdict.wallet, writeTrail]
      | ok a =>
        cases hn : Cpp.stoi P.fits w.commandToProcess.amount with
        | error e =>
          have hv : validation P o w.accountDB w.commandToProcess = some (.failed .validate e) := by
            simp [validation, hB, hA, ha, hn]
          refine ⟨_, Trail.of_reads hreads hv, ?_⟩
          simp [run_get_ok hB, run_get_ok hA, stoi_of_ok ha, stoi_of_error hn, verdict, hv, hs,
            Verdict.wallet, writeTrail]
        | ok n =>
          by_cases hlow : a < n
          · have hv : validation P o w.accountDB w.commandToProcess = some (.refused .OK) := by
              simp [validation, hB, hA, ha, hn, hlow]
            refine ⟨_, Trail.of_reads hreads hv, ?_⟩
            simp [run_get_ok hB, run_get_ok hA, stoi_of_ok ha, stoi_of_ok hn, verdict, hv, hlow,
              Verdict.wallet, writeTrail]
          · by_cases hact : w.commandToProcess.action = "TRANSFER"
            · have hv : validation P o w.accountDB w.commandToProcess = none := by
                simp [validation, hB, hA, ha, hn, hlow, hact]
              obtain ⟨reads, happly, hrun⟩ := apply_run (P := P) (o := o) (w := { w with
                status := .OK
                currentState := .apply
                history := w.history ++ [.got .validateReceiver w.commandToProcess.account2 sB,
                  .got .validateSender w.commandToProcess.account1 sA,
                  .entered .apply w.commandToProcess] }) rfl rfl
              refine ⟨_, happly.validated hv hB hA ha hn (by omega), ?_⟩
              simp [run_get_ok hB, run_get_ok hA, stoi_of_ok ha, stoi_of_ok hn, verdict, hv, hlow, hact,
                hrun, Verdict.wallet]
            · have hv : validation P o w.accountDB w.commandToProcess = some (.refused .OK) := by
                simp [validation, hB, hA, ha, hn, hlow, hact]
              refine ⟨_, Trail.of_reads hreads hv, ?_⟩
              simp [run_get_ok hB, run_get_ok hA, stoi_of_ok ha, stoi_of_ok hn, verdict, hv, hact,
                Verdict.wallet, writeTrail]

theorem toggle_run {q : MessageQueue Command} (hs : w.currentState = .listen)
    (hq : w.commandQueue = q.send c) :
    ∃ trail, Trail P o w.accountDB c trail ∧
      (Service.toggle P).run o w =
        ((verdict P o w.accountDB c).exit,
          (verdict P o w.accountDB c).wallet P c
            { w with commandQueue := q, commandToProcess := c }
            (.received c :: .entered .validate c :: trail)) := by
  obtain ⟨trail, htrail, hrun⟩ := validate_run (P := P) (o := o) (c := c) (w := { w with
    commandQueue := q
    commandToProcess := c
    currentState := .validate
    history := w.history ++ [.received c, .entered .validate c] }) rfl rfl
  refine ⟨trail, htrail, ?_⟩
  simp [Service.toggle, ServiceListen.toggle, hs, run_receive hq, hrun, Verdict.wallet]

def Verdict.response (P : Platform) : Verdict → Exit Exn Response
  | .failed _ e => .threw (.stoi e)
  | .unlogged _ _ _ => .threw .archive
  | v => .returned { body := "Return Status: " ++ P.statusText v.status ++ "\n" }

def Verdict.report (c : Command) : Verdict → List Action
  | .failed _ _ => []
  | .unlogged _ _ _ => []
  | v => [.reported c v.status]

/-- What the locked section leaves of its toggle's exit: the status reported,
and the lock released unless it still waits. -/
def released (P : Platform) (w : Wallet) : Exit Exn Unit → Exit Exn Response × Wallet
  | .returned _ => (.returned { body := "Return Status: " ++ P.statusText w.status ++ "\n" },
      { w with
        cvM := false
        history := w.history ++ [.reported w.commandToProcess w.status] })
  | .threw e => (.threw e, { w with cvM := false })
  | .blocked => (.blocked, w)

theorem toggleAndReport_of_toggle (hl : w.cvM = false) (hs : w.currentState = .listen)
    {exit : Exit Exn Unit} {w' : Wallet}
    (h : (Service.toggle P).run o { w with cvM := true } = (exit, w')) :
    (toggleAndReport P).run o w = released P w' exit := by
  simp only [toggleAndReport, Proc.bind_eq, Proc.op_bind, Proc.ret_bind, run_wait hl hs]
  rw [Prog.run] at h ⊢
  rw [Proc.exec_ensuring (fun w => { w with cvM := false }) (fun _ => rfl), Proc.exec_bind, h]
  cases exit <;> rfl

theorem toggleAndReport_run {q : MessageQueue Command} (hl : w.cvM = false)
    (hs : w.currentState = .listen) (hq : w.commandQueue = q.send c) :
    ∃ trail, Trail P o w.accountDB c trail ∧
      (toggleAndReport P).run o w =
        ((verdict P o w.accountDB c).response P,
          (verdict P o w.accountDB c).wallet P c
            { w with commandQueue := q, commandToProcess := c }
            (.received c :: .entered .validate c :: trail ++
              (verdict P o w.accountDB c).report c)) := by
  obtain ⟨trail, htrail, hrun⟩ := toggle_run (P := P) (o := o) (w := { w with cvM := true }) hs hq
  refine ⟨trail, htrail, ?_⟩
  rw [toggleAndReport_of_toggle hl hs hrun]
  cases verdict P o w.accountDB c <;>
    simp [released, Verdict.exit, Verdict.response, Verdict.report, Verdict.wallet, hl]

end Run

end DigitalWallet

import DigitalWallet.Laws.Accounts
import DigitalWallet.Laws.Conservation
import DigitalWallet.Laws.EventSourcing
import Mathlib.Data.ZMod.Basic

/-! The books of a server on which any call may fail, and whose transfers are
sends and whole toggles.  What the database holds beyond the start amounts and the
event log is what transfers that were cut short, or went from an account to
itself, have left there. -/

namespace DigitalWallet

open Lib FinmapSum

def System.processes (P : Platform) (s : System) : Label → Option (Command × Verdict)
  | .advance i o =>
    match s.threads[i]?, s.shared.commandQueue.receive with
    | some (.sent _), some (c, _) => some (c, verdict P o s.shared.accountDB c)
    | _, _ => none
  | _ => none

theorem System.step_files {P : Platform} {s s' : System} {l : Label}
    (h : System.step P s l = some s') :
    (∃ c v, s.processes P l = some (c, v) ∧ c ∈ s.shared.commandQueue.messages ∧
      (∃ o, v = verdict P o s.shared.accountDB c) ∧
      s'.shared.accountDB = v.accountDB P c s.shared.accountDB ∧
      s'.shared.eventLog = v.eventLog c s.shared.eventLog ∧
      storedAccounts s'.shared.history = storedAccounts s.shared.history) ∨
    (s.processes P l = none ∧ s'.shared.eventLog = s.shared.eventLog ∧
      ((s'.shared.accountDB = s.shared.accountDB ∧
        storedAccounts s'.shared.history = storedAccounts s.shared.history) ∨
      ∃ id n, .generated id n ∈ s.threads ∧
        s'.shared.accountDB = s.shared.accountDB.insert id (Cpp.toString n) ∧
        storedAccounts s'.shared.history =
          storedAccounts s.shared.history ++ [(id, Cpp.toString n)])) := by
  rcases System.step_cases h with
    ⟨r, rfl, rfl⟩ | ⟨i, o, before, t, after, t', rfl, hi, ht, -, hmove⟩ | ⟨rfl, rfl⟩
  · exact .inr ⟨rfl, rfl, .inl ⟨rfl, rfl⟩⟩
  · obtain ⟨w', ts'⟩ := s'
    change Moves _ _ _ _ _ w' at hmove
    have hstored := hmove.stored
    cases hmove with
    | reply => exact .inr ⟨by simp [System.processes, hi], rfl, .inl ⟨rfl, rfl⟩⟩
    | look hreads =>
      exact .inr ⟨by simp [System.processes, hi], rfl, .inl ⟨rfl, by simp [(reads_accounts hreads).2]⟩⟩
    | send => exact .inr ⟨by simp [System.processes, hi], rfl, .inl ⟨rfl, by simp [Action.stored?]⟩⟩
    | generate =>
      exact .inr ⟨by simp [System.processes, hi], rfl, .inl ⟨rfl, by simp [Action.stored?]⟩⟩
    | generateFailed => exact .inr ⟨by simp [System.processes, hi], rfl, .inl ⟨rfl, rfl⟩⟩
    | generateStopped => exact .inr ⟨by simp [System.processes, hi], rfl, .inl ⟨rfl, rfl⟩⟩
    | @store id n =>
      exact .inr ⟨by simp [System.processes, hi], rfl,
        .inr ⟨id, n, by simp [ht], rfl, by simp [Action.stored?]⟩⟩
    | storeFailed => exact .inr ⟨by simp [System.processes, hi], rfl, .inl ⟨rfl, rfl⟩⟩
    | @toggle own c q trail _ _ _ hq htrail =>
      refine .inl ⟨c, verdict P o s.shared.accountDB c, ?_, ?_, ⟨o, rfl⟩, rfl, rfl, ?_⟩
      · simp [System.processes, hi, MessageQueue.receive_eq_some.mpr hq]
      · simp [hq, MessageQueue.send]
      · rw [Verdict.wallet, storedAccounts_append, htrail.toggle_accounts.2, List.append_nil]
  · exact .inr ⟨rfl, rfl, .inl ⟨rfl, rfl⟩⟩

/-- A way of adding up a database account by account. -/
structure Gauge (M : Type) [AddCommGroup M] where
  sum : AccountDB → M
  account : String → Int →+ M
  sum_empty : sum ∅ = 0
  sum_insert : ∀ db key text, sum (db.insert key text) =
    sum db - account key (weightAt value db key) + account key (value text)

namespace Gauge

def all : Gauge ℤ where
  sum := total value
  account _ := AddMonoidHom.id ℤ
  sum_empty := rfl
  sum_insert _ key text := total_insert key text

def only (m : ℕ) (key : String) : Gauge (ZMod m) where
  sum db := ((weightAt value db key : ℤ) : ZMod m)
  account key' := if key' = key then Int.castAddHom (ZMod m) else 0
  sum_empty := by simp [weightAt]
  sum_insert db key' text := by
    by_cases heq : key' = key
    · subst heq
      simp
    · simp [heq, weightAt_insert_of_ne (Ne.symm heq)]

variable {M : Type} [AddCommGroup M] (g : Gauge M)

def effect (c : Command) : Verdict → M
  | .debited _ _ n _ => g.account c.account1 (-n)
  | .unlogged _ _ n => g.account c.account1 (-n) + g.account c.account2 n +
      if c.account1 = c.account2 then g.account c.account1 n else 0
  | .applied _ _ n => g.account c.account1 (-n) + g.account c.account2 n +
      if c.account1 = c.account2 then g.account c.account1 n else 0
  | _ => 0

def stepEffect (P : Platform) (s : System) (l : Label) : M :=
  (s.processes P l).elim 0 fun x => g.effect x.1 x.2

def opened (h : List Action) : M := ((storedAccounts h).map fun x => g.account x.1 (value x.2)).sum

section Effect

variable {P : Platform} {o : Outcomes} {V : Int → Prop} {db : AccountDB} {c : Command}

def Wraps (P : Platform) : Prop := ∀ key n, g.account key (P.arith n) = g.account key n

variable {g}

theorem sum_debit (hP : g.Wraps P) {a b n : Int} (hf : Funded db c a b n) :
    g.sum (db.insert c.account1 (Cpp.toString (P.arith (a - n)))) =
      g.sum db + g.account c.account1 (-n) := by
  rw [g.sum_insert, weightAt_of_lookup hf.sender, value_toString, value_toString, hP, map_sub, map_neg]
  abel

theorem sum_settle (hP : g.Wraps P) {a b n : Int} (hf : Funded db c a b n) :
    g.sum ((db.insert c.account1 (Cpp.toString (P.arith (a - n)))).insert c.account2
        (Cpp.toString (P.arith (b + n)))) =
      g.sum db + (g.account c.account1 (-n) + g.account c.account2 n +
        if c.account1 = c.account2 then g.account c.account1 n else 0) := by
  rw [g.sum_insert, sum_debit hP hf, value_toString, hP, map_add]
  by_cases heq : c.account1 = c.account2
  · have hab := hf.balances_eq heq
    rw [if_pos heq, ← heq, weightAt_insert_self, value_toString, hP, hab, map_sub, map_neg]
    abel
  · rw [if_neg heq, weightAt_insert_of_ne (Ne.symm heq), weightAt_of_lookup hf.receiver, value_toString,
      map_neg]
    abel

theorem sum_verdict (hP : g.Wraps P) (ht : Texts V db) (hc : Accepted P c) :
    g.sum ((verdict P o db c).accountDB P c db) = g.sum db + g.effect c (verdict P o db c) := by
  obtain ⟨s, hv⟩ | ⟨s, e, key, n, hv, -, -⟩ | ⟨a, b, n, hf, -, -, -, -, -, hd, hv⟩ :=
    verdict_split (o := o) ht hc
  · simp [hv, effect]
  · simp [hv, effect]
  · rw [hv]
    cases hcr : o.db .credit with
    | some f =>
      simp only [settlement, hd, hcr, Verdict.accountDB, effect]
      exact sum_debit hP hf
    | none =>
      cases hl : o.logThrows <;> simp only [settlement, hd, hcr, hl, Verdict.accountDB, effect] <;>
        exact sum_settle hP hf

end Effect

structure Audited (P : Platform) (V : Int → Prop) (s : System) : Prop where
  sane : s.Sane P V
  distinct : ∃ ns, s.shared.Distinct ns s.pending

theorem Audited.init {P : Platform} {V : Int → Prop} : Audited P V (System.init .empty) :=
  ⟨.init, [], Wallet.Distinct.empty⟩

theorem Audited.step {P : Platform} {V : Int → Prop} (hV : P.Holds V) {s s' : System} {l : Label}
    (h : Audited P V s) (hstep : System.step P s l = some s') : Audited P V s' := by
  obtain ⟨hsane, ns, hdistinct⟩ := h
  exact ⟨hsane.step hV hstep, System.distinct_step hdistinct hstep⟩

variable {g} {P : Platform} {V : Int → Prop} {s s' : System} {l : Label}

theorem step_surplus (hP : g.Wraps P) (h : Audited P V s) (hstep : System.step P s l = some s') :
    g.sum s'.shared.accountDB - g.opened s'.shared.history =
      g.sum s.shared.accountDB - g.opened s.shared.history + g.stepEffect P s l := by
  obtain ⟨hsane, ns, hdistinct⟩ := h
  rcases System.step_files hstep with
    ⟨c, v, hprocesses, hc, ⟨o, rfl⟩, hdb, -, hstored⟩ | ⟨hprocesses, -, hsame | hnew⟩
  · rw [hdb, sum_verdict hP hsane.texts (hsane.queue c hc), opened, hstored, stepEffect, hprocesses]
    simp only [opened, Option.elim_some]
    abel
  · obtain ⟨hdb, hstored⟩ := hsame
    simp [hdb, opened, hstored, stepEffect, hprocesses]
  · obtain ⟨id, n, ht, hdb, hstored⟩ := hnew
    have habsent := hdistinct.absent (List.mem_filterMap.mpr ⟨_, ht, rfl⟩)
    rw [hdb, g.sum_insert, weightAt_of_notMem habsent, stepEffect, hprocesses]
    simp [opened, hstored]

theorem run_surplus (hP : g.Wraps P) (hV : P.Holds V) {ls : List Label}
    (hrun : run (System.step P) (System.init .empty) ls = some s) :
    g.sum s.shared.accountDB =
      g.opened s.shared.history + tally (System.step P) (g.stepEffect P) (System.init .empty) ls := by
  have hsurplus := run_tally (I := Audited P V)
    (φ := fun s => g.sum s.shared.accountDB - g.opened s.shared.history)
    (fun h hstep => h.step hV hstep) (fun h hstep => step_surplus hP h hstep) .init hrun
  have hinit : g.sum (System.init .empty).shared.accountDB -
      g.opened (System.init .empty).shared.history = 0 := by
    change g.sum ∅ - 0 = 0
    rw [g.sum_empty, sub_zero]
  rw [hinit, zero_add] at hsurplus
  rw [← hsurplus]
  abel

end Gauge

def Verdict.missing : Verdict → Int
  | .debited _ _ n _ => n
  | _ => 0

def Verdict.made (c : Command) : Verdict → Int
  | .unlogged _ _ n => if c.account1 = c.account2 then n else 0
  | .applied _ _ n => if c.account1 = c.account2 then n else 0
  | _ => 0

/-- What one account has gained that the event log does not tell. -/
def Verdict.drift (key : String) (c : Command) : Verdict → Int
  | .debited _ _ n _ => if c.account1 = key then -n else 0
  | .unlogged _ _ n => (if c.account1 = key then -n else 0) + (if c.account2 = key then n else 0) +
      if c.account1 = key ∧ c.account2 = key then n else 0
  | .applied _ _ n => if c.account1 = key ∧ c.account2 = key then n else 0
  | _ => 0

def System.amount (P : Platform) (f : Command → Verdict → Int) (s : System) (l : Label) : Int :=
  (s.processes P l).elim 0 fun x => f x.1 x.2

section Amount

variable {P : Platform} {V : Int → Prop} {s : System} {l : Label}

theorem System.processes_mem {c : Command} {v : Verdict} (h : s.processes P l = some (c, v)) :
    c ∈ s.shared.commandQueue.messages ∧ ∃ o, v = verdict P o s.shared.accountDB c := by
  unfold System.processes at h
  split at h
  · split at h
    · next hq =>
      cases h
      rw [MessageQueue.receive_eq_some.mp hq]
      exact ⟨by simp [MessageQueue.send], _, rfl⟩
    · cases h
  · cases h

theorem System.amount_nonneg (hs : s.Sane P V) {f : Command → Verdict → Int}
    (hrefused : ∀ c s, f c (.refused s) = 0) (hfailed : ∀ c s e, f c (.failed s e) = 0)
    (hf : ∀ c o a b n, 0 < n → 0 ≤ f c (settlement o a b n)) : 0 ≤ s.amount P f l := by
  cases hp : s.processes P l with
  | none => simp [amount, hp]
  | some x =>
    obtain ⟨c, v⟩ := x
    obtain ⟨hc, o, rfl⟩ := processes_mem hp
    simp only [amount, hp, Option.elim_some]
    obtain ⟨s, hv⟩ | ⟨s, e, key, n, hv, -, -⟩ | ⟨a, b, n, -, -, -, hpos, -, -, -, hv⟩ :=
      verdict_split (o := o) hs.texts (hs.queue c hc)
    · rw [hv, hrefused]
    · rw [hv, hfailed]
    · rw [hv]
      exact hf c o a b n hpos

end Amount

theorem settlement_missing (o : Outcomes) (a b : Int) {n : Int} (hpos : 0 < n) :
    0 ≤ (settlement o a b n).missing := by
  unfold settlement
  split <;> simp [Verdict.missing, hpos.le]

theorem settlement_made (c : Command) (o : Outcomes) (a b : Int) {n : Int} (hpos : 0 < n) :
    0 ≤ (settlement o a b n).made c := by
  unfold settlement
  split <;> simp only [Verdict.made] <;> first | split <;> omega | omega

theorem Gauge.effect_all (c : Command) (v : Verdict) : Gauge.all.effect c v = v.made c - v.missing := by
  cases v <;> simp [Gauge.effect, Gauge.all, Verdict.made, Verdict.missing]

/-- With exact additions, over runs of whole toggles: whatever fails and however
often the server restarts, the balances hold what was issued, less what was
debited and never credited, and more by what transfers from an account to itself
have made up. -/
theorem total_audited (fits : Int → Bool) (text : Status → String) {ls : List Label} {s : System}
    (hrun : run (System.step (.exact fits text)) (System.init .empty) ls = some s) :
    total value s.shared.accountDB = issued s.shared.history +
        tally (System.step (.exact fits text)) (System.amount (.exact fits text) Verdict.made)
          (System.init .empty) ls -
        tally (System.step (.exact fits text)) (System.amount (.exact fits text) fun _ => Verdict.missing)
          (System.init .empty) ls ∧
      0 ≤ tally (System.step (.exact fits text)) (System.amount (.exact fits text) Verdict.made)
        (System.init .empty) ls ∧
      0 ≤ tally (System.step (.exact fits text)) (System.amount (.exact fits text) fun _ => Verdict.missing)
        (System.init .empty) ls := by
  have hV := Platform.exact_holds fits text
  have hwraps : Gauge.all.Wraps (.exact fits text) := fun _ _ => rfl
  have heffect : Gauge.all.stepEffect (.exact fits text) = fun s l =>
      System.amount (.exact fits text) Verdict.made s l -
        System.amount (.exact fits text) (fun _ => Verdict.missing) s l := by
    funext s l
    unfold Gauge.stepEffect System.amount
    cases s.processes _ l with
    | none => rfl
    | some x => exact Gauge.effect_all x.1 x.2
  refine ⟨?_, ?_, ?_⟩
  · have hsum := Gauge.run_surplus hwraps hV hrun
    rw [heffect, tally_sub] at hsum
    rw [add_sub_assoc]
    exact hsum
  · refine tally_nonneg (I := System.Sane (.exact fits text) fun _ => True)
      (fun h hstep => h.step hV hstep) ?_ .init
    intro s l hs
    exact System.amount_nonneg hs (fun _ _ => rfl) (fun _ _ _ => rfl) fun c o a b n => settlement_made c o a b
  · refine tally_nonneg (I := System.Sane (.exact fits text) fun _ => True)
      (fun h hstep => h.step hV hstep) ?_ .init
    intro s l hs
    exact System.amount_nonneg hs (fun _ _ => rfl) (fun _ _ _ => rfl) fun c o a b n => settlement_missing o a b

def losesCredit : Outcomes :=
  { Outcomes.succeed with
    db := fun call => if call = .credit then some ⟨⟨.kIOError, ""⟩, Status.ok_kIOError ""⟩ else none }

def auditedRun : List Label :=
  [.arrive (.createAccount (some "100")), .advance 0 .succeed, .advance 0 .succeed,
    .arrive (.createAccount (some "5")), .advance 1 .succeed, .advance 1 .succeed,
    .arrive (.balanceTransfer (some "700000001") (some "700000002") (some "30") "tx-1"),
    .advance 2 .succeed, .advance 2 losesCredit,
    .arrive (.balanceTransfer (some "700000001") (some "700000002") (some "7") "tx-2"),
    .advance 3 .succeed, .advance 3 { Outcomes.succeed with logThrows := true },
    .restart,
    .arrive (.balanceTransfer (some "700000001") (some "700000001") (some "10") "tx-3"),
    .advance 4 .succeed, .advance 4 .succeed, .restart]

def auditedState (P : Platform) : System :=
  (run (System.step P) (System.init .empty) auditedRun).getD (System.init .empty)

theorem total_audited_example :
    total value (auditedState (.exact fits32 fun _ => "")).shared.accountDB = 105 + 10 - 30 ∧
      total value (auditedState (.exact fits32 fun _ => "")).shared.accountDB =
        issued (auditedState (.exact fits32 fun _ => "")).shared.history +
          tally (System.step (.exact fits32 fun _ => ""))
            (System.amount (.exact fits32 fun _ => "") Verdict.made) (System.init .empty) auditedRun -
          tally (System.step (.exact fits32 fun _ => ""))
            (System.amount (.exact fits32 fun _ => "") fun _ => Verdict.missing)
            (System.init .empty) auditedRun := by
  have hrun : run (System.step (.exact fits32 fun _ => "")) (System.init .empty) auditedRun =
      some (auditedState (.exact fits32 fun _ => "")) := by decide +kernel
  exact ⟨by decide +kernel, (total_audited _ _ hrun).1⟩

section Drift

variable {c : Command} {n : Int}

theorem movement_pair (h0 : 0 ≤ n) (hn : c.amount = Cpp.toString n) (key : String) :
    movement key [c.eventA, c.eventB] =
      (if c.account1 = key then -n else 0) + if c.account2 = key then n else 0 := by
  have hA : value c.eventA.amount = -n := by
    simp [value, Command.eventA, hn, Cpp.strtol_minus_toString h0]
  have hB : value c.eventB.amount = n := by
    simp [value, Command.eventB, hn, Cpp.strtol_plus_toString h0]
  by_cases h1 : c.account1 = key <;> by_cases h2 : c.account2 = key <;>
    simp [movement, h1, h2, hA, hB]

theorem Gauge.account_only (m : ℕ) (key key' : String) (x : Int) :
    (Gauge.only m key).account key' x = ((if key' = key then x else 0 : ℤ) : ZMod m) := by
  by_cases heq : key' = key <;> simp [Gauge.only, heq]

theorem Gauge.only_wraps (text : Status → String) (key : String) :
    (Gauge.only (2 ^ 32) key).Wraps (.int32 text) := by
  intro key' x
  have hmod : (((x.bmod (2 ^ 32) : ℤ)) : ZMod (2 ^ 32)) = (x : ZMod (2 ^ 32)) :=
    (ZMod.intCast_eq_intCast_iff _ _ _).mpr (by exact_mod_cast bmod_modEq x)
  rw [Gauge.account_only, Gauge.account_only]
  by_cases heq : key' = key
  · rw [if_pos heq, if_pos heq]
    exact hmod
  · rw [if_neg heq, if_neg heq]

theorem Gauge.settle_only (m : ℕ) (key : String) (n : Int) :
    (Gauge.only m key).account c.account1 (-n) + (Gauge.only m key).account c.account2 n +
        (if c.account1 = c.account2 then (Gauge.only m key).account c.account1 n else 0) =
      (((if c.account1 = key then -n else 0) + (if c.account2 = key then n else 0) +
        if c.account1 = key ∧ c.account2 = key then n else 0 : ℤ) : ZMod m) := by
  simp only [account_only]
  by_cases h1 : c.account1 = key
  · subst h1
    by_cases h2 : c.account2 = c.account1
    · simp [h2]
    · simp [h2, Ne.symm h2]
  · simp [h1]

theorem Gauge.effect_only {P : Platform} {V : Int → Prop} {db : AccountDB} {o : Outcomes} (m : ℕ)
    (key : String) (ht : Texts V db) (hc : Accepted P c) (log : List LogEntry) :
    (Gauge.only m key).effect c (verdict P o db c) =
      ((movement key (loggedEvents ((verdict P o db c).eventLog c log)) - movement key (loggedEvents log) +
        (verdict P o db c).drift key c : ℤ) : ZMod m) := by
  obtain ⟨s, hv⟩ | ⟨s, e, key', n, hv, -, -⟩ | ⟨a, b, n, hf, -, -, hpos, -, -, -, hv⟩ :=
    verdict_split (o := o) ht hc
  · simp [hv, effect, Verdict.drift]
  · simp [hv, effect, Verdict.drift]
  · rw [hv]
    unfold settlement
    split
    · simp [effect, Verdict.drift]
    · simp only [effect, Verdict.drift, Verdict.eventLog, sub_self, zero_add, account_only]
    · simp only [effect, Verdict.drift, Verdict.eventLog, sub_self, zero_add, settle_only]
    · have hlog : movement key (loggedEvents [.header, .event c.eventA, .event c.eventB]) =
          (if c.account1 = key then -n else 0) + if c.account2 = key then n else 0 :=
        movement_pair hpos.le hf.amount key
      simp only [effect, Verdict.drift, Verdict.eventLog, settle_only, loggedEvents_append,
        movement_append, add_sub_cancel_left, hlog]

variable {text : Status → String} {s s' : System} {l : Label} {key : String}

def untold (key : String) (s : System) : ZMod (2 ^ 32) :=
  (Gauge.only (2 ^ 32) key).sum s.shared.accountDB - (Gauge.only (2 ^ 32) key).opened s.shared.history -
    ((movement key (loggedEvents s.shared.eventLog) : ℤ) : ZMod (2 ^ 32))

theorem step_untold (h : Gauge.Audited (.int32 text) (fun n => fits32 n = true) s)
    (hstep : System.step (.int32 text) s l = some s') :
    untold key s' = untold key s +
      Int.castAddHom (ZMod (2 ^ 32)) (System.amount (.int32 text) (fun c v => v.drift key c) s l) := by
  rw [untold, Gauge.step_surplus (Gauge.only_wraps text key) h hstep, untold]
  rcases System.step_files hstep with ⟨c, v, hp, hc, ⟨o, rfl⟩, -, hlog, -⟩ | ⟨hp, hlog, -⟩
  · simp only [Gauge.stepEffect, System.amount, hp, Option.elim_some]
    rw [Gauge.effect_only _ key h.sane.texts (h.sane.queue c hc) s.shared.eventLog, hlog,
      Int.coe_castAddHom, Int.cast_add, Int.cast_sub]
    abel
  · simp only [Gauge.stepEffect, System.amount, hp, hlog, Option.elim_none, map_zero, add_zero]

theorem opened_only {accounts : List (String × String)} {start : String} (m : ℕ)
    (hnodup : (accounts.map Prod.fst).Nodup) (hmem : (key, start) ∈ accounts) :
    (accounts.map fun x => (Gauge.only m key).account x.1 (value x.2)).sum =
      ((value start : ℤ) : ZMod m) := by
  induction accounts with
  | nil => cases hmem
  | cons x accounts ih =>
    obtain ⟨key', start'⟩ := x
    simp only [List.map_cons, List.nodup_cons, List.mem_map, not_exists, not_and] at hnodup
    obtain ⟨hfresh, hnodup⟩ := hnodup
    rw [List.map_cons, List.sum_cons, Gauge.account_only]
    rcases List.mem_cons.mp hmem with heq | hmem
    · cases heq
      have hrest : ∀ x ∈ accounts.map fun x => (Gauge.only m key).account x.1 (value x.2), x = 0 := by
        intro x hx
        obtain ⟨y, hy, rfl⟩ := List.mem_map.mp hx
        rw [Gauge.account_only, if_neg (hfresh y hy), Int.cast_zero]
      rw [if_pos rfl, List.sum_eq_zero hrest, add_zero]
    · have hne : key' ≠ key := fun heq => hfresh _ hmem heq.symm
      rw [if_neg hne, ih hnodup hmem, Int.cast_zero, zero_add]

/-- With 32-bit additions, over runs of whole toggles: whatever fails and however
often the server restarts, a balance is its start amount and the logged events of
the account, but for the transfers that were cut short before the log or went from
the account to itself. -/
theorem balance_audited (text : Status → String) {ls : List Label} {s : System}
    (hrun : run (System.step (.int32 text)) (System.init .empty) ls = some s) {key start : String}
    (hkey : (key, start) ∈ storedAccounts s.shared.history) :
    ∃ x, s.shared.accountDB.lookup key = some (Cpp.toString x) ∧
      x ≡ value start + movement key (loggedEvents s.shared.eventLog) +
        tally (System.step (.int32 text)) (System.amount (.int32 text) fun c v => v.drift key c)
          (System.init .empty) ls [ZMOD 2 ^ 32] := by
  have hV := Platform.int32_holds text
  have hsane := System.Sane.of_reachable hV ⟨ls, hrun⟩
  obtain ⟨ns, hd⟩ := System.distinct_of_reachable ⟨ls, hrun⟩
  have hmem : key ∈ s.shared.accountDB := by
    rw [← Finmap.mem_keys, hd.keys, List.mem_toFinset]
    exact List.mem_map_of_mem hkey
  obtain ⟨stored, hstored⟩ := Finmap.mem_iff.mp hmem
  obtain ⟨x, -, rfl⟩ := hsane.texts _ _ hstored
  refine ⟨x, hstored, ?_⟩
  have huntold := run_tally (φ := untold key) (I := Gauge.Audited (.int32 text) _) (fun h hstep => h.step hV hstep)
    (fun h hstep => step_untold h hstep) Gauge.Audited.init hrun
  have hinit : untold key (System.init .empty) = 0 := by
    change (Gauge.only (2 ^ 32) key).sum ∅ - 0 - ((0 : ℤ) : ZMod (2 ^ 32)) = 0
    simp [Gauge.sum_empty]
  have hsum : (Gauge.only (2 ^ 32) key).sum s.shared.accountDB = ((x : ℤ) : ZMod (2 ^ 32)) := by
    change ((weightAt value s.shared.accountDB key : ℤ) : ZMod (2 ^ 32)) = _
    rw [weightAt_of_lookup hstored, value_toString]
  have hopened : (Gauge.only (2 ^ 32) key).opened s.shared.history = ((value start : ℤ) : ZMod (2 ^ 32)) :=
    opened_only _ (List.nodup_append.mp hd.owned_nodup).2.1 hkey
  rw [hinit, zero_add, tally_map, untold, hsum, hopened, Int.coe_castAddHom, sub_sub, sub_eq_iff_eq_add]
    at huntold
  have hmod := (ZMod.intCast_eq_intCast_iff x (tally (System.step (.int32 text))
    (System.amount (.int32 text) fun c v => v.drift key c) (System.init .empty) ls +
      (value start + movement key (loggedEvents s.shared.eventLog))) (2 ^ 32)).mp
    (by rw [huntold]; push_cast; rfl)
  rw [add_comm]
  exact_mod_cast hmod

theorem balance_audited_example :
    loggedEvents (auditedState (.int32 fun _ => "")).shared.eventLog =
        [⟨"TRANSFER", "700000001", "-10", "tx-3"⟩, ⟨"TRANSFER", "700000001", "+10", "tx-3"⟩] ∧
      ∃ x, (auditedState (.int32 fun _ => "")).shared.accountDB.lookup "700000001" =
          some (Cpp.toString x) ∧
        x ≡ value "100" + movement "700000001"
            (loggedEvents (auditedState (.int32 fun _ => "")).shared.eventLog) +
          tally (System.step (.int32 fun _ => ""))
            (System.amount (.int32 fun _ => "") fun c v => v.drift "700000001" c)
            (System.init .empty) auditedRun [ZMOD 2 ^ 32] := by
  have hrun : run (System.step (.int32 fun _ => "")) (System.init .empty) auditedRun =
      some (auditedState (.int32 fun _ => "")) := by decide +kernel
  exact ⟨by decide +kernel, balance_audited _ hrun (by decide +kernel)⟩

end Drift

end DigitalWallet

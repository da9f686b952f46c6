import DigitalWallet.Laws.Unique

namespace DigitalWallet

open Lib

structure Settled (P : Platform) (db : AccountDB) (c : Command) : Prop where
  sender : c.account1 ∈ db
  receiver : c.account2 ∈ db
  accepted : Accepted P c

def Wallet.LogsSettled (P : Platform) (w : Wallet) : Prop :=
  ∃ cs : List Command, w.eventLog = cs.flatMap Command.entries ∧ ∀ c ∈ cs, Settled P w.accountDB c

/-- No append throws or is cut short: either may leave a piece of an archive. -/
def Act.KeepsLog : Act → Prop
  | .operate _ o => o.logThrows = false
  | .kill log => log = none
  | .arrive _ => True

section Log

variable {P : Platform} {V : Int → Prop} {own : Request → Bool} {w w' : Wallet} {a : Act}
  {ts ts' : List (Thread × Seen)}

theorem Wallet.LogsSettled.extend (h : w.LogsSettled P) (hkeys : ∀ key ∈ w.accountDB, key ∈ w'.accountDB)
    (cs : List Command) (hlog : w'.eventLog = w.eventLog ++ cs.flatMap Command.entries)
    (hcs : ∀ c ∈ cs, Settled P w'.accountDB c) : w'.LogsSettled P := by
  obtain ⟨cs₀, hlog₀, hcs₀⟩ := h
  refine ⟨cs₀ ++ cs, by rw [hlog, hlog₀, List.flatMap_append], fun c hc => ?_⟩
  rcases List.mem_append.mp hc with hc | hc
  · obtain ⟨hsender, hreceiver, hacc⟩ := hcs₀ c hc
    exact ⟨hkeys _ hsender, hkeys _ hreceiver, hacc⟩
  · exact hcs c hc

theorem Passes.log (htransfers : ∀ r : Request, r.transfers = true → own r = true)
    (h : Passes P V own w a ts w' ts') (ha : a.KeepsLog) (hw : w.LogsSettled P) : w'.LogsSettled P := by
  cases h with
  | arrive r => exact hw
  | @operate before after t t' seen op r _ i o hseen hallows heffect =>
    have hsame : w'.eventLog = w.eventLog → w'.LogsSettled P := fun hlog =>
      hw.extend heffect.keys [] (by simpa using hlog) (by simp)
    cases heffect with
    | append eventA eventB =>
      obtain ⟨htransfer, c, hc, rfl, rfl, hsender, hreceiver⟩ := hallows
      have hfound := hseen.holds.found (htransfers _ htransfer)
      refine hw.extend (fun _ hkey => hkey) [c] (by simp [Command.entries]) ?_
      intro c' hc'
      rw [List.mem_singleton.mp hc']
      exact ⟨hfound _ hsender, hfound _ hreceiver, hseen.holds.command c hc⟩
    | other _ hlog => exact hsame hlog
    | _ => exact hsame rfl
  | kill log =>
    obtain rfl : log = none := ha
    exact hw

end Log

def Request.creates : Request → Bool
  | .createAccount _ => true
  | _ => false

section Kept

variable {P : Platform}

theorem Threads.act_keys {s s' : Threads} {a : Act} (hact : Threads.act P s a = some s') :
    ∀ key ∈ s.shared.accountDB, key ∈ s'.shared.accountDB := by
  intro key hkey
  cases a with
  | arrive r =>
    simp only [Threads.act] at hact
    split at hact <;> cases hact
    exact hkey
  | operate i o =>
    simp only [Threads.act] at hact
    split at hact
    · cases hact
    · obtain ⟨before, t, after, t', -, -, -, hop⟩ := Pool.advance_cases hact
      obtain ⟨op, k, r, -, hperform, -⟩ := Thread.operate_cases hop
      exact (perform_effect hperform).keys key hkey
  | kill log =>
    cases log with
    | none => cases hact; exact hkey
    | some log =>
      simp only [Threads.act] at hact
      split at hact <;> cases hact
      exact hkey

theorem Thread.answer_eq_some {t : Thread} {r : Response} : t.answer = some r ↔ t.prog = .ret r := by
  unfold Thread.answer
  cases t.prog <;> simp

/-- An account that `create_account` has answered with stays in the database,
whatever fails or is killed afterwards: its `assert` only has to have tested the
status of its own `Put`. -/
theorem accounts_kept (P : Platform) {as bs : List Act} {s s' : Threads} {t : Thread}
    {startAmount : Option String} {resp : Response}
    (hown : Meets (Threads.act P) (fun s a => a.TestsOwn Request.creates s)
      (Threads.init P .empty []) as)
    (hrun : run (Threads.act P) (Threads.init P .empty []) as = some s) (ht : t ∈ s.threads)
    (hrequest : t.request = .createAccount startAmount) (hanswer : t.answer = some resp)
    (hcode : resp.code = 200) (hlater : run (Threads.act P) s bs = some s') :
    ∃ id, ∃ n : Int, resp.body = "Account: " ++ id ++ " : Balance: " ++ Cpp.toString n ++ "\n" ∧
      id ∈ s'.shared.accountDB := by
  have hV : P.Holds fun _ => True := ⟨fun _ => trivial, fun _ _ => trivial⟩
  obtain ⟨ts, hserved⟩ := run_invariant (I := fun s => ∃ ts, Threads.Served P _ Request.creates s ts)
    (fun ⟨ts, h⟩ hown hact => (h.act hV hown hact).imp fun _ h => h.1) ⟨[], .init⟩ hown hrun
  obtain ⟨⟨t, seen⟩, hx, rfl⟩ := List.mem_map.mp (hserved.threads ▸ ht)
  obtain ⟨hseen, ⟨n, hfollows⟩, hholds⟩ := hserved.handlers _ hx
  rw [Thread.answer_eq_some.mp hanswer, hrequest] at hfollows
  obtain ⟨id, hfound, n, hbody⟩ := hfollows hcode
  have hown : Request.creates seen.request = true := by rw [hseen, hrequest]; rfl
  have hmem := hholds.found hown id hfound
  refine ⟨id, n, hbody, run_invariant (I := fun s => id ∈ s.shared.accountDB) (C := fun _ _ => True)
    (fun hkey _ hact => Threads.act_keys hact id hkey) hmem
    (Meets.of_forall (fun _ _ _ => trivial) s) hlater⟩

def keptRun : List Act :=
  [.arrive (.createAccount (some "100")), .arrive (.createAccount (some "5")), .operate 1 .succeed] ++
    operations 0 3

def laterRun : List Act :=
  [.operate 1 { Outcomes.succeed with db := fun _ => some ⟨⟨.kIOError, "full"⟩, Status.ok_kIOError "full"⟩ }] ++
    operations 1 2 ++ [.kill none, .arrive .events]

theorem accounts_kept_example : ∃ s s' : Threads,
    run (Threads.act (.int32 fun _ => "")) (Threads.init (.int32 fun _ => "") .empty []) keptRun = some s ∧
      run (Threads.act (.int32 fun _ => "")) s laterRun = some s' ∧
      ∃ id, ∃ n : Int, "Account: 700000002 : Balance: 100\n" =
          "Account: " ++ id ++ " : Balance: " ++ Cpp.toString n ++ "\n" ∧
        id ∈ s'.shared.accountDB := by
  have hlater : (run (Threads.act (.int32 fun _ => "")) (Threads.init (.int32 fun _ => "") .empty [])
      (keptRun ++ laterRun)).isSome = true := by decide +kernel
  have hanswer : (run (Threads.act (.int32 fun _ => "")) (Threads.init (.int32 fun _ => "") .empty [])
      keptRun).map (fun s => s.threads[0]?.map fun t => (t.request, t.answer)) =
        some (some (.createAccount (some "100"), some { body := "Account: 700000002 : Balance: 100\n" })) := by
    decide +kernel
  obtain ⟨s, hs, hfirst⟩ := Option.map_eq_some_iff.mp hanswer
  obtain ⟨t, ht, heq⟩ := Option.map_eq_some_iff.mp hfirst
  rw [Lib.run_append, hs, Option.bind_some] at hlater
  obtain ⟨s', hs'⟩ := Option.isSome_iff_exists.mp hlater
  obtain ⟨hrequest, hresp⟩ := Prod.mk.inj heq
  exact ⟨s, s', hs, hs', accounts_kept _ (by decide +kernel) hs (List.mem_of_getElem? ht) hrequest hresp
    rfl hs'⟩

end Kept

end DigitalWallet

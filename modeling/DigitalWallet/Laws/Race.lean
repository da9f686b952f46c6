import DigitalWallet.Laws.Progress

namespace DigitalWallet

open Lib

namespace Threads

def asserting (s : Threads) (i : Nat) : Bool := s.threads[i]?.any Thread.asserts

def misses (s : Threads) (i : Nat) : Bool :=
  match s.threads[i]?.map Thread.prog with
  | some (.op (.get _ key _) _) => decide (key ∉ s.shared.accountDB)
  | _ => false

def callsDB (s : Threads) (i : Nat) : Bool := s.threads[i]?.any fun t => Thread.callsDB t.prog

/-- Along `is`, some handler misses its account while `i` is about to evaluate
its `assert`, and from there on no handler calls the database and `i` waits. -/
def Clobbers (s₀ : Threads) (i : Nat) (is : List Nat) : Prop :=
  ∃ before j gap s₁ s₂, is = before ++ j :: gap ∧ run Threads.step s₀ before = some s₁ ∧
    s₁.asserting i ∧ s₁.misses j ∧ Threads.step s₁ j = some s₂ ∧
    Meets Threads.step (fun s k => k ≠ i ∧ s.callsDB k = false) s₂ gap

end Threads

section Race

variable {P : Platform} {t t' : Thread} {w w' : Wallet} {s s' : Threads} {i j : Nat}

theorem perform_answer {op : Op} {r : op.Ret} (h : perform .succeed op w = some (r, w'))
    (hop : op.callsDB = true) :
    w'.status.ok = true ∨ ∃ call key out, op = .get call key out ∧ key ∉ w.accountDB := by
  cases op with
  | get call key out =>
    cases h
    cases hlookup : w.accountDB.lookup key with
    | none => exact .inr ⟨call, key, out, rfl, Finmap.lookup_eq_none.mp hlookup⟩
    | some value => exact .inl rfl
  | put => cases h; exact .inl rfl
  | _ => cases hop

theorem Threads.step_set (hstep : Threads.step s i = some s') :
    ∃ t t', s.threads[i]? = some t ∧ t.advance s.shared = some (t', s'.shared) ∧
      s'.threads = s.threads.set i t' :=
  Pool.advance_set (Threads.step_advance hstep)

theorem Threads.step_asserting (hstep : Threads.step s j = some s') (hij : j ≠ i) :
    s'.asserting i = s.asserting i := by
  obtain ⟨t, t', -, -, hthreads⟩ := Threads.step_set hstep
  rw [asserting, asserting, hthreads, List.getElem?_set_ne hij]

theorem Threads.step_status (hstep : Threads.step s i = some s') (hcalls : s.callsDB i = false) :
    s'.shared.status = s.shared.status := by
  obtain ⟨t, t', ht, hadv, -⟩ := Threads.step_set hstep
  obtain ⟨op, k, r, hprog, hperform, -⟩ := Thread.advance_cases hadv
  rw [callsDB, ht, Option.any_some, hprog] at hcalls
  exact perform_status hperform hcalls

theorem Threads.step_answer (hstep : Threads.step s i = some s') (hcalls : s.callsDB i = true) :
    s'.shared.status.ok = true ∨ s.misses i = true := by
  obtain ⟨t, t', ht, hadv, -⟩ := Threads.step_set hstep
  obtain ⟨op, k, r, hprog, hperform, -⟩ := Thread.advance_cases hadv
  rw [callsDB, ht, Option.any_some, hprog] at hcalls
  rcases perform_answer hperform hcalls with hok | ⟨call, key, out, rfl, hkey⟩
  · exact .inl hok
  · exact .inr (by simp [misses, ht, hprog, hkey])

theorem Threads.step_misses (hstep : Threads.step s i = some s') (h : s.misses i = true) :
    s'.shared.status.ok = false := by
  obtain ⟨t, t', ht, hadv, -⟩ := Threads.step_set hstep
  obtain ⟨op, k, r, hprog, hperform, -⟩ := Thread.advance_cases hadv
  rw [misses, ht, Option.map_some, hprog] at h
  cases op with
  | get call key out =>
    have hlookup : s.shared.accountDB.lookup key = none := Finmap.lookup_eq_none.mpr (of_decide_eq_true h)
    obtain ⟨-, hshared⟩ := Prod.mk.inj (Option.some.inj hperform)
    rw [← hshared]
    simp [Outcomes.succeed, hlookup]
  | _ => cases h

theorem Thread.Alive.asserts (h : t.Alive P) (hadv : t.advance w = some (t', w')) (hasserts : t'.asserts = true) :
    w'.status.ok = true := by
  obtain ⟨op, k, r, hprog, hperform, rfl⟩ := Thread.advance_cases hadv
  unfold Thread.Alive at h
  cases hreq : t.request with
  | createAccount startAmount =>
    rw [hreq] at h
    dsimp only at h
    rcases h with h | ⟨id, n, h⟩ | ⟨k₀, r₀, k', h, htrue, hfalse⟩ | h
    · rw [createAccount] at h
      cases hcheck : checkStartAmount P startAmount with
      | error e =>
        rw [hcheck] at h
        cases h.symm.trans hprog
      | ok n =>
        rw [hcheck] at h
        cases h.symm.trans hprog
        cases r <;> simp [Thread.asserts, hreq, storeAccount] at hasserts
    · cases h.symm.trans hprog
      cases hperform
      rfl
    · cases h.symm.trans hprog
      cases r <;> simp [Thread.asserts, hreq, htrue, hfalse] at hasserts
    · rw [hprog] at h
      cases h
  | _ => simp [Thread.asserts, hreq] at hasserts

theorem Thread.start_asserts (P : Platform) (w : Wallet) (r : Request) : (Thread.start P w r).asserts = false := by
  cases r with
  | createAccount startAmount =>
    simp only [Thread.asserts, Thread.start, handler, createAccount]
    cases checkStartAmount P startAmount <;> rfl
  | _ => rfl

theorem Threads.init_asserting (P : Platform) (w : Wallet) (rs : List Request) (i : Nat) :
    (Threads.init P w rs).asserting i = false := by
  rw [asserting, Threads.init, List.getElem?_map]
  cases rs[i]? with
  | none => rfl
  | some r => exact Thread.start_asserts P w r

theorem not_assertsOK_iff : ¬ AssertsOK s i ↔ s.asserting i = true ∧ s.shared.status.ok = false := by
  unfold AssertsOK Threads.asserting
  cases s.threads[i]? <;> simp

structure Threads.Watched (P : Platform) (s₀ : Threads) (pre : List Nat) (s : Threads) : Prop where
  alive : s.Alive P
  reached : run Threads.step s₀ pre = some s
  blame : ∀ i, s.asserting i = true → s.shared.status.ok = false → s₀.Clobbers i pre

theorem Threads.Watched.init (hw : w.aborted = false) (rs : List Request) :
    Watched P (Threads.init P w rs) [] (Threads.init P w rs) where
  alive := .init hw rs
  reached := rfl
  blame i hasserting := by cases (Threads.init_asserting P w rs i).symm.trans hasserting

theorem Threads.Watched.step {s₀ : Threads} {pre : List Nat} (h : Watched P s₀ pre s) (hok : AssertsOK s j)
    (hstep : Threads.step s j = some s') : Watched P s₀ (pre ++ [j]) s' where
  alive := by
    rcases h.alive.step hstep with ⟨-, halive⟩ | ⟨hnot, -⟩
    · exact halive
    · exact absurd hok hnot
  reached := by
    rw [Lib.run_append, h.reached, Option.bind_some, run, hstep]
    rfl
  blame i hasserting hstatus := by
    have hij : j ≠ i := by
      rintro rfl
      obtain ⟨t, t', ht, hadv, hthreads⟩ := Threads.step_set hstep
      have hlt := (List.getElem?_eq_some_iff.mp ht).1
      rw [asserting, hthreads, List.getElem?_set_self hlt] at hasserting
      have hown := (h.alive.handlers t (List.mem_of_getElem? ht)).asserts hadv hasserting
      cases hown.symm.trans hstatus
    rw [Threads.step_asserting hstep hij] at hasserting
    cases hcalls : s.callsDB j with
    | false =>
      -- the status is still the one that was blamed on someone before
      rw [Threads.step_status hstep hcalls] at hstatus
      obtain ⟨before, j', gap, s₁, s₂, rfl, hbefore, hfirst, hmissed, hnext, hgap⟩ := h.blame i hasserting hstatus
      exact ⟨before, j', gap ++ [j], s₁, s₂, by simp, hbefore, hfirst, hmissed, hnext,
        hgap.append (run_behind h.reached hbefore hnext) ⟨⟨hij, hcalls⟩, fun _ _ => trivial⟩⟩
    | true =>
      rcases Threads.step_answer hstep hcalls with hanswer | hmisses
      · cases hanswer.symm.trans hstatus
      · exact ⟨pre, j, [], s, s', rfl, h.reached, hasserting, hmisses, hstep, trivial⟩

theorem Threads.Clobbers.not_assertsOK {s₀ : Threads} {pre : List Nat} (h : s₀.Clobbers i pre)
    (hrun : run Threads.step s₀ pre = some s) : ¬ AssertsOK s i := by
  obtain ⟨before, j, gap, s₁, s₂, rfl, hbefore, hfirst, hmissed, hnext, hgap⟩ := h
  have hij : j ≠ i := by
    rintro rfl
    obtain ⟨t, t', ht, -, -⟩ := Threads.step_set hnext
    rw [misses, ht, Option.map_some] at hmissed
    rw [asserting, ht, Option.any_some, Thread.asserts] at hfirst
    split at hfirst
    · next hprog => rw [hprog] at hmissed; cases hmissed
    · cases hfirst
  rw [not_assertsOK_iff]
  refine run_invariant (I := fun s => s.asserting i = true ∧ s.shared.status.ok = false) ?_
    ⟨(Threads.step_asserting hnext hij).trans hfirst, Threads.step_misses hnext hmissed⟩ hgap
    (run_behind hrun hbefore hnext)
  rintro s k s' ⟨hasserting, hstatus⟩ ⟨hki, hcalls⟩ hstep
  exact ⟨(Threads.step_asserting hstep hki).trans hasserting, by rwa [Threads.step_status hstep hcalls]⟩

end Race

/-- With every outside call going through, the server goes down exactly when a
handler misses its account between the `Put` of a `create_account` and its
`assert`, and no database call covers the status up before the `assert`. -/
theorem assert_race_iff (P : Platform) {w : Wallet} (hw : w.aborted = false) {rs : List Request}
    {is : List Nat} {s : Threads} (hrun : run Threads.step (Threads.init P w rs) is = some s) :
    s.Fatal ↔ ∃ before i after, is = before ++ i :: after ∧ (Threads.init P w rs).Clobbers i before := by
  rw [Threads.fatal_iff hw hrun]
  constructor
  · intro hviolated
    obtain ⟨before, i, after, t, rfl, hbefore, hmeets, hnot⟩ := exists_violation hrun hviolated
    obtain ⟨hasserting, hstatus⟩ := not_assertsOK_iff.mp hnot
    refine ⟨before, i, after, rfl, ?_⟩
    have hwatched := run_history (C := AssertsOK) Threads.Watched.step (Threads.Watched.init (P := P) hw rs) hmeets
      hbefore
    exact hwatched.blame i hasserting hstatus
  · rintro ⟨before, i, after, rfl, hclobbers⟩ hmeets
    rw [Lib.run_append] at hrun
    obtain ⟨t, hbefore, -⟩ := Option.bind_eq_some_iff.mp hrun
    exact hclobbers.not_assertsOK hbefore (hmeets.here hbefore)

def openingRequests : List Request := [.createAccount (some "5"), .getBalance (some "700000009")]

theorem assert_race_example :
    ∃ s, run Threads.step (Threads.init (.int32 exampleText) twoAccounts openingRequests)
        [0, 0, 1, 0] = some s ∧ s.Fatal := by
  have hrun : (run Threads.step (Threads.init (.int32 exampleText) twoAccounts openingRequests)
      [0, 0, 1, 0]).isSome = true := by decide +kernel
  have hbefore : (run Threads.step (Threads.init (.int32 exampleText) twoAccounts openingRequests)
      [0, 0]).any (fun s₁ => s₁.asserting 0 && s₁.misses 1 && (Threads.step s₁ 1).isSome) = true := by
    decide +kernel
  obtain ⟨s, hs⟩ := Option.isSome_iff_exists.mp hrun
  obtain ⟨s₁, hs₁, hgap⟩ := (Option.any_eq_true _ _).mp hbefore
  simp only [Bool.and_eq_true, Option.isSome_iff_exists] at hgap
  obtain ⟨⟨hasserting, hmisses⟩, s₂, hs₂⟩ := hgap
  exact ⟨s, hs, (assert_race_iff (.int32 exampleText) (by decide +kernel) hs).mpr
    ⟨[0, 0, 1], 0, [], rfl, [0, 0], 1, [], s₁, s₂, rfl, hs₁, hasserting, hmisses, hs₂, trivial⟩⟩

end DigitalWallet

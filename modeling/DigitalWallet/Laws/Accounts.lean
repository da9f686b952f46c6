import DigitalWallet.Laws.Invariant
import Mathlib.Data.List.Nodup

namespace DigitalWallet

open Lib

def SeedFile.number : SeedFile → Option Int
  | .absent => some 0
  | .archive contents => contents

theorem genAccountID_cases (f : SeedFile) :
    (∃ k, f.number = some k ∧ k ≠ 2 ^ 31 - 1 ∧
      genAccountID {} f = (.returned (accountID (k + 1)), .archive (some (k + 1)))) ∨
    (f.number = none ∧ genAccountID {} f = (.threw, f)) ∨
    (f.number = some (2 ^ 31 - 1) ∧ genAccountID {} f = (.overflow, f)) := by
  cases f with
  | absent => exact .inl ⟨0, rfl, by decide, rfl⟩
  | archive contents =>
    cases contents with
    | none => exact .inr (.inl ⟨rfl, rfl⟩)
    | some k =>
      by_cases hk : k = 2147483647
      · exact .inr (.inr (by simp [SeedFile.number, genAccountID, generateSeedFile, SeedFile.present,
          SeedFile.read, hk]))
      · refine .inl ⟨k, rfl, hk, ?_⟩
        simp [genAccountID, generateSeedFile, SeedFile.present, SeedFile.read, SeedFile.write, hk]

theorem genAccountID_numbers (o : SeedOutcomes) (f : SeedFile) :
    (∃ k, f.number = some k ∧ (genAccountID o f).1 = .returned (accountID (k + 1)) ∧
      ((genAccountID o f).2.number = some (k + 1) ∨ (genAccountID o f).2.number = none)) ∨
    ((∀ id, (genAccountID o f).1 ≠ .returned id) ∧
      ((genAccountID o f).2.number = f.number ∨ (genAccountID o f).2.number = none)) := by
  obtain ⟨init, update⟩ := o
  rcases f with _ | _ | k
  · cases init <;> cases update <;>
      simp [genAccountID, generateSeedFile, SeedFile.present, SeedFile.write, SeedFile.read,
        SeedFile.number]
  · simp [genAccountID, generateSeedFile, SeedFile.present, SeedFile.read, SeedFile.number]
  · by_cases hmax : k = 2147483647 <;> cases update <;>
      simp [genAccountID, generateSeedFile, SeedFile.present, SeedFile.write, SeedFile.read,
        SeedFile.number, hmax]

theorem number_of_failed {o : SeedOutcomes} {f f' : SeedFile} {e : GenExit}
    (hgen : genAccountID o f = (e, f')) (he : ∀ id, e ≠ .returned id) :
    f'.number = f.number ∨ f'.number = none := by
  rcases genAccountID_numbers o f with ⟨k, -, hid, -⟩ | ⟨-, hf⟩
  · rw [hgen] at hid
    exact absurd hid (he _)
  · rw [hgen] at hf
    exact hf

def Action.generated? : Action → Option String
  | .generated id => some id
  | _ => none

def Action.stored? : Action → Option (String × String)
  | .wrote .createAccount id text => some (id, text)
  | _ => none

def generatedIDs (h : List Action) : List String := h.filterMap Action.generated?

def storedAccounts (h : List Action) : List (String × String) := h.filterMap Action.stored?

def storedIDs (h : List Action) : List String := (storedAccounts h).map Prod.fst

def Handler.pendingID : Handler → Option String
  | .generated id _ => some id
  | _ => none

@[simp] theorem generatedIDs_append (h h' : List Action) :
    generatedIDs (h ++ h') = generatedIDs h ++ generatedIDs h' := List.filterMap_append ..

@[simp] theorem generatedIDs_cons (a : Action) (h : List Action) :
    generatedIDs (a :: h) = a.generated?.toList ++ generatedIDs h := by
  cases ha : a.generated? <;> simp [generatedIDs, ha]

@[simp] theorem generatedIDs_nil : generatedIDs [] = [] := rfl

@[simp] theorem storedAccounts_append (h h' : List Action) :
    storedAccounts (h ++ h') = storedAccounts h ++ storedAccounts h' := List.filterMap_append ..

@[simp] theorem storedAccounts_cons (a : Action) (h : List Action) :
    storedAccounts (a :: h) = a.stored?.toList ++ storedAccounts h := by
  cases ha : a.stored? <;> simp [storedAccounts, ha]

@[simp] theorem storedAccounts_nil : storedAccounts [] = [] := rfl

@[simp] theorem storedIDs_append (h h' : List Action) :
    storedIDs (h ++ h') = storedIDs h ++ storedIDs h' := by
  simp [storedIDs]

section Toggle

variable {P : Platform} {o : Outcomes} {db : AccountDB} {c : Command} {trail : List Action}

theorem Trail.accounts (h : Trail P o db c trail) : generatedIDs trail = [] ∧ storedAccounts trail = [] := by
  constructor <;> apply h.filterMap_eq_nil <;> intro a hw
  · cases a with
    | generated id => exact hw.elim
    | _ => rfl
  · cases a with
    | wrote call key value =>
      cases call with
      | createAccount => exact hw.elim
      | _ => rfl
    | _ => rfl

theorem Trail.toggle_accounts (h : Trail P o db c trail) {v : Verdict} :
    generatedIDs (.received c :: .entered .validate c :: trail ++ v.report c) = [] ∧
      storedAccounts (.received c :: .entered .validate c :: trail ++ v.report c) = [] := by
  obtain ⟨hgen, hstored⟩ := h.accounts
  cases v <;> simp [Verdict.report, hgen, hstored, Action.generated?, Action.stored?]

theorem reads_accounts {key : String} {reads : List Action}
    (h : ∀ a ∈ reads, ∃ value, a = .got .getBalance key value) :
    generatedIDs reads = [] ∧ storedAccounts reads = [] := by
  constructor <;> apply List.filterMap_eq_nil_iff.mpr <;> intro a ha <;>
    obtain ⟨value, rfl⟩ := h a ha <;> rfl

theorem mem_insert_of_mem {key k : String} {value : String} (h : key ∈ db) :
    k ∈ db.insert key value ↔ k ∈ db := by
  rw [Finmap.mem_insert]
  constructor
  · rintro (rfl | hk)
    · exact h
    · exact hk
  · exact .inr

theorem verdict_mem (P : Platform) (o : Outcomes) (db : AccountDB) (c : Command) (k : String) :
    k ∈ (verdict P o db c).accountDB P c db ↔ k ∈ db := by
  rcases verdict_settles P o db c with hnone | ⟨h1, h2, -⟩
  · cases hv : verdict P o db c with
    | refused | failed => rfl
    | debited | unlogged | applied => rw [hv] at hnone; cases hnone
  · have h2' : ∀ value, c.account2 ∈ db.insert c.account1 value := fun _ => (mem_insert_of_mem h1).mpr h2
    cases verdict P o db c with
    | refused s => rfl
    | failed s e => rfl
    | debited a b n s => exact mem_insert_of_mem h1
    | unlogged a b n => exact (mem_insert_of_mem (h2' _)).trans (mem_insert_of_mem h1)
    | applied a b n => exact (mem_insert_of_mem (h2' _)).trans (mem_insert_of_mem h1)

theorem verdict_keys (P : Platform) (o : Outcomes) (db : AccountDB) (c : Command) :
    ((verdict P o db c).accountDB P c db).keys = db.keys := by
  ext k
  rw [Finmap.mem_keys, Finmap.mem_keys, verdict_mem]

end Toggle

theorem nodup_accountIDs {ns : List Int} (hpos : ∀ n ∈ ns, 0 ≤ n) (hns : ns.Nodup) :
    (ns.map accountID).Nodup :=
  hns.map_on fun m hm n hn heq => accountID_inj (hpos m hm) (hpos n hn) heq

namespace Wallet

/-- `ns` are the numbers drawn.  A seed file that can still be read is not behind
any of them. -/
structure Drawn (ns : List Int) (w : Wallet) : Prop where
  generated : generatedIDs w.history = ns.map accountID
  positive : ∀ n ∈ ns, 0 ≤ n
  nodup : ns.Nodup
  number : ∀ k, w.seedFile.number = some k → 0 ≤ k ∧ ∀ n ∈ ns, n ≤ k

/-- `pending` are identifiers that wait for their `Put`. -/
structure Distinct (ns : List Int) (pending : List String) (w : Wallet) : Prop extends w.Drawn ns where
  owned : (pending ++ storedIDs w.history).Subperm (generatedIDs w.history)
  keys : w.accountDB.keys = (storedIDs w.history).toFinset

section Distinct

variable {ns : List Int} {pending pending' : List String} {w w' : Wallet} {o : SeedOutcomes}
  {id : String} {f : SeedFile}

theorem Drawn.empty : Wallet.empty.Drawn [] where
  generated := rfl
  positive := by simp
  nodup := List.nodup_nil
  number k hk := by
    cases hk
    simp

theorem Drawn.generated_nodup (h : w.Drawn ns) : (generatedIDs w.history).Nodup := by
  rw [h.generated]
  exact nodup_accountIDs h.positive h.nodup

theorem Drawn.same (h : w.Drawn ns)
    (hseed : w'.seedFile.number = w.seedFile.number ∨ w'.seedFile.number = none)
    (hgen : generatedIDs w'.history = generatedIDs w.history) : w'.Drawn ns where
  generated := by rw [hgen, h.generated]
  positive := h.positive
  nodup := h.nodup
  number k hk := by
    rcases hseed with hseed | hseed
    · exact h.number k (hseed.symm.trans hk)
    · cases hseed.symm.trans hk

theorem Drawn.generate (h : w.Drawn ns) (hgen : genAccountID o w.seedFile = (.returned id, f))
    (hw : w' = { w with seedFile := f, history := w.history ++ [.generated id] }) :
    ∃ n, w'.Drawn (ns ++ [n]) := by
  subst hw
  rcases genAccountID_numbers o w.seedFile with ⟨k, hk, hid, hf⟩ | ⟨hno, -⟩
  · rw [hgen] at hid hf
    cases hid
    obtain ⟨hk0, hle⟩ := h.number k hk
    refine ⟨k + 1, ?_, ?_, ?_, ?_⟩
    · rw [generatedIDs_append, h.generated, List.map_append]; rfl
    · intro m hm
      rcases List.mem_append.mp hm with hm | hm
      · exact h.positive m hm
      · rw [List.mem_singleton.mp hm]; omega
    · refine List.nodup_append.mpr ⟨h.nodup, List.nodup_singleton _, ?_⟩
      intro m hm m' hm' heq
      have := hle m hm
      rw [List.mem_singleton] at hm'
      omega
    · intro k' hk'
      rcases hf with hf | hf
      · cases hf.symm.trans hk'
        refine ⟨by omega, fun m hm => ?_⟩
        rcases List.mem_append.mp hm with hm | hm
        · have := hle m hm
          omega
        · rw [List.mem_singleton.mp hm]
      · cases hf.symm.trans hk'
  · rw [hgen] at hno
    exact absurd rfl (hno id)

theorem Distinct.empty : Wallet.empty.Distinct [] [] :=
  ⟨.empty, List.Subperm.refl _, rfl⟩

theorem Distinct.owned_nodup (h : w.Distinct ns pending) : (pending ++ storedIDs w.history).Nodup := by
  obtain ⟨l, hperm, hsub⟩ := h.owned
  exact hperm.nodup_iff.mp (hsub.nodup h.generated_nodup)

theorem Distinct.absent (h : w.Distinct ns pending) (hid : id ∈ pending) : id ∉ w.accountDB := by
  intro hmem
  rw [← Finmap.mem_keys, h.keys, List.mem_toFinset] at hmem
  exact (List.nodup_append.mp h.owned_nodup).2.2 id hid id hmem rfl

theorem Distinct.mem (h : w.Distinct ns pending) {key : String} (hkey : key ∈ w.accountDB) :
    ∃ n ∈ ns, key = accountID n := by
  rw [← Finmap.mem_keys, h.keys, List.mem_toFinset] at hkey
  have hgen := h.owned.subset (List.mem_append_right _ hkey)
  rw [h.generated] at hgen
  obtain ⟨n, hn, rfl⟩ := List.mem_map.mp hgen
  exact ⟨n, hn, rfl⟩

theorem Distinct.same (h : w.Distinct ns pending)
    (hseed : w'.seedFile.number = w.seedFile.number ∨ w'.seedFile.number = none)
    (hgen : generatedIDs w'.history = generatedIDs w.history)
    (hstored : storedAccounts w'.history = storedAccounts w.history)
    (hkeys : w'.accountDB.keys = w.accountDB.keys) (hpending : pending'.Subperm pending) :
    w'.Distinct ns pending' where
  toDrawn := h.toDrawn.same hseed hgen
  owned := by
    rw [hgen, storedIDs, hstored]
    exact ((List.subperm_append_right _).mpr hpending).trans h.owned
  keys := by rw [hkeys, storedIDs, hstored, h.keys, storedIDs]

theorem Distinct.generate (h : w.Distinct ns pending)
    (hgen : genAccountID o w.seedFile = (.returned id, f))
    (hw : w' = { w with seedFile := f, history := w.history ++ [.generated id] }) :
    ∃ ns', w'.Distinct ns' (id :: pending) := by
  obtain ⟨n, hdrawn⟩ := h.toDrawn.generate hgen hw
  subst hw
  have hids : generatedIDs (w.history ++ [.generated id]) = generatedIDs w.history ++ [id] :=
    generatedIDs_append ..
  refine ⟨ns ++ [n], hdrawn, ?_, ?_⟩
  · rw [hids, storedIDs_append, List.cons_append]
    refine List.Subperm.trans ?_ (List.perm_append_singleton _ _).symm.subperm
    exact (List.subperm_cons _).mpr (by simpa [storedIDs, Action.stored?] using h.owned)
  · simpa [storedIDs, Action.stored?] using h.keys

theorem Distinct.store (h : w.Distinct ns (id :: pending)) {text : String}
    (hw : w' = { w with
      accountDB := w.accountDB.insert id text
      status := .OK
      history := w.history ++ [.wrote .createAccount id text] }) : w'.Distinct ns pending := by
  subst hw
  have hids : storedIDs (w.history ++ [.wrote .createAccount id text]) = storedIDs w.history ++ [id] :=
    storedIDs_append ..
  refine ⟨h.toDrawn.same (.inl rfl) (by simp [Action.generated?]), ?_, ?_⟩
  · rw [hids, ← List.append_assoc, generatedIDs_append]
    refine List.Subperm.trans ?_ (by simpa [Action.generated?] using h.owned)
    exact (List.perm_append_singleton _ _).subperm
  · ext key
    have hkeys : key ∈ w.accountDB ↔ key ∈ storedIDs w.history := by
      rw [← Finmap.mem_keys, h.keys, List.mem_toFinset]
    rw [Finmap.mem_keys, Finmap.mem_insert, hkeys, hids, List.mem_toFinset, List.mem_append, or_comm,
      List.mem_singleton]

end Distinct

end Wallet

namespace System

def pending (s : System) : List String := s.threads.filterMap Handler.pendingID

section Distinct

variable {P : Platform} {ns : List Int} {s s' : System}

theorem pending_restart (ts : List Handler) :
    (ts.map Handler.restart).filterMap Handler.pendingID = [] := by
  apply List.filterMap_eq_nil_iff.mpr
  intro t' ht'
  obtain ⟨t, -, rfl⟩ := List.mem_map.mp ht'
  cases t <;> rfl

theorem distinct_step {l : Label} (h : s.shared.Distinct ns s.pending)
    (hstep : System.step P s l = some s') : ∃ ns', s'.shared.Distinct ns' s'.pending := by
  rcases System.step_cases hstep with
    ⟨r, rfl, rfl⟩ | ⟨i, o, before, t, after, t', rfl, -, ht, ht', hmove⟩ | ⟨rfl, rfl⟩
  · refine ⟨ns, h.same (.inl rfl) rfl rfl rfl ?_⟩
    simp only [pending, List.filterMap_append]
    exact (List.append_nil _).symm ▸ List.Subperm.refl _
  · obtain ⟨w', ts'⟩ := s'
    change ts' = _ at ht'
    change Moves _ _ _ _ _ w' at hmove
    -- what the handler had drawn, and what it has now, before what the others have
    have hold := filterMap_split (f := Handler.pendingID) before t after
    have hnew := filterMap_split (f := Handler.pendingID) before t' after
    rw [← ht] at hold
    rw [← ht'] at hnew
    have hpending : t'.pendingID = none → (ts'.filterMap Handler.pendingID).Subperm s.pending := by
      intro hnone
      rw [hnone] at hnew
      exact hnew.subperm.trans ((List.sublist_append_right _ _).subperm.trans hold.symm.subperm)
    change ∃ ns', w'.Distinct ns' (ts'.filterMap Handler.pendingID)
    cases hmove with
    | reply => exact ⟨ns, h.same (.inl rfl) rfl rfl rfl (hpending rfl)⟩
    | look hreads =>
      obtain ⟨hgen, hstored⟩ := reads_accounts hreads
      exact ⟨ns, h.same (.inl rfl) (by simp [hgen]) (by simp [hstored]) rfl (hpending rfl)⟩
    | send hcheck =>
      exact ⟨ns, h.same (.inl rfl) (by simp [Action.generated?]) (by simp [Action.stored?]) rfl
        (hpending rfl)⟩
    | generate hcheck hgen =>
      obtain ⟨ns', hd⟩ := h.generate hgen rfl
      exact ⟨ns', hd.same (.inl rfl) rfl rfl rfl (hnew.trans (hold.symm.cons _)).subperm⟩
    | generateFailed hgen =>
      exact ⟨ns, h.same (number_of_failed hgen (by simp)) rfl rfl rfl (hpending rfl)⟩
    | generateStopped hgen =>
      exact ⟨ns, h.same (number_of_failed hgen (by simp)) rfl rfl rfl (hpending rfl)⟩
    | store =>
      have hd := h.same (.inl rfl) rfl rfl rfl hold.symm.subperm
      exact ⟨ns, (hd.store rfl).same (.inl rfl) rfl rfl rfl hnew.subperm⟩
    | storeFailed hf => exact ⟨ns, h.same (.inl rfl) rfl rfl rfl (hpending rfl)⟩
    | @toggle own c q trail _ _ _ _ htrail =>
      obtain ⟨hgen, hstored⟩ := htrail.toggle_accounts
      refine ⟨ns, h.same (.inl rfl) ?_ ?_ (verdict_keys P _ _ c) (hpending ?_)⟩
      · rw [Verdict.wallet, generatedIDs_append, hgen, List.append_nil]
      · rw [Verdict.wallet, storedAccounts_append, hstored, List.append_nil]
      · cases verdict P o s.shared.accountDB c <;> rfl
  · refine ⟨ns, h.same (.inl rfl) rfl rfl rfl ?_⟩
    rw [pending, pending_restart]
    exact List.nil_subperm

theorem distinct_of_reachable (h : Reachable (System.step P) (System.init .empty) s) :
    ∃ ns, s.shared.Distinct ns s.pending := by
  refine h.invariant (I := fun s => ∃ ns, s.shared.Distinct ns s.pending) ?_ ⟨[], ?_⟩
  · rintro s l s' ⟨ns, hd⟩ hstep
    exact distinct_step hd hstep
  · exact Wallet.Distinct.empty

end Distinct

end System

theorem Moves.stored {P : Platform} {o : Outcomes} {t t' : Handler} {w w' : Wallet}
    (h : Moves P o t w t' w') :
    storedAccounts w'.history = storedAccounts w.history ∨
      ∃ id n, t = .generated id n ∧
        storedAccounts w'.history = storedAccounts w.history ++ [(id, Cpp.toString n)] := by
  cases h with
  | look hreads => exact .inl (by simp [(reads_accounts hreads).2])
  | send => exact .inl (by simp [Action.stored?])
  | generate => exact .inl (by simp [Action.stored?])
  | @store id n => exact .inr ⟨id, n, rfl, by simp [Action.stored?]⟩
  | toggle _ _ _ htrail =>
    refine .inl ?_
    rw [Verdict.wallet, storedAccounts_append, htrail.toggle_accounts.2, List.append_nil]
  | _ => exact .inl rfl

theorem System.step_stores {P : Platform} {s s' : System} {l : Label} {new : List Action}
    {id text : String} (hstep : System.step P s l = some s')
    (hnew : s'.shared.history = s.shared.history ++ new)
    (hmem : .wrote .createAccount id text ∈ new) : ∃ n, .generated id n ∈ s.threads := by
  have hid : (id, text) ∈ storedAccounts new := List.mem_filterMap.mpr ⟨_, hmem, rfl⟩
  rcases System.step_cases hstep with
    ⟨r, rfl, rfl⟩ | ⟨i, o, before, t, after, t', rfl, -, ht, -, hmove⟩ | ⟨rfl, rfl⟩
  · cases List.self_eq_append_right.mp hnew
    cases hmem
  · rcases hmove.stored with hsame | ⟨id', n, rfl, hstored⟩
    · rw [hnew, storedAccounts_append] at hsame
      rw [List.self_eq_append_right.mp hsame.symm] at hid
      cases hid
    · rw [hnew, storedAccounts_append, List.append_cancel_left_eq] at hstored
      rw [hstored, List.mem_singleton] at hid
      cases hid
      exact ⟨n, by simp [ht]⟩
  · cases List.self_eq_append_right.mp hnew
    cases hmem

/-- In every run of whole toggles from the empty wallet, restarts and failures
included: no identifier is drawn twice, a `create_account` writes an absent key,
and the keys are the identifiers stored so far. -/
theorem account_ids_fresh (P : Platform) {ls : List Label} {s : System}
    (hrun : run (System.step P) (System.init .empty) ls = some s) :
    (generatedIDs s.shared.history).Nodup ∧
      (∀ l s' new id text, System.step P s l = some s' →
        s'.shared.history = s.shared.history ++ new → .wrote .createAccount id text ∈ new →
        id ∉ s.shared.accountDB) ∧
      s.shared.accountDB.keys = (storedIDs s.shared.history).toFinset ∧
      (∀ i own o s', s.threads[i]? = some (.sent own) → System.step P s (.advance i o) = some s' →
        s'.shared.accountDB.keys = s.shared.accountDB.keys) := by
  obtain ⟨ns, hd⟩ := System.distinct_of_reachable ⟨ls, hrun⟩
  refine ⟨hd.generated_nodup, ?_, hd.keys, ?_⟩
  · intro l s' new id text hstep hnew hmem
    obtain ⟨n, ht⟩ := System.step_stores hstep hnew hmem
    exact hd.absent (List.mem_filterMap.mpr ⟨_, ht, rfl⟩)
  · intro i own o s' hi hstep
    rcases System.step_cases hstep with
      ⟨r, hl, -⟩ | ⟨i', o', before, t, after, t', hl, hi', -, -, hmove⟩ | ⟨hl, -⟩
    · cases hl
    · cases hl
      cases hi.symm.trans hi'
      obtain ⟨w', ts'⟩ := s'
      change Moves _ _ _ _ _ w' at hmove
      cases hmove with
      | toggle => exact verdict_keys P _ _ _
    · cases hl

def restartRun : List Label :=
  [.arrive (.createAccount (some "5")), .arrive (.createAccount (some "6")),
    .advance 1 .succeed, .advance 0 .succeed, .restart,
    .arrive (.createAccount (some "100")), .arrive (.createAccount (some "50")),
    .advance 2 .succeed, .advance 3 .succeed, .advance 3 .succeed, .advance 2 .succeed,
    .arrive (.balanceTransfer (some "700000003") (some "700000004") (some "30") "tx-1"),
    .advance 4 .succeed, .advance 4 .succeed]

def restartState : System :=
  (run (System.step (.int32 fun _ => "")) (System.init .empty) restartRun).getD (System.init .empty)

theorem account_ids_fresh_example :
    (generatedIDs restartState.shared.history).Nodup ∧
      generatedIDs restartState.shared.history =
        ["700000001", "700000002", "700000003", "700000004"] ∧
      restartState.shared.accountDB.keys = (storedIDs restartState.shared.history).toFinset := by
  have hrun : run (System.step (.int32 fun _ => "")) (System.init .empty) restartRun =
      some restartState := by decide +kernel
  obtain ⟨hnodup, -, hkeys, -⟩ := account_ids_fresh (.int32 fun _ => "") hrun
  exact ⟨hnodup, by decide +kernel, hkeys⟩

end DigitalWallet

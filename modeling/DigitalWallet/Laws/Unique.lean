import DigitalWallet.Laws.Server

namespace DigitalWallet

open Lib

def Seen.pending (ts : List (Thread × Seen)) : List String := ts.filterMap fun x => x.2.drawn

theorem insert_keys {db : AccountDB} {key text : String} (h : key ∈ db) :
    (db.insert key text).keys = db.keys := by
  ext k
  rw [Finmap.mem_keys, Finmap.mem_keys, mem_insert_of_mem h]

namespace Passes

variable {P : Platform} {V : Int → Prop} {own : Request → Bool} {w w' : Wallet} {a : Act}
  {ts ts' : List (Thread × Seen)} {ns : List Int}

theorem drawn_numbers (h : Passes P V own w a ts w' ts') (hw : w.Drawn ns) : ∃ ns', w'.Drawn ns' := by
  cases h with
  | arrive r => exact ⟨ns, hw⟩
  | operate i o _ _ heffect => exact heffect.drawn_numbers hw
  | kill log => exact ⟨ns, hw.same (.inl rfl) rfl⟩

theorem distinct (htransfers : ∀ r : Request, r.transfers = true → own r = true)
    (h : Passes P V own w a ts w' ts') (hd : w.Distinct ns (Seen.pending ts)) :
    ∃ ns', w'.Distinct ns' (Seen.pending ts') := by
  cases h with
  | arrive r => exact ⟨ns, by simpa [Seen.pending] using hd⟩
  | @operate before after t t' seen op r _ i o hseen hallows heffect =>
    have hold := filterMap_split (f := fun x : Thread × Seen => x.2.drawn) before (t, seen) after
    have hnew := filterMap_split (f := fun x : Thread × Seen => x.2.drawn) before
      (t', seen.next op r) after
    have hsame : (seen.next op r).drawn = seen.drawn ∨ (seen.next op r).drawn = none →
        (Seen.pending (before ++ (t', seen.next op r) :: after)).Subperm
          (Seen.pending (before ++ (t, seen) :: after)) := by
      rintro (hdrawn | hdrawn)
      · rw [hdrawn] at hnew
        exact (hnew.trans hold.symm).subperm
      · rw [hdrawn] at hnew
        exact hnew.subperm.trans ((List.sublist_append_right _ _).subperm.trans hold.symm.subperm)
    cases heffect with
    | put call key value =>
      by_cases hcall : call = .createAccount
      · subst hcall
        have hdrawn : seen.drawn = some key := hallows.2
        rw [hdrawn] at hold
        exact ⟨ns, ((hd.same (.inl rfl) rfl rfl rfl hold.symm.subperm).store rfl).same (.inl rfl) rfl rfl rfl
          hnew.subperm⟩
      · obtain ⟨htransfer, hfound⟩ : seen.request.transfers = true ∧ key ∈ seen.found := by
          simpa [Seen.Allows, hcall] using hallows.2
        have hmem := hseen.holds.found (htransfers _ htransfer) key hfound
        refine ⟨ns, hd.same (.inl rfl) (by simp [Action.generated?]) ?_ (insert_keys hmem) (hsame ?_)⟩
        · cases call <;> simp [Action.stored?] at hcall ⊢
        · simp [Seen.next, hcall]
    | append => exact ⟨ns, hd.same (.inl rfl) rfl rfl rfl (hsame (.inl rfl))⟩
    | receive =>
      exact ⟨ns, hd.same (.inl rfl) (by simp [Action.generated?]) (by simp [Action.stored?]) rfl
        (hsame (.inl rfl))⟩
    | send =>
      exact ⟨ns, hd.same (.inl rfl) (by simp [Action.generated?]) (by simp [Action.stored?]) rfl
        (hsame (.inl rfl))⟩
    | generate id f hgen =>
      have hdrawn : seen.drawn = none := hallows
      rw [hdrawn] at hold
      obtain ⟨ns', hd'⟩ := hd.generate hgen rfl
      exact ⟨ns', hd'.same (.inl rfl) rfl rfl rfl (hnew.trans (hold.symm.cons _)).subperm⟩
    | other hdb _ _ _ hseed hgen hstored hdrawn =>
      exact ⟨ns, hd.same hseed hgen hstored (by rw [hdb]) (hsame (hdrawn seen))⟩
  | kill log => exact ⟨ns, hd.same (.inl rfl) rfl rfl rfl (List.nil_subperm)⟩

theorem stores (h : Passes P V own w a ts w' ts') {new : List Action} {id text : String}
    (hnew : w'.history = w.history ++ new) (hmem : .wrote .createAccount id text ∈ new) :
    id ∈ Seen.pending ts := by
  have hid : (id, text) ∈ storedAccounts new := List.mem_filterMap.mpr ⟨_, hmem, rfl⟩
  have hquiet : storedAccounts w'.history = storedAccounts w.history → False := by
    intro hsame
    rw [hnew, storedAccounts_append] at hsame
    rw [List.self_eq_append_right.mp hsame.symm] at hid
    cases hid
  cases h with
  | arrive r => exact (hquiet rfl).elim
  | operate i o hseen hallows heffect =>
    cases heffect with
    | put call key value =>
      obtain rfl : [.wrote call key value] = new := List.append_cancel_left hnew
      cases List.mem_singleton.mp hmem
      exact List.mem_filterMap.mpr ⟨_, List.mem_append_right _ List.mem_cons_self, hallows.2⟩
    | append => exact (hquiet rfl).elim
    | receive => exact (hquiet (by simp [Action.stored?])).elim
    | send => exact (hquiet (by simp [Action.stored?])).elim
    | generate => exact (hquiet (by simp [Action.stored?])).elim
    | other _ _ _ _ _ _ hstored => exact (hquiet hstored).elim
  | kill log => exact (hquiet rfl).elim

end Passes

namespace Threads

variable {P : Platform} {V : Int → Prop} {own : Request → Bool} {s s' : Threads} {as : List Act}

theorem Served.forget {ts : List (Thread × Seen)} (h : Threads.Served P V own s ts) :
    Threads.Served P V (fun _ => false) s ts where
  threads := h.threads
  handlers x hx := by
    obtain ⟨hrequest, hfollows, hholds⟩ := h.handlers x hx
    exact ⟨hrequest, hfollows, by simp, hholds.asked, hholds.received, hholds.command⟩
  texts := h.texts
  queue := h.queue

theorem testsOwn_none (a : Act) (s : Threads) : a.TestsOwn (fun _ => false) s := by
  cases a <;> simp [Act.TestsOwn]

theorem served_of_run (hV : P.Holds V) (hrun : run (Threads.act P) (Threads.init P .empty []) as = some s) :
    (∃ ts, Threads.Served P V (fun _ => false) s ts) ∧ ∃ ns, s.shared.Drawn ns := by
  refine run_invariant (I := fun s => (∃ ts, Threads.Served P V (fun _ => false) s ts) ∧
    ∃ ns, s.shared.Drawn ns) (C := fun _ _ => True) ?_ ⟨⟨[], .init⟩, [], Wallet.Drawn.empty⟩
    (Meets.of_forall (fun _ _ _ => trivial) _) hrun
  rintro s a s' ⟨⟨ts, h⟩, ns, hw⟩ - hact
  obtain ⟨ts', h', hpasses⟩ := h.act hV (testsOwn_none a s) hact
  exact ⟨⟨ts', h'⟩, hpasses.drawn_numbers hw⟩

theorem distinct_of_run (hV : P.Holds V) (htransfers : ∀ r : Request, r.transfers = true → own r = true)
    (hown : Meets (Threads.act P) (fun s a => a.TestsOwn own s) (Threads.init P .empty []) as)
    (hrun : run (Threads.act P) (Threads.init P .empty []) as = some s) :
    ∃ ts ns, Threads.Served P V own s ts ∧ s.shared.Distinct ns (Seen.pending ts) := by
  refine run_invariant (I := fun s => ∃ ts ns, Threads.Served P V own s ts ∧
    s.shared.Distinct ns (Seen.pending ts)) ?_ ⟨[], [], .init, Wallet.Distinct.empty⟩ hown hrun
  rintro s a s' ⟨ts, ns, h, hd⟩ hown hact
  obtain ⟨ts', h', hpasses⟩ := h.act hV hown hact
  obtain ⟨ns', hd'⟩ := hpasses.distinct htransfers hd
  exact ⟨ts', ns', h', hd'⟩

end Threads

/-- Whatever fails, however the handlers interleave and wherever the process is
killed, no identifier is drawn twice.  Where the tests of `service._status` by
transfers see their own statuses, the `Put` of a `create_account` never
overwrites an account, and every account has an identifier that was drawn. -/
theorem account_ids_unique (P : Platform) {as : List Act} {s : Threads}
    (hrun : run (Threads.act P) (Threads.init P .empty []) as = some s) :
    (generatedIDs s.shared.history).Nodup ∧
      (Meets (Threads.act P) (fun s a => a.TestsOwn Request.transfers s) (Threads.init P .empty []) as →
        (∀ a s' new id text, Threads.act P s a = some s' →
          s'.shared.history = s.shared.history ++ new → .wrote .createAccount id text ∈ new →
          id ∉ s.shared.accountDB) ∧
        ∀ key ∈ s.shared.accountDB, key ∈ generatedIDs s.shared.history) := by
  have hV : P.Holds fun _ => True := ⟨fun _ => trivial, fun _ _ => trivial⟩
  obtain ⟨-, ns, hdrawn⟩ := Threads.served_of_run hV hrun
  refine ⟨hdrawn.generated_nodup, fun hown => ?_⟩
  obtain ⟨ts, ns, hserved, hd⟩ := Threads.distinct_of_run hV (fun _ h => h) hown hrun
  refine ⟨?_, ?_⟩
  · intro a s' new id text hact hnew hmem
    obtain ⟨ts', -, hpasses⟩ := hserved.forget.act hV (Threads.testsOwn_none a s) hact
    exact hd.absent (hpasses.stores hnew hmem)
  · intro key hkey
    obtain ⟨n, hn, rfl⟩ := hd.mem hkey
    rw [hd.generated]
    exact List.mem_map_of_mem hn

def operations (i n : Nat) : List Act := List.replicate n (.operate i .succeed)

def lossyRun : List Act :=
  [.arrive (.createAccount (some "5")),
    .operate 0 { Outcomes.succeed with seed := { update := .lost } }] ++ operations 0 2 ++
    [.arrive (.createAccount (some "6")), .operate 1 .succeed, .kill none,
      .arrive (.getBalance (some "700000001"))] ++ operations 0 3

theorem account_ids_unique_example :
    ∃ s, run (Threads.act (.int32 fun _ => "")) (Threads.init (.int32 fun _ => "") .empty []) lossyRun =
        some s ∧ (generatedIDs s.shared.history).Nodup ∧
      ∀ key ∈ s.shared.accountDB, key ∈ generatedIDs s.shared.history := by
  have hrun : (run (Threads.act (.int32 fun _ => "")) (Threads.init (.int32 fun _ => "") .empty [])
      lossyRun).isSome = true := by decide +kernel
  obtain ⟨s, hs⟩ := Option.isSome_iff_exists.mp hrun
  obtain ⟨hnodup, hkeys⟩ := account_ids_unique (.int32 fun _ => "") hs
  exact ⟨s, hs, hnodup, (hkeys (by decide +kernel)).2⟩

-- a transfer to no account, whose tests find what two `get_balance` calls in
-- between have left
def strayRun : List Act :=
  [.arrive (.createAccount (some "100"))] ++ operations 0 3 ++
    [.arrive (.balanceTransfer (some "700000001") (some "nobody") (some "3") "tx-1"),
      .arrive (.getBalance (some "700000001")), .arrive (.getBalance (some "700000001"))] ++
    operations 1 7 ++ operations 2 1 ++ operations 1 8 ++ operations 3 1 ++ operations 1 4

-- the condition on the tests cannot be left out
example : (run (Threads.act (.int32 fun _ => "")) (Threads.init (.int32 fun _ => "") .empty [])
    strayRun).map (fun s => s.shared.accountDB.lookup "nobody") = some (some "103") := by
  decide +kernel

end DigitalWallet

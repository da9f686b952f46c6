import DigitalWallet.Laws.Moves

namespace DigitalWallet

open Lib

def Texts (V : Int → Prop) (db : AccountDB) : Prop :=
  ∀ key text, db.lookup key = some text → ∃ n, V n ∧ text = Cpp.toString n

def value (text : String) : Int := (Cpp.strtol text).getD 0

@[simp] theorem value_toString (n : Int) : value (Cpp.toString n) = n := by
  simp [value]

def Accepted (P : Platform) (c : Command) : Prop :=
  ∃ n, 0 < n ∧ P.fits n = true ∧ c.amount = Cpp.toString n ∧ c.action = "TRANSFER"

/-- The numbers that additions, subtractions and `std::stoi` can yield. -/
structure Platform.Holds (P : Platform) (V : Int → Prop) : Prop where
  arith : ∀ n, V (P.arith n)
  fits : ∀ n, P.fits n = true → V n

theorem fits32_iff {n : Int} : fits32 n = true ↔ -2 ^ 31 ≤ n ∧ n < 2 ^ 31 := by
  simp [fits32]

theorem Platform.int32_holds (text : Status → String) :
    (Platform.int32 text).Holds (fun n => fits32 n = true) where
  arith n := by
    have := Int.bmod_lt (x := n) (m := 2 ^ 32) (by decide)
    have := Int.le_bmod (x := n) (m := 2 ^ 32) (by decide)
    change fits32 (n.bmod (2 ^ 32)) = true
    rw [fits32_iff]
    omega
  fits _ h := h

theorem Platform.exact_holds (fits : Int → Bool) (text : Status → String) :
    (Platform.exact fits text).Holds (fun _ => True) where
  arith _ := trivial
  fits _ _ := trivial

section Texts

variable {P : Platform} {V : Int → Prop} {db : AccountDB} {c : Command}

theorem Texts.empty : Texts V ∅ := by
  intro key text h
  simp at h

theorem Texts.insert (h : Texts V db) (key : String) {n : Int} (hn : V n) :
    Texts V (db.insert key (Cpp.toString n)) := by
  intro k text hk
  by_cases heq : k = key
  · subst heq
    rw [Finmap.lookup_insert] at hk
    cases hk
    exact ⟨n, hn, rfl⟩
  · rw [Finmap.lookup_insert_of_ne _ heq] at hk
    exact h k text hk

theorem Texts.verdict (hP : P.Holds V) (h : Texts V db) (v : Verdict) :
    Texts V (v.accountDB P c db) := by
  cases v with
  | refused s => exact h
  | failed s e => exact h
  | debited a b n s => exact h.insert _ (hP.arith _)
  | unlogged a b n => exact (h.insert _ (hP.arith _)).insert _ (hP.arith _)
  | applied a b n => exact (h.insert _ (hP.arith _)).insert _ (hP.arith _)

end Texts

section Requests

variable {P : Platform}

theorem fits_of_stoi {s : String} {n : Int} (h : Cpp.stoi P.fits s = .ok n) : P.fits n = true :=
  (Cpp.stoi_ok_iff.mp h).2

theorem checkStartAmount_ok {s : Option String} {n : Int} (h : checkStartAmount P s = .ok n) :
    0 ≤ n ∧ P.fits n = true := by
  unfold checkStartAmount at h
  split at h
  · cases h
  · split at h
    · cases h
    · next hs =>
      split at h
      · cases h
      · cases h
        exact ⟨by omega, fits_of_stoi hs⟩

theorem checkTransfer_ok {fromAccount toAccount amount : Option String} {txId : String} {c : Command}
    (h : checkTransfer P fromAccount toAccount amount txId = .ok c) : Accepted P c := by
  unfold checkTransfer at h
  split at h
  · split at h
    · cases h
    · next n hs =>
      split at h
      · cases h
      · cases h
        exact ⟨n, by omega, fits_of_stoi hs, rfl, rfl⟩
  · cases h

end Requests

structure Funded (db : AccountDB) (c : Command) (a b n : Int) : Prop where
  sender : db.lookup c.account1 = some (Cpp.toString a)
  receiver : db.lookup c.account2 = some (Cpp.toString b)
  amount : c.amount = Cpp.toString n
  enough : n ≤ a

theorem Funded.balances_eq {db : AccountDB} {c : Command} {a b n : Int} (h : Funded db c a b n)
    (heq : c.account1 = c.account2) : a = b :=
  Cpp.toString_injective (Option.some.inj (h.sender.symm.trans (heq ▸ h.receiver)))

structure Outcomes.ReadsClear (o : Outcomes) : Prop where
  validateReceiver : o.db .validateReceiver = none
  validateSender : o.db .validateSender = none
  readSender : o.db .readSender = none
  readReceiver : o.db .readReceiver = none

theorem Outcomes.succeed_readsClear : Outcomes.succeed.ReadsClear := ⟨rfl, rfl, rfl, rfl⟩

section Verdict

variable {P : Platform} {o : Outcomes} {V : Int → Prop} {db : AccountDB} {c : Command}

theorem clear_of_readAt {call : Call} {key value : String} (h : readAt o db call key = .ok value) :
    o.db call = none := by
  unfold readAt at h
  split at h
  · cases h
  · next hf => exact hf

theorem readAt_of_lookup {call : Call} {key value : String} (ho : o.db call = none)
    (h : db.lookup key = some value) : readAt o db call key = .ok value := by
  simp [readAt, ho, h]

theorem verdict_of_funded {a b n : Int} (hf : Funded db c a b n) (hc : Accepted P c)
    (ha : P.fits a = true) (hb : P.fits b = true) (ho : o.ReadsClear) :
    verdict P o db c = settlement o a b n := by
  obtain ⟨m, -, hm, hamount, haction⟩ := hc
  obtain rfl : m = n := Cpp.toString_injective (hamount.symm.trans hf.amount)
  have hlow : ¬ a < m := not_lt.mpr hf.enough
  simp [verdict, validation, application, readAt_of_lookup ho.validateReceiver hf.receiver,
    readAt_of_lookup ho.validateSender hf.sender, readAt_of_lookup ho.readSender hf.sender,
    readAt_of_lookup ho.readReceiver hf.receiver, hamount, haction, ha, hb, hm, hlow]

theorem verdict_split (ht : Texts V db) (hc : Accepted P c) :
    (∃ s, verdict P o db c = .refused s) ∨
    (∃ s e key n, verdict P o db c = .failed s e ∧ db.lookup key = some (Cpp.toString n) ∧
      P.fits n = false) ∨
      ∃ a b n, Funded db c a b n ∧ P.fits a = true ∧ P.fits b = true ∧ 0 < n ∧ P.fits n = true ∧
        o.ReadsClear ∧ o.db .debit = none ∧ verdict P o db c = settlement o a b n := by
  obtain ⟨n, hpos, hn, hamount, haction⟩ := hc
  have hstoi : Cpp.stoi P.fits c.amount = .ok n := by simp [hamount, hn]
  unfold verdict validation
  cases hB : readAt o db .validateReceiver c.account2 with
  | error f => exact .inl ⟨_, rfl⟩
  | ok sB =>
    cases hA : readAt o db .validateSender c.account1 with
    | error f => exact .inl ⟨_, rfl⟩
    | ok sA =>
      have hlA := lookup_of_readAt hA
      have hlB := lookup_of_readAt hB
      obtain ⟨a, -, rfl⟩ := ht _ _ hlA
      obtain ⟨b, -, rfl⟩ := ht _ _ hlB
      cases ha : P.fits a with
      | false => exact .inr (.inl ⟨.validate, .outOfRange, _, a, by simp [ha], hlA, ha⟩)
      | true =>
        by_cases hlow : a < n
        · exact .inl ⟨.OK, by simp [ha, hstoi, hlow]⟩
        · simp only [Cpp.stoi_toString, ha, hstoi, hlow, haction, if_true, if_false, Option.getD_none]
          unfold application
          cases hA' : readAt o db .readSender c.account1 with
          | error f => exact .inl ⟨_, rfl⟩
          | ok sA' =>
            cases hlA.symm.trans (lookup_of_readAt hA')
            cases hB' : readAt o db .readReceiver c.account2 with
            | error f => exact .inl ⟨f.val, by simp [ha]⟩
            | ok sB' =>
              cases hlB.symm.trans (lookup_of_readAt hB')
              cases hb : P.fits b with
              | false => exact .inr (.inl ⟨.apply, .outOfRange, _, b, by simp [ha, hb], hlB, hb⟩)
              | true =>
                simp only [Cpp.stoi_toString, ha, hb, hstoi, if_true]
                cases hd : o.db .debit with
                | some f => exact .inl ⟨f.val, by simp [settlement, hd]⟩
                | none =>
                  exact .inr (.inr ⟨a, b, n, ⟨hlA, hlB, hamount, by omega⟩, ha, hb, hpos, hn,
                    ⟨clear_of_readAt hB, clear_of_readAt hA, clear_of_readAt hA', clear_of_readAt hB'⟩,
                    rfl, rfl⟩)

theorem verdict_cases (hV : ∀ n, V n → P.fits n = true) (ht : Texts V db) (hc : Accepted P c) :
    (∃ s, verdict P o db c = .refused s) ∨
      ∃ a b n, Funded db c a b n ∧ 0 < n ∧ o.ReadsClear ∧ o.db .debit = none ∧
        verdict P o db c = settlement o a b n := by
  obtain h | ⟨s, e, key, n, -, hkey, hn⟩ | ⟨a, b, n, hf, -, -, hpos, -, hclear, hd, hv⟩ :=
    verdict_split (o := o) ht hc
  · exact .inl h
  · obtain ⟨n', hV', heq⟩ := ht _ _ hkey
    obtain rfl := Cpp.toString_injective heq
    rw [hV n hV'] at hn
    cases hn
  · exact .inr ⟨a, b, n, hf, hpos, hclear, hd, hv⟩

theorem verdict_succeed (hV : ∀ n, V n → P.fits n = true) (ht : Texts V db) (hc : Accepted P c) :
    (∃ s, validation P .succeed db c = some (.refused s) ∧ verdict P .succeed db c = .refused s ∧
      ¬ ∃ a b n, Funded db c a b n) ∨
      ∃ a b n, Funded db c a b n ∧ 0 < n ∧ P.fits n = true ∧ validation P .succeed db c = none ∧
        verdict P .succeed db c = .applied a b n := by
  obtain ⟨n, hpos, hn, hamount, haction⟩ := hc
  have hstoi : Cpp.stoi P.fits c.amount = .ok n := by simp [hamount, hn]
  cases hB : db.lookup c.account2 with
  | none =>
    refine .inl ⟨.NotFound, ?_, ?_, ?_⟩
    · simp [validation, readAt, Outcomes.succeed, hB]
    · simp [verdict, validation, readAt, Outcomes.succeed, hB]
    · rintro ⟨a, b, n, hf⟩
      cases hB.symm.trans hf.receiver
  | some sB =>
    cases hA : db.lookup c.account1 with
    | none =>
      refine .inl ⟨.NotFound, ?_, ?_, ?_⟩
      · simp [validation, readAt, Outcomes.succeed, hB, hA]
      · simp [verdict, validation, readAt, Outcomes.succeed, hB, hA]
      · rintro ⟨a, b, n, hf⟩
        cases hA.symm.trans hf.sender
    | some sA =>
      obtain ⟨a, ha, rfl⟩ := ht _ _ hA
      obtain ⟨b, hb, rfl⟩ := ht _ _ hB
      have hfa := hV a ha
      have hfb := hV b hb
      by_cases hlow : a < n
      · refine .inl ⟨.OK, ?_, ?_, ?_⟩
        · simp [validation, readAt, Outcomes.succeed, hB, hA, hstoi, hfa, hlow]
        · simp [verdict, validation, readAt, Outcomes.succeed, hB, hA, hstoi, hfa, hlow]
        · rintro ⟨a', b', n', hf⟩
          obtain rfl := Cpp.toString_injective (Option.some.inj (hA.symm.trans hf.sender))
          obtain rfl := Cpp.toString_injective (hamount.symm.trans hf.amount)
          exact absurd hf.enough (by omega)
      · have hf : Funded db c a b n := ⟨hA, hB, hamount, by omega⟩
        refine .inr ⟨a, b, n, hf, hpos, hn, ?_, ?_⟩
        · simp [validation, readAt, Outcomes.succeed, hB, hA, hstoi, hfa, hlow, haction]
        · exact verdict_of_funded hf ⟨n, hpos, hn, hamount, haction⟩ hfa hfb
            Outcomes.succeed_readsClear

end Verdict

def Label.Succeeds : Label → Prop
  | .advance _ o => o = .succeed
  | _ => True

def Handler.Sane (P : Platform) : Handler → Prop
  | .sent c => Accepted P c
  | .generated _ n => 0 ≤ n ∧ P.fits n = true
  | _ => True

namespace System

structure Sane (P : Platform) (V : Int → Prop) (s : System) : Prop where
  texts : Texts V s.shared.accountDB
  queue : ∀ c ∈ s.shared.commandQueue.messages, Accepted P c
  lock : s.shared.cvM = false
  handlers : ∀ h ∈ s.threads, h.Sane P

/-- The inversion lemma of one step of the server. -/
theorem step_cases {P : Platform} {s s' : System} {l : Label} (h : step P s l = some s') :
    (∃ r, l = .arrive r ∧ s' = ⟨s.shared, s.threads ++ [.arrived r]⟩) ∨
    (∃ i o before t after t', l = .advance i o ∧ s.threads[i]? = some t ∧
      s.threads = before ++ t :: after ∧ s'.threads = before ++ t' :: after ∧ Moves P o t s.shared t' s'.shared) ∨
    (l = .restart ∧ s' = ⟨.start s.shared.accountDB s.shared.eventLog s.shared.seedFile
      s.shared.history, s.threads.map Handler.restart⟩) := by
  cases l with
  | arrive r =>
    simp only [step] at h
    split at h
    · cases h
    · cases h; exact .inl ⟨r, rfl, rfl⟩
  | advance i o =>
    simp only [step] at h
    split at h
    · cases h
    · obtain ⟨before, t, after, t', hi, ht, ht', hact⟩ := Pool.advance_cases h
      exact .inr (.inl ⟨i, o, before, t, after, t', rfl, hi, ht, ht', Moves.of_advance hact⟩)
  | restart => cases h; exact .inr (.inr ⟨rfl, rfl⟩)

end System

theorem Moves.sane {P : Platform} {V : Int → Prop} (hP : P.Holds V) {o : Outcomes} {t t' : Handler}
    {w w' : Wallet} (h : Moves P o t w t' w') (ht : Texts V w.accountDB)
    (hq : ∀ c ∈ w.commandQueue.messages, Accepted P c) (hl : w.cvM = false) (hs : t.Sane P) :
    Texts V w'.accountDB ∧ (∀ c ∈ w'.commandQueue.messages, Accepted P c) ∧ w'.cvM = false ∧
      t'.Sane P := by
  cases h with
  | reply => exact ⟨ht, hq, hl, trivial⟩
  | look => exact ⟨ht, hq, hl, trivial⟩
  | send hcheck =>
    refine ⟨ht, ?_, hl, checkTransfer_ok hcheck⟩
    intro c hc
    rcases List.mem_append.mp hc with hc | hc
    · exact hq c hc
    · rw [List.mem_singleton.mp hc]; exact checkTransfer_ok hcheck
  | generate hcheck => exact ⟨ht, hq, hl, checkStartAmount_ok hcheck⟩
  | generateFailed => exact ⟨ht, hq, hl, trivial⟩
  | generateStopped => exact ⟨ht, hq, hl, trivial⟩
  | store => exact ⟨ht.insert _ (hP.fits _ hs.2), hq, hl, trivial⟩
  | storeFailed => exact ⟨ht, hq, hl, trivial⟩
  | @toggle own c q trail _ _ _ hqueue _ =>
    refine ⟨ht.verdict hP _, ?_, hl, ?_⟩
    · intro c' hc'
      exact hq c' (by rw [hqueue]; exact List.mem_append_left _ hc')
    · cases verdict P o w.accountDB c <;> trivial

theorem System.Sane.step {P : Platform} {V : Int → Prop} (hP : P.Holds V) {s s' : System} {l : Label}
    (hs : s.Sane P V) (h : System.step P s l = some s') : s'.Sane P V := by
  rcases System.step_cases h with
    ⟨r, rfl, rfl⟩ | ⟨i, o, before, t, after, t', rfl, -, ht, ht', hmove⟩ | ⟨rfl, rfl⟩
  · refine ⟨hs.texts, hs.queue, hs.lock, ?_⟩
    intro h hh
    rcases List.mem_append.mp hh with hh | hh
    · exact hs.handlers h hh
    · rw [List.mem_singleton.mp hh]; trivial
  · obtain ⟨htexts, hqueue, hlock, hsane⟩ :=
      hmove.sane hP hs.texts hs.queue hs.lock (hs.handlers t (by simp [ht]))
    refine ⟨htexts, hqueue, hlock, ?_⟩
    rw [ht']
    exact forall_mem_replace (ht ▸ hs.handlers) hsane
  · refine ⟨hs.texts, by simp [Wallet.start], rfl, ?_⟩
    intro h hh
    obtain ⟨t, -, rfl⟩ := List.mem_map.mp hh
    cases t <;> trivial

theorem System.Sane.init {P : Platform} {V : Int → Prop} : (System.init .empty).Sane P V where
  texts := Texts.empty
  queue := by simp [System.init, Wallet.empty, Wallet.start]
  lock := rfl
  handlers := by simp [System.init]

theorem System.Sane.of_reachable {P : Platform} {V : Int → Prop} (hP : P.Holds V) {s : System}
    (h : Reachable (System.step P) (System.init .empty) s) : s.Sane P V :=
  h.invariant (fun hs hstep => hs.step hP hstep) .init

end DigitalWallet

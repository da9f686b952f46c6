import DigitalWallet.Defs.Server
import DigitalWallet.Laws.Paths
import DigitalWallet.Laws.Serve

namespace DigitalWallet

open Lib

inductive Effect (o : Outcomes) (w : Wallet) : (op : Op) → op.Ret → Wallet → Prop
  | put (call : Call) (key value : String) :
    Effect o w (.put call key value) () { w with
      accountDB := w.accountDB.insert key value
      status := .OK
      history := w.history ++ [.wrote call key value] }
  | append (eventA eventB : Event) : Effect o w (.append eventA eventB) true
      { w with eventLog := w.eventLog ++ [.header, .event eventA, .event eventB] }
  | receive (c : Command) (q : MessageQueue Command) (hq : w.commandQueue = q.send c) :
    Effect o w .receive () { w with
      commandQueue := q
      commandToProcess := c
      history := w.history ++ [.received c] }
  | send (c : Command) :
    Effect o w (.send c) () { w with
      commandQueue := w.commandQueue.send c
      history := w.history ++ [.sent c] }
  | generate (id : String) (f : SeedFile) (hgen : genAccountID o.seed w.seedFile = (.returned id, f)) :
    Effect o w .genAccountID (.ok id) { w with
      seedFile := f
      history := w.history ++ [.generated id] }
  | other {op : Op} {r : op.Ret} {w' : Wallet} (accountDB : w'.accountDB = w.accountDB)
    (eventLog : w'.eventLog = w.eventLog) (commandQueue : w'.commandQueue = w.commandQueue)
    (command : w'.commandToProcess = w.commandToProcess)
    (seed : w'.seedFile.number = w.seedFile.number ∨ w'.seedFile.number = none)
    (generated : generatedIDs w'.history = generatedIDs w.history)
    (stored : storedAccounts w'.history = storedAccounts w.history)
    (drawn : ∀ i : Seen, (i.next op r).drawn = i.drawn ∨ (i.next op r).drawn = none) :
    Effect o w op r w'

section Effect

variable {P : Platform} {V : Int → Prop} {o : Outcomes} {op : Op} {w w' : Wallet} {r : op.Ret}

theorem perform_effect (h : perform o op w = some (r, w')) : Effect o w op r w' := by
  cases op with
  | get call key out =>
    simp only [perform] at h
    generalize w.accountDB.get (o.db call) key out = answer at h
    cases h
    refine .other rfl rfl rfl rfl (.inl rfl) ?_ ?_ fun i => .inl rfl <;> cases answer.1.ok <;>
      simp [Action.generated?, Action.stored?]
  | put call key value =>
    cases h
    cases hf : o.db call with
    | none => exact .put call key value
    | some f =>
      simp only [Failure.ok]
      refine .other rfl rfl rfl rfl (.inl rfl) (by simp) (by simp) fun i => ?_
      by_cases hc : call = .createAccount <;> simp [Seen.next, hc]
  | append eventA eventB =>
    simp only [perform] at h
    split at h <;> cases h
    · exact .other rfl rfl rfl rfl (.inl rfl) rfl rfl fun i => .inl rfl
    · exact .append eventA eventB
  | receive =>
    simp only [perform, Option.map_eq_some_iff] at h
    obtain ⟨⟨c, q⟩, hq, heq⟩ := h
    cases heq
    exact .receive c q (MessageQueue.receive_eq_some.mp hq)
  | send c => cases h; exact .send c
  | wait =>
    simp only [perform] at h
    split at h <;> cases h
    exact .other rfl rfl rfl rfl (.inl rfl) rfl rfl fun i => .inl rfl
  | genAccountID =>
    simp only [perform] at h
    split at h
    · next id f hgen => cases h; exact .generate id f hgen
    · next f hgen =>
      cases h
      exact .other rfl rfl rfl rfl (number_of_failed hgen (by simp)) rfl rfl fun i => .inl rfl
    · next f hgen =>
      cases h
      exact .other rfl rfl rfl rfl (number_of_failed hgen (by simp)) rfl rfl fun i => .inl rfl
    · cases h
  | status =>
    cases h
    exact .other rfl rfl rfl rfl (.inl rfl) (by simp [Wallet.record, Action.generated?])
      (by simp [Wallet.record, Action.stored?]) fun i => .inl rfl
  | setState s =>
    cases h
    exact .other rfl rfl rfl rfl (.inl rfl) (by simp [Action.generated?]) (by simp [Action.stored?])
      fun i => .inl rfl
  | _ => cases h; exact .other rfl rfl rfl rfl (.inl rfl) rfl rfl fun i => .inl rfl

theorem Effect.drawn_numbers {ns : List Int} (h : Effect o w op r w') (hw : w.Drawn ns) :
    ∃ ns', w'.Drawn ns' := by
  cases h with
  | put => exact ⟨ns, hw.same (.inl rfl) (by simp [Action.generated?])⟩
  | append => exact ⟨ns, hw.same (.inl rfl) rfl⟩
  | receive => exact ⟨ns, hw.same (.inl rfl) (by simp [Action.generated?])⟩
  | send => exact ⟨ns, hw.same (.inl rfl) (by simp [Action.generated?])⟩
  | generate id f hgen =>
    obtain ⟨n, hd⟩ := hw.generate hgen rfl
    exact ⟨_, hd⟩
  | other _ _ _ _ hseed hgen => exact ⟨ns, hw.same hseed hgen⟩

theorem Effect.keys (h : Effect o w op r w') : ∀ key ∈ w.accountDB, key ∈ w'.accountDB := by
  intro key hkey
  cases h with
  | put => exact Finmap.mem_insert.mpr (.inr hkey)
  | other hdb => rwa [hdb]
  | _ => exact hkey

structure Wallet.Grows (P : Platform) (w w' : Wallet) : Prop where
  keys : ∀ key ∈ w.accountDB, key ∈ w'.accountDB
  command : Accepted P w.commandToProcess → Accepted P w'.commandToProcess

theorem Effect.grows (h : Effect o w op r w') (hq : ∀ c ∈ w.commandQueue.messages, Accepted P c) :
    w.Grows P w' := by
  refine ⟨h.keys, ?_⟩
  cases h with
  | receive c q hqueue =>
    refine fun _ => hq c ?_
    rw [hqueue]
    exact List.mem_append_right _ (List.mem_singleton_self c)
  | other _ _ _ hcommand => rw [hcommand]; exact id
  | _ => exact id

theorem Effect.queue {i : Seen} (h : Effect o w op r w') (hallows : i.Allows P V op)
    (hq : ∀ c ∈ w.commandQueue.messages, Accepted P c) :
    ∀ c ∈ w'.commandQueue.messages, Accepted P c := by
  cases h with
  | receive c q hqueue =>
    intro c' hc'
    refine hq c' ?_
    rw [hqueue]
    exact List.mem_append_left _ hc'
  | send c =>
    intro c' hc'
    rcases List.mem_append.mp hc' with hc' | hc'
    · exact hq c' hc'
    · exact List.mem_singleton.mp hc' ▸ hallows
  | other _ _ hqueue => rw [hqueue]; exact hq
  | _ => exact hq

theorem Effect.texts {i : Seen} (h : Effect o w op r w') (hallows : i.Allows P V op)
    (ht : Texts V w.accountDB) : Texts V w'.accountDB := by
  cases h with
  | put call key value =>
    obtain ⟨⟨n, hn, rfl⟩, -⟩ := hallows
    exact ht.insert key hn
  | other hdb => rw [hdb]; exact ht
  | _ => exact ht

end Effect

/-- What a handler has seen is so.  What its tests of `service._status` have told
it only counts where `own` says that they saw its own status, which is `last`. -/
structure Seen.Holds (P : Platform) (own : Request → Bool) (w : Wallet) (last : Status) (i : Seen) :
    Prop where
  found : own i.request = true → ∀ key ∈ i.found, key ∈ w.accountDB
  asked : ∀ key ∈ i.asked, last.ok = true → key ∈ w.accountDB
  received : i.received = true → Accepted P w.commandToProcess
  command : ∀ c ∈ i.command, Accepted P c

section Holds

variable {P : Platform} {V : Int → Prop} {own : Request → Bool} {o : Outcomes} {op : Op}
  {w w' : Wallet} {r : op.Ret} {last : Status} {i : Seen}

theorem Seen.Holds.grows (h : i.Holds P own w last) (hw : w.Grows P w') : i.Holds P own w' last where
  found hown key hkey := hw.keys key (h.found hown key hkey)
  asked key hkey hok := hw.keys key (h.asked key hkey hok)
  received hi := hw.command (h.received hi)
  command := h.command

theorem AccountDB.mem_of_get {db : AccountDB} {fault : Option Failure} {key out : String}
    (h : (db.get fault key out).1.ok = true) : key ∈ db := by
  unfold AccountDB.get at h
  split at h
  · simp at h
  · split at h
    · next hlookup => exact Finmap.mem_of_lookup_eq_some hlookup
    · cases h

theorem Seen.Holds.operate (h : i.Holds P own w last) (hallows : i.Allows P V op)
    (hown : own i.request = true → op = .ok → w.status.ok = last.ok)
    (hq : ∀ c ∈ w.commandQueue.messages, Accepted P c) (hperform : perform o op w = some (r, w')) :
    (i.next op r).Holds P own w' (if op.callsDB then w'.status else last) := by
  have hgrows := (perform_effect hperform).grows hq
  cases op with
  | get call key out =>
    cases hperform
    refine ⟨h.found, fun key' hkey hok => ?_, h.received, h.command⟩
    cases hkey
    exact AccountDB.mem_of_get hok
  | put call key value =>
    refine ⟨(h.grows hgrows).found, fun key' hkey hok => ?_, (h.grows hgrows).received, h.command⟩
    cases hkey
    cases hperform
    cases hf : o.db call with
    | none => exact Finmap.mem_insert.mpr (.inl rfl)
    | some f => simp [hf, Op.callsDB] at hok
  | ok =>
    cases hperform
    refine ⟨fun htrust key hkey => ?_, h.asked, h.received, h.command⟩
    dsimp only [Seen.next] at hkey
    split at hkey
    · next hok =>
      rcases List.mem_append.mp hkey with hkey | hkey
      · exact h.asked key (Option.mem_toList.mp hkey) (hown htrust rfl ▸ hok)
      · exact h.found htrust key hkey
    · exact h.found htrust key hkey
  | receive =>
    refine ⟨(h.grows hgrows).found, (h.grows hgrows).asked, fun _ => ?_, h.command⟩
    simp only [perform, Option.map_eq_some_iff] at hperform
    obtain ⟨⟨c, q⟩, hqueue, heq⟩ := hperform
    cases heq
    refine hq c ?_
    rw [MessageQueue.receive_eq_some.mp hqueue]
    exact List.mem_append_right _ (List.mem_singleton_self c)
  | commandToProcess =>
    cases hperform
    refine ⟨h.found, h.asked, h.received, fun c hc => ?_⟩
    cases hc
    exact h.received hallows
  | genAccountID =>
    have hsame := h.grows hgrows
    cases r with
    | ok id => exact ⟨hsame.found, hsame.asked, hsame.received, hsame.command⟩
    | error e => exact hsame
  | _ => exact h.grows hgrows

end Holds

structure Seen.Of (P : Platform) (V : Int → Prop) (own : Request → Bool) (w : Wallet) (t : Thread)
    (i : Seen) : Prop where
  request : i.request = t.request
  follows : ∃ n, t.prog.Follows (Seen.discipline P V fun _ => True) (fun i => i.Answers t.request) i n
  holds : i.Holds P own w t.last

structure Threads.Served (P : Platform) (V : Int → Prop) (own : Request → Bool) (s : Threads)
    (ts : List (Thread × Seen)) : Prop where
  threads : s.threads = ts.map Prod.fst
  handlers : ∀ x ∈ ts, x.2.Of P V own s.shared x.1
  texts : Texts V s.shared.accountDB
  queue : ∀ c ∈ s.shared.commandQueue.messages, Accepted P c

inductive Passes (P : Platform) (V : Int → Prop) (own : Request → Bool) (w : Wallet) :
    Act → List (Thread × Seen) → Wallet → List (Thread × Seen) → Prop
  | arrive {ts : List (Thread × Seen)} (r : Request) :
    Passes P V own w (.arrive r) ts w (ts ++ [(.start P w r, { request := r })])
  | operate {before after : List (Thread × Seen)} {t t' : Thread} {seen : Seen} {op : Op}
    {r : op.Ret} {w' : Wallet} (i : Nat) (o : Outcomes) (hseen : seen.Of P V own w t)
    (hallows : seen.Allows P V op) (heffect : Effect o w op r w') :
    Passes P V own w (.operate i o) (before ++ (t, seen) :: after) w'
      (before ++ (t', seen.next op r) :: after)
  | kill {ts : List (Thread × Seen)} (log : Option (List LogEntry)) :
    Passes P V own w (.kill log) ts
      (.start w.accountDB (log.getD w.eventLog) w.seedFile w.history) []

namespace Threads.Served

variable {P : Platform} {V : Int → Prop} {own : Request → Bool} {s s' : Threads}
  {ts : List (Thread × Seen)}

theorem init : Threads.Served P V own (Threads.init P .empty []) [] :=
  ⟨rfl, by simp, Texts.empty, by simp [Threads.init, Wallet.empty, Wallet.start]⟩

theorem operate {before after : List (Thread × Seen)} {t t' : Thread} {seen : Seen} {o : Outcomes}
    {w' : Wallet} (h : Threads.Served P V own s (before ++ (t, seen) :: after))
    (hown : own t.request = true → t.testing = true → s.shared.status.ok = t.last.ok)
    (hop : t.operate o s.shared = some (t', w')) :
    ∃ op r, seen.Allows P V op ∧ Effect o s.shared op r w' ∧
      Threads.Served P V own ⟨w', before.map Prod.fst ++ t' :: after.map Prod.fst⟩
        (before ++ (t', seen.next op r) :: after) := by
  obtain ⟨hrequest, ⟨n, hfollows⟩, hholds⟩ := h.handlers (t, seen) (by simp)
  obtain ⟨op, k, r, hprog, hperform, rfl⟩ := Thread.operate_cases hop
  have heffect := perform_effect hperform
  cases n with
  | zero => rw [hprog] at hfollows; exact hfollows.elim
  | succ n =>
    rw [hprog] at hfollows
    obtain ⟨⟨-, hallows⟩, hrest⟩ := hfollows
    refine ⟨op, r, hallows, heffect, by simp, ?_, heffect.texts hallows h.texts,
      heffect.queue hallows h.queue⟩
    have hgrows := heffect.grows h.queue
    have hothers : ∀ x ∈ before ++ (t, seen) :: after, x.2.Of P V own w' x.1 := fun x hx => by
      obtain ⟨hrequest, hfollows, hholds⟩ := h.handlers x hx
      exact ⟨hrequest, hfollows, hholds.grows hgrows⟩
    refine forall_mem_replace hothers ⟨?_, ⟨n, hrest r⟩, ?_⟩
    · rw [← hrequest]
      cases op <;> try rfl
      cases r <;> rfl
    · refine hholds.operate hallows (fun htrust ho => ?_) h.queue hperform
      subst ho
      exact hown (hrequest ▸ htrust) (by simp [Thread.testing, hprog])

theorem act {a : Act} (hV : P.Holds V) (h : Threads.Served P V own s ts) (hown : a.TestsOwn own s)
    (hact : Threads.act P s a = some s') :
    ∃ ts', Threads.Served P V own s' ts' ∧ Passes P V own s.shared a ts s'.shared ts' := by
  cases a with
  | arrive r =>
    simp only [Threads.act] at hact
    split at hact <;> cases hact
    refine ⟨_, ⟨by simp [h.threads], ?_, h.texts, h.queue⟩, .arrive r⟩
    intro x hx
    rcases List.mem_append.mp hx with hx | hx
    · exact h.handlers x hx
    · rw [List.mem_singleton.mp hx]
      exact ⟨rfl, ⟨24, handler_follows hV r⟩, by simp, by simp, by simp, by simp⟩
  | operate i o =>
    simp only [Threads.act] at hact
    split at hact
    · cases hact
    · obtain ⟨before, t, after, t', hi, ht, ht', hop⟩ := Pool.advance_cases hact
      rw [h.threads] at ht
      obtain ⟨before, rest, rfl, rfl, hrest⟩ := List.map_eq_append_iff.mp ht
      obtain ⟨⟨t, seen⟩, after, rfl, rfl, rfl⟩ := List.map_eq_cons_iff.mp hrest
      obtain ⟨op, r, hallows, heffect, hserved⟩ := h.operate (hown t hi) hop
      rw [← ht'] at hserved
      exact ⟨_, hserved, .operate i o (h.handlers (t, seen) (by simp)) hallows heffect⟩
  | kill log =>
    cases log with
    | none =>
      cases hact
      refine ⟨[], ⟨rfl, by simp, h.texts, ?_⟩, .kill none⟩
      simp [Threads.restarted, Wallet.start]
    | some log =>
      simp only [Threads.act] at hact
      split at hact <;> cases hact
      refine ⟨[], ⟨rfl, by simp, h.texts, ?_⟩, .kill (some log)⟩
      simp [Threads.restarted, Wallet.start]

end Threads.Served

end DigitalWallet

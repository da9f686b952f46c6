import DigitalWallet.Laws.Books

/-! The books behind an interleaved run.  A ledger says how far each request
has come; the books it stands for are those of the accounts opened so far
followed by the transfers decided so far. -/

namespace DigitalWallet

open Lib

/-- Ghost state.  `queued` are the transfers whose command waits in the queue,
`inflight` the one being processed, `absent` those that found an account
missing, `decided` the others that are through, `creates` the accounts drawn,
of which `unstored` are not in the database yet.  `moved` is what the transfer
in flight has written. -/
structure Ledger where
  queued : List Request
  inflight : Option Request
  absent : List Request
  decided : List Request
  creates : List Request
  unstored : List (String × String)
  moved : AccountDB

namespace Ledger

def empty : Ledger := ⟨[], none, [], [], [], [], ∅⟩

def requests (g : Ledger) : List Request :=
  g.queued ++ g.inflight.toList ++ g.absent ++ g.decided ++ g.creates

section Books

variable (P : Platform) (b : Books) (g : Ledger)

def books : Books := b.serveAll P (g.creates ++ g.decided)

def visible (key : String) : Option String :=
  if key ∈ g.unstored.map Prod.fst then none else (g.books P b).accountDB.lookup key

def Grows (g' : Ledger) : Prop :=
  ∀ key text, g.visible P b key = some text → g'.visible P b key = some text

structure Sound : Prop where
  fresh : ∃ k : Int, 0 ≤ k ∧ (g.books P b).seedFile.number = some k ∧
    ∀ m, k < m → accountID m ∉ (g.books P b).accountDB
  texts : Texts (fun n => fits32 n = true) (g.books P b).accountDB
  absent : ∀ r ∈ g.absent, ∃ c, r.command P = some c ∧
    (c.account1 ∉ b.accountDB ∨ c.account2 ∉ b.accountDB)
  decided : ∀ r ∈ g.decided, ∃ c, r.command P = some c ∧
    c.account1 ∈ (g.books P b).accountDB ∧ c.account2 ∈ (g.books P b).accountDB
  unstored : ∀ x ∈ g.unstored, (g.books P b).accountDB.lookup x.1 = some x.2 ∧ x.1 ∉ b.accountDB
  nodup : (g.unstored.map Prod.fst).Nodup
  moved : ∀ key ∈ g.moved, ∃ text, g.visible P b key = some text

end Books

end Ledger

structure Covers (P : Platform) (b : Books) (w : Wallet) (g : Ledger) : Prop where
  sound : g.Sound P b
  accountDB : ∀ key, w.accountDB.lookup key = (g.moved.lookup key).or (g.visible P b key)
  eventLog : w.eventLog = (g.books P b).eventLog
  seedFile : w.seedFile = (g.books P b).seedFile
  queue : w.commandQueue.messages.map some = g.queued.map (·.command P)
  idle : w.cvM = false → w.currentState = .listen ∧ g.inflight = none ∧ g.moved = ∅

section Covers

variable {P : Platform} {b : Books} {w : Wallet} {g : Ledger}

namespace Ledger

theorem Grows.refl (g : Ledger) : g.Grows P b g := fun _ _ h => h

theorem Grows.trans {g g' g'' : Ledger} (h : g.Grows P b g') (h' : g'.Grows P b g'') :
    g.Grows P b g'' := fun key text hk => h' key text (h key text hk)

theorem mem_books {key : String} (h : key ∈ b.accountDB) : key ∈ (g.books P b).accountDB :=
  Books.mem_serveAll _ h

theorem visible_of_mem {key : String} (h : key ∈ g.unstored.map Prod.fst) :
    g.visible P b key = none := if_pos h

theorem visible_of_notMem {key : String} (h : key ∉ g.unstored.map Prod.fst) :
    g.visible P b key = (g.books P b).accountDB.lookup key := if_neg h

theorem visible_eq_some {key text : String} :
    g.visible P b key = some text ↔
      key ∉ g.unstored.map Prod.fst ∧ (g.books P b).accountDB.lookup key = some text := by
  by_cases h : key ∈ g.unstored.map Prod.fst
  · simp [visible_of_mem h, h]
  · simp [visible_of_notMem h, h]

theorem Sound.absent_of_hidden (hg : g.Sound P b) {key : String} (h : g.visible P b key = none) :
    key ∉ b.accountDB := by
  by_cases hmem : key ∈ g.unstored.map Prod.fst
  · obtain ⟨x, hx, rfl⟩ := List.mem_map.mp hmem
    exact (hg.unstored x hx).2
  · rw [visible_of_notMem hmem] at h
    exact fun hkey => Finmap.lookup_eq_none.mp h (mem_books hkey)

theorem Sound.next (hg : g.Sound P b) {id : String} {f : SeedFile}
    (hgen : genAccountID {} (g.books P b).seedFile = (.returned id, f)) :
    id ∉ (g.books P b).accountDB ∧
      ∃ k : Int, 0 ≤ k ∧ f.number = some k ∧ id = accountID k ∧
        ∀ m, k < m → accountID m ∉ (g.books P b).accountDB := by
  obtain ⟨k, hk, hnumber, hfresh⟩ := hg.fresh
  obtain ⟨k', hk', -, hgen'⟩ | ⟨-, hgen'⟩ | ⟨-, hgen'⟩ := genAccountID_cases (g.books P b).seedFile <;>
    cases hgen.symm.trans hgen'
  cases hnumber.symm.trans hk'
  exact ⟨hfresh _ (by omega), k + 1, by omega, rfl, rfl, fun m hm => hfresh m (by omega)⟩

section Draw

def draw (g : Ledger) (r : Request) (id text : String) : Ledger :=
  { g with creates := g.creates ++ [r], unstored := (id, text) :: g.unstored }

variable {r : Request} {n : Int} {id : String} {f : SeedFile}

theorem Sound.books_draw (hg : g.Sound P b) (hr : r.command P = none) (hn : r.startAmount P = some n)
    (hgen : genAccountID {} (g.books P b).seedFile = (.returned id, f)) :
    (g.draw r id (Cpp.toString n)).books P b = (g.books P b).opened id (Cpp.toString n) f := by
  refine Books.serveAll_insert hr hn ?_ hgen
  intro r' hr'
  obtain ⟨c, hc, h1, h2⟩ := hg.decided r' hr'
  have hnext := (hg.next hgen).1
  exact ⟨c, hc, fun heq => hnext (heq ▸ h1), fun heq => hnext (heq ▸ h2)⟩

theorem Sound.visible_draw (hg : g.Sound P b) (hr : r.command P = none)
    (hn : r.startAmount P = some n)
    (hgen : genAccountID {} (g.books P b).seedFile = (.returned id, f)) (key : String) :
    (g.draw r id (Cpp.toString n)).visible P b key = g.visible P b key := by
  apply Option.ext
  intro text
  have hnext := Finmap.lookup_eq_none.mpr (hg.next hgen).1
  rw [visible_eq_some, visible_eq_some, hg.books_draw hr hn hgen]
  by_cases heq : key = id
  · subst heq
    simp [draw, hnext]
  · simp [draw, Books.opened, heq]

theorem Sound.draw (hg : g.Sound P b) (hr : r.command P = none) (hn : r.startAmount P = some n)
    (hfits : fits32 n = true)
    (hgen : genAccountID {} (g.books P b).seedFile = (.returned id, f)) :
    (g.draw r id (Cpp.toString n)).Sound P b := by
  have hbooks := hg.books_draw hr hn hgen
  have hvisible := hg.visible_draw hr hn hgen
  obtain ⟨hnext, k, hk, hnumber, rfl, hfresh⟩ := hg.next hgen
  have hmem : ∀ {key}, key ∈ (g.books P b).accountDB →
      key ∈ ((g.draw r (accountID k) (Cpp.toString n)).books P b).accountDB := by
    intro key hkey
    rw [hbooks]
    exact Finmap.mem_insert.mpr (.inr hkey)
  constructor
  · refine ⟨k, hk, by rw [hbooks]; exact hnumber, fun m hm hmem => ?_⟩
    rw [hbooks] at hmem
    rcases Finmap.mem_insert.mp hmem with heq | hmem
    · have := accountID_inj (by omega) hk heq
      omega
    · exact hfresh m hm hmem
  · rw [hbooks]
    exact hg.texts.insert _ hfits
  · exact hg.absent
  · intro r' hr'
    obtain ⟨c, hc, h1, h2⟩ := hg.decided r' hr'
    exact ⟨c, hc, hmem h1, hmem h2⟩
  · intro x hx
    rw [hbooks]
    rcases List.mem_cons.mp hx with rfl | hx
    · exact ⟨Finmap.lookup_insert _, fun hkey => hnext (mem_books hkey)⟩
    · obtain ⟨hlookup, habsent⟩ := hg.unstored x hx
      refine ⟨?_, habsent⟩
      rw [Books.opened, Finmap.lookup_insert_of_ne _, hlookup]
      intro heq
      have hmem := Finmap.mem_of_lookup_eq_some hlookup
      rw [heq] at hmem
      exact hnext hmem
  · refine List.nodup_cons.mpr ⟨?_, hg.nodup⟩
    intro hmem
    obtain ⟨x, hx, heq : x.1 = accountID k⟩ := List.mem_map.mp hmem
    exact hnext (heq ▸ Finmap.mem_of_lookup_eq_some (hg.unstored x hx).1)
  · intro key hkey
    obtain ⟨text, htext⟩ := hg.moved key hkey
    exact ⟨text, by rw [hvisible, htext]⟩

end Draw

section Store

def store (g : Ledger) (x : String × String) : Ledger :=
  { g with unstored := g.unstored.erase x }

variable {x : String × String}

theorem Sound.visible_store (hg : g.Sound P b) (hx : x ∈ g.unstored) (key : String) :
    (g.store x).visible P b key = if key = x.1 then some x.2 else g.visible P b key := by
  have hperm := (List.perm_cons_erase hx).map Prod.fst
  have hnodup := hperm.nodup_iff.mp hg.nodup
  rw [List.map_cons, List.nodup_cons] at hnodup
  split
  · next heq =>
    subst heq
    exact visible_eq_some.mpr ⟨hnodup.1, (hg.unstored x hx).1⟩
  · next hne =>
    apply Option.ext
    intro text
    rw [visible_eq_some, visible_eq_some, hperm.mem_iff, List.map_cons, List.mem_cons]
    simp only [hne, false_or]
    rfl

theorem Sound.store (hg : g.Sound P b) (hx : x ∈ g.unstored) : (g.store x).Sound P b where
  fresh := hg.fresh
  texts := hg.texts
  absent := hg.absent
  decided := hg.decided
  unstored y hy := hg.unstored y (List.mem_of_mem_erase hy)
  nodup := hg.nodup.sublist (List.erase_sublist.map _)
  moved key hkey := by
    obtain ⟨text, htext⟩ := hg.moved key hkey
    rw [hg.visible_store hx]
    split
    · exact ⟨_, rfl⟩
    · exact ⟨text, htext⟩

end Store

section Decide

def decide (g : Ledger) (r : Request) : Ledger :=
  { g with inflight := none, decided := g.decided ++ [r], moved := ∅ }

def reject (g : Ledger) (r : Request) : Ledger :=
  { g with inflight := none, absent := g.absent ++ [r], moved := ∅ }

variable {r : Request} {c : Command}

theorem requests_decide (h : g.inflight = some r) : (g.decide r).requests.Perm g.requests := by
  rw [List.perm_iff_count]
  intro a
  simp only [requests, decide, h, List.count_append, Option.toList_none, Option.toList_some,
    List.count_nil]
  omega

theorem requests_reject (h : g.inflight = some r) : (g.reject r).requests.Perm g.requests := by
  rw [List.perm_iff_count]
  intro a
  simp only [requests, reject, h, List.count_append, Option.toList_none, Option.toList_some,
    List.count_nil]
  omega

theorem books_decide (hc : r.command P = some c) :
    (g.decide r).books P b = (g.books P b).transfer c := by
  have hserve : ∀ b : Books, b.serveAll P [r] = b.transfer c := fun b => by
    simp [Books.serveAll, Books.serve, hc]
  rw [books, decide, ← List.append_assoc, Books.serveAll_append, hserve, books]

theorem Sound.decide (hg : g.Sound P b) (hc : r.command P = some c)
    (h1 : c.account1 ∈ (g.books P b).accountDB) (h2 : c.account2 ∈ (g.books P b).accountDB)
    (hx1 : c.account1 ∉ g.unstored.map Prod.fst) (hx2 : c.account2 ∉ g.unstored.map Prod.fst) :
    (g.decide r).Sound P b := by
  have hbooks := books_decide (b := b) (g := g) hc
  obtain ⟨k, hk, hnumber, hfresh⟩ := hg.fresh
  constructor
  · rw [hbooks]
    exact ⟨k, hk, by rw [Books.transfer_seedFile, hnumber],
      fun m hm hmem => hfresh m hm (Books.mem_transfer.mp hmem)⟩
  · rw [hbooks]
    exact Books.texts_transfer hg.texts c
  · exact hg.absent
  · intro r' hr'
    rw [hbooks]
    rcases List.mem_append.mp hr' with hr' | hr'
    · obtain ⟨c', hc', h1', h2'⟩ := hg.decided r' hr'
      exact ⟨c', hc', Books.mem_transfer.mpr h1', Books.mem_transfer.mpr h2'⟩
    · rw [List.mem_singleton.mp hr']
      exact ⟨c, hc, Books.mem_transfer.mpr h1, Books.mem_transfer.mpr h2⟩
  · intro x hx
    obtain ⟨hlookup, habsent⟩ := hg.unstored x hx
    have hmem : x.1 ∈ g.unstored.map Prod.fst := List.mem_map_of_mem hx
    refine ⟨?_, habsent⟩
    rw [hbooks, Books.lookup_transfer, hlookup]
    · exact fun heq => hx1 (heq ▸ hmem)
    · exact fun heq => hx2 (heq ▸ hmem)
  · exact hg.nodup
  · intro key hkey
    exact absurd hkey (Finmap.notMem_empty)

theorem Sound.reject (hg : g.Sound P b) (hc : r.command P = some c)
    (h : c.account1 ∉ b.accountDB ∨ c.account2 ∉ b.accountDB) : (g.reject r).Sound P b where
  fresh := hg.fresh
  texts := hg.texts
  absent r' hr' := by
    rcases List.mem_append.mp hr' with hr' | hr'
    · exact hg.absent r' hr'
    · rw [List.mem_singleton.mp hr']
      exact ⟨c, hc, h⟩
  decided := hg.decided
  unstored := hg.unstored
  nodup := hg.nodup
  moved key hkey := absurd hkey Finmap.notMem_empty

end Decide

def write (g : Ledger) (key value : String) : Ledger :=
  { g with moved := g.moved.insert key value }

end Ledger

namespace Covers

variable {r : Request} {c : Command}

theorem records (h : Covers P b w g) {s : Status} {history : List Action} :
    Covers P b { w with status := s, history := history } g :=
  ⟨h.sound, h.accountDB, h.eventLog, h.seedFile, h.queue, h.idle⟩

theorem send (h : Covers P b w g) (hc : r.command P = some c) :
    Covers P b
      { w with commandQueue := w.commandQueue.send c, history := w.history ++ [.sent c] }
      { g with queued := g.queued ++ [r] } where
  sound := ⟨h.sound.fresh, h.sound.texts, h.sound.absent, h.sound.decided, h.sound.unstored,
    h.sound.nodup, h.sound.moved⟩
  accountDB := h.accountDB
  eventLog := h.eventLog
  seedFile := h.seedFile
  queue := by simp [MessageQueue.send, h.queue, hc]
  idle := h.idle

theorem receive {q : MessageQueue Command} (h : Covers P b w g) (hq : w.commandQueue = q.send c)
    (hlock : w.cvM = true) :
    ∃ queued r, g.queued = queued ++ [r] ∧ r.command P = some c ∧
      Covers P b
        { w with commandQueue := q, commandToProcess := c, history := w.history ++ [.received c] }
        { g with queued := queued, inflight := some r } := by
  have hqueue := h.queue
  simp only [hq, MessageQueue.send, List.map_append] at hqueue
  obtain ⟨queued, rest, hsplit, hqueued, hrest⟩ := List.map_eq_append_iff.mp hqueue.symm
  obtain ⟨r, rfl, hr⟩ := List.map_eq_singleton_iff.mp hrest
  refine ⟨queued, r, hsplit, hr, ?_⟩
  exact {
    sound := ⟨h.sound.fresh, h.sound.texts, h.sound.absent, h.sound.decided, h.sound.unstored,
      h.sound.nodup, h.sound.moved⟩
    accountDB := h.accountDB
    eventLog := h.eventLog
    seedFile := h.seedFile
    queue := hqueued.symm
    idle := fun hfree => by cases hlock.symm.trans hfree }

theorem draw {n : Int} {id : String} {f : SeedFile} (h : Covers P b w g) (hr : r.command P = none)
    (hn : r.startAmount P = some n) (hfits : fits32 n = true)
    (hgen : genAccountID {} w.seedFile = (.returned id, f)) :
    Covers P b { w with seedFile := f, history := w.history ++ [.generated id] }
      (g.draw r id (Cpp.toString n)) := by
  rw [h.seedFile] at hgen
  have hbooks := h.sound.books_draw hr hn hgen
  refine ⟨h.sound.draw hr hn hfits hgen, ?_, ?_, ?_, h.queue, h.idle⟩
  · intro key
    rw [h.sound.visible_draw hr hn hgen]
    exact h.accountDB key
  · rw [hbooks]
    exact h.eventLog
  · rw [hbooks]
    rfl

theorem store {x : String × String} (h : Covers P b w g) (hx : x ∈ g.unstored) {s : Status}
    {history : List Action} :
    Covers P b { w with accountDB := w.accountDB.insert x.1 x.2, status := s, history := history }
      (g.store x) := by
  refine ⟨h.sound.store hx, ?_, h.eventLog, h.seedFile, h.queue, h.idle⟩
  have hhidden : g.moved.lookup x.1 = none := by
    rw [Finmap.lookup_eq_none]
    intro hmem
    obtain ⟨text, htext⟩ := h.sound.moved _ hmem
    exact (Ledger.visible_eq_some.mp htext).1 (List.mem_map_of_mem hx)
  intro key
  rw [h.sound.visible_store hx]
  split
  · next heq =>
    subst heq
    simp [Ledger.store, hhidden]
  · next hne =>
    rw [Finmap.lookup_insert_of_ne _ hne]
    exact h.accountDB key

theorem write {key balance value : String} (h : Covers P b w g) (hlock : w.cvM = true)
    (hkey : g.visible P b key = some balance) {s : Status} {history : List Action} :
    Covers P b { w with accountDB := w.accountDB.insert key value, status := s, history := history }
      (g.write key value) := by
  refine ⟨⟨h.sound.fresh, h.sound.texts, h.sound.absent, h.sound.decided, h.sound.unstored,
    h.sound.nodup, ?_⟩, ?_, h.eventLog, h.seedFile, h.queue, ?_⟩
  · intro key' hmem
    rcases Finmap.mem_insert.mp hmem with rfl | hmem
    · exact ⟨balance, hkey⟩
    · exact h.sound.moved key' hmem
  · intro key'
    simp only [Ledger.write]
    by_cases heq : key' = key
    · subst heq
      rw [Finmap.lookup_insert, Finmap.lookup_insert, Option.some_or]
    · rw [Finmap.lookup_insert_of_ne _ heq, Finmap.lookup_insert_of_ne _ heq]
      exact h.accountDB key'
  · intro hfree
    cases hlock.symm.trans hfree

theorem reject (h : Covers P b w g) (hmoved : g.moved = ∅) (hc : r.command P = some c)
    (habsent : c.account1 ∉ b.accountDB ∨ c.account2 ∉ b.accountDB) {history : List Action} :
    Covers P b { w with currentState := .listen, history := history } (g.reject r) := by
  refine ⟨h.sound.reject hc habsent, ?_, h.eventLog, h.seedFile, h.queue, fun _ => ⟨rfl, rfl, rfl⟩⟩
  intro key
  have hkey := h.accountDB key
  rw [hmoved] at hkey
  exact hkey

theorem lookup_overlay (db : AccountDB) {key1 key2 value1 value2 : String} (key : String) :
    ((((∅ : AccountDB).insert key1 value1).insert key2 value2).lookup key).or (db.lookup key) =
      ((db.insert key1 value1).insert key2 value2).lookup key := by
  by_cases heq2 : key = key2
  · subst heq2
    simp
  · by_cases heq1 : key = key1
    · subst heq1
      simp [Finmap.lookup_insert_of_ne _ heq2]
    · simp [Finmap.lookup_insert_of_ne _ heq2, Finmap.lookup_insert_of_ne _ heq1]

section Decide

variable {sender receiver : String} (h : Covers P b w g) (hc : r.command P = some c)
  (h1 : g.visible P b c.account1 = some sender) (h2 : g.visible P b c.account2 = some receiver)

include h hc h1 h2

theorem sound_decide : (g.decide r).Sound P b := by
  obtain ⟨hx1, hl1⟩ := Ledger.visible_eq_some.mp h1
  obtain ⟨hx2, hl2⟩ := Ledger.visible_eq_some.mp h2
  exact h.sound.decide hc (Finmap.mem_of_lookup_eq_some hl1) (Finmap.mem_of_lookup_eq_some hl2) hx1 hx2

theorem decline (hmoved : g.moved = ∅) (hlow : value sender < value c.amount) :
    (∀ key, (g.decide r).visible P b key = g.visible P b key) ∧ ∀ history,
      Covers P b { w with currentState := .listen, history := history } (g.decide r) := by
  have hbooks : (g.decide r).books P b = g.books P b := by
    rw [Ledger.books_decide hc]
    simp [Books.transfer, (Ledger.visible_eq_some.mp h1).2, (Ledger.visible_eq_some.mp h2).2, hlow]
  have hvisible : ∀ key, (g.decide r).visible P b key = g.visible P b key := by
    intro key
    simp only [Ledger.visible, hbooks]
    rfl
  refine ⟨hvisible, fun history => ⟨h.sound_decide hc h1 h2, ?_, ?_, ?_, h.queue,
    fun _ => ⟨rfl, rfl, rfl⟩⟩⟩
  · intro key
    have hkey := h.accountDB key
    rw [hmoved] at hkey
    rw [hvisible]
    exact hkey
  · rw [hbooks]
    exact h.eventLog
  · rw [hbooks]
    exact h.seedFile

theorem settle (hlock : w.cvM = true) (hle : value c.amount ≤ value sender)
    (hmoved : g.moved = ((∅ : AccountDB).insert c.account1
      (Cpp.toString ((value sender - value c.amount).bmod (2 ^ 32)))).insert c.account2
        (Cpp.toString ((value receiver + value c.amount).bmod (2 ^ 32)))) :
    Covers P b { w with eventLog := w.eventLog ++ c.entries } (g.decide r) := by
  obtain ⟨hx1, hl1⟩ := Ledger.visible_eq_some.mp h1
  obtain ⟨hx2, hl2⟩ := Ledger.visible_eq_some.mp h2
  have hbooks := Ledger.books_decide (b := b) (g := g) hc
  simp only [Books.transfer, hl1, hl2, hle, if_true] at hbooks
  refine ⟨h.sound_decide hc h1 h2, ?_, ?_, ?_, h.queue, ?_⟩
  · intro key
    have hkey := h.accountDB key
    rw [hmoved] at hkey
    refine hkey.trans ?_
    change _ = (g.decide r).visible P b key
    by_cases hx : key ∈ g.unstored.map Prod.fst
    · have hne1 : key ≠ c.account1 := fun heq => hx1 (heq ▸ hx)
      have hne2 : key ≠ c.account2 := fun heq => hx2 (heq ▸ hx)
      rw [Ledger.visible_of_mem (g := g.decide r) hx, Ledger.visible_of_mem hx,
        Finmap.lookup_insert_of_ne _ hne2, Finmap.lookup_insert_of_ne _ hne1]
      rfl
    · rw [Ledger.visible_of_notMem (g := g.decide r) hx, Ledger.visible_of_notMem hx, hbooks]
      exact lookup_overlay _ _
  · rw [hbooks, h.eventLog]
  · rw [hbooks]
    exact h.seedFile
  · intro hfree
    cases hlock.symm.trans hfree

end Decide

end Covers

end Covers

end DigitalWallet

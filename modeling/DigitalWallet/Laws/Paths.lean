import DigitalWallet.Laws.Invariant
import DigitalWallet.Lib.Discipline

namespace DigitalWallet

open Lib

theorem Thread.operate_cases {o : Outcomes} {t t' : Thread} {w w' : Wallet}
    (h : t.operate o w = some (t', w')) :
    ∃ op k r, t.prog = .op op k ∧ perform o op w = some (r, w') ∧
      t' = ⟨t.request, k r, if op.callsDB then w'.status else t.last⟩ := by
  cases hprog : t.prog with
  | ret a => simp [Thread.operate, Proc.advance, hprog] at h
  | throw e => simp [Thread.operate, Proc.advance, hprog] at h
  | op op k =>
    cases hperform : perform o op w with
    | none => simp [Thread.operate, Proc.advance, hprog, hperform] at h
    | some rw =>
      obtain ⟨r, w''⟩ := rw
      simp [Thread.operate, Proc.advance, hprog, hperform, Thread.callsDB] at h
      obtain ⟨rfl, rfl⟩ := h
      exact ⟨op, k, r, rfl, hperform, rfl⟩

def Op.Free : Op → Prop
  | .wait => False
  | .receive => False
  | .genAccountID => False
  | .abort => False
  | _ => True

def Op.Stays : Op → Prop
  | .genAccountID => False
  | .abort => False
  | _ => True

theorem Op.Free.stays {op : Op} (h : op.Free) : op.Stays := by
  cases op <;> first | exact trivial | exact h

theorem Op.Stays.ne_abort {op : Op} (h : op.Stays) : op ≠ .abort := by
  rintro rfl
  exact h

section Frame

variable {o : Outcomes} {op : Op} {r : op.Ret} {w w' : Wallet}

theorem perform_aborted (hop : op.Stays) (h : perform o op w = some (r, w')) : w'.aborted = w.aborted := by
  cases op with
  | append eventA eventB =>
    simp only [perform] at h
    split at h <;> cases h <;> rfl
  | receive =>
    simp only [perform, Option.map_eq_some_iff] at h
    obtain ⟨cq, -, hcq⟩ := h
    cases hcq
    rfl
  | wait =>
    simp only [perform] at h
    split at h <;> cases h
    rfl
  | genAccountID => exact hop.elim
  | abort => exact hop.elim
  | _ => cases h; rfl

theorem perform_status (h : perform o op w = some (r, w')) (hop : op.callsDB = false) : w'.status = w.status := by
  cases op with
  | get => cases hop
  | put => cases hop
  | append eventA eventB =>
    simp only [perform] at h
    split at h <;> cases h <;> rfl
  | receive =>
    simp only [perform, Option.map_eq_some_iff] at h
    obtain ⟨cq, -, hcq⟩ := h
    cases hcq
    rfl
  | wait =>
    simp only [perform] at h
    split at h <;> cases h
    rfl
  | genAccountID =>
    simp only [perform] at h
    split at h <;> cases h <;> rfl
  | _ => cases h; rfl

end Frame

def Request.transfers : Request → Bool
  | .balanceTransfer _ _ _ _ => true
  | _ => false

/-- What a handler has seen so far: the identifier it has drawn and not stored
yet, the command it has read, the key of its last database call, and the keys
that it was told are there. -/
structure Seen where
  request : Request
  drawn : Option String := none
  received : Bool := false
  command : Option Command := none
  asked : Option String := none
  found : List String := []

namespace Seen

def started : Seen := { request := .balanceTransfer none none none "", received := true }

def next (i : Seen) : (op : Op) → op.Ret → Seen
  | .get _ key _, _ => { i with asked := some key }
  | .put call key _, _ =>
    { i with drawn := if call = .createAccount then none else i.drawn, asked := some key }
  | .ok, r => { i with found := if r then i.asked.toList ++ i.found else i.found }
  | .receive, _ => { i with received := true }
  | .commandToProcess, c => { i with command := some c }
  | .genAccountID, .ok id => { i with drawn := some id }
  | _, _ => i

def Allows (P : Platform) (V : Int → Prop) (i : Seen) : Op → Prop
  | .put call key value => (∃ n, V n ∧ value = Cpp.toString n) ∧
      if call = .createAccount then i.drawn = some key
      else i.request.transfers = true ∧ key ∈ i.found
  | .append eventA eventB => i.request.transfers = true ∧ ∃ c ∈ i.command,
      eventA = c.eventA ∧ eventB = c.eventB ∧ c.account1 ∈ i.found ∧ c.account2 ∈ i.found
  | .send c => Accepted P c
  | .commandToProcess => i.received = true
  | .genAccountID => i.drawn = none
  | .ok => i.asked.isSome
  | _ => True

def discipline (P : Platform) (V : Int → Prop) (ok : Op → Prop) : Discipline Op Op.Ret Seen where
  allows i op := ok op ∧ i.Allows P V op
  next := next

def Answers (i : Seen) : Request → Response → Prop
  | .createAccount _, resp => resp.code = 200 → ∃ id ∈ i.found, ∃ n : Int,
      resp.body = "Account: " ++ id ++ " : Balance: " ++ Cpp.toString n ++ "\n"
  | _, _ => True

end Seen

abbrev Prog.Keeps (P : Platform) (V : Int → Prop) (ok : Op → Prop) (p : Prog α) (i : Seen) (n : Nat) :
    Prop :=
  p.Follows (Seen.discipline P V ok) (fun _ _ => True) i n

section Sections

variable (P : Platform)

def processing : Prog Response :=
  Proc.ensuring
    (do
      Prog.setState .validate
      ServiceValidate.process P
      let status ← Prog.status
      return { body := "Return Status: " ++ P.statusText status ++ "\n" })
    Prog.unlock

def entering : Prog Response :=
  Proc.ensuring
    (do
      Service.toggle P
      let status ← Prog.status
      return { body := "Return Status: " ++ P.statusText status ++ "\n" })
    Prog.unlock

theorem toggleAndReport_eq : toggleAndReport P = .op .wait fun _ => entering P := rfl

theorem entering_eq :
    ∃ k, entering P = .op .currentState k ∧ k .listen = .op .receive fun _ => processing P :=
  ⟨_, rfl, rfl⟩

end Sections

section Paths

variable {P : Platform} {V : Int → Prop} {ok : Op → Prop} {i : Seen} {n : Nat}

theorem stoi_keeps {s : String} {f : Int → Prog α} (hf : ∀ m, (f m).Keeps P V ok i n) :
    Prog.Keeps P V ok ((stoi P s).bind f) i n := by
  unfold stoi
  split
  · exact hf _
  · trivial

theorem setState_keeps (s : StateName) : (Prog.setState s).Keeps P V Op.Free i (n + 1) :=
  ⟨⟨trivial, trivial⟩, fun _ => trivial⟩

theorem checked_keeps {p q : Prog α} (hi : i.asked.isSome) (hp : p.Keeps P V Op.Free i n)
    (hq : q.Keeps P V Op.Free { i with found := i.asked.toList ++ i.found } n) :
    Prog.Keeps P V Op.Free (.op .ok fun r => if (!r) = true then p else q) i (n + 1) := by
  refine ⟨⟨trivial, hi⟩, fun r => ?_⟩
  cases r
  · exact hp
  · exact hq

theorem update_keeps (hV : P.Holds V) {c : Command} (hr : i.request.transfers = true)
    (hc : i.command = some c) (hsender : c.account1 ∈ i.found)
    (hreceiver : c.account2 ∈ i.found) (m k : Int) :
    (ServiceApply.update c.eventA c.eventB (P.arith m) (P.arith k)).Keeps P V Op.Free i 6 := by
  simp only [ServiceApply.update, Proc.bind_eq, Proc.op_bind, Proc.ret_bind]
  refine ⟨⟨trivial, ⟨_, hV.arith m, rfl⟩, hr, hsender⟩, fun _ => checked_keeps rfl (setState_keeps _) ?_⟩
  refine ⟨⟨trivial, ⟨_, hV.arith k, rfl⟩, hr, List.mem_append_right _ hreceiver⟩, fun _ => ?_⟩
  refine checked_keeps rfl (setState_keeps _) ?_
  refine ⟨⟨trivial, hr, c, hc, rfl, rfl, ?_, ?_⟩, fun logged => ?_⟩
  · exact List.mem_append_right _ (List.mem_append_right _ hsender)
  · exact List.mem_append_right _ (List.mem_append_right _ hreceiver)
  · cases logged
    · trivial
    · exact setState_keeps _

theorem apply_keeps (hV : P.Holds V) (hr : i.request.transfers = true) (hi : i.received = true) :
    (ServiceApply.process P).Keeps P V Op.Free i 11 := by
  simp only [ServiceApply.process, Proc.bind_eq, Proc.op_bind, Proc.ret_bind]
  refine ⟨⟨trivial, hi⟩, fun command => ⟨⟨trivial, trivial⟩, fun _ => ?_⟩⟩
  refine checked_keeps rfl (setState_keeps _) ?_
  refine stoi_keeps fun a => ⟨⟨trivial, trivial⟩, fun _ => checked_keeps rfl (setState_keeps _) ?_⟩
  refine stoi_keeps fun b => stoi_keeps fun n => stoi_keeps fun n' => ?_
  exact update_keeps hV (by exact hr) rfl (by simp [Seen.discipline, Seen.next]) (by simp [Seen.discipline, Seen.next]) _ _

theorem validate_keeps (hV : P.Holds V) (hr : i.request.transfers = true) (hi : i.received = true) :
    (ServiceValidate.process P).Keeps P V Op.Free i 17 := by
  simp only [ServiceValidate.process, Proc.bind_eq, Proc.op_bind, Proc.ret_bind]
  refine ⟨⟨trivial, hi⟩, fun command => ⟨⟨trivial, trivial⟩, fun _ => ?_⟩⟩
  refine checked_keeps rfl (setState_keeps _) ?_
  refine ⟨⟨trivial, trivial⟩, fun _ => checked_keeps rfl (setState_keeps _) ?_⟩
  refine stoi_keeps fun a => stoi_keeps fun n => ?_
  split
  · exact setState_keeps _
  · split
    · exact ⟨⟨trivial, trivial⟩, fun _ => apply_keeps hV hr hi⟩
    · exact setState_keeps _

theorem processing_keeps (hV : P.Holds V) (hr : i.request.transfers = true) (hi : i.received = true) :
    (processing P).Keeps P V Op.Free i 20 := by
  refine Proc.Follows.ensuring (m := 19) (n := 1) ?_ fun _ => ⟨⟨trivial, trivial⟩, fun _ => trivial⟩
  simp only [Proc.bind_eq, Proc.op_bind, Proc.ret_bind]
  refine ⟨⟨trivial, trivial⟩, fun _ => ?_⟩
  refine Proc.Follows.bind (m := 17) (n := 1) (validate_keeps hV hr hi) fun _ _ _ => ?_
  exact ⟨⟨trivial, trivial⟩, fun _ => trivial⟩

theorem toggleAndReport_keeps (hV : P.Holds V) (hr : i.request.transfers = true) :
    (toggleAndReport P).Keeps P V Op.Stays i 23 := by
  rw [toggleAndReport_eq]
  refine ⟨⟨trivial, trivial⟩, fun _ => ?_⟩
  refine Proc.Follows.ensuring (m := 21) (n := 1) ?_ fun _ => ⟨⟨trivial, trivial⟩, fun _ => trivial⟩
  refine ⟨⟨trivial, trivial⟩, fun state => ?_⟩
  refine Proc.Follows.bind (Q := fun _ _ => True) (m := 19) (n := 1) ?_
    fun _ _ _ => ⟨⟨trivial, trivial⟩, fun _ => trivial⟩
  cases state with
  | listen =>
    refine ⟨⟨trivial, trivial⟩, fun _ => ⟨⟨trivial, trivial⟩, fun _ => ?_⟩⟩
    exact (validate_keeps hV (by exact hr) rfl).weaken fun _ _ h => ⟨h.1.stays, h.2⟩
  | validate => trivial
  | apply => trivial

theorem checkStartAmount_code {s : Option String} {response : Response}
    (h : checkStartAmount P s = .error response) : response.code = 400 := by
  unfold checkStartAmount at h
  split at h
  · cases h; rfl
  · split at h
    · cases h; rfl
    · split at h <;> cases h
      rfl

theorem storeAccount_follows (hV : P.Holds V) (id : String) {m : Int} (hm : P.fits m = true)
    (startAmount : Option String) :
    (storeAccount id m).Follows (Seen.discipline P V fun _ => True) (fun i => i.Answers (.createAccount startAmount))
      { request := .createAccount startAmount, drawn := some id } 3 := by
  refine ⟨⟨trivial, ⟨m, hV.fits m hm, rfl⟩, rfl⟩, fun _ => ⟨⟨trivial, rfl⟩, fun ok => ?_⟩⟩
  cases ok
  · exact ⟨⟨trivial, trivial⟩, fun _ => trivial⟩
  · exact fun _ => ⟨id, List.mem_cons_self, m, rfl⟩

theorem createAccount_follows (hV : P.Holds V) (startAmount : Option String) :
    (createAccount P startAmount).Follows (Seen.discipline P V fun _ => True)
      (fun i => i.Answers (.createAccount startAmount)) { request := .createAccount startAmount } 4 := by
  unfold createAccount
  split
  · next response hcheck =>
    intro hcode
    cases (checkStartAmount_code hcheck).symm.trans hcode
  · next m hcheck =>
    refine ⟨⟨trivial, rfl⟩, fun id => ?_⟩
    cases id with
    | error e => trivial
    | ok id =>
      exact storeAccount_follows hV id (checkStartAmount_ok hcheck).2 startAmount

/-- Send, wait for the lock, and the 22 operations of the longest transfer. -/
theorem handler_follows (hV : P.Holds V) (r : Request) :
    (handler P r).Follows (Seen.discipline P V fun _ => True) (fun i => i.Answers r) { request := r }
      24 := by
  cases r with
  | createAccount startAmount =>
    exact (createAccount_follows hV startAmount).mono (by decide) fun _ _ h => h
  | balanceTransfer fromAccount toAccount amount txId =>
    simp only [handler, balanceTransfer]
    split
    · trivial
    · next hcheck =>
      refine ⟨⟨trivial, checkTransfer_ok hcheck⟩, fun _ => ?_⟩
      exact (toggleAndReport_keeps hV (by rfl)).weaken fun _ _ h => ⟨trivial, h.2⟩
  | getBalance accountID =>
    cases accountID with
    | none => trivial
    | some key =>
      refine ⟨⟨trivial, trivial⟩, fun _ => ⟨⟨trivial, rfl⟩, fun _ => ?_⟩⟩
      exact ⟨⟨trivial, rfl⟩, fun _ => trivial⟩
  | events =>
    refine ⟨⟨trivial, trivial⟩, fun log => ?_⟩
    simp only [Proc.ret_bind]
    split <;> trivial

end Paths

end DigitalWallet

import DigitalWallet.Defs.Http

namespace DigitalWallet

open Lib CString ReqState

structure Line where
  control : Control := {}
  nread : Nat := 0
  target : List Char := []
  deriving DecidableEq

def Line.next (x : Line) (ch : Char) : Option Line :=
  if x.control.state.behindUrl then some x
  else if maxHeaderSize < x.nread + 1 then none
  else
    (x.control.next ch).map fun control =>
      ⟨control, x.nread + 1, if control.state.inUrl then x.target ++ [ch] else x.target⟩

def Line.run (x : Line) (bytes : List Char) : Option Line := bytes.foldlM Line.next x

def scan (bytes : List Char) : Option Line := Line.run {} bytes

section Run

@[simp] theorem Line.run_nil (x : Line) : x.run [] = some x := rfl

theorem Line.run_cons (x : Line) (ch : Char) (bytes : List Char) :
    x.run (ch :: bytes) = (x.next ch).bind fun x => x.run bytes := List.foldlM_cons

theorem Line.run_append (x : Line) (bytes rest : List Char) :
    x.run (bytes ++ rest) = (x.run bytes).bind fun x => x.run rest := List.foldlM_append

theorem Line.run_behind {x : Line} (h : x.control.state.behindUrl) (bytes : List Char) : x.run bytes = some x := by
  induction bytes with
  | nil => rfl
  | cons ch bytes ih => rw [Line.run_cons, Line.next, if_pos h, Option.bind_some, ih]

theorem Line.next_cases {x x' : Line} {ch : Char} (hx : x.control.state.behindUrl = false) (h : x.next ch = some x') :
    x.nread + 1 ≤ maxHeaderSize ∧ x.control.next ch = some x'.control ∧ x'.nread = x.nread + 1 ∧
      x'.target = if x'.control.state.inUrl then x.target ++ [ch] else x.target := by
  rw [Line.next, if_neg (by simp [hx])] at h
  split at h
  · cases h
  · next hread =>
    obtain ⟨control, hcontrol, rfl⟩ := Option.map_eq_some_iff.mp h
    exact ⟨by omega, hcontrol, rfl, rfl⟩

end Run

section Url

def urlRun (method : HTTPMethod) : List Char → Option ReqState
  | [] => none
  | ch :: target =>
    (parseUrlChar (if method = .connect then serverStart else spacesBeforeUrl) ch).bind fun state =>
      target.foldlM parseUrlChar state

theorem inUrl_parseUrlChar {s s' : ReqState} {ch : Char} (h : parseUrlChar s ch = some s') : s'.inUrl := by
  unfold parseUrlChar at h
  split at h
  · cases h
  · cases s <;> simp only [parseUrlChar.serverChar] at h <;> (repeat' split at h) <;> cases h <;> rfl

theorem behindUrl_of_inUrl {s : ReqState} (h : s.inUrl) : s.behindUrl = false := by
  cases s <;> first | rfl | cases h

def mayEnd (s : ReqState) : Bool := s ∈ [server, serverWithAt, path, queryStringStart, queryString]

theorem urlRun_concat {method : HTTPMethod} {target : List Char} {s : ReqState} (h : urlRun method target = some s)
    (ch : Char) : urlRun method (target ++ [ch]) = parseUrlChar s ch := by
  cases target with
  | nil => cases h
  | cons d target =>
    rw [urlRun] at h
    obtain ⟨s₀, hfirst, hrest⟩ := Option.bind_eq_some_iff.mp h
    rw [List.cons_append, urlRun, hfirst, Option.bind_some, List.foldlM_append, hrest]
    simp

theorem next_inside {x : Control} (hx : x.state.inUrl) (hend : mayEnd x.state = false) (ch : Char) :
    x.next ch = if ch = ' ' ∨ ch = cr ∨ ch = lf then none
      else (parseUrlChar x.state ch).map fun state => { x with state := state } := by
  obtain ⟨state, method, index⟩ := x
  cases state <;> first | rfl | (cases hx; done) | cases hend

theorem next_ending {x : Control} (hend : mayEnd x.state) (ch : Char) :
    x.next ch = if ch = ' ' then some { x with state := httpStart }
      else if ch = cr ∨ ch = lf then
        if x.method ≠ .get then none
        else some { x with state := if ch = cr then reqLineAlmostDone else headerFieldStart }
      else (parseUrlChar x.state ch).map fun state => { x with state := state } := by
  obtain ⟨state, method, index⟩ := x
  cases state <;> first | rfl | cases hend

theorem next_inUrl {x y : Control} {ch : Char} (hx : x.state.inUrl) (h : x.next ch = some y) :
    (∃ s, parseUrlChar x.state ch = some s ∧ y = { x with state := s }) ∨
      mayEnd x.state ∧ (ch = ' ' ∨ (ch = cr ∨ ch = lf) ∧ x.method = .get) ∧ y.state.behindUrl ∧ y.method = x.method := by
  cases hend : mayEnd x.state with
  | false =>
    rw [next_inside hx hend] at h
    split at h
    · cases h
    · obtain ⟨s, hs, rfl⟩ := Option.map_eq_some_iff.mp h
      exact .inl ⟨s, hs, rfl⟩
  | true =>
    rw [next_ending hend] at h
    split at h
    · next hspace =>
      cases h
      exact .inr ⟨rfl, .inl hspace, rfl, rfl⟩
    · split at h
      · next hline =>
        split at h
        · cases h
        · next hget =>
          cases h
          exact .inr ⟨rfl, .inr ⟨hline, not_not.mp hget⟩, by dsimp only; split <;> rfl, rfl⟩
      · obtain ⟨s, hs, rfl⟩ := Option.map_eq_some_iff.mp h
        exact .inl ⟨s, hs, rfl⟩

end Url

section Method

open HTTPMethod

theorem ofInitial_spec {ch : Char} {method : HTTPMethod} (h : ofInitial ch = some method) :
    method.methodName.toList.take 1 = [ch] ∧ 1 ≤ method.methodName.toList.length := by
  unfold ofInitial at h
  split at h <;> cases h <;> decide +kernel

theorem change_spec {method method' : HTTPMethod} {index : Nat} {ch : Char}
    (h : method.change index ch = some method') :
    method'.methodName.toList.take (index + 1) = method.methodName.toList.take index ++ [ch] ∧
      index + 1 ≤ method'.methodName.toList.length := by
  unfold change at h
  split at h <;> cases h <;> decide +kernel

theorem nul_notMem_methodName (method : HTTPMethod) : nul ∉ method.methodName.toList := by
  cases method <;> decide +kernel

inductive LineStage : Control → List Char → List Char → Prop
  | start {method index bytes} (hbytes : ∀ c ∈ bytes, c = cr ∨ c = lf) : LineStage ⟨startReq, method, index⟩ [] bytes
  | method {method index skip} (hskip : ∀ c ∈ skip, c = cr ∨ c = lf)
      (hindex : index ≤ method.methodName.toList.length) :
      LineStage ⟨reqMethod, method, index⟩ [] (skip ++ method.methodName.toList.take index)
  | spaces {method index skip spaces} (hskip : ∀ c ∈ skip, c = cr ∨ c = lf) (hspaces : ∀ c ∈ spaces, c = ' ') :
      LineStage ⟨spacesBeforeUrl, method, index⟩ [] (skip ++ (method.methodName.toList ++ ' ' :: spaces))
  | url {state method index skip spaces target} (hskip : ∀ c ∈ skip, c = cr ∨ c = lf)
      (hspaces : ∀ c ∈ spaces, c = ' ') (hurl : urlRun method target = some state) (hstate : state.inUrl) :
      LineStage ⟨state, method, index⟩ target (skip ++ (method.methodName.toList ++ ' ' :: (spaces ++ target)))

theorem peek_eq_nul {name : List Char} (hname : nul ∉ name) {index : Nat} :
    peek name index = nul ↔ name.length ≤ index := by
  constructor
  · intro h
    by_contra hlt
    rw [peek, List.getD_eq_getElem _ _ (by omega)] at h
    exact hname (h ▸ List.getElem_mem _)
  · exact fun h => List.getD_eq_default _ _ h

theorem LineStage.next_method {method : HTTPMethod} {index : Nat} {skip : List Char} {y : Control} {ch : Char}
    (hskip : ∀ c ∈ skip, c = cr ∨ c = lf) (hy : Control.next ⟨reqMethod, method, index⟩ ch = some y) :
    LineStage y [] (skip ++ method.methodName.toList.take index ++ [ch]) ∧ y.state.inUrl = false ∧
      y.state.behindUrl = false := by
  simp only [Control.next] at hy
  split at hy
  · cases hy
  · next hnul =>
    split at hy
    · next hend =>
      cases hy
      have hall : method.methodName.toList.length ≤ index := (peek_eq_nul (nul_notMem_methodName method)).mp hend.2
      rw [hend.1, List.take_of_length_le hall, List.append_assoc]
      exact ⟨.spaces hskip (by simp), rfl, rfl⟩
    · split at hy
      · next hch =>
        cases hy
        have hlt : index < method.methodName.toList.length := by
          by_contra hge
          exact hnul (hch.trans ((peek_eq_nul (nul_notMem_methodName method)).mpr (by omega)))
        have hname : method.methodName.toList.take index ++ [ch] = method.methodName.toList.take (index + 1) := by
          rw [hch, peek, List.getD_eq_getElem _ _ hlt, List.take_append_getElem hlt]
        rw [List.append_assoc, hname]
        exact ⟨.method hskip hlt, rfl, rfl⟩
      · split at hy
        · obtain ⟨method', hchange, rfl⟩ := Option.map_eq_some_iff.mp hy
          obtain ⟨hname, hlength⟩ := change_spec hchange
          rw [List.append_assoc, ← hname]
          exact ⟨.method hskip hlength, rfl, rfl⟩
        · cases hy

theorem LineStage.next {x y : Control} {target bytes : List Char} (h : LineStage x target bytes) {ch : Char}
    (hy : x.next ch = some y) :
    LineStage y (if y.state.inUrl then target ++ [ch] else target) (bytes ++ [ch]) ∧ y.state.behindUrl = false ∨
      y.state.behindUrl ∧ y.state.inUrl = false ∧ y.method = x.method ∧ x.state.inUrl ∧ mayEnd x.state ∧
        (ch = ' ' ∨ (ch = cr ∨ ch = lf) ∧ x.method = .get) := by
  cases h with
  | start hbytes =>
    simp only [Control.next] at hy
    split at hy
    · next hskip =>
      cases hy
      exact .inl ⟨.start (List.forall_mem_append.mpr ⟨hbytes, by simpa using hskip⟩), rfl⟩
    · obtain ⟨method, hmethod, rfl⟩ := Option.map_eq_some_iff.mp hy
      obtain ⟨hname, hlength⟩ := ofInitial_spec hmethod
      exact .inl ⟨hname ▸ .method hbytes hlength, rfl⟩
  | method hskip _ =>
    obtain ⟨hstage, hin, hbehind⟩ := LineStage.next_method hskip hy
    exact .inl ⟨by simpa [hin] using hstage, hbehind⟩
  | @spaces method index skip spaces hskip hspaces =>
    simp only [Control.next] at hy
    split at hy
    · next hspace =>
      cases hy
      have hmore : ∀ c ∈ spaces ++ [ch], c = ' ' := List.forall_mem_append.mpr ⟨hspaces, by simpa using hspace⟩
      have hstage : LineStage ⟨spacesBeforeUrl, method, index⟩ []
          (skip ++ (method.methodName.toList ++ ' ' :: (spaces ++ [ch]))) := .spaces hskip hmore
      exact .inl ⟨by simpa [inUrl] using hstage, rfl⟩
    · obtain ⟨state, hstate, rfl⟩ := Option.map_eq_some_iff.mp hy
      have hin := inUrl_parseUrlChar hstate
      have hurl : urlRun method [ch] = some state := by simpa [urlRun] using hstate
      have hstage : LineStage ⟨state, method, index⟩ [ch]
          (skip ++ (method.methodName.toList ++ ' ' :: (spaces ++ [ch]))) := .url hskip hspaces hurl hin
      exact .inl ⟨by simpa [hin] using hstage, behindUrl_of_inUrl hin⟩
  | @url state method index skip spaces target hskip hspaces hurl hstate =>
    rcases next_inUrl hstate hy with ⟨s, hs, rfl⟩ | ⟨hend, hstop, hbehind, hmethod⟩
    · have hin := inUrl_parseUrlChar hs
      have hstage : LineStage ⟨s, method, index⟩ (target ++ [ch])
          (skip ++ (method.methodName.toList ++ ' ' :: (spaces ++ (target ++ [ch])))) :=
        .url hskip hspaces ((urlRun_concat hurl ch).trans hs) hin
      exact .inl ⟨by simpa [hin] using hstage, behindUrl_of_inUrl hin⟩
    · refine .inr ⟨hbehind, ?_, hmethod, hstate, hend, hstop⟩
      cases hin : y.state.inUrl with
      | false => rfl
      | true => simp [behindUrl_of_inUrl hin] at hbehind

/-- A request line up to its target: empty lines are skipped, the target is
ended by a space, and after `GET` by a line end as well. -/
def RequestLine (method : HTTPMethod) (target bytes : List Char) : Prop :=
  ∃ skip spaces stop rest state,
    bytes = skip ++ (method.methodName.toList ++ ' ' :: (spaces ++ target)) ++ stop :: rest ∧
    (∀ c ∈ skip, c = cr ∨ c = lf) ∧ (∀ c ∈ spaces, c = ' ') ∧
    urlRun method target = some state ∧ mayEnd state ∧
    (stop = ' ' ∨ (stop = cr ∨ stop = lf) ∧ method = .get) ∧
    bytes.length ≤ maxHeaderSize + rest.length

theorem LineStage.run {x y : Line} {line : List Char} (h : LineStage x.control x.target line) (hread : x.nread = line.length)
    (hx : x.control.state.behindUrl = false) {bytes : List Char} (hy : x.run bytes = some y) :
    y.control.state.behindUrl = false ∨
      y.control.state.behindUrl ∧ RequestLine y.control.method y.target (line ++ bytes) := by
  induction bytes generalizing x line with
  | nil =>
    cases hy
    exact .inl hx
  | cons ch bytes ih =>
    rw [Line.run_cons] at hy
    obtain ⟨z, hz, hrun⟩ := Option.bind_eq_some_iff.mp hy
    obtain ⟨hmax, hnext, hzread, hztarget⟩ := Line.next_cases hx hz
    rcases h.next hnext with ⟨hstage, hbehind⟩ | ⟨hbehind, hin, hmethod, hurl, hend, hstop⟩
    · rw [← hztarget] at hstage
      have hrest := ih hstage (by simp [hzread, hread]) hbehind hrun
      simpa using hrest
    · rw [Line.run_behind hbehind] at hrun
      cases hrun
      refine .inr ⟨hbehind, ?_⟩
      rw [hin] at hztarget
      rw [hztarget, hmethod, if_neg (by simp)]
      generalize x.control = control, x.target = target at *
      cases h with
      | start => cases hurl
      | method => cases hurl
      | spaces => cases hurl
      | url hskip hspaces hrun hstate =>
        refine ⟨_, _, ch, bytes, _, rfl, hskip, hspaces, hrun, hend, hstop, ?_⟩
        simp only [List.length_append, List.length_cons] at hread ⊢
        omega

theorem requestLine_of_scan {bytes : List Char} {x : Line} (h : scan bytes = some x)
    (hx : x.control.state.behindUrl) : RequestLine x.control.method x.target bytes := by
  have hstart : LineStage ({} : Control) [] [] := .start (by simp)
  rcases LineStage.run hstart rfl rfl h with hnot | ⟨-, hline⟩
  · simp [hx] at hnot
  · exact hline

end Method

section Complete

def plainRun (x : Control) (bytes : List Char) : Option Control :=
  bytes.foldlM (fun x ch => (x.next ch).filter fun y => !y.state.inUrl && !y.state.behindUrl) x

theorem run_of_plainRun {x y : Control} {bytes : List Char} (h : plainRun x bytes = some y)
    (hx : x.state.behindUrl = false) {n : Nat} (hn : n + bytes.length ≤ maxHeaderSize) (target : List Char) :
    Line.run ⟨x, n, target⟩ bytes = some ⟨y, n + bytes.length, target⟩ := by
  induction bytes generalizing x n with
  | nil =>
    cases h
    rfl
  | cons ch bytes ih =>
    rw [plainRun, List.foldlM_cons] at h
    obtain ⟨z, hz, hrest⟩ := Option.bind_eq_some_iff.mp h
    obtain ⟨hnext, hplain⟩ := Option.filter_eq_some_iff.mp hz
    simp only [Bool.and_eq_true, Bool.not_eq_true'] at hplain
    rw [List.length_cons] at hn
    have hstep : Line.next ⟨x, n, target⟩ ch = some ⟨z, n + 1, target⟩ := by
      rw [Line.next, if_neg (by simp [hx]), if_neg (by simp only; omega), hnext]
      simp [hplain.1]
    rw [Line.run_cons, hstep, Option.bind_some, ih hrest hplain.2 (by omega), List.length_cons, Nat.add_assoc,
      Nat.add_comm 1]

theorem plainRun_append {x y z : Control} {bytes rest : List Char} (h : plainRun x bytes = some y)
    (hrest : plainRun y rest = some z) : plainRun x (bytes ++ rest) = some z := by
  rw [plainRun, List.foldlM_append]
  exact Option.bind_eq_some_iff.mpr ⟨y, h, hrest⟩

theorem plainRun_skip {skip : List Char} (h : ∀ c ∈ skip, c = cr ∨ c = lf) : plainRun {} skip = some {} := by
  induction skip with
  | nil => rfl
  | cons c skip ih =>
    obtain ⟨hc, hskip⟩ := List.forall_mem_cons.mp h
    have hstep : plainRun {} [c] = some {} := by rcases hc with rfl | rfl <;> rfl
    exact plainRun_append hstep (ih hskip)

theorem plainRun_method (method : HTTPMethod) :
    plainRun {} (method.methodName.toList ++ [' ']) =
      some ⟨spacesBeforeUrl, method, method.methodName.toList.length + 1⟩ := by
  cases method <;> decide +kernel

theorem plainRun_spaces {spaces : List Char} (h : ∀ c ∈ spaces, c = ' ') (method : HTTPMethod) (index : Nat) :
    plainRun ⟨spacesBeforeUrl, method, index⟩ spaces = some ⟨spacesBeforeUrl, method, index⟩ := by
  induction spaces with
  | nil => rfl
  | cons c spaces ih =>
    obtain ⟨rfl, hspaces⟩ := List.forall_mem_cons.mp h
    have hstep : plainRun ⟨spacesBeforeUrl, method, index⟩ [' '] = some ⟨spacesBeforeUrl, method, index⟩ := rfl
    exact plainRun_append hstep (ih hspaces)

theorem parseUrlChar_ne {s s' : ReqState} {ch : Char} (h : parseUrlChar s ch = some s') :
    ch ≠ ' ' ∧ ch ≠ cr ∧ ch ≠ lf := by
  unfold parseUrlChar at h
  split at h
  · cases h
  · next hspace =>
    simp only [not_or] at hspace
    exact ⟨hspace.1, hspace.2.1, hspace.2.2.1⟩

theorem next_of_parseUrlChar {s s' : ReqState} {ch : Char} (hs : s.inUrl) (h : parseUrlChar s ch = some s')
    (method : HTTPMethod) (index : Nat) : Control.next ⟨s, method, index⟩ ch = some ⟨s', method, index⟩ := by
  obtain ⟨hspace, hcr, hlf⟩ := parseUrlChar_ne h
  cases hend : mayEnd s with
  | false => rw [next_inside hs hend, if_neg (by simp [hspace, hcr, hlf]), h, Option.map_some]
  | true => rw [next_ending hend, if_neg hspace, if_neg (by simp [hcr, hlf]), h, Option.map_some]

theorem run_inside {s s' : ReqState} (hs : s.inUrl) {rest : List Char} (h : rest.foldlM parseUrlChar s = some s')
    (method : HTTPMethod) (index : Nat) {n : Nat} (hn : n + rest.length ≤ maxHeaderSize) (target : List Char) :
    Line.run ⟨⟨s, method, index⟩, n, target⟩ rest =
      some ⟨⟨s', method, index⟩, n + rest.length, target ++ rest⟩ := by
  induction rest generalizing s n target with
  | nil =>
    cases h
    simp
  | cons ch rest ih =>
    rw [List.foldlM_cons] at h
    obtain ⟨t, ht, hrest⟩ := Option.bind_eq_some_iff.mp h
    rw [List.length_cons] at hn
    have hin := inUrl_parseUrlChar ht
    have hstep : Line.next ⟨⟨s, method, index⟩, n, target⟩ ch = some ⟨⟨t, method, index⟩, n + 1, target ++ [ch]⟩ := by
      rw [Line.next, if_neg (by simp [behindUrl_of_inUrl hs]), if_neg (by simp only; omega),
        next_of_parseUrlChar hs ht]
      simp [hin]
    rw [Line.run_cons, hstep, Option.bind_some, ih hin hrest (by omega), List.length_cons, Nat.add_assoc,
      Nat.add_comm 1, List.append_assoc, List.singleton_append]

theorem run_url {method : HTTPMethod} {target : List Char} {state : ReqState} (h : urlRun method target = some state)
    (index : Nat) {n : Nat} (hn : n + target.length ≤ maxHeaderSize) :
    Line.run ⟨⟨spacesBeforeUrl, method, index⟩, n, []⟩ target =
      some ⟨⟨state, method, index⟩, n + target.length, target⟩ := by
  cases target with
  | nil => cases h
  | cons ch rest =>
    rw [urlRun] at h
    obtain ⟨s, hs, hrest⟩ := Option.bind_eq_some_iff.mp h
    rw [List.length_cons] at hn
    have hin := inUrl_parseUrlChar hs
    have hstep : Line.next ⟨⟨spacesBeforeUrl, method, index⟩, n, []⟩ ch =
        some ⟨⟨s, method, index⟩, n + 1, [ch]⟩ := by
      rw [Line.next, if_neg (by simp [behindUrl]), if_neg (by simp only; omega)]
      simp only [Control.next, if_neg (parseUrlChar_ne hs).1, hs, Option.map_some, hin, if_true, List.nil_append]
    rw [Line.run_cons, hstep, Option.bind_some, run_inside hin hrest method index (by omega), List.length_cons,
      Nat.add_assoc, Nat.add_comm 1, List.singleton_append]

theorem next_stop {state : ReqState} (hend : mayEnd state) {method : HTTPMethod} {stop : Char}
    (hstop : stop = ' ' ∨ (stop = cr ∨ stop = lf) ∧ method = .get) (index : Nat) :
    ∃ y, Control.next ⟨state, method, index⟩ stop = some y ∧ y.state.behindUrl ∧ y.state.inUrl = false ∧
      y.method = method := by
  rw [next_ending hend]
  rcases hstop with rfl | ⟨hline, rfl⟩
  · exact ⟨_, if_pos rfl, rfl, rfl, rfl⟩
  · rw [if_neg (by rcases hline with rfl | rfl <;> decide), if_pos hline, if_neg (not_not.mpr rfl)]
    exact ⟨_, rfl, by dsimp only; split <;> rfl, by dsimp only; split <;> rfl, rfl⟩

theorem scan_of_requestLine {method : HTTPMethod} {target bytes : List Char} (h : RequestLine method target bytes) :
    ∃ x, scan bytes = some x ∧ x.control.state.behindUrl ∧ x.control.method = method ∧ x.target = target := by
  obtain ⟨skip, spaces, stop, rest, state, rfl, hskip, hspaces, hurl, hend, hstop, hlength⟩ := h
  let index := method.methodName.toList.length + 1
  let pre := skip ++ (method.methodName.toList ++ [' '] ++ spaces)
  have hpre : plainRun {} pre = some ⟨spacesBeforeUrl, method, index⟩ :=
    plainRun_append (plainRun_skip hskip) (plainRun_append (plainRun_method method) (plainRun_spaces hspaces _ _))
  have hbytes : skip ++ (method.methodName.toList ++ ' ' :: (spaces ++ target)) ++ stop :: rest =
      pre ++ (target ++ stop :: rest) := by simp [pre]
  rw [hbytes] at hlength ⊢
  simp only [List.length_append, List.length_cons] at hlength
  have hrun := run_of_plainRun hpre rfl (n := 0) (by omega) []
  have htarget := run_url hurl index (n := 0 + pre.length) (by omega)
  obtain ⟨y, hy, hbehind, hin, hmethod⟩ := next_stop hend hstop index
  have hstep : Line.next ⟨⟨state, method, index⟩, 0 + pre.length + target.length, target⟩ stop =
      some ⟨y, 0 + pre.length + target.length + 1, target⟩ := by
    have hstate : state.behindUrl = false := by cases state <;> first | rfl | cases hend
    rw [Line.next, if_neg (by simp [hstate]), if_neg (by simp only; omega), hy]
    simp [hin]
  refine ⟨⟨y, 0 + pre.length + target.length + 1, target⟩, ?_, hbehind, hmethod, rfl⟩
  rw [scan, Line.run_append, hrun, Option.bind_some, Line.run_append, htarget, Option.bind_some, Line.run_cons, hstep,
    Option.bind_some, Line.run_behind hbehind]

end Complete

end DigitalWallet

import DigitalWallet.Defs.FrontEnd
import DigitalWallet.Laws.QueryString
import DigitalWallet.Laws.Reads
import DigitalWallet.Laws.Router
import DigitalWallet.Laws.StaticFile

namespace DigitalWallet

open Lib CString

section Literal

variable {D : Type} {strtod : List Char → Option (D × Nat)}

theorem capture_literal (rule : List Char) (params : RoutingParams D) (url : List Char) :
    capture strtod (rule.map .chr) params url = if url = rule then some params else none := by
  induction rule generalizing url with
  | nil => rfl
  | cons c rule ih =>
    cases url with
    | nil => rfl
    | cons d url =>
      simp only [List.map_cons, capture, ih, List.cons.injEq]
      by_cases hd : d = c <;> simp [hd]

def behind (base url : List Char) : Option (List Char) :=
  if base.isPrefixOf url ∧ url ≠ base then some (url.drop base.length) else none

theorem capture_path (base : List Char) (params : RoutingParams D) (url : List Char) :
    capture strtod (base.map .chr ++ [.param .path]) params url =
      (behind base url).map fun rest => { params with stringParams := params.stringParams ++ [rest] } := by
  induction base generalizing url with
  | nil => cases url <;> rfl
  | cons c base ih =>
    cases url with
    | nil => simp [behind]
    | cons d url =>
      simp only [List.map_cons, List.cons_append, capture, ih, behind]
      by_cases hd : d = c
      · simp [hd]
      · simp [hd, Ne.symm hd]

end Literal

section Table

def endpoint (url : List Char) : Option WalletRule :=
  [.createAccount, .balanceTransfer, .getBalance, .events].find? fun r => url = r.route.toList

def staticBase : List Char := "/static/".toList

def walletRoute (D : Type) (url : List Char) : Option (WalletRule × RoutingParams D) :=
  match endpoint url with
  | some r => some (r, {})
  | none => (behind staticBase url).map fun rest => (.static, { stringParams := [rest] })

def walletTable : List Route :=
  [(WalletRule.createAccount.route.toList.map .chr, 2), (WalletRule.balanceTransfer.route.toList.map .chr, 3),
    (WalletRule.getBalance.route.toList.map .chr, 4), (WalletRule.events.route.toList.map .chr, 5),
    (staticBase.map .chr ++ [.param .path], 6)]

theorem ruleTable_wallet : ruleTable (WalletRule.all.map WalletRule.route) = some walletTable := by
  decide +kernel

def WalletRule.index (r : WalletRule) : Nat := WalletRule.all.idxOf r + 2

theorem hits_wallet {D : Type} (strtod : List Char → Option (D × Nat)) (url : List Char) :
    hits strtod {} url walletTable =
      (walletRoute D url).toList.map fun x => (x.1.index, x.2) := by
  by_cases hknown : ∃ r ∈ [WalletRule.createAccount, .balanceTransfer, .getBalance, .events], url = r.route.toList
  · obtain ⟨r, hr, rfl⟩ := hknown
    simp only [List.mem_cons, List.not_mem_nil, or_false] at hr
    rcases hr with rfl | rfl | rfl | rfl <;> rfl
  · have hnone : endpoint url = none := by
      rw [endpoint, List.find?_eq_none]
      simpa using hknown
    simp only [List.mem_cons, List.not_mem_nil, or_false, exists_eq_or_imp, exists_eq_left, not_or] at hknown
    obtain ⟨hcreate, htransfer, hbalance, hevents⟩ := hknown
    rw [walletRoute, hnone]
    simp only [hits, walletTable, List.filterMap_cons, capture_literal, if_neg hcreate, if_neg htransfer,
      if_neg hbalance, if_neg hevents, capture_path, Option.map_none, List.filterMap_nil]
    cases behind staticBase url <;> rfl

theorem wallet_build : ∃ trie, Trie.build (WalletRule.all.map WalletRule.route) = some trie ∧
    trie.children ≠ .nil ∧ ∀ (D : Type) (strtod : List Char → Option (D × Nat)) (url : List Char),
      trie.find strtod url = ((walletRoute D url).map fun x => (x.1.index, x.2)).getD (0, {}) := by
  have hnul : ∀ rule ∈ WalletRule.all.map WalletRule.route, nul ∉ rule.toList := by decide +kernel
  rcases Trie.build_cases (by decide) hnul with ⟨hnone, -⟩ | ⟨trie, table, hsome, htable, -, -, hperm, hkeyed, hindex⟩
  · exact absurd hnone (by decide +kernel)
  · cases ruleTable_wallet.symm.trans htable
    refine ⟨trie, hsome, ?_, fun D strtod url => ?_⟩
    · intro hnil
      have hlength := hperm.length_eq
      rw [Trie.routes, hnil, Forest.routes, List.append_nil, ownRoute] at hlength
      split at hlength <;> cases hlength
    · have hbest := Trie.find_table hkeyed hperm hindex strtod url
      rw [hits_wallet] at hbest
      cases hroute : walletRoute D url with
      | none =>
        rw [hroute] at hbest
        exact hbest.1 rfl
      | some x =>
        rw [hroute] at hbest
        simpa using (hbest.2 (by simp)).1

end Table

section Serve

open Connection

variable {D : Type}

def target (url : List Char) (get : String → Option String) (txId : String) : Option Served :=
  match endpoint url with
  | some r => (r.request get txId).map .request
  | none => (behind staticBase url).map fun rest => .file (staticFile rest)

def servedBy (req : HttpRequest) (txId : String) : Served :=
  let served := target req.url (QueryString.ofUrl (String.ofList req.rawUrl)).get txId
  if isInvalidRequest req then .response 400 []
  else if isUpgrade req then .unwritten (if served.isSome ∧ req.method ≠ .get then 405 else 404) []
  else if req.method = .options then
    if served.isSome ∨ req.url = ['/', '*'] then .response 204 [("Allow", "OPTIONS, HEAD, GET")] else .response 404 []
  else
    match served with
    | none => .response 404 []
    | some served => if req.method = .get ∨ req.method = .head then served else .response 405 []

def ruleServed (x : WalletRule × RoutingParams D) (get : String → Option String) (txId : String) : Served :=
  match x.1.request get txId with
  | some request => .request request
  | none => .file (staticFile (x.2.stringParams.headD []))

theorem endpoint_request {url : List Char} {r : WalletRule} (h : endpoint url = some r)
    (get : String → Option String) (txId : String) : ∃ request, r.request get txId = some request := by
  have hmem := List.mem_of_find?_eq_some h
  simp only [List.mem_cons, List.not_mem_nil, or_false] at hmem
  rcases hmem with rfl | rfl | rfl | rfl <;> exact ⟨_, rfl⟩

theorem target_walletRoute (D : Type) (url : List Char) (get : String → Option String) (txId : String) :
    target url get txId = (walletRoute D url).map fun x => ruleServed x get txId := by
  rw [target, walletRoute]
  cases hendpoint : endpoint url with
  | some r =>
    obtain ⟨request, hrequest⟩ := endpoint_request hendpoint get txId
    simp only [Option.map_some, ruleServed, hrequest]
  | none => cases behind staticBase url <;> rfl

theorem allow_none : Router.allow (fun _ => false) = "OPTIONS, HEAD, " := by
  decide +kernel

theorem allow_get : Router.allow (fun m => decide (m = .get)) = "OPTIONS, HEAD, GET, " := by
  decide +kernel

theorem WalletRule.index_spec (r : WalletRule) :
    r.index ≠ 0 ∧ r.index ≠ ruleSpecialRedirectSlash ∧ WalletRule.all[r.index - 2]? = some r := by
  cases r <;> decide

def routesFor (trie : Trie) : Router WalletRule := fun m => if m = .get then ⟨WalletRule.all, trie⟩ else ⟨[], {}⟩

section Trie

variable {trie : Trie} {strtod : List Char → Option (D × Nat)} {req : HttpRequest}

theorem routesFor_find {url : List Char}
    (hfind : trie.find strtod url = ((walletRoute D url).map fun x => (x.1.index, x.2)).getD (0, {})) (m : HTTPMethod) :
    ((routesFor trie m).trie.find strtod url).1 ≠ 0 ↔ (walletRoute D url).isSome ∧ m = .get := by
  by_cases hm : m = .get
  · rw [hm, show (routesFor trie .get).trie = trie from rfl, hfind]
    cases walletRoute D url with
    | none => simp
    | some x => simpa using x.1.index_spec.1
  · have hempty : (routesFor trie m).trie = {} := by rw [routesFor, if_neg hm]
    simp only [hempty, Trie.find, Forest.find, ite_self, ne_eq, not_true_eq_false, hm, and_false]

theorem dispatch_wallet
    (hfind : trie.find strtod req.url = ((walletRoute D req.url).map fun x => (x.1.index, x.2)).getD (0, {}))
    (method : HTTPMethod) :
    (routesFor trie).dispatch strtod method req =
      match walletRoute D req.url with
      | none => .response 404 []
      | some (r, params) => if method = .get then .rule r params else .response 405 [] := by
  have hsome := routesFor_find hfind
  cases hroute : walletRoute D req.url with
  | none =>
    simp only [hroute, Option.isSome_none, Bool.false_eq_true, false_and, iff_false, not_not] at hsome
    simp only [Router.dispatch, hsome, if_true, ne_eq, not_true_eq_false, decide_false, List.any_eq_true, and_false,
      exists_false, Bool.false_eq_true, if_false]
  | some x =>
    obtain ⟨r, params⟩ := x
    simp only [hroute, Option.isSome_some, true_and] at hsome
    by_cases hm : method = .get
    · obtain ⟨hzero, hone, hrule⟩ := r.index_spec
      rw [hroute] at hfind
      have hfound : (routesFor trie .get).trie.find strtod req.url = (r.index, params) := hfind
      have hrules : (routesFor trie .get).rules = WalletRule.all := rfl
      simp only [hm, Router.dispatch, hfound, hrules, if_neg hzero, if_neg hone, hrule, if_true]
    · have hzero : ((routesFor trie method).trie.find strtod req.url).1 = 0 := by
        simpa [hm] using hsome method
      have hany : (HTTPMethod.all.any fun m => decide (m = .get)) = true := by decide
      simp only [Router.dispatch, hzero, hsome, hany, if_true, if_neg hm]

theorem handle_wallet (hchildren : trie.children ≠ .nil)
    (hfind : trie.find strtod req.url = ((walletRoute D req.url).map fun x => (x.1.index, x.2)).getD (0, {})) :
    (routesFor trie).handle strtod req =
      if req.method = .options then
        if (walletRoute D req.url).isSome ∨ req.url = ['/', '*'] then Router.allowed "OPTIONS, HEAD, GET, "
        else .response 404 []
      else (routesFor trie).dispatch strtod (if req.method = .head then .get else req.method) req := by
  have hsome := routesFor_find hfind
  have hnonempty : (fun m => decide ((routesFor trie m).trie.children ≠ .nil)) = fun m => decide (m = .get) := by
    funext m
    by_cases hm : m = .get <;> simp [routesFor, hm, hchildren]
  simp only [Router.handle, hnonempty, allow_get, hsome]
  by_cases hall : req.url = ['/', '*']
  · simp only [hall, or_true, if_true]
  · cases hroute : walletRoute D req.url with
    | none => simp [hall, allow_none]
    | some x => simp [hall, allow_get]

end Trie

theorem walletRouter_eq : ∃ trie : Trie, trie.children ≠ .nil ∧ walletRouter = some (routesFor trie) ∧
    ∀ (D : Type) (strtod : List Char → Option (D × Nat)) (url : List Char),
      trie.find strtod url = ((walletRoute D url).map fun x => (x.1.index, x.2)).getD (0, {}) := by
  obtain ⟨trie, hbuild, hchildren, hfind⟩ := wallet_build
  have hroutes : PerMethod.build (WalletRule.all.map fun r => (r, r.route)) = some ⟨WalletRule.all, trie⟩ := by
    have hsame : Trie.build ((WalletRule.all.map fun r => (r, r.route)).map Prod.snd) = some trie := hbuild
    rw [PerMethod.build, hsame]
    rfl
  have hnone : PerMethod.build ([] : List (WalletRule × String)) = some ⟨[], {}⟩ := rfl
  refine ⟨trie, hchildren, ?_, hfind⟩
  rw [walletRouter, hroutes, hnone]
  rfl

theorem connection_handle {router : Router WalletRule} (hrouter : walletRouter = some router)
    (strtod : List Char → Option (D × Nat)) (req : HttpRequest) (txId : String) :
    Connection.handle router strtod req txId = servedBy req txId := by
  obtain ⟨trie, hchildren, heq, hfind⟩ := walletRouter_eq
  cases heq.symm.trans hrouter
  have hfind := hfind D strtod req.url
  rw [Connection.handle, servedBy, target_walletRoute D]
  split
  · rfl
  split
  · rw [Router.handleUpgrade, dispatch_wallet hfind]
    cases walletRoute D req.url with
    | none => rfl
    | some x => by_cases hm : req.method = .get <;> simp [hm]
  · rw [handle_wallet hchildren hfind, dispatch_wallet hfind]
    by_cases hoptions : req.method = .options
    · rw [if_pos hoptions, if_pos hoptions, Option.isSome_map]
      by_cases hknown : (walletRoute D req.url).isSome ∨ req.url = ['/', '*']
      · simp only [if_pos hknown]
        rfl
      · simp only [if_neg hknown]
        rfl
    · rw [if_neg hoptions, if_neg hoptions]
      cases hroute : walletRoute D req.url with
      | none => rfl
      | some x =>
        have hm : (if req.method = .head then HTTPMethod.get else req.method) = .get ↔
            req.method = .get ∨ req.method = .head := by
          by_cases hhead : req.method = .head <;> simp [hhead]
        simp only [hm, Option.map_some]
        by_cases hget : req.method = .get ∨ req.method = .head
        · simp only [if_pos hget]
          rfl
        · simp only [if_neg hget]
          rfl

/-- Every request whose head is complete: a handler runs for `GET` and `HEAD` on
the path of an endpoint, and for nothing else. -/
theorem request_served : ∃ router, walletRouter = some router ∧
    ∀ (D : Type) (strtod : List Char → Option (D × Nat)) (req : HttpRequest) (txId : String),
      Connection.handle router strtod req txId = servedBy req txId := by
  obtain ⟨trie, -, hrouter, -⟩ := walletRouter_eq
  exact ⟨_, hrouter, fun D strtod req txId => connection_handle hrouter strtod req txId⟩

theorem target_file {url : List Char} {get : String → Option String} {txId : String} {path : List Char}
    (h : target url get txId = some (.file path)) : ∃ rest, path = staticFile rest := by
  rw [target] at h
  split at h
  · obtain ⟨request, -, heq⟩ := Option.map_eq_some_iff.mp h
    cases heq
  · obtain ⟨rest, -, heq⟩ := Option.map_eq_some_iff.mp h
    exact ⟨rest, (Served.file.inj heq).symm⟩

theorem servedBy_file {req : HttpRequest} {txId : String} {path : List Char} (h : servedBy req txId = .file path) :
    ∃ rest, path = staticFile rest := by
  obtain ⟨served, hserved⟩ : ∃ served,
      target req.url (QueryString.ofUrl (String.ofList req.rawUrl)).get txId = served := ⟨_, rfl⟩
  simp only [servedBy, hserved] at h
  cases served with
  | none => split_ifs at h
  | some served =>
    split_ifs at h
    obtain rfl : served = .file path := h
    exact target_file hserved

theorem not_prefix_of_ne {a b : List Char} (hab : a ≠ b) {dir l w : List (List Char)} (h : dir ++ [b] <+: w) :
    ¬dir ++ a :: l <+: w := by
  obtain ⟨t, rfl⟩ := h
  rintro ⟨u, hu⟩
  simp only [List.append_assoc, List.append_cancel_left_eq, List.cons_append, List.cons.injEq] at hu
  exact hab hu.1

theorem walk_config {file : List Char} (hfile : file ∈ (Config.ofEnv fun _ => none).files)
    (dir : List (List Char)) : ∃ name, walk dir file = dir ++ "data".toList :: [name] := by
  have hwalk : ∀ (file name : List Char), file.splitOn '/' = [['.'], "data".toList, name] →
      name ∉ [[], ['.'], ['.', '.']] → walk dir file = dir ++ "data".toList :: [name] := by
    intro file name hsplit hname
    simp only [List.mem_cons, List.not_mem_nil, or_false, not_or] at hname
    rw [walk, hsplit]
    simp [hname]
  simp only [Config.files, List.mem_cons, List.not_mem_nil, or_false] at hfile
  rcases hfile with rfl | rfl | rfl
  · exact ⟨"walletdb".toList, hwalk _ _ (by decide +kernel) (by decide)⟩
  · exact ⟨"account-seed.dat".toList, hwalk _ _ (by decide +kernel) (by decide)⟩
  · exact ⟨"event-log.txt".toList, hwalk _ _ (by decide +kernel) (by decide)⟩

/-- Whatever the URL, a file of the static endpoint lies below the static
directory, and is none of the wallet's own. -/
theorem static_confined {router : Router WalletRule} (hrouter : walletRouter = some router)
    {strtod : List Char → Option (D × Nat)} {req : HttpRequest} {txId : String} {path : List Char}
    (hserve : Connection.handle router strtod req txId = .file path) (dir : List (List Char)) :
    dir ++ ["static".toList] <+: walk dir path ∧
      ∀ file ∈ (Config.ofEnv fun _ => none).files, ¬walk dir file <+: walk dir path := by
  rw [connection_handle hrouter] at hserve
  obtain ⟨rest, rfl⟩ := servedBy_file hserve
  refine ⟨staticFile_below dir rest, fun file hfile => ?_⟩
  obtain ⟨name, hname⟩ := walk_config hfile dir
  rw [hname]
  exact not_prefix_of_ne (by decide) (staticFile_below dir rest)

def localGet (url : String) : HttpRequest :=
  ⟨.get, url.toList, url.toList, fun name => if name = "host" then some "localhost" else none, 1, 1, false⟩

theorem static_confined_example :
    ∃ router path, walletRouter = some router ∧
      Connection.handle router (fun _ => none : List Char → Option (Unit × Nat)) (localGet "/static/../data/account-seed.dat") "" =
        .file path ∧
      ["srv".toList, "static".toList] <+: walk ["srv".toList] path ∧
      ¬walk ["srv".toList] "./data/account-seed.dat".toList <+: walk ["srv".toList] path := by
  obtain ⟨trie, -, hrouter, -⟩ := walletRouter_eq
  have hfile := connection_handle hrouter (fun _ => none : List Char → Option (Unit × Nat))
    (localGet "/static/../data/account-seed.dat") ""
  rw [show servedBy _ _ = .file "static/_/data/account-seed.dat".toList by decide +kernel] at hfile
  obtain ⟨hbelow, hother⟩ := static_confined hrouter hfile ["srv".toList]
  exact ⟨_, _, hrouter, hfile, hbelow, hother _ (by simp [Config.files, Config.ofEnv])⟩

end Serve

section Delivered

open Connection ReqState

def targetChar (c : Char) : Bool := isUrlChar c || c == '?'

theorem targetChar_space {c : Char} (hc : targetChar c) :
    ¬(c = ' ' ∨ c = cr ∨ c = lf ∨ c = '\t' ∨ c = Char.ofNat 12) := by
  rintro (rfl | rfl | rfl | rfl | rfl) <;> cases hc

theorem parseUrlChar_targetChar {s : ReqState} (hs : s ∈ [path, queryStringStart, queryString]) {c : Char}
    (hc : targetChar c) : ∃ t ∈ [path, queryStringStart, queryString], parseUrlChar s c = some t := by
  have hspace := targetChar_space hc
  simp only [List.mem_cons, List.not_mem_nil, or_false] at hs
  rcases hs with rfl | rfl | rfl
  · cases hurl : isUrlChar c with
    | true => exact ⟨path, by simp, by simp only [parseUrlChar, if_neg hspace, hurl, if_true]⟩
    | false =>
      have hmark : c = '?' := by simpa [targetChar, hurl] using hc
      exact ⟨queryStringStart, by simp, by rw [hmark]; rfl⟩
  · exact ⟨queryString, by simp, by simp only [parseUrlChar, if_neg hspace]; exact if_pos hc⟩
  · exact ⟨queryString, by simp, by simp only [parseUrlChar, if_neg hspace]; exact if_pos hc⟩

theorem foldlM_targetChar {s : ReqState} (hs : s ∈ [path, queryStringStart, queryString]) {cs : List Char}
    (hcs : ∀ c ∈ cs, targetChar c) : ∃ s', cs.foldlM parseUrlChar s = some s' ∧ mayEnd s' := by
  induction cs generalizing s with
  | nil =>
    refine ⟨s, rfl, ?_⟩
    simp only [List.mem_cons, List.not_mem_nil, or_false] at hs
    rcases hs with rfl | rfl | rfl <;> rfl
  | cons c cs ih =>
    obtain ⟨hc, hcs⟩ := List.forall_mem_cons.mp hcs
    obtain ⟨t, ht, hparse⟩ := parseUrlChar_targetChar hs hc
    rw [List.foldlM_cons, hparse]
    exact ih ht hcs

theorem WalletRule.route_chars {r : WalletRule} (hr : r ≠ .static) :
    endpoint r.route.toList = some r ∧ ∃ cs, r.route.toList = '/' :: cs ∧
      ∀ c ∈ r.route.toList, targetChar c ∧ c ≠ '?' ∧ c ≠ '#' ∧ c ≠ nul := by
  cases r with
  | static => exact absurd rfl hr
  | _ => exact ⟨by decide +kernel, _, rfl, List.all_iff_forall_prop.mp (by decide +kernel)⟩

theorem joined_chars {encoded : List (String × String)}
    (h : ∀ e ∈ encoded, ∀ c ∈ e.1.toList ++ e.2.toList, targetChar c) : ∀ c ∈ joined encoded, targetChar c := by
  intro c hc
  rcases mem_of_mem_intercalate hc with rfl | ⟨p, hp, hc⟩
  · decide
  · obtain ⟨e, he, rfl⟩ := List.mem_map.mp hp
    rcases List.mem_append.mp hc with hc | hc
    · exact h e he c (List.mem_append_left _ hc)
    · rcases List.mem_cons.mp hc with rfl | hc
      · decide
      · exact h e he c (List.mem_append_right _ hc)

theorem WalletRule.request_congr {get get' : String → Option String}
    (h : ∀ name, Plain name.toList → get name = get' name) (txId : String) (r : WalletRule) :
    r.request get txId = r.request get' txId := by
  cases r with
  | createAccount => simp only [request, h "startAmount" (by decide +kernel)]
  | balanceTransfer =>
    simp only [request, h "fromAccount" (by decide +kernel), h "toAccount" (by decide +kernel),
      h "amount" (by decide +kernel)]
  | getBalance => simp only [request, h "accountID" (by decide +kernel)]
  | events => rfl
  | static => rfl

variable {D : Type} {router : Router WalletRule} {r : WalletRule} {encoded raw : List (String × String)}

theorem handle_endpoint (hrouter : walletRouter = some router) (strtod : List Char → Option (D × Nat))
    {req : HttpRequest} (hvalid : isInvalidRequest req = false) (hupgrade : isUpgrade req = false)
    (hmethod : req.method = .get ∨ req.method = .head)
    (hr : r ≠ .static) (hurl : req.url = r.route.toList) (hraw : req.rawUrl = r.route.toList ++ '?' :: joined encoded)
    (hpairs : EncodesPairs encoded raw) (hne : encoded ≠ []) (hcount : encoded.length ≤ 256) (txId : String)
    {request : Request} (hrequest : r.request (fun name => (raw.lookup name).map cutNul) txId = some request) :
    Connection.handle router strtod req txId = .request request := by
  obtain ⟨hendpoint, -, -, hchars⟩ := r.route_chars hr
  have hget : ∀ name, Plain name.toList →
      (QueryString.ofUrl (String.ofList req.rawUrl)).get name = (raw.lookup name).map cutNul := by
    intro name hname
    rw [QueryString.get_parsed, qsParse_lookup, String.toList_ofList, hraw,
      queryPairs_joined (fun c hc => (hchars c hc).2) hpairs hne hcount]
    exact find_encoded hname hpairs
  have htarget : target req.url (QueryString.ofUrl (String.ofList req.rawUrl)).get txId = some (.request request) := by
    rw [target, hurl, hendpoint]
    simp only [r.request_congr hget, hrequest, Option.map_some]
  have hoptions : req.method ≠ .options := by
    rcases hmethod with hmethod | hmethod <;> rw [hmethod] <;> decide
  rw [connection_handle hrouter, servedBy, htarget, hvalid, hupgrade]
  simp only [Bool.false_eq_true, if_false, if_neg hoptions, if_pos hmethod]

/-- From the bytes to the handler: a request for an endpoint, written in any of
its encodings and cut into reads anywhere behind the start of its query string,
reaches the handler with the parameters that were meant, once the head behind
the target turns out complete, valid and no upgrade. -/
theorem request_delivered (hrouter : walletRouter = some router) (strtod : List Char → Option (D × Nat))
    {method : HTTPMethod} (hmethod : method = .get ∨ method = .head) (hr : r ≠ .static)
    (hpairs : EncodesPairs encoded raw) (hne : encoded ≠ []) (hcount : encoded.length ≤ 256)
    (hchars : ∀ e ∈ encoded, ∀ c ∈ e.1.toList ++ e.2.toList, targetChar c)
    {buffer : Nat} (hbuffer : maxHeaderSize ≤ buffer) {reads : List (List Char)} (hreads : ∀ data ∈ reads, data ≠ [])
    {line rest : List Char}
    (hline : line = method.methodName.toList ++ ' ' :: (r.route.toList ++ '?' :: joined encoded))
    (hbytes : reads.flatten = line ++ ' ' :: rest) (hlength : line.length < maxHeaderSize)
    (htogether : together {} reads) (txId : String) {request : Request}
    (hrequest : r.request (fun name => (raw.lookup name).map cutNul) txId = some request) :
    ∃ parser, HttpParser.feed buffer reads {} = .line parser ∧
      ∀ (headers : String → Option String) (httpMajor httpMinor : Nat) (upgrade : Bool),
        isInvalidRequest (parser.toRequest headers httpMajor httpMinor upgrade) = false →
        isUpgrade (parser.toRequest headers httpMajor httpMinor upgrade) = false →
        Connection.handle router strtod (parser.toRequest headers httpMajor httpMinor upgrade) txId =
          .request request := by
  obtain ⟨-, cs, hcs, hroute⟩ := r.route_chars hr
  have hpath : r.route.toList.takeWhile (· ≠ '?') = r.route.toList :=
    takeWhile_eq_self fun hmem => (hroute _ hmem).2.1 rfl
  have htarget : ∀ c ∈ cs ++ '?' :: joined encoded, targetChar c := by
    rw [List.forall_mem_append, List.forall_mem_cons]
    exact ⟨fun c hc => (hroute c (hcs ▸ List.mem_cons_of_mem _ hc)).1, by decide, joined_chars hchars⟩
  obtain ⟨state, hstate, hend⟩ := foldlM_targetChar (s := path) (by simp) htarget
  have hurl : urlRun method (r.route.toList ++ '?' :: joined encoded) = some state := by
    rw [hcs, List.cons_append, urlRun, if_neg (by rcases hmethod with rfl | rfl <;> decide)]
    exact hstate
  have hrequestLine : RequestLine method (r.route.toList ++ '?' :: joined encoded) reads.flatten := by
    refine ⟨[], [], ' ', rest, state, ?_, by simp, by simp, hurl, hend, .inl rfl, ?_⟩
    · rw [hbytes, hline]
      simp
    · rw [hbytes, List.length_append, List.length_cons]
      omega
  obtain ⟨parser, hfeed, hparserMethod, hraw, hparserUrl⟩ := feed_requestLine hbuffer hreads hrequestLine
  refine ⟨parser, hfeed, fun headers httpMajor httpMinor upgrade hvalid hupgrade =>
    handle_endpoint hrouter strtod hvalid hupgrade ?_ hr ?_ hraw hpairs hne hcount txId hrequest⟩
  · change parser.control.method = _ ∨ parser.control.method = _
    rwa [hparserMethod]
  · change parser.url = _
    rw [hparserUrl, if_pos ⟨by simp [hcs], htogether⟩, List.takeWhile_append, if_pos (by rw [hpath])]
    simp

-- a whole request, with an escaped digit and in two reads
theorem request_delivered_example :
    ∃ router, walletRouter = some router ∧ ∃ parser,
      HttpParser.feed (2 ^ 20)
        ["GET /api/1.0/wallet/get_balance?accou".toList,
          "ntID=7%300 HTTP/1.1\r\nHost: localhost\r\n\r\n".toList] {} = .line parser ∧
      Connection.handle router (fun _ => none : List Char → Option (Unit × Nat))
        (parser.toRequest (fun name => if name = "host" then some "localhost" else none) 1 1 false) "" =
          .request (.getBalance (some "700")) := by
  obtain ⟨trie, -, hrouter, -⟩ := walletRouter_eq
  have hname : Encodes "accountID".toList "accountID".toList := by
    have hcode := percentEncode_encodes (r := "accountID".toList) (List.all_iff_forall_prop.mp (by decide +kernel))
    rwa [show percentEncode "accountID".toList = "accountID".toList by decide +kernel] at hcode
  have hvalue : Encodes "7%300".toList "700".toList :=
    .plain (by decide) (by decide) (by decide) (.hex (by decide) (by decide)
      (.plain (by decide) (by decide) (by decide) .nil))
  have hpairs : EncodesPairs [("accountID", "7%300")] [("accountID", "700")] := .cons ⟨hname, hvalue⟩ .nil
  have hbytes : ["GET /api/1.0/wallet/get_balance?accou".toList,
        "ntID=7%300 HTTP/1.1\r\nHost: localhost\r\n\r\n".toList].flatten =
      "GET /api/1.0/wallet/get_balance?accountID=7%300".toList ++
        ' ' :: "HTTP/1.1\r\nHost: localhost\r\n\r\n".toList := by decide +kernel
  have hchars : ∀ c ∈ "accountID".toList ++ "7%300".toList, targetChar c :=
    List.all_iff_forall_prop.mp (by decide +kernel)
  obtain ⟨parser, hfeed, hhandle⟩ := request_delivered hrouter (fun _ => none : List Char → Option (Unit × Nat))
    (.inl rfl) (r := .getBalance) (by decide) hpairs (by simp) (by simp)
    (by simpa only [List.forall_mem_singleton] using hchars) (show maxHeaderSize ≤ 2 ^ 20 by decide) (by decide)
    (by decide +kernel) hbytes (by decide +kernel) (by decide +kernel) "" rfl
  exact ⟨_, hrouter, parser, hfeed, hhandle _ _ _ _ rfl rfl⟩

end Delivered

end DigitalWallet

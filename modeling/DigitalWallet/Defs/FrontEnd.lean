import DigitalWallet.Defs.Handlers
import DigitalWallet.Defs.Http
import DigitalWallet.Defs.QueryString
import DigitalWallet.Defs.Router
import DigitalWallet.Defs.StaticFile

namespace DigitalWallet

variable {ρ D : Type}

structure HttpRequest where
  method : HTTPMethod
  rawUrl : List Char
  url : List Char
  -- what `find` gives for a name, without regard to case
  headers : String → Option String
  httpVerMajor : Nat
  httpVerMinor : Nat
  upgrade : Bool

def HttpRequest.getHeaderValue (req : HttpRequest) (key : String) : String := (req.headers key).getD ""

def HttpRequest.checkVersion (req : HttpRequest) (major minor : Nat) : Bool :=
  req.httpVerMajor == major && req.httpVerMinor == minor

-- the fields behind the URL are read after it, and the URL is not touched again
def HttpParser.toRequest (parser : HttpParser) (headers : String → Option String) (httpMajor httpMinor : Nat)
    (upgrade : Bool) : HttpRequest :=
  ⟨parser.control.method, parser.rawUrl, parser.url, headers, httpMajor, httpMinor, upgrade⟩

-- the rules of one method, from the index 2 on
structure PerMethod (ρ : Type) where
  rules : List ρ
  trie : Trie

def PerMethod.build (rules : List (ρ × String)) : Option (PerMethod ρ) :=
  (Trie.build (rules.map Prod.snd)).map fun trie => ⟨rules.map Prod.fst, trie⟩

abbrev Router (ρ : Type) := HTTPMethod → PerMethod ρ

inductive Routed (ρ D : Type)
  | response (code : Nat) (headers : List (String × String))
  | rule (r : ρ) (params : RoutingParams D)
  | corrupted

namespace Router

-- the names of some methods behind the two that are always there
def allow (p : HTTPMethod → Bool) : String :=
  HTTPMethod.all.foldl (fun allow m => if p m then allow ++ m.methodName ++ ", " else allow) "OPTIONS, HEAD, "

def allowed (allow : String) : Routed ρ D :=
  .response 204 [("Allow", String.ofList (allow.toList.take (allow.toList.length - 2)))]

-- the search that `handle` and `handle_upgrade` share; there are no blueprints
-- and no catchall rule
def dispatch (router : Router ρ) (strtod : List Char → Option (D × Nat)) (methodActual : HTTPMethod)
    (req : HttpRequest) : Routed ρ D :=
  let perMethod := router methodActual
  let (ruleIndex, params) := perMethod.trie.find strtod req.url
  if ruleIndex = 0 then
    if HTTPMethod.all.any fun m => ((router m).trie.find strtod req.url).1 ≠ 0 then .response 405 []
    else .response 404 []
  else if ruleIndex = ruleSpecialRedirectSlash then
    let host := req.getHeaderValue "host"
    let location := if host = "" then String.ofList req.url ++ "/" else "http://" ++ host ++ String.ofList req.url ++ "/"
    .response 301 [("Location", location)]
  else
    match perMethod.rules[ruleIndex - 2]? with
    | some r => .rule r params
    | none => .corrupted

def handle (router : Router ρ) (strtod : List Char → Option (D × Nat)) (req : HttpRequest) : Routed ρ D :=
  if req.method = .options then
    if req.url = ['/', '*'] then allowed (allow fun m => (router m).trie.children ≠ .nil)
    else
      let names := allow fun m => ((router m).trie.find strtod req.url).1 ≠ 0
      if names ≠ "OPTIONS, HEAD, " then allowed names else .response 404 []
  else router.dispatch strtod (if req.method = .head then .get else req.method) req

-- neither a `HEAD` nor an `OPTIONS` is treated apart here
def handleUpgrade (router : Router ρ) (strtod : List Char → Option (D × Nat)) (req : HttpRequest) : Routed ρ D :=
  router.dispatch strtod req.method req

end Router

/-- The routes of `main.cpp`, and the one for static files that is added when the
server starts. -/
inductive WalletRule
  | createAccount | balanceTransfer | getBalance | events | static
  deriving DecidableEq

namespace WalletRule

def route : WalletRule → String
  | createAccount => "/api/1.0/wallet/create_account"
  | balanceTransfer => "/api/1.0/wallet/balance_transfer"
  | getBalance => "/api/1.0/wallet/get_balance"
  | events => "/api/1.0/wallet/events"
  | static => "/static/<path>"

def all : List WalletRule := [createAccount, balanceTransfer, getBalance, events, static]

def request (get : String → Option String) (txId : String) : WalletRule → Option Request
  | createAccount => some (.createAccount (get "startAmount"))
  | balanceTransfer => some (.balanceTransfer (get "fromAccount") (get "toAccount") (get "amount") txId)
  | getBalance => some (.getBalance (get "accountID"))
  | events => some .events
  | static => none

end WalletRule

-- a rule without methods of its own is for `GET`
def walletRouter : Option (Router WalletRule) := do
  let routes ← PerMethod.build (WalletRule.all.map fun r => (r, r.route))
  let none ← PerMethod.build []
  return fun m => if m = .get then routes else none

structure Config where
  dbPath : String := "./data/walletdb"
  seedFile : String := "./data/account-seed.dat"
  eventLog : String := "./data/event-log.txt"

def Config.ofEnv (getenv : String → Option String) : Config where
  dbPath := (getenv "WALLET_DB_PATH").getD "./data/walletdb"
  seedFile := (getenv "WALLET_SEED_FILE").getD "./data/account-seed.dat"
  eventLog := (getenv "WALLET_EVENT_LOG").getD "./data/event-log.txt"

def Config.files (c : Config) : List (List Char) := [c.dbPath.toList, c.seedFile.toList, c.eventLog.toList]

/-- What the server does with a request: it runs a handler, looks for a file,
answers by itself, or closes the connection on an answer that it has made and
does not write. -/
inductive Served
  | request (r : Request)
  | file (path : List Char)
  | response (code : Nat) (headers : List (String × String))
  | unwritten (code : Nat) (headers : List (String × String))
  | corrupted
  deriving DecidableEq

namespace Connection

-- a location without a scheme is taken for a route
def completeRequest (req : HttpRequest) (code : Nat) (headers : List (String × String)) : Served :=
  .response code <| headers.map fun (name, value) =>
    if name = "Location" ∧ value ≠ "" ∧ ¬"://".toList <:+: value.toList then
      ("location", "http://" ++ req.getHeaderValue "host" ++ value)
    else (name, value)

def isInvalidRequest (req : HttpRequest) : Bool := req.checkVersion 1 1 && (req.headers "host").isNone

-- HTTP/2 is asked for in vain, and the request handled as it is
def isUpgrade (req : HttpRequest) : Bool :=
  req.checkVersion 1 1 && req.upgrade && (req.getHeaderValue "upgrade").toList.take 2 != ['h', '2']

def handle (router : Router WalletRule) (strtod : List Char → Option (D × Nat)) (req : HttpRequest) (txId : String) :
    Served :=
  if isInvalidRequest req then completeRequest req 400 []
  else if isUpgrade req then
    -- nothing waits for the response yet, and the connection is closed behind it
    match router.handleUpgrade strtod req with
    | .response code headers => .unwritten code headers
    | .corrupted => .corrupted
    -- no rule of the wallet has an upgrade of its own
    | .rule _ _ => .unwritten 404 []
  else
    match router.handle strtod req with
    | .response code headers => completeRequest req code headers
    | .corrupted => .corrupted
    | .rule r params =>
      match r.request (QueryString.ofUrl (String.ofList req.rawUrl)).get txId with
      | some request => .request request
      | none => .file (staticFile (params.stringParams.headD []))

end Connection

end DigitalWallet

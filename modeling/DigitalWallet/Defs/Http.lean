import DigitalWallet.Lib.CString

namespace DigitalWallet

open Lib CString

inductive HTTPMethod
  | delete | get | head | post | put | connect | options | trace | patch | purge | copy | lock | mkCol | move
  | propfind | proppatch | search | unlock | bind | rebind | unbind | acl | report | mkActivity | checkout | merge
  | mSearch | notify | subscribe | unsubscribe | mkCalendar | link | unlink | source
  deriving DecidableEq

namespace HTTPMethod

def methodName : HTTPMethod → String
  | delete => "DELETE"
  | get => "GET"
  | head => "HEAD"
  | post => "POST"
  | put => "PUT"
  | connect => "CONNECT"
  | options => "OPTIONS"
  | trace => "TRACE"
  | patch => "PATCH"
  | purge => "PURGE"
  | copy => "COPY"
  | lock => "LOCK"
  | mkCol => "MKCOL"
  | move => "MOVE"
  | propfind => "PROPFIND"
  | proppatch => "PROPPATCH"
  | search => "SEARCH"
  | unlock => "UNLOCK"
  | bind => "BIND"
  | rebind => "REBIND"
  | unbind => "UNBIND"
  | acl => "ACL"
  | report => "REPORT"
  | mkActivity => "MKACTIVITY"
  | checkout => "CHECKOUT"
  | merge => "MERGE"
  | mSearch => "M-SEARCH"
  | notify => "NOTIFY"
  | subscribe => "SUBSCRIBE"
  | unsubscribe => "UNSUBSCRIBE"
  | mkCalendar => "MKCALENDAR"
  | link => "LINK"
  | unlink => "UNLINK"
  | source => "SOURCE"

def all : List HTTPMethod :=
  [delete, get, head, post, put, connect, options, trace, patch, purge, copy, lock, mkCol, move, propfind, proppatch,
    search, unlock, bind, rebind, unbind, acl, report, mkActivity, checkout, merge, mSearch, notify, subscribe,
    unsubscribe, mkCalendar, link, unlink, source]

def ofInitial : Char → Option HTTPMethod
  | 'A' => some acl
  | 'B' => some bind
  | 'C' => some connect
  | 'D' => some delete
  | 'G' => some get
  | 'H' => some head
  | 'L' => some lock
  | 'M' => some mkCol
  | 'N' => some notify
  | 'O' => some options
  | 'P' => some post
  | 'R' => some report
  | 'S' => some subscribe
  | 'T' => some trace
  | 'U' => some unlock
  | _ => none

def change (method : HTTPMethod) (index : Nat) (ch : Char) : Option HTTPMethod :=
  match method, index, ch with
  | post, 1, 'U' => some put
  | post, 1, 'A' => some patch
  | post, 1, 'R' => some propfind
  | put, 2, 'R' => some purge
  | connect, 1, 'H' => some checkout
  | connect, 2, 'P' => some copy
  | mkCol, 1, 'O' => some move
  | mkCol, 1, 'E' => some merge
  | mkCol, 1, '-' => some mSearch
  | mkCol, 2, 'A' => some mkActivity
  | mkCol, 3, 'A' => some mkCalendar
  | subscribe, 1, 'E' => some search
  | subscribe, 1, 'O' => some source
  | report, 2, 'B' => some rebind
  | propfind, 4, 'P' => some proppatch
  | lock, 1, 'I' => some link
  | unlock, 2, 'S' => some unsubscribe
  | unlock, 2, 'B' => some unbind
  | unlock, 3, 'I' => some unlink
  | _, _, _ => none

end HTTPMethod

def cr : Char := '\r'

def lf : Char := '\n'

def isUserinfoChar (c : Char) : Bool :=
  c.isAlpha || c.isDigit ||
    c ∈ ['-', '_', '.', '!', '~', '*', '\'', '(', ')', '%', ';', ':', '&', '=', '+', '$', ',']

def isUrlChar (c : Char) : Bool := '!' ≤ c && c ≤ '~' && c != '#' && c != '?'

/-- The states up to the one behind the target; without a version a line end
leads to one of the last two. -/
inductive ReqState
  | startReq | reqMethod | spacesBeforeUrl
  | schema | schemaSlash | schemaSlashSlash | serverStart | server | serverWithAt | path
  | queryStringStart | queryString
  | httpStart | reqLineAlmostDone | headerFieldStart
  deriving DecidableEq

namespace ReqState

def inUrl (s : ReqState) : Bool :=
  s ∈ [path, schema, schemaSlash, schemaSlashSlash, serverStart, server, serverWithAt, queryStringStart, queryString]

def behindUrl (s : ReqState) : Bool := s ∈ [httpStart, reqLineAlmostDone, headerFieldStart]

end ReqState

open ReqState

/-- `none` is `s_dead`.  It is when `queryStringStart` is returned that the
position of the query string is taken down. -/
def parseUrlChar (s : ReqState) (ch : Char) : Option ReqState :=
  if ch = ' ' ∨ ch = cr ∨ ch = lf ∨ ch = '\t' ∨ ch = Char.ofNat 12 then none
  else
    match s with
    | .spacesBeforeUrl => if ch = '/' ∨ ch = '*' then some path else if ch.isAlpha then some schema else none
    | .schema => if ch.isAlpha then some schema else if ch = ':' then some schemaSlash else none
    | .schemaSlash => if ch = '/' then some schemaSlashSlash else none
    | .schemaSlashSlash => if ch = '/' then some serverStart else none
    | .serverWithAt => if ch = '@' then none else serverChar ch
    | .serverStart => serverChar ch
    | .server => serverChar ch
    | .path => if isUrlChar ch then some path else if ch = '?' then some queryStringStart else none
    | .queryStringStart => if isUrlChar ch || ch == '?' then some queryString else none
    | .queryString => if isUrlChar ch || ch == '?' then some queryString else none
    | _ => none
where
  serverChar (ch : Char) : Option ReqState :=
    if ch = '/' then some path
    else if ch = '?' then some queryStringStart
    else if ch = '@' then some serverWithAt
    else if isUserinfoChar ch || ch == '[' || ch == ']' then some server
    else none

structure Control where
  state : ReqState := startReq
  method : HTTPMethod := .delete
  index : Nat := 0
  deriving DecidableEq

def Control.next (x : Control) (ch : Char) : Option Control :=
  match x.state with
  | .startReq =>
    if ch = cr ∨ ch = lf then some x
    else (HTTPMethod.ofInitial ch).map fun method => ⟨reqMethod, method, 1⟩
  | .reqMethod =>
    if ch = nul then none
    else if ch = ' ' ∧ peek x.method.methodName.toList x.index = nul then
      some { x with state := spacesBeforeUrl, index := x.index + 1 }
    else if ch = peek x.method.methodName.toList x.index then some { x with index := x.index + 1 }
    else if ('A' ≤ ch ∧ ch ≤ 'Z') ∨ ch = '-' then
      (x.method.change x.index ch).map fun method => { x with method := method, index := x.index + 1 }
    else none
  | .spacesBeforeUrl =>
    if ch = ' ' then some x
    else
      let state := if x.method = .connect then serverStart else x.state
      (parseUrlChar state ch).map fun state => { x with state := state }
  | .schema | .schemaSlash | .schemaSlashSlash | .serverStart =>
    if ch = ' ' ∨ ch = cr ∨ ch = lf then none
    else (parseUrlChar x.state ch).map fun state => { x with state := state }
  | .server | .serverWithAt | .path | .queryStringStart | .queryString =>
    if ch = ' ' then some { x with state := httpStart }
    else if ch = cr ∨ ch = lf then
      -- no version follows: HTTP/0.9, which has no other method
      if x.method ≠ .get then none
      else some { x with state := if ch = cr then reqLineAlmostDone else headerFieldStart }
    else (parseUrlChar x.state ch).map fun state => { x with state := state }
  | _ => none

structure HttpParser where
  control : Control := {}
  nread : Nat := 0
  rawUrl : List Char := []
  qsPoint : Nat := 0
  deriving DecidableEq

structure Marks where
  url : Option Nat := none
  urlStart : Option Nat := none
  deriving DecidableEq

def maxHeaderSize : Nat := 80 * 1024

namespace HttpParser

def onUrl (h : HttpParser) (data : List Char) (m : Marks) (p : Nat) : HttpParser :=
  match m.url with
  | none => h
  | some mark => { h with rawUrl := h.rawUrl ++ (data.take p).drop mark }

/-- The character at `p`.  Where the mark of the start is not set, the place of
the query string is taken from the null pointer on, and what is taken down is
the address of the character. -/
def step (buffer : Nat) (data : List Char) (p : Nat) (ch : Char) (h : HttpParser) (m : Marks) :
    Option (HttpParser × Marks) :=
  if maxHeaderSize < h.nread + 1 then none
  else
    (h.control.next ch).map fun control =>
      let m :=
        if h.control.state = spacesBeforeUrl ∧ ch ≠ ' ' then
          { url := m.url.or (some p), urlStart := m.urlStart.or (some p) }
        else m
      let qsPoint :=
        if control.state = queryStringStart then
          match m.urlStart with
          | some mark => p - mark
          | none => buffer + p
        else h.qsPoint
      let h := { h with control := control, nread := h.nread + 1, qsPoint := qsPoint }
      if control.state.behindUrl then (h.onUrl data m p, { m with url := none }) else (h, m)

end HttpParser

inductive Fed
  | more (h : HttpParser)
  | line (h : HttpParser)
  | error
  deriving DecidableEq

namespace HttpParser

def executeLoop (buffer : Nat) (data : List Char) : List Char → Nat → HttpParser → Marks → Fed
  | [], p, h, m => .more (h.onUrl data m p)
  | ch :: rest, p, h, m =>
    match h.step buffer data p ch m with
    | none => .error
    | some (h, m) => if h.control.state.behindUrl then .line h else executeLoop buffer data rest (p + 1) h m

def execute (buffer : Nat) (data : List Char) (h : HttpParser) : Fed :=
  if data = [] then if h.control.state = startReq then .more h else .error
  else executeLoop buffer data data 0 h { url := if h.control.state.inUrl then some 0 else none }

def feed (buffer : Nat) : List (List Char) → HttpParser → Fed
  | [], h => .more h
  | data :: reads, h =>
    match h.execute buffer data with
    | .more h => feed buffer reads h
    | fed => fed

def url (h : HttpParser) : List Char := if h.qsPoint ≠ 0 then h.rawUrl.take h.qsPoint else h.rawUrl

end HttpParser

end DigitalWallet

import DigitalWallet.Lib.CString

/-! `qs_parse` and `crow::query_string` of `crow_all.h`: the parameters of a
request URL, found and decoded in place.  Pointers that are written through are
offsets into the buffer; pointers that are only read are what is left from them
on. -/

namespace DigitalWallet

open Lib CString

def qsIsHex (x : Char) : Bool :=
  ('0' ≤ x && x ≤ '9') || ('A' ≤ x && x ≤ 'F') || ('a' ≤ x && x ≤ 'f')

def qsHex2Dec (x : Char) : Nat :=
  if '0' ≤ x ∧ x ≤ '9' then x.toNat - 48
  else if 'A' ≤ x ∧ x ≤ 'F' then x.toNat - 55
  else if 'a' ≤ x ∧ x ≤ 'f' then x.toNat - 87
  else 0

def qsIsQsChr (x : Char) : Bool := !(x == '=' || x == '#' || x == '&' || x == nul)

def qsByte (unyb lnyb : Char) : Char := Char.ofNat (qsHex2Dec unyb * 16 + qsHex2Dec lnyb)

def qsNext (s : List Char) : Char × List Char :=
  let u := s.headD nul
  let s := s.tail
  if !qsIsQsChr u then (nul, s)
  else if u = '+' then (' ', s)
  else if u = '%' then
    let unyb := s.headD nul
    let lnyb := s.tail.headD nul
    (if qsIsHex unyb && qsIsHex lnyb then qsByte unyb lnyb else nul, s.tail.tail)
  else (u, s)

def qsStrncmp (s qs : List Char) : Nat → Int
  | 0 => if qsIsQsChr (qs.headD nul) then -1 else 0
  | n + 1 =>
    let (u1, s) := qsNext s
    let (u2, qs) := qsNext qs
    if u1 ≠ u2 then (u1.toNat : Int) - u2.toNat
    else if u1 = nul then 0
    else qsStrncmp s qs n

/-- `qs_decode`: `i` writes and `j` reads.  No more rounds are needed than the
buffer is long. -/
def qsDecodeLoop : Nat → List Char → Nat → Nat → List Char
  | 0, qs, i, _ => qs.set i nul
  | n + 1, qs, i, j =>
    if !qsIsQsChr (peek qs j) then qs.set i nul
    else if peek qs j = '+' then qsDecodeLoop n (qs.set i ' ') (i + 1) (j + 1)
    else if peek qs j = '%' then
      if !qsIsHex (peek qs (j + 1)) || !qsIsHex (peek qs (j + 2)) then qs.set i nul
      else qsDecodeLoop n (qs.set i (qsByte (peek qs (j + 1)) (peek qs (j + 2)))) (i + 1) (j + 3)
    else qsDecodeLoop n (qs.set i (peek qs j)) (i + 1) (j + 1)

def qsDecode (qs : List Char) (p : Nat) : List Char := qsDecodeLoop qs.length qs p p

def qsPairs (qs : List Char) (substr : Nat) : Nat → List Nat
  | 0 => []
  | n + 1 =>
    let j := strcspn qs substr ['&']
    if peek qs (substr + j) = nul then [substr] else substr :: qsPairs qs (substr + j + 1) n

def qsDecodeValue (qs : List Char) (kv : Nat) : List Char :=
  let substr := kv + strcspn qs kv ['=', '&', '#']
  if peek qs substr = '&' ∨ peek qs substr = nul then qs.set substr nul else qsDecode qs (substr + 1)

def qsParse (qs : List Char) (size : Nat) : List Char × List Nat :=
  let substr := strcspn qs 0 ['?', '#']
  if peek qs substr = nul then (qs, [])
  else
    let kv := qsPairs qs (substr + 1) size
    (kv.foldl qsDecodeValue qs, kv)

def qsK2v (key : List Char) (qs : List Char) : List Nat → Nat → Option Nat
  | [], _ => none
  | kv :: kvs, nth =>
    if qsStrncmp key (qs.drop kv) (str key 0).length = 0 then
      let skip := strcspn qs kv ['=']
      let skip := if peek qs (kv + skip) = '=' then skip + 1 else skip
      match nth with
      | 0 => some (kv + skip)
      | nth + 1 => qsK2v key qs kvs nth
    else qsK2v key qs kvs nth

structure QueryString where
  url : List Char
  keyValuePairs : List Nat

namespace QueryString

def maxKeyValuePairsCount : Nat := 256

-- the buffer is the URL and the terminator `std::string` keeps after it
def ofUrl (url : String) : QueryString :=
  if url.isEmpty then ⟨[nul], []⟩
  else
    let (buf, kv) := qsParse (url.toList ++ [nul]) maxKeyValuePairsCount
    ⟨buf, kv⟩

def get (q : QueryString) (name : String) : Option String :=
  (qsK2v name.toList q.url q.keyValuePairs 0).map fun p => String.ofList (str q.url p)

end QueryString

end DigitalWallet

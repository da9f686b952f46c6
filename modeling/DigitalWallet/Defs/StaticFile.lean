import DigitalWallet.Lib.CString

namespace DigitalWallet

open Lib CString

def toUpper (c : Char) : Char := if 'a' ≤ c ∧ c ≤ 'z' then Char.ofNat (c.toNat - 32) else c

def matchSpecial (source : List Char) : List Char → Nat → Option Nat
  | [], i => some i
  | p :: ps, i =>
    if source.length ≤ i then none
    else if toUpper (peek source i) ≠ p then none
    else matchSpecial source ps (i + 1)

def skipNumber (source : List Char) (i : Nat) : Option Nat :=
  if source.length ≤ i ∨ peek source i < '1' ∨ '9' < peek source i then none else some (i + 1)

def sanitizeSpecialFile (replacement : Char) (source : List Char) (ofs : Nat) (pattern : List Char)
    (includeNumber : Bool) : List Char :=
  match (matchSpecial source pattern ofs).bind fun i => if includeNumber then skipNumber source i else some i with
  | none => source
  | some i =>
    if source.length ≤ i ∨ peek source i ∈ ['.', ':', '/', '\\'] then
      (source.take (ofs + 1) ++ source.drop i).set ofs replacement
    else source

def sanitizeEntry (replacement : Char) (data : List Char) (i : Nat) : List Char :=
  match toUpper (peek data i) with
  | 'A' => sanitizeSpecialFile replacement data i ['A', 'U', 'X'] false
  | 'C' =>
    sanitizeSpecialFile replacement
      (sanitizeSpecialFile replacement data i ['C', 'O', 'N'] false) i ['C', 'O', 'M'] true
  | 'L' => sanitizeSpecialFile replacement data i ['L', 'P', 'T'] true
  | 'N' => sanitizeSpecialFile replacement data i ['N', 'U', 'L'] false
  | 'P' => sanitizeSpecialFile replacement data i ['P', 'R', 'N'] false
  | '.' => sanitizeSpecialFile replacement data i ['.', '.'] false
  | _ => data

def badChar (c : Char) : Bool :=
  c < ' ' || (0x80 ≤ c.toNat && c.toNat ≤ 0x9F) || c ∈ ['?', '<', '>', ':', '*', '|', '"']

/-- The loop over the characters.  A name never grows, so no more rounds are
needed than it is long. -/
def sanitizeLoop (replacement : Char) : Nat → List Char → Nat → Bool → List Char
  | 0, data, _, _ => data
  | n + 1, data, i, checkForSpecialEntries =>
    if i < data.length then
      let data := if checkForSpecialEntries then sanitizeEntry replacement data i else data
      let c := peek data i
      if badChar c then sanitizeLoop replacement n (data.set i replacement) (i + 1) false
      else if c = '/' ∨ c = '\\' then
        if i = 0 then sanitizeLoop replacement n (data.set i replacement) (i + 1) false
        else sanitizeLoop replacement n data (i + 1) true
      else sanitizeLoop replacement n data (i + 1) false
    else data

def sanitizeFilename (replacement : Char) (data : List Char) : List Char :=
  let data := data.take 255
  sanitizeLoop replacement data.length data 0 true

def staticFile (filePathPartial : List Char) : List Char :=
  "static/".toList ++ sanitizeFilename '_' filePathPartial

end DigitalWallet

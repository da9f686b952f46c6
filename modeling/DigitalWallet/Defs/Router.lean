import DigitalWallet.Lib.CString
import Mathlib.Algebra.Group.Int.Defs
import Mathlib.Algebra.Group.Nat.Defs

namespace DigitalWallet

open Lib CString

inductive ParamType
  | int | uint | double | string | path
  deriving DecidableEq

inductive Token
  | chr (c : Char)
  | param (p : ParamType)
  deriving DecidableEq

def paramTraits : List (ParamType × List Char) :=
  [(.int, "<int>".toList), (.uint, "<uint>".toList), (.double, "<float>".toList),
    (.double, "<double>".toList), (.string, "<str>".toList), (.string, "<string>".toList),
    (.path, "<path>".toList)]

/-- The rule from behind `skip` characters on.  At a `<` that starts none of the
names `Trie::add` never comes to an end; `none` stands for that. -/
def tokens : List Char → Nat → Option (List Token)
  | [], _ => some []
  | _ :: url, skip + 1 => tokens url skip
  | c :: url, 0 =>
    if c = '<' then
      match paramTraits.find? fun x => x.2.isPrefixOf (c :: url) with
      | some (type, name) => (tokens url (name.length - 1)).map (.param type :: ·)
      | none => none
    else (tokens url 0).map (.chr c :: ·)

def scanNumber (url : List Char) : Option (Int × List Char) :=
  let (negative, digits) :=
    match url with
    | '-' :: digits => (true, digits)
    | '+' :: digits => (false, digits)
    | digits => (false, digits)
  match digits.takeWhile Char.isDigit with
  | [] => none
  | ds =>
    let n : Int := Nat.ofDigitChars 10 ds 0
    some (if negative then -n else n, digits.dropWhile Char.isDigit)

structure RoutingParams (D : Type) where
  intParams : List Int := []
  uintParams : List Nat := []
  doubleParams : List D := []
  stringParams : List (List Char) := []
  deriving DecidableEq

section Params

variable {D : Type}

/-- A parameter taken off the URL.  `strtod` has the number that the C library
reads and how many characters it takes, if there is one and it is in range. -/
def ParamType.read (strtod : List Char → Option (D × Nat)) (params : RoutingParams D) :
    ParamType → List Char → Option (RoutingParams D × List Char)
  | .int, url =>
    let c := url.headD nul
    if c.isDigit || c == '+' || c == '-' then
      (scanNumber url).bind fun (value, rest) =>
        if -2 ^ 63 ≤ value ∧ value < 2 ^ 63 then
          some ({ params with intParams := params.intParams ++ [value] }, rest)
        else none
    else none
  | .uint, url =>
    let c := url.headD nul
    if c.isDigit || c == '+' then
      (scanNumber url).bind fun (value, rest) =>
        if value < 2 ^ 64 then
          some ({ params with uintParams := params.uintParams ++ [value.toNat] }, rest)
        else none
    else none
  | .double, url =>
    let c := url.headD nul
    if c.isDigit || c == '+' || c == '-' || c == '.' then
      (strtod url).map fun (value, n) =>
        ({ params with doubleParams := params.doubleParams ++ [value] }, url.drop n)
    else none
  | .string, url =>
    if url.headD nul = '/' then none
    else
      some ({ params with stringParams := params.stringParams ++ [url.takeWhile (· ≠ '/')] },
        url.dropWhile (· ≠ '/'))
  | .path, url => some ({ params with stringParams := params.stringParams ++ [url] }, [])

end Params

inductive Forest
  | nil
  | node (ruleIndex : Nat) (key : List Char) (param : Option ParamType) (children siblings : Forest)
  deriving DecidableEq

structure Trie where
  ruleIndex : Nat := 0
  children : Forest := .nil
  deriving DecidableEq

section Find

variable {D : Type} (strtod : List Char → Option (D × Nat))

-- the smallest rule index wins; 0 is no rule
def updateFound (found ret : Nat × RoutingParams D) : Nat × RoutingParams D :=
  if ret.1 ≠ 0 ∧ (found.1 = 0 ∨ ret.1 < found.1) then ret else found

def fragment (key : List Char) (param : Option ParamType) (params : RoutingParams D) (url : List Char) :
    Option (RoutingParams D × List Char) :=
  match param with
  | some p => p.read strtod params url
  | none => if key.isPrefixOf url then some (params, url.drop key.length) else none

def Forest.find (url : List Char) (params : RoutingParams D) :
    Forest → Nat × RoutingParams D → Nat × RoutingParams D
  | .nil, found => found
  | .node ruleIndex key param children siblings, found =>
    match fragment strtod key param params url with
    | none => siblings.find url params found
    | some (params', rest) =>
      let ret := if rest = [] then (ruleIndex, params') else Forest.find rest params' children (0, {})
      siblings.find url params (updateFound found ret)

def Trie.find (t : Trie) (url : List Char) : Nat × RoutingParams D :=
  if url = [] then (t.ruleIndex, {}) else t.children.find strtod url {} (0, {})

end Find

def Token.leads (key : List Char) (param : Option ParamType) : Token → Bool
  | .chr c => key.headD nul == c
  | .param p => param == some p

def Forest.fresh (ruleIndex : Nat) : List Token → Token → Forest
  | [], .chr c => .node ruleIndex [c] none .nil .nil
  | [], .param p => .node ruleIndex [] (some p) .nil .nil
  | t :: ts, .chr c => .node 0 [c] none (fresh ruleIndex ts t) .nil
  | t :: ts, .param p => .node 0 [] (some p) (fresh ruleIndex ts t) .nil

-- `none` is the exception of a rule that is there already
def Forest.add (ruleIndex : Nat) : Forest → Token → List Token → Option Forest
  | .nil, t, ts => some (fresh ruleIndex ts t)
  | .node r key param children siblings, t, ts =>
    if t.leads key param then
      match ts with
      | [] => if r ≠ 0 then none else some (.node ruleIndex key param children siblings)
      | t' :: ts' => (children.add ruleIndex t' ts').map fun children => .node r key param children siblings
    else (siblings.add ruleIndex t ts).map fun siblings => .node r key param children siblings

def Trie.add (trie : Trie) (url : List Token) (ruleIndex : Nat) : Option Trie :=
  match url with
  | [] => if trie.ruleIndex ≠ 0 then none else some { trie with ruleIndex := ruleIndex }
  | t :: ts => (trie.children.add ruleIndex t ts).map fun children => { trie with children := children }

mutual

def Forest.optimize : Forest → Forest
  | .nil => .nil
  | .node ruleIndex key param children siblings =>
    optimizeNode ruleIndex key param children siblings.optimize

/-- The node with these children, put before `siblings`.  A simple node takes
over its only child and is looked at again. -/
def Forest.optimizeNode (ruleIndex : Nat) (key : List Char) (param : Option ParamType) :
    Forest → Forest → Forest
  | .nil, siblings => .node ruleIndex key param .nil siblings
  | .node r k p children others, siblings =>
    if ruleIndex = 0 ∧ param = none ∧ others = .nil ∧ p = none then
      optimizeNode r (key ++ k) param children siblings
    else .node ruleIndex key param (optimizeNode r k p children others.optimize) siblings

end

-- `none` is the exception of a header that is not simple
def Trie.validate (trie : Trie) : Option Trie :=
  match trie with
  | ⟨0, .nil⟩ => some trie
  | ⟨0, .node _ _ none _ .nil⟩ => some { trie with children := trie.children.optimize }
  | _ => none

def ruleSpecialRedirectSlash : Nat := 1

-- `internal_add_rule_object` for one method, as the rule at `ruleIndex` of its
-- rules.  The tree has 16 bits for the index
def Trie.addRule (trie : Trie) (rule : List Char) (ruleIndex : Nat) : Option Trie := do
  let trie ← trie.add (← tokens rule 0) (ruleIndex % 2 ^ 16)
  if rule.length > 1 ∧ rule.getLast? = some '/' then
    trie.add (← tokens rule.dropLast 0) ruleSpecialRedirectSlash
  else return trie

def Trie.addRules (trie : Trie) : Nat → List (List Char) → Option Trie
  | _, [] => some trie
  | ruleIndex, rule :: rules => (trie.addRule rule ruleIndex).bind fun trie => trie.addRules (ruleIndex + 1) rules

def Trie.build (rules : List String) : Option Trie :=
  (Trie.addRules {} 2 (rules.map String.toList)).bind Trie.validate

end DigitalWallet

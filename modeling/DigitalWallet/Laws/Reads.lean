import DigitalWallet.Laws.RequestLine
import Mathlib.Algebra.Group.Nat.Defs

namespace DigitalWallet

open Lib CString ReqState

section Reads

def inQuery (s : ReqState) : Bool := s ∈ [queryStringStart, queryString]

theorem parseUrlChar_mark (s : ReqState) :
    parseUrlChar s '?' =
      match s with
      | .serverWithAt | .serverStart | .server | .path => some queryStringStart
      | .queryStringStart | .queryString => some queryString
      | _ => none := by
  cases s <;> decide

theorem parseUrlChar_query {s s' : ReqState} {ch : Char} (h : parseUrlChar s ch = some s') :
    (s' = queryStringStart ↔ ch = '?' ∧ inQuery s = false) ∧ (inQuery s' ↔ ch = '?' ∨ inQuery s) := by
  by_cases hch : ch = '?'
  · subst hch
    rw [parseUrlChar_mark] at h
    cases s <;> cases h <;> decide
  · unfold parseUrlChar at h
    split at h
    · cases h
    · cases s <;> simp only [parseUrlChar.serverChar] at h <;> (repeat' split at h) <;> cases h <;> simp_all [inQuery]

theorem next_before {x y : Control} {ch : Char} (hx : x.state.inUrl = false) (h : x.next ch = some y) :
    y.state.behindUrl = false ∧ (y.state.inUrl ↔ x.state = spacesBeforeUrl ∧ ch ≠ ' ') := by
  obtain ⟨state, method, index⟩ := x
  cases state with
  | startReq =>
    simp only [Control.next] at h
    split at h
    · cases h
      exact ⟨rfl, by simp [inUrl]⟩
    · obtain ⟨method, -, rfl⟩ := Option.map_eq_some_iff.mp h
      exact ⟨rfl, by simp [inUrl]⟩
  | reqMethod =>
    simp only [Control.next] at h
    split at h
    · cases h
    · split at h
      · cases h
        exact ⟨rfl, by simp [inUrl]⟩
      · split at h
        · cases h
          exact ⟨rfl, by simp [inUrl]⟩
        · split at h
          · obtain ⟨method, -, rfl⟩ := Option.map_eq_some_iff.mp h
            exact ⟨rfl, by simp [inUrl]⟩
          · cases h
  | spacesBeforeUrl =>
    simp only [Control.next] at h
    split at h
    · next hspace =>
      cases h
      exact ⟨rfl, by simp [inUrl, hspace]⟩
    · next hspace =>
      obtain ⟨state, hstate, rfl⟩ := Option.map_eq_some_iff.mp h
      have hin := inUrl_parseUrlChar hstate
      exact ⟨behindUrl_of_inUrl hin, by simp [hin, hspace]⟩
  | httpStart => cases h
  | reqLineAlmostDone => cases h
  | headerFieldStart => cases h
  | _ => cases hx

theorem next_start {x y : Control} {ch : Char} (hx : x.state = spacesBeforeUrl) (hch : ch ≠ ' ')
    (h : x.next ch = some y) : (y.state = queryStringStart ↔ ch = '?') ∧ (inQuery y.state ↔ ch = '?') := by
  obtain ⟨state, method, index⟩ := x
  cases hx
  simp only [Control.next, if_neg hch] at h
  obtain ⟨s, hs, rfl⟩ := Option.map_eq_some_iff.mp h
  have hbefore : inQuery (if method = .connect then serverStart else spacesBeforeUrl) = false := by split <;> rfl
  obtain ⟨hfirst, hmem⟩ := parseUrlChar_query hs
  simpa [hbefore] using And.intro hfirst hmem

structure Between (h : HttpParser) (x : Line) : Prop where
  control : h.control = x.control
  nread : h.nread = x.nread
  rawUrl : h.rawUrl = x.target
  before : x.control.state.inUrl = false → x.target = []
  started : x.control.state.inUrl → x.target ≠ []
  query : x.control.state.inUrl → ('?' ∈ x.target ↔ inQuery x.control.state)
  inside : x.control.state.behindUrl = false

def Placed (buffer : Nat) (old : Nat) (target : List Char) (new : Nat) (target' : List Char) : Prop :=
  ('?' ∈ target ∨ '?' ∉ target' → new = old) ∧
    ('?' ∉ target → '?' ∈ target' →
      if target = [] then new = (target'.takeWhile (· ≠ '?')).length else buffer ≤ new)

structure Within (buffer : Nat) (data : List Char) (old : Nat) (x₀ : Line) (p : Nat) (h : HttpParser) (m : Marks)
    (x : Line) : Prop where
  control : h.control = x.control
  nread : h.nread = x.nread
  unmarked : x.control.state.inUrl = false → m.url = none ∧ h.rawUrl = x.target
  marked : x.control.state.inUrl → ∃ mark ≤ p, m.url = some mark ∧ x.target = h.rawUrl ++ (data.take p).drop mark
  before : x.control.state.inUrl = false → x.target = []
  started : x.control.state.inUrl → x.target ≠ []
  query : x.control.state.inUrl → ('?' ∈ x.target ↔ inQuery x.control.state)
  inside : x.control.state.behindUrl = false
  here : x₀.target = [] → m.urlStart = m.url ∧ h.rawUrl = []
  earlier : x₀.target ≠ [] → m.urlStart = none
  grows : x₀.target <+: x.target
  placed : Placed buffer old x₀.target h.qsPoint x.target

structure After (buffer : Nat) (old : Nat) (x₀ : Line) (h : HttpParser) (x : Line) : Prop where
  control : h.control = x.control
  nread : h.nread = x.nread
  rawUrl : h.rawUrl = x.target
  behind : x.control.state.behindUrl
  placed : Placed buffer old x₀.target h.qsPoint x.target

theorem Placed.refl (buffer old : Nat) (target : List Char) : Placed buffer old target old target :=
  ⟨fun _ => rfl, fun habsent hmem => absurd hmem habsent⟩

theorem Placed.stay {buffer old new : Nat} {target target' : List Char} (h : Placed buffer old target new target')
    {ch : Char} (hch : ch = '?' → '?' ∈ target') : Placed buffer old target new (target' ++ [ch]) := by
  have hmem : '?' ∈ target' ++ [ch] ↔ '?' ∈ target' := by
    rw [List.mem_append, List.mem_singleton]
    exact or_iff_left_of_imp fun heq => hch heq.symm
  refine ⟨fun hold => h.1 (by rwa [hmem] at hold), fun habsent hnew => ?_⟩
  rw [hmem] at hnew
  have htake : (target' ++ [ch]).takeWhile (· ≠ '?') = target'.takeWhile (· ≠ '?') := by
    obtain ⟨a, b, rfl, -⟩ := List.eq_append_cons_of_mem hnew
    simp [List.takeWhile_append]
  rw [htake]
  exact h.2 habsent hnew

theorem Placed.mark {buffer old new : Nat} {target target' : List Char} (habsent : '?' ∉ target')
    (hgrows : target <+: target') (hhere : target = [] → new = target'.length) (hearlier : target ≠ [] → buffer ≤ new) :
    Placed buffer old target new (target' ++ ['?']) := by
  have hold : '?' ∉ target := fun hmem => habsent (hgrows.subset hmem)
  refine ⟨fun h => ?_, fun _ _ => ?_⟩
  · rcases h with h | h
    · exact absurd h hold
    · exact absurd (by simp) h
  · split
    · next hnil =>
      have hall : target'.takeWhile (· ≠ '?') = target' :=
        List.takeWhile_eq_self_iff.mpr fun c hc => by
          rw [decide_eq_true_eq]
          exact fun heq => habsent (heq ▸ hc)
      rw [List.takeWhile_append, if_pos (by rw [hall]), hhere hnil]
      simp
    · next hne => exact hearlier hne

variable {buffer old p : Nat} {data : List Char} {x₀ x y : Line} {parser : HttpParser} {m : Marks} {ch : Char}

theorem take_succ_drop {rest : List Char} (hdata : data.drop p = ch :: rest) {mark : Nat} (hmark : mark ≤ p) :
    (data.take (p + 1)).drop mark = (data.take p).drop mark ++ [ch] := by
  have hlt : p < data.length := by
    by_contra hge
    rw [List.drop_eq_nil_of_le (by omega)] at hdata
    cases hdata
  have hch : data[p] = ch := by
    rw [List.drop_eq_getElem_cons hlt] at hdata
    exact (List.cons.inj hdata).1
  rw [← List.take_append_getElem hlt, hch, List.drop_append_of_le_length (by rw [List.length_take]; omega)]

theorem Within.step_none (h : Within buffer data old x₀ p parser m x) (hy : x.next ch = none) :
    parser.step buffer data p ch m = none := by
  rw [Line.next, if_neg (by simp [h.inside])] at hy
  rw [HttpParser.step, h.control, h.nread]
  split
  · rfl
  · next hread =>
    rw [if_neg hread, Option.map_eq_none_iff] at hy
    rw [hy]
    rfl

theorem Within.step_before (h : Within buffer data old x₀ p parser m x) (hx : x.control.state.inUrl = false)
    (hread : x.nread + 1 ≤ maxHeaderSize) {c : Control} (hc : x.control.next ch = some c) (hin : c.state.inUrl = false) :
    ∃ parser' m', parser.step buffer data p ch m = some (parser', m') ∧
      Within buffer data old x₀ (p + 1) parser' m' ⟨c, x.nread + 1, x.target⟩ := by
  obtain ⟨hbehind, hstart⟩ := next_before hx hc
  have hstay : ¬(x.control.state = spacesBeforeUrl ∧ ch ≠ ' ') := fun hstarts => by simp [hstart.mpr hstarts] at hin
  have hquery : c.state ≠ queryStringStart := by
    intro heq
    rw [heq] at hin
    cases hin
  refine ⟨{ parser with control := c, nread := x.nread + 1 }, m, ?_, ?_⟩
  · rw [HttpParser.step, h.control, h.nread, if_neg (by omega), hc]
    simp only [Option.map_some, if_neg hstay, if_neg hquery, hbehind, Bool.false_eq_true, if_false]
  · exact ⟨rfl, rfl, fun _ => h.unmarked hx, fun hin' => by simp [hin] at hin', fun _ => h.before hx,
      fun hin' => by simp [hin] at hin', fun hin' => by simp [hin] at hin', hbehind, h.here, h.earlier, h.grows, h.placed⟩

theorem Within.step_start {rest : List Char} (h : Within buffer data old x₀ p parser m x)
    (hdata : data.drop p = ch :: rest) (hx : x.control.state = spacesBeforeUrl) (hch : ch ≠ ' ')
    (hread : x.nread + 1 ≤ maxHeaderSize) {c : Control} (hc : x.control.next ch = some c) :
    ∃ parser' m', parser.step buffer data p ch m = some (parser', m') ∧
      Within buffer data old x₀ (p + 1) parser' m' ⟨c, x.nread + 1, x.target ++ [ch]⟩ := by
  have hout : x.control.state.inUrl = false := by rw [hx]; rfl
  obtain ⟨hbehind, hstart⟩ := next_before hout hc
  have hin : c.state.inUrl := hstart.mpr ⟨hx, hch⟩
  obtain ⟨hurl, hraw⟩ := h.unmarked hout
  have hnil : x.target = [] := h.before hout
  have hnil₀ : x₀.target = [] := List.prefix_nil.mp (hnil ▸ h.grows)
  obtain ⟨hurlStart, -⟩ := h.here hnil₀
  have hquery := next_start hx hch hc
  refine ⟨{ parser with control := c, nread := x.nread + 1, qsPoint := if ch = '?' then 0 else parser.qsPoint },
    ⟨some p, some p⟩, ?_, ?_⟩
  · rw [HttpParser.step, h.control, h.nread, if_neg (by omega), hc]
    simp only [Option.map_some, hx, hurlStart, hurl, Option.or, hquery.1, hbehind]
    simp [hch]
  · refine ⟨rfl, rfl, fun hout' => by simp [hin] at hout', fun _ => ⟨p, by omega, rfl, ?_⟩,
      fun hout' => by simp [hin] at hout', fun _ => by simp, fun _ => ?_, hbehind, fun _ => ⟨rfl, hraw.trans hnil⟩,
      fun hne => absurd hnil₀ hne, ?_, ?_⟩
    · rw [hraw, take_succ_drop hdata le_rfl]
      simp [hnil]
    · simp [hnil, hquery.2, eq_comm]
    · rw [hnil₀]
      exact List.nil_prefix
    · by_cases hmark : ch = '?'
      · subst hmark
        exact .mark (by simp [hnil]) h.grows (by simp [hnil]) (fun hne => absurd hnil₀ hne)
      · rw [if_neg hmark]
        exact h.placed.stay fun heq => absurd heq hmark

theorem Within.step_inside {rest : List Char} (h : Within buffer data old x₀ p parser m x)
    (hdata : data.drop p = ch :: rest) (hx : x.control.state.inUrl) (hread : x.nread + 1 ≤ maxHeaderSize)
    {s : ReqState} (hs : parseUrlChar x.control.state ch = some s)
    (hc : x.control.next ch = some { x.control with state := s }) :
    ∃ parser' m', parser.step buffer data p ch m = some (parser', m') ∧
      Within buffer data old x₀ (p + 1) parser' m' ⟨{ x.control with state := s }, x.nread + 1, x.target ++ [ch]⟩ := by
  have hin := inUrl_parseUrlChar hs
  have hbehind := behindUrl_of_inUrl hin
  obtain ⟨mark, hmark, hurl, htarget⟩ := h.marked hx
  obtain ⟨hfirst, hmem⟩ := parseUrlChar_query hs
  have hspaces : ¬(x.control.state = spacesBeforeUrl ∧ ch ≠ ' ') := by
    rintro ⟨heq, -⟩
    rw [heq] at hx
    cases hx
  let qsPoint := if s = queryStringStart then m.urlStart.elim (buffer + p) (p - ·) else parser.qsPoint
  have hplaced : Placed buffer old x₀.target qsPoint (x.target ++ [ch]) := by
    by_cases hstart : s = queryStringStart
    · obtain ⟨rfl, hbefore⟩ := hfirst.mp hstart
      have habsent : '?' ∉ x.target := fun hmem => by simp [(h.query hx).mp hmem] at hbefore
      simp only [qsPoint, if_pos hstart]
      -- the mark of the start is set in the read that brings the start, and in no later one
      refine .mark habsent h.grows (fun hnil => ?_) fun hne => ?_
      · obtain ⟨hurlStart, hraw⟩ := h.here hnil
        rw [hurlStart, hurl, htarget, hraw]
        simp only [Option.elim_some, List.nil_append, List.length_drop, List.length_take]
        have hlt : p < data.length := by
          by_contra hge
          rw [List.drop_eq_nil_of_le (by omega)] at hdata
          cases hdata
        omega
      · rw [h.earlier hne]
        exact Nat.le_add_right _ _
    · simp only [qsPoint, if_neg hstart]
      refine h.placed.stay fun heq => (h.query hx).mpr ?_
      by_contra hbefore
      exact hstart (hfirst.mpr ⟨heq, by simpa using hbefore⟩)
  refine ⟨{ parser with control := { x.control with state := s }, nread := x.nread + 1, qsPoint := qsPoint }, m, ?_, ?_⟩
  · rw [HttpParser.step, h.control, h.nread, if_neg (by omega), hc]
    simp only [Option.map_some, if_neg hspaces, hbehind, Bool.false_eq_true, if_false, qsPoint]
    cases m.urlStart <;> rfl
  · refine ⟨rfl, rfl, fun hout => by simp [hin] at hout, fun _ => ⟨mark, by omega, hurl, ?_⟩,
      fun hout => by simp [hin] at hout, fun _ => by simp, fun _ => ?_, hbehind, h.here, h.earlier,
      h.grows.trans (List.prefix_append _ _), hplaced⟩
    · rw [take_succ_drop hdata hmark, ← List.append_assoc, ← htarget]
    · rw [List.mem_append, List.mem_singleton, hmem, h.query hx, or_comm, eq_comm]

theorem Within.step_end (h : Within buffer data old x₀ p parser m x) (hx : x.control.state.inUrl)
    (hread : x.nread + 1 ≤ maxHeaderSize) {c : Control} (hc : x.control.next ch = some c)
    (hbehind : c.state.behindUrl) :
    ∃ parser' m', parser.step buffer data p ch m = some (parser', m') ∧
      After buffer old x₀ parser' ⟨c, x.nread + 1, x.target⟩ := by
  obtain ⟨mark, -, hurl, htarget⟩ := h.marked hx
  have hspaces : ¬(x.control.state = spacesBeforeUrl ∧ ch ≠ ' ') := by
    rintro ⟨heq, -⟩
    rw [heq] at hx
    cases hx
  have hquery : c.state ≠ queryStringStart := by
    intro heq
    rw [heq] at hbehind
    cases hbehind
  refine ⟨{ parser with control := c, nread := x.nread + 1, rawUrl := x.target }, { m with url := none }, ?_,
    rfl, rfl, rfl, hbehind, h.placed⟩
  rw [HttpParser.step, h.control, h.nread, if_neg (by omega), hc]
  simp only [Option.map_some, if_neg hspaces, if_neg hquery, hbehind, if_true, HttpParser.onUrl, hurl, htarget]

theorem Within.step {rest : List Char} (h : Within buffer data old x₀ p parser m x)
    (hdata : data.drop p = ch :: rest) (hy : x.next ch = some y) :
    ∃ parser' m', parser.step buffer data p ch m = some (parser', m') ∧
      (if y.control.state.behindUrl then After buffer old x₀ parser' y
        else Within buffer data old x₀ (p + 1) parser' m' y) := by
  obtain ⟨hread, hc, hnread, htarget⟩ := Line.next_cases h.inside hy
  obtain ⟨c, nread, target⟩ := y
  obtain rfl : nread = x.nread + 1 := hnread
  obtain rfl : target = if c.state.inUrl then x.target ++ [ch] else x.target := htarget
  cases hx : x.control.state.inUrl with
  | false =>
    obtain ⟨hbehind, hstart⟩ := next_before hx hc
    cases hin : c.state.inUrl with
    | false =>
      obtain ⟨parser', m', hstep, hwithin⟩ := h.step_before hx hread hc hin
      exact ⟨parser', m', hstep, by simpa [hbehind, hin] using hwithin⟩
    | true =>
      obtain ⟨hspaces, hch⟩ := hstart.mp hin
      obtain ⟨parser', m', hstep, hwithin⟩ := h.step_start hdata hspaces hch hread hc
      exact ⟨parser', m', hstep, by simpa [hbehind, hin] using hwithin⟩
  | true =>
    rcases next_inUrl hx hc with ⟨s, hs, rfl⟩ | ⟨-, -, hbehind, -⟩
    · have hin := inUrl_parseUrlChar hs
      obtain ⟨parser', m', hstep, hwithin⟩ := h.step_inside hdata hx hread hs hc
      exact ⟨parser', m', hstep, by simpa [behindUrl_of_inUrl hin, hin] using hwithin⟩
    · have hout : c.state.inUrl = false := by
        cases hin : c.state.inUrl with
        | false => rfl
        | true => simp [behindUrl_of_inUrl hin] at hbehind
      obtain ⟨parser', m', hstep, hafter⟩ := h.step_end hx hread hc hbehind
      exact ⟨parser', m', hstep, by simpa [hbehind, hout] using hafter⟩

def Ends (buffer old : Nat) (x₀ : Line) (fed : Fed) : Option Line → Prop
  | none => fed = .error
  | some y =>
    if y.control.state.behindUrl then ∃ parser, fed = .line parser ∧ After buffer old x₀ parser y
    else
      ∃ parser, fed = .more parser ∧ Between parser y ∧ x₀.target <+: y.target ∧
        Placed buffer old x₀.target parser.qsPoint y.target

theorem Within.onUrl (h : Within buffer data old x₀ p parser m x) : Between (parser.onUrl data m p) x := by
  cases hx : x.control.state.inUrl with
  | false =>
    obtain ⟨hurl, hraw⟩ := h.unmarked hx
    rw [HttpParser.onUrl, hurl]
    exact ⟨h.control, h.nread, hraw, h.before, h.started, h.query, h.inside⟩
  | true =>
    obtain ⟨mark, -, hurl, htarget⟩ := h.marked hx
    rw [HttpParser.onUrl, hurl]
    exact ⟨h.control, h.nread, htarget.symm, h.before, h.started, h.query, h.inside⟩

theorem Within.executeLoop (h : Within buffer data old x₀ p parser m x) {rest : List Char}
    (hdata : data.drop p = rest) :
    Ends buffer old x₀ (HttpParser.executeLoop buffer data rest p parser m) (x.run rest) := by
  induction rest generalizing p parser m x with
  | nil =>
    have hqs : (parser.onUrl data m p).qsPoint = parser.qsPoint := by
      unfold HttpParser.onUrl
      split <;> rfl
    rw [HttpParser.executeLoop, Line.run_nil, Ends, if_neg (by simp [h.inside])]
    exact ⟨_, rfl, h.onUrl, h.grows, hqs ▸ h.placed⟩
  | cons ch rest ih =>
    rw [HttpParser.executeLoop, Line.run_cons]
    cases hy : x.next ch with
    | none =>
      rw [h.step_none hy]
      exact rfl
    | some y =>
      obtain ⟨parser', m', hstep, hend⟩ := h.step hdata hy
      rw [hstep, Option.bind_some]
      split at hend
      · next hbehind =>
        simp only
        rw [hend.control, if_pos hbehind, Line.run_behind hbehind, Ends, if_pos hbehind]
        exact ⟨parser', rfl, hend⟩
      · next hinside =>
        simp only
        rw [hend.control, if_neg hinside]
        refine ih hend ?_
        rw [← List.tail_drop, hdata, List.tail_cons]

theorem Between.execute (h : Between parser x) (hdata : data ≠ []) :
    Ends buffer parser.qsPoint x (parser.execute buffer data) (x.run data) := by
  have hwithin : Within buffer data parser.qsPoint x 0 parser
      { url := if parser.control.state.inUrl then some 0 else none } x := by
    refine ⟨h.control, h.nread, fun hout => ⟨by simp [h.control, hout], h.rawUrl⟩,
      fun hin => ⟨0, le_rfl, by simp [h.control, hin], by simp [h.rawUrl]⟩, h.before, h.started, h.query, h.inside,
      fun hnil => ⟨?_, h.rawUrl.trans hnil⟩, fun _ => rfl, List.prefix_refl _, .refl _ _ _⟩
    cases hin : x.control.state.inUrl with
    | false => simp [h.control, hin]
    | true => exact absurd hnil (h.started hin)
  rw [HttpParser.execute, if_neg hdata]
  exact hwithin.executeLoop rfl

/-- The read that brings the start of the target brings its query string. -/
def together (x : Line) : List (List Char) → Bool
  | [] => false
  | data :: reads =>
    match x.run data with
    | none => false
    | some y => x.target = [] ∧ if y.target = [] then together y reads else '?' ∈ y.target

def PlacedIn (buffer : Nat) (reads : List (List Char)) (x : Line) (old new : Nat) (target : List Char) : Prop :=
  ('?' ∈ x.target ∨ '?' ∉ target → new = old) ∧
    ('?' ∉ x.target → '?' ∈ target →
      if together x reads then new = (target.takeWhile (· ≠ '?')).length else buffer ≤ new)

theorem together_of_ne_nil (hx : x.target ≠ []) (reads : List (List Char)) : together x reads = false := by
  cases reads with
  | nil => rfl
  | cons data reads =>
    rw [together]
    cases x.run data with
    | none => rfl
    | some y => simp [hx]

theorem Placed.here {old new : Nat} (h : Placed buffer old x.target new y.target) (hy : x.run data = some y)
    (reads : List (List Char)) : PlacedIn buffer (data :: reads) x old new y.target := by
  refine ⟨h.1, fun habsent hmem => ?_⟩
  have hne : y.target ≠ [] := List.ne_nil_of_mem hmem
  have hplaced := h.2 habsent hmem
  rw [together, hy]
  by_cases hnil : x.target = [] <;> simpa [hnil, hne, hmem] using hplaced

theorem Placed.cons {old mid new : Nat} {z : List Char} (h : Placed buffer old x.target mid y.target)
    (hy : x.run data = some y) (hgrows : x.target <+: y.target) (hgrows' : y.target <+: z) {reads : List (List Char)}
    (hrest : PlacedIn buffer reads y mid new z) : PlacedIn buffer (data :: reads) x old new z := by
  by_cases hmem : '?' ∈ y.target
  · have hmid : new = mid := hrest.1 (.inl hmem)
    have hall := h.here hy reads
    obtain ⟨rest, rfl⟩ := hgrows'
    have htake : (y.target ++ rest).takeWhile (· ≠ '?') = y.target.takeWhile (· ≠ '?') := by
      obtain ⟨a, b, hsplit, -⟩ := List.eq_append_cons_of_mem hmem
      rw [hsplit]
      simp [List.takeWhile_append]
    subst hmid
    refine ⟨fun hold => hall.1 (.inl ?_), fun habsent _ => ?_⟩
    · rcases hold with hold | hold
      · exact hold
      · exact absurd (List.mem_append_left _ hmem) hold
    · rw [htake]
      exact hall.2 habsent hmem
  · have hmid : mid = old := h.1 (.inr hmem)
    have hsame : together x (data :: reads) = together y reads := by
      rw [together, hy]
      by_cases hnil : y.target = []
      · have hnil₀ : x.target = [] := List.prefix_nil.mp (hnil ▸ hgrows)
        simp [hnil, hnil₀]
      · simp [hnil, hmem, together_of_ne_nil hnil]
    subst hmid
    refine ⟨fun hold => hrest.1 (.inr ?_), fun _ hz => hsame ▸ hrest.2 hmem hz⟩
    rcases hold with hold | hold
    · exact absurd (hgrows.subset hold) hmem
    · exact hold

def EndsIn (buffer : Nat) (reads : List (List Char)) (old : Nat) (x : Line) (fed : Fed) : Option Line → Prop
  | none => fed = .error
  | some y =>
    ∃ parser : HttpParser, fed = (if y.control.state.behindUrl then .line parser else .more parser) ∧
      parser.control = y.control ∧ parser.nread = y.nread ∧ parser.rawUrl = y.target ∧
      PlacedIn buffer reads x old parser.qsPoint y.target

theorem Line.run_grows {bytes : List Char} (hy : x.run bytes = some y) : x.target <+: y.target := by
  induction bytes generalizing x with
  | nil =>
    cases hy
    exact List.prefix_refl _
  | cons ch bytes ih =>
    rw [Line.run_cons] at hy
    obtain ⟨z, hz, hrest⟩ := Option.bind_eq_some_iff.mp hy
    refine List.IsPrefix.trans ?_ (ih hrest)
    cases hx : x.control.state.behindUrl with
    | true =>
      rw [Line.next, if_pos hx] at hz
      cases hz
      exact List.prefix_refl _
    | false =>
      rw [(Line.next_cases hx hz).2.2.2]
      split
      · exact List.prefix_append _ _
      · exact List.prefix_refl _

theorem Between.feed (h : Between parser x) {reads : List (List Char)} (hreads : ∀ data ∈ reads, data ≠ []) :
    EndsIn buffer reads parser.qsPoint x (HttpParser.feed buffer reads parser) (x.run reads.flatten) := by
  induction reads generalizing parser x with
  | nil =>
    exact ⟨parser, by simp [HttpParser.feed, h.inside], h.control, h.nread, h.rawUrl, fun _ => rfl,
      fun habsent hmem => absurd hmem habsent⟩
  | cons data reads ih =>
    obtain ⟨hdata, hrest⟩ := List.forall_mem_cons.mp hreads
    have hread : Ends buffer parser.qsPoint x (parser.execute buffer data) (x.run data) := h.execute hdata
    rw [HttpParser.feed, List.flatten_cons, Line.run_append]
    cases hy : x.run data with
    | none =>
      rw [hy] at hread
      rw [show parser.execute buffer data = .error from hread]
      exact rfl
    | some y =>
      rw [hy, Ends] at hread
      rw [Option.bind_some]
      split at hread
      · next hbehind =>
        obtain ⟨parser', hfed, hafter⟩ := hread
        rw [hfed, Line.run_behind hbehind]
        exact ⟨parser', by simp [hbehind], hafter.control, hafter.nread, hafter.rawUrl, hafter.placed.here hy reads⟩
      · obtain ⟨parser', hfed, hbetween, hgrows, hplaced⟩ := hread
        rw [hfed]
        have hall := ih hbetween hrest
        cases hz : y.run reads.flatten with
        | none =>
          rw [hz] at hall
          exact hall
        | some z =>
          rw [hz] at hall
          obtain ⟨last, hlast, hcontrol, hnread, hraw, hplaced'⟩ := hall
          exact ⟨last, hlast, hcontrol, hnread, hraw, hplaced.cons hy hgrows (Line.run_grows hz) hplaced'⟩

theorem feed_scan (buffer : Nat) {reads : List (List Char)} (hreads : ∀ data ∈ reads, data ≠ []) :
    EndsIn buffer reads 0 {} (HttpParser.feed buffer reads {}) (scan reads.flatten) := by
  have hstart : Between {} {} := by
    refine ⟨rfl, rfl, rfl, fun _ => rfl, fun hin => ?_, fun hin => ?_, rfl⟩ <;> cases hin
  exact hstart.feed hreads

/-- However the bytes come in, the parser gets behind the target exactly on a
request line, with its method and its target. -/
theorem request_line_iff (buffer : Nat) {reads : List (List Char)} (hreads : ∀ data ∈ reads, data ≠ [])
    (method : HTTPMethod) (target : List Char) :
    (∃ parser, HttpParser.feed buffer reads {} = .line parser ∧ parser.control.method = method ∧
      parser.rawUrl = target) ↔ RequestLine method target reads.flatten := by
  have hfeed := feed_scan buffer hreads
  constructor
  · rintro ⟨parser, hline, rfl, rfl⟩
    rw [hline] at hfeed
    cases hscan : scan reads.flatten with
    | none =>
      rw [hscan] at hfeed
      cases hfeed
    | some x =>
      rw [hscan] at hfeed
      obtain ⟨parser', heq, hcontrol, -, hraw, -⟩ := hfeed
      split at heq
      · next hbehind =>
        cases heq
        rw [hcontrol, hraw]
        exact requestLine_of_scan hscan hbehind
      · cases heq
  · intro hline
    obtain ⟨x, hscan, hbehind, rfl, rfl⟩ := scan_of_requestLine hline
    rw [hscan] at hfeed
    obtain ⟨parser, heq, hcontrol, -, hraw, -⟩ := hfeed
    rw [if_pos hbehind] at heq
    exact ⟨parser, heq, by rw [hcontrol], hraw⟩

theorem request_line_iff_example :
    RequestLine .get "/api/1.0/wallet/events?x".toList "\r\nGET /api/1.0/wallet/events?x HTTP/1.1\r\n".toList := by
  have hreads : ∀ data ∈ ["\r\nGET /api/1.0".toList, "/wallet/events?x HTTP/1.1\r\n".toList], data ≠ [] := by
    decide
  have hline := (request_line_iff (2 ^ 20) hreads .get "/api/1.0/wallet/events?x".toList).mp
    ⟨⟨⟨httpStart, .get, 4⟩, 31, "/api/1.0/wallet/events?x".toList, 2 ^ 20 + 14⟩, by decide +kernel, rfl, rfl⟩
  exact hline

theorem takeWhile_eq_self {target : List Char} (h : '?' ∉ target) : target.takeWhile (· ≠ '?') = target :=
  List.takeWhile_eq_self_iff.mpr fun c hc => by
    rw [decide_eq_true_eq]
    exact fun heq => h (heq ▸ hc)

theorem take_takeWhile (target : List Char) :
    target.take (target.takeWhile (· ≠ '?')).length = target.takeWhile (· ≠ '?') :=
  List.prefix_iff_eq_take.mp (List.takeWhile_prefix _) |>.symm

theorem url_placed (hbuffer : maxHeaderSize ≤ buffer) {reads : List (List Char)} {target : List Char}
    (hlength : target.length ≤ maxHeaderSize) (hraw : parser.rawUrl = target)
    (hplaced : PlacedIn buffer reads {} 0 parser.qsPoint target) :
    parser.url = if target.head? ≠ some '?' ∧ together {} reads then target.takeWhile (· ≠ '?') else target := by
  have hmax : 0 < maxHeaderSize := by decide
  rw [HttpParser.url, hraw]
  by_cases hmem : '?' ∈ target
  · have hplace := hplaced.2 (by simp) hmem
    by_cases htogether : together {} reads
    · rw [if_pos htogether] at hplace
      by_cases hhead : target.head? = some '?'
      · have hzero : parser.qsPoint = 0 := by
          obtain ⟨rest, rfl⟩ := List.head?_eq_some_iff.mp hhead
          simpa using hplace
        rw [if_neg (not_not.mpr hzero), if_neg (by simp [hhead])]
      · have hpos : parser.qsPoint ≠ 0 := by
          cases target with
          | nil => cases hmem
          | cons c rest =>
            have hc : c ≠ '?' := fun heq => hhead (by simp [heq])
            rw [List.takeWhile_cons_of_pos (by simpa using hc)] at hplace
            simp [hplace]
        rw [if_pos hpos, if_pos ⟨hhead, htogether⟩, hplace, take_takeWhile]
    · rw [if_neg htogether] at hplace
      rw [if_pos (by omega), if_neg (by simp [htogether]), List.take_of_length_le (by omega)]
  · have hzero : parser.qsPoint = 0 := hplaced.1 (.inr hmem)
    rw [if_neg (not_not.mpr hzero), takeWhile_eq_self hmem, ite_self]

theorem together_single (hy : scan data = some y) (hmem : '?' ∈ y.target) : together {} [data] := by
  rw [together, show Line.run {} data = some y from hy]
  simp [List.ne_nil_of_mem hmem, hmem]

theorem together_of_head {reads : List (List Char)} (hx : x.target = []) (hy : x.run reads.flatten = some y)
    (hhead : y.target.head? = some '?') : together x reads := by
  induction reads generalizing x with
  | nil =>
    cases hy
    simp [hx] at hhead
  | cons data reads ih =>
    rw [List.flatten_cons, Line.run_append] at hy
    obtain ⟨z, hz, hrest⟩ := Option.bind_eq_some_iff.mp hy
    rw [together, hz]
    by_cases hnil : z.target = []
    · simpa [hx, hnil] using ih hnil hrest
    · obtain ⟨rest, hgrows⟩ := Line.run_grows hrest
      obtain ⟨c, cs, hcons⟩ := List.exists_cons_of_ne_nil hnil
      rw [← hgrows, hcons] at hhead
      cases hhead
      simp [hx, hcons]

theorem RequestLine.length_le {method : HTTPMethod} {target bytes : List Char} (h : RequestLine method target bytes) :
    target.length ≤ maxHeaderSize := by
  obtain ⟨skip, spaces, stop, rest, state, rfl, -, -, -, -, -, hlength⟩ := h
  simp only [List.length_append, List.length_cons] at hlength
  omega

theorem feed_requestLine (hbuffer : maxHeaderSize ≤ buffer) {reads : List (List Char)}
    (hreads : ∀ data ∈ reads, data ≠ []) {method : HTTPMethod} {target : List Char}
    (h : RequestLine method target reads.flatten) :
    ∃ parser, HttpParser.feed buffer reads {} = .line parser ∧ parser.control.method = method ∧
      parser.rawUrl = target ∧ parser.url =
        if target.head? ≠ some '?' ∧ together {} reads then target.takeWhile (· ≠ '?') else target := by
  have hfeed := feed_scan buffer hreads
  obtain ⟨x, hscan, hbehind, rfl, rfl⟩ := scan_of_requestLine h
  rw [hscan] at hfeed
  obtain ⟨parser, heq, hcontrol, -, hraw, hplaced⟩ := hfeed
  rw [if_pos hbehind] at heq
  exact ⟨parser, heq, by rw [hcontrol], hraw, url_placed hbuffer h.length_le hraw hplaced⟩

theorem paths_agree {reads : List (List Char)} (hscan : scan reads.flatten = some x) :
    (if x.target.head? ≠ some '?' ∧ together {} reads then x.target.takeWhile (· ≠ '?') else x.target) =
        (if x.target.head? ≠ some '?' ∧ together {} [reads.flatten] then x.target.takeWhile (· ≠ '?') else x.target) ↔
      '?' ∉ x.target ∨ together {} reads := by
  by_cases hmem : '?' ∈ x.target
  · rw [together_single hscan hmem]
    by_cases hhead : x.target.head? = some '?'
    · simp [hhead, together_of_head rfl hscan hhead]
    · rw [if_pos (c := _ ∧ true = true) ⟨hhead, rfl⟩]
      cases together {} reads with
      | true => rw [if_pos ⟨hhead, rfl⟩]; simp
      | false =>
        have hne : x.target ≠ x.target.takeWhile (· ≠ '?') := fun heq => by
          have hfirst := List.takeWhile_eq_self_iff.mp heq.symm '?' hmem
          simp at hfirst
        rw [if_neg (by simp)]
        exact iff_of_false hne (by simp [hmem])
  · rw [takeWhile_eq_self hmem, ite_self, ite_self]
    simp [hmem]

def Fed.Agree (path : List Char → Prop) : Fed → Fed → Prop
  | .more h, .more h' => h.control = h'.control ∧ h.nread = h'.nread ∧ h.rawUrl = h'.rawUrl
  | .line h, .line h' => h.control = h'.control ∧ h.rawUrl = h'.rawUrl ∧ (h.url = h'.url ↔ path h.rawUrl)
  | .error, .error => True
  | _, _ => False

/-- Cutting the bytes into reads changes nothing but the path, and that when the
query string does not come with the start of the target. -/
theorem reads_agree (hbuffer : maxHeaderSize ≤ buffer) {reads : List (List Char)} (hreads : ∀ data ∈ reads, data ≠ []) :
    Fed.Agree (fun target => '?' ∉ target ∨ together {} reads) (HttpParser.feed buffer reads {})
      (HttpParser.feed buffer [reads.flatten] {}) := by
  cases reads with
  | nil => exact ⟨rfl, rfl, rfl⟩
  | cons data rest =>
  have hne : ∀ bytes ∈ [(data :: rest).flatten], bytes ≠ [] := by
    simp [hreads data (List.mem_cons_self ..)]
  have hfeed := feed_scan buffer hreads
  have hwhole := feed_scan buffer hne
  generalize data :: rest = reads at *
  rw [List.flatten_singleton] at hwhole
  cases hscan : scan reads.flatten with
  | none =>
    rw [hscan] at hfeed hwhole
    rw [show HttpParser.feed buffer reads {} = .error from hfeed,
      show HttpParser.feed buffer [reads.flatten] {} = .error from hwhole]
    trivial
  | some x =>
    rw [hscan] at hfeed hwhole
    obtain ⟨parser, heq, hcontrol, hnread, hraw, hplaced⟩ := hfeed
    obtain ⟨parser', heq', hcontrol', hnread', hraw', hplaced'⟩ := hwhole
    cases hbehind : x.control.state.behindUrl with
    | false =>
      rw [heq, heq', hbehind]
      exact ⟨hcontrol.trans hcontrol'.symm, hnread.trans hnread'.symm, hraw.trans hraw'.symm⟩
    | true =>
      have hlength := (requestLine_of_scan hscan hbehind).length_le
      rw [heq, heq', hbehind]
      refine ⟨hcontrol.trans hcontrol'.symm, hraw.trans hraw'.symm, ?_⟩
      rw [url_placed hbuffer hlength hraw hplaced, url_placed hbuffer hlength hraw' hplaced', hraw]
      exact paths_agree hscan

theorem reads_agree_example :
    ∃ h h', HttpParser.feed (2 ^ 20) ["GET /events".toList, "?x=1 HTTP".toList] {} = .line h ∧
      HttpParser.feed (2 ^ 20) [["GET /events".toList, "?x=1 HTTP".toList].flatten] {} = .line h' ∧
      h.rawUrl = h'.rawUrl ∧ h.url ≠ h'.url := by
  have hagree : Fed.Agree (fun target => '?' ∉ target ∨ together {} ["GET /events".toList, "?x=1 HTTP".toList])
      (HttpParser.feed (2 ^ 20) ["GET /events".toList, "?x=1 HTTP".toList] {})
      (HttpParser.feed (2 ^ 20) [["GET /events".toList, "?x=1 HTTP".toList].flatten] {}) :=
    reads_agree (by decide) (by decide)
  have hcut : HttpParser.feed (2 ^ 20) ["GET /events".toList, "?x=1 HTTP".toList] {} =
      .line ⟨⟨httpStart, .get, 4⟩, 16, "/events?x=1".toList, 2 ^ 20⟩ := by decide +kernel
  have hwhole : HttpParser.feed (2 ^ 20) [["GET /events".toList, "?x=1 HTTP".toList].flatten] {} =
      .line ⟨⟨httpStart, .get, 4⟩, 16, "/events?x=1".toList, 7⟩ := by decide +kernel
  rw [hcut, hwhole] at hagree
  refine ⟨_, _, hcut, hwhole, hagree.2.1, fun hsame => ?_⟩
  exact absurd (hagree.2.2.mp hsame) (by decide +kernel)

end Reads

end DigitalWallet

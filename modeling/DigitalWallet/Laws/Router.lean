import DigitalWallet.Defs.Router

namespace DigitalWallet

open Lib CString

section Routes

variable {D : Type} (strtod : List Char → Option (D × Nat))

/-- What a rule means, read from left to right: the parameters of a URL that
matches. -/
def capture : List Token → RoutingParams D → List Char → Option (RoutingParams D)
  | [], params, url => if url = [] then some params else none
  | _ :: _, _, [] => none
  | .chr c :: ts, params, d :: url => if d = c then capture ts params url else none
  | .param p :: ts, params, url => (p.read strtod params url).bind fun (params, rest) => capture ts params rest

def nodeTokens (key : List Char) : Option ParamType → List Token
  | some p => [.param p]
  | none => key.map .chr

abbrev Route := List Token × Nat

def ownRoute (ruleIndex : Nat) : List Route := if ruleIndex = 0 then [] else [([], ruleIndex)]

def Route.under (key : List Char) (param : Option ParamType) (x : Route) : Route :=
  (nodeTokens key param ++ x.1, x.2)

def Forest.routes : Forest → List Route
  | .nil => []
  | .node ruleIndex key param children siblings =>
    (ownRoute ruleIndex ++ children.routes).map (Route.under key param) ++ siblings.routes

def Trie.routes (t : Trie) : List Route := ownRoute t.ruleIndex ++ t.children.routes

def hits (params : RoutingParams D) (url : List Char) (routes : List Route) : List (Nat × RoutingParams D) :=
  routes.filterMap fun x => (capture strtod x.1 params url).map fun captured => (x.2, captured)

def Forest.Keyed : Forest → Prop
  | .nil => True
  | .node _ key param children siblings =>
    nodeTokens key param ≠ [] ∧ children.Keyed ∧ siblings.Keyed

variable {strtod} {params : RoutingParams D}

theorem updateFound_assoc (a b c : Nat × RoutingParams D) :
    updateFound (updateFound a b) c = updateFound a (updateFound b c) := by
  unfold updateFound
  grind

@[simp] theorem updateFound_zero (a : Nat × RoutingParams D) (params : RoutingParams D) :
    updateFound a (0, params) = a := by
  simp [updateFound]

@[simp] theorem zero_updateFound (params : RoutingParams D) {r : Nat} (hr : r ≠ 0) (params' : RoutingParams D) :
    updateFound (0, params) (r, params') = (r, params') := by
  simp [updateFound, hr]

theorem updateFound_foldl (found b : Nat × RoutingParams D) (rs : List (Nat × RoutingParams D)) :
    updateFound found (rs.foldl updateFound b) = rs.foldl updateFound (updateFound found b) := by
  induction rs generalizing b with
  | nil => rfl
  | cons r rs ih => rw [List.foldl_cons, List.foldl_cons, ih, updateFound_assoc]

@[simp] theorem capture_cons_nil (t : Token) (ts : List Token) : capture strtod (t :: ts) params [] = none := by
  cases t <;> rfl

@[simp] theorem hits_append (url : List Char) (xs ys : List Route) :
    hits strtod params url (xs ++ ys) = hits strtod params url xs ++ hits strtod params url ys :=
  List.filterMap_append

theorem capture_append (key : List Char) (param : Option ParamType) (ts : List Token) {url : List Char}
    (hurl : url ≠ []) :
    capture strtod (nodeTokens key param ++ ts) params url =
      (fragment strtod key param params url).bind fun (params, rest) => capture strtod ts params rest := by
  cases param with
  | some p =>
    cases url with
    | nil => exact absurd rfl hurl
    | cons c url => rfl
  | none =>
    clear hurl
    simp only [nodeTokens, fragment]
    induction key generalizing url with
    | nil => simp
    | cons k key ih =>
      cases url with
      | nil => simp
      | cons c url =>
        simp only [List.map_cons, List.cons_append, capture, ih, List.isPrefixOf_cons_cons, List.length_cons,
          List.drop_succ_cons]
        by_cases hc : c = k
        · simp [hc]
        · simp [hc, Ne.symm hc]

theorem hits_node (key : List Char) (param : Option ParamType) (routes : List Route) {url : List Char}
    (hurl : url ≠ []) :
    hits strtod params url (routes.map (Route.under key param)) =
      (fragment strtod key param params url).elim [] fun (params, rest) => hits strtod params rest routes := by
  have hcapture : ∀ x : Route, capture strtod (x.under key param).1 params url =
      (fragment strtod key param params url).bind fun (params, rest) => capture strtod x.1 params rest := fun x =>
    capture_append key param x.1 hurl
  rw [hits, List.filterMap_map]
  cases hf : fragment strtod key param params url with
  | none => simp [hcapture, hf]
  | some ret =>
    simp only [hf, Option.bind_some] at hcapture
    simp only [Function.comp_def, hcapture, Option.elim_some, hits]
    rfl

theorem hits_ownRoute_nil (ruleIndex : Nat) (found : Nat × RoutingParams D) :
    (hits strtod params [] (ownRoute ruleIndex)).foldl updateFound found = updateFound found (ruleIndex, params) := by
  by_cases hr : ruleIndex = 0 <;> simp [hits, ownRoute, capture, hr]

theorem hits_ownRoute (ruleIndex : Nat) {url : List Char} (hurl : url ≠ []) :
    hits strtod params url (ownRoute ruleIndex) = [] := by
  by_cases hr : ruleIndex = 0 <;> simp [hits, ownRoute, capture, hr, hurl]

theorem Forest.Keyed.hits_nil {f : Forest} (h : f.Keyed) : hits strtod params [] f.routes = [] := by
  induction f with
  | nil => rfl
  | node ruleIndex key param children siblings _ ihs =>
    obtain ⟨hkey, -, hsiblings⟩ := h
    obtain ⟨t, ts, htokens⟩ := List.exists_cons_of_ne_nil hkey
    rw [Forest.routes, hits_append, ihs hsiblings, List.append_nil, hits, List.filterMap_map]
    simp [Route.under, htokens]

theorem find_below {children : Forest} (hchildren : children.Keyed) (ruleIndex : Nat) (rest : List Char)
    (found : Nat × RoutingParams D)
    (h : rest ≠ [] → children.find strtod rest params (0, {}) =
      (hits strtod params rest children.routes).foldl updateFound (0, {})) :
    updateFound found (if rest = [] then (ruleIndex, params) else children.find strtod rest params (0, {})) =
      (hits strtod params rest (ownRoute ruleIndex ++ children.routes)).foldl updateFound found := by
  rw [hits_append]
  by_cases hrest : rest = []
  · subst hrest
    rw [hchildren.hits_nil, List.append_nil, hits_ownRoute_nil, if_pos rfl]
  · rw [if_neg hrest, hits_ownRoute ruleIndex hrest, List.nil_append, h hrest, updateFound_foldl, updateFound_zero]

/-- The walk down the tree collects the matching rules. -/
theorem Forest.find_eq {f : Forest} (h : f.Keyed) {url : List Char} (hurl : url ≠ [])
    (found : Nat × RoutingParams D) :
    f.find strtod url params found = (hits strtod params url f.routes).foldl updateFound found := by
  induction f generalizing url params found with
  | nil => rfl
  | node ruleIndex key param children siblings ihc ihs =>
    obtain ⟨hkey, hchildren, hsiblings⟩ := h
    rw [Forest.find, Forest.routes, hits_append, hits_node key param _ hurl, List.foldl_append]
    cases fragment strtod key param params url with
    | none => exact ihs hsiblings hurl found
    | some ret =>
      simp only [Option.elim_some]
      rw [ihs hsiblings hurl, find_below hchildren ruleIndex ret.2 found fun hrest => ihc hchildren hrest _]

theorem Trie.find_eq {t : Trie} (h : t.children.Keyed) (url : List Char) :
    t.find strtod url = (hits strtod {} url t.routes).foldl updateFound (0, {}) := by
  rw [Trie.routes, ← find_below h t.ruleIndex url (0, {}) fun hurl => Forest.find_eq h hurl _, Trie.find]
  by_cases hurl : url = []
  · simp only [if_pos hurl]
    by_cases hr : t.ruleIndex = 0 <;> simp [hr]
  · simp only [if_neg hurl]
    rw [Forest.find_eq h hurl, updateFound_foldl, updateFound_zero]

theorem foldl_updateFound {found : Nat × RoutingParams D} (hfound : found.1 ≠ 0)
    {hs : List (Nat × RoutingParams D)} (h : ∀ x ∈ hs, x.1 ≠ 0) :
    hs.foldl updateFound found ∈ found :: hs ∧ ∀ x ∈ found :: hs, (hs.foldl updateFound found).1 ≤ x.1 := by
  induction hs generalizing found with
  | nil => simp
  | cons y hs ih =>
    obtain ⟨hy, hrest⟩ := List.forall_mem_cons.mp h
    rw [List.foldl_cons]
    by_cases hlt : y.1 < found.1
    · have hstep : updateFound found y = y := if_pos ⟨hy, .inr hlt⟩
      obtain ⟨hmem, hall⟩ := ih hy hrest
      rw [hstep]
      refine ⟨List.mem_cons_of_mem _ hmem, List.forall_mem_cons.mpr ⟨?_, hall⟩⟩
      exact Nat.le_trans (hall y (List.mem_cons_self ..)) hlt.le
    · have hstep : updateFound found y = found := if_neg (by omega)
      obtain ⟨hmem, hall⟩ := ih hfound hrest
      obtain ⟨hself, hall⟩ := List.forall_mem_cons.mp hall
      rw [hstep]
      refine ⟨?_, List.forall_mem_cons.mpr ⟨hself, List.forall_mem_cons.mpr ⟨by omega, hall⟩⟩⟩
      rcases List.mem_cons.mp hmem with heq | hmem
      · exact List.mem_cons.mpr (.inl heq)
      · exact List.mem_cons_of_mem _ (List.mem_cons_of_mem _ hmem)

def Best (hs : List (Nat × RoutingParams D)) (found : Nat × RoutingParams D) : Prop :=
  (hs = [] → found = (0, {})) ∧ (hs ≠ [] → found ∈ hs ∧ ∀ x ∈ hs, found.1 ≤ x.1)

theorem best_foldl {hs : List (Nat × RoutingParams D)} (h : ∀ x ∈ hs, x.1 ≠ 0) :
    Best hs (hs.foldl updateFound (0, {})) := by
  cases hs with
  | nil => exact ⟨fun _ => rfl, fun hne => absurd rfl hne⟩
  | cons x hs =>
    obtain ⟨hx, hrest⟩ := List.forall_mem_cons.mp h
    refine ⟨fun hnil => absurd hnil (List.cons_ne_nil x hs), fun _ => ?_⟩
    rw [List.foldl_cons, zero_updateFound {} hx]
    exact foldl_updateFound hx hrest

theorem Best.perm {hs hs' : List (Nat × RoutingParams D)} (hperm : hs.Perm hs') {found : Nat × RoutingParams D}
    (h : Best hs found) : Best hs' found := by
  refine ⟨fun hnil => h.1 (by rw [hnil] at hperm; exact hperm.eq_nil), fun hne => ?_⟩
  obtain ⟨hmem, hall⟩ := h.2 fun hnil => hne (by rw [hnil] at hperm; exact hperm.symm.eq_nil)
  exact ⟨hperm.mem_iff.mp hmem, fun x hx => hall x (hperm.mem_iff.mpr hx)⟩

end Routes

section Optimize

theorem Route.under_under (k k' : List Char) :
    Route.under k none ∘ Route.under k' none = Route.under (k ++ k') none := by
  funext x
  simp [Route.under, nodeTokens]

theorem Forest.optimize_routes (f : Forest) :
    f.optimize.routes = f.routes ∧ ∀ ruleIndex key param siblings,
      (Forest.optimizeNode ruleIndex key param f siblings).routes =
        (Forest.node ruleIndex key param f siblings).routes := by
  induction f with
  | nil => exact ⟨rfl, fun _ _ _ _ => rfl⟩
  | node r k p children others ihc iho =>
    have hself : (Forest.optimizeNode r k p children others.optimize).routes =
        (Forest.node r k p children others).routes := by
      rw [ihc.2, Forest.routes, Forest.routes, iho.1]
    refine ⟨hself, fun ruleIndex key param siblings => ?_⟩
    rw [Forest.optimizeNode]
    split
    · next hsimple =>
      obtain ⟨rfl, rfl, rfl, rfl⟩ := hsimple
      simp [ihc.2, Forest.routes, ownRoute, Route.under_under]
    · rw [Forest.routes, Forest.routes, hself]

theorem Forest.optimize_keyed (f : Forest) :
    (f.Keyed → f.optimize.Keyed) ∧ ∀ ruleIndex key param siblings,
      (Forest.node ruleIndex key param f siblings).Keyed →
        (Forest.optimizeNode ruleIndex key param f siblings).Keyed := by
  induction f with
  | nil => exact ⟨id, fun _ _ _ _ => id⟩
  | node r k p children others ihc iho =>
    have hself : (Forest.node r k p children others).Keyed →
        (Forest.optimizeNode r k p children others.optimize).Keyed := fun h =>
      ihc.2 _ _ _ _ ⟨h.1, h.2.1, iho.1 h.2.2⟩
    refine ⟨hself, fun ruleIndex key param siblings h => ?_⟩
    rw [Forest.optimizeNode]
    split
    · next hsimple =>
      obtain ⟨rfl, rfl, rfl, rfl⟩ := hsimple
      obtain ⟨hkey, ⟨hk, hchildren, -⟩, hsiblings⟩ := h
      refine ihc.2 _ _ _ _ ⟨?_, hchildren, hsiblings⟩
      simp only [nodeTokens, ne_eq, List.map_eq_nil_iff, List.append_eq_nil_iff] at hkey ⊢
      exact fun hnil => hkey hnil.1
    · exact ⟨h.1, hself h.2.1, h.2.2⟩

end Optimize

section Add

def Token.node : Token → List Char × Option ParamType
  | .chr c => ([c], none)
  | .param p => ([], some p)

def Forest.heads : Forest → List (List Token)
  | .nil => []
  | .node _ key param _ siblings => nodeTokens key param :: siblings.heads

def Forest.Raw : Forest → Prop
  | .nil => True
  | .node _ key param children siblings =>
    (∃ t, t ≠ .chr nul ∧ key = t.node.1 ∧ param = t.node.2 ∧ [t] ∉ siblings.heads) ∧
      children.Raw ∧ siblings.Raw

def Forest.Live : Forest → Prop
  | .nil => True
  | .node r _ _ children siblings => ownRoute r ++ children.routes ≠ [] ∧ children.Live ∧ siblings.Live

variable {t : Token} {ts : List Token}

@[simp] theorem nodeTokens_node (t : Token) : nodeTokens t.node.1 t.node.2 = [t] := by
  cases t <;> rfl

theorem leads_node {t' : Token} (ht : t ≠ .chr nul) : t.leads t'.node.1 t'.node.2 = decide (t' = t) := by
  cases t with
  | chr c =>
    have hc : c ≠ nul := fun h => ht (h ▸ rfl)
    cases t' with
    | chr d => simp [Token.leads, Token.node, Bool.beq_eq_decide_eq]
    | param p => simp [Token.leads, Token.node, Ne.symm hc]
  | param p =>
    cases t' with
    | chr d => simp [Token.leads, Token.node]
    | param q => simp [Token.leads, Token.node, Bool.beq_eq_decide_eq]

theorem Forest.Raw.keyed {f : Forest} (h : f.Raw) : f.Keyed := by
  induction f with
  | nil => trivial
  | node r key param children siblings ihc ihs =>
    obtain ⟨⟨t, -, rfl, rfl, -⟩, hchildren, hsiblings⟩ := h
    exact ⟨by simp, ihc hchildren, ihs hsiblings⟩

theorem Forest.Raw.starts {f : Forest} (h : f.Raw) {x : Route} (hx : x ∈ f.routes) :
    ∃ t ts, x.1 = t :: ts ∧ [t] ∈ f.heads := by
  induction f with
  | nil => cases hx
  | node r key param children siblings _ ihs =>
    obtain ⟨⟨t, -, rfl, rfl, -⟩, -, hsiblings⟩ := h
    rw [Forest.routes, List.mem_append] at hx
    rcases hx with hx | hx
    · obtain ⟨y, -, rfl⟩ := List.mem_map.mp hx
      exact ⟨t, y.1, by simp [Route.under], by simp [Forest.heads]⟩
    · obtain ⟨t', ts, heq, hmem⟩ := ihs hsiblings hx
      exact ⟨t', ts, heq, List.mem_cons_of_mem _ hmem⟩

theorem Forest.Raw.other {f : Forest} (h : f.Raw) (hfresh : [t] ∉ f.heads) (ts : List Token) (r : Nat) :
    (t :: ts, r) ∉ f.routes := by
  intro hmem
  obtain ⟨t', ts', heq, hhead⟩ := h.starts hmem
  cases heq
  exact hfresh hhead

theorem fresh_eq (ruleIndex : Nat) (t : Token) (ts : List Token) :
    Forest.fresh ruleIndex ts t = match ts with
      | [] => .node ruleIndex t.node.1 t.node.2 .nil .nil
      | t' :: ts' => .node 0 t.node.1 t.node.2 (Forest.fresh ruleIndex ts' t') .nil := by
  cases ts <;> cases t <;> rfl

theorem fresh_spec {ruleIndex : Nat} (hr : ruleIndex ≠ 0) (hts : ∀ x ∈ t :: ts, x ≠ .chr nul) :
    (Forest.fresh ruleIndex ts t).routes = [(t :: ts, ruleIndex)] ∧ (Forest.fresh ruleIndex ts t).Raw ∧
      (Forest.fresh ruleIndex ts t).Live ∧ (Forest.fresh ruleIndex ts t).heads = [[t]] := by
  have hself : ∃ t₀, t₀ ≠ .chr nul ∧ t.node.1 = t₀.node.1 ∧ t.node.2 = t₀.node.2 ∧ [t₀] ∉ Forest.nil.heads :=
    ⟨t, hts t (by simp), rfl, rfl, by simp [Forest.heads]⟩
  induction ts generalizing t with
  | nil =>
    rw [fresh_eq]
    exact ⟨by simp [Forest.routes, ownRoute, hr, Route.under], ⟨hself, trivial, trivial⟩,
      ⟨by simp [ownRoute, hr], trivial, trivial⟩, by simp [Forest.heads]⟩
  | cons t' ts ih =>
    have hts' : ∀ x ∈ t' :: ts, x ≠ .chr nul := fun x hx => hts x (List.mem_cons_of_mem _ hx)
    obtain ⟨hroutes, hraw, hlive, -⟩ := ih hts' ⟨t', hts' t' (by simp), rfl, rfl, by simp [Forest.heads]⟩
    rw [fresh_eq]
    exact ⟨by simp [Forest.routes, ownRoute, hroutes, Route.under], ⟨hself, hraw, trivial⟩,
      ⟨by simp [hroutes], hlive, trivial⟩, by simp [Forest.heads]⟩

theorem mem_routes_node {r r' : Nat} {children siblings : Forest}
    (hother : ∀ ts r', (t :: ts, r') ∉ siblings.routes) :
    (t :: ts, r') ∈ (Forest.node r t.node.1 t.node.2 children siblings).routes ↔
      (ts, r') ∈ ownRoute r ++ children.routes := by
  rw [Forest.routes, List.mem_append, or_iff_left (hother ts r'), List.mem_map]
  constructor
  · rintro ⟨y, hy, heq⟩
    simp only [Route.under, nodeTokens_node, List.singleton_append, Prod.mk.injEq, List.cons.injEq, true_and] at heq
    obtain ⟨rfl, rfl⟩ := heq
    exact hy
  · exact fun hy => ⟨_, hy, by simp [Route.under]⟩

theorem mem_routes_sibling {r r' : Nat} {t₀ : Token} {children siblings : Forest} (hne : t₀ ≠ t) :
    (t :: ts, r') ∈ (Forest.node r t₀.node.1 t₀.node.2 children siblings).routes ↔
      (t :: ts, r') ∈ siblings.routes := by
  simp [Forest.routes, Route.under, hne]

structure Forest.Added (ruleIndex : Nat) (t : Token) (ts : List Token) (f f' : Forest) : Prop where
  absent : ∀ r, (t :: ts, r) ∉ f.routes
  routes : f'.routes.Perm ((t :: ts, ruleIndex) :: f.routes)
  raw : f'.Raw
  live : f.Live → f'.Live
  heads : ∀ h ∈ f'.heads, h ∈ f.heads ∨ h = [t]

section Node

variable {ruleIndex r : Nat} {t₀ : Token} {children children' siblings siblings' : Forest}

theorem Forest.Added.child {t' : Token} (h : Forest.Added ruleIndex t' ts children children')
    (ht : t ≠ .chr nul) (hfresh : [t] ∉ siblings.heads) (hsiblings : siblings.Raw) :
    Forest.Added ruleIndex t (t' :: ts) (.node r t.node.1 t.node.2 children siblings)
      (.node r t.node.1 t.node.2 children' siblings) where
  absent r' := by
    rw [mem_routes_node (hsiblings.other hfresh), List.mem_append, not_or]
    refine ⟨?_, h.absent r'⟩
    by_cases hr : r = 0 <;> simp [ownRoute, hr]
  routes := by
    have hbelow : (ownRoute r ++ children'.routes).Perm
        ((t' :: ts, ruleIndex) :: (ownRoute r ++ children.routes)) :=
      (h.routes.append_left _).trans List.perm_middle
    have hnode := (hbelow.map (Route.under t.node.1 t.node.2)).append_right siblings.routes
    simpa [Forest.routes, Route.under] using hnode
  raw := ⟨⟨t, ht, rfl, rfl, hfresh⟩, h.raw, hsiblings⟩
  live := by
    rintro ⟨-, hlive, hrest⟩
    have hne : children'.routes ≠ [] := fun hnil => by simpa [hnil] using h.routes.length_eq
    exact ⟨by simp [hne], h.live hlive, hrest⟩
  heads _ hh := .inl hh

theorem Forest.Added.sibling (h : Forest.Added ruleIndex t ts siblings siblings') (hne : t₀ ≠ t)
    (ht₀ : t₀ ≠ .chr nul) (hfresh : [t₀] ∉ siblings.heads) (hchildren : children.Raw) :
    Forest.Added ruleIndex t ts (.node r t₀.node.1 t₀.node.2 children siblings)
      (.node r t₀.node.1 t₀.node.2 children siblings') where
  absent r' := by
    rw [mem_routes_sibling hne]
    exact h.absent r'
  routes := (h.routes.append_left _).trans List.perm_middle
  raw := by
    refine ⟨⟨t₀, ht₀, rfl, rfl, fun hhead => ?_⟩, hchildren, h.raw⟩
    rcases h.heads _ hhead with hold | hnew
    · exact hfresh hold
    · exact hne (List.singleton_inj.mp hnew)
  live hlive := ⟨hlive.1, hlive.2.1, h.live hlive.2.2⟩
  heads x hx := by
    rcases List.mem_cons.mp hx with rfl | hx
    · exact .inl (List.mem_cons_self ..)
    · exact (h.heads x hx).imp_left (List.mem_cons_of_mem _)

theorem Forest.Added.here (hr : ruleIndex ≠ 0) (ht : t ≠ .chr nul) (hfresh : [t] ∉ siblings.heads)
    (hchildren : children.Raw) (hsiblings : siblings.Raw) :
    Forest.Added ruleIndex t [] (.node 0 t.node.1 t.node.2 children siblings)
      (.node ruleIndex t.node.1 t.node.2 children siblings) where
  absent r' := by
    rw [mem_routes_node (hsiblings.other hfresh)]
    intro hmem
    obtain ⟨t', ts', heq, -⟩ := hchildren.starts (by simpa [ownRoute] using hmem)
    cases heq
  routes := by simp [Forest.routes, ownRoute, hr, Route.under]
  raw := ⟨⟨t, ht, rfl, rfl, hfresh⟩, hchildren, hsiblings⟩
  live hlive := ⟨by simp [ownRoute, hr], hlive.2.1, hlive.2.2⟩
  heads _ hh := .inl hh

end Node

theorem Forest.add_cases {f : Forest} (hf : f.Raw) {ruleIndex : Nat} (hr : ruleIndex ≠ 0)
    (hts : ∀ x ∈ t :: ts, x ≠ .chr nul) :
    (f.add ruleIndex t ts = none ∧ ∃ r, (t :: ts, r) ∈ f.routes) ∨
      ∃ f', f.add ruleIndex t ts = some f' ∧ Forest.Added ruleIndex t ts f f' := by
  induction f generalizing t ts with
  | nil =>
    obtain ⟨hroutes, hraw, hlive, hheads⟩ := fresh_spec hr hts
    exact .inr ⟨_, rfl, by simp [Forest.routes], by rw [hroutes]; exact .refl _, hraw, fun _ => hlive, by simp [hheads]⟩
  | node r key param children siblings ihc ihs =>
    obtain ⟨⟨t₀, ht₀, rfl, rfl, hfresh⟩, hchildren, hsiblings⟩ := hf
    have ht : t ≠ .chr nul := hts t (by simp)
    by_cases heq : t₀ = t
    · subst heq
      cases ts with
      | nil =>
        simp only [Forest.add, leads_node ht, decide_true, if_true]
        by_cases hr₀ : r = 0
        · subst hr₀
          exact .inr ⟨_, if_neg (not_not.mpr rfl), .here hr ht hfresh hchildren hsiblings⟩
        · refine .inl ⟨if_pos hr₀, r, ?_⟩
          rw [mem_routes_node (hsiblings.other hfresh)]
          simp [ownRoute, hr₀]
      | cons t' ts' =>
        simp only [Forest.add, leads_node ht, decide_true, if_true]
        rcases ihc hchildren fun x hx => hts x (List.mem_cons_of_mem _ hx) with
          ⟨hnone, r', hthere⟩ | ⟨children', hsome, hadded⟩
        · refine .inl ⟨by rw [hnone]; rfl, r', ?_⟩
          rw [mem_routes_node (hsiblings.other hfresh)]
          exact List.mem_append_right _ hthere
        · exact .inr ⟨_, by rw [hsome]; rfl, hadded.child ht hfresh hsiblings⟩
    · have hadd : (Forest.node r t₀.node.1 t₀.node.2 children siblings).add ruleIndex t ts =
          (siblings.add ruleIndex t ts).map fun siblings => .node r t₀.node.1 t₀.node.2 children siblings := by
        cases ts <;> simp [Forest.add, leads_node ht, heq]
      rw [hadd]
      rcases ihs hsiblings hts with ⟨hnone, r', hthere⟩ | ⟨siblings', hsome, hadded⟩
      · exact .inl ⟨by rw [hnone]; rfl, r', (mem_routes_sibling heq).mpr hthere⟩
      · exact .inr ⟨_, by rw [hsome]; rfl, hadded.sibling heq ht₀ hfresh hchildren⟩

structure Trie.Raw (trie : Trie) : Prop where
  children : trie.children.Raw
  live : trie.children.Live

theorem Trie.add_cases {trie : Trie} (h : trie.Raw) {ruleIndex : Nat} (hr : ruleIndex ≠ 0)
    (hts : ∀ x ∈ ts, x ≠ .chr nul) :
    (trie.add ts ruleIndex = none ∧ ts ∈ trie.routes.map Prod.fst) ∨
      ∃ trie', trie.add ts ruleIndex = some trie' ∧ ts ∉ trie.routes.map Prod.fst ∧
        trie'.routes.Perm ((ts, ruleIndex) :: trie.routes) ∧ trie'.Raw := by
  cases ts with
  | nil =>
    have hbelow : ([] : List Token) ∉ trie.children.routes.map Prod.fst := by
      intro hmem
      obtain ⟨x, hx, hnil⟩ := List.mem_map.mp hmem
      obtain ⟨t, ts, heq, -⟩ := h.children.starts hx
      exact List.cons_ne_nil t ts (heq.symm.trans hnil)
    simp only [Trie.add]
    by_cases hr₀ : trie.ruleIndex = 0
    · refine .inr ⟨_, if_neg (not_not.mpr hr₀), ?_, ?_, ⟨h.children, h.live⟩⟩
      · simpa [Trie.routes, ownRoute, hr₀] using hbelow
      · simp [Trie.routes, ownRoute, hr₀, hr]
    · exact .inl ⟨if_pos hr₀, by simp [Trie.routes, ownRoute, hr₀]⟩
  | cons t ts =>
    have hmem : t :: ts ∈ trie.routes.map Prod.fst ↔ ∃ r, (t :: ts, r) ∈ trie.children.routes := by
      by_cases hr₀ : trie.ruleIndex = 0 <;> simp [Trie.routes, ownRoute, hr₀]
    simp only [Trie.add, hmem]
    rcases Forest.add_cases h.children hr hts with ⟨hnone, hthere⟩ | ⟨children, hsome, hadded⟩
    · exact .inl ⟨by rw [hnone]; rfl, hthere⟩
    · refine .inr ⟨{ trie with children := children }, by rw [hsome]; rfl, not_exists.mpr hadded.absent, ?_,
        hadded.raw, hadded.live h.live⟩
      exact (hadded.routes.append_left _).trans List.perm_middle

end Add

section Table

variable {t : Token}

def rowsOf (rule : List Char) (ruleIndex : Nat) : Option (List Route) := do
  let ts ← tokens rule 0
  if rule.length > 1 ∧ rule.getLast? = some '/' then
    let ts' ← tokens rule.dropLast 0
    return [(ts, ruleIndex), (ts', ruleSpecialRedirectSlash)]
  else return [(ts, ruleIndex)]

def tableFrom : Nat → List (List Char) → Option (List Route)
  | _, [] => some []
  | ruleIndex, rule :: rules => do
    let rows ← rowsOf rule ruleIndex
    let table ← tableFrom (ruleIndex + 1) rules
    return rows ++ table

def ruleTable (rules : List String) : Option (List Route) := tableFrom 2 (rules.map String.toList)

def Trie.addRows (trie : Trie) (rows : List Route) : Option Trie :=
  rows.foldlM (fun trie x => trie.add x.1 x.2) trie

theorem Trie.addRule_eq (trie : Trie) (rule : List Char) {ruleIndex : Nat} (hindex : ruleIndex < 2 ^ 16) :
    trie.addRule rule ruleIndex = (rowsOf rule ruleIndex).bind trie.addRows := by
  rw [Trie.addRule, rowsOf, Nat.mod_eq_of_lt hindex]
  cases tokens rule 0 with
  | none => rfl
  | some ts =>
    split
    · cases tokens rule.dropLast 0 with
      | none => simp
      | some ts' => simp [Trie.addRows]
    · simp [Trie.addRows]

theorem Trie.addRules_eq (trie : Trie) {ruleIndex : Nat} (rules : List (List Char))
    (hindex : ruleIndex + rules.length ≤ 2 ^ 16) :
    trie.addRules ruleIndex rules = (tableFrom ruleIndex rules).bind trie.addRows := by
  induction rules generalizing trie ruleIndex with
  | nil => rfl
  | cons rule rules ih =>
    rw [List.length_cons] at hindex
    rw [Trie.addRules, Trie.addRule_eq trie rule (by omega), tableFrom]
    cases rowsOf rule ruleIndex with
    | none => rfl
    | some rows =>
      simp only [Option.bind_some, Option.bind_eq_bind]
      cases hadd : trie.addRows rows with
      | none =>
        cases tableFrom (ruleIndex + 1) rules with
        | none => rfl
        | some table => simp_all [Trie.addRows, List.foldlM_append]
      | some trie' =>
        rw [Option.bind_some, ih trie' (by omega)]
        cases tableFrom (ruleIndex + 1) rules with
        | none => rfl
        | some table => simp_all [Trie.addRows, List.foldlM_append]

theorem Trie.addRows_cases {trie : Trie} (h : trie.Raw) (hnodup : (trie.routes.map Prod.fst).Nodup)
    (rows : List Route) (hrows : ∀ x ∈ rows, x.2 ≠ 0 ∧ ∀ t ∈ x.1, t ≠ .chr nul) :
    (trie.addRows rows = none ∧ ¬((trie.routes ++ rows).map Prod.fst).Nodup) ∨
      ∃ trie', trie.addRows rows = some trie' ∧ ((trie.routes ++ rows).map Prod.fst).Nodup ∧
        trie'.routes.Perm (trie.routes ++ rows) ∧ trie'.Raw := by
  induction rows generalizing trie with
  | nil => exact .inr ⟨trie, rfl, by simpa using hnodup, by simp, h⟩
  | cons x rows ih =>
    obtain ⟨ts, ruleIndex⟩ := x
    obtain ⟨hr, hts⟩ := hrows _ (List.mem_cons_self ..)
    rw [Trie.addRows, List.foldlM_cons]
    rcases Trie.add_cases h hr hts with ⟨hnone, hthere⟩ | ⟨trie', hsome, habsent, hperm, hraw⟩
    · refine .inl ⟨by rw [hnone]; rfl, fun hall => ?_⟩
      rw [List.map_append, List.map_cons] at hall
      exact (List.nodup_append.mp hall).2.2 _ hthere _ (List.mem_cons_self ..) rfl
    · have hmoved : (trie'.routes ++ rows).Perm (trie.routes ++ (ts, ruleIndex) :: rows) :=
        (hperm.append_right rows).trans List.perm_middle.symm
      have hnodup' : (trie'.routes.map Prod.fst).Nodup :=
        (hperm.map Prod.fst).nodup_iff.mpr (List.nodup_cons.mpr ⟨habsent, hnodup⟩)
      rw [hsome, Option.bind_eq_bind, Option.bind_some, ← (hmoved.map Prod.fst).nodup_iff]
      rcases ih hraw hnodup' fun y hy => hrows y (List.mem_cons_of_mem _ hy) with hfail | ⟨trie'', hrest, hall, hperm', hraw'⟩
      · exact .inl hfail
      · exact .inr ⟨trie'', hrest, hall, hperm'.trans hmoved, hraw'⟩

def OneStart (table : List Route) : Prop := ∃ c, ∀ x ∈ table, ∃ ts, x.1 = .chr c :: ts

theorem Forest.Raw.exists_route {r : Nat} {children siblings : Forest}
    (hlive : (Forest.node r t.node.1 t.node.2 children siblings).Live) :
    ∃ x ∈ (Forest.node r t.node.1 t.node.2 children siblings).routes, ∃ ts, x.1 = t :: ts := by
  obtain ⟨y, hy⟩ := List.exists_mem_of_ne_nil _ hlive.1
  exact ⟨y.under t.node.1 t.node.2, List.mem_append_left _ (List.mem_map_of_mem hy), y.1, by simp [Route.under]⟩

theorem Trie.validate_isSome {trie : Trie} (h : trie.Raw) : trie.validate.isSome ↔ OneStart trie.routes := by
  obtain ⟨ruleIndex, children⟩ := trie
  obtain ⟨hchildren, hlive⟩ := h
  by_cases hr : ruleIndex = 0
  · subst hr
    cases children with
    | nil => simp [Trie.validate, OneStart, Trie.routes, ownRoute, Forest.routes]
    | node r key param children siblings =>
      obtain ⟨⟨t, -, rfl, rfl, hfresh⟩, -, hsiblings⟩ := hchildren
      obtain ⟨x, hx, ts, hts⟩ := Forest.Raw.exists_route hlive
      constructor
      · intro hsome
        cases siblings with
        | node => simp [Trie.validate] at hsome
        | nil =>
          cases t with
          | param p => simp [Trie.validate, Token.node] at hsome
          | chr c =>
            refine ⟨c, fun y hy => ?_⟩
            rw [Trie.routes, ownRoute, if_pos rfl, List.nil_append, Forest.routes, Forest.routes, List.append_nil] at hy
            obtain ⟨z, -, rfl⟩ := List.mem_map.mp hy
            exact ⟨z.1, by simp [Route.under]⟩
      · rintro ⟨c, hall⟩
        have htc : t = .chr c := by
          obtain ⟨ts', hts'⟩ := hall x hx
          exact (List.cons.inj (hts.symm.trans hts')).1
        cases siblings with
        | nil => simp [Trie.validate, htc, Token.node]
        | node r' key' param' children' siblings' =>
          -- siblings differ in what they start with
          obtain ⟨⟨t', -, rfl, rfl, -⟩, -, -⟩ := hsiblings
          obtain ⟨y, hy, us, hus⟩ := Forest.Raw.exists_route hlive.2.2
          obtain ⟨us', hus'⟩ := hall y (List.mem_append_right _ (List.mem_append_right _ hy))
          have htc' : t' = .chr c := (List.cons.inj (hus.symm.trans hus')).1
          exact absurd (by simp [Forest.heads, htc, htc']) hfresh
  · constructor
    · intro hsome
      cases ruleIndex with
      | zero => exact absurd rfl hr
      | succ n => simp [Trie.validate] at hsome
    · rintro ⟨c, hall⟩
      obtain ⟨ts, hts⟩ := hall ([], ruleIndex) (by simp [Trie.routes, ownRoute, hr])
      cases hts

theorem Trie.validate_spec {trie trie' : Trie} (h : trie.Raw) (hvalid : trie.validate = some trie') :
    trie'.routes = trie.routes ∧ trie'.children.Keyed := by
  have hkeyed := h.children.keyed
  unfold Trie.validate at hvalid
  split at hvalid
  · cases hvalid
    exact ⟨rfl, hkeyed⟩
  · cases hvalid
    exact ⟨by rw [Trie.routes, Trie.routes, (Forest.optimize_routes _).1], (Forest.optimize_keyed _).1 hkeyed⟩
  · cases hvalid

theorem tokens_nul {rule : List Char} (hnul : nul ∉ rule) {skip : Nat} {ts : List Token}
    (h : tokens rule skip = some ts) : ∀ t ∈ ts, t ≠ .chr nul := by
  induction rule, skip using tokens.induct generalizing ts with
  | case1 skip =>
    cases h
    simp
  | case2 c url skip ih => exact ih (fun hmem => hnul (List.mem_cons_of_mem _ hmem)) h
  | case3 url type name hfind ih =>
    rw [tokens, if_pos rfl, hfind] at h
    obtain ⟨ts, hts, rfl⟩ := Option.map_eq_some_iff.mp h
    have hrest := ih (fun hmem => hnul (List.mem_cons_of_mem _ hmem)) hts
    simpa using hrest
  | case4 url hfind =>
    rw [tokens, if_pos rfl, hfind] at h
    cases h
  | case5 c url hc ih =>
    rw [tokens, if_neg hc] at h
    obtain ⟨ts, hts, rfl⟩ := Option.map_eq_some_iff.mp h
    have hrest := ih (fun hmem => hnul (List.mem_cons_of_mem _ hmem)) hts
    have hchr : Token.chr c ≠ .chr nul := by
      intro heq
      cases heq
      exact hnul (List.mem_cons_self ..)
    exact List.forall_mem_cons.mpr ⟨hchr, hrest⟩

theorem rowsOf_spec {rule : List Char} (hnul : nul ∉ rule) {ruleIndex : Nat} (hr : ruleIndex ≠ 0) {rows : List Route}
    (h : rowsOf rule ruleIndex = some rows) : ∀ x ∈ rows, x.2 ≠ 0 ∧ ∀ t ∈ x.1, t ≠ .chr nul := by
  simp only [rowsOf, Option.bind_eq_bind, Option.bind_eq_some_iff] at h
  obtain ⟨ts, hts, h⟩ := h
  have hself : ruleIndex ≠ 0 ∧ ∀ t ∈ ts, t ≠ .chr nul := ⟨hr, tokens_nul hnul hts⟩
  split at h
  · obtain ⟨ts', hts', h⟩ := Option.bind_eq_some_iff.mp h
    cases h
    have hcut : nul ∉ rule.dropLast := fun hmem => hnul (List.dropLast_subset _ hmem)
    have hredirect : ruleSpecialRedirectSlash ≠ 0 ∧ ∀ t ∈ ts', t ≠ .chr nul := ⟨by decide, tokens_nul hcut hts'⟩
    simpa using ⟨hself, hredirect⟩
  · cases h
    simpa using hself

theorem tableFrom_spec {rules : List (List Char)} (hnul : ∀ rule ∈ rules, nul ∉ rule) {ruleIndex : Nat}
    (hr : ruleIndex ≠ 0) {table : List Route} (h : tableFrom ruleIndex rules = some table) :
    ∀ x ∈ table, x.2 ≠ 0 ∧ ∀ t ∈ x.1, t ≠ .chr nul := by
  induction rules generalizing ruleIndex table with
  | nil =>
    cases h
    simp
  | cons rule rules ih =>
    simp only [tableFrom, Option.bind_eq_bind, Option.bind_eq_some_iff] at h
    obtain ⟨rows, hrows, table', htable, h⟩ := h
    cases h
    have hhead := rowsOf_spec (hnul rule (List.mem_cons_self ..)) hr hrows
    have htail := ih (fun rule hmem => hnul rule (List.mem_cons_of_mem _ hmem)) (by omega) htable
    exact List.forall_mem_append.mpr ⟨hhead, htail⟩

variable {rules : List String}

theorem Trie.build_cases (hlength : rules.length + 2 ≤ 2 ^ 16) (hnul : ∀ rule ∈ rules, nul ∉ rule.toList) :
    (Trie.build rules = none ∧
        ∀ table, ruleTable rules = some table → ¬((table.map Prod.fst).Nodup ∧ OneStart table)) ∨
      ∃ trie table, Trie.build rules = some trie ∧ ruleTable rules = some table ∧ (table.map Prod.fst).Nodup ∧
        OneStart table ∧ trie.routes.Perm table ∧ trie.children.Keyed ∧ ∀ x ∈ table, x.2 ≠ 0 := by
  have hstart : Trie.Raw {} := ⟨trivial, trivial⟩
  rw [Trie.build, Trie.addRules_eq _ _ (by simpa [Nat.add_comm] using hlength), ← ruleTable]
  cases htable : ruleTable rules with
  | none => exact .inl ⟨rfl, by simp⟩
  | some table =>
    have hrows : ∀ x ∈ table, x.2 ≠ 0 ∧ ∀ t ∈ x.1, t ≠ .chr nul :=
      tableFrom_spec (by simpa using hnul) (by decide) htable
    rw [Option.bind_some]
    rcases Trie.addRows_cases hstart List.nodup_nil table hrows with ⟨hnone, hdup⟩ | ⟨trie, hsome, hnodup, hperm, hraw⟩
    · exact .inl ⟨by rw [hnone]; rfl, fun _ heq hall => hdup (Option.some.inj heq ▸ hall.1)⟩
    · have honeStart : OneStart trie.routes ↔ OneStart table := by
        unfold OneStart
        exact exists_congr fun c => forall_congr' fun x => by rw [hperm.mem_iff]; rfl
      rw [hsome, Option.bind_some]
      cases hvalid : trie.validate with
      | none =>
        refine .inl ⟨rfl, fun _ heq hall => ?_⟩
        have hsimple := (Trie.validate_isSome hraw).mpr (honeStart.mpr (Option.some.inj heq ▸ hall.2))
        simp [hvalid] at hsimple
      | some trie' =>
        obtain ⟨hroutes, hkeyed⟩ := Trie.validate_spec hraw hvalid
        have hsimple := honeStart.mp ((Trie.validate_isSome hraw).mp (by simp [hvalid]))
        exact .inr ⟨trie', table, rfl, rfl, hnodup, hsimple, hroutes ▸ hperm, hkeyed, fun x hx => (hrows x hx).1⟩

theorem Trie.find_table {trie : Trie} (hkeyed : trie.children.Keyed) {table : List Route}
    (hperm : trie.routes.Perm table) (hindex : ∀ x ∈ table, x.2 ≠ 0) {D : Type}
    (strtod : List Char → Option (D × Nat)) (url : List Char) :
    Best (hits strtod {} url table) (trie.find strtod url) := by
  have hhits : (hits strtod {} url trie.routes).Perm (hits strtod {} url table) := hperm.filterMap _
  have hnonzero : ∀ x ∈ hits strtod {} url trie.routes, x.1 ≠ 0 := by
    intro x hx
    obtain ⟨y, hy, heq⟩ := List.mem_filterMap.mp hx
    obtain ⟨captured, -, rfl⟩ := Option.map_eq_some_iff.mp heq
    exact hindex y (hperm.mem_iff.mp hy)
  rw [Trie.find_eq hkeyed]
  exact (best_foldl hnonzero).perm hhits

/-- The server starts exactly when no two rules ask the same of a URL and all
start with the same character; a rule with an unknown `<...>` keeps it from
starting as well. -/
theorem rules_registered_iff (hlength : rules.length + 2 ≤ 2 ^ 16) (hnul : ∀ rule ∈ rules, nul ∉ rule.toList) :
    (Trie.build rules).isSome ↔
      ∃ table, ruleTable rules = some table ∧ (table.map Prod.fst).Nodup ∧ OneStart table := by
  rcases Trie.build_cases hlength hnul with ⟨hnone, hbad⟩ | ⟨trie, table, hsome, htable, hnodup, hstart, -⟩
  · simp only [hnone, Option.isSome_none, Bool.false_eq_true, false_iff]
    rintro ⟨table, htable, hgood⟩
    exact hbad table htable hgood
  · simp only [hsome, Option.isSome_some, true_iff]
    exact ⟨table, htable, hnodup, hstart⟩

theorem rules_registered_iff_example :
    (Trie.build ["/w/", "/<int>"]).isSome ∧ ¬(Trie.build ["/w/", "/w"]).isSome := by
  constructor
  · rw [rules_registered_iff (by decide) (by decide +kernel)]
    exact ⟨[([.chr '/', .chr 'w', .chr '/'], 2), ([.chr '/', .chr 'w'], 1), ([.chr '/', .param .int], 3)],
      by decide +kernel, by decide, '/', by simp⟩
  · rw [rules_registered_iff (by decide) (by decide +kernel)]
    rintro ⟨table, htable, hnodup, -⟩
    have hrows : table = (ruleTable ["/w/", "/w"]).getD [] := by rw [htable]; rfl
    rw [hrows] at hnodup
    exact absurd hnodup (by decide +kernel)

/-- The tree as it is searched, with its simple nodes merged, finds the rule of
the smallest index among those that match, and what that rule captures. -/
theorem rule_found (hlength : rules.length + 2 ≤ 2 ^ 16) (hnul : ∀ rule ∈ rules, nul ∉ rule.toList) {trie : Trie}
    (hbuild : Trie.build rules = some trie) :
    ∃ table, ruleTable rules = some table ∧ ∀ (D : Type) (strtod : List Char → Option (D × Nat)) (url : List Char),
      Best (hits strtod {} url table) (trie.find strtod url) := by
  rcases Trie.build_cases hlength hnul with ⟨hnone, -⟩ | ⟨trie', table, hsome, htable, -, -, hperm, hkeyed, hindex⟩
  · rw [hnone] at hbuild
    cases hbuild
  · cases hsome.symm.trans hbuild
    exact ⟨table, htable, fun D strtod url => Trie.find_table hkeyed hperm hindex strtod url⟩

theorem rule_found_example :
    ∃ trie, Trie.build ["/<string>", "/<int>/edit", "/about/"] = some trie ∧
      trie.find (D := Unit) (fun _ => none) "/17/edit".toList = (3, { intParams := [17] }) ∧
      trie.find (D := Unit) (fun _ => none) "/about".toList = (1, {}) ∧
      trie.find (D := Unit) (fun _ => none) "/a/b".toList = (0, {}) := by
  have hbuild : (Trie.build ["/<string>", "/<int>/edit", "/about/"]).isSome := by decide +kernel
  obtain ⟨trie, htrie⟩ := Option.isSome_iff_exists.mp hbuild
  obtain ⟨table, htable, hfind⟩ := rule_found (by decide) (by decide +kernel) htrie
  have hrows : table = (ruleTable ["/<string>", "/<int>/edit", "/about/"]).getD [] := by rw [htable]; rfl
  subst hrows
  refine ⟨trie, htrie, ?_, ?_, ?_⟩
  · have h := hfind Unit (fun _ => none) "/17/edit".toList
    rw [show hits (D := Unit) (fun _ => none) {} "/17/edit".toList _ = [(3, { intParams := [17] })] by
      decide +kernel] at h
    simpa using (h.2 (by simp)).1
  · have h := hfind Unit (fun _ => none) "/about".toList
    rw [show hits (D := Unit) (fun _ => none) {} "/about".toList _ =
      [(2, { stringParams := ["about".toList] }), (1, {})] by decide +kernel] at h
    obtain ⟨hmem, hall⟩ := h.2 (by simp)
    rcases List.mem_cons.mp hmem with heq | hmem
    · have hle := hall (1, {}) (by simp)
      rw [heq] at hle
      exact absurd hle (by decide)
    · simpa using hmem
  · have h := hfind Unit (fun _ => none) "/a/b".toList
    rw [show hits (D := Unit) (fun _ => none) {} "/a/b".toList _ = [] by decide +kernel] at h
    exact h.1 rfl

end Table

end DigitalWallet

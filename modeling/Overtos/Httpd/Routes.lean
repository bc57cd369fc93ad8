import Overtos.Httpd.WsLife
import Overtos.Lib.Longest

/-! The route tables of the HTTP server and of its WebSockets: which route a request gets. -/
namespace Overtos.Httpd
open CStr Longest Runs List

theorem filled_eq {α β : Type*} {cap : ℕ} {add : List β → α → List β} {entry : α → β}
    (hadd : ∀ table a, table.length < cap → add table a = table ++ [entry a]) {l : List α}
    (h : l.length ≤ cap) : l.foldl add [] = l.map entry := by
  induction l using reverseRecOn with
  | nil => rfl
  | append_singleton l a ih =>
    rw [length_append, length_singleton] at h
    rw [foldl_append, ih (by omega), foldl_cons, foldl_nil,
      hadd _ _ (by rw [length_map]; omega), map_append, map_singleton]

section

variable {Handler : Type*}

structure Registration (Handler : Type*) where
  method : CString
  path : CString
  handler : Handler

def registered (regs : List (Registration Handler)) : List (Route Handler) :=
  regs.foldl (fun routes r => (oveHttpdRoute routes r.method r.path r.handler).2) []

def Registration.route (r : Registration Handler) : Route Handler :=
  ⟨r.method.bytes.take 7, r.path.bytes.take 63, r.handler⟩

variable {regs : List (Registration Handler)} {r : Registration Handler}

theorem registered_eq (h : regs.length ≤ maxRoutes) :
    registered regs = regs.map Registration.route := by
  refine filled_eq (fun routes r hroom => ?_) h
  rw [oveHttpdRoute, if_neg (Nat.not_le.mpr hroom)]
  simp [ofArray_strncpy, Registration.route]

structure Registrable (regs : List (Registration Handler)) : Prop where
  room : regs.length ≤ maxRoutes
  method : ∀ r ∈ regs, r.method.bytes.length ≤ 7
  path : ∀ r ∈ regs, r.path.bytes ≠ [] ∧ r.path.bytes.length ≤ 63
  distinct : (regs.map fun r => (r.method.bytes, r.path.bytes)).Nodup

theorem Registrable.perm {regs' : List (Registration Handler)} (h : Registrable regs)
    (hperm : regs'.Perm regs) : Registrable regs' where
  room := hperm.length_eq.trans_le h.room
  method r hr := h.method r (hperm.mem_iff.mp hr)
  path r hr := h.path r (hperm.mem_iff.mp hr)
  distinct := (hperm.map _).nodup_iff.mpr h.distinct

def AtBoundary (route path : Bytes) : Prop :=
  route.length = path.length ∨ path[route.length]? = some 0x2f ∨ route.getLast? = some 0x2f

def Registration.Serves (r : Registration Handler) (req : Req) : Prop :=
  r.method.bytes = req.method ∧ r.path.bytes <+: req.path ∧ AtBoundary r.path.bytes req.path

theorem Registration.route_eq (h : Registrable regs) (hr : r ∈ regs) :
    r.route = ⟨r.method.bytes, r.path.bytes, r.handler⟩ := by
  rw [Registration.route, take_of_length_le (h.method r hr), take_of_length_le (h.path r hr).2]

theorem matchRoute_eq_longest (routes : List (Route Handler)) (req : Req) :
    matchRoute routes req = longest (fun r => r.covers req) (fun r => r.path.length) routes := rfl

theorem covers_iff (h : Registrable regs) (hr : r ∈ regs) {req : Req} (hq : 0x3f ∉ req.path) :
    r.route.covers req = true ↔ r.Serves req := by
  have hmark : req.path[r.path.bytes.length]? ≠ some 0x3f := fun hget =>
    hq (mem_of_getElem? hget)
  rw [Registration.route_eq h hr, Route.covers, Registration.Serves, AtBoundary]
  simp [ isPrefixOf_iff_prefix, hmark, eq_comm (a := req.path.length)]

theorem covers_inj (h : Registrable regs) {req : Req} :
    ∀ a ∈ registered regs, ∀ b ∈ registered regs, a.covers req → b.covers req →
      a.path.length = b.path.length → a = b := by
  rw [registered_eq h.room]
  intro a ha b hb hca hcb hlen
  obtain ⟨r, hr, rfl⟩ := mem_map.mp ha
  obtain ⟨r', hr', rfl⟩ := mem_map.mp hb
  rw [Registration.route_eq h hr] at hca hlen
  rw [Registration.route_eq h hr'] at hcb hlen
  simp only [Route.covers, decide_eq_true_eq, isPrefixOf_iff_prefix] at hca hcb
  have hpath : r.path.bytes = r'.path.bytes :=
    (prefix_of_prefix_length_le hca.2.1 hcb.2.1 hlen.le).eq_of_length hlen
  have hkey : r = r' := inj_on_of_nodup_map h.distinct hr hr'
    (Prod.ext (hca.1.trans hcb.1.symm) hpath)
  rw [hkey]

theorem parseRequest_path (arch : Arch) (maxBody : ℕ) (buf : Bytes) :
    0x3f ∉ (parseRequest arch maxBody buf).2.path := by
  unfold parseRequest
  split
  · exact not_mem_nil
  · split
    · exact not_mem_nil
    · dsimp only
      split
      · rename_i hcut
        exact cut_eq_none_iff.mp hcut
      · rename_i hcut
        exact (cut_eq_some hcut).2

/-- The route found has the longest path, whatever the order of the registrations. -/
theorem match_route_longest (regs : List (Registration Handler)) (h : Registrable regs) :
    (∀ req : Req, 0x3f ∉ req.path →
      (∀ route, matchRoute (registered regs) req = some route ↔
        ∃ r ∈ regs, route = r.route ∧ r.Serves req ∧
          ∀ r' ∈ regs, r'.Serves req → r'.path.bytes.length ≤ r.path.bytes.length) ∧
      (matchRoute (registered regs) req = none ↔ ∀ r ∈ regs, ¬r.Serves req)) ∧
    (∀ regs' : List (Registration Handler), regs'.Perm regs → ∀ req,
      matchRoute (registered regs') req = matchRoute (registered regs) req) ∧
    ∀ arch maxBody buf, 0x3f ∉ (parseRequest arch maxBody buf).2.path := by
  refine ⟨fun req hq => ⟨fun route => ?_, ?_⟩, fun regs' hperm req => ?_, parseRequest_path⟩
  · rw [matchRoute_eq_longest, longest_eq_some_iff (covers_inj h), registered_eq h.room]
    constructor
    · rintro ⟨hmem, hcovers, -, hmax⟩
      obtain ⟨r, hr, rfl⟩ := mem_map.mp hmem
      refine ⟨r, hr, rfl, (covers_iff h hr hq).mp hcovers, fun r' hr' hserves => ?_⟩
      have hle := hmax _ (mem_map_of_mem hr') ((covers_iff h hr' hq).mpr hserves)
      rwa [Registration.route_eq h hr, Registration.route_eq h hr'] at hle
    · rintro ⟨r, hr, rfl, hserves, hmax⟩
      refine ⟨mem_map_of_mem hr, (covers_iff h hr hq).mpr hserves, ?_, fun b hb hcovers => ?_⟩
      · rw [Registration.route_eq h hr]
        exact length_pos_of_ne_nil (h.path r hr).1
      · obtain ⟨r', hr', rfl⟩ := mem_map.mp hb
        rw [Registration.route_eq h hr, Registration.route_eq h hr']
        exact hmax r' hr' ((covers_iff h hr' hq).mp hcovers)
  · rw [matchRoute_eq_longest, longest_eq_none_iff, registered_eq h.room, forall_mem_map]
    refine forall₂_congr fun r hr => ?_
    have hpos := length_pos_of_ne_nil (h.path r hr).1
    rw [covers_iff h hr hq, Registration.route_eq h hr]
    exact ⟨fun hzero hserves => hpos.ne' (hzero hserves), fun hno hserves => absurd hserves hno⟩
  · have h' : Registrable regs' := h.perm hperm
    have hmem : ∀ route, route ∈ registered regs' ↔ route ∈ registered regs := fun route => by
      rw [registered_eq h'.room, registered_eq h.room, (hperm.map _).mem_iff]
    ext route
    rw [matchRoute_eq_longest, matchRoute_eq_longest, longest_eq_some_iff (covers_inj h'),
      longest_eq_some_iff (covers_inj h)]
    simp only [hmem]

end

theorem get_noNul : ∀ b ∈ ascii "GET", b ≠ 0 := by decide +kernel

theorem root_noNul : ∀ b ∈ ascii "/", b ≠ 0 := by decide +kernel

theorem api_noNul : ∀ b ∈ ascii "/api", b ≠ 0 := by decide +kernel

def apiRoutes : List (Registration Unit) :=
  [⟨⟨ascii "GET", get_noNul⟩, ⟨ascii "/", root_noNul⟩, ()⟩,
    ⟨⟨ascii "GET", get_noNul⟩, ⟨ascii "/api", api_noNul⟩, ()⟩]

theorem apiRoutes_registrable : Registrable apiRoutes :=
  ⟨by decide, by decide, by decide, by decide⟩

theorem api_route_found :
    matchRoute (registered apiRoutes.reverse) { method := ascii "GET", path := ascii "/api/x" } =
      some ⟨ascii "GET", ascii "/api", ()⟩ := by
  have h := match_route_longest apiRoutes apiRoutes_registrable
  have hlen : ∀ r ∈ apiRoutes, r.path.bytes.length ≤ 4 := by decide
  rw [h.2.1 _ (reverse_perm _)]
  refine ((h.1 _ (by decide)).1 _).mpr
    ⟨_, mem_cons_of_mem _ mem_cons_self, rfl, ⟨rfl, by decide, ?_⟩,
      fun r hr _ => hlen r hr⟩
  exact .inr (.inl (by decide))

structure WsRegistration where
  path : CString
  onMessage : Option (List WsEvent → ℕ → Bytes → WsReaction)
  onClose : Option (List WsEvent → ℕ → WsReaction)

def wsMaxRoutes : ℕ := 4

def oveHttpdWsRoute (routes : List WsRoute) (r : WsRegistration) : Rc × List WsRoute :=
  if wsMaxRoutes ≤ routes.length then (.errNoMemory, routes)
  else (.ok, routes ++ [⟨ofArray (strncpy 63 r.path ++ [0]), r.onMessage, r.onClose⟩])

def wsRegistered (regs : List WsRegistration) : List WsRoute :=
  regs.foldl (fun routes r => (oveHttpdWsRoute routes r).2) []

def WsRegistration.route (r : WsRegistration) : WsRoute :=
  ⟨r.path.bytes.take 63, r.onMessage, r.onClose⟩

theorem wsRegistered_eq {regs : List WsRegistration} (h : regs.length ≤ wsMaxRoutes) :
    wsRegistered regs = regs.map WsRegistration.route := by
  refine filled_eq (fun routes r hroom => ?_) h
  rw [oveHttpdWsRoute, if_neg (Nat.not_le.mpr hroom)]
  simp [ofArray_strncpy, WsRegistration.route]

structure Shared {Handler : Type*} (regs : List (Registration Handler))
    (wsRegs : List WsRegistration) : Prop where
  room : regs.length ≤ maxRoutes
  wsRoom : wsRegs.length ≤ wsMaxRoutes
  method : ∀ r ∈ regs, r.method.bytes = ascii "GET"
  paths : ∀ p, (∃ r ∈ regs, r.path.bytes = p) ↔ ∃ r ∈ wsRegs, r.path.bytes = p

def getRequest (path : Bytes) : Req := { method := ascii "GET", path := path }

def MatchersAgree {Handler : Type*} (routes : List (Route Handler)) (wsRoutes : List WsRoute)
    (path : Bytes) : Prop :=
  (wsMatchRoute WsRoute.path wsRoutes path).map WsRoute.path =
    (matchRoute routes (getRequest path)).map Route.path

def LongestAtBoundary (wsRegs : List WsRegistration) (path : Bytes) : Prop :=
  ∀ r ∈ wsRegs, r.path.bytes.take 63 ≠ [] → r.path.bytes.take 63 <+: path →
    (∀ r' ∈ wsRegs, r'.path.bytes.take 63 <+: path →
      (r'.path.bytes.take 63).length ≤ (r.path.bytes.take 63).length) →
    AtBoundary (r.path.bytes.take 63) path ∨ path[(r.path.bytes.take 63).length]? = some 0x3f

variable {α Handler : Type*}

theorem wsMatchRoute_eq_longest (key : α → Bytes) (routes : List α) (path : Bytes) :
    wsMatchRoute key routes path =
      longest (fun r => (key r).isPrefixOf path) (fun r => (key r).length) routes := rfl

theorem covers_get_iff {r : Route Handler} (hm : r.method = ascii "GET") (path : Bytes) :
    r.covers (getRequest path) = true ↔
      r.path <+: path ∧ (AtBoundary r.path path ∨ path[r.path.length]? = some 0x3f) := by
  rw [Route.covers, AtBoundary]
  simp only [getRequest, decide_eq_true_eq, isPrefixOf_iff_prefix, hm, true_and,
    eq_comm (a := path.length)]
  tauto

theorem eq_of_prefix {a b path : Bytes} (ha : a <+: path) (hb : b <+: path)
    (hle : a.length ≤ b.length) (hge : b.length ≤ a.length) : a = b :=
  (prefix_of_prefix_length_le ha hb hle).eq_of_length (Nat.le_antisymm hle hge)

theorem matchersAgree_iff_longest {routes : List (Route Handler)} {wsRoutes : List WsRoute}
    (hget : ∀ r ∈ routes, r.method = ascii "GET")
    (hpaths : ∀ p, (∃ r ∈ routes, r.path = p) ↔ ∃ r ∈ wsRoutes, r.path = p) (path : Bytes) :
    MatchersAgree routes wsRoutes path ↔ ∀ r ∈ wsRoutes, r.path ≠ [] → r.path <+: path →
      (∀ r' ∈ wsRoutes, r'.path <+: path → r'.path.length ≤ r.path.length) →
      AtBoundary r.path path ∨ path[r.path.length]? = some 0x3f := by
  rw [MatchersAgree, wsMatchRoute_eq_longest, matchRoute_eq_longest]
  constructor
  · intro h r hr hne hprefix hmax
    cases hws : longest (fun r : WsRoute => r.path.isPrefixOf path) (fun r => r.path.length)
        wsRoutes with
    | none =>
      have hzero := longest_eq_none_iff.mp hws r hr ( isPrefixOf_iff_prefix.mpr hprefix)
      exact absurd (length_eq_zero_iff.mp hzero) hne
    | some s =>
      obtain ⟨hs, hsp, -, hsmax⟩ := longest_some hws
      rw [ isPrefixOf_iff_prefix] at hsp
      have heq : s.path = r.path := eq_of_prefix hsp hprefix (hmax s hs hsp)
        (hsmax r hr ( isPrefixOf_iff_prefix.mpr hprefix))
      rw [hws, Option.map_some] at h
      obtain ⟨t, ht, htp⟩ := Option.map_eq_some_iff.mp h.symm
      obtain ⟨htm, hcovers, -, -⟩ := longest_some ht
      have hbound := ((covers_get_iff (hget t htm) path).mp hcovers).2
      rwa [htp, heq] at hbound
  · intro h
    cases hws : longest (fun r : WsRoute => r.path.isPrefixOf path) (fun r => r.path.length)
        wsRoutes with
    | none =>
      rw [Option.map_none, eq_comm, Option.map_eq_none_iff, longest_eq_none_iff]
      intro t ht hcovers
      obtain ⟨r, hr, hrp⟩ := (hpaths t.path).mp ⟨t, ht, rfl⟩
      have hprefix := ((covers_get_iff (hget t ht) path).mp hcovers).1
      rw [← hrp] at hprefix ⊢
      exact longest_eq_none_iff.mp hws r hr ( isPrefixOf_iff_prefix.mpr hprefix)
    | some s =>
      obtain ⟨hs, hsp, hpos, hsmax⟩ := longest_some hws
      rw [ isPrefixOf_iff_prefix] at hsp
      obtain ⟨t, ht, htp⟩ := (hpaths s.path).mpr ⟨s, hs, rfl⟩
      have hbound := h s hs (ne_nil_of_length_pos hpos) hsp fun r' hr' hp =>
        hsmax r' hr' ( isPrefixOf_iff_prefix.mpr hp)
      have hcovers : t.covers (getRequest path) = true := by
        rw [covers_get_iff (hget t ht), htp]
        exact ⟨hsp, hbound⟩
      cases hhttp : longest (fun r : Route Handler => r.covers (getRequest path))
          (fun r => r.path.length) routes with
      | none =>
        have hzero := longest_eq_none_iff.mp hhttp t ht hcovers
        rw [htp] at hzero
        exact absurd hzero hpos.ne'
      | some v =>
        obtain ⟨hv, hvc, -, hvmax⟩ := longest_some hhttp
        have hvp := ((covers_get_iff (hget v hv) path).mp hvc).1
        obtain ⟨r, hr, hrp⟩ := (hpaths v.path).mp ⟨v, hv, rfl⟩
        rw [Option.map_some, Option.map_some, Option.some_inj]
        refine eq_of_prefix hsp hvp (htp ▸ hvmax t ht hcovers) ?_
        rw [← hrp] at hvp ⊢
        exact hsmax r hr ( isPrefixOf_iff_prefix.mpr hvp)

section
variable {Handler : Type*} {regs : List (Registration Handler)} {wsRegs : List WsRegistration}

theorem Shared.agree_iff (h : Shared regs wsRegs) (path : Bytes) :
    MatchersAgree (registered regs) (wsRegistered wsRegs) path ↔
      LongestAtBoundary wsRegs path := by
  rw [matchersAgree_iff_longest ?_ ?_, wsRegistered_eq h.wsRoom]
  · simp only [forall_mem_map, LongestAtBoundary, WsRegistration.route]
  · rw [registered_eq h.room, forall_mem_map]
    intro r hr
    rw [Registration.route, h.method r hr]
    exact take_of_length_le (by decide)
  · intro p
    rw [registered_eq h.room, wsRegistered_eq h.wsRoom]
    constructor
    · rintro ⟨_, hroute, rfl⟩
      obtain ⟨r, hr, rfl⟩ := mem_map.mp hroute
      obtain ⟨r', hr', heq⟩ := (h.paths r.path.bytes).mp ⟨r, hr, rfl⟩
      exact ⟨r'.route, mem_map_of_mem hr', by rw [WsRegistration.route, heq]; rfl⟩
    · rintro ⟨_, hroute, rfl⟩
      obtain ⟨r, hr, rfl⟩ := mem_map.mp hroute
      obtain ⟨r', hr', heq⟩ := (h.paths r.path.bytes).mpr ⟨r, hr, rfl⟩
      exact ⟨r'.route, mem_map_of_mem hr', by rw [Registration.route, heq]; rfl⟩

end

/-! The path kept with a connection is cut to 63 bytes, and so are the routes. -/

inductive WsTurn where
  | handshake (path : Bytes)
  | pollSlot (slot : ℕ)
  | send (slot : ℕ) (data : Bytes)
  | broadcast (path : Option Bytes) (data : Bytes)

def wsTurn (u : WsSetup) (s : WsState × List Bytes) : WsTurn → Option (WsState × List Bytes)
  | .handshake path => (wsOpen u s.1 path).map fun w => (w, s.2 ++ [path])
  | .pollSlot slot => some (wsPollSlot u s.1 slot, s.2)
  | .send slot data => some ((oveHttpdWsSend u s.1 slot data).2, s.2)
  | .broadcast path data => some ((oveHttpdWsBroadcast u s.1 path data).2, s.2)

def Routed (u : WsSetup) (s : WsState × List Bytes) : Prop :=
  ∀ slot, (s.1.slots slot).active = true → ∃ path, s.2[(s.1.slots slot).conn]? = some path ∧
    (wsRouteOf u path).isSome ∧
    wsRouteOf u ((wsReadFrame u slot s.1).2.slots slot).path = wsRouteOf u path

theorem wsMatchRoute_take {key : α → Bytes} {routes : List α} {n : ℕ}
    (h : ∀ r ∈ routes, (key r).length ≤ n) (path : Bytes) :
    wsMatchRoute key routes (path.take n) = wsMatchRoute key routes path := by
  have hturn : ∀ best, ∀ r ∈ routes,
      wsBetter key (path.take n) best r = wsBetter key path best r := fun best r hr => by
    have hprefix : (key r).isPrefixOf (path.take n) = (key r).isPrefixOf path := by
      rw [Bool.eq_iff_iff, isPrefixOf_iff_prefix, isPrefixOf_iff_prefix, prefix_take_iff]
      exact and_iff_left (h r hr)
    rw [wsBetter, wsBetter, hprefix]
  rw [wsMatchRoute, wsMatchRoute, foldl_ext _ _ _ hturn]

section
variable {u : WsSetup} {w : WsState}

theorem wsPoolFree_paths (slot : ℕ) : (w.wsPoolFree slot).paths = w.paths := by
  unfold WsState.wsPoolFree
  dsimp only
  split_ifs <;> rfl

theorem wsPollSlot_paths (slot : ℕ) : (wsPollSlot u w slot).paths = w.paths := by
  have hread : (wsReadFrame u slot w).2.paths = w.paths := by
    obtain ⟨n, k, hw⟩ := wsReadFrame_touched u slot w
    rw [hw]
  unfold wsPollSlot
  split_ifs
  · rfl
  · split
    · rename_i w' hframe
      rw [hframe] at hread
      rw [← hread, wsEnd]
      split
      · exact wsPoolFree_paths slot
      · exact (wsPoolFree_paths slot).trans (WsReaction.run_evolves u _ _).paths
    · rename_i data w' hframe
      rw [hframe] at hread
      rw [← hread, wsDispatch]
      split
      · rfl
      · exact (WsReaction.run_evolves u _ _).paths
    · rename_i hframe
      rw [hframe] at hread
      exact hread

structure Kept (u : WsSetup) (s : WsState × List Bytes) : Prop where
  inv : WsInv u none s.1
  paths : s.1.paths = s.2.map (take 63)
  chosen : ∀ path ∈ s.2, (wsRouteOf u path).isSome

theorem wsTurn_kept {s s' : WsState × List Bytes} {t : WsTurn} (h : Kept u s)
    (hstep : wsTurn u s t = some s') : Kept u s' := by
  cases t with
  | handshake path =>
    obtain ⟨w, hopen, rfl⟩ := Option.map_eq_some_iff.mp hstep
    have hinv := wsOpen_inv h.inv hopen
    obtain ⟨route, hroute, hmap⟩ := Option.bind_eq_some_iff.mp hopen
    obtain ⟨slot, -, rfl⟩ := Option.map_eq_some_iff.mp hmap
    refine ⟨hinv, ?_, ?_⟩
    · rw [map_append, ← h.paths]
      rfl
    · intro p hp
      rcases mem_append.mp hp with hp | hp
      · exact h.chosen p hp
      · rw [mem_singleton.mp hp, hroute]
        rfl
  | pollSlot slot =>
    cases hstep
    exact ⟨wsPollSlot_inv h.inv slot, (wsPollSlot_paths slot).trans h.paths, h.chosen⟩
  | send slot data =>
    cases hstep
    have hevolves := oveHttpdWsSend_evolves u s.1 slot data
    exact ⟨hevolves.inv none h.inv, hevolves.paths.trans h.paths, h.chosen⟩
  | broadcast path data =>
    cases hstep
    have hevolves := oveHttpdWsBroadcast_evolves u s.1 path data
    exact ⟨hevolves.inv none h.inv, hevolves.paths.trans h.paths, h.chosen⟩

theorem Kept.routed {s : WsState × List Bytes} (h : Kept u s)
    (hlen : ∀ r ∈ u.routes, r.path.length ≤ 63) : Routed u s := by
  intro slot hslot
  have hpath := h.inv.path slot hslot
  rw [h.paths, getElem?_map] at hpath
  obtain ⟨path, hget, hcut⟩ := Option.map_eq_some_iff.mp hpath
  refine ⟨path, hget, h.chosen path (mem_of_getElem? hget), ?_⟩
  rw [(wsReadFrame_touched u slot s.1).slots, ← hcut]
  exact wsMatchRoute_take hlen path

theorem always_routed (hlen : ∀ r ∈ u.routes, r.path.length ≤ 63) (turns : List WsTurn) :
    Always (wsTurn u) (Routed u) (.init, []) turns := by
  have hkept : Always (wsTurn u) (Kept u) (.init, []) turns := by
    refine always_of_invariant (fun s t s' hs hstep => wsTurn_kept hs hstep) ?_ turns
    exact ⟨init_wsInv u, rfl, by simp⟩
  exact hkept.mono fun s hs => hs.routed hlen

end

/-- With the same paths in both tables the matchers agree exactly if the longest registered path
that a request starts with ends a segment. -/
theorem ws_routes_agree_iff {Handler : Type*} (regs : List (Registration Handler))
    (wsRegs : List WsRegistration) (h : Shared regs wsRegs) (path : Bytes) (u : WsSetup)
    (turns : List WsTurn) :
    (MatchersAgree (registered regs) (wsRegistered wsRegs) path ↔ LongestAtBoundary wsRegs path) ∧
      Always (wsTurn { u with routes := wsRegistered wsRegs })
        (Routed { u with routes := wsRegistered wsRegs }) (.init, []) turns := by
  refine ⟨h.agree_iff path, always_routed ?_ turns⟩
  intro r hr
  rw [wsRegistered_eq h.wsRoom] at hr
  obtain ⟨reg, -, rfl⟩ := mem_map.mp hr
  exact length_take_le ..

theorem ws_noNul : ∀ b ∈ ascii "/ws", b ≠ 0 := by decide +kernel

def wsGetRoute : List (Registration Unit) :=
  [⟨⟨ascii "GET", get_noNul⟩, ⟨ascii "/ws", ws_noNul⟩, ()⟩]

def wsOnlyRoute : List WsRegistration := [⟨⟨ascii "/ws", ws_noNul⟩, none, none⟩]

theorem ws_shared : Shared wsGetRoute wsOnlyRoute where
  room := by decide
  wsRoom := by decide
  method := by decide
  paths p := by simp [wsGetRoute, wsOnlyRoute]

theorem ws_subpath_agrees :
    MatchersAgree (registered wsGetRoute) (wsRegistered wsOnlyRoute) (ascii "/ws/a") := by
  refine (ws_routes_agree_iff wsGetRoute wsOnlyRoute ws_shared (ascii "/ws/a") deadNetwork []).1.mpr
    fun r hr _ _ _ => ?_
  rw [mem_singleton.mp hr]
  exact .inl (.inr (.inl (by decide)))

theorem ws_takes_longer_word :
    ¬MatchersAgree (registered wsGetRoute) (wsRegistered wsOnlyRoute) (ascii "/wsx") := by
  rw [MatchersAgree]
  decide

end Overtos.Httpd

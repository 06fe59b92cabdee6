import Mathlib.Data.List.Perm.Basic
import Nocter.Http.Router
import Nocter.Library.Precedence

/-!
# Routing over every registration

Routes that a router accepts stay apart: two of one method and one precedence share no
target. So the eligible routes of a request differ in precedence, the loop of `dispatch`
finds the one of the greatest, and the order of registration does not matter.
-/

namespace Nocter.Http

variable {State Connection : Type}

open Precedence

namespace Route

/-- The route is of the method and matches the target. -/
def Eligible (method : Method) (target : RequestTarget) (route : Route State Connection) : Prop :=
  route.requestMethod = method ∧ routePatternMatches route.pattern target = true

/-- Its precedence. -/
def literals (route : Route State Connection) : ℕ := route.pattern.literalCount

/-- Routes of one method and one precedence that overlap. -/
def Ambiguous (left right : Route State Connection) : Prop :=
  left.requestMethod = right.requestMethod ∧ left.literals = right.literals ∧
    routePatternsOverlap left.pattern right.pattern = true

/-- What a selected route answers. -/
def answer (route : Route State Connection) (state : State) (request : IncomingRequest) :
    Except HttpError (RouteDispatch Connection) :=
  match matchRoutePattern route.pattern request.headValue.target with
  | .error error => .error error
  | .ok matched =>
    match route.handler state request matched with
    | .error error => .error error
    | .ok connection => .ok (.handled connection)

theorem Ambiguous.symm {left right : Route State Connection} (h : left.Ambiguous right) :
    right.Ambiguous left :=
  ⟨h.1.symm, h.2.1.symm, routePatternsOverlap_symm h.2.2⟩

theorem ambiguous_self (route : Route State Connection) : route.Ambiguous route :=
  ⟨rfl, rfl, routePatternsOverlap_self route.pattern⟩

theorem Eligible.ambiguous {method : Method} {target : RequestTarget}
    {left right : Route State Connection} (hleft : left.Eligible method target)
    (hright : right.Eligible method target) (h : left.literals = right.literals) :
    left.Ambiguous right :=
  ⟨hleft.1.trans hright.1.symm, h, overlap_of_matches hleft.2 hright.2⟩

end Route

/-! ### The selection loop -/

section SelectionLoop

variable {method : Method} {target : RequestTarget} {seen : List (Route State Connection)}
  {route : Route State Connection} {selection : Selection}

/-- A selection that is right for the routes seen so far. -/
structure Selection.Reports (method : Method) (target : RequestTarget)
    (seen : List (Route State Connection)) (selection : Selection) : Prop where
  unselected : selection.selected = none → ∀ route ∈ seen, ¬ route.Eligible method target
  selected : ∀ index, selection.selected = some index →
    ∃ route, seen[index]? = some route ∧ route.Eligible method target ∧
      selection.selectedLiterals = route.literals ∧
      ∀ other ∈ seen, other.Eligible method target → other.literals ≤ route.literals
  pathMatched : selection.pathMatched =
    seen.any fun route => routePatternMatches route.pattern target

theorem pathMatched_append (h : selection.Reports method target seen) :
    (seen ++ [route]).any (fun route => routePatternMatches route.pattern target) =
      (selection.pathMatched || routePatternMatches route.pattern target) := by
  rw [List.any_append, h.pathMatched, List.any_cons, List.any_nil, Bool.or_false]

/-- A route that is not selected leaves the selection right where it is not above it. -/
theorem Selection.Reports.keep {pathMatched : Bool} (h : selection.Reports method target seen)
    (hroute : route.Eligible method target →
      selection.selected ≠ none ∧ route.literals ≤ selection.selectedLiterals)
    (hmatched : pathMatched =
      (selection.pathMatched || routePatternMatches route.pattern target)) :
    Selection.Reports method target (seen ++ [route])
      { selection with pathMatched := pathMatched } where
  unselected := fun hnone other hother => by
    rw [List.mem_append, List.mem_singleton] at hother
    rcases hother with hother | rfl
    · exact h.unselected hnone other hother
    · exact fun heligible => (hroute heligible).1 hnone
  selected := fun index hindex => by
    obtain ⟨chosen, hchosen, heligible, hliterals, habove⟩ := h.selected index hindex
    have hbound : index < seen.length := (List.getElem?_eq_some_iff.mp hchosen).1
    refine ⟨chosen, by rw [List.getElem?_append_left hbound, hchosen], heligible, hliterals,
      fun other hother hother' => ?_⟩
    rw [List.mem_append, List.mem_singleton] at hother
    rcases hother with hother | rfl
    · exact habove other hother hother'
    · rw [← hliterals]
      exact (hroute hother').2
  pathMatched := by rw [pathMatched_append h, hmatched]

/-- An eligible route above those seen becomes the selection. -/
theorem Selection.Reports.replace (h : selection.Reports method target seen)
    (heligible : route.Eligible method target)
    (habove : ∀ other ∈ seen, other.Eligible method target → other.literals ≤ route.literals) :
    Selection.Reports method target (seen ++ [route]) ⟨some seen.length, route.literals, true⟩ where
  unselected := fun hnone => by cases hnone
  selected := fun index hindex => by
    cases hindex
    refine ⟨route, List.getElem?_concat_length, heligible, rfl, fun other hother hother' => ?_⟩
    rw [List.mem_append, List.mem_singleton] at hother
    rcases hother with hother | rfl
    · exact habove other hother hother'
    · exact le_rfl
  pathMatched := by rw [pathMatched_append h, heligible.2, Bool.or_true]

theorem selectStep_reports (route : Route State Connection) (h : selection.Reports method target seen) :
    (selectStep method target seen.length route selection).Reports method target
      (seen ++ [route]) := by
  rw [selectStep]
  split
  · next hmatches =>
    split
    · next hmethod =>
      have heligible : route.Eligible method target := ⟨hmethod, hmatches⟩
      split
      · next hnone =>
        exact h.replace heligible fun other hother hother' =>
          absurd hother' (h.unselected hnone other hother)
      · next index hindex =>
        obtain ⟨chosen, hchosen, _, hliterals, habove⟩ := h.selected index hindex
        split
        · next hgreater =>
          refine h.replace heligible fun other hother hother' => ?_
          have hother'' := habove other hother hother'
          rw [hliterals] at hgreater
          exact hother''.trans hgreater.le
        · next hgreater =>
          exact h.keep (fun _ => ⟨by rw [hindex]; exact Option.some_ne_none _, not_lt.mp hgreater⟩)
            (by rw [hmatches, Bool.or_true])
    · next hmethod =>
      exact h.keep (fun heligible => absurd heligible.1 hmethod) (by rw [hmatches, Bool.or_true])
  · next hmatches =>
    exact h.keep (fun heligible => absurd heligible.2 hmatches)
      (by rw [Bool.not_eq_true] at hmatches; rw [hmatches, Bool.or_false])

theorem selectLoop_reports {rest : List (Route State Connection)}
    (h : selection.Reports method target seen) :
    (selectLoop method target seen.length rest selection).Reports method target (seen ++ rest) := by
  induction rest generalizing seen selection with
  | nil => rwa [List.append_nil]
  | cons route rest ih =>
    have hstep := ih (selectStep_reports route h)
    rw [List.length_append, List.length_singleton, List.append_assoc] at hstep
    exact hstep

end SelectionLoop

namespace Router

theorem select_reports (router : Router State Connection) (method : Method)
    (target : RequestTarget) :
    (router.select method target).Reports method target router.routes := by
  have hnone : Selection.Reports method target ([] : List (Route State Connection))
      ⟨none, 0, false⟩ :=
    ⟨fun _ _ hroute => (by cases hroute), fun _ hindex => (by cases hindex), rfl⟩
  exact selectLoop_reports hnone

/-- The route that `dispatch` selects. -/
def selectedRoute (router : Router State Connection) (method : Method) (target : RequestTarget) :
    Option (Route State Connection) :=
  (router.select method target).selected.bind (router.routes[·]?)

/-- The accepted routes stay apart and have patterns that parse. -/
structure WellFormed (router : Router State Connection) : Prop where
  patterns : ∀ route ∈ router.routes, route.pattern.WellFormed
  apart : router.routes.Pairwise fun left right => ¬ left.Ambiguous right

theorem WellFormed.eq_of_ambiguous {router : Router State Connection} (h : router.WellFormed)
    {left right : Route State Connection} (hleft : left ∈ router.routes)
    (hright : right ∈ router.routes) (hambiguous : left.Ambiguous right) : left = right := by
  have : Std.Symm fun left right : Route State Connection => ¬ left.Ambiguous right :=
    ⟨fun _ _ hapart hback => hapart hback.symm⟩
  by_contra hne
  exact h.apart.forall hleft hright hne hambiguous

theorem WellFormed.nodup {router : Router State Connection} (h : router.WellFormed) :
    router.routes.Nodup :=
  h.apart.imp fun hapart heq => hapart (by rw [heq]; exact Route.ambiguous_self _)

theorem WellFormed.decides {router : Router State Connection} (h : router.WellFormed)
    (method : Method) (target : RequestTarget) :
    Decides (Route.Eligible method target) Route.literals router.routes
      (router.selectedRoute method target) := by
  have hreports := router.select_reports method target
  rw [selectedRoute]
  cases hselected : (router.select method target).selected with
  | none => exact hreports.unselected hselected
  | some index =>
    obtain ⟨route, hroute, heligible, _, hgreatest⟩ := hreports.selected index hselected
    rw [Option.bind_some, hroute]
    have hmem := List.mem_of_getElem? hroute
    exact .of_greatest hmem heligible hgreatest fun other hother hother' hliterals =>
      h.eq_of_ambiguous hother hmem (hother'.ambiguous heligible hliterals)

/-- What `dispatch` answers, by the selected route alone. -/
theorem dispatch_eq (router : Router State Connection) (request : IncomingRequest) :
    router.dispatch request =
      match router.selectedRoute request.headValue.method request.headValue.target with
      | some route => route.answer router.stateValue request
      | none =>
        if router.routes.any fun route =>
            routePatternMatches route.pattern request.headValue.target then
          .ok (.methodNotAllowed request)
        else .ok (.notFound request) := by
  have hreports := router.select_reports request.headValue.method request.headValue.target
  simp only [dispatch, selectedRoute]
  cases hselected : (router.select request.headValue.method request.headValue.target).selected with
  | none => simp only [Option.bind_none, hreports.pathMatched]
  | some index =>
    obtain ⟨route, hroute, -⟩ := hreports.selected index hselected
    simp only [Option.bind_some, hroute]
    rfl

/-! ### Registration -/

end Router

/-- What one call of `add` is given. -/
structure Registration (State Connection : Type) where
  requestMethod : Method
  pattern : Bytes
  handler : Handler State Connection

/-- The route that a registration with a pattern that parses asks for. -/
def Registration.Asks (call : Registration State Connection) (route : Route State Connection) :
    Prop :=
  parseRoutePattern call.pattern = .ok route.pattern ∧ call.requestMethod = route.requestMethod ∧
    call.handler = route.handler

namespace Router

variable {router : Router State Connection} {call : Registration State Connection}
  {route : Route State Connection}

/-- A call of `add`; a call that fails leaves the router as it is. -/
def register (router : Router State Connection) (call : Registration State Connection) :
    Router State Connection :=
  match router.add call.requestMethod call.pattern call.handler with
  | .error _ => router
  | .ok router => router

/-- The router after every call. -/
def registered (router : Router State Connection) :
    List (Registration State Connection) → Router State Connection
  | [] => router
  | call :: rest => (router.register call).registered rest

/-- The calls that `add` accepts. -/
def accepted (router : Router State Connection) :
    List (Registration State Connection) → List (Registration State Connection)
  | [] => []
  | call :: rest =>
    match router.add call.requestMethod call.pattern call.handler with
    | .error _ => router.accepted rest
    | .ok router => call :: router.accepted rest

theorem any_ambiguous_iff {requestMethod : Method} {pattern : RoutePattern}
    {handler : Handler State Connection} :
    (router.routes.any fun existing =>
        existing.requestMethod = requestMethod &&
          existing.pattern.literalCount = pattern.literalCount &&
          routePatternsOverlap existing.pattern pattern) = true ↔
      ∃ existing ∈ router.routes, existing.Ambiguous ⟨requestMethod, pattern, handler⟩ := by
  simp only [List.any_eq_true, Bool.and_eq_true, decide_eq_true_eq, Route.Ambiguous,
    Route.literals, and_assoc]

theorem add_rejects (h : call.Asks route)
    (hambiguous : ∃ existing ∈ router.routes, existing.Ambiguous route) :
    router.add call.requestMethod call.pattern call.handler = .error ambiguousRoute := by
  obtain ⟨hparse, hmethod, -⟩ := h
  rw [add, hparse, hmethod]
  exact if_pos (any_ambiguous_iff.mpr hambiguous)

theorem add_accepts (h : call.Asks route)
    (hapart : ∀ existing ∈ router.routes, ¬ existing.Ambiguous route) :
    router.add call.requestMethod call.pattern call.handler =
      .ok { router with routes := router.routes ++ [route] } := by
  obtain ⟨hparse, hmethod, hhandler⟩ := h
  rw [add, hparse, hmethod, hhandler]
  refine if_neg fun hany => ?_
  obtain ⟨existing, hmem, hambiguous⟩ := any_ambiguous_iff.mp hany
  exact hapart existing hmem hambiguous

/-- What a call of `add` that succeeds has done. -/
theorem add_ok {next : Router State Connection}
    (h : router.add call.requestMethod call.pattern call.handler = .ok next) :
    ∃ route, call.Asks route ∧ (∀ existing ∈ router.routes, ¬ existing.Ambiguous route) ∧
      next = { router with routes := router.routes ++ [route] } := by
  cases hparse : parseRoutePattern call.pattern with
  | error error =>
    rw [add, hparse] at h
    cases h
  | ok pattern =>
    have hasks : call.Asks ⟨call.requestMethod, pattern, call.handler⟩ := ⟨hparse, rfl, rfl⟩
    refine ⟨_, hasks, fun existing hmem hambiguous => ?_, ?_⟩
    · cases (add_rejects hasks ⟨existing, hmem, hambiguous⟩).symm.trans h
    · by_cases hambiguous : ∃ existing ∈ router.routes,
          existing.Ambiguous ⟨call.requestMethod, pattern, call.handler⟩
      · cases (add_rejects hasks hambiguous).symm.trans h
      · have hapart : ∀ existing ∈ router.routes,
            ¬ existing.Ambiguous ⟨call.requestMethod, pattern, call.handler⟩ :=
          fun existing hmem hback => hambiguous ⟨existing, hmem, hback⟩
        exact (Except.ok.inj ((add_accepts hasks hapart).symm.trans h)).symm

theorem WellFormed.add {next : Router State Connection} (hrouter : router.WellFormed)
    (h : router.add call.requestMethod call.pattern call.handler = .ok next) : next.WellFormed := by
  obtain ⟨route, hasks, hapart, rfl⟩ := add_ok h
  constructor
  · intro other hother
    rw [List.mem_append, List.mem_singleton] at hother
    rcases hother with hother | rfl
    · exact hrouter.patterns other hother
    · exact parseRoutePattern_wellFormed hasks.1
  · refine List.pairwise_append.mpr ⟨hrouter.apart, List.pairwise_singleton _ _, ?_⟩
    intro existing hmem other hother
    rw [List.mem_singleton] at hother
    rw [hother]
    exact hapart existing hmem

theorem new_wellFormed (state : State) : (new state : Router State Connection).WellFormed :=
  ⟨fun _ hroute => (by cases hroute), .nil⟩

theorem WellFormed.registered {calls : List (Registration State Connection)}
    (h : router.WellFormed) : (router.registered calls).WellFormed := by
  induction calls generalizing router with
  | nil => exact h
  | cons call rest ih =>
    rw [Router.registered, register]
    split
    · exact ih h
    · next next hnext => exact ih (h.add hnext)

theorem registered_state (calls : List (Registration State Connection)) :
    (router.registered calls).stateValue = router.stateValue := by
  induction calls generalizing router with
  | nil => rfl
  | cons call rest ih =>
    rw [registered, ih, register]
    split
    · rfl
    · next next hnext =>
      obtain ⟨route, -, -, rfl⟩ := add_ok hnext
      rfl

/-- A router holds the routes that the accepted calls ask for, in their order. -/
theorem registered_routes (calls : List (Registration State Connection)) :
    ∃ routes, (router.registered calls).routes = router.routes ++ routes ∧
      List.Forall₂ Registration.Asks (router.accepted calls) routes := by
  induction calls generalizing router with
  | nil => exact ⟨[], (List.append_nil _).symm, .nil⟩
  | cons call rest ih =>
    rw [registered, register, accepted]
    split
    · exact ih
    · next next hnext =>
      obtain ⟨route, hasks, -, rfl⟩ := add_ok hnext
      obtain ⟨routes, hroutes, hcalls⟩ :=
        @ih { router with routes := router.routes ++ [route] }
      exact ⟨route :: routes, by rw [hroutes, List.append_assoc, List.singleton_append],
        .cons hasks hcalls⟩

/-- Calls that ask for routes that stay apart are all accepted. -/
theorem registered_of_apart {calls : List (Registration State Connection)}
    {routes : List (Route State Connection)} (hasks : List.Forall₂ Registration.Asks calls routes)
    (hapart : (router.routes ++ routes).Pairwise fun left right => ¬ left.Ambiguous right) :
    router.accepted calls = calls ∧
      router.registered calls = { router with routes := router.routes ++ routes } := by
  induction hasks generalizing router with
  | nil => exact ⟨rfl, by rw [registered, List.append_nil]⟩
  | @cons call route calls routes hcall hcalls ih =>
    have hfirst : ∀ existing ∈ router.routes, ¬ existing.Ambiguous route :=
      fun existing hmem => (List.pairwise_append.mp hapart).2.2 existing hmem route
        List.mem_cons_self
    have hadd := add_accepts hcall hfirst
    rw [← List.singleton_append, ← List.append_assoc] at hapart
    have hrest := @ih { router with routes := router.routes ++ [route] } hapart
    rw [accepted, registered, register, hadd]
    simp only
    rw [hrest.1, hrest.2]
    simp only [List.append_assoc, List.singleton_append, and_self]

/-- Accepted calls are accepted in every order, and leave the same routes. -/
theorem registered_perm {state : State} {calls order : List (Registration State Connection)}
    (h : order.Perm ((new state).accepted calls)) : (new state).accepted order = order ∧
      ((new state).registered order).routes.Perm ((new state).registered calls).routes := by
  have hwell : ((new state : Router State Connection).registered calls).WellFormed :=
    (new_wellFormed state).registered
  obtain ⟨routes, hroutes, hasks⟩ := (new state).registered_routes calls
  obtain ⟨others, hothers, hperm⟩ := List.perm_comp_forall₂ h hasks
  have hempty : (new state : Router State Connection).routes = [] := rfl
  rw [hempty, List.nil_append] at hroutes
  have hapart : others.Pairwise fun left right => ¬ left.Ambiguous right := by
    have happart := hwell.apart
    rw [hroutes] at happart
    exact hperm.symm.pairwise happart fun hapart hback => hapart hback.symm
  have hall := @registered_of_apart _ _ (new state) _ _ hothers hapart
  refine ⟨hall.1, ?_⟩
  rw [hall.2, hroutes]
  exact hperm

theorem dispatch_perm {other : Router State Connection} (hrouter : router.WellFormed)
    (hother : other.WellFormed) (hstate : other.stateValue = router.stateValue)
    (h : other.routes.Perm router.routes) (request : IncomingRequest) :
    other.dispatch request = router.dispatch request := by
  have hselected : ∀ method target,
      other.selectedRoute method target = router.selectedRoute method target :=
    fun method target => ((hother.decides method target).perm h).unique
      (hrouter.decides method target)
  have hmatched : ∀ accepts : Route State Connection → Bool,
      other.routes.any accepts = router.routes.any accepts := fun accepts => by
    rw [Bool.eq_iff_iff, List.any_eq_true, List.any_eq_true]
    simp only [h.mem_iff]
  rw [dispatch_eq, dispatch_eq, hselected, hstate, hmatched]

/-- Over every registration, a request gets the one route of its method that matches with the
most exact texts, in whatever order the accepted routes were added; a pattern that parses is
rejected exactly where it shares a target with an accepted route of the same method and
precedence. -/
theorem routing_deterministic (state : State) (calls : List (Registration State Connection)) :
    List.Forall₂ Registration.Asks ((new state).accepted calls)
      ((new state).registered calls).routes ∧
    ((new state).registered calls).routes.Nodup ∧
    (∀ route ∈ ((new state).registered calls).routes,
      route.literals = route.pattern.segments.countP (·.isExact)) ∧
    (∀ method target, Decides (Route.Eligible method target) Route.literals
      ((new state).registered calls).routes
      (((new state).registered calls).selectedRoute method target)) ∧
    (∀ request route,
      ((new state).registered calls).selectedRoute request.headValue.method
        request.headValue.target = some route →
      ((new state).registered calls).dispatch request = route.answer state request) ∧
    (∀ order : List (Registration State Connection), order.Perm ((new state).accepted calls) →
      (new state).accepted order = order ∧
      (∀ method target, ((new state).registered order).selectedRoute method target =
        ((new state).registered calls).selectedRoute method target) ∧
      ∀ request, ((new state).registered order).dispatch request =
        ((new state).registered calls).dispatch request) ∧
    (∀ (call : Registration State Connection) (parsed : RoutePattern),
      parseRoutePattern call.pattern = .ok parsed →
      ((∃ error, ((new state).registered calls).add call.requestMethod call.pattern call.handler =
          .error error) ↔
        ∃ route ∈ ((new state).registered calls).routes,
          route.requestMethod = call.requestMethod ∧
          route.literals = parsed.segments.countP (·.isExact) ∧
          ∃ text target, RequestTarget.parse text = .ok target ∧
            routePatternMatches route.pattern target = true ∧
            routePatternMatches parsed target = true)) := by
  have hwell : ((new state : Router State Connection).registered calls).WellFormed :=
    (new_wellFormed state).registered
  have hcalls : List.Forall₂ Registration.Asks ((new state).accepted calls)
      ((new state).registered calls).routes := by
    obtain ⟨routes, hroutes, hasks⟩ := (new state).registered_routes calls
    rwa [hroutes]
  refine ⟨hcalls, hwell.nodup, fun route hroute => (hwell.patterns route hroute).counted,
    hwell.decides, fun request route hroute => ?_, fun order horder => ?_,
    fun call parsed hparse => ?_⟩
  · rw [dispatch_eq, hroute, registered_state]
    rfl
  · obtain ⟨haccepted, hperm⟩ := registered_perm horder
    have hother : ((new state : Router State Connection).registered order).WellFormed :=
      (new_wellFormed state).registered
    refine ⟨haccepted, fun method target => ?_, dispatch_perm hwell hother ?_ hperm⟩
    · exact ((hother.decides method target).perm hperm).unique (hwell.decides method target)
    · rw [registered_state, registered_state]
  · have hparsed := parseRoutePattern_wellFormed hparse
    have hasks : call.Asks ⟨call.requestMethod, parsed, call.handler⟩ := ⟨hparse, rfl, rfl⟩
    constructor
    · rintro ⟨error, herror⟩
      by_contra hnone
      have hapart : ∀ existing ∈ ((new state).registered calls).routes,
          ¬ existing.Ambiguous ⟨call.requestMethod, parsed, call.handler⟩ := by
        rintro existing hmem ⟨hmethod, hliterals, hoverlap⟩
        exact hnone ⟨existing, hmem, hmethod, hliterals.trans hparsed.counted,
          (overlap_iff_target (hwell.patterns existing hmem) hparsed).mp hoverlap⟩
      cases (add_accepts hasks hapart).symm.trans herror
    · rintro ⟨route, hmem, hmethod, hliterals, htarget⟩
      exact ⟨_, add_rejects hasks ⟨route, hmem, hmethod, hliterals.trans hparsed.counted.symm,
        (overlap_iff_target (hwell.patterns route hmem) hparsed).mpr htarget⟩⟩

end Router

end Nocter.Http

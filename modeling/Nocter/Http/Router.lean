import Nocter.Http.Server
import Nocter.Http.Target

/-!
# Routing

A router holds routes of a method and a path pattern. A pattern is a list of exact texts and
named parameters; the number of its exact texts is its precedence. A handler is the function
it computes once its future is awaited.
-/

namespace Nocter.Http

def invalidRoutePattern : HttpError :=
  ⟨"std.http.invalid_route_pattern", "HTTP route pattern is invalid"⟩

def ambiguousRoute : HttpError :=
  ⟨"std.http.ambiguous_route", "HTTP route overlaps an equal-precedence route"⟩

inductive RoutePatternSegment where
  | exact (value : Bytes)
  | parameter (name : Bytes)
  deriving DecidableEq

structure RoutePattern where
  segments : List RoutePatternSegment
  literalCount : ℕ
  deriving DecidableEq

structure RouteParameter where
  nameValue : Bytes
  valueValue : Bytes
  deriving DecidableEq

structure RouteMatch where
  parameters : List RouteParameter
  deriving DecidableEq

def validRouteParameterName : Bytes → Bool
  | [] => false
  | first :: rest =>
    ((65 ≤ first && first ≤ 90) || (97 ≤ first && first ≤ 122) || first = 95) &&
      rest.all fun value =>
        (48 ≤ value && value ≤ 57) || (65 ≤ value && value ≤ 90) ||
          (97 ≤ value && value ≤ 122) || value = 95

def routePatternHasParameter (segments : List RoutePatternSegment) (name : Bytes) : Bool :=
  segments.any fun segment =>
    match segment with
    | .parameter existing => existing = name
    | .exact _ => false

/-- The loop of `parse_route_pattern` over the `count` path segments from `index` on. -/
def parseRouteSegments (target : RequestTarget) :
    (count index : ℕ) → RoutePattern → Except HttpError RoutePattern
  | 0, _, pattern => .ok pattern
  | count + 1, index, pattern =>
    match target.pathSegment index with
    | none => .error invalidRoutePattern
    | some segment =>
      if segment.head? = some 58 then
        match getRange segment 1 segment.length with
        | none => .error invalidRoutePattern
        | some name =>
          if validRouteParameterName name = false ∨ routePatternHasParameter pattern.segments name then
            .error invalidRoutePattern
          else
            parseRouteSegments target count (index + 1)
              { pattern with segments := pattern.segments ++ [.parameter name] }
      else
        parseRouteSegments target count (index + 1)
          { segments := pattern.segments ++ [.exact segment]
            literalCount := pattern.literalCount + 1 }

def parseRoutePattern (text : Bytes) : Except HttpError RoutePattern :=
  match RequestTarget.parse text with
  | .error error => .error error
  | .ok target =>
    if target.path ≠ text then .error invalidRoutePattern
    else parseRouteSegments target target.pathSegmentCount 0 ⟨[], 0⟩

/-- The loop of `route_patterns_overlap`. -/
def segmentsOverlap : List RoutePatternSegment → List RoutePatternSegment → Bool
  | .exact leftValue :: left, .exact rightValue :: right =>
    if leftValue ≠ rightValue then false else segmentsOverlap left right
  | _ :: left, _ :: right => segmentsOverlap left right
  | _, _ => true

def routePatternsOverlap (left right : RoutePattern) : Bool :=
  if left.segments.length ≠ right.segments.length then false
  else segmentsOverlap left.segments right.segments

/-- The loop of `route_pattern_matches` over the segments from `index` on. -/
def segmentsMatch (target : RequestTarget) : (index : ℕ) → List RoutePatternSegment → Bool
  | _, [] => true
  | index, segment :: rest =>
    match target.pathSegment index with
    | none => false
    | some actual =>
      match segment with
      | .exact expected => if expected ≠ actual then false else segmentsMatch target (index + 1) rest
      | .parameter _ => segmentsMatch target (index + 1) rest

def routePatternMatches (pattern : RoutePattern) (target : RequestTarget) : Bool :=
  if pattern.segments.length ≠ target.pathSegmentCount then false
  else segmentsMatch target 0 pattern.segments

/-- The loop of `match_route_pattern`. -/
def matchRouteSegments (target : RequestTarget) :
    (index : ℕ) → List RoutePatternSegment → List RouteParameter → Except HttpError RouteMatch
  | _, [], parameters => .ok ⟨parameters⟩
  | index, .exact _ :: rest, parameters => matchRouteSegments target (index + 1) rest parameters
  | index, .parameter name :: rest, parameters =>
    match target.pathSegment index with
    | none => .error invalidRoutePattern
    | some encoded =>
      match decodeTargetComponent encoded with
      | .error error => .error error
      | .ok value => matchRouteSegments target (index + 1) rest (parameters ++ [⟨name, value⟩])

def matchRoutePattern (pattern : RoutePattern) (target : RequestTarget) :
    Except HttpError RouteMatch :=
  matchRouteSegments target 0 pattern.segments []

variable {State Connection : Type}

abbrev Handler (State Connection : Type) :=
  State → IncomingRequest → RouteMatch → Except HttpError Connection

structure Route (State Connection : Type) where
  requestMethod : Method
  pattern : RoutePattern
  handler : Handler State Connection

structure Router (State Connection : Type) where
  stateValue : State
  routes : List (Route State Connection)

inductive RouteDispatch (Connection : Type) where
  | handled (connection : Connection)
  | notFound (request : IncomingRequest)
  | methodNotAllowed (request : IncomingRequest)

/-- The selected route of `dispatch`, its literals, and whether the path of any route matched. -/
structure Selection where
  selected : Option ℕ
  selectedLiterals : ℕ
  pathMatched : Bool
  deriving DecidableEq

/-- One iteration of the loop of `dispatch`. -/
def selectStep (method : Method) (target : RequestTarget) (index : ℕ)
    (route : Route State Connection) (selection : Selection) : Selection :=
  if routePatternMatches route.pattern target then
    if route.requestMethod = method then
      match selection.selected with
      | none => ⟨some index, route.pattern.literalCount, true⟩
      | some _ =>
        if route.pattern.literalCount > selection.selectedLiterals then
          ⟨some index, route.pattern.literalCount, true⟩
        else { selection with pathMatched := true }
    else { selection with pathMatched := true }
  else selection

def selectLoop (method : Method) (target : RequestTarget) :
    (index : ℕ) → List (Route State Connection) → Selection → Selection
  | _, [], selection => selection
  | index, route :: rest, selection =>
    selectLoop method target (index + 1) rest (selectStep method target index route selection)

namespace Router

def new (state : State) : Router State Connection := ⟨state, []⟩

def add (self : Router State Connection) (requestMethod : Method) (pattern : Bytes)
    (handler : Handler State Connection) : Except HttpError (Router State Connection) :=
  match parseRoutePattern pattern with
  | .error error => .error error
  | .ok parsed =>
    if self.routes.any fun existing =>
        existing.requestMethod = requestMethod &&
          existing.pattern.literalCount = parsed.literalCount &&
          routePatternsOverlap existing.pattern parsed then
      .error ambiguousRoute
    else .ok { self with routes := self.routes ++ [⟨requestMethod, parsed, handler⟩] }

def select (self : Router State Connection) (method : Method) (target : RequestTarget) :
    Selection :=
  selectLoop method target 0 self.routes ⟨none, 0, false⟩

def dispatch (self : Router State Connection) (request : IncomingRequest) :
    Except HttpError (RouteDispatch Connection) :=
  let method := request.headValue.method
  let target := request.headValue.target
  let selection := self.select method target
  match selection.selected with
  | none =>
    if selection.pathMatched then .ok (.methodNotAllowed request) else .ok (.notFound request)
  | some routeIndex =>
    -- the loop selects indices of routes only, so the absent route is never read
    match self.routes[routeIndex]? with
    | none => .error invalidRoutePattern
    | some route =>
      match matchRoutePattern route.pattern target with
      | .error error => .error error
      | .ok matched =>
        match route.handler self.stateValue request matched with
        | .error error => .error error
        | .ok connection => .ok (.handled connection)

end Router

end Nocter.Http

/-!
# Overlap of route patterns

Two patterns overlap where some target matches both of them. A common target has at each
index the exact text of either pattern, and any letter where both have a parameter.
-/

namespace Nocter.Http

/-- A text in the place of a segment. -/
def RoutePatternSegment.Accepts : RoutePatternSegment → Bytes → Prop
  | .exact expected, actual => expected = actual
  | .parameter _, _ => True

def RoutePatternSegment.isExact : RoutePatternSegment → Bool
  | .exact _ => true
  | .parameter _ => false

/-- The segments from an index of a target on are texts that the pattern accepts. -/
theorem segmentsMatch_iff {target : RequestTarget} {start : ℕ}
    {segments : List RoutePatternSegment} : segmentsMatch target start segments = true ↔
      ∀ index segment, segments[index]? = some segment →
        ∃ actual, target.pathSegment (start + index) = some actual ∧ segment.Accepts actual := by
  induction segments generalizing start with
  | nil => exact ⟨fun _ index segment h => (by cases h), fun _ => rfl⟩
  | cons first rest ih =>
    have hrest : segmentsMatch target (start + 1) rest = true ↔
        ∀ index segment, (first :: rest)[index + 1]? = some segment →
          ∃ actual, target.pathSegment (start + (index + 1)) = some actual ∧
            segment.Accepts actual := by
      rw [ih]
      simp only [List.getElem?_cons_succ, Nat.add_assoc, Nat.add_comm 1]
    have hfirst : segmentsMatch target start (first :: rest) = true ↔
        (∃ actual, target.pathSegment start = some actual ∧ first.Accepts actual) ∧
          segmentsMatch target (start + 1) rest = true := by
      rw [segmentsMatch]
      cases target.pathSegment start with
      | none => simp
      | some actual =>
        cases first with
        | exact expected =>
          simp only [RoutePatternSegment.Accepts, Option.some.injEq, exists_eq_left']
          by_cases heq : expected = actual <;> simp [heq]
        | parameter name => simp [RoutePatternSegment.Accepts]
    rw [hfirst, hrest]
    constructor
    · rintro ⟨hhead, htail⟩ index segment hindex
      cases index with
      | zero =>
        cases hindex
        exact hhead
      | succ index => exact htail index segment hindex
    · intro h
      exact ⟨h 0 first rfl, fun index => h (index + 1)⟩

theorem routePatternMatches_iff {pattern : RoutePattern} {target : RequestTarget} :
    routePatternMatches pattern target = true ↔ pattern.segments.length = target.pathSegmentCount ∧
        ∀ index segment, pattern.segments[index]? = some segment →
          ∃ actual, target.pathSegment index = some actual ∧ segment.Accepts actual := by
  rw [routePatternMatches]
  by_cases hlength : pattern.segments.length = target.pathSegmentCount
  · rw [if_neg (not_not.mpr hlength), segmentsMatch_iff]
    simp only [hlength, Nat.zero_add, true_and]
  · rw [if_pos hlength]
    simp [hlength]

/-- A text for a place that both segments accept if any. -/
def commonText : RoutePatternSegment → RoutePatternSegment → Bytes
  | .exact value, _ => value
  | .parameter _, .exact value => value
  | .parameter _, .parameter _ => [97]

/-- Segments with some text that both accept. -/
def Compatible (left right : RoutePatternSegment) : Prop :=
  ∃ actual, left.Accepts actual ∧ right.Accepts actual

theorem commonText_accepts {left right : RoutePatternSegment} (h : Compatible left right) :
    left.Accepts (commonText left right) ∧ right.Accepts (commonText left right) := by
  obtain ⟨actual, hleft, hright⟩ := h
  cases left with
  | exact leftValue =>
    cases right with
    | exact rightValue => exact ⟨rfl, hright.trans hleft.symm⟩
    | parameter name => exact ⟨rfl, trivial⟩
  | parameter name =>
    cases right with
    | exact rightValue => exact ⟨trivial, rfl⟩
    | parameter other => exact ⟨trivial, trivial⟩

theorem segmentsOverlap_iff {left right : List RoutePatternSegment}
    (h : left.length = right.length) :
    segmentsOverlap left right = true ↔ List.Forall₂ Compatible left right := by
  induction left generalizing right with
  | nil =>
    cases right with
    | nil => exact ⟨fun _ => .nil, fun _ => rfl⟩
    | cons _ _ => cases h
  | cons first left ih =>
    cases right with
    | nil => cases h
    | cons second right =>
      have hrest := ih (Nat.succ.inj h)
      rw [List.forall₂_cons, ← hrest]
      cases first with
      | exact leftValue =>
        cases second with
        | exact rightValue =>
          rw [segmentsOverlap]
          by_cases heq : leftValue = rightValue
          · simp [Compatible, RoutePatternSegment.Accepts, heq]
          · simp [Compatible, RoutePatternSegment.Accepts, heq, Ne.symm heq]
        | parameter name => simp [segmentsOverlap, Compatible, RoutePatternSegment.Accepts]
      | parameter name =>
        cases second with
        | exact rightValue => simp [segmentsOverlap, Compatible, RoutePatternSegment.Accepts]
        | parameter other => simp [segmentsOverlap, Compatible, RoutePatternSegment.Accepts]

theorem routePatternsOverlap_iff {left right : RoutePattern} :
    routePatternsOverlap left right = true ↔
      List.Forall₂ Compatible left.segments right.segments := by
  rw [routePatternsOverlap]
  by_cases hlength : left.segments.length = right.segments.length
  · rw [if_neg (not_not.mpr hlength), segmentsOverlap_iff hlength]
  · rw [if_pos hlength]
    exact ⟨fun h => (by cases h), fun h => absurd h.length_eq hlength⟩

theorem routePatternsOverlap_symm {left right : RoutePattern}
    (h : routePatternsOverlap left right = true) : routePatternsOverlap right left = true := by
  rw [routePatternsOverlap_iff] at h ⊢
  exact h.flip.imp fun _ _ ⟨actual, hleft, hright⟩ => ⟨actual, hright, hleft⟩

theorem routePatternsOverlap_self (pattern : RoutePattern) :
    routePatternsOverlap pattern pattern = true := by
  rw [routePatternsOverlap_iff, List.forall₂_same]
  intro segment _
  cases segment with
  | exact value => exact ⟨value, rfl, rfl⟩
  | parameter name => exact ⟨[], trivial, trivial⟩

/-- Patterns that one target matches overlap. -/
theorem overlap_of_matches {left right : RoutePattern} {target : RequestTarget}
    (hleft : routePatternMatches left target = true)
    (hright : routePatternMatches right target = true) :
    routePatternsOverlap left right = true := by
  rw [routePatternMatches_iff] at hleft hright
  rw [routePatternsOverlap_iff, List.forall₂_iff_get]
  refine ⟨hleft.1.trans hright.1.symm, fun index hindexLeft hindexRight => ?_⟩
  obtain ⟨actual, hactual, hleftAccepts⟩ := hleft.2 index _ (List.getElem?_eq_getElem hindexLeft)
  obtain ⟨other, hother, hrightAccepts⟩ := hright.2 index _ (List.getElem?_eq_getElem hindexRight)
  cases hactual.symm.trans hother
  exact ⟨actual, hleftAccepts, hrightAccepts⟩

/-! ### Patterns that parse -/

structure RoutePattern.WellFormed (pattern : RoutePattern) : Prop where
  valid : ∀ value, .exact value ∈ pattern.segments → validTargetBytes value = true
  slash : ∀ value, .exact value ∈ pattern.segments → 47 ∉ value
  query : ∀ value, .exact value ∈ pattern.segments → 63 ∉ value
  lone : pattern.segments ≠ [.exact []]
  counted : pattern.literalCount = pattern.segments.countP (·.isExact)

/-- What the loop of `parse_route_pattern` adds to a pattern. -/
structure SegmentsAdded (target : RequestTarget) (count index : ℕ)
    (pattern parsed : RoutePattern) (added : List RoutePatternSegment) : Prop where
  segments : parsed.segments = pattern.segments ++ added
  length : added.length = count
  counted : parsed.literalCount = pattern.literalCount + added.countP (·.isExact)
  exact : ∀ offset value, added[offset]? = some (.exact value) →
    target.pathSegment (index + offset) = some value

theorem SegmentsAdded.cons {target : RequestTarget} {count index literals : ℕ}
    {pattern parsed : RoutePattern} {segment : RoutePatternSegment}
    {added : List RoutePatternSegment}
    (h : SegmentsAdded target count (index + 1) ⟨pattern.segments ++ [segment], literals⟩ parsed
      added)
    (hliterals : literals = pattern.literalCount + [segment].countP (·.isExact))
    (hsegment : ∀ value, segment = .exact value → target.pathSegment index = some value) :
    SegmentsAdded target (count + 1) index pattern parsed (segment :: added) where
  segments := by rw [h.segments, List.append_assoc, List.singleton_append]
  length := by rw [List.length_cons, h.length]
  counted := by
    rw [h.counted, hliterals, Nat.add_assoc, ← List.countP_append, List.singleton_append]
  exact := fun offset value hoffset => by
    cases offset with
    | zero => exact hsegment value (Option.some.inj hoffset)
    | succ offset =>
      rw [← h.exact offset value hoffset, Nat.add_assoc, Nat.add_comm 1]

theorem parseRouteSegments_added {target : RequestTarget} {count index : ℕ}
    {pattern parsed : RoutePattern}
    (h : parseRouteSegments target count index pattern = .ok parsed) :
    ∃ added, SegmentsAdded target count index pattern parsed added := by
  induction count generalizing index pattern with
  | zero =>
    cases h
    exact ⟨[], (List.append_nil _).symm, rfl, rfl, fun _ _ hoffset => (by cases hoffset)⟩
  | succ count ih =>
    rw [parseRouteSegments] at h
    cases hsegment : target.pathSegment index with
    | none => rw [hsegment] at h; cases h
    | some segment =>
      rw [hsegment] at h
      simp only at h
      split at h
      · cases hname : getRange segment 1 segment.length with
        | none => rw [hname] at h; cases h
        | some name =>
          rw [hname] at h
          simp only at h
          split at h
          · cases h
          · obtain ⟨added, hadded⟩ := ih h
            exact ⟨_, hadded.cons rfl (by rintro _ ⟨⟩)⟩
      · obtain ⟨added, hadded⟩ := ih h
        refine ⟨_, hadded.cons rfl fun value hvalue => ?_⟩
        cases hvalue
        exact hsegment

theorem parse_ok {text : Bytes} {target : RequestTarget} (h : RequestTarget.parse text = .ok target) :
    validRequestTarget text = true ∧ target = requestTargetFromValidated text := by
  rw [RequestTarget.parse] at h
  split at h
  · cases h
  · next hvalid =>
    refine ⟨by simpa using hvalid, ?_⟩
    split at h
    · cases h
    · cases h
      rfl

theorem body_of_validRequestTarget {text : Bytes} (h : validRequestTarget text = true) :
    ∃ body, text = 47 :: body ∧ validTargetBytes body = true := by
  cases text with
  | nil => cases h
  | cons root body =>
    rw [validRequestTarget, Bool.and_eq_true, decide_eq_true_iff, List.head?_cons,
      Option.some.injEq] at h
    obtain ⟨rfl, hvalid⟩ := h
    rw [validTargetBytes_cons (by decide), Bool.and_eq_true] at hvalid
    exact ⟨body, rfl, hvalid.2⟩

theorem parseRoutePattern_wellFormed {text : Bytes} {pattern : RoutePattern}
    (h : parseRoutePattern text = .ok pattern) : pattern.WellFormed := by
  rw [parseRoutePattern] at h
  cases hparse : RequestTarget.parse text with
  | error error => rw [hparse] at h; cases h
  | ok target =>
    rw [hparse] at h
    obtain ⟨hvalid, rfl⟩ := parse_ok hparse
    obtain ⟨body, rfl, hbody⟩ := body_of_validRequestTarget hvalid
    simp only at h
    split at h
    · cases h
    · next hpath =>
      have hquery : 63 ∉ 47 :: body := path_eq_iff.mp (not_not.mp hpath)
      have htexts := pathTexts_wellFormed hbody fun hmem => hquery (List.mem_cons_of_mem 47 hmem)
      obtain ⟨added, hadded⟩ := parseRouteSegments_added h
      have hsegments : pattern.segments = added := hadded.segments
      have hexact : ∀ (index : ℕ) (value : Bytes), added[index]? = some (.exact value) →
          (pathTexts body)[index]? = some value := fun index value hindex => by
        rw [← pathSegment_eq hquery, ← hadded.exact index value hindex, Nat.zero_add]
      have hmem : ∀ value, .exact value ∈ pattern.segments → value ∈ pathTexts body :=
        fun value hvalue => by
          rw [hsegments] at hvalue
          obtain ⟨index, hindex⟩ := List.mem_iff_getElem?.mp hvalue
          exact List.mem_iff_getElem?.mpr ⟨index, hexact index value hindex⟩
      refine ⟨fun value hvalue => htexts.valid value (hmem value hvalue),
        fun value hvalue => htexts.slash value (hmem value hvalue),
        fun value hvalue => htexts.query value (hmem value hvalue), fun hlone => ?_, ?_⟩
      · have hlength := hadded.length
        rw [hsegments] at hlone
        rw [pathSegmentCount_eq hquery, hlone] at hlength
        obtain ⟨text, htext⟩ := List.length_eq_one_iff.mp hlength.symm
        have hfirst := hexact 0 [] (by rw [hlone]; rfl)
        rw [htext] at hfirst
        cases hfirst
        exact htexts.lone htext
      · rw [hadded.counted, hsegments, Nat.zero_add]

/-! ### A common target -/

theorem commonText_of (left right : RoutePatternSegment) :
    left = .exact (commonText left right) ∨ right = .exact (commonText left right) ∨
      commonText left right = [97] := by
  cases left with
  | exact value => exact .inl rfl
  | parameter name =>
    cases right with
    | exact value => exact .inr (.inl rfl)
    | parameter other => exact .inr (.inr rfl)

section Common

variable {left right : RoutePattern} {text : Bytes}

theorem commonText_mem (h : text ∈ List.zipWith commonText left.segments right.segments) :
    .exact text ∈ left.segments ∨ .exact text ∈ right.segments ∨ text = [97] := by
  obtain ⟨index, hindex⟩ := List.mem_iff_getElem?.mp h
  obtain ⟨first, second, hfirst, hsecond, rfl⟩ := List.getElem?_zipWith_eq_some.mp hindex
  rcases commonText_of first second with heq | heq | heq
  · rw [← heq]
    exact .inl (List.mem_of_getElem? hfirst)
  · rw [← heq]
    exact .inr (.inl (List.mem_of_getElem? hsecond))
  · exact .inr (.inr heq)

/-- What holds of the exact texts of both patterns and of the letter holds of a common text. -/
theorem commonText_forall {property : Bytes → Prop}
    (hleft : ∀ value, .exact value ∈ left.segments → property value)
    (hright : ∀ value, .exact value ∈ right.segments → property value) (hletter : property [97])
    (text : Bytes) (h : text ∈ List.zipWith commonText left.segments right.segments) :
    property text := by
  rcases commonText_mem h with hmem | hmem | rfl
  · exact hleft text hmem
  · exact hright text hmem
  · exact hletter

theorem commonText_lone (hleft : left.WellFormed) (hright : right.WellFormed)
    (hlength : left.segments.length = right.segments.length) :
    List.zipWith commonText left.segments right.segments ≠ [[]] := by
  intro hlone
  have hcount := congrArg List.length hlone
  rw [List.length_zipWith, hlength, Nat.min_self] at hcount
  obtain ⟨second, hsecond⟩ := List.length_eq_one_iff.mp hcount
  obtain ⟨first, hfirst⟩ := List.length_eq_one_iff.mp (hlength.trans hcount)
  rw [hfirst, hsecond, List.zipWith_cons_cons, List.zipWith_nil_left] at hlone
  have hempty : commonText first second = [] := (List.cons.inj hlone).1
  rcases commonText_of first second with heq | heq | heq
  · rw [heq, hempty] at hfirst
    exact hleft.lone hfirst
  · rw [heq, hempty] at hsecond
    exact hright.lone hsecond
  · rw [heq] at hempty
    cases hempty

theorem commonTexts_wellFormed (hleft : left.WellFormed) (hright : right.WellFormed)
    (hlength : left.segments.length = right.segments.length) :
    PathTexts (List.zipWith commonText left.segments right.segments) where
  valid := commonText_forall hleft.valid hright.valid (by decide)
  slash := commonText_forall hleft.slash hright.slash (by decide)
  query := commonText_forall hleft.query hright.query (by decide)
  lone := commonText_lone hleft hright hlength

/-- Patterns that parse overlap exactly where some target that parses matches both. -/
theorem overlap_iff_target (hleft : left.WellFormed) (hright : right.WellFormed) :
    routePatternsOverlap left right = true ↔ ∃ text target, RequestTarget.parse text = .ok target ∧
        routePatternMatches left target = true ∧ routePatternMatches right target = true := by
  constructor
  · intro hoverlap
    rw [routePatternsOverlap_iff] at hoverlap
    have hlength := hoverlap.length_eq
    obtain ⟨text, target, hparse, hcount, hsegment⟩ :=
      (commonTexts_wellFormed hleft hright hlength).exists_target
    rw [List.length_zipWith, hlength, Nat.min_self] at hcount
    have hcommon : ∀ index (hl : index < left.segments.length) (hr : index < right.segments.length),
        target.pathSegment index = some (commonText left.segments[index] right.segments[index]) ∧
          Compatible left.segments[index] right.segments[index] := fun index hl hr => by
      refine ⟨?_, (List.forall₂_iff_get.mp hoverlap).2 index hl hr⟩
      rw [hsegment, List.getElem?_zipWith_eq_some]
      exact ⟨_, _, List.getElem?_eq_getElem hl, List.getElem?_eq_getElem hr, rfl⟩
    refine ⟨text, target, hparse, routePatternMatches_iff.mpr ⟨hlength.trans hcount.symm, ?_⟩,
      routePatternMatches_iff.mpr ⟨hcount.symm, ?_⟩⟩
    · intro index segment hindex
      obtain ⟨hl, rfl⟩ := List.getElem?_eq_some_iff.mp hindex
      obtain ⟨htext, hcompatible⟩ := hcommon index hl (hlength ▸ hl)
      exact ⟨_, htext, (commonText_accepts hcompatible).1⟩
    · intro index segment hindex
      obtain ⟨hr, rfl⟩ := List.getElem?_eq_some_iff.mp hindex
      obtain ⟨htext, hcompatible⟩ := hcommon index (hlength.symm ▸ hr) hr
      exact ⟨_, htext, (commonText_accepts hcompatible).2⟩
  · rintro ⟨text, target, hparse, hmatchLeft, hmatchRight⟩
    exact overlap_of_matches hmatchLeft hmatchRight

end Common

end Nocter.Http

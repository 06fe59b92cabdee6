import Mathlib.Data.List.TakeWhile
import Nocter.Text.Utf8

/-!
# Paths of entries

The raw path of a header is cut into its components. Empty components and `.` are
left out; a `..` component rejects the path.
-/

namespace Nocter.Archive

abbrev Bytes := List UInt8

/-- A buffer of fixed capacity; appending takes what fits. -/
structure ByteBuffer (N : ℕ) where
  bytes : Bytes
  bounded : bytes.length ≤ N
  deriving DecidableEq

namespace ByteBuffer

variable {N : ℕ}

def empty : ByteBuffer N := ⟨[], Nat.zero_le N⟩

def tryPush (buffer : ByteBuffer N) (value : UInt8) : Bool × ByteBuffer N :=
  if h : buffer.bytes.length < N then
    (true, ⟨buffer.bytes ++ [value], by rw [List.length_append]; exact h⟩)
  else (false, buffer)

def append (buffer : ByteBuffer N) (values : Bytes) : ℕ × ByteBuffer N :=
  (min values.length (N - buffer.bytes.length),
    ⟨buffer.bytes ++ values.take (N - buffer.bytes.length), by
      have hbounded := buffer.bounded
      rw [List.length_append, List.length_take]
      omega⟩)

theorem tryPush_of_lt (buffer : ByteBuffer N) (h : buffer.bytes.length < N) (value : UInt8) :
    ∃ pushed : ByteBuffer N, buffer.tryPush value = (true, pushed) ∧
      pushed.bytes = buffer.bytes ++ [value] := by
  rw [tryPush, dif_pos h]
  exact ⟨_, rfl, rfl⟩

theorem append_of_le (buffer : ByteBuffer N) (values : Bytes)
    (h : buffer.bytes.length + values.length ≤ N) :
    ∃ appended : ByteBuffer N, buffer.append values = (values.length, appended) ∧
      appended.bytes = buffer.bytes ++ values := by
  refine ⟨(buffer.append values).2, ?_, ?_⟩
  · rw [append, Nat.min_eq_left (by omega)]
  · rw [append]
    dsimp only
    rw [List.take_of_length_le (by omega)]

end ByteBuffer

inductive TarFailure where
  | unsupportedHeader
  | invalidChecksum
  | invalidSize
  | invalidPath
  | invalidUtf8
  | truncatedHeader
  | truncatedBody
  | truncatedPadding
  | missingEndMarker
  deriving DecidableEq

inductive TarValidation where
  | ready
  | invalid (failure : TarFailure)
  deriving DecidableEq

def getRange (bytes : Bytes) (start stop : ℕ) : Option Bytes :=
  if start ≤ stop ∧ stop ≤ bytes.length then some ((bytes.drop start).take (stop - start)) else none

/-- The variables of the loop of `normalize_path`. -/
structure NormalizeLoop where
  componentStart : ℕ
  output : ByteBuffer 256

/-- At the end of a component; a rejected path leaves the output as it is. -/
def endComponent (raw : Bytes) (index : ℕ) (loop : NormalizeLoop) :
    NormalizeLoop ⊕ ByteBuffer 256 :=
  let length := index - loop.componentStart
  let isDot := length = 1 ∧ raw[loop.componentStart]? = some 46
  let isParent := length = 2 ∧ raw[loop.componentStart]? = some 46 ∧
    raw[loop.componentStart + 1]? = some 46
  if isParent then .inr loop.output
  else if length ≠ 0 ∧ ¬ isDot then
    let (pushed, output) :=
      if loop.output.bytes = [] then (true, loop.output) else loop.output.tryPush 47
    if pushed = false then .inr output
    else
      match getRange raw loop.componentStart index with
      | none => .inr output
      | some component =>
        let (appended, output) := output.append component
        if appended ≠ component.length then .inr output else .inl ⟨index + 1, output⟩
  else .inl ⟨index + 1, loop.output⟩

/-- The loop of `normalize_path`, with the bytes of the path from `index` on. -/
def normalizeFrom (raw : Bytes) : Bytes → ℕ → NormalizeLoop → NormalizeLoop ⊕ ByteBuffer 256
  | [], index, loop => endComponent raw index loop
  | byte :: rest, index, loop =>
    if byte = 47 then
      match endComponent raw index loop with
      | .inl loop => normalizeFrom raw rest (index + 1) loop
      | .inr output => .inr output
    else normalizeFrom raw rest (index + 1) loop

def normalizePath (raw : Bytes) : TarValidation × ByteBuffer 256 :=
  if raw = [] ∨ raw[0]? = some 47 then (.invalid .invalidPath, .empty)
  else
    match normalizeFrom raw raw 0 ⟨0, .empty⟩ with
    | .inr output => (.invalid .invalidPath, output)
    | .inl loop =>
      if loop.output.bytes = [] then (.invalid .invalidPath, loop.output) else (.ready, loop.output)

/-- A path below the place where an archive is extracted. -/
structure SafePath (path : Bytes) : Prop where
  nonempty : path ≠ []
  relative : path.head? ≠ some 47
  utf8 : Utf8.Valid path
  components : ∀ component ∈ path.splitOn 47,
    component ≠ [] ∧ component ≠ [46] ∧ component ≠ [46, 46]

/-- The components that a normalized path keeps. -/
def kept (components : List Bytes) : List Bytes :=
  components.filter fun component => component ≠ [] ∧ component ≠ [46]

def beforeParent (components : List Bytes) : List Bytes :=
  components.takeWhile fun component => component ≠ [46, 46]

/-- What the output holds after a path was normalized or rejected. -/
def remains (raw : Bytes) : Bytes :=
  if raw[0]? = some 47 then [] else [47].intercalate (kept (beforeParent (raw.splitOn 47)))

theorem kept_concat_of_kept (components : List Bytes) {component : Bytes}
    (h : component ≠ [] ∧ component ≠ [46]) :
    kept (components ++ [component]) = kept components ++ [component] := by
  rw [kept, List.filter_append]
  congr 1
  simp [h]

theorem kept_concat_of_not_kept (components : List Bytes) {component : Bytes}
    (h : ¬ (component ≠ [] ∧ component ≠ [46])) :
    kept (components ++ [component]) = kept components := by
  rw [kept, List.filter_append, List.filter_cons_of_neg (by simpa using h), List.filter_nil,
    List.append_nil]
  rfl

theorem mem_kept {components : List Bytes} {component : Bytes} : component ∈ kept components ↔
      component ∈ components ∧ component ≠ [] ∧ component ≠ [46] := by
  rw [kept, List.mem_filter, decide_eq_true_eq]

theorem intercalate_concat (sep component : Bytes) {components : List Bytes} (h : components ≠ []) :
    sep.intercalate (components ++ [component]) =
      sep.intercalate components ++ sep ++ component := by
  induction components with
  | nil => exact absurd rfl h
  | cons first rest ih =>
    cases rest with
    | nil => simp
    | cons second rest =>
      have hrest := ih (List.cons_ne_nil _ _)
      rw [List.cons_append, List.cons_append, List.intercalate_cons_cons, ← List.cons_append, hrest,
        List.intercalate_cons_cons]
      simp only [List.append_assoc]

theorem intercalate_eq_nil {components : List Bytes}
    (h : ∀ component ∈ components, component ≠ []) :
    [47].intercalate components = [] ↔ components = [] := by
  cases components with
  | nil => simp
  | cons first rest =>
    have hfirst := h first (List.mem_cons_self ..)
    cases rest with
    | nil => simpa using hfirst
    | cons second rest => simp [hfirst]

/-- What the loop has written before the component that starts at `componentStart`. -/
structure Normalizing (done : List Bytes) (loop : NormalizeLoop) : Prop where
  output_eq : loop.output.bytes = [47].intercalate (kept done)
  bounded : loop.output.bytes = [] ∨ loop.output.bytes.length + 1 ≤ loop.componentStart

/-- A component is kept, left out or rejects the path. -/
theorem Normalizing.endComponent {done : List Bytes} {loop : NormalizeLoop}
    {raw before component rest : Bytes} (h : Normalizing done loop) (hraw : raw = before ++ component ++ rest) (hlength : raw.length ≤ 256)
    (hstart : loop.componentStart = before.length) : if component = [46, 46] then
      endComponent raw (before.length + component.length) loop = .inr loop.output
    else ∃ next, endComponent raw (before.length + component.length) loop = .inl next ∧
      next.componentStart = before.length + component.length + 1 ∧
      Normalizing (done ++ [component]) next := by
  have hindex : before.length + component.length - loop.componentStart = component.length := by
    omega
  have hat : ∀ i < component.length, raw[loop.componentStart + i]? = component[i]? := by
    intro i hi
    rw [hraw, hstart, List.append_assoc, List.getElem?_append_right (Nat.le_add_right _ _),
      Nat.add_sub_cancel_left, List.getElem?_append_left hi]
  have htotal : before.length + component.length ≤ raw.length := by
    rw [hraw, List.length_append, List.length_append]
    omega
  have hrange : getRange raw loop.componentStart (before.length + component.length) =
      some component := by
    rw [getRange, if_pos ⟨by omega, htotal⟩, hindex, hraw, hstart, List.append_assoc,
      List.drop_left, List.take_left]
  have hdot : (component.length = 1 ∧ raw[loop.componentStart]? = some 46) ↔ component = [46] := by
    constructor
    · rintro ⟨hone, hsome⟩
      obtain ⟨a, rfl⟩ := List.length_eq_one_iff.mp hone
      rw [← Nat.add_zero loop.componentStart, hat 0 (Nat.succ_pos 0)] at hsome
      rw [List.getElem?_cons_zero] at hsome
      rw [Option.some.inj hsome]
    · rintro rfl
      exact ⟨rfl, by rw [← Nat.add_zero loop.componentStart, hat 0 (Nat.succ_pos 0)]; rfl⟩
  have hparent : (component.length = 2 ∧ raw[loop.componentStart]? = some 46 ∧
      raw[loop.componentStart + 1]? = some 46) ↔ component = [46, 46] := by
    constructor
    · rintro ⟨htwo, hfirst, hsecond⟩
      obtain ⟨a, b, rfl⟩ := List.length_eq_two.mp htwo
      rw [← Nat.add_zero loop.componentStart, hat 0 (Nat.succ_pos 1)] at hfirst
      rw [hat 1 (by simp)] at hsecond
      rw [List.getElem?_cons_zero] at hfirst
      rw [List.getElem?_cons_succ, List.getElem?_cons_zero] at hsecond
      rw [Option.some.inj hfirst, Option.some.inj hsecond]
    · rintro rfl
      refine ⟨rfl, ?_, ?_⟩
      · rw [← Nat.add_zero loop.componentStart, hat 0 (Nat.succ_pos 1)]
        rfl
      · rw [hat 1 (by simp)]
        rfl
  unfold Archive.endComponent
  dsimp only
  rw [hindex]
  by_cases hisParent : component = [46, 46]
  · rw [if_pos hisParent, if_pos (hparent.mpr hisParent)]
  rw [if_neg hisParent, if_neg (fun h => hisParent (hparent.mp h))]
  by_cases hkeep : component ≠ [] ∧ component ≠ [46]
  · have hkept := kept_concat_of_kept done hkeep
    have hpositive : component.length ≠ 0 := fun h => hkeep.1 (List.length_eq_zero_iff.mp h)
    rw [if_pos ⟨hpositive, fun h => hkeep.2 (hdot.mp h)⟩]
    by_cases hempty : loop.output.bytes = []
    · rw [if_pos hempty]
      dsimp only
      rw [if_neg (by decide), hrange]
      obtain ⟨appended, happend, hbytes⟩ := ByteBuffer.append_of_le loop.output
        component (by rw [hempty, List.length_nil]; omega)
      dsimp only
      rw [happend]
      dsimp only
      rw [if_neg (by simp)]
      have hnone : kept done = [] := by
        have houtput := h.output_eq
        rw [hempty] at houtput
        exact (intercalate_eq_nil fun c hc => (mem_kept.mp hc).2.1).mp houtput.symm
      refine ⟨_, rfl, rfl, ?_, Or.inr ?_⟩
      · dsimp only
        rw [hbytes, hempty, hkept, hnone]
        simp
      · dsimp only
        rw [hbytes, hempty, List.nil_append]
        omega
    · rw [if_neg hempty]
      have hbounded : loop.output.bytes.length + 1 ≤ loop.componentStart :=
        h.bounded.resolve_left hempty
      obtain ⟨pushed, hpush, hpushed⟩ := ByteBuffer.tryPush_of_lt loop.output (by omega) 47
      obtain ⟨appended, happend, hbytes⟩ := ByteBuffer.append_of_le pushed component
        (by rw [hpushed, List.length_append, List.length_singleton]; omega)
      rw [hpush]
      dsimp only
      rw [if_neg (by decide), hrange]
      dsimp only
      rw [happend]
      dsimp only
      rw [if_neg (by simp)]
      have hsome : kept done ≠ [] := by
        intro hnone
        apply hempty
        rw [h.output_eq, hnone]
        rfl
      refine ⟨_, rfl, rfl, ?_, Or.inr ?_⟩
      · dsimp only
        rw [hbytes, hpushed, hkept, intercalate_concat _ _ hsome, h.output_eq]
      · dsimp only
        rw [hbytes, hpushed, List.length_append, List.length_append, List.length_singleton]
        omega
  · have hkept := kept_concat_of_not_kept done hkeep
    rw [if_neg]
    · refine ⟨_, rfl, rfl, ?_, ?_⟩
      · dsimp only
        rw [hkept, h.output_eq]
      · dsimp only
        exact h.bounded.imp_right fun hle => by omega
    · rintro ⟨hpositive, hnotDot⟩
      refine hkeep ⟨fun hnil => hpositive ?_, fun h => hnotDot (hdot.mpr h)⟩
      rw [hnil]
      rfl

theorem beforeParent_of_not_mem {components : List Bytes} (h : [46, 46] ∉ components) :
    beforeParent components = components := by
  induction components with
  | nil => rfl
  | cons component rest ih =>
    rw [List.mem_cons, not_or] at h
    rw [beforeParent, List.takeWhile_cons_of_pos (by simpa using Ne.symm h.1)]
    exact congrArg _ (ih h.2)

theorem beforeParent_cons_parent (components : List Bytes) :
    beforeParent ([46, 46] :: components) = [] := List.takeWhile_cons_of_neg (by decide)

/-- The components from `current` on are read one after the other, up to a `..`. -/
theorem normalizeFrom_spec {raw : Bytes} (hlength : raw.length ≤ 256) {rest : Bytes}
    {before current : Bytes} {done : List Bytes} {loop : NormalizeLoop}
    (hraw : raw = before ++ current ++ rest) (hcurrent : 47 ∉ current)
    (hstart : loop.componentStart = before.length) (hloop : Normalizing done loop) :
    ([46, 46] ∈ (current ++ rest).splitOn 47 ∧ ∃ output,
      normalizeFrom raw rest (before.length + current.length) loop = .inr output ∧ output.bytes =
          [47].intercalate (kept (done ++ beforeParent ((current ++ rest).splitOn 47)))) ∨
    [46, 46] ∉ (current ++ rest).splitOn 47 ∧ ∃ next,
      normalizeFrom raw rest (before.length + current.length) loop = .inl next ∧
        next.output.bytes = [47].intercalate (kept (done ++ (current ++ rest).splitOn 47)) := by
  induction rest generalizing before current done loop with
  | nil =>
    have hend := hloop.endComponent hraw hlength hstart
    rw [List.append_nil, List.splitOn_eq_singleton hcurrent, normalizeFrom, List.mem_singleton]
    by_cases hparent : current = [46, 46]
    · rw [if_pos hparent] at hend
      refine Or.inl ⟨hparent.symm, _, hend, ?_⟩
      rw [hloop.output_eq, hparent, beforeParent_cons_parent, List.append_nil]
    · rw [if_neg hparent] at hend
      obtain ⟨next, hnext, _, hdone⟩ := hend
      exact Or.inr ⟨fun h => hparent h.symm, next, hnext, hdone.output_eq⟩
  | cons byte rest ih =>
    by_cases hslash : byte = 47
    · subst hslash
      have hend := hloop.endComponent hraw hlength hstart
      rw [List.splitOn_append_cons_self_of_not_mem hcurrent, normalizeFrom, if_pos rfl,
        List.mem_cons]
      by_cases hparent : current = [46, 46]
      · rw [if_pos hparent] at hend
        rw [hend]
        refine Or.inl ⟨Or.inl hparent.symm, _, rfl, ?_⟩
        rw [hloop.output_eq, hparent, beforeParent_cons_parent, List.append_nil]
      · rw [if_neg hparent] at hend
        obtain ⟨next, hnext, hnextStart, hdone⟩ := hend
        have hrest := @ih (before ++ current ++ [47]) [] (done ++ [current]) next
          (by rw [hraw]; simp) (by simp)
          (by rw [hnextStart]; simp only [List.length_append, List.length_singleton]) hdone
        have hindex : (before ++ current ++ [(47 : UInt8)]).length + ([] : Bytes).length =
            before.length + current.length + 1 := by
          simp only [List.length_append, List.length_singleton, List.length_nil, Nat.add_zero]
        have hbefore : beforeParent (current :: rest.splitOn 47) =
            current :: beforeParent (rest.splitOn 47) :=
          List.takeWhile_cons_of_pos (by simpa using hparent)
        rw [List.nil_append, hindex, List.append_assoc, List.append_assoc] at hrest
        rw [hnext, hbefore, or_iff_right fun h : [46, 46] = current => hparent h.symm]
        exact hrest
    · have hrest := @ih before (current ++ [byte]) done loop
        (by rw [hraw]; simp) (by simpa using ⟨hcurrent, fun h => hslash h.symm⟩) hstart hloop
      rw [List.length_append, List.length_singleton, List.append_assoc, List.singleton_append,
        ← Nat.add_assoc] at hrest
      rw [normalizeFrom, if_neg hslash]
      exact hrest

/-- A path is normalized to the components that it keeps. A rejected path leaves those before the
first `..`. -/
theorem normalizePath_spec {raw : Bytes} (hlength : raw.length ≤ 256) :
    (normalizePath raw).2.bytes = remains raw ∧
      ((normalizePath raw).1 = .ready ∧ remains raw ≠ [] ∨
        (normalizePath raw).1 = .invalid .invalidPath) := by
  unfold normalizePath
  by_cases hfirst : raw = [] ∨ raw[0]? = some 47
  · rw [if_pos hfirst]
    refine ⟨?_, Or.inr rfl⟩
    obtain rfl | habsolute := hfirst
    · rfl
    · rw [remains, if_pos habsolute]
      rfl
  rw [if_neg hfirst]
  rw [not_or] at hfirst
  have hremains : remains raw = [47].intercalate (kept (beforeParent (raw.splitOn 47))) := by
    rw [remains, if_neg hfirst.2]
  obtain ⟨_, output, heq, hbytes⟩ | ⟨hparent, next, heq, hbytes⟩ :=
    @normalizeFrom_spec raw hlength raw [] [] [] ⟨0, .empty⟩ rfl (by simp) rfl ⟨rfl, Or.inl rfl⟩
  · rw [List.nil_append, List.nil_append] at hbytes
    rw [List.length_nil] at heq
    rw [heq]
    exact ⟨by rw [hremains, ← hbytes], Or.inr rfl⟩
  · rw [List.nil_append, List.nil_append] at hbytes
    rw [List.nil_append] at hparent
    rw [beforeParent_of_not_mem hparent, ← hbytes] at hremains
    rw [List.length_nil] at heq
    rw [heq]
    dsimp only
    by_cases hempty : next.output.bytes = []
    · rw [if_pos hempty]
      exact ⟨hremains.symm, Or.inr rfl⟩
    · rw [if_neg hempty]
      exact ⟨hremains.symm, Or.inl ⟨rfl, by rw [hremains]; exact hempty⟩⟩

/-- A component has no separator, and the components of a text are texts. -/
theorem component_spec {raw component : Bytes} (h : component ∈ raw.splitOn 47) :
    47 ∉ component ∧ (Utf8.Valid raw → Utf8.Valid component) := by
  induction hsize : raw.length using Nat.strongRecOn generalizing raw with
  | ind size ih =>
    by_cases hslash : 47 ∈ raw
    · obtain ⟨first, rest, rfl, hfirst⟩ := List.eq_append_cons_of_mem hslash
      rw [List.splitOn_append_cons_self_of_not_mem hfirst, List.mem_cons] at h
      have hsplit := @Utf8.Valid.split first rest 47 (by decide)
      obtain rfl | h := h
      · exact ⟨hfirst, fun hvalid => (hsplit hvalid).1⟩
      · have hlt : rest.length < size := by
          rw [← hsize, List.length_append, List.length_cons]
          omega
        obtain ⟨hnone, htext⟩ := ih rest.length hlt h rfl
        exact ⟨hnone, fun hvalid => htext (hsplit hvalid).2⟩
    · rw [List.splitOn_eq_singleton hslash, List.mem_singleton] at h
      rw [h]
      exact ⟨hslash, id⟩

theorem valid_intercalate {components : List Bytes}
    (h : ∀ component ∈ components, Utf8.Valid component) :
    Utf8.Valid ([47].intercalate components) := by
  induction components with
  | nil => exact .nil
  | cons first rest ih =>
    have hfirst := h first (List.mem_cons_self ..)
    cases rest with
    | nil =>
      rw [List.intercalate_singleton]
      exact hfirst
    | cons second rest =>
      rw [List.intercalate_cons_cons]
      exact (hfirst.append (.single (by decide))).append
        (ih fun component hmem => h component (List.mem_cons_of_mem _ hmem))

/-- What is left of a path that is a text is safe unless nothing is left. -/
theorem remains_safe {raw : Bytes} (h : Utf8.Valid raw) (hsome : remains raw ≠ []) :
    SafePath (remains raw) := by
  have hremains : remains raw = [47].intercalate (kept (beforeParent (raw.splitOn 47))) := by
    rw [remains]
    rw [remains] at hsome
    split at hsome
    · exact absurd rfl hsome
    · next habsolute => rw [if_neg habsolute]
  rw [hremains] at hsome ⊢
  have hmem : ∀ component ∈ kept (beforeParent (raw.splitOn 47)),
      component ∈ raw.splitOn 47 ∧ component ≠ [] ∧ component ≠ [46] ∧ component ≠ [46, 46] := by
    intro component hcomponent
    obtain ⟨hbefore, hnonempty, hdot⟩ := mem_kept.mp hcomponent
    have hparent := List.mem_takeWhile_imp
      (p := fun component : Bytes => decide (component ≠ [46, 46])) hbefore
    exact ⟨(List.takeWhile_sublist _).mem hbefore, hnonempty, hdot, of_decide_eq_true hparent⟩
  generalize kept (beforeParent (raw.splitOn 47)) = components at hsome hmem
  have hcomponents : components ≠ [] := by
    rintro rfl
    exact hsome rfl
  refine ⟨hsome, ?_, ?_, ?_⟩
  · cases components with
    | nil => exact absurd rfl hcomponents
    | cons first rest =>
      obtain ⟨hsplit, hnonempty, _⟩ := hmem first (List.mem_cons_self ..)
      cases first with
      | nil => exact absurd rfl hnonempty
      | cons byte first =>
        rw [List.intercalate_cons_cons_left, List.head?_cons]
        intro hslash
        apply (component_spec hsplit).1
        rw [← Option.some.inj hslash]
        exact List.mem_cons_self ..
  · exact valid_intercalate fun component hcomponent =>
      (component_spec (hmem component hcomponent).1).2 h
  · rw [List.splitOn_intercalate 47
      (fun component hcomponent => (component_spec (hmem component hcomponent).1).1) hcomponents]
    exact fun component hcomponent => (hmem component hcomponent).2

end Nocter.Archive

import Nocter.Archive.TarContents
import Nocter.Library.TransitionSystem

/-!
# Runs over archives

The bytes of an archive are handed to the reader in any pieces, and the end of
the input is declared behind the last of them. What the caller sees does not
depend on the pieces.
-/

namespace Nocter.Archive

open StreamDecoder TransitionSystem

structure TarWorld where
  reader : TarReader
  rest : Bytes
  log : List Observation
  outcome : Option TarOutcome

/-- `finish` is called when nothing is left or the reader came to its end. -/
inductive TarOp where
  | advance (count : ℕ)
  | finish

namespace TarWorld

def start (archive : Bytes) : TarWorld := ⟨.new, archive, [], none⟩

def entries (world : TarWorld) : List (TarEntry × Bytes) := contents world.log

/-- What is left of the archive and what was seen of it after a call with this input. -/
def after (world : TarWorld) (input : Bytes) (step : TarStep) (reader : TarReader) : TarWorld where
  reader := reader
  rest := world.rest.drop step.inputConsumed
  log := world.log ++ step.observed input reader
  outcome := step.outcome

def step (world : TarWorld) : TarOp → Option TarWorld
  | .advance count => do
    let input := world.rest.take count
    let (step, reader) ← world.reader.advance input
    some (world.after input step reader)
  | .finish =>
    if world.rest ≠ [] ∧ world.outcome = none then some world
    else do
      let (step, reader) ← world.reader.finish
      some (world.after [] step reader)

def runs (archive : Bytes) : TransitionSystem TarWorld := ofPartial (start archive) step

/-- What the calls did to the archive so far. -/
structure Follows (archive : Bytes) (world : TarWorld) (consumed : ℕ) (state : TarReader) : Prop where
  reaches : tarDecoder.Reaches .new archive world.log consumed state
  rest_eq : archive.drop consumed = world.rest
  running : world.outcome = none → world.reader.Valid ∧ world.reader.Running ∧
    world.reader.inputComplete = false ∧ world.reader.settle = state
  ended : ∀ {outcome : TarOutcome}, world.outcome = some outcome →
    world.reader.Ended (some outcome) ∧ tarDecoder.Halts state world.rest ∧
      state.verdict = outcome
  entry_eq : world.reader.entry = state.entry

variable {archive : Bytes} {world next : TarWorld} {consumed : ℕ} {state : TarReader}

theorem follows_start (archive : Bytes) : (start archive).Follows archive 0 .new where
  reaches := .refl _ _
  rest_eq := List.drop_zero
  running _ := ⟨TarReader.valid_new, TarReader.running_of_header rfl, rfl, rfl⟩
  ended h := by cases h
  entry_eq := rfl

/-- A call of `advance` on a reader that has not come to its end. -/
theorem Follows.advance (h : world.Follows archive consumed state) (hrunning : world.outcome = none)
    (count : ℕ) :
    ∃ step reader, world.reader.advance (world.rest.take count) = some (step, reader) ∧
      (0 < count → world.rest ≠ [] → 0 < step.inputConsumed) ∧
      step.inputConsumed ≤ (world.rest.take count).length ∧
      tarDecoder.Reaches state world.rest (step.observed (world.rest.take count) reader)
        step.inputConsumed reader.settle ∧
      (world.after (world.rest.take count) step reader).Follows archive
        (consumed + step.inputConsumed) reader.settle := by
  obtain ⟨hvalid, hrun, hopen, hsettle⟩ := h.running hrunning
  obtain ⟨step, reader, hcall, hnext, hnextOpen, hended, hpositive, hreach⟩ :=
    TarReader.advance_spec hvalid hrun hopen (world.rest.take count)
  have hall := hreach.append (world.rest.drop count)
  rw [List.take_append_drop, hsettle] at hall
  refine ⟨step, reader, hcall, fun hcount hrest => hpositive ?_, hreach.count_le, hall, ?_, ?_, ?_,
    ?_, ?_⟩
  · intro hnone
    rw [List.take_eq_nil_iff] at hnone
    obtain hzero | hnil := hnone
    · omega
    · exact hrest hnil
  · refine h.reaches.trans ?_
    rw [h.rest_eq]
    exact hall
  · rw [← List.drop_drop, h.rest_eq]
    rfl
  · intro hnone
    have hnone' : step.outcome = none := hnone
    rw [hnone'] at hended
    exact ⟨hnext, hended, hnextOpen, rfl⟩
  · intro outcome hsome
    have hsome' : step.outcome = some outcome := hsome
    rw [hsome'] at hended
    rw [TarReader.settle_of_ended hended]
    exact ⟨hended, TarReader.halts_of_ended hended _, TarReader.verdict_of_ended hended⟩
  · exact (TarReader.settle_entry reader).symm

/-- A reader at its end repeats its answer. -/
theorem Follows.again (h : world.Follows archive consumed state) {outcome : TarOutcome}
    {reader : TarReader} {step : TarStep} {input : Bytes} (houtcome : world.outcome = some outcome)
    (hended : reader.Ended (some outcome)) (hentry : reader.entry = world.reader.entry)
    (hzero : step.inputConsumed = 0) (hsame : step.outcome = some outcome)
    (hnone : step.observed input reader = []) :
    (world.after input step reader).Follows archive consumed state := by
  obtain ⟨_, hhalts, hverdict⟩ := h.ended houtcome
  have hrest : world.rest.drop step.inputConsumed = world.rest := by rw [hzero, List.drop_zero]
  refine ⟨?_, ?_, ?_, ?_, ?_⟩
  · rw [after, hnone, List.append_nil]
    exact h.reaches
  · rw [after, hrest]
    exact h.rest_eq
  · intro hnoOutcome
    rw [after, hsame] at hnoOutcome
    cases hnoOutcome
  · intro other hother
    rw [after, hsame] at hother
    cases hother
    rw [after, hrest]
    exact ⟨hended, hhalts, hverdict⟩
  · exact hentry.trans h.entry_eq

/-- The end of the input ends the reading. -/
theorem Follows.finish (h : world.Follows archive consumed state)
    (hend : ¬ (world.rest ≠ [] ∧ world.outcome = none)) :
    ∃ next outcome, world.step .finish = some next ∧ next.outcome = some outcome ∧
      next.Follows archive consumed state := by
  unfold TarWorld.step
  rw [if_neg hend]
  simp only [Option.bind_eq_bind]
  cases houtcome : world.outcome with
  | none =>
    obtain ⟨hvalid, hrun, hopen, hsettle⟩ := h.running houtcome
    have hrest : world.rest = [] := by
      by_contra hne
      exact hend ⟨hne, houtcome⟩
    obtain ⟨step, reader, hcall, hzero, hverdict, hended, hnone, hentry⟩ :=
      TarReader.finish_spec hvalid hrun
    rw [hsettle] at hverdict
    have hstate : state.Running := hsettle ▸ TarReader.running_settle hrun
    rw [hcall, Option.bind_some]
    refine ⟨_, state.verdict, rfl, hverdict, ?_, ?_, ?_, ?_, ?_⟩
    · rw [after, hnone, List.append_nil]
      exact h.reaches
    · rw [after, hzero, List.drop_zero]
      exact h.rest_eq
    · intro hnoOutcome
      rw [after, hverdict] at hnoOutcome
      cases hnoOutcome
    · intro outcome hsome
      rw [after, hverdict] at hsome
      rw [hverdict, Option.some.inj hsome] at hended
      refine ⟨hended, ?_, Option.some.inj hsome⟩
      rw [after, hzero, List.drop_zero, hrest]
      exact halts_of_need (TarReader.decodeStep_nil hstate)
    · exact hentry.trans h.entry_eq
  | some outcome =>
    have hended := (h.ended houtcome).1
    have hended' : { world.reader with inputComplete := true }.Ended (some outcome) := by
      cases outcome with
      | finished => exact hended
      | invalid failure => exact hended
    obtain ⟨step, heq, hzero, hsame, hnone⟩ := TarReader.advanceTar_ended hended' []
    rw [TarReader.finish, heq, Option.bind_some]
    exact ⟨_, outcome, rfl, hsame, h.again houtcome hended' rfl hzero hsame hnone⟩

/-- Every call has a result and goes on with the archive. -/
theorem Follows.step (h : world.Follows archive consumed state) (op : TarOp) :
    ∃ next consumed' state', world.step op = some next ∧ next.Follows archive consumed' state' := by
  cases op with
  | advance count =>
    simp only [TarWorld.step, Option.bind_eq_bind]
    cases houtcome : world.outcome with
    | none =>
      obtain ⟨step, reader, hcall, _, _, _, hnext⟩ := h.advance houtcome count
      rw [hcall, Option.bind_some]
      exact ⟨_, _, _, rfl, hnext⟩
    | some outcome =>
      have hended := (h.ended houtcome).1
      have hcall : ∃ input, world.reader.advance (world.rest.take count) =
          world.reader.advanceTar input := by
        unfold TarReader.advance
        split
        · exact ⟨_, rfl⟩
        · exact ⟨_, rfl⟩
      obtain ⟨input, hcall⟩ := hcall
      obtain ⟨step, heq, hzero, hsame, _⟩ := TarReader.advanceTar_ended hended input
      have hnone : step.observed (world.rest.take count) world.reader = [] := by
        cases step with
        | finished => rfl
        | invalid => rfl
        | needsInput => rfl
        | entry => cases hsame
        | body => cases hsame
      rw [hcall, heq, Option.bind_some]
      exact ⟨_, _, _, rfl, h.again houtcome hended rfl hzero hsame hnone⟩
  | finish =>
    by_cases hmore : world.rest ≠ [] ∧ world.outcome = none
    · refine ⟨world, consumed, state, ?_, h⟩
      rw [TarWorld.step, if_pos hmore]
    · obtain ⟨next, _, hnext, _, hnextFollows⟩ := h.finish hmore
      exact ⟨next, consumed, state, hnext, hnextFollows⟩

theorem follows_of_reachable (h : (runs archive).Reachable world) :
    ∃ consumed state, world.Follows archive consumed state := by
  refine h.invariant (P := fun world => ∃ consumed state, world.Follows archive consumed state)
    ?_ ?_
  · rintro before rfl
    exact ⟨0, .new, follows_start archive⟩
  · rintro before after ⟨consumed, state, hfollows⟩ ⟨op, hstep⟩
    obtain ⟨next, consumed', state', hnext, hnextFollows⟩ := hfollows.step op
    rw [hstep] at hnext
    cases hnext
    exact ⟨consumed', state', hnextFollows⟩

/-- Two runs that came to an end saw the same. -/
theorem ended_agree {other : TarWorld} {outcome outcome' : TarOutcome}
    (h : (runs archive).Reachable world) (h' : (runs archive).Reachable other)
    (hended : world.outcome = some outcome) (hended' : other.outcome = some outcome') :
    world.entries = other.entries ∧ outcome = outcome' := by
  obtain ⟨consumed, state, hfollows⟩ := follows_of_reachable h
  obtain ⟨consumed', state', hfollows'⟩ := follows_of_reachable h'
  obtain ⟨_, hhalts, hverdict⟩ := hfollows.ended hended
  obtain ⟨_, hhalts', hverdict'⟩ := hfollows'.ended hended'
  rw [← hfollows.rest_eq] at hhalts
  rw [← hfollows'.rest_eq] at hhalts'
  obtain ⟨hlog, _, hstate⟩ := hfollows.reaches.halts_unique hhalts hfollows'.reaches hhalts'
  refine ⟨congrArg contents hlog, ?_⟩
  rw [← hverdict, ← hverdict', hstate]

/-- Every call returns; `advance` takes a byte while there is one, and `finish` comes to an end
behind the last of them. -/
theorem progress (h : (runs archive).Reachable world) : (∀ op, ∃ next, world.step op = some next) ∧
      (∀ count, 0 < count → world.outcome = none → world.rest ≠ [] →
        ∃ next, world.step (.advance count) = some next ∧ next.rest.length < world.rest.length) ∧
      (world.rest = [] → ∃ next outcome, world.step .finish = some next ∧
        next.outcome = some outcome) := by
  obtain ⟨consumed, state, hfollows⟩ := follows_of_reachable h
  refine ⟨fun op => ?_, fun count hcount hnone hrest => ?_, fun hrest => ?_⟩
  · obtain ⟨next, _, _, hnext, _⟩ := hfollows.step op
    exact ⟨next, hnext⟩
  · obtain ⟨step, reader, hcall, hpositive, _⟩ := hfollows.advance hnone count
    have hnext : world.step (.advance count) =
        some (world.after (world.rest.take count) step reader) := by
      simp only [TarWorld.step, Option.bind_eq_bind]
      rw [hcall, Option.bind_some]
    refine ⟨_, hnext, ?_⟩
    have hlength := List.length_pos_iff.mpr hrest
    have htaken := hpositive hcount hrest
    rw [after, List.length_drop]
    omega
  · obtain ⟨next, outcome, hnext, houtcome, _⟩ := hfollows.finish fun h => h.1 hrest
    exact ⟨next, outcome, hnext, houtcome⟩

/-- Every reported path is safe, and every body is complete unless it is the last and the reading
still goes on or ended in it. -/
theorem entries_exact (h : (runs archive).Reachable world) {before : List (TarEntry × Bytes)}
    {entry : TarEntry} {body : Bytes} {behind : List (TarEntry × Bytes)}
    (hentries : world.entries = before ++ (entry, body) :: behind) :
    SafePath entry.normalizedPath.bytes ∧ (body.length = entry.bodySize ∨ behind = [] ∧
      (world.outcome = none ∨ world.outcome = some (.invalid .truncatedBody))) := by
  obtain ⟨consumed, state, hfollows⟩ := follows_of_reachable h
  have hseen := TarReader.seen_new.reaches hfollows.reaches
  rw [List.nil_append] at hseen
  have hbody : world.outcome ≠ none → world.outcome ≠ some (.invalid .truncatedBody) →
      state.bodyRemaining = 0 := by
    intro hsome hother
    by_contra hmore
    obtain ⟨outcome, houtcome⟩ := Option.ne_none_iff_exists'.mp hsome
    apply hother
    rw [houtcome, ← (hfollows.ended houtcome).2.2, TarReader.verdict, hseen.body_iff.mpr hmore]
    rfl
  have htally := hseen.tally
  generalize hremaining : state.bodyRemaining = remaining at htally hbody
  change contents world.log = _ at hentries
  rw [hentries] at htally
  generalize hall : before ++ (entry, body) :: behind = all at htally
  cases htally with
  | none => simp at hall
  | @last done last lastBody _ hdone hlast hlength =>
    by_cases hbehind : behind = []
    · rw [hbehind] at hall
      obtain ⟨_, hpair⟩ := List.append_inj' hall rfl
      obtain ⟨rfl, rfl⟩ := Prod.mk.inj (List.singleton_inj.mp hpair)
      refine ⟨hlast, ?_⟩
      by_cases hnone : world.outcome = none
      · exact Or.inr ⟨hbehind, Or.inl hnone⟩
      · by_cases hother : world.outcome = some (.invalid .truncatedBody)
        · exact Or.inr ⟨hbehind, Or.inr hother⟩
        · have hzero := hbody hnone hother
          exact Or.inl (by omega)
    · have hmem : (entry, body) ∈ done := by
        rw [← List.dropLast_append_getLast hbehind, ← List.cons_append, ← List.append_assoc] at hall
        rw [← (List.append_inj' hall rfl).1]
        exact List.mem_append_right _ (List.mem_cons_self ..)
      obtain ⟨hsafe, hcomplete⟩ := hdone _ hmem
      exact ⟨hsafe, Or.inl hcomplete⟩

/-- The reader seen from its state. -/
theorem spoils_settle {reader : TarReader} (h : reader.Valid) {byte : UInt8}
    (hspoils : reader.settle.Spoils byte) : reader.settle = reader := by
  have hindex : reader.settle.headerIndex = reader.headerIndex := TarReader.settle_headerIndex reader
  have hfull := hspoils.2.1
  rw [hindex] at hfull
  cases hphase : reader.phase with
  | header => exact TarReader.settle_of_header hphase
  | body =>
    have hzero := h.index_eq (Or.inl hphase)
    omega
  | padding =>
    have hzero := h.index_eq (Or.inr hphase)
    omega
  | finished =>
    unfold TarReader.settle
    rw [hphase]
  | invalid =>
    unfold TarReader.settle
    rw [hphase]

/-- A single byte leads to the next state. -/
theorem Follows.advance_one (h : world.Follows archive consumed state)
    (hnone : world.outcome = none) {byte : UInt8} {rest : Bytes} (hrest : world.rest = byte :: rest) :
    ∃ next, world.step (.advance 1) = some next ∧ next.rest = rest ∧
      next.Follows archive (consumed + 1) (state.feed byte).2 := by
  obtain ⟨step, reader, hcall, hpositive, hle, hreach, hnext⟩ := h.advance hnone 1
  have hpos := hpositive Nat.one_pos (by rw [hrest]; exact List.cons_ne_nil _ _)
  rw [List.length_take] at hle
  have hone : step.inputConsumed = 1 := by omega
  have hstate : reader.settle = (state.feed byte).2 := by
    rw [hone, hrest] at hreach
    generalize houts : step.observed _ reader = outs at hreach
    generalize hcount : 1 = count at hreach
    generalize reader.settle = target at hreach
    cases hreach with
    | refl => cases hcount
    | @take _ _ _ _ _ _ _ n htake hmore =>
      obtain ⟨_, byte', rest', heq, rfl, _, rfl⟩ := TarReader.decodeStep_take htake
      cases heq
      obtain rfl : n = 0 := by omega
      generalize hzero : 0 = m at hmore
      cases hmore with
      | refl => rfl
      | take htake' _ =>
        obtain ⟨_, _, _, _, rfl, _⟩ := TarReader.decodeStep_take htake'
        omega
  rw [hone, hstate] at hnext
  refine ⟨_, ?_, ?_, hnext⟩
  · simp only [TarWorld.step, Option.bind_eq_bind]
    rw [hcall, Option.bind_some]
  · rw [after, hone, hrest]
    rfl

/-- If no byte spoils a path then the state stays safe. -/
theorem exposed_of_reaches {outs : List Observation} {count : ℕ} {final : TarReader}
    (hclean : ∀ world, (runs archive).Reachable world → ∀ byte, world.rest.head? = some byte →
      ¬ world.reader.Spoils byte)
    (h : (runs archive).Reachable world) (hfollows : world.Follows archive consumed state)
    (hnone : world.outcome = none)
    (hreach : tarDecoder.Reaches state world.rest outs count final) (hexposed : state.Exposed) :
    final.Exposed := by
  generalize hrest : world.rest = rest at hreach
  induction hreach generalizing world consumed with
  | refl s input => exact hexposed
  | @take s t u input out outs count n hstep hmore ih =>
    obtain ⟨hrunning, byte, rest, rfl, rfl, rfl, rfl⟩ := TarReader.decodeStep_take hstep
    obtain ⟨hvalid, _, _, hsettle⟩ := hfollows.running hnone
    have hspoils : ¬ s.Spoils byte := by
      intro hspoils
      rw [← hsettle] at hspoils
      have hself := spoils_settle hvalid hspoils
      rw [hself] at hspoils
      exact hclean world h byte (by rw [hrest]; rfl) hspoils
    have hnextExposed := hexposed.feed hrunning hspoils
    obtain ⟨next, hnext, hnextRest, hnextFollows⟩ := hfollows.advance_one hnone hrest
    cases houtcome : next.outcome with
    | none => exact ih (h.next ⟨_, hnext⟩) hnextFollows houtcome hnextExposed hnextRest
    | some outcome =>
      have hhalts := (hnextFollows.ended houtcome).2.1
      rw [hnextRest] at hhalts
      obtain ⟨_, _, rfl⟩ := hhalts.reaches hmore
      exact hnextExposed

/-- The paths that the reader lends are all safe unless a header spoils the path of an entry. -/
theorem exposed_iff : (∀ world, (runs archive).Reachable world → world.reader.Exposed) ↔
      ∀ world, (runs archive).Reachable world → ∀ byte, world.rest.head? = some byte →
        ¬ world.reader.Spoils byte := by
  constructor
  · intro hexposed world h byte hhead hspoils
    obtain ⟨consumed, state, hfollows⟩ := follows_of_reachable h
    have hnone : world.outcome = none := by
      cases houtcome : world.outcome with
      | none => rfl
      | some outcome =>
        have hended := (hfollows.ended houtcome).1
        have hphase := hspoils.1
        cases outcome with
        | finished =>
          have hfinished : world.reader.phase = .finished := hended
          rw [hphase] at hfinished
          cases hfinished
        | invalid failure =>
          have hinvalid : world.reader.phase = .invalid := hended.1
          rw [hphase] at hinvalid
          cases hinvalid
    obtain ⟨rest, hrest⟩ : ∃ rest, world.rest = byte :: rest := List.head?_eq_some_iff.mp hhead
    obtain ⟨_, _, _, hsettle⟩ := hfollows.running hnone
    rw [TarReader.settle_of_header hspoils.1] at hsettle
    rw [hsettle] at hspoils
    obtain ⟨next, hnext, _, hnextFollows⟩ := hfollows.advance_one hnone hrest
    have hsafe := hexposed next (h.next ⟨_, hnext⟩)
    refine hspoils.not_exposed fun entry hentry => hsafe entry ?_
    rw [hnextFollows.entry_eq]
    exact hentry
  · intro hclean world h entry hentry
    obtain ⟨consumed, state, hfollows⟩ := follows_of_reachable h
    rw [hfollows.entry_eq] at hentry
    have hstart : (runs archive).Reachable (start archive) := Reachable.of_initial rfl
    exact exposed_of_reaches hclean hstart (follows_start archive) rfl hfollows.reaches
      TarReader.exposed_new entry hentry

/-- All runs over an archive that come to an end see the same entries and bodies and end alike, and
every run can be brought to an end. Every reported path is safe, every body has its declared size
unless the archive ends in it. The entry that the reader lends keeps a safe path exactly if no
header behind an entry passes every check but leaves nothing of its own path. -/
theorem tar_exact (archive : Bytes) :
    (∀ world other, (runs archive).Reachable world → (runs archive).Reachable other →
      ∀ outcome outcome', world.outcome = some outcome → other.outcome = some outcome' →
        world.entries = other.entries ∧ outcome = outcome') ∧
    (∀ world, (runs archive).Reachable world →
      (∀ op, ∃ next, world.step op = some next) ∧
      (∀ count, 0 < count → world.outcome = none → world.rest ≠ [] →
        ∃ next, world.step (.advance count) = some next ∧ next.rest.length < world.rest.length) ∧
      (world.rest = [] → ∃ next outcome, world.step .finish = some next ∧
        next.outcome = some outcome)) ∧
    (∀ world, (runs archive).Reachable world → ∀ before entry body behind,
      world.entries = before ++ (entry, body) :: behind →
        SafePath entry.normalizedPath.bytes ∧ (body.length = entry.bodySize ∨ behind = [] ∧
          (world.outcome = none ∨ world.outcome = some (.invalid .truncatedBody)))) ∧
    ((∀ world, (runs archive).Reachable world → world.reader.Exposed) ↔
      ∀ world, (runs archive).Reachable world → ∀ byte, world.rest.head? = some byte →
        ¬ world.reader.Spoils byte) :=
  ⟨fun _ _ h h' _ _ hended hended' => ended_agree h h' hended hended',
    fun _ h => progress h,
    fun _ h _ _ _ _ hentries => entries_exact h hentries,
    exposed_iff⟩

/-- A header block with this name, no body and this checksum. -/
def emptyFileBlock (name checksum : Bytes) : Bytes :=
  name ++ List.replicate (124 - name.length) 0 ++ [48] ++ List.replicate 23 0 ++ checksum ++
    List.replicate (109 - checksum.length) 0 ++ magic ++ List.replicate 247 0

/-- The entry `a`, and behind it a header without a name. -/
def namelessArchive : Bytes :=
  emptyFileBlock [97] [50, 48, 52, 48] ++ emptyFileBlock [] [49, 54, 55, 55]

theorem length_emptyFileBlock {name checksum : Bytes} (hname : name.length ≤ 124)
    (hchecksum : checksum.length ≤ 109) : (emptyFileBlock name checksum).length = 512 := by
  simp only [emptyFileBlock, List.length_append, List.length_replicate, magic, List.length_cons,
    List.length_nil]
  omega

/-- The reader behind the entry `a`. -/
def behindEntry : TarReader where
  phase := .body
  header := emptyFileBlock [97] [50, 48, 52, 48]
  headerIndex := 0
  zeroBlocks := 0
  current := ⟨⟨[97], by decide⟩, 0, 0⟩
  hasEntry := true
  bodyRemaining := 0
  paddingRemaining := 0
  inputComplete := false
  failure := .unsupportedHeader

/-- The reader behind the header without a name. -/
def behindNameless : TarReader :=
  { behindEntry with
    phase := .invalid
    header := emptyFileBlock [] [49, 54, 55, 55]
    headerIndex := 512
    current := ⟨.empty, 0, 0⟩
    failure := .invalidPath }

theorem advance_entry : TarReader.new.advance namelessArchive = some (.entry 512, behindEntry) := by
  refine TarReader.advance_block rfl rfl rfl List.length_replicate ?_ ?_ _
  · exact length_emptyFileBlock (by decide) (by decide)
  · decide +kernel

theorem advance_nameless : behindEntry.advance (emptyFileBlock [] [49, 54, 55, 55]) =
    some (.invalid 512 .invalidPath, behindNameless) := by
  rw [← List.append_nil (emptyFileBlock [] [49, 54, 55, 55])]
  refine TarReader.advance_next_block rfl rfl rfl rfl rfl ?_ ?_ ?_ _
  · exact length_emptyFileBlock (by decide) (by decide)
  · exact length_emptyFileBlock (by decide) (by decide)
  · decide +kernel

/-- The rejected header leaves an entry with an empty path. -/
theorem nameless_exposed :
    ∃ world, (runs namelessArchive).Reachable world ∧
      ∃ entry, world.reader.entry = some entry ∧ ¬ SafePath entry.normalizedPath.bytes := by
  have hfirst : (start namelessArchive).step (.advance 1024) =
      some ((start namelessArchive).after namelessArchive (.entry 512) behindEntry) := by
    have htake : namelessArchive.take 1024 = namelessArchive := by
      refine List.take_of_length_le (Nat.le_of_eq ?_)
      rw [namelessArchive, List.length_append, length_emptyFileBlock (by decide) (by decide),
        length_emptyFileBlock (by decide) (by decide)]
    rw [step, start, htake]
    exact congrArg (Option.bind · _) advance_entry
  have hsecond : ((start namelessArchive).after namelessArchive (.entry 512) behindEntry).step
      (.advance 512) = some (((start namelessArchive).after namelessArchive (.entry 512)
        behindEntry).after (emptyFileBlock [] [49, 54, 55, 55]) (.invalid 512 .invalidPath)
          behindNameless) := by
    have htake : ((start namelessArchive).after namelessArchive (.entry 512) behindEntry).rest.take
        512 = emptyFileBlock [] [49, 54, 55, 55] := by
      have hrest : ((start namelessArchive).after namelessArchive (.entry 512) behindEntry).rest =
          emptyFileBlock [] [49, 54, 55, 55] := by
        unfold after start TarStep.inputConsumed namelessArchive
        dsimp only
        exact List.drop_left' (length_emptyFileBlock (by decide) (by decide))
      rw [hrest]
      exact List.take_of_length_le (length_emptyFileBlock (by decide) (by decide)).le
    rw [step, htake]
    exact congrArg (Option.bind · _) advance_nameless
  have hstart : (runs namelessArchive).Reachable (start namelessArchive) :=
    .of_initial rfl
  refine ⟨_, (hstart.next ⟨_, hfirst⟩).next ⟨_, hsecond⟩, _, rfl, ?_⟩
  exact fun hsafe => hsafe.nonempty rfl

end TarWorld

end Nocter.Archive

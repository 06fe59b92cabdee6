import Nocter.Arm64.Code

/-!
# Control flow of finished code

The bytes of a finished function are those of its items, one after the other. A branch of
the item list becomes one or two words that lead to the item its label is bound to, or
to the next item.
-/

namespace Nocter.Arm64

variable {P : Type}

/-- The bytes stand at this offset. -/
def Placed (bytes : List UInt8) (offset : ℕ) (chunk : List UInt8) : Prop :=
  ∃ before after, bytes = before ++ (chunk ++ after) ∧ before.length = offset

theorem Placed.append {bytes : List UInt8} {offset : ℕ} {first second : List UInt8}
    (h : Placed bytes offset (first ++ second)) :
    Placed bytes offset first ∧ Placed bytes (offset + first.length) second := by
  obtain ⟨before, after, hbytes, hlength⟩ := h
  exact ⟨⟨before, second ++ after, by rw [hbytes, List.append_assoc], hlength⟩,
    before ++ first, after, by rw [hbytes, List.append_assoc, List.append_assoc],
    by rw [List.length_append, hlength]⟩

theorem Placed.fetch {bytes : List UInt8} {offset word : ℕ} (h : Placed bytes offset (encodeLe 4 word))
    (hword : word < 2 ^ 32) : fetch bytes offset = some word := by
  obtain ⟨before, after, rfl, rfl⟩ := h
  rw [Arm64.fetch, if_pos, Int.toNat_natCast, List.drop_left, List.take_left' (encodeLe_length 4 word),
    decodeLe_encodeLe]
  · exact hword
  · rw [Int.toNat_natCast, List.length_append, List.length_append, encodeLe_length]
    omega

/-- The offset of an item is the number of bytes before it. -/
def offsetOf (chunks : List (List UInt8)) (index : ℕ) : ℕ := (chunks.take index).flatten.length

theorem placed_chunk {chunks : List (List UInt8)} {index : ℕ} {chunk : List UInt8}
    (h : chunks[index]? = some chunk) : Placed chunks.flatten (offsetOf chunks index) chunk ∧
      offsetOf chunks (index + 1) = offsetOf chunks index + chunk.length := by
  obtain ⟨hlt, hchunk⟩ := List.getElem?_eq_some_iff.mp h
  have hsplit : chunks = chunks.take index ++ (chunk :: chunks.drop (index + 1)) := by
    rw [← hchunk, ← List.drop_eq_getElem_cons, List.take_append_drop]
  constructor
  · refine ⟨(chunks.take index).flatten, (chunks.drop (index + 1)).flatten, ?_, rfl⟩
    rw [← List.flatten_cons, ← List.flatten_append, ← hsplit]
  · rw [offsetOf, offsetOf, List.take_add_one, h, List.flatten_append, List.length_append]
    simp

section Realization

variable (encodeOther : Instruction P → Except EncodingError ℕ) (code : Code)

/-- The bytes of an item between its offset and the next one do what the item says. -/
inductive Realized (offset next : ℕ) : CodeItem P → Prop
  | instruction {instruction : Instruction P} {word : ℕ}
      (hword : encode encodeOther instruction = .ok word)
      (hplaced : Placed code.bytes offset (encodeLe 4 word)) (hnext : next = offset + 4) :
      Realized offset next (.instruction instruction)
  | branch {target : LabelId} {link : Bool} {destination : ℕ}
      (hlabel : code.labelOffset target = some destination)
      (hstep : ∀ flags, branchStep code.bytes flags offset = some (↑destination, link))
      (hnext : next = offset + 4) :
      Realized offset next (.branch target link)
  | near {target : LabelId} {condition : BranchCondition} {destination : ℕ}
      (hlabel : code.labelOffset target = some destination)
      (hrange : -2 ^ 20 ≤ (destination : ℤ) - offset ∧ (destination : ℤ) - offset < 2 ^ 20)
      (hstep : ∀ flags, branchStep code.bytes flags offset =
        some (if condition.holds flags then ↑destination else ↑next, false))
      (hnext : next = offset + 4) :
      Realized offset next (.conditionalBranch target condition)
  | far {target : LabelId} {condition : BranchCondition} {destination : ℕ}
      (hlabel : code.labelOffset target = some destination)
      (hstep : ∀ flags, branchStep code.bytes flags offset =
        some (if condition.holds flags then ↑(offset + 4) else ↑next, false))
      (hbranch : ∀ flags, branchStep code.bytes flags ↑(offset + 4) = some (↑destination, false))
      (hnext : next = offset + 8) :
      Realized offset next (.conditionalBranch target condition)
  | functionBranch {target : FunctionId} {link : Bool} {word : ℕ}
      (hword : encode encodeOther (.branch 0 link) = .ok word)
      (hplaced : Placed code.bytes offset (encodeLe 4 word)) (hnext : next = offset + 4) :
      Realized offset next (.functionBranch target link)
  | functionAddress {target : FunctionId} {destination : Register} {placeholder : List UInt8}
      (hplaceholder : addressPlaceholder encodeOther destination = .ok placeholder)
      (hplaced : Placed code.bytes offset placeholder) (hnext : next = offset + 8) :
      Realized offset next (.functionAddress target destination)
  | dataAddress {target : DataId} {destination : Register} {placeholder : List UInt8}
      (hplaceholder : addressPlaceholder encodeOther destination = .ok placeholder)
      (hplaced : Placed code.bytes offset placeholder) (hnext : next = offset + 8) :
      Realized offset next (.dataAddress target destination)

/-- The code consists of the bytes of the items, every label and every fixup has the offset of
its item, and every item is realized. -/
structure Realizes (builder : CodeBuilder P) (chunks : List (List UInt8)) : Prop where
  bytes : code.bytes = chunks.flatten
  items : chunks.length = builder.items.length
  labels : List.Forall₂ (fun binding offset => ∃ item ≤ builder.items.length,
    binding = some item ∧ offset = offsetOf chunks item) builder.labels code.labelOffsets
  fixups : code.fixups = builder.items.zipIdx.filterMap fun entry =>
    entry.1.fixup (offsetOf chunks entry.2)
  realized : ∀ index item, builder.items[index]? = some item →
    Realized encodeOther code (offsetOf chunks index) (offsetOf chunks (index + 1)) item

end Realization

section Layout

variable {encodeOther : Instruction P → Except EncodingError ℕ}

theorem encodeInstruction_ok {instruction : Instruction P} {bytes : List UInt8}
    (h : encodeInstruction encodeOther instruction = .ok bytes) :
    ∃ word, encode encodeOther instruction = .ok word ∧ bytes = encodeLe 4 word := by
  unfold encodeInstruction at h
  split at h
  · next word hword =>
    cases h
    exact ⟨word, hword, rfl⟩
  · cases h

theorem encodeInstruction_length {instruction : Instruction P} {bytes : List UInt8}
    (h : encodeInstruction encodeOther instruction = .ok bytes) : bytes.length = 4 := by
  obtain ⟨word, _, rfl⟩ := encodeInstruction_ok h
  exact encodeLe_length 4 word

theorem addressPlaceholder_length {destination : Register} {bytes : List UInt8}
    (h : addressPlaceholder encodeOther destination = .ok bytes) : bytes.length = 8 := by
  unfold addressPlaceholder at h
  split at h
  · cases h
  next page hpage =>
  split at h
  · cases h
  next offset hoffset =>
  cases h
  rw [List.length_append, encodeInstruction_length hpage, encodeInstruction_length hoffset]

theorem distance_ok {labels : List ℕ} {offset : ℕ} {target : LabelId} {displacement : ℤ}
    (h : distance labels offset target = .ok displacement) :
    ∃ destination, labels[target]? = some destination ∧ displacement = destination - offset := by
  unfold distance labelOffset at h
  cases hlabel : labels[target]? with
  | none =>
    rw [hlabel] at h
    cases h
  | some destination =>
    rw [hlabel] at h
    dsimp only at h
    unfold Arm64.displacement at h
    split at h
    · cases h
      exact ⟨destination, rfl, rfl⟩
    · cases h

theorem encodeBranch_ok {labels : List ℕ} {offset : ℕ} {target : LabelId} {link : Bool}
    {bytes : List UInt8} (h : encodeBranch encodeOther labels offset target link = .ok bytes) :
    ∃ destination word, labels[target]? = some destination ∧
      encode encodeOther (.branch (destination - offset) link) = .ok word ∧
      bytes = encodeLe 4 word := by
  unfold encodeBranch at h
  split at h
  · cases h
  next displacement hdistance =>
  obtain ⟨destination, hlabel, rfl⟩ := distance_ok hdistance
  obtain ⟨word, hword, rfl⟩ := encodeInstruction_ok h
  exact ⟨destination, word, hlabel, hword, rfl⟩

theorem encodeItem_length {labels : List ℕ} {item : CodeItem P} {expanded : Bool} {offset : ℕ}
    {bytes : List UInt8} (h : encodeItem encodeOther labels item expanded offset = .ok bytes) :
    bytes.length = item.size expanded := by
  cases item with
  | instruction instruction => exact encodeInstruction_length h
  | branch target link =>
    obtain ⟨_, word, _, _, rfl⟩ := encodeBranch_ok h
    exact encodeLe_length 4 word
  | conditionalBranch target condition =>
    cases expanded with
    | false =>
      simp only [encodeItem, Bool.false_eq_true, if_false] at h
      split at h
      · cases h
      · exact encodeInstruction_length h
    | true =>
      simp only [encodeItem, if_true] at h
      split at h
      · cases h
      next inverted hinverted =>
      split at h
      · split at h
        · cases h
        next branch hbranch =>
        cases h
        obtain ⟨_, word, _, _, rfl⟩ := encodeBranch_ok hbranch
        rw [List.length_append, encodeInstruction_length hinverted, encodeLe_length]
        rfl
      · cases h
  | functionBranch target link =>
    have hbranch : encodeInstruction encodeOther (.branch 0 link) = .ok bytes := h
    exact encodeInstruction_length hbranch
  | functionAddress target destination => exact addressPlaceholder_length h
  | dataAddress target destination => exact addressPlaceholder_length h

/-- An encoded item is realized where its bytes stand. -/
theorem encodeItem_realized {code : Code} {item : CodeItem P} {expanded : Bool} {offset : ℕ}
    {bytes : List UInt8}
    (h : encodeItem encodeOther code.labelOffsets item expanded offset = .ok bytes)
    (hplaced : Placed code.bytes offset bytes) :
    Realized encodeOther code offset (offset + bytes.length) item := by
  have hlength := encodeItem_length h
  cases item with
  | instruction instruction =>
    obtain ⟨word, hword, rfl⟩ := encodeInstruction_ok h
    exact .instruction hword hplaced (by rw [hlength]; rfl)
  | branch target link =>
    obtain ⟨destination, word, hlabel, hword, rfl⟩ := encodeBranch_ok h
    obtain ⟨hlt, hbranch⟩ := encode_branch hword
    refine .branch hlabel (fun flags => ?_) (by rw [hlength]; rfl)
    rw [branchStep, hplaced.fetch hlt, Option.bind_some, hbranch]
    congr 2
    omega
  | conditionalBranch target condition =>
    cases expanded with
    | false =>
      simp only [encodeItem, Bool.false_eq_true, if_false] at h
      split at h
      · cases h
      next displacement hdistance =>
      obtain ⟨destination, hlabel, rfl⟩ := distance_ok hdistance
      obtain ⟨word, hword, rfl⟩ := encodeInstruction_ok h
      obtain ⟨hlt, hrange, hbranch⟩ := encode_branchConditional hword
      refine .near hlabel hrange (fun flags => ?_) (by rw [hlength]; rfl)
      rw [branchStep, hplaced.fetch hlt, Option.bind_some, hbranch, encodeLe_length]
      congr 2
      split <;> omega
    | true =>
      simp only [encodeItem, if_true] at h
      split at h
      · cases h
      next inverted hinverted =>
      split at h
      · split at h
        · cases h
        next branch hbranch =>
        cases h
        obtain ⟨hfirst, hsecond⟩ := hplaced.append
        rw [encodeInstruction_length hinverted] at hsecond
        obtain ⟨word, hword, rfl⟩ := encodeInstruction_ok hinverted
        obtain ⟨destination, far, hlabel, hfar, rfl⟩ := encodeBranch_ok hbranch
        obtain ⟨hlt, _, hconditional⟩ := encode_branchConditional hword
        obtain ⟨hfarLt, hunconditional⟩ := encode_branch hfar
        refine .far hlabel (fun flags => ?_) (fun flags => ?_) (by rw [hlength]; rfl)
        · rw [branchStep, hfirst.fetch hlt, Option.bind_some, hconditional, invert_holds, hlength]
          cases condition.holds flags <;> rfl
        · rw [branchStep, hsecond.fetch hfarLt, Option.bind_some, hunconditional]
          congr 2
          omega
      · cases h
  | functionBranch target link =>
    have hbranch : encodeInstruction encodeOther (.branch 0 link) = .ok bytes := h
    obtain ⟨word, hword, rfl⟩ := encodeInstruction_ok hbranch
    exact .functionBranch hword hplaced (by rw [hlength]; rfl)
  | functionAddress target destination =>
    exact .functionAddress h hplaced (by rw [hlength]; rfl)
  | dataAddress target destination =>
    exact .dataAddress h hplaced (by rw [hlength]; rfl)

/-- The offsets of the items are the numbers of bytes before them. -/
theorem itemOffsets_eq {labels : List ℕ} {items : List (CodeItem P × Bool)} {start : ℕ}
    {offsets : List ℕ} {chunks : List (List UInt8)} (h : itemOffsets start items = .ok offsets)
    (hchunks : List.Forall₂ (fun item chunk =>
      encodeItem encodeOther labels item.1.1 item.1.2 item.2 = .ok chunk)
      (items.zip offsets) chunks) : chunks.length = items.length ∧
      offsets = (List.range (items.length + 1)).map fun index => start + offsetOf chunks index := by
  induction items generalizing start offsets chunks with
  | nil =>
    cases h
    rw [List.zip_nil_left, List.forall₂_nil_left_iff] at hchunks
    subst hchunks
    exact ⟨rfl, rfl⟩
  | cons entry items ih =>
    obtain ⟨item, expanded⟩ := entry
    rw [itemOffsets] at h
    split at h
    · split at h
      · next rest hrest =>
        cases h
        rw [List.zip_cons_cons, List.forall₂_cons_left_iff] at hchunks
        obtain ⟨chunk, chunks, hchunk, hmore, rfl⟩ := hchunks
        obtain ⟨hlength, hoffsets⟩ := ih hrest hmore
        refine ⟨by rw [List.length_cons, List.length_cons, hlength], ?_⟩
        rw [List.length_cons, List.range_succ_eq_map, List.map_cons, List.map_map, hoffsets]
        congr 1
        refine List.map_congr_left fun index _ => ?_
        have hfirst : chunk.length = item.size expanded := encodeItem_length hchunk
        simp only [Function.comp_apply, offsetOf, Nat.succ_eq_add_one, List.take_succ_cons,
          List.flatten_cons, List.length_append]
        omega
      · cases h
    · cases h

theorem resolveLabels_ok {bindings : List (Option ℕ)} {offsets labels : List ℕ}
    (h : resolveLabels bindings offsets = .ok labels) :
    List.Forall₂ (fun binding offset => ∃ item, binding = some item ∧ offsets[item]? = some offset)
      bindings labels := by
  unfold resolveLabels at h
  generalize 0 = first at h
  have hresolved := mapM_ok_iff.mp h
  clear h
  induction bindings generalizing first labels with
  | nil =>
    rw [List.zipIdx_nil, List.forall₂_nil_left_iff] at hresolved
    rw [hresolved]
    exact .nil
  | cons binding bindings ih =>
    rw [List.zipIdx_cons, List.forall₂_cons_left_iff] at hresolved
    obtain ⟨offset, rest, hoffset, hrest, rfl⟩ := hresolved
    refine .cons ?_ (ih _ hrest)
    cases binding with
    | none => cases hoffset
    | some item =>
      simp only [resolveLabel] at hoffset
      split at hoffset
      · next found hfound =>
        cases hoffset
        exact ⟨item, rfl, hfound⟩
      · cases hoffset

/-- Each item stands beside the place of its index. -/
theorem zip_places {α : Type} (items : List α) (place : ℕ → ℕ) :
    items.zip ((List.range (items.length + 1)).map place) =
      items.zipIdx.map fun entry => (entry.1, place entry.2) := by
  refine List.ext_getElem ?_ fun index hleft hright => ?_
  · rw [List.length_zip, List.length_map, List.length_range, List.length_map, List.length_zipIdx]
    omega
  · rw [List.getElem_zip, List.getElem_map, List.getElem_range, List.getElem_map,
      List.getElem_zipIdx, Nat.zero_add]

/-- Code that the final pass encodes realizes the items. -/
theorem encodeItems_realizes {builder : CodeBuilder P} {items : List (CodeItem P × Bool)}
    {offsets labels : List ℕ} {code : Code} (hitems : items.map Prod.fst = builder.items)
    (hoffsets : itemOffsets 0 items = .ok offsets)
    (hlabels : resolveLabels builder.labels offsets = .ok labels)
    (h : encodeItems encodeOther labels (items.zip offsets) = .ok code) :
    ∃ chunks, Realizes encodeOther code builder chunks := by
  unfold encodeItems at h
  split at h
  · cases h
  next chunks hchunks =>
  cases h
  have hencoded := mapM_ok_iff.mp hchunks
  obtain ⟨hlength, rfl⟩ := itemOffsets_eq hoffsets hencoded
  have hcount : items.length = builder.items.length := by rw [← hitems, List.length_map]
  refine ⟨chunks, rfl, by rw [hlength, hcount], ?_, ?_, fun index item hitem => ?_⟩
  · refine (resolveLabels_ok hlabels).imp ?_
    rintro binding offset ⟨item, hbinding, hoffset⟩
    rw [List.getElem?_map, Option.map_eq_some_iff] at hoffset
    obtain ⟨found, hfound, rfl⟩ := hoffset
    have hlt := (List.getElem?_eq_some_iff.mp hfound).1
    rw [List.length_range] at hlt
    rw [List.getElem?_range hlt, Option.some.injEq] at hfound
    exact ⟨item, by omega, hbinding, by rw [Nat.zero_add, hfound]⟩
  · rw [zip_places, List.filterMap_map, ← hitems, List.zipIdx_map, List.filterMap_map]
    refine List.filterMap_congr fun entry _ => ?_
    simp only [Function.comp_apply, Nat.zero_add]
    rfl
  · rw [← hitems, List.getElem?_map, Option.map_eq_some_iff] at hitem
    obtain ⟨⟨item, expanded⟩, hentry, rfl⟩ := hitem
    rw [zip_places, List.forall₂_map_left_iff] at hencoded
    obtain ⟨hlt, hentry⟩ := List.getElem?_eq_some_iff.mp hentry
    have hindex : index < items.zipIdx.length := by rw [List.length_zipIdx]; exact hlt
    have hbound : index < chunks.length := by omega
    have hchunk := hencoded.get hindex hbound
    simp only [List.get_eq_getElem, List.getElem_zipIdx, hentry, Nat.zero_add] at hchunk
    obtain ⟨hplaced, hnext⟩ := placed_chunk (List.getElem?_eq_getElem hbound)
    rw [hnext]
    exact encodeItem_realized hchunk hplaced

/-- Finishing terminates, and the finished code realizes the items of the builder. -/
theorem finish_realizes (builder : CodeBuilder P) :
    Loop.Returns (finishPass encodeOther builder.labels)
        (builder.items.map fun item => (item, false)) (builder.finish encodeOther) ∧
      ∀ code, builder.finish encodeOther = .ok code →
        ∃ chunks, Realizes encodeOther code builder chunks := by
  have hreturns := Loop.iterate_returns (finishPass encodeOther builder.labels) relaxationMeasure
    (finishPass_decreases builder.labels) (builder.items.map fun item => (item, false))
  refine ⟨hreturns, ?_⟩
  refine hreturns.invariant (P := fun items => items.map Prod.fst = builder.items)
    (Q := fun result => ∀ code, result = .ok code →
      ∃ chunks, Realizes encodeOther code builder chunks) ?_ ?_ ?_
  · intro items next hitems hpass
    unfold finishPass at hpass
    split at hpass
    · cases hpass
    next offsets hoffsets =>
    split at hpass
    · cases hpass
    split at hpass
    · cases hpass
    next relaxed changed hrelaxed =>
    split at hpass
    · cases hpass
      have hlength := itemOffsets_length hoffsets
      rw [(relaxItems_ok (by omega) hrelaxed).1, hitems]
    · cases hpass
  · intro items result hitems hpass code hcode
    subst hcode
    unfold finishPass at hpass
    split at hpass
    · cases hpass
    next offsets hoffsets =>
    split at hpass
    · cases hpass
    next labels hlabels =>
    split at hpass
    · cases hpass
    next relaxed changed hrelaxed =>
    split at hpass
    · cases hpass
    next hchanged =>
    have hlength := itemOffsets_length hoffsets
    rw [Bool.not_eq_true] at hchanged
    have hsame := (relaxItems_ok (by omega) hrelaxed).2.2.2 hchanged
    rw [hsame] at hpass
    exact encodeItems_realizes hitems hoffsets hlabels (Sum.inr.inj hpass)
  · rw [List.map_map]
    exact List.map_id _

end Layout

/-- A jump to itself and a conditional branch back to it. -/
def spin : CodeBuilder Empty :=
  { items := [.branch 0 false, .conditionalBranch 0 .equal], labels := [some 0] }

theorem spin_realized : ∃ chunks, Realizes (fun _ => .error .invalidRegisterRole)
    ⟨[0, 0, 0, 0x14, 0xe0, 0xff, 0xff, 0x54], [0], [], 2⟩ spin chunks :=
  (finish_realizes spin).2 _ rfl

end Nocter.Arm64

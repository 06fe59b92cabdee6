import Nocter.Library.SecureHash

/-!
# Incremental SHA-256

The state keeps its words in 64 bits and masks them after each operation; a rotation of 32 bits is
a rotation of 64 bits of the doubled word. The bytes are collected in one block, which is
compressed as soon as it is full.
-/

namespace Nocter.Digest

abbrev Bytes := List UInt8

abbrev U64 := BitVec 64

section Words

def wordMask : U64 := 0xFFFFFFFF#64

def repeatedWord : U64 := 0x100000001#64

def roundConstants : Vector U64 64 := #v[
  0x428A2F98#64, 0x71374491#64, 0xB5C0FBCF#64, 0xE9B5DBA5#64,
  0x3956C25B#64, 0x59F111F1#64, 0x923F82A4#64, 0xAB1C5ED5#64,
  0xD807AA98#64, 0x12835B01#64, 0x243185BE#64, 0x550C7DC3#64,
  0x72BE5D74#64, 0x80DEB1FE#64, 0x9BDC06A7#64, 0xC19BF174#64,
  0xE49B69C1#64, 0xEFBE4786#64, 0x0FC19DC6#64, 0x240CA1CC#64,
  0x2DE92C6F#64, 0x4A7484AA#64, 0x5CB0A9DC#64, 0x76F988DA#64,
  0x983E5152#64, 0xA831C66D#64, 0xB00327C8#64, 0xBF597FC7#64,
  0xC6E00BF3#64, 0xD5A79147#64, 0x06CA6351#64, 0x14292967#64,
  0x27B70A85#64, 0x2E1B2138#64, 0x4D2C6DFC#64, 0x53380D13#64,
  0x650A7354#64, 0x766A0ABB#64, 0x81C2C92E#64, 0x92722C85#64,
  0xA2BFE8A1#64, 0xA81A664B#64, 0xC24B8B70#64, 0xC76C51A3#64,
  0xD192E819#64, 0xD6990624#64, 0xF40E3585#64, 0x106AA070#64,
  0x19A4C116#64, 0x1E376C08#64, 0x2748774C#64, 0x34B0BCB5#64,
  0x391C0CB3#64, 0x4ED8AA4A#64, 0x5B9CCA4F#64, 0x682E6FF3#64,
  0x748F82EE#64, 0x78A5636F#64, 0x84C87814#64, 0x8CC70208#64,
  0x90BEFFFA#64, 0xA4506CEB#64, 0xBEF9A3F7#64, 0xC67178F2#64]

def wordAdd (left right : U64) : U64 := (left + right) &&& wordMask

def wordAddFour (first second third fourth : U64) : U64 :=
  wordAdd (wordAdd first second) (wordAdd third fourth)

def wordAddFive (first second third fourth fifth : U64) : U64 :=
  wordAdd (wordAddFour first second third fourth) fifth

/-- `rotate_right`: only the low six bits of the amount count. -/
def rotateRight (value amount : U64) : U64 := value.rotateRight (amount.toNat % 64)

def rotateWordRight (value amount : U64) : U64 := rotateRight (value * repeatedWord) amount &&& wordMask

def choose (first second third : U64) : U64 := (first &&& second) ^^^ ((first ^^^ wordMask) &&& third)

def majority (first second third : U64) : U64 :=
  (first &&& second) ^^^ (first &&& third) ^^^ (second &&& third)

def largeSigmaZero (value : U64) : U64 :=
  rotateWordRight value 2#64 ^^^ rotateWordRight value 13#64 ^^^ rotateWordRight value 22#64

def largeSigmaOne (value : U64) : U64 :=
  rotateWordRight value 6#64 ^^^ rotateWordRight value 11#64 ^^^ rotateWordRight value 25#64

def smallSigmaZero (value : U64) : U64 :=
  rotateWordRight value 7#64 ^^^ rotateWordRight value 18#64 ^^^ (value / 8#64)

def smallSigmaOne (value : U64) : U64 :=
  rotateWordRight value 17#64 ^^^ rotateWordRight value 19#64 ^^^ (value / 1024#64)

def byteWord (byte : UInt8) : U64 := byte.toBitVec.setWidth 64

def decodeWord (block : Vector UInt8 64) (offset : ℕ) (h : offset + 3 < 64) : U64 :=
  byteWord block[offset] * 16777216#64 + byteWord block[offset + 1] * 65536#64 +
    byteWord block[offset + 2] * 256#64 + byteWord block[offset + 3]

/-- `u8.truncate`. -/
def truncate (value : U64) : UInt8 := UInt8.ofBitVec (value.setWidth 8)

end Words

section Compression

/-- The first loop over the schedule. -/
def firstWords (block : Vector UInt8 64) (schedule : Vector U64 64) (index : ℕ) : Vector U64 64 :=
  if h : index < 16 then
    firstWords block (schedule.set index (decodeWord block (index * 4) (by omega))) (index + 1)
  else schedule
termination_by 16 - index

/-- The second loop over the schedule. -/
def laterWords (schedule : Vector U64 64) (index : ℕ) (hindex : 16 ≤ index) : Vector U64 64 :=
  if h : index < 64 then
    laterWords (schedule.set index (wordAddFour (smallSigmaOne schedule[index - 2]) schedule[index - 7]
      (smallSigmaZero schedule[index - 15]) schedule[index - 16])) (index + 1) (by omega)
  else schedule
termination_by 64 - index

/-- The variables of the loop over the rounds. -/
structure Working where
  a : U64
  b : U64
  c : U64
  d : U64
  e : U64
  f : U64
  g : U64
  h : U64

def round (working : Working) (constant word : U64) : Working :=
  let first := wordAddFive working.h (largeSigmaOne working.e) (choose working.e working.f working.g)
    constant word
  let second := wordAdd (largeSigmaZero working.a) (majority working.a working.b working.c)
  { a := wordAdd first second, b := working.a, c := working.b, d := working.c
    e := wordAdd working.d first, f := working.e, g := working.f, h := working.g }

def roundsFrom (schedule : Vector U64 64) (working : Working) (index : ℕ) : Working :=
  if h : index < 64 then
    roundsFrom schedule (round working roundConstants[index] schedule[index]) (index + 1)
  else working
termination_by 64 - index

def compress (state : Vector U64 8) (block : Vector UInt8 64) : Vector U64 8 :=
  let schedule := laterWords (firstWords block (Vector.replicate 64 0#64) 0) 16 (Nat.le_refl 16)
  let working := roundsFrom schedule
    ⟨state[0], state[1], state[2], state[3], state[4], state[5], state[6], state[7]⟩ 0
  #v[wordAdd state[0] working.a, wordAdd state[1] working.b, wordAdd state[2] working.c,
    wordAdd state[3] working.d, wordAdd state[4] working.e, wordAdd state[5] working.f,
    wordAdd state[6] working.g, wordAdd state[7] working.h]

end Compression

/-- The incremental state; there is always room for a byte. -/
structure Sha256 where
  words : Vector U64 8
  block : Vector UInt8 64
  buffered : ℕ
  totalBytes : U64
  buffered_lt : buffered < 64

namespace Sha256

def new : Sha256 where
  words := #v[0x6A09E667#64, 0xBB67AE85#64, 0x3C6EF372#64, 0xA54FF53A#64, 0x510E527F#64, 0x9B05688C#64,
    0x1F83D9AB#64, 0x5BE0CD19#64]
  block := Vector.replicate 64 0
  buffered := 0
  totalBytes := 0#64
  buffered_lt := Nat.zero_lt_succ 63

def updateByte (state : Sha256) (value : UInt8) : Sha256 :=
  have hbuffered := state.buffered_lt
  let block := state.block.set state.buffered value
  if h : state.buffered + 1 = 64 then
    { words := compress state.words block, block, buffered := 0, totalBytes := state.totalBytes + 1#64
      buffered_lt := Nat.zero_lt_succ 63 }
  else
    { words := state.words, block, buffered := state.buffered + 1, totalBytes := state.totalBytes + 1#64
      buffered_lt := by omega }

def update (state : Sha256) (input : Bytes) : Sha256 := input.foldl updateByte state

/-- The loops that clear a part of the block. -/
def clear (block : Vector UInt8 64) (start stop : ℕ) (hstop : stop ≤ 64) : Vector UInt8 64 :=
  if h : start < stop then clear (block.set start 0) (start + 1) stop hstop else block
termination_by stop - start

/-- The loop that writes the length. -/
def writeLength (block : Vector UInt8 64) (remaining : U64) (offset : ℕ) : Vector UInt8 64 :=
  if h : offset < 8 then
    writeLength (block.set (63 - offset) (truncate remaining)) (remaining / 256#64) (offset + 1)
  else block
termination_by 8 - offset

/-- The loop that writes the words of the digest. -/
def writeDigest (words : Vector U64 8) (bytes : Vector UInt8 32) (wordIndex : ℕ) : Vector UInt8 32 :=
  if h : wordIndex < 8 then
    let word := words[wordIndex]
    let bytes := bytes.set (wordIndex * 4) (truncate (word / 16777216#64))
    let bytes := bytes.set (wordIndex * 4 + 1) (truncate (word / 65536#64))
    let bytes := bytes.set (wordIndex * 4 + 2) (truncate (word / 256#64))
    let bytes := bytes.set (wordIndex * 4 + 3) (truncate word)
    writeDigest words bytes (wordIndex + 1)
  else bytes
termination_by 8 - wordIndex

/-- The words and the cleared block in front of the length. -/
def padBlock (state : Sha256) : Vector U64 8 × Vector UInt8 64 :=
  have hbuffered := state.buffered_lt
  let block := state.block.set state.buffered 128
  if 56 < state.buffered + 1 then
    let block := clear block (state.buffered + 1) 64 (Nat.le_refl 64)
    (compress state.words block, clear block 0 56 (by omega))
  else (state.words, clear block (state.buffered + 1) 56 (by omega))

def finish (state : Sha256) : Vector UInt8 32 :=
  let padded := state.padBlock
  let block := writeLength padded.2 (state.totalBytes * 8#64) 0
  writeDigest (compress padded.1 block) (Vector.replicate 32 0) 0

end Sha256

section Widening

open SecureHash (Word)

/-- A word of the standard as the code stores it. -/
def widen (x : Word) : U64 := x.setWidth 64

@[simp] theorem toNat_widen (x : Word) : (widen x).toNat = x.toNat := by
  rw [widen, BitVec.toNat_setWidth]
  omega

theorem widen_getLsbD (x : Word) (i : ℕ) : (widen x).getLsbD i = x.getLsbD i := by
  rw [widen, BitVec.getLsbD_setWidth]
  by_cases hi : i < 64
  · rw [decide_eq_true hi, Bool.true_and]
  · rw [BitVec.getLsbD_of_ge x i (by omega), Bool.and_false]

theorem and_wordMask (value : U64) : value &&& wordMask = widen (value.setWidth 32) := by
  have hmask : wordMask = widen (BitVec.allOnes 32) := rfl
  refine BitVec.eq_of_getLsbD_eq fun i _ => ?_
  rw [hmask, BitVec.getLsbD_and, widen_getLsbD, widen_getLsbD, BitVec.getLsbD_setWidth,
    BitVec.getLsbD_allOnes, Bool.and_comm]

theorem wordAdd_widen (x y : Word) : wordAdd (widen x) (widen y) = widen (x + y) := by
  rw [wordAdd, and_wordMask]
  refine congrArg widen (BitVec.eq_of_toNat_eq ?_)
  rw [BitVec.toNat_setWidth, BitVec.toNat_add, BitVec.toNat_add, toNat_widen, toNat_widen]
  omega

theorem wordAddFour_widen (x y z w : Word) :
    wordAddFour (widen x) (widen y) (widen z) (widen w) = widen (x + y + z + w) := by
  rw [wordAddFour, wordAdd_widen, wordAdd_widen, wordAdd_widen, BitVec.add_assoc (x + y)]

theorem wordAddFive_widen (x y z w v : Word) :
    wordAddFive (widen x) (widen y) (widen z) (widen w) (widen v) = widen (x + y + z + w + v) := by
  rw [wordAddFive, wordAddFour_widen, wordAdd_widen]

/-- The doubled word. -/
theorem widen_mul_repeatedWord (x : Word) : widen x * repeatedWord = x ++ x := by
  refine BitVec.eq_of_toNat_eq ?_
  have hx := x.isLt
  rw [BitVec.toNat_mul, toNat_widen, BitVec.toNat_append, ← Nat.shiftLeft_add_eq_or_of_lt hx,
    Nat.shiftLeft_eq]
  simp only [repeatedWord, BitVec.toNat_ofNat]
  omega

/-- A rotation of the doubled word rotates each half. -/
theorem rotateWordRight_widen (x : Word) {amount : U64} (hamount : amount.toNat < 32) :
    rotateWordRight (widen x) amount = widen (x.rotateRight amount.toNat) := by
  rw [rotateWordRight, rotateRight, widen_mul_repeatedWord, and_wordMask]
  refine congrArg widen (BitVec.eq_of_getLsbD_eq fun i hi => ?_)
  rw [BitVec.getLsbD_setWidth, BitVec.getLsbD_rotateRight_of_lt (by omega),
    BitVec.getLsbD_rotateRight_of_lt hamount, Nat.mod_eq_of_lt (by omega : amount.toNat < 64),
    decide_eq_true (by omega : i < 32 + 32 - amount.toNat), cond_true, BitVec.getLsbD_append]
  by_cases hlow : amount.toNat + i < 32
  · rw [if_pos hlow, decide_eq_true hi, decide_eq_true (by omega : i < 32 - amount.toNat)]
    rfl
  · rw [if_neg hlow, decide_eq_true hi, decide_eq_false (by omega : ¬i < 32 - amount.toNat), cond_false,
      Bool.true_and, Bool.true_and]
    exact congrArg x.getLsbD (by omega)

theorem widen_and (x y : Word) : widen x &&& widen y = widen (x &&& y) := BitVec.setWidth_and.symm

theorem widen_xor (x y : Word) : widen x ^^^ widen y = widen (x ^^^ y) := BitVec.setWidth_xor.symm

theorem widen_not (x : Word) : widen x ^^^ wordMask = widen (~~~x) := by
  have hmask : wordMask = widen (BitVec.allOnes 32) := rfl
  rw [hmask, widen_xor, BitVec.xor_allOnes]

theorem choose_widen (x y z : Word) :
    choose (widen x) (widen y) (widen z) = widen (SecureHash.ch x y z) := by
  rw [choose, widen_not, widen_and, widen_and, widen_xor, SecureHash.ch]

theorem majority_widen (x y z : Word) :
    majority (widen x) (widen y) (widen z) = widen (SecureHash.maj x y z) := by
  rw [majority, widen_and, widen_and, widen_and, widen_xor, widen_xor, SecureHash.maj]

/-- A division by a power of two shifts. -/
theorem widen_div (x : Word) {amount : ℕ} (hamount : amount < 32) :
    widen x / BitVec.ofNat 64 (2 ^ amount) = widen (x >>> amount) := by
  refine BitVec.eq_of_toNat_eq ?_
  have hpower : 2 ^ amount < 2 ^ 64 := Nat.pow_lt_pow_right (by omega) (by omega)
  rw [BitVec.toNat_udiv, toNat_widen, toNat_widen, BitVec.toNat_ushiftRight, BitVec.toNat_ofNat,
    Nat.mod_eq_of_lt hpower, Nat.shiftRight_eq_div_pow]

theorem largeSigmaZero_widen (x : Word) :
    largeSigmaZero (widen x) = widen (SecureHash.bigSigma0 x) := by
  rw [largeSigmaZero, rotateWordRight_widen x (by decide), rotateWordRight_widen x (by decide),
    rotateWordRight_widen x (by decide), widen_xor, widen_xor]
  rfl

theorem largeSigmaOne_widen (x : Word) :
    largeSigmaOne (widen x) = widen (SecureHash.bigSigma1 x) := by
  rw [largeSigmaOne, rotateWordRight_widen x (by decide), rotateWordRight_widen x (by decide),
    rotateWordRight_widen x (by decide), widen_xor, widen_xor]
  rfl

theorem smallSigmaZero_widen (x : Word) :
    smallSigmaZero (widen x) = widen (SecureHash.smallSigma0 x) := by
  have hdiv : widen x / 8#64 = widen (x >>> 3) := widen_div x (by omega : 3 < 32)
  rw [smallSigmaZero, rotateWordRight_widen x (by decide), rotateWordRight_widen x (by decide), hdiv,
    widen_xor, widen_xor]
  rfl

theorem smallSigmaOne_widen (x : Word) :
    smallSigmaOne (widen x) = widen (SecureHash.smallSigma1 x) := by
  have hdiv : widen x / 1024#64 = widen (x >>> 10) := widen_div x (by omega : 10 < 32)
  rw [smallSigmaOne, rotateWordRight_widen x (by decide), rotateWordRight_widen x (by decide), hdiv,
    widen_xor, widen_xor]
  rfl

theorem toNat_append_byte {width : ℕ} (x : BitVec width) (byte : BitVec 8) :
    (x ++ byte).toNat = x.toNat * 256 + byte.toNat := by
  rw [BitVec.toNat_append, ← Nat.shiftLeft_add_eq_or_of_lt byte.isLt, Nat.shiftLeft_eq]

end Widening

section Refinement

open SecureHash (Word)

/-- The bytes of a block in the code's array. -/
def blockBytes (block : Vector UInt8 64) (index : ℕ) : UInt8 := block[index]?.getD 0

theorem blockBytes_eq (block : Vector UInt8 64) {index : ℕ} (h : index < 64) :
    blockBytes block index = block[index] := by
  rw [blockBytes, Vector.getElem?_eq_getElem h, Option.getD_some]

theorem blockBytes_set (block : Vector UInt8 64) {place : ℕ} (hplace : place < 64) (value : UInt8)
    (index : ℕ) : blockBytes (block.set place value) index =
      if index = place then value else blockBytes block index := by
  rw [blockBytes, Vector.getElem?_set hplace]
  by_cases h : index = place
  · rw [if_pos h.symm, if_pos h, Option.getD_some]
  · rw [if_neg (Ne.symm h), if_neg h, blockBytes]

/-- A word is read with the first byte in front. -/
theorem decodeWord_widen (block : Vector UInt8 64) {t : ℕ} (ht : t < 16) :
    decodeWord block (t * 4) (by omega) = widen (SecureHash.blockWord (blockBytes block) t) := by
  have hbyte (byte : UInt8) : (byteWord byte).toNat = byte.toNat := by
    have hlt := byte.toBitVec.isLt
    rw [byteWord, BitVec.toNat_setWidth, UInt8.toNat_toBitVec]
    rw [UInt8.toNat_toBitVec] at hlt
    omega
  have hlt (byte : UInt8) : byte.toNat < 256 := byte.toNat_lt
  have hfirst := hlt block[t * 4]
  have hsecond := hlt block[t * 4 + 1]
  have hthird := hlt block[t * 4 + 2]
  have hfourth := hlt block[t * 4 + 3]
  refine BitVec.eq_of_toNat_eq ?_
  rw [toNat_widen, SecureHash.blockWord, toNat_append_byte, toNat_append_byte, toNat_append_byte,
    Nat.mul_comm 4 t, blockBytes_eq block (by omega), blockBytes_eq block (by omega),
    blockBytes_eq block (by omega), blockBytes_eq block (by omega)]
  rw [decodeWord, BitVec.toNat_add, BitVec.toNat_add, BitVec.toNat_add, BitVec.toNat_mul, BitVec.toNat_mul,
    BitVec.toNat_mul, hbyte, hbyte, hbyte, hbyte, UInt8.toNat_toBitVec, UInt8.toNat_toBitVec,
    UInt8.toNat_toBitVec, UInt8.toNat_toBitVec, BitVec.toNat_ofNat, BitVec.toNat_ofNat,
    BitVec.toNat_ofNat]
  omega

/-- The entries that are filled in carry the message schedule. -/
def Scheduled (message : ℕ → Word) (schedule : Vector U64 64) (count : ℕ) : Prop :=
  ∀ t (h : t < 64), t < count → schedule[t] = widen (SecureHash.schedule message t)

theorem Scheduled.set {message : ℕ → Word} {schedule : Vector U64 64} {count : ℕ}
    (hschedule : Scheduled message schedule count) (hcount : count < 64) {value : U64}
    (hvalue : value = widen (SecureHash.schedule message count)) :
    Scheduled message (schedule.set count value) (count + 1) := by
  intro t ht htcount
  rw [Vector.getElem_set]
  by_cases h : count = t
  · subst h
    rw [if_pos rfl, hvalue]
  · rw [if_neg h]
    exact hschedule t ht (by omega)

theorem firstWords_scheduled {block : Vector UInt8 64} {schedule : Vector U64 64} {index : ℕ}
    (hindex : index ≤ 16)
    (hschedule : Scheduled (SecureHash.blockWord (blockBytes block)) schedule index) :
    Scheduled (SecureHash.blockWord (blockBytes block)) (firstWords block schedule index) 16 := by
  induction schedule, index using firstWords.induct block with
  | case1 schedule index h ih =>
    rw [firstWords, dif_pos h]
    refine ih h (hschedule.set (by omega) ?_)
    rw [decodeWord_widen block h, SecureHash.schedule, if_pos h]
  | case2 schedule index h =>
    rw [firstWords, dif_neg h]
    have heq : index = 16 := by omega
    exact heq ▸ hschedule

theorem laterWords_scheduled {message : ℕ → Word} {schedule : Vector U64 64} {index : ℕ}
    (hindex : 16 ≤ index) (hle : index ≤ 64) (hschedule : Scheduled message schedule index) :
    Scheduled message (laterWords schedule index hindex) 64 := by
  induction schedule, index, hindex using laterWords.induct with
  | case1 schedule index hindex h ih =>
    rw [laterWords, dif_pos h]
    refine ih h (hschedule.set h ?_)
    rw [hschedule (index - 2) (by omega) (by omega), hschedule (index - 7) (by omega) (by omega),
      hschedule (index - 15) (by omega) (by omega), hschedule (index - 16) (by omega) (by omega),
      smallSigmaOne_widen, smallSigmaZero_widen, wordAddFour_widen,
      SecureHash.schedule.eq_def message index, if_neg (by omega)]
  | case2 schedule index hindex h =>
    rw [laterWords, dif_neg h]
    have heq : index = 64 := by omega
    exact heq ▸ hschedule

def widenState (state : SecureHash.State) : Working :=
  ⟨widen state.a, widen state.b, widen state.c, widen state.d, widen state.e, widen state.f,
    widen state.g, widen state.h⟩

theorem round_widen (state : SecureHash.State) (constant word : Word) :
    round (widenState state) (widen constant) (widen word) =
      widenState (SecureHash.round state constant word) := by
  simp only [round, widenState, SecureHash.round, largeSigmaOne_widen, choose_widen, wordAddFive_widen,
    largeSigmaZero_widen, majority_widen, wordAdd_widen]

theorem roundConstants_widen :
    ∀ index : Fin 64,
      roundConstants[index] = widen (BitVec.ofNat 32 (SecureHash.roundConstant.getD index 0)) := by
  decide +kernel

theorem roundsFrom_widen {message : ℕ → Word} {schedule : Vector U64 64}
    (hschedule : Scheduled message schedule 64) {state : SecureHash.State} {working : Working}
    {index : ℕ} (hindex : index ≤ 64)
    (hworking : working = widenState (SecureHash.rounds message state index)) :
    roundsFrom schedule working index = widenState (SecureHash.rounds message state 64) := by
  induction working, index using roundsFrom.induct schedule with
  | case1 working index h ih =>
    rw [roundsFrom, dif_pos h]
    refine ih h ?_
    have hconstant := roundConstants_widen ⟨index, h⟩
    rw [Fin.getElem_fin] at hconstant
    rw [hworking, hconstant, hschedule index h h, round_widen, SecureHash.rounds]
  | case2 working index h =>
    have heq : index = 64 := by omega
    rw [roundsFrom, dif_neg h, hworking, heq]

def widenWords (state : SecureHash.State) : Vector U64 8 :=
  #v[widen state.a, widen state.b, widen state.c, widen state.d, widen state.e, widen state.f,
    widen state.g, widen state.h]

theorem widenState_eq (state : SecureHash.State) :
    widenState state = ⟨(widenWords state)[0], (widenWords state)[1], (widenWords state)[2],
      (widenWords state)[3], (widenWords state)[4], (widenWords state)[5], (widenWords state)[6],
      (widenWords state)[7]⟩ := rfl

theorem widenWords_add (left right : SecureHash.State) :
    #v[wordAdd (widenWords left)[0] (widenState right).a, wordAdd (widenWords left)[1] (widenState right).b,
      wordAdd (widenWords left)[2] (widenState right).c, wordAdd (widenWords left)[3] (widenState right).d,
      wordAdd (widenWords left)[4] (widenState right).e, wordAdd (widenWords left)[5] (widenState right).f,
      wordAdd (widenWords left)[6] (widenState right).g, wordAdd (widenWords left)[7] (widenState right).h] =
      widenWords (SecureHash.add left right) := by
  have hwords : #v[wordAdd (widen left.a) (widen right.a), wordAdd (widen left.b) (widen right.b),
      wordAdd (widen left.c) (widen right.c), wordAdd (widen left.d) (widen right.d),
      wordAdd (widen left.e) (widen right.e), wordAdd (widen left.f) (widen right.f),
      wordAdd (widen left.g) (widen right.g), wordAdd (widen left.h) (widen right.h)] =
      widenWords (SecureHash.add left right) := by
    rw [widenWords, SecureHash.add]
    simp only [wordAdd_widen]
  exact hwords

theorem compress_of_roundsFrom {state : Vector U64 8} {mixed : Working} {block : Vector UInt8 64}
    (hrounds : roundsFrom
      (laterWords (firstWords block (Vector.replicate 64 0#64) 0) 16 (Nat.le_refl 16))
      ⟨state[0], state[1], state[2], state[3], state[4], state[5], state[6], state[7]⟩ 0 = mixed) :
    compress state block =
      #v[wordAdd state[0] mixed.a, wordAdd state[1] mixed.b, wordAdd state[2] mixed.c,
        wordAdd state[3] mixed.d, wordAdd state[4] mixed.e, wordAdd state[5] mixed.f,
        wordAdd state[6] mixed.g, wordAdd state[7] mixed.h] := by
  subst hrounds
  rfl

/-- The compression of the code is the one of the standard. -/
theorem compress_widen (state : SecureHash.State) (block : Vector UInt8 64) :
    compress (widenWords state) block = widenWords (SecureHash.compress state (blockBytes block)) := by
  have hnone : Scheduled (SecureHash.blockWord (blockBytes block)) (Vector.replicate 64 0#64) 0 :=
    fun t _ ht => absurd ht (Nat.not_lt_zero t)
  have hschedule := laterWords_scheduled (Nat.le_refl 16) (by omega)
    (firstWords_scheduled (Nat.zero_le 16) hnone)
  have hrounds := roundsFrom_widen hschedule (Nat.zero_le 64)
    (rfl : widenState state = widenState (SecureHash.rounds _ state 0))
  rw [widenState_eq] at hrounds
  rw [compress_of_roundsFrom hrounds, SecureHash.compress]
  exact widenWords_add state (SecureHash.rounds (SecureHash.blockWord (blockBytes block)) state 64)

end Refinement

namespace Sha256

section Absorption

/-- The state behind a message: the whole blocks are mixed in and the rest is in the block. -/
structure Absorbed (state : Sha256) (message : Bytes) : Prop where
  words : state.words = widenWords (SecureHash.hashBlocks message (message.length / 64))
  buffered : state.buffered = message.length % 64
  block : ∀ index < message.length % 64,
    blockBytes state.block index = SecureHash.blockAt message (message.length / 64) index
  totalBytes : state.totalBytes = BitVec.ofNat 64 message.length

theorem absorbed_new : Absorbed new [] where
  words := rfl
  buffered := rfl
  block := fun _ hindex => absurd hindex (Nat.not_lt_zero _)
  totalBytes := rfl

theorem blockAt_append_left {message : Bytes} (more : Bytes) {block index : ℕ}
    (h : 64 * block + index < message.length) :
    SecureHash.blockAt (message ++ more) block index = SecureHash.blockAt message block index := by
  rw [SecureHash.blockAt, SecureHash.blockAt, List.getD_eq_getElem?_getD, List.getD_eq_getElem?_getD,
    List.getElem?_append_left h]

theorem blockAt_append_right {message : Bytes} (more : Bytes) {block index : ℕ}
    (h : message.length ≤ 64 * block + index) :
    SecureHash.blockAt (message ++ more) block index = more.getD (64 * block + index - message.length) 0 := by
  rw [SecureHash.blockAt, List.getD_eq_getElem?_getD, List.getD_eq_getElem?_getD,
    List.getElem?_append_right h]

/-- The block with the new byte in it. -/
theorem Absorbed.blockBytes_set {state : Sha256} {message : Bytes} (h : Absorbed state message)
    (value : UInt8) {index : ℕ} (hindex : index ≤ message.length % 64) :
    blockBytes (state.block.set state.buffered value state.buffered_lt) index =
      SecureHash.blockAt (message ++ [value]) (message.length / 64) index := by
  rw [Digest.blockBytes_set, h.buffered]
  by_cases hlast : index = message.length % 64
  · have hplace : 64 * (message.length / 64) + index - message.length = 0 := by omega
    rw [if_pos hlast, blockAt_append_right [value] (by omega), hplace, List.getD_cons_zero]
  · rw [if_neg hlast, h.block index (by omega), blockAt_append_left [value] (by omega)]

theorem Absorbed.updateByte {state : Sha256} {message : Bytes} (h : Absorbed state message)
    (value : UInt8) : Absorbed (state.updateByte value) (message ++ [value]) := by
  have hlength : (message ++ [value]).length = message.length + 1 := List.length_append
  have hbuffered := h.buffered
  have htotal : state.totalBytes + 1#64 = BitVec.ofNat 64 (message ++ [value]).length := by
    rw [h.totalBytes, hlength, BitVec.ofNat_add]
  have hwords : SecureHash.hashBlocks (message ++ [value]) (message.length / 64) =
      SecureHash.hashBlocks message (message.length / 64) :=
    SecureHash.hashBlocks_append [value] (by omega)
  unfold Sha256.updateByte
  by_cases hfull : state.buffered + 1 = 64
  · have hcount : (message ++ [value]).length / 64 = message.length / 64 + 1 := by omega
    have hrest : (message ++ [value]).length % 64 = 0 := by omega
    rw [dif_pos hfull]
    refine ⟨?_, hrest.symm, ?_, htotal⟩
    · rw [hcount, SecureHash.hashBlocks, hwords, h.words, compress_widen]
      refine congrArg widenWords (SecureHash.compress_congr (fun index hindex => ?_) _)
      exact h.blockBytes_set value (by omega)
    · rw [hrest]
      exact fun _ hindex => absurd hindex (Nat.not_lt_zero _)
  · have hcount : (message ++ [value]).length / 64 = message.length / 64 := by omega
    have hrest : (message ++ [value]).length % 64 = message.length % 64 + 1 := by omega
    rw [dif_neg hfull]
    refine ⟨?_, ?_, ?_, htotal⟩
    · rw [hcount, hwords]
      exact h.words
    · rw [hrest, ← hbuffered]
    · rw [hrest, hcount]
      exact fun index hindex => h.blockBytes_set value (by omega)

theorem Absorbed.update {state : Sha256} {message : Bytes} (h : Absorbed state message) (input : Bytes) :
    Absorbed (state.update input) (message ++ input) := by
  induction input generalizing state message with
  | nil => rwa [List.append_nil]
  | cons value input ih =>
    have hstep := ih (h.updateByte value)
    rwa [List.append_assoc] at hstep

theorem Absorbed.updates {state : Sha256} {message : Bytes} (h : Absorbed state message)
    (chunks : List Bytes) : Absorbed (chunks.foldl Sha256.update state) (message ++ chunks.flatten) := by
  induction chunks generalizing state message with
  | nil => rwa [List.flatten_nil, List.append_nil]
  | cons chunk chunks ih =>
    have hstep := ih (h.update chunk)
    rwa [List.append_assoc] at hstep

end Absorption

section Padding

open SecureHash (pad zeros lengthBytes)

theorem blockBytes_clear (block : Vector UInt8 64) {start stop : ℕ} (hstop : stop ≤ 64) (index : ℕ) :
    blockBytes (clear block start stop hstop) index =
      if start ≤ index ∧ index < stop then 0 else blockBytes block index := by
  induction block, start using clear.induct stop hstop with
  | case1 block start h ih =>
    rw [clear, dif_pos h, ih, Digest.blockBytes_set]
    by_cases hcleared : start + 1 ≤ index ∧ index < stop
    · rw [if_pos hcleared, if_pos (by omega)]
    · rw [if_neg hcleared]
      by_cases hstart : index = start
      · rw [if_pos hstart, if_pos (by omega)]
      · rw [if_neg hstart, if_neg (by omega)]
  | case2 block start h => rw [clear, dif_neg h, if_neg (by omega)]

theorem truncate_ofNat (value : ℕ) : truncate (BitVec.ofNat 64 value) = UInt8.ofNat value := by
  refine UInt8.toNat_inj.mp ?_
  rw [truncate, UInt8.toNat_ofBitVec, BitVec.toNat_setWidth, BitVec.toNat_ofNat, UInt8.toNat_ofNat']
  omega

theorem ofNat_div {value : ℕ} (hvalue : value < 2 ^ 64) :
    BitVec.ofNat 64 value / 256#64 = BitVec.ofNat 64 (value / 256) := by
  refine BitVec.eq_of_toNat_eq ?_
  rw [BitVec.toNat_udiv, BitVec.toNat_ofNat, BitVec.toNat_ofNat, BitVec.toNat_ofNat,
    Nat.mod_eq_of_lt hvalue, Nat.mod_eq_of_lt (by omega : 256 < 2 ^ 64), Nat.mod_eq_of_lt (by omega)]

/-- The length is written from its last byte on. -/
theorem blockBytes_writeLength {bits : ℕ} (hbits : bits < 2 ^ 64) (block : Vector UInt8 64)
    {remaining : U64} {offset : ℕ} (hoffset : offset ≤ 8)
    (hremaining : remaining = BitVec.ofNat 64 (bits / 256 ^ offset)) (index : ℕ) :
    blockBytes (writeLength block remaining offset) index =
      if 56 ≤ index ∧ index < 64 - offset then UInt8.ofNat (bits / 256 ^ (63 - index))
      else blockBytes block index := by
  induction block, remaining, offset using writeLength.induct with
  | case1 block remaining offset h ih =>
    have hdiv : remaining / 256#64 = BitVec.ofNat 64 (bits / 256 ^ (offset + 1)) := by
      have hlt : bits / 256 ^ offset < 2 ^ 64 := Nat.lt_of_le_of_lt (Nat.div_le_self _ _) hbits
      rw [hremaining, ofNat_div hlt, Nat.div_div_eq_div_mul, pow_succ]
    rw [writeLength, dif_pos h, ih h hdiv, Digest.blockBytes_set]
    by_cases hwritten : 56 ≤ index ∧ index < 64 - (offset + 1)
    · rw [if_pos hwritten, if_pos (by omega)]
    · rw [if_neg hwritten]
      by_cases hplace : index = 63 - offset
      · have hexponent : 63 - index = offset := by omega
        rw [if_pos hplace, if_pos (by omega), hexponent, hremaining, truncate_ofNat]
      · rw [if_neg hplace, if_neg (by omega)]
  | case2 block remaining offset h => rw [writeLength, dif_neg h, if_neg (by omega)]

theorem length_pad (message : Bytes) : (pad message).length = message.length + 9 + zeros message.length := by
  rw [pad, List.length_append, List.length_cons, List.length_append, List.length_replicate, lengthBytes,
    List.length_map, List.length_range]
  omega

/-- The bytes of a padded message behind the message. -/
theorem blockAt_pad (message : Bytes) {block index : ℕ} (h : message.length ≤ 64 * block + index)
    (hend : 64 * block + index < (pad message).length) :
    SecureHash.blockAt (pad message) block index = if 64 * block + index = message.length then 128
      else if 64 * block + index < message.length + 1 + zeros message.length then 0
      else UInt8.ofNat (8 * message.length / 256 ^ ((pad message).length - 1 - (64 * block + index))) := by
  have hlength := length_pad message
  rw [hlength, pad, blockAt_append_right _ h]
  by_cases hfirst : 64 * block + index = message.length
  · rw [if_pos hfirst, hfirst, Nat.sub_self, List.getD_cons_zero]
  · obtain ⟨place, hplace⟩ : ∃ place, 64 * block + index - message.length = place + 1 :=
      ⟨64 * block + index - message.length - 1, by omega⟩
    rw [if_neg hfirst, hplace, List.getD_cons_succ, List.getD_eq_getElem?_getD]
    by_cases hzero : 64 * block + index < message.length + 1 + zeros message.length
    · rw [if_pos hzero, List.getElem?_append_left (by rw [List.length_replicate]; omega),
        List.getElem?_replicate, if_pos (by omega), Option.getD_some]
    · have hexponent : 7 - (place - zeros message.length) =
          message.length + 9 + zeros message.length - 1 - (64 * block + index) := by omega
      rw [if_neg hzero, List.getElem?_append_right (by rw [List.length_replicate]; omega),
        List.length_replicate, lengthBytes, List.getElem?_map, List.getElem?_range (by omega),
        Option.map_some, Option.getD_some, hexponent]

theorem blockAt_pad_left (message : Bytes) {block index : ℕ} (h : 64 * block + index < message.length) :
    SecureHash.blockAt (pad message) block index = SecureHash.blockAt message block index :=
  blockAt_append_left _ h

theorem hashBlocks_pad (message : Bytes) :
    SecureHash.hashBlocks (pad message) (message.length / 64) =
      SecureHash.hashBlocks message (message.length / 64) :=
  SecureHash.hashBlocks_append _ (by omega)

/-- The first padding byte behind the rest of the message. -/
theorem Absorbed.blockBytes_pad {state : Sha256} {message : Bytes} (h : Absorbed state message) {index : ℕ}
    (hindex : index ≤ message.length % 64) :
    blockBytes (state.block.set state.buffered 128 state.buffered_lt) index =
      SecureHash.blockAt (pad message) (message.length / 64) index := by
  have hlength := length_pad message
  rw [Digest.blockBytes_set, h.buffered]
  by_cases hfirst : index = message.length % 64
  · rw [if_pos hfirst, blockAt_pad message (by omega) (by omega), if_pos (by omega)]
  · rw [if_neg hfirst, h.block index (by omega), blockAt_pad_left message (by omega)]

theorem Absorbed.totalBits {state : Sha256} {message : Bytes} (h : Absorbed state message) :
    state.totalBytes * 8#64 = BitVec.ofNat 64 (8 * message.length / 256 ^ 0) := by
  rw [h.totalBytes, pow_zero, Nat.div_one, Nat.mul_comm, BitVec.ofNat_mul]

theorem padBlock_short {state : Sha256} (h : ¬56 < state.buffered + 1) :
    state.padBlock = (state.words, clear (state.block.set state.buffered 128 state.buffered_lt)
      (state.buffered + 1) 56 (by omega)) := by
  rw [padBlock, if_neg h]

theorem padBlock_long {state : Sha256} (h : 56 < state.buffered + 1) : state.padBlock =
      (compress state.words (clear (state.block.set state.buffered 128 state.buffered_lt)
        (state.buffered + 1) 64 (Nat.le_refl 64)),
      clear (clear (state.block.set state.buffered 128 state.buffered_lt) (state.buffered + 1) 64
        (Nat.le_refl 64)) 0 56 (by omega)) := by
  rw [padBlock, if_pos h]

/-- The padded rest of the message fits into its block. -/
theorem Absorbed.finish_short {state : Sha256} {message : Bytes} (h : Absorbed state message)
    (hlength : message.length < 2 ^ 61) (hshort : message.length % 64 ≤ 55) :
    compress state.padBlock.1 (writeLength state.padBlock.2 (state.totalBytes * 8#64) 0) =
      widenWords (SecureHash.hashBlocks (pad message) ((pad message).length / 64)) := by
  have hbuffered := h.buffered
  have hpad := length_pad message
  have hzeros : zeros message.length = 55 - message.length % 64 := by
    rw [zeros]
    omega
  have hcount : (pad message).length / 64 = message.length / 64 + 1 := by omega
  rw [hcount, SecureHash.hashBlocks, hashBlocks_pad, padBlock_short (by omega), h.words,
    compress_widen]
  refine congrArg widenWords (SecureHash.compress_congr (fun index hindex => ?_) _)
  rw [blockBytes_writeLength (by omega) _ (Nat.zero_le 8) h.totalBits, blockBytes_clear]
  by_cases hbits : 56 ≤ index ∧ index < 64 - 0
  · have hexponent : (pad message).length - 1 - (64 * (message.length / 64) + index) = 63 - index := by
      omega
    rw [if_pos hbits, blockAt_pad message (by omega) (by omega), if_neg (by omega), if_neg (by omega),
      hexponent]
  · rw [if_neg hbits]
    by_cases hzero : state.buffered + 1 ≤ index ∧ index < 56
    · rw [if_pos hzero, blockAt_pad message (by omega) (by omega), if_neg (by omega), if_pos (by omega)]
    · rw [if_neg hzero]
      exact h.blockBytes_pad (by omega)

/-- The length needs a block of its own. -/
theorem Absorbed.finish_long {state : Sha256} {message : Bytes} (h : Absorbed state message)
    (hlength : message.length < 2 ^ 61) (hlong : 56 ≤ message.length % 64) :
    compress state.padBlock.1 (writeLength state.padBlock.2 (state.totalBytes * 8#64) 0) =
      widenWords (SecureHash.hashBlocks (pad message) ((pad message).length / 64)) := by
  have hbuffered := h.buffered
  have hpad := length_pad message
  have hzeros : zeros message.length = 119 - message.length % 64 := by
    rw [zeros]
    omega
  have hcount : (pad message).length / 64 = message.length / 64 + 1 + 1 := by omega
  rw [hcount, SecureHash.hashBlocks, SecureHash.hashBlocks, hashBlocks_pad,
    padBlock_long (by omega), h.words, compress_widen, compress_widen]
  refine congrArg widenWords ?_
  have hfirst : SecureHash.compress (SecureHash.hashBlocks message (message.length / 64))
      (blockBytes (clear (state.block.set state.buffered 128 state.buffered_lt) (state.buffered + 1) 64
        (Nat.le_refl 64))) =
      SecureHash.compress (SecureHash.hashBlocks message (message.length / 64))
        (SecureHash.blockAt (pad message) (message.length / 64)) := by
    refine SecureHash.compress_congr (fun index hindex => ?_) _
    rw [blockBytes_clear]
    by_cases hzero : state.buffered + 1 ≤ index ∧ index < 64
    · rw [if_pos hzero, blockAt_pad message (by omega) (by omega), if_neg (by omega), if_pos (by omega)]
    · rw [if_neg hzero]
      exact h.blockBytes_pad (by omega)
  rw [hfirst]
  refine SecureHash.compress_congr (fun index hindex => ?_) _
  rw [blockBytes_writeLength (by omega) _ (Nat.zero_le 8) h.totalBits, blockBytes_clear]
  by_cases hbits : 56 ≤ index ∧ index < 64 - 0
  · have hexponent : (pad message).length - 1 - (64 * (message.length / 64 + 1) + index) = 63 - index := by
      omega
    rw [if_pos hbits, blockAt_pad message (by omega) (by omega), if_neg (by omega), if_neg (by omega),
      hexponent]
  · have hzero : 0 ≤ index ∧ index < 56 := by omega
    rw [if_neg hbits, if_pos hzero, blockAt_pad message (by omega) (by omega), if_neg (by omega),
      if_pos (by omega)]

end Padding

section Digests

/-- A byte of a digest. -/
def digestByte (words : Vector U64 8) (index : ℕ) : UInt8 :=
  UInt8.ofNat ((words[index / 4]?.getD 0#64).toNat / 256 ^ (3 - index % 4))

theorem truncate_eq (value : U64) : truncate value = UInt8.ofNat value.toNat := by
  rw [← truncate_ofNat, BitVec.ofNat_toNat, BitVec.setWidth_eq]

theorem truncate_div (value : U64) {power : ℕ} (hpower : power < 2 ^ 64) :
    truncate (value / BitVec.ofNat 64 power) = UInt8.ofNat (value.toNat / power) := by
  rw [truncate_eq, BitVec.toNat_udiv, BitVec.toNat_ofNat, Nat.mod_eq_of_lt hpower]

theorem getElem_writeDigest {words : Vector U64 8} {bytes : Vector UInt8 32} {wordIndex : ℕ}
    (hwordIndex : wordIndex ≤ 8)
    (hbytes : ∀ index (h : index < 32), index < 4 * wordIndex → bytes[index] = digestByte words index)
    {index : ℕ} (hindex : index < 32) : (writeDigest words bytes wordIndex)[index] = digestByte words index := by
  induction bytes, wordIndex using writeDigest.induct words with
  | case1 bytes wordIndex h word bytes1 bytes2 bytes3 bytes4 ih =>
    rw [writeDigest, dif_pos h]
    refine ih h (fun place hplace hle => ?_)
    have hword : words[wordIndex]?.getD 0#64 = word := by
      rw [Vector.getElem?_eq_getElem h, Option.getD_some]
    have hdigest (offset : ℕ) (hoffset : offset < 4) : digestByte words (wordIndex * 4 + offset) =
        UInt8.ofNat (word.toNat / 256 ^ (3 - offset)) := by
      have hdiv : (wordIndex * 4 + offset) / 4 = wordIndex := by omega
      have hmod : (wordIndex * 4 + offset) % 4 = offset := by omega
      rw [digestByte, hdiv, hmod, hword]
    have hsecondPower : 256 ^ (3 - 2) = 256 := rfl
    have hthirdPower : 256 ^ (3 - 1) = 65536 := rfl
    have hfourthPower : 256 ^ (3 - 0) = 16777216 := rfl
    rw [Vector.getElem_set]
    by_cases hfourth : wordIndex * 4 + 3 = place
    · rw [if_pos hfourth, ← hfourth, hdigest 3 (by omega), truncate_eq, Nat.sub_self, pow_zero, Nat.div_one]
    · rw [if_neg hfourth, Vector.getElem_set]
      by_cases hthird : wordIndex * 4 + 2 = place
      · rw [if_pos hthird, ← hthird, hdigest 2 (by omega), hsecondPower, truncate_div word (by omega)]
      · rw [if_neg hthird, Vector.getElem_set]
        by_cases hsecond : wordIndex * 4 + 1 = place
        · rw [if_pos hsecond, ← hsecond, hdigest 1 (by omega), hthirdPower,
          truncate_div word (by omega)]
        · rw [if_neg hsecond, Vector.getElem_set]
          by_cases hfirst : wordIndex * 4 = place
          · have hzero := hdigest 0 (by omega)
            rw [Nat.add_zero] at hzero
            rw [if_pos hfirst, ← hfirst, hzero, hfourthPower, truncate_div word (by omega)]
          · rw [if_neg hfirst]
            exact hbytes place hplace (by omega)
  | case2 bytes wordIndex h =>
    rw [writeDigest, dif_neg h]
    exact hbytes index hindex (by omega)

theorem wordBytes_getD (word : SecureHash.Word) {offset : ℕ} (hoffset : offset < 4) :
    (SecureHash.wordBytes word)[offset]? = some (UInt8.ofNat (word.toNat / 256 ^ (3 - offset))) := by
  have hbyte (start : ℕ) : UInt8.ofBitVec (word.extractLsb' start 8) =
      UInt8.ofNat (word.toNat / 2 ^ start) := by
    refine UInt8.toNat_inj.mp ?_
    rw [UInt8.toNat_ofBitVec, BitVec.extractLsb'_toNat, UInt8.toNat_ofNat', Nat.shiftRight_eq_div_pow]
  have hcases : offset = 0 ∨ offset = 1 ∨ offset = 2 ∨ offset = 3 := by omega
  rw [SecureHash.wordBytes, hbyte, hbyte, hbyte, hbyte]
  rcases hcases with rfl | rfl | rfl | rfl <;> rfl

/-- Each word spells four bytes. -/
theorem getElem?_flatMap_wordBytes (words : List SecureHash.Word) {index : ℕ}
    (hindex : index < 4 * words.length) : (words.flatMap SecureHash.wordBytes)[index]? =
      some (UInt8.ofNat ((words[index / 4]?.getD 0).toNat / 256 ^ (3 - index % 4))) := by
  induction words generalizing index with
  | nil => exact absurd hindex (Nat.not_lt_zero _)
  | cons word words ih =>
    have hlength : (SecureHash.wordBytes word).length = 4 := rfl
    rw [List.length_cons] at hindex
    rw [List.flatMap_cons]
    by_cases hfirst : index < 4
    · have hdiv : index / 4 = 0 := by omega
      have hmod : index % 4 = index := by omega
      rw [List.getElem?_append_left (by omega), wordBytes_getD word hfirst, hdiv, hmod]
      rfl
    · have hdiv : index / 4 = (index - 4) / 4 + 1 := by omega
      have hmod : index % 4 = (index - 4) % 4 := by omega
      rw [List.getElem?_append_right (by omega), hlength, ih (by omega), hdiv, hmod,
        List.getElem?_cons_succ]

theorem digestByte_widenWords (state : SecureHash.State) {index : ℕ} (hindex : index < 32) :
    (state.words.flatMap SecureHash.wordBytes)[index]? = some (digestByte (widenWords state) index) := by
  have hwords : (widenWords state).toList = state.words.map widen := rfl
  have hlength : state.words.length = 8 := rfl
  have hword : (widenWords state)[index / 4]? = (state.words[index / 4]?).map widen := by
    rw [← Vector.getElem?_toList, hwords, List.getElem?_map]
  rw [getElem?_flatMap_wordBytes _ (by omega), digestByte, hword]
  rcases hvalue : state.words[index / 4]? with _ | word
  · rfl
  · rw [Option.map_some, Option.getD_some, Option.getD_some, toNat_widen]

theorem writeDigest_widenWords (state : SecureHash.State) (bytes : Vector UInt8 32) :
    (writeDigest (widenWords state) bytes 0).toList = state.words.flatMap SecureHash.wordBytes := by
  refine List.ext_getElem? (fun index => ?_)
  rw [Vector.getElem?_toList]
  by_cases hindex : index < 32
  · rw [Vector.getElem?_eq_getElem hindex, digestByte_widenWords state hindex,
      getElem_writeDigest (Nat.zero_le 8) (fun _ _ hpos => absurd hpos (Nat.not_lt_zero _)) hindex]
  · have hlength : (state.words.flatMap SecureHash.wordBytes).length = 32 := rfl
    rw [Vector.getElem?_eq_none (by omega), List.getElem?_eq_none (by omega)]

theorem Absorbed.finish {state : Sha256} {message : Bytes} (h : Absorbed state message)
    (hlength : message.length < 2 ^ 61) : state.finish.toList = SecureHash.hash message := by
  have hwords : compress state.padBlock.1 (writeLength state.padBlock.2 (state.totalBytes * 8#64) 0) =
      widenWords (SecureHash.hashBlocks (SecureHash.pad message) ((SecureHash.pad message).length / 64)) := by
    by_cases hshort : message.length % 64 ≤ 55
    · exact h.finish_short hlength hshort
    · exact h.finish_long hlength (by omega)
  rw [Sha256.finish, hwords, writeDigest_widenWords, SecureHash.hash]

/-- However a message is cut, the digest of its pieces is the digest of the message. -/
theorem incremental_digest (chunks : List Bytes) (hlength : chunks.flatten.length < 2 ^ 61) :
    (chunks.foldl update new).finish.toList = SecureHash.hash chunks.flatten := by
  have habsorbed := absorbed_new.updates chunks
  rw [List.nil_append] at habsorbed
  exact habsorbed.finish hlength

theorem incremental_digest_two :
    ([[97], [98, 99]].foldl update new).finish.toList = SecureHash.hash [97, 98, 99] :=
  incremental_digest [[97], [98, 99]] (by simp)

end Digests

end Sha256

end Nocter.Digest

import Mathlib.Algebra.Group.Nat.Defs
import Mathlib.Data.List.Basic

/-!
# The secure hash algorithm with 32-bit words

A message is padded to whole blocks of sixteen words; each block is expanded to a schedule of
sixty-four words and mixed into the eight words of the hash value. The constants are the first
fractional bits of the cube roots of the first sixty-four primes and of the square roots of the
first eight.
-/

namespace Nocter.SecureHash

abbrev Word := BitVec 32

def ch (x y z : Word) : Word := (x &&& y) ^^^ (~~~x &&& z)

def maj (x y z : Word) : Word := (x &&& y) ^^^ (x &&& z) ^^^ (y &&& z)

def bigSigma0 (x : Word) : Word := x.rotateRight 2 ^^^ x.rotateRight 13 ^^^ x.rotateRight 22

def bigSigma1 (x : Word) : Word := x.rotateRight 6 ^^^ x.rotateRight 11 ^^^ x.rotateRight 25

def smallSigma0 (x : Word) : Word := x.rotateRight 7 ^^^ x.rotateRight 18 ^^^ (x >>> 3)

def smallSigma1 (x : Word) : Word := x.rotateRight 17 ^^^ x.rotateRight 19 ^^^ (x >>> 10)

/-- The constant of each round. -/
def roundConstant : List ℕ :=
  [0x428a2f98, 0x71374491, 0xb5c0fbcf, 0xe9b5dba5, 0x3956c25b, 0x59f111f1, 0x923f82a4, 0xab1c5ed5,
    0xd807aa98, 0x12835b01, 0x243185be, 0x550c7dc3, 0x72be5d74, 0x80deb1fe, 0x9bdc06a7, 0xc19bf174,
    0xe49b69c1, 0xefbe4786, 0x0fc19dc6, 0x240ca1cc, 0x2de92c6f, 0x4a7484aa, 0x5cb0a9dc, 0x76f988da,
    0x983e5152, 0xa831c66d, 0xb00327c8, 0xbf597fc7, 0xc6e00bf3, 0xd5a79147, 0x06ca6351, 0x14292967,
    0x27b70a85, 0x2e1b2138, 0x4d2c6dfc, 0x53380d13, 0x650a7354, 0x766a0abb, 0x81c2c92e, 0x92722c85,
    0xa2bfe8a1, 0xa81a664b, 0xc24b8b70, 0xc76c51a3, 0xd192e819, 0xd6990624, 0xf40e3585, 0x106aa070,
    0x19a4c116, 0x1e376c08, 0x2748774c, 0x34b0bcb5, 0x391c0cb3, 0x4ed8aa4a, 0x5b9cca4f, 0x682e6ff3,
    0x748f82ee, 0x78a5636f, 0x84c87814, 0x8cc70208, 0x90befffa, 0xa4506ceb, 0xbef9a3f7, 0xc67178f2]

/-- The hash value and the working variables. -/
structure State where
  a : Word
  b : Word
  c : Word
  d : Word
  e : Word
  f : Word
  g : Word
  h : Word
deriving DecidableEq

def initial : State :=
  ⟨0x6a09e667#32, 0xbb67ae85#32, 0x3c6ef372#32, 0xa54ff53a#32, 0x510e527f#32, 0x9b05688c#32,
    0x1f83d9ab#32, 0x5be0cd19#32⟩

def State.words (state : State) : List Word :=
  [state.a, state.b, state.c, state.d, state.e, state.f, state.g, state.h]

/-- The message schedule of the sixteen words of a block. -/
def schedule (message : ℕ → Word) (t : ℕ) : Word :=
  if t < 16 then message t
  else smallSigma1 (schedule message (t - 2)) + schedule message (t - 7) +
    smallSigma0 (schedule message (t - 15)) + schedule message (t - 16)

def round (state : State) (constant word : Word) : State :=
  let first := state.h + bigSigma1 state.e + ch state.e state.f state.g + constant + word
  let second := bigSigma0 state.a + maj state.a state.b state.c
  ⟨first + second, state.a, state.b, state.c, state.d + first, state.e, state.f, state.g⟩

/-- The working variables behind so many rounds. -/
def rounds (message : ℕ → Word) (state : State) : ℕ → State
  | 0 => state
  | t + 1 =>
    round (rounds message state t) (BitVec.ofNat 32 (roundConstant.getD t 0)) (schedule message t)

def add (left right : State) : State :=
  ⟨left.a + right.a, left.b + right.b, left.c + right.c, left.d + right.d, left.e + right.e,
    left.f + right.f, left.g + right.g, left.h + right.h⟩

/-- A word of a block, the first byte in front. -/
def blockWord (block : ℕ → UInt8) (t : ℕ) : Word :=
  (block (4 * t)).toBitVec ++ (block (4 * t + 1)).toBitVec ++ (block (4 * t + 2)).toBitVec ++
    (block (4 * t + 3)).toBitVec

def compress (state : State) (block : ℕ → UInt8) : State :=
  add state (rounds (blockWord block) state 64)

theorem schedule_congr {message message' : ℕ → Word} (h : ∀ t < 16, message t = message' t) (t : ℕ) :
    schedule message t = schedule message' t := by
  induction t using Nat.strongRecOn with
  | ind t ih =>
    rw [schedule, @schedule.eq_def message' t]
    by_cases ht : t < 16
    · rw [if_pos ht, if_pos ht, h t ht]
    · rw [if_neg ht, if_neg ht, ih (t - 2) (by omega), ih (t - 7) (by omega), ih (t - 15) (by omega),
      ih (t - 16) (by omega)]

theorem rounds_congr {message message' : ℕ → Word} (h : ∀ t < 16, message t = message' t) (state : State)
    (count : ℕ) : rounds message state count = rounds message' state count := by
  induction count with
  | zero => rfl
  | succ count ih => rw [rounds, rounds, ih, schedule_congr h]

/-- Only the bytes of the block matter. -/
theorem compress_congr {block block' : ℕ → UInt8} (h : ∀ index < 64, block index = block' index)
    (state : State) : compress state block = compress state block' := by
  rw [compress, compress, rounds_congr fun t ht => ?_]
  rw [blockWord, blockWord, h (4 * t) (by omega), h (4 * t + 1) (by omega), h (4 * t + 2) (by omega),
    h (4 * t + 3) (by omega)]

/-- The bytes of a block of a message. -/
def blockAt (bytes : List UInt8) (block index : ℕ) : UInt8 := bytes.getD (64 * block + index) 0

/-- The hash value behind so many blocks. -/
def hashBlocks (bytes : List UInt8) : ℕ → State
  | 0 => initial
  | count + 1 => compress (hashBlocks bytes count) (blockAt bytes count)

theorem hashBlocks_append {bytes : List UInt8} (more : List UInt8) {count : ℕ}
    (h : 64 * count ≤ bytes.length) : hashBlocks (bytes ++ more) count = hashBlocks bytes count := by
  induction count with
  | zero => rfl
  | succ count ih =>
    rw [hashBlocks, hashBlocks, ih (by omega)]
    refine compress_congr (fun index hindex => ?_) _
    rw [blockAt, blockAt, List.getD_eq_getElem?_getD, List.getD_eq_getElem?_getD,
      List.getElem?_append_left (by omega)]

/-- The last eight bytes of a padded message: the number of its bits, the first byte in front. -/
def lengthBytes (bits : ℕ) : List UInt8 :=
  (List.range 8).map fun index => UInt8.ofNat (bits / 256 ^ (7 - index))

/-- The zeros behind the first padding byte. -/
def zeros (length : ℕ) : ℕ := (119 - length % 64) % 64

def pad (message : List UInt8) : List UInt8 :=
  message ++ 0x80 :: (List.replicate (zeros message.length) 0 ++ lengthBytes (8 * message.length))

def wordBytes (word : Word) : List UInt8 :=
  [UInt8.ofBitVec (word.extractLsb' 24 8), UInt8.ofBitVec (word.extractLsb' 16 8),
    UInt8.ofBitVec (word.extractLsb' 8 8), UInt8.ofBitVec (word.extractLsb' 0 8)]

/-- The digest of a message. -/
def hash (message : List UInt8) : List UInt8 :=
  (hashBlocks (pad message) ((pad message).length / 64)).words.flatMap wordBytes

end Nocter.SecureHash

import ChessMate.PolynomialRemainder
import ChessMate.ReachableBoards

/-! # The key of a board

`Board::hash` takes the CRC-32C of the first four rows of `positions_` and that of the
last four, and mixes the two words into one.

`folly::crc32c` has two implementations.  On a processor with SSE 4.2 single bytes are
taken up to an address that is a multiple of eight, then eight bytes at a time, then the
bytes that are left; elsewhere the bytes go through an engine of Boost.  Boards are created
on the stack and on the heap, so neither the processor nor the address may enter the key,
and neither does (`boardHash_eq`).  The engine is a parameter, of which only its
documentation is used (`Crc32cEngine`): it divides polynomials.  What `std::hash` does with
a word is another.
-/
namespace Chess
open FeedbackRegister

/-! ## `crc32c` -/

/-- `CRC32C_POLYNOMIAL`. -/
def CRC32C_POLYNOMIAL : BitVec 32 := 0x1EDC6F41#32

/-- `__builtin_ia32_crc32qi`, the instruction for a byte. -/
def crc32qi (sum : BitVec 32) (byte : BitVec 8) : BitVec 32 :=
  steps CRC32C_POLYNOMIAL.reverse 8 (sum ^^^ byte.setWidth 32)

/-- `__builtin_ia32_crc32di`, the instruction for eight bytes. -/
def crc32di (sum src : BitVec 64) : BitVec 64 :=
  steps (CRC32C_POLYNOMIAL.reverse.setWidth 64) 64 (sum ^^^ src)

/-- Bytes read as one word, the lowest address at the low end. -/
def loadWord (bytes : List (BitVec 8)) : BitVec 64 := word 8 (bytes.map (BitVec.setWidth 64))

/-- The loops of `crc32c_hw` from a multiple of eight on. -/
def crc32cBlocks : BitVec 32 → List (BitVec 8) → BitVec 32
  | sum, b0 :: b1 :: b2 :: b3 :: b4 :: b5 :: b6 :: b7 :: rest =>
    crc32cBlocks
      ((crc32di (sum.setWidth 64) (loadWord [b0, b1, b2, b3, b4, b5, b6, b7])).setWidth 32) rest
  | sum, rest => rest.foldl crc32qi sum

/-- `crc32c_hw`; `mask` is the address of the data modulo eight. -/
def crc32cHw (mask : ℕ) (data : List (BitVec 8)) (startingChecksum : BitVec 32) : BitVec 32 :=
  let limit := if mask ≠ 0 then min data.length (8 - mask) else 0
  crc32cBlocks ((data.take limit).foldl crc32qi startingChecksum) (data.drop limit)

/-- The start of `crc32c_sw`, which reverses the bits. -/
def reverseBits (x : BitVec 32) : BitVec 32 :=
  let x := ((x >>> 1) &&& 0x55555555#32) ||| ((x &&& 0x55555555#32) <<< 1)
  let x := ((x >>> 2) &&& 0x33333333#32) ||| ((x &&& 0x33333333#32) <<< 2)
  let x := ((x >>> 4) &&& 0x0f0f0f0f#32) ||| ((x &&& 0x0f0f0f0f#32) <<< 4)
  let x := ((x >>> 8) &&& 0x00ff00ff#32) ||| ((x &&& 0x00ff00ff#32) <<< 8)
  (x >>> 16) ||| (x <<< 16)

/-- `crc32c_sw`.  `engine` is the checksum of the `boost::crc_optimal` that is constructed
with a remainder and given the bytes. -/
def crc32cSw (engine : BitVec 32 → List (BitVec 8) → BitVec 32) (data : List (BitVec 8))
    (startingChecksum : BitVec 32) : BitVec 32 :=
  engine (reverseBits startingChecksum) data

/-- `folly::crc32c`. -/
def crc32c (engine : BitVec 32 → List (BitVec 8) → BitVec 32) (hwSupported : Bool) (mask : ℕ)
    (data : List (BitVec 8)) (startingChecksum : BitVec 32) : BitVec 32 :=
  if hwSupported then crc32cHw mask data startingChecksum
  else crc32cSw engine data startingChecksum

/-- The bits of a byte, from the lowest on. -/
def bitsOf (byte : BitVec 8) : List Bool := (List.range 8).map byte.getLsbD

/-- **What Boost documents of `crc_optimal<32, CRC32C_POLYNOMIAL, ~0U, 0, true, true>`**: the
bits of the bytes, each byte reflected, are a polynomial, in front of which the initial
remainder is added; the checksum is its remainder modulo the divisor, reflected. -/
def Crc32cEngine (engine : BitVec 32 → List (BitVec 8) → BitVec 32) : Prop :=
  ∀ init data, IsRemainder CRC32C_POLYNOMIAL init (data.flatMap bitsOf) (engine init data).reverse

section Paths

theorem foldl_crc32qi (sum : BitVec 32) (data : List (BitVec 8)) :
    data.foldl crc32qi sum =
      checksum CRC32C_POLYNOMIAL.reverse 8 sum (data.map (BitVec.setWidth 32)) := by
  rw [checksum, List.foldl_map]
  rfl

/-- **The instruction for eight bytes is eight of those for one.** -/
theorem crc32di_loadWord (sum : BitVec 32) {bytes : List (BitVec 8)} (hlen : bytes.length = 8) :
    (crc32di (sum.setWidth 64) (loadWord bytes)).setWidth 32 = bytes.foldl crc32qi sum := by
  have hwide : bytes.map (BitVec.setWidth 64) =
      (bytes.map (BitVec.setWidth 32)).map (BitVec.setWidth 64) := by
    rw [List.map_map]
    refine List.map_congr_left fun b _ => ?_
    exact (BitVec.setWidth_setWidth (by decide)).symm
  have hbytes : ∀ d ∈ bytes.map (BitVec.setWidth 64), d.toNat < 2 ^ 8 := by
    intro d hd
    obtain ⟨b, -, rfl⟩ := List.mem_map.mp hd
    rw [BitVec.toNat_setWidth_of_le (by decide)]
    exact b.isLt
  have hword := checksum_word (CRC32C_POLYNOMIAL.reverse.setWidth 64) hbytes
    (by rw [List.length_map, hlen]) (sum.setWidth 64)
  rw [List.length_map, hlen] at hword
  rw [crc32di, loadWord, ← hword, hwide, ← setWidth_checksum _ (by decide), foldl_crc32qi,
    BitVec.setWidth_setWidth (by decide), BitVec.setWidth_eq]

theorem crc32cBlocks_eq (sum : BitVec 32) (data : List (BitVec 8)) :
    crc32cBlocks sum data = data.foldl crc32qi sum := by
  fun_induction crc32cBlocks sum data with
  | case1 sum b0 b1 b2 b3 b4 b5 b6 b7 rest ih =>
    rw [ih, crc32di_loadWord sum rfl, ← List.foldl_append]
    rfl
  | case2 sum rest => rfl

/-- Wherever the data lies. -/
theorem crc32cHw_eq (mask : ℕ) (data : List (BitVec 8)) (start : BitVec 32) :
    crc32cHw mask data start = data.foldl crc32qi start := by
  rw [crc32cHw, crc32cBlocks_eq, ← List.foldl_append, List.take_append_drop]

/-! ### The other direction -/

/-- A byte as symbols of one bit. -/
def symbolsOf (byte : BitVec 8) : List (BitVec 32) :=
  (bitsOf byte).map fun bit => if bit then 1#32 else 0#32

theorem word_symbolsOf : ∀ byte : BitVec 8, word 1 (symbolsOf byte) = byte.setWidth 32 := by
  decide +kernel

/-- The instruction for a byte takes its bits one after another. -/
theorem checksum_symbolsOf (sum : BitVec 32) (byte : BitVec 8) :
    checksum CRC32C_POLYNOMIAL.reverse 1 sum (symbolsOf byte) = crc32qi sum byte := by
  have hbits : ∀ d ∈ symbolsOf byte, d.toNat < 2 ^ 1 := by
    intro d hd
    obtain ⟨bit, -, rfl⟩ := List.mem_map.mp hd
    cases bit <;> decide
  have hlen : (symbolsOf byte).length = 8 := by simp [symbolsOf, bitsOf]
  rw [checksum_word _ hbits (by rw [hlen]; decide), word_symbolsOf, hlen]
  rfl

theorem checksum_flatMap_bitsOf (sum : BitVec 32) (data : List (BitVec 8)) :
    checksum CRC32C_POLYNOMIAL.reverse 1 sum
        ((data.flatMap bitsOf).map fun bit => if bit then 1#32 else 0#32) =
      data.foldl crc32qi sum := by
  induction data generalizing sum with
  | nil => rfl
  | cons byte data ih =>
    rw [List.flatMap_cons, List.map_append, checksum_append, List.foldl_cons, ih, ← symbolsOf,
      checksum_symbolsOf]

/-- Where a bit comes from when groups of `k` bits change places with their neighbours. -/
def swapped (k i : ℕ) : ℕ := if i / k % 2 = 0 then k + i else i - k

/-- **A stage of the reversal.** -/
theorem getLsbD_swap (x : BitVec 32) {mask : BitVec 32} {k i : ℕ} (hk : 0 < k)
    (hmask : ∀ i < 32, mask.getLsbD i = decide (i / k % 2 = 0)) (hi : i < 32) :
    (((x >>> k) &&& mask) ||| ((x &&& mask) <<< k)).getLsbD i = x.getLsbD (swapped k i) := by
  rw [BitVec.getLsbD_or, BitVec.getLsbD_and, BitVec.getLsbD_ushiftRight, BitVec.getLsbD_shiftLeft,
    BitVec.getLsbD_and, hmask i hi, hmask (i - k) (by omega), decide_eq_true hi, swapped]
  rcases Nat.lt_or_ge i k with hlow | hhigh
  · have heven : i / k % 2 = 0 := by rw [Nat.div_eq_of_lt hlow]
    rw [if_pos heven, decide_eq_true heven, decide_eq_true hlow]
    simp
  · have hdiv : i / k = (i - k) / k + 1 := by
      rw [← Nat.add_div_right _ hk, Nat.sub_add_cancel hhigh]
    rw [decide_eq_false (Nat.not_lt.mpr hhigh)]
    rcases Nat.mod_two_eq_zero_or_one (i / k) with heven | hodd
    · have hother : ¬ (i - k) / k % 2 = 0 := by omega
      rw [if_pos heven, decide_eq_true heven, decide_eq_false hother]
      simp
    · have heven : ¬ i / k % 2 = 0 := by omega
      have hother : (i - k) / k % 2 = 0 := by omega
      rw [if_neg heven, decide_eq_false heven, decide_eq_true hother]
      simp

/-- The last stage needs no mask. -/
theorem getLsbD_halves (x : BitVec 32) {i : ℕ} (hi : i < 32) :
    ((x >>> 16) ||| (x <<< 16)).getLsbD i = x.getLsbD (swapped 16 i) := by
  rw [BitVec.getLsbD_or, BitVec.getLsbD_ushiftRight, BitVec.getLsbD_shiftLeft,
    decide_eq_true hi, swapped]
  rcases Nat.lt_or_ge i 16 with hlow | hhigh
  · rw [if_pos (by omega), decide_eq_true hlow]
    simp
  · rw [if_neg (by omega), decide_eq_false (Nat.not_lt.mpr hhigh),
      BitVec.getLsbD_of_ge x (16 + i) (by omega)]
    simp

theorem reverseBits_eq (x : BitVec 32) : reverseBits x = x.reverse := by
  have hback : ∀ i < 32, swapped 1 (swapped 2 (swapped 4 (swapped 8 (swapped 16 i)))) = 31 - i ∧
      swapped 16 i < 32 ∧ swapped 8 (swapped 16 i) < 32 ∧
      swapped 4 (swapped 8 (swapped 16 i)) < 32 ∧
      swapped 2 (swapped 4 (swapped 8 (swapped 16 i))) < 32 := by decide
  refine BitVec.eq_of_getLsbD_eq fun i hi => ?_
  obtain ⟨hall, h16, h8, h4, h2⟩ := hback i hi
  unfold reverseBits
  rw [getLsbD_halves _ hi,
    getLsbD_swap _ (by decide) (by decide) h16, getLsbD_swap _ (by decide) (by decide) h8,
    getLsbD_swap _ (by decide) (by decide) h4, getLsbD_swap _ (by decide) (by decide) h2, hall,
    BitVec.getLsbD_reverse, BitVec.getMsbD_eq_getLsbD, decide_eq_true hi, Bool.true_and]

/-- **The engine does what the instructions do**: both leave the one remainder. -/
theorem crc32cSw_eq {engine : BitVec 32 → List (BitVec 8) → BitVec 32}
    (hengine : Crc32cEngine engine) (data : List (BitVec 8)) (start : BitVec 32) :
    crc32cSw engine data start = data.foldl crc32qi start := by
  have hdivides : IsRemainder CRC32C_POLYNOMIAL start.reverse (data.flatMap bitsOf) _ :=
    isRemainder_checksum (by decide) (data.flatMap bitsOf) start
  rw [checksum_flatMap_bitsOf] at hdivides
  have hdocumented := hengine (reverseBits start) data
  rw [reverseBits_eq] at hdocumented
  have hreverse := congrArg BitVec.reverse (hdocumented.unique hdivides)
  rw [BitVec.reverse_reverse_eq, BitVec.reverse_reverse_eq] at hreverse
  rw [crc32cSw, reverseBits_eq, hreverse]

theorem crc32c_eq {engine : BitVec 32 → List (BitVec 8) → BitVec 32}
    (hengine : Crc32cEngine engine) (hwSupported : Bool) (mask : ℕ) (data : List (BitVec 8))
    (start : BitVec 32) :
    crc32c engine hwSupported mask data start = data.foldl crc32qi start := by
  unfold crc32c
  split_ifs
  · exact crc32cHw_eq mask data start
  · exact crc32cSw_eq hengine data start

end Paths

/-! ## `Board::hash` -/

/-- The squares of four rows, in the order of `positions_`. -/
def halfSquares (second : Bool) : List (Fin 8 × Fin 8) :=
  (if second then [4, 5, 6, 7] else [0, 1, 2, 3]).flatMap fun row =>
    (List.finRange 8).map fun col => (row, col)

/-- `halfSize` bytes from the start of `positions_`, or from its middle. -/
def halfBytes (second : Bool) (positions : Fin 8 → Fin 8 → PieceType) : List (BitVec 8) :=
  (halfSquares second).map fun sq => BitVec.ofNat 8 (positions sq.1 sq.2).value

/-- `hash_128_to_64`. -/
def hash128To64 (upper lower : BitVec 64) : BitVec 64 :=
  let kMul := 0x9ddfea08eb382d69#64
  let a := (lower ^^^ upper) * kMul
  let a := a ^^^ (a >>> 47)
  let b := (upper ^^^ a) * kMul
  let b := b ^^^ (b >>> 47)
  b * kMul

/-- The checksums of the two halves.  The second half lies 32 bytes after the first. -/
def checksums (engine : BitVec 32 → List (BitVec 8) → BitVec 32) (hwSupported : Bool) (mask : ℕ)
    (positions : Fin 8 → Fin 8 → PieceType) : BitVec 32 × BitVec 32 :=
  (crc32c engine hwSupported mask (halfBytes false positions) (BitVec.allOnes 32),
    crc32c engine hwSupported mask (halfBytes true positions) (BitVec.allOnes 32))

/-- `Board::hash`, with `stdHash` for `std::hash<uint32_t>`. -/
def boardHash (engine : BitVec 32 → List (BitVec 8) → BitVec 32) (stdHash : BitVec 32 → BitVec 64)
    (hwSupported : Bool) (mask : ℕ) (positions : Fin 8 → Fin 8 → PieceType) : BitVec 64 :=
  hash128To64 (stdHash (checksums engine hwSupported mask positions).1)
    (stdHash (checksums engine hwSupported mask positions).2)

section Keys
variable {engine engine' : BitVec 32 → List (BitVec 8) → BitVec 32}

theorem checksums_eq (hengine : Crc32cEngine engine) (hengine' : Crc32cEngine engine')
    (hwSupported hwSupported' : Bool) (mask mask' : ℕ) (positions : Fin 8 → Fin 8 → PieceType) :
    checksums engine hwSupported mask positions = checksums engine' hwSupported' mask' positions := by
  unfold checksums
  rw [crc32c_eq hengine, crc32c_eq hengine, crc32c_eq hengine', crc32c_eq hengine']

/-- **The key is that of the pieces on their squares**: it is the same on every processor,
with every engine that does what is documented, and wherever the board lies in memory. -/
theorem boardHash_eq (hengine : Crc32cEngine engine) (hengine' : Crc32cEngine engine')
    (stdHash : BitVec 32 → BitVec 64) (hwSupported hwSupported' : Bool) (mask mask' : ℕ)
    (positions : Fin 8 → Fin 8 → PieceType) :
    boardHash engine stdHash hwSupported mask positions =
      boardHash engine' stdHash hwSupported' mask' positions := by
  unfold boardHash
  rw [checksums_eq hengine hengine' hwSupported hwSupported' mask mask']

/-- An engine that takes the message bit by bit. -/
def bitwiseEngine (init : BitVec 32) (data : List (BitVec 8)) : BitVec 32 :=
  ((data.flatMap bitsOf).foldl (feedUp CRC32C_POLYNOMIAL) init).reverse

theorem bitwiseEngine_documented : Crc32cEngine bitwiseEngine := by
  intro init data
  rw [bitwiseEngine, BitVec.reverse_reverse_eq]
  exact isRemainder_foldl (by decide) _ init

/-- `std::hash` of a word as the usual libraries have it: the word. -/
def wordItself (x : BitVec 32) : BitVec 64 := x.setWidth 64

/-- One key from the instructions, four bytes past a multiple of eight, and the engine. -/
theorem boardHash_eq_castling_side :
    boardHash bitwiseEngine wordItself true 4 Board.castlingSide.positions =
      boardHash bitwiseEngine wordItself false 0 Board.castlingSide.positions :=
  boardHash_eq bitwiseEngine_documented bitwiseEngine_documented wordItself true false 4 0 _

end Keys
end Chess

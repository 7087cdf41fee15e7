import ChessMate.PackedLanes
import ChessMate.BoardHash

/-! # Which boards the key tells apart

A key has 64 bits and there are more boards than that, so boards with the same key exist.
What the search puts into the cache is made from one board by a few moves, though, and
boards that are close are told apart: boards with the same two checksums differ in five
squares or more of one half (`checksums_tell_apart`).

A byte of `positions_` has four bits, so a square is a symbol of four bits to the register
of the checksum.  Up to three such symbols never leave one of four bits behind within the
32 bytes of a half (`separates_nibbles`).  The register is linear, so this is a matter of
what single symbols leave behind: these are a few hundred words, and no three of different
ages add up to zero.  All sums of two are packed into one number for that, so that each
word is tested against all of them at once (`PackedRows`).

Mixing the two checksums into one word loses nothing as long as the first is the same.  So
boards with the same first half have different keys wherever their checksums differ.
-/
namespace Chess
open FeedbackRegister PackedLanes

/-! ## Four symbols -/

/-- What is left of a row of symbols after one byte, two bytes and so on, above the low
bits. -/
def trailRows (low : ℕ) : ℕ → List (BitVec 32) → List (List ℕ)
  | 0, _ => []
  | n + 1, row =>
    let next := row.map (steps CRC32C_POLYNOMIAL.reverse 8)
    next.map (fun c => c.toNat >>> low) :: trailRows low n next

/-- The symbols of four bits but zero. -/
def nibbles : List (BitVec 32) := (List.range 15).map fun x => BitVec.ofNat 32 (x + 1)

/-! ## Sums of words -/

/-- Zero, and the words of all rows. -/
def trailWords : List (List ℕ) → List ℕ
  | [] => [0]
  | row :: rows => row ++ trailWords rows

/-- The sums of up to two words of different rows. -/
def trailSums : List (List ℕ) → List ℕ
  | [] => [0]
  | row :: rows => (row.flatMap fun v => (trailWords rows).map (v ^^^ ·)) ++ trailSums rows

/-- No word is the sum of up to two words of the rows after its own. -/
def SumsFree : List (List ℕ) → Prop
  | [] => True
  | row :: rows => (∀ v ∈ row, ∀ s ∈ trailSums rows, v ^^^ s ≠ 0) ∧ SumsFree rows

/-- Words of different rows, in the order of the rows. -/
inductive Picks : List (List ℕ) → List ℕ → Prop
  | done (rows : List (List ℕ)) : Picks rows []
  | skip {row : List ℕ} {rows : List (List ℕ)} {ws : List ℕ} (h : Picks rows ws) :
      Picks (row :: rows) ws
  | take {row : List ℕ} {rows : List (List ℕ)} {v : ℕ} {ws : List ℕ} (hv : v ∈ row)
      (h : Picks rows ws) : Picks (row :: rows) (v :: ws)

section Sums
variable {rows : List (List ℕ)} {ws : List ℕ}

theorem zero_mem_trailWords (rows : List (List ℕ)) : 0 ∈ trailWords rows := by
  induction rows with
  | nil => exact List.mem_singleton_self 0
  | cons row rows ih => exact List.mem_append_right _ ih

theorem zero_mem_trailSums (rows : List (List ℕ)) : 0 ∈ trailSums rows := by
  induction rows with
  | nil => exact List.mem_singleton_self 0
  | cons row rows ih => exact List.mem_append_right _ ih

theorem Picks.mem_words (h : Picks rows ws) (hlen : ws.length ≤ 1) :
    ws.foldr (· ^^^ ·) 0 ∈ trailWords rows := by
  induction h with
  | done rows => exact zero_mem_trailWords rows
  | skip h ih => exact List.mem_append_right _ (ih hlen)
  | @take row rows v ws hv h ih =>
    obtain rfl : ws = [] := List.length_eq_zero_iff.mp (by simpa using hlen)
    rw [List.foldr_cons, List.foldr_nil, Nat.xor_zero]
    exact List.mem_append_left _ hv

theorem Picks.mem_sums (h : Picks rows ws) (hlen : ws.length ≤ 2) :
    ws.foldr (· ^^^ ·) 0 ∈ trailSums rows := by
  induction h with
  | done rows => exact zero_mem_trailSums rows
  | skip h ih => exact List.mem_append_right _ (ih hlen)
  | take hv h ih =>
    have hrest := h.mem_words (Nat.le_of_succ_le_succ hlen)
    exact List.mem_append_left _ (List.mem_flatMap.mpr ⟨_, hv, List.mem_map_of_mem hrest⟩)

/-- **Up to three words do not add up to zero.** -/
theorem Picks.ne_zero (h : Picks rows ws) (hfree : SumsFree rows) (hne : ws ≠ [])
    (hlen : ws.length ≤ 3) : ws.foldr (· ^^^ ·) 0 ≠ 0 := by
  induction h with
  | done rows => exact absurd rfl hne
  | skip h ih => exact ih hfree.2 hne hlen
  | take hv h ih => exact hfree.1 _ hv _ (h.mem_sums (Nat.le_of_succ_le_succ hlen))

end Sums

/-! ## The sums in lanes -/

/-- The words of a row in front of others. -/
def rowWords (w : ℕ) (x : Lanes) : List ℕ → Lanes
  | [] => x
  | v :: row => (Lanes.single v).append w (rowWords w x row)

/-- The sums of a word of the row and a word of others. -/
def rowSums (w : ℕ) (x : Lanes) : List ℕ → Lanes
  | [] => ⟨0, 0⟩
  | v :: row => (x.xorAll w v).append w (rowSums w x row)

/-- Rows in lanes: whether they are free of sums, the words and the sums. -/
structure PackedRows where
  free : Bool
  words : Lanes
  sums : Lanes

namespace PackedRows

def cons (w : ℕ) (row : List ℕ) (x : PackedRows) : PackedRows where
  free := x.free && row.all fun v => (x.sums.xorAll w v).clear w
  words := rowWords w x.words row
  sums := (rowSums w x.words row).append w x.sums

def ofRows (w : ℕ) : List (List ℕ) → PackedRows
  | [] => ⟨true, Lanes.single 0, Lanes.single 0⟩
  | row :: rows => (ofRows w rows).cons w row

/-- The lanes are those of the rows. -/
structure Holds (w : ℕ) (x : PackedRows) (rows : List (List ℕ)) : Prop where
  free : x.free = true → SumsFree rows
  words : x.words.Holds w (trailWords rows)
  sums : x.sums.Holds w (trailSums rows)

theorem rowWords_holds {w : ℕ} {x : Lanes} {l row : List ℕ} (h : x.Holds w l)
    (hfits : ∀ v ∈ row, v < 2 ^ w) : (rowWords w x row).Holds w (row ++ l) := by
  induction row with
  | nil => exact h
  | cons v row ih =>
    exact (Lanes.Holds.single (hfits v List.mem_cons_self)).append
      (ih fun u hu => hfits u (List.mem_cons_of_mem v hu))

theorem rowSums_holds {w : ℕ} {x : Lanes} {l row : List ℕ} (h : x.Holds w l)
    (hfits : ∀ v ∈ row, v < 2 ^ w) :
    (rowSums w x row).Holds w (row.flatMap fun v => l.map (v ^^^ ·)) := by
  induction row with
  | nil => exact Lanes.Holds.empty w
  | cons v row ih =>
    exact (h.xorAll (hfits v List.mem_cons_self)).append
      (ih fun u hu => hfits u (List.mem_cons_of_mem v hu))

theorem Holds.cons {w : ℕ} {x : PackedRows} {rows : List (List ℕ)} {row : List ℕ}
    (h : x.Holds w rows) (hfits : ∀ v ∈ row, v < 2 ^ w) : (x.cons w row).Holds w (row :: rows) where
  free hfree := by
    obtain ⟨hrest, hrow⟩ := Bool.and_eq_true_iff.mp hfree
    refine ⟨fun v hv s hs => ?_, h.free hrest⟩
    have hclear := List.all_eq_true.mp hrow v hv
    exact (h.sums.xorAll (hfits v hv)).ne_zero hclear _ (List.mem_map_of_mem hs)
  words := rowWords_holds h.words hfits
  sums := (rowSums_holds h.words hfits).append h.sums

theorem holds_ofRows {w : ℕ} {rows : List (List ℕ)} (hfits : ∀ row ∈ rows, ∀ v ∈ row, v < 2 ^ w) :
    (ofRows w rows).Holds w rows := by
  induction rows with
  | nil =>
    have hzero := Lanes.Holds.single (Nat.two_pow_pos w)
    exact ⟨fun _ => trivial, hzero, hzero⟩
  | cons row rows ih =>
    exact (ih fun row' hrow' => hfits row' (List.mem_cons_of_mem row hrow')).cons
      (hfits row List.mem_cons_self)

end PackedRows

/-! ## Words of the register -/

section Rows

/-- What a symbol leaves behind, above the low bits. -/
def trailWord (low : ℕ) (p : ℕ × BitVec 32) : ℕ :=
  (steps CRC32C_POLYNOMIAL.reverse (8 * p.1) p.2).toNat >>> low

theorem toNat_leftBehind (low : ℕ) (l : List (ℕ × BitVec 32)) :
    (leftBehind CRC32C_POLYNOMIAL.reverse 8 l).toNat >>> low =
      (l.map (trailWord low)).foldr (· ^^^ ·) 0 := by
  induction l with
  | nil => exact Nat.zero_shiftRight low
  | cons p l ih =>
    rw [leftBehind_cons, List.map_cons, List.foldr_cons, BitVec.toNat_xor,
      Nat.shiftRight_xor_distrib, ih]
    rfl

theorem lt_of_mem_trailRows {low w : ℕ} (hlow : low + w = 32) {n : ℕ} {start : List (BitVec 32)} :
    ∀ row ∈ trailRows low n start, ∀ v ∈ row, v < 2 ^ w := by
  induction n generalizing start with
  | zero => exact fun row hrow => by cases hrow
  | succ n ih =>
    intro row hrow v hv
    rcases List.mem_cons.mp hrow with rfl | hrow
    · obtain ⟨c, -, rfl⟩ := List.mem_map.mp hv
      rw [Nat.shiftRight_eq_div_pow]
      refine Nat.div_lt_of_lt_mul ?_
      rw [← Nat.pow_add, hlow]
      exact c.isLt
    · exact ih row hrow v hv

theorem mem_nibbles {x : BitVec 32} (hx : x.toNat < 16) (hne : x ≠ 0#32) : x ∈ nibbles := by
  have hpos : x.toNat ≠ 0 := fun h => hne (BitVec.eq_of_toNat_eq h)
  refine List.mem_map.mpr ⟨x.toNat - 1, List.mem_range.mpr (by omega), ?_⟩
  rw [Nat.sub_add_cancel (by omega), BitVec.ofNat_toNat, BitVec.setWidth_eq]

/-- Symbols of four bits and of growing ages leave words of the rows behind. -/
theorem picks_trailRows (low : ℕ) {n k : ℕ} {l : List (ℕ × BitVec 32)}
    (hages : l.Pairwise fun p q => p.1 < q.1)
    (hl : ∀ p ∈ l, k < p.1 ∧ p.1 ≤ k + n ∧ p.2 ∈ nibbles) :
    Picks (trailRows low n (nibbles.map (steps CRC32C_POLYNOMIAL.reverse (8 * k))))
      (l.map (trailWord low)) := by
  -- on the rows, each of which is one byte older than the row before
  induction n generalizing k l with
  | zero =>
    cases l with
    | nil => exact .done _
    | cons p l =>
      obtain ⟨h1, h2, -⟩ := hl p List.mem_cons_self
      omega
  | succ n ih =>
    have hnext : (nibbles.map (steps CRC32C_POLYNOMIAL.reverse (8 * k))).map
        (steps CRC32C_POLYNOMIAL.reverse 8) =
        nibbles.map (steps CRC32C_POLYNOMIAL.reverse (8 * (k + 1))) := by
      rw [List.map_map]
      refine List.map_congr_left fun x _ => ?_
      rw [Function.comp_apply, ← steps_add, Nat.mul_succ, Nat.add_comm]
    rw [trailRows, hnext]
    cases l with
    | nil => exact .done _
    | cons p l =>
      obtain ⟨hlater, hages'⟩ := List.pairwise_cons.mp hages
      obtain ⟨h1, h2, hmem⟩ := hl p List.mem_cons_self
      by_cases hp : p.1 = k + 1
      · refine .take ?_ (ih hages' fun q hq => ?_)
        · refine List.mem_map.mpr ⟨_, List.mem_map_of_mem hmem, ?_⟩
          rw [trailWord, hp]
        · obtain ⟨-, h4, hq'⟩ := hl q (List.mem_cons_of_mem p hq)
          exact ⟨hp ▸ hlater q hq, by omega, hq'⟩
      · refine .skip (ih hages fun q hq => ?_)
        obtain ⟨h3, h4, hq'⟩ := hl q hq
        refine ⟨?_, by omega, hq'⟩
        rcases List.mem_cons.mp hq with rfl | hq
        · omega
        · have := hlater q hq
          omega

/-- The symbols of a trail leave words of the rows behind. -/
theorem picks_symbols (low : ℕ) {n : ℕ} {l : List (ℕ × BitVec 32)}
    (hages : l.Pairwise fun p q => p.1 < q.1)
    (hl : ∀ p ∈ l, 1 ≤ p.1 ∧ p.1 ≤ n ∧ p.2.toNat < 16 ∧ p.2 ≠ 0#32) :
    Picks (trailRows low n nibbles) (l.map (trailWord low)) := by
  have hpicks := picks_trailRows low (k := 0) hages fun p hp => by
    obtain ⟨h1, h2, h3, h4⟩ := hl p hp
    exact ⟨h1, (Nat.zero_add n).symm ▸ h2, mem_nibbles h3 h4⟩
  have hstart : nibbles.map (steps CRC32C_POLYNOMIAL.reverse (8 * 0)) = nibbles := List.map_id _
  rwa [hstart] at hpicks

/-- The sums of three symbols, tested. -/
theorem free_nibbles : (PackedRows.ofRows 28 (trailRows 4 31 nibbles)).free = true := by
  decide +kernel

/-- **Up to three symbols of four bits never leave one behind.** -/
theorem separates_nibbles :
    Separates CRC32C_POLYNOMIAL.reverse 8 (fun c => c.toNat < 16) 4 31 := by
  intro r a c htrail hr ha hc
  have hpos := htrail.pos
  obtain ⟨l, hl, rfl⟩ := htrail.exists_symbols
  have hlen := hl.length_eq
  have hpicks := picks_symbols 4 hl.ages fun p hp => by
    obtain ⟨h1, h2, h3⟩ := hl.symbol p hp
    exact ⟨h1, h2.trans ha, h3⟩
  have hfree := (PackedRows.holds_ofRows (lt_of_mem_trailRows rfl)).free free_nibbles
  refine hpicks.ne_zero hfree (fun hnil => ?_) ?_ ?_
  · rw [List.map_eq_nil_iff] at hnil
    rw [← hlen, hnil] at hpos
    exact absurd hpos (by decide)
  · rw [List.length_map]
    omega
  · rw [← toNat_leftBehind, Nat.shiftRight_eq_div_pow]
    exact Nat.div_eq_of_lt hc

/-- Nothing but more than two symbols leaves the word behind. -/
def farFromTwo (v : ℕ) : Bool :=
  ((PackedRows.ofRows 32 (trailRows 0 32 nibbles)).sums.xorAll 32 v).clear 32

theorem checksum_ne_of_farFromTwo {c : BitVec 32} (hfar : farFromTwo c.toNat = true)
    {data : List (BitVec 32)} (hlen : data.length ≤ 32) (hdata : ∀ d ∈ data, d.toNat < 16)
    (hcount : data.countP (· ≠ 0#32) ≤ 2) :
    checksum CRC32C_POLYNOMIAL.reverse 8 0#32 data ≠ c := by
  rintro rfl
  have hfits : ∀ row ∈ trailRows 0 32 nibbles, ∀ v ∈ row, v < 2 ^ 32 := lt_of_mem_trailRows rfl
  have hsums := (PackedRows.holds_ofRows hfits).sums
  have hnot := (hsums.xorAll (checksum CRC32C_POLYNOMIAL.reverse 8 0#32 data).isLt).ne_zero hfar
  rcases trail_of_checksum (S := fun c : BitVec 32 => c.toNat < 16) hdata with
    ⟨-, hzero⟩ | ⟨a, ha, htrail⟩
  · refine hnot _ (List.mem_map_of_mem (zero_mem_trailSums _)) ?_
    rw [hzero]
    rfl
  · obtain ⟨l, hl, heq⟩ := htrail.exists_symbols
    have hpicks := picks_symbols 0 hl.ages fun p hp => by
      obtain ⟨h1, h2, h3⟩ := hl.symbol p hp
      exact ⟨h1, h2.trans (ha.trans hlen), h3⟩
    have hshort : (l.map (trailWord 0)).length ≤ 2 := by
      rw [List.length_map]
      exact hl.length_eq.trans_le hcount
    refine hnot _ (List.mem_map_of_mem (hpicks.mem_sums hshort)) ?_
    rw [← toNat_leftBehind, ← heq, Nat.shiftRight_zero, Nat.xor_self]

end Rows

/-! ## Halves of a board -/

/-- The squares of a half on which two boards differ. -/
def differences (second : Bool) (p q : Fin 8 → Fin 8 → PieceType) : List (Fin 8 × Fin 8) :=
  (halfSquares second).filter fun sq => p sq.1 sq.2 ≠ q sq.1 sq.2

/-- The symbol of a square. -/
def PieceType.symbol (type : PieceType) : BitVec 32 := (BitVec.ofNat 8 type.value).setWidth 32

section Halves
variable {p q : Fin 8 → Fin 8 → PieceType}

theorem PieceType.symbol_xor (type type' : PieceType) :
    (type.symbol ^^^ type'.symbol).toNat < 16 ∧
      (type.symbol ^^^ type'.symbol ≠ 0#32 ↔ type ≠ type') := by
  cases type <;> cases type' <;> decide

theorem halfBytes_symbols (second : Bool) (p : Fin 8 → Fin 8 → PieceType) :
    (halfBytes second p).map (BitVec.setWidth 32) =
      (halfSquares second).map fun sq => (p sq.1 sq.2).symbol := by
  rw [halfBytes, List.map_map]
  rfl

/-- The symbols of a half in which two boards differ. -/
def differenceSymbols (second : Bool) (p q : Fin 8 → Fin 8 → PieceType) : List (BitVec 32) :=
  (halfSquares second).map fun sq => (p sq.1 sq.2).symbol ^^^ (q sq.1 sq.2).symbol

theorem differenceSymbols_eq (second : Bool) (p q : Fin 8 → Fin 8 → PieceType) :
    differenceSymbols second p q = List.zipWith (· ^^^ ·)
      ((halfBytes second p).map (BitVec.setWidth 32))
      ((halfBytes second q).map (BitVec.setWidth 32)) := by
  rw [halfBytes_symbols, halfBytes_symbols, List.zipWith_map, List.zipWith_self]
  rfl

theorem length_halfSquares (second : Bool) : (halfSquares second).length = 32 := by
  cases second <;> decide

theorem toNat_differenceSymbols {second : Bool} :
    ∀ d ∈ differenceSymbols second p q, d.toNat < 16 := by
  intro d hd
  obtain ⟨sq, -, rfl⟩ := List.mem_map.mp hd
  exact (PieceType.symbol_xor _ _).1

theorem countP_differenceSymbols (second : Bool) (p q : Fin 8 → Fin 8 → PieceType) :
    (differenceSymbols second p q).countP (· ≠ 0#32) = (differences second p q).length := by
  rw [differenceSymbols, List.countP_map, differences, ← List.countP_eq_length_filter]
  refine List.countP_congr fun sq _ => ?_
  rw [Function.comp_apply, decide_eq_true_eq, decide_eq_true_eq]
  exact (PieceType.symbol_xor _ _).2

/-- **A checksum tells apart halves that differ in up to four squares.** -/
theorem crc32c_inj {engine : BitVec 32 → List (BitVec 8) → BitVec 32}
    (hengine : Crc32cEngine engine) {hwSupported : Bool} {mask : ℕ} {second : Bool}
    {start : BitVec 32} (hfew : (differences second p q).length ≤ 4)
    (h : crc32c engine hwSupported mask (halfBytes second p) start =
      crc32c engine hwSupported mask (halfBytes second q) start) :
    differences second p q = [] := by
  rw [crc32c_eq hengine, crc32c_eq hengine, foldl_crc32qi, foldl_crc32qi] at h
  have hlen : ∀ p : Fin 8 → Fin 8 → PieceType,
      ((halfBytes second p).map (BitVec.setWidth 32)).length = 32 := by
    intro p
    rw [halfBytes_symbols, List.length_map, length_halfSquares]
  have hpoly : CRC32C_POLYNOMIAL.reverse.msb = true := by decide +kernel
  have heq := checksum_inj hpoly separates_nibbles ((hlen p).trans (hlen q).symm) (hlen p).le
    (differenceSymbols_eq second p q ▸ toNat_differenceSymbols)
    (differenceSymbols_eq second p q ▸ (countP_differenceSymbols second p q).trans_le hfew) h
  rw [halfBytes_symbols, halfBytes_symbols] at heq
  refine List.filter_eq_nil_iff.mpr fun sq hsq => ?_
  have hsymbol := List.map_inj_left.mp heq sq hsq
  rw [decide_eq_true_eq, ← (PieceType.symbol_xor _ _).2, hsymbol, BitVec.xor_self]
  exact fun hne => hne rfl

/-- The register of a difference is the difference of the registers. -/
theorem checksum_differenceSymbols (start : BitVec 32) (second : Bool)
    (p q : Fin 8 → Fin 8 → PieceType) :
    checksum CRC32C_POLYNOMIAL.reverse 8 0#32 (differenceSymbols second p q) =
      (halfBytes second p).foldl crc32qi start ^^^ (halfBytes second q).foldl crc32qi start := by
  have hlen : ((halfBytes second p).map (BitVec.setWidth 32)).length =
      ((halfBytes second q).map (BitVec.setWidth 32)).length := by
    rw [halfBytes_symbols, halfBytes_symbols, List.length_map, List.length_map]
  have hxor := checksum_xor CRC32C_POLYNOMIAL.reverse hlen (n := 8) (s := start) (t := start)
  rw [BitVec.xor_self, ← differenceSymbols_eq, ← foldl_crc32qi, ← foldl_crc32qi] at hxor
  exact hxor

theorem mem_halfSquares (row col : Fin 8) :
    (row, col) ∈ halfSquares false ∨ (row, col) ∈ halfSquares true := by
  revert row col
  decide

theorem eq_of_differences (hfirst : differences false p q = []) (hsecond : differences true p q = []) :
    p = q := by
  funext row col
  by_contra hne
  rcases mem_halfSquares row col with hsq | hsq
  · have hmem : (row, col) ∈ differences false p q := List.mem_filter.mpr ⟨hsq, by simpa using hne⟩
    rw [hfirst] at hmem
    cases hmem
  · have hmem : (row, col) ∈ differences true p q := List.mem_filter.mpr ⟨hsq, by simpa using hne⟩
    rw [hsecond] at hmem
    cases hmem

/-! ## Keys -/

theorem xorShift_injective {x y : BitVec 64} (h : x ^^^ x >>> 47 = y ^^^ y >>> 47) : x = y := by
  -- what they differ in is its own shift, so it is nothing after two
  have hself : x ^^^ y = (x ^^^ y) >>> 47 := by
    rw [← BitVec.xor_eq_zero_iff] at h
    rw [← BitVec.xor_eq_zero_iff, BitVec.ushiftRight_xor_distrib, ← h]
    ac_rfl
  have hzero : x ^^^ y = 0#64 := by
    rw [hself, hself, ← BitVec.shiftRight_add]
    exact BitVec.ushiftRight_eq_zero (by decide)
  exact BitVec.xor_eq_zero_iff.mp hzero

theorem mul_kMul_injective {x y : BitVec 64}
    (h : x * 0x9ddfea08eb382d69#64 = y * 0x9ddfea08eb382d69#64) : x = y := by
  have hinv : 0x9ddfea08eb382d69#64 * 15877131476434367193#64 = 1#64 := by decide
  rw [← BitVec.mul_one x, ← BitVec.mul_one y, ← hinv, ← BitVec.mul_assoc, h, BitVec.mul_assoc]

/-- **The mixing loses nothing of the second word**, given the first. -/
theorem hash128To64_injective (upper : BitVec 64) : Function.Injective (hash128To64 upper) := by
  intro lower lower' h
  have hb := mul_kMul_injective (xorShift_injective (mul_kMul_injective h))
  have ha := (BitVec.xor_right_inj upper).mp hb
  exact (BitVec.xor_left_inj upper).mp (mul_kMul_injective (xorShift_injective ha))

variable {engine : BitVec 32 → List (BitVec 8) → BitVec 32} {hwSupported : Bool} {mask : ℕ}

theorem eq_of_checksums_eq (hengine : Crc32cEngine engine)
    (hfew : ∀ second, (differences second p q).length ≤ 4)
    (h : checksums engine hwSupported mask p = checksums engine hwSupported mask q) : p = q := by
  obtain ⟨hfirst, hsecond⟩ := Prod.mk.inj h
  exact eq_of_differences (crc32c_inj hengine (hfew false) hfirst)
    (crc32c_inj hengine (hfew true) hsecond)

theorem fst_of_differences (hfirst : differences false p q = []) :
    (checksums engine hwSupported mask p).1 = (checksums engine hwSupported mask q).1 := by
  have hbytes : halfBytes false p = halfBytes false q := by
    refine List.map_congr_left fun sq hsq => ?_
    have hsame := List.filter_eq_nil_iff.mp hfirst sq hsq
    rw [of_not_not (mt decide_eq_true hsame)]
  unfold checksums
  rw [hbytes]

theorem snd_of_boardHash_eq (hfirst : differences false p q = [])
    {stdHash : BitVec 32 → BitVec 64} (hinj : Function.Injective stdHash)
    (h : boardHash engine stdHash hwSupported mask p = boardHash engine stdHash hwSupported mask q) :
    (checksums engine hwSupported mask p).2 = (checksums engine hwSupported mask q).2 := by
  rw [boardHash, boardHash, fst_of_differences hfirst] at h
  exact hinj (hash128To64_injective _ h)

theorem eq_of_boardHash_eq (hengine : Crc32cEngine engine)
    (hfew : ∀ second, (differences second p q).length ≤ 4)
    (hfirst : differences false p q = []) {stdHash : BitVec 32 → BitVec 64}
    (hinj : Function.Injective stdHash)
    (h : boardHash engine stdHash hwSupported mask p = boardHash engine stdHash hwSupported mask q) : p = q :=
  eq_of_checksums_eq hengine hfew
    (Prod.ext (fst_of_differences hfirst) (snd_of_boardHash_eq hfirst hinj h))

/-- **Which boards are told apart**: boards that differ in up to four squares of each half
have different checksums, and different keys if it is the second half only. -/
theorem checksums_tell_apart (hengine : Crc32cEngine engine) (hwSupported : Bool) (mask : ℕ)
    (hfew : ∀ second, (differences second p q).length ≤ 4) :
    (checksums engine hwSupported mask p = checksums engine hwSupported mask q ↔ p = q) ∧
      (differences false p q = [] → ∀ stdHash : BitVec 32 → BitVec 64,
        Function.Injective stdHash →
          (boardHash engine stdHash hwSupported mask p = boardHash engine stdHash hwSupported mask q ↔ p = q)) := by
  refine ⟨⟨eq_of_checksums_eq hengine hfew, ?_⟩, fun hfirst stdHash hinj => ⟨?_, ?_⟩⟩
  · rintro rfl
    rfl
  · exact eq_of_boardHash_eq hengine hfew hfirst hinj
  · rintro rfl
    rfl

end Halves

theorem wordItself_injective : Function.Injective wordItself := by
  intro x y h
  have hback := congrArg (BitVec.setWidth 32) h
  rwa [wordItself, wordItself, BitVec.setWidth_setWidth (by decide),
    BitVec.setWidth_setWidth (by decide), BitVec.setWidth_eq, BitVec.setWidth_eq] at hback

/-- A rook on the seventh row, and on the eighth. -/
theorem checksums_tell_apart_rook :
    boardHash bitwiseEngine wordItself true 4 (Board.ofText "ka1\nra7\nKh2\n").positions ≠
      boardHash bitwiseEngine wordItself true 4 (Board.ofText "ka1\nra8\nKh2\n").positions := by
  have hfew : ∀ second, (differences second (Board.ofText "ka1\nra7\nKh2\n").positions
      (Board.ofText "ka1\nra8\nKh2\n").positions).length ≤ 4 := by
    intro second
    cases second <;> decide +kernel
  intro h
  have heq := ((checksums_tell_apart bitwiseEngine_documented true 4 hfew).2 (by decide +kernel) wordItself
    wordItself_injective).mp h
  have hrook : (Board.ofText "ka1\nra7\nKh2\n").positions 6 0 = .wRook := by decide +kernel
  have hgone : (Board.ofText "ka1\nra8\nKh2\n").positions 6 0 = .empty := by decide +kernel
  rw [heq, hgone] at hrook
  cases hrook

end Chess

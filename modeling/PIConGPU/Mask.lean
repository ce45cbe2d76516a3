import PIConGPU.RowMajor

/-!
# Data spaces, exchange directions and direction masks

Directions between supercells and between devices are numbers in base three:
digit `0` keeps a coordinate, digit `1` moves up and digit `2` moves down. A `Mask`
is a set of such directions, stored as the bits of one unsigned number.
-/
namespace PIConGPU

abbrev DataSpace (D : ℕ) := Fin D → ℤ

def RIGHT : ℕ := 1
def LEFT : ℕ := 2
def BOTTOM : ℕ := 3
def TOP : ℕ := 6
def BACK : ℕ := 9
def FRONT : ℕ := 18

/-- One more than the largest direction: 3, 9 and 27 in one, two and three dimensions. -/
def numberOfExchanges (D : ℕ) : ℕ := 3^D

/-- The offset in `{-1,0,1}` that a base-three digit of a direction stands for. -/
def digitOffset (digit : ℕ) : ℤ := if digit = 2 then -1 else digit

def getRelativeDirections (D direction : ℕ) : DataSpace D :=
  fun d => digitOffset (direction / 3^(d : ℕ) % 3)

theorem digitOffset_injOn {a b : ℕ} (ha : a < 3) (hb : b < 3) (h : digitOffset a = digitOffset b) : a = b := by
  unfold digitOffset at h
  split at h <;> split at h <;> omega

theorem mod_eq_of_getRelativeDirections_eq {D a b : ℕ}
    (h : getRelativeDirections D a = getRelativeDirections D b) : a % 3^D = b % 3^D := by
  have hdigit : ∀ n ≤ D, a % 3^n = b % 3^n := by
    intro n hn
    induction n with
    | zero => simp [Nat.mod_one]
    | succ n ih =>
      have hd := congrFun h ⟨n, hn⟩
      simp only [getRelativeDirections] at hd
      rw [Nat.mod_pow_succ, Nat.mod_pow_succ, ih (by omega),
        digitOffset_injOn (Nat.mod_lt _ (by norm_num)) (Nat.mod_lt _ (by norm_num)) hd]
  exact hdigit D le_rfl

theorem getRelativeDirections_injOn {D a b : ℕ} (ha : a < 3^D) (hb : b < 3^D)
    (h : getRelativeDirections D a = getRelativeDirections D b) : a = b := by
  have hmod := mod_eq_of_getRelativeDirections_eq h
  rwa [Nat.mod_eq_of_lt ha, Nat.mod_eq_of_lt hb] at hmod

theorem getRelativeDirections_cases (D direction : ℕ) (d : Fin D) :
    getRelativeDirections D direction d = -1 ∨ getRelativeDirections D direction d = 0 ∨
      getRelativeDirections D direction d = 1 := by
  have hlt : direction / 3^d.val % 3 < 3 := Nat.mod_lt _ (by norm_num)
  simp only [getRelativeDirections, digitOffset]
  split <;> omega

@[simp] theorem getRelativeDirections_zero (D : ℕ) : getRelativeDirections D 0 = 0 := by
  funext d
  simp [getRelativeDirections, digitOffset]

theorem exists_getRelativeDirections {D : ℕ} {r : DataSpace D} (hr : ∀ d, r d = -1 ∨ r d = 0 ∨ r d = 1) :
    ∃ i < 3^D, getRelativeDirections D i = r := by
  have hlt : ∀ d, (if r d = -1 then 2 else (r d).toNat) < 3 := fun d => by
    have := hr d
    split_ifs <;> omega
  obtain ⟨i, hi, hdigit⟩ := RowMajor.exists_digits fun d => ⟨if r d = -1 then 2 else (r d).toNat, hlt d⟩
  refine ⟨i, hi, funext fun d => ?_⟩
  have := hr d
  simp only [getRelativeDirections, hdigit d, digitOffset]
  split_ifs <;> omega

structure Mask where
  bitMask : ℕ
  deriving DecidableEq, Repr

namespace Mask

def empty : Mask := ⟨0⟩

def ofExchange (ex : ℕ) : Mask := ⟨1 <<< ex⟩

def add (m n : Mask) : Mask := ⟨m.bitMask ||| n.bitMask⟩

def isSet (m : Mask) (ex : ℕ) : Bool := m.bitMask &&& (1 <<< ex) != 0

/-- The inner loop of `containsExchangeType`: strip base-three digits until only the
leading digit of `ex` is left, then compare that digit. -/
def sameDigit (tmp ex : ℕ) : Bool :=
  if 3 ≤ ex then sameDigit (tmp / 3) (ex / 3) else tmp % 3 == ex
termination_by ex
decreasing_by omega

def containsExchangeType (m : Mask) (ex : ℕ) : Bool :=
  (List.range' 1 26).any fun i => m.isSet i && sameDigit i ex

/-- The opposite direction; directions outside the three-dimensional range throw. -/
def getMirroredExchangeType (ex : ℕ) : Except String ℕ :=
  if numberOfExchanges 3 ≤ ex then .error "parameter exceeds allowed maximum"
  else
    let mask := ofExchange ex
    .ok ((if mask.containsExchangeType RIGHT then LEFT else 0) +
      (if mask.containsExchangeType LEFT then RIGHT else 0) +
      (if mask.containsExchangeType BOTTOM then TOP else 0) +
      (if mask.containsExchangeType TOP then BOTTOM else 0) +
      (if mask.containsExchangeType FRONT then BACK else 0) +
      (if mask.containsExchangeType BACK then FRONT else 0))

theorem isSet_eq_testBit (m : Mask) (ex : ℕ) : m.isSet ex = m.bitMask.testBit ex := by
  rw [isSet, Nat.one_shiftLeft, Nat.and_two_pow]
  cases m.bitMask.testBit ex <;> simp

@[simp] theorem isSet_empty (ex : ℕ) : empty.isSet ex = false := by
  simp [isSet_eq_testBit, empty]

@[simp] theorem isSet_ofExchange (ex i : ℕ) : (ofExchange ex).isSet i = decide (ex = i) := by
  simp [isSet_eq_testBit, ofExchange, Nat.one_shiftLeft, Nat.testBit_two_pow]

@[simp] theorem isSet_add (m n : Mask) (ex : ℕ) :
    (m.add n).isSet ex = (m.isSet ex || n.isSet ex) := by
  simp [isSet_eq_testBit, add]

theorem ofExchange_contains {i : ℕ} (hi : 1 ≤ i) (hi' : i < 27) (ex : ℕ) :
    (ofExchange i).containsExchangeType ex = sameDigit i ex := by
  rw [Bool.eq_iff_iff]
  simp only [containsExchangeType, isSet_ofExchange, List.any_eq_true, List.mem_range'_1,
    Bool.and_eq_true, decide_eq_true_eq]
  constructor
  · rintro ⟨j, _, rfl, h⟩
    exact h
  · intro h
    exact ⟨i, by omega, rfl, h⟩

theorem sameDigit_of_lt {ex : ℕ} (h : ex < 3) (i : ℕ) : sameDigit i ex = (i % 3 == ex) := by
  rw [sameDigit, if_neg (by omega)]

theorem sameDigit_of_le {ex : ℕ} (h : 3 ≤ ex) (i : ℕ) :
    sameDigit i ex = sameDigit (i / 3) (ex / 3) := by
  rw [sameDigit, if_pos h]

variable {i : ℕ}

theorem contains_right (hi : 1 ≤ i) (hi' : i < 27) :
    (ofExchange i).containsExchangeType RIGHT = (i % 3 == 1) := by
  rw [ofExchange_contains hi hi', RIGHT, sameDigit_of_lt (by omega)]

theorem contains_left (hi : 1 ≤ i) (hi' : i < 27) :
    (ofExchange i).containsExchangeType LEFT = (i % 3 == 2) := by
  rw [ofExchange_contains hi hi', LEFT, sameDigit_of_lt (by omega)]

theorem contains_bottom (hi : 1 ≤ i) (hi' : i < 27) :
    (ofExchange i).containsExchangeType BOTTOM = (i / 3 % 3 == 1) := by
  rw [ofExchange_contains hi hi', BOTTOM, sameDigit_of_le (by omega), sameDigit_of_lt (by omega)]

theorem contains_top (hi : 1 ≤ i) (hi' : i < 27) :
    (ofExchange i).containsExchangeType TOP = (i / 3 % 3 == 2) := by
  rw [ofExchange_contains hi hi', TOP, sameDigit_of_le (by omega), sameDigit_of_lt (by omega)]

theorem contains_back (hi : 1 ≤ i) (hi' : i < 27) :
    (ofExchange i).containsExchangeType BACK = (i / 9 % 3 == 1) := by
  rw [ofExchange_contains hi hi', BACK, sameDigit_of_le (by omega), sameDigit_of_le (by omega),
    sameDigit_of_lt (by omega), Nat.div_div_eq_div_mul]

theorem contains_front (hi : 1 ≤ i) (hi' : i < 27) :
    (ofExchange i).containsExchangeType FRONT = (i / 9 % 3 == 2) := by
  rw [ofExchange_contains hi hi', FRONT, sameDigit_of_le (by omega), sameDigit_of_le (by omega),
    sameDigit_of_lt (by omega), Nat.div_div_eq_div_mul]

/-- Mirroring swaps the digits one and two in every position. -/
def swapDigit (digit : ℕ) : ℕ := if digit = 1 then 2 else if digit = 2 then 1 else 0

theorem swapDigit_lt (digit : ℕ) : swapDigit digit < 3 := by
  unfold swapDigit
  split_ifs <;> omega

theorem swapDigit_swapDigit {digit : ℕ} (h : digit < 3) : swapDigit (swapDigit digit) = digit := by
  interval_cases digit <;> rfl

theorem digitOffset_swapDigit {digit : ℕ} (h : digit < 3) :
    digitOffset (swapDigit digit) = -digitOffset digit := by
  interval_cases digit <;> rfl

/-- The mirrored direction, assembled from its base-three digits. -/
def mirrored (ex : ℕ) : ℕ :=
  swapDigit (ex % 3) + 3 * swapDigit (ex / 3 % 3) + 9 * swapDigit (ex / 9 % 3)

theorem getMirroredExchangeType_eq (hi : 1 ≤ i) (hi' : i < 27) :
    getMirroredExchangeType i = .ok (mirrored i) := by
  have hn : ¬ numberOfExchanges 3 ≤ i := by
    norm_num [numberOfExchanges]
    omega
  simp only [getMirroredExchangeType, if_neg hn, contains_right hi hi', contains_left hi hi',
    contains_bottom hi hi', contains_top hi hi', contains_back hi hi', contains_front hi hi',
    beq_iff_eq]
  simp only [RIGHT, LEFT, BOTTOM, TOP, BACK, FRONT, mirrored, swapDigit]
  congr 1
  split_ifs <;> omega

theorem mirrored_mod (ex : ℕ) : mirrored ex % 3 = swapDigit (ex % 3) := by
  have h0 := swapDigit_lt (ex % 3)
  simp only [mirrored]
  omega

theorem mirrored_div_three_mod (ex : ℕ) : mirrored ex / 3 % 3 = swapDigit (ex / 3 % 3) := by
  have h0 := swapDigit_lt (ex % 3)
  have h1 := swapDigit_lt (ex / 3 % 3)
  simp only [mirrored]
  omega

theorem mirrored_div_nine_mod (ex : ℕ) : mirrored ex / 9 % 3 = swapDigit (ex / 9 % 3) := by
  have h0 := swapDigit_lt (ex % 3)
  have h1 := swapDigit_lt (ex / 3 % 3)
  have h2 := swapDigit_lt (ex / 9 % 3)
  simp only [mirrored]
  omega

theorem mirrored_mirrored (hi : i < 27) : mirrored (mirrored i) = i := by
  conv_lhs => rw [mirrored]
  rw [mirrored_mod, mirrored_div_three_mod, mirrored_div_nine_mod,
    swapDigit_swapDigit (by omega), swapDigit_swapDigit (by omega), swapDigit_swapDigit (by omega)]
  omega

theorem swapDigit_pos {digit : ℕ} (h : digit < 3) (h0 : 0 < digit) : 0 < swapDigit digit := by
  interval_cases digit <;> decide

theorem mirrored_pos (hi : 1 ≤ i) (hi' : i < 27) : 1 ≤ mirrored i := by
  have h0 : 0 < i % 3 ∨ 0 < i / 3 % 3 ∨ 0 < i / 9 % 3 := by omega
  simp only [mirrored]
  rcases h0 with h | h | h <;> have := swapDigit_pos (Nat.mod_lt _ (by omega)) h <;> omega

theorem mirrored_lt {D : ℕ} (hD : D = 2 ∨ D = 3) (hi : i < numberOfExchanges D) :
    mirrored i < numberOfExchanges D := by
  have h0 := swapDigit_lt (i % 3)
  have h1 := swapDigit_lt (i / 3 % 3)
  have h2 := swapDigit_lt (i / 9 % 3)
  rcases hD with rfl | rfl
  · norm_num [numberOfExchanges] at hi ⊢
    have h9 : swapDigit (i / 9 % 3) = 0 := by
      rw [show i / 9 % 3 = 0 by omega]
      rfl
    simp only [mirrored, h9]
    omega
  · norm_num [numberOfExchanges]
    simp only [mirrored]
    omega

theorem mirrored_digit (ex : ℕ) {d : ℕ} (hd : d < 3) :
    mirrored ex / 3^d % 3 = swapDigit (ex / 3^d % 3) := by
  interval_cases d
  · simpa using mirrored_mod ex
  · simpa using mirrored_div_three_mod ex
  · simpa using mirrored_div_nine_mod ex

/-- The mirrored direction points back to where the direction came from. -/
theorem getRelativeDirections_mirrored {D : ℕ} (hD : D ≤ 3) (ex : ℕ) :
    getRelativeDirections D (mirrored ex) = -getRelativeDirections D ex := by
  funext d
  have hd : (d : ℕ) < 3 := lt_of_lt_of_le d.isLt hD
  rw [getRelativeDirections, mirrored_digit ex hd, digitOffset_swapDigit (Nat.mod_lt _ (by omega))]
  rfl

end Mask

end PIConGPU

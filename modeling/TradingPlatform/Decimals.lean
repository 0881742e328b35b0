import TradingPlatform.Text
import Mathlib.Algebra.Order.Floor.Ring
import Mathlib.Data.Rat.Floor
import Mathlib.Tactic.Linarith

/-! Rational numbers written with a fixed number of decimals and read back: what remains is the
number rounded to the nearest multiple, and a tie goes to the even one. -/
namespace TradingPlatform.Decimals

open Text

/-- Behind an integer and before the next one, which of the two a number is rounded to. -/
def RoundsUp (n : ℤ) (fraction : ℚ) : Prop := 1 / 2 < fraction ∨ fraction = 1 / 2 ∧ n % 2 ≠ 0

instance (n : ℤ) (fraction : ℚ) : Decidable (RoundsUp n fraction) := inferInstanceAs (Decidable (_ ∨ _))

/-- The nearest integer, and the even one of two. -/
def roundEven (q : ℚ) : ℤ := if RoundsUp ⌊q⌋ (q - ⌊q⌋) then ⌊q⌋ + 1 else ⌊q⌋

theorem RoundsUp.mono (up : RoundsUp n fraction) (le : fraction ≤ fraction') : RoundsUp n fraction' := by
  rcases up with high | ⟨tie,odd⟩
  · exact .inl (high.trans_le le)
  · rw [tie] at le
    rcases le.lt_or_eq with high | same
    · exact .inl high
    · exact .inr ⟨same.symm,odd⟩

theorem floor_le_roundEven (q : ℚ) : ⌊q⌋ ≤ roundEven q := by
  unfold roundEven
  split <;> omega

theorem roundEven_le_floor (q : ℚ) : roundEven q ≤ ⌊q⌋ + 1 := by
  unfold roundEven
  split <;> omega

theorem roundEven_mono {p q : ℚ} (le : p ≤ q) : roundEven p ≤ roundEven q := by
  rcases (Int.floor_le_floor le).lt_or_eq with less | same
  · have first := roundEven_le_floor p
    have second := floor_le_roundEven q
    omega
  · have further : p - ⌊p⌋ ≤ q - ⌊q⌋ := by
      rw [same]
      linarith
    by_cases up : RoundsUp ⌊p⌋ (p - ⌊p⌋)
    · have up' := up.mono further
      rw [same] at up'
      rw [roundEven,roundEven,if_pos up,if_pos up',same]
    · rw [roundEven,if_neg up,same]
      exact floor_le_roundEven q

theorem roundEven_zero : roundEven 0 = 0 := by
  simp [roundEven,RoundsUp]

theorem roundEven_nonneg {q : ℚ} (nonneg : 0 ≤ q) : 0 ≤ roundEven q := by
  rw [← roundEven_zero]
  exact roundEven_mono nonneg

theorem roundEven_nonpos {q : ℚ} (nonpos : q ≤ 0) : roundEven q ≤ 0 := by
  rw [← roundEven_zero]
  exact roundEven_mono nonpos

/-- The nearest number with so many decimals. -/
def rounded (places : Nat) (q : ℚ) : ℚ := roundEven (q * 10 ^ places) / 10 ^ places

theorem rounded_mono (places : Nat) {p q : ℚ} (le : p ≤ q) : rounded places p ≤ rounded places q := by
  have power : (0 : ℚ) < 10 ^ places := by positivity
  have scaled : p * 10 ^ places ≤ q * 10 ^ places := mul_le_mul_of_nonneg_right le power.le
  exact div_le_div_of_nonneg_right (by exact_mod_cast roundEven_mono scaled) power.le

def bytes (text : List Char) : Bytes := text.map fun c => c.toNat.toUInt8

def padded (places n : Nat) : List Char :=
  List.replicate (places - (Nat.toDigits 10 n).length) '0' ++ Nat.toDigits 10 n

/-- Go's `FormatFloat` with the format `f` and at least one decimal. -/
def formatFixed (places : Nat) (q : ℚ) : List Char :=
  let n := (roundEven (q * 10 ^ places)).natAbs
  (if q < 0 then ['-'] else []) ++ Nat.toDigits 10 (n / 10 ^ places) ++ '.' :: padded places (n % 10 ^ places)

def point : UInt8 := 46

def minus : UInt8 := 45

def magnitude (s : Bytes) : Option ℚ :=
  match cut point s with
  | none => (unsigned s).map fun n => (n : ℚ)
  | some (whole,fraction) => do
    let w ← unsigned whole
    let f ← unsigned fraction
    some (w + f / 10 ^ fraction.length)

/-- Go's `ParseFloat` on digits with a sign and a point. -/
def parseFixed (text : List Char) : Option ℚ :=
  let s := bytes text
  if s.head? = some minus then (magnitude s.tail).map fun q => -q else magnitude s

theorem bytes_digits (n : Nat) : bytes (Nat.toDigits 10 n) = decimal n := rfl

theorem bytes_append (s t : List Char) : bytes (s ++ t) = bytes s ++ bytes t := List.map_append

theorem unsigned_decimal (n : Nat) : unsigned (decimal n) = some n := by
  rw [unsigned,if_neg (decimal_ne_nil n),decimalValue_decimal]

theorem bytes_padded (places n : Nat) :
    bytes (padded places n) = List.replicate (places - (decimal n).length) 48 ++ decimal n := by
  have length : (Nat.toDigits 10 n).length = (decimal n).length := by simp [decimal]
  rw [padded,bytes_append,bytes_digits,length]
  simp [bytes]

theorem unsigned_padded (places n : Nat) : unsigned (bytes (padded places n)) = some n := by
  rw [bytes_padded,unsigned,if_neg (by simp [decimal_ne_nil]),decimalValue_zeros,decimalValue_decimal]

theorem bytes_padded_length (small : n < 10 ^ (k + 1)) : (bytes (padded (k + 1) n)).length = k + 1 := by
  have within := decimal_length_le small
  rw [bytes_padded,List.length_append,List.length_replicate]
  omega

theorem magnitude_fixed (k n : Nat) :
    magnitude (decimal (n / 10 ^ (k + 1)) ++ point :: bytes (padded (k + 1) (n % 10 ^ (k + 1)))) =
      some (n / 10 ^ (k + 1) : ℚ) := by
  have power : 0 < 10 ^ (k + 1) := Nat.pow_pos (by decide)
  have absent : point ∉ decimal (n / 10 ^ (k + 1)) := not_mem_decimal _ (by decide)
  have parts : (n : ℚ) = (n / 10 ^ (k + 1) : ℕ) * 10 ^ (k + 1) + (n % 10 ^ (k + 1) : ℕ) := by
    exact_mod_cast (Nat.div_add_mod' n (10 ^ (k + 1))).symm
  rw [magnitude,cut_first absent]
  simp only [unsigned_decimal,unsigned_padded,bytes_padded_length (Nat.mod_lt n power),Option.bind_eq_bind,
    Option.bind_some]
  congr 1
  rw [parts]
  field_simp

/-- Reading a number back leaves its rounding. -/
theorem parse_format (k : Nat) (q : ℚ) : parseFixed (formatFixed (k + 1) q) = some (rounded (k + 1) q) := by
  have power : (0 : ℚ) < 10 ^ (k + 1) := by positivity
  have text (n : Nat) : bytes (Nat.toDigits 10 (n / 10 ^ (k + 1)) ++ '.' :: padded (k + 1) (n % 10 ^ (k + 1))) =
      decimal (n / 10 ^ (k + 1)) ++ point :: bytes (padded (k + 1) (n % 10 ^ (k + 1))) := bytes_append _ _
  by_cases negative : q < 0
  · have down : roundEven (q * 10 ^ (k + 1)) ≤ 0 :=
      roundEven_nonpos (mul_nonpos_of_nonpos_of_nonneg negative.le power.le)
    have sign : ((roundEven (q * 10 ^ (k + 1))).natAbs : ℚ) = -roundEven (q * 10 ^ (k + 1)) := by
      rw [Nat.cast_natAbs,abs_of_nonpos down,Int.cast_neg]
    have split : bytes (formatFixed (k + 1) q) =
      minus :: (decimal ((roundEven (q * 10 ^ (k + 1))).natAbs / 10 ^ (k + 1)) ++
        point :: bytes (padded (k + 1) ((roundEven (q * 10 ^ (k + 1))).natAbs % 10 ^ (k + 1)))) := by
      rw [formatFixed,if_pos negative,List.append_assoc,bytes_append,text]
      rfl
    rw [parseFixed,split]
    simp only [List.head?_cons,if_true,List.tail_cons,magnitude_fixed,Option.map_some,sign,rounded,neg_div,neg_neg]
  · have up : 0 ≤ roundEven (q * 10 ^ (k + 1)) := roundEven_nonneg (mul_nonneg (not_lt.mp negative) power.le)
    have sign : ((roundEven (q * 10 ^ (k + 1))).natAbs : ℚ) = roundEven (q * 10 ^ (k + 1)) := by
      rw [Nat.cast_natAbs,abs_of_nonneg up]
    have split : bytes (formatFixed (k + 1) q) = decimal ((roundEven (q * 10 ^ (k + 1))).natAbs / 10 ^ (k + 1)) ++
        point :: bytes (padded (k + 1) ((roundEven (q * 10 ^ (k + 1))).natAbs % 10 ^ (k + 1))) := by
      rw [formatFixed,if_neg negative,List.nil_append,text]
    have unsignedHead (n : Nat) (rest : Bytes) : (decimal n ++ rest).head? ≠ some minus := by
      intro first
      rw [List.head?_append_of_ne_nil _ (decimal_ne_nil n)] at first
      exact not_mem_decimal n (by decide) (List.mem_of_mem_head? first)
    rw [parseFixed,split]
    simp only [unsignedHead,if_false,magnitude_fixed,sign,rounded]

end TradingPlatform.Decimals

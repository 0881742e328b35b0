import Mathlib.Algebra.Order.BigOperators.Group.List
import Mathlib.Algebra.Order.Ring.Nat

/-! Byte strings and the parts of Go's `bytes`, `strconv` and `fmt` that read and write
numbers in them. Slicing out of range is `none`. -/
namespace TradingPlatform.Text

abbrev Bytes := List UInt8

def ascii (s : String) : Bytes := s.toList.map fun c => c.toNat.toUInt8

def slash : UInt8 := 47

/-- `bytes.IndexByte`, with `none` for -1. -/
def indexByte (data : Bytes) (c : UInt8) : Option Nat := data.findIdx? (· == c)

def slice (data : Bytes) (start stop : Nat) : Option Bytes :=
  if start ≤ stop ∧ stop ≤ data.length then some ((data.take stop).drop start) else none

def digit (b : UInt8) : Option Nat := if 48 ≤ b ∧ b ≤ 57 then some (b.toNat - 48) else none

def decimalValue : Nat → Bytes → Option Nat
  | value, [] => some value
  | value, b :: bs => (digit b).bind fun d => decimalValue (10 * value + d) bs

/-- One or more decimal digits. -/
def unsigned (s : Bytes) : Option Nat := if s = [] then none else decimalValue 0 s

/-- `strconv.Atoi` for a 64-bit `int`; syntax and range errors are both `none`. -/
def atoi (s : Bytes) : Option Int :=
  match s with
  | 45 :: rest => (unsigned rest).bind fun n => if n ≤ 2^63 then some (-(n : Int)) else none
  | 43 :: rest => (unsigned rest).bind fun n => if n < 2^63 then some (n : Int) else none
  | s => (unsigned s).bind fun n => if n < 2^63 then some (n : Int) else none

def decimal (n : Nat) : Bytes := (Nat.toDigits 10 n).map fun c => c.toNat.toUInt8

/-- The verb `%d`. -/
def formatInt (i : Int) : Bytes := if i < 0 then 45 :: decimal i.natAbs else decimal i.natAbs

/-- The verb `%03d` for a number that is not negative. -/
def formatPadded (n : Nat) : Bytes := List.replicate (3 - (decimal n).length) 48 ++ decimal n

/-- The bytes around the first occurrence of a byte. -/
def cut (c : UInt8) : Bytes → Option (Bytes × Bytes)
  | [] => none
  | b :: bs => if b = c then some ([],bs) else (cut c bs).map fun (front,back) => (b :: front,back)

theorem cut_first (absent : c ∉ front) : cut c (front ++ c :: back) = some (front,back) := by
  induction front with
  | nil => simp [cut]
  | cons b front ih =>
    simp only [List.mem_cons,not_or] at absent
    have differ : b ≠ c := fun same => absent.1 same.symm
    simp [cut,differ,ih absent.2]

theorem cut_none (absent : c ∉ data) : cut c data = none := by
  induction data with
  | nil => rfl
  | cons b data ih =>
    simp only [List.mem_cons,not_or] at absent
    have differ : b ≠ c := fun same => absent.1 same.symm
    simp [cut,differ,ih absent.2]

theorem cut_length (found : cut c data = some (front,back)) : back.length < data.length := by
  induction data generalizing front with
  | nil => simp [cut] at found
  | cons b data ih =>
    simp only [cut] at found
    split at found
    · obtain ⟨rfl,rfl⟩ := Prod.mk.inj (Option.some.inj found)
      simp
    · obtain ⟨⟨front',back'⟩,rest,same⟩ := Option.map_eq_some_iff.mp found
      obtain ⟨_,rfl⟩ := Prod.mk.inj same
      exact Nat.lt_succ_of_lt (ih rest)

theorem slice_middle (front mid back : Bytes) :
    slice (front ++ (mid ++ back)) front.length (front.length + mid.length) = some mid := by
  simp only [slice,List.length_append]
  rw [if_pos (by omega),List.drop_take,List.drop_left,Nat.add_sub_cancel_left,List.take_left]

theorem slice_rest (front back : Bytes) :
    slice (front ++ back) front.length (front ++ back).length = some back := by
  have whole := slice_middle front back []
  rwa [List.append_nil,← List.length_append] at whole

theorem indexByte_none : indexByte data c = none ↔ c ∉ data := by
  simp only [indexByte,List.findIdx?_eq_none_iff,beq_eq_false_iff_ne]
  constructor
  · intro differ member
    exact differ c member rfl
  · rintro absent x member rfl
    exact absent member

theorem indexByte_first (absent : c ∉ front) (back : Bytes) : indexByte (front ++ c :: back) c = some front.length := by
  induction front with
  | nil => simp [indexByte,List.findIdx?_cons]
  | cons x front ih =>
    simp only [List.mem_cons,not_or] at absent
    have later := ih absent.2
    have differ : x ≠ c := fun same => absent.1 same.symm
    simp only [indexByte,List.cons_append,List.findIdx?_cons] at later ⊢
    simp [differ,later]

theorem digitChar_byte (small : d < 10) : digit (d.digitChar.toNat.toUInt8) = some d := by
  have cases : d = 0 ∨ d = 1 ∨ d = 2 ∨ d = 3 ∨ d = 4 ∨ d = 5 ∨ d = 6 ∨ d = 7 ∨ d = 8 ∨ d = 9 := by omega
  rcases cases with rfl | rfl | rfl | rfl | rfl | rfl | rfl | rfl | rfl | rfl <;> decide

theorem decimal_small (small : n < 10) : decimal n = [n.digitChar.toNat.toUInt8] := by
  simp [decimal,Nat.toDigits_of_lt_base small]

theorem decimal_step (positive : 0 < n) (small : d < 10) : decimal (10 * n + d) = decimal n ++ decimal d := by
  rw [decimal,← Nat.toDigits_append_toDigits (by decide) positive small,List.map_append]
  rfl

theorem decimalValue_append (first : decimalValue value xs = some middle) :
    decimalValue value (xs ++ ys) = decimalValue middle ys := by
  induction xs generalizing value with
  | nil =>
    obtain rfl := Option.some.inj first
    rfl
  | cons x xs ih =>
    simp only [decimalValue,Option.bind_eq_some_iff,List.cons_append] at first ⊢
    obtain ⟨d,known,rest⟩ := first
    simp [known,ih rest]

theorem decimalValue_decimal (n : Nat) : decimalValue 0 (decimal n) = some n := by
  induction n using Nat.strongRecOn with
  | ind n ih =>
    by_cases small : n < 10
    · simp [decimal_small small,decimalValue,digitChar_byte small]
    · have positive : 0 < n / 10 := by omega
      have last : n % 10 < 10 := by omega
      have parts : 10 * (n / 10) + n % 10 = n := by omega
      have first := ih (n / 10) (by omega)
      rw [← parts,decimal_step positive last,decimalValue_append first,decimal_small last]
      simp [decimalValue,digitChar_byte last]

theorem digit_of_mem_decimal (n : Nat) (member : b ∈ decimal n) : (digit b).isSome := by
  induction n using Nat.strongRecOn with
  | ind n ih =>
    by_cases small : n < 10
    · rw [decimal_small small,List.mem_singleton] at member
      simp [member,digitChar_byte small]
    · have parts : 10 * (n / 10) + n % 10 = n := by omega
      rw [← parts,decimal_step (by omega) (by omega),List.mem_append] at member
      rcases member with early | last
      · exact ih (n / 10) (by omega) early
      · exact ih (n % 10) (by omega) last

theorem decimal_ne_nil (n : Nat) : decimal n ≠ [] := by
  simp [decimal,Nat.toDigits_ne_nil]

theorem not_mem_decimal (n : Nat) (other : digit b = none) : b ∉ decimal n := by
  intro member
  have known := digit_of_mem_decimal n member
  simp [other] at known

/-- Numbers are read back as they were written. -/
theorem atoi_decimal (small : n < 2^63) : atoi (decimal n) = some (n : Int) := by
  have value : unsigned (decimal n) = some n := by
    rw [unsigned,if_neg (decimal_ne_nil n),decimalValue_decimal]
  have minus := not_mem_decimal n (b := 45) rfl
  have plus := not_mem_decimal n (b := 43) rfl
  obtain ⟨b,bs,shape⟩ := List.exists_cons_of_ne_nil (decimal_ne_nil n)
  rw [shape] at value minus plus ⊢
  simp only [List.mem_cons,not_or] at minus plus
  unfold atoi
  split
  · rename_i same
    exact absurd (List.cons.inj same).1.symm minus.1
  · rename_i same
    exact absurd (List.cons.inj same).1.symm plus.1
  · rw [value,Option.bind_some,if_pos small]

theorem digit_of_decimalValue (known : decimalValue value s = some n) (member : b ∈ s) : (digit b).isSome := by
  induction s generalizing value with
  | nil => simp at member
  | cons a s ih =>
    obtain ⟨d,first,rest⟩ := Option.bind_eq_some_iff.mp known
    rcases List.mem_cons.mp member with rfl | later
    · simp [first]
    · exact ih rest later

theorem digit_of_unsigned (known : unsigned s = some n) (member : b ∈ s) : (digit b).isSome := by
  unfold unsigned at known
  split at known
  · simp at known
  · exact digit_of_decimalValue known member

/-- A number that is accepted has digits only, after a sign. -/
theorem not_mem_atoi (known : atoi s = some i) (other : digit b = none) (minus : b ≠ 45) (plus : b ≠ 43) : b ∉ s := by
  intro member
  have absent (rest : Bytes) (n : Nat) (digits : unsigned rest = some n) : b ∉ rest := by
    intro inside
    have isDigit := digit_of_unsigned digits inside
    simp [other] at isDigit
  unfold atoi at known
  split at known
  · obtain ⟨n,digits,_⟩ := Option.bind_eq_some_iff.mp known
    rcases List.mem_cons.mp member with first | later
    · exact minus first
    · exact absent _ n digits later
  · obtain ⟨n,digits,_⟩ := Option.bind_eq_some_iff.mp known
    rcases List.mem_cons.mp member with first | later
    · exact plus first
    · exact absent _ n digits later
  · obtain ⟨n,digits,_⟩ := Option.bind_eq_some_iff.mp known
    exact absent _ n digits member

theorem decimal_length_le (small : n < 10 ^ (k + 1)) : (decimal n).length ≤ k + 1 := by
  induction k generalizing n with
  | zero => simp [decimal_small (show n < 10 by simpa using small)]
  | succ k ih =>
    by_cases digit : n < 10
    · simp [decimal_small digit]
    · have parts : 10 * (n / 10) + n % 10 = n := by omega
      have last : n % 10 < 10 := by omega
      have first := @ih (n / 10) (by rw [Nat.pow_succ] at small; omega)
      rw [← parts,decimal_step (by omega) last,List.length_append,decimal_small last]
      simpa using first

theorem decimalValue_zeros (k : Nat) (s : Bytes) : decimalValue 0 (List.replicate k 48 ++ s) = decimalValue 0 s := by
  induction k with
  | zero => rfl
  | succ k ih => exact ih

/-- Three digits hold every number below a thousand. -/
theorem formatPadded_digits (small : n < 1000) :
    (formatPadded n).length = 3 ∧ unsigned (formatPadded n) = some n := by
  have length := @decimal_length_le n 2 small
  refine ⟨?_,?_⟩
  · rw [formatPadded,List.length_append,List.length_replicate]
    omega
  · rw [unsigned,if_neg (by simp [formatPadded,decimal_ne_nil]),formatPadded,decimalValue_zeros,decimalValue_decimal]

end TradingPlatform.Text

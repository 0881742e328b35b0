import TradingPlatform.FixGrammar

/-! `GetInt` against exact conversion. Its loop accepts the empty value, and it does not notice
when the number leaves the range of a 64-bit `int`; apart from that it is exact. -/
namespace TradingPlatform.Fix

open Text

/-- The tag is there with one or more digits as its value, the number fits, and it is the result. -/
def ExactInt (m : Message) (tag : Int) : Prop :=
  (getInt m tag).isSome ∧ ∀ n : Int64, getInt m tag = some (.ok n) ↔
    ∃ value k, getField m tag = some (value,true) ∧ unsigned value = some k ∧ k < 2^63 ∧ n.toInt = k

/-- On digits, or on nothing, the result is that of `strconv.Atoi`. -/
def AtoiInt (m : Message) (tag : Int) : Prop :=
  ∀ value, getField m tag = some (value,true) → (∀ b ∈ value, (digit b).isSome) →
    ∀ n : Int64, getInt m tag = some (.ok n) ↔ atoi value = some n.toInt

/-- The value under the tag is empty, or digits whose number does not fit. -/
def Misread (m : Message) (tag : Int) : Prop :=
  ∃ value, getField m tag = some (value,true) ∧ (value = [] ∨ ∃ k, unsigned value = some k ∧ 2^63 ≤ k)

theorem digit_byte (b : UInt8) : digit b = if b < 48 ∨ 57 < b then none else some (b - 48).toNat := by
  unfold digit
  by_cases inside : 48 ≤ b ∧ b ≤ 57
  · have outside : ¬(b < 48 ∨ 57 < b) := by
      rintro (low | high)
      · exact absurd inside.1 (UInt8.not_le.mpr low)
      · exact absurd inside.2 (UInt8.not_le.mpr high)
    rw [if_pos inside,if_neg outside,UInt8.toNat_sub_of_le _ _ inside.1]
    rfl
  · have outside : b < 48 ∨ 57 < b := by
      by_contra both
      rw [not_or,UInt8.not_lt,UInt8.not_lt] at both
      exact inside both
    rw [if_neg inside,if_pos outside]

/-- The loop computes the number modulo `2^64`. -/
theorem digitsFrom_eq (value : Nat) (s : Bytes) :
    digitsFrom (Int64.ofNat value) s = match decimalValue value s with
      | none => .error "invalid integer value"
      | some k => .ok (Int64.ofNat k) := by
  induction s generalizing value with
  | nil => rfl
  | cons b s ih =>
    rw [digitsFrom,decimalValue,digit_byte]
    split
    · rfl
    · have step : Int64.ofNat value * 10 + Int64.ofNat (b - 48).toNat = Int64.ofNat (10 * value + (b - 48).toNat) := by
        rw [Int64.ofNat_add,Int64.ofNat_mul,Int64.mul_comm]
        rfl
      rw [step,ih,Option.bind_some]

theorem getInt_absent (absent : getField m tag = some (value,false)) : getInt m tag = some (.error "tag not found") := by
  simp [getInt,absent]

theorem getInt_empty (present : getField m tag = some ([],true)) : getInt m tag = some (.ok 0) := by
  simp [getInt,present,digitsFrom]

theorem getInt_present (present : getField m tag = some (value,true)) (some_ : value ≠ []) :
    getInt m tag = match unsigned value with
      | none => some (.error "invalid integer value")
      | some k => some (.ok (Int64.ofNat k)) := by
  have loop : digitsFrom 0 value = _ := digitsFrom_eq 0 value
  simp only [getInt,present,Option.map_some,if_true,loop,unsigned,if_neg some_]
  cases decimalValue 0 value <;> rfl

/-- A number is kept exactly when it fits. -/
theorem ofNat_exact (k : Nat) : (∀ n : Int64, Int64.ofNat k = n ↔ k < 2^63 ∧ n.toInt = k) ↔ k < 2^63 := by
  constructor
  · intro exact
    exact ((exact _).mp rfl).1
  · intro fits n
    rw [← Int64.toInt_inj,Int64.toInt_ofNat_of_lt fits,eq_comm]
    exact (and_iff_right fits).symm

theorem exactInt_iff (found : getField m tag = some (value,present)) : ExactInt m tag ↔ ¬Misread m tag := by
  cases present with
  | false => simp [ExactInt,Misread,getInt_absent found,found]
  | true =>
    by_cases empty : value = []
    · subst empty
      simp [ExactInt,Misread,found,getInt_empty found,unsigned]
    · have result := getInt_present found empty
      cases number : unsigned value with
      | none => simp [ExactInt,Misread,found,result,number,empty]
      | some k => simpa [ExactInt,Misread,found,result,number,empty] using ofNat_exact k

/-- Without a sign, `strconv.Atoi` reads digits. -/
theorem atoi_digits (digits : ∀ b ∈ value, (digit b).isSome) :
    atoi value = (unsigned value).bind fun n => if n < 2^63 then some (n : Int) else none := by
  unfold atoi
  split
  · exact absurd (digits 45 List.mem_cons_self) (by decide)
  · exact absurd (digits 43 List.mem_cons_self) (by decide)
  · rfl

theorem atoiInt_iff (found : getField m tag = some (value,present)) : AtoiInt m tag ↔ ¬Misread m tag := by
  cases present with
  | false => simp [AtoiInt,Misread,found]
  | true =>
    by_cases digits : ∀ b ∈ value, (digit b).isSome
    · by_cases empty : value = []
      · subst empty
        simp [AtoiInt,Misread,found,getInt_empty found,atoi,unsigned]
      · have result := getInt_present found empty
        have read := atoi_digits digits
        cases number : unsigned value with
        | none => simp [AtoiInt,Misread,found,result,read,number,empty]
        | some k =>
          simp only [number,Option.bind_some] at read result
          simpa [AtoiInt,Misread,found,result,read,number,empty,eq_comm (a := (k : Int))] using
            (imp_iff_right digits).trans (ofNat_exact k)
    · have empty : value ≠ [] := by
        rintro rfl
        exact digits (by simp)
      have unread : unsigned value = none := by
        by_contra known
        obtain ⟨k,read⟩ := Option.ne_none_iff_exists'.mp known
        exact digits fun b => digit_of_unsigned read
      simp [AtoiInt,Misread,found,unread,empty,digits]

/-- After any `Parse`, `GetInt` is exact for a tag, and agrees with `strconv.Atoi` on digits, unless the
value is empty or its number does not fit. -/
theorem getInt_exact_iff (m : Message) (data : Bytes) :
    ∃ err m', parse m data = some (err,m') ∧
      ∀ tag, (ExactInt m' tag ↔ ¬Misread m' tag) ∧ (AtoiInt m' tag ↔ ¬Misread m' tag) := by
  obtain ⟨err,m',result,_,_,safe⟩ := parse_within m data
  refine ⟨err,m',result,fun tag => ?_⟩
  obtain ⟨⟨value,present⟩,found⟩ := Option.isSome_iff_exists.mp (safe tag).1
  exact ⟨exactInt_iff found,atoiInt_iff found⟩

/-- An empty value is read as zero, and the first number that does not fit as the least one that does. -/
theorem getInt_misreads :
    (∃ m, parse newMessage (ascii "34=") = some (none,m) ∧ getInt m 34 = some (.ok 0) ∧ ¬ExactInt m 34 ∧ atoi [] = none) ∧
    ∃ m, parse newMessage (ascii "38=9223372036854775808") = some (none,m) ∧
      getInt m 38 = some (.ok (-9223372036854775808)) ∧ ¬ExactInt m 38 ∧ atoi (ascii "9223372036854775808") = none := by
  refine ⟨⟨⟨ascii "34=",[⟨34,3,3⟩]⟩,by decide,rfl,?_,by decide⟩,
    ⟨⟨ascii "38=9223372036854775808",[⟨38,3,22⟩]⟩,by decide,rfl,?_,by decide⟩⟩
  · have field : getField ⟨ascii "34=",[⟨34,3,3⟩]⟩ 34 = some ([],true) := by decide
    rw [exactInt_iff field,not_not]
    exact ⟨[],field,.inl rfl⟩
  · have field : getField ⟨ascii "38=9223372036854775808",[⟨38,3,22⟩]⟩ 38 =
      some (ascii "9223372036854775808",true) := by decide
    rw [exactInt_iff field,not_not]
    exact ⟨_,field,.inr ⟨9223372036854775808,by decide,Nat.le_refl _⟩⟩

end TradingPlatform.Fix

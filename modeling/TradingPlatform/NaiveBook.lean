import TradingPlatform.Calls
import Mathlib.Data.List.Dedup

/-! The book as a trader thinks of it: one list of resting orders in order of arrival, and
a scan of that list for each trade. This is a statement of purpose, not a translation. -/
namespace TradingPlatform.Orderbook

open Runs

structure Quote where
  id : GoString
  side : Side
  price : UInt64
  remaining : UInt64
  deriving DecidableEq, Repr

abbrev NaiveBook := List Quote

def faces (side : Side) (x : Quote) : Bool := decide (x.side = buy) != decide (side = buy)

/-- A buyer prefers the lower price, a seller the higher. -/
def better (side : Side) (p q : UInt64) : Bool := if side = buy then decide (p < q) else decide (q < p)

/-- The best order facing `side`, the earliest among equals, with what stands around it. -/
def pick (side : Side) : NaiveBook → Option (NaiveBook × Quote × NaiveBook)
  | [] => none
  | x :: xs =>
    match pick side xs with
    | none => if faces side x then some ([],x,xs) else none
    | some (front,y,back) =>
      if faces side x && !better side y.price x.price then some ([],x,xs) else some (x :: front,y,back)

def crosses (a : OrderArgs) (price : UInt64) : Bool :=
  decide (a.type ≠ limitOrder) ||
    (if a.side = buy then decide (price ≤ a.price) else decide (a.price ≤ price))

structure NaiveFill where
  trades : List Trade
  left : UInt64
  book : NaiveBook

/-- At most one trade for each resting order: a maker that survives ends the matching. -/
def tradeAll (a : OrderArgs) : Nat → UInt64 → NaiveBook → NaiveFill
  | 0, q, F => ⟨[],q,F⟩
  | n + 1, q, F =>
    if q = 0 then ⟨[],q,F⟩
    else
      match pick a.side F with
      | none => ⟨[],q,F⟩
      | some (front,x,back) =>
        if crosses a x.price then
          if x.remaining ≤ q then
            let rest := tradeAll a n (q - x.remaining) (front ++ back)
            ⟨⟨x.id,a.id,x.price,x.remaining⟩ :: rest.trades,rest.left,rest.book⟩
          else ⟨[⟨x.id,a.id,x.price,q⟩],0,front ++ { x with remaining := x.remaining - q } :: back⟩
        else ⟨[],q,F⟩

namespace NaiveBook

def place (F : NaiveBook) (a : OrderArgs) : List Trade × NaiveBook :=
  let f := tradeAll a F.length a.quantity F
  (f.trades,
    if f.left ≠ 0 ∧ a.type = limitOrder then f.book ++ [⟨a.id,a.side,a.price,f.left⟩] else f.book)

def cancel (F : NaiveBook) (id : GoString) : Bool × NaiveBook :=
  (F.any fun x => x.id = id,F.filter fun x => x.id ≠ id)

def call (F : NaiveBook) : Call → Reply × NaiveBook
  | .process a => (.trades (F.place a).1,(F.place a).2)
  | .cancel id => (.cancelled (F.cancel id).1,(F.cancel id).2)

/-- The orders of one side at one price, oldest first. -/
def standingAt (F : NaiveBook) (buying : Bool) (price : UInt64) : NaiveBook :=
  F.filter fun x => decide (x.side = buy) == buying && decide (x.price = price)

/-- The prices of one side, best first. -/
def prices (F : NaiveBook) (buying : Bool) : List UInt64 :=
  ((F.filter fun x => decide (x.side = buy) == buying).map Quote.price).dedup.mergeSort
    fun p q => if buying then decide (q ≤ p) else decide (p ≤ q)

def total (F : NaiveBook) : Nat := (F.map fun x => x.remaining.toNat).sum

/-- Volume by price, with exact sums. -/
def depth (F : NaiveBook) (buying : Bool) (depth : Nat) : List (UInt64 × Nat) :=
  ((F.prices buying).take depth).map fun p => (p,(F.standingAt buying p).total)

end NaiveBook

def naiveRun (calls : List Call) : Option (List Reply × NaiveBook) :=
  run (fun F c => some (NaiveBook.call F c)) calls []

theorem better_iff_precedes (side : Side) (p q : UInt64) :
    better side p q = precedes (!decide (side = buy)) p q := by
  by_cases buying : side = buy <;> simp [better,precedes,buying]

theorem pick_none (nothing : pick side F = none) : ∀ x ∈ F, faces side x = false := by
  induction F with
  | nil => simp
  | cons x xs ih =>
    simp only [pick] at nothing
    cases rest : pick side xs with
    | none =>
      rw [rest] at nothing
      intro y member
      rcases List.mem_cons.mp member with rfl | later
      · simpa using nothing
      · exact ih rest y later
    | some found =>
      rw [rest] at nothing
      simp only at nothing
      split at nothing <;> simp at nothing

/-- What the scan returns: orders before it that it could trade with are strictly worse. -/
theorem pick_some (found : pick side F = some (front,x,back)) :
    F = front ++ x :: back ∧ faces side x = true ∧
    (∀ y ∈ front, faces side y = true → better side x.price y.price = true) ∧
    ∀ y ∈ back, faces side y = true → better side y.price x.price = false := by
  simp only [better_iff_precedes]
  induction F generalizing front x back with
  | nil => simp [pick] at found
  | cons z xs ih =>
    simp only [pick] at found
    cases rest : pick side xs with
    | none =>
      rw [rest] at found
      simp only at found
      split at found
      · rename_i facing
        obtain ⟨rfl,rfl,rfl⟩ : [] = front ∧ z = x ∧ xs = back := by simpa using found
        refine ⟨rfl,facing,by simp,fun y member faced => ?_⟩
        rw [pick_none rest y member] at faced
        exact absurd faced (by simp)
      · simp at found
    | some best =>
      obtain ⟨front',b,back'⟩ := best
      rw [rest] at found
      simp only at found
      obtain ⟨split,facing,before,after⟩ := ih rest
      split at found
      · rename_i chosen
        obtain ⟨rfl,rfl,rfl⟩ : [] = front ∧ z = x ∧ xs = back := by simpa using found
        simp only [better_iff_precedes,Bool.and_eq_true,Bool.not_eq_true'] at chosen
        refine ⟨rfl,chosen.1,by simp,fun y member faced => ?_⟩
        rw [split,List.mem_append,List.mem_cons] at member
        rcases member with early | rfl | late
        · exact not_precedes_trans (precedes_asymm (before y early faced)) chosen.2
        · exact chosen.2
        · exact not_precedes_trans (after y late faced) chosen.2
      · rename_i passed
        obtain ⟨rfl,rfl,rfl⟩ : z :: front' = front ∧ b = x ∧ back' = back := by simpa using found
        refine ⟨by simp [split],facing,fun y member faced => ?_,after⟩
        rcases List.mem_cons.mp member with rfl | early
        · simpa [faced,better_iff_precedes] using passed
        · exact before y early faced

end TradingPlatform.Orderbook

import Mathlib.Logic.Function.Basic

/-! Binary search for the first index at which a predicate holds, as the Go
library's `sort.Search` performs it. Nothing is assumed of the predicate by the
algorithm; the split into a failing and a holding part needs it to be monotone. -/
namespace TradingPlatform.Search

/-- One halving per unit of fuel; an interval is never longer than its fuel. -/
def searchFrom (f : Nat → Bool) : Nat → Nat → Nat → Nat
  | 0, i, _ => i
  | fuel + 1, i, j =>
    if i < j then
      if f ((i + j) / 2) then searchFrom f fuel i ((i + j) / 2)
      else searchFrom f fuel ((i + j) / 2 + 1) j
    else i

def search (n : Nat) (f : Nat → Bool) : Nat := searchFrom f n 0 n

theorem searchFrom_congr (f g : Nat → Bool) (fuel i j : Nat)
    (same : ∀ k, k < j → f k = g k) : searchFrom f fuel i j = searchFrom g fuel i j := by
  induction fuel generalizing i j with
  | zero => rfl
  | succ fuel ih =>
    simp only [searchFrom]
    by_cases open_ : i < j
    · have middle : (i + j) / 2 < j := by omega
      simp only [open_,if_true,same _ middle]
      rw [ih i _ (fun k below => same k (by omega)),ih _ j same]
    · simp only [open_,if_false]

theorem search_congr (n : Nat) (f g : Nat → Bool) (same : ∀ k, k < n → f k = g k) :
    search n f = search n g := searchFrom_congr f g n 0 n same

def MonotoneBelow (n : Nat) (f : Nat → Bool) : Prop :=
  ∀ i j, i ≤ j → j < n → f i = true → f j = true

/-- The interval invariant: failures lie below the lower end, successes above the upper. -/
theorem searchFrom_spec (n : Nat) (f : Nat → Bool) (monotone : MonotoneBelow n f)
    (fuel i j : Nat) (ordered : i ≤ j) (bounded : j ≤ n) (enough : j - i ≤ fuel)
    (below : ∀ k, k < i → f k = false) (above : ∀ k, j ≤ k → k < n → f k = true) :
    searchFrom f fuel i j ≤ n ∧ (∀ k, k < searchFrom f fuel i j → f k = false) ∧
      ∀ k, searchFrom f fuel i j ≤ k → k < n → f k = true := by
  induction fuel generalizing i j with
  | zero =>
    have closed : i = j := by omega
    subst closed
    exact ⟨bounded,below,above⟩
  | succ fuel ih =>
    simp only [searchFrom]
    by_cases open_ : i < j
    · simp only [open_,if_true]
      cases holds : f ((i + j) / 2) with
      | true =>
        simp only [if_true]
        exact ih i _ (by omega) (by omega) (by omega) below
          (fun k high bound => monotone _ k high bound holds)
      | false =>
        simp only [Bool.false_eq_true,if_false]
        refine ih _ j (by omega) bounded (by omega) (fun k low => ?_) above
        cases value : f k with
        | false => rfl
        | true => exact (monotone k _ (by omega) (by omega) value).symm.trans holds
    · simp only [open_,if_false]
      have closed : i = j := by omega
      subst closed
      exact ⟨bounded,below,above⟩

theorem search_spec (n : Nat) (f : Nat → Bool) (monotone : MonotoneBelow n f) :
    search n f ≤ n ∧ (∀ k, k < search n f → f k = false) ∧
      ∀ k, search n f ≤ k → k < n → f k = true :=
  searchFrom_spec n f monotone n 0 n (Nat.zero_le _) (Nat.le_refl _) (Nat.le_refl _)
    (fun k low => absurd low (Nat.not_lt_zero k)) (fun k high bound => by omega)

/-- The predicate of a list search; it is only consulted inside the list. -/
def holdsAt (p : α → Bool) (xs : List α) (i : Nat) : Bool := (xs[i]?.map p).getD false

/-- Searching a list for the first element with `p`. -/
def searchList (p : α → Bool) (xs : List α) : Nat := search xs.length (holdsAt p xs)

theorem searchList_map (f : α → β) (p : β → Bool) (xs : List α) :
    searchList p (xs.map f) = searchList (fun x => p (f x)) xs := by
  simp only [searchList,List.length_map]
  apply search_congr
  intro k bound
  simp [holdsAt,List.getElem?_eq_getElem bound]

theorem searchList_congr (p q : α → Bool) (xs : List α) (same : ∀ x ∈ xs, p x = q x) :
    searchList p xs = searchList q xs := by
  apply search_congr
  intro k bound
  simp [holdsAt,List.getElem?_eq_getElem bound,same _ (List.getElem_mem bound)]

theorem holdsAt_front (p : α → Bool) (front back : List α) (fails : ∀ x ∈ front, p x = false)
    (k : Nat) (low : k < front.length) : holdsAt p (front ++ back) k = false := by
  simp only [holdsAt,List.getElem?_append_left low,List.getElem?_eq_getElem low]
  exact fails _ (List.getElem_mem low)

theorem holdsAt_back (p : α → Bool) (front back : List α) (holds : ∀ x ∈ back, p x = true)
    (k : Nat) (high : front.length ≤ k) (bound : k < (front ++ back).length) :
    holdsAt p (front ++ back) k = true := by
  have inside : k - front.length < back.length := by
    rw [List.length_append] at bound; omega
  simp only [holdsAt,List.getElem?_append_right high,List.getElem?_eq_getElem inside]
  exact holds _ (List.getElem_mem inside)

/-- On a list whose failing elements all precede its successes the search returns
the length of the failing part. -/
theorem searchList_append (p : α → Bool) (front back : List α)
    (fails : ∀ x ∈ front, p x = false) (holds : ∀ x ∈ back, p x = true) :
    searchList p (front ++ back) = front.length := by
  have monotone : MonotoneBelow (front ++ back).length (holdsAt p (front ++ back)) := by
    intro i j le bound success
    by_cases low : i < front.length
    · rw [holdsAt_front p front back fails i low] at success
      exact absurd success (by decide)
    · exact holdsAt_back p front back holds j (by omega) bound
  obtain ⟨bound,below,above⟩ := search_spec _ _ monotone
  change searchList p (front ++ back) ≤ _ at bound
  change ∀ k, k < searchList p (front ++ back) → _ at below
  change ∀ k, searchList p (front ++ back) ≤ k → _ at above
  rcases Nat.lt_trichotomy (searchList p (front ++ back)) front.length with lt | eq | gt
  · have success := above _ (Nat.le_refl _) (by rw [List.length_append]; omega)
    rw [holdsAt_front p front back fails _ lt] at success
    exact absurd success (by decide)
  · exact eq
  · have failure := below _ gt
    rw [holdsAt_back p front back holds front.length (Nat.le_refl _) (by omega)] at failure
    exact absurd failure (by decide)

end TradingPlatform.Search

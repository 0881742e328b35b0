import TradingPlatform.NaiveRuns

/-! What can be read off a book without knowing its ladder: the orders of a level, their
exact unfilled quantity, and how much of the other side an incoming order reaches. -/
namespace TradingPlatform.Orderbook

def walk (h : Heap) : Nat → Option OrderRef → List OrderRef
  | 0, _ => []
  | _ + 1, none => []
  | n + 1, some r => r :: walk h n (h.order r).next

/-- A queue cannot be longer than the number of orders ever built. -/
def queueRefs (h : Heap) (l : LimitRef) : List OrderRef := walk h h.orderCount (h.limit l).head

/-- The exact integer sum of `RemainingQty` over a level's queue. -/
def exactAt (h : Heap) (l : LimitRef) : Nat :=
  ((queueRefs h l).map fun r => (h.order r).remainingQty.toNat).sum

def OrderBook.opposite (ob : OrderBook) (side : Side) : List LimitRef := if side = buy then ob.asks else ob.bids

def OrderBook.own (ob : OrderBook) (side : Side) : List LimitRef := if side = buy then ob.bids else ob.asks

/-- The exact quantity resting at the levels an order may trade with. -/
def crossingVolume (ob : OrderBook) (a : OrderArgs) : Nat :=
  (((ob.opposite a.side).filter fun l => !stopsAt a.order (ob.heap.limit l).price).map (exactAt ob.heap)).sum

theorem walk_of_chain (chain : Chain h p xs) (enough : xs.length ≤ n) : walk h n p = xs := by
  induction xs generalizing p n with
  | nil =>
    have ends : p = none := chain
    cases n <;> simp [walk,ends]
  | cons x xs ih =>
    obtain ⟨rfl,rest⟩ := chain
    cases n with
    | zero => simp at enough
    | succ n => simp [walk,ih rest (by simpa using enough)]

theorem Sound.queueRefs (sound : Sound ob B) (member : L ∈ B.levels) :
    Orderbook.queueRefs ob.heap L.ref = L.refs :=
  walk_of_chain (sound.models.rep.level L member).queueOf
    (by simpa [Level.refs] using queue_length_le sound.models.rep L member)

theorem Sound.exactAt (sound : Sound ob B) (member : L ∈ B.levels) :
    Orderbook.exactAt ob.heap L.ref = exactVolume L.queue := by
  rw [Orderbook.exactAt,sound.queueRefs member,Level.refs,List.map_map,exactVolume]
  refine congrArg List.sum (List.map_congr_left fun e entry => ?_)
  simp [((sound.models.rep.level L member).entries e entry).remaining]

theorem Sound.own (sound : Sound ob B) (side : Side) : ob.own side = (B.own side).map Level.ref := by
  by_cases buying : side = buy
  · simp [OrderBook.own,Ladder.own,buying,sound.models.bids]
  · simp [OrderBook.own,Ladder.own,buying,sound.models.asks]

theorem Sound.opposite (sound : Sound ob B) (side : Side) :
    ob.opposite side = (B.opposite side).map Level.ref := by
  by_cases buying : side = buy
  · simp [OrderBook.opposite,Ladder.opposite,buying,sound.models.asks]
  · simp [OrderBook.opposite,Ladder.opposite,buying,sound.models.bids]

def Ladder.crossing (B : Ladder) (a : OrderArgs) : Nat :=
  (((B.opposite a.side).filter fun L => !stopsAt a.order L.price).map fun L => exactVolume L.queue).sum

theorem Sound.crossingVolume (sound : Sound ob B) (a : OrderArgs) :
    Orderbook.crossingVolume ob a = B.crossing a := by
  rw [Orderbook.crossingVolume,sound.opposite,Ladder.crossing,List.filter_map,List.map_map]
  have same : (B.opposite a.side).filter ((fun l => !stopsAt a.order (ob.heap.limit l).price) ∘ Level.ref) =
      (B.opposite a.side).filter fun L => !stopsAt a.order L.price :=
    List.filter_congr fun L member => by
      simp [(sound.models.rep.level L (Ladder.opposite_levels member)).price]
  rw [same]
  refine congrArg List.sum (List.map_congr_left fun L member => ?_)
  exact sound.exactAt (Ladder.opposite_levels (List.mem_of_mem_filter member))

/-- A level that stops an order is followed by levels that stop it. -/
theorem stopsAt_later {a : OrderArgs} (before : precedes (!decide (a.side = buy)) p p' = true)
    (stops : stopsAt a.order p = true) : stopsAt a.order p' = true := by
  have limit : a.type = limitOrder := by
    simp only [stopsAt,Bool.and_eq_true] at stops
    exact of_decide_eq_true stops.1
  by_cases buying : a.side = buy
  · simp only [precedes,buying,decide_true,Bool.not_true,Bool.false_eq_true,if_false,decide_eq_true_eq] at before
    have beyond : a.price < p := by
      simpa [stopsAt,OrderArgs.order,limit,buying,buy,sell] using stops
    have further : a.price < p' := by grind
    simp [stopsAt,OrderArgs.order,limit,buying,further]
  · simp only [precedes,buying,decide_false,Bool.not_false,if_true,decide_eq_true_eq] at before
    simp only [stopsAt,Bool.and_eq_true,Bool.or_eq_true,decide_eq_true_eq] at stops ⊢
    refine ⟨stops.1,?_⟩
    rcases stops.2 with ⟨bought,_⟩ | ⟨sold,beyond⟩
    · exact absurd bought buying
    · exact .inr ⟨sold,by grind⟩

section Reach

variable {a : OrderArgs} {levels : List Level}

theorem stopsAt_all (sorted : SortedBy (!decide (a.side = buy)) (L :: levels))
    (stops : stopsAt a.order L.price = true) : ∀ M ∈ L :: levels, stopsAt a.order M.price = true := by
  intro M member
  rcases List.mem_cons.mp member with rfl | later
  · exact stops
  · exact stopsAt_later ((List.pairwise_cons.mp sorted).1 M later) stops

/-- How much a sweep leaves: the quantity less everything it reaches. Wrapped volumes do not
matter, since a level that is dropped with orders in it was dropped by a spent taker. -/
theorem sweep_left_exact (sorted : SortedBy (!decide (a.side = buy)) levels) (q : UInt64) :
    (sweep (stopsAt a.order) q levels).left.toNat =
      q.toNat - ((levels.filter fun L => !stopsAt a.order L.price).map fun L => exactVolume L.queue).sum := by
  induction levels generalizing q with
  | nil => simp [sweep]
  | cons L levels ih =>
    by_cases zero : q = 0
    · simp [sweep,zero]
    by_cases stops : stopsAt a.order L.price = true
    · have none : (L :: levels).filter (fun L => !stopsAt a.order L.price) = [] :=
        List.filter_eq_nil_iff.mpr fun M member => by simp [stopsAt_all sorted stops M member]
      rw [none]
      simp [sweep,stops]
    · have first := fillQueue_left_exact L.price q L.queue
      have rest := ih (List.pairwise_cons.mp sorted).2
      simp only [sweep,zero,stops,false_or,Bool.false_eq_true,if_false]
      rw [List.filter_cons_of_pos (by simpa using stops),List.map_cons,List.sum_cons]
      split
      · simp only [rest,first]
        omega
      · rename_i holds
        have spent := fillQueue_left_of_volume L q holds
        simp only [spent,UInt64.toNat_zero] at first ⊢
        omega

/-- An order that outlives its sweep has emptied every level it reaches. -/
theorem sweep_makers_of_left (sorted : SortedBy (!decide (a.side = buy)) levels) (q : UInt64)
    (left : (sweep (stopsAt a.order) q levels).left ≠ 0) :
    (sweep (stopsAt a.order) q levels).makers = levels.filter fun L => stopsAt a.order L.price := by
  induction levels generalizing q with
  | nil => simp [sweep]
  | cons L levels ih =>
    by_cases zero : q = 0
    · simp [sweep,zero] at left
    by_cases stops : stopsAt a.order L.price = true
    · have all : (L :: levels).filter (fun L => stopsAt a.order L.price) = L :: levels :=
        List.filter_eq_self.mpr fun M member => stopsAt_all sorted stops M member
      rw [all]
      simp [sweep,stops]
    · simp only [sweep,zero,stops,false_or,Bool.false_eq_true,if_false] at left ⊢
      rw [List.filter_cons_of_neg (by simpa using stops)]
      split at left
      · rename_i drained
        simp only [drained,if_true]
        exact ih (List.pairwise_cons.mp sorted).2 _ left
      · rename_i holds
        exact absurd (fillQueue_left_of_volume L q holds) left

end Reach

theorem Ladder.Valid.left_exact (valid : Ladder.Valid B) (a : OrderArgs) :
    (B.sweepFor a).left.toNat = a.quantity.toNat - B.crossing a :=
  sweep_left_exact (valid.opposite_sorted a.side) a.quantity

/-- An order comes to rest exactly when it is a limit order larger than what it reaches. -/
theorem Ladder.Valid.rests_iff (valid : Ladder.Valid B) (a : OrderArgs) :
    B.rests a = true ↔ a.type = limitOrder ∧ B.crossing a < a.quantity.toNat := by
  have exact := valid.left_exact a
  have zero : (B.sweepFor a).left = 0 ↔ (B.sweepFor a).left.toNat = 0 := UInt64.toNat_inj.symm
  simp only [Ladder.rests,Bool.and_eq_true,decide_eq_true_eq,ne_eq,zero]
  constructor
  · rintro ⟨left,limit⟩
    exact ⟨limit,by omega⟩
  · rintro ⟨limit,below⟩
    exact ⟨by omega,limit⟩

theorem Ladder.Valid.makers_of_rests (valid : Ladder.Valid B) (rests : B.rests a = true) :
    (B.sweepFor a).makers = (B.opposite a.side).filter fun L => stopsAt a.order L.price := by
  simp only [Ladder.rests,Bool.and_eq_true,decide_eq_true_eq] at rests
  exact sweep_makers_of_left (valid.opposite_sorted a.side) a.quantity rests.1

end TradingPlatform.Orderbook

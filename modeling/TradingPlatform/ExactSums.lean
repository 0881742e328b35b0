import TradingPlatform.OrderIndex
import Mathlib.Algebra.Order.BigOperators.Group.List
import Mathlib.Algebra.Order.Group.Nat

/-! What rests at a price, and exact sums of it. While these fit one word, no level is dropped
with orders in it, whatever the side codes and IDs are. -/
namespace TradingPlatform.Orderbook

/-- The queue at a price, empty where there is no level. -/
def queueAt (levels : List Level) (price : UInt64) : List Resting :=
  (levels.filter fun L => L.price = price).flatMap Level.queue

theorem queueAt_cons (L : Level) (levels : List Level) (price : UInt64) :
    queueAt (L :: levels) price = (if L.price = price then L.queue else []) ++ queueAt levels price := by
  by_cases same : L.price = price <;> simp [queueAt,same]

theorem queueAt_absent (absent : ∀ L ∈ levels, L.price ≠ price) : queueAt levels price = [] := by
  have none : levels.filter (fun L => L.price = price) = [] :=
    List.filter_eq_nil_iff.mpr fun L member => by simpa using absent L member
  simp [queueAt,none]

theorem queueAt_mem (member : e ∈ queueAt levels price) : ∃ L ∈ levels, L.price = price ∧ e ∈ L.queue := by
  obtain ⟨L,level,queued⟩ := List.mem_flatMap.mp member
  obtain ⟨inside,same⟩ := List.mem_filter.mp level
  exact ⟨L,inside,by simpa using same,queued⟩

theorem queueAt_head (sorted : SortedBy d (L :: levels)) : queueAt (L :: levels) L.price = L.queue := by
  have absent : queueAt levels L.price = [] :=
    queueAt_absent fun M member => (precedes_ne ((List.pairwise_cons.mp sorted).1 M member)).symm
  simp [queueAt_cons,absent]

theorem queueAt_level (sorted : SortedBy d levels) (member : L ∈ levels) : queueAt levels L.price = L.queue := by
  induction levels with
  | nil => simp at member
  | cons M levels ih =>
    obtain ⟨first,rest⟩ := List.pairwise_cons.mp sorted
    rcases List.mem_cons.mp member with rfl | later
    · exact queueAt_head sorted
    · rw [queueAt_cons,if_neg (precedes_ne (first L later)),ih rest later,List.nil_append]

/-- Coming to rest is joining the end of the queue at one's own price. -/
theorem queueAt_settle (sorted : SortedBy d levels) (fresh : LimitRef) (e : Resting) (price : UInt64) :
    queueAt (settle d fresh e levels) price =
      queueAt levels price ++ if e.price = price then [e] else [] := by
  have later : ∀ back : List Level, (∀ M ∈ back, precedes d e.price M.price = true) →
      e.price = price → queueAt back price = [] := by
    rintro back after rfl
    exact queueAt_absent fun M member => (precedes_ne (after M member)).symm
  have append (xs ys : List Level) : queueAt (xs ++ ys) price = queueAt xs price ++ queueAt ys price := by
    simp [queueAt]
  rcases settle_cases d fresh e levels sorted with ⟨front,L,back,rfl,same,_,after,result⟩ |
    ⟨front,back,rfl,_,after,result⟩
  · rw [result,append,append,queueAt_cons,queueAt_cons]
    by_cases here : e.price = price
    · simp [same,here,later back after here]
    · simp [same,here]
  · rw [result,append,append,queueAt_cons]
    by_cases here : e.price = price
    · simp [here,later back after here]
    · simp [here]

theorem queueAt_strip (r : OrderRef) (levels : List Level) (price : UInt64) :
    queueAt (levels.map (Level.strip r)) price = (queueAt levels price).filter fun e => e.ref ≠ r := by
  induction levels with
  | nil => simp [queueAt]
  | cons L levels ih =>
    rw [List.map_cons,queueAt_cons,queueAt_cons,List.filter_append,ih]
    by_cases here : L.price = price <;> simp [here,Level.strip]

theorem Ladder.opposite_levels (member : L ∈ Ladder.opposite B side) : L ∈ B.levels := by
  simp only [Ladder.opposite] at member
  split at member <;> simp [Ladder.levels,member]

theorem Ladder.own_levels (member : L ∈ Ladder.own B side) : L ∈ B.levels := by
  simp only [Ladder.own] at member
  split at member <;> simp [Ladder.levels,member]

section Sums

def exactLevels (levels : List Level) : Nat := (levels.map fun L => exactVolume L.queue).sum

theorem exactVolume_le_levels (member : L ∈ levels) : exactVolume L.queue ≤ exactLevels levels :=
  List.single_le_sum (by simp) _ (List.mem_map_of_mem member)

/-- Filling moves quantity out of both the taker and the queue. -/
theorem fillQueue_exact (price q : UInt64) (es : List Resting) :
    exactVolume (fillQueue price q es).queue = exactVolume es - q.toNat := by
  fun_induction fillQueue price q es with
  | case1 => simp [exactVolume]
  | case2 => simp
  | case3 q e es some' covers rest ih =>
    have bound := UInt64.le_iff_toNat_le.mp covers
    simp only [rest,ih,UInt64.toNat_sub_of_le _ _ covers]
    simp only [exactVolume,List.map_cons,List.sum_cons]
    omega
  | case4 q e es some' within =>
    have below : q ≤ e.remaining := UInt64.le_of_lt (UInt64.not_le.mp within)
    have bound := UInt64.le_iff_toNat_le.mp below
    simp only [exactVolume,List.map_cons,List.sum_cons,UInt64.toNat_sub_of_le _ _ below]
    omega

/-- What a queue leaves of a quantity, without any bound on the sums. -/
theorem fillQueue_left_exact (price q : UInt64) (es : List Resting) :
    (fillQueue price q es).left.toNat = q.toNat - exactVolume es := by
  fun_induction fillQueue price q es with
  | case1 => simp [exactVolume]
  | case2 => simp
  | case3 q e es some' covers rest ih =>
    simp only [rest,ih,UInt64.toNat_sub_of_le _ _ covers]
    simp only [exactVolume,List.map_cons,List.sum_cons]
    omega
  | case4 q e es some' within =>
    have below : q.toNat < e.remaining.toNat := UInt64.lt_iff_toNat_lt.mp (UInt64.not_le.mp within)
    simp only [exactVolume,List.map_cons,List.sum_cons,UInt64.toNat_zero]
    omega

theorem sweep_exact_le (stops : UInt64 → Bool) (q : UInt64) (levels : List Level) :
    exactLevels (sweep stops q levels).makers + (sweep stops q levels).left.toNat ≤
      exactLevels levels + q.toNat := by
  induction levels generalizing q with
  | nil => simp [sweep,exactLevels]
  | cons L levels ih =>
    have left := fillQueue_left_exact L.price q L.queue
    have queue := fillQueue_exact L.price q L.queue
    have rest := ih (fillQueue L.price q L.queue).left
    simp only [sweep]
    split
    · simp
    · split
      · simp only [exactLevels,List.map_cons,List.sum_cons] at rest ⊢
        omega
      · simp only [exactLevels,List.map_cons,List.sum_cons]
        omega

/-- Without wrapping, a recorded volume of zero means an empty queue. -/
theorem volume_eq_zero_iff (L : Level) (exact : exactVolume L.queue < 2^64)
    (left : ∀ e ∈ L.queue, e.remaining ≠ 0) : L.volume = 0 ↔ L.queue = [] := by
  constructor
  · intro zero
    have sum : exactVolume L.queue = 0 := by
      have recorded := volume_toNat L
      rw [zero,Nat.mod_eq_of_lt exact] at recorded
      exact recorded.symm
    cases queue : L.queue with
    | nil => rfl
    | cons e es =>
      simp only [queue,exactVolume,List.map_cons,List.sum_cons,Nat.add_eq_zero_iff] at sum
      exact absurd (UInt64.toNat_inj.mp sum.1) (left e (by simp [queue]))
  · intro empty
    simp [Level.volume,empty]

/-- The same for a level that a taker has just been through. -/
theorem drained_iff (L : Level) (q : UInt64) (exact : exactVolume L.queue < 2^64)
    (left : ∀ e ∈ L.queue, e.remaining ≠ 0) :
    ({ L with queue := (fillQueue L.price q L.queue).queue } : Level).volume = 0 ↔
      (fillQueue L.price q L.queue).queue = [] := by
  apply volume_eq_zero_iff
  · rw [fillQueue_exact]
    omega
  · exact fillQueue_forall (fun e => e.remaining ≠ 0) L.price q L.queue (fun _ _ _ holds => holds) left

/-- Without wrapping, a sweep drops empty levels only. -/
theorem sweep_dropped_empty (stops : UInt64 → Bool) (q : UInt64) (levels : List Level)
    (exact : ∀ L ∈ levels, exactVolume L.queue < 2^64)
    (left : ∀ L ∈ levels, ∀ e ∈ L.queue, e.remaining ≠ 0) :
    ∀ D ∈ (sweep stops q levels).dropped, D.queue = [] := by
  induction levels generalizing q with
  | nil => simp [sweep]
  | cons L levels ih =>
    simp only [sweep]
    split
    · simp
    · split
      · rename_i drained
        intro D member
        rcases List.mem_cons.mp member with rfl | later
        · exact (drained_iff L q (exact L (by simp)) (left L (by simp))).mp drained
        · exact ih _ (fun M inside => exact M (List.mem_cons_of_mem _ inside))
            (fun M inside => left M (List.mem_cons_of_mem _ inside)) D later
      · simp

theorem settle_exact (sorted : SortedBy d levels) (fresh : LimitRef) (e : Resting) :
    exactLevels (settle d fresh e levels) = exactLevels levels + e.remaining.toNat := by
  rcases settle_cases d fresh e levels sorted with ⟨front,L,back,rfl,_,_,_,result⟩ | ⟨front,back,rfl,_,_,result⟩
  · rw [result]
    simp only [exactLevels,exactVolume,List.map_append,List.map_cons,List.map_nil,List.sum_append,
      List.sum_cons,List.sum_nil]
    omega
  · rw [result]
    simp only [exactLevels,exactVolume,List.map_append,List.map_cons,List.map_nil,List.sum_append,
      List.sum_cons,List.sum_nil]
    omega

end Sums

/-- A ladder whose levels fit one word each and none of which was dropped with orders in it. -/
structure Ladder.Tidy (B : Ladder) : Prop where
  exact : ∀ L ∈ B.bids ++ B.asks, exactVolume L.queue < 2^64
  detached : ∀ L ∈ B.detached, L.queue = []

/-- The exact quantity in the book and still to come fits one word, and no level was ever
dropped with orders in it. -/
structure Ladder.Roomy (B : Ladder) (coming : Nat) : Prop where
  fits : exactLevels (B.bids ++ B.asks) + coming < 2^64
  detached : ∀ L ∈ B.detached, L.queue = []

section Room

variable {B : Ladder} {a : OrderArgs}

theorem exactLevels_append (xs ys : List Level) : exactLevels (xs ++ ys) = exactLevels xs + exactLevels ys := by
  simp [exactLevels]

theorem exactLevels_sides (B : Ladder) (side : Side) :
    exactLevels (B.bids ++ B.asks) = exactLevels (B.own side) + exactLevels (B.opposite side) := by
  rw [exactLevels_append]
  by_cases buying : side = buy
  · simp [Ladder.own,Ladder.opposite,buying]
  · simp [Ladder.own,Ladder.opposite,buying,Nat.add_comm]

theorem exactLevels_place (B : Ladder) (a : OrderArgs) :
    exactLevels ((B.place a).2.bids ++ (B.place a).2.asks) =
      exactLevels (B.ownAfter a) + exactLevels (B.sweepFor a).makers := by
  rw [exactLevels_append]
  by_cases buying : a.side = buy
  · simp [Ladder.place,buying]
  · simp [Ladder.place,buying,Nat.add_comm]

theorem Ladder.Roomy.place (roomy : B.Roomy (a.quantity.toNat + coming)) (valid : B.Valid) :
    (B.place a).2.Roomy coming := by
  have sides := exactLevels_sides B a.side
  have fits := roomy.fits
  constructor
  · have swept : exactLevels (B.sweepFor a).makers + (B.sweepFor a).left.toNat ≤
        exactLevels (B.opposite a.side) + a.quantity.toNat := sweep_exact_le _ _ _
    have own : exactLevels (B.ownAfter a) ≤ exactLevels (B.own a.side) + (B.sweepFor a).left.toNat := by
      simp only [Ladder.ownAfter]
      split
      · exact (settle_exact (valid.own_sorted a.side) _ _).le
      · exact Nat.le_add_right _ _
    rw [exactLevels_place]
    omega
  · intro L member
    rcases List.mem_append.mp member with dropped | old
    · refine sweep_dropped_empty (stopsAt a.order) a.quantity (B.opposite a.side) (fun M inside => ?_)
        (fun M inside e queued => (valid.entries M (Ladder.opposite_levels inside) e queued).2) L dropped
      have part := exactVolume_le_levels inside
      omega
    · exact roomy.detached L old

theorem exactLevels_shrink (sub : levels'.Sublist (levels.map (Level.strip r))) :
    exactLevels levels' ≤ exactLevels levels := by
  have fewer : exactLevels levels' ≤ exactLevels (levels.map (Level.strip r)) :=
    (sub.map fun L : Level => exactVolume L.queue).sum_le_sum (by simp)
  refine fewer.trans ?_
  rw [exactLevels,exactLevels,List.map_map]
  refine List.sum_le_sum fun L _ => ?_
  exact ((strip_queue_sublist r L).map fun e : Resting => e.remaining.toNat).sum_le_sum (by simp)

theorem Ladder.Tidy.attached (tidy : B.Tidy) (level : L ∈ B.levels) (entry : e ∈ L.queue) :
    L ∈ B.bids ++ B.asks := by
  simp only [Ladder.levels,← List.append_assoc] at level
  rcases List.mem_append.mp level with sides | detached
  · exact sides
  · rw [tidy.detached L detached] at entry
    exact absurd entry (by simp)

theorem Ladder.Roomy.tidy (roomy : B.Roomy coming) : B.Tidy :=
  ⟨fun L member => (exactVolume_le_levels member).trans_lt (by have := roomy.fits; omega),roomy.detached⟩

/-- The sides after a cancel are stripped ones, possibly without a level. -/
theorem Ladder.cancel_sides (B : Ladder) (id' : GoString) : ∃ r,
    exactLevels (B.cancel id').2.bids ≤ exactLevels B.bids ∧
    exactLevels (B.cancel id').2.asks ≤ exactLevels B.asks ∧
    ∀ M ∈ (B.cancel id').2.bids ++ (B.cancel id').2.asks, M ∈ B.bids ++ B.asks ∨
      ∃ L ∈ B.bids ++ B.asks, M = L.strip r := by
  cases found : (B.orders id').bind fun r => locate r B.levels with
  | none =>
    simp only [Ladder.cancel,found]
    exact ⟨0,le_rfl,le_rfl,fun M member => .inl member⟩
  | some target =>
    obtain ⟨L,e⟩ := target
    have bids : (B.cancel id').2.bids.Sublist (B.bids.map (Level.strip e.ref)) := by
      simp only [Ladder.cancel,found]
      split
      · exact dropLevel_bids _ _ _
      · exact List.Sublist.refl _
    have asks : (B.cancel id').2.asks.Sublist (B.asks.map (Level.strip e.ref)) := by
      simp only [Ladder.cancel,found]
      split
      · exact dropLevel_asks _ _ _
      · exact List.Sublist.refl _
    refine ⟨e.ref,exactLevels_shrink bids,exactLevels_shrink asks,fun M member => .inr ?_⟩
    have stripped : M ∈ (B.bids ++ B.asks).map (Level.strip e.ref) := by
      rw [List.map_append]
      exact (bids.append asks).subset member
    obtain ⟨N,inside,rfl⟩ := List.mem_map.mp stripped
    exact ⟨N,inside,rfl⟩

theorem exactVolume_strip_le (r : OrderRef) (L : Level) : exactVolume (L.strip r).queue ≤ exactVolume L.queue :=
  ((strip_queue_sublist r L).map fun e : Resting => e.remaining.toNat).sum_le_sum (by simp)

/-- `Cancel` drops a level only when the order it removed was the last one there. -/
theorem Ladder.Tidy.cancel (tidy : B.Tidy) (valid : B.Valid) (distinct : (refsOf B.levels).Nodup)
    (id' : GoString) : (B.cancel id').2.Tidy := by
  constructor
  · obtain ⟨r,_,_,origin⟩ := Ladder.cancel_sides B id'
    intro M member
    rcases origin M member with same | ⟨L,inside,rfl⟩
    · exact tidy.exact M same
    · exact (exactVolume_strip_le r L).trans_lt (tidy.exact L inside)
  · cases known : B.orders id' with
    | none => simpa [Ladder.cancel,known] using tidy.detached
    | some r =>
      obtain ⟨L,e,found,level,entry,rfl,rfl⟩ := valid.cancel_target distinct known
      have attached := tidy.attached level entry
      have gone : ∀ M ∈ (B.strip e.ref e.id).detached, M.queue = [] := by
        intro M member
        obtain ⟨N,inside,rfl⟩ := List.mem_map.mp member
        simp [Level.strip,tidy.detached N inside]
      have sorted := sorted_strip B valid.sorted e.ref e.id
      simp only [Ladder.cancel,known,Option.bind_some,found]
      split
      · rename_i drained
        have empty := (volume_eq_zero_iff (L.strip e.ref)
          ((exactVolume_strip_le e.ref L).trans_lt (tidy.exact L attached)) fun d queued =>
            (valid.entries L level d ((strip_queue_sublist e.ref L).subset queued)).2).mp drained
        have same : ∀ side d, SortedBy d side → L.strip e.ref ∈ side →
            ∀ M ∈ side.filter (fun M => M.price = L.price), M.queue = [] := by
          intro side d ordered here M inside
          obtain ⟨within,price⟩ := List.mem_filter.mp inside
          have equal : M.price = (L.strip e.ref).price := by simpa using price
          rw [← queueAt_level ordered within,equal,queueAt_level ordered here,empty]
        intro M member
        by_cases buying : e.side = buy
        · simp only [Ladder.dropLevel,buying,if_true,List.mem_append] at member
          have bid : L ∈ B.bids := by
            rcases List.mem_append.mp attached with bid | ask
            · exact bid
            · exact absurd buying (valid.sells L ask e entry)
          exact member.elim (same _ true sorted.1 (List.mem_map_of_mem bid) M) (gone M)
        · simp only [Ladder.dropLevel,buying,if_false,List.mem_append] at member
          have ask : L ∈ B.asks := by
            rcases List.mem_append.mp attached with bid | ask
            · exact absurd (valid.buys L bid e entry) buying
            · exact ask
          exact member.elim (same _ false sorted.2 (List.mem_map_of_mem ask) M) (gone M)
      · exact gone

theorem Ladder.Roomy.cancel (roomy : B.Roomy coming) (valid : B.Valid) (distinct : (refsOf B.levels).Nodup)
    (id' : GoString) : (B.cancel id').2.Roomy coming := by
  obtain ⟨_,bids,asks,_⟩ := Ladder.cancel_sides B id'
  refine ⟨?_,(roomy.tidy.cancel valid distinct id').detached⟩
  have fits := roomy.fits
  rw [exactLevels_append] at fits ⊢
  omega

end Room

end TradingPlatform.Orderbook

import TradingPlatform.Identity
import TradingPlatform.Ledger

/-! Limit prices. `Process` sends every side code but the buy code against the bids, while the
crossing test only knows the buy and the sell code. -/
namespace TradingPlatform.Orderbook

open Runs

/-- No trade is worse for the taker than its limit. -/
def Protected (a : OrderArgs) (trades : List Trade) : Prop :=
  ∀ t ∈ trades, if a.side = buy then t.price ≤ a.price else a.price ≤ t.price

/-- Prices from best to worst for the taker. -/
def BestFirst (a : OrderArgs) (trades : List Trade) : Prop :=
  trades.Pairwise fun t u => if a.side = buy then t.price ≤ u.price else u.price ≤ t.price

/-- The exact quantity bid at a price or above. -/
def bidVolumeFrom (ob : OrderBook) (price : UInt64) : Nat :=
  ((ob.bids.filter fun l => decide (price ≤ (ob.heap.limit l).price)).map (exactAt ob.heap)).sum

/-- A named side, or a book in which the order cannot get to a bid below its limit. -/
def Guarded (ob : OrderBook) (a : OrderArgs) : Prop :=
  a.side = buy ∨ a.side = sell ∨ a.quantity.toNat ≤ bidVolumeFrom ob a.price ∨
    ∀ l ∈ ob.bids, a.price ≤ (ob.heap.limit l).price

section Sweeping

variable {stops : UInt64 → Bool}

theorem fillQueue_prices (price q : UInt64) (es : List Resting) :
    (fillQueue price q es).fills.Pairwise fun x y => x.price = y.price := by
  refine List.pairwise_of_forall_mem_list fun x first y second => ?_
  rw [(fillQueue_makers price q es first).2,(fillQueue_makers price q es second).2]

/-- The fills of a sweep follow the order of the levels. -/
theorem sweep_prices_ordered (sorted : SortedBy d levels) (q : UInt64) :
    (sweep stops q levels).fills.Pairwise fun x y => x.price = y.price ∨ precedes d x.price y.price = true := by
  induction levels generalizing q with
  | nil => simp [sweep]
  | cons L levels ih =>
    have first := (fillQueue_prices L.price q L.queue).imp fun {x y : Execution} same =>
      (Or.inl same : x.price = y.price ∨ precedes d x.price y.price = true)
    obtain ⟨before,rest⟩ := List.pairwise_cons.mp sorted
    simp only [sweep]
    split
    · simp
    · split
      · refine List.pairwise_append.mpr ⟨first,ih rest _,fun x here y later => .inr ?_⟩
        obtain ⟨M,level,_,price,_⟩ := sweep_makers _ _ _ later
        rw [(fillQueue_makers _ _ _ here).2,price]
        exact before M level
      · exact first

/-- A sweep of two stretches of levels stops in the first one if that uses it up. -/
theorem sweep_append_spent (none : ∀ L ∈ xs, stops L.price = false) (q : UInt64) (ys : List Level)
    (spent : (sweep stops q xs).left = 0) : (sweep stops q (xs ++ ys)).fills = (sweep stops q xs).fills := by
  induction xs generalizing q with
  | nil =>
    simp only [sweep] at spent
    rw [spent,List.nil_append,sweep_zero]
    rfl
  | cons L xs ih =>
    have goes := none L (by simp)
    by_cases zero : q = 0
    · rw [zero,sweep_zero,sweep_zero]
    · simp only [List.cons_append,sweep,zero,goes,false_or,Bool.false_eq_true,if_false] at spent ⊢
      split
      · rename_i drained
        simp only [drained,if_true] at spent
        rw [ih (fun M member => none M (List.mem_cons_of_mem _ member)) _ spent]
      · rfl

theorem sweep_append_left (none : ∀ L ∈ xs, stops L.price = false) (q : UInt64) (ys : List Level)
    (left : (sweep stops q xs).left ≠ 0) : (sweep stops q (xs ++ ys)).fills =
      (sweep stops q xs).fills ++ (sweep stops (sweep stops q xs).left ys).fills := by
  induction xs generalizing q with
  | nil => simp [sweep]
  | cons L xs ih =>
    have goes := none L (by simp)
    by_cases zero : q = 0
    · rw [zero,sweep_zero] at left
      exact absurd rfl left
    · simp only [List.cons_append,sweep,zero,goes,false_or,Bool.false_eq_true,if_false] at left ⊢
      split
      · rename_i drained
        simp only [drained,if_true] at left
        rw [ih (fun M member => none M (List.mem_cons_of_mem _ member)) _ left]
        simp
      · rename_i holds
        simp only [holds,if_false] at left
        exact absurd (fillQueue_left_of_volume L q holds) left

/-- A level with orders in it that does not stop a taker trades with it. -/
theorem sweep_hits (levels : List Level) (goes : stops L.price = false) (held : L.queue ≠ []) (positive : q ≠ 0) :
    ∃ x ∈ (sweep stops q (L :: levels)).fills, x.price = L.price := by
  obtain ⟨e,es,queue⟩ := List.exists_cons_of_ne_nil held
  have hit : ∃ x ∈ (fillQueue L.price q L.queue).fills, x.price = L.price := by
    by_cases covers : e.remaining ≤ q
    · exact ⟨⟨e,L.price,e.remaining⟩,by simp [queue,fillQueue,positive,covers],rfl⟩
    · exact ⟨⟨e,L.price,q⟩,by simp [queue,fillQueue,positive,covers],rfl⟩
  obtain ⟨x,member,price⟩ := hit
  simp only [sweep,positive,goes,false_or,Bool.false_eq_true,if_false]
  split
  · exact ⟨x,List.mem_append_left _ member,price⟩
  · exact ⟨x,member,price⟩

end Sweeping

/-- Descending levels are those from a price up, followed by those below it. -/
theorem sorted_partition (sorted : SortedBy true levels) (price : UInt64) :
    levels = levels.filter (fun L => decide (price ≤ L.price)) ++ levels.filter fun L => decide (L.price < price) := by
  induction levels with
  | nil => rfl
  | cons L levels ih =>
    obtain ⟨first,rest⟩ := List.pairwise_cons.mp sorted
    by_cases above : price ≤ L.price
    · have reached : ¬L.price < price := UInt64.not_lt.mpr above
      rw [List.filter_cons_of_pos (by simpa using above),List.filter_cons_of_neg (by simpa using reached),
        List.cons_append,← ih rest]
    · have under : L.price < price := UInt64.not_le.mp above
      have lower : ∀ M ∈ levels, M.price < price := by
        intro M member
        have next : M.price < L.price := by simpa [precedes] using first M member
        exact UInt64.lt_trans next under
      have none : (L :: levels).filter (fun L => decide (price ≤ L.price)) = [] := by
        refine List.filter_eq_nil_iff.mpr fun M member => ?_
        rcases List.mem_cons.mp member with rfl | later
        · simpa using above
        · simpa using lower M later
      have all : (L :: levels).filter (fun L => decide (L.price < price)) = L :: levels := by
        refine List.filter_eq_self.mpr fun M member => ?_
        rcases List.mem_cons.mp member with rfl | later
        · simpa using under
        · simpa using lower M later
      rw [none,all,List.nil_append]

section Codes

variable {B : Ladder} {a : OrderArgs}

/-- Under a named side the crossing test protects the order. -/
theorem named_protected (limit : a.type = limitOrder) (named : a.side = buy ∨ a.side = sell)
    (fill : x ∈ (B.place a).1) : if a.side = buy then x.price ≤ a.price else a.price ≤ x.price := by
  obtain ⟨L,_,_,price,goes⟩ := sweep_makers _ _ _ fill
  have crossing : crosses a L.price = true := by
    rw [crosses_eq_not_stopsAt named,goes]
    rfl
  rw [price]
  rcases named with buying | selling
  · simpa [crosses,limit,buying] using crossing
  · have other : a.side ≠ buy := by rw [selling]; decide
    simpa [crosses,limit,other] using crossing

theorem unnamed_never_stops (buying : a.side ≠ buy) (selling : a.side ≠ sell) (price : UInt64) :
    stopsAt a.order price = false := by
  simp [stopsAt,OrderArgs.order,buying,selling]

/-- Under any other side code the order is protected exactly when the bids from its limit up
can take it whole, or there are no others. -/
theorem Ladder.Valid.unnamed_protected_iff (valid : B.Valid) (buying : a.side ≠ buy) (selling : a.side ≠ sell) :
    (∀ x ∈ (B.place a).1, a.price ≤ x.price) ↔
      a.quantity.toNat ≤ exactLevels (B.bids.filter fun L => decide (a.price ≤ L.price)) ∨
        ∀ L ∈ B.bids, a.price ≤ L.price := by
  have never := unnamed_never_stops buying selling
  have opposite : B.opposite a.side = B.bids := by simp [Ladder.opposite,buying]
  have fills : (B.place a).1 = (sweep (stopsAt a.order) a.quantity B.bids).fills := by
    rw [← opposite]
    rfl
  have split := sorted_partition valid.sorted.1 a.price
  generalize highEq : B.bids.filter (fun L => decide (a.price ≤ L.price)) = high at split ⊢
  generalize lowEq : B.bids.filter (fun L => decide (L.price < a.price)) = low at split
  have above : ∀ L ∈ high, a.price ≤ L.price := fun L member => by
    rw [← highEq] at member
    simpa using (List.mem_filter.mp member).2
  have below : ∀ L ∈ low, L.price < a.price := fun L member => by
    rw [← lowEq] at member
    simpa using (List.mem_filter.mp member).2
  have sortedHigh : SortedBy (!decide (a.side = buy)) high := by
    have sorted := valid.sorted.1
    rw [split] at sorted
    simpa [SortedBy,buying] using (List.pairwise_append.mp sorted).1
  have left := sweep_left_exact sortedHigh a.quantity
  have whole : high.filter (fun L => !stopsAt a.order L.price) = high :=
    List.filter_eq_self.mpr fun L _ => by simp [never]
  rw [whole] at left
  change _ = a.quantity.toNat - exactLevels high at left
  rw [fills,split]
  by_cases spent : (sweep (stopsAt a.order) a.quantity high).left = 0
  · have covered : a.quantity.toNat ≤ exactLevels high := by
      rw [spent,UInt64.toNat_zero] at left
      omega
    rw [sweep_append_spent (fun L _ => never L.price) _ _ spent]
    refine ⟨fun _ => .inl covered,fun _ x fill => ?_⟩
    obtain ⟨L,level,_,price,_⟩ := sweep_makers _ _ _ fill
    rw [price]
    exact above L level
  · have short : ¬a.quantity.toNat ≤ exactLevels high := by
      have positive : (sweep (stopsAt a.order) a.quantity high).left.toNat ≠ 0 :=
        fun zero => spent (UInt64.toNat_inj.mp zero)
      omega
    rw [sweep_append_left (fun L _ => never L.price) _ _ spent]
    cases low with
    | nil =>
      refine ⟨fun _ => .inr fun L member => above L (by simpa using member),fun _ x fill => ?_⟩
      have inHigh : x ∈ (sweep (stopsAt a.order) a.quantity high).fills := by simpa [sweep] using fill
      obtain ⟨L,level,_,price,_⟩ := sweep_makers _ _ _ inHigh
      rw [price]
      exact above L level
    | cons L low =>
      have bid : L ∈ B.bids := by rw [split]; simp
      have held := valid.nonempty L (List.mem_append_left _ bid)
      obtain ⟨x,fill,price⟩ := sweep_hits low (never L.price) held spent
      have under := below L (by simp)
      constructor
      · intro all
        have reached := all x (List.mem_append_right _ fill)
        rw [price] at reached
        exact absurd reached (UInt64.not_le.mpr under)
      · rintro (covered | all)
        · exact absurd covered short
        · exact absurd (all L (by simp)) (UInt64.not_le.mpr under)

end Codes

theorem Sound.bidVolumeFrom (sound : Sound ob B) (price : UInt64) :
    Orderbook.bidVolumeFrom ob price = exactLevels (B.bids.filter fun L => decide (price ≤ L.price)) := by
  have bid : ∀ L ∈ B.bids, L ∈ B.levels := fun L member => by simp [Ladder.levels,member]
  rw [Orderbook.bidVolumeFrom,sound.models.bids,List.filter_map,List.map_map,exactLevels]
  have same : B.bids.filter ((fun l => decide (price ≤ (ob.heap.limit l).price)) ∘ Level.ref) =
      B.bids.filter fun L => decide (price ≤ L.price) :=
    List.filter_congr fun L member => by simp [(sound.models.rep.level L (bid L member)).price]
  rw [same]
  refine congrArg List.sum (List.map_congr_left fun L member => ?_)
  exact sound.exactAt (bid L (List.mem_of_mem_filter member))

theorem Sound.guarded_iff (sound : Sound ob B) (a : OrderArgs) : Guarded ob a ↔
    a.side = buy ∨ a.side = sell ∨
      a.quantity.toNat ≤ exactLevels (B.bids.filter fun L => decide (a.price ≤ L.price)) ∨
      ∀ L ∈ B.bids, a.price ≤ L.price := by
  have prices : (∀ l ∈ ob.bids, a.price ≤ (ob.heap.limit l).price) ↔ ∀ L ∈ B.bids, a.price ≤ L.price := by
    rw [sound.models.bids,List.forall_mem_map]
    refine forall₂_congr fun L member => ?_
    rw [(sound.models.rep.level L (by simp [Ladder.levels,member])).price]
  rw [Guarded,sound.bidVolumeFrom,prices]

theorem Sound.protected_iff (sound : Sound ob B) (limit : a.type = limitOrder) :
    Protected a ((B.place a).1.map (Execution.trade a.id)) ↔ Guarded ob a := by
  rw [sound.guarded_iff,Protected,List.forall_mem_map]
  by_cases buying : a.side = buy
  · simp only [buying,true_or,iff_true]
    intro x fill
    simpa [buying,Execution.trade] using named_protected limit (.inl buying) fill
  · by_cases selling : a.side = sell
    · simp only [selling,true_or,or_true,iff_true]
      intro x fill
      have held := named_protected limit (.inr selling) fill
      rw [if_neg buying] at held
      rw [if_neg (by decide)]
      exact held
    · simp only [buying,selling,false_or,if_false]
      exact sound.valid.unnamed_protected_iff buying selling

theorem Sound.bestFirst (sound : Sound ob B) (a : OrderArgs) :
    BestFirst a ((B.place a).1.map (Execution.trade a.id)) := by
  rw [BestFirst,List.pairwise_map]
  refine (sweep_prices_ordered (sound.valid.opposite_sorted a.side) a.quantity).imp fun {x y} ordered => ?_
  by_cases buying : a.side = buy
  · rcases ordered with same | before
    · simp [buying,Execution.trade,same]
    · have less : x.price < y.price := by simpa [precedes,buying] using before
      simpa [buying,Execution.trade] using UInt64.le_of_lt less
  · rcases ordered with same | before
    · simp [buying,Execution.trade,same]
    · have less : y.price < x.price := by simpa [precedes,buying] using before
      simpa [buying,Execution.trade] using UInt64.le_of_lt less

/-- On every reachable book, a limit order trades at its makers' prices, best first, and is
protected by its limit exactly when it is guarded. -/
theorem limit_protected_iff_guarded (calls : List Call) : ∃ replies ob, runCalls calls = some (replies,ob) ∧
    ∀ a, a.type = limitOrder → ∃ trades ob' fills, place ob a = some (trades,ob') ∧
      ob'.heap.ledger = ob.heap.ledger ++ fills ∧
      trades = fills.map (fun f => ⟨(ob'.heap.order f.maker).id,a.id,f.price,f.quantity⟩) ∧
      (∀ f ∈ fills, (ob'.heap.order f.maker).price = f.price) ∧
      BestFirst a trades ∧ (Protected a trades ↔ Guarded ob a) := by
  obtain ⟨replies,ob,B,result,sound⟩ := runCalls_sound calls
  refine ⟨replies,ob,result,fun a limit => ?_⟩
  obtain ⟨ob',placed,models,effect⟩ := place_models sound.models sound.valid.sorted a
  have makers : ∀ x ∈ (B.place a).1, (ob'.heap.order x.maker.ref).args = (ob.heap.order x.maker.ref).args := by
    intro x fill
    have old := (sound.maker_cell fill).1
    rw [effect.args]
    simp [newOrder,old.ne]
  refine ⟨_,ob',_,placed,effect.ledger,?_,?_,sound.bestFirst a,sound.protected_iff limit⟩
  · rw [List.map_map]
    refine List.map_congr_left fun x fill => ?_
    have name : (ob'.heap.order x.maker.ref).id = x.maker.id :=
      (congrArg OrderArgs.id (makers x fill)).trans (sound.maker_cell fill).2.1
    simp [Execution.trade,Execution.fill,name]
  · rw [List.forall_mem_map]
    intro x fill
    obtain ⟨L,level,entry,price,_⟩ := sweep_makers _ _ _ fill
    have inside := Ladder.opposite_levels level
    have cell : (ob'.heap.order x.maker.ref).price = x.maker.price :=
      (congrArg OrderArgs.price (makers x fill)).trans
        ((sound.models.rep.level L inside).entries x.maker entry).price
    simp only [Execution.fill,cell,price]
    exact (sound.valid.entries L inside x.maker entry).1

/-- A resting bid at 10, then an accepted limit order at 100 under side code 7. -/
theorem unnamed_side_sells_below_limit :
    acceptsPlace ⟨[98],7,limitOrder,100,1⟩ = true ∧
      (runCalls [.process ⟨[97],buy,limitOrder,10,1⟩,.process ⟨[98],7,limitOrder,100,1⟩]).map Prod.fst =
        some [.trades [],.trades [⟨[97],[98],10,1⟩]] ∧
      ¬Protected ⟨[98],7,limitOrder,100,1⟩ [⟨[97],[98],10,1⟩] := by
  refine ⟨by decide,by decide,?_⟩
  simp only [Protected,List.mem_singleton,forall_eq]
  decide

end TradingPlatform.Orderbook

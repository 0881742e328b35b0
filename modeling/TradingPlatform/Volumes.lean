import TradingPlatform.BookView
import TradingPlatform.Ledger

/-! Recorded volumes against exact sums, for quantities of any size. A level's accumulator
wraps when the orders resting at one price exceed one word together; the level is then
misreported, and dropped with orders in it once the wrapped sum is zero. -/
namespace TradingPlatform.Orderbook

open Runs

/-- Every recorded volume is the exact sum of what its queue has left. -/
def VolumesExact (ob : OrderBook) : Prop :=
  ∀ l ∈ ob.bids ++ ob.asks, (ob.heap.limit l).totalVolume.toNat = exactAt ob.heap l

/-- The exact quantity resting at one side and price. -/
def exactAtPrice (ob : OrderBook) (side : Side) (price : UInt64) : Nat :=
  (((ob.own side).filter fun l => (ob.heap.limit l).price = price).map (exactAt ob.heap)).sum

/-- What is left of a limit order fits into the word of the level it joins. -/
def Fits (ob : OrderBook) (c : Call) : Prop :=
  ∀ a, c = .process a → a.type = limitOrder →
    exactAtPrice ob a.side a.price + (a.quantity.toNat - crossingVolume ob a) < 2^64

/-- A limit order that is neither filled nor cancelled can be reached from its side. -/
def KeepsOrders (calls : List Call) : Prop :=
  ∀ front a middle rest, calls = front ++ .process a :: (middle ++ rest) → a.type = limitOrder →
    ∀ replies ob, runCalls front = some (replies,ob) →
    ∀ replies' ob', runCalls (front ++ .process a :: middle) = some (replies',ob') →
    (∀ early late replies'' ob'', middle = early ++ .cancel a.id :: late →
      runCalls (front ++ .process a :: early) = some (replies'',ob'') → (cancel ob'' a.id).1 = false) →
    (ob'.heap.order ob.heap.orderCount).remainingQty ≠ 0 →
    ∃ l ∈ ob'.own a.side, ob.heap.orderCount ∈ queueRefs ob'.heap l

theorem Sound.volumesExact_iff (sound : Sound ob B) :
    VolumesExact ob ↔ ∀ L ∈ B.bids ++ B.asks, exactVolume L.queue < 2^64 := by
  have sides := sound.attached
  have recorded : ∀ L ∈ B.bids ++ B.asks,
      (ob.heap.limit L.ref).totalVolume.toNat = exactVolume L.queue % 2^64 := fun L member => by
    rw [(sound.models.rep.level L (Ladder.attached_levels member)).volume,volume_toNat]
  rw [VolumesExact,sides]
  constructor
  · intro exact L member
    have same := exact L.ref (List.mem_map_of_mem member)
    rw [recorded L member,sound.exactAt (Ladder.attached_levels member)] at same
    omega
  · intro exact l member
    obtain ⟨L,inside,rfl⟩ := List.mem_map.mp member
    rw [recorded L inside,sound.exactAt (Ladder.attached_levels inside),Nat.mod_eq_of_lt (exact L inside)]

theorem exactVolume_queueAt (levels : List Level) (price : UInt64) :
    exactVolume (queueAt levels price) =
      ((levels.filter fun L => L.price = price).map fun L => exactVolume L.queue).sum := by
  rw [queueAt]
  induction levels.filter fun L => L.price = price with
  | nil => rfl
  | cons L rest ih =>
    rw [List.flatMap_cons,List.map_cons,List.sum_cons,← ih]
    simp [exactVolume]

theorem Sound.exactAtPrice (sound : Sound ob B) (side : Side) (price : UInt64) :
    Orderbook.exactAtPrice ob side price = exactVolume (queueAt (B.own side) price) := by
  rw [Orderbook.exactAtPrice,sound.own,List.filter_map,List.map_map,exactVolume_queueAt]
  have same : (B.own side).filter ((fun l => decide ((ob.heap.limit l).price = price)) ∘ Level.ref) =
      (B.own side).filter fun L => L.price = price :=
    List.filter_congr fun L member => by
      simp [(sound.models.rep.level L (Ladder.own_levels member)).price]
  rw [same]
  refine congrArg List.sum (List.map_congr_left fun L member => ?_)
  exact sound.exactAt (Ladder.own_levels (List.mem_of_mem_filter member))

theorem sweep_makers_exact (stops : UInt64 → Bool) (q : UInt64) (levels : List Level)
    (exact : ∀ L ∈ levels, exactVolume L.queue < bound) :
    ∀ M ∈ (sweep stops q levels).makers, exactVolume M.queue < bound := by
  induction levels generalizing q with
  | nil => simp [sweep]
  | cons L levels ih =>
    simp only [sweep]
    split
    · exact exact
    · split
      · exact ih _ fun M member => exact M (List.mem_cons_of_mem _ member)
      · intro M member
        rcases List.mem_cons.mp member with rfl | later
        · rw [fillQueue_exact]
          exact (Nat.sub_le _ _).trans_lt (exact L (by simp))
        · exact exact M (List.mem_cons_of_mem _ later)

section Placing

variable {B : Ladder} {a : OrderArgs}

/-- What rests at a price of the taker's own side afterwards. -/
theorem Ladder.Valid.ownAfter_exact (valid : B.Valid) (member : M ∈ B.ownAfter a) :
    exactVolume M.queue = exactVolume (queueAt (B.own a.side) M.price) +
      if B.rests a = true ∧ a.price = M.price then (B.sweepFor a).left.toNat else 0 := by
  rw [← queueAt_level valid.ownAfter_sorted member,Ladder.ownAfter]
  by_cases rests : B.rests a = true
  · rw [if_pos rests,queueAt_settle (valid.own_sorted a.side)]
    by_cases here : a.price = M.price
    · simp [rests,here,Ladder.entry,exactVolume]
    · simp [here,Ladder.entry]
  · simp [rests]

theorem Ladder.Tidy.queueAt (tidy : B.Tidy) (valid : B.Valid) (side : Side) (price : UInt64) :
    exactVolume (Orderbook.queueAt (B.own side) price) < 2^64 := by
  by_cases here : ∃ L ∈ B.own side, L.price = price
  · obtain ⟨L,member,rfl⟩ := here
    rw [queueAt_level (valid.own_sorted side) member]
    refine tidy.exact L ?_
    simp only [Ladder.own] at member
    split at member <;> simp [member]
  · rw [queueAt_absent fun L member same => here ⟨L,member,same⟩]
    simp [exactVolume]

/-- A placement keeps the ladder tidy when its leftover fits. -/
theorem Ladder.Tidy.place (tidy : B.Tidy) (valid : B.Valid)
    (fits : B.rests a = true →
      exactVolume (Orderbook.queueAt (B.own a.side) a.price) + (B.sweepFor a).left.toNat < 2^64) :
    (B.place a).2.Tidy := by
  have opposite : ∀ L ∈ B.opposite a.side, exactVolume L.queue < 2^64 :=
    fun L member => tidy.exact L (Ladder.mem_attached.mpr (.inr member))
  constructor
  · intro L member
    rcases Ladder.mem_place_attached.mp member with own | makers
    · rw [valid.ownAfter_exact own]
      have below := tidy.queueAt valid a.side L.price
      split
      · rename_i joins
        have leftover := fits joins.1
        rwa [joins.2] at leftover
      · exact below
    · exact sweep_makers_exact _ _ _ opposite L makers
  · intro L member
    rcases List.mem_append.mp member with dropped | old
    · exact sweep_dropped_empty _ _ _ opposite
        (fun M inside e queued => (valid.entries M (Ladder.opposite_levels inside) e queued).2) L dropped
    · exact tidy.detached L old

theorem Ladder.Valid.fits_of_exact (valid : B.Valid)
    (exact : ∀ L ∈ (B.place a).2.bids ++ (B.place a).2.asks, exactVolume L.queue < 2^64)
    (rests : B.rests a = true) :
    exactVolume (Orderbook.queueAt (B.own a.side) a.price) + (B.sweepFor a).left.toNat < 2^64 := by
  obtain ⟨M,member,queued⟩ := settle_entry B.limitCount (B.entry a) (valid.own_sorted a.side)
  have own : M ∈ B.ownAfter a := by rwa [Ladder.ownAfter,if_pos rests]
  have price : M.price = a.price :=
    (valid.ownAfter_forall (a := a) (fun price e => e.price = price)
      (fun L level e entry => (valid.entries L (Ladder.own_levels level) e entry).1) (fun _ => rfl)
      M own _ queued).symm
  have below := exact M (Ladder.mem_place_attached.mpr (.inl own))
  rw [valid.ownAfter_exact own,price] at below
  simpa [rests] using below

end Placing

def TidyBook (ob : OrderBook) : Prop := ∃ B, Sound ob B ∧ B.Tidy

theorem new_tidy : TidyBook newOrderBook :=
  ⟨Ladder.empty,new_sound,by simp [Ladder.empty],by simp [Ladder.empty]⟩

theorem TidyBook.volumesExact (tidy : TidyBook ob) : VolumesExact ob := by
  obtain ⟨B,sound,tidy⟩ := tidy
  exact sound.volumesExact_iff.mpr tidy.exact

/-- One call leaves exact volumes only if its leftover fits, and then keeps the book tidy. -/
theorem TidyBook.call (tidy : TidyBook ob) (result : Orderbook.call ob c = some (reply,ob')) :
    (VolumesExact ob' → Fits ob c) ∧ (Fits ob c → TidyBook ob') := by
  obtain ⟨B,sound,tidy⟩ := tidy
  obtain ⟨ob1,step,after⟩ := sound.call c
  obtain ⟨_,rfl⟩ := outcome_unique step result
  cases c with
  | process a =>
    have left := sound.valid.left_exact a
    have rests := sound.valid.rests_iff a
    have guard : Fits ob (.process a) ↔ (a.type = limitOrder →
        exactVolume (queueAt (B.own a.side) a.price) + (B.sweepFor a).left.toNat < 2^64) := by
      simp [Fits,sound.exactAtPrice,sound.crossingVolume,left]
    have below := tidy.queueAt sound.valid a.side a.price
    rw [guard]
    constructor
    · intro exact limit
      by_cases resting : B.rests a = true
      · exact sound.valid.fits_of_exact (after.volumesExact_iff.mp exact) resting
      · have none : ¬B.crossing a < a.quantity.toNat := fun less => resting (rests.mpr ⟨limit,less⟩)
        omega
    · intro fits
      exact ⟨_,after,tidy.place sound.valid fun resting => fits (rests.mp resting).1⟩
  | cancel id' =>
    refine ⟨fun _ a other => by simp at other,fun _ => ?_⟩
    exact ⟨_,after,tidy.cancel sound.valid sound.models.rep.orderRefs id'⟩

section Instances

variable {B : Ladder}

/-- A queued instance stays queued, is filled, or is the one a cancel removes. -/
theorem Sound.queued_step {ob' : OrderBook} (sound : Sound ob B) (queued : r ∈ refsOf B.levels)
    (effect : Effect (B.fills c) (grown ob.heap c) ob'.heap) :
    r ∈ refsOf (B.call c).2.levels ∨ (ob'.heap.order r).remainingQty = 0 ∨
      ∃ id', c = .cancel id' ∧ (ob.heap.order r).id = id' ∧ (B.cancel id').1 = true := by
  obtain ⟨L,level,e,entry,rfl⟩ := mem_refsOf.mp queued
  have cell := (sound.models.rep.level L level).entries e entry
  cases c with
  | process a =>
    have bound := sound.models.rep.orderBound e.ref queued
    rcases (Ladder.mem_levels (a := a)).mp level with own | opposite | detached
    · obtain ⟨M,after,stays⟩ := sound.valid.ownAfter_keeps own entry
      exact .inl (mem_refsOf.mpr ⟨M,Ladder.mem_place_levels.mpr (.inl after),e,stays,rfl⟩)
    · rcases sweep_stays_or_closes (stopsAt a.order) a.quantity _ L e opposite entry with
        ⟨M,after,d,stays,ref,_⟩ | ⟨x,fill,rfl,closes⟩
      · exact .inl (mem_refsOf.mpr ⟨M,Ladder.mem_place_levels.mpr (.inr (.inl after)),d,stays,ref⟩)
      · refine .inr (.inl ?_)
        have share : exactShare (B.fills (.process a)) x.maker.ref = x.quantity.toNat :=
          exactShare_hit _ _ sound.maker_refs fill (by rw [← sound.models.orderCount]; exact bound.ne)
        have filled : filledBy (B.fills (.process a)) x.maker.ref = x.maker.remaining := by
          apply UInt64.toNat_inj.mp
          rw [filledBy_toNat _ _ fun f member => fills_apart sound member,share,closes]
          exact Nat.mod_eq_of_lt (UInt64.toNat_lt _)
        have before : ((grown ob.heap (.process a)).order x.maker.ref).remainingQty = x.maker.remaining := by
          simpa [grown,newOrder,bound.ne] using cell.remaining
        rw [effect.remaining,filled,before]
        simp
    · exact .inl (mem_refsOf.mpr ⟨L,Ladder.mem_place_levels.mpr (.inr (.inr detached)),e,entry,rfl⟩)
  | cancel id' =>
    cases known : B.orders id' with
    | none =>
      refine .inl ?_
      simpa [Ladder.call,Ladder.cancel,known] using queued
    | some r =>
      obtain ⟨N,d,found,inside,member,rfl,rfl⟩ := sound.valid.cancel_target sound.models.rep.orderRefs known
      by_cases same : e.ref = d.ref
      · refine .inr (.inr ⟨d.id,rfl,?_,?_⟩)
        · rw [cell.id,(entry_unique sound.models.rep.orderRefs inside member level entry same).2]
        · simp only [Ladder.cancel,known,Option.bind_some,found]
          split <;> rfl
      · refine .inl ?_
        have kept : e.ref ∈ refsOf (B.strip d.ref d.id).levels := by
          rw [strip_levels]
          exact mem_refsOf.mpr ⟨L.strip d.ref,List.mem_map_of_mem level,e,
            List.mem_filter.mpr ⟨entry,by simpa using same⟩,rfl⟩
        simp only [Ladder.call,Ladder.cancel,known,Option.bind_some,found]
        split
        · obtain ⟨M,there,rest⟩ := mem_refsOf.mp kept
          exact mem_refsOf.mpr ⟨M,(drop_levels _ _ _).mem_iff.mp there,rest⟩
        · exact kept

/-- Over a run, a queued instance stays queued, is filled, or is cancelled under its own ID. -/
theorem Sound.queued_run (sound : Sound ob B) (queued : r ∈ refsOf B.levels)
    (result : Runs.run Orderbook.call calls ob = some (replies,ob')) :
    (∃ B', Sound ob' B' ∧ r ∈ refsOf B'.levels) ∨ (ob'.heap.order r).remainingQty = 0 ∨
      ∃ early late replies' ob'', calls = early ++ .cancel (ob.heap.order r).id :: late ∧
        Runs.run Orderbook.call early ob = some (replies',ob'') ∧
        (Orderbook.cancel ob'' (ob.heap.order r).id).1 = true := by
  induction calls generalizing ob B replies with
  | nil =>
    obtain ⟨_,rfl⟩ := Prod.mk.inj (Option.some.inj result)
    exact .inl ⟨B,sound,queued⟩
  | cons c calls ih =>
    obtain ⟨reply,later,m,first,rest,_⟩ := run_cons_inv result
    obtain ⟨ob1,first',after,effect⟩ := sound.step c
    obtain ⟨_,rfl⟩ := outcome_unique first first'
    have bound := sound.models.rep.orderBound r queued
    have one : Runs.run Orderbook.call [c] ob = some ([reply],m) := run_cons first rfl
    have terms := sound.args_run bound one
    rcases sound.queued_step queued effect with stays | filled | ⟨id',rfl,name,hit⟩
    · rcases ih after stays rest with final | filled | ⟨early,late,replies',ob'',split,before,hit⟩
      · exact .inl final
      · exact .inr (.inl filled)
      · rw [show (m.heap.order r).id = (ob.heap.order r).id from congrArg OrderArgs.id terms] at split hit
        exact .inr (.inr ⟨c :: early,late,reply :: replies',ob'',by simp [split],run_cons first before,hit⟩)
    · refine .inr (.inl ?_)
      have counted : r < m.heap.orderCount := by
        rw [effect.orderCount]
        cases c with
        | process a => exact Nat.lt_succ_of_lt bound
        | cancel id' => exact bound
      have still := after.frozen_run counted (after.filled_out filled) rest
      have quantity : (ob'.heap.order r).quantity = (m.heap.order r).quantity :=
        congrArg OrderArgs.quantity (after.args_run counted rest)
      rwa [Order.remainingQty,still,quantity]
    · obtain ⟨ob2,cancelled,_⟩ := cancel_models sound.models sound.valid.sorted sound.valid.live id'
      refine .inr (.inr ⟨[],calls,[],ob,by simp [name],rfl,?_⟩)
      rw [name,cancelled]
      exact hit

end Instances

theorem keepsOrders_of_tidy (tidy : Always call TidyBook calls newOrderBook) : KeepsOrders calls := by
  rintro front a middle rest rfl limit replies ob before replies' ob' result alive left
  obtain ⟨B,_,sound,later⟩ := runCalls_resume before result
  obtain ⟨reply,_,ob1,step,remaining,_⟩ := run_cons_inv later
  obtain ⟨ob2,step',after,effect⟩ := sound.step (.process a)
  obtain ⟨_,rfl⟩ := outcome_unique step step'
  have count := sound.models.orderCount
  have counted : ob.heap.orderCount < ob1.heap.orderCount := by
    rw [effect.orderCount]
    exact Nat.lt_succ_self _
  have terms : (ob1.heap.order ob.heap.orderCount).args = a := by
    rw [effect.args]
    simp [grown,newOrder,Order.args,OrderArgs.order]
  have name : (ob1.heap.order ob.heap.orderCount).id = a.id := congrArg OrderArgs.id terms
  by_cases resting : B.rests a = true
  · obtain ⟨M,inside,entered⟩ := settle_entry B.limitCount (B.entry a) (sound.valid.own_sorted a.side)
    have queued : ob.heap.orderCount ∈ refsOf (B.place a).2.levels := by
      refine mem_refsOf.mpr ⟨M,Ladder.mem_place_levels.mpr (.inl ?_),B.entry a,entered,count.symm⟩
      rwa [Ladder.ownAfter,if_pos resting]
    rcases after.queued_run queued remaining with ⟨B',sound',there⟩ | filled | ⟨early,late,rs,ob2,split,run',hit⟩
    · obtain ⟨B'',sound'',tidy'⟩ := tidy _ rest _ ob' (by simp) result
      have level : ∃ L ∈ B''.levels, ∃ e ∈ L.queue, e.ref = ob.heap.orderCount := by
        by_contra absent
        have idle := sound''.models.rep.idle ob.heap.orderCount fun member => by
          obtain ⟨L,inside,e,entry,same⟩ := mem_refsOf.mp member
          exact absent ⟨L,inside,e,entry,same⟩
        obtain ⟨L,inside,e,entry,same⟩ := mem_refsOf.mp there
        have cell := ((sound'.models.rep.level L inside).entries e entry).limit
        rw [same,idle.2.2] at cell
        simp at cell
      obtain ⟨L,inside,e,entry,same⟩ := level
      have cell := (sound''.models.rep.level L inside).entries e entry
      have side : e.side = a.side := by
        rw [← cell.side,same]
        have final := after.args_run counted remaining
        rw [terms] at final
        exact congrArg OrderArgs.side final
      refine ⟨L.ref,?_,?_⟩
      · rw [sound''.own,← side]
        refine List.mem_map_of_mem ?_
        rcases List.mem_append.mp (tidy'.attached inside entry) with bid | ask
        · simpa [Ladder.own,sound''.valid.buys L bid e entry] using bid
        · simpa [Ladder.own,sound''.valid.sells L ask e entry] using ask
      · rw [sound''.queueRefs inside,← same]
        exact List.mem_map_of_mem entry
    · exact absurd filled left
    · rw [name] at split hit
      have gone := alive early late (replies ++ reply :: rs) ob2 split (run_append before (run_cons step run'))
      rw [gone] at hit
      exact absurd hit Bool.false_ne_true
  · have out : ob.heap.orderCount ∉ refsOf (B.place a).2.levels ∧
        (ob1.heap.order ob.heap.orderCount).remainingQty = 0 := by
      have spent : (B.sweepFor a).left = 0 := by
        by_contra other
        exact resting (by simp [Ladder.rests,other,limit])
      have share : exactShare (B.fills (.process a)) B.orderCount = a.quantity.toNat := by
        have sum : ((B.place a).1.map fun x => x.quantity.toNat).sum + (B.sweepFor a).left.toNat =
            a.quantity.toNat := sweep_spent a.quantity (B.opposite a.side)
        rw [Ladder.fills,exactShare_taker _ _ fun x fill => (count ▸ (sound.maker_cell fill).1).ne]
        simpa [spent] using sum
      have filled : filledBy (B.fills (.process a)) ob.heap.orderCount = a.quantity := by
        apply UInt64.toNat_inj.mp
        rw [filledBy_toNat _ _ fun f member => fills_apart sound member,count,share]
        exact Nat.mod_eq_of_lt (UInt64.toNat_lt _)
      have zero : (ob1.heap.order ob.heap.orderCount).remainingQty = 0 := by
        rw [effect.remaining,filled]
        simp [grown,newOrder,Order.remainingQty,OrderArgs.order]
      exact ⟨after.filled_out zero,zero⟩
    have still := after.frozen_run counted out.1 remaining
    have quantity : (ob'.heap.order ob.heap.orderCount).quantity = (ob1.heap.order ob.heap.orderCount).quantity :=
      congrArg OrderArgs.quantity (after.args_run counted remaining)
    refine absurd ?_ left
    rw [Order.remainingQty,still,quantity]
    exact out.2

/-- No resting quantity is lost or misreported in a run exactly when every leftover fits into
the level it joins. IDs and side codes do not matter. -/
theorem volumes_exact_iff_fits (calls : List Call) :
    (Always call VolumesExact calls newOrderBook ∧ KeepsOrders calls) ↔ EachStep call Fits calls newOrderBook := by
  obtain ⟨exact,keeps⟩ := always_iff_eachStep (P := TidyBook) (Q := VolumesExact) (G := Fits)
    (fun _ ob => ∃ B, Sound ob B) (fun _ tidy => tidy.volumesExact)
    (fun c rest ob holds => by
      obtain ⟨B,sound⟩ := holds
      obtain ⟨ob',step,after⟩ := sound.call c
      exact ⟨_,ob',step,⟨_,after⟩,fun tidy => tidy.call step⟩)
    calls ⟨Ladder.empty,new_sound⟩ new_tidy
  exact ⟨fun holds => exact.mp holds.1,fun fits => ⟨exact.mpr fits,keepsOrders_of_tidy (keeps fits)⟩⟩

/-- Two buy orders of half a word each and one of quantity one at one price, then two sellers. -/
def halfWords : List Call :=
  [.process ⟨[97],buy,limitOrder,10,9223372036854775808⟩,.process ⟨[98],buy,limitOrder,10,9223372036854775808⟩,
    .process ⟨[99],buy,limitOrder,10,1⟩,.process ⟨[100],sell,marketOrder,0,1⟩,
    .process ⟨[101],sell,marketOrder,0,5⟩]

def Call.args? : Call → Option OrderArgs
  | .process a => some a
  | .cancel _ => none

/-- Distinct IDs, named sides and positive quantities. Two orders are reported with volume
zero; the first seller then makes the level vanish with three open orders, and the second
seller finds nobody. -/
theorem halfWords_lost :
    ((halfWords.filterMap Call.args?).map OrderArgs.id).Nodup ∧
      (∀ a ∈ halfWords.filterMap Call.args?, (a.side = buy ∨ a.side = sell) ∧ 0 < a.quantity) ∧
      (runCalls (halfWords.take 2)).bind (fun result => getDepth result.2 50) = some ([⟨10,0⟩],[]) ∧
      (runCalls halfWords).bind (fun result => (getDepth result.2 50).map fun depth => (result.1,depth)) =
        some ([.trades [],.trades [],.trades [],.trades [⟨[97],[100],10,1⟩],.trades []],([],[])) := by
  refine ⟨by decide,by decide,by decide,by decide⟩

end TradingPlatform.Orderbook

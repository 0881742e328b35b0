import TradingPlatform.BookView

/-! The ID map and the queues over whole runs. They agree as long as no order comes to rest
beside another one of its ID; the place handler does not prevent that. -/
namespace TradingPlatform.Orderbook

open Runs

/-- Every queued order is the map's entry under its own ID, and every entry of the map is
queued at the level it points to, on its own side. -/
structure Agrees (ob : OrderBook) : Prop where
  queued : ∀ l ∈ ob.bids ++ ob.asks, ∀ queue, QueueOf ob.heap l queue → ∀ r ∈ queue,
    ob.orders (ob.heap.order r).id = some r
  mapped : ∀ id' r, ob.orders id' = some r → (ob.heap.order r).id = id' ∧
    ∃ l ∈ ob.own (ob.heap.order r).side, (ob.heap.order r).limit = some l ∧
      ∃ queue, QueueOf ob.heap l queue ∧ r ∈ queue

/-- The order is larger than what it reaches, so it comes to rest, and an order with its ID
rests on its own side or beyond its reach. -/
def Collides (ob : OrderBook) (a : OrderArgs) : Prop :=
  a.type = limitOrder ∧ crossingVolume ob a < a.quantity.toNat ∧
    ∃ l ∈ ob.own a.side ++ (ob.opposite a.side).filter fun l => stopsAt a.order (ob.heap.limit l).price,
      ∃ r ∈ queueRefs ob.heap l, (ob.heap.order r).id = a.id

def NoCollision (ob : OrderBook) (c : Call) : Prop := ∀ a, c = .process a → ¬Collides ob a

theorem Sound.agrees_iff (sound : Sound ob B) (roomy : B.Roomy coming) : Agrees ob ↔ B.Indexed := by
  have sides := sound.attached
  constructor
  · intro agrees L member e entry
    have rep := sound.models.rep.level L (Ladder.attached_levels member)
    have found := agrees.queued L.ref (sides ▸ List.mem_map_of_mem member) L.refs rep.queueOf e.ref
      (List.mem_map_of_mem entry)
    rwa [(rep.entries e entry).id,sound.models.orders] at found
  · intro indexed
    constructor
    · intro l level queue chain r queued
      rw [sides] at level
      obtain ⟨L,member,rfl⟩ := List.mem_map.mp level
      have rep := sound.models.rep.level L (Ladder.attached_levels member)
      obtain rfl := chain_unique chain rep.queueOf
      obtain ⟨e,entry,rfl⟩ := List.mem_map.mp queued
      rw [(rep.entries e entry).id,sound.models.orders]
      exact indexed L member e entry
    · intro id' r known
      rw [sound.models.orders] at known
      obtain ⟨L,level,e,entry,rfl,rfl⟩ := sound.valid.live id' r known
      have rep := sound.models.rep.level L level
      have cell := rep.entries e entry
      refine ⟨cell.id,L.ref,?_,cell.limit,L.refs,rep.queueOf,List.mem_map_of_mem entry⟩
      rw [sound.own,cell.side]
      refine List.mem_map_of_mem ?_
      rcases List.mem_append.mp (roomy.tidy.attached level entry) with bid | ask
      · simpa [Ladder.own,sound.valid.buys L bid e entry] using bid
      · simpa [Ladder.own,sound.valid.sells L ask e entry] using ask

theorem Sound.collides_iff (sound : Sound ob B) (a : OrderArgs) : Collides ob a ↔ ¬B.Clear a := by
  have named : ∀ L ∈ B.levels, (∃ r ∈ Orderbook.queueRefs ob.heap L.ref, (ob.heap.order r).id = a.id) ↔
      ∃ e ∈ L.queue, e.id = a.id := by
    intro L level
    have rep := sound.models.rep.level L level
    rw [sound.queueRefs level]
    constructor
    · rintro ⟨r,queued,same⟩
      obtain ⟨e,entry,rfl⟩ := List.mem_map.mp queued
      exact ⟨e,entry,(rep.entries e entry).id.symm.trans same⟩
    · rintro ⟨e,entry,same⟩
      exact ⟨e.ref,List.mem_map_of_mem entry,(rep.entries e entry).id.trans same⟩
  have beyond : (ob.opposite a.side).filter (fun l => stopsAt a.order (ob.heap.limit l).price) =
      ((B.opposite a.side).filter fun L => stopsAt a.order L.price).map Level.ref := by
    rw [sound.opposite,List.filter_map]
    refine congrArg (List.map Level.ref) (List.filter_congr fun L member => ?_)
    simp [(sound.models.rep.level L (Ladder.opposite_levels member)).price]
  have clash : Collides ob a ↔ B.rests a = true ∧
      ∃ L ∈ B.own a.side ++ (B.opposite a.side).filter (fun L => stopsAt a.order L.price),
        ∃ e ∈ L.queue, e.id = a.id := by
    rw [Collides,sound.crossingVolume,beyond,sound.own,← List.map_append,sound.valid.rests_iff,and_assoc]
    refine and_congr_right fun _ => and_congr_right fun _ => ?_
    have within : ∀ L ∈ B.own a.side ++ (B.opposite a.side).filter (fun L => stopsAt a.order L.price),
        L ∈ B.levels := by
      intro L member
      rcases List.mem_append.mp member with own | opposite
      · exact Ladder.own_levels own
      · exact Ladder.opposite_levels (List.mem_of_mem_filter opposite)
    constructor
    · rintro ⟨l,level,found⟩
      obtain ⟨L,member,rfl⟩ := List.mem_map.mp level
      exact ⟨L,member,(named L (within L member)).mp found⟩
    · rintro ⟨L,member,found⟩
      exact ⟨L.ref,List.mem_map_of_mem member,(named L (within L member)).mpr found⟩
  rw [clash,Ladder.Clear]
  constructor
  · rintro ⟨rests,L,member,e,entry,same⟩ clear
    rw [← sound.valid.makers_of_rests rests] at member
    exact clear rests L member e entry same
  · intro clashes
    simp only [not_forall,not_not] at clashes
    obtain ⟨rests,L,member,e,entry,same⟩ := clashes
    rw [sound.valid.makers_of_rests rests] at member
    exact ⟨rests,L,member,e,entry,same⟩

/-- The map can hold one entry for an ID only, so an index after a placement means it was clear. -/
theorem Ladder.Indexed.clear_of_place (valid : Ladder.Valid B) (bound : ∀ r ∈ refsOf B.levels, r < B.orderCount)
    (indexed : (B.place a).2.Indexed) : B.Clear a := by
  intro rests L member e entry same
  have entered : B.ordersAfter a a.id = some B.orderCount := by simp [Ladder.ordersAfter,rests]
  have old : e.ref < B.orderCount := by
    rcases List.mem_append.mp member with own | maker
    · exact bound e.ref (mem_refsOf.mpr ⟨L,Ladder.own_levels own,e,entry,rfl⟩)
    · have before := sweep_refs (stopsAt a.order) a.quantity (B.opposite a.side) e.ref
        (mem_refsOf.mpr ⟨L,List.mem_append_left _ maker,e,entry,rfl⟩)
      obtain ⟨M,level,d,queued,ref⟩ := mem_refsOf.mp before
      exact bound e.ref (mem_refsOf.mpr ⟨M,Ladder.opposite_levels level,d,queued,ref⟩)
  have after : ∃ M ∈ (B.place a).2.bids ++ (B.place a).2.asks, e ∈ M.queue := by
    rcases List.mem_append.mp member with own | maker
    · obtain ⟨M,inside,queued⟩ := valid.ownAfter_keeps own entry
      exact ⟨M,Ladder.mem_place_attached.mpr (.inl inside),queued⟩
    · exact ⟨L,Ladder.mem_place_attached.mpr (.inr maker),entry⟩
  obtain ⟨M,attached,queued⟩ := after
  have registered : B.ordersAfter a e.id = some e.ref := indexed M attached e queued
  rw [same,entered] at registered
  exact absurd (Option.some.inj registered) old.ne'

/-- The state of a run with room for the calls to come. -/
def Steady (calls : List Call) (ob : OrderBook) : Prop := ∃ B, Sound ob B ∧ B.Roomy (submitted calls)

theorem new_steady (bound : submitted calls < 2^64) : Steady calls newOrderBook :=
  ⟨Ladder.empty,new_sound,by simpa [exactLevels,Ladder.empty] using bound,by simp [Ladder.empty]⟩

theorem new_agrees : Agrees newOrderBook :=
  ⟨by simp [newOrderBook],by simp [newOrderBook]⟩

theorem Sound.call_roomy (sound : Sound ob B) (roomy : B.Roomy (submitted (c :: calls))) :
    (B.call c).2.Roomy (submitted calls) := by
  cases c with
  | process a => exact Ladder.Roomy.place (by simpa [submitted,Call.quantity] using roomy) sound.valid
  | cancel id' =>
    exact Ladder.Roomy.cancel (by simpa [submitted,Call.quantity] using roomy) sound.valid
      sound.models.rep.orderRefs id'

/-- One call keeps the map and the queues in agreement exactly when it does not collide. -/
theorem Steady.call (steady : Steady (c :: calls) ob) :
    ∃ reply ob', Orderbook.call ob c = some (reply,ob') ∧ Steady calls ob' ∧
      (Agrees ob → (Agrees ob' ↔ NoCollision ob c)) := by
  obtain ⟨B,sound,roomy⟩ := steady
  obtain ⟨ob',result,after⟩ := sound.call c
  have roomy' := sound.call_roomy roomy
  refine ⟨_,ob',result,⟨_,after,roomy'⟩,fun agrees => ?_⟩
  have indexed := (sound.agrees_iff roomy).mp agrees
  have distinct := sound.models.rep.orderRefs
  rw [after.agrees_iff roomy']
  cases c with
  | process a =>
    have guard : NoCollision ob (.process a) ↔ B.Clear a := by
      simp [NoCollision,sound.collides_iff]
    have bound : ∀ r ∈ refsOf B.levels, r < B.orderCount := by
      rw [← sound.models.orderCount]
      exact sound.models.rep.orderBound
    rw [guard]
    exact ⟨Ladder.Indexed.clear_of_place sound.valid bound,indexed.place sound.valid distinct⟩
  | cancel id' =>
    have guard : NoCollision ob (.cancel id') := by simp [NoCollision]
    exact ⟨fun _ => guard,fun _ => indexed.cancel sound.valid distinct id'⟩

/-- Where map and queues agree, the cancellable IDs are those of resting orders. -/
theorem Steady.cancel_iff (steady : Steady calls ob) (agrees : Agrees ob) (id' : GoString) :
    (cancel ob id').1 = true ↔ RestsUnder ob id' := by
  obtain ⟨B,sound,roomy⟩ := steady
  have indexed := (sound.agrees_iff roomy).mp agrees
  obtain ⟨ob',result,_⟩ := cancel_models sound.models sound.valid.sorted sound.valid.live id'
  rw [result,sound.restsUnder_iff]
  cases known : B.orders id' with
  | none =>
    simp only [Ladder.cancel,known,Option.bind_none,Bool.false_eq_true,false_iff]
    rintro ⟨L,member,e,entry,rfl⟩
    have registered := indexed L member e entry
    simp [known] at registered
  | some r =>
    obtain ⟨L,e,found,level,entry,rfl,rfl⟩ :=
      sound.valid.cancel_target sound.models.rep.orderRefs known
    have hit : (B.cancel e.id).1 = true := by
      simp only [Ladder.cancel,known,Option.bind_some,found]
      split <;> rfl
    simp only [hit,true_iff]
    exact ⟨L,roomy.tidy.attached level entry,e,entry,rfl⟩

/-- An ID that does not rest stays away until it is placed. -/
theorem Steady.absent_call (steady : Steady (c :: calls) ob) (absent : ¬RestsUnder ob id')
    (other : ∀ a, c = .process a → a.id ≠ id') (result : Orderbook.call ob c = some (reply,ob')) :
    ¬RestsUnder ob' id' := by
  obtain ⟨B,sound,_⟩ := steady
  obtain ⟨ob'',step,after⟩ := sound.call c
  obtain ⟨_,rfl⟩ := outcome_unique step result
  rw [sound.restsUnder_iff] at absent
  rw [after.restsUnder_iff]
  rintro ⟨L,member,e,entry,same⟩
  have distinct := sound.models.rep.orderRefs
  cases c with
  | process a =>
    have named : ∀ M ∈ B.bids ++ B.asks, ∀ d ∈ M.queue, d.id ≠ id' :=
      fun M inside d queued equal => absent ⟨M,inside,d,queued,equal⟩
    rcases Ladder.mem_place_attached.mp member with own | maker
    · exact sound.valid.ownAfter_forall (fun _ d => d.id ≠ id')
        (fun M inside => named M (Ladder.mem_attached.mpr (.inl inside))) (fun _ => other a rfl) L own e entry same
    · exact sweep_forall (stopsAt a.order) (fun _ d => d.id ≠ id') (fun _ _ _ holds _ => holds) a.quantity
        (B.opposite a.side) (fun M inside => named M (Ladder.mem_attached.mpr (.inr inside))) L
        (List.mem_append_left _ maker) e entry same
  | cancel name =>
    have origin : ∃ M ∈ B.bids ++ B.asks, e ∈ M.queue := by
      change L ∈ (B.cancel name).2.bids ++ (B.cancel name).2.asks at member
      exact Ladder.cancel_origin member entry
    obtain ⟨M,inside,queued⟩ := origin
    exact absent ⟨M,inside,e,queued,same⟩

theorem Steady.run (steady : Steady (front ++ rest) ob) (result : Runs.run Orderbook.call front ob = some (replies,ob')) :
    Steady rest ob' := by
  induction front generalizing ob replies with
  | nil =>
    obtain ⟨_,rfl⟩ := Prod.mk.inj (Option.some.inj result)
    exact steady
  | cons c front ih =>
    obtain ⟨reply,later,m,first,remaining,_⟩ := run_cons_inv result
    obtain ⟨reply',ob'',first',kept,_⟩ := steady.call
    obtain ⟨_,rfl⟩ := outcome_unique first first'
    exact ih kept remaining

theorem Steady.absent_run (steady : Steady (middle ++ rest) ob) (absent : ¬RestsUnder ob id')
    (other : ∀ a, .process a ∈ middle → a.id ≠ id')
    (result : Runs.run Orderbook.call middle ob = some (replies,ob')) : ¬RestsUnder ob' id' := by
  induction middle generalizing ob replies with
  | nil =>
    obtain ⟨_,rfl⟩ := Prod.mk.inj (Option.some.inj result)
    exact absent
  | cons c middle ih =>
    obtain ⟨reply,later,m,first,remaining,_⟩ := run_cons_inv result
    have gone := steady.absent_call absent (fun a same => other a (by simp [same])) first
    obtain ⟨reply',ob'',first',kept,_⟩ := steady.call
    obtain ⟨_,rfl⟩ := outcome_unique first first'
    exact ih kept gone (fun a member => other a (List.mem_cons_of_mem _ member)) remaining

/-- Makers are orders that rest when the call is made. -/
theorem Steady.maker_rests (steady : Steady calls ob) (result : Orderbook.call ob c = some (.trades trades,ob'))
    (trade : t ∈ trades) : RestsUnder ob t.makerOrderID := by
  obtain ⟨B,sound,_⟩ := steady
  obtain ⟨ob'',step,_⟩ := sound.call c
  obtain ⟨reply,_⟩ := outcome_unique step result
  cases c with
  | process a =>
    simp only [Ladder.call,Reply.trades.injEq] at reply
    rw [← reply] at trade
    obtain ⟨x,fill,rfl⟩ := List.mem_map.mp trade
    obtain ⟨L,level,maker,_⟩ := sweep_makers _ _ _ fill
    exact (sound.restsUnder_iff _).mpr ⟨L,Ladder.mem_attached.mpr (.inr level),x.maker,maker,rfl⟩
  | cancel name => simp [Ladder.call] at reply

theorem cancel_clears (sound : Sound ob B) (found : (cancel ob id').1 = true) :
    (cancel ob id').2.orders id' = none := by
  obtain ⟨ob',result,models,_⟩ := cancel_models sound.models sound.valid.sorted sound.valid.live id'
  rw [result] at found ⊢
  rw [models.orders]
  cases known : B.orders id' with
  | none => simp [Ladder.cancel,known] at found
  | some r =>
    obtain ⟨L,e,target,_,_,rfl,rfl⟩ := sound.valid.cancel_target sound.models.rep.orderRefs known
    simp only [Ladder.cancel,known,Option.bind_some,target]
    split
    · rw [dropLevel_orders]
      simp [Ladder.strip]
    · simp [Ladder.strip]

/-- Once an ID has been cancelled, no trade names it as maker until it is placed again. -/
def StaysCancelled (calls : List Call) : Prop :=
  ∀ front id' middle c rest, calls = front ++ .cancel id' :: (middle ++ c :: rest) →
    (∀ a, .process a ∈ middle → a.id ≠ id') → ∀ replies ob, runCalls front = some (replies,ob) →
    (cancel ob id').1 = true → ∀ replies' ob', run call middle (cancel ob id').2 = some (replies',ob') →
    ∀ trades ob'', call ob' c = some (.trades trades,ob'') → ∀ t ∈ trades, t.makerOrderID ≠ id'

theorem staysCancelled_of_agrees (bound : submitted calls < 2^64) (agrees : Always call Agrees calls newOrderBook) :
    StaysCancelled calls := by
  rintro front id' middle c rest rfl other replies ob before found replies' ob' between trades ob'' result t trade rfl
  have steady : Steady (.cancel t.makerOrderID :: (middle ++ c :: rest)) ob := (new_steady bound).run before
  obtain ⟨reply,ob1,step,after,_⟩ := steady.call
  obtain ⟨_,rfl⟩ := Prod.mk.inj (Option.some.inj step)
  have agrees' : Agrees (cancel ob t.makerOrderID).2 := by
    have one : run call [.cancel t.makerOrderID] ob =
        some ([.cancelled (cancel ob t.makerOrderID).1],(cancel ob t.makerOrderID).2) := rfl
    exact agrees (front ++ [.cancel t.makerOrderID]) (middle ++ c :: rest) _ _ (by simp) (run_append before one)
  obtain ⟨B,sound,_⟩ := steady
  have absent : ¬RestsUnder (cancel ob t.makerOrderID).2 t.makerOrderID := by
    rw [← after.cancel_iff agrees']
    rw [cancel,cancel_clears sound found]
    exact Bool.false_ne_true
  have away := after.absent_run absent other between
  have later : Steady (c :: rest) ob' := after.run between
  exact away (later.maker_rests result trade)

/-- Resting orders are exactly the cancellable ones, throughout a run, exactly when no call of
the run brings an order to rest beside another one of its ID. -/
theorem cancellable_iff_no_collision (calls : List Call) (bound : submitted calls < 2^64) :
    (Always call Agrees calls newOrderBook ∧
      Always call (fun ob => ∀ id', (cancel ob id').1 = true ↔ RestsUnder ob id') calls newOrderBook ∧
      StaysCancelled calls) ↔ EachStep call NoCollision calls newOrderBook := by
  have exact := (always_iff_eachStep (P := Agrees) (Q := Agrees) (G := NoCollision) Steady (fun _ holds => holds)
    (fun c rest ob steady => by
      obtain ⟨reply,ob',step,kept,same⟩ := steady.call
      exact ⟨reply,ob',step,kept,fun agrees => ⟨(same agrees).mp,(same agrees).mpr⟩⟩)
    calls (new_steady bound) new_agrees).1
  constructor
  · rintro ⟨agrees,_,_⟩
    exact exact.mp agrees
  · intro clear
    have agrees := exact.mpr clear
    refine ⟨agrees,?_,staysCancelled_of_agrees bound agrees⟩
    intro front rest replies ob split result
    have steady : Steady rest ob := (new_steady (by rwa [← split])).run result
    exact steady.cancel_iff (agrees front rest replies ob split result)

theorem sampleCalls_cancellable_iff :
    (Always call Agrees sampleCalls newOrderBook ∧
      Always call (fun ob => ∀ id', (cancel ob id').1 = true ↔ RestsUnder ob id') sampleCalls newOrderBook ∧
      StaysCancelled sampleCalls) ↔ EachStep call NoCollision sampleCalls newOrderBook :=
  cancellable_iff_no_collision sampleCalls sampleCalls_bound

/-- Two buy orders under one ID at different prices, the ID cancelled twice, then a seller. -/
def reusedID : List Call :=
  [.process ⟨[97],buy,limitOrder,10,1⟩,.process ⟨[97],buy,limitOrder,11,1⟩,.cancel [97],.cancel [97],
    .process ⟨[98],sell,marketOrder,0,1⟩]

/-- Accepted requests whose second cancel fails while the first order still rests, and trades
afterwards as a maker under the cancelled ID. -/
theorem reusedID_trades_after_cancel :
    (∀ a, .process a ∈ reusedID → acceptsPlace a = true) ∧ submitted reusedID < 2^64 ∧
      (runCalls reusedID).map Prod.fst =
        some [.trades [],.trades [],.cancelled true,.cancelled false,.trades [⟨[97],[98],10,1⟩]] := by
  refine ⟨?_,by decide,by decide⟩
  intro a member
  simp only [reusedID,List.mem_cons,Call.process.injEq,reduceCtorEq,List.not_mem_nil,or_false,false_or] at member
  rcases member with rfl | rfl | rfl <;> decide

end TradingPlatform.Orderbook

import TradingPlatform.CancelRoute
import TradingPlatform.Erasure

/-! What a book shows is all there is to it. Two books that show the same levels and queues answer
every further call alike, however they came about; and a book can be built again from what it
shows, by placing its resting orders on an empty one. -/
namespace TradingPlatform.Orderbook

open NaiveBook Runs

/-- The first calls of a stretch, with everything the rest of it needs. -/
theorem Tracks.run (tracks : Tracks (xs ++ ys) ob F B) (fresh : naiveFresh F (xs ++ ys) = true) :
    ∃ replies ob' F' B', Runs.run Orderbook.call xs ob = some (replies,ob') ∧
    Runs.run naiveStep xs F = some (replies,F') ∧ Tracks ys ob' F' B' ∧ naiveFresh F' ys = true := by
  obtain ⟨replies,ob',F',result,naive,⟨B',tracks'⟩,fresh'⟩ := run_simulates
    (fun calls ob F => (∃ B, Tracks (calls ++ ys) ob F B) ∧ naiveFresh F (calls ++ ys) = true)
    (fun c calls ob F holds => by
      obtain ⟨⟨B,tracks⟩,fresh⟩ := holds
      obtain ⟨unused,later⟩ := (naiveFresh_cons c (calls ++ ys) F).mp fresh
      obtain ⟨ob',step,after⟩ := tracks.call unused
      exact ⟨_,ob',_,step,rfl,⟨_,after⟩,later⟩)
    xs ⟨⟨B,tracks⟩,fresh⟩
  exact ⟨replies,ob',F',B',result,naive,tracks',fresh'⟩

theorem Tracks.start (sides : KnownSides (xs ++ ys)) (fresh : FreshIDs newOrderBook (xs ++ ys))
    (bound : submitted (xs ++ ys) < 2^64) (result : runCalls xs = some (replies,ob)) :
    ∃ F B, Tracks ys ob F B ∧ naiveFresh F ys = true := by
  have tracks := new_tracks sides bound
  obtain ⟨_,_,F,B,result',_,tracks',fresh'⟩ := tracks.run (tracks.freshIDs_iff.mp fresh)
  obtain ⟨_,rfl⟩ := outcome_unique result result'
  exact ⟨F,B,tracks',fresh'⟩

theorem queueAt_quotes (levels : List Level) (price : UInt64) :
    (queueAt levels price).map Resting.quote =
      (((levels.map fun L => (⟨L.price,L.volume,L.queue.map Resting.quote⟩ : LevelView)).filter
        fun v => v.price = price).flatMap LevelView.queue) := by
  induction levels with
  | nil => rfl
  | cons L levels ih =>
    rw [queueAt_cons,List.map_append,ih,List.map_cons,List.filter_cons]
    by_cases same : L.price = price
    · simp [same]
    · simp [same]

theorem Sound.viewBook (sound : Sound ob B) : Orderbook.viewBook ob =
    (B.bids.map fun L => ⟨L.price,L.volume,L.queue.map Resting.quote⟩,
      B.asks.map fun L => ⟨L.price,L.volume,L.queue.map Resting.quote⟩) := by
  rw [Orderbook.viewBook,sound.models.bids,sound.models.asks,List.map_map,List.map_map]
  refine Prod.ext (List.map_congr_left fun L member => ?_) (List.map_congr_left fun L member => ?_)
  · exact sound.viewLevel (Ladder.attached_levels (List.mem_append_left _ member))
  · exact sound.viewLevel (Ladder.attached_levels (List.mem_append_right _ member))

/-- Books that show the same stand for the same flat lists. -/
theorem Tracks.alike (first : Tracks calls ob F B) (second : Tracks calls' ob' F' B')
    (same : Orderbook.viewBook ob = Orderbook.viewBook ob') : Tracks calls ob' F B' := by
  rw [first.sound.viewBook,second.sound.viewBook] at same
  obtain ⟨bids,asks⟩ := Prod.mk.inj same
  refine ⟨second.sound,⟨fun p => ?_,fun p => ?_,second.flat.detached,second.flat.indexed⟩,first.sides,first.bound⟩
  · rw [first.flat.bids p,queueAt_quotes,queueAt_quotes,bids]
  · rw [first.flat.asks p,queueAt_quotes,queueAt_quotes,asks]

theorem Tracks.answer_alike (first : Tracks calls ob F B) (second : Tracks calls ob' F B')
    (fresh : naiveFresh F calls = true) : ∃ replies after after',
      Runs.run Orderbook.call calls ob = some (replies,after) ∧
      Runs.run Orderbook.call calls ob' = some (replies,after') ∧
      Orderbook.viewBook after = Orderbook.viewBook after' := by
  rw [← List.append_nil calls] at first second fresh
  obtain ⟨replies,after,G,_,result,naive,tracks,_⟩ := first.run fresh
  obtain ⟨_,after',_,_,result',naive',tracks',_⟩ := second.run fresh
  obtain ⟨rfl,rfl⟩ := outcome_unique naive naive'
  exact ⟨replies,after,after',result,result',by rw [tracks.viewBook,tracks'.viewBook]⟩

/-- The view of a book decides everything that comes after. -/
theorem same_view_same_future (sides : KnownSides (xs ++ rest)) (fresh : FreshIDs newOrderBook (xs ++ rest))
    (bound : submitted (xs ++ rest) < 2^64) (sides' : KnownSides ys) (fresh' : FreshIDs newOrderBook ys)
    (bound' : submitted ys < 2^64) (result : runCalls xs = some (replies,ob))
    (result' : runCalls ys = some (replies',ob')) (same : viewBook ob = viewBook ob') :
    ∃ later after after', run call rest ob = some (later,after) ∧ run call rest ob' = some (later,after') ∧
      viewBook after = viewBook after' := by
  rw [← List.append_nil ys] at sides' fresh' bound'
  obtain ⟨F,B,tracks,coming⟩ := Tracks.start sides fresh bound result
  obtain ⟨F',B',tracks',_⟩ := Tracks.start sides' fresh' bound' result'
  exact tracks.answer_alike (tracks.alike tracks' same) coming

/-- What is left of a larger order, and an order placed at that size. -/
def partlySold : List Call := [.process ⟨[1],sell,limitOrder,100,5⟩,.process ⟨[2],buy,limitOrder,100,2⟩]

def soldAtOnce : List Call := [.process ⟨[1],sell,limitOrder,100,3⟩]

def laterBuy : List Call := [.process ⟨[3],buy,limitOrder,101,4⟩]

theorem partlySold_sides : KnownSides (partlySold ++ laterBuy) := by
  intro a member
  simp only [partlySold,laterBuy,List.cons_append,List.nil_append,List.mem_cons,Call.process.injEq,
    List.not_mem_nil,or_false] at member
  rcases member with rfl | rfl | rfl
  · exact .inr rfl
  · exact .inl rfl
  · exact .inl rfl

theorem soldAtOnce_sides : KnownSides soldAtOnce := by
  intro a member
  simp only [soldAtOnce,List.mem_cons,Call.process.injEq,List.not_mem_nil,or_false] at member
  exact .inr (member ▸ rfl)

theorem partlySold_same_future : ∃ replies ob replies' ob' later after after', runCalls partlySold = some (replies,ob) ∧
    runCalls soldAtOnce = some (replies',ob') ∧ run call laterBuy ob = some (later,after) ∧
    run call laterBuy ob' = some (later,after') ∧ viewBook after = viewBook after' := by
  have first : (runCalls partlySold).map (fun r => viewBook r.2) = some ([],[⟨100,3,[⟨[1],sell,100,3⟩]⟩]) := by decide
  have second : (runCalls soldAtOnce).map (fun r => viewBook r.2) = some ([],[⟨100,3,[⟨[1],sell,100,3⟩]⟩]) := by decide
  have bound : submitted (partlySold ++ laterBuy) < 2^64 := by decide
  have bound' : submitted soldAtOnce < 2^64 := by decide
  obtain ⟨⟨replies,ob⟩,result,shown⟩ := Option.map_eq_some_iff.mp first
  obtain ⟨⟨replies',ob'⟩,result',shown'⟩ := Option.map_eq_some_iff.mp second
  obtain ⟨later,after,after',run,run',same⟩ := same_view_same_future partlySold_sides
    ((new_tracks partlySold_sides bound).freshIDs_iff.mpr (by decide)) bound soldAtOnce_sides
    ((new_tracks soldAtOnce_sides bound').freshIDs_iff.mpr (by decide)) bound' result result' (shown.trans shown'.symm)
  exact ⟨replies,ob,replies',ob',later,after,after',result,result',run,run',same⟩

/-- The order that brings a quote back. -/
def Quote.args (x : Quote) : OrderArgs := ⟨x.id,x.side,limitOrder,x.price,x.remaining⟩

/-- A quote that can join a list without trading. -/
def Joins (x y : Quote) : Prop := x.id ≠ y.id ∧ (faces y.side x = true → crosses y.args x.price = false)

theorem place_joins (positive : x.remaining ≠ 0) (joins : ∀ y ∈ F, Joins y x) :
    NaiveBook.place F x.args = ([],F ++ [x]) := by
  have untraded : tradeAll x.args F.length x.remaining F = ⟨[],x.remaining,F⟩ := by
    refine tradeAll_stops (.inr fun front y back found => ?_) _
    obtain ⟨split,facing,_,_⟩ := pick_some found
    exact (joins y (by simp [split])).2 facing
  simp only [NaiveBook.place]
  rw [show x.args.quantity = x.remaining from rfl,untraded]
  simp [positive,Quote.args]

/-- Placing quotes that do not trade with each other lists them in the order of placement. -/
theorem naive_rebuilds (positive : ∀ x ∈ Q, x.remaining ≠ 0) (joins : (F ++ Q).Pairwise Joins) :
    run naiveStep (Q.map fun x => .process x.args) F = some (Q.map fun _ => .trades [],F ++ Q) ∧
      naiveFresh F (Q.map fun x => .process x.args) = true := by
  induction Q generalizing F with
  | nil => simp [run,naiveFresh]
  | cons x Q ih =>
    have before : ∀ y ∈ F, Joins y x := fun y member =>
      (List.pairwise_append.mp joins).2.2 y member x List.mem_cons_self
    have placed := place_joins (positive x List.mem_cons_self) before
    have regroup : F ++ x :: Q = F ++ [x] ++ Q := by simp
    obtain ⟨rest,fresh⟩ := ih (F := F ++ [x]) (fun y member => positive y (List.mem_cons_of_mem _ member))
      (regroup ▸ joins)
    have step : naiveStep F (.process x.args) = some (.trades [],F ++ [x]) := by
      rw [naiveStep,NaiveBook.call,placed]
    refine ⟨?_,?_⟩
    · rw [regroup]
      exact run_cons step rest
    · simp only [List.map_cons,naiveFresh,placed,Bool.and_eq_true,List.all_eq_true,decide_eq_true_eq]
      exact ⟨fun y member => (before y member).1,fresh⟩

/-- A ladder's orders as quotes, bids before asks. -/
def Ladder.quotes (B : Ladder) : List Quote := (B.bids ++ B.asks).flatMap fun L => L.queue.map Resting.quote

theorem mem_quotes : x ∈ Ladder.quotes B ↔ ∃ L ∈ B.bids ++ B.asks, ∃ e ∈ L.queue, e.quote = x := by
  simp only [Ladder.quotes,List.mem_flatMap,List.mem_map]

/-- The quotes of one side stand at that side only. -/
theorem standingAt_quotes (own : Bool) (levels : List Level)
    (held : ∀ L ∈ levels, ∀ e ∈ L.queue, decide (e.side = buy) = own)
    (priced : ∀ L ∈ levels, ∀ e ∈ L.queue, e.price = L.price) (buying : Bool) (price : UInt64) :
    standingAt (levels.flatMap fun L => L.queue.map Resting.quote) buying price =
      if own = buying then (queueAt levels price).map Resting.quote else [] := by
  induction levels with
  | nil => simp [standingAt,queueAt]
  | cons L levels ih =>
    have rest := ih (fun M member => held M (List.mem_cons_of_mem _ member))
      fun M member => priced M (List.mem_cons_of_mem _ member)
    have first : standingAt (L.queue.map Resting.quote) buying price =
        if own = buying then (if L.price = price then L.queue else []).map Resting.quote else [] := by
      by_cases stands : own = buying ∧ L.price = price
      · obtain ⟨rfl,rfl⟩ := stands
        rw [if_pos rfl,if_pos rfl,standingAt,List.filter_eq_self]
        intro x member
        obtain ⟨e,queued,rfl⟩ := List.mem_map.mp member
        simp [Resting.quote,held L List.mem_cons_self e queued,priced L List.mem_cons_self e queued]
      · have none : standingAt (L.queue.map Resting.quote) buying price = [] := by
          rw [standingAt,List.filter_eq_nil_iff]
          intro x member shown
          obtain ⟨e,queued,rfl⟩ := List.mem_map.mp member
          simp only [Resting.quote,held L List.mem_cons_self e queued,priced L List.mem_cons_self e queued,
            Bool.and_eq_true,beq_iff_eq,decide_eq_true_eq] at shown
          exact stands shown
        rw [none]
        by_cases side : own = buying
        · have apart : L.price ≠ price := fun same => stands ⟨side,same⟩
          simp [side,apart]
        · simp [side]
    rw [List.flatMap_cons,standingAt_append,rest,first,queueAt_cons]
    split <;> simp

theorem Ladder.Valid.shows_quotes (valid : Ladder.Valid B) :
    Shows true B.bids B.quotes ∧ Shows false B.asks B.quotes := by
  have bids := fun buying price => standingAt_quotes true B.bids
    (fun L level e entry => by simp [valid.buys L level e entry])
    (fun L level e entry => (valid.entries L (by simp [Ladder.levels,level]) e entry).1) buying price
  have asks := fun buying price => standingAt_quotes false B.asks
    (fun L level e entry => by simp [valid.sells L level e entry])
    (fun L level e entry => (valid.entries L (by simp [Ladder.levels,level]) e entry).1) buying price
  constructor
  · intro price
    rw [Ladder.quotes,List.flatMap_append,standingAt_append,bids,asks]
    simp
  · intro price
    rw [Ladder.quotes,List.flatMap_append,standingAt_append,bids,asks]
    simp

/-- A flat list holds exactly the quotes of its ladder. -/
theorem Flat.perm (flat : Flat B F) (valid : B.Valid) : B.quotes.Perm F := by
  refine List.perm_iff_count.mpr fun x => ?_
  obtain ⟨bids,asks⟩ := valid.shows_quotes
  have same : standingAt B.quotes (decide (x.side = buy)) x.price = standingAt F (decide (x.side = buy)) x.price := by
    by_cases buying : x.side = buy
    · rw [decide_eq_true buying,bids x.price,flat.bids x.price]
    · rw [decide_eq_false buying,asks x.price,flat.asks x.price]
  have count (G : NaiveBook) : (standingAt G (decide (x.side = buy)) x.price).count x = G.count x :=
    List.count_filter (by simp)
  rw [← count,same,count]

/-- The calls that build a book again from what rests in it. -/
def snapshot (ob : OrderBook) : List Call :=
  (resting ob).map fun r => .process ⟨(ob.heap.order r).id,(ob.heap.order r).side,limitOrder,(ob.heap.order r).price,
    (ob.heap.order r).remainingQty⟩

theorem Sound.snapshot (sound : Sound ob B) : Orderbook.snapshot ob = B.quotes.map fun x => .process x.args := by
  rw [Orderbook.snapshot,sound.resting,refsOf,Ladder.quotes,List.map_flatMap,List.map_flatMap]
  refine List.flatMap_congr fun L member => ?_
  have level := Ladder.attached_levels member
  rw [Level.refs,List.map_map,List.map_map]
  refine List.map_congr_left fun e entry => ?_
  have cell := (sound.models.rep.level L level).entries e entry
  simp [Resting.quote,Quote.args,cell.id,cell.side,cell.price,cell.remaining]

theorem Ladder.Valid.uncrossed_entries {B : Ladder} (valid : B.Valid) (first : L ∈ B.bids ++ B.asks) (entry : e ∈ L.queue)
    (second : M ∈ B.bids ++ B.asks) (entry' : d ∈ M.queue) (facing : faces d.side e.quote = true) :
    crosses d.quote.args e.price = false := by
  have price := (valid.entries L (Ladder.attached_levels first) e entry).1
  have price' := (valid.entries M (Ladder.attached_levels second) d entry').1
  have sides : decide (e.side = buy) = !decide (d.side = buy) := faces_iff.mp facing
  rcases List.mem_append.mp first with bid | ask
  · have buys := valid.buys L bid e entry
    rcases List.mem_append.mp second with bid' | ask'
    · simp [buys,valid.buys M bid' d entry'] at sides
    · have apart := valid.uncrossed L bid M ask'
      rw [← price,← price'] at apart
      have short : ¬d.price ≤ e.price := UInt64.not_le.mpr apart
      simp [crosses,Quote.args,Resting.quote,valid.sells M ask' d entry',short]
  · have sells := valid.sells L ask e entry
    rcases List.mem_append.mp second with bid' | ask'
    · have apart := valid.uncrossed M bid' L ask
      rw [← price,← price'] at apart
      simp [crosses,Quote.args,Resting.quote,valid.buys M bid' d entry',apart]
    · simp [sells,valid.sells M ask' d entry'] at sides

/-- Orders that rest together do not trade with each other and have different IDs. -/
theorem Sound.quotes_join (sound : Sound ob B) (indexed : B.Indexed) : B.quotes.Pairwise Joins := by
  have distinct : ((B.bids ++ B.asks).flatMap Level.queue).Pairwise fun e d => e.ref ≠ d.ref := by
    have refs : (refsOf (B.bids ++ B.asks)).Nodup := by
      refine sound.models.rep.orderRefs.sublist ?_
      simp only [Ladder.levels,refsOf_append]
      exact (List.sublist_append_left _ _).append_left _
    rw [show refsOf (B.bids ++ B.asks) = ((B.bids ++ B.asks).flatMap Level.queue).map Resting.ref by
      rw [refsOf,List.map_flatMap]
      rfl] at refs
    exact List.pairwise_map.mp refs
  rw [Ladder.quotes,← List.map_flatMap,List.pairwise_map]
  refine distinct.imp_of_mem fun {e d} inside inside' apart => ?_
  obtain ⟨L,level,entry⟩ := List.mem_flatMap.mp inside
  obtain ⟨M,level',entry'⟩ := List.mem_flatMap.mp inside'
  refine ⟨fun same => apart ?_,sound.valid.uncrossed_entries level entry level' entry'⟩
  have known := indexed L level e entry
  rw [show e.id = d.id from same,indexed M level' d entry'] at known
  exact (Option.some.inj known).symm

/-- Every instance was submitted by a call. -/
theorem Sound.origin_run (sound : Sound ob B) (result : Runs.run Orderbook.call calls ob = some (replies,ob'))
    (bound : r < ob'.heap.orderCount) :
    r < ob.heap.orderCount ∧ (ob'.heap.order r).args = (ob.heap.order r).args ∨
      ∃ a, .process a ∈ calls ∧ (ob'.heap.order r).args = a := by
  induction calls generalizing ob B replies with
  | nil =>
    obtain ⟨_,rfl⟩ := Prod.mk.inj (Option.some.inj result)
    exact .inl ⟨bound,rfl⟩
  | cons c calls ih =>
    obtain ⟨reply,later,m,first,rest,_⟩ := run_cons_inv result
    obtain ⟨ob1,first',after,effect⟩ := sound.step c
    obtain ⟨_,rfl⟩ := outcome_unique first first'
    rcases ih after rest with ⟨old,same⟩ | ⟨a,member,same⟩
    · rw [effect.orderCount] at old
      rw [same,effect.args]
      cases c with
      | cancel id' => exact .inl ⟨old,rfl⟩
      | process a =>
        rcases Nat.lt_succ_iff_lt_or_eq.mp old with before | rfl
        · exact .inl ⟨before,by simp [grown,newOrder,before.ne]⟩
        · exact .inr ⟨a,List.mem_cons_self,by simp [grown,newOrder,Order.args,OrderArgs.order]⟩
    · exact .inr ⟨a,List.mem_cons_of_mem _ member,same⟩

/-- Placing what rests in a book on an empty one trades nothing, shows the same book, and answers
everything that follows alike. -/
theorem rebuilt_book_answers_alike (sides : KnownSides (calls ++ rest)) (fresh : FreshIDs newOrderBook (calls ++ rest))
    (bound : submitted (calls ++ rest) < 2^64) (result : runCalls calls = some (replies,ob)) :
    ∃ ob', runCalls (snapshot ob) = some ((snapshot ob).map fun _ => .trades [],ob') ∧ viewBook ob' = viewBook ob ∧
      ∃ later after after', run call rest ob = some (later,after) ∧ run call rest ob' = some (later,after') ∧
        viewBook after' = viewBook after := by
  obtain ⟨F,B,tracks,coming⟩ := Tracks.start sides fresh bound result
  have valid := tracks.sound.valid
  have perm := tracks.flat.perm valid
  have total' : submitted (B.quotes.map fun x => .process x.args) = total F := by
    rw [total,← (perm.map _).sum_eq,submitted,List.map_map]
    rfl
  have positive : ∀ x ∈ B.quotes, x.remaining ≠ 0 := by
    intro x member
    obtain ⟨L,level,e,entry,rfl⟩ := mem_quotes.mp member
    exact (valid.entries L (Ladder.attached_levels level) e entry).2
  have known : KnownSides (B.quotes.map fun x => .process x.args) := by
    intro a member
    obtain ⟨x,quoted,same⟩ := List.mem_map.mp member
    obtain ⟨L,level,e,entry,rfl⟩ := mem_quotes.mp quoted
    have inside := Ladder.attached_levels level
    have bound := tracks.sound.models.rep.orderBound e.ref (mem_refsOf.mpr ⟨L,inside,e,entry,rfl⟩)
    obtain ⟨none,_⟩ | ⟨b,submitted,terms⟩ := new_sound.origin_run result bound
    · exact absurd none (Nat.not_lt_zero _)
    · have side : e.side = b.side := by
        rw [← terms,← ((tracks.sound.models.rep.level L inside).entries e entry).side]
        rfl
      rw [← Call.process.inj same]
      change e.side = buy ∨ e.side = sell
      rw [side]
      exact sides b (List.mem_append_left _ submitted)
  obtain ⟨naive,unused⟩ := naive_rebuilds (F := []) positive (tracks.sound.quotes_join tracks.flat.indexed)
  have fits := tracks.bound
  obtain ⟨_,ob',_,B',rebuilt,naive',tracks'⟩ := runCalls_tracks known unused (by omega)
  obtain ⟨rfl,rfl⟩ := outcome_unique naive naive'
  have shown : viewBook ob = viewBook ob' := by
    obtain ⟨bids,asks⟩ := valid.shows_quotes
    have again : Tracks rest ob B.quotes B :=
      ⟨tracks.sound,⟨bids,asks,tracks.flat.detached,tracks.flat.indexed⟩,tracks.sides,by
        rw [total,(perm.map _).sum_eq]
        exact fits⟩
    rw [again.viewBook,tracks'.viewBook]
    rfl
  obtain ⟨later,after,after',first,second,same⟩ := tracks.answer_alike (tracks.alike tracks' shown) coming
  refine ⟨ob',?_,shown.symm,later,after,after',first,second,same.symm⟩
  rw [tracks.sound.snapshot,rebuilt,List.map_map]
  rfl

theorem partlySold_rebuilt : ∃ replies ob ob', runCalls partlySold = some (replies,ob) ∧
    runCalls (snapshot ob) = some ((snapshot ob).map fun _ => .trades [],ob') ∧ viewBook ob' = viewBook ob := by
  have bound : submitted (partlySold ++ laterBuy) < 2^64 := by decide
  obtain ⟨replies,ob,_,result,_⟩ := runCalls_sound partlySold
  obtain ⟨ob',rebuilt,same,_⟩ := rebuilt_book_answers_alike partlySold_sides
    ((new_tracks partlySold_sides bound).freshIDs_iff.mpr (by decide)) bound result
  exact ⟨replies,ob,ob',result,rebuilt,same⟩

end TradingPlatform.Orderbook

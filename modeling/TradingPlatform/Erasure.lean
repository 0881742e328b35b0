import TradingPlatform.BookView

/-! An order that is cancelled before anyone trades with it leaves no trace. Until the
cancel the two flat lists differ in that one order, and no scan that avoids trading with
it can tell them apart. -/
namespace TradingPlatform.Orderbook

open NaiveBook Runs

/-- What `pick_some` lists determines the result of the scan. -/
theorem pick_eq (facing : faces side x = true)
    (worse : ∀ y ∈ front, faces side y = true → better side x.price y.price = true)
    (notBetter : ∀ y ∈ back, faces side y = true → better side y.price x.price = false) :
    pick side (front ++ x :: back) = some (front,x,back) := by
  cases found : pick side (front ++ x :: back) with
  | none =>
    have unfaced := pick_none found x (by simp)
    simp [facing] at unfaced
  | some best =>
    obtain ⟨front',y,back'⟩ := best
    obtain ⟨split,facing',worse',notBetter'⟩ := pick_some found
    rcases List.append_eq_append_iff.mp split with ⟨gap,rfl,later⟩ | ⟨gap,rfl,later⟩
    · cases gap with
      | nil =>
        obtain ⟨rfl,rfl⟩ := List.cons.inj later
        simp
      | cons z gap =>
        obtain ⟨rfl,rfl⟩ := List.cons.inj later
        have strict := worse' x (by simp) facing
        have weak := notBetter y (by simp) facing'
        simp [strict] at weak
    · cases gap with
      | nil =>
        obtain ⟨rfl,rfl⟩ := List.cons.inj later
        simp
      | cons z gap =>
        obtain ⟨rfl,rfl⟩ := List.cons.inj later
        have strict := worse y (by simp) facing'
        have weak := notBetter' x (by simp) facing
        simp [strict] at weak

/-- The first list is the second with `x` standing somewhere in it. -/
def Beside (x : Quote) (F G : NaiveBook) : Prop := ∃ front back, F = front ++ x :: back ∧ G = front ++ back

theorem Beside.subset (beside : Beside x F G) (member : y ∈ G) : y ∈ F := by
  obtain ⟨front,back,rfl,rfl⟩ := beside
  exact (List.Sublist.append_left (List.sublist_cons_self x back) front).subset member

theorem Beside.snoc (beside : Beside x F G) (tail : NaiveBook) : Beside x (F ++ tail) (G ++ tail) := by
  obtain ⟨front,back,rfl,rfl⟩ := beside
  exact ⟨front,back ++ tail,by simp,by simp⟩

/-- A scan that does not choose `x` chooses the same order without it, and whatever is put
in the place of the chosen order leaves the lists beside each other. -/
theorem Beside.pick (beside : Beside x F G) (found : Orderbook.pick side F = some (front,y,back)) :
    (y = x ∧ front ++ back = G) ∨ ∃ front' back', Orderbook.pick side G = some (front',y,back') ∧
      ∀ mid, Beside x (front ++ (mid ++ back)) (front' ++ (mid ++ back')) := by
  obtain ⟨before,after,rfl,rfl⟩ := beside
  obtain ⟨split,facing,worse,notBetter⟩ := pick_some found
  rcases List.append_eq_append_iff.mp split with ⟨gap,rfl,later⟩ | ⟨gap,rfl,later⟩
  · cases gap with
    | nil =>
      obtain ⟨rfl,rfl⟩ := List.cons.inj later
      exact .inl ⟨rfl,by simp⟩
    | cons z gap =>
      obtain ⟨rfl,rfl⟩ := List.cons.inj later
      refine .inr ⟨before ++ gap,back,?_,fun mid => ⟨before,gap ++ (mid ++ back),by simp,by simp⟩⟩
      have ahead : ∀ w ∈ before ++ gap, faces side w = true → better side y.price w.price = true :=
        fun w member => worse w (Beside.subset ⟨before,gap,rfl,rfl⟩ member)
      simpa using pick_eq facing ahead notBetter
  · cases gap with
    | nil =>
      obtain ⟨rfl,rfl⟩ := List.cons.inj later
      exact .inl ⟨rfl,by simp⟩
    | cons z gap =>
      obtain ⟨rfl,rfl⟩ := List.cons.inj later
      refine .inr ⟨front,gap ++ after,?_,fun mid => ⟨front ++ (mid ++ gap),after,by simp,by simp⟩⟩
      have behind : ∀ w ∈ gap ++ after, faces side w = true → better side w.price y.price = false :=
        fun w member => notBetter w (Beside.subset ⟨gap,after,rfl,rfl⟩ member)
      simpa using pick_eq facing worse behind

/-- The matching loop ends at once where the best order does not cross. -/
theorem tradeAll_stops {a : OrderArgs} (halts : q = 0 ∨ ∀ front y back,
    pick a.side G = some (front,y,back) → crosses a y.price = false) (n : Nat) :
    tradeAll a n q G = ⟨[],q,G⟩ := by
  cases n with
  | zero => rfl
  | succ n =>
    simp only [tradeAll]
    by_cases zero : q = 0
    · simp [zero]
    · cases found : pick a.side G with
      | none => simp
      | some best =>
        obtain ⟨front,y,back⟩ := best
        have short := (halts.resolve_left zero) front y back found
        simp [zero,short]

theorem crosses_of_better {a : OrderArgs} (crossing : crosses a p = true)
    (notBetter : better a.side p p' = false) : crosses a p' = true := by
  by_cases limit : a.type = limitOrder
  · by_cases buying : a.side = buy
    · simp only [crosses,better,limit,buying,if_true,ne_eq,not_true_eq_false,decide_false,Bool.false_or,
        decide_eq_true_eq,decide_eq_false_iff_not] at crossing notBetter ⊢
      grind
    · simp only [crosses,better,limit,buying,if_false,ne_eq,not_true_eq_false,decide_false,Bool.false_or,
        decide_eq_true_eq,decide_eq_false_iff_not] at crossing notBetter ⊢
      grind
  · simp [crosses,limit]

/-- Where the scan stops at `x` without crossing, it stops without `x` as well. -/
theorem stops_without {a : OrderArgs} (found : pick a.side F = some (front,x,back))
    (short : crosses a x.price = false) (found' : pick a.side (front ++ back) = some (front',y,back')) :
    crosses a y.price = false := by
  obtain ⟨_,_,worse,notBetter⟩ := pick_some found
  obtain ⟨split,facing,_,_⟩ := pick_some found'
  have member : y ∈ front ++ back := by
    rw [split]
    simp
  have behind : better a.side y.price x.price = false := by
    rcases List.mem_append.mp member with early | late
    · have strict := worse y early facing
      rw [better_iff_precedes] at strict ⊢
      exact precedes_asymm strict
    · exact notBetter y late facing
  by_contra crossing
  have reaches := crosses_of_better (Bool.eq_true_of_not_eq_false crossing) behind
  simp [short] at reaches

/-- A matching that never trades with `x` goes the same way without it. -/
theorem Beside.tradeAll (a : OrderArgs) (n m : Nat) (q : UInt64) (beside : Beside x F G)
    (enough : F.length ≤ n) (enough' : G.length ≤ m)
    (quiet : ∀ t ∈ (Orderbook.tradeAll a n q F).trades, t.makerOrderID ≠ x.id) :
    (Orderbook.tradeAll a m q G).trades = (Orderbook.tradeAll a n q F).trades ∧
    (Orderbook.tradeAll a m q G).left = (Orderbook.tradeAll a n q F).left ∧
    Beside x (Orderbook.tradeAll a n q F).book (Orderbook.tradeAll a m q G).book := by
  induction n generalizing m q F G with
  | zero =>
    obtain ⟨front,back,rfl,_⟩ := beside
    simp at enough
  | succ n ih =>
    by_cases halts : q = 0 ∨ ∀ front y back,
        Orderbook.pick a.side F = some (front,y,back) → crosses a y.price = false
    · have halts' : q = 0 ∨ ∀ front y back,
          Orderbook.pick a.side G = some (front,y,back) → crosses a y.price = false := by
        rcases halts with zero | short
        · exact .inl zero
        · refine .inr fun front' y' back' found' => ?_
          cases found : Orderbook.pick a.side F with
          | none =>
            have member : y' ∈ G := by simp [(pick_some found').1]
            have unfaced := pick_none found y' (beside.subset member)
            rw [(pick_some found').2.1] at unfaced
            cases unfaced
          | some best =>
            obtain ⟨front,y,back⟩ := best
            rcases beside.pick found with ⟨rfl,rest⟩ | ⟨front'',back'',same,_⟩
            · exact stops_without found (short _ _ _ found) (rest ▸ found')
            · rw [same] at found'
              obtain ⟨rfl,rfl,rfl⟩ : front'' = front' ∧ y = y' ∧ back'' = back' := by simpa using found'
              exact short _ _ _ found
      rw [tradeAll_stops halts,tradeAll_stops halts']
      exact ⟨rfl,rfl,beside⟩
    · simp only [not_or,not_forall,Bool.not_eq_false] at halts
      obtain ⟨positive,front,y,back,found,crossing⟩ := halts
      rcases beside.pick found with ⟨rfl,_⟩ | ⟨front',back',found',moved⟩
      · refine absurd rfl (quiet ⟨y.id,a.id,y.price,if y.remaining ≤ q then y.remaining else q⟩ ?_)
        simp only [Orderbook.tradeAll,positive,found,crossing,if_true,if_false]
        split <;> simp
      · have split := (pick_some found).1
        have split' := (pick_some found').1
        cases m with
        | zero => simp [split'] at enough'
        | succ m =>
          simp only [Orderbook.tradeAll,positive,found,found',crossing,if_true,if_false] at quiet ⊢
          by_cases covers : y.remaining ≤ q
          · simp only [covers,if_true,List.mem_cons,forall_eq_or_imp] at quiet ⊢
            obtain ⟨trades,left,book⟩ := ih m (q - y.remaining) (by simpa using moved [])
              (by simp [split] at enough ⊢; omega) (by simp [split'] at enough' ⊢; omega) quiet.2
            exact ⟨by rw [trades],left,book⟩
          · simp only [covers,if_false]
            exact ⟨trivial,trivial,by simpa using moved [{ y with remaining := y.remaining - q }]⟩

theorem Beside.call {c : Call} (beside : Beside x F G) (other : c.id ≠ x.id)
    (quiet : ∀ t ∈ (F.call c).1.list, t.makerOrderID ≠ x.id) :
    (G.call c).1 = (F.call c).1 ∧ Beside x (F.call c).2 (G.call c).2 := by
  cases c with
  | process a =>
    obtain ⟨trades,left,book⟩ := beside.tradeAll a F.length G.length a.quantity le_rfl le_rfl quiet
    refine ⟨by simp only [NaiveBook.call,NaiveBook.place,trades],?_⟩
    simp only [NaiveBook.call,NaiveBook.place,left]
    split
    · exact book.snoc _
    · exact book
  | cancel id' =>
    obtain ⟨front,back,rfl,rfl⟩ := beside
    have kept : x.id ≠ id' := Ne.symm other
    refine ⟨?_,front.filter fun y => y.id ≠ id',back.filter fun y => y.id ≠ id',?_,?_⟩
    · simp [NaiveBook.call,NaiveBook.cancel,kept]
    · simp [NaiveBook.call,NaiveBook.cancel,kept]
    · simp [NaiveBook.call,NaiveBook.cancel]

/-- Matching brings no new ID into the list. -/
theorem tradeAll_ids (a : OrderArgs) (n : Nat) (q : UInt64) (F : NaiveBook) :
    ∀ y ∈ (tradeAll a n q F).book, ∃ z ∈ F, z.id = y.id := by
  induction n generalizing q F with
  | zero => exact fun y member => ⟨y,member,rfl⟩
  | succ n ih =>
    intro y member
    by_cases halts : q = 0 ∨ ∀ front y back, pick a.side F = some (front,y,back) → crosses a y.price = false
    · rw [tradeAll_stops halts] at member
      exact ⟨y,member,rfl⟩
    · simp only [not_or,not_forall,Bool.not_eq_false] at halts
      obtain ⟨positive,front,x,back,found,crossing⟩ := halts
      have split := (pick_some found).1
      simp only [tradeAll,positive,found,crossing,if_true,if_false] at member
      by_cases covers : x.remaining ≤ q
      · simp only [covers,if_true] at member
        obtain ⟨z,inside,same⟩ := ih _ _ y member
        refine ⟨z,?_,same⟩
        rw [split]
        exact Beside.subset ⟨front,back,rfl,rfl⟩ inside
      · simp only [covers,if_false,List.mem_append,List.mem_cons] at member
        rw [split]
        rcases member with early | rfl | late
        · exact ⟨y,by simp [early],rfl⟩
        · exact ⟨x,by simp,rfl⟩
        · exact ⟨y,by simp [late],rfl⟩

theorem call_absent {c : Call} {G : NaiveBook} (absent : ∀ y ∈ G, y.id ≠ id') (other : c.id ≠ id') :
    ∀ y ∈ (G.call c).2, y.id ≠ id' := by
  cases c with
  | process a =>
    have kept : ∀ y ∈ (tradeAll a G.length a.quantity G).book, y.id ≠ id' := by
      intro y member
      obtain ⟨z,inside,same⟩ := tradeAll_ids a _ _ G y member
      rw [← same]
      exact absent z inside
    simp only [NaiveBook.call,NaiveBook.place]
    split
    · intro y member
      rcases List.mem_append.mp member with old | new
      · exact kept y old
      · obtain rfl := List.mem_singleton.mp new
        exact other
    · exact kept
  | cancel id'' => exact fun y member => absent y (List.mem_of_mem_filter member)

def naiveStep (F : NaiveBook) (c : Call) : Option (Reply × NaiveBook) := some (F.call c)

theorem naive_cons_inv (result : run naiveStep (c :: calls) F = some (replies,G)) :
    ∃ later, run naiveStep calls (F.call c).2 = some (later,G) ∧ replies = (F.call c).1 :: later := by
  obtain ⟨reply,later,F',first,rest,rfl⟩ := run_cons_inv result
  have step : F.call c = (reply,F') := Option.some.inj first
  exact ⟨later,by rw [step]; exact rest,by rw [step]⟩

/-- A whole stretch of calls that leaves `x` alone. -/
theorem Beside.run (beside : Beside x F G) (absent : ∀ y ∈ G, y.id ≠ x.id)
    (other : ∀ c ∈ calls, c.id ≠ x.id) (result : Runs.run naiveStep calls F = some (replies,F'))
    (quiet : ∀ reply ∈ replies, ∀ t ∈ reply.list, t.makerOrderID ≠ x.id)
    (fresh : naiveFresh F calls = true) :
    ∃ G', Runs.run naiveStep calls G = some (replies,G') ∧ Beside x F' G' ∧
      (∀ y ∈ G', y.id ≠ x.id) ∧ naiveFresh G calls = true := by
  induction calls generalizing F G replies with
  | nil =>
    obtain ⟨rfl,rfl⟩ := Prod.mk.inj (Option.some.inj result)
    exact ⟨G,rfl,beside,absent,rfl⟩
  | cons c calls ih =>
    obtain ⟨later,rest,rfl⟩ := naive_cons_inv result
    obtain ⟨unused,fresh'⟩ := (naiveFresh_cons c calls F).mp fresh
    have own := other c (by simp)
    obtain ⟨same,beside'⟩ := beside.call own (quiet _ (by simp))
    obtain ⟨G',run',final,absent',fresh''⟩ := ih beside' (call_absent absent own)
      (fun c member => other c (List.mem_cons_of_mem _ member)) rest
      (fun reply member => quiet reply (List.mem_cons_of_mem _ member)) fresh'
    have step : naiveStep G c = some ((F.call c).1,(G.call c).2) := by
      rw [← same]
      rfl
    refine ⟨G',run_cons step run',final,absent',(naiveFresh_cons c calls G).mpr ⟨?_,fresh''⟩⟩
    intro a named y member
    exact unused a named y (beside.subset member)

theorem naiveFresh_append (front : run naiveStep xs F = some (replies,G)) :
    naiveFresh F (xs ++ ys) = true ↔ naiveFresh F xs = true ∧ naiveFresh G ys = true := by
  induction xs generalizing F replies with
  | nil =>
    obtain ⟨_,rfl⟩ := Prod.mk.inj (Option.some.inj front)
    simp [naiveFresh]
  | cons c xs ih =>
    obtain ⟨later,rest,_⟩ := naive_cons_inv front
    rw [List.cons_append,naiveFresh_cons,naiveFresh_cons,ih rest,and_assoc]

/-- An order that no trade of its own `Process` names traded nothing. -/
theorem place_quiet {a : OrderArgs} (quiet : ∀ t ∈ (F.place a).1, t.takerOrderID ≠ a.id) :
    tradeAll a F.length a.quantity F = ⟨[],a.quantity,F⟩ := by
  apply tradeAll_stops
  by_contra fires
  simp only [not_or,not_forall,Bool.not_eq_false] at fires
  obtain ⟨positive,front,y,back,found,crossing⟩ := fires
  obtain ⟨n,length⟩ : ∃ n, F.length = n + 1 :=
    ⟨front.length + back.length,by simp [(pick_some found).1]; omega⟩
  refine quiet ⟨y.id,a.id,y.price,if y.remaining ≤ a.quantity then y.remaining else a.quantity⟩ ?_ rfl
  simp only [NaiveBook.place,length,tradeAll,positive,found,crossing,if_true,if_false]
  split <;> simp

/-- A level as the outside sees it: its price, its recorded volume, its orders in order. -/
structure LevelView where
  price : UInt64
  volume : UInt64
  queue : List Quote
  deriving DecidableEq

def viewLevel (h : Heap) (l : LimitRef) : LevelView :=
  ⟨(h.limit l).price,(h.limit l).totalVolume,(queueRefs h l).map fun r =>
    ⟨(h.order r).id,(h.order r).side,(h.order r).price,(h.order r).remainingQty⟩⟩

/-- The bids and the asks of a book, best first. -/
def viewBook (ob : OrderBook) : List LevelView × List LevelView :=
  (ob.bids.map (viewLevel ob.heap),ob.asks.map (viewLevel ob.heap))

def NaiveBook.view (F : NaiveBook) (buying : Bool) : List LevelView :=
  (F.prices buying).map fun p => ⟨p,((standingAt F buying p).map Quote.remaining).sum,standingAt F buying p⟩

theorem Sound.viewLevel (sound : Sound ob B) (member : L ∈ B.levels) :
    Orderbook.viewLevel ob.heap L.ref = ⟨L.price,L.volume,L.queue.map Resting.quote⟩ := by
  have rep := sound.models.rep.level L member
  simp only [Orderbook.viewLevel,rep.price,rep.volume,sound.queueRefs member,Level.refs,List.map_map,
    LevelView.mk.injEq,true_and]
  refine List.map_congr_left fun e entry => ?_
  have cell := rep.entries e entry
  simp [Resting.quote,cell.id,cell.side,cell.price,cell.remaining]

/-- What the book shows is a function of the flat list. -/
theorem view_shown (sound : Sound ob B) (shows' : Shows buying levels F) (sorted : SortedBy buying levels)
    (attached : ∀ L ∈ levels, L ∈ B.bids ++ B.asks) :
    (levels.map Level.ref).map (viewLevel ob.heap) = F.view buying := by
  rw [NaiveBook.view,prices_shown shows' sorted (fun L member => sound.valid.nonempty L (attached L member)),
    List.map_map,List.map_map]
  refine List.map_congr_left fun L member => ?_
  simp only [Function.comp_apply,sound.viewLevel (Ladder.attached_levels (attached L member))]
  rw [shows' L.price,queueAt_level sorted member,List.map_map]
  rfl

theorem Tracks.viewBook (tracks : Tracks calls ob F B) :
    Orderbook.viewBook ob = (F.view true,F.view false) := by
  obtain ⟨sound,flat,_,_⟩ := tracks
  rw [Orderbook.viewBook,sound.models.bids,sound.models.asks,
    view_shown sound flat.bids sound.valid.sorted.1 fun L member => List.mem_append_left _ member,
    view_shown sound flat.asks sound.valid.sorted.2 fun L member => List.mem_append_right _ member]

def Trade.Names (t : Trade) (id' : GoString) : Prop := t.makerOrderID = id' ∨ t.takerOrderID = id'

section Erased

variable {pre mid post : List Call} {before between after : List Reply} {ts : List Trade} {x : OrderArgs}
  {F : NaiveBook} {ob : OrderBook}

/-- The two runs of the flat list end alike. -/
theorem naive_erases (limit : x.type = limitOrder) (positive : 0 < x.quantity)
    (result : run naiveStep (pre ++ .process x :: (mid ++ .cancel x.id :: post)) [] =
      some (before ++ .trades ts :: (between ++ .cancelled true :: after),F))
    (early : before.length = pre.length) (middle : between.length = mid.length)
    (fresh : naiveFresh [] (pre ++ .process x :: (mid ++ .cancel x.id :: post)) = true)
    (unnamed : ∀ t ∈ ts, ¬t.Names x.id) (quiet : ∀ reply ∈ between, ∀ t ∈ reply.list, ¬t.Names x.id)
    (other : ∀ c ∈ mid, c.id ≠ x.id) :
    run naiveStep (pre ++ (mid ++ post)) [] = some (before ++ (between ++ after),F) ∧
      naiveFresh [] (pre ++ (mid ++ post)) = true := by
  obtain ⟨F₁,front,rest⟩ := run_append_split result early
  obtain ⟨_,rest,replies⟩ := naive_cons_inv rest
  obtain ⟨trades,rfl⟩ := List.cons.inj replies
  obtain ⟨F₂,stretch,rest⟩ := run_append_split rest middle
  obtain ⟨_,rest,replies⟩ := naive_cons_inv rest
  obtain ⟨_,rfl⟩ := List.cons.inj replies
  obtain ⟨freshFront,fresh⟩ := (naiveFresh_append front).mp fresh
  obtain ⟨unused,fresh⟩ := (naiveFresh_cons _ _ _).mp fresh
  obtain ⟨freshMid,fresh⟩ := (naiveFresh_append stretch).mp fresh
  obtain ⟨_,freshPost⟩ := (naiveFresh_cons _ _ _).mp fresh
  have untraded : tradeAll x F₁.length x.quantity F₁ = ⟨[],x.quantity,F₁⟩ := by
    apply place_quiet
    obtain rfl := Reply.trades.inj trades
    exact fun t member same => unnamed t member (.inr same)
  have rested : (NaiveBook.call F₁ (.process x)).2 = F₁ ++ [⟨x.id,x.side,x.price,x.quantity⟩] := by
    simp only [NaiveBook.call,NaiveBook.place,untraded]
    exact if_pos ⟨UInt64.pos_iff_ne_zero.mp positive,limit⟩
  rw [rested] at stretch freshMid
  obtain ⟨G,stretch',⟨left,right,rfl,rfl⟩,absent,freshMid'⟩ :=
    Beside.run ⟨F₁,[],rfl,by simp⟩ (unused x rfl) other stretch
      (fun reply member t inside same => quiet reply member t inside (.inl same)) freshMid
  have erased : (NaiveBook.call (left ++ ⟨x.id,x.side,x.price,x.quantity⟩ :: right) (.cancel x.id)).2 =
      left ++ right := by
    have kept : (left ++ right).filter (fun y => y.id ≠ x.id) = left ++ right :=
      List.filter_eq_self.mpr fun y member => by simpa using absent y member
    simpa [NaiveBook.call,NaiveBook.cancel] using kept
  rw [erased] at rest freshPost
  exact ⟨run_append front (run_append stretch' rest),
    (naiveFresh_append front).mpr ⟨freshFront,(naiveFresh_append stretch').mpr ⟨freshMid',freshPost⟩⟩⟩

/-- Leaving out an order and its cancel changes nothing else, provided nobody traded with
the order in between. -/
theorem cancelled_order_erasable (limit : x.type = limitOrder) (positive : 0 < x.quantity)
    (sides : KnownSides (pre ++ .process x :: (mid ++ .cancel x.id :: post)))
    (fresh : FreshIDs newOrderBook (pre ++ .process x :: (mid ++ .cancel x.id :: post)))
    (bound : submitted (pre ++ .process x :: (mid ++ .cancel x.id :: post)) < 2^64)
    (result : runCalls (pre ++ .process x :: (mid ++ .cancel x.id :: post)) =
      some (before ++ .trades ts :: (between ++ .cancelled true :: after),ob))
    (early : before.length = pre.length) (middle : between.length = mid.length)
    (unnamed : ∀ t ∈ ts, ¬t.Names x.id) (quiet : ∀ reply ∈ between, ∀ t ∈ reply.list, ¬t.Names x.id)
    (other : ∀ c ∈ mid, c.id ≠ x.id) :
    ∃ ob', runCalls (pre ++ (mid ++ post)) = some (before ++ (between ++ after),ob') ∧
      viewBook ob' = viewBook ob := by
  have freshList := (new_tracks sides bound).freshIDs_iff.mp fresh
  obtain ⟨replies,ob₁,F,B,run₁,naive,tracks⟩ := runCalls_tracks sides freshList bound
  obtain ⟨rfl,rfl⟩ := outcome_unique result run₁
  obtain ⟨naive',freshList'⟩ := naive_erases limit positive naive early middle freshList unnamed quiet other
  have sides' : KnownSides (pre ++ (mid ++ post)) := by
    intro a member
    apply sides a
    simp only [List.mem_append,List.mem_cons] at member ⊢
    tauto
  have bound' : submitted (pre ++ (mid ++ post)) < 2^64 := by
    simp only [submitted,List.map_append,List.map_cons,List.sum_append,List.sum_cons] at bound ⊢
    omega
  obtain ⟨replies,ob',F',B',run',naive'',tracks'⟩ := runCalls_tracks sides' freshList' bound'
  change run naiveStep (pre ++ (mid ++ post)) [] = some (replies,F') at naive''
  obtain ⟨rfl,rfl⟩ := outcome_unique naive' naive''
  exact ⟨ob',run',by rw [tracks.viewBook,tracks'.viewBook]⟩

end Erased

/-- A seller rests behind another one, which trades before this one is cancelled. -/
def briefOrder : OrderArgs := ⟨[2],sell,limitOrder,101,4⟩

def briefRun : List Call :=
  [.process ⟨[1],sell,limitOrder,100,5⟩] ++ .process briefOrder ::
    ([.process ⟨[3],buy,limitOrder,101,3⟩] ++ .cancel briefOrder.id :: [.cancel [1]])

def briefReplies : List Reply :=
  [.trades []] ++ .trades [] :: ([.trades [⟨[1],[3],100,3⟩]] ++ .cancelled true :: [.cancelled true])

theorem briefRun_sides : KnownSides briefRun := by
  intro a member
  simp only [briefRun,List.cons_append,List.nil_append,List.mem_cons,Call.process.injEq,reduceCtorEq,
    List.not_mem_nil,or_false] at member
  rcases member with rfl | rfl | rfl
  · exact .inr rfl
  · exact .inr rfl
  · exact .inl rfl

theorem briefRun_erasable : ∃ ob ob' : OrderBook, runCalls briefRun = some (briefReplies,ob) ∧
    runCalls [.process ⟨[1],sell,limitOrder,100,5⟩,.process ⟨[3],buy,limitOrder,101,3⟩,.cancel [1]] =
      some ([.trades [],.trades [⟨[1],[3],100,3⟩],.cancelled true],ob') ∧
    viewBook ob' = viewBook ob := by
  have bound : submitted briefRun < 2^64 := by decide
  have replied : (runCalls briefRun).map Prod.fst = some briefReplies := by decide
  obtain ⟨⟨_,ob⟩,result,rfl⟩ := Option.map_eq_some_iff.mp replied
  obtain ⟨ob',erased,same⟩ := cancelled_order_erasable rfl (by decide) briefRun_sides
    ((new_tracks briefRun_sides bound).freshIDs_iff.mpr (by decide)) bound result rfl rfl (by simp)
    (by simp [Reply.list,Trade.Names,briefOrder]) (by simp [Call.id,briefOrder])
  exact ⟨ob,ob',result,erased,same⟩

end TradingPlatform.Orderbook

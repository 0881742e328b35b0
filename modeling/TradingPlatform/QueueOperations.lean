import TradingPlatform.Ladder

/-! The heap writes of `Limit.AddOrder`, `Limit.RemoveOrder` and one fill, read as
operations on queues. Each result is stated for the touched level in front of all
other levels, whose cells are shown to be left alone. -/
namespace TradingPlatform.Orderbook

open LinkedQueue

/-- Unlinking writes to the removed order and to its two neighbours only. -/
theorem removeOrder_order (h : Heap) (l : LimitRef) (x r : OrderRef)
    (selfNext : (h.order x).next ≠ some x) (selfPrev : (h.order x).prev ≠ some x) :
    (removeOrder h l x).order r =
      if r = x then { h.order x with limit := none, next := none, prev := none }
      else { h.order r with
        next := if (h.order x).prev = some r then (h.order x).next else (h.order r).next
        prev := if (h.order x).next = some r then (h.order x).prev else (h.order r).prev } := by
  cases prev : (h.order x).prev with
  | none =>
    cases next : (h.order x).next with
    | none => by_cases same : r = x <;> simp [removeOrder,prev,next,same]
    | some n =>
      have apart : x ≠ n := fun eq => selfNext (by rw [next,eq])
      by_cases same : r = x
      · subst same; simp [removeOrder,prev,next,apart]
      · by_cases neighbour : r = n
        · subst neighbour; simp [removeOrder,prev,next,same]
        · simp [removeOrder,prev,next,same,neighbour,Ne.symm neighbour]
  | some p =>
    have before : x ≠ p := fun eq => selfPrev (by rw [prev,eq])
    cases next : (h.order x).next with
    | none =>
      by_cases same : r = x
      · subst same; simp [removeOrder,prev,next,before]
      · by_cases neighbour : r = p
        · subst neighbour; simp [removeOrder,prev,next,before,same]
        · simp [removeOrder,prev,next,before,same,neighbour,Ne.symm neighbour]
    | some n =>
      have after : x ≠ n := fun eq => selfNext (by rw [next,eq])
      by_cases same : r = x
      · subst same; simp [removeOrder,prev,next,before,after]
      · by_cases atP : r = p
        · subst atP
          by_cases atN : r = n
          · subst atN; simp [removeOrder,prev,next,before,same]
          · simp [removeOrder,prev,next,before,after,same,atN,Ne.symm atN]
        · by_cases atN : r = n
          · subst atN; simp [removeOrder,prev,next,before,same,atP,Ne.symm atP]
          · simp [removeOrder,prev,next,before,after,same,atP,atN,Ne.symm atP,Ne.symm atN]

theorem removeOrder_limit (h : Heap) (l : LimitRef) (x : OrderRef) (m : LimitRef)
    (selfPrev : (h.order x).prev ≠ some x) (selfNext : (h.order x).next ≠ some x) :
    (removeOrder h l x).limit m =
      if m = l then
        { price := (h.limit l).price
          totalVolume := (h.limit l).totalVolume - (h.order x).remainingQty
          head := if (h.order x).prev = none then (h.order x).next else (h.limit l).head
          tail := if (h.order x).next = none then (h.order x).prev else (h.limit l).tail }
      else h.limit m := by
  cases prev : (h.order x).prev with
  | none =>
    cases next : (h.order x).next with
    | none => by_cases same : m = l <;> simp [removeOrder,prev,next,same]
    | some n =>
      have apart : x ≠ n := fun eq => selfNext (by rw [next,eq])
      by_cases same : m = l <;> simp [removeOrder,prev,next,same,apart]
  | some p =>
    have before : x ≠ p := fun eq => selfPrev (by rw [prev,eq])
    cases next : (h.order x).next with
    | none => by_cases same : m = l <;> simp [removeOrder,prev,next,same,before,Order.remainingQty]
    | some n =>
      have after : x ≠ n := fun eq => selfNext (by rw [next,eq])
      by_cases same : m = l <;>
        simp [removeOrder,prev,next,same,before,after,Order.remainingQty]

theorem removeOrder_counts (h : Heap) (l : LimitRef) (x : OrderRef) :
    (removeOrder h l x).orderCount = h.orderCount ∧
    (removeOrder h l x).limitCount = h.limitCount ∧ (removeOrder h l x).ledger = h.ledger := by
  cases prev : (h.order x).prev <;> simp only [removeOrder,prev]
  all_goals split <;> simp

theorem volume_split (L : Level) (e : Resting) (split : L.queue = front ++ e :: back) :
    L.volume = e.remaining + ((front ++ back).map Resting.remaining).sum := by
  simp only [Level.volume,split,List.map_append,List.map_cons,List.sum_append,List.sum_cons]
  grind

/-- Where a queue is split, the split member points at its neighbours and not at itself. -/
theorem member_links (rep : Represents h (L :: others)) (split : L.queue = front ++ e :: back) :
    (h.order e.ref).next = (back.map Resting.ref).head? ∧
    (h.order e.ref).prev = (front.map Resting.ref).getLast? ∧
    (h.order e.ref).next ≠ some e.ref ∧ (h.order e.ref).prev ≠ some e.ref := by
  have refs : L.refs = front.map Resting.ref ++ e.ref :: back.map Resting.ref := by
    simp [Level.refs,split]
  have links := (rep.level L (by simp)).links
  have distinct := rep.orderRefs
  rw [Threaded,refs] at links
  rw [refsOf_cons,refs] at distinct
  have queue := (List.nodup_append.mp distinct).1
  have next := links.next_at
  have prev := links.prev_at
  simp only [Option.or_none] at next prev
  refine ⟨next,prev,?_,?_⟩
  · rw [next]
    exact fun eq => (List.nodup_cons.mp (List.nodup_append.mp queue).2.1).1 (List.mem_of_mem_head? eq)
  · rw [prev]
    exact fun eq => (List.nodup_append.mp queue).2.2 _ (List.mem_of_getLast? eq) _ (by simp) rfl

/-- An order outside the queue is neither the removed member nor a neighbour of it. -/
theorem removeOrder_elsewhere (rep : Represents h (L :: others)) (split : L.queue = front ++ e :: back)
    (outside : r ∉ L.refs) : (removeOrder h L.ref e.ref).order r = h.order r := by
  obtain ⟨next,prev,selfNext,selfPrev⟩ := member_links rep split
  have refs : L.refs = front.map Resting.ref ++ e.ref :: back.map Resting.ref := by
    simp [Level.refs,split]
  rw [refs] at outside
  have notSelf : r ≠ e.ref := fun eq => outside (by simp [eq])
  have notNext : (h.order e.ref).next ≠ some r := by
    rw [next]
    intro eq
    exact outside (by simp [List.mem_of_mem_head? (Option.mem_def.mpr eq)])
  have notPrev : (h.order e.ref).prev ≠ some r := by
    rw [prev]
    exact fun eq => outside (List.mem_append_left _ (List.mem_of_getLast? eq))
  simp [removeOrder_order h L.ref e.ref r selfNext selfPrev,notSelf,notNext,notPrev]

/-- `RemoveOrder` takes one member out of its queue, wherever it stands. -/
theorem removeOrder_represents (rep : Represents h (L :: others))
    (split : L.queue = front ++ e :: back) :
    Represents (removeOrder h L.ref e.ref) ({ L with queue := front ++ back } :: others) := by
  have level := rep.level L (by simp)
  have refs : L.refs = front.map Resting.ref ++ e.ref :: back.map Resting.ref := by
    simp [Level.refs,split]
  have links := level.links
  rw [Threaded,refs] at links
  have all := rep.orderRefs
  rw [refsOf_cons,List.nodup_append,refs] at all
  have distinct := all.1
  obtain ⟨next,prev,selfNext,selfPrev⟩ := member_links rep split
  have order := fun r => removeOrder_order h L.ref e.ref r selfNext selfPrev
  have limit := fun m => removeOrder_limit h L.ref e.ref m selfPrev selfNext
  obtain ⟨orderCount,limitCount,_⟩ := removeOrder_counts h L.ref e.ref
  have entry := level.entries e (by simp [split])
  have elsewhere (r : OrderRef) := removeOrder_elsewhere (r := r) rep split
  refine rep.replace { L with queue := front ++ back } ?_ rfl ?_ ?_ limitCount orderCount ?_ ?_ ?_
  · refine ⟨?_,?_,?_,?_,?_,?_⟩
    · simp [limit,level.price]
    · simp only [limit,if_true,level.volume,volume_split L e split,entry.remaining]
      simp [Level.volume]
    · simp only [limit,if_true,next,prev,level.head,Level.refs,split,List.map_append]
      cases front <;> simp [List.getLast?_cons]
    · simp only [limit,if_true,next,prev,level.tail,Level.refs,split,List.map_append]
      cases back <;> simp [List.getLast?_cons,List.getLast?_append]
    · simp only [Threaded,Level.refs,List.map_append]
      refine links.unlink distinct (by simp) ?_ ?_
      · intro y other
        simp [order,other]
      · intro y other
        simp [order,other]
    · intro d member
      have inQueue : d ∈ L.queue := by
        rw [split]
        rcases List.mem_append.mp member with inside | inside <;> simp [inside]
      have other : d.ref ≠ e.ref := by
        intro eq
        rcases List.mem_append.mp member with inside | inside
        · exact (List.nodup_append.mp distinct).2.2 _ (List.mem_map_of_mem inside) _ (by simp) eq
        · exact (List.nodup_cons.mp (List.nodup_append.mp distinct).2.1).1
            (eq ▸ List.mem_map_of_mem inside)
      have kept := level.entries d inQueue
      constructor <;> simp only [order,other,if_false,Order.remainingQty]
      exacts [kept.id,kept.side,kept.price,kept.remaining,kept.limit]
  · intro l other
    simp [limit,other]
  · intro r member
    exact elsewhere r (fun inside => all.2.2 r (refs ▸ inside) r member rfl)
  · have kept := distinct.sublist (List.Sublist.append_left (List.sublist_cons_self e.ref _) _)
    simpa [Level.refs] using kept
  · intro r member
    have inside : r ∈ L.refs := by
      rw [refs]
      simp only [Level.refs,List.map_append,List.mem_append] at member
      rcases member with member | member <;> simp [member]
    exact ⟨fun others => all.2.2 r (refs ▸ inside) r others rfl,
      rep.orderBound r (by rw [refsOf_cons]; exact List.mem_append_left _ inside)⟩
  · intro r outside others
    by_cases same : r = e.ref
    · simp [order,same]
    · have outsideL : r ∉ L.refs := by
        rw [refs]
        simp only [Level.refs,List.map_append,List.mem_append,not_or] at outside
        simp [outside.1,outside.2,same]
      rw [elsewhere r outsideL]
      exact rep.idle r (by rw [refsOf_cons,List.mem_append,not_or]; exact ⟨outsideL,others⟩)

/-- The part of one fill that belongs to an order instance. -/
def Fill.share (r : OrderRef) (f : Fill) : UInt64 :=
  (if f.maker = r then f.quantity else 0) + (if f.taker = r then f.quantity else 0)

def filledBy (fills : List Fill) (r : OrderRef) : UInt64 := (fills.map (Fill.share r)).sum

@[simp] theorem filledBy_nil (r : OrderRef) : filledBy [] r = 0 := rfl

@[simp] theorem filledBy_append (left right : List Fill) (r : OrderRef) :
    filledBy (left ++ right) r = filledBy left r + filledBy right r := by
  simp [filledBy]

/-- What a piece of the engine did to the orders: the fills it logged account for
every change of a filled quantity, and nothing else about an order's terms moved. -/
structure Effect (fills : List Fill) (h h' : Heap) : Prop where
  args : ∀ r, (h'.order r).args = (h.order r).args
  filled : ∀ r, (h'.order r).filledQty = (h.order r).filledQty + filledBy fills r
  ledger : h'.ledger = h.ledger ++ fills
  orderCount : h'.orderCount = h.orderCount

theorem Effect.refl (h : Heap) : Effect [] h h :=
  ⟨fun _ => rfl,fun r => by simp,by simp,rfl⟩

theorem Effect.trans (first : Effect fills h h') (second : Effect later h' h'') :
    Effect (fills ++ later) h h'' where
  args := fun r => (second.args r).trans (first.args r)
  filled := fun r => by
    rw [second.filled,first.filled,filledBy_append]
    grind
  ledger := by rw [second.ledger,first.ledger,List.append_assoc]
  orderCount := second.orderCount.trans first.orderCount

theorem Effect.remaining (effect : Effect fills h h') (r : OrderRef) :
    (h'.order r).remainingQty = (h.order r).remainingQty - filledBy fills r := by
  have quantity : (h'.order r).quantity = (h.order r).quantity :=
    congrArg OrderArgs.quantity (effect.args r)
  simp only [Order.remainingQty,effect.filled,quantity]
  grind

theorem removeOrder_effect (rep : Represents h (L :: others)) (split : L.queue = front ++ e :: back) :
    Effect [] h (removeOrder h L.ref e.ref) := by
  obtain ⟨_,_,selfNext,selfPrev⟩ := member_links rep split
  obtain ⟨orderCount,_,ledger⟩ := removeOrder_counts h L.ref e.ref
  refine ⟨fun r => ?_,fun r => ?_,by simp [ledger],orderCount⟩
  all_goals
    rw [removeOrder_order h L.ref e.ref r selfNext selfPrev]
    by_cases same : r = e.ref <;> simp [same,Order.args]

def restingOf (h : Heap) (r : OrderRef) : Resting :=
  ⟨r,(h.order r).id,(h.order r).side,(h.order r).price,(h.order r).remainingQty⟩

/-- `AddOrder` on a level without members. -/
theorem addOrder_empty (h : Heap) (l : LimitRef) (x : OrderRef) (head : (h.limit l).head = none) :
    ∃ h', addOrder h l x = some h' ∧
      (∀ r, h'.order r = if r = x then { h.order x with limit := some l } else h.order r) ∧
      (∀ m, h'.limit m = if m = l then ⟨(h.limit l).price,
        (h.limit l).totalVolume + (h.order x).remainingQty,some x,some x⟩ else h.limit m) ∧
      h'.orderCount = h.orderCount ∧ h'.limitCount = h.limitCount ∧ h'.ledger = h.ledger := by
  simp only [addOrder,modifyOrder_limit,head,Option.map_some,Option.some.injEq,exists_eq_left']
  refine ⟨?_,?_,rfl,rfl,rfl⟩
  · intro r
    simp
  · intro m
    by_cases same : m = l <;> simp [same,Order.remainingQty]

/-- `AddOrder` behind the tail of a level with members. -/
theorem addOrder_tail (h : Heap) (l : LimitRef) (x first t : OrderRef)
    (head : (h.limit l).head = some first) (tail : (h.limit l).tail = some t) (apart : t ≠ x) :
    ∃ h', addOrder h l x = some h' ∧
      (∀ r, h'.order r = if r = x then { h.order x with limit := some l, prev := some t, next := none }
        else if r = t then { h.order t with next := some x } else h.order r) ∧
      (∀ m, h'.limit m = if m = l then ⟨(h.limit l).price,
        (h.limit l).totalVolume + (h.order x).remainingQty,some first,some x⟩ else h.limit m) ∧
      h'.orderCount = h.orderCount ∧ h'.limitCount = h.limitCount ∧ h'.ledger = h.ledger := by
  simp only [addOrder,modifyOrder_limit,head,tail,Option.map_some,Option.some.injEq,exists_eq_left']
  refine ⟨?_,?_,rfl,rfl,rfl⟩
  · intro r
    by_cases same : r = x
    · subst same
      simp [Ne.symm apart]
    · by_cases last : r = t <;> simp [same,last,apart]
  · intro m
    by_cases same : m = l <;> simp [same,Order.remainingQty,Ne.symm apart,head]

/-- Both cases of `AddOrder` at once, for an order without links. -/
theorem addOrder_spec (rep : Represents h (L :: others)) (x : OrderRef)
    (idle : x ∉ refsOf (L :: others)) :
    ∃ h', addOrder h L.ref x = some h' ∧
      (∀ r, h'.order r =
        if r = x then { h.order x with limit := some L.ref, prev := L.refs.getLast?, next := none }
        else if L.refs.getLast? = some r then { h.order r with next := some x } else h.order r) ∧
      (∀ m, h'.limit m = if m = L.ref then ⟨L.price,L.volume + (h.order x).remainingQty,
        (L.refs ++ [x]).head?,some x⟩ else h.limit m) ∧
      h'.orderCount = h.orderCount ∧ h'.limitCount = h.limitCount ∧ h'.ledger = h.ledger := by
  have level := rep.level L (by simp)
  have links := rep.idle x idle
  cases refs : L.refs with
  | nil =>
    obtain ⟨h',added,order,limit,counts⟩ := addOrder_empty h L.ref x (by simp [level.head,refs])
    refine ⟨h',added,fun r => ?_,fun m => ?_,counts⟩
    · rw [order]
      by_cases same : r = x
      · subst same; simp [links]
      · simp [same]
    · rw [limit,level.price,level.volume]
      simp
  | cons first rest =>
    have tail : (h.limit L.ref).tail = some (rest.getLast?.getD first) := by
      rw [level.tail,refs,List.getLast?_cons]
    have apart : rest.getLast?.getD first ≠ x := by
      intro eq
      have inside : x ∈ L.refs := List.mem_of_getLast? (by rw [← level.tail,tail,eq])
      exact idle (by rw [refsOf_cons]; exact List.mem_append_left _ inside)
    obtain ⟨h',added,order,limit,counts⟩ :=
      addOrder_tail h L.ref x first _ (by rw [level.head,refs]; rfl) tail apart
    refine ⟨h',added,fun r => ?_,fun m => ?_,counts⟩
    · rw [order,List.getLast?_cons]
      by_cases same : r = x
      · simp [same]
      · by_cases last : r = rest.getLast?.getD first
        · simp [same,← last]
        · simp [same,last,Ne.symm last]
    · rw [limit,level.price,level.volume]
      simp

/-- `AddOrder` appends an order without links to the queue. -/
theorem addOrder_represents (rep : Represents h (L :: others)) (x : OrderRef)
    (idle : x ∉ refsOf (L :: others)) (allocated : x < h.orderCount) :
    ∃ h', addOrder h L.ref x = some h' ∧ Effect [] h h' ∧ h'.limitCount = h.limitCount ∧
      Represents h' ({ L with queue := L.queue ++ [restingOf h x] } :: others) := by
  obtain ⟨h',added,order,limit,orderCount,limitCount,ledger⟩ := addOrder_spec rep x idle
  have level := rep.level L (by simp)
  have all := rep.orderRefs
  rw [refsOf_cons,List.nodup_append] at all
  rw [refsOf_cons,List.mem_append,not_or] at idle
  have refs : ({ L with queue := L.queue ++ [restingOf h x] } : Level).refs = L.refs ++ [x] := by
    simp [Level.refs,restingOf]
  -- Only the old tail and the new order are written.
  have elsewhere (r : OrderRef) (other : r ≠ x) (outside : r ∉ L.refs) :
      h'.order r = h.order r := by
    have notLast : L.refs.getLast? ≠ some r := fun eq => outside (List.mem_of_getLast? eq)
    simp [order,other,notLast]
  refine ⟨h',added,⟨?_,?_,by simp [ledger],orderCount⟩,limitCount,
    rep.replace { L with queue := L.queue ++ [restingOf h x] } ?_ rfl ?_ ?_ limitCount orderCount ?_ ?_ ?_⟩
  · intro r
    rw [order]
    by_cases same : r = x
    · simp [same,Order.args]
    · by_cases last : L.refs.getLast? = some r <;> simp [same,last,Order.args]
  · intro r
    rw [order]
    by_cases same : r = x
    · simp [same]
    · by_cases last : L.refs.getLast? = some r <;> simp [same,last]
  · refine ⟨?_,?_,?_,?_,?_,?_⟩
    · simp [limit]
    · simp [limit,Level.volume,restingOf]
    · rw [refs]; simp [limit]
    · rw [refs]; simp [limit]
    · rw [Threaded,refs]
      refine Linked.snoc level.links all.1 ?_ ?_ (by simp [order]) (by simp [order])
      · intro y member
        have other : y ≠ x := fun eq => idle.1 (eq ▸ member)
        by_cases last : L.refs.getLast? = some y <;> simp [order,other,last]
      · intro y member
        have other : y ≠ x := fun eq => idle.1 (eq ▸ member)
        by_cases last : L.refs.getLast? = some y <;> simp [order,other,last]
    · intro e member
      rcases List.mem_append.mp member with old | new
      · have other : e.ref ≠ x := fun eq => idle.1 (eq ▸ List.mem_map_of_mem old)
        have kept := level.entries e old
        by_cases last : L.refs.getLast? = some e.ref
        · constructor <;> simp only [order,other,last,if_false,if_true,Order.remainingQty]
          exacts [kept.id,kept.side,kept.price,kept.remaining,kept.limit]
        · constructor <;> simp only [order,other,last,if_false]
          exacts [kept.id,kept.side,kept.price,kept.remaining,kept.limit]
      · rw [List.mem_singleton.mp new]
        constructor <;> simp [order,restingOf,Order.remainingQty]
  · intro l other
    simp [limit,other]
  · intro r member
    exact elsewhere r (fun eq => idle.2 (eq ▸ member)) (fun inside => all.2.2 r inside r member rfl)
  · rw [refs]
    exact List.nodup_append.mpr ⟨all.1,by simp,fun r inside s new eq =>
      idle.1 (by rw [← List.mem_singleton.mp new,← eq]; exact inside)⟩
  · intro r member
    rw [refs,List.mem_append] at member
    rcases member with old | new
    · exact ⟨fun others => all.2.2 r old r others rfl,
        rep.orderBound r (by rw [refsOf_cons]; exact List.mem_append_left _ old)⟩
    · rw [List.mem_singleton.mp new]
      exact ⟨idle.2,allocated⟩
  · intro r outside others
    rw [refs,List.mem_append,not_or] at outside
    rw [elsewhere r (fun eq => outside.2 (by simp [eq])) outside.1]
    exact rep.idle r (by rw [refsOf_cons,List.mem_append,not_or]; exact ⟨outside.1,others⟩)

/-- What a fill writes on the maker's side. -/
def fillMaker (h : Heap) (l : LimitRef) (maker : OrderRef) (matchQty : UInt64) : Heap :=
  let h := h.modifyOrder maker fun o => { o with filledQty := o.filledQty + matchQty }
  h.modifyLimit l fun x => { x with totalVolume := x.totalVolume - matchQty }

theorem fillMaker_order (h : Heap) (l : LimitRef) (maker r : OrderRef) (matchQty : UInt64) :
    (fillMaker h l maker matchQty).order r =
      if r = maker then { h.order maker with filledQty := (h.order maker).filledQty + matchQty } else h.order r := by
  simp [fillMaker]

theorem fillMaker_limit (h : Heap) (l m : LimitRef) (maker : OrderRef) (matchQty : UInt64) :
    (fillMaker h l maker matchQty).limit m =
      if m = l then { h.limit l with totalVolume := (h.limit l).totalVolume - matchQty } else h.limit m := by
  simp [fillMaker]

/-- A fill lowers the head's remaining quantity and the recorded volume alike. -/
theorem fillMaker_represents (rep : Represents h (L :: others)) (queue : L.queue = e :: es) (matchQty : UInt64) :
    Represents (fillMaker h L.ref e.ref matchQty)
      ({ L with queue := { e with remaining := e.remaining - matchQty } :: es } :: others) := by
  have level := rep.level L (by simp)
  have all := rep.orderRefs
  rw [refsOf_cons,List.nodup_append] at all
  have refs : L.refs = e.ref :: es.map Resting.ref := by simp [Level.refs,queue]
  have same : ({ L with queue := { e with remaining := e.remaining - matchQty } :: es } : Level).refs = L.refs := by
    simp [Level.refs,queue]
  have fresh : e.ref ∉ es.map Resting.ref := (List.nodup_cons.mp (refs ▸ all.1)).1
  refine rep.replace _ ?_ rfl ?_ ?_ rfl rfl ?_ ?_ ?_
  · refine ⟨?_,?_,?_,?_,?_,?_⟩
    · simp [fillMaker_limit,level.price]
    · simp only [fillMaker_limit,if_true,level.volume,Level.volume,queue,List.map_cons,List.sum_cons]
      grind
    · simp [fillMaker_limit,level.head,Level.refs,queue]
    · simp [fillMaker_limit,level.tail,Level.refs,queue]
    · rw [same]
      refine level.links.congr fun r _ => ?_
      simp only [fillMaker_order]
      split
      · rename_i head
        simp [head]
      · exact ⟨rfl,rfl⟩
    · intro d member
      rcases List.mem_cons.mp member with rfl | member
      · have kept := level.entries e (by simp [queue])
        constructor <;> simp only [fillMaker_order,if_true,Order.remainingQty]
        exacts [kept.id,kept.side,kept.price,by rw [← kept.remaining,Order.remainingQty]; grind,kept.limit]
      · have kept := level.entries d (by simp [queue,member])
        have other : d.ref ≠ e.ref := fun eq => fresh (eq ▸ List.mem_map_of_mem member)
        constructor <;> simp only [fillMaker_order,if_neg other]
        exacts [kept.id,kept.side,kept.price,kept.remaining,kept.limit]
  · intro l other
    simp [fillMaker_limit,other]
  · intro r member
    have other : r ≠ e.ref := fun eq => all.2.2 e.ref (by simp [refs]) r member eq.symm
    simp [fillMaker_order,other]
  · rw [same]
    exact all.1
  · intro r member
    rw [same] at member
    exact ⟨fun others => all.2.2 r member r others rfl,
      rep.orderBound r (by rw [refsOf_cons]; exact List.mem_append_left _ member)⟩
  · intro r outside others
    rw [same] at outside
    have other : r ≠ e.ref := fun eq => outside (by simp [refs,eq])
    simp only [fillMaker_order,if_neg other]
    exact rep.idle r (by rw [refsOf_cons,List.mem_append,not_or]; exact ⟨outside,others⟩)

/-- An order in no queue can be filled without any queue noticing. -/
theorem Represents.fillIdle (rep : Represents h levels) (idle : x ∉ refsOf levels) (matchQty : UInt64) :
    Represents (h.modifyOrder x fun o => { o with filledQty := o.filledQty + matchQty }) levels where
  level := fun L member => (rep.level L member).congr rfl fun r inside => by
    have other : r ≠ x := fun eq => idle (eq ▸ List.mem_flatMap.mpr ⟨L,member,inside⟩)
    simp [other]
  limitRefs := rep.limitRefs
  limitBound := rep.limitBound
  orderRefs := rep.orderRefs
  orderBound := rep.orderBound
  idle := fun r outside => by
    have links := rep.idle r outside
    by_cases same : r = x
    · subst same
      simpa using links
    · simpa [same] using links

/-- One fill lowers the head's remaining quantity and the recorded volume alike. -/
theorem fillQuantities_represents (rep : Represents h (L :: others)) (queue : L.queue = e :: es)
    (taker : OrderRef) (idle : taker ∉ refsOf (L :: others)) (matchQty : UInt64) :
    Represents (fillQuantities h L.ref taker e.ref matchQty)
      ({ L with queue := { e with remaining := e.remaining - matchQty } :: es } :: others) ∧
    Effect [⟨e.ref,taker,L.price,matchQty⟩] h (fillQuantities h L.ref taker e.ref matchQty) ∧
    (fillQuantities h L.ref taker e.ref matchQty).limitCount = h.limitCount := by
  have apart : e.ref ≠ taker := by
    rintro rfl
    exact idle (by simp [Level.refs,queue])
  have order (r : OrderRef) : (fillQuantities h L.ref taker e.ref matchQty).order r =
      if r = e.ref ∨ r = taker then { h.order r with filledQty := (h.order r).filledQty + matchQty }
      else h.order r := by
    by_cases maker : r = e.ref
    · simp [fillQuantities,maker,apart]
    · by_cases other : r = taker
      · simp [fillQuantities,other,Ne.symm apart]
      · simp [fillQuantities,maker,other]
  obtain ⟨level,limitRefs,limitBound,orderRefs,orderBound,links⟩ :=
    fillMaker_represents (rep.fillIdle idle matchQty) queue matchQty
  -- the ledger entry touches no cell
  refine ⟨⟨fun M member => (level M member).congr rfl fun _ _ => rfl,limitRefs,limitBound,orderRefs,orderBound,links⟩,
    ⟨?_,?_,?_,rfl⟩,rfl⟩
  · intro r
    rw [order]
    split <;> simp [Order.args]
  · intro r
    rw [order]
    by_cases maker : r = e.ref
    · simp [maker,filledBy,Fill.share,Ne.symm apart]
    · by_cases other : r = taker
      · simp [other,filledBy,Fill.share,apart]
      · simp [maker,other,filledBy,Fill.share,Ne.symm maker,Ne.symm other]
  · simp [fillQuantities,(rep.level L (by simp)).price]

theorem newOrder_represents (rep : Represents h levels) (a : OrderArgs) :
    Represents (newOrder h a).2 levels := by
  have outside : h.orderCount ∉ refsOf levels := fun member => Nat.lt_irrefl _ (rep.orderBound _ member)
  have kept (r : OrderRef) (member : r ∈ refsOf levels) : (newOrder h a).2.order r = h.order r := by
    have other : r ≠ h.orderCount := fun eq => outside (eq ▸ member)
    simp [newOrder,other]
  exact {
    level := fun L member => (rep.level L member).congr rfl
      (fun r inside => kept r (List.mem_flatMap.mpr ⟨L,member,inside⟩))
    limitRefs := rep.limitRefs
    limitBound := rep.limitBound
    orderRefs := rep.orderRefs
    orderBound := fun r member => Nat.lt_succ_of_lt (rep.orderBound r member)
    idle := fun r absent => by
      by_cases new : r = h.orderCount
      · simp [newOrder,new,OrderArgs.order]
      · simpa [newOrder,new] using rep.idle r absent }

theorem newLimit_represents (rep : Represents h levels) (price : UInt64) :
    Represents (newLimit h price).2 (⟨h.limitCount,price,[]⟩ :: levels) := by
  have outside (L : Level) (member : L ∈ levels) : L.ref ≠ h.limitCount :=
    fun eq => Nat.lt_irrefl _ (eq ▸ rep.limitBound L member)
  exact {
    level := by
      intro L member
      rcases List.mem_cons.mp member with rfl | member
      · constructor <;> simp [newLimit,Level.refs,Level.volume,Threaded,Linked]
      · exact (rep.level L member).congr (by simp [newLimit,outside L member]) (fun _ _ => rfl)
    limitRefs := by
      rw [List.map_cons,List.nodup_cons]
      refine ⟨fun member => ?_,rep.limitRefs⟩
      obtain ⟨L,inside,eq⟩ := List.mem_map.mp member
      exact outside L inside eq
    limitBound := by
      intro L member
      rcases List.mem_cons.mp member with rfl | member
      · exact Nat.lt_succ_self _
      · exact Nat.lt_succ_of_lt (rep.limitBound L member)
    orderRefs := by simpa [Level.refs] using rep.orderRefs
    orderBound := by simpa [Level.refs,newLimit] using rep.orderBound
    idle := by simpa [Level.refs,newLimit] using rep.idle }

end TradingPlatform.Orderbook

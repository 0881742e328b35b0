import TradingPlatform.Calls

/-! One price level over whole sequences of `AddOrder`, `RemoveOrder` and fills of its head, from
`NewLimit` on: its two chains of pointers are a queue and its reverse, with removal from
anywhere, and the rest of the heap is left alone. -/
namespace TradingPlatform.Orderbook

open LinkedQueue Runs

inductive Operation where
  | add (order : OrderRef)
  | remove (order : OrderRef)
  | fill (qty : UInt64)
  deriving DecidableEq

/-- A fill needs a head. Operations are echoed, so that a run logs them. -/
def operate (l : LimitRef) (h : Heap) : Operation → Option (Operation × Heap)
  | .add x => (addOrder h l x).map fun h => (.add x,h)
  | .remove x => some (.remove x,removeOrder h l x)
  | .fill qty => (h.limit l).head.map fun maker => (.fill qty,fillMaker h l maker qty)

/-- The orders added and not removed, in order of addition. -/
def standing (ops : List Operation) : List OrderRef :=
  ops.foldl (fun queue op => match op with
    | .add x => queue ++ [x]
    | .remove x => queue.erase x
    | .fill _ => queue) []

/-- What callers see to: an order that is added has no links and so is in no queue, one that is
removed is in this queue, and the head is filled with no more than it has left. -/
def Allowed (l : LimitRef) (before : List Operation) (h : Heap) : Operation → Prop
  | .add x => x < h.orderCount ∧ (h.order x).next = none ∧ (h.order x).prev = none ∧ (h.order x).limit = none
  | .remove x => x ∈ standing before
  | .fill qty => ∃ maker, (h.limit l).head = some maker ∧ qty ≤ (h.order maker).remainingQty

/-- Following `prev` from an order reaches exactly these orders and then ends. -/
def BackChain (h : Heap) : Option OrderRef → List OrderRef → Prop
  | p, [] => p = none
  | p, r :: rs => p = some r ∧ BackChain h (h.order r).prev rs

/-- A level's cells as a queue of orders. -/
structure Fifo (h : Heap) (l : LimitRef) (queue : List OrderRef) : Prop where
  forward : Chain h (h.limit l).head queue
  ends : (h.limit l).tail = queue.getLast?
  backward : BackChain h (h.limit l).tail queue.reverse
  begins : (h.limit l).head = queue.head?
  headless : (h.limit l).head = none ↔ queue = []
  tailless : (h.limit l).tail = none ↔ queue = []
  members : ∀ r, (h.order r).limit = some l ↔ r ∈ queue
  volume : (h.limit l).totalVolume.toNat = (queue.map fun r => (h.order r).remainingQty.toNat).sum % 2^64

@[simp] theorem standing_append (ops : List Operation) (op : Operation) :
    standing (ops ++ [op]) = match op with
      | .add x => standing ops ++ [x]
      | .remove x => (standing ops).erase x
      | .fill _ => standing ops := by
  cases op <;> simp [standing]

theorem back_of_linked (links : Linked next (fun r => (h.order r).prev) none refs) (front : List OrderRef)
    (shape : refs = front ++ back) : BackChain h front.getLast? front.reverse := by
  induction front using List.reverseRecOn generalizing back with
  | nil => rfl
  | append_singleton front r ih =>
    rw [List.append_assoc,List.singleton_append] at shape
    have previous : (h.order r).prev = front.getLast? := by
      have at_ := (shape ▸ links).prev_at
      simpa using at_
    rw [List.getLast?_concat,List.reverse_append]
    refine ⟨rfl,?_⟩
    rw [previous]
    exact ih shape

/-- A represented level is a queue of its orders, and no other order points at it. -/
theorem Represents.fifo (rep : Represents h (L :: others)) : Fifo h L.ref L.refs := by
  have level := rep.level L (by simp)
  refine ⟨level.queueOf,level.tail,?_,level.head,?_,?_,fun r => ⟨fun points => ?_,fun member => ?_⟩,?_⟩
  · rw [level.tail]
    exact back_of_linked level.links L.refs (List.append_nil _).symm
  · rw [level.head,List.head?_eq_none_iff]
  · rw [level.tail,List.getLast?_eq_none_iff]
  · by_contra outside
    by_cases inside : r ∈ refsOf others
    · obtain ⟨M,member,e,queued,rfl⟩ := mem_refsOf.mp inside
      have other := ((rep.level M (List.mem_cons_of_mem _ member)).entries e queued).limit
      exact (other_level_apart rep member).1 (Option.some.inj (other.symm.trans points))
    · have none := (rep.idle r (by rw [refsOf_cons,List.mem_append,not_or]; exact ⟨outside,inside⟩)).2.2
      simp [none] at points
  · obtain ⟨e,queued,rfl⟩ := List.mem_map.mp member
    exact (level.entries e queued).limit
  · have same : L.refs.map (fun r => (h.order r).remainingQty.toNat) = L.queue.map fun e => e.remaining.toNat := by
      rw [Level.refs,List.map_map]
      refine List.map_congr_left fun e queued => ?_
      simp [(level.entries e queued).remaining]
    rw [level.volume,volume_toNat,exactVolume,same]

/-- The level after some operations, beside levels whose cells are those of the heap it was
opened in. -/
structure Kept (h₀ : Heap) (levels : List Level) (l : LimitRef) (ops : List Operation) (h : Heap) : Prop where
  level : ∃ L, L.ref = l ∧ L.refs = standing ops ∧ Represents h (L :: levels)
  gone : ∀ r, .remove r ∈ ops → r ∉ refsOf levels
  orders : ∀ r ∈ refsOf levels, h.order r = h₀.order r
  limits : ∀ m, m ≠ l → h.limit m = h₀.limit m

/-- An order of a queue points at its level. -/
theorem Represents.attached (rep : Represents h levels) (member : r ∈ refsOf levels) :
    ∃ L ∈ levels, (h.order r).limit = some L.ref := by
  obtain ⟨L,inside,e,queued,rfl⟩ := mem_refsOf.mp member
  exact ⟨L,inside,((rep.level L inside).entries e queued).limit⟩

theorem add_kept (kept : Kept h₀ levels l ops h) (allowed : Allowed l ops h (.add x)) :
    ∃ h', operate l h (.add x) = some (.add x,h') ∧ Kept h₀ levels l (ops ++ [.add x]) h' := by
  obtain ⟨⟨L,rfl,queue,rep⟩,gone,orders,limits⟩ := kept
  obtain ⟨allocated,_,_,free⟩ := allowed
  have idle : x ∉ refsOf (L :: levels) := by
    intro member
    obtain ⟨M,_,points⟩ := rep.attached member
    simp [free] at points
  obtain ⟨h',added,order,limit,_⟩ := addOrder_spec rep x idle
  obtain ⟨h'',added',_,_,rep'⟩ := addOrder_represents rep x idle allocated
  obtain rfl : h' = h'' := Option.some.inj (added.symm.trans added')
  refine ⟨h',by simp [operate,added],⟨{ L with queue := L.queue ++ [restingOf h x] },rfl,?_,rep'⟩,?_,?_,?_⟩
  · simp [← queue,Level.refs,restingOf]
  · intro r removed
    exact gone r (by simpa using removed)
  · intro r member
    have other : r ≠ x := by
      rintro rfl
      exact idle (by rw [refsOf_cons]; exact List.mem_append_right _ member)
    have apart : r ∉ L.refs :=
      fun inside => (List.nodup_append.mp (refsOf_cons L levels ▸ rep.orderRefs)).2.2 r inside r member rfl
    have notLast : L.refs.getLast? ≠ some r := fun last => apart (List.mem_of_getLast? last)
    rw [order,if_neg other,if_neg notLast]
    exact orders r member
  · intro m other
    rw [limit,if_neg other]
    exact limits m other

theorem remove_kept (kept : Kept h₀ levels l ops h) (allowed : Allowed l ops h (.remove x)) :
    Kept h₀ levels l (ops ++ [.remove x]) (removeOrder h l x) := by
  obtain ⟨⟨L,rfl,queue,rep⟩,gone,orders,limits⟩ := kept
  have member : x ∈ L.refs := by rw [queue]; exact allowed
  have distinct := List.nodup_append.mp (refsOf_cons L levels ▸ rep.orderRefs)
  obtain ⟨e,queued,rfl⟩ := List.mem_map.mp member
  obtain ⟨front,back,split⟩ := List.append_of_mem queued
  obtain ⟨_,_,selfNext,selfPrev⟩ := member_links rep split
  refine ⟨⟨{ L with queue := front ++ back },rfl,?_,removeOrder_represents rep split⟩,?_,?_,?_⟩
  · have refs : L.refs = front.map Resting.ref ++ e.ref :: back.map Resting.ref := by simp [Level.refs,split]
    have early : e.ref ∉ front.map Resting.ref := by
      intro inside
      exact (List.nodup_append.mp (refs ▸ distinct.1)).2.2 _ inside _ List.mem_cons_self rfl
    rw [standing_append,← queue,refs]
    simp [Level.refs,List.erase_append_right _ early]
  · intro r removed
    rcases List.mem_append.mp removed with before | now
    · exact gone r before
    · obtain rfl : r = e.ref := by simpa using now
      exact fun other => distinct.2.2 _ member _ other rfl
  · intro r other
    rw [removeOrder_elsewhere rep split fun inside => distinct.2.2 r inside r other rfl]
    exact orders r other
  · intro m other
    rw [removeOrder_limit h L.ref e.ref m selfPrev selfNext,if_neg other]
    exact limits m other

theorem fill_kept (kept : Kept h₀ levels l ops h) (head : (h.limit l).head = some maker) (qty : UInt64) :
    Kept h₀ levels l (ops ++ [.fill qty]) (fillMaker h l maker qty) := by
  obtain ⟨⟨L,rfl,queue,rep⟩,gone,orders,limits⟩ := kept
  have distinct := List.nodup_append.mp (refsOf_cons L levels ▸ rep.orderRefs)
  rw [(rep.level L (by simp)).head] at head
  obtain ⟨e,es,shape⟩ : ∃ e es, L.queue = e :: es := by
    cases entries : L.queue with
    | nil => simp [Level.refs,entries] at head
    | cons e es => exact ⟨e,es,rfl⟩
  obtain rfl : e.ref = maker := by simpa [Level.refs,shape] using head
  refine ⟨⟨{ L with queue := { e with remaining := e.remaining - qty } :: es },rfl,?_,
    fillMaker_represents rep shape qty⟩,?_,?_,?_⟩
  · simp [← queue,Level.refs,shape]
  · intro r removed
    exact gone r (by simpa using removed)
  · intro r member
    have other : r ≠ e.ref := by
      rintro rfl
      exact distinct.2.2 _ (by simp [Level.refs,shape]) _ member rfl
    rw [fillMaker_order,if_neg other]
    exact orders r member
  · intro m other
    rw [fillMaker_limit,if_neg other]
    exact limits m other

theorem operate_kept (op : Operation) (kept : Kept h₀ levels l ops h) (allowed : Allowed l ops h op) :
    ∃ o h', operate l h op = some (o,h') ∧ Kept h₀ levels l (ops ++ [o]) h' := by
  cases op with
  | add x =>
    obtain ⟨h',added,kept'⟩ := add_kept kept allowed
    exact ⟨_,h',added,kept'⟩
  | remove x => exact ⟨_,_,rfl,remove_kept kept allowed⟩
  | fill qty =>
    obtain ⟨maker,head,_⟩ := allowed
    exact ⟨_,_,by simp only [operate,head,Option.map_some],fill_kept kept head qty⟩

theorem operate_echo (result : operate l h op = some (o,h')) : o = op := by
  cases op with
  | add x =>
    obtain ⟨_,_,same⟩ := Option.map_eq_some_iff.mp result
    exact (Prod.mk.inj same).1.symm
  | remove x => exact (Prod.mk.inj (Option.some.inj result)).1.symm
  | fill qty =>
    obtain ⟨_,_,same⟩ := Option.map_eq_some_iff.mp result
    exact (Prod.mk.inj same).1.symm

theorem newLimit_kept (rep : Represents h₀ levels) (price : UInt64) :
    Kept h₀ levels h₀.limitCount [] (newLimit h₀ price).2 :=
  ⟨⟨_,rfl,rfl,newLimit_represents rep price⟩,by simp,fun _ _ => rfl,fun m other => by simp [newLimit,other]⟩

/-- From `NewLimit` on, in a heap of any other levels, every sequence of operations that callers may
make goes through and leaves the queue of the orders added and not removed; removed orders
have no links, and no order or level elsewhere is touched. -/
theorem newLimit_queue (rep : Represents h₀ levels) (price : UInt64) (ops : List Operation)
    (allowed : EachLogged (operate (newLimit h₀ price).1) (Allowed (newLimit h₀ price).1) ops [] (newLimit h₀ price).2) :
    ∃ h, run (operate (newLimit h₀ price).1) ops (newLimit h₀ price).2 = some (ops,h) ∧
      Fifo h (newLimit h₀ price).1 (standing ops) ∧
      (∀ r, .remove r ∈ ops → r ∉ standing ops →
        (h.order r).next = none ∧ (h.order r).prev = none ∧ (h.order r).limit = none) ∧
      (∀ r m, (h₀.order r).limit = some m → h.order r = h₀.order r) ∧
      ∀ m, m ≠ (newLimit h₀ price).1 → h.limit m = h₀.limit m := by
  obtain ⟨os,h,result,kept⟩ := run_total_logged (Kept h₀ levels (newLimit h₀ price).1)
    (fun _ _ op kept allowed => operate_kept op kept allowed) ops [] (newLimit_kept rep price) allowed
  obtain rfl : os = ops := run_echo (fun _ _ _ _ => operate_echo) result
  rw [List.nil_append] at kept
  obtain ⟨⟨L,here,queue,rep'⟩,gone,orders,limits⟩ := kept
  refine ⟨h,result,?_,?_,?_,limits⟩
  · rw [← here,← queue]
    exact rep'.fifo
  · intro r removed absent
    refine rep'.idle r ?_
    rw [refsOf_cons,List.mem_append,not_or,queue]
    exact ⟨absent,gone r removed⟩
  · intro r m points
    refine orders r (by_contra fun outside => ?_)
    simp [(rep.idle r outside).2.2] at points

/-- Three orders of five, in no queue. -/
def threeOrders : Heap := (newOrder (newOrder (newOrder Heap.empty ⟨[1],sell,limitOrder,9,5⟩).2
    ⟨[2],sell,limitOrder,9,5⟩).2
  ⟨[3],sell,limitOrder,9,5⟩).2

/-- The head is filled in part, and orders leave from the tail and from the head. -/
def sixOperations : List Operation := [.add 0,.add 1,.fill 2,.remove 1,.add 2,.remove 0]

theorem sixOperations_queue : standing sixOperations = [2] ∧
    ∃ h, run (operate (newLimit threeOrders 9).1) sixOperations (newLimit threeOrders 9).2 = some (sixOperations,h) ∧
      Fifo h (newLimit threeOrders 9).1 (standing sixOperations) ∧
      (∀ r, .remove r ∈ sixOperations → r ∉ standing sixOperations →
        (h.order r).next = none ∧ (h.order r).prev = none ∧ (h.order r).limit = none) ∧
      (∀ r m, (threeOrders.order r).limit = some m → h.order r = threeOrders.order r) ∧
      ∀ m, m ≠ (newLimit threeOrders 9).1 → h.limit m = threeOrders.limit m := by
  have rep : Represents threeOrders [] :=
    newOrder_represents (newOrder_represents (newOrder_represents represents_empty _) _) _
  refine ⟨by decide,newLimit_queue rep 9 sixOperations ?_⟩
  refine (eachLogged_cons rfl).mpr ⟨⟨by decide,rfl,rfl,rfl⟩,(eachLogged_cons rfl).mpr ⟨⟨by decide,rfl,rfl,rfl⟩,?_⟩⟩
  refine (eachLogged_cons rfl).mpr ⟨⟨0,rfl,by decide⟩,
    (eachLogged_cons rfl).mpr ⟨List.mem_cons_of_mem _ List.mem_cons_self,?_⟩⟩
  refine (eachLogged_cons rfl).mpr ⟨⟨by decide,rfl,rfl,rfl⟩,(eachLogged_cons rfl).mpr ⟨List.mem_cons_self,?_⟩⟩
  exact eachLogged_nil

end TradingPlatform.Orderbook

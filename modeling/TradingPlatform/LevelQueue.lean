import TradingPlatform.LinkedQueue
import TradingPlatform.OrderHeap
import Mathlib.Data.UInt
import Mathlib.Algebra.BigOperators.Group.List.Basic

/-! Price levels as plain queues, and when a heap holds them. The abstract level
keeps its recorded volume implicit: it is the wrapped sum of what its queue still
has to fill, which is what the source's accumulator is shown to be. -/
namespace TradingPlatform.Orderbook

open LinkedQueue

/-- What the book knows of an order instance while it rests. -/
structure Resting where
  ref : OrderRef
  id : GoString
  side : Side
  price : UInt64
  remaining : UInt64
  deriving DecidableEq, Repr

structure Level where
  ref : LimitRef
  price : UInt64
  queue : List Resting
  deriving DecidableEq, Repr

def Level.refs (L : Level) : List OrderRef := L.queue.map Resting.ref

/-- Sum modulo `2^64`, as an unsigned accumulator computes it. -/
def Level.volume (L : Level) : UInt64 := (L.queue.map Resting.remaining).sum

/-- The exact sum. -/
def exactVolume (queue : List Resting) : Nat := (queue.map fun e => e.remaining.toNat).sum

theorem volume_toNat (L : Level) : L.volume.toNat = exactVolume L.queue % 2^64 := by
  simp only [Level.volume,exactVolume]
  induction L.queue with
  | nil => rfl
  | cons e queue ih => simp [UInt64.toNat_add,ih]

structure EntryRep (h : Heap) (l : LimitRef) (e : Resting) : Prop where
  id : (h.order e.ref).id = e.id
  side : (h.order e.ref).side = e.side
  price : (h.order e.ref).price = e.price
  remaining : (h.order e.ref).remainingQty = e.remaining
  limit : (h.order e.ref).limit = some l

def Threaded (h : Heap) (refs : List OrderRef) : Prop :=
  Linked (fun r => (h.order r).next) (fun r => (h.order r).prev) none refs

structure LevelRep (h : Heap) (L : Level) : Prop where
  price : (h.limit L.ref).price = L.price
  volume : (h.limit L.ref).totalVolume = L.volume
  head : (h.limit L.ref).head = L.refs.head?
  tail : (h.limit L.ref).tail = L.refs.getLast?
  links : Threaded h L.refs
  entries : ∀ e ∈ L.queue, EntryRep h L.ref e

def refsOf (levels : List Level) : List OrderRef := levels.flatMap Level.refs

/-- The heap holds exactly these queues: levels and queue members are distinct cells,
and an order outside every queue has no links. -/
structure Represents (h : Heap) (levels : List Level) : Prop where
  level : ∀ L ∈ levels, LevelRep h L
  limitRefs : (levels.map Level.ref).Nodup
  limitBound : ∀ L ∈ levels, L.ref < h.limitCount
  orderRefs : (refsOf levels).Nodup
  orderBound : ∀ r ∈ refsOf levels, r < h.orderCount
  idle : ∀ r, r ∉ refsOf levels →
    (h.order r).next = none ∧ (h.order r).prev = none ∧ (h.order r).limit = none

theorem represents_empty : Represents Heap.empty [] := by
  constructor <;> simp [refsOf,Heap.empty]

@[simp] theorem refsOf_cons (L : Level) (levels : List Level) :
    refsOf (L :: levels) = L.refs ++ refsOf levels := by simp [refsOf]

@[simp] theorem refsOf_append (left right : List Level) :
    refsOf (left ++ right) = refsOf left ++ refsOf right := by simp [refsOf]

theorem mem_refsOf : r ∈ refsOf levels ↔ ∃ L ∈ levels, ∃ e ∈ L.queue, e.ref = r := by
  simp [refsOf,Level.refs]

/-- The order in which levels are listed does not matter to the heap. -/
theorem Represents.perm (rep : Represents h levels) (same : levels.Perm levels') :
    Represents h levels' := by
  have refs : (refsOf levels).Perm (refsOf levels') := same.flatMap_right _
  exact {
    level := fun L member => rep.level L (same.mem_iff.mpr member)
    limitRefs := (same.map _).nodup_iff.mp rep.limitRefs
    limitBound := fun L member => rep.limitBound L (same.mem_iff.mpr member)
    orderRefs := refs.nodup_iff.mp rep.orderRefs
    orderBound := fun r member => rep.orderBound r (refs.mem_iff.mpr member)
    idle := fun r outside => rep.idle r (fun member => outside (refs.mem_iff.mp member)) }

/-- A level keeps its representation when its limit cell and its members' cells do. -/
theorem LevelRep.congr (rep : LevelRep h L) (limit : h'.limit L.ref = h.limit L.ref)
    (orders : ∀ r ∈ L.refs, h'.order r = h.order r) : LevelRep h' L where
  price := by rw [limit]; exact rep.price
  volume := by rw [limit]; exact rep.volume
  head := by rw [limit]; exact rep.head
  tail := by rw [limit]; exact rep.tail
  links := rep.links.congr fun r member => by simp only [orders r member,and_self]
  entries := by
    intro e member
    have same := orders e.ref (List.mem_map_of_mem member)
    have entry := rep.entries e member
    constructor <;> rw [same]
    exacts [entry.id,entry.side,entry.price,entry.remaining,entry.limit]

theorem other_level_apart (rep : Represents h (L :: others)) (member : M ∈ others) :
    M.ref ≠ L.ref ∧ ∀ r ∈ M.refs, r ∉ L.refs := by
  have limits := rep.limitRefs
  have orders := rep.orderRefs
  simp only [List.map_cons,List.nodup_cons] at limits
  rw [refsOf_cons,List.nodup_append] at orders
  refine ⟨fun eq => limits.1 (eq ▸ List.mem_map_of_mem member),fun r inM inL => ?_⟩
  exact orders.2.2 r inL r (List.mem_flatMap.mpr ⟨M,member,inM⟩) rfl

/-- Replacing the queue of one level. The new cells must represent the new queue, and
writes outside it may only touch members of the level. -/
theorem Represents.replace (rep : Represents h (L :: others)) (L' : Level)
    (level : LevelRep h' L') (ref : L'.ref = L.ref) (limits : ∀ l, l ≠ L.ref → h'.limit l = h.limit l)
    (orders : ∀ r ∈ refsOf others, h'.order r = h.order r)
    (limitCount : h'.limitCount = h.limitCount) (orderCount : h'.orderCount = h.orderCount)
    (distinct : L'.refs.Nodup) (within : ∀ r ∈ L'.refs, r ∉ refsOf others ∧ r < h.orderCount)
    (idle : ∀ r, r ∉ L'.refs → r ∉ refsOf others →
      (h'.order r).next = none ∧ (h'.order r).prev = none ∧ (h'.order r).limit = none) :
    Represents h' (L' :: others) where
  level := by
    intro M member
    rcases List.mem_cons.mp member with rfl | member
    · exact level
    · have apart := other_level_apart rep member
      exact (rep.level M (List.mem_cons_of_mem _ member)).congr (limits M.ref apart.1)
        (fun r inM => orders r (List.mem_flatMap.mpr ⟨M,member,inM⟩))
  limitRefs := by simpa only [List.map_cons,ref] using rep.limitRefs
  limitBound := by
    intro M member
    rw [limitCount]
    rcases List.mem_cons.mp member with rfl | member
    · rw [ref]; exact rep.limitBound L (by simp)
    · exact rep.limitBound M (List.mem_cons_of_mem _ member)
  orderRefs := by
    have before := rep.orderRefs
    rw [refsOf_cons,List.nodup_append] at before ⊢
    exact ⟨distinct,before.2.1,fun r inL s inOthers eq => (within r inL).1 (eq ▸ inOthers)⟩
  orderBound := by
    intro r member
    rw [orderCount]
    rw [refsOf_cons,List.mem_append] at member
    rcases member with member | member
    · exact (within r member).2
    · exact rep.orderBound r (by rw [refsOf_cons]; exact List.mem_append_right _ member)
  idle := by
    intro r outside
    rw [refsOf_cons,List.mem_append,not_or] at outside
    exact idle r outside.1 outside.2

end TradingPlatform.Orderbook

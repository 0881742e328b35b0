import TradingPlatform.Erasure
import TradingPlatform.Volumes
import Mathlib.Data.List.Destutter

/-! One order against the same quantity in two orders. The point where the quantity is cut
may lie inside a maker, between two makers or two levels, or behind everything the order
reaches; a cut inside a maker is the only one that leaves a trace. -/
namespace TradingPlatform.Orderbook

section Deals

/-- A trade as its maker sees it. -/
structure Deal (M : Type) where
  maker : M
  price : UInt64
  quantity : UInt64
  deriving DecidableEq

variable {M : Type}

/-- The second list is the first with some of its deals in two pieces. -/
inductive Cut : List (Deal M) → List (Deal M) → Prop
  | nil : Cut [] []
  | here (maker : M) (price q r : UInt64) (fits : q.toNat + r.toNat < 2^64) (cut : Cut xs ys) :
      Cut (⟨maker,price,q + r⟩ :: xs) (⟨maker,price,q⟩ :: ⟨maker,price,r⟩ :: ys)
  | later (x : Deal M) (cut : Cut xs ys) : Cut (x :: xs) (x :: ys)

theorem Cut.nowhere (xs : List (Deal M)) : Cut xs xs := by
  induction xs with
  | nil => exact .nil
  | cons x xs ih => exact .later x ih

theorem Cut.append (cut : Cut xs ys) (cut' : Cut xs' ys') : Cut (M := M) (xs ++ xs') (ys ++ ys') := by
  induction cut with
  | nil => exact cut'
  | here maker price q r fits cut ih => exact .here maker price q r fits ih
  | later x cut ih => exact .later x ih

variable [DecidableEq M]

/-- The exact quantity a maker traded. -/
def traded (maker : M) (xs : List (Deal M)) : Nat :=
  (xs.map fun x => if x.maker = maker then x.quantity.toNat else 0).sum

/-- The makers and prices in order, adjacent deals of one maker counted as one. -/
def merged (xs : List (Deal M)) : List (M × UInt64) :=
  (xs.map fun x => (x.maker,x.price)).destutter fun x y => x.1 ≠ y.1

structure SameDeals (xs ys : List (Deal M)) : Prop where
  traded : ∀ maker, traded maker xs = traded maker ys
  merged : merged xs = merged ys

theorem toNat_add_of_fits {q r : UInt64} (fits : q.toNat + r.toNat < 2^64) :
    (q + r).toNat = q.toNat + r.toNat := by
  rw [UInt64.toNat_add,Nat.mod_eq_of_lt fits]

theorem add_eq_zero_of_fits {q r : UInt64} (fits : q.toNat + r.toNat < 2^64) : q + r = 0 ↔ q = 0 ∧ r = 0 := by
  rw [← UInt64.toNat_inj,← UInt64.toNat_inj,← UInt64.toNat_inj,toNat_add_of_fits fits,UInt64.toNat_zero]
  omega

theorem Cut.traded (cut : Cut xs ys) (maker : M) :
    Orderbook.traded maker xs = Orderbook.traded maker ys := by
  induction cut with
  | nil => rfl
  | here maker' price q r fits cut ih =>
    simp only [Orderbook.traded,List.map_cons,List.sum_cons,toNat_add_of_fits fits] at ih ⊢
    split <;> omega
  | later x cut ih =>
    simp only [Orderbook.traded,List.map_cons,List.sum_cons] at ih ⊢
    rw [ih]

/-- The induction needs the statement for every maker that may stand in front. -/
theorem Cut.destutter (cut : Cut xs ys) (first : M × UInt64) :
    (xs.map fun x : Deal M => (x.maker,x.price)).destutter' (fun x y => x.1 ≠ y.1) first =
      (ys.map fun x : Deal M => (x.maker,x.price)).destutter' (fun x y => x.1 ≠ y.1) first := by
  induction cut generalizing first with
  | nil => rfl
  | here maker price q r fits cut ih =>
    by_cases same : first.1 = maker <;> simp [same,ih]
  | later x cut ih => simp only [List.map_cons,List.destutter'_cons,ih]

theorem Cut.merged (cut : Cut xs ys) : Orderbook.merged xs = Orderbook.merged (M := M) ys := by
  cases cut with
  | nil => rfl
  | here maker price q r fits cut => simp [Orderbook.merged,List.destutter_cons',cut.destutter]
  | later x cut => simpa only [Orderbook.merged,List.map_cons,List.destutter_cons'] using cut.destutter _

theorem Cut.sameDeals (cut : Cut xs ys) : SameDeals (M := M) xs ys := ⟨cut.traded,cut.merged⟩

end Deals

section Sweeping

variable {M : Type} (key : OrderRef → GoString → M)

/-- Makers are told apart by instance or by ID, depending on the key. -/
def Execution.deal (x : Execution) : Deal M := ⟨key x.maker.ref x.maker.id,x.price,x.quantity⟩

/-- A queue eaten at once or in two bites. -/
theorem fillQueue_split (price q r : UInt64) (fits : q.toNat + r.toNat < 2^64) (es : List Resting) :
    Cut ((fillQueue price (q + r) es).fills.map (Execution.deal key))
        ((fillQueue price q es).fills.map (Execution.deal key) ++
          (fillQueue price r (fillQueue price q es).queue).fills.map (Execution.deal key)) ∧
      (fillQueue price (q + r) es).queue = (fillQueue price r (fillQueue price q es).queue).queue ∧
      (fillQueue price (q + r) es).left =
        (fillQueue price q es).left + (fillQueue price r (fillQueue price q es).queue).left := by
  induction es generalizing q with
  | nil => exact ⟨.nowhere _,rfl,rfl⟩
  | cons e es ih =>
    by_cases zero : q = 0
    · simp only [zero,UInt64.zero_add,fillQueue,if_true,List.map_nil,List.nil_append,and_true]
      exact .nowhere _
    have sum := toNat_add_of_fits fits
    have some' : q + r ≠ 0 := fun none => zero ((add_eq_zero_of_fits fits).mp none).1
    by_cases covers : e.remaining ≤ q
    · have within := UInt64.le_iff_toNat_le.mp covers
      have covers' : e.remaining ≤ q + r := UInt64.le_iff_toNat_le.mpr (by omega)
      have shift : q + r - e.remaining = q - e.remaining + r := by grind
      have small := UInt64.toNat_sub_of_le _ _ covers
      obtain ⟨cut,queue,left⟩ := ih (q - e.remaining) (by omega)
      simp only [fillQueue,zero,some',covers,covers',shift,if_true,if_false,List.map_cons,List.cons_append]
      exact ⟨.later _ cut,queue,left⟩
    · have within := UInt64.lt_iff_toNat_lt.mp (UInt64.not_le.mp covers)
      have rest := UInt64.toNat_sub_of_le e.remaining q (UInt64.le_of_lt (UInt64.not_le.mp covers))
      have reach : e.remaining - q ≤ r ↔ e.remaining ≤ q + r := by
        rw [UInt64.le_iff_toNat_le,UInt64.le_iff_toNat_le]
        omega
      by_cases none : r = 0
      · simp only [fillQueue,zero,covers,none,UInt64.add_zero,if_true,if_false,List.map_nil,List.append_nil,
          and_true]
        exact .nowhere _
      by_cases closes : e.remaining ≤ q + r
      · -- The cut lies inside this order, which the second bite then finishes.
        have whole : q + (e.remaining - q) = e.remaining := by grind
        have shift : r - (e.remaining - q) = q + r - e.remaining := by grind
        simp only [fillQueue,zero,some',covers,none,reach,closes,shift,if_true,if_false,UInt64.zero_add,
          List.map_cons,List.map_nil,List.cons_append,List.nil_append,and_true]
        have small := e.remaining.toNat_lt
        have cut := Cut.here (key e.ref e.id) price q (e.remaining - q) (by omega)
          (.nowhere ((fillQueue price (q + r - e.remaining) es).fills.map (Execution.deal key)))
        rwa [whole] at cut
      · have shift : e.remaining - q - r = e.remaining - (q + r) := by grind
        simp only [fillQueue,zero,some',covers,none,reach,closes,shift,if_false,UInt64.zero_add,
          List.map_cons,List.map_nil,List.cons_append,List.nil_append,and_true]
        exact .here (key e.ref e.id) price q r fits .nil

section Levels

variable {stops : UInt64 → Bool} {q : UInt64} {L : Level} (levels : List Level) (positive : q ≠ 0)
  (goes : stops L.price = false) (small : exactVolume L.queue < 2^64) (alive : ∀ e ∈ L.queue, e.remaining ≠ 0)

include positive goes small alive

/-- Without wrapping, a sweep goes on exactly when it has emptied the level. -/
theorem sweep_through (empty : (fillQueue L.price q L.queue).queue = []) :
    ∃ dropped, sweep stops q (L :: levels) =
      ⟨(fillQueue L.price q L.queue).fills ++ (sweep stops (fillQueue L.price q L.queue).left levels).fills,
        (sweep stops (fillQueue L.price q L.queue).left levels).makers,dropped,
        (sweep stops (fillQueue L.price q L.queue).left levels).left⟩ := by
  have drained := (drained_iff L q small alive).mpr empty
  simp only [sweep,positive,goes,drained,Bool.false_eq_true,or_self,if_true,if_false]
  exact ⟨_,rfl⟩

theorem sweep_within (holds : (fillQueue L.price q L.queue).queue ≠ []) :
    sweep stops q (L :: levels) = ⟨(fillQueue L.price q L.queue).fills,
      { L with queue := (fillQueue L.price q L.queue).queue } :: levels,[],0⟩ := by
  have drained := (drained_iff L q small alive).not.mpr holds
  simp only [sweep,positive,goes,drained,Bool.false_eq_true,or_self,if_false,fillQueue_left L.price q L.queue holds]

end Levels

/-- A side swept at once or twice. Without wrapping, a level is dropped exactly when its queue
is empty, so it does not matter in which of the two sweeps that happens. -/
theorem sweep_split (stops : UInt64 → Bool) (q r : UInt64)
    (fits : q.toNat + r.toNat < 2^64) (levels : List Level)
    (exact : ∀ L ∈ levels, exactVolume L.queue < 2^64)
    (left : ∀ L ∈ levels, ∀ e ∈ L.queue, e.remaining ≠ 0) :
    Cut ((sweep stops (q + r) levels).fills.map (Execution.deal key))
        ((sweep stops q levels).fills.map (Execution.deal key) ++
          (sweep stops r (sweep stops q levels).makers).fills.map (Execution.deal key)) ∧
      (sweep stops (q + r) levels).makers = (sweep stops r (sweep stops q levels).makers).makers ∧
      (sweep stops (q + r) levels).left =
        (sweep stops q levels).left + (sweep stops r (sweep stops q levels).makers).left := by
  induction levels generalizing q with
  | nil => exact ⟨.nil,rfl,rfl⟩
  | cons L levels ih =>
    by_cases zero : q = 0
    · simp only [zero,UInt64.zero_add,sweep_zero,List.map_nil,List.nil_append,and_true]
      exact .nowhere _
    by_cases none : r = 0
    · simp only [none,UInt64.add_zero,sweep_zero,List.map_nil,List.append_nil,and_true]
      exact .nowhere _
    cases goes : stops L.price with
    | true =>
      simp only [sweep,goes,or_true,if_true,List.map_nil,List.nil_append,and_true]
      exact .nil
    | false =>
      have some' : q + r ≠ 0 := fun none => zero ((add_eq_zero_of_fits fits).mp none).1
      have small := exact L (by simp)
      have alive := left L (by simp)
      obtain ⟨cut,queue,rest⟩ := fillQueue_split key L.price q r fits L.queue
      by_cases empty : (fillQueue L.price q L.queue).queue = []
      · have within : (fillQueue L.price q L.queue).left.toNat ≤ q.toNat := by
          rw [fillQueue_left_exact]
          exact Nat.sub_le _ _
        obtain ⟨cut',makers,left'⟩ := ih (fillQueue L.price q L.queue).left (by omega)
          (fun M member => exact M (List.mem_cons_of_mem _ member))
          (fun M member => left M (List.mem_cons_of_mem _ member))
        simp only [empty,fillQueue,List.map_nil,List.append_nil] at cut queue rest
        obtain ⟨_,first⟩ := sweep_through levels zero goes small alive empty
        obtain ⟨_,whole⟩ := sweep_through levels some' goes small alive queue
        rw [first,whole,rest,List.map_append,List.map_append,List.append_assoc]
        exact ⟨cut.append cut',makers,left'⟩
      · have first := sweep_within levels zero goes small alive empty
        have spent := fillQueue_left L.price q L.queue empty
        have smaller : exactVolume (fillQueue L.price q L.queue).queue < 2^64 := by
          rw [fillQueue_exact]
          omega
        have alive' : ∀ e ∈ (fillQueue L.price q L.queue).queue, e.remaining ≠ 0 :=
          fillQueue_forall (fun e => e.remaining ≠ 0) L.price q L.queue (fun _ _ _ holds => holds) alive
        rw [spent,UInt64.zero_add] at rest
        rw [first]
        by_cases empty' : (fillQueue L.price (q + r) L.queue).queue = []
        · obtain ⟨_,whole⟩ := sweep_through levels some' goes small alive empty'
          obtain ⟨_,second⟩ := sweep_through (L := { L with queue := (fillQueue L.price q L.queue).queue })
            levels none goes smaller alive' (queue ▸ empty')
          rw [whole,second,rest,List.map_append,List.map_append,← List.append_assoc]
          exact ⟨cut.append (.nowhere _),rfl,(UInt64.zero_add _).symm⟩
        · have whole := sweep_within levels some' goes small alive empty'
          have second := sweep_within (L := { L with queue := (fillQueue L.price q L.queue).queue })
            levels none goes smaller alive' (queue ▸ empty')
          rw [whole,second,queue]
          exact ⟨cut,rfl,rfl⟩

end Sweeping

section Settling

/-- What `GetDepth` reports of a level. -/
def Level.shown (L : Level) : PriceLevel := ⟨L.price,L.volume⟩

/-- Where an order comes to rest depends on its price alone. -/
theorem settle_shape (d : Bool) (levels : List Level) (price : UInt64) : ∃ front queue back,
    (∀ L ∈ front, precedes d L.price price = true) ∧ ∀ fresh (e : Resting), e.price = price →
      ∃ ref, settle d fresh e levels = front ++ ⟨ref,price,queue ++ [e]⟩ :: back := by
  have before : ∀ L ∈ levels.takeWhile fun L => precedes d L.price price, precedes d L.price price = true := by
    intro L member
    simpa using List.mem_takeWhile_imp member
  cases rest : levels.dropWhile fun L => precedes d L.price price with
  | nil =>
    refine ⟨_,[],[],before,fun fresh e here => ⟨fresh,?_⟩⟩
    subst here
    simp [settle,rest]
  | cons L back =>
    by_cases same : L.price = price
    · refine ⟨_,L.queue,back,before,fun fresh e here => ⟨L.ref,?_⟩⟩
      subst here
      simp [settle,rest,same]
    · refine ⟨_,[],L :: back,before,fun fresh e here => ⟨fresh,?_⟩⟩
      subst here
      simp [settle,rest,same]

theorem settle_joins (before : ∀ L ∈ front, precedes d L.price e.price = true) :
    settle d fresh e (front ++ ⟨ref,e.price,queue⟩ :: back) = front ++ ⟨ref,e.price,queue ++ [e]⟩ :: back := by
  have takes : (front ++ ⟨ref,e.price,queue⟩ :: back).takeWhile (fun L => precedes d L.price e.price) = front := by
    rw [List.takeWhile_append_of_pos before]
    simp [precedes_irrefl]
  have drops : (front ++ ⟨ref,e.price,queue⟩ :: back).dropWhile (fun L => precedes d L.price e.price) =
      ⟨ref,e.price,queue⟩ :: back := by
    rw [List.dropWhile_append_of_pos before]
    simp [precedes_irrefl]
  simp [settle,takes,drops]

/-- Two orders that come to rest at one price show as one of their joint quantity. -/
theorem settle_shown (d : Bool) (levels : List Level) (price : UInt64) : ∃ front volume back,
    (∀ fresh (e : Resting), e.price = price →
      (settle d fresh e levels).map Level.shown = front ++ ⟨price,volume + e.remaining⟩ :: back) ∧
    ∀ fresh fresh' (e e' : Resting), e.price = price → e'.price = price →
      (settle d fresh' e' (settle d fresh e levels)).map Level.shown =
        front ++ ⟨price,volume + (e.remaining + e'.remaining)⟩ :: back := by
  obtain ⟨front,queue,back,before,rests⟩ := settle_shape d levels price
  refine ⟨front.map Level.shown,(queue.map Resting.remaining).sum,back.map Level.shown,?_,?_⟩
  · intro fresh e here
    obtain ⟨ref,result⟩ := rests fresh e here
    simp [result,Level.shown,Level.volume]
  · intro fresh fresh' e e' here here'
    obtain ⟨ref,result⟩ := rests fresh e here
    subst here'
    rw [result,settle_joins before]
    simp [Level.shown,Level.volume]

end Settling

/-- An order of the same terms with an ID and a quantity of its own. -/
def OrderArgs.part (a : OrderArgs) (id : GoString) (quantity : UInt64) : OrderArgs :=
  { a with id := id, quantity := quantity }

section Placing

theorem Ladder.place_opposite (B : Ladder) (a : OrderArgs) :
    (B.place a).2.opposite a.side = (B.sweepFor a).makers := by
  by_cases buying : a.side = buy <;> simp [Ladder.place,Ladder.opposite,buying]

theorem Ladder.place_own (B : Ladder) (a : OrderArgs) : (B.place a).2.own a.side = B.ownAfter a := by
  by_cases buying : a.side = buy <;> simp [Ladder.place,Ladder.own,buying]

theorem limit_of_rests (rests : Ladder.rests B a = true) : a.type = limitOrder := ((rests_iff B a).mp rests).2

theorem Ladder.entry_spent {B : Ladder} (limit : a.type = limitOrder) (none : ¬B.rests a = true) :
    (B.entry a).remaining = 0 := by
  by_contra left
  exact none (by simp [Ladder.rests,limit,show (B.sweepFor a).left ≠ 0 from left])

/-- The sides of a ladder, as far as `GetDepth` reports them. -/
theorem Ladder.depth_eq {B C : Ladder} (side : Side)
    (own : (B.own side).map Level.shown = (C.own side).map Level.shown)
    (opposite : B.opposite side = C.opposite side) (n : Nat) : B.depth n = C.depth n := by
  have report (D : Ladder) : D.depth n = ((D.bids.map Level.shown).take n,(D.asks.map Level.shown).take n) := by
    simp only [Ladder.depth,List.map_take]
    rfl
  rw [report,report]
  by_cases buying : side = buy
  · simp only [Ladder.own,Ladder.opposite,buying,if_true] at own opposite
    rw [own,opposite]
  · simp only [Ladder.own,Ladder.opposite,buying,if_false] at own opposite
    rw [own,opposite]

variable {B : Ladder} {a : OrderArgs} {q r : UInt64} (valid : B.Valid) (whole : a.quantity = q + r)
  (fits : exactLevels (B.bids ++ B.asks) + q.toNat + r.toNat < 2^64) (first second : GoString)

include valid whole fits

theorem Ladder.sweepFor_split (key : OrderRef → GoString → M) :
    Cut ((B.sweepFor a).fills.map (Execution.deal key))
        ((B.sweepFor (a.part first q)).fills.map (Execution.deal key) ++
          ((B.place (a.part first q)).2.sweepFor (a.part second r)).fills.map (Execution.deal key)) ∧
      (B.sweepFor a).makers = ((B.place (a.part first q)).2.sweepFor (a.part second r)).makers ∧
      (B.sweepFor a).left = (B.sweepFor (a.part first q)).left +
        ((B.place (a.part first q)).2.sweepFor (a.part second r)).left := by
  have sides := exactLevels_sides B a.side
  have opposite : (B.place (a.part first q)).2.opposite (a.part second r).side =
      (B.sweepFor (a.part first q)).makers := B.place_opposite (a.part first q)
  simp only [Ladder.sweepFor,whole] at opposite ⊢
  rw [opposite]
  exact sweep_split key (stopsAt a.order) q r (by omega) (B.opposite a.side)
    (fun L member => (exactVolume_le_levels member).trans_lt (by omega))
    (fun L member e queued => (valid.entries L (Ladder.opposite_levels member) e queued).2)

/-- The whole leaves something to rest exactly when one of the parts does. -/
theorem Ladder.rests_split : B.rests a = true ↔ B.rests (a.part first q) = true ∨
    (B.place (a.part first q)).2.rests (a.part second r) = true := by
  obtain ⟨_,_,left⟩ := Ladder.sweepFor_split valid whole fits first second fun r _ => r
  have kept : (B.sweepFor (a.part first q)).left.toNat ≤ q.toNat :=
    (Nat.le_add_left _ _).trans (sweep_spent _ _).le
  have kept' : ((B.place (a.part first q)).2.sweepFor (a.part second r)).left.toNat ≤ r.toNat :=
    (Nat.le_add_left _ _).trans (sweep_spent _ _).le
  have type (id : GoString) (n : UInt64) : (a.part id n).type = a.type := rfl
  simp only [Ladder.rests,Bool.and_eq_true,decide_eq_true_eq,type,← or_and_right,left]
  have sum := add_eq_zero_of_fits (q := (B.sweepFor (a.part first q)).left)
    (r := ((B.place (a.part first q)).2.sweepFor (a.part second r)).left) (by omega)
  rw [ne_eq,sum,not_and_or]

theorem Ladder.ownAfter_split :
    (B.ownAfter a).map Level.shown = ((B.place (a.part first q)).2.ownAfter (a.part second r)).map Level.shown := by
  obtain ⟨_,_,left⟩ := Ladder.sweepFor_split valid whole fits first second fun r _ => r
  have rests := Ladder.rests_split valid whole fits first second
  have own : (B.place (a.part first q)).2.own a.side = B.ownAfter (a.part first q) :=
    B.place_own (a.part first q)
  generalize (B.place (a.part first q)).2 = C at *
  have sum : (B.entry a).remaining = (B.entry (a.part first q)).remaining + (C.entry (a.part second r)).remaining :=
    left
  have side (id : GoString) (n : UInt64) : (a.part id n).side = a.side := rfl
  obtain ⟨front,volume,back,once,twice⟩ := settle_shown (decide (a.side = buy)) (B.own a.side) a.price
  simp only [Ladder.ownAfter,rests,side] at own ⊢
  rw [own]
  by_cases former : B.rests (a.part first q) = true <;> by_cases latter : C.rests (a.part second r) = true
  · simp only [former,latter,true_or,if_true]
    rw [once B.limitCount (B.entry a) rfl,
      twice B.limitCount C.limitCount (B.entry (a.part first q)) (C.entry (a.part second r)) rfl rfl,sum]
  · have limit : a.type = limitOrder := limit_of_rests (a := a.part first q) former
    have spent := Ladder.entry_spent (a := a.part second r) limit latter
    simp only [former,latter,true_or,Bool.false_eq_true,if_true,if_false]
    rw [once B.limitCount (B.entry a) rfl,once B.limitCount (B.entry (a.part first q)) rfl,sum,spent,UInt64.add_zero]
  · have limit : a.type = limitOrder := limit_of_rests (a := a.part second r) latter
    have spent := Ladder.entry_spent (a := a.part first q) limit former
    simp only [former,latter,or_true,Bool.false_eq_true,if_true,if_false]
    rw [once B.limitCount (B.entry a) rfl,once C.limitCount (C.entry (a.part second r)) rfl,sum,spent,UInt64.zero_add]
  · simp only [former,latter,or_self,Bool.false_eq_true,if_false]

end Placing

/-- The exact quantity resting on both sides. -/
def restingQuantity (ob : OrderBook) : Nat := ((ob.bids ++ ob.asks).map (exactAt ob.heap)).sum

theorem Sound.restingQuantity (sound : Sound ob B) :
    Orderbook.restingQuantity ob = exactLevels (B.bids ++ B.asks) := by
  rw [Orderbook.restingQuantity,sound.attached,List.map_map,exactLevels]
  exact congrArg List.sum (List.map_congr_left fun L member => sound.exactAt (Ladder.attached_levels member))

def Trade.deal (t : Trade) : Deal GoString := ⟨t.makerOrderID,t.price,t.quantity⟩

def Fill.deal (f : Fill) : Deal OrderRef := ⟨f.maker,f.price,f.quantity⟩

/-- The deals between two states of a book, by order instance. -/
def dealsSince (ob ob' : OrderBook) : List (Deal OrderRef) :=
  (ob'.heap.ledger.drop ob.heap.ledger.length).map Fill.deal

/-- The same levels with the same instances in the same order, with the same left to fill. -/
def SameOpposite (side : Side) (ob ob' : OrderBook) : Prop :=
  ob'.opposite side = ob.opposite side ∧ ∀ l ∈ ob.opposite side,
    queueRefs ob'.heap l = queueRefs ob.heap l ∧ viewLevel ob'.heap l = viewLevel ob.heap l

theorem Sound.sameOpposite (sound : Sound ob B) (sound' : Sound ob' C) (same : C.opposite side = B.opposite side) :
    SameOpposite side ob ob' := by
  refine ⟨by rw [sound.opposite,sound'.opposite,same],fun l member => ?_⟩
  rw [sound.opposite] at member
  obtain ⟨L,inside,rfl⟩ := List.mem_map.mp member
  have level := Ladder.opposite_levels inside
  have level' := Ladder.opposite_levels (same ▸ inside)
  rw [sound.queueRefs level,sound'.queueRefs level',sound.viewLevel level,sound'.viewLevel level']
  exact ⟨rfl,rfl⟩

theorem deals_of_trades (xs : List Execution) (takerID : GoString) :
    (xs.map (Execution.trade takerID)).map Trade.deal = xs.map (Execution.deal fun _ id => id) := by
  rw [List.map_map]
  rfl

theorem deals_of_fills (xs : List Execution) (taker : OrderRef) :
    (xs.map (Execution.fill taker)).map Fill.deal = xs.map (Execution.deal fun r _ => r) := by
  rw [List.map_map]
  rfl

/-- Splitting an order does not matter, whatever its side, type and price are and whichever
IDs the parts carry: each maker trades the same, in the same order, and the depth is the same. -/
theorem split_order_alike (before : runCalls calls = some (replies,ob)) (a : OrderArgs) (q r : UInt64)
    (whole : a.quantity = q + r) (fits : restingQuantity ob + q.toNat + r.toNat < 2^64)
    (first second : GoString) :
    ∃ trades ob' trades₁ ob₁ trades₂ ob₂, place ob a = some (trades,ob') ∧
      place ob (a.part first q) = some (trades₁,ob₁) ∧ place ob₁ (a.part second r) = some (trades₂,ob₂) ∧
      SameDeals (trades.map Trade.deal) ((trades₁ ++ trades₂).map Trade.deal) ∧
      SameDeals (dealsSince ob ob') (dealsSince ob ob₂) ∧
      SameOpposite a.side ob' ob₂ ∧
      ∀ depth : Int, 0 ≤ depth → ∃ bids asks,
        getDepth ob' depth = some (bids,asks) ∧ getDepth ob₂ depth = some (bids,asks) := by
  obtain ⟨_,_,B,again,sound⟩ := runCalls_sound calls
  obtain ⟨_,rfl⟩ := Runs.outcome_unique before again
  rw [sound.restingQuantity] at fits
  have valid := sound.valid
  obtain ⟨ob',result,models,effect⟩ := place_models sound.models valid.sorted a
  obtain ⟨ob₁,result₁,models₁,effect₁⟩ := place_models sound.models valid.sorted (a.part first q)
  have valid₁ := valid.place (a.part first q)
  obtain ⟨ob₂,result₂,models₂,effect₂⟩ := place_models models₁ valid₁.sorted (a.part second r)
  have sound' : Sound ob' (B.place a).2 := ⟨models,valid.place a⟩
  have sound₂ : Sound ob₂ ((B.place (a.part first q)).2.place (a.part second r)).2 :=
    ⟨models₂,valid₁.place (a.part second r)⟩
  have cut (M : Type) (key : OrderRef → GoString → M) :=
    (Ladder.sweepFor_split valid whole fits first second key).1
  have since : dealsSince ob ob' = (B.place a).1.map (Execution.deal fun r _ => r) := by
    rw [dealsSince,effect.ledger,← deals_of_fills _ B.orderCount]
    simp [newOrder]
  have since₂ : dealsSince ob ob₂ = (B.place (a.part first q)).1.map (Execution.deal fun r _ => r) ++
      ((B.place (a.part first q)).2.place (a.part second r)).1.map (Execution.deal fun r _ => r) := by
    rw [dealsSince,effect₂.ledger,← deals_of_fills _ B.orderCount,
      ← deals_of_fills _ (B.place (a.part first q)).2.orderCount]
    simp [newOrder,effect₁.ledger]
  have opposite : ((B.place (a.part first q)).2.place (a.part second r)).2.opposite a.side =
      (B.place a).2.opposite a.side := by
    rw [Ladder.place_opposite B a,(Ladder.sweepFor_split valid whole fits first second fun r _ => r).2.1]
    exact Ladder.place_opposite _ (a.part second r)
  have own : ((B.place a).2.own a.side).map Level.shown =
      (((B.place (a.part first q)).2.place (a.part second r)).2.own a.side).map Level.shown := by
    rw [Ladder.place_own B a,Ladder.ownAfter_split valid whole fits first second]
    exact congrArg (List.map Level.shown) (Ladder.place_own _ (a.part second r)).symm
  refine ⟨_,ob',_,ob₁,_,ob₂,result,result₁,result₂,?_,?_,sound'.sameOpposite sound₂ opposite,fun depth nonneg => ?_⟩
  · rw [List.map_append,deals_of_trades,deals_of_trades,deals_of_trades]
    exact (cut _ _).sameDeals
  · rw [since,since₂]
    exact (cut _ _).sameDeals
  · refine ⟨_,_,getDepth_models models depth nonneg,?_⟩
    rw [getDepth_models models₂ depth nonneg,← Ladder.depth_eq a.side own opposite.symm]
    rfl

/-- Two sellers at neighbouring prices. -/
def twoSellers : List Call := [.process ⟨[1],sell,limitOrder,100,4⟩,.process ⟨[2],sell,limitOrder,101,5⟩]

/-- A buyer of seven, cut inside the second seller. -/
def sevenBought : OrderArgs := ⟨[3],buy,limitOrder,101,7⟩

theorem sevenBought_alike : ∃ ob trades ob' trades₁ ob₁ trades₂ ob₂,
    runCalls twoSellers = some ([.trades [],.trades []],ob) ∧ restingQuantity ob + 5 + 2 < 2^64 ∧
      place ob sevenBought = some (trades,ob') ∧ place ob (sevenBought.part [4] 5) = some (trades₁,ob₁) ∧
      place ob₁ (sevenBought.part [5] 2) = some (trades₂,ob₂) ∧
      SameDeals (trades.map Trade.deal) ((trades₁ ++ trades₂).map Trade.deal) ∧
      SameDeals (dealsSince ob ob') (dealsSince ob ob₂) ∧ SameOpposite buy ob' ob₂ ∧
      ∀ depth : Int, 0 ≤ depth → ∃ bids asks,
        getDepth ob' depth = some (bids,asks) ∧ getDepth ob₂ depth = some (bids,asks) := by
  have known : (runCalls twoSellers).map (fun result => (result.1,restingQuantity result.2)) =
      some ([.trades [],.trades []],9) := by decide
  obtain ⟨⟨replies,ob⟩,before,shown⟩ := Option.map_eq_some_iff.mp known
  obtain ⟨rfl,resting⟩ := Prod.mk.inj shown
  have fits : restingQuantity ob + 5 + 2 < 2^64 := by
    have nine : restingQuantity ob = 9 := resting
    omega
  obtain ⟨trades,ob',trades₁,ob₁,trades₂,ob₂,alike⟩ :=
    split_order_alike before sevenBought 5 2 rfl fits [4] [5]
  exact ⟨ob,trades,ob',trades₁,ob₁,trades₂,ob₂,before,fits,alike⟩

end TradingPlatform.Orderbook

import TradingPlatform.NaiveRuns

/-! Buying and selling are the same program up to the order of prices. Swapping the sides
and turning the price range around turns one run into another, with the same trades and
the two halves of the book exchanged. -/
namespace TradingPlatform.Orderbook

open Runs

/-- Prices read from the other end of the range. -/
def mirrorPrice (p : UInt64) : UInt64 := 18446744073709551615 - p

def mirrorSide (side : Side) : Side := if side = buy then sell else buy

/-- All that the mirror asks of its map of prices. -/
def Reverses (m : UInt64 → UInt64) : Prop := ∀ p q, m p < m q ↔ q < p

theorem mirrorPrice_reverses : Reverses mirrorPrice := by
  have value (p : UInt64) : (mirrorPrice p).toNat = 18446744073709551615 - p.toNat := by
    have small := p.toNat_lt
    apply UInt64.toNat_sub_of_le
    apply UInt64.le_iff_toNat_le.mpr
    change p.toNat ≤ 18446744073709551615
    omega
  intro p q
  have small := p.toNat_lt
  have small' := q.toNat_lt
  rw [UInt64.lt_iff_toNat_lt,UInt64.lt_iff_toNat_lt,value,value]
  omega

theorem mirrorSide_buy (side : Side) : mirrorSide side = buy ↔ side ≠ buy := by
  by_cases known : side = buy
  · simp [mirrorSide,known,buy,sell]
  · simp [mirrorSide,known]

section Mirror

variable (m : UInt64 → UInt64)

def OrderArgs.mirror (a : OrderArgs) : OrderArgs :=
  { a with side := mirrorSide a.side, price := m a.price }

def Call.mirror : Call → Call
  | .process a => .process (a.mirror m)
  | .cancel id => .cancel id

def Trade.mirror (t : Trade) : Trade := { t with price := m t.price }

def Reply.mirror : Reply → Reply
  | .trades ts => .trades (ts.map (Trade.mirror m))
  | .cancelled found => .cancelled found

def PriceLevel.mirror (l : PriceLevel) : PriceLevel := { l with price := m l.price }

def Resting.mirror (e : Resting) : Resting :=
  { e with side := mirrorSide e.side, price := m e.price }

def Execution.mirror (x : Execution) : Execution := ⟨x.maker.mirror m,m x.price,x.quantity⟩

def Level.mirror (L : Level) : Level := ⟨L.ref,m L.price,L.queue.map (Resting.mirror m)⟩

def Ladder.mirror (B : Ladder) : Ladder :=
  { B with
    bids := B.asks.map (Level.mirror m)
    asks := B.bids.map (Level.mirror m)
    detached := B.detached.map (Level.mirror m) }

theorem Level.mirror_volume (L : Level) : (L.mirror m).volume = L.volume := by
  simp [Level.volume,Level.mirror,Resting.mirror,Function.comp_def]

theorem Level.mirror_refs (L : Level) : (L.mirror m).refs = L.refs := by
  simp [Level.refs,Level.mirror,Resting.mirror,Function.comp_def]

theorem fillQueue_mirror (price q : UInt64) (es : List Resting) :
    fillQueue (m price) q (es.map (Resting.mirror m)) =
      ⟨(fillQueue price q es).fills.map (Execution.mirror m),
        (fillQueue price q es).queue.map (Resting.mirror m),(fillQueue price q es).left⟩ := by
  induction es generalizing q with
  | nil => rfl
  | cons e es ih =>
    have same : (e.mirror m).remaining = e.remaining := rfl
    simp only [fillQueue,List.map_cons,same]
    by_cases zero : q = 0
    · simp [zero]
    · by_cases covers : e.remaining ≤ q
      · simp [zero,covers,ih,Execution.mirror,Resting.mirror]
      · simp [zero,covers,Execution.mirror,Resting.mirror]

theorem sweep_mirror {stops stops' : UInt64 → Bool} (agree : ∀ p, stops' (m p) = stops p)
    (q : UInt64) (levels : List Level) :
    sweep stops' q (levels.map (Level.mirror m)) =
      ⟨(sweep stops q levels).fills.map (Execution.mirror m),
        (sweep stops q levels).makers.map (Level.mirror m),
        (sweep stops q levels).dropped.map (Level.mirror m),(sweep stops q levels).left⟩ := by
  induction levels generalizing q with
  | nil => rfl
  | cons L levels ih =>
    have filled : (⟨L.ref,m L.price,(fillQueue L.price q L.queue).queue.map (Resting.mirror m)⟩ : Level) =
        ({ L with queue := (fillQueue L.price q L.queue).queue } : Level).mirror m := rfl
    have head : L.mirror m = ⟨L.ref,m L.price,L.queue.map (Resting.mirror m)⟩ := rfl
    simp only [sweep,List.map_cons,head,agree,fillQueue_mirror,filled,Level.mirror_volume]
    by_cases halts : q = 0 ∨ stops L.price = true
    · simp [halts,head]
    · by_cases spent : ({ L with queue := (fillQueue L.price q L.queue).queue } : Level).volume = 0
      · simp [halts,spent,ih]
      · simp [halts,spent]

theorem Ladder.mirror_own (B : Ladder) (side : Side) :
    (B.mirror m).own (mirrorSide side) = (B.own side).map (Level.mirror m) := by
  by_cases known : side = buy <;> simp [Ladder.own,mirrorSide_buy,known,Ladder.mirror]

theorem Ladder.mirror_opposite (B : Ladder) (side : Side) :
    (B.mirror m).opposite (mirrorSide side) = (B.opposite side).map (Level.mirror m) := by
  by_cases known : side = buy <;> simp [Ladder.opposite,mirrorSide_buy,known,Ladder.mirror]

theorem release_mirror (orders : OrderMap) (xs : List Execution) :
    release orders (xs.map (Execution.mirror m)) = release orders xs := by
  simp only [release,List.foldl_map]
  rfl

theorem Level.mirror_strip (r : OrderRef) (L : Level) : (L.mirror m).strip r = (L.strip r).mirror m := by
  simp only [Level.strip,Level.mirror,List.filter_map]
  rfl

theorem Ladder.mirror_strip (B : Ladder) (r : OrderRef) (id : GoString) :
    (B.mirror m).strip r id = (B.strip r id).mirror m := by
  simp [Ladder.strip,Ladder.mirror,Function.comp_def,Level.mirror_strip]

theorem Ladder.depth_mirror (B : Ladder) (n : Nat) :
    (B.mirror m).depth n =
      ((B.depth n).2.map (PriceLevel.mirror m),(B.depth n).1.map (PriceLevel.mirror m)) := by
  have shown (L : Level) : (⟨(L.mirror m).price,(L.mirror m).volume⟩ : PriceLevel) =
      PriceLevel.mirror m ⟨L.price,L.volume⟩ := by
    rw [Level.mirror_volume]
    rfl
  simp [Ladder.depth,Ladder.mirror,← List.map_take,Function.comp_def,shown]

theorem locate_unique (distinct : (refsOf levels).Nodup) (level : L ∈ levels) (entry : e ∈ L.queue) :
    locate e.ref levels = some (L,e) := by
  obtain ⟨M,d,found⟩ := locate_exists (mem_refsOf.mpr ⟨L,level,e,entry,rfl⟩)
  obtain ⟨member,queued,same⟩ := locate_mem found
  obtain ⟨rfl,rfl⟩ := entry_unique distinct level entry member queued same
  exact found

variable {m}

theorem Ladder.mem_mirror_levels {B : Ladder} :
    M ∈ (B.mirror m).levels ↔ ∃ L ∈ B.levels, L.mirror m = M := by
  simp only [Ladder.levels,Ladder.mirror,List.mem_append,List.mem_map]
  grind

theorem Ladder.mirror_distinct {B : Ladder} (distinct : (refsOf B.levels).Nodup) :
    (refsOf (B.mirror m).levels).Nodup := by
  have refs (levels : List Level) : refsOf (levels.map (Level.mirror m)) = refsOf levels := by
    simp [refsOf,List.flatMap_map,Level.mirror_refs]
  simp only [Ladder.levels,Ladder.mirror,refsOf_append,refs] at distinct ⊢
  exact (List.perm_append_comm_assoc _ _ _).nodup_iff.mp distinct

/-- The mirror lists the asks first, so only the uniqueness of references makes a search
end at the same order. -/
theorem Ladder.locate_mirror {B : Ladder} (distinct : (refsOf B.levels).Nodup) (r : OrderRef) :
    locate r (B.mirror m).levels = (locate r B.levels).map fun (L,e) => (L.mirror m,e.mirror m) := by
  cases found : locate r B.levels with
  | some pair =>
    obtain ⟨level,entry,rfl⟩ := locate_mem found
    exact locate_unique (Ladder.mirror_distinct distinct) (Ladder.mem_mirror_levels.mpr ⟨_,level,rfl⟩)
      (List.mem_map_of_mem entry)
  | none =>
    cases other : locate r (B.mirror m).levels with
    | none => rfl
    | some pair =>
      obtain ⟨level,entry,same⟩ := locate_mem other
      obtain ⟨L,member,image⟩ := Ladder.mem_mirror_levels.mp level
      rw [← image] at entry
      obtain ⟨e,queued,twin⟩ := List.mem_map.mp entry
      have here : e.ref = r := by
        rw [← same,← twin]
        rfl
      rw [← here,locate_unique distinct member queued] at found
      cases found

section Reversed

variable (reverses : Reverses m)

include reverses

theorem reverses_inj (p q : UInt64) : m p = m q ↔ p = q := by
  constructor
  · intro same
    have up : ¬q < p := fun less => by
      have strict := (reverses p q).mpr less
      grind
    have down : ¬p < q := fun less => by
      have strict := (reverses q p).mpr less
      grind
    grind
  · rintro rfl
    rfl

theorem precedes_mirror (d : Bool) (p q : UInt64) : precedes (!d) (m p) (m q) = precedes d p q := by
  cases d <;> simp [precedes,reverses p q,reverses q p]

/-- An order whose side is neither of the two stops nowhere, but its mirror image does. -/
theorem stopsAt_mirror {a : OrderArgs} (known : a.side = buy ∨ a.side = sell) (p : UInt64) :
    stopsAt (a.mirror m).order (m p) = stopsAt a.order p := by
  rcases known with side | side <;>
    simp [stopsAt,OrderArgs.order,OrderArgs.mirror,mirrorSide,side,reverses _ _,buy,sell]

theorem settle_mirror (d : Bool) (fresh : LimitRef) (e : Resting) (levels : List Level) :
    settle (!d) fresh (e.mirror m) (levels.map (Level.mirror m)) =
      (settle d fresh e levels).map (Level.mirror m) := by
  have ahead : (fun L : Level => precedes (!d) L.price (e.mirror m).price) ∘ Level.mirror m =
      fun L => precedes d L.price e.price := funext fun L => precedes_mirror reverses d L.price e.price
  have single : Level.mirror m ⟨fresh,e.price,[e]⟩ = ⟨fresh,(e.mirror m).price,[e.mirror m]⟩ := rfl
  simp only [settle,List.takeWhile_map,List.dropWhile_map,ahead,List.map_append]
  congr 1
  cases levels.dropWhile fun L => precedes d L.price e.price with
  | nil => simp [single]
  | cons L back =>
    have level : (L.mirror m).price = (e.mirror m).price ↔ L.price = e.price := reverses_inj reverses _ _
    simp only [List.map_cons,level]
    by_cases same : L.price = e.price
    · simp [same,Level.mirror]
    · simp [same,single]

theorem Ladder.place_mirror (B : Ladder) {a : OrderArgs} (known : a.side = buy ∨ a.side = sell) :
    (B.mirror m).place (a.mirror m) = ((B.place a).1.map (Execution.mirror m),(B.place a).2.mirror m) := by
  have swept : (B.mirror m).sweepFor (a.mirror m) = ⟨(B.sweepFor a).fills.map (Execution.mirror m),
      (B.sweepFor a).makers.map (Level.mirror m),(B.sweepFor a).dropped.map (Level.mirror m),
      (B.sweepFor a).left⟩ := by
    have makers : (B.mirror m).opposite (a.mirror m).side = (B.opposite a.side).map (Level.mirror m) :=
      B.mirror_opposite m a.side
    rw [Ladder.sweepFor,makers]
    exact sweep_mirror m (stopsAt_mirror reverses known) a.quantity (B.opposite a.side)
  have rests : (B.mirror m).rests (a.mirror m) = B.rests a := by
    simp only [Ladder.rests,swept]
    rfl
  have entry : (B.mirror m).entry (a.mirror m) = (B.entry a).mirror m := by
    simp only [Ladder.entry,swept]
    rfl
  have flipped : (a.mirror m).side = buy ↔ a.side ≠ buy := mirrorSide_buy a.side
  have own : (B.mirror m).own (a.mirror m).side = (B.own a.side).map (Level.mirror m) :=
    B.mirror_own m a.side
  have ownAfter : (B.mirror m).ownAfter (a.mirror m) = (B.ownAfter a).map (Level.mirror m) := by
    simp only [Ladder.ownAfter,rests,entry,flipped,own,decide_not]
    split
    · exact settle_mirror reverses _ _ _ _
    · rfl
  have orders : (B.mirror m).ordersAfter (a.mirror m) = B.ordersAfter a := by
    simp only [Ladder.ordersAfter,rests,swept,release_mirror]
    rfl
  have limits : (B.mirror m).limitsAfter (a.mirror m) = B.limitsAfter a := by
    have level (L : Level) : (L.mirror m).price = (a.mirror m).price ↔ L.price = a.price :=
      reverses_inj reverses _ _
    simp only [Ladder.limitsAfter,rests,own,List.any_map,Function.comp_def,level]
    rfl
  simp only [Ladder.place,swept,ownAfter,orders,limits,flipped]
  by_cases bid : a.side = buy <;> simp [Ladder.mirror,bid]

theorem Ladder.mirror_dropLevel (B : Ladder) (side : Side) (price : UInt64) :
    (B.mirror m).dropLevel (mirrorSide side) (m price) = (B.dropLevel side price).mirror m := by
  have level (L : Level) : (L.mirror m).price = m price ↔ L.price = price := reverses_inj reverses _ _
  by_cases bid : side = buy <;>
    simp [Ladder.dropLevel,mirrorSide_buy,bid,Ladder.mirror,List.filter_map,Function.comp_def,level]

theorem Ladder.cancel_mirror {B : Ladder} (distinct : (refsOf B.levels).Nodup) (id' : GoString) :
    (B.mirror m).cancel id' = ((B.cancel id').1,(B.cancel id').2.mirror m) := by
  have found : (((B.mirror m).orders id').bind fun r => locate r (B.mirror m).levels) =
      ((B.orders id').bind fun r => locate r B.levels).map fun (L,e) => (L.mirror m,e.mirror m) := by
    have known : (B.mirror m).orders id' = B.orders id' := rfl
    rw [known]
    cases B.orders id' with
    | none => rfl
    | some r => exact Ladder.locate_mirror distinct r
  simp only [Ladder.cancel,found]
  cases (B.orders id').bind fun r => locate r B.levels with
  | none => rfl
  | some pair =>
    obtain ⟨L,e⟩ := pair
    have volume : ((L.mirror m).strip (e.mirror m).ref).volume = (L.strip e.ref).volume := by
      have stripped : (L.mirror m).strip (e.mirror m).ref = (L.strip e.ref).mirror m :=
        L.mirror_strip m e.ref
      rw [stripped,Level.mirror_volume]
    have stripped : (B.mirror m).strip (e.mirror m).ref (e.mirror m).id = (B.strip e.ref e.id).mirror m :=
      B.mirror_strip m e.ref e.id
    have dropped : ((B.strip e.ref e.id).mirror m).dropLevel (e.mirror m).side (L.mirror m).price =
        ((B.strip e.ref e.id).dropLevel e.side L.price).mirror m := Ladder.mirror_dropLevel reverses _ _ _
    simp only [Option.map_some,volume,stripped,dropped]
    split <;> rfl

theorem Ladder.call_mirror {B : Ladder} (distinct : (refsOf B.levels).Nodup) {c : Call}
    (known : ∀ a, c = .process a → a.side = buy ∨ a.side = sell) :
    (B.mirror m).call (c.mirror m) = ((B.call c).1.mirror m,(B.call c).2.mirror m) := by
  cases c with
  | process a =>
    have trades : ((B.place a).1.map (Execution.mirror m)).map (Execution.trade (a.mirror m).id) =
        ((B.place a).1.map (Execution.trade a.id)).map (Trade.mirror m) := by
      simp only [List.map_map]
      rfl
    simp only [Ladder.call,Call.mirror,Ladder.place_mirror reverses B (known a rfl),Reply.mirror,trades]
  | cancel id' => simp [Ladder.call,Call.mirror,Ladder.cancel_mirror reverses distinct,Reply.mirror]

end Reversed

end Mirror

/-- Two books that stand for a ladder and its mirror image. -/
def Mirrored (calls : List Call) (ob ob' : OrderBook) : Prop :=
  KnownSides calls ∧ ∃ B : Ladder, Sound ob B ∧ Sound ob' (B.mirror mirrorPrice)

theorem Mirrored.call (mirrored : Mirrored (c :: calls) ob ob') :
    ∃ reply next next', Orderbook.call ob c = some (reply,next) ∧
      Orderbook.call ob' (c.mirror mirrorPrice) = some (reply.mirror mirrorPrice,next') ∧
      Mirrored calls next next' := by
  obtain ⟨sides,B,sound,sound'⟩ := mirrored
  have known : ∀ a, c = .process a → a.side = buy ∨ a.side = sell :=
    fun a same => sides a (by simp [same])
  obtain ⟨next,first,kept⟩ := sound.call c
  obtain ⟨next',second,kept'⟩ := sound'.call (c.mirror mirrorPrice)
  rw [Ladder.call_mirror mirrorPrice_reverses sound.models.rep.orderRefs known] at second kept'
  exact ⟨_,next,next',first,second,fun a member => sides a (List.mem_cons_of_mem _ member),_,kept,kept'⟩

theorem Mirrored.getDepth (mirrored : Mirrored calls ob ob') (depth : Int) (nonneg : 0 ≤ depth) :
    ∃ bids asks, Orderbook.getDepth ob depth = some (bids,asks) ∧ Orderbook.getDepth ob' depth =
      some (asks.map (PriceLevel.mirror mirrorPrice),bids.map (PriceLevel.mirror mirrorPrice)) := by
  obtain ⟨_,B,sound,sound'⟩ := mirrored
  refine ⟨(B.depth depth.toNat).1,(B.depth depth.toNat).2,getDepth_models sound.models depth nonneg,?_⟩
  rw [getDepth_models sound'.models depth nonneg,Ladder.depth_mirror]

/-- Running the mirrored calls gives the mirrored replies and the mirrored depth. -/
theorem runCalls_mirror (calls : List Call) (sides : KnownSides calls) :
    ∃ replies ob ob', runCalls calls = some (replies,ob) ∧
      runCalls (calls.map (Call.mirror mirrorPrice)) = some (replies.map (Reply.mirror mirrorPrice),ob') ∧
      ∀ depth : Int, 0 ≤ depth → ∃ bids asks, getDepth ob depth = some (bids,asks) ∧ getDepth ob' depth =
        some (asks.map (PriceLevel.mirror mirrorPrice),bids.map (PriceLevel.mirror mirrorPrice)) := by
  obtain ⟨replies,ob,ob',result,result',mirrored⟩ := run_relates (Call.mirror mirrorPrice)
    (Reply.mirror mirrorPrice) Mirrored (fun _ _ _ _ related => related.call) calls
    ⟨sides,Ladder.empty,new_sound,new_sound⟩
  exact ⟨replies,ob,ob',result,result',mirrored.getDepth⟩

theorem sampleCalls_mirror : KnownSides sampleCalls ∧ ∃ replies ob ob',
    runCalls sampleCalls = some (replies,ob) ∧
      runCalls (sampleCalls.map (Call.mirror mirrorPrice)) =
        some (replies.map (Reply.mirror mirrorPrice),ob') ∧
      ∀ depth : Int, 0 ≤ depth → ∃ bids asks, getDepth ob depth = some (bids,asks) ∧ getDepth ob' depth =
        some (asks.map (PriceLevel.mirror mirrorPrice),bids.map (PriceLevel.mirror mirrorPrice)) :=
  ⟨sampleCalls_sides,runCalls_mirror sampleCalls sampleCalls_sides⟩

end TradingPlatform.Orderbook

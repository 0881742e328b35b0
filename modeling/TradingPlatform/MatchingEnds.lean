import TradingPlatform.Calls

/-! Both loops of `matchOrder` end, from every book that calls can build and whatever the
recorded volumes have wrapped to. The outer loop leaves an emptied level only if its recorded
volume is zero, which the volume of an empty queue is. -/
namespace TradingPlatform.Orderbook

open Loop Runs

/-- What holds when a round of the outer loop begins: the levels still to visit are queues of the
heap, none longer than the budget, and the taker is in no queue. -/
structure Sweeping (fuel : Nat) (taker : OrderRef) (makers others : List Level) (s : Matching) : Prop where
  rep : Represents s.heap (makers ++ others)
  idle : taker ∉ refsOf (makers ++ others)
  budget : s.heap.orderCount < fuel
  limits : s.makerLimits = makers.map Level.ref

/-- The outer loop goes on to match against its best level. -/
def Active (taker : OrderRef) (best : LimitRef) (s : Matching) : Prop :=
  0 < (s.heap.order taker).remainingQty ∧ stopsAt (s.heap.order taker) (s.heap.limit best).price = false

theorem matchLevel_done (limits : s.makerLimits = best :: rest) (inactive : ¬Active taker best s) :
    matchLevel fuel taker s = some (.done s) := by
  simp only [matchLevel,limits]
  by_cases left : 0 < (s.heap.order taker).remainingQty
  · have stops : stopsAt (s.heap.order taker) (s.heap.limit best).price = true := by
      simpa [Active,left] using inactive
    simp [left,stops]
  · simp [left]

/-- A level whose queue is empty has no volume. -/
theorem LevelRep.volume_of_empty (rep : LevelRep h L) (empty : (h.limit L.ref).head = none) :
    (h.limit L.ref).totalVolume = 0 := by
  rw [rep.head] at empty
  have queue : L.queue = [] := by simpa [Level.refs] using empty
  simp [rep.volume,Level.volume,queue]

/-- One round of the outer loop: its inner loop ends, an emptied level has no volume and is
dropped, and a level that is kept leaves nothing of the taker. -/
theorem matchLevel_round (sweeping : Sweeping fuel taker (L :: levels) others s) (active : Active taker L.ref s) :
    ∃ s', iterate (fillHead L.ref taker) fuel s = some s' ∧
      (((s'.heap.limit L.ref).totalVolume = 0 ∧
          matchLevel fuel taker s = some (.next { s' with makerLimits := levels.map Level.ref }) ∧
          ∃ L', Sweeping fuel taker levels (L' :: others) { s' with makerLimits := levels.map Level.ref }) ∨
        ((s'.heap.limit L.ref).head ≠ none ∧ matchLevel fuel taker s = some (.next s') ∧
          (s'.heap.order taker).remainingQty = 0 ∧ ∃ L', L'.ref = L.ref ∧
          Sweeping fuel taker (L' :: levels) others s')) := by
  obtain ⟨rep,idle,budget,limits⟩ := sweeping
  obtain ⟨left,passes⟩ := active
  have short := queue_length_le rep L (by simp)
  obtain ⟨s',ends,progress,rep',same,rest⟩ :=
    iterate_fillHead taker L (levels ++ others) s _ fuel rep idle rfl (by omega)
  have level := rep'.level _ List.mem_cons_self
  have budget' : s'.heap.orderCount < fuel := by rw [progress.effect.orderCount]; exact budget
  have idle' : taker ∉ refsOf ({ L with
      queue := (fillQueue L.price (s.heap.order taker).remainingQty L.queue).queue } :: (levels ++ others)) := by
    intro member
    rw [refsOf_cons,List.mem_append] at member
    apply idle
    rw [List.cons_append,refsOf_cons,List.mem_append]
    exact member.imp_left fun inside => (fillQueue_suffix _ _ L.queue).subset inside
  have round : matchLevel fuel taker s = some (if (s'.heap.limit L.ref).totalVolume = 0 then
      .next { s' with makerLimits := levels.map Level.ref } else .next s') := by
    simp only [matchLevel,limits,List.map_cons,left,passes,ends,Option.map_some,if_true,Bool.false_eq_true,if_false]
    rw [same,limits]
    rfl
  refine ⟨s',ends,?_⟩
  by_cases drained : (s'.heap.limit L.ref).totalVolume = 0
  · rw [if_pos drained] at round
    refine .inl ⟨drained,round,_,rep'.perm List.perm_middle.symm,?_,budget',rfl⟩
    intro member
    apply idle'
    simp only [refsOf_append,refsOf_cons,List.mem_append] at member ⊢
    tauto
  · rw [if_neg drained] at round
    have volume := level.volume
    simp only at volume
    rw [volume] at drained
    exact .inr ⟨fun empty => drained (volume ▸ level.volume_of_empty empty),round,
      rest.trans (fillQueue_left_of_volume L _ drained),
      { L with queue := (fillQueue L.price (s.heap.order taker).remainingQty L.queue).queue },rfl,
      rep',idle',budget',same.trans limits⟩

/-- Rounds keep the invariant and visit only levels that were to visit. -/
theorem Sweeping.next (sweeping : Sweeping fuel taker makers others s)
    (again : matchLevel fuel taker s = some (.next t)) :
    (∃ makers' others', Sweeping fuel taker makers' others' t) ∧ t.makerLimits ⊆ s.makerLimits := by
  cases makers with
  | nil => simp [matchLevel,sweeping.limits] at again
  | cons L levels =>
    by_cases active : Active taker L.ref s
    · obtain ⟨s',_,⟨_,round,L',kept⟩ | ⟨_,round,_,L',same,kept⟩⟩ := matchLevel_round sweeping active
      · obtain rfl : _ = t := Control.next.inj (Option.some.inj (round.symm.trans again))
        refine ⟨⟨_,_,kept⟩,?_⟩
        rw [sweeping.limits]
        exact List.subset_cons_self _ _
      · obtain rfl : s' = t := Control.next.inj (Option.some.inj (round.symm.trans again))
        refine ⟨⟨_,_,kept⟩,?_⟩
        rw [kept.limits,sweeping.limits,List.map_cons,List.map_cons,same]
        exact List.Subset.refl _
    · simp [matchLevel_done sweeping.limits active] at again

/-- Rounds left: one for each level, as long as the taker has something left. -/
def roundsLeft (taker : OrderRef) (s : Matching) : Nat :=
  if (s.heap.order taker).remainingQty = 0 then 0 else s.makerLimits.length

theorem Sweeping.ends (rounds : Nat) (sweeping : Sweeping fuel taker makers others s)
    (enough : s.makerLimits.length < rounds) :
    ∃ m, iterate (matchLevel fuel taker) rounds s = some m := by
  have bound : roundsLeft taker s < rounds := by
    unfold roundsLeft
    split <;> omega
  suffices ∃ m, iterate (matchLevel fuel taker) rounds s = some m ∧ True by simpa using this
  refine iterate_ends (fun s => ∃ makers others, Sweeping fuel taker makers others s) (fun _ => True)
    (roundsLeft taker) ?_ ⟨makers,others,sweeping⟩ bound
  rintro s ⟨makers,others,sweeping⟩
  cases makers with
  | nil => exact .inl ⟨s,by simp [matchLevel,sweeping.limits],trivial⟩
  | cons L levels =>
    by_cases active : Active taker L.ref s
    · have before : roundsLeft taker s = levels.length + 1 := by
        have left : (s.heap.order taker).remainingQty ≠ 0 := UInt64.pos_iff_ne_zero.mp active.1
        simp [roundsLeft,left,sweeping.limits]
      obtain ⟨s',_,⟨_,round,L',kept⟩ | ⟨_,round,spent,L',_,kept⟩⟩ := matchLevel_round sweeping active
      · refine .inr ⟨_,round,⟨_,_,kept⟩,?_⟩
        rw [before,roundsLeft]
        split
        · omega
        · simp
      · refine .inr ⟨s',round,⟨_,_,kept⟩,?_⟩
        rw [before,roundsLeft,if_pos spent]
        omega
    · exact .inl ⟨s,matchLevel_done sweeping.limits active,trivial⟩

theorem matchOrder_more (more : fuel ≤ fuel') (result : matchOrder fuel heap orders taker limits = some m) :
    matchOrder fuel' heap orders taker limits = some m := by
  refine iterate_refines (fun s c round => ?_) more result
  simp only [matchLevel] at round ⊢
  cases limits : s.makerLimits with
  | nil => simpa only [limits] using round
  | cons best rest =>
    simp only [limits] at round ⊢
    split
    · rename_i left
      rw [if_pos left] at round
      split
      · rename_i stops
        simpa only [stops,if_true] using round
      · rename_i passes
        rw [if_neg passes] at round
        obtain ⟨s',ends,rfl⟩ := Option.map_eq_some_iff.mp round
        rw [iterate_refines (fun _ _ same => same) more ends]
        rfl
    · rename_i spent
      simpa only [if_neg spent] using round

/-- The loops of one `matchOrder`: they end with the same result under every budget from `enough`
on, and a level the inner loop has emptied has no volume, is dropped and is not visited again. -/
structure Terminates (enough : Nat) (heap : Heap) (orders : OrderMap) (taker : OrderRef) (limits : List LimitRef) :
    Prop where
  returns : ∃ m, ∀ fuel, enough ≤ fuel → matchOrder fuel heap orders taker limits = some m
  inner : ∀ fuel, enough ≤ fuel → ∀ s, Visits (matchLevel fuel taker) ⟨heap,orders,limits,[]⟩ s →
    ∀ best rest, s.makerLimits = best :: rest → Active taker best s →
      ∃ s' t, iterate (fillHead best taker) fuel s = some s' ∧ matchLevel fuel taker s = some (.next t) ∧
        ((s'.heap.limit best).head = none → (s'.heap.limit best).totalVolume = 0 ∧ t.makerLimits = rest ∧
          ∀ u, Visits (matchLevel fuel taker) t u → best ∉ u.makerLimits)

theorem terminates (rep : Represents heap (makers ++ others)) (idle : taker ∉ refsOf (makers ++ others))
    (orders : OrderMap) :
    Terminates (matchFuel heap (makers.map Level.ref)) heap orders taker (makers.map Level.ref) := by
  have start (fuel : Nat) (enough : matchFuel heap (makers.map Level.ref) ≤ fuel) :
      Sweeping fuel taker makers others ⟨heap,orders,makers.map Level.ref,[]⟩ :=
    ⟨rep,idle,by simp only [matchFuel] at enough ⊢; omega,rfl⟩
  constructor
  · obtain ⟨m,ends⟩ := (start _ (Nat.le_refl _)).ends (matchFuel heap (makers.map Level.ref))
      (by simp only [matchFuel]; omega)
    exact ⟨m,fun fuel enough => matchOrder_more enough ends⟩
  · intro fuel enough s visits best rest limits active
    have keeps : ∀ s t, (∃ makers others, Sweeping fuel taker makers others s) →
        matchLevel fuel taker s = some (.next t) → ∃ makers others, Sweeping fuel taker makers others t := by
      rintro s t ⟨makers,others,sweeping⟩ again
      exact (sweeping.next again).1
    obtain ⟨makers',others',sweeping⟩ := visits.keeps _ keeps ⟨_,_,start fuel enough⟩
    cases makers' with
    | nil => simp [sweeping.limits] at limits
    | cons L levels =>
      have shape := sweeping.limits
      rw [limits,List.map_cons] at shape
      obtain ⟨rfl,rfl⟩ := List.cons.inj shape
      obtain ⟨s',ends,⟨drained,round,L',kept⟩ | ⟨full,round,_⟩⟩ := matchLevel_round sweeping active
      · refine ⟨s',_,ends,round,fun _ => ⟨drained,rfl,fun u later => ?_⟩⟩
        have fresh : L.ref ∉ levels.map Level.ref := by
          have distinct := sweeping.rep.limitRefs
          simp only [List.cons_append,List.map_cons,List.map_append,List.nodup_cons,List.mem_append,not_or] at distinct
          exact distinct.1.1
        have stays : ∀ u v, (∃ makers others, Sweeping fuel taker makers others u) ∧ L.ref ∉ u.makerLimits →
            matchLevel fuel taker u = some (.next v) →
            (∃ makers others, Sweeping fuel taker makers others v) ∧ L.ref ∉ v.makerLimits := by
          rintro u v ⟨⟨makers,others,before⟩,absent⟩ again
          exact ⟨(before.next again).1,fun member => absent ((before.next again).2 member)⟩
        exact (later.keeps _ stays ⟨⟨_,_,kept⟩,fresh⟩).2
      · exact ⟨s',s',ends,round,fun empty => absurd empty full⟩

/-- The incoming order of any call on any book that calls can build is matched in finitely many
rounds, against the levels of the other side. -/
theorem matchOrder_terminates (calls : List Call) :
    ∃ replies ob, runCalls calls = some (replies,ob) ∧ ∀ a : OrderArgs, 0 < a.quantity →
      Terminates (matchFuel (newOrder ob.heap a).2 (if a.side = buy then ob.asks else ob.bids)) (newOrder ob.heap a).2
        ob.orders (newOrder ob.heap a).1 (if a.side = buy then ob.asks else ob.bids) := by
  obtain ⟨replies,ob,B,result,sound⟩ := runCalls_sound calls
  refine ⟨replies,ob,result,fun a _ => ?_⟩
  have limits : (if a.side = buy then ob.asks else ob.bids) = (B.opposite a.side).map Level.ref := by
    simp only [Ladder.opposite,sound.models.bids,sound.models.asks]
    split <;> rfl
  have levels : B.levels.Perm (B.opposite a.side ++ (B.own a.side ++ B.detached)) := by
    by_cases side : a.side = buy
    · simpa [Ladder.levels,Ladder.own,Ladder.opposite,side] using List.perm_append_comm_assoc _ _ _
    · simp [Ladder.levels,Ladder.own,Ladder.opposite,side]
  have rep := (newOrder_represents sound.models.rep a).perm levels
  have fresh : ob.heap.orderCount ∉ refsOf (B.opposite a.side ++ (B.own a.side ++ B.detached)) := by
    intro member
    have old := (levels.flatMap_right Level.refs).mem_iff.mpr member
    exact Nat.lt_irrefl _ (sound.models.rep.orderBound _ old)
  rw [limits]
  exact terminates rep fresh ob.orders

end TradingPlatform.Orderbook

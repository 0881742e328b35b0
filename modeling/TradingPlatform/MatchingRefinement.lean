import TradingPlatform.QueueOperations

/-! The two loops of `matchOrder` compute a sweep. Budgets are discharged here: a
queue bounds the rounds of the inner loop and the number of levels those of the
outer one. -/
namespace TradingPlatform.Orderbook

open Loop

/-- What a stretch of matching did for the taker, in terms of its executions. -/
structure Progress (taker : OrderRef) (xs : List Execution) (s s' : Matching) : Prop where
  effect : Effect (xs.map (Execution.fill taker)) s.heap s'.heap
  limitCount : s'.heap.limitCount = s.heap.limitCount
  orders : s'.orders = release s.orders xs
  trades : s'.trades = s.trades ++ xs.map (Execution.trade (s.heap.order taker).id)

theorem Progress.refl (taker : OrderRef) (s : Matching) : Progress taker [] s s :=
  ⟨Effect.refl _,rfl,rfl,by simp⟩

theorem Effect.id_eq (effect : Effect fills h h') (r : OrderRef) :
    (h'.order r).id = (h.order r).id := congrArg OrderArgs.id (effect.args r)

theorem Progress.trans (first : Progress taker xs s s') (second : Progress taker ys s' s'') :
    Progress taker (xs ++ ys) s s'' where
  effect := by simpa using first.effect.trans second.effect
  limitCount := second.limitCount.trans first.limitCount
  orders := by rw [second.orders,first.orders,release_append]
  trades := by
    rw [second.trades,first.trades,first.effect.id_eq]
    simp

theorem minQty_covers (q m : UInt64) (covers : m ≤ q) : minQty q m = m := by
  have : ¬q < m := by grind
  simp [minQty,this]

theorem minQty_short (q m : UInt64) (short : ¬m ≤ q) : minQty q m = q := by
  have : q < m := by grind
  simp [minQty,this]

/-- The queue after its head has met the quantity `q`. -/
def afterHead (q : UInt64) (e : Resting) (es : List Resting) : List Resting :=
  if e.remaining ≤ q then es else { e with remaining := e.remaining - q } :: es

/-- One round of the inner loop on a non-empty queue. -/
theorem fillHead_next (s : Matching) (taker : OrderRef) (rep : Represents s.heap (L :: others))
    (idle : taker ∉ refsOf (L :: others)) (queue : L.queue = e :: es)
    (remaining : (s.heap.order taker).remainingQty = q) (positive : q ≠ 0) :
    ∃ s', fillHead L.ref taker s = some (.next s') ∧
      Progress taker [⟨e,L.price,minQty q e.remaining⟩] s s' ∧
      Represents s'.heap ({ L with queue := afterHead q e es } :: others) ∧
      s'.makerLimits = s.makerLimits ∧
      (s'.heap.order taker).remainingQty = q - minQty q e.remaining := by
  have level := rep.level L (by simp)
  have head : (s.heap.limit L.ref).head = some e.ref := by simp [level.head,Level.refs,queue]
  have maker := (level.entries e (by simp [queue])).remaining
  have active : 0 < q := by grind
  obtain ⟨filled,effect,limitCount⟩ :=
    fillQuantities_represents rep queue taker idle (minQty q e.remaining)
  have filledLevel := filled.level _ List.mem_cons_self
  have filledEntry := filledLevel.entries { e with remaining := e.remaining - minQty q e.remaining }
    (by simp)
  have makerID : ((fillQuantities s.heap L.ref taker e.ref (minQty q e.remaining)).order e.ref).id = e.id :=
    filledEntry.id
  have makerLeft : ((fillQuantities s.heap L.ref taker e.ref (minQty q e.remaining)).order e.ref).remainingQty
      = e.remaining - minQty q e.remaining := filledEntry.remaining
  have price : ((fillQuantities s.heap L.ref taker e.ref (minQty q e.remaining)).limit L.ref).price = L.price :=
    filledLevel.price
  have apart : e.ref ≠ taker := fun eq =>
    idle (by rw [refsOf_cons,← eq]; exact List.mem_append_left _ (by simp [Level.refs,queue]))
  have takerLeft : ((fillQuantities s.heap L.ref taker e.ref (minQty q e.remaining)).order taker).remainingQty
      = q - minQty q e.remaining := by
    rw [effect.remaining,remaining]
    simp [filledBy,Fill.share,apart]
  by_cases covers : e.remaining ≤ q
  · have closed : e.remaining - minQty q e.remaining = 0 := by
      rw [minQty_covers q _ covers]; grind
    have queued : ({ e with remaining := e.remaining - minQty q e.remaining } :: es) =
      [] ++ { e with remaining := e.remaining - minQty q e.remaining } :: es := rfl
    have removed := removeOrder_represents filled queued
    have unlinked := removeOrder_effect filled queued
    have round : fillHead L.ref taker s = some (.next ⟨
        removeOrder (fillQuantities s.heap L.ref taker e.ref (minQty q e.remaining)) L.ref e.ref,
        Function.update s.orders e.id none,s.makerLimits,
        s.trades ++ [⟨e.id,(s.heap.order taker).id,L.price,minQty q e.remaining⟩]⟩) := by
      simp only [fillHead,head,remaining,active,maker,makerID,makerLeft,price,effect.id_eq,closed,if_true]
    refine ⟨_,round,⟨?_,?_,?_,rfl⟩,?_,rfl,?_⟩
    · simpa [Execution.fill] using effect.trans unlinked
    · exact (removeOrder_counts _ _ _).2.1.trans limitCount
    · simp [release,minQty_covers q _ covers]
    · simpa [afterHead,covers] using removed
    · have left := unlinked.remaining taker
      simp only [filledBy_nil,takerLeft] at left
      rw [left]
      simp
  · have stays : e.remaining - minQty q e.remaining ≠ 0 := by
      rw [minQty_short q _ covers]; grind
    have round : fillHead L.ref taker s = some (.next ⟨
        fillQuantities s.heap L.ref taker e.ref (minQty q e.remaining),s.orders,s.makerLimits,
        s.trades ++ [⟨e.id,(s.heap.order taker).id,L.price,minQty q e.remaining⟩]⟩) := by
      simp only [fillHead,head,remaining,active,maker,makerID,makerLeft,price,effect.id_eq,stays,
        if_true,if_false]
    refine ⟨_,round,⟨?_,limitCount,?_,rfl⟩,?_,rfl,takerLeft⟩
    · simpa [Execution.fill] using effect
    · have short : q ≠ e.remaining := by grind
      simp [release,minQty_short q _ covers,short]
    · simpa [afterHead,covers,minQty_short q _ covers] using filled

/-- The inner loop eats the queue of the best level. -/
theorem iterate_fillHead (taker : OrderRef) (L : Level) (others : List Level) (s : Matching)
    (q : UInt64) (fuel : Nat) (rep : Represents s.heap (L :: others))
    (idle : taker ∉ refsOf (L :: others)) (remaining : (s.heap.order taker).remainingQty = q)
    (enough : L.queue.length < fuel) :
    ∃ s', iterate (fillHead L.ref taker) fuel s = some s' ∧
      Progress taker (fillQueue L.price q L.queue).fills s s' ∧
      Represents s'.heap ({ L with queue := (fillQueue L.price q L.queue).queue } :: others) ∧
      s'.makerLimits = s.makerLimits ∧
      (s'.heap.order taker).remainingQty = (fillQueue L.price q L.queue).left := by
  obtain ⟨ref,price,queue⟩ := L
  induction queue generalizing s q fuel with
  | nil =>
    obtain ⟨fuel,rfl⟩ := Nat.exists_eq_succ_of_ne_zero (Nat.ne_zero_of_lt enough)
    have head := (rep.level _ List.mem_cons_self).head
    have round : fillHead ref taker s = some (.done s) := by
      simp only [fillHead]
      rw [head]
      rfl
    exact ⟨s,iterate_done round,Progress.refl taker s,rep,rfl,remaining⟩
  | cons e es ih =>
    obtain ⟨fuel,rfl⟩ := Nat.exists_eq_succ_of_ne_zero (Nat.ne_zero_of_lt enough)
    by_cases zero : q = 0
    · have head := (rep.level _ List.mem_cons_self).head
      have round : fillHead ref taker s = some (.done s) := by
        simp only [fillHead]
        rw [head]
        simp [Level.refs,remaining,zero]
      simp only [fillQueue,zero,if_true]
      exact ⟨s,iterate_done round,Progress.refl taker s,rep,rfl,remaining.trans zero⟩
    · obtain ⟨s',round,progress,rep',limits,left⟩ := fillHead_next s taker rep idle rfl remaining zero
      rw [iterate_next round]
      by_cases covers : e.remaining ≤ q
      · rw [minQty_covers q _ covers] at progress left
        simp only [afterHead,covers,if_true] at rep'
        have idle' : taker ∉ refsOf (⟨ref,price,es⟩ :: others) := fun member =>
          idle (by simp only [refsOf_cons,Level.refs,List.map_cons,List.mem_append,List.mem_cons] at member ⊢
                   tauto)
        obtain ⟨s'',run,progress',rep'',limits',left'⟩ :=
          ih s' (q - e.remaining) fuel left rep' idle' (by simpa using enough)
        simp only [fillQueue,zero,covers,if_true,if_false]
        exact ⟨s'',run,progress.trans progress',rep'',limits'.trans limits,left'⟩
      · rw [minQty_short q _ covers] at progress left
        simp only [afterHead,covers,if_false] at rep'
        have spent : (s'.heap.order taker).remainingQty = 0 := by rw [left]; grind
        obtain ⟨fuel,rfl⟩ := Nat.exists_eq_succ_of_ne_zero
          (show fuel ≠ 0 by simp only [List.length_cons] at enough; omega)
        have head := (rep'.level _ List.mem_cons_self).head
        have last : fillHead ref taker s' = some (.done s') := by
          simp only [fillHead]
          rw [head]
          simp [Level.refs,spent]
        simp only [fillQueue,zero,covers,if_false]
        exact ⟨s',iterate_done last,progress,rep',limits,spent⟩

theorem stopsAt_congr (o o' : Order) (same : o'.args = o.args) : stopsAt o' = stopsAt o := by
  have type : o'.type = o.type := congrArg OrderArgs.type same
  have side : o'.side = o.side := congrArg OrderArgs.side same
  have price : o'.price = o.price := congrArg OrderArgs.price same
  funext best
  simp only [stopsAt,type,side,price]

/-- The outer loop sweeps the side. The levels it drops stay on the heap. -/
theorem iterate_matchLevel (taker : OrderRef) (makers others : List Level) (s : Matching)
    (q : UInt64) (fuel rounds : Nat) (rep : Represents s.heap (makers ++ others))
    (idle : taker ∉ refsOf (makers ++ others)) (remaining : (s.heap.order taker).remainingQty = q)
    (limits : s.makerLimits = makers.map Level.ref)
    (inner : ∀ L ∈ makers, L.queue.length < fuel) (outer : makers.length < rounds) :
    ∃ s', iterate (matchLevel fuel taker) rounds s = some s' ∧
      Progress taker (sweep (stopsAt (s.heap.order taker)) q makers).fills s s' ∧
      Represents s'.heap ((sweep (stopsAt (s.heap.order taker)) q makers).makers ++
        ((sweep (stopsAt (s.heap.order taker)) q makers).dropped ++ others)) ∧
      s'.makerLimits = (sweep (stopsAt (s.heap.order taker)) q makers).makers.map Level.ref ∧
      (s'.heap.order taker).remainingQty = (sweep (stopsAt (s.heap.order taker)) q makers).left := by
  induction makers generalizing s q rounds others with
  | nil =>
    obtain ⟨rounds,rfl⟩ := Nat.exists_eq_succ_of_ne_zero (Nat.ne_zero_of_lt outer)
    have round : matchLevel fuel taker s = some (.done s) := by simp [matchLevel,limits]
    exact ⟨s,iterate_done round,Progress.refl taker s,by simpa [sweep] using rep,by simp [sweep,limits],
      by simp [sweep,remaining]⟩
  | cons L levels ih =>
    obtain ⟨rounds,rfl⟩ := Nat.exists_eq_succ_of_ne_zero (Nat.ne_zero_of_lt outer)
    have price : (s.heap.limit L.ref).price = L.price := (rep.level L (by simp)).price
    by_cases halts : q = 0 ∨ stopsAt (s.heap.order taker) L.price = true
    · have round : matchLevel fuel taker s = some (.done s) := by
        rcases halts with zero | stops
        · simp [matchLevel,limits,remaining,zero]
        · simp [matchLevel,limits,price,stops]
      simp only [sweep,halts,if_true]
      exact ⟨s,iterate_done round,Progress.refl taker s,by simpa using rep,limits,remaining⟩
    · obtain ⟨positive,passes⟩ := not_or.mp halts
      have active : 0 < q := by grind
      obtain ⟨s₁,filled,progress,rep₁,limits₁,left₁⟩ :=
        iterate_fillHead taker L (levels ++ others) s q fuel rep idle remaining (inner L (by simp))
      have volume := (rep₁.level _ List.mem_cons_self).volume
      simp only [sweep,halts,if_false]
      by_cases drained :
          ({ L with queue := (fillQueue L.price q L.queue).queue } : Level).volume = 0
      · have round : matchLevel fuel taker s = some (.next { s₁ with makerLimits := levels.map Level.ref }) := by
          simp only [matchLevel,limits,List.map_cons,remaining,active,price,passes,filled,Option.map_some]
          simp only at volume
          rw [volume]
          simp [drained,limits₁,limits]
        have rest : Represents s₁.heap
            (levels ++ ({ L with queue := (fillQueue L.price q L.queue).queue } :: others)) :=
          rep₁.perm List.perm_middle.symm
        have idle' : taker ∉ refsOf (levels ++
            ({ L with queue := (fillQueue L.price q L.queue).queue } :: others)) := by
          intro member
          apply idle
          simp only [refsOf_append,refsOf_cons,List.mem_append] at member ⊢
          rcases member with member | member | member
          · exact .inl (.inr member)
          · exact .inl (.inl ((fillQueue_suffix L.price q L.queue).subset member))
          · exact .inr member
        obtain ⟨s',run,progress',rep',limits',left'⟩ :=
          ih _ { s₁ with makerLimits := levels.map Level.ref } _ rounds rest idle' left₁ rfl
            (fun M member => inner M (List.mem_cons_of_mem _ member)) (by simpa using outer)
        rw [stopsAt_congr _ _ (progress.effect.args taker)] at progress' rep' limits' left'
        simp only [drained,if_true]
        rw [iterate_next round]
        refine ⟨s',run,?_,?_,limits',left'⟩
        · exact progress.trans ⟨progress'.effect,progress'.limitCount,progress'.orders,progress'.trades⟩
        · refine rep'.perm (List.Perm.append_left _ ?_)
          simp
      · have round : matchLevel fuel taker s = some (.next s₁) := by
          simp only [matchLevel,limits,List.map_cons,remaining,active,price,passes,filled,Option.map_some]
          simp only at volume
          rw [volume]
          simp [drained]
        have spent : (s₁.heap.order taker).remainingQty = 0 :=
          left₁.trans (fillQueue_left_of_volume L q drained)
        obtain ⟨rounds,rfl⟩ := Nat.exists_eq_succ_of_ne_zero
          (show rounds ≠ 0 by simp only [List.length_cons] at outer; omega)
        have last : matchLevel fuel taker s₁ = some (.done s₁) := by
          simp [matchLevel,limits₁,limits,spent]
        simp only [drained,if_false]
        rw [iterate_next round]
        exact ⟨s₁,iterate_done last,progress,by simpa using rep₁,limits₁.trans limits,left₁⟩

end TradingPlatform.Orderbook

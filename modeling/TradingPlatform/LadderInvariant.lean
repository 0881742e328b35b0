import Mathlib.Data.List.Pairwise
import TradingPlatform.BookRefinement

/-! What every reachable ladder satisfies, whatever IDs, side codes, types, prices and
quantities were submitted. Nothing is assumed about totals: a level may wrap to zero
and be detached with orders in it. -/
namespace TradingPlatform.Orderbook

section Sweeping

variable (stops : UInt64 → Bool)

/-- A property of resting orders that survives a partial fill holds of what is left
of a queue. -/
theorem fillQueue_forall (P : Resting → Prop) (price q : UInt64) (es : List Resting)
    (partly : ∀ e left, P e → left ≠ 0 → P { e with remaining := left })
    (all : ∀ e ∈ es, P e) : ∀ e ∈ (fillQueue price q es).queue, P e := by
  fun_induction fillQueue price q es with
  | case1 => exact all
  | case2 => exact all
  | case3 q e es some' covers later ih => exact ih fun d member => all d (List.mem_cons_of_mem _ member)
  | case4 q e es some' within =>
    intro d member
    rcases List.mem_cons.mp member with rfl | later
    · exact partly e _ (all e (by simp)) (by grind)
    · exact all d (List.mem_cons_of_mem _ later)

/-- The same for all levels a sweep leaves behind, on the side or detached. -/
theorem sweep_forall (P : UInt64 → Resting → Prop)
    (partly : ∀ price e left, P price e → left ≠ 0 → P price { e with remaining := left })
    (q : UInt64) (levels : List Level) (all : ∀ L ∈ levels, ∀ e ∈ L.queue, P L.price e) :
    ∀ M ∈ (sweep stops q levels).makers ++ (sweep stops q levels).dropped,
      ∀ e ∈ M.queue, P M.price e := by
  induction levels generalizing q with
  | nil => simp [sweep]
  | cons L levels ih =>
    have first := fillQueue_forall (P L.price) L.price q L.queue (partly L.price) (all L (by simp))
    have later := fun q => ih q (fun M member => all M (List.mem_cons_of_mem _ member))
    simp only [sweep]
    split
    · simpa using all
    · split
      · intro M member
        simp only [List.mem_append,List.mem_cons] at member
        rcases member with inMakers | rfl | inDropped
        · exact later _ M (List.mem_append_left _ inMakers)
        · exact first
        · exact later _ M (List.mem_append_right _ inDropped)
      · intro M member
        simp only [List.append_nil,List.mem_cons] at member
        rcases member with rfl | inRest
        · exact first
        · exact all M (List.mem_cons_of_mem _ inRest)

/-- A sweep removes levels from the front of the side only. -/
theorem sweep_prices (q : UInt64) (levels : List Level) :
    (sweep stops q levels).makers.map Level.price <:+ levels.map Level.price := by
  induction levels generalizing q with
  | nil => simp [sweep]
  | cons L levels ih =>
    simp only [sweep]
    split
    · simp
    · split
      · exact (ih _).trans (List.suffix_cons _ _)
      · simp

theorem sweep_nonempty (q : UInt64) (levels : List Level) (all : ∀ L ∈ levels, L.queue ≠ []) :
    ∀ M ∈ (sweep stops q levels).makers, M.queue ≠ [] := by
  induction levels generalizing q with
  | nil => simp [sweep]
  | cons L levels ih =>
    simp only [sweep]
    split
    · exact all
    · split
      · exact ih _ (fun M member => all M (List.mem_cons_of_mem _ member))
      · intro M member
        rename_i holds
        rcases List.mem_cons.mp member with rfl | later
        · intro empty
          have none : (fillQueue L.price q L.queue).queue = [] := empty
          exact holds (by simp [Level.volume,none])
        · exact all M (List.mem_cons_of_mem _ later)

/-- A quantity that outlives the sweep was stopped by the best level left. -/
theorem sweep_stopped (q : UInt64) (levels : List Level) (left : (sweep stops q levels).left ≠ 0) :
    ∀ M, (sweep stops q levels).makers.head? = some M → stops M.price = true := by
  induction levels generalizing q with
  | nil => simp [sweep]
  | cons L levels ih =>
    simp only [sweep] at left ⊢
    by_cases halts : q = 0 ∨ stops L.price = true
    · simp only [halts,if_true] at left ⊢
      rcases halts with zero | stopped
      · exact absurd zero left
      · intro M head
        rwa [← Option.some.inj head]
    · simp only [halts,if_false] at left ⊢
      by_cases drained : ({ L with queue := (fillQueue L.price q L.queue).queue } : Level).volume = 0
      · simp only [drained,if_true] at left ⊢
        exact ih _ left
      · simp only [drained,if_false] at left
        exact absurd (fillQueue_left_of_volume L q drained) left

/-- A member of a queue stays, under the same reference and ID, or is filled completely. -/
theorem fillQueue_stays_or_closes (price q : UInt64) (es : List Resting) (e : Resting) (member : e ∈ es) :
    (∃ d ∈ (fillQueue price q es).queue, d.ref = e.ref ∧ d.id = e.id) ∨
    ∃ x ∈ (fillQueue price q es).fills, x.maker = e ∧ x.quantity = e.remaining := by
  fun_induction fillQueue price q es with
  | case1 => simp at member
  | case2 => exact .inl ⟨e,member,rfl,rfl⟩
  | case3 q f es some' covers rest ih =>
    rcases List.mem_cons.mp member with rfl | later
    · exact .inr ⟨_,List.mem_cons_self,rfl,rfl⟩
    · rcases ih later with stays | ⟨x,closed,maker⟩
      · exact .inl stays
      · exact .inr ⟨x,List.mem_cons_of_mem _ closed,maker⟩
  | case4 q f es some' within =>
    rcases List.mem_cons.mp member with rfl | later
    · exact .inl ⟨_,List.mem_cons_self,rfl,rfl⟩
    · exact .inl ⟨e,List.mem_cons_of_mem _ later,rfl,rfl⟩

theorem sweep_stays_or_closes (q : UInt64) (levels : List Level) (L : Level) (e : Resting)
    (level : L ∈ levels) (member : e ∈ L.queue) :
    (∃ M ∈ (sweep stops q levels).makers ++ (sweep stops q levels).dropped,
      ∃ d ∈ M.queue, d.ref = e.ref ∧ d.id = e.id) ∨
    ∃ x ∈ (sweep stops q levels).fills, x.maker = e ∧ x.quantity = e.remaining := by
  induction levels generalizing q with
  | nil => simp at level
  | cons N levels ih =>
    simp only [sweep]
    split
    · exact .inl ⟨L,by simpa using level,e,member,rfl,rfl⟩
    · split
      · rcases List.mem_cons.mp level with rfl | later
        · rcases fillQueue_stays_or_closes L.price q L.queue e member with stays | ⟨x,closed,maker⟩
          · exact .inl ⟨{ L with queue := (fillQueue L.price q L.queue).queue },by simp,stays⟩
          · exact .inr ⟨x,List.mem_append_left _ closed,maker⟩
        · rcases ih _ later with ⟨M,inside,stays⟩ | ⟨x,closed,maker⟩
          · refine .inl ⟨M,?_,stays⟩
            simp only [List.mem_append,List.mem_cons] at inside ⊢
            tauto
          · exact .inr ⟨x,List.mem_append_right _ closed,maker⟩
      · rcases List.mem_cons.mp level with rfl | later
        · rcases fillQueue_stays_or_closes L.price q L.queue e member with stays | ⟨x,closed,maker⟩
          · exact .inl ⟨{ L with queue := (fillQueue L.price q L.queue).queue },by simp,stays⟩
          · exact .inr ⟨x,closed,maker⟩
        · exact .inl ⟨L,by simp [later],e,member,rfl,rfl⟩

end Sweeping

/-- The ID map after a sweep: entries of completely filled makers are gone. -/
theorem release_apply (orders : OrderMap) (xs : List Execution) (id : GoString) :
    release orders xs id =
      if ∃ x ∈ xs, x.quantity = x.maker.remaining ∧ x.maker.id = id then none else orders id := by
  induction xs generalizing orders with
  | nil => simp [release]
  | cons x xs ih =>
    have step : release orders (x :: xs) = release (if x.quantity = x.maker.remaining then
      Function.update orders x.maker.id none else orders) xs := rfl
    rw [step,ih]
    by_cases later : ∃ y ∈ xs, y.quantity = y.maker.remaining ∧ y.maker.id = id
    · obtain ⟨y,member,closes⟩ := later
      have all : ∃ y ∈ x :: xs, y.quantity = y.maker.remaining ∧ y.maker.id = id :=
        ⟨y,List.mem_cons_of_mem _ member,closes⟩
      rw [if_pos ⟨y,member,closes⟩,if_pos all]
    · rw [if_neg later]
      by_cases closes : x.quantity = x.maker.remaining ∧ x.maker.id = id
      · have all : ∃ y ∈ x :: xs, y.quantity = y.maker.remaining ∧ y.maker.id = id :=
          ⟨x,List.mem_cons_self,closes⟩
        rw [if_pos all,if_pos closes.1,closes.2,Function.update_self]
      · have absent : ¬∃ y ∈ x :: xs, y.quantity = y.maker.remaining ∧ y.maker.id = id := by
          rintro ⟨y,member,closed⟩
          rcases List.mem_cons.mp member with rfl | inside
          · exact closes closed
          · exact later ⟨y,inside,closed⟩
        rw [if_neg absent]
        by_cases full : x.quantity = x.maker.remaining
        · have other : id ≠ x.maker.id := fun same => closes ⟨full,same.symm⟩
          rw [if_pos full,Function.update_of_ne other]
        · rw [if_neg full]

theorem release_some {id : GoString} (found : release orders xs id = some r) :
    orders id = some r ∧ ∀ x ∈ xs, x.quantity = x.maker.remaining → x.maker.id ≠ id := by
  rw [release_apply] at found
  split at found
  · simp at found
  · rename_i absent
    exact ⟨found,fun x member closes same => absent ⟨x,member,closes,same⟩⟩

/-- Resting orders carry their level's price and an unfilled quantity, sides hold their own
orders only, no attached level is empty, and the best bid is below the best ask. -/
structure Ladder.Valid (B : Ladder) : Prop where
  sorted : B.Sorted
  live : B.Live
  nonempty : ∀ L ∈ B.bids ++ B.asks, L.queue ≠ []
  entries : ∀ L ∈ B.levels, ∀ e ∈ L.queue, e.price = L.price ∧ e.remaining ≠ 0
  buys : ∀ L ∈ B.bids, ∀ e ∈ L.queue, e.side = buy
  sells : ∀ L ∈ B.asks, ∀ e ∈ L.queue, e.side ≠ buy
  uncrossed : ∀ L ∈ B.bids, ∀ M ∈ B.asks, L.price < M.price

theorem empty_valid : Ladder.empty.Valid := by
  constructor <;> simp [Ladder.empty,Ladder.Sorted,SortedBy,Ladder.Live,Ladder.levels]

section Settling

variable {d : Bool} {fresh : LimitRef} {e : Resting} {levels : List Level}

/-- A level after an order came to rest is an old one or the one that now ends in it. -/
theorem settle_mem (sorted : SortedBy d levels) (member : M ∈ settle d fresh e levels) :
    M ∈ levels ∨ (M.price = e.price ∧ e ∈ M.queue ∧
      ∀ x ∈ M.queue, x = e ∨ ∃ L ∈ levels, L.price = M.price ∧ x ∈ L.queue) := by
  rcases settle_cases d fresh e levels sorted with ⟨front,L,back,rfl,price,_,_,result⟩ | ⟨front,back,rfl,_,_,result⟩
  · rw [result] at member
    simp only [List.mem_append,List.mem_cons] at member ⊢
    rcases member with early | rfl | late
    · exact .inl (.inl early)
    · refine .inr ⟨price,by simp,fun x inside => ?_⟩
      rcases List.mem_append.mp inside with old | new
      · exact .inr ⟨L,.inr (.inl rfl),rfl,old⟩
      · exact .inl (List.mem_singleton.mp new)
    · exact .inl (.inr (.inr late))
  · rw [result] at member
    simp only [List.mem_append,List.mem_cons] at member ⊢
    rcases member with early | rfl | late
    · exact .inl (.inl early)
    · exact .inr ⟨rfl,by simp,fun x inside => .inl (List.mem_singleton.mp inside)⟩
    · exact .inl (.inr late)

theorem settle_forall (P : UInt64 → Resting → Prop) (sorted : SortedBy d levels)
    (all : ∀ L ∈ levels, ∀ x ∈ L.queue, P L.price x) (new : P e.price e) :
    ∀ M ∈ settle d fresh e levels, ∀ x ∈ M.queue, P M.price x := by
  intro M member x inside
  rcases settle_mem sorted member with old | ⟨price,_,origin⟩
  · exact all M old x inside
  · rcases origin x inside with rfl | ⟨L,level,same,queued⟩
    · rwa [price]
    · rw [← same]
      exact all L level x queued

theorem settle_entry (fresh : LimitRef) (e : Resting) (sorted : SortedBy d levels) :
    ∃ M ∈ settle d fresh e levels, e ∈ M.queue := by
  rcases settle_cases d fresh e levels sorted with ⟨front,L,back,_,_,_,_,result⟩ | ⟨front,back,_,_,_,result⟩
  · exact ⟨{ L with queue := L.queue ++ [e] },by simp [result],by simp⟩
  · exact ⟨⟨fresh,e.price,[e]⟩,by simp [result],by simp⟩

theorem settle_keeps (sorted : SortedBy d levels) (level : L ∈ levels) (member : x ∈ L.queue) :
    ∃ M ∈ settle d fresh e levels, x ∈ M.queue := by
  rcases settle_cases d fresh e levels sorted with ⟨front,N,back,rfl,_,_,_,result⟩ | ⟨front,back,rfl,_,_,result⟩
  · rw [result]
    simp only [List.mem_append,List.mem_cons] at level
    rcases level with early | rfl | late
    · exact ⟨L,by simp [early],member⟩
    · exact ⟨{ L with queue := L.queue ++ [e] },by simp,by simp [member]⟩
    · exact ⟨L,by simp [late],member⟩
  · rw [result]
    rcases List.mem_append.mp level with early | late
    · exact ⟨L,by simp [early],member⟩
    · exact ⟨L,by simp [late],member⟩

theorem settle_sorted (sorted : SortedBy d levels) : SortedBy d (settle d fresh e levels) := by
  rcases settle_cases d fresh e levels sorted with ⟨front,L,back,rfl,price,before,after,result⟩ |
    ⟨front,back,rfl,before,after,result⟩
  · rw [result]
    simpa [SortedBy,List.pairwise_append] using sorted
  · rw [result]
    simp only [SortedBy,List.pairwise_append,List.pairwise_cons] at sorted ⊢
    refine ⟨sorted.1,⟨after,sorted.2.1⟩,fun M early N late => ?_⟩
    rcases List.mem_cons.mp late with rfl | inBack
    · exact before M early
    · exact sorted.2.2 M early N inBack

end Settling

theorem sweep_sorted (sorted : SortedBy d levels) : SortedBy d (sweep stops q levels).makers := by
  have prices : (levels.map Level.price).Pairwise fun p q => precedes d p q = true :=
    List.pairwise_map.mpr sorted
  exact List.pairwise_map.mp (prices.sublist (sweep_prices stops q levels).sublist)

theorem sweep_price_mem (member : M ∈ (sweep stops q levels).makers) :
    ∃ L ∈ levels, L.price = M.price :=
  List.mem_map.mp ((sweep_prices stops q levels).subset (List.mem_map_of_mem member))

theorem Ladder.Valid.own_sorted (valid : Ladder.Valid B) (side : Side) :
    SortedBy (decide (side = buy)) (B.own side) := by
  by_cases buying : side = buy
  · simpa [Ladder.own,buying] using valid.sorted.1
  · simpa [Ladder.own,buying] using valid.sorted.2

theorem Ladder.Valid.opposite_sorted (valid : Ladder.Valid B) (side : Side) :
    SortedBy (!decide (side = buy)) (B.opposite side) := by
  by_cases buying : side = buy
  · simpa [Ladder.opposite,buying] using valid.sorted.2
  · simpa [Ladder.opposite,buying] using valid.sorted.1

/-- An order that comes to rest does not reach any level left on the other side. A side code
other than the two named ones never stops, so it rests against an empty side only. -/
theorem Ladder.Valid.makers_beyond (valid : Ladder.Valid B) (rests : B.rests a = true) :
    ∀ M ∈ (B.sweepFor a).makers, precedes (!decide (a.side = buy)) a.price M.price = true := by
  have left : (B.sweepFor a).left ≠ 0 := by
    simp only [Ladder.rests,Bool.and_eq_true,decide_eq_true_eq] at rests
    exact rests.1
  have sorted : SortedBy (!decide (a.side = buy)) (B.sweepFor a).makers :=
    sweep_sorted (valid.opposite_sorted a.side)
  have stopped := sweep_stopped (stopsAt a.order) a.quantity (B.opposite a.side) left
  change ∀ M, (B.sweepFor a).makers.head? = some M → _ at stopped
  cases makers : (B.sweepFor a).makers with
  | nil => simp
  | cons best rest =>
    rw [makers] at sorted stopped
    have first : precedes (!decide (a.side = buy)) a.price best.price = true := by
      have halts := stopped best rfl
      by_cases buying : a.side = buy
      · have beyond : a.type = limitOrder ∧ a.price < best.price := by
          simpa [stopsAt,OrderArgs.order,buying,buy,sell] using halts
        simpa [precedes,buying] using beyond.2
      · simp only [stopsAt,Bool.and_eq_true,Bool.or_eq_true,decide_eq_true_eq] at halts
        rcases halts.2 with ⟨bought,_⟩ | ⟨_,beyond⟩
        · exact absurd bought buying
        · have below : best.price < a.price := beyond
          simpa [precedes,buying] using below
    intro M member
    rcases List.mem_cons.mp member with rfl | later
    · exact first
    · exact precedes_trans first ((List.pairwise_cons.mp sorted).1 M later)

section Placing

variable {B : Ladder} {a : OrderArgs}

theorem Ladder.Valid.ownAfter_sorted (valid : B.Valid) :
    SortedBy (decide (a.side = buy)) (B.ownAfter a) := by
  simp only [Ladder.ownAfter]
  split
  · exact settle_sorted (valid.own_sorted a.side)
  · exact valid.own_sorted a.side

theorem Ladder.Valid.ownAfter_forall (valid : B.Valid) (P : UInt64 → Resting → Prop)
    (all : ∀ L ∈ B.own a.side, ∀ e ∈ L.queue, P L.price e)
    (new : B.rests a = true → P a.price (B.entry a)) :
    ∀ M ∈ B.ownAfter a, ∀ e ∈ M.queue, P M.price e := by
  simp only [Ladder.ownAfter]
  split
  · rename_i rests
    exact settle_forall P (valid.own_sorted a.side) all (new rests)
  · exact all

theorem Ladder.Valid.ownAfter_keeps (valid : B.Valid) (level : L ∈ B.own a.side) (member : e ∈ L.queue) :
    ∃ M ∈ B.ownAfter a, e ∈ M.queue := by
  simp only [Ladder.ownAfter]
  split
  · exact settle_keeps (valid.own_sorted a.side) level member
  · exact ⟨L,level,member⟩

theorem Ladder.Valid.ownAfter_nonempty (valid : B.Valid) (all : ∀ L ∈ B.own a.side, L.queue ≠ []) :
    ∀ M ∈ B.ownAfter a, M.queue ≠ [] := by
  simp only [Ladder.ownAfter]
  split
  · intro M member
    rcases settle_mem (valid.own_sorted a.side) member with old | ⟨_,queued,_⟩
    · exact all M old
    · exact List.ne_nil_of_mem queued
  · exact all

theorem Ladder.Valid.ownAfter_price (valid : B.Valid) (member : M ∈ B.ownAfter a) :
    (∃ L ∈ B.own a.side, L.price = M.price) ∨ (B.rests a = true ∧ M.price = a.price) := by
  simp only [Ladder.ownAfter] at member
  split at member
  · rename_i rests
    rcases settle_mem (valid.own_sorted a.side) member with old | ⟨price,_,_⟩
    · exact .inl ⟨M,old,rfl⟩
    · exact .inr ⟨rests,price⟩
  · exact .inl ⟨M,member,rfl⟩

/-- After a placement no level of the taker's own side reaches the other side. -/
theorem Ladder.Valid.ownAfter_apart (valid : B.Valid) (own : L ∈ B.ownAfter a)
    (opposite : M ∈ (B.sweepFor a).makers) :
    precedes (!decide (a.side = buy)) L.price M.price = true := by
  rcases valid.ownAfter_price own with ⟨N,old,same⟩ | ⟨rests,price⟩
  · obtain ⟨K,level,price⟩ := sweep_price_mem opposite
    rw [← same,← price]
    by_cases buying : a.side = buy
    · simp only [Ladder.own,Ladder.opposite,buying,if_true] at old level
      simpa [precedes,buying] using valid.uncrossed N old K level
    · simp only [Ladder.own,Ladder.opposite,buying,if_false] at old level
      simpa [precedes,buying] using valid.uncrossed K level N old
  · rw [price]
    exact valid.makers_beyond rests M opposite

theorem Ladder.mem_levels : L ∈ B.levels ↔ L ∈ B.own a.side ∨ L ∈ B.opposite a.side ∨ L ∈ B.detached := by
  by_cases buying : a.side = buy
  · simp [Ladder.levels,Ladder.own,Ladder.opposite,buying]
  · simp only [Ladder.levels,Ladder.own,Ladder.opposite,buying,if_false,List.mem_append]
    tauto

theorem Ladder.mem_place_levels : L ∈ (B.place a).2.levels ↔
    L ∈ B.ownAfter a ∨ L ∈ (B.sweepFor a).makers ++ (B.sweepFor a).dropped ∨ L ∈ B.detached := by
  by_cases buying : a.side = buy
  · simp [Ladder.levels,Ladder.place,buying,or_assoc]
  · simp only [Ladder.levels,Ladder.place,buying,if_false,List.mem_append]
    tauto

theorem Ladder.Valid.place_live (valid : B.Valid) : (B.place a).2.Live := by
  have keeps : ∀ id r, release B.orders (B.sweepFor a).fills id = some r →
      ∃ L ∈ (B.place a).2.levels, ∃ e ∈ L.queue, e.ref = r ∧ e.id = id := by
    intro id r found
    obtain ⟨registered,open'⟩ := release_some found
    obtain ⟨L,level,e,member,rfl,rfl⟩ := valid.live id r registered
    simp only [Ladder.mem_place_levels]
    rcases (Ladder.mem_levels (a := a)).mp level with own | opposite | detached
    · obtain ⟨M,after,stays⟩ := valid.ownAfter_keeps own member
      exact ⟨M,.inl after,e,stays,rfl,rfl⟩
    · rcases sweep_stays_or_closes (stopsAt a.order) a.quantity _ L e opposite member with
        ⟨M,after,stays⟩ | ⟨x,fill,rfl,closes⟩
      · exact ⟨M,.inr (.inl after),stays⟩
      · exact absurd rfl (open' x fill closes)
    · exact ⟨L,.inr (.inr detached),e,member,rfl,rfl⟩
  intro id r found
  change B.ordersAfter a id = some r at found
  simp only [Ladder.ordersAfter] at found
  split at found
  · rename_i rests
    by_cases same : id = a.id
    · subst same
      rw [Function.update_self] at found
      obtain ⟨M,after,queued⟩ := settle_entry B.limitCount (B.entry a) (valid.own_sorted a.side)
      refine ⟨M,Ladder.mem_place_levels.mpr (.inl ?_),B.entry a,queued,Option.some.inj found,rfl⟩
      rwa [Ladder.ownAfter,if_pos rests]
    · rw [Function.update_of_ne same] at found
      exact keeps id r found
  · exact keeps id r found

theorem Ladder.Valid.place (valid : B.Valid) (a : OrderArgs) : (B.place a).2.Valid := by
  have entries := valid.entries
  have swept := sweep_forall (stopsAt a.order) (fun price e => e.price = price ∧ e.remaining ≠ 0)
    (fun _ _ _ holds left => ⟨holds.1,left⟩) a.quantity (B.opposite a.side)
    (fun L level => entries L ((Ladder.mem_levels (a := a)).mpr (.inr (.inl level))))
  have settled := valid.ownAfter_forall (a := a) (fun price e => e.price = price ∧ e.remaining ≠ 0)
    (fun L level => entries L ((Ladder.mem_levels (a := a)).mpr (.inl level)))
    (fun rests => ⟨rfl,by simpa [Ladder.rests,Ladder.entry] using (Bool.and_eq_true_iff.mp rests).1⟩)
  have ownSorted := valid.ownAfter_sorted (a := a)
  have makersSorted : SortedBy (!decide (a.side = buy)) (B.sweepFor a).makers :=
    sweep_sorted (valid.opposite_sorted a.side)
  refine ⟨?_,valid.place_live,?_,?_,?_,?_,?_⟩
  · by_cases buying : a.side = buy
    · simpa [Ladder.Sorted,Ladder.place,buying] using And.intro ownSorted makersSorted
    · simpa [Ladder.Sorted,Ladder.place,buying] using And.intro makersSorted ownSorted
  · have own := valid.ownAfter_nonempty (a := a) (fun L level => valid.nonempty L (by
      simp only [Ladder.own] at level
      split at level <;> simp [level]))
    have makers := sweep_nonempty (stopsAt a.order) a.quantity (B.opposite a.side)
      (fun L level => valid.nonempty L (by
        simp only [Ladder.opposite] at level
        split at level <;> simp [level]))
    intro L level
    have sides : L ∈ B.ownAfter a ∨ L ∈ (B.sweepFor a).makers := by
      by_cases buying : a.side = buy
      · simpa [Ladder.place,buying] using level
      · simpa [Ladder.place,buying,or_comm] using level
    exact sides.elim (own L) (makers L)
  · intro L level
    rcases Ladder.mem_place_levels.mp level with own | opposite | detached
    · exact settled L own
    · exact swept L opposite
    · exact entries L ((Ladder.mem_levels (a := a)).mpr (.inr (.inr detached)))
  · by_cases buying : a.side = buy
    · have own := valid.ownAfter_forall (a := a) (fun _ e => e.side = buy)
        (by simpa [Ladder.own,buying] using valid.buys) (fun _ => buying)
      simpa [Ladder.place,buying] using own
    · have makers := sweep_forall (stopsAt a.order) (fun _ e => e.side = buy)
        (fun _ _ _ holds _ => holds) a.quantity (B.opposite a.side)
        (by simpa [Ladder.opposite,buying] using valid.buys)
      intro L level
      simp only [Ladder.place,buying,if_false] at level
      exact makers L (List.mem_append_left _ level)
  · by_cases buying : a.side = buy
    · have makers := sweep_forall (stopsAt a.order) (fun _ e => e.side ≠ buy)
        (fun _ _ _ holds _ => holds) a.quantity (B.opposite a.side)
        (by simpa [Ladder.opposite,buying] using valid.sells)
      intro L level
      simp only [Ladder.place,buying,if_true] at level
      exact makers L (List.mem_append_left _ level)
    · have own := valid.ownAfter_forall (a := a) (fun _ e => e.side ≠ buy)
        (by simpa [Ladder.own,buying] using valid.sells) (fun _ => buying)
      simpa [Ladder.place,buying] using own
  · intro L bid M ask
    by_cases buying : a.side = buy
    · simp only [Ladder.place,buying,if_true] at bid ask
      simpa [precedes,buying] using valid.ownAfter_apart bid ask
    · simp only [Ladder.place,buying,if_false] at bid ask
      simpa [precedes,buying] using valid.ownAfter_apart ask bid

end Placing

section Cancelling

variable {B : Ladder}

theorem entry_unique (distinct : (refsOf levels).Nodup) (first : L ∈ levels) (entry : e ∈ L.queue)
    (second : M ∈ levels) (other : d ∈ M.queue) (same : d.ref = e.ref) : M = L ∧ d = e := by
  obtain ⟨within,apart⟩ := List.nodup_flatMap.mp distinct
  have level : M = L := by
    by_contra differ
    have symmetric : Std.Symm (Function.onFun List.Disjoint Level.refs) := ⟨fun _ _ holds => holds.symm⟩
    exact apart.forall second first differ (List.mem_map_of_mem other)
      (same ▸ List.mem_map_of_mem entry)
  subst level
  exact ⟨rfl,List.inj_on_of_nodup_map (within M second) other entry same⟩

theorem strip_queue_sublist (r : OrderRef) (L : Level) : (L.strip r).queue.Sublist L.queue :=
  List.filter_sublist

theorem dropLevel_bids (B : Ladder) (side : Side) (price : UInt64) :
    (B.dropLevel side price).bids.Sublist B.bids := by
  simp only [Ladder.dropLevel]
  split
  · exact List.filter_sublist
  · exact List.Sublist.refl _

theorem dropLevel_asks (B : Ladder) (side : Side) (price : UInt64) :
    (B.dropLevel side price).asks.Sublist B.asks := by
  simp only [Ladder.dropLevel]
  split
  · exact List.Sublist.refl _
  · exact List.filter_sublist

theorem dropLevel_orders (B : Ladder) (side : Side) (price : UInt64) :
    (B.dropLevel side price).orders = B.orders := by
  simp only [Ladder.dropLevel]
  split <;> rfl

/-- A ladder whose sides shrink to stripped levels stays valid, as long as the levels that
became empty are among those that left. -/
theorem Ladder.Valid.shrink {B' : Ladder} (valid : B.Valid)
    (bids : B'.bids.Sublist (B.bids.map (Level.strip r)))
    (asks : B'.asks.Sublist (B.asks.map (Level.strip r)))
    (levels : ∀ M ∈ B'.levels, ∃ L ∈ B.levels, M = L.strip r)
    (live : B'.Live) (nonempty : ∀ L ∈ B'.bids ++ B'.asks, L.queue ≠ []) : B'.Valid := by
  have stripped := sorted_strip B valid.sorted r []
  have bid : ∀ M ∈ B'.bids, ∃ L ∈ B.bids, M = L.strip r := fun M member => by
    obtain ⟨L,level,rfl⟩ := List.mem_map.mp (bids.subset member)
    exact ⟨L,level,rfl⟩
  have ask : ∀ M ∈ B'.asks, ∃ L ∈ B.asks, M = L.strip r := fun M member => by
    obtain ⟨L,level,rfl⟩ := List.mem_map.mp (asks.subset member)
    exact ⟨L,level,rfl⟩
  refine ⟨⟨stripped.1.sublist bids,stripped.2.sublist asks⟩,live,nonempty,?_,?_,?_,?_⟩
  · intro M member e queued
    obtain ⟨L,level,rfl⟩ := levels M member
    exact valid.entries L level e ((strip_queue_sublist r L).subset queued)
  · intro M member e queued
    obtain ⟨L,level,rfl⟩ := bid M member
    exact valid.buys L level e ((strip_queue_sublist r L).subset queued)
  · intro M member e queued
    obtain ⟨L,level,rfl⟩ := ask M member
    exact valid.sells L level e ((strip_queue_sublist r L).subset queued)
  · intro M member N other
    obtain ⟨L,level,rfl⟩ := bid M member
    obtain ⟨K,opposite,rfl⟩ := ask N other
    exact valid.uncrossed L level K opposite

theorem Ladder.Valid.strip_live (valid : B.Valid) (distinct : (refsOf B.levels).Nodup)
    (level : L ∈ B.levels) (entry : e ∈ L.queue) : (B.strip e.ref e.id).Live := by
  intro id r found
  change Function.update B.orders e.id none id = some r at found
  by_cases same : id = e.id
  · rw [same,Function.update_self] at found
    exact absurd found (by simp)
  · rw [Function.update_of_ne same] at found
    obtain ⟨M,member,d,queued,rfl,rfl⟩ := valid.live id r found
    have apart : d.ref ≠ e.ref := fun equal =>
      same (congrArg Resting.id (entry_unique distinct level entry member queued equal).2)
    refine ⟨M.strip e.ref,?_,d,List.mem_filter.mpr ⟨queued,by simpa using apart⟩,rfl,rfl⟩
    rw [strip_levels]
    exact List.mem_map_of_mem member

/-- Stripping an order empties its own level only. -/
theorem strip_empties (distinct : (refsOf B.levels).Nodup) (level : L ∈ B.levels) (entry : e ∈ L.queue)
    (member : M ∈ B.levels) (held : M.queue ≠ []) (empty : (M.strip e.ref).queue = []) : M = L := by
  by_contra differ
  have absent : e.ref ∉ M.refs := by
    intro inside
    obtain ⟨d,queued,same⟩ := List.mem_map.mp inside
    exact differ (entry_unique distinct level entry member queued same).1
  rw [strip_of_not_mem M absent] at empty
  exact held empty

theorem Ladder.Valid.cancel (valid : B.Valid) (distinct : (refsOf B.levels).Nodup) (id : GoString) :
    (B.cancel id).2.Valid := by
  cases found : (B.orders id).bind fun r => locate r B.levels with
  | none => simpa [Ladder.cancel,found] using valid
  | some target =>
    obtain ⟨L,e⟩ := target
    obtain ⟨r,_,located⟩ := Option.bind_eq_some_iff.mp found
    obtain ⟨level,entry,_⟩ := locate_mem located
    have live := valid.strip_live distinct level entry
    have attached : ∀ M ∈ B.bids ++ B.asks, M ∈ B.levels := by
      intro M member
      simp only [Ladder.levels,List.mem_append] at member ⊢
      tauto
    have volume : ∀ M ∈ B.bids ++ B.asks, (M.strip e.ref).queue = [] → M = L ∧ (L.strip e.ref).volume = 0 := by
      intro M member empty
      have same := strip_empties distinct level entry (attached M member) (valid.nonempty M member) empty
      subst same
      exact ⟨rfl,by rw [Level.volume,empty]; rfl⟩
    by_cases drained : (L.strip e.ref).volume = 0
    · simp only [Ladder.cancel,found,drained,if_true]
      have moved := drop_levels (B.strip e.ref e.id) e.side L.price
      have liveAfter : ((B.strip e.ref e.id).dropLevel e.side L.price).Live := by
        intro name r known
        rw [dropLevel_orders] at known
        obtain ⟨M,member,rest⟩ := live name r known
        exact ⟨M,moved.mem_iff.mp member,rest⟩
      refine valid.shrink (dropLevel_bids _ _ _) (dropLevel_asks _ _ _) ?_ liveAfter ?_
      · intro M member
        have before := moved.mem_iff.mpr member
        rw [strip_levels] at before
        obtain ⟨N,inside,rfl⟩ := List.mem_map.mp before
        exact ⟨N,inside,rfl⟩
      · intro M member empty
        rcases List.mem_append.mp member with bid | ask
        · obtain ⟨N,inside,rfl⟩ := List.mem_map.mp ((dropLevel_bids _ _ _).subset bid)
          obtain ⟨rfl,_⟩ := volume N (by simp [inside]) empty
          have buying := valid.buys N inside e entry
          simp [Ladder.dropLevel,buying] at bid
        · obtain ⟨N,inside,rfl⟩ := List.mem_map.mp ((dropLevel_asks _ _ _).subset ask)
          obtain ⟨rfl,_⟩ := volume N (by simp [inside]) empty
          have selling := valid.sells N inside e entry
          simp [Ladder.dropLevel,selling] at ask
    · simp only [Ladder.cancel,found,drained,if_false]
      refine valid.shrink (List.Sublist.refl _) (List.Sublist.refl _) ?_ live ?_
      · intro M member
        rw [strip_levels] at member
        obtain ⟨N,inside,rfl⟩ := List.mem_map.mp member
        exact ⟨N,inside,rfl⟩
      · intro M member empty
        have sides : M ∈ (B.bids ++ B.asks).map (Level.strip e.ref) := by
          simpa [Ladder.strip] using member
        obtain ⟨N,inside,rfl⟩ := List.mem_map.mp sides
        exact drained (volume N inside empty).2

end Cancelling

end TradingPlatform.Orderbook

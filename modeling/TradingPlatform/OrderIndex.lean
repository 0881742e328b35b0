import TradingPlatform.Calls

/-! The ID map against the queues. The map is written when an order comes to rest, when a
maker is filled completely and when an order is cancelled; the queues change by reference. -/
namespace TradingPlatform.Orderbook

/-- The makers that a sweep fills completely. -/
def closedRefs (xs : List Execution) : List OrderRef :=
  (xs.filter fun x => x.quantity = x.maker.remaining).map fun x => x.maker.ref

theorem closedRefs_append (xs ys : List Execution) : closedRefs (xs ++ ys) = closedRefs xs ++ closedRefs ys := by
  simp [closedRefs]

theorem mem_closedRefs (member : x ∈ xs) (closes : x.quantity = x.maker.remaining) :
    x.maker.ref ∈ closedRefs xs :=
  List.mem_map.mpr ⟨x,List.mem_filter.mpr ⟨member,by simpa using closes⟩,rfl⟩

/-- A queue is what was closed followed by what is left. -/
theorem fillQueue_closed (price q : UInt64) (es : List Resting) :
    closedRefs (fillQueue price q es).fills ++ (fillQueue price q es).queue.map Resting.ref =
      es.map Resting.ref := by
  fun_induction fillQueue price q es with
  | case1 => rfl
  | case2 => rfl
  | case3 q e es some' covers rest ih => simpa [closedRefs] using ih
  | case4 q e es some' within =>
    have open' : q ≠ e.remaining := by grind
    simp [closedRefs,open']

theorem sweep_closed (stops : UInt64 → Bool) (q : UInt64) (levels : List Level) :
    (closedRefs (sweep stops q levels).fills ++
      refsOf ((sweep stops q levels).makers ++ (sweep stops q levels).dropped)).Perm (refsOf levels) := by
  induction levels generalizing q with
  | nil => simp [sweep,closedRefs]
  | cons L levels ih =>
    have first := fillQueue_closed L.price q L.queue
    simp only [sweep]
    split
    · simp [closedRefs]
    · split
      · have rest := ih (fillQueue L.price q L.queue).left
        rw [refsOf_append] at rest
        rw [closedRefs_append,refsOf_append,refsOf_cons,refsOf_cons]
        simp only [Level.refs] at first ⊢
        rw [← first]
        simp only [List.append_assoc]
        refine List.Perm.append_left _ ?_
        refine List.Perm.trans ?_ (rest.append_left _)
        rw [← List.append_assoc (closedRefs _) (refsOf _),← List.append_assoc (closedRefs _) (refsOf _)]
        exact List.perm_append_comm_assoc _ _ _
      · simp only [List.append_nil,refsOf_cons,Level.refs]
        rw [← List.append_assoc,first]

theorem fillQueue_makers (price q : UInt64) (es : List Resting) (member : x ∈ (fillQueue price q es).fills) :
    x.maker ∈ es ∧ x.price = price := by
  fun_induction fillQueue price q es with
  | case1 => simp at member
  | case2 => simp at member
  | case3 q e es some' covers rest ih =>
    rcases List.mem_cons.mp member with rfl | later
    · simp
    · obtain ⟨inside,price⟩ := ih later
      exact ⟨List.mem_cons_of_mem _ inside,price⟩
  | case4 q e es some' within =>
    rw [List.mem_singleton.mp member]
    simp

/-- Makers are taken from levels that do not stop the taker, at the level's price. -/
theorem sweep_makers (stops : UInt64 → Bool) (q : UInt64) (levels : List Level)
    (member : x ∈ (sweep stops q levels).fills) :
    ∃ L ∈ levels, x.maker ∈ L.queue ∧ x.price = L.price ∧ stops L.price = false := by
  induction levels generalizing q with
  | nil => simp [sweep] at member
  | cons L levels ih =>
    simp only [sweep] at member
    split at member
    · simp at member
    · rename_i goes
      have passes : stops L.price = false := by
        simp only [not_or,Bool.not_eq_true] at goes
        exact goes.2
      split at member
      · rcases List.mem_append.mp member with here | later
        · obtain ⟨inside,price⟩ := fillQueue_makers L.price q L.queue here
          exact ⟨L,List.mem_cons_self,inside,price,passes⟩
        · obtain ⟨M,level,rest⟩ := ih _ later
          exact ⟨M,List.mem_cons_of_mem _ level,rest⟩
      · obtain ⟨inside,price⟩ := fillQueue_makers L.price q L.queue member
        exact ⟨L,List.mem_cons_self,inside,price,passes⟩

/-- Every order in an attached queue is the entry of the map under its own ID. -/
def Ladder.Indexed (B : Ladder) : Prop :=
  ∀ L ∈ B.bids ++ B.asks, ∀ e ∈ L.queue, B.orders e.id = some e.ref

section Placing

variable {B : Ladder} {a : OrderArgs}

theorem Ladder.mem_attached : L ∈ B.bids ++ B.asks ↔ L ∈ B.own a.side ∨ L ∈ B.opposite a.side := by
  by_cases buying : a.side = buy
  · simp [Ladder.own,Ladder.opposite,buying]
  · simp [Ladder.own,Ladder.opposite,buying,or_comm]

theorem Ladder.mem_place_attached :
    L ∈ (B.place a).2.bids ++ (B.place a).2.asks ↔ L ∈ B.ownAfter a ∨ L ∈ (B.sweepFor a).makers := by
  by_cases buying : a.side = buy
  · simp [Ladder.place,buying]
  · simp [Ladder.place,buying,or_comm]

theorem Ladder.attached_levels (member : L ∈ B.bids ++ B.asks) : L ∈ B.levels := by
  simp only [Ladder.levels,List.mem_append] at member ⊢
  tauto

/-- The order that comes to rest clashes with nothing that rests beside it afterwards. -/
def Ladder.Clear (B : Ladder) (a : OrderArgs) : Prop :=
  B.rests a = true → ∀ L ∈ B.own a.side ++ (B.sweepFor a).makers, ∀ e ∈ L.queue, e.id ≠ a.id

/-- What is left of the other side stays under its own IDs. -/
theorem Ladder.Indexed.makers (indexed : B.Indexed) (distinct : (refsOf B.levels).Nodup)
    (level : M ∈ (B.sweepFor a).makers) (member : e ∈ M.queue) :
    release B.orders (B.sweepFor a).fills e.id = some e.ref := by
  have origin := sweep_forall (stopsAt a.order)
    (fun _ e => ∃ L ∈ B.opposite a.side, ∃ d ∈ L.queue, d.ref = e.ref ∧ d.id = e.id)
    (fun _ _ _ holds _ => holds) a.quantity (B.opposite a.side)
    (fun L inside d queued => ⟨L,inside,d,queued,rfl,rfl⟩) M (List.mem_append_left _ level) e member
  obtain ⟨L,before,d,queued,ref,name⟩ := origin
  have attached := Ladder.mem_attached.mpr (.inr before)
  have known := indexed L attached d queued
  rw [release_apply,if_neg,← name,known,ref]
  rintro ⟨x,fill,closes,same⟩
  obtain ⟨N,other,maker,_⟩ := sweep_makers _ _ _ fill
  have makerKnown := indexed N (Ladder.mem_attached.mpr (.inr other)) x.maker maker
  rw [same,← name,known] at makerKnown
  have closed : e.ref ∈ closedRefs (B.sweepFor a).fills := by
    rw [← ref,Option.some.inj makerKnown]
    exact mem_closedRefs fill closes
  have left : e.ref ∈ refsOf ((B.sweepFor a).makers ++ (B.sweepFor a).dropped) :=
    mem_refsOf.mpr ⟨M,List.mem_append_left _ level,e,member,rfl⟩
  have whole : (refsOf (B.opposite a.side)).Nodup := by
    refine distinct.sublist ?_
    by_cases buying : a.side = buy
    · simp only [Ladder.opposite,buying,if_true,Ladder.levels,refsOf_append]
      exact (List.sublist_append_left _ _).trans (List.sublist_append_right _ _)
    · simp only [Ladder.opposite,buying,if_false,Ladder.levels,refsOf_append]
      exact List.sublist_append_left _ _
  have apart := (sweep_closed (stopsAt a.order) a.quantity (B.opposite a.side)).nodup_iff.mpr whole
  exact (List.nodup_append.mp apart).2.2 e.ref closed e.ref left rfl

theorem Ladder.Indexed.own (indexed : B.Indexed) (valid : B.Valid) (distinct : (refsOf B.levels).Nodup)
    (level : L ∈ B.own a.side) (member : e ∈ L.queue) :
    release B.orders (B.sweepFor a).fills e.id = some e.ref := by
  have attached := Ladder.mem_attached.mpr (.inl level)
  have known := indexed L attached e member
  rw [release_apply,if_neg,known]
  rintro ⟨x,fill,_,same⟩
  obtain ⟨N,other,maker,_⟩ := sweep_makers _ _ _ fill
  have facing := Ladder.mem_attached.mpr (.inr other)
  have makerKnown := indexed N facing x.maker maker
  rw [same,known] at makerKnown
  obtain ⟨rfl,_⟩ := entry_unique distinct (Ladder.attached_levels facing) maker
    (Ladder.attached_levels attached) member (Option.some.inj makerKnown)
  by_cases buying : a.side = buy
  · simp only [Ladder.own,Ladder.opposite,buying,if_true] at level other
    exact valid.sells L other e member (valid.buys L level e member)
  · simp only [Ladder.own,Ladder.opposite,buying,if_false] at level other
    exact valid.sells L level e member (valid.buys L other e member)

theorem Ladder.Indexed.place (indexed : B.Indexed) (valid : B.Valid) (distinct : (refsOf B.levels).Nodup)
    (clear : B.Clear a) : (B.place a).2.Indexed := by
  have released : ∀ L ∈ B.own a.side ++ (B.sweepFor a).makers, ∀ e ∈ L.queue,
      release B.orders (B.sweepFor a).fills e.id = some e.ref := by
    intro L member e queued
    rcases List.mem_append.mp member with own | makers
    · exact indexed.own valid distinct own queued
    · exact indexed.makers distinct makers queued
  have kept : ∀ L ∈ B.own a.side ++ (B.sweepFor a).makers, ∀ e ∈ L.queue,
      B.ordersAfter a e.id = some e.ref := by
    intro L member e queued
    simp only [Ladder.ordersAfter]
    split
    · rename_i rests
      rw [Function.update_of_ne (clear rests L member e queued)]
      exact released L member e queued
    · exact released L member e queued
  intro L member
  rcases Ladder.mem_place_attached.mp member with own | makers
  · refine valid.ownAfter_forall (fun _ e => B.ordersAfter a e.id = some e.ref)
      (fun M inside => kept M (List.mem_append_left _ inside)) (fun rests => ?_) L own
    simp [Ladder.ordersAfter,rests,Ladder.entry]
  · exact kept L (List.mem_append_right _ makers)

end Placing

section Cancelling

variable {B : Ladder}

/-- What `Cancel` finds when the map and the queues agree. -/
theorem Ladder.Valid.cancel_target (valid : B.Valid) (distinct : (refsOf B.levels).Nodup)
    (known : B.orders id' = some r) : ∃ L e, locate r B.levels = some (L,e) ∧ L ∈ B.levels ∧
      e ∈ L.queue ∧ e.ref = r ∧ e.id = id' := by
  obtain ⟨M,level,d,queued,rfl,rfl⟩ := valid.live _ r known
  obtain ⟨L,e,found⟩ := locate_exists (mem_refsOf.mpr ⟨M,level,d,queued,rfl⟩)
  obtain ⟨inside,entry,same⟩ := locate_mem found
  obtain ⟨rfl,rfl⟩ := entry_unique distinct level queued inside entry same
  exact ⟨L,e,found,inside,entry,rfl,rfl⟩

theorem Ladder.Indexed.cancel (indexed : B.Indexed) (valid : B.Valid) (distinct : (refsOf B.levels).Nodup)
    (id' : GoString) : (B.cancel id').2.Indexed := by
  cases known : B.orders id' with
  | none => simpa [Ladder.cancel,known] using indexed
  | some r =>
    obtain ⟨L,e,found,level,entry,rfl,rfl⟩ := valid.cancel_target distinct known
    have stripped : (B.strip e.ref e.id).Indexed := by
      intro M member d queued
      have sides : M ∈ (B.bids ++ B.asks).map (Level.strip e.ref) := by simpa [Ladder.strip] using member
      obtain ⟨N,inside,rfl⟩ := List.mem_map.mp sides
      obtain ⟨was,apart⟩ := List.mem_filter.mp queued
      have before := indexed N inside d was
      change Function.update B.orders e.id none d.id = some d.ref
      rw [Function.update_of_ne,before]
      intro same
      rw [same,known] at before
      exact absurd (Option.some.inj before).symm (by simpa using apart)
    simp only [Ladder.cancel,known,Option.bind_some,found]
    split
    · intro M member d queued
      rw [dropLevel_orders]
      refine stripped M ?_ d queued
      rcases List.mem_append.mp member with bid | ask
      · exact List.mem_append_left _ ((dropLevel_bids _ _ _).subset bid)
      · exact List.mem_append_right _ ((dropLevel_asks _ _ _).subset ask)
    · exact stripped

/-- A cancel queues nothing. -/
theorem Ladder.cancel_origin (member : L ∈ (B.cancel id').2.bids ++ (B.cancel id').2.asks) (entry : e ∈ L.queue) :
    ∃ M ∈ B.bids ++ B.asks, e ∈ M.queue := by
  cases found : (B.orders id').bind fun r => locate r B.levels with
  | none =>
    simp only [Ladder.cancel,found] at member
    exact ⟨L,member,entry⟩
  | some target =>
    obtain ⟨N,d⟩ := target
    have sides : L ∈ (B.bids ++ B.asks).map (Level.strip d.ref) := by
      simp only [Ladder.cancel,found] at member
      rw [List.map_append]
      split at member
      · rcases List.mem_append.mp member with bid | ask
        · exact List.mem_append_left _ ((dropLevel_bids _ _ _).subset bid)
        · exact List.mem_append_right _ ((dropLevel_asks _ _ _).subset ask)
      · exact member
    obtain ⟨M,inside,rfl⟩ := List.mem_map.mp sides
    exact ⟨M,inside,(strip_queue_sublist d.ref M).subset entry⟩

/-- The same for all levels, the detached ones included. -/
theorem Ladder.cancel_levels (member : L ∈ (B.cancel id').2.levels) (entry : e ∈ L.queue) :
    ∃ M ∈ B.levels, e ∈ M.queue := by
  cases found : (B.orders id').bind fun r => locate r B.levels with
  | none =>
    simp only [Ladder.cancel,found] at member
    exact ⟨L,member,entry⟩
  | some target =>
    obtain ⟨N,d⟩ := target
    have stripped : L ∈ B.levels.map (Level.strip d.ref) := by
      simp only [Ladder.cancel,found] at member
      rw [← strip_levels B d.ref d.id]
      split at member
      · exact (drop_levels _ _ _).mem_iff.mpr member
      · exact member
    obtain ⟨M,inside,rfl⟩ := List.mem_map.mp stripped
    exact ⟨M,inside,(strip_queue_sublist d.ref M).subset entry⟩

end Cancelling

end TradingPlatform.Orderbook

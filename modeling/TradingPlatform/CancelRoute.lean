import TradingPlatform.BookView
import TradingPlatform.EngineRuns
import TradingPlatform.Text

/-! From a DELETE request to the order it takes out of the book. The handler recovers the ID by
cutting the decoded path at its slashes, the book looks the ID up and unlinks what it finds, and
a level whose recorded volume comes to zero leaves with whatever it still holds. -/
namespace TradingPlatform.Orderbook

/-- Every order of the book, side by side and level by level. -/
def resting (ob : OrderBook) : List OrderRef := (ob.bids ++ ob.asks).flatMap (queueRefs ob.heap)

/-- One order has left the book and been unlinked; the others rest as before. -/
structure CancelledAlone (ob : OrderBook) (r : OrderRef) (ob' : OrderBook) : Prop where
  removed : resting ob' = (resting ob).filter (· ≠ r)
  unlinked : (ob'.heap.order r).limit = none
  args : ∀ q, (ob'.heap.order q).args = (ob.heap.order q).args
  filled : ∀ q, (ob'.heap.order q).filledQty = (ob.heap.order q).filledQty

/-- Taking the order off its level does not bring the recorded volume to zero while others wait there. -/
def LeavesLevel (ob : OrderBook) (r : OrderRef) : Prop :=
  ∀ l, (ob.heap.order r).limit = some l → (ob.heap.limit l).totalVolume = (ob.heap.order r).remainingQty →
    queueRefs ob.heap l = [r]

theorem Sound.resting (sound : Sound ob B) : Orderbook.resting ob = refsOf (B.bids ++ B.asks) := by
  rw [Orderbook.resting,sound.attached,refsOf,List.flatMap_map]
  refine List.flatMap_congr fun L member => ?_
  exact sound.queueRefs (Ladder.attached_levels member)

theorem Represents.unlinked_iff (rep : Represents h levels) (r : OrderRef) :
    (h.order r).limit = none ↔ r ∉ refsOf levels := by
  constructor
  · intro unlinked member
    obtain ⟨L,level,e,entry,rfl⟩ := mem_refsOf.mp member
    have linked := ((rep.level L level).entries e entry).limit
    simp [unlinked] at linked
  · exact fun outside => (rep.idle r outside).2.2

theorem refsOf_strip (r : OrderRef) (levels : List Level) :
    refsOf (levels.map (Level.strip r)) = (refsOf levels).filter (· ≠ r) := by
  induction levels with
  | nil => rfl
  | cons L levels ih =>
    rw [List.map_cons,refsOf_cons,refsOf_cons,List.filter_append,ih]
    simp [Level.refs,Level.strip,List.filter_map,Function.comp_def]

theorem refsOf_filter (p : Level → Bool) (levels : List Level)
    (empty : ∀ L ∈ levels, p L = false → L.queue = []) : refsOf (levels.filter p) = refsOf levels := by
  induction levels with
  | nil => rfl
  | cons L levels ih =>
    have rest := ih fun M member => empty M (List.mem_cons_of_mem _ member)
    rw [refsOf_cons,← rest,List.filter_cons]
    cases kept : p L with
    | true => simp
    | false => simp [Level.refs,empty L List.mem_cons_self kept]

theorem strip_volume_zero_iff (L : Level) (entry : e ∈ L.queue) (distinct : L.refs.Nodup) :
    (L.strip e.ref).volume = 0 ↔ L.volume = e.remaining := by
  obtain ⟨front,back,split⟩ := List.append_of_mem entry
  rw [strip_split L split distinct]
  simp only [Level.volume,split,List.map_append,List.map_cons,List.sum_append,List.sum_cons]
  grind

section Target

variable {B : Ladder}

theorem SortedBy.price_inj (sorted : SortedBy d levels) (first : L ∈ levels) (second : M ∈ levels)
    (same : M.price = L.price) : M = L := by
  by_contra differ
  have symmetric : Std.Symm fun L M : Level => L.price ≠ M.price := ⟨fun _ _ apart => apart.symm⟩
  have apart : levels.Pairwise fun L M => L.price ≠ M.price := sorted.imp fun before => precedes_ne before
  exact apart.forall second first differ same

/-- An order is alone when taking it away leaves nothing. -/
theorem strip_empty_iff (L : Level) (entry : e ∈ L.queue) (distinct : L.refs.Nodup) :
    (L.strip e.ref).queue = [] ↔ L.queue = [e] := by
  constructor
  · intro empty
    obtain ⟨front,back,split⟩ := List.append_of_mem entry
    rw [strip_split L split distinct] at empty
    obtain ⟨rfl,rfl⟩ := List.append_eq_nil_iff.mp empty
    exact split
  · intro alone
    simp [Level.strip,alone]

/-- A level that leaves by price takes nothing along when it is empty. -/
theorem Ladder.Valid.dropLevel_refs (valid : B.Valid) (attached : L ∈ B.bids ++ B.asks) (entry : e ∈ L.queue)
    (alone : L.queue = [e]) :
    refsOf (((B.strip e.ref e.id).dropLevel e.side L.price).bids ++
      ((B.strip e.ref e.id).dropLevel e.side L.price).asks) =
    refsOf ((B.strip e.ref e.id).bids ++ (B.strip e.ref e.id).asks) := by
  have empty : (L.strip e.ref).queue = [] := by simp [Level.strip,alone]
  have gone {descending : Bool} {side : List Level} (sorted : SortedBy descending side) (own : L ∈ side) :
      ∀ M ∈ side.map (Level.strip e.ref), decide (M.price ≠ L.price) = false → M.queue = [] := by
    intro M member same
    obtain ⟨N,inside,rfl⟩ := List.mem_map.mp member
    obtain rfl := sorted.price_inj own inside (not_not.mp (of_decide_eq_false same))
    exact empty
  rcases List.mem_append.mp attached with bid | ask
  · have buying := valid.buys L bid e entry
    simp only [Ladder.dropLevel,buying,if_true,refsOf_append]
    rw [Ladder.strip,refsOf_filter _ _ (gone valid.sorted.1 bid)]
  · have selling := valid.sells L ask e entry
    simp only [Ladder.dropLevel,selling,if_false,refsOf_append]
    rw [Ladder.strip,refsOf_filter _ _ (gone valid.sorted.2 ask)]

/-- Nothing else of the level stays attached. -/
theorem Ladder.Valid.dropLevel_away (valid : B.Valid) (distinct : (refsOf B.levels).Nodup)
    (attached : L ∈ B.bids ++ B.asks) (entry : e ∈ L.queue) (queued : d ∈ L.queue) :
    d.ref ∉ refsOf (((B.strip e.ref e.id).dropLevel e.side L.price).bids ++
      ((B.strip e.ref e.id).dropLevel e.side L.price).asks) := by
  intro member
  obtain ⟨N,left,x,inside,same⟩ := mem_refsOf.mp member
  have origin {K : Level} (side : K ∈ B.bids ++ B.asks) (inside : x ∈ (K.strip e.ref).queue) : K = L :=
    (entry_unique distinct (Ladder.attached_levels attached) queued (Ladder.attached_levels side)
      ((strip_queue_sublist _ K).subset inside) same).1
  rcases List.mem_append.mp left with bid | ask
  · obtain ⟨K,before,rfl⟩ := List.mem_map.mp ((dropLevel_bids _ _ _).subset bid)
    obtain rfl := origin (List.mem_append_left _ before) inside
    simp [Ladder.dropLevel,valid.buys K before e entry] at bid
  · obtain ⟨K,before,rfl⟩ := List.mem_map.mp ((dropLevel_asks _ _ _).subset ask)
    obtain rfl := origin (List.mem_append_right _ before) inside
    simp [Ladder.dropLevel,valid.sells K before e entry] at ask

/-- What a cancel leaves of the attached orders, when the map leads it to one of them. -/
theorem Ladder.Valid.cancel_refs_iff (valid : B.Valid) (distinct : (refsOf B.levels).Nodup)
    (attached : L ∈ B.bids ++ B.asks) (entry : e ∈ L.queue) (known : B.orders e.id = some e.ref) :
    refsOf ((B.cancel e.id).2.bids ++ (B.cancel e.id).2.asks) = (refsOf (B.bids ++ B.asks)).filter (· ≠ e.ref) ↔
      ((L.strip e.ref).volume = 0 → L.queue = [e]) := by
  obtain ⟨M,d,found,level,queued,same,_⟩ := valid.cancel_target distinct known
  obtain ⟨rfl,rfl⟩ := entry_unique distinct (Ladder.attached_levels attached) entry level queued same
  have stripped : refsOf ((B.strip d.ref d.id).bids ++ (B.strip d.ref d.id).asks) =
      (refsOf (B.bids ++ B.asks)).filter (· ≠ d.ref) := by
    rw [← refsOf_strip,List.map_append]
    rfl
  by_cases drained : (M.strip d.ref).volume = 0
  · simp only [Ladder.cancel,known,Option.bind_some,found,drained,if_true,true_imp_iff]
    constructor
    · intro removed
      refine (strip_empty_iff M entry ((List.nodup_flatMap.mp distinct).1 M level)).mp ?_
      refine List.eq_nil_iff_forall_not_mem.mpr fun x inside => ?_
      obtain ⟨before,apart⟩ := List.mem_filter.mp inside
      have stays : x.ref ∈ (refsOf (B.bids ++ B.asks)).filter (· ≠ d.ref) :=
        List.mem_filter.mpr ⟨mem_refsOf.mpr ⟨M,attached,x,before,rfl⟩,apart⟩
      rw [← removed] at stays
      exact valid.dropLevel_away distinct attached entry before stays
    · intro alone
      rw [valid.dropLevel_refs attached entry alone,stripped]
  · simp only [Ladder.cancel,known,Option.bind_some,found,drained,if_false,false_imp_iff,iff_true]
    exact stripped

/-- A cancel unlinks the one order its ID leads to. -/
theorem Ladder.Valid.cancel_keeps (valid : B.Valid) (distinct : (refsOf B.levels).Nodup) (id' : GoString)
    (member : r ∈ refsOf B.levels) : r ∉ refsOf (B.cancel id').2.levels ↔ B.orders id' = some r := by
  cases known : B.orders id' with
  | none => simpa [Ladder.cancel,known] using member
  | some q =>
    obtain ⟨L,e,found,_,_,rfl,rfl⟩ := valid.cancel_target distinct known
    have levels : (refsOf (B.cancel e.id).2.levels).Perm ((refsOf B.levels).filter (· ≠ e.ref)) := by
      rw [← refsOf_strip,← strip_levels B e.ref e.id]
      simp only [Ladder.cancel,known,Option.bind_some,found]
      split
      · exact ((drop_levels _ _ _).flatMap_right _).symm
      · exact List.Perm.refl _
    rw [levels.mem_iff,List.mem_filter]
    simp only [member,true_and,decide_eq_true_eq,not_not,Option.some.injEq]
    exact eq_comm

end Target

/-- A cancel takes one resting order out of the book and leaves the others there, exactly when
the map leads from the ID to that order and its level is left standing for the others. -/
theorem Sound.cancel_alone_iff (sound : Sound ob B) (rests : r ∈ Orderbook.resting ob) (id' : GoString) :
    ((cancel ob id').1 = true ∧ CancelledAlone ob r (cancel ob id').2) ↔
      ob.orders id' = some r ∧ LeavesLevel ob r := by
  obtain ⟨ob',result,models,effect⟩ := cancel_models sound.models sound.valid.sorted sound.valid.live id'
  have distinct := sound.models.rep.orderRefs
  have after : Sound ob' (B.cancel id').2 := ⟨models,sound.valid.cancel distinct id'⟩
  rw [sound.resting] at rests
  obtain ⟨L,attached,e,entry,rfl⟩ := mem_refsOf.mp rests
  have level := Ladder.attached_levels attached
  have rep := sound.models.rep.level L level
  have cell := rep.entries e entry
  have within := (List.nodup_flatMap.mp distinct).1 L level
  have leaves : LeavesLevel ob e.ref ↔ ((L.strip e.ref).volume = 0 → L.queue = [e]) := by
    rw [strip_volume_zero_iff L entry within,LeavesLevel,cell.limit,cell.remaining]
    simp only [Option.some.injEq,forall_eq',rep.volume,sound.queueRefs level]
    refine imp_congr_right fun _ => ?_
    constructor
    · intro alone
      obtain ⟨x,single,_⟩ := List.map_eq_singleton_iff.mp alone
      rw [single,List.mem_singleton] at entry
      rw [single,entry]
    · intro alone
      simp [Level.refs,alone]
  have target := sound.valid.cancel_keeps distinct id' (mem_refsOf.mpr ⟨L,level,e,entry,rfl⟩)
  rw [← models.rep.unlinked_iff] at target
  -- The map may hold an entry for the order under its own ID only.
  have remains (known : B.orders id' = some e.ref) :
      Orderbook.resting ob' = (Orderbook.resting ob).filter (· ≠ e.ref) ↔ LeavesLevel ob e.ref := by
    obtain ⟨M,d,_,inside,queued,same,name⟩ := sound.valid.cancel_target distinct known
    obtain ⟨rfl,rfl⟩ := entry_unique distinct level entry inside queued same
    rw [leaves,after.resting,sound.resting,← name]
    exact sound.valid.cancel_refs_iff distinct attached entry (name ▸ known)
  rw [result,sound.models.orders]
  constructor
  · rintro ⟨_,alone⟩
    have known := target.mp alone.unlinked
    exact ⟨known,(remains known).mp alone.removed⟩
  · rintro ⟨known,stands⟩
    refine ⟨?_,(remains known).mpr stands,target.mpr known,effect.args,fun q => ?_⟩
    · obtain ⟨M,d,found,_⟩ := sound.valid.cancel_target distinct known
      simp only [Ladder.cancel,known,Option.bind_some,found]
      split <;> rfl
    · simpa using effect.filled q

end TradingPlatform.Orderbook

namespace TradingPlatform.Api

open Orderbook Runs Text

/-- `handleCancelOrder` up to its wait: the call it puts on the channel, or a status and a text. -/
def handleCancelOrder (path : GoString) : Except (Nat × String) Call :=
  let parts := path.splitOn slash
  match parts[4]? with
  | none => .error (400,"missing order ID")
  | some orderID => .ok (.cancel orderID)

/-- The end of `handleCancelOrder`: the status and the body it writes. -/
def answerCancel (resp : Response) : Nat × Response := (if resp.success then 200 else 404,resp)

/-- The path a handler sees when the request names an order: escapes are undone before it runs. -/
def orderPath (id : GoString) : GoString := ascii "/api/v1/orders/" ++ id

theorem splitOn_orderPath (id : GoString) : (orderPath id).splitOn slash =
    [[],ascii "api",ascii "v1",ascii "orders"] ++ id.splitOn slash := by
  have cut : orderPath id = ascii "/api/v1/orders" ++ slash :: id := by
    simp [orderPath,ascii,slash]
  rw [cut,List.splitOn_append_cons_self]
  rfl

/-- The handler asks for what stands before the first slash of the ID. -/
theorem handleCancelOrder_orderPath (id : GoString) :
    ∃ asked, handleCancelOrder (orderPath id) = .ok (.cancel asked) ∧ (asked = id ↔ slash ∉ id) := by
  by_cases inside : slash ∈ id
  · obtain ⟨before,after,rfl,outside⟩ := List.eq_append_cons_of_mem inside
    refine ⟨before,?_,?_⟩
    · rw [handleCancelOrder,splitOn_orderPath,List.splitOn_append_cons_self_of_not_mem outside]
      rfl
    · simp
  · refine ⟨id,?_,by simpa using inside⟩
    rw [handleCancelOrder,splitOn_orderPath,List.splitOn_eq_singleton inside]
    rfl

/-- The ID has no slash, the map leads from it to the order, and no other order of the level
goes with it. -/
structure Addressable (ob : OrderBook) (r : OrderRef) : Prop where
  whole : slash ∉ (ob.heap.order r).id
  known : ob.orders (ob.heap.order r).id = some r
  leaves : LeavesLevel ob r

/-- In every state the engine can be in when a DELETE request for a resting order has its turn:
the order leaves the book and no other does, exactly when it is addressable. -/
theorem handleCancelOrder_exact_iff (actions : List Action) (os : List Observation) (s : Server)
    (reached : run step actions newServer = some (os,s)) (r : OrderRef) (rests : r ∈ resting s.ob)
    (req : OrderRequest) (sent : handleCancelOrder (orderPath (s.ob.heap.order r).id) = .ok req.call)
    (took : s.loop = .took req) :
    (∃ resp s', step s .handle = some (.responded req resp,s') ∧ (answerCancel resp).1 = 200 ∧
      CancelledAlone s.ob r s'.ob) ↔ Addressable s.ob r := by
  obtain ⟨⟨replies,linear⟩,_⟩ := run_invariant reached
  obtain ⟨B,sound⟩ := linear.sound
  obtain ⟨asked,asks,whole⟩ := handleCancelOrder_orderPath (s.ob.heap.order r).id
  have call : req.call = .cancel asked := Except.ok.inj (sent.symm.trans asks)
  have handled : step s .handle = some (.responded req (respond (.cancelled (cancel s.ob asked).1)),
      s.answer req (.cancelled (cancel s.ob asked).1) (cancel s.ob asked).2) := by
    change handle s = _
    rw [handle_eq took,call]
    simp only [Orderbook.call,Option.bind_some,linear.room took]
  have status : (answerCancel (respond (.cancelled (cancel s.ob asked).1))).1 = 200 ↔ (cancel s.ob asked).1 = true := by
    cases (cancel s.ob asked).1 <;> simp [answerCancel,respond]
  have alone := sound.cancel_alone_iff rests asked
  have named (known : s.ob.orders asked = some r) : asked = (s.ob.heap.order r).id := by
    rw [sound.models.orders] at known
    obtain ⟨L,e,_,level,entry,rfl,rfl⟩ := sound.valid.cancel_target sound.models.rep.orderRefs known
    exact ((sound.models.rep.level L level).entries e entry).id.symm
  constructor
  · rintro ⟨resp,s',moved,success,removed⟩
    rw [handled] at moved
    obtain ⟨same,rfl⟩ := Prod.mk.inj (Option.some.inj moved)
    obtain ⟨_,rfl⟩ := Observation.responded.inj same
    obtain ⟨known,leaves⟩ := alone.mp ⟨status.mp success,removed⟩
    exact ⟨whole.mp (named known),named known ▸ known,leaves⟩
  · rintro ⟨clean,known,leaves⟩
    have exact := whole.mpr clean
    obtain ⟨success,removed⟩ := alone.mpr ⟨exact ▸ known,leaves⟩
    exact ⟨_,_,handled,status.mpr success,removed⟩

theorem Control.took_of_pending {loop : Control} (pending : loop.pending = [req]) : loop = .took req := by
  cases loop with
  | took other =>
    obtain rfl : other = req := by simpa [Control.pending] using pending
    rfl
  | waiting => simp [Control.pending] at pending
  | announcing trades => simp [Control.pending] at pending
  | publishing data => simp [Control.pending] at pending

/-- Orders under `a/b` and `a`, then a request that asks for `a` has its turn. -/
def nestedNames : List Action :=
  [.submit (.process ⟨[97,47,98],buy,limitOrder,10,1⟩),.dequeue,.handle,
    .submit (.process ⟨[97],buy,limitOrder,11,1⟩),.dequeue,.handle,.submit (.cancel [97]),.dequeue]

def names (ob : OrderBook) : List GoString := (resting ob).map fun r => (ob.heap.order r).id

theorem nestedNames_exact : ∃ os s req, run step nestedNames newServer = some (os,s) ∧
    handleCancelOrder (orderPath (s.ob.heap.order 1).id) = .ok req.call ∧ s.loop = .took req ∧
    ∃ resp s', step s .handle = some (.responded req resp,s') ∧ (answerCancel resp).1 = 200 ∧
      CancelledAlone s.ob 1 s'.ob := by
  have waiting : (run step nestedNames newServer).map (fun (_,s) => (s.loop.pending,resting s.ob)) =
      some ([⟨.cancel [97],2⟩],[1,0]) := by decide
  have cells : (run step nestedNames newServer).map (fun (_,s) => ((s.ob.heap.order 1).id,s.ob.orders [97],
      (s.ob.heap.order 1).limit,queueRefs s.ob.heap 1)) = some ([97],some 1,some 1,[1]) := by decide
  obtain ⟨⟨os,s⟩,reached,seen⟩ := Option.map_eq_some_iff.mp waiting
  obtain ⟨pending,rests⟩ := Prod.mk.inj seen
  simp only [reached,Option.map_some,Option.some.injEq,Prod.mk.injEq] at cells
  obtain ⟨name,known,linked,queue⟩ := cells
  have took := Control.took_of_pending pending
  have sent : handleCancelOrder (orderPath (s.ob.heap.order 1).id) = .ok (.cancel [97]) := by
    rw [name]
    rfl
  refine ⟨os,s,_,reached,sent,took,(handleCancelOrder_exact_iff nestedNames os s reached 1
    (by simp [rests]) _ sent took).mpr ?_⟩
  refine ⟨by simp [name,slash],by rw [name,known],?_⟩
  intro l found _
  obtain rfl := Option.some.inj (linked.symm.trans found)
  exact queue

/-- The request names the order under `a/b`; the order under `a` leaves the book, and the answer
is a success. -/
theorem nestedNames_cancels_other :
    acceptsPlace ⟨[97,47,98],buy,limitOrder,10,1⟩ = true ∧ acceptsPlace ⟨[97],buy,limitOrder,11,1⟩ = true ∧
    handleCancelOrder (orderPath [97,47,98]) = .ok (.cancel [97]) ∧
    (run step nestedNames newServer).map (fun (_,s) => (s.loop.pending,names s.ob)) =
      some ([⟨.cancel [97],2⟩],[[97],[97,47,98]]) ∧
    (run step (nestedNames ++ [.handle]) newServer).map (fun (os,s) => ((Log.responses os).getLast?,names s.ob)) =
      some (some (⟨.cancel [97],2⟩,⟨true,[],""⟩),[[97,47,98]]) := by
  refine ⟨by decide,by decide,rfl,by decide,by decide⟩

end TradingPlatform.Api

import TradingPlatform.NaiveRefinement
import Mathlib.Data.List.Sort

/-! Whole runs of the book against whole runs of the flat list: same trades, same cancel
results, same depth. -/
namespace TradingPlatform.Orderbook

open NaiveBook Runs

/-- An order with this ID is in the queue of an attached level. -/
def RestsUnder (ob : OrderBook) (id' : GoString) : Prop :=
  ∃ l ∈ ob.bids ++ ob.asks, ∃ queue, QueueOf ob.heap l queue ∧ ∃ r ∈ queue, (ob.heap.order r).id = id'

/-- No order is placed under the ID of one that rests at that moment. -/
def FreshIDs : OrderBook → List Call → Prop
  | _, [] => True
  | ob, c :: cs => (∀ a, c = .process a → ¬RestsUnder ob a.id) ∧
      ∀ reply ob', call ob c = some (reply,ob') → FreshIDs ob' cs

def Call.quantity : Call → Nat
  | .process a => a.quantity.toNat
  | .cancel _ => 0

/-- The exact sum of all submitted quantities. -/
def submitted (calls : List Call) : Nat := (calls.map Call.quantity).sum

def KnownSides (calls : List Call) : Prop := ∀ a, .process a ∈ calls → a.side = buy ∨ a.side = sell

theorem chain_unique (first : Chain h p xs) (second : Chain h p ys) : xs = ys := by
  induction xs generalizing p ys with
  | nil =>
    cases ys with
    | nil => rfl
    | cons y ys =>
      have ends : p = none := first
      have goes : p = some y := second.1
      simp [ends] at goes
  | cons x xs ih =>
    obtain ⟨start,rest⟩ := first
    cases ys with
    | nil =>
      have ends : p = none := second
      simp [ends] at start
    | cons y ys =>
      obtain ⟨start',rest'⟩ := second
      rw [start] at start'
      obtain rfl := Option.some.inj start'
      rw [ih rest rest']

theorem Sound.restsUnder_iff (sound : Sound ob B) (id' : GoString) :
    RestsUnder ob id' ↔ ∃ L ∈ B.bids ++ B.asks, ∃ e ∈ L.queue, e.id = id' := by
  have sides := sound.attached
  constructor
  · rintro ⟨l,level,queue,chain,r,queued,rfl⟩
    rw [sides] at level
    obtain ⟨L,member,rfl⟩ := List.mem_map.mp level
    have rep := sound.models.rep.level L (Ladder.attached_levels member)
    obtain rfl := chain_unique chain rep.queueOf
    obtain ⟨e,entry,rfl⟩ := List.mem_map.mp queued
    exact ⟨L,member,e,entry,(rep.entries e entry).id.symm⟩
  · rintro ⟨L,member,e,entry,rfl⟩
    have rep := sound.models.rep.level L (Ladder.attached_levels member)
    refine ⟨L.ref,?_,L.refs,rep.queueOf,e.ref,List.mem_map_of_mem entry,(rep.entries e entry).id⟩
    rw [sides]
    exact List.mem_map_of_mem member

/-- A ladder without wrapped levels and the flat list it stands for. -/
structure Flat (B : Ladder) (F : NaiveBook) : Prop where
  bids : Shows true B.bids F
  asks : Shows false B.asks F
  detached : ∀ L ∈ B.detached, L.queue = []
  indexed : B.Indexed

theorem Flat.own (flat : Flat B F) (side : Side) : Shows (decide (side = buy)) (B.own side) F := by
  by_cases buying : side = buy
  · simpa [Ladder.own,buying] using flat.bids
  · simpa [Ladder.own,buying] using flat.asks

theorem Flat.opposite (flat : Flat B F) (side : Side) : Shows (!decide (side = buy)) (B.opposite side) F := by
  by_cases buying : side = buy
  · simpa [Ladder.opposite,buying] using flat.asks
  · simpa [Ladder.opposite,buying] using flat.bids

theorem Flat.mem_iff (flat : Flat B F) (valid : B.Valid) :
    x ∈ F ↔ ∃ L ∈ B.bids ++ B.asks, ∃ e ∈ L.queue, e.quote = x := by
  constructor
  · intro member
    have stands : x ∈ standingAt F (decide (x.side = buy)) x.price := mem_standingAt.mpr ⟨member,rfl,rfl⟩
    rw [flat.own x.side x.price] at stands
    obtain ⟨e,queued,rfl⟩ := List.mem_map.mp stands
    obtain ⟨L,level,_,entry⟩ := queueAt_mem queued
    refine ⟨L,?_,e,entry,rfl⟩
    simp only [Ladder.own] at level
    split at level <;> simp [level]
  · rintro ⟨L,level,e,entry,rfl⟩
    rcases List.mem_append.mp level with bid | ask
    · have stands : e.quote ∈ standingAt F true L.price := by
        rw [flat.bids L.price,queueAt_level valid.sorted.1 bid]
        exact List.mem_map_of_mem entry
      exact (mem_standingAt.mp stands).1
    · have stands : e.quote ∈ standingAt F false L.price := by
        rw [flat.asks L.price,queueAt_level valid.sorted.2 ask]
        exact List.mem_map_of_mem entry
      exact (mem_standingAt.mp stands).1

theorem total_sublist (sub : G.Sublist F) : total G ≤ total F :=
  (sub.map fun x : Quote => x.remaining.toNat).sum_le_sum (by simp)

theorem exactVolume_quotes (queue : List Resting) : total (queue.map Resting.quote) = exactVolume queue := by
  simp [total,exactVolume,Resting.quote,Function.comp_def]

/-- No level holds more than the whole list. -/
theorem exactVolume_le (shows' : Shows buying levels F) (sorted : SortedBy d levels) (member : L ∈ levels) :
    exactVolume L.queue ≤ total F := by
  rw [← exactVolume_quotes,← queueAt_level sorted member,← shows' L.price]
  exact total_sublist List.filter_sublist

theorem Flat.tidy (flat : Flat B F) (valid : B.Valid) (exact : total F < 2^64) : B.Tidy := by
  refine ⟨fun L member => ?_,flat.detached⟩
  rcases List.mem_append.mp member with bid | ask
  · exact (exactVolume_le flat.bids valid.sorted.1 bid).trans_lt exact
  · exact (exactVolume_le flat.asks valid.sorted.2 ask).trans_lt exact

theorem tradeAll_total (a : OrderArgs) (n : Nat) (q : UInt64) (F : NaiveBook) :
    total (tradeAll a n q F).book + (tradeAll a n q F).left.toNat ≤ total F + q.toNat := by
  induction n generalizing q F with
  | zero => simp [tradeAll]
  | succ n ih =>
    simp only [tradeAll]
    split
    · simp
    · split
      · simp
      · rename_i front x back found
        have whole : total F = total front + (x.remaining.toNat + total back) := by
          rw [(pick_some found).1]
          simp [total]
        split
        · split
          · rename_i covers
            have step := ih (q - x.remaining) (front ++ back)
            have less : (q - x.remaining).toNat = q.toNat - x.remaining.toNat :=
              UInt64.toNat_sub_of_le _ _ covers
            have bound := UInt64.le_iff_toNat_le.mp covers
            have parts : total (front ++ back) = total front + total back := by simp [total]
            simp only
            omega
          · rename_i short
            have below : q ≤ x.remaining := by grind
            have less : (x.remaining - q).toNat = x.remaining.toNat - q.toNat :=
              UInt64.toNat_sub_of_le _ _ below
            simp only [total,List.map_append,List.map_cons,List.sum_append,List.sum_cons,less] at whole ⊢
            simp only [UInt64.toNat_zero]
            omega
        · simp

theorem standingAt_snoc (F : NaiveBook) (x : Quote) (buying : Bool) (price : UInt64) :
    standingAt (F ++ [x]) buying price = standingAt F buying price ++
      if (decide (x.side = buy) == buying && decide (x.price = price)) = true then [x] else [] := by
  rw [standingAt_append,standingAt_cons]
  simp [standingAt]

theorem Flat.place (flat : Flat B F) (valid : B.Valid) (distinct : (refsOf B.levels).Nodup)
    (known : a.side = buy ∨ a.side = sell) (exact : total F < 2^64) (fresh : ∀ x ∈ F, x.id ≠ a.id) :
    (F.place a).1 = (B.place a).1.map (Execution.trade a.id) ∧ Flat (B.place a).2 (F.place a).2 := by
  have opposite : ∀ L ∈ B.opposite a.side, L ∈ B.bids ++ B.asks :=
    fun L member => Ladder.mem_attached.mpr (.inr member)
  have fits : ∀ L ∈ B.opposite a.side, exactVolume L.queue < 2^64 :=
    fun L member => (flat.tidy valid exact).exact L (opposite L member)
  have unfilled : ∀ L ∈ B.opposite a.side, ∀ e ∈ L.queue, e.remaining ≠ 0 :=
    fun L member e queued => (valid.entries L (Ladder.opposite_levels member) e queued).2
  obtain ⟨book,result,makers,others⟩ := tradeAll_sweeps a known (B.opposite a.side) F.length a.quantity F
    (valid.opposite_sorted a.side) fits (fun L member => valid.nonempty L (opposite L member)) unfilled
    (flat.opposite a.side) le_rfl
  change Shows _ (B.sweepFor a).makers book at makers
  have left : (tradeAll a F.length a.quantity F).left = (B.sweepFor a).left := by rw [result]; rfl
  have clear : B.Clear a := by
    intro _ L member e queued same
    have origin : ∃ M ∈ B.bids ++ B.asks, ∃ d ∈ M.queue, d.id = e.id := by
      rcases List.mem_append.mp member with own | maker
      · exact ⟨L,Ladder.mem_attached.mpr (.inl own),e,queued,rfl⟩
      · have from' := sweep_forall (stopsAt a.order)
          (fun _ e => ∃ M ∈ B.bids ++ B.asks, ∃ d ∈ M.queue, d.id = e.id)
          (fun _ _ _ holds _ => holds) a.quantity (B.opposite a.side)
          (fun M inside d entry => ⟨M,opposite M inside,d,entry,rfl⟩)
        exact from' L (List.mem_append_left _ maker) e queued
    obtain ⟨M,attached,d,entry,name⟩ := origin
    exact fresh d.quote ((flat.mem_iff valid).mpr ⟨M,attached,d,entry,rfl⟩) (name.trans same)
  have gone' : ∀ L ∈ (B.place a).2.detached, L.queue = [] := by
    intro L member
    rcases List.mem_append.mp member with dropped | old
    · exact sweep_dropped_empty (stopsAt a.order) a.quantity (B.opposite a.side) fits unfilled L dropped
    · exact flat.detached L old
  have own : Shows (decide (a.side = buy)) (B.ownAfter a) (F.place a).2 ∧
      Shows (!decide (a.side = buy)) (B.sweepFor a).makers (F.place a).2 := by
    have before : Shows (decide (a.side = buy)) (B.own a.side) book := by
      intro p
      rw [others p]
      exact flat.own a.side p
    have rests : B.rests a = true ↔ (tradeAll a F.length a.quantity F).left ≠ 0 ∧ a.type = limitOrder := by
      rw [left]
      simp [Ladder.rests]
    by_cases resting : B.rests a = true
    · have after : (F.place a).2 = book ++ [(B.entry a).quote] := by
        simp only [NaiveBook.place,if_pos (rests.mp resting)]
        rw [left,result]
        rfl
      rw [after,Ladder.ownAfter,if_pos resting]
      refine ⟨fun p => ?_,fun p => ?_⟩
      · rw [standingAt_snoc,queueAt_settle (valid.own_sorted a.side),before p]
        by_cases here : a.price = p <;> simp [Ladder.entry,Resting.quote,here]
      · rw [standingAt_snoc,makers p]
        by_cases buying : a.side = buy <;> simp [Ladder.entry,Resting.quote,buying]
    · have after : (F.place a).2 = book := by
        simp only [NaiveBook.place,if_neg (fun holds => resting (rests.mpr holds))]
        rw [result]
      rw [after,Ladder.ownAfter,if_neg resting]
      exact ⟨before,makers⟩
  refine ⟨by simp only [NaiveBook.place,result]; rfl,?_,?_,gone',flat.indexed.place valid distinct clear⟩
  · by_cases buying : a.side = buy
    · simpa [Ladder.place,buying] using own.1
    · simpa [Ladder.place,buying] using own.2
  · by_cases buying : a.side = buy
    · simpa [Ladder.place,buying] using own.2
    · simpa [Ladder.place,buying] using own.1

/-- Dropping a price at which nothing is queued shows the same list. -/
theorem shows_drop (shows' : Shows buying levels F) (empty : queueAt levels price = []) :
    Shows buying (levels.filter fun L => L.price ≠ price) F := by
  intro p
  rw [shows' p]
  by_cases here : p = price
  · subst here
    have none : queueAt (levels.filter fun L => L.price ≠ p) p = [] :=
      queueAt_absent fun L member => by simpa using (List.mem_filter.mp member).2
    rw [empty,none]
  · have same : (levels.filter fun L => L.price ≠ price).filter (fun L => L.price = p) =
        levels.filter fun L => L.price = p := by
      rw [List.filter_filter]
      refine List.filter_congr fun L _ => ?_
      by_cases at' : L.price = p
      · simp [at',here]
      · simp [at']
    simp only [queueAt,same]

/-- Taking an ID off the list is taking its one reference out of the queues. -/
theorem Shows.strip {levels : List Level} (shows' : Shows buying levels F)
    (named : ∀ M ∈ levels, ∀ d ∈ M.queue, d.id = id' ↔ d.ref = r) :
    Shows buying (levels.map (Level.strip r)) (F.cancel id').2 := by
  intro p
  have swap : standingAt (F.cancel id').2 buying p = (standingAt F buying p).filter fun x => x.id ≠ id' := by
    simp only [standingAt,NaiveBook.cancel,List.filter_filter]
    exact List.filter_congr fun x _ => Bool.and_comm _ _
  rw [swap,shows' p,queueAt_strip,List.filter_map]
  congr 1
  refine List.filter_congr fun d queued => ?_
  obtain ⟨M,inside,_,member⟩ := queueAt_mem queued
  simp [Resting.quote,named M inside d member]

theorem Flat.cancel (flat : Flat B F) (valid : B.Valid) (distinct : (refsOf B.levels).Nodup)
    (exact : total F < 2^64) (id' : GoString) :
    (F.cancel id').1 = (B.cancel id').1 ∧ Flat (B.cancel id').2 (F.cancel id').2 := by
  cases known : B.orders id' with
  | none =>
    have absent : ∀ x ∈ F, x.id ≠ id' := by
      rintro x member rfl
      obtain ⟨L,attached,e,entry,rfl⟩ := (flat.mem_iff valid).mp member
      have registered := flat.indexed L attached e entry
      change B.orders e.id = none at known
      simp [known] at registered
    have kept : (F.cancel id').2 = F := List.filter_eq_self.mpr fun x member => by simpa using absent x member
    rw [kept]
    refine ⟨?_,by simpa [Ladder.cancel,known] using flat⟩
    simpa [Ladder.cancel,known,NaiveBook.cancel] using absent
  | some r =>
    obtain ⟨L,e,found,level,entry,rfl,rfl⟩ := valid.cancel_target distinct known
    have tidy := flat.tidy valid exact
    have attached := tidy.attached level entry
    have named : ∀ M ∈ B.bids ++ B.asks, ∀ d ∈ M.queue, d.id = e.id ↔ d.ref = e.ref := by
      intro M member d queued
      constructor
      · intro same
        have registered := flat.indexed M member d queued
        rw [same,known] at registered
        exact (Option.some.inj registered).symm
      · intro same
        rw [(entry_unique distinct level entry (Ladder.attached_levels member) queued same).2]
    have bids : Shows true (B.strip e.ref e.id).bids (F.cancel e.id).2 :=
      flat.bids.strip fun M member => named M (List.mem_append_left _ member)
    have asks : Shows false (B.strip e.ref e.id).asks (F.cancel e.id).2 :=
      flat.asks.strip fun M member => named M (List.mem_append_right _ member)
    have hit : (F.cancel e.id).1 = true := by
      have member := (flat.mem_iff valid).mpr ⟨L,attached,e,entry,rfl⟩
      exact List.any_eq_true.mpr ⟨e.quote,member,by simp [Resting.quote]⟩
    have gone := (tidy.cancel valid distinct e.id).detached
    have indexed := flat.indexed.cancel valid distinct e.id
    have sorted := sorted_strip B valid.sorted e.ref e.id
    simp only [Ladder.cancel,known,Option.bind_some,found] at gone indexed ⊢
    by_cases drained : (L.strip e.ref).volume = 0
    · have empty : (L.strip e.ref).queue = [] := by
        refine (volume_eq_zero_iff (L.strip e.ref) ?_ fun d queued => ?_).mp drained
        · exact (exactVolume_strip_le e.ref L).trans_lt (tidy.exact L attached)
        · exact (valid.entries L level d ((strip_queue_sublist e.ref L).subset queued)).2
      have none : ∀ levels d, SortedBy d levels → L.strip e.ref ∈ levels → queueAt levels L.price = [] :=
        fun levels d ordered here => (queueAt_level ordered here).trans empty
      simp only [drained,if_true] at gone indexed ⊢
      refine ⟨hit,?_,?_,gone,indexed⟩
      · rcases List.mem_append.mp attached with bid | ask
        · simpa [Ladder.dropLevel,valid.buys L bid e entry] using
            shows_drop bids (none _ true sorted.1 (List.mem_map_of_mem bid))
        · simpa [Ladder.dropLevel,valid.sells L ask e entry] using bids
      · rcases List.mem_append.mp attached with bid | ask
        · simpa [Ladder.dropLevel,valid.buys L bid e entry] using asks
        · simpa [Ladder.dropLevel,valid.sells L ask e entry] using
            shows_drop asks (none _ false sorted.2 (List.mem_map_of_mem ask))
    · simp only [drained,if_false] at gone indexed ⊢
      exact ⟨hit,bids,asks,gone,indexed⟩

/-- The levels of a side are the distinct prices of the list, best first. -/
theorem prices_shown (shows' : Shows buying levels F) (sorted : SortedBy buying levels)
    (held : ∀ L ∈ levels, L.queue ≠ []) : F.prices buying = levels.map Level.price := by
  have ordered : (levels.map Level.price).Pairwise fun p q => precedes buying p q = true :=
    List.pairwise_map.mpr sorted
  have distinct : (levels.map Level.price).Nodup := ordered.imp precedes_ne
  have le_of_precedes : ∀ p q, precedes buying p q = true →
      (if buying then decide (q ≤ p) else decide (p ≤ q)) = true := by
    intro p q before
    cases buying <;> simp only [precedes,Bool.false_eq_true,if_true,if_false,decide_eq_true_eq] at before ⊢ <;> grind
  have same : ∀ p, p ∈ (F.filter fun x => decide (x.side = buy) == buying).map Quote.price ↔
      p ∈ levels.map Level.price := by
    intro p
    simp only [List.mem_map,List.mem_filter,beq_iff_eq]
    constructor
    · rintro ⟨x,⟨member,own⟩,rfl⟩
      have stands := mem_standingAt.mpr ⟨member,own,rfl⟩
      rw [shows' x.price] at stands
      obtain ⟨e,queued,_⟩ := List.mem_map.mp stands
      obtain ⟨L,level,price,_⟩ := queueAt_mem queued
      exact ⟨L,level,price⟩
    · rintro ⟨L,level,rfl⟩
      obtain ⟨e,es,queue⟩ := List.exists_cons_of_ne_nil (held L level)
      have stands : e.quote ∈ standingAt F buying L.price := by
        rw [shows' L.price,queueAt_level sorted level,queue]
        simp
      obtain ⟨member,own,price⟩ := mem_standingAt.mp stands
      exact ⟨e.quote,⟨member,own⟩,price⟩
  have perm : ((F.filter fun x => decide (x.side = buy) == buying).map Quote.price).dedup.Perm
      (levels.map Level.price) :=
    (List.perm_ext_iff_of_nodup (List.nodup_dedup _) distinct).mpr fun p => by rw [List.mem_dedup,same p]
  have bestFirst : (F.prices buying).Pairwise fun p q =>
      (if buying then decide (q ≤ p) else decide (p ≤ q)) = true := by
    apply List.pairwise_mergeSort
    · intro p q r pq qr
      cases buying <;> simp only [Bool.false_eq_true,if_true,if_false,decide_eq_true_eq] at pq qr ⊢ <;> grind
    · intro p q
      cases buying <;> simp only [Bool.false_eq_true,if_true,if_false,Bool.or_eq_true,decide_eq_true_eq] <;> grind
  refine List.Perm.eq_of_pairwise ?_ bestFirst (ordered.imp (le_of_precedes _ _))
    ((List.mergeSort_perm _ _).trans perm)
  intro p q _ _ pq qp
  cases buying <;> simp only [Bool.false_eq_true,if_true,if_false,decide_eq_true_eq] at pq qp <;> grind

def PriceLevel.exact (l : PriceLevel) : UInt64 × Nat := (l.price,l.volume.toNat)

theorem depth_shown (shows' : Shows buying levels F) (sorted : SortedBy buying levels)
    (held : ∀ L ∈ levels, L.queue ≠ []) (bound : total F < 2^64) (depth : Nat) :
    ((levels.take depth).map fun L => PriceLevel.exact ⟨L.price,L.volume⟩) = F.depth buying depth := by
  rw [NaiveBook.depth,prices_shown shows' sorted held,← List.map_take,List.map_map]
  refine List.map_congr_left fun L member => ?_
  have level := List.mem_of_mem_take member
  have fits := (exactVolume_le shows' sorted level).trans_lt bound
  simp only [PriceLevel.exact,Function.comp_apply,Prod.mk.injEq,true_and]
  rw [volume_toNat,Nat.mod_eq_of_lt fits,shows' L.price,queueAt_level sorted level,exactVolume_quotes]

/-- What the two runs share, given the calls still to come. -/
structure Tracks (calls : List Call) (ob : OrderBook) (F : NaiveBook) (B : Ladder) : Prop where
  sound : Sound ob B
  flat : Flat B F
  sides : KnownSides calls
  bound : total F + submitted calls < 2^64

def Call.Unused (c : Call) (F : NaiveBook) : Prop := ∀ a, c = .process a → ∀ x ∈ F, x.id ≠ a.id

theorem Tracks.call (tracks : Tracks (c :: calls) ob F B) (unused : c.Unused F) :
    ∃ ob', Orderbook.call ob c = some ((F.call c).1,ob') ∧ Tracks calls ob' (F.call c).2 (B.call c).2 := by
  obtain ⟨sound,flat,sides,bound⟩ := tracks
  obtain ⟨ob',result,after⟩ := sound.call c
  have distinct := sound.models.rep.orderRefs
  have sum : submitted (c :: calls) = c.quantity + submitted calls := by simp [submitted]
  have later : KnownSides calls := fun a member => sides a (List.mem_cons_of_mem _ member)
  cases c with
  | process a =>
    obtain ⟨trades,flat'⟩ := flat.place sound.valid distinct (sides a (by simp)) (by omega) (unused a rfl)
    have replies : (F.call (.process a)).1 = (B.call (.process a)).1 := by
      simp only [NaiveBook.call,Ladder.call,trades]
    have grows : total (F.place a).2 ≤ total F + a.quantity.toNat := by
      have traded := tradeAll_total a F.length a.quantity F
      simp only [NaiveBook.place]
      split
      · simpa [total] using traded
      · exact (Nat.le_add_right _ _).trans traded
    refine ⟨ob',by rw [result,replies],after,flat',later,?_⟩
    simp only [sum,Call.quantity] at bound
    simp only [NaiveBook.call]
    omega
  | cancel id' =>
    obtain ⟨found,flat'⟩ := flat.cancel sound.valid distinct (by omega) id'
    have replies : (F.call (.cancel id')).1 = (B.call (.cancel id')).1 := by
      simp only [NaiveBook.call,Ladder.call,found]
    have shrinks : total (F.cancel id').2 ≤ total F := total_sublist List.filter_sublist
    refine ⟨ob',by rw [result,replies],after,flat',later,?_⟩
    simp only [sum,Call.quantity] at bound
    simp only [NaiveBook.call]
    omega

theorem Tracks.restsUnder_iff (tracks : Tracks calls ob F B) (id' : GoString) :
    RestsUnder ob id' ↔ ∃ x ∈ F, x.id = id' := by
  rw [tracks.sound.restsUnder_iff]
  constructor
  · rintro ⟨L,level,e,entry,rfl⟩
    exact ⟨e.quote,(tracks.flat.mem_iff tracks.sound.valid).mpr ⟨L,level,e,entry,rfl⟩,rfl⟩
  · rintro ⟨x,member,rfl⟩
    obtain ⟨L,level,e,entry,rfl⟩ := (tracks.flat.mem_iff tracks.sound.valid).mp member
    exact ⟨L,level,e,entry,rfl⟩

/-- Freshness as the flat list sees it, which can be evaluated. -/
def naiveFresh : NaiveBook → List Call → Bool
  | _, [] => true
  | F, .process a :: cs => F.all (fun x => x.id ≠ a.id) && naiveFresh (F.place a).2 cs
  | F, .cancel id' :: cs => naiveFresh (F.cancel id').2 cs

theorem naiveFresh_cons (c : Call) (calls : List Call) (F : NaiveBook) :
    naiveFresh F (c :: calls) = true ↔ c.Unused F ∧ naiveFresh (F.call c).2 calls = true := by
  cases c with
  | process a => simp [naiveFresh,Call.Unused,NaiveBook.call]
  | cancel id' => simp [naiveFresh,Call.Unused,NaiveBook.call]

theorem Tracks.freshIDs_iff (tracks : Tracks calls ob F B) :
    FreshIDs ob calls ↔ naiveFresh F calls = true := by
  induction calls generalizing ob F B with
  | nil => simp [FreshIDs,naiveFresh]
  | cons c calls ih =>
    have head : (∀ a, c = .process a → ¬RestsUnder ob a.id) ↔ c.Unused F := by
      simp [Call.Unused,tracks.restsUnder_iff]
    rw [FreshIDs,naiveFresh_cons,head]
    refine and_congr_right fun unused => ?_
    obtain ⟨ob',result,after⟩ := tracks.call unused
    rw [← ih after]
    constructor
    · intro all
      exact all _ _ result
    · intro one reply ob'' other
      obtain ⟨_,rfl⟩ := outcome_unique result other
      exact one

theorem new_tracks (sides : KnownSides calls) (bound : submitted calls < 2^64) :
    Tracks calls newOrderBook [] Ladder.empty := by
  refine ⟨new_sound,⟨?_,?_,?_,?_⟩,sides,by simpa [total] using bound⟩
  · intro p
    simp [standingAt,queueAt,Ladder.empty]
  · intro p
    simp [standingAt,queueAt,Ladder.empty]
  · simp [Ladder.empty]
  · simp [Ladder.Indexed,Ladder.empty]

theorem runCalls_tracks (sides : KnownSides calls) (fresh : naiveFresh [] calls = true)
    (bound : submitted calls < 2^64) :
    ∃ replies ob F B, runCalls calls = some (replies,ob) ∧ naiveRun calls = some (replies,F) ∧
      Tracks [] ob F B := by
  obtain ⟨replies,ob,F,result,naive,⟨B,tracks⟩,_⟩ := run_simulates
    (fun calls ob F => (∃ B, Tracks calls ob F B) ∧ naiveFresh F calls = true)
    (fun c calls ob F holds => by
      obtain ⟨⟨B,tracks⟩,fresh⟩ := holds
      obtain ⟨unused,later⟩ := (naiveFresh_cons c calls F).mp fresh
      obtain ⟨ob',step,after⟩ := tracks.call unused
      exact ⟨_,ob',_,step,rfl,⟨_,after⟩,later⟩)
    calls ⟨⟨Ladder.empty,new_tracks sides bound⟩,fresh⟩
  exact ⟨replies,ob,F,B,result,naive,tracks⟩

/-- Price-time priority: the book answers every call as the flat list does and reports its
depth. Orders of quantity zero are allowed as well; neither book keeps them. -/
theorem runCalls_refines_naive (calls : List Call) (sides : KnownSides calls)
    (fresh : FreshIDs newOrderBook calls) (bound : submitted calls < 2^64) :
    ∃ replies ob F, runCalls calls = some (replies,ob) ∧ naiveRun calls = some (replies,F) ∧
      ∀ depth : Int, 0 ≤ depth → ∃ bids asks, getDepth ob depth = some (bids,asks) ∧
        bids.map PriceLevel.exact = F.depth true depth.toNat ∧
        asks.map PriceLevel.exact = F.depth false depth.toNat := by
  obtain ⟨replies,ob,F,B,result,naive,tracks⟩ :=
    runCalls_tracks sides ((new_tracks sides bound).freshIDs_iff.mp fresh) bound
  refine ⟨replies,ob,F,result,naive,fun depth nonneg => ?_⟩
  obtain ⟨sound,flat,_,fits⟩ := tracks
  have small : total F < 2^64 := by omega
  refine ⟨_,_,getDepth_models sound.models depth nonneg,?_,?_⟩
  · rw [List.map_map]
    exact depth_shown flat.bids sound.valid.sorted.1
      (fun L member => sound.valid.nonempty L (List.mem_append_left _ member)) small depth.toNat
  · rw [List.map_map]
    exact depth_shown flat.asks sound.valid.sorted.2
      (fun L member => sound.valid.nonempty L (List.mem_append_right _ member)) small depth.toNat

/-- Two sellers at different prices, a buyer that sweeps one and part of the other, a cancel. -/
def sampleCalls : List Call :=
  [.process ⟨[1],sell,limitOrder,101,5⟩,.process ⟨[2],sell,limitOrder,100,4⟩,
    .process ⟨[3],buy,limitOrder,101,6⟩,.cancel [1]]

theorem sampleCalls_sides : KnownSides sampleCalls := by
  intro a member
  simp only [sampleCalls,List.mem_cons,Call.process.injEq,reduceCtorEq,List.not_mem_nil,or_false] at member
  rcases member with rfl | rfl | rfl
  · exact .inr rfl
  · exact .inr rfl
  · exact .inl rfl

theorem sampleCalls_bound : submitted sampleCalls < 2^64 := by decide

theorem sampleCalls_fresh : FreshIDs newOrderBook sampleCalls :=
  (new_tracks sampleCalls_sides sampleCalls_bound).freshIDs_iff.mpr (by decide)

theorem sampleCalls_refines_naive : ∃ replies ob F,
    runCalls sampleCalls = some (replies,ob) ∧ naiveRun sampleCalls = some (replies,F) ∧
      ∀ depth : Int, 0 ≤ depth → ∃ bids asks, getDepth ob depth = some (bids,asks) ∧
        bids.map PriceLevel.exact = F.depth true depth.toNat ∧
        asks.map PriceLevel.exact = F.depth false depth.toNat :=
  runCalls_refines_naive sampleCalls sampleCalls_sides sampleCalls_fresh sampleCalls_bound

end TradingPlatform.Orderbook

import TradingPlatform.ExactSums
import TradingPlatform.NaiveBook

/-! Matching on the ladder is matching on the flat list, as long as no level's volume wraps.
The two are tied price by price: the queue of a level is the part of the list that stands
at its side and price. -/
namespace TradingPlatform.Orderbook

open NaiveBook

def Resting.quote (e : Resting) : Quote := ⟨e.id,e.side,e.price,e.remaining⟩

def Shows (buying : Bool) (levels : List Level) (F : NaiveBook) : Prop :=
  ∀ price, standingAt F buying price = (queueAt levels price).map Resting.quote

theorem standingAt_append (F G : NaiveBook) (buying : Bool) (price : UInt64) :
    standingAt (F ++ G) buying price = standingAt F buying price ++ standingAt G buying price := by
  simp [standingAt]

theorem standingAt_cons (x : Quote) (F : NaiveBook) (buying : Bool) (price : UInt64) :
    standingAt (x :: F) buying price =
      (if (decide (x.side = buy) == buying && decide (x.price = price)) = true then [x] else []) ++
        standingAt F buying price := by
  simp only [standingAt,List.filter_cons]
  split <;> simp

theorem mem_standingAt : x ∈ standingAt F buying price ↔
    x ∈ F ∧ decide (x.side = buy) = buying ∧ x.price = price := by
  simp [standingAt]

theorem faces_iff : faces side x = true ↔ decide (x.side = buy) = !decide (side = buy) := by
  cases first : decide (x.side = buy) <;> cases second : decide (side = buy) <;>
    simp [faces,first,second]

section Matching

variable {side : Side} {L : Level} {levels : List Level} {e : Resting} {es : List Resting}
  {F front back : NaiveBook}

/-- The scan finds the front of the best queue. -/
theorem pick_shows (sorted : SortedBy (!decide (side = buy)) (L :: levels)) (queue : L.queue = e :: es)
    (shows' : Shows (!decide (side = buy)) (L :: levels) F) :
    ∃ front back, pick side F = some (front,e.quote,back) ∧ F = front ++ e.quote :: back ∧
      e.quote.price = L.price ∧ standingAt front (!decide (side = buy)) L.price = [] := by
  have best := shows' L.price
  rw [queueAt_head sorted,queue] at best
  have listed : e.quote ∈ standingAt F (!decide (side = buy)) L.price := by simp [best]
  obtain ⟨present,own,price⟩ := mem_standingAt.mp listed
  cases found : pick side F with
  | none =>
    have missed := pick_none found _ present
    rw [faces_iff.mpr own] at missed
    exact absurd missed (by simp)
  | some result =>
    obtain ⟨front,x,back⟩ := result
    obtain ⟨split,facing,before,after⟩ := pick_some found
    simp only [better_iff_precedes] at before after
    have notBetter : precedes (!decide (side = buy)) L.price x.price = false := by
      rw [← price]
      rw [split,List.mem_append,List.mem_cons] at present
      rcases present with early | same | late
      · exact precedes_asymm (before _ early (faces_iff.mpr own))
      · rw [same]
        exact precedes_irrefl _ _
      · exact after _ late (faces_iff.mpr own)
    have same : x.price = L.price := by
      have stands : x ∈ standingAt F (!decide (side = buy)) x.price :=
        mem_standingAt.mpr ⟨by simp [split],faces_iff.mp facing,rfl⟩
      rw [shows' x.price] at stands
      obtain ⟨d,queued,_⟩ := List.mem_map.mp stands
      obtain ⟨M,level,at',_⟩ := queueAt_mem queued
      rcases List.mem_cons.mp level with rfl | later
      · exact at'.symm
      · have ahead := (List.pairwise_cons.mp sorted).1 M later
        rw [at',notBetter] at ahead
        exact absurd ahead (by simp)
    have clear : standingAt front (!decide (side = buy)) L.price = [] := by
      refine List.eq_nil_iff_forall_not_mem.mpr fun y member => ?_
      obtain ⟨early,other,at'⟩ := mem_standingAt.mp member
      exact precedes_ne (before y early (faces_iff.mpr other)) (same.trans at'.symm)
    rw [split,standingAt_append,clear,standingAt_cons] at best
    simp only [faces_iff.mp facing,same,BEq.rfl,decide_true,Bool.and_true,if_true,List.nil_append,
      List.cons_append,List.map_cons,List.cons.injEq] at best
    obtain ⟨rfl,_⟩ := best
    exact ⟨front,back,rfl,split,price,clear⟩

/-- Replacing the front of the best queue by orders of the same side and price. -/
theorem shows_replace (own : decide (e.quote.side = buy) = buying) (price : e.quote.price = L.price)
    (clear : standingAt front buying L.price = []) (news : List Resting)
    (alike : ∀ d ∈ news, d.side = e.side ∧ d.price = e.price)
    (shows' : Shows buying ({ L with queue := e :: es } :: levels) (front ++ e.quote :: back)) :
    Shows buying ({ L with queue := news ++ es } :: levels) (front ++ (news.map Resting.quote ++ back)) ∧
    ∀ p, standingAt (front ++ (news.map Resting.quote ++ back)) (!buying) p =
      standingAt (front ++ e.quote :: back) (!buying) p := by
  have same : ∀ x ∈ news.map Resting.quote, x.side = e.quote.side ∧ x.price = L.price := by
    intro x member
    obtain ⟨d,inside,rfl⟩ := List.mem_map.mp member
    exact ⟨(alike d inside).1,(alike d inside).2.trans price⟩
  constructor
  · intro p
    have before := shows' p
    rw [standingAt_append,standingAt_cons,queueAt_cons] at before
    rw [standingAt_append,standingAt_append,queueAt_cons]
    by_cases here : L.price = p
    · subst here
      have all : standingAt (news.map Resting.quote) buying L.price = news.map Resting.quote :=
        List.filter_eq_self.mpr fun x member => by simp [(same x member).1,(same x member).2,own]
      simp only [own,price,BEq.rfl,decide_true,Bool.and_true,if_true,clear,List.nil_append,
        List.cons_append,List.map_cons,List.cons.injEq,true_and] at before
      simp only [all,clear,if_true,List.nil_append,before,List.map_append,List.append_assoc]
    · have none : standingAt (news.map Resting.quote) buying p = [] :=
        List.filter_eq_nil_iff.mpr fun x member => by simp [(same x member).2,here]
      simpa [none,price,here] using before
  · intro p
    have none : standingAt (news.map Resting.quote) (!buying) p = [] :=
      List.filter_eq_nil_iff.mpr fun x member => by simp [(same x member).1,own]
    simp [standingAt_append,standingAt_cons,none,own]

/-- Trading with one level on the list is filling its queue. -/
theorem tradeAll_level (a : OrderArgs) (crossing : crosses a L.price = true)
    (sorted : SortedBy (!decide (a.side = buy)) (L :: levels)) (es : List Resting) (n : Nat) (q : UInt64)
    (F : NaiveBook) (shows' : Shows (!decide (a.side = buy)) ({ L with queue := es } :: levels) F)
    (budget : F.length ≤ n) :
    ∃ n' F', tradeAll a n q F =
        ⟨(fillQueue L.price q es).fills.map (Execution.trade a.id) ++
          (tradeAll a n' (fillQueue L.price q es).left F').trades,
          (tradeAll a n' (fillQueue L.price q es).left F').left,
          (tradeAll a n' (fillQueue L.price q es).left F').book⟩ ∧
      Shows (!decide (a.side = buy)) ({ L with queue := (fillQueue L.price q es).queue } :: levels) F' ∧
      (∀ p, standingAt F' (decide (a.side = buy)) p = standingAt F (decide (a.side = buy)) p) ∧
      F'.length ≤ n' := by
  induction es generalizing n q F with
  | nil => exact ⟨n,F,by simp [fillQueue],shows',fun _ => rfl,budget⟩
  | cons e es ih =>
    by_cases zero : q = 0
    · exact ⟨n,F,by simp [fillQueue,zero],by simpa [fillQueue,zero] using shows',fun _ => rfl,budget⟩
    have sorted' : SortedBy (!decide (a.side = buy)) ({ L with queue := e :: es } :: levels) := by
      simpa [SortedBy] using sorted
    obtain ⟨front,back,found,split,price,clear⟩ := pick_shows sorted' rfl shows'
    have own : decide (e.quote.side = buy) = !decide (a.side = buy) := by
      have facing := (pick_some found).2.1
      exact faces_iff.mp facing
    have crossed : crosses a e.quote.price = true := by rwa [price]
    have priced : e.price = L.price := price
    subst split
    obtain ⟨m,rfl⟩ : ∃ m, n = m + 1 := ⟨n - 1,by simp at budget; omega⟩
    by_cases covers : e.remaining ≤ q
    · obtain ⟨after,others⟩ := shows_replace own price clear [] (by simp) shows'
      obtain ⟨n',F',result,final,rest,within⟩ := ih m (q - e.remaining) (front ++ back) after
        (by simp at budget ⊢; omega)
      refine ⟨n',F',?_,?_,fun p => ?_,within⟩
      · have covers' : e.quote.remaining ≤ q := covers
        simp only [tradeAll,zero,found,crossed,covers',if_true,if_false]
        rw [show q - e.quote.remaining = q - e.remaining from rfl,result]
        simp [fillQueue,zero,covers,Execution.trade,Resting.quote,priced]
      · simpa [fillQueue,zero,covers] using final
      · rw [rest p]
        simpa using others p
    · obtain ⟨after,others⟩ := shows_replace own price clear [{ e with remaining := e.remaining - q }]
        (by simp) shows'
      refine ⟨m + 1,front ++ ({ e with remaining := e.remaining - q } : Resting).quote :: back,?_,?_,fun p => ?_,?_⟩
      · have covers' : ¬e.quote.remaining ≤ q := covers
        simp only [tradeAll,zero,found,crossed,covers',if_true,if_false]
        simp [fillQueue,zero,covers,Execution.trade,Resting.quote,priced]
      · simpa [fillQueue,zero,covers] using after
      · simpa using others p
      · simpa using budget

theorem crosses_eq_not_stopsAt (known : a.side = buy ∨ a.side = sell) (price : UInt64) :
    crosses a price = !stopsAt a.order price := by
  by_cases limit : a.type = limitOrder
  · rcases known with buying | selling
    · simp [crosses,stopsAt,OrderArgs.order,limit,buying,buy,sell,← UInt64.not_lt]
    · simp [crosses,stopsAt,OrderArgs.order,limit,selling,buy,sell,← UInt64.not_lt]
  · simp [crosses,stopsAt,OrderArgs.order,limit]

/-- Matching on the list is sweeping the levels, and every level that leaves is empty. -/
theorem tradeAll_sweeps (a : OrderArgs) (known : a.side = buy ∨ a.side = sell) (levels : List Level) (n : Nat)
    (q : UInt64) (F : NaiveBook) (sorted : SortedBy (!decide (a.side = buy)) levels)
    (exact : ∀ L ∈ levels, exactVolume L.queue < 2^64) (held : ∀ L ∈ levels, L.queue ≠ [])
    (left : ∀ L ∈ levels, ∀ e ∈ L.queue, e.remaining ≠ 0)
    (shows' : Shows (!decide (a.side = buy)) levels F) (budget : F.length ≤ n) :
    ∃ book, tradeAll a n q F =
        ⟨(sweep (stopsAt a.order) q levels).fills.map (Execution.trade a.id),
          (sweep (stopsAt a.order) q levels).left,book⟩ ∧
      Shows (!decide (a.side = buy)) (sweep (stopsAt a.order) q levels).makers book ∧
      ∀ p, standingAt book (decide (a.side = buy)) p = standingAt F (decide (a.side = buy)) p := by
  induction levels generalizing n q F with
  | nil =>
    have nothing : pick a.side F = none := by
      cases found : pick a.side F with
      | none => rfl
      | some result =>
        obtain ⟨front,x,back⟩ := result
        obtain ⟨split,facing,_⟩ := pick_some found
        have stands : x ∈ standingAt F (!decide (a.side = buy)) x.price :=
          mem_standingAt.mpr ⟨by simp [split],faces_iff.mp facing,rfl⟩
        rw [shows' x.price] at stands
        simp [queueAt] at stands
    refine ⟨F,?_,by simpa [sweep] using shows',fun _ => rfl⟩
    cases n <;> simp [tradeAll,sweep,nothing]
  | cons L levels ih =>
    by_cases zero : q = 0
    · refine ⟨F,?_,by simpa [sweep,zero] using shows',fun _ => rfl⟩
      cases n <;> simp [tradeAll,sweep,zero]
    by_cases stopped : stopsAt a.order L.price = true
    · refine ⟨F,?_,by simpa [sweep,stopped] using shows',fun _ => rfl⟩
      obtain ⟨e,es,queue⟩ := List.exists_cons_of_ne_nil (held L (by simp))
      obtain ⟨front,back,found,_,price,_⟩ := pick_shows sorted queue shows'
      have away : crosses a e.quote.price = false := by
        rw [crosses_eq_not_stopsAt known,price,stopped]
        rfl
      cases n <;> simp [tradeAll,sweep,stopped,zero,found,away]
    · have crossing : crosses a L.price = true := by
        rw [crosses_eq_not_stopsAt known]
        simpa using stopped
      obtain ⟨n',F',result,after,others,within⟩ :=
        tradeAll_level a crossing sorted L.queue n q F (by simpa using shows') budget
      rw [result]
      by_cases drained : ({ L with queue := (fillQueue L.price q L.queue).queue } : Level).volume = 0
      · have empty := (drained_iff L q (exact L (by simp)) (left L (by simp))).mp drained
        have rest : Shows (!decide (a.side = buy)) levels F' := by
          intro p
          have shown := after p
          rw [queueAt_cons,empty] at shown
          simpa using shown
        obtain ⟨book,later,final,same⟩ := ih n' (fillQueue L.price q L.queue).left F'
          (List.pairwise_cons.mp sorted).2 (fun M member => exact M (List.mem_cons_of_mem _ member))
          (fun M member => held M (List.mem_cons_of_mem _ member))
          (fun M member => left M (List.mem_cons_of_mem _ member)) rest within
        simp only [sweep,zero,stopped,drained,if_true,if_false,false_or,Bool.false_eq_true]
        exact ⟨book,by simp [later],final,fun p => (same p).trans (others p)⟩
      · have used := fillQueue_left_of_volume L q drained
        simp only [sweep,zero,stopped,drained,if_false,false_or,Bool.false_eq_true]
        refine ⟨F',?_,after,others⟩
        rw [used]
        cases n' <;> simp [tradeAll]

end Matching

end TradingPlatform.Orderbook

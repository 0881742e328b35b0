import TradingPlatform.MarketFeed

/-! What the REST handlers write once their wait is over. A client that decodes the body it is sent
has the answer of the sequential book to its own request, or a depth that book has had. -/
namespace TradingPlatform.Api

open Orderbook Documents Text Runs

/-- `json.NewEncoder(w).Encode`. -/
def encodeBody (d : Datum) : Bytes := marshal d ++ [10]

/-- Empty trades and an empty error are left out. -/
def Response.datum (resp : Response) : Datum :=
  .obj ([("success".toList,.bool resp.success)] ++
    (if resp.trades = [] then [] else [("trades".toList,.arr (resp.trades.map tradeDatum))]) ++
    if resp.error = "" then [] else [("error".toList,.str (utf8 resp.error.toList))])

/-- The ends of the two handlers that wait for a response. -/
def answerTo : Call → Response → Nat × Response
  | .process _, resp => (200,resp)
  | .cancel _, resp => answerCancel resp

/-- The end of `handleGetOrderBook`. -/
def orderBookBody (data : Depth) : Bytes :=
  encodeBody (.obj [("asks".toList,.arr (data.2.map levelDatum)),("bids".toList,.arr (data.1.map levelDatum))])

structure Answer where
  success : Bool
  trades : List Trade
  error : Bytes

def Response.answer (resp : Response) : Answer := ⟨resp.success,resp.trades,utf8 resp.error.toList⟩

def answerFields : List (Slot Answer) :=
  [⟨"success".toList,intoBool fun b a => { a with success := b }⟩,
    ⟨"trades".toList,intoSlice (assign tradeFields ⟨[],[],0,0⟩) fun ts a => { a with trades := ts }⟩,
    ⟨"error".toList,intoString fun s a => { a with error := s }⟩]

def readAnswer (body : Bytes) : Option Answer := (decode body).bind (assign answerFields ⟨false,[],[]⟩)

def readDepth (body : Bytes) : Option Depth := (decode body).bind (assign depthFields ([],[]))

theorem decode_encoded (members : List (Json.Text × Datum)) (shallow : (Datum.obj members).doc.depth ≤ 10000) :
    decode (encodeBody (.obj members)) = some (Datum.obj members).doc :=
  decode_marshal (.obj members) [10] (fun other => by cases other) shallow

theorem readDepth_body (data : Depth) : readDepth (orderBookBody data) = some data := by
  have shallow := (Feed.depth data).shallow
  simp only [Feed.datum,Datum.doc,docMembers,Doc.depth,depthMembers] at shallow
  rw [readDepth,orderBookBody,decode_encoded,Option.bind_some,assign_depth]
  simp only [Datum.doc,docMembers,Doc.depth,depthMembers]
  omega

theorem Response.shallow (resp : Response) : resp.datum.doc.depth ≤ 10000 := by
  have inner := (Feed.trade resp.trades).shallow
  simp only [Feed.datum,Datum.doc,docMembers,Doc.depth,depthMembers] at inner
  simp only [Response.datum,Datum.doc]
  split <;> split <;> simp [docMembers,Doc.depth,depthMembers,Datum.doc] <;> omega

/-- A body comes back as the response it was written for: what is left out is the zero value. -/
theorem readAnswer_body (resp : Response) (text : (Feed.trade resp.trades).IsText) :
    readAnswer (encodeBody resp.datum) = some resp.answer := by
  have items (a : Answer) : intoSlice (assign tradeFields ⟨[],[],0,0⟩) (fun ts a => { a with trades := ts })
      (Datum.arr (resp.trades.map tradeDatum)).doc a = some { a with trades := resp.trades } :=
    intoSlice_written (fun t member => assign_trade t (text t member).1 (text t member).2) a
  have fields := assign_exact (show (answerFields.map Slot.name).Nodup by decide)
    ([(answerFields[0],(Datum.bool resp.success).doc)] ++
      (if resp.trades = [] then [] else [(answerFields[1],(Datum.arr (resp.trades.map tradeDatum)).doc)]) ++
      if resp.error = "" then [] else [(answerFields[2],(Datum.str (utf8 resp.error.toList)).doc)])
    (by split <;> split <;> simp [answerFields]) ⟨false,[],[]⟩
  rw [readAnswer,Response.datum,decode_encoded _ resp.shallow,Option.bind_some,Datum.doc,docMembers_eq]
  refine Eq.trans (congrArg _ (congrArg _ ?_)) (fields.trans ?_)
  · split <;> split <;> rfl
  · have nothing : utf8 [] = [] := rfl
    split <;> split <;> rename_i trades error <;>
      simp [answerFields,intoBool_written,intoString_written,items,runes_utf8_all,Response.answer,trades,error,nothing]

/-- The response at the end of a wait is the reply to the request that waits there. -/
theorem Linear.received (linear : Linear os s replies) (member : .received channel resp ∈ os) :
    ∃ (i : Nat) (req : OrderRequest) (reply : Reply), (Log.handled os)[i]? = some req ∧ req.result = channel ∧
      replies[i]? = some reply ∧ respond reply = resp := by
  obtain ⟨req,answered,own⟩ := linear.delivered (List.mem_append_left _ (Log.mem_received.mpr member))
  obtain ⟨i,found⟩ := List.mem_iff_getElem?.mp answered
  have reply : (replies.map respond)[i]? = some resp := by
    rw [← linear.answers,List.getElem?_map,found]
    rfl
  rw [List.getElem?_map] at reply
  obtain ⟨reply,known,same⟩ := Option.map_eq_some_iff.mp reply
  refine ⟨i,req,reply,?_,own,known,same⟩
  rw [Log.handled,List.getElem?_map,found]
  rfl

theorem Traces.shown (traces : Traces calls reads n) (member : data ∈ reads) :
    ∃ k ≤ n, depthAfter calls k = some data := by
  obtain ⟨ks,shown,-,below⟩ := traces
  induction shown with
  | nil => simp at member
  | cons first rest ih =>
    rcases List.mem_cons.mp member with rfl | later
    · exact ⟨_,below _ List.mem_cons_self,first⟩
    · exact ih later fun k inside => below k (List.mem_cons_of_mem _ inside)

/-- Only a cancellation is answered as one. -/
theorem cancelled_call {calls : List Call} {replies : List Reply} {i : Nat} {c : Call}
    (result : run call calls ob = some (replies,ob')) (asked : calls[i]? = some c)
    (answered : replies[i]? = some (.cancelled found)) : ∃ id', c = .cancel id' := by
  induction calls generalizing ob replies i with
  | nil => simp at asked
  | cons d calls ih =>
    obtain ⟨reply,later,ob1,first,rest,rfl⟩ := run_cons_inv result
    cases i with
    | succ i => exact ih rest asked answered
    | zero =>
      obtain rfl := Option.some.inj asked
      cases d with
      | cancel id' => exact ⟨id',rfl⟩
      | process a =>
        obtain ⟨_,_,other⟩ := Option.map_eq_some_iff.mp first
        rw [Option.some.inj answered] at other
        simp at other

/-- Only a DELETE that finds no order is answered with an error. -/
theorem status_not_found {reply : Reply} {c : Call} (suits : reply = .cancelled false → ∃ id', c = .cancel id') :
    (answerTo c (respond reply)).1 = if reply = .cancelled false then 404 else 200 := by
  cases c with
  | process a =>
    have other : reply ≠ .cancelled false := fun same => by simpa using suits same
    rw [if_neg other]
    rfl
  | cancel id' =>
    cases reply with
    | trades ts => rfl
    | cancelled found => cases found <;> rfl

/-- Whatever the handlers write is read back as what it stands for: to a POST or DELETE the reply of
the sequential book to that request in its turn, to a GET the depth of that book at some point. -/
theorem rest_answers (actions : List MarketAction) (result : run Market.step actions newMarket = some (es,m)) :
    ∃ replies, runCalls (handledCalls (engineLog es)) = some (replies,m.server.ob) ∧
      (∀ channel resp, .engine (.received channel resp) ∈ es → ∃ (i : Nat) (req : OrderRequest) (reply : Reply),
        (Log.handled (engineLog es))[i]? = some req ∧ req.result = channel ∧ replies[i]? = some reply ∧
          (answerTo req.call resp).1 = (if reply = .cancelled false then 404 else 200) ∧
          readAnswer (encodeBody resp.datum) = some (respond reply).answer) ∧
      ∀ data, .engine (.returned data) ∈ es → readDepth (orderBookBody data) = some data ∧
        ∃ k ≤ (handledCalls (engineLog es)).length, depthAfter (handledCalls (engineLog es)) k = some data := by
  have invariant := market_run result
  obtain ⟨⟨replies,linear⟩,n,cached⟩ := invariant.engine
  refine ⟨replies,linear.sequential,fun channel resp member => ?_,fun data member => ⟨readDepth_body data,?_⟩⟩
  · have inside : .received channel resp ∈ engineLog es := List.mem_filterMap.mpr ⟨_,member,rfl⟩
    obtain ⟨i,req,reply,handled,own,known,rfl⟩ := linear.received inside
    have asked : (handledCalls (engineLog es))[i]? = some req.call := by
      rw [handledCalls,List.getElem?_map,handled]
      rfl
    refine ⟨i,req,reply,handled,own,known,status_not_found fun same => ?_,readAnswer_body _ fun t traded => ?_⟩
    · exact cancelled_call linear.sequential asked (same ▸ known)
    · rw [respond_trades] at traded
      exact traded_text linear.sequential invariant.handled_text
        (List.mem_flatMap.mpr ⟨reply,List.mem_of_getElem? known,traded⟩)
  · have inside : data ∈ Log.reads (engineLog es) :=
      List.mem_filterMap.mpr ⟨.returned data,List.mem_filterMap.mpr ⟨_,member,rfl⟩,rfl⟩
    obtain ⟨k,before,shown⟩ := cached.reads.shown inside
    refine ⟨k,before.trans ?_,shown⟩
    rw [handledCalls,List.length_map]
    exact cached.within

/-- Both bots hear of the trade, and a reader looks at the book. -/
def answeredDay : List MarketAction := marketDay ++ [.receive 0,.receive 1,.getOrderBook]

def responsesTo (es : List MarketEvent) : List Response :=
  es.filterMap fun | .engine (.received _ resp) => some resp | _ => none

/-- The seller reads an answer without trades, the buyer one with the trade. -/
theorem answeredDay_answers : ∃ es m replies, run Market.step answeredDay newMarket = some (es,m) ∧
    (responsesTo es).map (fun resp => resp.trades.length) = [0,1] ∧
    runCalls (handledCalls (engineLog es)) = some (replies,m.server.ob) ∧
      (∀ channel resp, .engine (.received channel resp) ∈ es → ∃ (i : Nat) (req : OrderRequest) (reply : Reply),
        (Log.handled (engineLog es))[i]? = some req ∧ req.result = channel ∧ replies[i]? = some reply ∧
          (answerTo req.call resp).1 = (if reply = .cancelled false then 404 else 200) ∧
          readAnswer (encodeBody resp.datum) = some (respond reply).answer) ∧
      ∀ data, .engine (.returned data) ∈ es → readDepth (orderBookBody data) = some data ∧
        ∃ k ≤ (handledCalls (engineLog es)).length, depthAfter (handledCalls (engineLog es)) k = some data := by
  have sold : handlePlaceOrder (payload soldDraw.order) = .ok (drawnOrder soldDraw) :=
    drawn_accepted soldDraw rfl (by decide)
  have bought : handlePlaceOrder (payload boughtDraw.order) = .ok (drawnOrder boughtDraw) :=
    drawn_accepted boughtDraw rfl (by decide)
  have played : (run Market.step answeredDay newMarket).map (fun (es,_) =>
      (responsesTo es).map (fun resp => resp.trades.length)) = some [0,1] := by
    simp only [answeredDay,marketDay,List.cons_append,List.nil_append,run,step_post sold,step_post bought]
    decide +kernel
  obtain ⟨⟨es,m⟩,result,heard⟩ := Option.map_eq_some_iff.mp played
  obtain ⟨replies,answers⟩ := rest_answers answeredDay result
  exact ⟨es,m,replies,result,heard,answers⟩

end TradingPlatform.Api

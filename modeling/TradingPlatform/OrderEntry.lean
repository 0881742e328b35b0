import TradingPlatform.Documents
import TradingPlatform.Erasure
import TradingPlatform.LoadGenerator
import TradingPlatform.Server

/-! Orders as they come in over HTTP. `handlePlaceOrder` decodes the body of a request into a
structure and checks two of its fields; what it refuses never reaches the engine. -/
namespace TradingPlatform.Api

open Orderbook Documents Text

structure PlaceOrderReq where
  id : GoString
  side : Int64
  type : Int64
  price : UInt64
  quantity : UInt64
  deriving DecidableEq

def placeOrderFields : List (Slot PlaceOrderReq) :=
  [⟨"id".toList,intoString fun s body => { body with id := s }⟩,
    ⟨"side".toList,intoInt fun i body => { body with side := i }⟩,
    ⟨"type".toList,intoInt fun i body => { body with type := i }⟩,
    ⟨"price".toList,intoUint fun n body => { body with price := n }⟩,
    ⟨"quantity".toList,intoUint fun n body => { body with quantity := n }⟩]

/-- The status and the text of `http.Error`. -/
def invalidBody : Nat × String := (400,"invalid request body")

def missingFields : Nat × String := (400,"missing required fields")

def decodeOrder (body : Bytes) : Option PlaceOrderReq :=
  (decode body).bind (assign placeOrderFields ⟨[],0,0,0,0⟩)

/-- The handler up to its send: the error it answers with, or the order it has built. -/
def handlePlaceOrder (body : Bytes) : Except (Nat × String) OrderArgs :=
  match decodeOrder body with
  | none => .error invalidBody
  | some req =>
    if req.id = [] ∨ req.quantity = 0 then .error missingFields
    else .ok ⟨req.id,req.side,req.type,req.price,req.quantity⟩

/-- The handler's check is the one the engine's model makes on a call. -/
theorem handlePlaceOrder_accepts (result : handlePlaceOrder body = .ok a) : acceptsPlace a = true := by
  unfold handlePlaceOrder at result
  split at result
  · simp at result
  · split at result
    · simp at result
    · rename_i present
      rw [not_or] at present
      obtain rfl := Except.ok.inj result
      simp [acceptsPlace,present]

/-- A request as the bots of `pkg/loadgen` write it, with `json.Marshal`. -/
def payload (req : Loadgen.PlaceOrderReq) : Bytes :=
  marshal (.obj [("id".toList,.str req.id),("side".toList,.int req.side.toInt),("type".toList,.int req.type.toInt),
    ("price".toList,.int req.price.toNat),("quantity".toList,.int req.quantity.toNat)])

theorem placeOrderFields_distinct : (placeOrderFields.map Slot.name).Nodup := by decide

/-- The two structures of this name agree on the wire. -/
theorem decodeOrder_payload (req : Loadgen.PlaceOrderReq) (rest : Bytes) :
    decodeOrder (payload req ++ rest) =
      some ⟨utf8 (runes req.id),req.side,req.type,req.price,req.quantity⟩ := by
  have shallow : (Datum.obj [("id".toList,.str req.id),("side".toList,.int req.side.toInt),
      ("type".toList,.int req.type.toInt),("price".toList,.int req.price.toNat),
      ("quantity".toList,.int req.quantity.toNat)]).doc.depth ≤ 10000 := by
    simp [Datum.doc,docMembers,Doc.depth,depthMembers]
  have fields := assign_exact placeOrderFields_distinct
    [(placeOrderFields[0],(Datum.str req.id).doc),(placeOrderFields[1],(Datum.int req.side.toInt).doc),
      (placeOrderFields[2],(Datum.int req.type.toInt).doc),(placeOrderFields[3],(Datum.int req.price.toNat).doc),
      (placeOrderFields[4],(Datum.int req.quantity.toNat).doc)] (by simp [placeOrderFields]) ⟨[],0,0,0,0⟩
  rw [decodeOrder,payload,decode_marshal _ rest (fun other => by cases other) shallow,Option.bind_some,Datum.doc]
  refine fields.trans ?_
  simp only [placeOrderFields,List.foldlM_cons,List.foldlM_nil,List.getElem_cons_zero,List.getElem_cons_succ,
    intoString_written,intoInt_written,intoUint_written,Option.bind_eq_bind,Option.bind_some]
  rfl

/-- A request is placed as it was written, whatever comes after it; only bytes of the ID that
are no text are replaced. -/
theorem payload_placed (req : Loadgen.PlaceOrderReq) (rest : Bytes) :
    handlePlaceOrder (payload req ++ rest) =
      if req.id = [] ∨ req.quantity = 0 then .error missingFields
      else .ok ⟨utf8 (runes req.id),req.side,req.type,req.price,req.quantity⟩ := by
  have empty : utf8 (runes req.id) = [] ↔ req.id = [] := by
    rw [← runes_eq_nil (utf8 (runes req.id)),runes_utf8_all,runes_eq_nil]
  simp only [handlePlaceOrder,decodeOrder_payload,empty]

/-- The ID of a decoded order is text. -/
theorem decodeOrder_text (result : decodeOrder body = some req) : ∃ s, req.id = utf8 s := by
  obtain ⟨d,_,assigned⟩ := Option.bind_eq_some_iff.mp result
  refine assign_keeps (fun v : PlaceOrderReq => ∃ s, v.id = utf8 s) ?_ ⟨[],rfl⟩ assigned
  intro f member d v v' before set
  simp only [placeOrderFields,List.mem_cons,List.not_mem_nil,or_false] at member
  rcases member with rfl | rfl | rfl | rfl | rfl <;> dsimp only at set
  · rcases intoString_sets set with rfl | ⟨s,rfl⟩
    · exact before
    · exact ⟨s,rfl⟩
  · rcases intoInt_sets set with rfl | ⟨i,rfl⟩ <;> exact before
  · rcases intoInt_sets set with rfl | ⟨i,rfl⟩ <;> exact before
  · rcases intoUint_sets set with rfl | ⟨n,rfl⟩ <;> exact before
  · rcases intoUint_sets set with rfl | ⟨n,rfl⟩ <;> exact before

theorem handlePlaceOrder_text (result : handlePlaceOrder body = .ok a) : ∃ s, a.id = utf8 s := by
  unfold handlePlaceOrder at result
  split at result
  · simp at result
  · rename_i req decoded
    split at result
    · simp at result
    · obtain rfl := Except.ok.inj result
      exact decodeOrder_text decoded

/-- The request that asks for an order. -/
def requestFor (a : OrderArgs) : Loadgen.PlaceOrderReq := ⟨a.id,a.side,a.type,a.price,a.quantity⟩

/-- Whatever body an order was accepted from, written again it is accepted as the same order. -/
theorem accepted_order_repeats (accepted : handlePlaceOrder body = .ok a) (rest : Bytes) :
    handlePlaceOrder (payload (requestFor a) ++ rest) = .ok a := by
  obtain ⟨s,text⟩ := handlePlaceOrder_text accepted
  have checked := handlePlaceOrder_accepts accepted
  simp only [acceptsPlace,Bool.and_eq_true,decide_eq_true_eq] at checked
  simp only [handlePlaceOrder,decodeOrder_payload,requestFor,text,runes_utf8_all]
  rw [← text,if_neg (not_or.mpr checked)]

def sampleRequest : Loadgen.PlaceOrderReq := ⟨utf8 ['a'],1,0,70,3⟩

theorem sampleRequest_repeats : handlePlaceOrder (payload (requestFor ⟨utf8 ['a'],1,0,70,3⟩) ++ [32]) =
    .ok ⟨utf8 ['a'],1,0,70,3⟩ := by
  have accepted : handlePlaceOrder (payload sampleRequest) = .ok ⟨utf8 ['a'],1,0,70,3⟩ := by
    have decoded := decodeOrder_payload sampleRequest []
    have text : runes sampleRequest.id = ['a'] := runes_utf8_all ['a']
    rw [List.append_nil] at decoded
    rw [handlePlaceOrder,decoded,text]
    exact if_neg (by decide)
  exact accepted_order_repeats accepted [32]

section Traffic

open NaiveBook

/-- The order a bot has drawn, as the engine gets it. -/
def drawnOrder (d : Loadgen.Draw) : OrderArgs :=
  ⟨d.order.id,d.order.side,d.order.type,d.order.price,d.order.quantity⟩

theorem drawn_quantity (d : Loadgen.Draw) : d.order.quantity.toNat = 1 + d.qty := by
  have small := d.qty.isLt
  exact UInt64.toNat_ofNat_of_lt' (Nat.lt_of_lt_of_le (show 1 + d.qty.val < 101 by omega) (by decide))

theorem drawn_accepted (d : Loadgen.Draw) (text : d.id = utf8 s) (named : d.id ≠ []) :
    handlePlaceOrder (payload d.order) = .ok (drawnOrder d) := by
  have decoded := decodeOrder_payload d.order []
  have id : utf8 (runes d.order.id) = d.id := by
    rw [show d.order.id = d.id from rfl,text,runes_utf8_all]
  have some' : d.order.quantity ≠ 0 := by
    intro zero
    have amount := drawn_quantity d
    rw [zero,UInt64.toNat_zero] at amount
    omega
  rw [List.append_nil] at decoded
  rw [handlePlaceOrder,decoded,id]
  exact if_neg (not_or.mpr ⟨named,some'⟩)

theorem drawn_side (d : Loadgen.Draw) : (drawnOrder d).side = buy ∨ (drawnOrder d).side = sell := by
  have all : ∀ i : Fin 2, Int64.ofNat i = buy ∨ Int64.ofNat i = sell := by decide
  exact all d.side

/-- Calls under different IDs clash with nothing. -/
theorem naiveFresh_distinct {F : NaiveBook} {calls : List Call} (unused : ∀ c ∈ calls, ∀ x ∈ F, x.id ≠ c.id)
    (distinct : (calls.map Call.id).Nodup) : naiveFresh F calls = true := by
  induction calls generalizing F with
  | nil => rfl
  | cons c calls ih =>
    obtain ⟨apart,rest⟩ := List.nodup_cons.mp distinct
    refine (naiveFresh_cons c calls F).mpr ⟨?_,ih (fun d member => ?_) rest⟩
    · rintro a rfl x member
      exact unused _ List.mem_cons_self x member
    · refine call_absent (unused d (List.mem_cons_of_mem _ member)) fun same => apart ?_
      rw [same]
      exact List.mem_map_of_mem member

/-- Everything the bots of the load generator send is accepted, and however their requests are
ordered, the book answers them as the flat list does and shows what it shows. -/
theorem bots_refine_naive (draws : List Loadgen.Draw) (named : ∀ d ∈ draws, d.id ≠ [] ∧ ∃ s, d.id = utf8 s)
    (distinct : (draws.map Loadgen.Draw.id).Nodup) (few : 100 * draws.length < 2^64) :
    ∃ orders replies ob F, draws.mapM (fun d => (handlePlaceOrder (payload d.order)).toOption) = some orders ∧
      runCalls (orders.map .process) = some (replies,ob) ∧ naiveRun (orders.map .process) = some (replies,F) ∧
      viewBook ob = (F.view true,F.view false) := by
  have accepted : draws.mapM (fun d => (handlePlaceOrder (payload d.order)).toOption) = some (draws.map drawnOrder) := by
    refine mapM_each fun d member => ?_
    obtain ⟨some',s,text⟩ := named d member
    rw [drawn_accepted d text some']
    rfl
  have sides : KnownSides ((draws.map drawnOrder).map .process) := by
    intro a member
    obtain ⟨b,inside,same⟩ := List.mem_map.mp member
    obtain ⟨d,_,rfl⟩ := List.mem_map.mp inside
    rw [← Call.process.inj same]
    exact drawn_side d
  have fresh : naiveFresh [] ((draws.map drawnOrder).map .process) = true := by
    refine naiveFresh_distinct (by simp) ?_
    rw [List.map_map,List.map_map]
    exact distinct
  have bound : submitted ((draws.map drawnOrder).map .process) ≤ 100 * draws.length := by
    rw [submitted,List.map_map,List.map_map]
    have each : ∀ n ∈ draws.map ((Call.quantity ∘ Call.process) ∘ drawnOrder), n ≤ 100 := by
      intro n member
      obtain ⟨d,_,rfl⟩ := List.mem_map.mp member
      have amount : (drawnOrder d).quantity.toNat = 1 + d.qty := drawn_quantity d
      have small := d.qty.isLt
      simp only [Function.comp_apply,Call.quantity]
      omega
    simpa [Nat.mul_comm] using List.sum_le_card_nsmul _ 100 each
  obtain ⟨replies,ob,F,B,result,naive,tracks⟩ := runCalls_tracks sides fresh (by omega)
  exact ⟨_,replies,ob,F,accepted,result,naive,tracks.viewBook⟩

/-- A bot sells as much as a bot ever does. -/
def soldDraw : Loadgen.Draw := ⟨utf8 ['a'],.last 1,.rev (.last 1),.last 1999,.last 99⟩

/-- Another buys at the market, as little as possible. -/
def boughtDraw : Loadgen.Draw := ⟨utf8 ['b'],.rev (.last 1),.last 1,.last 1999,.rev (.last 99)⟩

def twoDraws : List Loadgen.Draw := [soldDraw,boughtDraw]

theorem twoDraws_refine_naive : ∃ orders replies ob F,
    twoDraws.mapM (fun d => (handlePlaceOrder (payload d.order)).toOption) = some orders ∧
    runCalls (orders.map .process) = some (replies,ob) ∧ naiveRun (orders.map .process) = some (replies,F) ∧
    viewBook ob = (F.view true,F.view false) := by
  refine bots_refine_naive twoDraws ?_ (by decide) (by decide)
  intro d member
  simp only [twoDraws,List.mem_cons,List.not_mem_nil,or_false] at member
  rcases member with rfl | rfl
  · exact ⟨by decide,['a'],rfl⟩
  · exact ⟨by decide,['b'],rfl⟩

end Traffic

end TradingPlatform.Api

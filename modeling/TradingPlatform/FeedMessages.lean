import TradingPlatform.Documents
import TradingPlatform.Server

/-! The messages of `broadcastEvent` as bytes, and that what was sent can be read off them. -/
namespace TradingPlatform.Api

open Orderbook Documents Text

/-- What the loop hands to the hub. -/
inductive Feed where
  | trade (trades : List Trade)
  | depth (data : Depth)

def tradeDatum (t : Trade) : Datum :=
  .obj [("maker_order_id".toList,.str t.makerOrderID),("taker_order_id".toList,.str t.takerOrderID),
    ("price".toList,.int t.price.toNat),("quantity".toList,.int t.quantity.toNat)]

def levelDatum (l : PriceLevel) : Datum :=
  .obj [("price".toList,.int l.price.toNat),("volume".toList,.int l.volume.toNat)]

/-- The message of `broadcastEvent`. The keys of the map with the depth are written in order. -/
def Feed.datum : Feed → Datum
  | .trade trades => .obj [("type".toList,.str (utf8 "trade".toList)),("data".toList,.arr (trades.map tradeDatum))]
  | .depth (bids,asks) => .obj [("type".toList,.str (utf8 "depth".toList)),
      ("data".toList,.obj [("asks".toList,.arr (asks.map levelDatum)),("bids".toList,.arr (bids.map levelDatum))])]

def broadcastEvent (f : Feed) : Bytes := marshal f.datum

structure Envelope where
  type : Bytes
  data : Doc

def envelopeFields : List (Slot Envelope) :=
  [⟨"type".toList,intoString fun s e => { e with type := s }⟩,⟨"data".toList,fun d e => some { e with data := d }⟩]

def tradeFields : List (Slot Trade) :=
  [⟨"maker_order_id".toList,intoString fun s t => { t with makerOrderID := s }⟩,
    ⟨"taker_order_id".toList,intoString fun s t => { t with takerOrderID := s }⟩,
    ⟨"price".toList,intoUint fun n t => { t with price := n }⟩,
    ⟨"quantity".toList,intoUint fun n t => { t with quantity := n }⟩]

def levelFields : List (Slot PriceLevel) :=
  [⟨"price".toList,intoUint fun n l => { l with price := n }⟩,
    ⟨"volume".toList,intoUint fun n l => { l with volume := n }⟩]

def depthFields : List (Slot Depth) :=
  [⟨"bids".toList,intoSlice (assign levelFields ⟨0,0⟩) fun ls data => (ls,data.2)⟩,
    ⟨"asks".toList,intoSlice (assign levelFields ⟨0,0⟩) fun ls data => (data.1,ls)⟩]

/-- A client that reads the feed as it was written. -/
def readFeed (bytes : Bytes) : Option Feed :=
  ((decode bytes).bind (assign envelopeFields ⟨[],.null⟩)).bind fun e =>
    if e.type = utf8 "trade".toList then
      (intoSlice (assign tradeFields ⟨[],[],0,0⟩) (fun ts _ => ts) e.data []).map .trade
    else if e.type = utf8 "depth".toList then (assign depthFields ([],[]) e.data).map .depth
    else none

def IsText (bs : Bytes) : Prop := ∃ s, bs = utf8 s

theorem IsText.runes (text : IsText bs) : utf8 (runes bs) = bs := by
  obtain ⟨s,rfl⟩ := text
  rw [runes_utf8_all]

theorem assign_trade (t : Trade) (maker : IsText t.makerOrderID) (taker : IsText t.takerOrderID) :
    assign tradeFields ⟨[],[],0,0⟩ (tradeDatum t).doc = some t := by
  have fields := assign_exact (show (tradeFields.map Slot.name).Nodup by decide)
    [(tradeFields[0],(Datum.str t.makerOrderID).doc),(tradeFields[1],(Datum.str t.takerOrderID).doc),
      (tradeFields[2],(Datum.int t.price.toNat).doc),(tradeFields[3],(Datum.int t.quantity.toNat).doc)]
    (by simp [tradeFields]) ⟨[],[],0,0⟩
  rw [tradeDatum,Datum.doc,docMembers_eq]
  refine fields.trans ?_
  simp only [tradeFields,List.foldlM_cons,List.foldlM_nil,List.getElem_cons_zero,List.getElem_cons_succ,
    intoString_written,intoUint_written,Option.bind_eq_bind,Option.bind_some,maker.runes,taker.runes]
  rfl

theorem assign_level (l : PriceLevel) : assign levelFields ⟨0,0⟩ (levelDatum l).doc = some l := by
  have fields := assign_exact (show (levelFields.map Slot.name).Nodup by decide)
    [(levelFields[0],(Datum.int l.price.toNat).doc),(levelFields[1],(Datum.int l.volume.toNat).doc)]
    (by simp [levelFields]) ⟨0,0⟩
  rw [levelDatum,Datum.doc,docMembers_eq]
  refine fields.trans ?_
  simp only [levelFields,List.foldlM_cons,List.foldlM_nil,List.getElem_cons_zero,List.getElem_cons_succ,
    intoUint_written,Option.bind_eq_bind,Option.bind_some]
  rfl

/-- The IDs a message mentions are text. -/
def Feed.IsText : Feed → Prop
  | .trade trades => ∀ t ∈ trades, Api.IsText t.makerOrderID ∧ Api.IsText t.takerOrderID
  | .depth _ => True

theorem Feed.shallow (f : Feed) : f.datum.doc.depth ≤ 10000 := by
  have trade (t : Trade) : (tradeDatum t).doc.depth = 1 := by
    simp [tradeDatum,Datum.doc,docMembers,Doc.depth,depthMembers]
  have level (l : PriceLevel) : (levelDatum l).doc.depth = 1 := by
    simp [levelDatum,Datum.doc,docMembers,Doc.depth,depthMembers]
  have levels (ls : List PriceLevel) : depths (docs (ls.map levelDatum)) ≤ 1 := by
    rw [docs_eq,List.map_map]
    refine depths_le fun d member => ?_
    obtain ⟨l,_,rfl⟩ := List.mem_map.mp member
    exact (level l).le
  cases f with
  | trade trades =>
    have all : depths (docs (trades.map tradeDatum)) ≤ 1 := by
      rw [docs_eq,List.map_map]
      refine depths_le fun d member => ?_
      obtain ⟨t,_,rfl⟩ := List.mem_map.mp member
      exact (trade t).le
    simp only [Feed.datum,Datum.doc,docMembers,Doc.depth,depthMembers]
    omega
  | depth data =>
    have bids := levels data.1
    have asks := levels data.2
    simp only [Feed.datum,Datum.doc,docMembers,Doc.depth,depthMembers]
    omega

theorem assign_envelope (s : Json.Text) (d : Datum) :
    assign envelopeFields ⟨[],.null⟩ (Datum.obj [("type".toList,.str (utf8 s)),("data".toList,d)]).doc =
      some ⟨utf8 s,d.doc⟩ := by
  have fields := assign_exact (show (envelopeFields.map Slot.name).Nodup by decide)
    [(envelopeFields[0],(Datum.str (utf8 s)).doc),(envelopeFields[1],d.doc)] (by simp [envelopeFields]) ⟨[],.null⟩
  rw [Datum.doc,docMembers_eq]
  refine fields.trans ?_
  simp only [envelopeFields,List.foldlM_cons,List.foldlM_nil,List.getElem_cons_zero,List.getElem_cons_succ,
    intoString_written,runes_utf8_all,Option.bind_eq_bind,Option.bind_some]
  rfl

theorem assign_depth (data : Depth) : assign depthFields ([],[])
    (Datum.obj [("asks".toList,.arr (data.2.map levelDatum)),("bids".toList,.arr (data.1.map levelDatum))]).doc =
      some data := by
  have fields := assign_exact (show (depthFields.map Slot.name).Nodup by decide)
    [(depthFields[1],(Datum.arr (data.2.map levelDatum)).doc),(depthFields[0],(Datum.arr (data.1.map levelDatum)).doc)]
    (by simp [depthFields]) ([],[])
  rw [Datum.doc,docMembers_eq]
  refine fields.trans ?_
  simp only [depthFields,List.foldlM_cons,List.foldlM_nil,List.getElem_cons_zero,List.getElem_cons_succ,
    intoSlice_written (fun l _ => assign_level l),Option.bind_eq_bind,Option.bind_some]
  rfl

/-- A message comes back from its bytes. -/
theorem readFeed_broadcast (f : Feed) (text : f.IsText) : readFeed (broadcastEvent f) = some f := by
  have decoded := decode_marshal f.datum [] (fun other => by cases f <;> cases other) f.shallow
  rw [List.append_nil] at decoded
  cases f with
  | trade trades =>
    have items : intoSlice (assign tradeFields ⟨[],[],0,0⟩) (fun ts _ => ts) (Datum.arr (trades.map tradeDatum)).doc [] =
        some trades :=
      intoSlice_written (fun t member => assign_trade t (text t member).1 (text t member).2) []
    rw [readFeed,broadcastEvent,decoded,Option.bind_some,Feed.datum,assign_envelope,Option.bind_some]
    simp only [if_true,items,Option.map_some]
  | depth data =>
    have other : utf8 "depth".toList ≠ utf8 "trade".toList := fun same => absurd (utf8_injective same) (by decide)
    rw [readFeed,broadcastEvent,decoded,Option.bind_some,Feed.datum,assign_envelope,Option.bind_some]
    simp only [other,if_false,if_true,assign_depth,Option.map_some]

end TradingPlatform.Api

import TradingPlatform.FixSession

/-! FIX messages on a byte stream. TCP may cut the stream anywhere, and the handler takes
every read for a message. Cut at the ends of the messages, each message gets its own reply;
other cuts lose some. -/
namespace TradingPlatform.Fix

open Text

/-- A complete message ends with its checksum field and fits the read buffer. -/
structure FixMessage where
  body : List Field
  checksum : Field
  trailer : checksum.tag = 10
  short : (encodeFields (body ++ [checksum])).length < 4096

def FixMessage.encode (m : FixMessage) : Bytes := encodeFields (m.body ++ [m.checksum])

def FixMessage.fields (m : FixMessage) : List (Int × Bytes) :=
  (m.body ++ [m.checksum]).map fun f => ((f.tag : Int),f.value)

theorem not_mem_formatPadded (n : Nat) : SOH ∉ formatPadded n := by
  intro member
  rcases List.mem_append.mp member with zero | digit
  · cases (List.mem_replicate.mp zero).2
  · exact not_mem_decimal n rfl digit

def byteSum (data : Bytes) : Nat := (data.map UInt8.toNat).sum

def beginField : Field := ⟨8,ascii "FIX.4.2",by decide,by decide⟩

def typeField (msgType : Bytes) (typed : SOH ∉ msgType) : Field := ⟨35,msgType,by decide,typed⟩

def lengthField (content : List Field) : Field :=
  ⟨9,decimal (encodeFields content).length,by decide,not_mem_decimal _ rfl⟩

/-- The sum of all bytes before it. -/
def checksumField (covered : List Field) : Field :=
  ⟨10,formatPadded (byteSum (encodeFields covered) % 256),by decide,not_mem_formatPadded _⟩

/-- What the reads of a connection may return when the client writes this stream. -/
def Segments (stream : Bytes) (reads : List Bytes) : Prop :=
  reads.flatten = stream ∧ ∀ read ∈ reads, read ≠ [] ∧ read.length ≤ 4096

def streamOf (messages : List FixMessage) : Bytes := messages.flatMap FixMessage.encode

theorem FixMessage.fieldsOf_encode (m : FixMessage) : fieldsOf m.encode = some m.fields :=
  Fix.fieldsOf_encode (m.body ++ [m.checksum])

theorem FixMessage.encode_ne_nil (m : FixMessage) : m.encode ≠ [] := by
  simp [FixMessage.encode,encodeFields,Field.encode]

theorem segments_messages (messages : List FixMessage) :
    Segments (streamOf messages) (messages.map FixMessage.encode) := by
  refine ⟨(List.flatMap_def ..).symm,?_⟩
  intro read member
  obtain ⟨m,_,rfl⟩ := List.mem_map.mp member
  exact ⟨m.encode_ne_nil,Nat.le_of_lt m.short⟩

theorem messages_packets (messages : List FixMessage) :
    (messages.map FixMessage.encode).filterMap fieldsOf = messages.map FixMessage.fields := by
  simp [List.filterMap_map,FixMessage.fieldsOf_encode]

/-- No packet made of these bytes alone would be answered. -/
def Silent (chunk : Bytes) : Prop := ∀ fields, fieldsOf chunk = some fields → answered fields = false

theorem silent_nil : Silent [] := by
  intro fields packet
  obtain rfl := Option.some.inj ((fieldsOf_plain (by simp)).symm.trans packet)
  rfl

theorem silent_byte (b : UInt8) : Silent [b] := by
  intro fields packet
  by_cases same : b = equalsSign
  · subst same
    have bad : fieldsOf [equalsSign] = none := fieldsOf_bad (List.not_mem_nil) rfl []
    cases bad.symm.trans packet
  · have plain : equalsSign ∉ [b] := by simpa using Ne.symm same
    obtain rfl := Option.some.inj ((fieldsOf_plain plain).symm.trans packet)
    rfl

theorem silent_reads {reads : List Bytes} (silent : ∀ read ∈ reads, Silent read) :
    (reads.filterMap fieldsOf).filter answered = [] := by
  apply List.filter_eq_nil_iff.mpr
  intro fields member
  obtain ⟨read,inside,packet⟩ := List.mem_filterMap.mp member
  simp [silent read inside fields packet]

theorem Segments.chunk {read : Bytes} (segments : Segments stream reads) (member : read ∈ reads) :
    read <:+: stream ∧ read.length ≤ 4096 := by
  obtain ⟨front,back,rfl⟩ := List.append_of_mem member
  refine ⟨⟨front.flatten,back.flatten,?_⟩,(segments.2 read member).2⟩
  rw [← segments.1]
  simp

theorem segments_bytes (data : Bytes) : Segments data (data.map fun b => [b]) := by
  refine ⟨?_,?_⟩
  · induction data with
    | nil => rfl
    | cons b data ih => simp [ih]
  · intro read member
    obtain ⟨b,_,rfl⟩ := List.mem_map.mp member
    simp

/-- Any short piece of the stream may arrive as a read of its own, among single bytes. -/
theorem segments_around (front chunk back : Bytes) (held : chunk ≠ []) (short : chunk.length ≤ 4096) :
    Segments (front ++ chunk ++ back) (front.map (fun b => [b]) ++ chunk :: back.map fun b => [b]) := by
  obtain ⟨whole,small⟩ := segments_bytes front
  obtain ⟨whole',small'⟩ := segments_bytes back
  refine ⟨by simp [whole,whole'],?_⟩
  intro read member
  rcases List.mem_append.mp member with early | later
  · exact small read early
  · rcases List.mem_cons.mp later with rfl | late
    · exact ⟨held,short⟩
    · exact small' read late

section Requests

theorem cut_unique (same : front ++ SOH :: back = front' ++ SOH :: back') (clean : SOH ∉ front) (clean' : SOH ∉ front') :
    front = front' ∧ back = back' := by
  have cuts := congrArg (cut SOH) same
  rw [cut_first clean,cut_first clean'] at cuts
  exact Prod.mk.inj (Option.some.inj cuts)

theorem decimal_injective (same : decimal n = decimal n') : n = n' := by
  have values := congrArg (decimalValue 0) same
  rw [decimalValue_decimal,decimalValue_decimal] at values
  exact Option.some.inj values

/-- The length in the header says where the content of a message ends. -/
theorem framed_injective
    (same : ascii "8=FIX.4.2\x019=" ++ decimal raw.length ++ [SOH] ++ raw ++ ascii "10=" ++ sum ++ [SOH] =
      ascii "8=FIX.4.2\x019=" ++ decimal raw'.length ++ [SOH] ++ raw' ++ ascii "10=" ++ sum' ++ [SOH]) :
    raw = raw' := by
  simp only [List.append_assoc,List.append_cancel_left_eq,List.singleton_append] at same
  obtain ⟨length,rest⟩ := cut_unique same (not_mem_decimal _ rfl) (not_mem_decimal _ rfl)
  exact (List.append_inj rest (decimal_injective length)).1

/-- Two messages with the same number, time and sender are the same only if type, target and body
are. -/
theorem formatFIXMessage_injective (typed : SOH ∉ msgType) (typed' : SOH ∉ msgType') (addressed : SOH ∉ target)
    (addressed' : SOH ∉ target')
    (same : formatFIXMessage ts msgType seqNum sender target body =
      formatFIXMessage ts msgType' seqNum sender target' body') :
    msgType = msgType' ∧ target = target' ∧ body = body' := by
  have sender' : ascii "\x0149=" = SOH :: ascii "49=" := by decide
  have number : ascii "\x0134=" = SOH :: ascii "34=" := by decide
  have ended (head body : Bytes) : (if body ≠ [] then head ++ body ++ [SOH] else head) =
      head ++ if body ≠ [] then body ++ [SOH] else [] := by split <;> simp
  simp only [formatFIXMessage,ended] at same
  have raws := framed_injective same
  simp only [sender',number,List.append_assoc,List.cons_append,List.append_cancel_left_eq] at raws
  obtain ⟨type,rest⟩ := cut_unique raws typed typed'
  simp only [List.append_cancel_left_eq] at rest
  obtain ⟨address,rest⟩ := cut_unique rest addressed addressed'
  simp only [List.append_cancel_left_eq] at rest
  refine ⟨type,address,?_⟩
  split at rest <;> split at rest
  · simpa using rest
  · simp at rest
  · simp at rest
  · rename_i none none'
    rw [not_not.mp none,not_not.mp none']

theorem execReport_injective {orderID orderID' symbol symbol' side side' price price' qty qty' : Bytes}
    (sent : SOH ∉ sender) (sent' : SOH ∉ sender') (named : SOH ∉ orderID) (named' : SOH ∉ orderID')
    (symbolic : SOH ∉ symbol) (symbolic' : SOH ∉ symbol') (sided : SOH ∉ side) (sided' : SOH ∉ side')
    (counted : SOH ∉ qty) (counted' : SOH ∉ qty')
    (same : execReport stamp seqNum sender orderID symbol side price qty =
      execReport stamp seqNum sender' orderID' symbol' side' price' qty') :
    sender = sender' ∧ orderID = orderID' ∧ symbol = symbol' ∧ side = side' ∧ price = price' ∧ qty = qty' := by
  have order : ascii "\x0111=" = SOH :: ascii "11=" := by decide
  have side'' : ascii "\x0154=" = SOH :: ascii "54=" := by decide
  have qty'' : ascii "\x0138=" = SOH :: ascii "38=" := by decide
  have price'' : ascii "\x0144=" = SOH :: ascii "44=" := by decide
  obtain ⟨_,rfl,bodies⟩ := formatFIXMessage_injective (by decide) (by decide) sent sent' same
  simp only [order,side'',qty'',price'',List.append_assoc,List.cons_append,List.append_cancel_left_eq] at bodies
  obtain ⟨rfl,symbols⟩ := cut_unique bodies named named'
  simp only [List.append_cancel_left_eq] at symbols
  obtain ⟨rfl,sides⟩ := cut_unique symbols symbolic symbolic'
  obtain ⟨rfl,counts⟩ := cut_unique (List.append_cancel_left sides) sided sided'
  obtain ⟨rfl,prices⟩ := cut_unique (List.append_cancel_left counts) counted counted'
  exact ⟨rfl,rfl,rfl,rfl,List.append_cancel_left prices,rfl⟩

/-- The separator is in none of the values of a request. -/
def Request.Clean : Request → Prop
  | .logon senderCompID | .heartbeat senderCompID => SOH ∉ senderCompID
  | .newOrder senderCompID orderID symbol side price qty =>
    ∀ value ∈ [senderCompID,orderID,symbol,side,price,qty], SOH ∉ value

theorem request_clean (clean : ∀ f ∈ fields, SOH ∉ f.2) (asks : request fields = some r) : r.Clean := by
  have values := valueOf_clean clean
  unfold request at asks
  split at asks
  · obtain rfl := Option.some.inj asks
    exact values 49
  · split at asks
    · obtain rfl := Option.some.inj asks
      exact values 49
    · split at asks
      · obtain rfl := Option.some.inj asks
        simp [Request.Clean,values]
      · cases asks

/-- The type of the reply to a request, and the client it goes to. -/
def Request.head : Request → Bytes × Bytes
  | .logon senderCompID => (ascii "A",senderCompID)
  | .heartbeat senderCompID => (ascii "0",senderCompID)
  | .newOrder senderCompID .. => (ascii "8",senderCompID)

theorem Request.reply_head {r r' : Request} (clean : r.Clean) (clean' : r'.Clean)
    (same : r.reply seqNum stamp = r'.reply seqNum stamp) : r.head = r'.head := by
  have shape (r : Request) (clean : r.Clean) : SOH ∉ r.head.1 ∧ SOH ∉ r.head.2 ∧ ∃ body,
      r.reply seqNum stamp = formatFIXMessage stamp.time r.head.1 seqNum (ascii "ENGINE") r.head.2 body := by
    cases r with
    | logon sender => exact ⟨show SOH ∉ ascii "A" by decide,clean,_,rfl⟩
    | heartbeat sender => exact ⟨show SOH ∉ ascii "0" by decide,clean,_,rfl⟩
    | newOrder sender => exact ⟨show SOH ∉ ascii "8" by decide,clean sender (by simp),_,rfl⟩
  obtain ⟨typed,sent,body,reply⟩ := shape r clean
  obtain ⟨typed',sent',body',reply'⟩ := shape r' clean'
  rw [reply,reply'] at same
  obtain ⟨type,sender,_⟩ := formatFIXMessage_injective typed typed' sent sent' same
  exact Prod.ext type sender

/-- A reply shows the request it answers. -/
theorem Request.reply_injective {r r' : Request} (clean : r.Clean) (clean' : r'.Clean)
    (same : r.reply seqNum stamp = r'.reply seqNum stamp) : r = r' := by
  have heads := Request.reply_head clean clean' same
  cases r <;> cases r'
  case logon.logon => rw [(Prod.mk.inj heads).2]
  case heartbeat.heartbeat => rw [(Prod.mk.inj heads).2]
  case newOrder.newOrder =>
    simp only [Request.Clean,List.forall_mem_cons] at clean clean'
    obtain ⟨sent,named,symbolic,sided,_,counted,_⟩ := clean
    obtain ⟨sent',named',symbolic',sided',_,counted',_⟩ := clean'
    obtain ⟨rfl,rfl,rfl,rfl,rfl,rfl⟩ :=
      execReport_injective sent sent' named named' symbolic symbolic' sided sided' counted counted' same
    rfl
  all_goals exact absurd (Prod.mk.inj heads).1 (by decide)

/-- Lists of replies are the same only if what was asked for is. -/
theorem replies_eq_iff (clock : Nat → Stamp) {packets packets' : List (List (Int × Bytes))}
    (clean : ∀ fields ∈ packets, ∀ f ∈ fields, SOH ∉ f.2) (clean' : ∀ fields ∈ packets', ∀ f ∈ fields, SOH ∉ f.2) :
    replies clock packets = replies clock packets' ↔ requests packets = requests packets' := by
  have proper {packets : List (List (Int × Bytes))} (clean : ∀ fields ∈ packets, ∀ f ∈ fields, SOH ∉ f.2) (r : Request)
      (member : r ∈ requests packets) : r.Clean := by
    obtain ⟨fields,inside,asks⟩ := List.mem_filterMap.mp member
    exact request_clean (clean fields inside) asks
  rw [replies_requests,replies_requests]
  refine ⟨fun same => ?_,fun same => by rw [same]⟩
  have length : (requests packets).length = (requests packets').length := by simpa using congrArg List.length same
  apply List.ext_getElem length
  intro i inside inside'
  have each := List.getElem_of_eq same (by simpa using inside)
  simp only [List.getElem_mapIdx] at each
  exact Request.reply_injective (proper clean _ (List.getElem_mem inside))
    (proper clean' _ (List.getElem_mem inside')) each

end Requests

/-- Independence of the cuts means that nothing in the stream can be answered at all. -/
theorem independent_iff_silent (clock : Nat → Stamp) (messages : List FixMessage) :
    (∀ reads, Segments (streamOf messages) reads →
      handleConnection clock reads = some (replies clock (messages.map FixMessage.fields))) ↔
    ∀ chunk, chunk <:+: streamOf messages → chunk.length ≤ 4096 → Silent chunk := by
  have length (packets : List (List (Int × Bytes))) :
      (replies clock packets).length = (packets.filter answered).length := by simp [replies]
  constructor
  · rintro same chunk ⟨front,back,split⟩ short
    by_cases held : chunk = []
    · exact held ▸ silent_nil
    · have quiet : replies clock ((streamOf messages).map (fun b => [b]) |>.filterMap fieldsOf) = [] := by
        apply List.eq_nil_of_length_eq_zero
        rw [length,silent_reads fun read member => by
          obtain ⟨b,_,rfl⟩ := List.mem_map.mp member
          exact silent_byte b]
        rfl
      have bytes := same _ (segments_bytes (streamOf messages))
      have around := same _ (split ▸ segments_around front chunk back held short)
      rw [handleConnection_replies] at bytes around
      have counted := congrArg List.length (Option.some.inj (around.trans bytes.symm))
      rw [quiet,length] at counted
      have nothing := List.eq_nil_of_length_eq_zero counted
      intro fields packet
      have member : fields ∈ (front.map (fun b => [b]) ++ chunk :: back.map fun b => [b]).filterMap fieldsOf :=
        List.mem_filterMap.mpr ⟨chunk,by simp,packet⟩
      simpa using List.filter_eq_nil_iff.mp nothing fields member
  · intro silent reads segments
    have none (reads) (segments : Segments (streamOf messages) reads) :
        replies clock (reads.filterMap fieldsOf) = [] := by
      apply List.eq_nil_of_length_eq_zero
      rw [length,silent_reads fun read member => silent read (segments.chunk member).1 (segments.chunk member).2]
      rfl
    rw [handleConnection_replies,none reads segments,← messages_packets,none _ (segments_messages messages)]

/-- For one cut of the stream: the messages get their replies exactly if the reads, each taken for
a packet, ask for what the messages ask for. -/
theorem answered_iff_same_requests (clock : Nat → Stamp) (messages : List FixMessage) (reads : List Bytes) :
    handleConnection clock reads = some (replies clock (messages.map FixMessage.fields)) ↔
      requests (reads.filterMap fieldsOf) = requests (messages.map FixMessage.fields) := by
  rw [handleConnection_replies,Option.some.injEq]
  apply replies_eq_iff
  · intro fields member
    obtain ⟨read,_,packet⟩ := List.mem_filterMap.mp member
    exact fieldsOf_clean packet
  · intro fields member
    obtain ⟨m,_,rfl⟩ := List.mem_map.mp member
    exact fieldsOf_clean m.fieldsOf_encode

/-- Replies belong to reads: one for each read that is a Logon, Heartbeat or New Order Single,
in order and numbered from one. Reads that are the messages themselves give the messages their
replies, other cuts do so exactly if their reads ask for the same, and all cuts do so only where
no piece of the stream gets a reply. -/
theorem handleConnection_per_read (clock : Nat → Stamp) :
    (∀ reads : List Bytes,
      handleConnection clock reads = some (replies clock (reads.filterMap fieldsOf))) ∧
    ∀ messages : List FixMessage,
      Segments (streamOf messages) (messages.map FixMessage.encode) ∧
      handleConnection clock (messages.map FixMessage.encode) =
        some (replies clock (messages.map FixMessage.fields)) ∧
      (∀ reads, Segments (streamOf messages) reads →
        (handleConnection clock reads = some (replies clock (messages.map FixMessage.fields)) ↔
          requests (reads.filterMap fieldsOf) = requests (messages.map FixMessage.fields))) ∧
      ((∀ reads, Segments (streamOf messages) reads →
        handleConnection clock reads = some (replies clock (messages.map FixMessage.fields))) ↔
        ∀ chunk, chunk <:+: streamOf messages → chunk.length ≤ 4096 → Silent chunk) := by
  refine ⟨handleConnection_replies clock,fun messages => ⟨segments_messages messages,?_,
    fun reads _ => answered_iff_same_requests clock messages reads,independent_iff_silent clock messages⟩⟩
  rw [handleConnection_replies,messages_packets]

/-- The bytes `8=FIX.4.2|9=5|35=0|10=161|`. -/
def heartbeat : FixMessage :=
  let type := typeField (ascii "0") (by decide)
  let body := [beginField,lengthField [type],type]
  ⟨body,checksumField body,rfl,by decide⟩

example : heartbeat.encode = ascii "8=FIX.4.2\x019=5\x0135=0\x0110=161\x01" := by decide

/-- The same two heartbeats get two replies when they are read one by one, one reply when they
are read at once, and none when both cuts fall between the digits of tag 35. -/
theorem heartbeats_lost_by_segmentation :
    Segments (streamOf [heartbeat,heartbeat]) [heartbeat.encode,heartbeat.encode] ∧
    Segments (streamOf [heartbeat,heartbeat]) [heartbeat.encode ++ heartbeat.encode] ∧
    Segments (streamOf [heartbeat,heartbeat]) [heartbeat.encode.take 15,
      heartbeat.encode.drop 15 ++ heartbeat.encode.take 15,heartbeat.encode.drop 15] ∧
    (handleConnection (fun _ => ⟨[],0⟩) [heartbeat.encode,heartbeat.encode]).map List.length = some 2 ∧
    (handleConnection (fun _ => ⟨[],0⟩) [heartbeat.encode ++ heartbeat.encode]).map List.length = some 1 ∧
    (handleConnection (fun _ => ⟨[],0⟩) [heartbeat.encode.take 15,
      heartbeat.encode.drop 15 ++ heartbeat.encode.take 15,heartbeat.encode.drop 15]).map List.length =
        some 0 := by
  refine ⟨⟨?_,?_⟩,⟨?_,?_⟩,⟨?_,?_⟩,?_,?_,?_⟩ <;> decide

end TradingPlatform.Fix

import TradingPlatform.FixStream

/-! What a client can rely on in the replies of a session: they are messages of the same format,
with their own length and checksum, numbered without gaps, and they carry the values of the
packet they answer. -/
namespace TradingPlatform.Fix

open Text

theorem not_mem_formatInt (i : Int) : SOH ∉ formatInt i := by
  unfold formatInt
  split
  · simp only [List.mem_cons,not_or]
    exact ⟨by decide,not_mem_decimal _ rfl⟩
  · exact not_mem_decimal _ rfl

theorem encodeFields_append (xs ys : List Field) : encodeFields (xs ++ ys) = encodeFields xs ++ encodeFields ys := by
  simp [encodeFields]

/-- The fields between the length and the checksum, before those of the body. -/
def headFields (ts msgType : Bytes) (seqNum : Int64) (sender target : Bytes) (stamped : SOH ∉ ts)
    (typed : SOH ∉ msgType) (sent : SOH ∉ sender) (addressed : SOH ∉ target) : List Field :=
  [typeField msgType typed,⟨49,sender,by decide,sent⟩,⟨56,target,by decide,addressed⟩,
    ⟨34,formatInt seqNum.toInt,by decide,not_mem_formatInt _⟩,⟨52,ts,by decide,stamped⟩]

/-- The fields of a whole message around its content. -/
def framed (content : List Field) : List Field :=
  let covered := beginField :: lengthField content :: content
  covered ++ [checksumField covered]

theorem headFields_encode (stamped : SOH ∉ ts) (typed : SOH ∉ msgType) (sent : SOH ∉ sender)
    (addressed : SOH ∉ target) (seqNum : Int64) :
    ascii "35=" ++ msgType ++ ascii "\x0149=" ++ sender ++ ascii "\x0156=" ++ target ++ ascii "\x0134=" ++
      formatInt seqNum.toInt ++ ascii "\x0152=" ++ ts ++ [SOH] =
    encodeFields (headFields ts msgType seqNum sender target stamped typed sent addressed) := by
  have type : ascii "35=" = decimal 35 ++ [equalsSign] := by decide
  have sender' : ascii "\x0149=" = SOH :: (decimal 49 ++ [equalsSign]) := by decide
  have target' : ascii "\x0156=" = SOH :: (decimal 56 ++ [equalsSign]) := by decide
  have number : ascii "\x0134=" = SOH :: (decimal 34 ++ [equalsSign]) := by decide
  have time : ascii "\x0152=" = SOH :: (decimal 52 ++ [equalsSign]) := by decide
  simp [encodeFields,headFields,typeField,Field.encode,type,sender',target',number,time]

theorem encodeFields_last (body : List Field) (f : Field) :
    ∃ front, front ≠ [] ∧ encodeFields (body ++ [f]) = front ++ [SOH] := by
  refine ⟨encodeFields body ++ (decimal f.tag ++ equalsSign :: f.value),by simp,?_⟩
  simp [encodeFields,Field.encode]

theorem covered_encode (content : List Field) :
    encodeFields (beginField :: lengthField content :: content) =
      ascii "8=FIX.4.2\x019=" ++ decimal (encodeFields content).length ++ [SOH] ++ encodeFields content := by
  have start : ascii "8=FIX.4.2\x019=" = beginField.encode ++ (decimal 9 ++ [equalsSign]) := by decide
  simp [start,encodeFields,lengthField,Field.encode]

theorem framed_encode (content : List Field) :
    encodeFields (framed content) =
      encodeFields (beginField :: lengthField content :: content) ++ ascii "10=" ++
        formatPadded (byteSum (encodeFields (beginField :: lengthField content :: content)) % 256) ++ [SOH] := by
  have sum : ascii "10=" = decimal 10 ++ [equalsSign] := by decide
  rw [framed,encodeFields_append]
  simp [sum,encodeFields,checksumField,Field.encode]

/-- `formatFIXMessage` writes fields, when its body is fields joined by the separator. -/
theorem formatFIXMessage_framed (stamped : SOH ∉ ts) (typed : SOH ∉ msgType) (sent : SOH ∉ sender)
    (addressed : SOH ∉ target) (seqNum : Int64) (body : List Field) :
    formatFIXMessage ts msgType seqNum sender target (encodeFields body).dropLast =
      encodeFields (framed (headFields ts msgType seqNum sender target stamped typed sent addressed ++ body)) := by
  have message (raw : Bytes) (content : List Field) (same : raw = encodeFields content) :
      ascii "8=FIX.4.2\x019=" ++ decimal raw.length ++ [SOH] ++ raw ++ ascii "10=" ++
        formatPadded (byteSum (ascii "8=FIX.4.2\x019=" ++ decimal raw.length ++ [SOH] ++ raw) % 256) ++ [SOH] =
      encodeFields (framed content) := by
    rw [framed_encode,covered_encode,same]
  simp only [formatFIXMessage]
  apply message
  rw [headFields_encode stamped typed sent addressed,encodeFields_append]
  rcases List.eq_nil_or_concat body with rfl | ⟨body,f,rfl⟩
  · simp [encodeFields]
  · obtain ⟨front,held,shape⟩ := encodeFields_last body f
    rw [List.concat_eq_append,shape,List.dropLast_concat,if_pos held,List.append_assoc]

/-- The body of an execution report. -/
def orderFields (stamp : Stamp) (orderID symbol side price qty : Bytes) (named : SOH ∉ orderID)
    (symbolic : SOH ∉ symbol) (sided : SOH ∉ side) (priced : SOH ∉ price) (counted : SOH ∉ qty) : List Field :=
  [⟨37,ascii "exec-" ++ orderID,by decide,by simp [named,show SOH ∉ ascii "exec-" by decide]⟩,
    ⟨11,orderID,by decide,named⟩,
    ⟨17,ascii "trade-" ++ formatInt stamp.nanos.toInt,by decide,by
      simp [not_mem_formatInt,show SOH ∉ ascii "trade-" by decide]⟩,
    ⟨150,ascii "2",by decide,by decide⟩,⟨39,ascii "2",by decide,by decide⟩,⟨55,symbol,by decide,symbolic⟩,
    ⟨54,side,by decide,sided⟩,⟨38,qty,by decide,counted⟩,⟨44,price,by decide,priced⟩]

theorem execReport_body (stamp : Stamp) (named : SOH ∉ orderID) (symbolic : SOH ∉ symbol) (sided : SOH ∉ side)
    (priced : SOH ∉ price) (counted : SOH ∉ qty) :
    ascii "37=exec-" ++ orderID ++ ascii "\x0111=" ++ orderID ++ ascii "\x0117=trade-" ++
      formatInt stamp.nanos.toInt ++ ascii "\x01150=2\x0139=2\x0155=" ++ symbol ++ ascii "\x0154=" ++ side ++
      ascii "\x0138=" ++ qty ++ ascii "\x0144=" ++ price =
    (encodeFields (orderFields stamp orderID symbol side price qty named symbolic sided priced counted)).dropLast := by
  have exec : ascii "37=exec-" = decimal 37 ++ equalsSign :: ascii "exec-" := by decide
  have order : ascii "\x0111=" = SOH :: (decimal 11 ++ [equalsSign]) := by decide
  have trade : ascii "\x0117=trade-" = SOH :: (decimal 17 ++ equalsSign :: ascii "trade-") := by decide
  have state : ascii "\x01150=2\x0139=2\x0155=" = SOH :: (decimal 150 ++ equalsSign :: (ascii "2" ++ SOH ::
      (decimal 39 ++ equalsSign :: (ascii "2" ++ SOH :: (decimal 55 ++ [equalsSign]))))) := by decide
  have side' : ascii "\x0154=" = SOH :: (decimal 54 ++ [equalsSign]) := by decide
  have qty' : ascii "\x0138=" = SOH :: (decimal 38 ++ [equalsSign]) := by decide
  have price' : ascii "\x0144=" = SOH :: (decimal 44 ++ [equalsSign]) := by decide
  refine Eq.trans (List.dropLast_concat (b := SOH)).symm (congrArg List.dropLast ?_)
  simp [encodeFields,orderFields,Field.encode,exec,order,trade,state,side',qty',price']

/-- The body of a logon acknowledgement. -/
def logonFields : List Field := [⟨98,ascii "0",by decide,not_mem_decimal 0 rfl⟩,⟨108,ascii "30",by decide,by decide⟩]

theorem logonAck_body : ascii "98=0\x01108=30" = (encodeFields logonFields).dropLast := by decide

/-- Every reply is a framed message. An order gets its own values back. -/
theorem replyTo_framed (clean : ∀ f ∈ fields, SOH ∉ f.2) (plain : SOH ∉ stamp.time) (seqNum : Int64) :
    ∃ msgType, ∃ typed : SOH ∉ msgType, ∃ body,
      replyTo fields seqNum stamp = encodeFields (framed (headFields stamp.time msgType seqNum (ascii "ENGINE")
        (valueOf fields 49) plain typed (by decide) (valueOf_clean clean 49) ++ body)) ∧
      (∀ f ∈ body, f.tag ≠ 10) ∧
      (valueOf fields 35 = ascii "D" → body = orderFields stamp (valueOf fields 11) (valueOf fields 55)
        (valueOf fields 54) (valueOf fields 44) (valueOf fields 38) (valueOf_clean clean 11)
        (valueOf_clean clean 55) (valueOf_clean clean 54) (valueOf_clean clean 44) (valueOf_clean clean 38)) := by
  unfold replyTo
  split
  · rename_i logon
    refine ⟨ascii "A",by decide,logonFields,?_,by simp [logonFields],?_⟩
    · rw [logonAck,logonAck_body]
      exact formatFIXMessage_framed plain _ _ _ seqNum logonFields
    · intro order
      rw [logon] at order
      cases order
  · split
    · rename_i heartbeat
      refine ⟨ascii "0",by decide,[],?_,by simp,?_⟩
      · rw [hbResponse]
        exact formatFIXMessage_framed plain _ _ _ seqNum []
      · intro order
        rw [heartbeat] at order
        cases order
    · refine ⟨ascii "8",by decide,_,?_,?_,fun _ => rfl⟩
      · rw [execReport,execReport_body stamp (valueOf_clean clean 11) (valueOf_clean clean 55)
          (valueOf_clean clean 54) (valueOf_clean clean 44) (valueOf_clean clean 38)]
        exact formatFIXMessage_framed plain _ _ _ seqNum _
      · simp [orderFields]

theorem Records.tags_eq (records : Records raw tags fields) : tags.map TagValue.tag = fields.map Prod.fst := by
  have both := congrArg (List.map Prod.fst) records
  simpa [Function.comp_def] using both

/-- What `GetString` finds among the fields of a message. -/
def found (fields : List (Int × Bytes)) (tag : Int) : Bytes × Bool :=
  (valueOf fields tag,(firstValue fields tag).isSome)

theorem parse_reads (packet : fieldsOf data = some fields) :
    ∃ out, (∀ m, parse m data = some (none,out)) ∧ out.tags.map TagValue.tag = fields.map Prod.fst ∧
      ∀ tag, getString out tag = some (found fields tag) := by
  obtain ⟨err,out,parsed,rfl,outcome⟩ := parse_fields newMessage data
  rw [packet] at outcome
  obtain ⟨rfl,records⟩ := outcome
  exact ⟨out,fun _ => parsed,records.tags_eq,getString_records records⟩

/-- A read that gets a reply. -/
def speaks (read : Bytes) : Bool :=
  match parse newMessage read with
  | some (none,m) =>
    decide (getString m 35 ∈ [some (ascii "A",true),some (ascii "0",true),some (ascii "D",true)])
  | _ => false

theorem found_eq : found fields tag = (value,true) ↔ firstValue fields tag = some value := by
  unfold found valueOf
  cases firstValue fields tag <;> simp

theorem speaks_eq (read : Bytes) : speaks read = (fieldsOf read).any answered := by
  unfold speaks
  cases packet : fieldsOf read with
  | none =>
    obtain ⟨err,out,parsed,_,outcome⟩ := parse_fields newMessage read
    rw [packet] at outcome
    simp only [parsed,outcome]
    rfl
  | some fields =>
    obtain ⟨out,parsed,_,lookup⟩ := parse_reads packet
    simp only [parsed,lookup,List.mem_cons,Option.some.injEq,found_eq,List.not_mem_nil,or_false]
    simp [answered]

/-- The packets that get a reply are those of the reads that get one. -/
theorem packets_eq (reads : List Bytes) :
    (reads.filterMap fieldsOf).filter answered = (reads.filter speaks).map fun read => (fieldsOf read).getD [] := by
  induction reads with
  | nil => rfl
  | cons read reads ih =>
    cases packet : fieldsOf read with
    | none => simp [packet,speaks_eq,ih]
    | some fields =>
      cases reply : answered fields <;> simp [packet,speaks_eq,reply,ih]

def Field.pair (f : Field) : Int × Bytes := (f.tag,f.value)

theorem firstValue_absent (absent : ∀ f ∈ fields, f.1 ≠ tag) : firstValue fields tag = none := by
  simpa [firstValue] using absent

theorem firstValue_append (xs ys : List (Int × Bytes)) (tag : Int) :
    firstValue (xs ++ ys) tag = (firstValue xs tag).or (firstValue ys tag) := by
  rw [firstValue,List.find?_append,firstValue]
  cases xs.find? fun f => f.1 = tag <;> rfl

/-- What a reply promises, given the read it answers, its number in the session and the clock. -/
structure Answer (number : Nat) (stamp : Stamp) (read reply : Bytes) (inbound outbound : Message) : Prop where
  received : ∀ m, parse m read = some (none,inbound)
  parses : ∀ m, parse m reply = some (none,outbound)
  starts : (outbound.tags.map TagValue.tag).take 3 = [8,9,35]
  framing : ∃ version content sum, (∀ f ∈ content, f.tag ≠ 10) ∧ SOH ∉ version ∧
    let covered := ascii "8=" ++ version ++ ascii "\x019=" ++ decimal (encodeFields content).length ++ [SOH] ++
      encodeFields content
    reply = covered ++ ascii "10=" ++ sum ++ [SOH] ∧
    getString outbound 9 = some (decimal (encodeFields content).length,true) ∧
    getString outbound 10 = some (sum,true) ∧ sum.length = 3 ∧ unsigned sum = some (byteSum covered % 256)
  numbered : getString outbound 34 = some (formatInt (Int64.ofNat number).toInt,true)
  exact : number < 2^63 → getString outbound 34 = some (decimal number,true)
  addressed : ∃ sender present, getString inbound 49 = some (sender,present) ∧ (present = false → sender = []) ∧
    getString outbound 56 = some (sender,true)
  echoes : getString inbound 35 = some (ascii "D",true) → ∀ tag ∈ [11,55,54,38,44], ∃ value present,
    getString inbound tag = some (value,present) ∧ (present = false → value = []) ∧
    getString outbound tag = some (value,true)
  executes : getString inbound 35 = some (ascii "D",true) → ∃ value present,
    getString inbound 11 = some (value,present) ∧ (present = false → value = []) ∧
    getString outbound 37 = some (ascii "exec-" ++ value,true)
  alone : ∀ clock (s : Session), s.seqNum = Int64.ofNat number → clock s.written.length = stamp →
    ∃ msg, handleRead clock s read = some ⟨msg,s.seqNum + 1,s.written ++ [reply]⟩

theorem found_absent (fields : List (Int × Bytes)) (tag : Int) :
    (found fields tag).2 = false → (found fields tag).1 = [] := by
  unfold found valueOf
  cases firstValue fields tag <;> simp

theorem formatInt_number (small : number < 2^63) : formatInt (Int64.ofNat number).toInt = decimal number := by
  rw [Int64.toInt_ofNat_of_lt small]
  simp [formatInt]

theorem reply_answers {read : Bytes} (packet : fieldsOf read = some fields) (replied : answered fields = true)
    (plain : SOH ∉ stamp.time) (number : Nat) :
    ∃ inbound outbound, Answer number stamp read (replyTo fields (Int64.ofNat number) stamp) inbound outbound := by
  have clean := fieldsOf_clean packet
  obtain ⟨inbound,received,_,lookup⟩ := parse_reads packet
  obtain ⟨msgType,typed,body,shape,untagged,order⟩ := replyTo_framed clean plain (Int64.ofNat number)
  generalize content_eq : headFields stamp.time msgType (Int64.ofNat number) (ascii "ENGINE") (valueOf fields 49)
    plain typed (by decide) (valueOf_clean clean 49) ++ body = content at shape
  have written : fieldsOf (replyTo fields (Int64.ofNat number) stamp) = some ((framed content).map Field.pair) := by
    rw [shape]
    exact fieldsOf_encode (framed content)
  obtain ⟨outbound,parses,tags,lookup'⟩ := parse_reads written
  have value {tag : Int} {v : Bytes} (first : firstValue ((framed content).map Field.pair) tag = some v) :
      getString outbound tag = some (v,true) := by
    rw [lookup',found_eq.mpr first]
  have ordered (type : getString inbound 35 = some (ascii "D",true)) :
      valueOf fields 35 = ascii "D" := by
    rw [lookup] at type
    exact congrArg Prod.fst (Option.some.inj type)
  have others : ∀ f ∈ content, f.tag ≠ 10 := by
    intro f member
    rw [← content_eq,List.mem_append] at member
    rcases member with early | late
    · simp only [headFields,typeField,List.mem_cons,List.not_mem_nil,or_false] at early
      rcases early with rfl | rfl | rfl | rfl | rfl <;> simp
    · exact untagged f late
  have numbered : getString outbound 34 = some (formatInt (Int64.ofNat number).toInt,true) := by
    apply value
    simp [← content_eq,framed,headFields,typeField,firstValue,Field.pair,beginField,lengthField]
  refine ⟨inbound,outbound,received,parses,?_,?_,?_,?_,?_,?_,?_,?_⟩
  · rw [tags,← content_eq]
    rfl
  · have start : ascii "8=" ++ ascii "FIX.4.2" ++ ascii "\x019=" = ascii "8=FIX.4.2\x019=" := by decide
    refine ⟨ascii "FIX.4.2",content,(checksumField (beginField :: lengthField content :: content)).value,
      others,by decide,?_⟩
    rw [start,← covered_encode]
    refine ⟨shape.trans (framed_encode content),value rfl,value ?_,formatPadded_digits ?_⟩
    · rw [framed,List.map_append,firstValue_append,firstValue_absent]
      · rfl
      · simp only [List.map_cons,List.mem_cons,List.mem_map]
        rintro _ (rfl | rfl | ⟨f,member,rfl⟩)
        · simp [Field.pair,beginField]
        · simp [Field.pair,lengthField]
        · have other := others f member
          simp only [Field.pair]
          omega
    · have small := Nat.mod_lt (byteSum (encodeFields (beginField :: lengthField content :: content)))
        (show 0 < 256 by decide)
      omega
  · exact numbered
  · intro small
    rw [numbered,formatInt_number small]
  · refine ⟨_,_,lookup 49,found_absent fields 49,value ?_⟩
    simp [← content_eq,framed,headFields,typeField,firstValue,Field.pair,beginField,lengthField]
  · intro type tag member
    refine ⟨_,_,lookup tag,found_absent fields tag,value ?_⟩
    rw [← content_eq,order (ordered type)]
    simp only [List.mem_cons,List.not_mem_nil,or_false] at member
    rcases member with rfl | rfl | rfl | rfl | rfl <;>
      simp [framed,headFields,typeField,orderFields,firstValue,Field.pair,beginField,lengthField]
  · intro type
    refine ⟨_,_,lookup 11,found_absent fields 11,value ?_⟩
    rw [← content_eq,order (ordered type)]
    simp [framed,headFields,typeField,orderFields,firstValue,Field.pair,beginField,lengthField]
  · rintro clock s number rfl
    obtain ⟨msg,step⟩ := handleRead_packet clock s read
    refine ⟨msg,?_⟩
    rw [step,packet,Option.filter_some,if_pos replied,number]

/-- A session writes one message for each read that gets a reply, in order, and nothing else. Each
of them is well formed, carries its own number and echoes its own read. -/
theorem handleConnection_answers (clock : Nat → Stamp) (plain : ∀ i, SOH ∉ (clock i).time) (reads : List Bytes) :
    ∃ written, handleConnection clock reads = some written ∧
      written.length = (reads.filter speaks).length ∧
      ∀ k read reply, (reads.filter speaks)[k]? = some read → written[k]? = some reply →
        ∃ inbound outbound, Answer (k + 1) (clock k) read reply inbound outbound := by
  refine ⟨_,handleConnection_replies clock reads,?_,?_⟩
  · simp [replies,packets_eq]
  · intro k read reply source target
    have heard : speaks read = true := (List.mem_filter.mp (List.mem_of_getElem? source)).2
    rw [speaks_eq] at heard
    obtain ⟨fields,packet,replied⟩ := (Option.any_eq_true ..).mp heard
    rw [replies,packets_eq,List.getElem?_mapIdx,List.getElem?_map,source,Option.map_some,Option.map_some,packet] at target
    obtain rfl := Option.some.inj target
    exact reply_answers packet replied (plain k) (k + 1)

/-- The bytes `35=D|49=ME|11=o=1|`: a New Order Single with most of its fields missing. -/
def briefOrderSingle : Bytes := ascii "35=D\x0149=ME\x0111=o=1\x01"

def fixedClock : Nat → Stamp := fun _ => ⟨ascii "20240102-03:04:05.000",7⟩

theorem briefOrderSingle_answers :
    (∀ i, SOH ∉ (fixedClock i).time) ∧ [ascii "x=1",briefOrderSingle].filter speaks = [briefOrderSingle] ∧
    ∃ written, handleConnection fixedClock [ascii "x=1",briefOrderSingle] = some written ∧ written.length = 1 ∧
      ∀ k read reply, [briefOrderSingle][k]? = some read → written[k]? = some reply →
        ∃ inbound outbound, Answer (k + 1) (fixedClock k) read reply inbound outbound := by
  have plain : ∀ i, SOH ∉ (fixedClock i).time := by
    intro i
    show SOH ∉ ascii "20240102-03:04:05.000"
    decide
  have heard : [ascii "x=1",briefOrderSingle].filter speaks = [briefOrderSingle] := by decide
  refine ⟨plain,heard,?_⟩
  have answers := handleConnection_answers fixedClock plain [ascii "x=1",briefOrderSingle]
  rw [heard] at answers
  exact answers

end TradingPlatform.Fix

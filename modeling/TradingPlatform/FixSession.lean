import TradingPlatform.FixGrammar

/-! The session handler of `pkg/fix/session.go`. A connection is the list of what its reads
returned; every read is parsed as one message. Writes are assumed to succeed, and the log
lines are left out. -/
namespace TradingPlatform.Fix

open Text

/-- The two readings of the clock that enter a reply. -/
structure Stamp where
  time : Bytes
  nanos : Int64

def formatFIXMessage (ts msgType : Bytes) (seqNum : Int64) (sender target body : Bytes) : Bytes :=
  let head := ascii "35=" ++ msgType ++ ascii "\x0149=" ++ sender ++ ascii "\x0156=" ++ target ++
    ascii "\x0134=" ++ formatInt seqNum.toInt ++ ascii "\x0152=" ++ ts ++ [SOH]
  let raw := if body ≠ [] then head ++ body ++ [SOH] else head
  let header := ascii "8=FIX.4.2\x019=" ++ decimal raw.length ++ [SOH]
  let fullMsg := header ++ raw
  let sum := (fullMsg.map UInt8.toNat).sum
  fullMsg ++ ascii "10=" ++ formatPadded (sum % 256) ++ [SOH]

def logonAck (stamp : Stamp) (seqNum : Int64) (senderCompID : Bytes) : Bytes :=
  formatFIXMessage stamp.time (ascii "A") seqNum (ascii "ENGINE") senderCompID (ascii "98=0\x01108=30")

def hbResponse (stamp : Stamp) (seqNum : Int64) (senderCompID : Bytes) : Bytes :=
  formatFIXMessage stamp.time (ascii "0") seqNum (ascii "ENGINE") senderCompID []

def execReport (stamp : Stamp) (seqNum : Int64) (senderCompID orderID symbol side price qty : Bytes) : Bytes :=
  formatFIXMessage stamp.time (ascii "8") seqNum (ascii "ENGINE") senderCompID
    (ascii "37=exec-" ++ orderID ++ ascii "\x0111=" ++ orderID ++ ascii "\x0117=trade-" ++
      formatInt stamp.nanos.toInt ++ ascii "\x01150=2\x0139=2\x0155=" ++ symbol ++ ascii "\x0154=" ++ side ++
      ascii "\x0138=" ++ qty ++ ascii "\x0144=" ++ price)

/-- The switch on the message type. The inner `none` writes nothing. -/
def handleMessage (m : Message) (seqNum : Int64) (stamp : Stamp) : Option (Option Bytes) := do
  let (msgType,found) ← getString m 35
  if found then
    let (senderCompID,_) ← getString m 49
    let (_targetCompID,_) ← getString m 56
    if msgType = ascii "A" then some (some (logonAck stamp seqNum senderCompID))
    else if msgType = ascii "0" then some (some (hbResponse stamp seqNum senderCompID))
    else if msgType = ascii "D" then
      let (orderID,_) ← getString m 11
      let (symbol,_) ← getString m 55
      let (side,_) ← getString m 54
      let (price,_) ← getString m 44
      let (qty,_) ← getString m 38
      some (some (execReport stamp seqNum senderCompID orderID symbol side price qty))
    else some none
  else some none

/-- The variables of the loop in `handleConnection`, with what it has written. -/
structure Session where
  msg : Message
  seqNum : Int64
  written : List Bytes

/-- The clock is asked once for every reply. -/
def handleRead (clock : Nat → Stamp) (s : Session) (read : Bytes) : Option Session := do
  let (err,msg) ← parse s.msg read
  match err with
  | some _ => some { s with msg := msg }
  | none =>
    match ← handleMessage msg s.seqNum (clock s.written.length) with
    | none => some { s with msg := msg }
    | some reply => some ⟨msg,s.seqNum + 1,s.written ++ [reply]⟩

def handleConnection (clock : Nat → Stamp) (reads : List Bytes) : Option (List Bytes) :=
  (reads.foldlM (handleRead clock) ⟨newMessage,1,[]⟩).map Session.written

/-- The value of a tag, which is empty when the tag is absent. -/
def valueOf (fields : List (Int × Bytes)) (tag : Int) : Bytes := (firstValue fields tag).getD []

theorem valueOf_clean (clean : ∀ f ∈ fields, SOH ∉ f.2) (tag : Int) : SOH ∉ valueOf fields tag := by
  unfold valueOf firstValue
  cases found : fields.find? fun f => f.1 = tag with
  | none => simp
  | some f => exact clean f (List.mem_of_find?_eq_some found)

/-- Logon, Heartbeat and New Order Single are the messages that get a reply. -/
def answered (fields : List (Int × Bytes)) : Bool :=
  decide (firstValue fields 35 ∈ [some (ascii "A"),some (ascii "0"),some (ascii "D")])

def replyTo (fields : List (Int × Bytes)) (seqNum : Int64) (stamp : Stamp) : Bytes :=
  if valueOf fields 35 = ascii "A" then logonAck stamp seqNum (valueOf fields 49)
  else if valueOf fields 35 = ascii "0" then hbResponse stamp seqNum (valueOf fields 49)
  else execReport stamp seqNum (valueOf fields 49) (valueOf fields 11) (valueOf fields 55)
    (valueOf fields 54) (valueOf fields 44) (valueOf fields 38)

/-- One reply for each packet that gets one, in order, numbered from one. -/
def replies (clock : Nat → Stamp) (packets : List (List (Int × Bytes))) : List Bytes :=
  (packets.filter answered).mapIdx fun i fields => replyTo fields (Int64.ofNat (i + 1)) (clock i)

/-- What a packet asks for, as far as its reply goes. -/
inductive Request where
  | logon (senderCompID : Bytes)
  | heartbeat (senderCompID : Bytes)
  | newOrder (senderCompID orderID symbol side price qty : Bytes)
  deriving DecidableEq, Repr

def request (fields : List (Int × Bytes)) : Option Request :=
  if firstValue fields 35 = some (ascii "A") then some (.logon (valueOf fields 49))
  else if firstValue fields 35 = some (ascii "0") then some (.heartbeat (valueOf fields 49))
  else if firstValue fields 35 = some (ascii "D") then
    some (.newOrder (valueOf fields 49) (valueOf fields 11) (valueOf fields 55) (valueOf fields 54) (valueOf fields 44)
      (valueOf fields 38))
  else none

def Request.reply (seqNum : Int64) (stamp : Stamp) : Request → Bytes
  | .logon senderCompID => logonAck stamp seqNum senderCompID
  | .heartbeat senderCompID => hbResponse stamp seqNum senderCompID
  | .newOrder senderCompID orderID symbol side price qty =>
    execReport stamp seqNum senderCompID orderID symbol side price qty

/-- What a list of packets asks for, one after the other. -/
def requests (packets : List (List (Int × Bytes))) : List Request := packets.filterMap request

theorem handleMessage_fields (records : Records m.raw m.tags fields) (seqNum : Int64) (stamp : Stamp) :
    handleMessage m seqNum stamp =
      some (if answered fields then some (replyTo fields seqNum stamp) else none) := by
  simp only [handleMessage,getString_records records,Option.bind_eq_bind,Option.bind_some]
  cases type : firstValue fields 35 with
  | none => simp [answered,type]
  | some msgType =>
    simp only [answered,replyTo,valueOf,type,Option.isSome_some,if_true,Option.getD_some,List.mem_cons,
      Option.some.injEq,List.not_mem_nil,or_false]
    by_cases logon : msgType = ascii "A"
    · simp [logon]
    · by_cases heartbeat : msgType = ascii "0"
      · subst heartbeat
        simp [logon]
      · by_cases order : msgType = ascii "D"
        · subst order
          simp [logon,heartbeat]
        · simp [logon,heartbeat,order]

/-- One read: a packet that parses and gets a reply adds it, every other one adds nothing. -/
theorem handleRead_packet (clock : Nat → Stamp) (s : Session) (read : Bytes) :
    ∃ msg, handleRead clock s read = some (match (fieldsOf read).filter answered with
      | none => { s with msg := msg }
      | some fields => ⟨msg,s.seqNum + 1,s.written ++ [replyTo fields s.seqNum (clock s.written.length)]⟩) := by
  obtain ⟨err,msg,parsed,raw,outcome⟩ := parse_fields s.msg read
  refine ⟨msg,?_⟩
  simp only [handleRead,parsed,Option.bind_eq_bind,Option.bind_some]
  cases packet : fieldsOf read with
  | none =>
    rw [packet] at outcome
    simp [outcome]
  | some fields =>
    rw [packet] at outcome
    obtain ⟨rfl,records⟩ := outcome
    rw [← raw] at records
    simp only [handleMessage_fields records,Option.bind_some,Option.filter_some]
    cases answered fields <;> rfl

/-- Numbering goes on from the replies already written. -/
theorem session_replies (clock : Nat → Stamp) (reads : List Bytes) (s : Session)
    (counts : s.seqNum = Int64.ofNat (s.written.length + 1)) :
    ∃ t, reads.foldlM (handleRead clock) s = some t ∧
      t.written = s.written ++ ((reads.filterMap fieldsOf).filter answered).mapIdx fun i fields =>
        replyTo fields (Int64.ofNat (s.written.length + i + 1)) (clock (s.written.length + i)) := by
  induction reads generalizing s with
  | nil => exact ⟨s,rfl,by simp⟩
  | cons read reads ih =>
    obtain ⟨msg,step⟩ := handleRead_packet clock s read
    simp only [List.foldlM_cons,step,Option.bind_eq_bind,Option.bind_some]
    cases packet : (fieldsOf read).filter answered with
    | none =>
      have skipped : ((read :: reads).filterMap fieldsOf).filter answered =
          (reads.filterMap fieldsOf).filter answered := by
        cases fields : fieldsOf read with
        | none => simp [fields]
        | some fields' =>
          have silent : answered fields' = false := by simpa [fields,Option.filter_some] using packet
          simp [fields,silent]
      rw [skipped]
      exact ih { s with msg := msg } counts
    | some fields =>
      obtain ⟨known,speaks⟩ : fieldsOf read = some fields ∧ answered fields = true := by
        simpa [Option.filter_eq_some_iff] using packet
      obtain ⟨t,result,written⟩ := ih ⟨msg,s.seqNum + 1,
        s.written ++ [replyTo fields s.seqNum (clock s.written.length)]⟩ (by
          rw [counts,List.length_append,List.length_singleton]
          exact (Int64.ofNat_add _ _).symm)
      refine ⟨t,result,?_⟩
      have shift (i : Nat) : s.written.length + 1 + i = s.written.length + (i + 1) := by omega
      rw [written]
      simp only [List.length_append,List.length_singleton,shift,List.append_assoc]
      simp [known,speaks,counts,List.mapIdx_cons]

/-- A connection answers the packets its reads happen to be, one by one. -/
theorem handleConnection_replies (clock : Nat → Stamp) (reads : List Bytes) :
    handleConnection clock reads = some (replies clock (reads.filterMap fieldsOf)) := by
  obtain ⟨t,result,written⟩ := session_replies clock reads ⟨newMessage,1,[]⟩ rfl
  rw [handleConnection,result,Option.map_some,written]
  simp [replies]

theorem request_answered (fields : List (Int × Bytes)) (seqNum : Int64) (stamp : Stamp) :
    (request fields).map (Request.reply seqNum stamp) =
      if answered fields then some (replyTo fields seqNum stamp) else none := by
  cases type : firstValue fields 35 with
  | none => simp [request,answered,type]
  | some msgType =>
    simp only [request,answered,replyTo,valueOf,type,Option.getD_some,List.mem_cons,Option.some.injEq,
      List.not_mem_nil,or_false]
    by_cases logon : msgType = ascii "A"
    · simp [logon,Request.reply]
    · by_cases heartbeat : msgType = ascii "0"
      · subst heartbeat
        simp [logon,Request.reply]
      · by_cases order : msgType = ascii "D"
        · subst order
          simp [logon,heartbeat,Request.reply]
        · simp [logon,heartbeat,order]

/-- The replies depend on the requests alone. -/
theorem replies_requests (clock : Nat → Stamp) (packets : List (List (Int × Bytes))) :
    replies clock packets = (requests packets).mapIdx fun i r => r.reply (Int64.ofNat (i + 1)) (clock i) := by
  have shifted (k : Nat) : (packets.filter answered).mapIdx (fun i fields =>
      replyTo fields (Int64.ofNat (k + i + 1)) (clock (k + i))) =
      (requests packets).mapIdx fun i r => r.reply (Int64.ofNat (k + i + 1)) (clock (k + i)) := by
    induction packets generalizing k with
    | nil => rfl
    | cons fields packets ih =>
      have here := request_answered fields (Int64.ofNat (k + 1)) (clock k)
      cases asks : request fields with
      | none =>
        have silent : answered fields = false := by
          cases speaks : answered fields with
          | false => rfl
          | true => simp [asks,speaks] at here
        simpa [requests,asks,silent] using ih k
      | some r =>
        have speaks : answered fields = true := by
          by_contra silent
          simp [asks,silent] at here
        have first : requests (fields :: packets) = r :: requests packets := by simp [requests,asks]
        rw [asks,Option.map_some,if_pos speaks] at here
        have later := ih (k + 1)
        simp only [Nat.add_right_comm k 1] at later
        rw [List.filter_cons_of_pos speaks,first,List.mapIdx_cons,List.mapIdx_cons]
        exact congrArg₂ List.cons (Option.some.inj here).symm later
  simpa [replies] using shifted 0

end TradingPlatform.Fix

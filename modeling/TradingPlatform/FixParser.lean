import TradingPlatform.Loop
import TradingPlatform.Text

/-! The parser of `pkg/fix/parser.go`. A message keeps the bytes it was given and the
bounds of every value in them; looking a tag up slices the bytes again. -/
namespace TradingPlatform.Fix

open Loop Text

def SOH : UInt8 := 1

/-- The byte `=`. -/
def equalsSign : UInt8 := 61

structure TagValue where
  tag : Int
  start : Nat
  stop : Nat
  deriving DecidableEq, Repr

structure Message where
  raw : Bytes
  tags : List TagValue
  deriving DecidableEq, Repr

def newMessage : Message := ⟨[],[]⟩

/-- The variables of the loop in `Parse`, with the error it returns. -/
structure Parsing where
  idx : Nat
  tags : List TagValue
  err : Option String
  deriving DecidableEq, Repr

/-- The end of the value after `eqIdx`, which is the end of the data when no SOH follows. -/
def valueEnd (data : Bytes) (eqIdx : Nat) : Option Nat :=
  (slice data eqIdx data.length).map fun rest =>
    match indexByte rest SOH with
    | none => data.length - eqIdx + eqIdx
    | some sohIdx => sohIdx + eqIdx

/-- One round of the loop: a tag up to the next equals sign and its value. -/
def parseField (data : Bytes) (s : Parsing) : Option (Control Parsing) :=
  if s.idx < data.length then do
    match indexByte (← slice data s.idx data.length) equalsSign with
    | none => some (.done s)
    | some offset =>
      let eqIdx := offset + s.idx
      match atoi (← slice data s.idx eqIdx) with
      | none => some (.done { s with err := some "invalid tag format" })
      | some tagVal =>
        let sohIdx ← valueEnd data eqIdx
        some (.next { s with idx := sohIdx + 1, tags := s.tags ++ [⟨tagVal,eqIdx + 1,sohIdx⟩] })
  else some (.done s)

/-- Every round moves `idx` forward, so the length of the data bounds the rounds. The tags of
an earlier message are dropped. -/
def parse (_m : Message) (data : Bytes) : Option (Option String × Message) :=
  (iterate (parseField data) (data.length + 1) ⟨0,[],none⟩).map fun s => (s.err,⟨data,s.tags⟩)

def getFieldFrom (raw : Bytes) (tag : Int) : List TagValue → Option (Bytes × Bool)
  | [] => some ([],false)
  | t :: tags =>
    if t.tag = tag then (slice raw t.start t.stop).map fun value => (value,true)
    else getFieldFrom raw tag tags

def getField (m : Message) (tag : Int) : Option (Bytes × Bool) := getFieldFrom m.raw tag m.tags

def getString (m : Message) (tag : Int) : Option (Bytes × Bool) :=
  (getField m tag).map fun (val,found) => if found then (val,true) else ([],false)

/-- The loop of `GetInt`. Its arithmetic is that of a 64-bit `int`. -/
def digitsFrom : Int64 → Bytes → Except String Int64
  | res, [] => .ok res
  | res, b :: bs =>
    if b < 48 ∨ 57 < b then .error "invalid integer value"
    else digitsFrom (res * 10 + Int64.ofNat (b - 48).toNat) bs

def getInt (m : Message) (tag : Int) : Option (Except String Int64) :=
  (getField m tag).map fun (val,found) => if found then digitsFrom 0 val else .error "tag not found"

/-- What the parser is for: the fields of the data in order, unless a tag is not a number.
Bytes after the last field that hold no equals sign are not read. -/
def fieldsOf (data : Bytes) : Option (List (Int × Bytes)) :=
  match _found : cut equalsSign data with
  | none => some []
  | some (tag,rest) =>
    (atoi tag).bind fun tagVal =>
      match _ends : cut SOH rest with
      | none => some [(tagVal,rest)]
      | some (value,later) => (fieldsOf later).map fun fields => (tagVal,value) :: fields
termination_by data.length
decreasing_by
  have outer := cut_length _found
  have inner := cut_length _ends
  omega

theorem fieldsOf_plain (absent : equalsSign ∉ data) : fieldsOf data = some [] := by
  rw [fieldsOf]
  split
  · rfl
  · rename_i found
    simp [cut_none absent] at found

/-- A field without its SOH can only be the last one. -/
theorem fieldsOf_last (absent : equalsSign ∉ tag) (clean : SOH ∉ value) :
    fieldsOf (tag ++ equalsSign :: value) = (atoi tag).map fun tagVal => [(tagVal,value)] := by
  rw [fieldsOf]
  split
  · rename_i found
    simp [cut_first absent] at found
  · rename_i tag' rest found
    rw [cut_first absent] at found
    obtain ⟨rfl,rfl⟩ := Prod.mk.inj (Option.some.inj found)
    cases atoi tag with
    | none => rfl
    | some tagVal =>
      simp only [Option.bind_some,Option.map_some]
      split
      · rfl
      · rename_i ends
        simp [cut_none clean] at ends

theorem fieldsOf_field (absent : equalsSign ∉ tag) (clean : SOH ∉ value) (rest : Bytes) :
    fieldsOf (tag ++ equalsSign :: (value ++ SOH :: rest)) =
      (atoi tag).bind fun tagVal => (fieldsOf rest).map fun fields => (tagVal,value) :: fields := by
  rw [fieldsOf]
  split
  · rename_i found
    simp [cut_first absent] at found
  · rename_i tag' rest' found
    rw [cut_first absent] at found
    obtain ⟨rfl,rfl⟩ := Prod.mk.inj (Option.some.inj found)
    cases atoi tag with
    | none => rfl
    | some tagVal =>
      simp only [Option.bind_some]
      split
      · rename_i ends
        simp [cut_first clean] at ends
      · rename_i value' later ends
        rw [cut_first clean] at ends
        obtain ⟨rfl,rfl⟩ := Prod.mk.inj (Option.some.inj ends)
        rfl

/-- The bounds recorded for the fields cut their values out of the bytes. -/
def Records (raw : Bytes) (tags : List TagValue) (fields : List (Int × Bytes)) : Prop :=
  tags.map (fun t => (t.tag,slice raw t.start t.stop)) = fields.map fun f => (f.1,some f.2)

theorem parseField_plain (absent : equalsSign ∉ rest) (tags : List TagValue) :
    parseField (front ++ rest) ⟨front.length,tags,none⟩ = some (.done ⟨front.length,tags,none⟩) := by
  simp only [parseField]
  split
  · have none := indexByte_none.mpr absent
    simp only [slice_rest,Option.bind_eq_bind,Option.bind_some,none]
  · rfl

theorem tag_bounds (front tag rest : Bytes) (absent : equalsSign ∉ tag) :
    front.length < (front ++ (tag ++ equalsSign :: rest)).length ∧
    indexByte (tag ++ equalsSign :: rest) equalsSign = some tag.length ∧
    slice (front ++ (tag ++ equalsSign :: rest)) front.length (tag.length + front.length) = some tag := by
  refine ⟨?_,indexByte_first absent rest,?_⟩
  · simp only [List.length_append,List.length_cons]
    omega
  · rw [Nat.add_comm]
    exact slice_middle front tag (equalsSign :: rest)

theorem parseField_bad (absent : equalsSign ∉ tag) (bad : atoi tag = none) (rest : Bytes)
    (tags : List TagValue) :
    parseField (front ++ (tag ++ equalsSign :: rest)) ⟨front.length,tags,none⟩ =
      some (.done ⟨front.length,tags,some "invalid tag format"⟩) := by
  obtain ⟨inside,found,name⟩ := tag_bounds front tag rest absent
  simp only [parseField,if_pos inside,slice_rest,Option.bind_eq_bind,Option.bind_some,found,name,bad]

theorem parseField_next (absent : equalsSign ∉ tag) (good : atoi tag = some tagVal)
    (ends : valueEnd (front ++ (tag ++ equalsSign :: rest)) (tag.length + front.length) = some stop)
    (tags : List TagValue) :
    parseField (front ++ (tag ++ equalsSign :: rest)) ⟨front.length,tags,none⟩ =
      some (.next ⟨stop + 1,tags ++ [⟨tagVal,tag.length + front.length + 1,stop⟩],none⟩) := by
  obtain ⟨inside,found,name⟩ := tag_bounds front tag rest absent
  simp only [parseField,if_pos inside,slice_rest,Option.bind_eq_bind,Option.bind_some,found,name,good,ends]

theorem equalsSign_ne : SOH ≠ equalsSign := by decide

theorem valueEnd_field (clean : SOH ∉ value) (later : Bytes) :
    valueEnd (front ++ equalsSign :: (value ++ SOH :: later)) front.length =
      some (front.length + 1 + value.length) := by
  have clean' : SOH ∉ equalsSign :: value := by simp [clean,equalsSign_ne]
  have found := indexByte_first clean' later
  simp only [valueEnd,slice_rest,Option.map_some]
  rw [← List.cons_append,found]
  simp only [List.length_cons]
  congr 1
  omega

theorem valueEnd_last (clean : SOH ∉ value) :
    valueEnd (front ++ equalsSign :: value) front.length = some (front.length + 1 + value.length) := by
  have clean' : SOH ∉ equalsSign :: value := by simp [clean,equalsSign_ne]
  have absent := indexByte_none.mpr clean'
  simp only [valueEnd,slice_rest,Option.map_some,absent]
  simp only [List.length_append,List.length_cons]
  congr 1
  omega

theorem fieldsOf_bad (absent : equalsSign ∉ tag) (bad : atoi tag = none) (rest : Bytes) :
    fieldsOf (tag ++ equalsSign :: rest) = none := by
  by_cases ends : SOH ∈ rest
  · obtain ⟨value,later,rfl,clean⟩ := List.eq_append_cons_of_mem ends
    simp [fieldsOf_field absent clean,bad]
  · simp [fieldsOf_last absent ends,bad]

theorem parseField_past (past : data.length < idx) (tags : List TagValue) :
    parseField data ⟨idx,tags,none⟩ = some (.done ⟨idx,tags,none⟩) := by
  simp only [parseField]
  rw [if_neg (by omega)]

/-- The value of the first field with the tag. -/
def firstValue (fields : List (Int × Bytes)) (tag : Int) : Option Bytes :=
  (fields.find? fun f => f.1 = tag).map Prod.snd

theorem getFieldFrom_records (records : Records raw tags fields) (tag : Int) :
    getFieldFrom raw tag tags =
      some (((firstValue fields tag).getD [],(firstValue fields tag).isSome)) := by
  induction tags generalizing fields with
  | nil =>
    obtain rfl : fields = [] := by simpa [Records] using records.symm
    rfl
  | cons t tags ih =>
    cases fields with
    | nil => simp [Records] at records
    | cons f fields =>
      simp only [Records,List.map_cons,List.cons.injEq,Prod.mk.injEq] at records
      obtain ⟨⟨same,value⟩,rest⟩ := records
      by_cases here : f.1 = tag
      · simp [getFieldFrom,firstValue,same,value,here]
      · have later := ih rest
        simp only [getFieldFrom,same,here,if_false,later]
        simp [firstValue,here]

theorem getString_records (records : Records m.raw m.tags fields) (tag : Int) :
    getString m tag = some ((firstValue fields tag).getD [],(firstValue fields tag).isSome) := by
  rw [getString,getField,getFieldFrom_records records]
  cases firstValue fields tag <;> rfl

theorem fieldsOf_clean (packet : fieldsOf data = some fields) : ∀ f ∈ fields, SOH ∉ f.2 := by
  induction length : data.length using Nat.strongRecOn generalizing data fields with
  | ind n ih =>
    by_cases more : equalsSign ∈ data
    · obtain ⟨tag,tail,rfl,absent⟩ := List.eq_append_cons_of_mem more
      by_cases ends : SOH ∈ tail
      · obtain ⟨value,later,rfl,clean⟩ := List.eq_append_cons_of_mem ends
        rw [fieldsOf_field absent clean] at packet
        obtain ⟨tagVal,_,rest⟩ := Option.bind_eq_some_iff.mp packet
        obtain ⟨fields',known,rfl⟩ := Option.map_eq_some_iff.mp rest
        intro f member
        rcases List.mem_cons.mp member with rfl | inside
        · exact clean
        · exact ih later.length (by simp at length; omega) known rfl f inside
      · rw [fieldsOf_last absent ends] at packet
        obtain ⟨tagVal,_,rfl⟩ := Option.map_eq_some_iff.mp packet
        intro f member
        rw [List.mem_singleton.mp member]
        exact ends
    · rw [fieldsOf_plain more] at packet
      obtain rfl := Option.some.inj packet
      simp

end TradingPlatform.Fix

import TradingPlatform.FixParser

/-! The language of the parser: fields `tag=value` separated by SOH, with a tag that is a number
and a value that may hold anything else. The loop of `Parse` reads a longest start of the data
in this language, on the inputs it rejects too. -/
namespace TradingPlatform.Fix

open Loop Text

/-- A field as it stands in the data. -/
@[ext] structure Spelled where
  name : Bytes
  tag : Int
  value : Bytes
  number : atoi name = some tag
  clean : SOH ∉ value

def Spelled.text (f : Spelled) : Bytes := f.name ++ equalsSign :: f.value

def Spelled.pair (f : Spelled) : Int × Bytes := (f.tag,f.value)

/-- The fields with a SOH between any two of them. -/
def joined (fields : List Spelled) : Bytes := [SOH].intercalate (fields.map Spelled.text)

/-- The data is these fields, followed by nothing or by SOH and a tail without an equals sign;
without any field, it is such a tail. -/
def Spells : List Spelled → Bytes → Prop
  | [], data => equalsSign ∉ data
  | f :: fields, data => data = joined (f :: fields) ∨
      ∃ tail, equalsSign ∉ tail ∧ data = joined (f :: fields) ++ SOH :: tail

/-- The bounds of a value in data where the field begins at `pos`. -/
def Spelled.bounds (pos : Nat) (f : Spelled) : TagValue :=
  ⟨f.tag,pos + f.name.length + 1,pos + f.name.length + 1 + f.value.length⟩

def boundsFrom : Nat → List Spelled → List TagValue
  | _, [] => []
  | pos, f :: fields => f.bounds pos :: boundsFrom (pos + f.text.length + 1) fields

/-- The fields with a SOH behind each. -/
def closed (fields : List Spelled) : Bytes := fields.flatMap fun f => f.text ++ [SOH]

@[simp] theorem closed_append (xs ys : List Spelled) : closed (xs ++ ys) = closed xs ++ closed ys := by
  simp [closed]

theorem Spelled.text_length (f : Spelled) : f.text.length = f.name.length + 1 + f.value.length := by
  simp only [Spelled.text,List.length_append,List.length_cons]
  omega

theorem Spelled.nameless (f : Spelled) : equalsSign ∉ f.name :=
  not_mem_atoi f.number rfl (by decide) (by decide)

theorem joined_closed (f : Spelled) (fields : List Spelled) : joined (f :: fields) ++ [SOH] = closed (f :: fields) := by
  induction fields generalizing f with
  | nil => simp [joined,closed]
  | cons g fields ih =>
    have rest := ih g
    simp only [joined,closed,List.map_cons,List.intercalate_cons_cons,List.flatMap_cons,List.append_assoc] at rest ⊢
    rw [rest]

theorem joined_snoc (fields : List Spelled) (f : Spelled) : joined (fields ++ [f]) = closed fields ++ f.text := by
  cases fields with
  | nil => simp [joined,closed]
  | cons g fields =>
    have whole := joined_closed g (fields ++ [f])
    have last : closed [f] = f.text ++ [SOH] := by simp [closed]
    rw [← List.cons_append,closed_append,last,← List.append_assoc] at whole
    exact List.append_cancel_right whole

/-- The grammar by the fields that are closed by a SOH. -/
theorem spells_iff : Spells fields data ↔
    (∃ tail, equalsSign ∉ tail ∧ data = closed fields ++ tail) ∨ ∃ front f, fields = front ++ [f] ∧
    data = closed front ++ f.text := by
  cases fields with
  | nil => simp [Spells,closed]
  | cons f fields =>
    have closes : joined (f :: fields) ++ [SOH] = closed (f :: fields) := joined_closed f fields
    constructor
    · rintro (whole | ⟨tail,absent,more⟩)
      · obtain empty | ⟨front,last,shape⟩ := List.eq_nil_or_concat' (f :: fields)
        · simp at empty
        · exact .inr ⟨front,last,shape,by rw [whole,shape,joined_snoc]⟩
      · exact .inl ⟨tail,absent,by rw [more,← closes,List.append_assoc]; rfl⟩
    · rintro (⟨tail,absent,more⟩ | ⟨front,last,shape,whole⟩)
      · exact .inr ⟨tail,absent,by rw [more,← closes,List.append_assoc]; rfl⟩
      · exact .inl (by rw [whole,shape,joined_snoc])

theorem boundsFrom_snoc (pos : Nat) (fields : List Spelled) (f : Spelled) :
    boundsFrom pos (fields ++ [f]) = boundsFrom pos fields ++ [f.bounds (pos + (closed fields).length)] := by
  induction fields generalizing pos with
  | nil => rfl
  | cons g fields ih =>
    have length : pos + (closed (g :: fields)).length = pos + g.text.length + 1 + (closed fields).length := by
      simp only [closed,List.flatMap_cons,List.length_append,List.length_singleton]
      omega
    rw [List.cons_append,boundsFrom,boundsFrom,ih,length,List.cons_append]

/-- The round that reads one more field, whatever follows it. -/
theorem parseField_reads (f : Spelled) (front after : Bytes) (ends : after = [] ∨ ∃ later, after = SOH :: later)
    (tags : List TagValue) :
    parseField (front ++ (f.text ++ after)) ⟨front.length,tags,none⟩ =
      some (.next ⟨(front ++ f.text).length + 1,tags ++ [f.bounds front.length],none⟩) := by
  have position : f.name.length + front.length = (front ++ f.name).length := by
    rw [List.length_append,Nat.add_comm]
  have regroup : f.text ++ after = f.name ++ equalsSign :: (f.value ++ after) := by simp [Spelled.text]
  have stop : valueEnd (front ++ (f.name ++ equalsSign :: (f.value ++ after))) (f.name.length + front.length) =
      some ((front ++ f.name).length + 1 + f.value.length) := by
    rw [position,← List.append_assoc]
    rcases ends with rfl | ⟨later,rfl⟩
    · rw [List.append_nil]
      exact valueEnd_last f.clean
    · exact valueEnd_field f.clean later
  have length : (front ++ f.text).length = (front ++ f.name).length + 1 + f.value.length := by
    rw [List.length_append,f.text_length,List.length_append]
    omega
  have bounds : f.bounds front.length = ⟨f.tag,f.name.length + front.length + 1,
    (front ++ f.name).length + 1 + f.value.length⟩ := by
    simp only [Spelled.bounds,List.length_append,Nat.add_comm front.length]
  rw [regroup,length,bounds]
  exact parseField_next f.nameless f.number stop tags

/-- How far a run of the loop has come: it stands behind closed fields, or past the end of the
data when the last field is not closed. -/
def Scanned (data : Bytes) (s : Parsing) : Prop :=
  ∃ fields, s.err = none ∧ s.tags = boundsFrom 0 fields ∧
    ((∃ rest, data = closed fields ++ rest ∧ s.idx = (closed fields).length) ∨
      (∃ front f, fields = front ++ [f] ∧ data = closed front ++ f.text ∧ s.idx = data.length + 1))

/-- How it ends: all of the data is read, or the fields read so far stand before a tag that is no number. -/
inductive Outcome (data : Bytes) (fields : List Spelled) : Option String → Prop
  | accepted (spells : Spells fields data) : Outcome data fields none
  | rejected (name rest : Bytes) (absent : equalsSign ∉ name) (bad : atoi name = none)
      (shape : data = closed fields ++ (name ++ equalsSign :: rest)) : Outcome data fields (some "invalid tag format")

/-- One round behind closed fields. -/
theorem parseField_closed (fields : List Spelled) (rest : Bytes) :
    (∃ s, parseField (closed fields ++ rest) ⟨(closed fields).length,boundsFrom 0 fields,none⟩ = some (.done s) ∧
        s.tags = boundsFrom 0 fields ∧ Outcome (closed fields ++ rest) fields s.err) ∨
      ∃ s, parseField (closed fields ++ rest) ⟨(closed fields).length,boundsFrom 0 fields,none⟩ = some (.next s) ∧
        Scanned (closed fields ++ rest) s ∧ (closed fields).length < min s.idx (closed fields ++ rest).length := by
  by_cases more : equalsSign ∈ rest
  · obtain ⟨name,tail,rfl,absent⟩ := List.eq_append_cons_of_mem more
    cases known : atoi name with
    | none => exact .inl ⟨_,parseField_bad absent known tail _,rfl,.rejected name tail absent known rfl⟩
    | some tag =>
      right
      by_cases ends : SOH ∈ tail
      · obtain ⟨value,later,rfl,clean⟩ := List.eq_append_cons_of_mem ends
        have step := parseField_reads ⟨name,tag,value,known,clean⟩ (closed fields) (SOH :: later) (.inr ⟨later,rfl⟩)
          (boundsFrom 0 fields)
        simp only [Spelled.text,List.append_assoc,List.cons_append] at step
        refine ⟨_,step,⟨fields ++ [⟨name,tag,value,known,clean⟩],rfl,?_,.inl ⟨later,?_,?_⟩⟩,?_⟩
        · rw [boundsFrom_snoc,Nat.zero_add]
        · simp [closed,Spelled.text]
        · simp only [closed,Spelled.text,List.flatMap_append,List.flatMap_cons,List.flatMap_nil,List.length_append,
            List.length_cons,List.length_nil]
          omega
        · simp only [List.length_append,List.length_cons]
          omega
      · have step := parseField_reads ⟨name,tag,tail,known,ends⟩ (closed fields) [] (.inl rfl) (boundsFrom 0 fields)
        simp only [Spelled.text,List.append_nil] at step
        refine ⟨_,step,⟨fields ++ [⟨name,tag,tail,known,ends⟩],rfl,?_,.inr ⟨fields,_,rfl,rfl,rfl⟩⟩,?_⟩
        · rw [boundsFrom_snoc,Nat.zero_add]
        · simp
  · exact .inl ⟨_,parseField_plain more _,rfl,.accepted (spells_iff.mpr (.inl ⟨rest,more,rfl⟩))⟩

/-- `Parse` always returns, with the bounds of the fields it could read. -/
theorem parse_outcome (m : Message) (data : Bytes) :
    ∃ err fields, parse m data = some (err,⟨data,boundsFrom 0 fields⟩) ∧ Outcome data fields err := by
  have round (s : Parsing) (scanned : Scanned data s) :
      (∃ t, parseField data s = some (.done t) ∧ ∃ fields, t.tags = boundsFrom 0 fields ∧ Outcome data fields t.err) ∨
        ∃ t, parseField data s = some (.next t) ∧ Scanned data t ∧ data.length - t.idx < data.length - s.idx := by
    obtain ⟨idx,tags,err⟩ := s
    obtain ⟨fields,rfl,rfl,⟨rest,rfl,rfl⟩ | ⟨front,f,rfl,rfl,rfl⟩⟩ := scanned
    · rcases parseField_closed fields rest with ⟨t,left,tags,outcome⟩ | ⟨t,again,scanned,further⟩
      · exact .inl ⟨t,left,fields,tags,outcome⟩
      · exact .inr ⟨t,again,scanned,by dsimp only; omega⟩
    · refine .inl ⟨_,parseField_past (Nat.lt_succ_self _) _,_,rfl,.accepted ?_⟩
      exact spells_iff.mpr (.inr ⟨front,f,rfl,rfl⟩)
  have start : Scanned data ⟨0,[],none⟩ := ⟨[],rfl,rfl,.inl ⟨data,rfl,rfl⟩⟩
  obtain ⟨⟨idx,tags,err⟩,result,fields,rfl,outcome⟩ :=
    iterate_ends (Scanned data) _ (fun s => data.length - s.idx) round start
    (Nat.lt_succ_self data.length)
  exact ⟨err,fields,by simp [parse,result],outcome⟩

theorem fieldsOf_closed (fields : List Spelled) (rest : Bytes) :
    fieldsOf (closed fields ++ rest) = (fieldsOf rest).map (fields.map Spelled.pair ++ ·) := by
  induction fields with
  | nil => simp [closed]
  | cons f fields ih =>
    have regroup : closed (f :: fields) ++ rest =
      f.name ++ equalsSign :: (f.value ++ SOH :: (closed fields ++ rest)) := by
      simp [closed,Spelled.text]
    rw [regroup,fieldsOf_field f.nameless f.clean,f.number,ih]
    cases fieldsOf rest <;> simp [Spelled.pair]

/-- The fields the grammar finds are those of the data. -/
theorem Spells.fieldsOf (spells : Spells fields data) : fieldsOf data = some (fields.map Spelled.pair) := by
  obtain ⟨tail,absent,rfl⟩ | ⟨front,f,rfl,rfl⟩ := spells_iff.mp spells
  · simp [fieldsOf_closed,fieldsOf_plain absent]
  · rw [fieldsOf_closed,Spelled.text,fieldsOf_last f.nameless f.clean,f.number]
    simp [Spelled.pair]

/-- The first field and what follows it. -/
theorem spells_cons (spells : Spells (f :: fields) data) :
    ∃ rest, data = f.name ++ equalsSign :: (f.value ++ rest) ∧
      (rest = [] ∧ fields = [] ∨ ∃ later, rest = SOH :: later ∧ Spells fields later) := by
  obtain ⟨tail,absent,rfl⟩ | ⟨front,last,shape,rfl⟩ := spells_iff.mp spells
  · exact ⟨SOH :: (closed fields ++ tail),by simp [closed,Spelled.text],
      .inr ⟨_,rfl,spells_iff.mpr (.inl ⟨tail,absent,rfl⟩)⟩⟩
  · cases front with
    | nil =>
      obtain ⟨rfl,rfl⟩ := List.cons.inj shape
      exact ⟨[],by simp [closed,Spelled.text],.inl ⟨rfl,rfl⟩⟩
    | cons g front =>
      obtain ⟨rfl,rfl⟩ := List.cons.inj shape
      exact ⟨SOH :: (closed front ++ last.text),by simp [closed,Spelled.text],
        .inr ⟨_,rfl,spells_iff.mpr (.inr ⟨front,last,rfl,rfl⟩)⟩⟩

/-- There is one way to read the data. -/
theorem Spells.unique (spells : Spells fields data) (again : Spells fields' data) : fields = fields' := by
  induction fields generalizing fields' data with
  | nil =>
    cases fields' with
    | nil => rfl
    | cons g fields' =>
      obtain ⟨rest,rfl,_⟩ := spells_cons again
      exact absurd (by simp) (show equalsSign ∉ g.name ++ equalsSign :: (g.value ++ rest) from spells)
  | cons f fields ih =>
    obtain ⟨rest,rfl,after⟩ := spells_cons spells
    cases fields' with
    | nil => exact absurd (by simp) (show equalsSign ∉ f.name ++ equalsSign :: (f.value ++ rest) from again)
    | cons g fields' =>
      obtain ⟨rest',same,after'⟩ := spells_cons again
      -- both names end at the first equals sign, and both values at the SOH after it
      have names : cut equalsSign (f.name ++ equalsSign :: (f.value ++ rest)) = some (f.name,f.value ++ rest) :=
        cut_first f.nameless
      rw [same,cut_first g.nameless] at names
      obtain ⟨name,tail⟩ := Prod.mk.inj (Option.some.inj names)
      have tags : f.tag = g.tag := Option.some.inj (f.number.symm.trans (name ▸ g.number))
      rcases after with ⟨rfl,rfl⟩ | ⟨later,rfl,spells'⟩
      · rcases after' with ⟨rfl,rfl⟩ | ⟨later',rfl,_⟩
        · rw [List.append_nil,List.append_nil] at tail
          rw [Spelled.ext name.symm tags tail.symm]
        · rw [List.append_nil] at tail
          exact absurd (tail ▸ by simp) f.clean
      · rcases after' with ⟨rfl,rfl⟩ | ⟨later',rfl,again'⟩
        · rw [List.append_nil] at tail
          exact absurd (tail ▸ by simp) g.clean
        · have values : cut SOH (f.value ++ SOH :: later) = some (f.value,later) := cut_first f.clean
          rw [← tail,cut_first g.clean] at values
          obtain ⟨value,rfl⟩ := Prod.mk.inj (Option.some.inj values)
          rw [Spelled.ext name.symm tags value.symm,ih spells' again']

/-- The fields stand in the data one behind the other, the first of them at `pos`. -/
def Laid (data : Bytes) : Nat → List Spelled → Prop
  | _, [] => True
  | pos, f :: fields =>
    (∃ front, front.length = pos ∧ front ++ f.text <+: data) ∧ Laid data (pos + f.text.length + 1) fields

/-- The data may lack the last SOH. -/
theorem laid_of_closed (before : Bytes) (fields : List Spelled)
    (shape : data ++ [SOH] = before ++ (closed fields ++ rest)) :
    Laid data before.length fields := by
  induction fields generalizing before with
  | nil => trivial
  | cons f fields ih =>
    have whole : data ++ [SOH] = (before ++ (f.text ++ [SOH])) ++ (closed fields ++ rest) := by
      rw [shape]
      simp [closed]
    have length : (before ++ (f.text ++ [SOH])).length = before.length + f.text.length + 1 := by
      simp only [List.length_append,List.length_singleton]
      omega
    refine ⟨⟨before,rfl,?_⟩,length ▸ ih _ whole⟩
    have start : before ++ f.text <+: data ++ [SOH] := ⟨[SOH] ++ (closed fields ++ rest),by rw [whole]; simp⟩
    have total := congrArg List.length whole
    refine List.prefix_of_prefix_length_le start (List.prefix_append data [SOH]) ?_
    simp only [List.length_append,List.length_singleton] at total ⊢
    omega

/-- The fields an outcome has read stand at the start of the data. -/
theorem Outcome.laid (outcome : Outcome data fields err) : Laid data 0 fields := by
  have covers : ∃ rest, data ++ [SOH] = closed fields ++ rest := by
    cases outcome with
    | accepted spells =>
      obtain ⟨tail,_,rfl⟩ | ⟨front,f,rfl,rfl⟩ := spells_iff.mp spells
      · exact ⟨tail ++ [SOH],by simp⟩
      · exact ⟨[],by simp [closed]⟩
    | rejected name rest absent bad shape => exact ⟨name ++ equalsSign :: rest ++ [SOH],by simp [shape]⟩
  obtain ⟨rest,shape⟩ := covers
  exact laid_of_closed [] fields shape

/-- Every recorded value stands in the data behind its name. -/
theorem boundsFrom_mem (laid : Laid data pos fields) (member : t ∈ boundsFrom pos fields) :
    ∃ front, ∃ f : Spelled, front ++ f.text <+: data ∧ t = f.bounds front.length ∧ pos ≤ front.length := by
  induction fields generalizing pos with
  | nil => simp [boundsFrom] at member
  | cons f fields ih =>
    obtain ⟨⟨front,rfl,inside⟩,later⟩ := laid
    rcases List.mem_cons.mp member with rfl | behind
    · exact ⟨front,f,inside,rfl,Nat.le_refl _⟩
    · obtain ⟨front',g,inside',bounds,further⟩ := ih later behind
      exact ⟨front',g,inside',bounds,by omega⟩

theorem Spelled.slice_bounds (f : Spelled) (inside : front ++ f.text <+: data) :
    slice data (f.bounds front.length).start (f.bounds front.length).stop = some f.value := by
  obtain ⟨rest,rfl⟩ := inside
  have middle := slice_middle (front ++ (f.name ++ [equalsSign])) f.value rest
  simpa [Spelled.text,Spelled.bounds,Nat.add_assoc] using middle

theorem boundsFrom_records (laid : Laid data pos fields) :
    Records data (boundsFrom pos fields) (fields.map Spelled.pair) := by
  induction fields generalizing pos with
  | nil => rfl
  | cons f fields ih =>
    obtain ⟨⟨front,rfl,inside⟩,later⟩ := laid
    have rest : (boundsFrom (front.length + f.text.length + 1) fields).map (fun t => (t.tag,slice data t.start t.stop)) =
        (fields.map Spelled.pair).map fun f => (f.1,some f.2) := ih later
    rw [Records,boundsFrom,List.map_cons,List.map_cons,List.map_cons,rest,f.slice_bounds inside]
    rfl

/-- What holds of the recorded bounds after any `Parse`. -/
structure Within (data : Bytes) (tags : List TagValue) : Prop where
  inside : ∀ t ∈ tags, 0 < t.start ∧ t.start ≤ t.stop ∧ t.stop ≤ data.length
  named : ∀ t ∈ tags, data[t.start - 1]? = some equalsSign
  clean : ∀ t ∈ tags, ∀ i, t.start ≤ i → i < t.stop → data[i]? ≠ some SOH
  apart : tags.Pairwise fun t u => t.stop < u.start

theorem boundsFrom_apart (laid : Laid data pos fields) :
    (boundsFrom pos fields).Pairwise fun t u => t.stop < u.start := by
  induction fields generalizing pos with
  | nil => exact List.Pairwise.nil
  | cons f fields ih =>
    refine List.pairwise_cons.mpr ⟨fun u behind => ?_,ih laid.2⟩
    obtain ⟨front,g,_,rfl,further⟩ := boundsFrom_mem laid.2 behind
    rw [f.text_length] at further
    simp only [Spelled.bounds]
    omega

theorem boundsFrom_within (laid : Laid data 0 fields) : Within data (boundsFrom 0 fields) := by
  refine ⟨fun t member => ?_,fun t member => ?_,fun t member i low high => ?_,boundsFrom_apart laid⟩
  · obtain ⟨front,f,inside,rfl,_⟩ := boundsFrom_mem laid member
    have length := inside.length_le
    rw [List.length_append,f.text_length] at length
    simp only [Spelled.bounds]
    omega
  · obtain ⟨front,f,⟨rest,rfl⟩,rfl,_⟩ := boundsFrom_mem laid member
    simp [Spelled.bounds,Spelled.text]
  · obtain ⟨front,f,⟨rest,rfl⟩,rfl,_⟩ := boundsFrom_mem laid member
    simp only [Spelled.bounds] at low high
    obtain ⟨j,rfl⟩ : ∃ j, i = (front ++ (f.name ++ [equalsSign])).length + j :=
      ⟨i - (front.length + f.name.length + 1),by simp; omega⟩
    have short : j < f.value.length := by simp at high; omega
    have shape : front ++ f.text ++ rest = (front ++ (f.name ++ [equalsSign])) ++
      (f.value ++ rest) := by simp [Spelled.text]
    rw [shape,List.getElem?_append_right (Nat.le_add_right _ _),Nat.add_sub_cancel_left,List.getElem?_append_left short]
    intro byte
    exact f.clean (List.mem_of_getElem? byte)

/-- `Parse` returns the fields of its data or its one error. -/
theorem parse_fields (m : Message) (data : Bytes) :
    ∃ err m', parse m data = some (err,m') ∧ m'.raw = data ∧
      match fieldsOf data with
      | none => err = some "invalid tag format"
      | some fields => err = none ∧ Records data m'.tags fields := by
  obtain ⟨err,fields,result,outcome⟩ := parse_outcome m data
  refine ⟨err,_,result,rfl,?_⟩
  have records := boundsFrom_records outcome.laid
  cases outcome with
  | accepted spells =>
    rw [spells.fieldsOf]
    exact ⟨rfl,records⟩
  | rejected name rest absent bad shape => simp [shape,fieldsOf_closed,fieldsOf_bad absent bad]

/-- A tag that fits an `int` and a value without the separator. -/
structure Field where
  tag : Nat
  value : Bytes
  fits : tag < 2^63
  clean : SOH ∉ value

def Field.encode (f : Field) : Bytes := decimal f.tag ++ equalsSign :: (f.value ++ [SOH])

def encodeFields (fields : List Field) : Bytes := fields.flatMap Field.encode

def Field.spelled (f : Field) : Spelled := ⟨decimal f.tag,f.tag,f.value,atoi_decimal f.fits,f.clean⟩

theorem encodeFields_closed (fields : List Field) : encodeFields fields = closed (fields.map Field.spelled) := by
  rw [closed,List.flatMap_map,encodeFields]
  apply List.flatMap_congr
  intro f _
  simp [Field.encode,Field.spelled,Spelled.text]

theorem spells_encode (fields : List Field) : Spells (fields.map Field.spelled) (encodeFields fields) :=
  spells_iff.mpr (.inl ⟨[],by simp,by rw [encodeFields_closed,List.append_nil]⟩)

theorem fieldsOf_encode (fields : List Field) :
    fieldsOf (encodeFields fields) = some (fields.map fun f => ((f.tag : Int),f.value)) := by
  rw [(spells_encode fields).fieldsOf,List.map_map]
  rfl

/-- What the parser records of data that is spelled by these fields. -/
theorem Spells.parse (spells : Spells fields data) (m : Message) :
    Fix.parse m data = some (none,⟨data,boundsFrom 0 fields⟩) ∧
    Records data (boundsFrom 0 fields) (fields.map Spelled.pair) := by
  obtain ⟨err,found,result,outcome⟩ := parse_outcome m data
  have records := boundsFrom_records outcome.laid
  cases outcome with
  | accepted again =>
    obtain rfl := spells.unique again
    exact ⟨result,records⟩
  | rejected name rest absent bad shape =>
    have none := spells.fieldsOf
    simp [shape,fieldsOf_closed,fieldsOf_bad absent bad] at none

/-- `Parse` accepts exactly the data of the grammar, records exactly its fields, and looking up a
tag gives the value of the first field that has it; so what is written as fields is read back. -/
theorem parse_grammar (m : Message) :
    (∀ data, ∃ err m', parse m data = some (err,m') ∧ (err = none ↔ ∃ fields, Spells fields data) ∧
      ∀ fields, Spells fields data → m' = ⟨data,boundsFrom 0 fields⟩ ∧ Records data m'.tags (fields.map Spelled.pair) ∧
        ∀ tag, getField m' tag = some ((firstValue (fields.map Spelled.pair) tag).getD [],
          (firstValue (fields.map Spelled.pair) tag).isSome)) ∧
    ∀ fields : List Field, ∃ m', parse m (encodeFields fields) = some (none,m') ∧
      m'.tags.map (fun t => (t.tag,slice (encodeFields fields) t.start t.stop)) =
        fields.map fun f => ((f.tag : Int),some f.value) := by
  constructor
  · intro data
    obtain ⟨err,found,result,outcome⟩ := parse_outcome m data
    refine ⟨err,_,result,⟨fun accepted => ?_,fun ⟨fields,spells⟩ => ?_⟩,fun fields spells => ?_⟩
    · subst accepted
      cases outcome with
      | accepted spells => exact ⟨found,spells⟩
    · exact (Prod.mk.inj (Option.some.inj (result.symm.trans (spells.parse m).1))).1
    · obtain ⟨again,records⟩ := spells.parse m
      obtain ⟨_,same⟩ := Prod.mk.inj (Option.some.inj (result.symm.trans again))
      rw [same]
      exact ⟨rfl,records,getFieldFrom_records records⟩
  · intro fields
    obtain ⟨result,records⟩ := (spells_encode fields).parse m
    refine ⟨_,result,records.trans ?_⟩
    simp [Field.spelled,Spelled.pair]

theorem getFieldFrom_within (within : ∀ t ∈ tags, t.start ≤ t.stop ∧ t.stop ≤ raw.length) (tag : Int) :
    (getFieldFrom raw tag tags).isSome := by
  induction tags with
  | nil => rfl
  | cons t tags ih =>
    have bounds := within t List.mem_cons_self
    rw [getFieldFrom]
    split
    · simp [slice,bounds]
    · exact ih fun u member => within u (List.mem_cons_of_mem _ member)

/-- `Parse` returns on every input, and whether it reports an error or not, what it has recorded
lies in the data, so that looking a tag up never slices out of range. -/
theorem parse_within (m : Message) (data : Bytes) :
    ∃ err m', parse m data = some (err,m') ∧ m'.raw = data ∧ Within data m'.tags ∧
      ∀ tag, (getField m' tag).isSome ∧ (getString m' tag).isSome ∧ (getInt m' tag).isSome := by
  obtain ⟨err,fields,result,outcome⟩ := parse_outcome m data
  have within := boundsFrom_within outcome.laid
  refine ⟨err,_,result,rfl,within,fun tag => ?_⟩
  have field : (getField ⟨data,boundsFrom 0 fields⟩ tag).isSome :=
    getFieldFrom_within (fun t member => (within.inside t member).2) tag
  exact ⟨field,by simpa [getString] using field,by simpa [getInt] using field⟩

end TradingPlatform.Fix

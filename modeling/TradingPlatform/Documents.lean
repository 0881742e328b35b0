import TradingPlatform.Json
import TradingPlatform.Text

/-! Documents as Go's `encoding/json` writes and reads them. Strings are bytes on the Go side and
characters in a document: a byte that begins no rune becomes the replacement character on both
ways. Reading keeps every member of an object in its place, and a structure takes them in turn. -/
namespace TradingPlatform.Documents

open Text Json

def utf8 (s : Json.Text) : Bytes := s.flatMap String.utf8EncodeChar

def replacement : Char := Char.ofNat 0xFFFD

/-- `range` over a string: a rune, or nothing for a byte that begins none. -/
def decodeRunes : Nat → Bytes → List (Option Char)
  | 0, _ => []
  | _ + 1, [] => []
  | n + 1, b :: bs =>
    match (b :: bs).toByteArray.utf8DecodeChar? 0 with
    | some c => some c :: decodeRunes n (bs.drop (c.utf8Size - 1))
    | none => none :: decodeRunes n bs

def scanRunes (bs : Bytes) : List (Option Char) := decodeRunes bs.length bs

def runes (bs : Bytes) : Json.Text := (scanRunes bs).map fun r => r.getD replacement

/-- What is marshalled: booleans, integers, floats by their token, strings, slices, and structures
or maps with their members in the order in which they are written. -/
inductive Datum where
  | bool (b : Bool)
  | int (i : Int)
  | num (n : Number)
  | str (s : Bytes)
  | arr (items : List Datum)
  | obj (members : List (Json.Text × Datum))

inductive Doc where
  | null
  | bool (b : Bool)
  | num (token : Json.Text)
  | str (s : Json.Text)
  | arr (items : List Doc)
  | obj (members : List (Json.Text × Doc))

def numeral (i : Int) : Json.Text :=
  if i < 0 then '-' :: Nat.toDigits 10 i.natAbs else Nat.toDigits 10 i.natAbs

def writeRune : Option Char → Json.Text
  | some c => escape c
  | none => unicodeEscape 0xFFFD

def writeString (bs : Bytes) : Json.Text := '"' :: ((scanRunes bs).flatMap writeRune ++ ['"'])

mutual

def write : Datum → Json.Text
  | .bool b => (if b then "true" else "false").toList
  | .int i => numeral i
  | .num n => n.token
  | .str s => writeString s
  | .arr items => '[' :: writeItems items
  | .obj members => '{' :: writeMembers members

def writeItems : List Datum → Json.Text
  | [] => [']']
  | [d] => write d ++ [']']
  | d :: d' :: ds => write d ++ ',' :: writeItems (d' :: ds)

def writeMembers : List (Json.Text × Datum) → Json.Text
  | [] => ['}']
  | [(name,d)] => quote name ++ ':' :: write d ++ ['}']
  | (name,d) :: m :: ms => quote name ++ ':' :: write d ++ ',' :: writeMembers (m :: ms)

end

/-- `json.Marshal`. -/
def marshal (d : Datum) : Bytes := utf8 (write d)

mutual

def Datum.doc : Datum → Doc
  | .bool b => .bool b
  | .int i => .num (numeral i)
  | .num n => .num n.token
  | .str s => .str (runes s)
  | .arr items => .arr (docs items)
  | .obj members => .obj (docMembers members)

def docs : List Datum → List Doc
  | [] => []
  | d :: ds => d.doc :: docs ds

def docMembers : List (Json.Text × Datum) → List (Json.Text × Doc)
  | [] => []
  | (name,d) :: ms => (name,d.doc) :: docMembers ms

end

def Datum.numeric : Datum → Bool
  | .int _ | .num _ => true
  | _ => false

def high (u : UInt16) : Bool := 0xD800 ≤ u && u < 0xDC00

def low (u : UInt16) : Bool := 0xDC00 ≤ u && u < 0xE000

def unit (u : UInt16) : Char := if high u || low u then replacement else Char.ofNat u.toNat

/-- Two halves of a pair are one character, and a half on its own is replaced. -/
def fromUnits : List UInt16 → Json.Text
  | [] => []
  | [u] => [unit u]
  | u :: v :: us =>
    if high u && low v then Char.ofNat (0x10000 + (u.toNat - 0xD800) * 0x400 + (v.toNat - 0xDC00)) :: fromUnits us
    else unit u :: fromUnits (v :: us)

def word (w : Json.Text) (d : Doc) (text : Json.Text) : Option (Doc × Json.Text) :=
  if text.take w.length = w then some (d,text.drop w.length) else none

def scalar (text : Json.Text) : Option (Doc × Json.Text) :=
  match text with
  | '"' :: rest => (string rest).map fun (us,rest) => (.str (fromUnits us),rest)
  | 't' :: _ => word "true".toList (.bool true) text
  | 'f' :: _ => word "false".toList (.bool false) text
  | 'n' :: _ => word "null".toList .null text
  | _ => (number text).map fun (token,rest) => (.num token,rest)

mutual

def value : Nat → Json.Text → Option (Doc × Json.Text)
  | 0, _ => none
  | fuel + 1, text =>
    match skip text with
    | '{' :: rest => if (skip rest).head? = some '}' then some (.obj [],(skip rest).tail) else members fuel [] rest
    | '[' :: rest => if (skip rest).head? = some ']' then some (.arr [],(skip rest).tail) else elements fuel [] rest
    | text => scalar text

def members : Nat → List (Json.Text × Doc) → Json.Text → Option (Doc × Json.Text)
  | 0, _, _ => none
  | fuel + 1, done, text =>
    match skip text with
    | '"' :: rest => (string rest).bind fun (key,rest) =>
      match skip rest with
      | ':' :: rest => (value fuel rest).bind fun (d,rest) =>
        match skip rest with
        | ',' :: rest => members fuel (done ++ [(fromUnits key,d)]) rest
        | '}' :: rest => some (.obj (done ++ [(fromUnits key,d)]),rest)
        | _ => none
      | _ => none
    | _ => none

def elements : Nat → List Doc → Json.Text → Option (Doc × Json.Text)
  | 0, _, _ => none
  | fuel + 1, done, text => (value fuel text).bind fun (d,rest) =>
    match skip rest with
    | ',' :: rest => elements fuel (done ++ [d]) rest
    | ']' :: rest => some (.arr (done ++ [d]),rest)
    | _ => none

end

mutual

def Doc.depth : Doc → Nat
  | .arr items => depths items + 1
  | .obj members => depthMembers members + 1
  | _ => 0

def depths : List Doc → Nat
  | [] => 0
  | d :: ds => max d.depth (depths ds)

def depthMembers : List (Json.Text × Doc) → Nat
  | [] => 0
  | (_,d) :: ms => max d.depth (depthMembers ms)

end

/-- The first document of a stream; what follows it is not read. A level of nesting takes a
character at least and two calls at most; the scanner gives up beyond ten thousand levels. -/
def decode (body : Bytes) : Option Doc :=
  (value (2 * (runes body).length + 2) (runes body)).bind fun (d,_) => if d.depth ≤ 10000 then some d else none

/-- `json.Unmarshal` up to the assignment: one document, and nothing but white space after it. -/
def document (data : Bytes) : Option Doc :=
  (value (2 * (runes data).length + 2) (runes data)).bind fun (d,rest) =>
    if skip rest = [] ∧ d.depth ≤ 10000 then some d else none

section Runes

theorem decodeRunes_enough (enough : bs.length ≤ n) : decodeRunes n bs = scanRunes bs := by
  induction n using Nat.strongRecOn generalizing bs with
  | ind n ih =>
    cases bs with
    | nil => cases n <;> rfl
    | cons b bs =>
      obtain ⟨n,rfl⟩ : ∃ k, n = k + 1 := ⟨n - 1,by simp at enough; omega⟩
      have within : bs.length ≤ n := by simpa using enough
      simp only [scanRunes,List.length_cons,decodeRunes]
      cases (b :: bs).toByteArray.utf8DecodeChar? 0 with
      | none => simp only [ih n (by omega) within,scanRunes]
      | some c =>
        have shorter : (bs.drop (c.utf8Size - 1)).length ≤ bs.length := by simp
        simp only [ih n (by omega) (shorter.trans within)]
        rcases Nat.lt_or_eq_of_le within with less | same
        · rw [ih bs.length (by omega) shorter]
        · rw [same,ih n (by omega) (same ▸ shorter)]

theorem scanRunes_rune (c : Char) (rest : Bytes) :
    scanRunes (String.utf8EncodeChar c ++ rest) = some c :: scanRunes rest := by
  have size := String.length_utf8EncodeChar c
  have decoded : (String.utf8EncodeChar c ++ rest).toByteArray.utf8DecodeChar? 0 = some c := by
    rw [List.toByteArray_append,ByteArray.utf8DecodeChar?_utf8EncodeChar_append]
  obtain ⟨b,bs,shape⟩ := List.exists_cons_of_ne_nil (String.utf8EncodeChar_ne_nil (c := c))
  have left : bs.length = c.utf8Size - 1 := by
    rw [shape] at size
    simp at size
    omega
  rw [shape,List.cons_append] at decoded ⊢
  rw [scanRunes,List.length_cons,decodeRunes]
  simp only [decoded,← left,List.drop_left]
  rw [decodeRunes_enough (by simp)]

theorem scanRunes_utf8 (s : Json.Text) (rest : Bytes) : scanRunes (utf8 s ++ rest) = s.map some ++ scanRunes rest := by
  induction s with
  | nil => rfl
  | cons c s ih =>
    rw [show utf8 (c :: s) = String.utf8EncodeChar c ++ utf8 s from rfl,List.append_assoc,scanRunes_rune,ih]
    rfl

/-- Text comes back from its bytes. -/
theorem runes_utf8 (s : Json.Text) (rest : Bytes) : runes (utf8 s ++ rest) = s ++ runes rest := by
  rw [runes,scanRunes_utf8,List.map_append,List.map_map]
  simp [runes,Function.comp_def]

end Runes

section Units

theorem unit_plain (small : c.toNat < 0x10000) : unit c.toNat.toUInt16 = c ∧ high c.toNat.toUInt16 = false := by
  have code : c.toNat.toUInt16.toNat = c.toNat := by
    rw [Nat.toUInt16_eq,UInt16.toNat_ofNat']
    exact Nat.mod_eq_of_lt small
  have valid : c.toNat < 0xD800 ∨ 0xDFFF < c.toNat := c.valid.imp id And.left
  have notHigh : high c.toNat.toUInt16 = false := by
    simp only [high,UInt16.le_iff_toNat_le,UInt16.lt_iff_toNat_lt,code,Bool.and_eq_false_iff,decide_eq_false_iff_not]
    simp
    omega
  have notLow : low c.toNat.toUInt16 = false := by
    simp only [low,UInt16.le_iff_toNat_le,UInt16.lt_iff_toNat_lt,code,Bool.and_eq_false_iff,decide_eq_false_iff_not]
    simp
    omega
  refine ⟨?_,notHigh⟩
  simp [unit,notHigh,notLow,code,Char.ofNat_toNat]

theorem fromUnits_units (c : Char) (us : List UInt16) : fromUnits (units c ++ us) = c :: fromUnits us := by
  by_cases small : c.toNat < 0x10000
  · obtain ⟨same,notHigh⟩ := unit_plain small
    rw [units,if_pos small]
    cases us with
    | nil => simp [fromUnits,same]
    | cons u us => simp [fromUnits,same,notHigh]
  · have bound : c.toNat < 0x110000 := by
      rcases c.valid with early | late
      · exact Nat.lt_trans early (by decide)
      · exact late.2
    have first : (0xD800 + (c.toNat - 0x10000) / 0x400).toUInt16.toNat = 0xD800 + (c.toNat - 0x10000) / 0x400 := by
      rw [Nat.toUInt16_eq,UInt16.toNat_ofNat']
      omega
    have second : (0xDC00 + (c.toNat - 0x10000) % 0x400).toUInt16.toNat = 0xDC00 + (c.toNat - 0x10000) % 0x400 := by
      rw [Nat.toUInt16_eq,UInt16.toNat_ofNat']
      omega
    have pair : (high (0xD800 + (c.toNat - 0x10000) / 0x400).toUInt16 &&
        low (0xDC00 + (c.toNat - 0x10000) % 0x400).toUInt16) = true := by
      simp only [high,low,UInt16.le_iff_toNat_le,UInt16.lt_iff_toNat_lt,first,second,Bool.and_eq_true,decide_eq_true_eq]
      simp
      omega
    have code : 0x10000 + ((0xD800 + (c.toNat - 0x10000) / 0x400) - 0xD800) * 0x400 +
        ((0xDC00 + (c.toNat - 0x10000) % 0x400) - 0xDC00) = c.toNat := by omega
    rw [units,if_neg small]
    simp only [List.cons_append,List.nil_append,fromUnits,pair,if_true,first,second,code,Char.ofNat_toNat]

theorem fromUnits_utf16 (s : Json.Text) : fromUnits (utf16 s) = s := by
  induction s with
  | nil => rfl
  | cons c s ih => rw [show utf16 (c :: s) = units c ++ utf16 s from rfl,fromUnits_units,ih]

/-- A string is read back as its runes, whatever follows it. -/
theorem string_written (bs : Bytes) (rest : Json.Text) :
    string ((scanRunes bs).flatMap writeRune ++ '"' :: rest) = some (utf16 (runes bs),rest) := by
  rw [runes]
  induction scanRunes bs with
  | nil => exact string_quote rest
  | cons r rs ih =>
    have first (tail : Json.Text) :
      string (writeRune r ++ tail) = withUnits (units (r.getD replacement)) (string tail) := by
      cases r with
      | some c => exact string_escape c tail
      | none => exact string_unicodeEscape (c := replacement) (by decide) tail
    rw [List.flatMap_cons,List.append_assoc,first,ih]
    rfl

end Units

section Numerals

/-- What may come after a number. -/
def Stops : Json.Text → Prop
  | [] => True
  | c :: _ => ∀ q : Numeral, q.next c = none

theorem scan_digits (digits : ∀ c ∈ ds, c.isDigit = true) (stops : Stops rest) :
    scan .whole (ds ++ rest) = (ds,.whole,rest) := by
  induction ds with
  | nil =>
    cases rest with
    | nil => rfl
    | cons c rest => simp [scan,stops .whole]
  | cons d ds ih =>
    have next : Numeral.next .whole d = some .whole := by simp [Numeral.next,digits d List.mem_cons_self]
    simp [scan,next,ih fun c member => digits c (List.mem_cons_of_mem _ member)]

theorem toDigits_head (positive : 0 < n) : ∃ d ds, Nat.toDigits 10 n = d :: ds ∧ d.isDigit = true ∧ d ≠ '0' ∧
    ∀ c ∈ ds, c.isDigit = true := by
  induction n using Nat.strongRecOn with
  | ind n ih =>
    by_cases small : n < 10
    · refine ⟨n.digitChar,[],Nat.toDigits_of_lt_base small,by simp [Nat.isDigit_digitChar,small],?_,by simp⟩
      have cases : n = 1 ∨ n = 2 ∨ n = 3 ∨ n = 4 ∨ n = 5 ∨ n = 6 ∨ n = 7 ∨ n = 8 ∨ n = 9 := by omega
      rcases cases with rfl | rfl | rfl | rfl | rfl | rfl | rfl | rfl | rfl <;> decide
    · obtain ⟨d,ds,shape,digit,nonzero,digits⟩ := ih (n / 10) (by omega) (by omega)
      have parts : 10 * (n / 10) + n % 10 = n := by omega
      have last : n % 10 < 10 := by omega
      refine ⟨d,ds ++ [(n % 10).digitChar],?_,digit,nonzero,?_⟩
      · rw [← parts,← Nat.toDigits_append_toDigits (by decide) (by omega) last,shape,Nat.toDigits_of_lt_base last,parts]
        rfl
      · intro c member
        rcases List.mem_append.mp member with early | final
        · exact digits c early
        · rw [List.mem_singleton.mp final]
          simp [Nat.isDigit_digitChar,last]

/-- The scanner reads the digits of a natural number after a minus sign as without one. -/
theorem scan_toDigits (n : Nat) (stops : Stops rest) (q : Numeral) (early : q = .start ∨ q = .minus) :
    ∃ final, scan q (Nat.toDigits 10 n ++ rest) = (Nat.toDigits 10 n,final,rest) ∧ final.complete = true := by
  rcases Nat.eq_zero_or_pos n with rfl | positive
  · refine ⟨.zero,?_,rfl⟩
    have next : q.next '0' = some .zero := by rcases early with rfl | rfl <;> rfl
    rw [show Nat.toDigits 10 0 = ['0'] from rfl]
    cases rest with
    | nil => simp [scan,next]
    | cons c rest => simp [scan,next,stops .zero]
  · obtain ⟨d,ds,shape,digit,nonzero,digits⟩ := toDigits_head positive
    refine ⟨.whole,?_,rfl⟩
    have minus : d ≠ '-' := by
      rintro rfl
      simp at digit
    have next : q.next d = some .whole := by
      rcases early with rfl | rfl <;> simp [Numeral.next,leadingDigit,minus,nonzero,digit]
    rw [shape]
    simp [scan,next,scan_digits digits stops]

theorem number_numeral (i : Int) (stops : Stops rest) : number (numeral i ++ rest) = some (numeral i,rest) := by
  by_cases negative : i < 0
  · obtain ⟨final,scanned,complete⟩ := scan_toDigits i.natAbs stops .minus (.inr rfl)
    have next : Numeral.next .start '-' = some .minus := rfl
    simp [number,numeral,negative,scan,next,scanned,complete]
  · obtain ⟨final,scanned,complete⟩ := scan_toDigits i.natAbs stops .start (.inl rfl)
    simp [number,numeral,negative,scanned,complete]

/-- A token ends where no number can go on. -/
theorem number_token (n : Number) (stops : Stops rest) : number (n.token ++ rest) = some (n.token,rest) := by
  have valid := n.valid
  cases rest with
  | nil => rwa [List.append_nil]
  | cons c rest =>
    unfold number at valid ⊢
    rcases scanned : scan .start n.token with ⟨token,q,left⟩
    simp only [scanned] at valid
    split at valid
    · rename_i complete
      obtain ⟨rfl,rfl⟩ := Prod.mk.inj (Option.some.inj valid)
      simp [scan_stops scanned (stops q),complete]
    · simp at valid

theorem numeral_head (i : Int) : ∃ c rest, numeral i = c :: rest ∧ (c = '-' ∨ c.isDigit = true) := by
  by_cases negative : i < 0
  · exact ⟨'-',_,by rw [numeral,if_pos negative],.inl rfl⟩
  · obtain ⟨c,rest,shape⟩ := List.exists_cons_of_ne_nil (Nat.toDigits_ne_nil (n := i.natAbs) (b := 10))
    refine ⟨c,rest,by rw [numeral,if_neg negative,shape],.inr ?_⟩
    exact Nat.isDigit_of_mem_toDigits (by decide) (by decide) (shape ▸ List.mem_cons_self)

end Numerals

section Reading

theorem value_bool (fuel : Nat) (b : Bool) (rest : Json.Text) :
    value (fuel + 1) (write (.bool b) ++ rest) = some (.bool b,rest) := by
  cases b <;> simp [write,value,skip,isSpace,scalar,word]

theorem value_number (fuel : Nat) (start : ∃ c tail, token = c :: tail ∧ (c = '-' ∨ c.isDigit = true))
    (read : number (token ++ rest) = some (token,rest)) : value (fuel + 1) (token ++ rest) = some (.num token,rest) := by
  obtain ⟨d,token,rfl,first⟩ := start
  obtain ⟨visible,brace,bracket,quote,true',false',null⟩ := number_head first
  rw [List.cons_append] at read ⊢
  rw [value,skip_cons visible]
  simp [brace,bracket,scalar,quote,true',false',null,read]

theorem value_string (fuel : Nat) (bs : Bytes) (rest : Json.Text) :
    value (fuel + 1) (writeString bs ++ rest) = some (.str (runes bs),rest) := by
  rw [value,writeString,List.cons_append,skip_cons (by decide)]
  simp [scalar,string_written,fromUnits_utf16]

theorem stops_comma (rest : Json.Text) : Stops (',' :: rest) := fun q => by cases q <;> rfl

theorem stops_brace (rest : Json.Text) : Stops ('}' :: rest) := fun q => by cases q <;> rfl

theorem stops_bracket (rest : Json.Text) : Stops (']' :: rest) := fun q => by cases q <;> rfl

/-- A written document begins with a visible character that closes nothing. -/
theorem write_head (d : Datum) : ∃ c rest, write d = c :: rest ∧ isSpace c = false ∧ c ≠ ']' := by
  cases d with
  | bool b => cases b <;> exact ⟨_,_,rfl,by decide,by decide⟩
  | int i =>
    obtain ⟨c,rest,shape,first⟩ := numeral_head i
    refine ⟨c,rest,by rw [write,shape],(number_head first).1,?_⟩
    rintro rfl
    simp at first
  | num n =>
    obtain ⟨c,rest,shape,first⟩ := number_start n
    refine ⟨c,rest,by rw [write,shape],(number_head first).1,?_⟩
    rintro rfl
    simp at first
  | str s => exact ⟨'"',_,by rw [write,writeString],by decide,by decide⟩
  | arr items => exact ⟨'[',_,by rw [write],by decide,by decide⟩
  | obj members => exact ⟨'{',_,by rw [write],by decide,by decide⟩

theorem writeItems_head (d : Datum) (ds : List Datum) (rest : Json.Text) :
    (skip (writeItems (d :: ds) ++ rest)).head? ≠ some ']' := by
  obtain ⟨c,tail,shape,visible,other⟩ := write_head d
  cases ds with
  | nil => simp [writeItems,shape,skip_cons visible,other]
  | cons d' ds => simp [writeItems,shape,skip_cons visible,other]

theorem writeMembers_head (m : Json.Text × Datum) (ms : List (Json.Text × Datum)) (rest : Json.Text) :
    (skip (writeMembers (m :: ms) ++ rest)).head? ≠ some '}' := by
  cases ms with
  | nil => simp [writeMembers,quote,skip_cons (show isSpace '"' = false by decide)]
  | cons m' ms => simp [writeMembers,quote,skip_cons (show isSpace '"' = false by decide)]

/-- One element, up to what follows it. -/
theorem elements_item (read : value fuel (write d ++ c :: rest) = some (d.doc,c :: rest)) (ends : c = ',' ∨ c = ']')
    (done : List Doc) : elements (fuel + 1) done (write d ++ c :: rest) =
      if c = ',' then elements fuel (done ++ [d.doc]) rest else some (.arr (done ++ [d.doc]),rest) := by
  rw [elements,read,Option.bind_some]
  rcases ends with rfl | rfl <;> simp [skip_cons (show isSpace ',' = false by decide),
    skip_cons (show isSpace ']' = false by decide)]

/-- One member, up to what follows it. -/
theorem members_member (name : Json.Text) (read : value fuel (write d ++ c :: rest) = some (d.doc,c :: rest))
    (ends : c = ',' ∨ c = '}') (done : List (Json.Text × Doc)) :
    members (fuel + 1) done (quote name ++ ':' :: write d ++ c :: rest) =
      if c = ',' then members fuel (done ++ [(name,d.doc)]) rest else some (.obj (done ++ [(name,d.doc)]),rest) := by
  rw [members,quote]
  simp only [List.append_assoc,List.cons_append,List.nil_append]
  rw [skip_cons (by decide)]
  simp only [string_quoted,Option.bind_some]
  rw [skip_cons (by decide)]
  simp only [read,Option.bind_some,fromUnits_utf16]
  rcases ends with rfl | rfl <;> simp [skip_cons (show isSpace ',' = false by decide),
    skip_cons (show isSpace '}' = false by decide)]

mutual

/-- What is written is read back as the document it stands for, whatever follows it. -/
theorem value_written (d : Datum) (fuel : Nat) (rest : Json.Text) (stops : d.numeric = true → Stops rest)
    (enough : 2 * (write d).length ≤ fuel) : value fuel (write d ++ rest) = some (d.doc,rest) := by
  obtain ⟨c,tail,shape,_⟩ := write_head d
  obtain ⟨fuel,rfl⟩ : ∃ k, fuel = k + 1 := ⟨fuel - 1,by rw [shape,List.length_cons] at enough; omega⟩
  match d with
  | .bool b => exact value_bool fuel b rest
  | .int i => simpa only [write,Datum.doc] using value_number fuel (numeral_head i) (number_numeral i (stops rfl))
  | .num n => simpa only [write,Datum.doc] using value_number fuel (number_start n) (number_token n (stops rfl))
  | .str s => simpa only [write,Datum.doc] using value_string fuel s rest
  | .arr items =>
    rw [write,List.length_cons] at enough
    rw [write,List.cons_append,value,skip_cons (by decide)]
    cases items with
    | nil => simp [writeItems,skip_cons (show isSpace ']' = false by decide),Datum.doc,docs]
    | cons d ds =>
      simp only [writeItems_head d ds rest,if_false]
      rw [items_written (d :: ds) fuel [] rest (by simp) (by omega)]
      simp [Datum.doc]
  | .obj members' =>
    rw [write,List.length_cons] at enough
    rw [write,List.cons_append,value,skip_cons (by decide)]
    cases members' with
    | nil => simp [writeMembers,skip_cons (show isSpace '}' = false by decide),Datum.doc,docMembers]
    | cons m ms =>
      simp only [writeMembers_head m ms rest,if_false]
      rw [members_written (m :: ms) fuel [] rest (by simp) (by omega)]
      simp [Datum.doc]

theorem items_written (items : List Datum) (fuel : Nat) (done : List Doc) (rest : Json.Text) (some' : items ≠ [])
    (enough : 2 * (writeItems items).length + 1 ≤ fuel) :
    elements fuel done (writeItems items ++ rest) = some (.arr (done ++ docs items),rest) := by
  obtain ⟨fuel,rfl⟩ : ∃ k, fuel = k + 1 := ⟨fuel - 1,by omega⟩
  match items with
  | [] => exact absurd rfl some'
  | [d] =>
    rw [writeItems,List.length_append] at enough
    have read := value_written d fuel (']' :: rest) (fun _ => stops_bracket rest) (by simp at enough; omega)
    rw [writeItems,List.append_assoc]
    exact (elements_item read (.inr rfl) done).trans (by simp [docs])
  | d :: d' :: ds =>
    rw [writeItems,List.length_append,List.length_cons] at enough
    have read := value_written d fuel (',' :: (writeItems (d' :: ds) ++ rest)) (fun _ => stops_comma _) (by omega)
    rw [writeItems,List.append_assoc,List.cons_append,elements_item read (.inl rfl) done,if_pos rfl,
      items_written (d' :: ds) fuel _ rest (by simp) (by omega)]
    simp [docs]

theorem members_written (ms : List (Json.Text × Datum)) (fuel : Nat) (done : List (Json.Text × Doc)) (rest : Json.Text)
    (some' : ms ≠ []) (enough : 2 * (writeMembers ms).length + 1 ≤ fuel) :
    members fuel done (writeMembers ms ++ rest) = some (.obj (done ++ docMembers ms),rest) := by
  obtain ⟨fuel,rfl⟩ : ∃ k, fuel = k + 1 := ⟨fuel - 1,by omega⟩
  match ms with
  | [] => exact absurd rfl some'
  | [(name,d)] =>
    simp only [writeMembers,List.length_append,List.length_cons] at enough
    have read := value_written d fuel ('}' :: rest) (fun _ => stops_brace rest) (by omega)
    have regroup : writeMembers [(name,d)] ++ rest = quote name ++ ':' :: write d ++ '}' :: rest := by
      simp [writeMembers]
    rw [regroup,members_member name read (.inr rfl) done]
    simp [docMembers]
  | (name,d) :: m :: ms =>
    simp only [writeMembers,List.length_append,List.length_cons] at enough
    have read := value_written d fuel (',' :: (writeMembers (m :: ms) ++ rest)) (fun _ => stops_comma _) (by omega)
    have regroup : writeMembers ((name,d) :: m :: ms) ++ rest =
        quote name ++ ':' :: write d ++ ',' :: (writeMembers (m :: ms) ++ rest) := by
      simp [writeMembers]
    rw [regroup,members_member name read (.inl rfl) done,if_pos rfl,
      members_written (m :: ms) fuel _ rest (by simp) (by omega)]
    simp [docMembers]

end

theorem docs_eq (ds : List Datum) : docs ds = ds.map Datum.doc := by
  induction ds with
  | nil => rfl
  | cons d ds ih => rw [docs,ih,List.map_cons]

theorem docMembers_eq (ms : List (Json.Text × Datum)) : docMembers ms = ms.map fun m => (m.1,m.2.doc) := by
  induction ms with
  | nil => rfl
  | cons m ms ih => rw [docMembers,ih,List.map_cons]

theorem depths_le (each : ∀ d ∈ ds, Doc.depth d ≤ k) : depths ds ≤ k := by
  induction ds with
  | nil => exact Nat.zero_le k
  | cons d ds ih =>
    rw [depths]
    exact Nat.max_le.mpr ⟨each d List.mem_cons_self,ih fun e member => each e (List.mem_cons_of_mem _ member)⟩

/-- A document comes back from its bytes, at the head of any stream. -/
theorem decode_marshal (d : Datum) (rest : Bytes) (stops : d.numeric = true → Stops (runes rest))
    (shallow : d.doc.depth ≤ 10000) : decode (marshal d ++ rest) = some d.doc := by
  rw [decode,marshal,runes_utf8,value_written d _ _ stops (by rw [List.length_append]; omega),Option.bind_some]
  exact if_pos shallow

theorem document_marshal (d : Datum) (shallow : d.doc.depth ≤ 10000) : document (marshal d) = some d.doc := by
  have text : runes (marshal d) = write d ++ [] := by
    simpa [marshal,runes,scanRunes,decodeRunes] using runes_utf8 (write d) []
  rw [document,text,value_written d _ [] (fun _ => trivial) (by rw [List.length_append]; omega),Option.bind_some]
  exact if_pos ⟨rfl,shallow⟩

end Reading

/-- A field of a structure: what a document does to the structure, or nothing for an error. -/
structure Slot (σ : Type) where
  name : Json.Text
  set : Doc → σ → Option σ

/-- Two characters beyond ASCII fold to letters of the names that occur here. -/
def foldChar (c : Char) : Char :=
  if 'A' ≤ c ∧ c ≤ 'Z' then Char.ofNat (c.toNat + 32)
  else if c.toNat = 0x17F then 's' else if c.toNat = 0x212A then 'k' else c

/-- The field of exactly this name, or else the first one whose name differs in case only. -/
def findField (fields : List (Slot σ)) (key : Json.Text) : Option (Slot σ) :=
  (fields.find? fun f => f.name = key).or (fields.find? fun f => f.name.map foldChar = key.map foldChar)

def setMember (fields : List (Slot σ)) (v : σ) (m : Json.Text × Doc) : Option σ :=
  match findField fields m.1 with
  | some f => f.set m.2 v
  | none => some v

/-- `json.Unmarshal` into a structure: its members one after the other, and `null` for no change. -/
def assign (fields : List (Slot σ)) (v : σ) : Doc → Option σ
  | .obj members => members.foldlM (setMember fields) v
  | .null => some v
  | _ => none

def tokenBytes (token : Json.Text) : Bytes := token.map fun c => c.toNat.toUInt8

def intoString (put : Bytes → σ → σ) : Doc → σ → Option σ
  | .str s, v => some (put (utf8 s) v)
  | .null, v => some v
  | _, _ => none

def intoBool (put : Bool → σ → σ) : Doc → σ → Option σ
  | .bool b, v => some (put b v)
  | .null, v => some v
  | _, _ => none

/-- A 64-bit `int`. -/
def intoInt (put : Int64 → σ → σ) : Doc → σ → Option σ
  | .num token, v => (atoi (tokenBytes token)).map fun i => put (Int64.ofInt i) v
  | .null, v => some v
  | _, _ => none

/-- A `uint64`. -/
def intoUint (put : UInt64 → σ → σ) : Doc → σ → Option σ
  | .num token, v => (unsigned (tokenBytes token)).bind fun n => if n < 2^64 then some (put n.toUInt64 v) else none
  | .null, v => some v
  | _, _ => none

/-- A `float64`, as `ParseFloat` reads the token. -/
def intoFloat (parse : Json.Text → Option F) (put : F → σ → σ) : Doc → σ → Option σ
  | .num token, v => (parse token).map fun x => put x v
  | .null, v => some v
  | _, _ => none

/-- A slice is rebuilt from nothing, its elements from their zero value. -/
def intoSlice (item : Doc → Option α) (put : List α → σ → σ) : Doc → σ → Option σ
  | .arr items, v => (items.mapM item).map fun xs => put xs v
  | .null, v => some (put [] v)
  | _, _ => none

section Fields

theorem findField_exact {fields : List (Slot σ)} (distinct : (fields.map Slot.name).Nodup) (member : f ∈ fields) :
    findField fields f.name = some f := by
  have first : (fields.find? fun g => g.name = f.name) = some f := by
    induction fields with
    | nil => simp at member
    | cons g fields ih =>
      simp only [List.map_cons,List.nodup_cons] at distinct
      rcases List.mem_cons.mp member with rfl | later
      · simp
      · have other : g.name ≠ f.name := fun same => distinct.1 (same ▸ List.mem_map_of_mem later)
        simp [other,ih distinct.2 later]
  rw [findField,first,Option.some_or]

/-- Members under the exact names of fields set these fields in turn. -/
theorem assign_exact {fields : List (Slot σ)} (distinct : (fields.map Slot.name).Nodup) (pairs : List (Slot σ × Doc))
    (known : ∀ x ∈ pairs, x.1 ∈ fields) (v : σ) :
    assign fields v (.obj (pairs.map fun x => (x.1.name,x.2))) = pairs.foldlM (fun v x => x.1.set x.2 v) v := by
  rw [assign,List.foldlM_map]
  induction pairs generalizing v with
  | nil => rfl
  | cons x pairs ih =>
    have here : setMember fields v (x.1.name,x.2) = x.1.set x.2 v := by
      simp only [setMember,findField_exact distinct (known x List.mem_cons_self)]
    simp only [List.foldlM_cons,here]
    cases x.1.set x.2 v with
    | none => rfl
    | some v => exact ih (fun y member => known y (List.mem_cons_of_mem _ member)) v

/-- What every field keeps, a whole document keeps. -/
theorem assign_keeps {fields : List (Slot σ)} (P : σ → Prop)
    (keeps : ∀ f ∈ fields, ∀ d v v', P v → f.set d v = some v' → P v') (start : P v)
    (result : assign fields v d = some v') : P v' := by
  have member (v v') (m : Json.Text × Doc) (before : P v) (set : setMember fields v m = some v') : P v' := by
    simp only [setMember] at set
    split at set
    · rename_i f found
      have inside : f ∈ fields := by
        rcases Option.or_eq_some_iff.mp found with exact | ⟨_,folded⟩
        · exact List.mem_of_find?_eq_some exact
        · exact List.mem_of_find?_eq_some folded
      exact keeps f inside m.2 v v' before set
    · exact Option.some.inj set ▸ before
  cases d with
  | obj members =>
    rw [assign] at result
    induction members generalizing v with
    | nil =>
      obtain rfl := Option.some.inj result
      exact start
    | cons m members ih =>
      obtain ⟨v1,first,rest⟩ := Option.bind_eq_some_iff.mp (show (setMember fields v m).bind _ = some v' from result)
      exact ih (member v v1 m start first) rest
  | null =>
    obtain rfl := Option.some.inj result
    exact start
  | _ => simp [assign] at result

theorem intoString_sets {put : Bytes → σ → σ} (result : intoString put d v = some v') :
    v' = v ∨ ∃ s, v' = put (utf8 s) v := by
  unfold intoString at result
  split at result
  · rename_i s
    exact .inr ⟨s,(Option.some.inj result).symm⟩
  · exact .inl (Option.some.inj result).symm
  · simp at result

theorem intoInt_sets {put : Int64 → σ → σ} (result : intoInt put d v = some v') : v' = v ∨ ∃ i, v' = put i v := by
  unfold intoInt at result
  split at result
  · obtain ⟨i,_,rfl⟩ := Option.map_eq_some_iff.mp result
    exact .inr ⟨_,rfl⟩
  · exact .inl (Option.some.inj result).symm
  · simp at result

theorem intoUint_sets {put : UInt64 → σ → σ} (result : intoUint put d v = some v') : v' = v ∨ ∃ n, v' = put n v := by
  unfold intoUint at result
  split at result
  · obtain ⟨n,_,fits⟩ := Option.bind_eq_some_iff.mp result
    split at fits
    · exact .inr ⟨_,(Option.some.inj fits).symm⟩
    · simp at fits
  · exact .inl (Option.some.inj result).symm
  · simp at result

theorem tokenBytes_numeral (i : Int) : tokenBytes (numeral i) = formatInt i := by
  unfold numeral formatInt
  split <;> simp [tokenBytes,decimal]

theorem atoi_formatInt (lower : -2^63 ≤ i) (upper : i < 2^63) : atoi (formatInt i) = some i := by
  by_cases negative : i < 0
  · have digits : unsigned (decimal i.natAbs) = some i.natAbs := by
      rw [unsigned,if_neg (decimal_ne_nil _),decimalValue_decimal]
    have small : i.natAbs ≤ 2^63 := by omega
    have back : -(i.natAbs : Int) = i := by omega
    rw [formatInt,if_pos negative]
    simp only [atoi,digits,Option.bind_some,if_pos small,back]
  · have small : i.natAbs < 2^63 := by omega
    have back : (i.natAbs : Int) = i := by omega
    rw [formatInt,if_neg negative,atoi_decimal small,back]

theorem intoInt_written (put : Int64 → σ → σ) (v : σ) (x : Int64) :
    intoInt put (Datum.int x.toInt).doc v = some (put x v) := by
  have lower := x.le_toInt
  have upper := x.toInt_lt
  rw [Datum.doc,intoInt,tokenBytes_numeral,atoi_formatInt lower upper,Option.map_some,Int64.ofInt_toInt]

theorem intoUint_written (put : UInt64 → σ → σ) (v : σ) (n : UInt64) :
    intoUint put (Datum.int n.toNat).doc v = some (put n v) := by
  have token : tokenBytes (numeral n.toNat) = decimal n.toNat := by
    rw [tokenBytes_numeral]
    simp [formatInt]
  have digits : unsigned (decimal n.toNat) = some n.toNat := by
    rw [unsigned,if_neg (decimal_ne_nil _),decimalValue_decimal]
  rw [Datum.doc,intoUint,token,digits,Option.bind_some,if_pos n.toNat_lt]
  simp

theorem intoString_written (put : Bytes → σ → σ) (v : σ) (s : Bytes) :
    intoString put (Datum.str s).doc v = some (put (utf8 (runes s)) v) := by
  rw [Datum.doc,intoString]

theorem intoBool_written (put : Bool → σ → σ) (v : σ) (b : Bool) :
    intoBool put (Datum.bool b).doc v = some (put b v) := by
  rw [Datum.doc,intoBool]

theorem mapM_each {xs : List α} {f : α → Option β} {g : α → β} (each : ∀ x ∈ xs, f x = some (g x)) :
    xs.mapM f = some (xs.map g) := by
  induction xs with
  | nil => rfl
  | cons x xs ih =>
    rw [List.mapM_cons,each x List.mem_cons_self,ih fun y member => each y (List.mem_cons_of_mem _ member)]
    rfl

theorem intoSlice_written {item : Doc → Option α} {put : List α → σ → σ} {datum : α → Datum} {xs : List α}
    (each : ∀ x ∈ xs, item (datum x).doc = some x) (v : σ) :
    intoSlice item put (Datum.arr (xs.map datum)).doc v = some (put xs v) := by
  have items : ((xs.map datum).map Datum.doc).mapM item = some xs := by
    rw [List.map_map,List.mapM_map]
    simpa using mapM_each (f := item ∘ Datum.doc ∘ datum) (g := id) each
  rw [Datum.doc,docs_eq,intoSlice,items,Option.map_some]

theorem runes_utf8_all (s : Json.Text) : runes (utf8 s) = s := by
  have whole := runes_utf8 s []
  simpa [runes,scanRunes,decodeRunes] using whole

theorem utf8_injective (same : utf8 s = utf8 t) : s = t := by
  rw [← runes_utf8_all s,same,runes_utf8_all]

theorem runes_eq_nil (bs : Bytes) : runes bs = [] ↔ bs = [] := by
  cases bs with
  | nil => simp [runes,scanRunes,decodeRunes]
  | cons b bs =>
    simp only [runes,scanRunes,List.length_cons,decodeRunes,List.map_eq_nil_iff,reduceCtorEq,iff_false]
    split <;> simp

end Fields

end TradingPlatform.Documents

import Mathlib.Data.List.Basic

/-! JSON texts: `JSON.parse`, and the flat objects that Go's `encoding/json` writes. A text is a
list of characters, strings are read as UTF-16 code units, and a number is kept as its token. -/
namespace TradingPlatform.Json

abbrev Text := List Char

inductive Value where
  | null
  | bool (b : Bool)
  | num (token : Text)
  | str (units : List UInt16)
  | arr (items : List Value)
  | obj (members : List (List UInt16 × Value))

def isSpace (c : Char) : Bool := c = ' ' || c = '\t' || c = '\n' || c = '\r'

def skip (text : Text) : Text := text.dropWhile isSpace

/-- How far a number has been read. -/
inductive Numeral where
  | start | minus | zero | whole | point | fraction | marker | sign | exponent
  deriving DecidableEq, Repr

def leadingDigit (c : Char) : Option Numeral :=
  if c = '0' then some .zero else if c.isDigit then some .whole else none

def pointOrMarker (c : Char) : Option Numeral :=
  if c = '.' then some .point else if c = 'e' ∨ c = 'E' then some .marker else none

def Numeral.next : Numeral → Char → Option Numeral
  | .start, c => if c = '-' then some .minus else leadingDigit c
  | .minus, c => leadingDigit c
  | .zero, c => pointOrMarker c
  | .whole, c => if c.isDigit then some .whole else pointOrMarker c
  | .point, c => if c.isDigit then some .fraction else none
  | .fraction, c => if c.isDigit then some .fraction else if c = 'e' ∨ c = 'E' then some .marker else none
  | .marker, c => if c = '+' ∨ c = '-' then some .sign else if c.isDigit then some .exponent else none
  | .sign, c => if c.isDigit then some .exponent else none
  | .exponent, c => if c.isDigit then some .exponent else none

def Numeral.complete : Numeral → Bool
  | .zero | .whole | .fraction | .exponent => true
  | _ => false

/-- The longest start of a text that a number can be continued with. -/
def scan : Numeral → Text → Text × Numeral × Text
  | q, [] => ([],q,[])
  | q, c :: rest =>
    match q.next c with
    | none => ([],q,c :: rest)
    | some q' => (c :: (scan q' rest).1,(scan q' rest).2)

def number (text : Text) : Option (Text × Text) :=
  match scan .start text with
  | (token,q,rest) => if q.complete then some (token,rest) else none

/-- The code units of a character. -/
def units (c : Char) : List UInt16 :=
  if c.toNat < 0x10000 then [c.toNat.toUInt16]
  else [(0xD800 + (c.toNat - 0x10000) / 0x400).toUInt16,(0xDC00 + (c.toNat - 0x10000) % 0x400).toUInt16]

def utf16 (s : Text) : List UInt16 := s.flatMap units

def hex (c : Char) : Option Nat :=
  if c.isDigit then some (c.toNat - 48)
  else if 'a' ≤ c ∧ c ≤ 'f' then some (c.toNat - 87)
  else if 'A' ≤ c ∧ c ≤ 'F' then some (c.toNat - 55)
  else none

def hex4 (a b c d : Char) : Option UInt16 :=
  (hex a).bind fun w => (hex b).bind fun x => (hex c).bind fun y => (hex d).map fun z =>
    (((w * 16 + x) * 16 + y) * 16 + z).toUInt16

def escaped (c : Char) : Option UInt16 :=
  if c = '"' then some 34 else if c = '\\' then some 92 else if c = '/' then some 47
  else if c = 'b' then some 8 else if c = 'f' then some 12 else if c = 'n' then some 10
  else if c = 'r' then some 13 else if c = 't' then some 9 else none

def withUnits (us : List UInt16) (rest : Option (List UInt16 × Text)) : Option (List UInt16 × Text) :=
  rest.map fun (vs,text) => (us ++ vs,text)

/-- A string after its opening quote. -/
def string : Text → Option (List UInt16 × Text)
  | [] => none
  | c :: rest =>
    if c = '"' then some ([],rest)
    else if c = '\\' then
      match rest with
      | 'u' :: a :: b :: c :: d :: rest => (hex4 a b c d).bind fun u => withUnits [u] (string rest)
      | e :: rest => (escaped e).bind fun u => withUnits [u] (string rest)
      | [] => none
    else if c.toNat < 32 then none
    else withUnits (units c) (string rest)

def literal (word : Text) (v : Value) (text : Text) : Option (Value × Text) :=
  if text.take word.length = word then some (v,text.drop word.length) else none

def scalar (text : Text) : Option (Value × Text) :=
  match text with
  | '"' :: rest => (string rest).map fun (us,rest) => (.str us,rest)
  | 't' :: _ => literal "true".toList (.bool true) text
  | 'f' :: _ => literal "false".toList (.bool false) text
  | 'n' :: _ => literal "null".toList .null text
  | _ => (number text).map fun (token,rest) => (.num token,rest)

/-- A repeated key keeps its place and takes the later value. -/
def put : List (List UInt16 × Value) → List UInt16 → Value → List (List UInt16 × Value)
  | [], key, v => [(key,v)]
  | (k,w) :: rest, key, v => if k = key then (k,v) :: rest else (k,w) :: put rest key v

mutual

def value : Nat → Text → Option (Value × Text)
  | 0, _ => none
  | fuel + 1, text =>
    match skip text with
    | '{' :: rest => if (skip rest).head? = some '}' then some (.obj [],(skip rest).tail) else members fuel [] rest
    | '[' :: rest => if (skip rest).head? = some ']' then some (.arr [],(skip rest).tail) else elements fuel [] rest
    | text => scalar text

def members : Nat → List (List UInt16 × Value) → Text → Option (Value × Text)
  | 0, _, _ => none
  | fuel + 1, done, text =>
    match skip text with
    | '"' :: rest => (string rest).bind fun (key,rest) =>
      match skip rest with
      | ':' :: rest => (value fuel rest).bind fun (v,rest) =>
        match skip rest with
        | ',' :: rest => members fuel (put done key v) rest
        | '}' :: rest => some (.obj (put done key v),rest)
        | _ => none
      | _ => none
    | _ => none

def elements : Nat → List Value → Text → Option (Value × Text)
  | 0, _, _ => none
  | fuel + 1, done, text => (value fuel text).bind fun (v,rest) =>
    match skip rest with
    | ',' :: rest => elements fuel (done ++ [v]) rest
    | ']' :: rest => some (.arr (done ++ [v]),rest)
    | _ => none

end

/-- `JSON.parse`, which takes the whole text for one value. A level of nesting takes a
character at least, and two calls at most. -/
def parse (text : Text) : Option Value :=
  (value (2 * text.length + 2) text).bind fun (v,rest) => if skip rest = [] then some v else none

/-- The member of an object; other values have none. -/
def Value.get (v : Value) (key : List UInt16) : Option Value :=
  match v with
  | .obj members => (members.find? (·.1 = key)).map Prod.snd
  | _ => none

structure Number where
  token : Text
  valid : number token = some (token,[])

inductive Scalar where
  | text (s : Text)
  | number (n : Number)

def hexDigit (n : Nat) : Char := "0123456789abcdef".toList.getD n '0'

def unicodeEscape (n : Nat) : Text :=
  ['\\','u',hexDigit (n / 4096),hexDigit (n / 256 % 16),hexDigit (n / 16 % 16),hexDigit (n % 16)]

/-- `json.Marshal` also escapes the characters that matter to HTML and two line separators. -/
def escape (c : Char) : Text :=
  if c = '"' ∨ c = '\\' then ['\\',c]
  else if c.toNat = 8 then ['\\','b'] else if c.toNat = 12 then ['\\','f'] else if c.toNat = 10 then ['\\','n']
  else if c.toNat = 13 then ['\\','r'] else if c.toNat = 9 then ['\\','t']
  else if c.toNat < 32 ∨ c = '<' ∨ c = '>' ∨ c = '&' ∨ c.toNat = 0x2028 ∨ c.toNat = 0x2029 then unicodeEscape c.toNat
  else [c]

def quote (s : Text) : Text := '"' :: (s.flatMap escape ++ ['"'])

def Scalar.write : Scalar → Text
  | .text s => quote s
  | .number n => n.token

def Scalar.value : Scalar → Value
  | .text s => .str (utf16 s)
  | .number n => .num n.token

def writeMember (m : Text × Scalar) : Text := quote m.1 ++ ':' :: m.2.write

def writeMembers : List (Text × Scalar) → Text
  | [] => ['}']
  | [m] => writeMember m ++ ['}']
  | m :: m' :: ms => writeMember m ++ ',' :: writeMembers (m' :: ms)

/-- A map from names to strings and numbers, with its names in their order. -/
def writeObject (ms : List (Text × Scalar)) : Text := '{' :: writeMembers ms

def putAll (done : List (List UInt16 × Value)) (ms : List (Text × Scalar)) : List (List UInt16 × Value) :=
  ms.foldl (fun done m => put done (utf16 m.1) m.2.value) done

theorem scan_stops (whole : scan q token = (token,final,[])) (stop : final.next c = none) :
    scan q (token ++ c :: rest) = (token,final,c :: rest) := by
  induction token generalizing q with
  | nil =>
    obtain ⟨_,same⟩ := Prod.mk.inj whole
    obtain ⟨rfl,_⟩ := Prod.mk.inj same
    simp [scan,stop]
  | cons d token ih =>
    simp only [scan,List.cons_append] at whole ⊢
    cases known : q.next d with
    | none => simp [known] at whole
    | some q' =>
      simp only [known,Prod.mk.injEq,List.cons.injEq,true_and] at whole ⊢
      have later := ih (Prod.ext whole.1 whole.2)
      simp [later]

/-- A number ends where a comma or a brace follows. -/
theorem number_ends (n : Number) (ends : c = ',' ∨ c = '}') (rest : Text) :
    number (n.token ++ c :: rest) = some (n.token,c :: rest) := by
  have valid := n.valid
  unfold number at valid ⊢
  rcases scanned : scan .start n.token with ⟨token,q,left⟩
  simp only [scanned] at valid
  split at valid
  · rename_i complete
    obtain ⟨rfl,rfl⟩ := Prod.mk.inj (Option.some.inj valid)
    have stop : q.next c = none := by rcases ends with rfl | rfl <;> cases q <;> rfl
    simp [scan_stops scanned stop,complete]
  · simp at valid

theorem hex_hexDigit (small : n < 16) : hex (hexDigit n) = some n := by
  have all : ∀ k : Fin 16, hex (hexDigit k) = some k.val := by decide
  exact all ⟨n,small⟩

theorem hex4_digits (small : n < 0x10000) :
    hex4 (hexDigit (n / 4096)) (hexDigit (n / 256 % 16)) (hexDigit (n / 16 % 16)) (hexDigit (n % 16)) =
      some n.toUInt16 := by
  have value : (((n / 4096) * 16 + n / 256 % 16) * 16 + n / 16 % 16) * 16 + n % 16 = n := by omega
  rw [hex4,hex_hexDigit (by omega),hex_hexDigit (by omega),hex_hexDigit (by omega),hex_hexDigit (by omega)]
  simp only [Option.bind_some,Option.map_some,value]

theorem string_quote (rest : Text) : string ('"' :: rest) = some ([],rest) := by
  rw [string.eq_def]
  simp

theorem string_plain (quote : c ≠ '"') (backslash : c ≠ '\\') (plain : ¬c.toNat < 32) (rest : Text) :
    string (c :: rest) = withUnits (units c) (string rest) := by
  rw [string.eq_def]
  simp [quote,backslash,plain]

theorem string_unicodeEscape (small : c.toNat < 0x10000) (rest : Text) :
    string (unicodeEscape c.toNat ++ rest) = withUnits (units c) (string rest) := by
  simp [unicodeEscape,string,hex4_digits small,units,small]

theorem string_escape (c : Char) (rest : Text) : string (escape c ++ rest) = withUnits (units c) (string rest) := by
  unfold escape
  split
  · rename_i quoted
    rcases quoted with rfl | rfl <;> simp [string,escaped,units]
  iterate 5
    split
    · rename_i code
      simp [string,escaped,units,code]
  split
  · rename_i special
    apply string_unicodeEscape
    rcases special with small | rfl | rfl | rfl | code | code
    · omega
    all_goals first | decide | omega
  · rename_i unquoted _ _ _ _ _ plain
    rw [not_or] at unquoted plain
    exact string_plain unquoted.1 unquoted.2 plain.1 rest

/-- A quoted string is read back, whatever follows it. -/
theorem string_quoted (s rest : Text) : string (s.flatMap escape ++ '"' :: rest) = some (utf16 s,rest) := by
  induction s with
  | nil => simp [string_quote,utf16]
  | cons c s ih => simp [string_escape,ih,withUnits,utf16]

theorem skip_cons (visible : isSpace c = false) : skip (c :: rest) = c :: rest := by
  simp [skip,visible]

theorem number_start (n : Number) : ∃ c rest, n.token = c :: rest ∧ (c = '-' ∨ c.isDigit) := by
  have valid := n.valid
  cases token : n.token with
  | nil => simp [token,number,scan,Numeral.complete] at valid
  | cons c rest =>
    refine ⟨c,rest,rfl,?_⟩
    by_contra neither
    rw [not_or] at neither
    have zero : c ≠ '0' := by
      rintro rfl
      exact neither.2 (by decide)
    have stuck : Numeral.next .start c = none := by
      simp [Numeral.next,leadingDigit,neither.1,neither.2,zero]
    simp [token,number,scan,stuck,Numeral.complete] at valid

theorem number_head (first : d = '-' ∨ d.isDigit) :
    isSpace d = false ∧ d ≠ '{' ∧ d ≠ '[' ∧ d ≠ '"' ∧ d ≠ 't' ∧ d ≠ 'f' ∧ d ≠ 'n' := by
  have other {e : Char} (unlike : e ≠ '-' ∧ e.isDigit = false) : d ≠ e := by
    rintro rfl
    rcases first with same | digit
    · exact unlike.1 same
    · simp [unlike.2] at digit
  refine ⟨?_,other (by decide),other (by decide),other (by decide),other (by decide),other (by decide),other (by decide)⟩
  simp [isSpace,other (e := ' ') (by decide),other (e := '\t') (by decide),other (e := '\n') (by decide),
    other (e := '\r') (by decide)]

theorem value_number (fuel : Nat) (n : Number) (ends : c = ',' ∨ c = '}') :
    value (fuel + 1) (n.token ++ c :: rest) = some (.num n.token,c :: rest) := by
  have read := number_ends n ends rest
  obtain ⟨d,token,shape,first⟩ := number_start n
  obtain ⟨visible,brace,bracket,quote,true',false',null⟩ := number_head first
  rw [shape,List.cons_append] at read ⊢
  rw [value,skip_cons visible]
  simp [brace,bracket,scalar,quote,true',false',null,read]

theorem value_text (fuel : Nat) (s rest : Text) : value (fuel + 1) (quote s ++ rest) = some (.str (utf16 s),rest) := by
  rw [value,quote,List.cons_append,skip_cons (by decide)]
  simp [scalar,string_quoted]

theorem value_scalar (fuel : Nat) (v : Scalar) (ends : c = ',' ∨ c = '}') :
    value (fuel + 1) (v.write ++ c :: rest) = some (v.value,c :: rest) := by
  cases v with
  | text s => exact value_text fuel s (c :: rest)
  | number n => exact value_number fuel n ends

/-- One member of an object, up to what follows it. -/
theorem members_member (fuel : Nat) (done : List (List UInt16 × Value)) (m : Text × Scalar) (ends : c = ',' ∨ c = '}') :
    members (fuel + 2) done (writeMember m ++ c :: rest) =
      if c = ',' then members (fuel + 1) (put done (utf16 m.1) m.2.value) rest
      else some (.obj (put done (utf16 m.1) m.2.value),rest) := by
  rw [members,writeMember,quote,List.append_assoc,List.cons_append,skip_cons (by decide)]
  simp only [List.append_assoc,List.cons_append,List.nil_append,string_quoted,Option.bind_some]
  rw [skip_cons (by decide)]
  simp only [value_scalar fuel m.2 ends,Option.bind_some]
  rcases ends with rfl | rfl
  · rw [skip_cons (by decide)]
    simp
  · rw [skip_cons (by decide)]
    simp

/-- The members of an object are read in their order. -/
theorem members_written (done : List (List UInt16 × Value)) (ms : List (Text × Scalar)) (some' : ms ≠ [])
    (enough : ms.length < fuel) : members fuel done (writeMembers ms ++ rest) = some (.obj (putAll done ms),rest) := by
  induction ms generalizing fuel done with
  | nil => exact absurd rfl some'
  | cons m ms ih =>
    obtain ⟨fuel,rfl⟩ : ∃ k, fuel = k + 2 := ⟨fuel - 2,by simp at enough; omega⟩
    cases ms with
    | nil =>
      rw [writeMembers,List.append_assoc]
      exact (members_member fuel done m (.inr rfl)).trans (by simp [putAll])
    | cons m' ms =>
      rw [writeMembers,List.append_assoc,List.cons_append,members_member fuel done m (.inl rfl),if_pos rfl]
      exact ih _ (by simp) (by simp at enough ⊢; omega)

theorem writeMembers_start (m : Text × Scalar) (ms : List (Text × Scalar)) :
    ∃ rest, writeMembers (m :: ms) = '"' :: rest := by
  cases ms <;> exact ⟨_,rfl⟩

theorem length_writeMembers (ms : List (Text × Scalar)) : ms.length ≤ (writeMembers ms).length := by
  fun_induction writeMembers ms <;> simp at *
  omega

/-- An object is read back, and nothing but white space may follow it. -/
theorem parse_object (ms : List (Text × Scalar)) (rest : Text) :
    parse (writeObject ms ++ rest) = if skip rest = [] then some (.obj (putAll [] ms)) else none := by
  have read : value (2 * (writeObject ms ++ rest).length + 2) (writeObject ms ++ rest) =
    some (.obj (putAll [] ms),rest) := by
    rw [writeObject,List.cons_append,value,skip_cons (by decide)]
    cases ms with
    | nil => simp [writeMembers,skip_cons,isSpace,putAll]
    | cons m ms =>
      obtain ⟨text,start⟩ := writeMembers_start m ms
      have visible : (skip (writeMembers (m :: ms) ++ rest)).head? = some '"' := by
        rw [start,List.cons_append,skip_cons (by decide)]
        rfl
      have enough := length_writeMembers (m :: ms)
      simp only [visible]
      rw [if_neg (by decide)]
      apply members_written [] (m :: ms) (by simp)
      simp at enough ⊢
      omega
  rw [parse,read,Option.bind_some]

end TradingPlatform.Json

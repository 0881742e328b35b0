import TradingPlatform.LiveFrames
import TradingPlatform.Standings

/-! The page of `web/app.js`: what it makes of the standings and of its activity log. Both are put
together as HTML text, with the names that contestants choose in the middle of it. -/
namespace TradingPlatform.Leaderboard.Dashboard

open Json Ranking

abbrev JsString := List UInt16

def js (s : String) : JsString := utf16 s.toList

def lt : UInt16 := 60

def gt : UInt16 := 62

def amp : UInt16 := 38

def quot : UInt16 := 34

def apos : UInt16 := 39

/-- `replace` with a global pattern for one character. -/
def replaceAll (u : UInt16) (entity s : JsString) : JsString := s.flatMap fun v => if v = u then entity else [v]

def escapeHTML (s : JsString) : JsString :=
  replaceAll apos (js "&#039;") <| replaceAll quot (js "&quot;") <| replaceAll gt (js "&gt;") <|
    replaceAll lt (js "&lt;") <| replaceAll amp (js "&amp;") s

/-- What becomes of one character. -/
def escapeUnit (u : UInt16) : JsString :=
  if u = amp then js "&amp;" else if u = lt then js "&lt;" else if u = gt then js "&gt;"
  else if u = quot then js "&quot;" else if u = apos then js "&#039;" else [u]

theorem replaceAll_flatMap (u : UInt16) (entity s : JsString) (f : UInt16 → JsString) :
    replaceAll u entity (s.flatMap f) = s.flatMap fun v => replaceAll u entity (f v) :=
  List.flatMap_assoc

theorem replaceAll_single (u v : UInt16) (entity : JsString) :
    replaceAll u entity [v] = if v = u then entity else [v] := by
  simp [replaceAll]

/-- The ampersands of the later entities come after all others have been replaced, so no character
is escaped twice. -/
theorem escapeHTML_eq (s : JsString) : escapeHTML s = s.flatMap escapeUnit := by
  have first : replaceAll amp (js "&amp;") s = s.flatMap fun v => if v = amp then js "&amp;" else [v] := rfl
  rw [escapeHTML,first,replaceAll_flatMap,replaceAll_flatMap,replaceAll_flatMap,replaceAll_flatMap]
  congr 1
  funext u
  unfold escapeUnit
  by_cases isAmp : u = amp
  · subst isAmp
    decide
  by_cases isLt : u = lt
  · subst isLt
    decide
  by_cases isGt : u = gt
  · subst isGt
    decide
  by_cases isQuot : u = quot
  · subst isQuot
    decide
  by_cases isApos : u = apos
  · subst isApos
    decide
  simp only [isAmp,isLt,isGt,isQuot,isApos,if_false,replaceAll_single]

/-- How a browser reads what follows an ampersand: as the name of a character, of which these are
known, or not at all. -/
structure References where
  read : JsString → Option (JsString × JsString)
  shorter : ∀ s text rest, read s = some (text,rest) → rest.length ≤ s.length
  amp : ∀ rest, read (js "amp;" ++ rest) = some ([amp],rest)
  lt : ∀ rest, read (js "lt;" ++ rest) = some ([lt],rest)
  gt : ∀ rest, read (js "gt;" ++ rest) = some ([gt],rest)
  quot : ∀ rest, read (js "quot;" ++ rest) = some ([quot],rest)
  apos : ∀ rest, read (js "#039;" ++ rest) = some ([apos],rest)

inductive Token where
  | tag (text : JsString)
  | char (u : UInt16)
  deriving DecidableEq, Repr

/-- The tags and characters of a text. Every `<` is taken for the start of a tag; what HTML does to
carriage returns and NUL characters is left out. -/
def tokens (refs : References) : JsString → List Token
  | [] => []
  | u :: rest =>
    if u = lt then .tag (rest.takeWhile (· ≠ gt)) :: tokens refs (rest.dropWhile (· ≠ gt)).tail
    else if u = amp then
      match found : refs.read rest with
      | some (text,after) => text.map .char ++ tokens refs after
      | none => .char u :: tokens refs rest
    else .char u :: tokens refs rest
termination_by s => s.length
decreasing_by
  · have shorter := (List.dropWhile_suffix (· ≠ gt) (l := rest)).length_le
    simp only [List.length_tail,List.length_cons]
    omega
  · have shorter := refs.shorter _ _ _ found
    simp only [List.length_cons]
    omega
  · simp
  · simp

variable {refs : References}

@[simp] theorem tokens_nil : tokens refs [] = [] := by
  rw [tokens]

theorem tokens_tag (text rest : JsString) (closed : gt ∉ text) :
    tokens refs (lt :: (text ++ gt :: rest)) = .tag text :: tokens refs rest := by
  have inside : ∀ u ∈ text, decide (u ≠ gt) = true := by
    intro u member
    exact decide_eq_true fun same => closed (same ▸ member)
  rw [tokens,if_pos rfl,List.takeWhile_append_of_pos inside,List.dropWhile_append_of_pos inside]
  simp

theorem tokens_reference (text after rest : JsString) (found : refs.read rest = some (text,after)) :
    tokens refs (amp :: rest) = text.map .char ++ tokens refs after := by
  rw [tokens,if_neg (by decide),if_pos rfl]
  split
  · rename_i text' after' read
    obtain ⟨rfl,rfl⟩ := Prod.mk.inj (Option.some.inj (read.symm.trans found))
    rfl
  · rename_i read
    cases read.symm.trans found

/-- Text without markup. -/
def Plain (s : JsString) : Prop := ∀ u ∈ s, u ≠ lt ∧ u ≠ amp

instance (s : JsString) : Decidable (Plain s) := List.decidableBAll (fun u => u ≠ lt ∧ u ≠ amp) s

theorem tokens_plain (s rest : JsString) (plain : Plain s) :
    tokens refs (s ++ rest) = s.map .char ++ tokens refs rest := by
  induction s with
  | nil => rfl
  | cons u s ih =>
    obtain ⟨notLt,notAmp⟩ := plain u List.mem_cons_self
    rw [List.cons_append,tokens,if_neg notLt,if_neg notAmp,ih fun v member => plain v (List.mem_cons_of_mem u member)]
    rfl

/-- A browser gets one character back for each that was escaped. -/
theorem tokens_escapeUnit (u : UInt16) (rest : JsString) :
    tokens refs (escapeUnit u ++ rest) = .char u :: tokens refs rest := by
  unfold escapeUnit
  split
  · rename_i same
    subst same
    exact tokens_reference _ _ _ (refs.amp rest)
  split
  · rename_i same
    subst same
    exact tokens_reference _ _ _ (refs.lt rest)
  split
  · rename_i same
    subst same
    exact tokens_reference _ _ _ (refs.gt rest)
  split
  · rename_i same
    subst same
    exact tokens_reference _ _ _ (refs.quot rest)
  split
  · rename_i same
    subst same
    exact tokens_reference _ _ _ (refs.apos rest)
  rename_i notAmp notLt _ _ _
  exact tokens_plain [u] rest (by simpa [Plain] using ⟨notLt,notAmp⟩)

theorem tokens_escapeHTML (s rest : JsString) : tokens refs (escapeHTML s ++ rest) = s.map .char ++ tokens refs rest := by
  rw [escapeHTML_eq]
  induction s with
  | nil => rfl
  | cons u s ih => rw [List.flatMap_cons,List.append_assoc,tokens_escapeUnit,ih]; rfl

/-- `formatNumber` and `Math.round` in a template, which write no markup. -/
structure Format (F : Type) where
  formatNumber : F → JsString
  round : F → JsString
  formatNumber_plain : ∀ x, Plain (formatNumber x)
  round_plain : ∀ x, Plain (round x)

def decimal (n : Nat) : JsString := utf16 (Nat.toDigits 10 n)

def rankClass (rank : Nat) : JsString := js "rank-val" ++ if rank ≤ 3 then js " rank-" ++ decimal rank else []

def cell (style content : JsString) : JsString :=
  js "\n            <td class=\"" ++ style ++ js "\">" ++ content ++ js "</td>"

variable {F : Type}

/-- The `innerHTML` of a row. -/
def rowHTML (format : Format F) (rank : Nat) (entry : LeaderboardEntry F) : JsString :=
  cell (rankClass rank) (decimal rank) ++
    cell (js "team-name") (escapeHTML (utf16 entry.contestantID)) ++
    cell (js "metric-val") (format.formatNumber entry.tps ++ js " orders/sec") ++
    cell (js "latency-val") (format.formatNumber entry.p99Latency ++ js " ms") ++
    cell (js "success-val") (format.formatNumber entry.successRate ++ js "%") ++
    cell (js "score-val") (format.round entry.score) ++ js "\n        "

/-- The body of the table: the row that says that there is nothing, or a row for each entry with
its `id` and its content. -/
inductive Body where
  | placeholder
  | rows (rows : List (JsString × JsString))
  deriving DecidableEq, Repr

def updateLeaderboardTable (format : Format F) (data : List (LeaderboardEntry F)) : Body :=
  if data.isEmpty then .placeholder
  else .rows (data.zipIdx.map fun (entry,index) =>
    (js "sub-" ++ utf16 entry.submissionID,rowHTML format (index + 1) entry))

/-- A row as it is meant: the texts of its cells. -/
def rowTexts (format : Format F) (rank : Nat) (entry : LeaderboardEntry F) : List (JsString × JsString) :=
  [(rankClass rank,decimal rank),(js "team-name",utf16 entry.contestantID),
    (js "metric-val",format.formatNumber entry.tps ++ js " orders/sec"),
    (js "latency-val",format.formatNumber entry.p99Latency ++ js " ms"),
    (js "success-val",format.formatNumber entry.successRate ++ js "%"),(js "score-val",format.round entry.score)]

def cellTokens : JsString × JsString → List Token
  | (style,text) => (js "\n            ").map .char ++ .tag (js "td class=\"" ++ style ++ js "\"") :: text.map .char ++
      [.tag (js "/td")]

/-- HTML that reads as a text. -/
def Reads (refs : References) (html text : JsString) : Prop :=
  ∀ rest, tokens refs (html ++ rest) = text.map .char ++ tokens refs rest

theorem Reads.plain (plain : Plain s) : Reads refs s s := fun rest => tokens_plain s rest plain

theorem Reads.escaped (s : JsString) : Reads refs (escapeHTML s) s := fun rest => tokens_escapeHTML s rest

theorem Reads.append (first : Reads refs html text) (second : Reads refs html' text') :
    Reads refs (html ++ html') (text ++ text') := by
  intro rest
  rw [List.append_assoc,first,second,List.map_append,List.append_assoc]

theorem tokens_cell (reads : Reads refs content text) (closed : gt ∉ style) (rest : JsString) :
    tokens refs (cell style content ++ rest) = cellTokens (style,text) ++ tokens refs rest := by
  have opening : gt ∉ js "td class=\"" ++ style ++ js "\"" := by
    have before : gt ∉ js "td class=\"" := by decide
    have after : gt ∉ js "\"" := by decide
    simp [before,closed,after]
  have html : cell style content ++ rest = js "\n            " ++
      lt :: ((js "td class=\"" ++ style ++ js "\"") ++ gt :: (content ++ lt :: (js "/td" ++ gt :: rest))) := by
    have first : js "\n            <td class=\"" = js "\n            " ++ lt :: js "td class=\"" := by decide
    have second : js "\">" = js "\"" ++ [gt] := by decide
    have third : js "</td>" = lt :: (js "/td" ++ [gt]) := by decide
    simp [cell,first,second,third]
  rw [html,tokens_plain _ _ (by decide),tokens_tag _ _ opening,reads,tokens_tag _ _ (by decide)]
  simp [cellTokens]

theorem mem_decimal (member : u ∈ decimal n) : u ≠ lt ∧ u ≠ amp ∧ u ≠ gt := by
  obtain ⟨c,digit,unit⟩ := List.mem_flatMap.mp member
  have isDigit := Nat.isDigit_of_mem_toDigits (by decide) (by decide) digit
  have range : 48 ≤ c.toNat ∧ c.toNat ≤ 57 := by
    simp only [Char.isDigit,Bool.and_eq_true,decide_eq_true_eq] at isDigit
    exact isDigit
  rw [units,if_pos (by omega)] at unit
  obtain rfl := List.mem_singleton.mp unit
  have value : c.toNat.toUInt16.toNat = c.toNat := Nat.mod_eq_of_lt (by omega)
  have differs (v : UInt16) (outside : v.toNat < 48 ∨ 57 < v.toNat) : c.toNat.toUInt16 ≠ v := by
    rintro rfl
    omega
  exact ⟨differs lt (by decide),differs amp (by decide),differs gt (by decide)⟩

theorem decimal_plain (n : Nat) : Plain (decimal n) := fun _ member => ⟨(mem_decimal member).1,(mem_decimal member).2.1⟩

theorem rankClass_closed (rank : Nat) : gt ∉ rankClass rank := by
  have fixed : gt ∉ js "rank-val" ∧ gt ∉ js " rank-" := by decide
  unfold rankClass
  split
  · simp only [List.mem_append,not_or]
    exact ⟨fixed.1,fixed.2,fun member => (mem_decimal member).2.2 rfl⟩
  · simpa using fixed.1

theorem row_reads (refs : References) (format : Format F) (rank : Nat) (entry : LeaderboardEntry F) :
    tokens refs (rowHTML format rank entry) =
      (rowTexts format rank entry).flatMap cellTokens ++ (js "\n        ").map .char := by
  have unit (x : F) (suffix : JsString) (plain : Plain suffix) :
      Reads refs (format.formatNumber x ++ suffix) (format.formatNumber x ++ suffix) :=
    (Reads.plain (format.formatNumber_plain x)).append (Reads.plain plain)
  have space : tokens refs (js "\n        ") = (js "\n        ").map .char := by
    simpa using tokens_plain (js "\n        ") [] (by decide)
  simp only [rowHTML,List.append_assoc]
  rw [tokens_cell (Reads.plain (decimal_plain rank)) (rankClass_closed rank),tokens_cell (Reads.escaped _) (by decide),
    tokens_cell (unit _ _ (by decide)) (by decide),tokens_cell (unit _ _ (by decide)) (by decide),
    tokens_cell (unit _ _ (by decide)) (by decide),tokens_cell (Reads.plain (format.round_plain _)) (by decide),space]
  simp [rowTexts]

/-- The rows of the table are those of the entries, in their order and with their ranks. -/
theorem table_reads (refs : References) (format : Format F) {data : List (LeaderboardEntry F)}
    {rows : List (JsString × JsString)} (shown : updateLeaderboardTable format data = .rows rows) :
    rows.map (fun row => tokens refs row.2) =
      data.zipIdx.map fun x => (rowTexts format (x.2 + 1) x.1).flatMap cellTokens ++ (js "\n        ").map .char := by
  unfold updateLeaderboardTable at shown
  split at shown
  · cases shown
  · obtain rfl := Body.rows.inj shown
    rw [List.map_map]
    apply List.map_congr_left
    intro x _
    exact row_reads refs format (x.2 + 1) x.1

inductive LogType where
  | system | success
  deriving DecidableEq, Repr

structure Log where
  sender : JsString
  msg : JsString
  type : LogType
  deriving DecidableEq, Repr

/-- The `innerHTML` of an item; the time is written by the browser. -/
def itemHTML (time : { time : JsString // Plain time }) (log : Log) : JsString :=
  js "\n        <span class=\"feed-time\">" ++ time ++ js "</span>\n        <span class=\"feed-msg\"><strong>" ++
    escapeHTML log.sender ++ js ":</strong> " ++ escapeHTML log.msg ++ js "</span>\n    "

def itemTokens (time : JsString) (log : Log) : List Token :=
  (js "\n        ").map Token.char ++ Token.tag (js "span class=\"feed-time\"") :: time.map Token.char ++
    Token.tag (js "/span") ::
    (js "\n        ").map Token.char ++ Token.tag (js "span class=\"feed-msg\"") :: Token.tag (js "strong") ::
      log.sender.map Token.char ++
    (js ":").map Token.char ++ Token.tag (js "/strong") :: (js " ").map Token.char ++ log.msg.map Token.char ++
    Token.tag (js "/span") :: (js "\n    ").map Token.char

theorem item_reads (refs : References) (time : { time : JsString // Plain time }) (log : Log) :
    tokens refs (itemHTML time log) = itemTokens time log := by
  have first : js "\n        <span class=\"feed-time\">" =
    js "\n        " ++ lt :: (js "span class=\"feed-time\"" ++ [gt]) := by decide
  have second : js "</span>\n        <span class=\"feed-msg\"><strong>" = lt :: (js "/span" ++ gt :: (js "\n        " ++
      lt :: (js "span class=\"feed-msg\"" ++ gt :: lt :: (js "strong" ++ [gt])))) := by decide
  have third : js ":</strong> " = js ":" ++ lt :: (js "/strong" ++ gt :: js " ") := by decide
  have last : js "</span>\n    " = lt :: (js "/span" ++ gt :: (js "\n    " ++ [])) := by decide
  simp only [itemHTML,first,second,third,last,List.append_assoc,List.cons_append,List.nil_append]
  rw [tokens_plain _ _ (by decide),tokens_tag _ _ (by decide),tokens_plain _ _ time.2,tokens_tag _ _ (by decide),
    tokens_plain _ _ (by decide),tokens_tag _ _ (by decide),tokens_tag _ _ (by decide),tokens_escapeHTML,
    tokens_plain _ _ (by decide),tokens_tag _ _ (by decide),tokens_plain _ _ (by decide),tokens_escapeHTML,
    tokens_tag _ _ (by decide),tokens_plain _ _ (by decide),tokens_nil]
  simp [itemTokens]

/-- Whatever names the contestants choose, a browser finds in a row of the table the six cells that
are meant, in an item of the log its sender and message, and the names as text. -/
theorem names_stay_text (refs : References) (format : Format F) :
    (∀ rank entry, tokens refs (rowHTML format rank entry) =
      (rowTexts format rank entry).flatMap cellTokens ++ (js "\n        ").map .char) ∧
    ∀ time log, tokens refs (itemHTML time log) = itemTokens time log :=
  ⟨row_reads refs format,item_reads refs⟩

def fiveNames : List (JsString × UInt16) :=
  [(js "amp;",amp),(js "lt;",lt),(js "gt;",gt),(js "quot;",quot),(js "#039;",apos)]

/-- A browser that knows no other names. -/
def fiveReferences : References where
  read s := fiveNames.findSome? fun x => if x.1.isPrefixOf s then some ([x.2],s.drop x.1.length) else none
  shorter := by
    intro s text rest found
    obtain ⟨x,_,read⟩ := List.exists_of_findSome?_eq_some found
    split at read
    · obtain ⟨_,rfl⟩ := Prod.mk.inj (Option.some.inj read)
      simp
    · simp at read
  amp _ := rfl
  lt _ := rfl
  gt _ := rfl
  quot _ := rfl
  apos _ := rfl

/-- Numbers as tallies. -/
def tallyFormat : Format Nat where
  formatNumber n := List.replicate n 124
  round n := List.replicate n 124
  formatNumber_plain n u member := by
    rw [List.eq_of_mem_replicate member]
    decide
  round_plain n u member := by
    rw [List.eq_of_mem_replicate member]
    decide

def scriptEntry : LeaderboardEntry Nat := ⟨['s'],"<script>&lt;".toList,3,2,1,4,0⟩

/-- A team name with a tag and an entity in it is shown as it was typed. -/
theorem script_stays_text :
    tokens fiveReferences (rowHTML tallyFormat 1 scriptEntry) =
      (rowTexts tallyFormat 1 scriptEntry).flatMap cellTokens ++ (js "\n        ").map .char ∧
    (js "team-name",js "<script>&lt;") ∈ rowTexts tallyFormat 1 scriptEntry :=
  ⟨(names_stay_text fiveReferences tallyFormat).1 1 scriptEntry,by decide⟩

/-- What the element of the log has below it. The white space around the item that the page is
served with is a node as well, but `children` does not count it. -/
inductive Node where
  | space
  | served
  | item (log : Log)
  deriving DecidableEq, Repr

def Node.isElement : Node → Bool
  | .space => false
  | _ => true

def servedFeed : List Node := [.space,.served,.space]

/-- The limit is put on the elements, and what is removed is the last node. -/
def addActivityLog (feed : List Node) (log : Log) : List Node :=
  let feed := .item log :: feed
  if 30 < feed.countP Node.isElement then feed.dropLast else feed

/-- Everything that was ever in the log, from the latest. -/
def everything (logs : List Log) : List Node := logs.reverse.map .item ++ servedFeed

theorem everything_snoc (logs : List Log) (log : Log) : everything (logs ++ [log]) = .item log :: everything logs := by
  simp [everything]

theorem everything_elements (logs : List Log) :
    (everything logs).countP Node.isElement + 2 = (everything logs).length := by
  have items : (logs.reverse.map Node.item).countP Node.isElement = logs.length := by
    rw [List.countP_eq_length.mpr (by simp [Node.isElement])]
    simp
  have rest : servedFeed.countP Node.isElement = 1 := rfl
  rw [everything,List.countP_append,items,rest]
  simp [servedFeed]

/-- The two spaces are not counted, so that the log grows to 32 nodes, and to 32 items once it has
lost the spaces. -/
theorem addActivityLog_everything (logs : List Log) (log : Log) :
    addActivityLog ((everything logs).take 32) log = (everything (logs ++ [log])).take 32 := by
  have elements := everything_elements logs
  rw [everything_snoc,addActivityLog,List.take_succ_cons,List.countP_cons_of_pos rfl]
  by_cases short : (everything logs).length < 32
  · rw [List.take_of_length_le (by omega),List.take_of_length_le (by omega),if_neg (by omega)]
  · have kept : (everything logs).countP Node.isElement =
        ((everything logs).take 32).countP Node.isElement + ((everything logs).drop 32).countP Node.isElement := by
      rw [← List.countP_append,List.take_append_drop]
    have beyond := List.countP_le_length (p := Node.isElement) (l := (everything logs).drop 32)
    rw [List.length_drop] at beyond
    have full : ((everything logs).take 32).length = 32 := List.length_take_of_le (by omega)
    rw [if_pos (by omega),List.dropLast_eq_take,List.length_cons,full,Nat.add_sub_cancel,List.take_succ_cons,
      List.take_take]
    rfl

end TradingPlatform.Leaderboard.Dashboard

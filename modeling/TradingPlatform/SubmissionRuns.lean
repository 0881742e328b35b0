import TradingPlatform.Submissions

/-! What clients of the submission service can rely on over every interleaving of its handlers and
goroutines: the statuses shown for a submission never go back, and no submission's files are touched
on behalf of another. UUIDs are assumed not to repeat. -/
namespace TradingPlatform.Submissions

open Documents FileTree Paths Runs Text

section Names

/-- The value of a digit. -/
def digitValue (d : UInt8) : UInt8 := if d < 97 then d - 48 else d - 87

theorem hexDigit_small (small : n.toNat < 16) : hexDigit n ≠ slash ∧ digitValue (hexDigit n) = n := by
  have all : ∀ i : Fin 16, hexDigit (UInt8.ofNat i) ≠ slash ∧
    digitValue (hexDigit (UInt8.ofNat i)) = UInt8.ofNat i := by decide
  simpa using all ⟨n.toNat,small⟩

theorem halves_small (b : UInt8) : (b / 16).toNat < 16 ∧ (b % 16).toNat < 16 := by
  have bound := b.toNat_lt
  rw [UInt8.toNat_div,UInt8.toNat_mod]
  exact ⟨Nat.div_lt_of_lt_mul bound,Nat.mod_lt _ (by decide)⟩

theorem hexDigit_value (b : UInt8) : digitValue (hexDigit (b / 16)) * 16 + digitValue (hexDigit (b % 16)) = b := by
  have bound := b.toNat_lt
  rw [(hexDigit_small (halves_small b).1).2,(hexDigit_small (halves_small b).2).2]
  apply UInt8.toNat.inj
  simp only [UInt8.toNat_add,UInt8.toNat_mul,UInt8.toNat_div,UInt8.toNat_mod,UInt8.reduceToNat]
  omega

theorem hex_length (raw : List UInt8) : (hex raw).length = 2 * raw.length := by
  induction raw with
  | nil => rfl
  | cons b raw ih =>
    rw [hex,List.flatMap_cons,List.length_append,← hex,ih]
    simp only [List.length_cons,List.length_nil]
    omega

theorem hex_injective (same : hex xs = hex ys) : xs = ys := by
  induction xs generalizing ys with
  | nil =>
    cases ys with
    | nil => rfl
    | cons c ys => simp [hex] at same
  | cons b xs ih =>
    cases ys with
    | nil => simp [hex] at same
    | cons c ys =>
      simp only [hex,List.flatMap_cons,List.cons_append,List.nil_append,List.cons.injEq] at same
      obtain ⟨high,low,rest⟩ := same
      rw [← hexDigit_value b,high,low,hexDigit_value,ih rest]

theorem not_mem_hex (raw : List UInt8) : slash ∉ hex raw := by
  intro member
  obtain ⟨b,_,inside⟩ := List.mem_flatMap.mp member
  simp only [List.mem_cons,List.not_mem_nil,or_false] at inside
  rcases inside with high | low
  · exact (hexDigit_small (halves_small b).1).1 high.symm
  · exact (hexDigit_small (halves_small b).2).1 low.symm

theorem Uuid.string_length (u : Uuid) : (Uuid.string u).length = 36 := by
  have length := u.property
  simp only [Uuid.string,List.length_append,List.length_cons,hex_length,List.length_take,List.length_drop]
  omega

theorem Uuid.string_injective {u v : Uuid} (same : Uuid.string u = Uuid.string v) : u = v := by
  have length := u.property
  have length' := v.property
  have sizes (k n : Nat) : (hex ((u.val.drop k).take n)).length = (hex ((v.val.drop k).take n)).length := by
    simp only [hex_length,List.length_take,List.length_drop]
    omega
  obtain ⟨first,same⟩ := List.append_inj same (sizes 0 4)
  obtain ⟨second,same⟩ := List.append_inj (List.cons.inj same).2 (sizes 4 2)
  obtain ⟨third,same⟩ := List.append_inj (List.cons.inj same).2 (sizes 6 2)
  obtain ⟨fourth,fifth⟩ := List.append_inj (List.cons.inj same).2 (sizes 8 2)
  have parts (raw : List UInt8) :
    raw = raw.take 4 ++
      ((raw.drop 4).take 2 ++ ((raw.drop 6).take 2 ++ ((raw.drop 8).take 2 ++ raw.drop 10))) := by
    have cut (k n : Nat) : (raw.drop k).take n ++ raw.drop (k + n) = raw.drop k := by
      rw [← List.drop_drop,List.take_append_drop]
    rw [cut 8 2,cut 6 2,cut 4 2,List.take_append_drop]
  apply Subtype.ext
  rw [parts u.val,parts v.val,hex_injective first,hex_injective second,hex_injective third,hex_injective fourth,
    hex_injective (List.cons.inj fifth).2]

theorem Uuid.not_mem_string (u : Uuid) : slash ∉ Uuid.string u := by
  have dash : slash ≠ 45 := by decide
  simp [Uuid.string,not_mem_hex,dash]

/-- A UUID and what has no slash make the name of a directory entry. -/
theorem Uuid.isName (u : Uuid) (outside : slash ∉ x) : IsName (Uuid.string u ++ x) := by
  have long : 36 ≤ (Uuid.string u ++ x).length := by
    rw [List.length_append,Uuid.string_length]
    omega
  refine ⟨?_,?_,?_,?_⟩
  · rintro same
    rw [same] at long
    simp at long
  · intro same
    rw [same] at long
    exact absurd long (by decide)
  · intro same
    rw [same] at long
    exact absurd long (by decide)
  · simp [Uuid.not_mem_string,outside]

end Names

/-- What stands before the names in the upload directory. -/
def front (dir : Bytes) : Bytes := inside (if dir = [] then dot else clean dir)

/-- A path that begins with the ID of a submission. -/
def Under (dir id path : Bytes) : Prop := front dir ++ id <+: path

/-- An entry of the upload directory itself, named by the ID and an extension. -/
def Direct (dir id path : Bytes) : Prop := ∃ x, slash ∉ x ∧ path = front dir ++ (id ++ x)

theorem Direct.under (direct : Direct dir name path) : Under dir name path := by
  obtain ⟨x,_,rfl⟩ := direct
  rw [← List.append_assoc]
  exact List.prefix_append _ _

theorem destPath_direct (dir : Bytes) (u : Uuid) (filename : Bytes) :
    Direct dir (Uuid.string u) (join [dir,Uuid.string u ++ ext filename]) :=
  ⟨ext filename,not_mem_ext filename,join_child dir (Uuid.isName u (not_mem_ext filename))⟩

theorem clone_under (dir : Bytes) (u : Uuid) (rel : Bytes) :
    Under dir (Uuid.string u) (destDir dir (Uuid.string u) ++ slash :: rel) := by
  have name := Uuid.isName u (show slash ∉ [] by simp)
  rw [List.append_nil] at name
  rw [destDir,join_child dir name]
  exact List.prefix_append _ _

theorem Under.apart (first : Under dir (Uuid.string u) path) (second : Under dir (Uuid.string v) path) : u = v := by
  have length : (front dir ++ Uuid.string u).length = (front dir ++ Uuid.string v).length := by
    rw [List.length_append,List.length_append,Uuid.string_length,Uuid.string_length]
  have same : front dir ++ Uuid.string u = front dir ++ Uuid.string v :=
    (List.prefix_of_prefix_length_le first second length.le).eq_of_length length
  exact Uuid.string_injective (List.append_cancel_left same)

/-- How a status can change. -/
def Reaches (a b : SubmissionStatus) : Prop := a = b ∨ a = .pending ∨ a = .compiling ∧ b ≠ .pending

theorem Reaches.trans (first : Reaches a b) (second : Reaches b c) : Reaches a c := by
  rcases first with rfl | rfl | ⟨rfl,later⟩
  · exact second
  · exact .inr (.inl rfl)
  · rcases second with rfl | rfl | ⟨rfl,after⟩
    · exact .inr (.inr ⟨rfl,later⟩)
    · exact absurd rfl later
    · exact .inr (.inr ⟨rfl,after⟩)

/-- Where the goroutine stands against what it has written. -/
def Suits (e : Entry) : Prop :=
  match e.task with
  | .creating _ _ | .copying _ _ _ | .starting _ => e.sub.status = .pending ∧ e.sub.logs = []
  | .marked _ | .cloning _ => e.sub.status = .compiling ∧ e.sub.logs = []
  | .judged _ => e.sub.logs = []
  | .logged | .idle => True

/-- What time can do to a submission: the log is written once. -/
structure Ages (sub sub' : Submission) : Prop where
  id : sub'.id = sub.id
  contestantID : sub'.contestantID = sub.contestantID
  status : Reaches sub.status sub'.status
  logs : sub.logs = [] ∨ sub'.logs = sub.logs

theorem Ages.refl (sub : Submission) : Ages sub sub := ⟨rfl,rfl,.inl rfl,.inr rfl⟩

theorem Ages.trans (first : Ages a b) (second : Ages b c) : Ages a c := by
  refine ⟨second.id.trans first.id,second.contestantID.trans first.contestantID,first.status.trans second.status,?_⟩
  rcases first.logs with none | same
  · exact .inl none
  · rcases second.logs with none | same'
    · exact .inl (same ▸ none)
    · exact .inr (same'.trans same)

/-- Everything a job can do. -/
inductive Works (dir : Bytes) (files : Files) (r : Nat) : Entry → Event → Entry → Files → Prop
  | create : Works dir files r ⟨sub,.creating filename data⟩ .quiet
      ⟨sub,.copying (join [dir,sub.id ++ ext filename]) data 0⟩
      (Function.update files (join [dir,sub.id ++ ext filename]) (some []))
  | refuse : Works dir files r ⟨sub,.creating filename data⟩ (.refused (500,"could not save file")) ⟨sub,.idle⟩ files
  | copy (n : Nat) : Works dir files r ⟨sub,.copying destPath data offset⟩ .quiet
      ⟨sub,.copying destPath data (offset + ((data.drop offset).take n).length)⟩ (Function.update files destPath
        ((files destPath).map fun content => writeAt content offset ((data.drop offset).take n)))
  | endCopy : Works dir files r ⟨sub,.copying destPath data offset⟩ (.copied r destPath data offset) ⟨sub,.idle⟩ files
  | mark : Works dir files r ⟨sub,.starting url⟩ .quiet ⟨{ sub with status := .compiling },.marked url⟩ files
  | saveMarked : Works dir files r ⟨sub,.marked url⟩ .quiet ⟨sub,.cloning url⟩ files
  | saveLogged : Works dir files r ⟨sub,.logged⟩ .quiet ⟨sub,.idle⟩ files
  | gitWrite : Works dir files r ⟨sub,.cloning url⟩ .quiet ⟨sub,.cloning url⟩
      (Function.update files (destDir dir sub.id ++ slash :: rel) (some content))
  | clone (ended : status = .success ∨ status = .failed) :
      Works dir files r ⟨sub,.cloning url⟩ .quiet ⟨{ sub with status := status },.judged logs⟩ files
  | log : Works dir files r ⟨sub,.judged logs⟩ .quiet ⟨{ sub with logs := logs },.logged⟩ files

theorem work_works (result : work dir e files r job = some (event,e',files')) : Works dir files r e event e' files' := by
  obtain ⟨sub,task⟩ := e
  cases job with
  | create ok =>
    cases task with
    | creating filename data =>
      cases ok with
      | true =>
        cases result
        exact .create
      | false =>
        cases result
        exact .refuse
    | _ => cases result
  | copy n =>
    cases task with
    | copying destPath data offset =>
      cases result
      exact .copy n
    | _ => cases result
  | endCopy failed =>
    cases task with
    | copying destPath data offset =>
      simp only [work] at result
      split at result
      · cases result
        exact .endCopy
      · cases result
    | _ => cases result
  | mark =>
    cases task with
    | starting url =>
      cases result
      exact .mark
    | _ => cases result
  | save =>
    cases task with
    | marked url =>
      cases result
      exact .saveMarked
    | logged =>
      cases result
      exact .saveLogged
    | _ => cases result
  | gitWrite rel content =>
    cases task with
    | cloning url =>
      cases result
      exact .gitWrite
    | _ => cases result
  | clone err out =>
    cases task with
    | cloning url =>
      cases result
      refine .clone ?_
      cases err with
      | none => exact .inl rfl
      | some message => exact .inr rfl
    | _ => cases result
  | log =>
    cases task with
    | judged logs =>
      cases result
      exact .log
    | _ => cases result

/-- A job ages its submission. -/
theorem Works.ages (works : Works dir files r e event e' files') (suits : Suits e) : Suits e' ∧ Ages e.sub e'.sub := by
  cases works with
  | create => exact ⟨suits,.refl _⟩
  | refuse => exact ⟨trivial,.refl _⟩
  | copy n => exact ⟨suits,.refl _⟩
  | endCopy => exact ⟨trivial,.refl _⟩
  | mark => exact ⟨⟨rfl,suits.2⟩,rfl,rfl,.inr (.inl suits.1),.inr rfl⟩
  | saveMarked => exact ⟨suits,.refl _⟩
  | saveLogged => exact ⟨trivial,.refl _⟩
  | gitWrite => exact ⟨suits,.refl _⟩
  | clone ended =>
    refine ⟨suits.2,rfl,rfl,.inr (.inr ⟨suits.1,?_⟩),.inr rfl⟩
    rcases ended with rfl | rfl <;> simp
  | log => exact ⟨trivial,rfl,rfl,.inl rfl,.inl suits⟩

theorem writeAt_next (data : Bytes) (within : offset ≤ data.length) (n : Nat) :
    writeAt (data.take offset) offset ((data.drop offset).take n) =
      data.take (offset + ((data.drop offset).take n).length) := by
  have length : (data.take offset).length = offset := List.length_take_of_le within
  have chunk : (data.drop offset).take ((data.drop offset).take n).length = (data.drop offset).take n := by
    rw [List.length_take,← List.take_take,List.take_length]
  have past : (data.take offset).drop (offset + ((data.drop offset).take n).length) = [] :=
    List.drop_eq_nil_of_le (by omega)
  rw [writeAt,List.take_take,Nat.min_self,length,Nat.sub_self,past,List.take_add,chunk]
  simp

/-- A copy has got as far as it says. -/
def Holds (dir : Bytes) (files : Files) (e : Entry) : Prop :=
  match e.task with
  | .copying destPath data offset =>
    Direct dir e.sub.id destPath ∧ offset ≤ data.length ∧ files destPath = some (data.take offset)
  | _ => True

theorem Works.holds (works : Works dir files r e event e' files') (named : e.sub.id = Uuid.string u)
    (holds : Holds dir files e) :
    Holds dir files' e' := by
  cases works with
  | create =>
    refine ⟨?_,Nat.zero_le _,Function.update_self _ _ _⟩
    rw [named]
    exact destPath_direct dir u _
  | copy n =>
    obtain ⟨own,within,held⟩ := holds
    refine ⟨own,?_,?_⟩
    · simp only [List.length_take,List.length_drop]
      omega
    · rw [Function.update_self,held,Option.map_some,writeAt_next _ within n]
  | _ => trivial

/-- A job writes no file but those of its own submission. -/
theorem Works.elsewhere (works : Works dir files r e event e' files') (named : e.sub.id = Uuid.string u)
    (holds : Holds dir files e) (other : ¬Under dir e.sub.id path) : files' path = files path := by
  have apart {own : Bytes} (under : Under dir e.sub.id own) : path ≠ own := by
    rintro rfl
    exact other under
  cases works with
  | create =>
    refine Function.update_of_ne (apart ?_) _ _
    rw [named]
    exact (destPath_direct dir u _).under
  | copy n => exact Function.update_of_ne (apart holds.1.under) _ _
  | gitWrite =>
    refine Function.update_of_ne (apart ?_) _ _
    rw [named]
    exact clone_under dir u _
  | _ => rfl

/-- A copy ends with what it has copied. -/
theorem Works.copied (works : Works dir files r e (.copied r' destPath data offset) e' files')
    (holds : Holds dir files e) :
    r' = r ∧ e'.task = .idle ∧ Direct dir e.sub.id destPath ∧ files' destPath = some (data.take offset) := by
  cases works with
  | endCopy => exact ⟨rfl,rfl,holds.1,holds.2.2⟩

/-- What is copied is what came with the request for that ID. -/
def Sourced (dir : Bytes) (es : List Event) (e : Entry) : Prop :=
  match e.task with
  | .creating filename data => .created e.sub.id (some (filename,data)) ∈ es
  | .copying destPath data _ => ∃ filename, destPath = join [dir,e.sub.id ++ ext filename] ∧
      .created e.sub.id (some (filename,data)) ∈ es
  | _ => True

theorem Works.sourced (works : Works dir files r e event e' files') (sourced : Sourced dir es e) : Sourced dir es e' := by
  cases works with
  | create => exact ⟨_,rfl,sourced⟩
  | copy n => exact sourced
  | _ => trivial

theorem Works.source (works : Works dir files r e (.copied r' destPath data offset) e' files')
    (sourced : Sourced dir es e) :
    r' = r ∧ ∃ filename, destPath = join [dir,e.sub.id ++ ext filename] ∧
    .created e.sub.id (some (filename,data)) ∈ es := by
  cases works with
  | endCopy => exact ⟨rfl,sourced⟩

theorem Sourced.later (sourced : Sourced dir es e) (event : Event) : Sourced dir (es ++ [event]) e := by
  unfold Sourced at sourced ⊢
  split at sourced
  · exact List.mem_append_left _ sourced
  · obtain ⟨filename,path,source⟩ := sourced
    exact ⟨filename,path,List.mem_append_left _ source⟩
  · trivial

theorem Works.busy (works : Works dir files r e event e' files') : e.task ≠ .idle := by
  cases works <;> simp

/-- The IDs that have been given out. -/
def issued (es : List Event) : List Bytes := es.filterMap fun | .created id _ => some id | _ => none

/-- The statuses that responses have read of a submission, in order. -/
def shownOf (r : Nat) (es : List Event) : List SubmissionStatus :=
  es.filterMap fun | .shown r' status => if r' = r then some status else none | _ => none

theorem issued_append (es es' : List Event) : issued (es ++ es') = issued es ++ issued es' := List.filterMap_append

theorem shownOf_append (r : Nat) (es es' : List Event) : shownOf r (es ++ es') = shownOf r es ++ shownOf r es' :=
  List.filterMap_append

/-- Everything a step of the service can be. -/
inductive Moves (dir : Bytes) (s : State) : Event → State → Prop
  | refuse : Moves dir s (.refused error) s
  | submit (uuid : Uuid) (contestantID : Bytes) (now : Int) (task : Task) (more : List Reader)
      (begins : Suits ⟨⟨Uuid.string uuid,contestantID,.pending,[],[],now⟩,task⟩)
      (idle : ∀ destPath data offset, task ≠ .copying destPath data offset)
      (source : Option (Bytes × Bytes))
      (sourced : ∀ filename data, task = .creating filename data → source = some (filename,data))
      (own : ∀ reader ∈ more, reader = .holding 202 s.entries.length) :
      Moves dir s (.created (Uuid.string uuid) source)
        { s.submit uuid contestantID now task with readers := s.readers ++ more }
  | get (found : s.data name = some r) : Moves dir s .quiet { s with readers := s.readers ++ [.holding 200 r] }
  | work (found : s.entries[r]? = some e) (works : Works dir s.files r e event e' files)
      (saved : data = s.data ∨ data = Function.update s.data e.sub.id (some r))
      (own : ∀ reader ∈ more, reader = .holding 202 r) :
      Moves dir s event ⟨s.entries.set r e',data,files,s.readers ++ more⟩
  | readStatus (held : .holding code r ∈ s.readers) (found : s.entries[r]? = some e) :
      Moves dir s (.shown r e.sub.status) { s with readers := s.readers.set k (.encoding code r e.sub.status) }
  | readLogs (held : .encoding code r status ∈ s.readers) (found : s.entries[r]? = some e) :
      Moves dir s (.responded code { e.sub with status := status }) { s with readers := s.readers.set k .written }

theorem upload_moves (result : step dir s (.upload contestantID source uuid now) = some (event,s')) :
    Moves dir s event s' := by
  simp only [step] at result
  split at result
  · cases result
    exact .refuse
  · cases source with
    | none =>
      cases result
      exact .refuse
    | some source =>
      cases result
      have moves : Moves dir s _ _ := .submit uuid contestantID now (.creating source.1 source.2) [] ⟨rfl,rfl⟩
        (by simp) (some source) (by rintro _ _ ⟨⟩; rfl) (by simp)
      rwa [List.append_nil] at moves

theorem gitSubmission_moves (result : step dir s (.gitSubmission body uuid now) = some (event,s')) :
    Moves dir s event s' := by
  simp only [step] at result
  split at result
  · split at result
    · cases result
      exact .refuse
    · cases result
      exact .submit uuid _ now (.starting _) _ ⟨rfl,rfl⟩ (by simp) none (by simp) (by simp)
  · cases result
    exact .refuse

theorem getStatus_moves (result : step dir s (.getStatus path) = some (event,s')) : Moves dir s event s' := by
  simp only [step] at result
  split at result
  · rename_i r found
    cases result
    exact .get found
  · cases result
    exact .refuse

theorem work_moves (result : step dir s (.work r job) = some (event,s')) : Moves dir s event s' := by
  obtain ⟨e,found,worked⟩ := Option.bind_eq_some_iff.mp result
  obtain ⟨⟨event',e',files⟩,done,same⟩ := Option.map_eq_some_iff.mp worked
  cases same
  have works := work_works done
  refine .work found works ?_ ?_
  · split
    · exact .inr rfl
    · exact .inl rfl
  · intro reader member
    cases works <;> simp_all

theorem readStatus_moves (result : step dir s (.readStatus k) = some (event,s')) : Moves dir s event s' := by
  simp only [step] at result
  split at result
  · rename_i code r held
    obtain ⟨e,found,same⟩ := Option.map_eq_some_iff.mp result
    cases same
    exact .readStatus (List.mem_of_getElem? held) found
  · cases result

theorem readLogs_moves (result : step dir s (.readLogs k) = some (event,s')) : Moves dir s event s' := by
  simp only [step] at result
  split at result
  · rename_i code r status held
    obtain ⟨e,found,same⟩ := Option.map_eq_some_iff.mp result
    cases same
    exact .readLogs (List.mem_of_getElem? held) found
  · cases result

theorem step_moves (result : step dir s a = some (event,s')) : Moves dir s event s' := by
  cases a with
  | upload => exact upload_moves result
  | gitSubmission => exact gitSubmission_moves result
  | getStatus => exact getStatus_moves result
  | work => exact work_moves result
  | readStatus => exact readStatus_moves result
  | readLogs => exact readLogs_moves result

/-- What a response on its way knows is something of the past. -/
def Reader.Fits (s : State) : Reader → Prop
  | .holding _ r => ∃ e, s.entries[r]? = some e
  | .encoding _ r status => ∃ e, s.entries[r]? = some e ∧ Reaches status e.sub.status
  | .written => True

/-- What the log tells, against the present. -/
def Event.Fits (dir : Bytes) (s : State) : Event → Prop
  | .shown r status => ∃ e, s.entries[r]? = some e ∧ Reaches status e.sub.status
  | .responded _ sub => ∃ e ∈ s.entries, Ages sub e.sub
  | .copied r destPath data offset => ∃ e, s.entries[r]? = some e ∧ e.task = .idle ∧ Direct dir e.sub.id destPath ∧
      s.files destPath = some (data.take offset)
  | _ => True

structure Upheld (dir : Bytes) (es : List Event) (s : State) : Prop where
  issued : issued es = s.entries.map fun e => e.sub.id
  named : ∀ e ∈ s.entries, ∃ u, e.sub.id = Uuid.string u
  found : ∀ name r, s.data name = some r ↔ ∃ e, s.entries[r]? = some e ∧ e.sub.id = name
  suits : ∀ e ∈ s.entries, Suits e
  holds : ∀ e ∈ s.entries, Holds dir s.files e
  readers : ∀ reader ∈ s.readers, reader.Fits s
  told : ∀ event ∈ es, event.Fits dir s
  ordered : ∀ r, (shownOf r es).Pairwise Reaches
  sourced : ∀ e ∈ s.entries, Sourced dir es e
  sources : ∀ r destPath data offset, .copied r destPath data offset ∈ es → ∃ (e : Entry) (filename : Bytes),
    s.entries[r]? = some e ∧ destPath = join [dir,e.sub.id ++ ext filename] ∧
      .created e.sub.id (some (filename,data)) ∈ es

theorem new_upheld (dir : Bytes) : Upheld dir [] newHandler := by
  constructor <;> simp [newHandler,issued,shownOf]

/-- Entries stay where they are and age. -/
def Grows (s s' : State) : Prop :=
  ∀ (r : Nat) (e : Entry), s.entries[r]? = some e → ∃ e' : Entry, s'.entries[r]? = some e' ∧ Ages e.sub e'.sub

theorem Grows.reader (grows : Grows s s') {reader : Reader} (fits : reader.Fits s) : reader.Fits s' := by
  cases reader with
  | holding code r =>
    obtain ⟨e,found⟩ := fits
    obtain ⟨e',found',_⟩ := grows r e found
    exact ⟨e',found'⟩
  | encoding code r status =>
    obtain ⟨e,found,reaches⟩ := fits
    obtain ⟨e',found',ages⟩ := grows r e found
    exact ⟨e',found',reaches.trans ages.status⟩
  | written => trivial

theorem Grows.event (grows : Grows s s') {event : Event} (fits : event.Fits dir s)
    (kept : ∀ r destPath data offset, event = .copied r destPath data offset → event.Fits dir s') :
    event.Fits dir s' := by
  cases event with
  | shown r status =>
    obtain ⟨e,found,reaches⟩ := fits
    obtain ⟨e',found',ages⟩ := grows r e found
    exact ⟨e',found',reaches.trans ages.status⟩
  | responded code sub =>
    obtain ⟨e,member,ages⟩ := fits
    obtain ⟨r,found⟩ := List.mem_iff_getElem?.mp member
    obtain ⟨e',found',later⟩ := grows r e found
    exact ⟨e',List.mem_of_getElem? found',ages.trans later⟩
  | copied r destPath data offset => exact kept r destPath data offset rfl
  | _ => trivial

/-- Copies of the past keep their source. -/
theorem Upheld.sources_grow (upheld : Upheld dir es s) (grows : Grows s s') (old : .copied r destPath data offset ∈ es)
    (event : Event) :
    ∃ (e : Entry) (filename : Bytes), s'.entries[r]? = some e ∧ destPath = join [dir,e.sub.id ++ ext filename] ∧
      .created e.sub.id (some (filename,data)) ∈ es ++ [event] := by
  obtain ⟨e,filename,found,path,source⟩ := upheld.sources r destPath data offset old
  obtain ⟨e',found',ages⟩ := grows r e found
  refine ⟨e',filename,found',?_,List.mem_append_left _ ?_⟩
  · rw [ages.id]
    exact path
  · rw [ages.id]
    exact source

theorem Grows.refl (s : State) (readers : List Reader) : Grows s { s with readers := readers } :=
    fun _ e found => ⟨e,found,.refl _⟩

/-- A step that leaves entries, store and files alone. -/
theorem Upheld.read (upheld : Upheld dir es s) (readers : ∀ reader ∈ more, reader.Fits s) (fits : event.Fits dir s)
    (uncreated : Submissions.issued [event] = [])
    (uncopied : ∀ r destPath data offset, event ≠ .copied r destPath data offset)
    (ordered : ∀ r, (shownOf r (es ++ [event])).Pairwise Reaches) :
    Upheld dir (es ++ [event]) { s with readers := more } := by
  refine ⟨?_,upheld.named,upheld.found,upheld.suits,upheld.holds,?_,?_,ordered,?_,?_⟩
  · rw [issued_append,uncreated,List.append_nil]
    exact upheld.issued
  · intro reader member
    have fits := readers reader member
    cases reader <;> exact fits
  · intro event' member
    have fits' : event'.Fits dir s := by
      rcases List.mem_append.mp member with old | new
      · exact upheld.told event' old
      · exact List.mem_singleton.mp new ▸ fits
    cases event' <;> exact fits'
  · exact fun e member => (upheld.sourced e member).later event
  · intro r destPath data offset member
    rcases List.mem_append.mp member with old | new
    · exact upheld.sources_grow (.refl s more) old event
    · exact absurd (List.mem_singleton.mp new).symm (uncopied r destPath data offset)

theorem Upheld.quiet_order (upheld : Upheld dir es s) (silent : ∀ r, shownOf r [event] = []) (r : Nat) :
    (shownOf r (es ++ [event])).Pairwise Reaches := by
  rw [shownOf_append,silent,List.append_nil]
  exact upheld.ordered r

theorem mem_shownOf : status ∈ shownOf r es ↔ Event.shown r status ∈ es := by
  constructor
  · intro member
    obtain ⟨event,inside,same⟩ := List.mem_filterMap.mp member
    cases event with
    | shown r' status' =>
      simp only at same
      split at same
      · rename_i own
        rw [← own,← Option.some.inj same]
        exact inside
      · cases same
    | _ => cases same
  · intro member
    exact List.mem_filterMap.mpr ⟨_,member,if_pos rfl⟩

/-- Statuses already shown have been passed on the way to the present one. -/
theorem Upheld.show_order (upheld : Upheld dir es s) (found : s.entries[r]? = some e) (r' : Nat) :
    (shownOf r' (es ++ [.shown r e.sub.status])).Pairwise Reaches := by
  by_cases own : r = r'
  · subst own
    have last : shownOf r [.shown r e.sub.status] = [e.sub.status] := by simp [shownOf]
    rw [shownOf_append,last,List.pairwise_append]
    refine ⟨upheld.ordered r,List.pairwise_singleton _ _,fun status member status' same => ?_⟩
    obtain ⟨e',found',reaches⟩ := upheld.told _ (mem_shownOf.mp member)
    obtain rfl := Option.some.inj (found.symm.trans found')
    rw [List.mem_singleton.mp same]
    exact reaches
  · have last : shownOf r' [.shown r e.sub.status] = [] := by simp [shownOf,own]
    rw [shownOf_append,last,List.append_nil]
    exact upheld.ordered r'

section Submit

variable {uuid : Uuid} {contestantID : Bytes} {now : Int} {task : Task} {more : List Reader}
  {source : Option (Bytes × Bytes)}

theorem submit_grows : Grows s { s.submit uuid contestantID now task with readers := s.readers ++ more } := by
  intro r e found
  refine ⟨e,?_,.refl _⟩
  exact (List.getElem?_append_left (List.getElem?_eq_some_iff.mp found).1).trans found

/-- The new ID leads to the new place, and the others lead where they led. -/
theorem Upheld.submit_found (upheld : Upheld dir es s) (fresh : Uuid.string uuid ∉ s.entries.map fun e => e.sub.id)
    (name : Bytes) (r : Nat) :
    (s.submit uuid contestantID now task).data name = some r ↔
      ∃ e, (s.submit uuid contestantID now task).entries[r]? = some e ∧ e.sub.id = name := by
  by_cases own : name = Uuid.string uuid
  · have here : (s.submit uuid contestantID now task).data name = some s.entries.length := by simp [State.submit,own]
    rw [here]
    constructor
    · intro same
      rw [← Option.some.inj same]
      exact ⟨_,List.getElem?_concat_length,own.symm⟩
    · rintro ⟨e,found,named⟩
      by_cases early : r < s.entries.length
      · have old : e ∈ s.entries := List.mem_of_getElem? ((List.getElem?_append_left early).symm.trans found)
        exact absurd (List.mem_map_of_mem old) (named.trans own ▸ fresh)
      · have bound : r < s.entries.length + 1 := by
          simpa [State.submit] using (List.getElem?_eq_some_iff.mp found).1
        rw [show r = s.entries.length by omega]
  · have same : (s.submit uuid contestantID now task).data name = s.data name := by simp [State.submit,own]
    rw [same,upheld.found]
    constructor
    · rintro ⟨e,found,named⟩
      exact ⟨e,(List.getElem?_append_left (List.getElem?_eq_some_iff.mp found).1).trans found,named⟩
    · rintro ⟨e,found,named⟩
      by_cases early : r < s.entries.length
      · exact ⟨e,(List.getElem?_append_left early).symm.trans found,named⟩
      · have last := (List.getElem?_append_right (Nat.not_lt.mp early)).symm.trans found
        have new := List.mem_singleton.mp (List.mem_of_getElem? last)
        rw [← named,new] at own
        exact absurd rfl own

theorem Upheld.submit_told (upheld : Upheld dir es s) :
    ∀ event ∈ es ++ [.created (Uuid.string uuid) source],
      event.Fits dir { s.submit uuid contestantID now task with readers := s.readers ++ more } := by
  intro event member
  rcases List.mem_append.mp member with old | new
  · refine submit_grows.event (upheld.told event old) ?_
    rintro r destPath data offset rfl
    obtain ⟨e,found,rest⟩ := upheld.told _ old
    exact ⟨e,(List.getElem?_append_left (List.getElem?_eq_some_iff.mp found).1).trans found,rest⟩
  · rw [List.mem_singleton.mp new]
    trivial

/-- A new submission takes the next place, and its ID is known to nobody. -/
theorem Upheld.submit (upheld : Upheld dir es s) (uuid : Uuid) (contestantID : Bytes) (now : Int)
    (begins : Suits ⟨⟨Uuid.string uuid,contestantID,.pending,[],[],now⟩,task⟩)
    (idle : ∀ destPath data offset, task ≠ .copying destPath data offset)
    (sourced : ∀ filename data, task = .creating filename data → source = some (filename,data))
    (own : ∀ reader ∈ more, reader = .holding 202 s.entries.length)
    (distinct : (Submissions.issued (es ++ [.created (Uuid.string uuid) source])).Nodup) :
    Upheld dir (es ++ [.created (Uuid.string uuid) source])
      { s.submit uuid contestantID now task with readers := s.readers ++ more } := by
  have fresh : Uuid.string uuid ∉ s.entries.map fun e => e.sub.id := by
    rw [issued_append,upheld.issued] at distinct
    intro old
    exact (List.nodup_append.mp distinct).2.2 _ old _ List.mem_cons_self rfl
  refine ⟨?_,?_,upheld.submit_found fresh,?_,?_,?_,upheld.submit_told,upheld.quiet_order fun _ => rfl,?_,?_⟩
  · rw [issued_append,upheld.issued]
    simp [State.submit,Submissions.issued]
  · exact List.forall_mem_append.mpr ⟨upheld.named,List.forall_mem_singleton.mpr ⟨uuid,rfl⟩⟩
  · exact List.forall_mem_append.mpr ⟨upheld.suits,List.forall_mem_singleton.mpr begins⟩
  · refine List.forall_mem_append.mpr ⟨upheld.holds,List.forall_mem_singleton.mpr ?_⟩
    cases task with
    | copying destPath data offset => exact absurd rfl (idle destPath data offset)
    | _ => trivial
  · refine List.forall_mem_append.mpr ⟨fun reader old => submit_grows.reader (upheld.readers reader old),?_⟩
    intro reader new
    rw [own reader new]
    exact ⟨_,List.getElem?_concat_length⟩
  · refine List.forall_mem_append.mpr ⟨fun e old => (upheld.sourced e old).later _,List.forall_mem_singleton.mpr ?_⟩
    cases task with
    | creating filename data =>
      rw [sourced filename data rfl]
      exact List.mem_append_right _ List.mem_cons_self
    | copying destPath data offset => exact absurd rfl (idle destPath data offset)
    | _ => trivial
  · intro r destPath data offset member
    rcases List.mem_append.mp member with old | new
    · exact upheld.sources_grow submit_grows old _
    · simp at new

end Submit

/-- No two places hold the same ID. -/
theorem Upheld.place_unique {s : State} {e e' : Entry} {r r' : Nat} (upheld : Upheld dir es s)
    (first : s.entries[r]? = some e) (second : s.entries[r']? = some e') (same : e.sub.id = e'.sub.id) : r = r' :=
  Option.some.inj (((upheld.found _ _).mpr ⟨e,first,rfl⟩).symm.trans ((upheld.found _ _).mpr ⟨e',second,same.symm⟩))

/-- The files of one submission are not under the ID of another. -/
theorem Upheld.files_apart {s : State} {e e' : Entry} {r r' : Nat} (upheld : Upheld dir es s)
    (first : s.entries[r]? = some e)
    (second : s.entries[r']? = some e') (other : r ≠ r') (under : Under dir e'.sub.id path) :
    ¬Under dir e.sub.id path := by
  intro own
  obtain ⟨u,named⟩ := upheld.named e (List.mem_of_getElem? first)
  obtain ⟨v,named'⟩ := upheld.named e' (List.mem_of_getElem? second)
  rw [named] at own
  rw [named'] at under
  obtain rfl := own.apart under
  exact other (upheld.place_unique first second (named.trans named'.symm))

theorem Works.unseen (works : Works dir files r e event e' files') :
    issued [event] = [] ∧ (∀ k, shownOf k [event] = []) ∧ ∀ code sub, event ≠ .responded code sub := by
  cases works <;> exact ⟨rfl,fun _ => rfl,by simp⟩

section Work

variable {e e' : Entry} {files : Files} {data : Bytes → Option Nat} {readers : List Reader} {r : Nat}

theorem forall_mem_set {entries : List Entry} {P : Entry → Prop} (new : P e')
    (old : ∀ (r' : Nat) (x : Entry), r' ≠ r → entries[r']? = some x → P x) : ∀ x ∈ entries.set r e', P x := by
  intro x listed
  obtain ⟨r',there⟩ := List.mem_iff_getElem?.mp listed
  by_cases mine : r' = r
  · subst mine
    have inside := (List.getElem?_eq_some_iff.mp there).1
    rw [List.getElem?_set_self (List.length_set ▸ inside)] at there
    exact Option.some.inj there ▸ new
  · exact old r' x mine ((List.getElem?_set_ne (Ne.symm mine)).symm.trans there)

theorem set_grows (found : s.entries[r]? = some e) (ages : Ages e.sub e'.sub) :
    Grows s ⟨s.entries.set r e',data,files,readers⟩ := by
  intro r' x there
  by_cases mine : r' = r
  · subst mine
    obtain rfl := Option.some.inj (found.symm.trans there)
    exact ⟨e',List.getElem?_set_self (List.getElem?_eq_some_iff.mp found).1,ages⟩
  · exact ⟨x,(List.getElem?_set_ne (Ne.symm mine)).trans there,.refl _⟩

/-- A job leaves the files of the other submissions alone. -/
theorem Upheld.untouched {r' : Nat} {x : Entry} {path : Bytes} (upheld : Upheld dir es s)
    (found : s.entries[r]? = some e) (works : Works dir s.files r e event e' files)
    (there : s.entries[r']? = some x) (other : r' ≠ r) (under : Under dir x.sub.id path) :
    files path = s.files path := by
  obtain ⟨u,named⟩ := upheld.named e (List.mem_of_getElem? found)
  have holds := upheld.holds e (List.mem_of_getElem? found)
  exact works.elsewhere named holds (upheld.files_apart found there other.symm under)

theorem Upheld.work_holds (upheld : Upheld dir es s) (found : s.entries[r]? = some e)
    (works : Works dir s.files r e event e' files) : ∀ x ∈ s.entries.set r e', Holds dir files x := by
  obtain ⟨u,named⟩ := upheld.named e (List.mem_of_getElem? found)
  refine forall_mem_set (works.holds named (upheld.holds e (List.mem_of_getElem? found))) ?_
  intro r' x other there
  have kept := upheld.holds x (List.mem_of_getElem? there)
  unfold Holds at kept ⊢
  split at kept
  · obtain ⟨direct,within,held⟩ := kept
    exact ⟨direct,within,(upheld.untouched found works there other direct.under).trans held⟩
  · trivial

theorem Upheld.work_told (upheld : Upheld dir es s) (found : s.entries[r]? = some e)
    (works : Works dir s.files r e event e' files) (ages : Ages e.sub e'.sub) :
    ∀ event' ∈ es ++ [event], event'.Fits dir ⟨s.entries.set r e',data,files,readers⟩ := by
  have here : (s.entries.set r e')[r]? = some e' := List.getElem?_set_self (List.getElem?_eq_some_iff.mp found).1
  intro event' listed
  rcases List.mem_append.mp listed with old | new
  · refine (set_grows found ages).event (upheld.told event' old) ?_
    rintro r' destPath data' offset rfl
    obtain ⟨x,there,idle,direct,held⟩ := upheld.told _ old
    have other : r' ≠ r := by
      rintro rfl
      obtain rfl := Option.some.inj (found.symm.trans there)
      exact works.busy idle
    have kept := upheld.untouched found works there other direct.under
    exact ⟨x,(List.getElem?_set_ne other.symm).trans there,idle,direct,kept.trans held⟩
  · obtain ⟨_,unshown,unresponded⟩ := works.unseen
    rw [List.mem_singleton.mp new]
    cases event with
    | shown r' status =>
      have empty := unshown r'
      simp [shownOf] at empty
    | responded code sub => exact absurd rfl (unresponded code sub)
    | copied r' destPath data' offset =>
      obtain ⟨rfl,idle,direct,held⟩ := works.copied (upheld.holds e (List.mem_of_getElem? found))
      exact ⟨e',here,idle,ages.id ▸ direct,held⟩
    | _ => trivial

theorem Upheld.work_sources (upheld : Upheld dir es s) (found : s.entries[r]? = some e)
    (works : Works dir s.files r e event e' files) (ages : Ages e.sub e'.sub) (r' : Nat) (destPath content : Bytes)
    (offset : Nat) (listed : .copied r' destPath content offset ∈ es ++ [event]) :
    ∃ (x : Entry) (filename : Bytes), (s.entries.set r e')[r']? = some x ∧
      destPath = join [dir,x.sub.id ++ ext filename] ∧ .created x.sub.id (some (filename,content)) ∈ es ++ [event] := by
  rcases List.mem_append.mp listed with old | new
  · have grows : Grows s ⟨s.entries.set r e',s.data,files,s.readers⟩ := set_grows found ages
    exact upheld.sources_grow grows old event
  · obtain rfl := List.mem_singleton.mp new
    obtain ⟨rfl,filename,path,created⟩ := works.source (upheld.sourced e (List.mem_of_getElem? found))
    refine ⟨e',filename,List.getElem?_set_self (List.getElem?_eq_some_iff.mp found).1,?_,?_⟩
    · rw [ages.id]
      exact path
    · rw [ages.id]
      exact List.mem_append_left _ created

theorem Upheld.work (upheld : Upheld dir es s) (found : s.entries[r]? = some e)
    (works : Works dir s.files r e event e' files)
    (saved : data = s.data ∨ data = Function.update s.data e.sub.id (some r))
    (own : ∀ reader ∈ more, reader = .holding 202 r) :
    Upheld dir (es ++ [event]) ⟨s.entries.set r e',data,files,s.readers ++ more⟩ := by
  have member := List.mem_of_getElem? found
  obtain ⟨suits,ages⟩ := works.ages (upheld.suits e member)
  obtain ⟨u,named⟩ := upheld.named e member
  obtain ⟨uncreated,unshown,_⟩ := works.unseen
  have here : (s.entries.set r e')[r]? = some e' := List.getElem?_set_self (List.getElem?_eq_some_iff.mp found).1
  have away {r' : Nat} (other : r' ≠ r) : (s.entries.set r e')[r']? = s.entries[r']? := List.getElem?_set_ne other.symm
  have same : data = s.data := by
    rcases saved with rfl | rfl
    · rfl
    · exact Function.update_eq_self_iff.mpr ((upheld.found _ _).mpr ⟨e,found,rfl⟩).symm
  refine ⟨?_,?_,?_,?_,upheld.work_holds found works,?_,upheld.work_told found works ages,
    upheld.quiet_order unshown,?_,upheld.work_sources found works ages⟩
  · rw [issued_append,uncreated,List.append_nil,upheld.issued]
    apply List.ext_getElem?
    intro r'
    rw [List.getElem?_map,List.getElem?_map]
    by_cases mine : r' = r
    · subst mine
      rw [found,here,Option.map_some,Option.map_some,ages.id]
    · rw [away mine]
  · exact forall_mem_set ⟨u,ages.id.trans named⟩ fun r' x _ there => upheld.named x (List.mem_of_getElem? there)
  · intro name r'
    subst same
    rw [upheld.found]
    by_cases mine : r' = r
    · subst mine
      simp only [found,here,Option.some.injEq,exists_eq_left',ages.id]
    · simp only [away mine]
  · exact forall_mem_set suits fun r' x _ there => upheld.suits x (List.mem_of_getElem? there)
  · refine List.forall_mem_append.mpr ⟨fun reader old => (set_grows found ages).reader (upheld.readers reader old),?_⟩
    intro reader new
    rw [own reader new]
    exact ⟨e',here⟩
  · exact forall_mem_set ((works.sourced (upheld.sourced e member)).later event) fun r' x _ there =>
      (upheld.sourced x (List.mem_of_getElem? there)).later event

end Work

theorem Upheld.step (upheld : Upheld dir es s) (moves : Moves dir s event s')
    (distinct : (Submissions.issued (es ++ [event])).Nodup) :
    Upheld dir (es ++ [event]) s' := by
  cases moves with
  | refuse => exact upheld.read upheld.readers trivial rfl (by simp) (upheld.quiet_order fun _ => rfl)
  | submit uuid contestantID now task more begins idle source sourced own =>
    exact upheld.submit uuid contestantID now begins idle sourced own distinct
  | get found =>
    obtain ⟨e,here,_⟩ := (upheld.found _ _).mp found
    refine upheld.read ?_ trivial rfl (by simp) (upheld.quiet_order fun _ => rfl)
    intro reader member
    rcases List.mem_append.mp member with old | new
    · exact upheld.readers reader old
    · rw [List.mem_singleton.mp new]
      exact ⟨e,here⟩
  | work found works saved own => exact upheld.work found works saved own
  | readStatus held found =>
    refine upheld.read ?_ ⟨_,found,.inl rfl⟩ rfl (by simp) (upheld.show_order found)
    intro reader member
    rcases List.mem_or_eq_of_mem_set member with old | rfl
    · exact upheld.readers reader old
    · exact ⟨_,found,.inl rfl⟩
  | readLogs held found =>
    obtain ⟨e,found',reaches⟩ := upheld.readers _ held
    obtain rfl := Option.some.inj (found.symm.trans found')
    refine upheld.read ?_ ⟨_,List.mem_of_getElem? found,rfl,rfl,reaches,.inr rfl⟩ rfl (by simp)
      (upheld.quiet_order fun _ => rfl)
    intro reader member
    rcases List.mem_or_eq_of_mem_set member with old | rfl
    · exact upheld.readers reader old
    · trivial

theorem run_upheld (result : run (step dir) actions newHandler = some (es,s)) (distinct : (issued es).Nodup) :
    Upheld dir es s := by
  -- the IDs of a prefix of the log are distinct when all of them are
  refine run_preserves (fun es s => (issued es).Nodup → Upheld dir es s) ?_ actions []
    (fun _ => new_upheld dir) result distinct
  intro es s a event s' before taken distinct
  have earlier : (issued es).Nodup := by
    rw [issued_append] at distinct
    exact (List.nodup_append.mp distinct).1
  exact (before earlier).step (step_moves taken) distinct

/-- A request for a clone, as a client writes it. -/
def gitPayload (contestantID gitURL : Bytes) : Bytes :=
  marshal (.obj [("contestant_id".toList,.str contestantID),("git_url".toList,.str gitURL)])

theorem decodeGit_payload (contestantID gitURL : Bytes) :
    decodeGit (gitPayload contestantID gitURL) = some ⟨utf8 (runes contestantID),utf8 (runes gitURL)⟩ := by
  have shallow : (Datum.obj [("contestant_id".toList,.str contestantID),
    ("git_url".toList,.str gitURL)]).doc.depth ≤ 10000 := by
    simp [Datum.doc,docMembers,Doc.depth,depthMembers]
  have distinct : (gitFields.map Slot.name).Nodup := by decide
  have fields := assign_exact distinct
    [(gitFields[0],(Datum.str contestantID).doc),(gitFields[1],(Datum.str gitURL).doc)] (by simp [gitFields]) ⟨[],[]⟩
  have decoded := decode_marshal _ [] (fun other => by cases other) shallow
  rw [List.append_nil] at decoded
  rw [decodeGit,gitPayload,decoded,Option.bind_some,Datum.doc]
  refine fields.trans ?_
  simp only [gitFields,List.foldlM_cons,List.foldlM_nil,List.getElem_cons_zero,List.getElem_cons_succ,
    intoString_written,Option.bind_eq_bind,Option.bind_some]
  rfl

theorem step_git (given : gitURL ≠ []) (uuid : Uuid) (now : Int) (s : State) :
    step dir s (.gitSubmission (gitPayload contestantID gitURL) uuid now) =
      some (.created (Uuid.string uuid) none,
        { s.submit uuid (utf8 (runes contestantID)) now (.starting (utf8 (runes gitURL))) with
          readers := s.readers ++ [.holding 202 s.entries.length] }) := by
  have given' : utf8 (runes gitURL) ≠ [] := by
    rw [Ne,← runes_eq_nil (utf8 (runes gitURL)),runes_utf8_all,runes_eq_nil]
    exact given
  simp only [step,decodeGit_payload,if_neg given']

def firstUuid : Uuid := ⟨List.replicate 16 0,List.length_replicate⟩

def secondUuid : Uuid := ⟨List.replicate 16 1,List.length_replicate⟩

/-- An upload and a clone at the same time, and responses that are overtaken by the clone. -/
def submissionDay : List Action :=
  [.upload (ascii "amy") (some (ascii "bot.zip",ascii "code")) firstUuid 5,.work 0 (.create true),.work 0 (.copy 3),
    .gitSubmission (gitPayload (ascii "bob") (ascii "url")) secondUuid 6,.readStatus 0,.work 1 .mark,.work 0 (.copy 3),
    .work 0 (.endCopy false),.readLogs 0,.work 1 .save,.work 1 (.gitWrite (ascii "Dockerfile") (ascii "FROM scratch")),
    .work 1 (.clone none (ascii "ok")),.getStatus (ascii "/api/v1/submissions" ++ slash :: Uuid.string secondUuid),
    .readStatus 2,.work 1 .log,.readLogs 2]

theorem submissionDay_run : ∃ es s, run (step (ascii "uploads")) submissionDay newHandler = some (es,s) ∧
    (issued es).Nodup ∧ Uuid.string secondUuid ∈ issued es ∧ shownOf 1 es = [.pending,.success] ∧
    .copied 0 (join [ascii "uploads",Uuid.string firstUuid ++ ext (ascii "bot.zip")]) (ascii "code") 4 ∈ es :=
  ⟨_,_,run_cons rfl <| run_cons rfl <| run_cons rfl <| run_cons (step_git (by decide) _ _ _) <| run_cons rfl <|
    run_cons rfl <|
    run_cons rfl <| run_cons rfl <| run_cons rfl <| run_cons rfl <| run_cons rfl <| run_cons rfl <| run_cons rfl <|
      run_cons rfl <|
    run_cons rfl <| run_cons rfl rfl,by decide,by decide,rfl,.tail _ <| .tail _ <| .tail _ <| .tail _ <| .tail _ <|
      .tail _ <| .tail _ <| .head _⟩

/-- The status responses show for a submission only moves forward, and each response is the
submission as it was at some time. -/
theorem statuses_never_go_back (actions : List Action) (result : run (step dir) actions newHandler = some (es,s))
    (distinct : (issued es).Nodup) :
    (∀ r, (shownOf r es).Pairwise Reaches) ∧
      ∀ code sub, .responded code sub ∈ es → sub.id ∈ issued es ∧ ∃ e ∈ s.entries, Ages sub e.sub := by
  have upheld := run_upheld result distinct
  refine ⟨upheld.ordered,fun code sub member => ?_⟩
  obtain ⟨e,listed,ages⟩ := upheld.told _ member
  refine ⟨?_,e,listed,ages⟩
  rw [upheld.issued,← ages.id]
  exact List.mem_map_of_mem listed

/-- The clone is seen pending and then done. -/
theorem submissionDay_statuses : ∃ es s, run (step (ascii "uploads")) submissionDay newHandler = some (es,s) ∧
    shownOf 1 es = [.pending,.success] ∧ ∀ r, (shownOf r es).Pairwise Reaches := by
  obtain ⟨es,s,result,distinct,_,shown,_⟩ := submissionDay_run
  exact ⟨es,s,result,shown,(statuses_never_go_back submissionDay result distinct).1⟩

/-- What an upload has copied is in the file named after its ID, and stays there: no later request
and no clone writes to it. -/
theorem uploads_kept (actions : List Action) (result : run (step dir) actions newHandler = some (es,s))
    (distinct : (issued es).Nodup) (copied : .copied r destPath data offset ∈ es) :
    ∃ (e : Entry) (filename : Bytes), s.entries[r]? = some e ∧ .created e.sub.id (some (filename,data)) ∈ es ∧
      destPath = front dir ++ (e.sub.id ++ ext filename) ∧ s.files destPath = some (data.take offset) := by
  have upheld := run_upheld result distinct
  obtain ⟨e,filename,found,path,source⟩ := upheld.sources r destPath data offset copied
  obtain ⟨e',found',_,_,held⟩ := upheld.told _ copied
  obtain ⟨u,named⟩ := upheld.named e (List.mem_of_getElem? found)
  refine ⟨e,filename,found,source,?_,held⟩
  rw [path,named]
  exact join_child dir (Uuid.isName u (not_mem_ext filename))

/-- The upload is copied in two parts, with the clone between them. -/
theorem submissionDay_upload : ∃ es s, run (step (ascii "uploads")) submissionDay newHandler = some (es,s) ∧
    s.files (join [ascii "uploads",Uuid.string firstUuid ++ ext (ascii "bot.zip")]) = some (ascii "code") := by
  obtain ⟨es,s,result,distinct,_,_,copied⟩ := submissionDay_run
  obtain ⟨e,filename,_,_,_,held⟩ := uploads_kept submissionDay result distinct copied
  exact ⟨es,s,result,held⟩

/-- An ID that was given out is found under its path, with or without slashes at the end, and
nothing else is. -/
theorem submission_found (actions : List Action) (result : run (step dir) actions newHandler = some (es,s))
    (distinct : (issued es).Nodup) (some' : name ≠ []) (outside : slash ∉ name) (k : Nat) :
    (name ∈ issued es ∧ ∃ (r : Nat) (e : Entry), s.entries[r]? = some e ∧ e.sub.id = name ∧
        step dir s (.getStatus (ascii "/api/v1/submissions" ++ slash :: name ++ List.replicate k slash)) =
          some (.quiet,{ s with readers := s.readers ++ [.holding 200 r] })) ∨
      (name ∉ issued es ∧
        step dir s (.getStatus (ascii "/api/v1/submissions" ++ slash :: name ++ List.replicate k slash)) =
          some (.refused (404,"submission not found"),s)) := by
  have upheld := run_upheld result distinct
  have last := base_child (ascii "/api/v1/submissions") k some' outside
  cases lookup : s.data name with
  | some r =>
    obtain ⟨e,found,named⟩ := (upheld.found name r).mp lookup
    refine .inl ⟨?_,r,e,found,named,?_⟩
    · rw [upheld.issued,← named]
      exact List.mem_map_of_mem (List.mem_of_getElem? found)
    · simp only [step,last,lookup]
  | none =>
    refine .inr ⟨?_,?_⟩
    · intro given
      rw [upheld.issued] at given
      obtain ⟨e,listed,named⟩ := List.mem_map.mp given
      obtain ⟨r,found⟩ := List.mem_iff_getElem?.mp listed
      cases lookup.symm.trans ((upheld.found name r).mpr ⟨e,found,named⟩)
    · simp only [step,last,lookup]

/-- The clone is found under its path with a slash at the end. -/
theorem submissionDay_found : ∃ es s, run (step (ascii "uploads")) submissionDay newHandler = some (es,s) ∧
    ∃ (r : Nat) (e : Entry), s.entries[r]? = some e ∧ e.sub.id = Uuid.string secondUuid ∧
      step (ascii "uploads") s (.getStatus (ascii "/api/v1/submissions" ++ slash :: Uuid.string secondUuid ++ [slash])) =
        some (.quiet,{ s with readers := s.readers ++ [.holding 200 r] }) := by
  obtain ⟨es,s,result,distinct,given,_,_⟩ := submissionDay_run
  rcases submission_found submissionDay result distinct (by decide) (Uuid.not_mem_string secondUuid) 1 with ⟨_,found⟩ |
    ⟨unknown,_⟩
  · exact ⟨es,s,result,found⟩
  · exact absurd given unknown

end TradingPlatform.Submissions

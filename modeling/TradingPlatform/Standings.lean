import TradingPlatform.Decimals
import TradingPlatform.Ranking
import Mathlib.Data.Char
import Mathlib.Data.List.Dedup
import Mathlib.Data.List.Lex
import Mathlib.Data.List.Sort

/-! `GetLeaderboard` of `pkg/leaderboard/ranking.go`. The order of the entries comes from the
sorted set, which keeps exact scores for ever, and the scores that are shown from the hashes,
which round them to two decimals and lapse. -/
namespace TradingPlatform.Leaderboard.Ranking

open Json Runs Decimals

structure LeaderboardEntry (F : Type) where
  submissionID : Text
  contestantID : Text
  tps : F
  p99Latency : F
  successRate : F
  score : F
  timestamp : Int

/-- `ParseFloat` and `time.Parse` with their errors dropped, and the zero time. -/
structure Reading (F : Type) where
  parseFloat : Text → F
  parseTime : Text → Int
  zeroTime : Int

section Model

variable {F : Type} [LinearOrder F]

/-- The order of ZREVRANGE: by score, and by member where scores are equal, from the highest. -/
def RanksBefore (x y : Text × F) : Prop := y.2 < x.2 ∨ y.2 = x.2 ∧ y.1 ≤ x.1

instance : DecidableRel (RanksBefore (F := F)) := fun _ _ => inferInstanceAs (Decidable (_ ∨ _ ∧ _))

def ranking (zset : AList fun _ : Text => F) : List (Text × F) :=
  (zset.entries.map fun e => (e.1,e.2)).insertionSort RanksBefore

/-- `ZRevRangeWithScores` from the first entry on; a negative index counts from the end. -/
def zRevRange (zset : AList fun _ : Text => F) (stop : Int) : List (Text × F) :=
  let ranked := ranking zset
  let last := if stop < 0 then ranked.length + stop else stop
  ranked.take (last + 1).toNat

/-- An entry for a member of the sorted set, given what HGetAll finds. -/
def entryFor (ops : Floats F) (reading : Reading F) (found : Option Hash) (z : Text × F) : LeaderboardEntry F :=
  match found with
  | none =>
    { submissionID := z.1
      contestantID := "Unknown".toList
      tps := ops.zero
      p99Latency := ops.zero
      successRate := ops.zero
      score := z.2
      timestamp := reading.zeroTime }
  | some hash =>
    { submissionID := z.1
      contestantID := hash.fields.contestantID
      tps := reading.parseFloat hash.fields.tps
      p99Latency := reading.parseFloat hash.fields.p99Latency
      successRate := reading.parseFloat hash.fields.successRate
      score := reading.parseFloat hash.fields.score
      timestamp := reading.parseTime hash.fields.timestamp }

/-- `GetLeaderboard`: the read of the sorted set may fail with an error, and those of the hashes
may fail one by one. -/
def getLeaderboard (ops : Floats F) (reading : Reading F) (redis : Redis F) (err : Option Text) (fails : Text → Bool)
    (limit : Int) : Except Text (List (LeaderboardEntry F)) :=
  match err with
  | some err => .error ("failed to fetch ZSET: ".toList ++ err)
  | none => .ok ((zRevRange redis.zset (limit - 1)).map fun z =>
      entryFor ops reading (if fails z.1 then none else redis.hash z.1) z)

end Model

/-- A call whose commands all succeed before the next call begins, or the end of a hash. -/
inductive Happening (F : Type) where
  | call (r : Report F) (now : Text)
  | lapse (id : Text)

section Histories

variable {F : Type}

def actionsFrom (k : CallRef) : List (Happening F) → List (Action F)
  | [] => []
  | .call r now :: history => successful k r now ++ actionsFrom (k + 1) history
  | .lapse id :: history => .lapse id :: actionsFrom k history

/-- The latest call for a submission. -/
def latest (history : List (Happening F)) (id : Text) : Option (Report F × Text) :=
  history.reverse.findSome? fun
    | .call r now => if r.submissionID = id then some (r,now) else none
    | .lapse _ => none

def scored (history : List (Happening F)) : List Text :=
  history.filterMap fun
    | .call r _ => some r.submissionID
    | .lapse _ => none

variable {ops : Floats F} {history : List (Happening F)} {redis : Redis F}

theorem latest_call (history : List (Happening F)) (r : Report F) (now id : Text) :
    latest (history ++ [.call r now]) id = if r.submissionID = id then some (r,now) else latest history id := by
  by_cases same : r.submissionID = id <;> simp [latest,same]

theorem latest_lapse (history : List (Happening F)) (i id : Text) :
    latest (history ++ [.lapse i]) id = latest history id := by
  simp [latest]

theorem latest_isSome (history : List (Happening F)) (id : Text) : (latest history id).isSome ↔ id ∈ scored history := by
  rw [latest,List.findSome?_isSome_iff,scored]
  simp only [List.mem_reverse,List.mem_filterMap]
  constructor
  · rintro ⟨x,member,found⟩
    cases x with
    | call r now =>
      have same : r.submissionID = id := by
        by_contra differ
        simp [differ] at found
      exact ⟨_,member,by simp [same]⟩
    | lapse i => simp at found
  · rintro ⟨x,member,found⟩
    cases x with
    | call r now => exact ⟨_,member,by simp [Option.some.inj found]⟩
    | lapse i => simp at found

/-- The store after a history: the exact score of the latest call, and its hash unless it lapsed. -/
structure Replayed (ops : Floats F) (history : List (Happening F)) (redis : Redis F) : Prop where
  zset : ∀ id, redis.zset.lookup id = (latest history id).map fun x => score ops x.1
  hash : ∀ id, redis.hash id ≠ none → ∃ r now, latest history id = some (r,now) ∧ r.submissionID = id ∧
    redis.hash id = some ⟨metadata ops r now,true⟩

theorem start_replayed : Replayed ops [] (start : State F).redis :=
  ⟨fun _ => rfl,fun _ live => absurd rfl live⟩

theorem Replayed.call (replayed : Replayed ops history redis) (r : Report F) (now : Text) :
    Replayed ops (history ++ [.call r now]) (recorded ops redis r now) := by
  obtain ⟨zset,hash⟩ := recorded_same ops redis r now
  constructor
  · intro id
    rw [latest_call]
    split
    · rename_i same
      rw [← same,zset]
      rfl
    · rename_i other
      rw [(recorded_other ops redis now (Ne.symm other)).1,replayed.zset]
  · intro id live
    rw [latest_call]
    by_cases same : r.submissionID = id
    · rw [if_pos same]
      exact ⟨r,now,rfl,same,same ▸ hash⟩
    · rw [(recorded_other ops redis now (Ne.symm same)).2] at live ⊢
      rw [if_neg same]
      exact replayed.hash id live

theorem Replayed.lapse (replayed : Replayed ops history redis) (i : Text) :
    Replayed ops (history ++ [.lapse i]) (redis.setHash i none) := by
  constructor
  · intro id
    rw [latest_lapse]
    exact replayed.zset id
  · intro id live
    rw [latest_lapse]
    by_cases same : id = i
    · simp [Redis.setHash,same] at live
    · simp only [Redis.setHash,Function.update_of_ne same] at live ⊢
      exact replayed.hash id live

theorem step_call_apart {s s' : State F} (moves : Moves ops s a e s') (other : a.caller ≠ some j) :
    s'.call j = s.call j := by
  cases moves with
  | lapse id => rfl
  | _ => exact (proceed_call _ _ j _).trans (if_neg fun same => other (congrArg some same.symm))

/-- The commands of one call leave the others where they are. -/
theorem run_call_apart {s s' : State F} {actions : List (Action F)} (callers : ∀ a ∈ actions, a.caller ≠ some j)
    (result : run (State.step ops) actions s = some (es,s')) : s'.call j = s.call j := by
  induction actions generalizing s es with
  | nil =>
    obtain ⟨_,rfl⟩ := Prod.mk.inj (Option.some.inj result)
    rfl
  | cons a actions ih =>
    obtain ⟨o,os,m,first,rest,rfl⟩ := run_cons_inv result
    rw [ih (fun b member => callers b (List.mem_cons_of_mem _ member)) rest]
    exact step_call_apart (step_moves a first) (callers a List.mem_cons_self)

theorem run_replayed {s s' : State F} (replayed : Replayed ops before s.redis) (fresh : ∀ j, k ≤ j → s.call j = .absent)
    (result : run (State.step ops) (actionsFrom k history) s = some (es,s')) :
    Replayed ops (before ++ history) s'.redis := by
  induction history generalizing before s k es with
  | nil =>
    obtain ⟨_,rfl⟩ := Prod.mk.inj (Option.some.inj result)
    simpa using replayed
  | cons x history ih =>
    cases x with
    | call r now =>
      obtain ⟨os,os',m,first,rest,rfl⟩ := run_append_inv result
      obtain ⟨_,m',first',redis,_⟩ : ∃ os' m', run (State.step ops) (successful k r now) s = some (os',m') ∧
          m'.redis = recorded ops s.redis r now ∧ m'.call k = .returned r (score ops r) :=
        run_successful (fresh k (Nat.le_refl k)) r now
      obtain ⟨_,rfl⟩ := outcome_unique first first'
      have after := replayed.call r now
      rw [← redis] at after
      have later : ∀ j, k + 1 ≤ j → m.call j = .absent := by
        intro j above
        have differ : k ≠ j := Nat.ne_of_lt above
        rw [run_call_apart (by simp [successful,Action.caller,differ]) first]
        exact fresh j (Nat.le_of_succ_le above)
      rw [List.append_cons]
      exact ih after later rest
    | lapse id =>
      obtain ⟨o,os,m,first,rest,rfl⟩ := run_cons_inv result
      cases step_moves _ first with
      | lapse =>
        rw [List.append_cons]
        exact ih (s := { s with redis := s.redis.setHash id none }) (replayed.lapse id) fresh rest

end Histories

section Order

variable {F : Type} [LinearOrder F]

/-- Strictly higher in the ranking. -/
def Above (x y : Text × F) : Prop := y.2 < x.2 ∨ y.2 = x.2 ∧ y.1 < x.1

theorem Above.le {x y : Text × F} (above : Above x y) : y.2 ≤ x.2 := by
  rcases above with less | ⟨same,_⟩
  · exact less.le
  · exact same.le

theorem Above.asymm {x y : Text × F} (above : Above x y) : ¬Above y x := by
  rintro (less | ⟨same,less⟩)
  · exact absurd above.le (not_le.mpr less)
  · rcases above with other | ⟨_,other⟩
    · exact absurd same other.ne'
    · exact lt_asymm less other

instance : Std.Total (RanksBefore (F := F)) := by
  refine ⟨fun x y => ?_⟩
  rcases lt_trichotomy y.2 x.2 with less | same | greater
  · exact .inl (.inl less)
  · rcases le_total y.1 x.1 with before | after
    · exact .inl (.inr ⟨same,before⟩)
    · exact .inr (.inr ⟨same.symm,after⟩)
  · exact .inr (.inl greater)

instance : IsTrans (Text × F) RanksBefore := by
  refine ⟨fun x y z first second => ?_⟩
  rcases first with less | ⟨same,before⟩
  · rcases second with less' | ⟨same',_⟩
    · exact .inl (less'.trans less)
    · exact .inl (same' ▸ less)
  · rcases second with less' | ⟨same',before'⟩
    · exact .inl (same ▸ less')
    · exact .inr ⟨same'.trans same,before'.trans before⟩

theorem ranking_perm (zset : AList fun _ : Text => F) : (ranking zset).Perm (zset.entries.map fun e => (e.1,e.2)) :=
  List.perm_insertionSort _ _

theorem mem_ranking {zset : AList fun _ : Text => F} {z : Text × F} : z ∈ ranking zset ↔ zset.lookup z.1 = some z.2 := by
  rw [(ranking_perm zset).mem_iff,← Option.mem_def,AList.mem_lookup_iff]
  constructor
  · intro member
    obtain ⟨e,inside,same⟩ := List.mem_map.mp member
    obtain rfl := same
    exact inside
  · exact fun member => List.mem_map.mpr ⟨_,member,rfl⟩

theorem ranking_names (zset : AList fun _ : Text => F) : ((ranking zset).map Prod.fst).Perm zset.keys := by
  refine ((ranking_perm zset).map Prod.fst).trans (List.Perm.of_eq ?_)
  simp [AList.keys,List.keys,Function.comp_def]

theorem ranking_nodup (zset : AList fun _ : Text => F) : ((ranking zset).map Prod.fst).Nodup :=
  (ranking_names zset).nodup_iff.mpr zset.keys_nodup

theorem ranking_pairwise (zset : AList fun _ : Text => F) : (ranking zset).Pairwise Above := by
  have ordered : (ranking zset).Pairwise RanksBefore := List.pairwise_insertionSort _ _
  have apart := List.pairwise_map.mp (ranking_nodup zset)
  refine (ordered.and apart).imp ?_
  rintro x y ⟨less | ⟨same,before⟩,differ⟩
  · exact .inl less
  · exact .inr ⟨same,lt_of_le_of_ne before (Ne.symm differ)⟩

/-- In a list that follows the ranking, earlier means above. -/
theorem pairwise_iff_above {R : Text × F → Text × F → Prop} {xs : List (Text × F)} (ordered : xs.Pairwise Above) :
    xs.Pairwise R ↔ ∀ x ∈ xs, ∀ y ∈ xs, Above x y → R x y := by
  constructor
  · intro related x first y second above
    have symmetric : Std.Symm fun x y => (Above x y → R x y) ∧ (Above y x → R y x) := ⟨fun _ _ both => both.symm⟩
    have both : xs.Pairwise fun x y => (Above x y → R x y) ∧ (Above y x → R y x) := by
      refine (ordered.and related).imp ?_
      rintro x y ⟨above,holds⟩
      exact ⟨fun _ => holds,fun below => absurd below above.asymm⟩
    refine (both.forall first second ?_).1 above
    rintro rfl
    exact above.asymm above
  · intro all
    exact ordered.imp_of_mem fun first second above => all _ first _ second above

theorem zRevRange_take (zset : AList fun _ : Text => F) (positive : 1 ≤ limit) :
    zRevRange zset (limit - 1) = (ranking zset).take limit.toNat := by
  have count : (limit - 1 + 1).toNat = limit.toNat := by omega
  simp only [zRevRange]
  rw [if_neg (by omega),count]

end Order

/-- Exact scores, and `FormatFloat` with two decimals as rounding; the JSON token is left open. -/
def rationals (marshal : ℚ → Option Number) : Floats ℚ where
  zero := 0
  hundred := 100
  thousand := 1000
  mul := (· * ·)
  div := (· / ·)
  positive q := 0 < q
  fixed := formatFixed 2
  marshal := marshal

def reading (parseTime : Text → Int) (zeroTime : Int) : Reading ℚ :=
  ⟨fun text => (parseFixed text).getD 0,parseTime,zeroTime⟩

/-- The entry for a submission whose hash is live. -/
def liveEntry (marshal : ℚ → Option Number) (parseTime : Text → Int) (r : Report ℚ) (now : Text) :
    LeaderboardEntry ℚ where
  submissionID := r.submissionID
  contestantID := r.contestantID
  tps := rounded 2 r.tps
  p99Latency := rounded 2 r.p99Latency
  successRate := rounded 2 r.successRate
  score := rounded 2 (score (rationals marshal) r)
  timestamp := parseTime now

/-- Of the submissions that are listed, no live one is shown below an expired one that it ranks
above, or above an expired one that it ranks below. -/
def Undisturbed (redis : Redis ℚ) (limit : Int) : Prop :=
  ∀ x ∈ (ranking redis.zset).take limit.toNat, ∀ y ∈ (ranking redis.zset).take limit.toNat,
    redis.hash x.1 ≠ none → redis.hash y.1 = none →
      (Above x y → y.2 ≤ rounded 2 x.2) ∧ (Above y x → rounded 2 x.2 ≤ y.2)

def shownScore (redis : Redis ℚ) (z : Text × ℚ) : ℚ := if redis.hash z.1 = none then z.2 else rounded 2 z.2

section Showing

variable {marshal : ℚ → Option Number} {redis : Redis ℚ} {history : List (Happening ℚ)}

theorem entryFor_live (parseTime : Text → Int) (zeroTime : Int) (replayed : Replayed (rationals marshal) history redis)
    (live : redis.hash z.1 ≠ none) :
    ∃ r now, latest history z.1 = some (r,now) ∧
      entryFor (rationals marshal) (reading parseTime zeroTime) (redis.hash z.1) z =
        liveEntry marshal parseTime r now := by
  obtain ⟨r,now,last,named,hash⟩ := replayed.hash z.1 live
  refine ⟨r,now,last,?_⟩
  rw [hash]
  simp only [entryFor,metadata,reading,rationals,parse_format 1,Option.getD_some,liveEntry,named]

theorem entryFor_score (parseTime : Text → Int) (zeroTime : Int) (replayed : Replayed (rationals marshal) history redis)
    (known : redis.zset.lookup z.1 = some z.2) :
    (entryFor (rationals marshal) (reading parseTime zeroTime) (redis.hash z.1) z).score = shownScore redis z := by
  by_cases live : redis.hash z.1 = none
  · simp [shownScore,live,entryFor]
  · obtain ⟨r,now,last,entry⟩ := entryFor_live parseTime zeroTime replayed live
    rw [entry,shownScore,if_neg live]
    rw [replayed.zset,last] at known
    exact congrArg (rounded 2) (Option.some.inj known)

/-- As many submissions are ranked as were ever scored. -/
theorem ranking_length {ops : Floats ℚ} (replayed : Replayed ops history redis) :
    (ranking redis.zset).length = (scored history).dedup.length := by
  have same : redis.zset.keys.Perm (scored history).dedup := by
    refine (List.perm_ext_iff_of_nodup redis.zset.keys_nodup (List.nodup_dedup _)).mpr fun id => ?_
    rw [List.mem_dedup,← latest_isSome,← AList.mem_keys,← AList.lookup_isSome,replayed.zset,Option.isSome_map]
  rw [← same.length_eq,← (ranking_names redis.zset).length_eq,List.length_map]

theorem shown_ordered_iff (redis : Redis ℚ) (limit : Int) :
    ((ranking redis.zset).take limit.toNat).Pairwise (fun x y => shownScore redis y ≤ shownScore redis x) ↔
      Undisturbed redis limit := by
  have ordered : ((ranking redis.zset).take limit.toNat).Pairwise Above :=
    (ranking_pairwise redis.zset).sublist (List.take_sublist _ _)
  rw [pairwise_iff_above ordered]
  constructor
  · intro all x first y second live expired
    have shownX : shownScore redis x = rounded 2 x.2 := if_neg live
    have shownY : shownScore redis y = y.2 := if_pos expired
    rw [← shownX,← shownY]
    exact ⟨all x first y second,all y second x first⟩
  · intro undisturbed x first y second above
    by_cases expiredX : redis.hash x.1 = none
    · by_cases expiredY : redis.hash y.1 = none
      · simpa [shownScore,expiredX,expiredY] using above.le
      · simpa [shownScore,expiredX,expiredY] using (undisturbed y second x first expiredY expiredX).2 above
    · by_cases expiredY : redis.hash y.1 = none
      · simpa [shownScore,expiredX,expiredY] using (undisturbed x first y second expiredX expiredY).1 above
      · simpa [shownScore,expiredX,expiredY] using rounded_mono 2 above.le

end Showing

/-- Whatever calls there were and whatever hashes have lapsed: the list has the right length and
names no submission twice, live entries carry the rounded metrics of the latest call, and the
scores that are shown do not increase exactly if no live one has been rounded past an expired one. -/
theorem getLeaderboard_ordered_iff (marshal : ℚ → Option Number) (parseTime : Text → Int) (zeroTime : Int)
    (history : List (Happening ℚ)) (es : List Event) (s : State ℚ)
    (reached : run (State.step (rationals marshal)) (actionsFrom 0 history) start = some (es,s)) (limit : Int)
    (positive : 1 ≤ limit) :
    ∃ entries, getLeaderboard (rationals marshal) (reading parseTime zeroTime) s.redis none (fun _ => false) limit =
      .ok entries ∧ entries.length = min limit.toNat (scored history).dedup.length ∧
      (entries.map LeaderboardEntry.submissionID).Nodup ∧
      (∀ entry ∈ entries, entry.submissionID ∈ scored history ∧ (s.redis.hash entry.submissionID ≠ none →
        ∃ r now, latest history entry.submissionID = some (r,now) ∧ entry = liveEntry marshal parseTime r now)) ∧
      (entries.Pairwise (fun a b => b.score ≤ a.score) ↔ Undisturbed s.redis limit) := by
  have replayed : Replayed (rationals marshal) history s.redis :=
    run_replayed start_replayed (fun _ _ => rfl) reached
  have named (z : Text × ℚ) : (entryFor (rationals marshal) (reading parseTime zeroTime)
    (s.redis.hash z.1) z).submissionID = z.1 := by
    cases s.redis.hash z.1 <;> rfl
  have listed {z : Text × ℚ} (member : z ∈ (ranking s.redis.zset).take limit.toNat) :
    s.redis.zset.lookup z.1 = some z.2 :=
    mem_ranking.mp ((List.take_sublist _ _).subset member)
  refine ⟨_,rfl,?_,?_,?_,?_⟩
  all_goals
    rw [zRevRange_take _ positive]
    simp only [Bool.false_eq_true,if_false]
  · rw [List.length_map,List.length_take,ranking_length replayed]
  · rw [List.map_map]
    simp only [Function.comp_def,named]
    exact ((ranking_nodup s.redis.zset).sublist ((List.take_sublist _ _).map _))
  · intro entry member
    obtain ⟨z,inside,rfl⟩ := List.mem_map.mp member
    rw [named]
    refine ⟨?_,entryFor_live parseTime zeroTime replayed⟩
    rw [← latest_isSome,← Option.isSome_map,← replayed.zset,listed inside]
    rfl
  · rw [List.pairwise_map,← shown_ordered_iff]
    refine List.Pairwise.iff_of_mem fun first second => ?_
    rw [entryFor_score parseTime zeroTime replayed (listed first),
      entryFor_score parseTime zeroTime replayed (listed second)]

/-- A run whose score is its number of transactions. -/
def plainReport (id : Text) (tps : ℚ) : Report ℚ := ⟨id,['c'],tps,1000,100⟩

/-- Two submissions with scores 1.004 and 1.003; the hash of the second lapses. -/
def closeScores : List (Happening ℚ) :=
  [.call (plainReport ['a'] (1004 / 1000)) ['t'],.call (plainReport ['b'] (1003 / 1000)) ['t'],.lapse ['b']]

def noMarshal : ℚ → Option Number := fun _ => none

theorem closeScores_listed : ∃ es s,
    run (State.step (rationals noMarshal)) (actionsFrom 0 closeScores) start = some (es,s) ∧
    ∃ entries, getLeaderboard (rationals noMarshal) (reading (fun _ => 0) 0) s.redis none (fun _ => false) 2 =
      .ok entries ∧ entries.length = min (2 : Int).toNat (scored closeScores).dedup.length ∧
      (entries.map LeaderboardEntry.submissionID).Nodup ∧
      (∀ entry ∈ entries, entry.submissionID ∈ scored closeScores ∧ (s.redis.hash entry.submissionID ≠ none →
        ∃ r now, latest closeScores entry.submissionID = some (r,now) ∧ entry = liveEntry noMarshal (fun _ => 0) r now)) ∧
      (entries.Pairwise (fun a b => b.score ≤ a.score) ↔ Undisturbed s.redis 2) :=
  ⟨_,_,rfl,getLeaderboard_ordered_iff noMarshal (fun _ => 0) 0 closeScores _ _ rfl 2 (by decide)⟩

/-- The first is shown with 1.00, above the second with 1.003. -/
theorem closeScores_shown : ∃ es s entries,
    run (State.step (rationals noMarshal)) (actionsFrom 0 closeScores) start = some (es,s) ∧
    getLeaderboard (rationals noMarshal) (reading (fun _ => 0) 0) s.redis none (fun _ => false) 2 = .ok entries ∧
    entries.map (fun entry => (entry.submissionID,entry.score)) = [(['a'],1),(['b'],1003 / 1000)] ∧
    ¬entries.Pairwise fun a b => b.score ≤ a.score :=
  ⟨_,_,_,rfl,rfl,by decide +kernel,by decide +kernel⟩

end TradingPlatform.Leaderboard.Ranking

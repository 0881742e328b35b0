import TradingPlatform.LiveStandings

/-! A page catches up with the standings. As long as nothing is lost between the calls of
`UpdateScore` and the page and its requests are answered in their order, what it shows is what
Redis has, or else something is under way that will make it read again. -/
namespace TradingPlatform.Leaderboard.Live

open Json Runs Dashboard Ranking
open Frames (Feed newFeed onmessage)

variable {F : Type} [LinearOrder F]

/-- What a request reads that nothing disturbs. -/
def standings (env : Env F) (redis : Redis F) : List (LeaderboardEntry F) :=
  (zRevRange redis.zset (50 - 1)).map fun z => entryFor env.ops env.reading (redis.hash z.1) z

theorem standings_eq (env : Env F) (redis : Redis F) :
    getLeaderboard env.ops env.reading redis none (fun _ => false) 50 = .ok (standings env redis) := rfl

omit [LinearOrder F] in
/-- A call has written something and has not told about it yet. -/
def Writing (t : Ranking.State F) : Prop := ∃ k, (t.call k).inProgress = true ∧ (t.call k).written ≠ none

/-- Messages wait on the client's channel or are in a frame that is not finished. -/
def Link.busy : Link → Prop
  | .registered feed => feed.send.buffer ≠ [] ∨ feed.pump.started ≠ 0
  | _ => False

omit [LinearOrder F] in
/-- A message is on its way to the page. -/
def Telling (s : System F) : Prop := s.channel ≠ [] ∨ s.link.busy ∨ s.wire ≠ []

/-- A request whose answer will be the standings if they stay what they are. -/
def Fetch.UpTo (env : Env F) (redis : Redis F) : Fetch F → Prop
  | .sent => True
  | .reading rest entries =>
    entries ++ rest.map (fun z => entryFor env.ops env.reading (redis.hash z.1) z) = standings env redis
  | .answered response => response = encode env.ops (standings env redis)
  | _ => False

/-- The latest request is such a request. -/
def Fetching (env : Env F) (s : System F) : Prop :=
  ∃ i, s.page.issued = i + 1 ∧ (s.fetch i).UpTo env s.ranking.redis

/-- No request is open, and the page shows the standings. -/
def Current (env : Env F) (s : System F) : Prop :=
  (∀ i, i < s.page.issued → s.fetch i = .settled) ∧
    ∀ entries, encode env.ops (standings env s.ranking.redis) = some entries → s.page.leaderboardData = entries

/-- The page is up to date or something is under way. -/
def Fresh (env : Env F) (s : System F) : Prop := Writing s.ranking ∨ Telling s ∨ Fetching env s ∨ Current env s

/-- The text of an update. -/
def Told (text : Text) : Prop := ∃ u, text = eventData u

/-- Every frame holds the text of one update. -/
def Link.Sound : Link → Prop
  | .registered feed => (∀ text ∈ feed.send.buffer, Told text) ∧
    match feed.pump with
    | .opened frame => Told frame
    | .draining n frame => n = 0 ∧ Told frame
    | _ => True
  | _ => True

structure Upheld (env : Env F) (s : System F) : Prop where
  channel : ∀ text ∈ s.channel, Told text
  link : s.link.Sound
  wire : ∀ text ∈ s.wire, Told text
  unissued : ∀ i, s.page.issued ≤ i → s.fetch i = .absent
  silent : s.link = .unloaded → s.page.issued = 0 ∧ s.wire = []
  fresh : s.link = .unloaded ∨ Fresh env s

/-- The client's channel takes a message. -/
def Link.takes : Link → Prop
  | .registered feed => feed.send.closed = false ∧ feed.send.buffer.length < feed.send.capacity
  | _ => False

/-- The pump adds no second message to a frame. -/
def Link.alone (link : Link) (a : Frames.Action) : Prop :=
  match link with
  | .registered feed => Frames.Alone feed a
  | _ => True

omit [LinearOrder F] in
/-- The score of a call that comes to tell of it can be written as JSON. -/
def tellable (ops : Floats F) : Call F → Prop
  | .dated r => (ops.marshal (score ops r)).isSome
  | _ => True

/-- Nothing is lost and nothing comes out of order: HSet and Publish go through, no hash lapses, the
hub has the page in its map with room on its channel whenever it relays a message, no frame gets a
second message, a connection ends with nothing on it, and requests are answered in their order. -/
def GoesWell (env : Env F) (s : System F) : Action F → Prop
  | .update (.hSet _ _ err) => err = none
  | .update (.publish k err) => err = none ∧ tellable env.ops (s.ranking.call k)
  | .update (.lapse _) => False
  | .relay => s.link.takes
  | .pump a => s.link.alone a
  | .drop | .onclose => ¬s.link.busy ∧ s.wire = []
  | .zRevRange _ fails | .hGetAll _ fails => fails = false
  | .lose _ => False
  | .arrive i => ∀ j, j < i → s.fetch j = .settled
  | _ => True

/-- Before the page is loaded it does not matter. -/
def Reliable (env : Env F) (s : System F) (a : Action F) : Prop := s.link = .unloaded ∨ GoesWell env s a

instance (link : Link) : Decidable link.busy :=
  match link with
  | .registered _ => inferInstanceAs (Decidable (_ ∨ _))
  | .unloaded | .waiting | .connecting | .dropped => .isFalse id

instance (link : Link) : Decidable link.takes :=
  match link with
  | .registered _ => inferInstanceAs (Decidable (_ ∧ _))
  | .unloaded | .waiting | .connecting | .dropped => .isFalse id

instance (link : Link) (a : Frames.Action) : Decidable (link.alone a) :=
  match link, a with
  | .registered feed, .measure => inferInstanceAs (Decidable (feed.send.buffer = []))
  | .registered _, .enqueue _ | .registered _, .close | .registered _, .receive | .registered _, .drain
  | .registered _, .flush
  | .registered _, .ping | .unloaded, _ | .waiting, _ | .connecting, _ | .dropped, _ => .isTrue trivial

omit [LinearOrder F] in
instance (ops : Floats F) (c : Call F) : Decidable (tellable ops c) :=
  match c with
  | .dated _ => inferInstanceAs (Decidable (_ = true))
  | .absent | .scored _ | .ranked _ | .saved _ | .returned .. | .failed .. => .isTrue trivial

instance (f : Fetch F) : Decidable (f = .settled) :=
  match f with
  | .settled => .isTrue rfl
  | .absent | .sent | .reading .. | .answered _ => .isFalse nofun

instance (link : Link) : Decidable (link = .unloaded) :=
  match link with
  | .unloaded => .isTrue rfl
  | .waiting | .connecting | .registered _ | .dropped => .isFalse nofun

instance (env : Env F) (s : System F) (a : Action F) : Decidable (GoesWell env s a) :=
  match a with
  | .update (.hSet _ _ _) | .zRevRange _ _ | .hGetAll _ _ => inferInstanceAs (Decidable (_ = _))
  | .update (.publish _ _) | .drop | .onclose => inferInstanceAs (Decidable (_ ∧ _))
  | .relay => inferInstanceAs (Decidable s.link.takes)
  | .pump a => inferInstanceAs (Decidable (s.link.alone a))
  | .arrive i => Nat.decidableBallLT i fun j _ => s.fetch j = .settled
  | .update (.lapse _) | .lose _ => .isFalse id
  | .update (.updateScore _ _) | .update (.zAdd _ _) | .update (.expire _ _) | .register | .load | .onopen
  | .onmessage | .retry
  | .respond _ => .isTrue trivial

instance (env : Env F) (s : System F) (a : Action F) : Decidable (Reliable env s a) := inferInstanceAs (Decidable (_ ∨ _))

variable {env : Env F} {s s' : System F} {es : List (Event F)} {e : Event F} {a : Action F}

section Updates

variable {F : Type} {ops : Floats F} {t t' : Ranking.State F} {a : Ranking.Action F} {e : Ranking.Event}

theorem published_told (result : t.step ops a = some (e,t')) : ∀ text ∈ published e, Told text := by
  cases e with
  | published message =>
    intro text member
    obtain rfl := List.mem_singleton.mp member
    cases a with
    | publish k err =>
      simp only [Ranking.State.step,publish] at result
      split at result
      · rename_i r dated
        have event := (Prod.mk.inj (Option.some.inj result)).1
        split at event
        · exact ⟨_,(Ranking.Event.published.inj event).symm⟩
        · cases event
      · simp at result
    | _ => cases Ranking.step_moves _ result
  | _ => simp [published]

theorem publish_published (result : t.step ops (.publish k none) = some (e,t'))
    (tells : tellable ops (t.call k)) : published e ≠ [] := by
  simp only [Ranking.State.step,publish] at result
  split at result
  · rename_i r dated
    rw [dated] at tells
    obtain ⟨n,token⟩ := Option.isSome_iff_exists.mp tells
    obtain ⟨rfl,_⟩ := Prod.mk.inj (Option.some.inj result)
    simp [token,published]
  · simp at result

theorem Writing.proceed (writing : Writing t) (other : (t.call k).inProgress = false ∨ (t.call k).written = none)
    (c : Call F) :
    Writing (t.proceed k c) := by
  obtain ⟨j,busy,written⟩ := writing
  have apart : j ≠ k := by
    rintro rfl
    rcases other with idle | unwritten
    · simp [idle] at busy
    · exact written unwritten
  refine ⟨j,?_⟩
  rw [proceed_call,if_neg apart]
  exact ⟨busy,written⟩

theorem writing_proceed (redis : Redis F) (k : CallRef) (c : Call F) (busy : c.inProgress = true)
    (written : c.written ≠ none) :
    Writing ({ t with redis := redis }.proceed k c) := by
  refine ⟨k,?_⟩
  rw [proceed_call,if_pos rfl]
  exact ⟨busy,written⟩

/-- A step of a call changes nothing that is shown, or the call still has to tell about it, or it
has just come to that. -/
theorem update_cases (result : t.step ops a = some (e,t')) (saves : ∀ k now err, a ≠ .hSet k now (some err))
    (lasts : ∀ id, a ≠ .lapse id) :
    Writing t' ∨ t'.redis = t.redis ∧ ((Writing t → Writing t') ∨ ∃ k err, a = .publish k err) := by
  cases Ranking.step_moves a result with
  | begin k r absent => exact .inr ⟨rfl,.inl fun writing => writing.proceed (.inl (by simp [absent,Call.inProgress])) _⟩
  | rank k r scored => exact .inl (writing_proceed _ k _ rfl (by simp [Call.written]))
  | rankFails k r err message scored =>
    exact .inr ⟨rfl,.inl fun writing => writing.proceed (.inr (by simp [scored,Call.written])) _⟩
  | save k r now expires ranked => exact .inl (writing_proceed _ k _ rfl (by simp [Call.written]))
  | saveFails k r now err message ranked => exact absurd rfl (saves k now err)
  | date k r err hash fields saved => exact .inl (writing_proceed _ k _ rfl (by simp [Call.written]))
  | publish k r err e idle dated => exact .inr ⟨rfl,.inr ⟨k,err,rfl⟩⟩
  | lapse id => exact absurd rfl (lasts id)

end Updates

theorem update_fresh {a : Ranking.Action F} {e : Ranking.Event} {t : Ranking.State F} (fresh : Fresh env s)
    (well : GoesWell env s (.update a)) (result : s.ranking.step env.ops a = some (e,t)) :
    Fresh env { s with ranking := t, channel := s.channel ++ published e } := by
  have saves : ∀ k now err, a ≠ .hSet k now (some err) := by
    rintro k now err rfl
    simp [GoesWell] at well
  have lasts : ∀ id, a ≠ .lapse id := by
    rintro id rfl
    exact well
  rcases update_cases result saves lasts with writing | ⟨same,writing | ⟨k,err,rfl⟩⟩
  · exact .inl writing
  · rcases fresh with before | telling | ⟨i,latest,upTo⟩ | ⟨settled,shown⟩
    · exact .inl (writing before)
    · exact .inr (.inl (telling.imp (fun waiting nothing => waiting (List.append_eq_nil_iff.mp nothing).1) id))
    · exact .inr (.inr (.inl ⟨i,latest,by rw [same]; exact upTo⟩))
    · exact .inr (.inr (.inr ⟨settled,by rw [same]; exact shown⟩))
  · obtain ⟨rfl,tells⟩ := well
    refine .inr (.inl (.inl fun nothing => ?_))
    exact publish_published result tells (List.append_eq_nil_iff.mp nothing).2

omit [LinearOrder F] in
theorem Link.takes.offered {link : Link} (takes : link.takes) (sound : link.Sound) (told : Told text) :
    (link.offer text).Sound ∧ (link.offer text).busy := by
  cases link with
  | registered feed =>
    obtain ⟨closed,room⟩ := takes
    have sent : feed.send.trySend text = some (true,{ feed.send with buffer := feed.send.buffer ++ [text] }) := by
      simp [Fanout.Chan.trySend,closed,room]
    simp only [Link.offer,sent]
    refine ⟨⟨?_,sound.2⟩,.inl (by simp)⟩
    intro m member
    rcases List.mem_append.mp member with old | new
    · exact sound.1 m old
    · exact List.mem_singleton.mp new ▸ told
  | _ => exact takes.elim

/-- The pump turns a message on the channel into a frame, and a frame into one on the wire. -/
theorem pump_keeps {feed feed' : Feed} {a : Frames.Action} {e : Frames.Event} (sound : (Link.registered feed).Sound)
    (alone : Frames.Alone feed a) (other : ∀ u, a ≠ .enqueue u) (moves : Frames.Moves feed a e feed') :
    (Link.registered feed').Sound ∧ (∀ text ∈ Frames.frames [e], Told text) ∧
    ((Link.registered feed).busy → (Link.registered feed').busy ∨ Frames.frames [e] ≠ []) := by
  cases moves with
  | enqueue => exact absurd rfl (other _)
  | close => exact ⟨sound,by simp,.inl⟩
  | receive =>
    obtain ⟨buffer,_⟩ := sound
    refine ⟨⟨fun text member => buffer text (List.mem_cons_of_mem _ member),buffer _ List.mem_cons_self⟩,by simp,
      fun _ => .inl (.inr ?_)⟩
    simp [Frames.Pump.started]
  | stop =>
    refine ⟨⟨sound.1,trivial⟩,by simp,fun busy => ?_⟩
    rcases busy with full | started
    · exact absurd rfl full
    · exact absurd rfl started
  | measure =>
    exact ⟨⟨sound.1,List.length_eq_zero_iff.mpr alone,sound.2⟩,by simp,
      fun _ => .inl (.inr (by simp [Frames.Pump.started]))⟩
  | drain => exact absurd sound.2.1 (by simp)
  | drained => exact absurd sound.2.1 (by simp)
  | flush =>
    refine ⟨⟨sound.1,trivial⟩,?_,fun _ => .inr (by simp)⟩
    intro text member
    obtain rfl := List.mem_singleton.mp member
    exact sound.2.2
  | ping => exact ⟨sound,by simp,.inl⟩

theorem Upheld.issued (upheld : Upheld env s) (present : s.fetch i ≠ .absent) : i < s.page.issued := by
  by_contra beyond
  exact present (upheld.unissued i (Nat.le_of_not_lt beyond))

/-- A command of a request leaves it as good as it was. -/
theorem Upheld.setFetch {f : Fetch F} (upheld : Upheld env s) (present : s.fetch i ≠ .absent)
    (opened : s.fetch i ≠ .settled)
    (keeps : (s.fetch i).UpTo env s.ranking.redis → f.UpTo env s.ranking.redis) : Upheld env (s.setFetch i f) := by
  have early := upheld.issued present
  refine ⟨upheld.channel,upheld.link,upheld.wire,fun j beyond => ?_,upheld.silent,upheld.fresh.imp id fun fresh => ?_⟩
  · have later : s.page.issued ≤ j := beyond
    have apart : j ≠ i := by omega
    exact (Function.update_of_ne apart f s.fetch).trans (upheld.unissued j later)
  · rcases fresh with writing | telling | ⟨n,latest,upTo⟩ | ⟨settled,_⟩
    · exact .inl writing
    · exact .inr (.inl telling)
    · refine .inr (.inr (.inl ⟨n,latest,?_⟩))
      by_cases same : n = i
      · subst same
        simpa [System.setFetch] using keeps upTo
      · simpa [System.setFetch,Function.update_of_ne same] using upTo
    · exact absurd (settled i early) opened

omit [LinearOrder F] in
theorem settle_parts (s : System F) (i : Nat) (response : Option (List (LeaderboardEntry F))) :
    (settle s i response).2.ranking = s.ranking ∧ (settle s i response).2.channel = s.channel ∧
    (settle s i response).2.link = s.link ∧ (settle s i response).2.wire = s.wire ∧
    (settle s i response).2.fetch = Function.update s.fetch i .settled ∧
    (settle s i response).2.page.issued = s.page.issued ∧
    ∀ entries, response = some entries → (settle s i response).2.page.leaderboardData = entries := by
  cases response with
  | none => exact ⟨rfl,rfl,rfl,rfl,rfl,rfl,by simp⟩
  | some entries => exact ⟨rfl,rfl,rfl,rfl,rfl,rfl,fun _ same => Option.some.inj same⟩

/-- The answer of the latest request that comes after all others brings the page up to date. -/
theorem Upheld.settle (upheld : Upheld env s) (answered : s.fetch i = .answered response)
    (order : ∀ j, j < i → s.fetch j = .settled) :
    Upheld env (settle s i response).2 := by
  obtain ⟨ranking,channel,link,wire,fetch,issued,shows⟩ := settle_parts s i response
  have early := upheld.issued (i := i) (by simp [answered])
  refine ⟨channel ▸ upheld.channel,link ▸ upheld.link,wire ▸ upheld.wire,fun j beyond => ?_,
    by rw [link,issued,wire]; exact upheld.silent,?_⟩
  · rw [issued] at beyond
    rw [fetch,Function.update_of_ne (by omega)]
    exact upheld.unissued j beyond
  · rw [link]
    refine upheld.fresh.imp id fun fresh => ?_
    rcases fresh with writing | telling | ⟨n,latest,upTo⟩ | ⟨settled,_⟩
    · exact .inl (ranking ▸ writing)
    · exact .inr (.inl (by simpa only [Telling,channel,link,wire] using telling))
    · by_cases same : n = i
      · subst same
        rw [answered] at upTo
        refine .inr (.inr (.inr ⟨fun j old => ?_,fun entries encoded => ?_⟩))
        · rw [issued,latest] at old
          rw [fetch]
          by_cases last : j = n
          · rw [last,Function.update_self]
          · rw [Function.update_of_ne last]
            exact order j (by omega)
        · rw [ranking] at encoded
          exact shows entries (upTo.trans encoded)
      · refine .inr (.inr (.inl ⟨n,issued.trans latest,?_⟩))
        rw [fetch,Function.update_of_ne same,ranking]
        exact upTo
    · simp [settled i early] at answered

omit [LinearOrder F] in
/-- The page reads the standings again whenever it is told of an update. -/
theorem handle_told (env : Env F) (s : System F) (told : Told data) :
    ∃ log, handle env s data = (.logged log,fetchLeaderboard (s.log log)) := by
  obtain ⟨u,rfl⟩ := told
  have contestant : (Frames.shown u).get (js "contestant_id") = some (.str (utf16 u.contestantID)) := rfl
  exact ⟨_,by simp only [handle,Frames.onmessage_single,contestant]; rfl⟩

/-- A new request. -/
theorem Upheld.refetch {t : System F} (upheld : Upheld env s)
    (fetch : t.fetch = Function.update s.fetch s.page.issued .sent)
    (issued : t.page.issued = s.page.issued + 1) (channel : t.channel = s.channel) (link : t.link.Sound)
    (loaded : t.link ≠ .unloaded) (wire : ∀ text ∈ t.wire, Told text) : Upheld env t := by
  refine ⟨channel ▸ upheld.channel,link,wire,fun j beyond => ?_,fun unloaded => absurd unloaded loaded,
    .inr (.inr (.inr (.inl ⟨s.page.issued,issued,?_⟩)))⟩
  · rw [issued] at beyond
    rw [fetch,Function.update_of_ne (by omega)]
    exact upheld.unissued j (by omega)
  · rw [fetch,Function.update_self]
    trivial

/-- A step that leaves the standings and the requests alone and loses no message. -/
theorem Upheld.carry {t : System F} (upheld : Upheld env s) (loaded : s.link ≠ .unloaded) (loaded' : t.link ≠ .unloaded)
    (tells : Telling s → Telling t) (link : t.link.Sound) (wire : ∀ text ∈ t.wire, Told text)
    (channel : t.channel = s.channel)
    (ranking : t.ranking = s.ranking) (fetch : t.fetch = s.fetch) (issued : t.page.issued = s.page.issued)
    (data : t.page.leaderboardData = s.page.leaderboardData) : Upheld env t := by
  refine ⟨channel ▸ upheld.channel,link,wire,?_,fun unloaded => absurd unloaded loaded',.inr ?_⟩
  · rw [issued,fetch]
    exact upheld.unissued
  · rcases upheld.fresh.resolve_left loaded with writing | telling | fetching | current
    · exact .inl (ranking ▸ writing)
    · exact .inr (.inl (tells telling))
    · refine .inr (.inr (.inl ?_))
      simpa only [Fetching,ranking,fetch,issued] using fetching
    · refine .inr (.inr (.inr ?_))
      simpa only [Current,ranking,fetch,issued,data] using current

omit [LinearOrder F] in
/-- A change of the connection while there is no message on it. -/
theorem Telling.relink {t : System F} (telling : Telling s) (idle : ¬s.link.busy) (channel : t.channel = s.channel)
    (wire : t.wire = s.wire) :
    Telling t := by
  rcases telling with waiting | busy | arriving
  · exact .inl (channel ▸ waiting)
  · exact absurd busy idle
  · exact .inr (.inr (wire ▸ arriving))

theorem Upheld.update {a : Ranking.Action F} {e : Ranking.Event} {t : Ranking.State F} (upheld : Upheld env s)
    (reliable : Reliable env s (.update a)) (result : s.ranking.step env.ops a = some (e,t)) :
    Upheld env { s with ranking := t, channel := s.channel ++ published e } := by
  refine ⟨fun text member => ?_,upheld.link,upheld.wire,upheld.unissued,upheld.silent,?_⟩
  · rcases List.mem_append.mp member with old | new
    · exact upheld.channel text old
    · exact published_told result text new
  · by_cases unloaded : s.link = .unloaded
    · exact .inl unloaded
    · exact .inr (update_fresh (upheld.fresh.resolve_left unloaded) (reliable.resolve_left unloaded) result)

theorem Upheld.relay (upheld : Upheld env s) (reliable : Reliable env s .relay) (first : s.channel = message :: rest) :
    Upheld env { s with channel := rest, link := s.link.offer message } := by
  have told : Told message := upheld.channel message (by simp [first])
  have channel : ∀ text ∈ rest, Told text := fun text member => upheld.channel text (by simp [first,member])
  rcases reliable with unloaded | takes
  · have same : s.link.offer message = .unloaded := by simp [Link.offer,unloaded]
    exact ⟨channel,by simp [same,Link.Sound],upheld.wire,upheld.unissued,fun _ => upheld.silent unloaded,.inl same⟩
  · obtain ⟨sound,busy⟩ := Link.takes.offered takes upheld.link told
    refine ⟨channel,sound,upheld.wire,upheld.unissued,fun unloaded => ?_,.inr (.inr (.inl (.inr (.inl busy))))⟩
    rw [show s.link.offer message = .unloaded from unloaded] at busy
    exact busy.elim

theorem Upheld.pump {a : Frames.Action} {e : Frames.Event} {feed feed' : Feed} (upheld : Upheld env s)
    (reliable : Reliable env s (.pump a))
    (registered : s.link = .registered feed) (other : ∀ u, a ≠ .enqueue u) (result : feed.step a = some (e,feed')) :
    Upheld env { s with link := .registered feed', wire := s.wire ++ Frames.frames [e] } := by
  have loaded : s.link ≠ .unloaded := by simp [registered]
  have alone : s.link.alone a := reliable.resolve_left loaded
  have before := upheld.link
  rw [registered] at alone before
  obtain ⟨sound,framed,busy⟩ := pump_keeps before alone other (Frames.step_moves a result)
  refine upheld.carry loaded (by simp) (fun telling => ?_) sound (fun text member => ?_) rfl rfl rfl rfl rfl
  · rcases telling with waiting | still | arriving
    · exact .inl waiting
    · rw [registered] at still
      rcases busy still with still | fresh
      · exact .inr (.inl still)
      · exact .inr (.inr fun nothing => fresh (List.append_eq_nil_iff.mp nothing).2)
    · exact .inr (.inr fun nothing => arriving (List.append_eq_nil_iff.mp nothing).1)
  · rcases List.mem_append.mp member with old | new
    · exact upheld.wire text old
    · exact framed text new

theorem Upheld.loaded (upheld : Upheld env s) (present : s.fetch i ≠ .absent) : s.link ≠ .unloaded := by
  intro unloaded
  have early := upheld.issued present
  rw [(upheld.silent unloaded).1] at early
  omega

theorem step_upheld (upheld : Upheld env s) (reliable : Reliable env s a) (moves : Moves env s a e s') :
    Upheld env s' := by
  cases moves with
  | update a e t result => exact upheld.update reliable result
  | relay message rest first => exact upheld.relay reliable first
  | register connecting =>
    have idle : ¬s.link.busy := by simp [connecting,Link.busy]
    exact upheld.carry (by simp [connecting]) (by simp) (fun telling => telling.relink idle rfl rfl)
      (by simp [Link.Sound,newFeed]) upheld.wire rfl rfl rfl rfl rfl
  | pump a feed feed' e registered other result => exact upheld.pump reliable registered other result
  | drop loaded =>
    obtain ⟨idle,_⟩ := reliable.resolve_left loaded
    exact upheld.carry loaded (by simp) (fun telling =>
      telling.relink idle rfl rfl) trivial upheld.wire rfl rfl rfl rfl rfl
  | load unloaded => exact upheld.refetch rfl rfl rfl trivial (by simp) upheld.wire
  | onopen loaded => exact upheld.carry loaded loaded id upheld.link upheld.wire rfl rfl rfl rfl rfl
  | onmessage data rest first =>
    have loaded : s.link ≠ .unloaded := fun unloaded => by simp [(upheld.silent unloaded).2] at first
    have told : Told data := upheld.wire data (by simp [first])
    obtain ⟨log,handled⟩ := handle_told env { s with wire := rest } told
    rw [handled]
    exact upheld.refetch rfl rfl rfl upheld.link loaded fun text member =>
      upheld.wire text (by simp [first,show text ∈ rest from member])
  | onclose loaded =>
    obtain ⟨idle,empty⟩ := reliable.resolve_left loaded
    exact upheld.carry loaded (by simp [System.log]) (fun telling => telling.relink idle rfl empty.symm) trivial
      (by simp [System.log]) rfl rfl rfl rfl rfl
  | retry waiting =>
    have idle : ¬s.link.busy := by simp [waiting,Link.busy]
    exact upheld.carry (by simp [waiting]) (by simp)
      (fun telling => telling.relink idle rfl rfl) trivial upheld.wire rfl rfl rfl rfl rfl
  | zRevRange i fails sent =>
    have present : s.fetch i ≠ .absent := by simp [sent]
    obtain rfl : fails = false := reliable.resolve_left (upheld.loaded present)
    exact upheld.setFetch present (by simp [sent]) fun _ => by simp [Fetch.UpTo,standings]
  | hGetAll i fails z rest entries reading =>
    have present : s.fetch i ≠ .absent := by simp [reading]
    obtain rfl : fails = false := reliable.resolve_left (upheld.loaded present)
    refine upheld.setFetch present (by simp [reading]) fun upTo => ?_
    rw [reading] at upTo
    simpa [Fetch.UpTo] using upTo
  | respond i entries reading =>
    refine upheld.setFetch (by simp [reading]) (by simp [reading]) fun upTo => ?_
    rw [reading] at upTo
    simpa [Fetch.UpTo] using congrArg (encode env.ops) upTo
  | arrive i response answered =>
    exact upheld.settle answered (reliable.resolve_left (upheld.loaded (by simp [answered] : s.fetch i ≠ .absent)))
  | lose i issued => exact (reliable.resolve_left (upheld.loaded issued)).elim

theorem start_upheld (env : Env F) : Upheld env start :=
  ⟨by simp [start],trivial,by simp [start],fun _ _ => rfl,fun _ => ⟨rfl,rfl⟩,.inl rfl⟩

/-- While nothing is lost and nothing comes out of order, a page that has been loaded shows the
standings that `GetLeaderboard` would return now, if these can be written as JSON, unless a call is
about to tell of what it has written, a message is on its way, or a request is not settled. -/
theorem page_catches_up (actions : List (Action F)) (reliable : EachStep (System.step env) (Reliable env) actions start)
    (result : run (System.step env) actions start = some (es,s)) (loaded : s.link ≠ .unloaded)
    {entries : List (LeaderboardEntry F)} (now : getLeaderboard env.ops env.reading s.ranking.redis none
    (fun _ => false) 50 = .ok entries)
    (writes : encode env.ops entries = some entries) :
    s.page.leaderboardData = entries ∨ Writing s.ranking ∨ Telling s ∨ ∃ i, i < s.page.issued ∧ s.fetch i ≠ .settled := by
  have upheld : Upheld env s := run_preserves_under (fun _ s => Upheld env s)
    (fun _ _ a _ _ before good step => step_upheld before good (step_moves a step)) actions []
      (start_upheld env) reliable result
  obtain rfl : standings env s.ranking.redis = entries := Except.ok.inj ((standings_eq env _).symm.trans now)
  rcases upheld.fresh.resolve_left loaded with writing | telling | ⟨i,latest,upTo⟩ | ⟨_,shown⟩
  · exact .inr (.inl writing)
  · exact .inr (.inr (.inl telling))
  · refine .inr (.inr (.inr ⟨i,by omega,fun settled => ?_⟩))
    rw [settled] at upTo
    exact upTo
  · exact .inl (shown _ writes)

/-- The commands of a call, all of which succeed. -/
def wholeCall (k : CallRef) (r : Report Nat) : List (Action Nat) := (successful k r ['t']).map .update

/-- A request from its first command on, with one entry to read. -/
def wholeFetch (i : Nat) : List (Action Nat) := [.zRevRange i false,.hGetAll i false,.respond i,.arrive i]

/-- A page is loaded and has its first request answered; then a call tells of its score. -/
def firstScore : List (Action Nat) :=
  ([.load,.register,.zRevRange 0 false,.respond 0,.onopen,.arrive 0] : List (Action Nat)) ++ wholeCall 0 slowReport ++
    ([.relay,.pump .receive,.pump .measure,.pump .flush] : List (Action Nat))

/-- Whole numbers, which JSON shows as zero. -/
def zeros : Env Nat := ⟨{ wholes with marshal := fun _ => some ⟨['0'],rfl⟩ },⟨fun _ => 0,fun _ => 0,0⟩,fun _ => []⟩

abbrev guarded (s : System Nat) (a : Action Nat) : Option (Event Nat × System Nat) :=
  if Reliable zeros s a then s.step zeros a else none

/-- The page handles a frame that tells of an update. -/
theorem step_onmessage (env : Env F) (wire : s.wire = [eventData u]) (connected : s.page.indicator = .connected) :
    ∃ log, s.step env .onmessage = some (.logged log,fetchLeaderboard ({ s with wire := [] }.log log)) := by
  obtain ⟨log,handled⟩ := handle_told env { s with wire := [] } ⟨u,rfl⟩
  exact ⟨log,by simp only [System.step,wire,connected,if_true,handled]⟩

theorem firstScore_runs : ∃ es s u, run guarded firstScore start = some (es,s) ∧ s.wire = [eventData u] ∧
    s.page.indicator = .connected ∧
    ∀ log, ∃ es' t, run guarded (wholeFetch 1) (fetchLeaderboard ({ s with wire := [] }.log log)) = some (es',t) ∧
      t.channel = [] ∧ t.link = .registered newFeed ∧ t.wire = [] ∧ t.page.issued = 2 ∧ t.fetch 0 = .settled ∧
      t.fetch 1 = .settled ∧ (∀ k, (t.ranking.call k).inProgress = false) ∧ t.page.leaderboardData.length = 1 := by
  refine ⟨_,_,⟨['s'],['c'],⟨['0'],rfl⟩⟩,rfl,rfl,rfl,fun log => ⟨_,_,rfl,rfl,rfl,rfl,rfl,rfl,rfl,?_,rfl⟩⟩
  intro k
  match k with
  | 0 => rfl
  | k + 1 => rfl

theorem firstScore_caught_up :
    ∃ es s, run (System.step zeros) (firstScore ++ .onmessage :: wholeFetch 1) start = some (es,s) ∧
    s.page.leaderboardData = standings zeros s.ranking.redis ∧ s.page.leaderboardData.length = 1 := by
  obtain ⟨es,s,u,reached,wire,connected,goesOn⟩ := firstScore_runs
  obtain ⟨log,told⟩ := step_onmessage zeros wire connected
  obtain ⟨es',t,read,channel,link,empty,issued,first,second,finished,one⟩ := goesOn log
  have hears : guarded s .onmessage = some (.logged log,fetchLeaderboard ({ s with wire := [] }.log log)) :=
    (if_pos (.inr trivial)).trans told
  obtain ⟨result,reliable⟩ := run_guarded (run_append reached (run_cons hears read))
  have encodes : encode zeros.ops (standings zeros t.ranking.redis) = some (standings zeros t.ranking.redis) := by
    simp [encode,zeros]
  refine ⟨_,t,result,?_,one⟩
  rcases page_catches_up _ reliable result (by simp [link]) (standings_eq zeros _) encodes with shown | ⟨k,busy,_⟩ |
    telling | ⟨i,early,opened⟩
  · exact shown
  · simp [finished k] at busy
  · simp [Telling,channel,link,empty,Link.busy,newFeed,Frames.Pump.started] at telling
  · have both : i = 0 ∨ i = 1 := by omega
    rcases both with rfl | rfl
    · exact absurd first opened
    · exact absurd second opened

/-- What a page shows in the end, against what there is: the numbers of entries. -/
def shownInTheEnd (actions : List (Action Nat)) : Option (Nat × Nat) :=
  (run (System.step zeros) actions start).map fun x =>
    (x.2.page.leaderboardData.length,(standings zeros x.2.ranking.redis).length)

/-- A score that is told of before the hub knows the page stays unseen. -/
example : shownInTheEnd (.load :: .zRevRange 0 false :: .respond 0 :: .arrive 0 :: (wholeCall 0 slowReport).append
    [.relay,.register,.onopen]) = some (0,1) := rfl

/-- An early answer that arrives late takes the page back. -/
example : shownInTheEnd (.load :: .register :: .zRevRange 0 false :: .respond 0 :: .onopen ::
    (wholeCall 0 slowReport).append (.relay :: .pump .receive :: .pump .measure :: .pump .flush :: .onmessage ::
      (wholeFetch 1).append [.arrive 0])) = some (0,1) := by
  decide +kernel

end TradingPlatform.Leaderboard.Live

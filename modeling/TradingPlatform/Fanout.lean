import Mathlib.Data.List.Basic

/-! Buffered channels, and logs of a hub that offers every broadcast to its members: what a
member has been given is a stretch of the broadcasts that begins when it joins. -/
namespace TradingPlatform.Fanout

/-- A buffered channel. Sending on a closed channel and closing it again panic. -/
structure Chan (μ : Type) where
  capacity : Nat
  buffer : List μ
  closed : Bool
  deriving DecidableEq, Repr

/-- A send that gives up when the buffer is full; `none` is a panic. -/
def Chan.trySend (ch : Chan μ) (m : μ) : Option (Bool × Chan μ) :=
  if ch.closed then none
  else if ch.buffer.length < ch.capacity then some (true,{ ch with buffer := ch.buffer ++ [m] })
  else some (false,ch)

/-- `make` panics on a negative size. A size too large to allocate is left out. -/
def Chan.make (size : Int) : Option (Chan μ) := if size < 0 then none else some ⟨size.toNat,[],false⟩

/-- A send that waits for room: `none` blocks, and a closed channel panics. -/
def Chan.send (ch : Chan μ) (m : μ) : Option (Option (Chan μ)) :=
  if ch.closed then some none
  else if ch.buffer.length < ch.capacity then some (some { ch with buffer := ch.buffer ++ [m] })
  else none

def Chan.close (ch : Chan μ) : Option (Chan μ) := if ch.closed then none else some { ch with closed := true }

/-- A receive: `none` blocks, and a closed channel yields nothing once it is empty. -/
def Chan.receive (ch : Chan μ) : Option (Option μ × Chan μ) :=
  match ch.buffer with
  | m :: rest => some (some m,{ ch with buffer := rest })
  | [] => if ch.closed then some (none,ch) else none

theorem Chan.receive_some {ch ch' : Chan μ} (received : ch.receive = some (some m,ch')) :
    ∃ rest, ch.buffer = m :: rest ∧ ch' = { ch with buffer := rest } := by
  obtain ⟨capacity,buffer,closed⟩ := ch
  cases buffer with
  | nil => cases closed <;> simp [Chan.receive] at received
  | cons first rest =>
    obtain ⟨same,rfl⟩ := Prod.mk.inj (Option.some.inj received)
    obtain rfl := Option.some.inj same
    exact ⟨rest,rfl,rfl⟩

inductive Event (κ μ : Type) where
  | joined (c : κ)
  | handled (m : μ)
  | taken (c : κ) (m : μ)
  | skipped (c : κ) (m : μ)
  | left (c : κ)
  | drained (c : κ) (m : μ)
  | panicked
  | quiet
  deriving DecidableEq, Repr

variable {κ μ : Type} [DecidableEq κ] {c d : κ} {m : μ} {e : Event κ μ} {es es' : List (Event κ μ)} {owed owed' : List μ}

/-- The broadcasts, in the order in which they were handled. -/
def handled (es : List (Event κ μ)) : List μ := es.filterMap fun | .handled m => some m | _ => none

def takenBy (c : κ) (es : List (Event κ μ)) : List μ :=
  es.filterMap fun | .taken d m => if d = c then some m else none | _ => none

def drainedBy (c : κ) (es : List (Event κ μ)) : List μ :=
  es.filterMap fun | .drained d m => if d = c then some m else none | _ => none

omit [DecidableEq κ] in
theorem handled_append (es es' : List (Event κ μ)) : handled (es ++ es') = handled es ++ handled es' :=
  List.filterMap_append

theorem takenBy_append (c : κ) (es es' : List (Event κ μ)) : takenBy c (es ++ es') = takenBy c es ++ takenBy c es' :=
  List.filterMap_append

theorem drainedBy_append (c : κ) (es es' : List (Event κ μ)) :
    drainedBy c (es ++ es') = drainedBy c es ++ drainedBy c es' := List.filterMap_append

def Event.names (c : κ) : Event κ μ → Bool
  | .joined d | .taken d _ | .skipped d _ | .left d | .drained d _ => d = c
  | .handled _ | .panicked | .quiet => false

/-- Joining, leaving or missing a broadcast. -/
def Event.moves (c : κ) : Event κ μ → Bool
  | .joined d | .skipped d _ | .left d => d = c
  | _ => false

def Untold (c : κ) (es : List (Event κ μ)) : Prop := ∀ e ∈ es, e.names c = false

def Steady (c : κ) (es : List (Event κ μ)) : Prop := ∀ e ∈ es, e.moves c = false

theorem Untold.takenBy (untold : Untold c es) : takenBy c es = [] := by
  apply List.filterMap_eq_nil_iff.mpr
  intro e member
  have other := untold e member
  cases e <;> simp_all [Event.names]

theorem Untold.drainedBy (untold : Untold c es) : drainedBy c es = [] := by
  apply List.filterMap_eq_nil_iff.mpr
  intro e member
  have other := untold e member
  cases e <;> simp_all [Event.names]

theorem takenBy_other (other : e.names c = false) : takenBy c [e] = [] := by
  cases e <;> simp_all [Event.names,takenBy]

theorem drainedBy_other (other : e.names c = false) : drainedBy c [e] = [] := by
  cases e <;> simp_all [Event.names,drainedBy]

theorem joined_other (other : e.names c = false) : Event.joined c ∈ es ++ [e] ↔ Event.joined c ∈ es := by
  have differ : e ≠ .joined c := by
    rintro rfl
    simp [Event.names] at other
  simp [differ.symm]

theorem Untold.snoc (untold : Untold c es) (other : e.names c = false) : Untold c (es ++ [e]) := by
  intro e' member
  rcases List.mem_append.mp member with early | last
  · exact untold e' early
  · rw [List.mem_singleton.mp last]
    exact other

theorem Steady.snoc (steady : Steady c es) (other : e.moves c = false) : Steady c (es ++ [e]) := by
  intro e' member
  rcases List.mem_append.mp member with early | last
  · exact steady e' early
  · rw [List.mem_singleton.mp last]
    exact other

/-- A member has been given every broadcast since it joined, but for those owed to it. -/
def Inside (c : κ) (es : List (Event κ μ)) (owed : List μ) : Prop :=
  ∃ before during, es = before ++ .joined c :: during ∧ Untold c before ∧ Steady c during ∧
    handled during = takenBy c during ++ owed

/-- It was given every broadcast between joining and leaving, or up to the one for which its
buffer had no room, and nothing after that. -/
def Ended (capacity : Nat) (c : κ) (es : List (Event κ μ)) : Prop :=
  ∃ before during last after, es = before ++ .joined c :: (during ++ last :: after) ∧ Untold c before ∧
    Steady c during ∧ takenBy c after = [] ∧ Event.joined c ∉ after ∧
    ((last = .left c ∧ handled during = takenBy c during) ∨
      ∃ m, last = .skipped c m ∧ handled during = takenBy c during ++ [m] ∧
        (takenBy c during).length = (drainedBy c during).length + capacity)

theorem Untold.join (untold : Untold c es) : Inside c (es ++ [.joined c]) [] :=
  ⟨es,[],rfl,untold,by simp [Steady],rfl⟩

theorem Inside.snoc (inside : Inside c es owed) (still : e.moves c = false)
    (balance : owed ++ handled [e] = takenBy c [e] ++ owed') : Inside c (es ++ [e]) owed' := by
  obtain ⟨before,during,rfl,untold,steady,given⟩ := inside
  refine ⟨before,during ++ [e],by simp,untold,steady.snoc still,?_⟩
  rw [handled_append,takenBy_append,given,List.append_assoc,balance,List.append_assoc]

theorem Inside.leave (inside : Inside c es []) (capacity : Nat) : Ended capacity c (es ++ [.left c]) := by
  obtain ⟨before,during,rfl,untold,steady,given⟩ := inside
  exact ⟨before,during,.left c,[],by simp,untold,steady,rfl,by simp,.inl ⟨rfl,by simpa using given⟩⟩

theorem Inside.skip (inside : Inside c es [m]) (full : (takenBy c es).length = (drainedBy c es).length + capacity) :
    Ended capacity c (es ++ [.skipped c m]) := by
  obtain ⟨before,during,rfl,untold,steady,given⟩ := inside
  refine ⟨before,during,.skipped c m,[],by simp,untold,steady,rfl,by simp,.inr ⟨m,rfl,given,?_⟩⟩
  rw [takenBy_append,drainedBy_append,untold.takenBy,untold.drainedBy] at full
  exact full

theorem Ended.snoc (ended : Ended capacity c es) (nothing : takenBy c [e] = []) (fresh : e ≠ .joined c) :
    Ended capacity c (es ++ [e]) := by
  obtain ⟨before,during,last,after,rfl,untold,steady,idle,once,reason⟩ := ended
  refine ⟨before,during,last,after ++ [e],by simp,untold,steady,?_,?_,reason⟩
  · rw [takenBy_append,idle,nothing]
    rfl
  · simp only [List.mem_append,List.mem_singleton,not_or]
    exact ⟨once,fresh.symm⟩

/-- A feed that begins with the first broadcast after joining and goes on without a gap. -/
def Gapless (capacity : Nat) (c : κ) (es : List (Event κ μ)) : Prop :=
  (Event.joined c ∉ es ∧ takenBy c es = []) ∨ (∃ owed, Inside c es owed) ∨ Ended capacity c es

/-- What a member without gaps was given is one stretch of the broadcasts. -/
theorem Gapless.contiguous (gapless : Gapless capacity c es) : takenBy c es <:+: handled es := by
  rcases gapless with ⟨_,nothing⟩ | ⟨owed,before,during,rfl,untold,_,given⟩ |
    ⟨before,during,last,after,rfl,untold,_,idle,_,reason⟩
  · rw [nothing]
    exact List.nil_infix
  · have joined : takenBy c (.joined c :: during) = takenBy c during := rfl
    have joined' : handled (Event.joined c :: during) = handled during := rfl
    rw [takenBy_append,untold.takenBy,joined,handled_append,joined',given]
    exact ⟨handled before,owed,by simp⟩
  · have joined : takenBy c (.joined c :: (during ++ last :: after)) = takenBy c (during ++ last :: after) := rfl
    have joined' : handled (Event.joined c :: (during ++ last :: after)) = handled (during ++ last :: after) := rfl
    have ends : takenBy c (last :: after) = [] := by
      rcases reason with ⟨rfl,_⟩ | ⟨m,rfl,_⟩ <;> exact idle
    have within : takenBy c during <+: handled during := by
      rcases reason with ⟨_,same⟩ | ⟨m,_,same,_⟩
      · exact same ▸ List.prefix_refl _
      · rw [same]
        exact List.prefix_append _ _
    rw [takenBy_append,untold.takenBy,joined,handled_append,joined',takenBy_append,ends,handled_append]
    obtain ⟨more,split⟩ := within
    exact ⟨handled before,more ++ handled (last :: after),by rw [← split]; simp⟩

/-- After a broadcast that was missed nothing is taken. -/
def StopsAtSkip (c : κ) (es : List (Event κ μ)) : Prop :=
  ∀ front back m, es = front ++ .skipped c m :: back → takenBy c back = []

theorem skip_beyond (steady : Steady c xs) (split : xs ++ ys = front ++ Event.skipped c m :: back) :
    ∃ middle, ys = middle ++ Event.skipped c m :: back := by
  rcases List.append_eq_append_iff.mp split with ⟨middle,_,rest⟩ | ⟨middle,inside,rest⟩
  · exact ⟨middle,rest⟩
  · cases middle with
    | nil => exact ⟨[],by simpa using rest.symm⟩
    | cons e middle =>
      obtain ⟨rfl,_⟩ := List.cons.inj rest
      have moves := steady (.skipped c m) (by rw [inside]; simp)
      simp [Event.moves] at moves

theorem Untold.steady (untold : Untold c es) : Steady c es := by
  intro e member
  have other := untold e member
  cases e <;> simp_all [Event.names,Event.moves]

theorem Gapless.stops (gapless : Gapless capacity c es) : StopsAtSkip c es := by
  intro front back m split
  rcases gapless with ⟨_,nothing⟩ | ⟨owed,before,during,rfl,untold,steady,_⟩ |
    ⟨before,during,last,after,rfl,untold,steady,idle,_,_⟩
  · rw [split,takenBy_append] at nothing
    exact (List.append_eq_nil_iff.mp nothing).2
  · obtain ⟨middle,rest⟩ := skip_beyond untold.steady split
    cases middle with
    | nil => simp at rest
    | cons e middle =>
      have moves := steady (.skipped c m) (by rw [(List.cons.inj rest).2]; simp)
      simp [Event.moves] at moves
  · obtain ⟨middle,rest⟩ := skip_beyond untold.steady split
    cases middle with
    | nil => simp at rest
    | cons e middle =>
      obtain ⟨middle',rest'⟩ := skip_beyond steady (List.cons.inj rest).2
      cases middle' with
      | nil =>
        rw [← (List.cons.inj rest').2]
        exact idle
      | cons e' middle' =>
        have tail : after = middle' ++ .skipped c m :: back := (List.cons.inj rest').2
        rw [tail,takenBy_append] at idle
        exact (List.append_eq_nil_iff.mp idle).2

end TradingPlatform.Fanout

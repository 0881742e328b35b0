import Mathlib.Data.List.Basic
import Mathlib.Logic.Function.Basic

/-! A topic: partitions that grow at the end and are read in order, each from the offset its reader
has come to. Messages of one kind that share a partition are read in the order they were sent. -/
namespace TradingPlatform.Topics

structure Topic (π μ : Type) where
  log : π → List μ
  next : π → Nat

inductive Event (π μ : Type) where
  | sent (p : π) (m : μ)
  | got (p : π) (m : μ)
  | quiet
  deriving DecidableEq, Repr

variable {π μ α : Type} {t : Topic π μ} {es : List (Event π μ)} {p home : π} {m : μ} {c : μ → Option α}

def sent (es : List (Event π μ)) : List (π × μ) := es.filterMap fun | .sent p m => some (p,m) | _ => none

def got (es : List (Event π μ)) : List (π × μ) := es.filterMap fun | .got p m => some (p,m) | _ => none

@[simp] theorem sent_append (es es' : List (Event π μ)) : sent (es ++ es') = sent es ++ sent es' := by simp [sent]

@[simp] theorem got_append (es es' : List (Event π μ)) : got (es ++ es') = got es ++ got es' := by simp [got]

@[simp] theorem sent_single (e : Event π μ) : sent [e] = match e with | .sent p m => [(p,m)] | _ => [] := by
  cases e <;> rfl

@[simp] theorem got_single (e : Event π μ) : got [e] = match e with | .got p m => [(p,m)] | _ => [] := by
  cases e <;> rfl

/-- The messages of a kind, in the order they were sent. -/
def sentAs (c : μ → Option α) (es : List (Event π μ)) : List α := (sent es).filterMap fun x => c x.2

def gotAs (c : μ → Option α) (es : List (Event π μ)) : List α := (got es).filterMap fun x => c x.2

def Topic.empty : Topic π μ := ⟨fun _ => [],fun _ => 0⟩

variable [DecidableEq π]

def Topic.append (t : Topic π μ) (p : π) (m : μ) : Topic π μ :=
  { t with log := Function.update t.log p (t.log p ++ [m]) }

def Topic.read (t : Topic π μ) (p : π) : Option (μ × Topic π μ) :=
  (t.log p)[t.next p]?.map fun m => (m,{ t with next := Function.update t.next p (t.next p + 1) })

/-- The part of a list of messages that belongs to a partition. -/
def within (p : π) (xs : List (π × μ)) : List μ := (xs.filter (·.1 = p)).map Prod.snd

@[simp] theorem within_append (p : π) (xs ys : List (π × μ)) :
    within p (xs ++ ys) = within p xs ++ within p ys := by simp [within]

@[simp] theorem within_single (p q : π) (m : μ) : within p [(q,m)] = if q = p then [m] else [] := by
  by_cases same : q = p <;> simp [within,same]

theorem mem_within : m ∈ within p xs ↔ (p,m) ∈ xs := by
  simp [within]

/-- The topic holds what was sent, and what was got is the part that has been read. -/
structure Records (es : List (Event π μ)) (t : Topic π μ) : Prop where
  holds : ∀ p, within p (sent es) = t.log p
  reads : ∀ p, within p (got es) = (t.log p).take (t.next p)
  bound : ∀ p, t.next p ≤ (t.log p).length

theorem Records.start : Records [] (Topic.empty : Topic π μ) :=
  ⟨fun _ => rfl,fun _ => rfl,fun _ => Nat.le_refl _⟩

theorem Records.append (records : Records es t) (p : π) (m : μ) : Records (es ++ [.sent p m]) (t.append p m) := by
  refine ⟨?_,?_,?_⟩
  · intro q
    by_cases same : q = p
    · simp [records.holds,Topic.append,same]
    · simp [records.holds,Topic.append,same,Ne.symm same]
  · intro q
    have bound := records.bound q
    by_cases same : q = p
    · subst same
      simp [records.reads,Topic.append,List.take_append_of_le_length bound]
    · simp [records.reads,Topic.append,same]
  · intro q
    have bound := records.bound q
    by_cases same : q = p
    · subst same
      simp [Topic.append]
      omega
    · simpa [Topic.append,same] using bound

theorem Records.read (records : Records es t) (result : t.read p = some (m,t')) : Records (es ++ [.got p m]) t' := by
  obtain ⟨m',found,same⟩ := Option.map_eq_some_iff.mp result
  obtain ⟨rfl,rfl⟩ := Prod.mk.inj same
  obtain ⟨short,value⟩ := List.getElem?_eq_some_iff.mp found
  refine ⟨?_,?_,?_⟩
  · intro q
    simp [records.holds]
  · intro q
    by_cases same : q = p
    · subst same
      simp [records.reads,List.take_add_one,found]
    · simp [records.reads,same,Ne.symm same]
  · intro q
    by_cases same : q = p
    · subst same
      simpa [Nat.succ_le_iff] using short
    · simpa [same] using records.bound q

theorem Records.quiet (records : Records es t) : Records (es ++ [.quiet]) t :=
  ⟨by simpa using records.holds,by simpa using records.reads,records.bound⟩

/-- A kind of message that is only found in one partition. -/
theorem filterMap_within (xs : List (π × μ)) (housed : ∀ x ∈ xs, (c x.2).isSome → x.1 = home) :
    xs.filterMap (fun x => c x.2) = (within home xs).filterMap c := by
  induction xs with
  | nil => rfl
  | cons x xs ih =>
    have later := ih fun y member => housed y (by simp [member])
    have split : within home (x :: xs) = within home [x] ++ within home xs := within_append home [x] xs
    rw [split,List.filterMap_append,← later,List.filterMap_cons]
    by_cases same : x.1 = home
    · cases kind : c x.2 <;> simp [within,same,kind]
    · cases kind : c x.2 with
      | none => simp [within,same]
      | some a => exact absurd (housed x (by simp) (by simp [kind])) same

theorem Records.got_sent (records : Records es t) (member : (p,m) ∈ got es) : (p,m) ∈ sent es := by
  rw [← mem_within,records.reads] at member
  rw [← mem_within,records.holds]
  exact List.mem_of_mem_take member

/-- Messages of one kind in one partition are read in the order they were sent, without gaps. -/
theorem Records.in_order (records : Records es t) (housed : ∀ x ∈ sent es, (c x.2).isSome → x.1 = home) :
    sentAs c es = gotAs c es ++ ((t.log home).drop (t.next home)).filterMap c := by
  have there := filterMap_within (sent es) housed
  have seen := filterMap_within (got es) fun x member => housed x (records.got_sent member)
  rw [sentAs,gotAs,there,seen,records.holds,records.reads,← List.filterMap_append,List.take_append_drop]

end TradingPlatform.Topics

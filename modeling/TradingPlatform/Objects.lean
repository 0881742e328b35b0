import Mathlib.Data.List.Basic
import Mathlib.Data.List.Nodup
import Mathlib.Logic.Function.Basic

/-! A store of objects in named spaces. A space goes with everything in it. What is created in a
fixed order, again and again after failures, is at any time a first part of it. -/
namespace TradingPlatform.Objects

inductive Answer where
  | done | alreadyExists | notFound
  deriving DecidableEq, Repr

structure Store (ν κ ο : Type) where
  space : ν → Option ο
  object : ν → κ → Option ο

variable {ν κ ο : Type} [DecidableEq ν] [DecidableEq κ]

def Store.createSpace (s : Store ν κ ο) (n : ν) (o : ο) : Answer × Store ν κ ο :=
  match s.space n with
  | some _ => (.alreadyExists,s)
  | none => (.done,{ s with space := Function.update s.space n (some o) })

/-- An object can only be created in a space that exists. -/
def Store.create (s : Store ν κ ο) (n : ν) (key : κ) (o : ο) : Answer × Store ν κ ο :=
  match s.space n with
  | none => (.notFound,s)
  | some _ =>
    match s.object n key with
    | some _ => (.alreadyExists,s)
    | none => (.done,{ s with object := Function.update s.object n (Function.update (s.object n) key (some o)) })

def Store.deleteSpace (s : Store ν κ ο) (n : ν) : Answer × Store ν κ ο :=
  match s.space n with
  | none => (.notFound,s)
  | some _ => (.done,⟨Function.update s.space n none,Function.update s.object n fun _ => none⟩)

/-- Two stores that agree on a space. -/
def Same (n : ν) (s s' : Store ν κ ο) : Prop := s'.space n = s.space n ∧ s'.object n = s.object n

variable {s : Store ν κ ο} {m n : ν} {key : κ} {o o' : ο} {items : List (κ × ο)} {i k : Nat}

omit [DecidableEq κ] in
theorem createSpace_other (other : m ≠ n) : Same m s (s.createSpace n o).2 := by
  unfold Store.createSpace
  split
  · exact ⟨rfl,rfl⟩
  · exact ⟨by simp [other],rfl⟩

theorem create_other (other : m ≠ n) : Same m s (s.create n key o).2 := by
  unfold Store.create
  split
  · exact ⟨rfl,rfl⟩
  · split
    · exact ⟨rfl,rfl⟩
    · exact ⟨rfl,by simp [other]⟩

omit [DecidableEq κ] in
theorem deleteSpace_other (other : m ≠ n) : Same m s (s.deleteSpace n).2 := by
  unfold Store.deleteSpace
  split
  · exact ⟨rfl,rfl⟩
  · exact ⟨by simp [other],by simp [other]⟩

/-- The space holds the first of the items, one less than `k`, and exists if `k` is not zero. -/
structure Staged (s : Store ν κ ο) (n : ν) (o : ο) (items : List (κ × ο)) (k : Nat) : Prop where
  space : s.space n = if 0 < k then some o else none
  object : ∀ key, s.object n key = ((items.take (k - 1)).find? (·.1 = key)).map Prod.snd

omit [DecidableEq ν] in
theorem Staged.same (staged : Staged s n o items k) (same : Same n s s') : Staged s' n o items k :=
  ⟨same.1.trans staged.space,fun key => (congrFun same.2 key).trans (staged.object key)⟩

omit [DecidableEq ν] in
theorem Staged.clear (space : s.space n = none) (object : ∀ key, s.object n key = none) : Staged s n o items 0 :=
  ⟨by simpa using space,fun key => by simpa using object key⟩

omit [DecidableEq ν] in
theorem Staged.cleared (staged : Staged s n o items 0) : s.space n = none ∧ ∀ key, s.object n key = none :=
  ⟨by simpa using staged.space,fun key => by simpa using staged.object key⟩

theorem find_take (distinct : (items.map Prod.fst).Nodup) (item : items[i]? = some (key,o')) (j : Nat) :
    (items.take j).find? (·.1 = key) = if i < j then some (key,o') else none := by
  induction items generalizing i j with
  | nil => simp at item
  | cons x items ih =>
    obtain ⟨fresh,distinct⟩ := List.nodup_cons.mp distinct
    cases j with
    | zero => simp
    | succ j =>
      cases i with
      | zero =>
        obtain rfl : x = (key,o') := by simpa using item
        simp
      | succ i =>
        have later : items[i]? = some (key,o') := by simpa using item
        have differ : x.1 ≠ key := by
          intro same
          exact fresh (List.mem_map.mpr ⟨(key,o'),List.mem_of_getElem? later,same.symm⟩)
        simp [differ,ih distinct later]

omit [DecidableEq ν] in
/-- An item is there as soon as its turn has come. -/
theorem Staged.item (staged : Staged s n o items k) (distinct : (items.map Prod.fst).Nodup)
    (item : items[i]? = some (key,o')) : s.object n key = if i + 2 ≤ k then some o' else none := by
  rw [staged.object,find_take distinct item]
  by_cases there : i + 2 ≤ k
  · rw [if_pos there,if_pos (by omega),Option.map_some]
  · rw [if_neg there,if_neg (by omega),Option.map_none]

theorem Staged.createSpace (staged : Staged s n o items k) : Staged (s.createSpace n o).2 n o items (max k 1) := by
  have space := staged.space
  by_cases exists_ : 0 < k
  · rw [if_pos exists_] at space
    have more : max k 1 = k := by omega
    simpa [Store.createSpace,space,more] using staged
  · obtain rfl : k = 0 := by omega
    rw [if_neg exists_] at space
    exact ⟨by simp [Store.createSpace,space],by simpa [Store.createSpace,space] using staged.object⟩

/-- Creating an item whose turn has come succeeds, or finds it there. -/
theorem Staged.create (staged : Staged s n o items k) (distinct : (items.map Prod.fst).Nodup)
    (item : items[i]? = some (key,o')) (ready : i + 1 ≤ k) :
    (s.create n key o').1 ≠ .notFound ∧ Staged (s.create n key o').2 n o items (max k (i + 2)) := by
  have space := staged.space
  have present := staged.item distinct item
  rw [if_pos (by omega)] at space
  by_cases there : i + 2 ≤ k
  · rw [if_pos there] at present
    have more : max k (i + 2) = k := by omega
    simpa [Store.create,space,present,more] using staged
  · obtain rfl : k = i + 1 := by omega
    rw [if_neg there] at present
    have more : max (i + 1) (i + 2) = i + 2 := by omega
    have next : items.take (i + 1) = items.take i ++ [(key,o')] := by simp [List.take_add_one,item]
    simp only [Store.create,space,present,more]
    refine ⟨by simp,by simp [space],fun key' => ?_⟩
    have before := staged.object key'
    simp only [Nat.add_sub_cancel] at before
    simp only [Function.update_self,Nat.add_one_sub_one,next,List.find?_append]
    by_cases same : key' = key
    · subst same
      have missing := find_take distinct item i
      rw [if_neg (by omega)] at missing
      simp [missing]
    · cases found : (items.take i).find? (·.1 = key') with
      | none => simp [same,Ne.symm same,before,found]
      | some x => simp [same,before,found]

theorem Staged.deleteSpace (staged : Staged s n o items k) : Staged (s.deleteSpace n).2 n o items 0 := by
  have space := staged.space
  by_cases exists_ : 0 < k
  · rw [if_pos exists_] at space
    simp only [Store.deleteSpace,space]
    exact .clear (by simp) (by simp)
  · obtain rfl : k = 0 := by omega
    rw [if_neg exists_] at space
    simpa [Store.deleteSpace,space] using staged

end TradingPlatform.Objects

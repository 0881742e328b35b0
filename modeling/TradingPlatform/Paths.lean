import TradingPlatform.FileTree
import Mathlib.Data.List.TakeWhile

/-! Go's `filepath` on slash-separated paths: `Clean` and `Join`, which work on the text alone, and
the last element of a path with its extension. -/
namespace TradingPlatform.Paths

open Text FileTree

/-- One element, on what has been kept so far, last element first. -/
def cleanStep (rooted : Bool) (out : List Bytes) (name : Bytes) : List Bytes :=
  if name = [] ∨ name = dot then out
  else if name = dotdot then
    match out with
    | last :: rest => if last = dotdot then dotdot :: out else rest
    | [] => if rooted then [] else [dotdot]
  else name :: out

def elements (rooted : Bool) (path : Bytes) : List Bytes := ((path.splitOn slash).foldl (cleanStep rooted) []).reverse

def render (rooted : Bool) (names : List Bytes) : Bytes :=
  if rooted then slash :: [slash].intercalate names else if names = [] then dot else [slash].intercalate names

def clean (path : Bytes) : Bytes :=
  let rooted : Bool := path.head? = some slash
  render rooted (elements rooted path)

/-- Empty elements in front are ignored. -/
def join : List Bytes → Bytes
  | [] => []
  | first :: rest => if first = [] then join rest else clean ([slash].intercalate (first :: rest))

def trimRight (path : Bytes) : Bytes := (path.reverse.dropWhile (· = slash)).reverse

def lastElement (path : Bytes) : Bytes := (path.reverse.takeWhile (· ≠ slash)).reverse

def base (path : Bytes) : Bytes :=
  if path = [] then dot
  else
    let name := lastElement (trimRight path)
    if name = [] then [slash] else name

/-- The last element from its last dot on. -/
def ext (path : Bytes) : Bytes :=
  let name := lastElement path
  if 46 ∈ name then 46 :: (name.reverse.takeWhile (· ≠ 46)).reverse else []

theorem not_mem_splitOn {c : UInt8} {path : Bytes} (member : name ∈ path.splitOn c) : c ∉ name := by
  induction length : path.length using Nat.strongRecOn generalizing path with
  | ind n ih =>
    by_cases inside : c ∈ path
    · obtain ⟨front,back,rfl,outside⟩ := List.eq_append_cons_of_mem inside
      rw [List.splitOn_append_cons_self_of_not_mem outside] at member
      rcases List.mem_cons.mp member with rfl | later
      · exact outside
      · exact ih back.length (by simp at length; omega) later rfl
    · rw [List.splitOn_eq_singleton inside] at member
      rw [List.mem_singleton.mp member]
      exact inside

/-- What `Clean` keeps: names, and `..` in front of them. -/
def Kept (name : Bytes) : Prop := name ≠ [] ∧ name ≠ dot ∧ slash ∉ name

theorem cleanStep_kept (kept : ∀ x ∈ out, Kept x) (outside : slash ∉ name) : ∀ x ∈ cleanStep rooted out name, Kept x := by
  have up : Kept dotdot := ⟨by decide,by decide,by decide⟩
  unfold cleanStep
  split
  · exact kept
  · rename_i ordinary
    split
    · split
      · split
        · exact List.forall_mem_cons.mpr ⟨up,kept⟩
        · exact fun x member => kept x (List.mem_cons_of_mem _ member)
      · split
        · simp
        · simpa using up
    · exact List.forall_mem_cons.mpr ⟨⟨fun empty => ordinary (.inl empty),fun same => ordinary (.inr same),outside⟩,kept⟩

theorem elements_kept (rooted : Bool) (path : Bytes) : ∀ x ∈ elements rooted path, Kept x := by
  have fold (names out : List Bytes) (outside : ∀ name ∈ names, slash ∉ name) (kept : ∀ x ∈ out, Kept x) :
      ∀ x ∈ names.foldl (cleanStep rooted) out, Kept x := by
    induction names generalizing out with
    | nil => exact kept
    | cons name names ih =>
      obtain ⟨here,later⟩ := List.forall_mem_cons.mp outside
      exact ih _ later (cleanStep_kept kept here)
  intro x member
  exact fold _ [] (fun name => not_mem_splitOn) (by simp) x (List.mem_reverse.mp member)

/-- An ordinary name stays at the end. -/
theorem elements_child (rooted : Bool) (dir : Bytes) (ordinary : IsName name) :
    elements rooted (dir ++ slash :: name) = elements rooted dir ++ [name] := by
  obtain ⟨some',single,up,outside⟩ := ordinary
  rw [elements,List.splitOn_append_cons_self,List.splitOn_eq_singleton outside,List.foldl_append]
  simp [cleanStep,some',single,up,elements]

/-- What stands before the names of a directory's entries. -/
def inside (dir : Bytes) : Bytes := if dir = dot then [] else if dir = [slash] then [slash] else dir ++ [slash]

theorem intercalate_snoc (names : List Bytes) (name : Bytes) :
    [slash].intercalate (names ++ [name]) = (if names = [] then [] else [slash].intercalate names ++ [slash]) ++
      name := by
  induction names with
  | nil => simp
  | cons first names ih =>
    cases names with
    | nil => simp
    | cons second names =>
      rw [List.cons_append,List.cons_append,List.intercalate_cons_cons,← List.cons_append,ih,List.intercalate_cons_cons]
      simp

theorem intercalate_kept {names : List Bytes} (kept : ∀ x ∈ names, Kept x) (some' : names ≠ []) :
    [slash].intercalate names ≠ [] ∧ [slash].intercalate names ≠ dot ∧ [slash].intercalate names ≠ [slash] := by
  cases names with
  | nil => exact absurd rfl some'
  | cons first names =>
    obtain ⟨⟨held,single,outside⟩,_⟩ := List.forall_mem_cons.mp kept
    cases names with
    | nil =>
      rw [List.intercalate_singleton]
      refine ⟨held,single,fun same => outside ?_⟩
      rw [same]
      exact List.mem_singleton_self _
    | cons second names =>
      obtain ⟨b,first,rfl⟩ := List.exists_cons_of_ne_nil held
      rw [List.intercalate_cons_cons]
      refine ⟨by simp,fun same => ?_,fun same => ?_⟩ <;> simp [dot,ascii] at same

theorem render_child (kept : ∀ x ∈ names, Kept x) (rooted : Bool) (name : Bytes) :
    render rooted (names ++ [name]) = inside (render rooted names) ++ name := by
  have more : names ++ [name] ≠ [] := by simp
  by_cases none : names = []
  · subst none
    cases rooted <;> simp [render,inside,dot,ascii,slash]
  · obtain ⟨held,single,bare⟩ := intercalate_kept kept none
    cases rooted with
    | false => simp [render,inside,none,single,bare,intercalate_snoc]
    | true =>
      have long : slash :: [slash].intercalate names ≠ [slash] := fun same => held (List.cons.inj same).2
      have other : slash :: [slash].intercalate names ≠ dot := fun same => absurd (List.cons.inj same).1 (by decide)
      simp only [render,if_true,inside,if_neg long,if_neg other,intercalate_snoc,if_neg none]
      simp

/-- An entry of a directory lies directly in it. -/
theorem clean_child (named : dir ≠ []) (ordinary : IsName name) :
    clean (dir ++ slash :: name) = inside (clean dir) ++ name := by
  have head : (dir ++ slash :: name).head? = dir.head? := List.head?_append_of_ne_nil _ named
  rw [clean,clean,head,elements_child _ dir ordinary]
  exact render_child (elements_kept _ dir) _ name

theorem clean_name (ordinary : IsName name) : clean name = name := by
  obtain ⟨some',single,up,outside⟩ := ordinary
  have relative : name.head? ≠ some slash := fun first => outside (List.mem_of_head? first)
  have kept : cleanStep false [] name = [name] := by simp [cleanStep,some',single,up]
  simp [clean,relative,elements,List.splitOn_eq_singleton outside,kept,render]

/-- The same for `Join`, where a directory without a name is the current one. -/
theorem join_child (dir : Bytes) (ordinary : IsName name) :
    join [dir,name] = inside (if dir = [] then dot else clean dir) ++ name := by
  by_cases empty : dir = []
  · have first : join [name] = clean name := by simp [join,ordinary.1]
    rw [join,if_pos empty,if_pos empty,first,clean_name ordinary]
    rfl
  · rw [join,if_neg empty,if_neg empty,← clean_child empty ordinary]
    simp

theorem lastElement_child (path : Bytes) (outside : slash ∉ name) : lastElement (path ++ slash :: name) = name := by
  have all : ∀ b ∈ name.reverse, (b ≠ slash : Bool) = true := by
    intro b member
    have other : b ≠ slash := fun same => outside (same ▸ List.mem_reverse.mp member)
    simpa using other
  rw [lastElement,List.reverse_append,List.reverse_cons,List.append_assoc,List.takeWhile_append_of_pos all]
  simp

theorem not_mem_lastElement (path : Bytes) : slash ∉ lastElement path := by
  intro member
  have kept := List.mem_takeWhile_imp (List.mem_reverse.mp member)
  simp at kept

theorem trimRight_slashes (path : Bytes) (k : Nat) (last : path.getLast? ≠ some slash) :
    trimRight (path ++ List.replicate k slash) = path := by
  have first : path.reverse.head? ≠ some slash := by rwa [List.head?_reverse]
  rw [trimRight,List.reverse_append,List.reverse_replicate]
  have drop : (List.replicate k slash ++ path.reverse).dropWhile (· = slash) = path.reverse.dropWhile (· = slash) :=
    List.dropWhile_append_of_pos (by simp)
  rw [drop]
  cases rest : path.reverse with
  | nil => simpa using rest
  | cons b bs =>
    have other : b ≠ slash := fun same => first (by rw [rest,same]; rfl)
    rw [List.dropWhile_cons_of_neg (by simpa using other),← rest,List.reverse_reverse]

/-- The element a path ends with, whatever slashes follow it. -/
theorem base_child (path : Bytes) (k : Nat) (some' : name ≠ []) (outside : slash ∉ name) :
    base (path ++ slash :: name ++ List.replicate k slash) = name := by
  have last : (path ++ slash :: name).getLast? ≠ some slash := by
    rw [List.getLast?_append_of_ne_nil _ (by simp),List.getLast?_cons_of_ne_nil some']
    exact fun found => outside (List.mem_of_getLast? found)
  have full : path ++ slash :: name ++ List.replicate k slash ≠ [] := by simp
  rw [base,if_neg full,trimRight_slashes _ k last,lastElement_child path outside,if_neg some']

theorem not_mem_ext (path : Bytes) : slash ∉ ext path := by
  simp only [ext]
  split
  · intro member
    rcases List.mem_cons.mp member with same | later
    · exact absurd same (by decide)
    · have inner := (List.takeWhile_sublist _).subset (List.mem_reverse.mp later)
      exact not_mem_lastElement path (List.mem_reverse.mp inner)
  · simp

end TradingPlatform.Paths

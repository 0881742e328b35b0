import TradingPlatform.Text
import Mathlib.Data.List.Induction
import Mathlib.Data.List.MinMax
import Mathlib.Data.List.Sort

/-! File systems of directories, regular files and symbolic links, and how a path is looked up in
one. A location is the list of names from the root; a lookup follows every link it meets, the
last one included, until it has met too many. -/
namespace TradingPlatform.FileTree

open Text

def dot : Bytes := ascii "."

def dotdot : Bytes := ascii ".."

/-- Names of directory entries. -/
def IsName (name : Bytes) : Prop := name ≠ [] ∧ name ≠ dot ∧ name ≠ dotdot ∧ slash ∉ name

instance (name : Bytes) : Decidable (IsName name) := inferInstanceAs (Decidable (_ ∧ _))

abbrev Location := List Bytes

/-- What is at a location; a link is there with its target as text. -/
inductive Kind where
  | dir
  | file (data : Bytes)
  | link (target : Bytes)
  deriving DecidableEq, Repr

/-- Every location is named once, under a directory. -/
structure FileSystem where
  nodes : List (Location × Kind)
  cwd : Location
  maxLinks : Nat
  distinct : (nodes.map Prod.fst).Nodup
  root : ([],.dir) ∈ nodes
  parents : ∀ x ∈ nodes, x.1 = [] ∨ (x.1.dropLast,.dir) ∈ nodes
  names : ∀ x ∈ nodes, ∀ name ∈ x.1, IsName name

inductive Errno where
  | notExist
  | notDirectory
  | isDirectory
  | tooManyLinks
  deriving DecidableEq, Repr

def FileSystem.kind (fs : FileSystem) (loc : Location) : Option Kind := (fs.nodes.find? fun x => x.1 = loc).map Prod.snd

/-- A walk that leaves links to its argument. -/
def walkWith (fs : FileSystem) (follow : Location → List Bytes → Except Errno (Location × Nat)) (left : Nat) :
    Location → List Bytes → Except Errno (Location × Nat)
  | loc, [] => .ok (loc,left)
  | loc, name :: rest =>
    if fs.kind loc ≠ some .dir then .error .notDirectory
    else if name = [] ∨ name = dot then walkWith fs follow left loc rest
    else if name = dotdot then walkWith fs follow left loc.dropLast rest
    else match fs.kind (loc ++ [name]) with
      | none => .error .notExist
      | some (.link target) =>
        if target = [] then .error .notExist
        else follow (if target.head? = some slash then [] else loc) (target.splitOn slash ++ rest)
      | some _ => walkWith fs follow left (loc ++ [name]) rest

/-- Where a walk ends, and how many links it might still have followed. -/
def walk (fs : FileSystem) : Nat → Location → List Bytes → Except Errno (Location × Nat)
  | 0 => walkWith fs (fun _ _ => .error .tooManyLinks) 0
  | n + 1 => walkWith fs (walk fs n) (n + 1)

def resolve (fs : FileSystem) (path : Bytes) : Except Errno (Location × Nat) :=
  if path = [] then .error .notExist
  else walk fs fs.maxLinks (if path.head? = some slash then [] else fs.cwd) (path.splitOn slash)

/-- The name of a location in a directory. -/
def nameIn (loc : Location) (l : Location) : Option Bytes :=
  match l.getLast? with
  | some name => if l.dropLast = loc then some name else none
  | none => none

/-- The entries of a directory as they are stored. -/
def FileSystem.entries (fs : FileSystem) (loc : Location) : List (Bytes × Kind) :=
  fs.nodes.filterMap fun (l,kind) => (nameIn loc l).map fun name => (name,kind)

def byName (x y : Bytes × Kind) : Prop := x.1 ≤ y.1

instance : DecidableRel byName := fun x y => inferInstanceAs (Decidable (x.1 ≤ y.1))

instance : Std.Total byName := ⟨fun x y => Std.Total.total x.1 y.1⟩

instance : IsTrans (Bytes × Kind) byName := ⟨fun _ _ _ => Std.le_trans⟩

/-- The entries of a directory by name, each as what it is itself. -/
def FileSystem.children (fs : FileSystem) (loc : Location) : List (Bytes × Kind) := (fs.entries loc).insertionSort byName

/-- `os.ReadDir`. -/
def readDir (fs : FileSystem) (path : Bytes) : Except Errno (List (Bytes × Kind)) := do
  let (loc,_) ← resolve fs path
  if fs.kind loc = some .dir then .ok (fs.children loc) else .error .notDirectory

/-- `os.ReadFile`. -/
def readFile (fs : FileSystem) (path : Bytes) : Except Errno Bytes := do
  let (loc,_) ← resolve fs path
  match fs.kind loc with
  | some (.file data) => .ok data
  | some .dir => .error .isDirectory
  | _ => .error .notExist

section Nodes

variable {fs : FileSystem} {loc : Location}

theorem kind_eq_some : fs.kind loc = some kind ↔ (loc,kind) ∈ fs.nodes := by
  rw [FileSystem.kind,Option.map_eq_some_iff]
  constructor
  · rintro ⟨⟨l,kind⟩,found,rfl⟩
    obtain rfl : l = loc := by simpa using List.find?_some found
    exact List.mem_of_find?_eq_some found
  · intro member
    have present : (fs.nodes.find? fun x => x.1 = loc).isSome := List.find?_isSome.mpr ⟨_,member,by simp⟩
    obtain ⟨x,found⟩ := Option.isSome_iff_exists.mp present
    have same : x.1 = loc := by simpa using List.find?_some found
    exact ⟨x,found,congrArg Prod.snd (List.inj_on_of_nodup_map fs.distinct (List.mem_of_find?_eq_some found) member same)⟩

theorem parent_dir (known : fs.kind (loc ++ [name]) = some kind) : fs.kind loc = some .dir := by
  have parent := fs.parents _ (kind_eq_some.mp known)
  exact kind_eq_some.mpr (by simpa using parent)

theorem isName (known : fs.kind loc = some kind) (member : name ∈ loc) : IsName name :=
  fs.names _ (kind_eq_some.mp known) name member

theorem nameIn_eq_some : nameIn loc l = some name ↔ l = loc ++ [name] := by
  rcases List.eq_nil_or_concat' l with rfl | ⟨front,last,rfl⟩
  · simp [nameIn]
  · simp only [nameIn,List.getLast?_append,List.getLast?_singleton,Option.some_or,List.dropLast_concat]
    by_cases same : front = loc
    · simp [same]
    · simp [same]

theorem mem_entries : (name,kind) ∈ fs.entries loc ↔ fs.kind (loc ++ [name]) = some kind := by
  rw [FileSystem.entries,List.mem_filterMap,kind_eq_some]
  constructor
  · rintro ⟨⟨l,k⟩,member,found⟩
    obtain ⟨name,last,same⟩ := Option.map_eq_some_iff.mp found
    obtain ⟨rfl,rfl⟩ := Prod.mk.inj same
    rwa [nameIn_eq_some.mp last] at member
  · intro member
    exact ⟨_,member,by simp [nameIn_eq_some.mpr rfl]⟩

theorem entries_nodup (fs : FileSystem) (loc : Location) : ((fs.entries loc).map Prod.fst).Nodup := by
  have names : (fs.entries loc).map Prod.fst = (fs.nodes.map Prod.fst).filterMap (nameIn loc) := by
    simp [FileSystem.entries,List.map_filterMap,List.filterMap_map,Function.comp_def]
  rw [names]
  refine fs.distinct.filterMap fun l l' name first second => ?_
  rw [nameIn_eq_some.mp first,nameIn_eq_some.mp second]

theorem mem_children : (name,kind) ∈ fs.children loc ↔ fs.kind (loc ++ [name]) = some kind := by
  rw [FileSystem.children,(List.perm_insertionSort _ _).mem_iff,mem_entries]

theorem children_nodup (fs : FileSystem) (loc : Location) : ((fs.children loc).map Prod.fst).Nodup :=
  ((List.perm_insertionSort _ _).map Prod.fst).nodup_iff.mpr (entries_nodup fs loc)

/-- Directories with the same entries are listed alike. -/
theorem children_congr {fs' : FileSystem} {loc' : Location}
    (same : ∀ name, fs.kind (loc ++ [name]) = fs'.kind (loc' ++ [name])) : fs.children loc = fs'.children loc' := by
  have entries : (fs.entries loc).Perm (fs'.entries loc') := by
    refine (List.perm_ext_iff_of_nodup (entries_nodup fs loc).of_map (entries_nodup fs' loc').of_map).mpr ?_
    rintro ⟨name,kind⟩
    rw [mem_entries,mem_entries,same]
  refine List.Perm.eq_of_pairwise ?_ (List.pairwise_insertionSort _ _) (List.pairwise_insertionSort _ _)
    ((List.perm_insertionSort _ _).trans (entries.trans (List.perm_insertionSort _ _).symm))
  rintro ⟨name,kind⟩ ⟨name',kind'⟩ first second before after
  obtain rfl : name = name' := Std.le_antisymm before after
  rw [mem_children] at first second
  rw [same,second] at first
  rw [Option.some.inj first]

end Nodes

section Walks

variable {fs : FileSystem} {loc : Location} {left : Nat}

/-- What a walk does about a link, with so many links left. -/
def follow (fs : FileSystem) : Nat → Location → List Bytes → Except Errno (Location × Nat)
  | 0 => fun _ _ => .error .tooManyLinks
  | n + 1 => walk fs n

theorem walk_eq (fs : FileSystem) (n : Nat) : walk fs n = walkWith fs (follow fs n) n := by
  cases n <;> rfl

theorem walk_nil (fs : FileSystem) (n : Nat) (loc : Location) : walk fs n loc [] = .ok (loc,n) := by
  rw [walk_eq]
  rfl

/-- A walk can be interrupted after any of its names, if following a link can. -/
theorem walkWith_append (n : Nat) (ys : List Bytes)
    (follows : ∀ l xs, follow fs n l (xs ++ ys) = (follow fs n l xs).bind fun (l,left) => walk fs left l ys)
    (loc : Location) (xs : List Bytes) :
    walkWith fs (follow fs n) n loc (xs ++ ys) =
      (walkWith fs (follow fs n) n loc xs).bind fun (l,left) => walk fs left l ys := by
  induction xs generalizing loc with
  | nil =>
    rw [List.nil_append,← walk_eq,walk_nil]
    rfl
  | cons name xs ih =>
    simp only [List.cons_append,walkWith]
    split
    · rfl
    · split
      · exact ih _
      · split
        · exact ih _
        · split
          · rfl
          · split
            · rfl
            · rw [← List.append_assoc]
              exact follows _ _
          · exact ih _

theorem walk_append (fs : FileSystem) (n : Nat) (loc : Location) (xs ys : List Bytes) :
    walk fs n loc (xs ++ ys) = (walk fs n loc xs).bind fun (l,left) => walk fs left l ys := by
  rw [walk_eq]
  -- on the number of links: the walk behind a link has one less
  induction n generalizing loc xs with
  | zero => exact walkWith_append 0 ys (fun _ _ => rfl) loc xs
  | succ n ih =>
    refine walkWith_append (n + 1) ys (fun l xs => ?_) loc xs
    change walk fs n l (xs ++ ys) = (walk fs n l xs).bind _
    rw [walk_eq]
    exact ih l xs

theorem walk_entry (known : fs.kind (loc ++ [name]) = some kind) (physical : ∀ target, kind ≠ .link target) :
    walk fs left loc [name] = .ok (loc ++ [name],left) := by
  have valid : IsName name := isName known (by simp)
  obtain ⟨nonempty,notDot,notDotdot,_⟩ := valid
  rw [walk_eq]
  cases kind with
  | link target => exact absurd rfl (physical target)
  | _ => simp [walkWith,parent_dir known,nonempty,notDot,notDotdot,known]

theorem resolve_ne_nil (found : resolve fs path = .ok (loc,left)) : path ≠ [] := by
  rintro rfl
  simp [resolve] at found

/-- One more name behind a path that has been looked up. -/
theorem resolve_snoc (found : resolve fs path = .ok (loc,left)) (outside : slash ∉ name) :
    resolve fs (path ++ slash :: name) = walk fs left loc [name] := by
  have nonempty := resolve_ne_nil found
  have head : (path ++ slash :: name).head? = path.head? := by
    cases path with
    | nil => exact absurd rfl nonempty
    | cons b path => rfl
  rw [resolve,if_neg nonempty] at found
  rw [resolve,if_neg (by simp),head,List.splitOn_append_cons_self,List.splitOn_eq_singleton outside,walk_append,found]
  rfl

/-- A path with further names behind it. -/
def extend (path : Bytes) (rel : Location) : Bytes := path ++ rel.flatMap fun name => slash :: name

theorem extend_cons (path name : Bytes) (rel : Location) :
    extend path (name :: rel) = extend (path ++ slash :: name) rel := by
  simp [extend]

theorem extend_snoc (path : Bytes) (rel : Location) (name : Bytes) :
    extend path (rel ++ [name]) = extend path rel ++ slash :: name := by
  simp [extend]

theorem splitOn_extend (first : Bytes) (rel : Location) (outside : slash ∉ first) (names : ∀ name ∈ rel, slash ∉ name) :
    (extend first rel).splitOn slash = first :: rel := by
  induction rel generalizing first with
  | nil => simpa [extend] using List.splitOn_eq_singleton outside
  | cons name rel ih =>
    have cut : extend first (name :: rel) = first ++ slash :: extend name rel := by simp [extend]
    rw [cut,List.splitOn_append_cons_self_of_not_mem outside,
      ih name (names name List.mem_cons_self) fun name member => names name (List.mem_cons_of_mem _ member)]

/-- Where there are no links the walk goes where the names say. -/
theorem resolve_extend (found : resolve fs path = .ok (loc,left)) (rel : Location)
    (known : fs.kind (loc ++ rel) = some kind) (physical : ∀ target, kind ≠ .link target) :
    resolve fs (extend path rel) = .ok (loc ++ rel,left) := by
  induction rel using List.reverseRecOn generalizing kind with
  | nil => simpa [extend] using found
  | append_singleton rel name ih =>
    rw [← List.append_assoc] at known
    have valid : IsName name := isName known (by simp)
    rw [extend_snoc,resolve_snoc (ih (parent_dir known) (by simp)) valid.2.2.2,walk_entry known physical,
      List.append_assoc]

theorem readFile_extend (found : resolve fs path = .ok (loc,left)) (rel : Location)
    (known : fs.kind (loc ++ rel) = some (.file data)) : readFile fs (extend path rel) = .ok data := by
  rw [readFile,resolve_extend found rel known (by simp)]
  simp [bind,Except.bind,known]

end Walks

section Leaves

variable {fs : FileSystem} {loc : Location}

/-- The files and links in a directory and the directories below it, by their relative locations. -/
def leaves (fs : FileSystem) : Nat → Location → List (Location × Kind)
  | 0, _ => []
  | n + 1, loc => (fs.children loc).flatMap fun (name,kind) =>
    if kind = .dir then (leaves fs n (loc ++ [name])).map fun (rel,kind) => (name :: rel,kind)
    else [([name],kind)]

/-- So many levels are enough for everything below a location. -/
def Within (fs : FileSystem) (loc : Location) (n : Nat) : Prop :=
  ∀ rel kind, fs.kind (loc ++ rel) = some kind → rel.length < n

def FileSystem.depth (fs : FileSystem) : Nat := (fs.nodes.map fun x => x.1.length).foldr max 0

theorem within_depth (fs : FileSystem) (loc : Location) : Within fs loc (fs.depth + 1) := by
  intro rel kind known
  have longest : ∀ x ∈ fs.nodes, x.1.length ≤ fs.depth := by
    intro x member
    exact List.le_max_of_le' 0 (List.mem_map_of_mem member) (Nat.le_refl _)
  have bound := longest _ (kind_eq_some.mp known)
  simp only [List.length_append] at bound
  omega

theorem Within.child (within : Within fs loc (n + 1)) (name : Bytes) : Within fs (loc ++ [name]) n := by
  intro rel kind known
  rw [List.append_assoc] at known
  have bound := within _ _ known
  simp only [List.length_append,List.length_cons,List.length_nil] at bound
  omega

theorem ancestor_dir (known : fs.kind (loc ++ rel) = some kind) (below : rel ≠ []) : fs.kind loc = some .dir := by
  induction rel using List.reverseRecOn generalizing kind with
  | nil => exact absurd rfl below
  | append_singleton rel name ih =>
    rw [← List.append_assoc] at known
    have parent := parent_dir known
    by_cases deeper : rel = []
    · simpa [deeper] using parent
    · exact ih parent deeper

theorem mem_leaves (within : Within fs loc n) (dir : fs.kind loc = some .dir) :
    (rel,kind) ∈ leaves fs n loc ↔ fs.kind (loc ++ rel) = some kind ∧ kind ≠ .dir := by
  induction n generalizing loc rel with
  | zero => exact absurd (within [] _ (by simpa using dir)) (Nat.not_lt_zero _)
  | succ n ih =>
    rw [leaves,List.mem_flatMap]
    constructor
    · rintro ⟨⟨name,k⟩,child,member⟩
      rw [mem_children] at child
      dsimp only at member
      split at member
      · rename_i isDir
        subst isDir
        obtain ⟨⟨rest,k⟩,below,same⟩ := List.mem_map.mp member
        obtain ⟨rfl,rfl⟩ := Prod.mk.inj same
        simpa using (ih (within.child name) child).mp below
      · rename_i notDir
        obtain ⟨rfl,rfl⟩ := Prod.mk.inj (List.mem_singleton.mp member)
        exact ⟨child,notDir⟩
    · rintro ⟨known,notDir⟩
      cases rel with
      | nil =>
        rw [List.append_nil,dir] at known
        exact absurd (Option.some.inj known).symm notDir
      | cons name rest =>
        have split : loc ++ name :: rest = (loc ++ [name]) ++ rest := by simp
        rw [split] at known
        by_cases last : rest = []
        · subst last
          rw [List.append_nil] at known
          exact ⟨(name,kind),mem_children.mpr known,by simp [notDir]⟩
        · have inner := ancestor_dir known last
          refine ⟨(name,.dir),mem_children.mpr inner,?_⟩
          simp only [if_true]
          exact List.mem_map.mpr ⟨(rest,kind),(ih (within.child name) inner).mpr ⟨known,notDir⟩,rfl⟩

theorem leaves_nodup (fs : FileSystem) (n : Nat) (loc : Location) : ((leaves fs n loc).map Prod.fst).Nodup := by
  induction n generalizing loc with
  | zero => exact List.nodup_nil
  | succ n ih =>
    have head : ∀ x : Bytes × Kind, ∀ rel ∈ (if x.2 = .dir then (leaves fs n (loc ++ [x.1])).map fun (rel,kind) =>
      (x.1 :: rel,kind)
        else [([x.1],x.2)]).map Prod.fst, rel.head? = some x.1 := by
      intro x rel member
      split at member
      · rw [List.map_map] at member
        obtain ⟨y,_,rfl⟩ := List.mem_map.mp member
        rfl
      · simp only [List.map_cons,List.map_nil,List.mem_singleton] at member
        rw [member]
        rfl
    rw [leaves,List.map_flatMap]
    refine List.nodup_flatMap.mpr ⟨?_,?_⟩
    · rintro ⟨name,kind⟩ _
      dsimp only
      split
      · have below := (ih (loc ++ [name])).map (List.cons_injective (a := name))
        simpa [Function.comp_def] using below
      · simp
    · refine (List.pairwise_map.mp (children_nodup fs loc)).imp ?_
      intro x y differ rel first second
      have same := (head x rel first).symm.trans (head y rel second)
      exact differ (Option.some.inj same)

/-- What is below a location decides what is found there. -/
theorem leaves_congr {fs' : FileSystem} {loc' : Location} (same : ∀ rel, fs.kind (loc ++ rel) = fs'.kind (loc' ++ rel))
    (within : Within fs loc n) (within' : Within fs' loc' m) (dir : fs.kind loc = some .dir) :
    leaves fs n loc = leaves fs' m loc' := by
  induction n generalizing m loc loc' with
  | zero => exact absurd (within [] _ (by simpa using dir)) (Nat.not_lt_zero _)
  | succ n ih =>
    cases m with
    | zero =>
      have there := (same []).symm.trans (by simpa using dir)
      exact absurd (within' [] _ there) (Nat.not_lt_zero _)
    | succ m =>
      rw [leaves,leaves,children_congr fun name => same [name]]
      refine List.flatMap_congr fun x child => ?_
      obtain ⟨name,kind⟩ := x
      rw [mem_children,← same] at child
      dsimp only
      split
      · rename_i isDir
        subst isDir
        rw [ih (fun rel => by simpa using same (name :: rel)) (within.child name) (within'.child name) child]
      · rfl

end Leaves

end TradingPlatform.FileTree

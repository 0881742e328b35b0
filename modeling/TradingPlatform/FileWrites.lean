import TradingPlatform.Paths

/-! Files that are written and removed. A write goes through every link of its path and may put a
new file where the last one points; a removal takes away the entry that the path names. -/
namespace TradingPlatform.FileTree

open Text Paths

/-- Existing files, and new names in directories. -/
def FileSystem.writable (fs : FileSystem) (loc : Location) : Bool :=
  match fs.kind loc with
  | some (.file _) => true
  | some _ => false
  | none => decide (loc ≠ [] ∧ fs.kind loc.dropLast = some .dir ∧ ∀ name ∈ loc, IsName name)

section Writing

variable {fs : FileSystem} {loc : Location}

theorem writable_cases (ok : fs.writable loc = true) :
    loc ≠ [] ∧ fs.kind loc.dropLast = some .dir ∧ (∀ name ∈ loc, IsName name) ∧
    (fs.kind loc = none ∨ ∃ data, fs.kind loc = some (.file data)) := by
  unfold FileSystem.writable at ok
  split at ok
  · rename_i data known
    have top : loc ≠ [] := by
      rintro rfl
      cases (kind_eq_some.mpr fs.root).symm.trans known
    have parent := (fs.parents _ (kind_eq_some.mp known)).resolve_left top
    exact ⟨top,kind_eq_some.mpr parent,fun name member => isName known member,.inr ⟨data,known⟩⟩
  · cases ok
  · rename_i absent
    obtain ⟨top,parent,names⟩ := of_decide_eq_true ok
    exact ⟨top,parent,names,.inl absent⟩

theorem writable_absent (absent : fs.kind (loc ++ [name]) = none) (home : fs.kind loc = some .dir)
    (ordinary : IsName name) :
    fs.writable (loc ++ [name]) = true := by
  rw [FileSystem.writable,absent]
  refine decide_eq_true ⟨by simp,by rwa [List.dropLast_concat],fun part member => ?_⟩
  rcases List.mem_append.mp member with above | last
  · exact isName home above
  · rw [List.mem_singleton.mp last]
    exact ordinary

theorem writable_not_dir (ok : fs.writable loc = true) : fs.kind loc ≠ some .dir := by
  obtain ⟨_,_,_,absent | ⟨data,known⟩⟩ := writable_cases ok
  · simp [absent]
  · simp [known]

/-- The file system with this file in it. -/
def FileSystem.put (fs : FileSystem) (loc : Location) (data : Bytes) (ok : fs.writable loc = true) : FileSystem where
  nodes := fs.nodes.filter (fun x => x.1 ≠ loc) ++ [(loc,.file data)]
  cwd := fs.cwd
  maxLinks := fs.maxLinks
  distinct := by
    rw [List.map_append,List.nodup_append]
    refine ⟨(List.filter_sublist.map Prod.fst).nodup fs.distinct,List.nodup_singleton _,?_⟩
    rintro l old l' new rfl
    obtain ⟨x,member,rfl⟩ := List.mem_map.mp old
    have apart := of_decide_eq_true (List.mem_filter.mp member).2
    exact apart (List.mem_singleton.mp new)
  root := by
    have top := (writable_cases ok).1
    exact List.mem_append_left _ (List.mem_filter.mpr ⟨fs.root,decide_eq_true top.symm⟩)
  parents := by
    have notDir := writable_not_dir ok
    have kept {l : Location} (known : fs.kind l = some .dir) : (l,Kind.dir) ∈ fs.nodes.filter (fun x => x.1 ≠ loc) := by
      refine List.mem_filter.mpr ⟨kind_eq_some.mp known,decide_eq_true ?_⟩
      rintro rfl
      exact notDir known
    intro x member
    rcases List.mem_append.mp member with old | new
    · rcases fs.parents x (List.mem_filter.mp old).1 with top | parent
      · exact .inl top
      · exact .inr (List.mem_append_left _ (kept (kind_eq_some.mpr parent)))
    · rw [List.mem_singleton.mp new]
      exact .inr (List.mem_append_left _ (kept (writable_cases ok).2.1))
  names := by
    intro x member
    rcases List.mem_append.mp member with old | new
    · exact fs.names x (List.mem_filter.mp old).1
    · rw [List.mem_singleton.mp new]
      exact (writable_cases ok).2.2.1

theorem kind_put (ok : fs.writable loc = true) (data : Bytes) (l : Location) :
    (fs.put loc data ok).kind l = if l = loc then some (.file data) else fs.kind l := by
  by_cases own : l = loc
  · subst own
    rw [if_pos rfl,kind_eq_some]
    exact List.mem_append_right _ List.mem_cons_self
  · rw [if_neg own]
    apply Option.ext
    intro kind
    rw [kind_eq_some,kind_eq_some]
    simp [FileSystem.put,own]

/-- What can be removed: a file, a link, or an empty directory, but not the root. -/
def FileSystem.removable (fs : FileSystem) (loc : Location) : Bool := decide (loc ≠ [] ∧ fs.entries loc = [])

def FileSystem.drop (fs : FileSystem) (loc : Location) (ok : fs.removable loc = true) : FileSystem where
  nodes := fs.nodes.filter (fun x => x.1 ≠ loc)
  cwd := fs.cwd
  maxLinks := fs.maxLinks
  distinct := (List.filter_sublist.map Prod.fst).nodup fs.distinct
  root := List.mem_filter.mpr ⟨fs.root,decide_eq_true (of_decide_eq_true ok).1.symm⟩
  parents := by
    intro x member
    obtain ⟨known,_⟩ := List.mem_filter.mp member
    rcases fs.parents x known with top | parent
    · exact .inl top
    · refine .inr (List.mem_filter.mpr ⟨parent,decide_eq_true ?_⟩)
      -- its parent has an entry, so it was not what is removed
      intro removed
      have below : x.1 ≠ [] := by
        intro top
        have same : loc = [] := by rw [← removed,top]; rfl
        exact (of_decide_eq_true ok).1 same
      obtain ⟨front,last,shape⟩ := (List.eq_nil_or_concat' x.1).resolve_left below
      have entry : (last,x.2) ∈ fs.entries loc := by
        rw [mem_entries,← removed,shape,List.dropLast_concat,← shape]
        exact kind_eq_some.mpr known
      rw [(of_decide_eq_true ok).2] at entry
      cases entry
  names := fun x member => fs.names x (List.mem_filter.mp member).1

theorem kind_drop (ok : fs.removable loc = true) (l : Location) :
    (fs.drop loc ok).kind l = if l = loc then none else fs.kind l := by
  apply Option.ext
  intro kind
  by_cases own : l = loc
  · subst own
    rw [if_pos rfl,kind_eq_some]
    simp [FileSystem.drop]
  · rw [if_neg own,kind_eq_some,kind_eq_some]
    simp [FileSystem.drop,own]

/-- Whatever is no directory has no entries. -/
theorem removable_of (top : loc ≠ []) (notDir : fs.kind loc ≠ some .dir) : fs.removable loc = true := by
  refine decide_eq_true ⟨top,List.eq_nil_iff_forall_not_mem.mpr ?_⟩
  rintro ⟨name,kind⟩ entry
  exact notDir (parent_dir (mem_entries.mp entry))

end Writing

/-- Where the next name leads. -/
inductive Turn where
  | fail (err : Errno)
  | missing
  | go (loc : Location)
  | jump (loc : Location) (names : List Bytes)
  deriving DecidableEq, Repr

def turn (fs : FileSystem) (loc : Location) (name : Bytes) : Turn :=
  if fs.kind loc ≠ some .dir then .fail .notDirectory
  else if name = [] ∨ name = dot then .go loc
  else if name = dotdot then .go loc.dropLast
  else match fs.kind (loc ++ [name]) with
    | none => .missing
    | some (.link target) =>
      if target = [] then .fail .notExist else .jump (if target.head? = some slash then [] else loc)
        (target.splitOn slash)
    | some _ => .go (loc ++ [name])

/-- A walk for a write: the last name may be missing. -/
def reachWith (fs : FileSystem) (follow : Location → List Bytes → Except Errno Location) :
    Location → List Bytes → Except Errno Location
  | loc, [] => .ok loc
  | loc, name :: rest =>
    match turn fs loc name with
    | .fail err => .error err
    | .missing => if rest = [] then .ok (loc ++ [name]) else .error .notExist
    | .go l => reachWith fs follow l rest
    | .jump l names => follow l (names ++ rest)

def reach (fs : FileSystem) : Nat → Location → List Bytes → Except Errno Location
  | 0 => reachWith fs fun _ _ => .error .tooManyLinks
  | n + 1 => reachWith fs (reach fs n)

/-- Where a path starts. -/
def origin (fs : FileSystem) (path : Bytes) : Location := if path.head? = some slash then [] else fs.cwd

/-- Where a write to a path goes. -/
def locate (fs : FileSystem) (path : Bytes) : Except Errno Location :=
  if path = [] then .error .notExist else reach fs fs.maxLinks (origin fs path) (path.splitOn slash)

/-- `os.WriteFile`. -/
def writeFile (fs : FileSystem) (path data : Bytes) : Except Errno FileSystem :=
  (locate fs path).bind fun loc => if ok : fs.writable loc = true then .ok (fs.put loc data ok) else .error .isDirectory

/-- The entry that a path names, which may be a link. -/
def entryAt (fs : FileSystem) (path : Bytes) : Except Errno Location :=
  (walk fs fs.maxLinks (origin fs path) (path.splitOn slash).dropLast).map fun (loc,_) =>
    loc ++ [(path.splitOn slash).getLastD []]

/-- `os.Remove`, without its error. -/
def remove (fs : FileSystem) (path : Bytes) : FileSystem :=
  match entryAt fs path with
  | .ok loc => if ok : fs.removable loc = true then fs.drop loc ok else fs
  | .error _ => fs

section Reaching

variable {fs fs' : FileSystem} {loc : Location} {left : Nat}

theorem walkWith_cons (f : Location → List Bytes → Except Errno (Location × Nat)) (name : Bytes) (rest : List Bytes) :
    walkWith fs f left loc (name :: rest) =
      match turn fs loc name with
      | .fail err => .error err
      | .missing => .error .notExist
      | .go l => walkWith fs f left l rest
      | .jump l names => f l (names ++ rest) := by
  rw [walkWith,turn]
  split
  · rfl
  · split
    · rfl
    · split
      · rfl
      · cases fs.kind (loc ++ [name]) with
        | none => rfl
        | some kind =>
          cases kind with
          | link target =>
            simp only
            split <;> rfl
          | _ => rfl

def followReach (fs : FileSystem) : Nat → Location → List Bytes → Except Errno Location
  | 0 => fun _ _ => .error .tooManyLinks
  | n + 1 => reach fs n

theorem reach_eq (fs : FileSystem) (n : Nat) : reach fs n = reachWith fs (followReach fs n) := by
  cases n <;> rfl

/-- Up to its last names a walk for a write is a walk. -/
theorem reachWith_append (n : Nat) (more : ys ≠ [])
    (follows : ∀ l xs, followReach fs n l (xs ++ ys) = (follow fs n l xs).bind fun (l,left) => reach fs left l ys)
    (loc : Location) (xs : List Bytes) :
    reachWith fs (followReach fs n) loc (xs ++ ys) =
      (walkWith fs (follow fs n) n loc xs).bind fun (l,left) => reach fs left l ys := by
  induction xs generalizing loc with
  | nil =>
    rw [List.nil_append,← reach_eq]
    rfl
  | cons name xs ih =>
    rw [List.cons_append,reachWith,walkWith_cons]
    cases turn fs loc name with
    | fail err => rfl
    | missing =>
      simp only [List.append_eq_nil_iff,more,and_false,if_false]
      rfl
    | go l => exact ih l
    | jump l names =>
      simp only [← List.append_assoc]
      exact follows l (names ++ xs)

theorem reach_append (fs : FileSystem) (n : Nat) (loc : Location) (xs : List Bytes) (more : ys ≠ []) :
    reach fs n loc (xs ++ ys) = (walk fs n loc xs).bind fun (l,left) => reach fs left l ys := by
  rw [reach_eq,walk_eq]
  induction n generalizing loc xs with
  | zero => exact reachWith_append 0 more (fun _ _ => rfl) loc xs
  | succ n ih =>
    refine reachWith_append (n + 1) more (fun l xs => ?_) loc xs
    change reach fs n l (xs ++ ys) = (walk fs n l xs).bind _
    rw [reach_eq,walk_eq]
    exact ih l xs

/-- Everything is still there, up to the contents of files. -/
def Extends (fs fs' : FileSystem) : Prop :=
  ∀ l kind, fs.kind l = some kind → fs'.kind l = some kind ∨
    (∃ data, kind = .file data) ∧ ∃ data, fs'.kind l = some (.file data)

theorem put_extends (ok : fs.writable loc = true) (data : Bytes) : Extends fs (fs.put loc data ok) := by
  intro l kind known
  rw [kind_put]
  by_cases own : l = loc
  · subst own
    obtain ⟨_,_,_,absent | ⟨old,file⟩⟩ := writable_cases ok
    · cases absent.symm.trans known
    · exact .inr ⟨⟨old,Option.some.inj (known.symm.trans file)⟩,data,if_pos rfl⟩
  · rw [if_neg own]
    exact .inl known

theorem Extends.same (larger : Extends fs fs') (known : fs.kind loc = some kind) (other : ∀ data, kind ≠ .file data) :
    fs'.kind loc = some kind := by
  rcases larger loc kind known with same | ⟨⟨data,file⟩,_⟩
  · exact same
  · exact absurd file (other data)

/-- Turns that lead somewhere still lead there, and a name that was missing may have become a file. -/
theorem turn_extends (larger : Extends fs fs') (name : Bytes) :
    (∃ err, turn fs loc name = .fail err) ∨ turn fs loc name ≠ .missing ∧ turn fs' loc name = turn fs loc name ∨
      turn fs loc name = .missing ∧ ∀ data, fs'.kind (loc ++ [name]) = some (.file data) →
        turn fs' loc name = .go (loc ++ [name]) := by
  by_cases dir : fs.kind loc = some .dir
  · have dir' := larger.same dir (by simp)
    rw [turn,turn]
    simp only [dir,dir',ne_eq,not_true_eq_false,if_false]
    split
    · exact .inr (.inl ⟨by simp,rfl⟩)
    · split
      · exact .inr (.inl ⟨by simp,rfl⟩)
      · cases known : fs.kind (loc ++ [name]) with
        | none =>
          refine .inr (.inr ⟨rfl,fun data file => ?_⟩)
          rw [file]
        | some kind =>
          rcases larger _ _ known with same | ⟨⟨data,rfl⟩,data',file⟩
          · rw [same]
            refine .inr (.inl ⟨?_,rfl⟩)
            cases kind with
            | link target =>
              simp only
              split <;> simp
            | _ => simp
          · rw [file]
            exact .inr (.inl ⟨by simp,rfl⟩)
  · exact .inl ⟨.notDirectory,by rw [turn,if_pos dir]⟩

theorem walkWith_extends (larger : Extends fs fs') {f f' : Location → List Bytes → Except Errno (Location × Nat)}
    (follows : ∀ l xs, f l xs = .ok r → f' l xs = .ok r) (result : walkWith fs f left loc names = .ok r) :
    walkWith fs' f' left loc names = .ok r := by
  induction names generalizing loc with
  | nil => exact result
  | cons name names ih =>
    rw [walkWith_cons] at result ⊢
    rcases turn_extends larger name with ⟨err,failed⟩ | ⟨_,same⟩ | ⟨missing,_⟩
    · rw [failed] at result
      cases result
    · rw [same]
      cases next : turn fs loc name with
      | fail err | missing =>
        rw [next] at result
        cases result
      | go l =>
        rw [next] at result
        exact ih result
      | jump l more =>
        rw [next] at result
        exact follows _ _ result
    · rw [missing] at result
      cases result

theorem walk_extends (larger : Extends fs fs') (result : walk fs n loc names = .ok r) : walk fs' n loc names = .ok r := by
  induction n generalizing loc names with
  | zero => exact walkWith_extends larger (fun _ _ failed => by cases failed) result
  | succ n ih => exact walkWith_extends larger (fun _ _ followed => ih followed) result

/-- Once the file is there, a walk finds it where a write would have gone. -/
theorem reachWith_extends (larger : Extends fs fs') (file : fs'.kind target = some (.file data))
    {f : Location → List Bytes → Except Errno Location} {f' : Location → List Bytes → Except Errno (Location × Nat)}
    (follows : ∀ l xs, f l xs = .ok target → ∃ n, f' l xs = .ok (target,n))
    (result : reachWith fs f loc names = .ok target) :
    ∃ n, walkWith fs' f' left loc names = .ok (target,n) := by
  induction names generalizing loc with
  | nil =>
    obtain rfl := Except.ok.inj result
    exact ⟨left,rfl⟩
  | cons name names ih =>
    rw [reachWith] at result
    rw [walkWith_cons]
    rcases turn_extends larger name with ⟨err,failed⟩ | ⟨present,same⟩ | ⟨missing,made⟩
    · rw [failed] at result
      cases result
    · rw [same]
      cases next : turn fs loc name with
      | fail err =>
        rw [next] at result
        cases result
      | missing => exact absurd next present
      | go l =>
        rw [next] at result
        exact ih result
      | jump l more =>
        rw [next] at result
        exact follows _ _ result
    · rw [missing] at result
      simp only at result
      split at result
      · rename_i last
        obtain rfl := Except.ok.inj result
        rw [made data file,last]
        exact ⟨left,rfl⟩
      · cases result

theorem reach_extends (larger : Extends fs fs') (file : fs'.kind target = some (.file data))
    (result : reach fs n loc names = .ok target) :
    ∃ m, walk fs' n loc names = .ok (target,m) := by
  induction n generalizing loc names with
  | zero => exact reachWith_extends larger file (fun _ _ failed => by cases failed) result
  | succ n ih => exact reachWith_extends larger file (fun _ _ followed => ih followed) result

theorem resolve_eq (fs : FileSystem) (some' : path ≠ []) :
    resolve fs path = walk fs fs.maxLinks (origin fs path) (path.splitOn slash) := if_neg some'

theorem resolve_extends (larger : Extends fs fs') (cwd : fs'.cwd = fs.cwd) (links : fs'.maxLinks = fs.maxLinks)
    (found : resolve fs path = .ok (loc,left)) : resolve fs' path = .ok (loc,left) := by
  have some' := resolve_ne_nil found
  rw [resolve_eq _ some',origin] at found ⊢
  rw [cwd,links]
  exact walk_extends larger found

theorem writeFile_ok (result : writeFile fs path data = .ok fs') :
    ∃ loc ok, locate fs path = .ok loc ∧ fs' = fs.put loc data ok := by
  cases found : locate fs path with
  | error err =>
    rw [writeFile,found] at result
    cases result
  | ok loc =>
    simp only [writeFile,found,Except.bind] at result
    split at result
    · rename_i ok
      exact ⟨loc,ok,rfl,(Except.ok.inj result).symm⟩
    · cases result

theorem walkWith_congr (same : ∀ l, fs'.kind l = fs.kind l) (f : Location → List Bytes → Except Errno (Location × Nat)) :
    walkWith fs' f left loc names = walkWith fs f left loc names := by
  have turns (l : Location) (name : Bytes) : turn fs' l name = turn fs l name := by simp only [turn,same]
  induction names generalizing loc with
  | nil => rfl
  | cons name names ih =>
    rw [walkWith_cons,walkWith_cons,turns]
    cases turn fs loc name with
    | go l => exact ih
    | _ => rfl

theorem walk_congr (same : ∀ l, fs'.kind l = fs.kind l) (n : Nat) : walk fs' n = walk fs n := by
  induction n with
  | zero => exact funext fun _ => funext fun _ => walkWith_congr same _
  | succ n ih =>
    rw [walk,walk,ih]
    exact funext fun _ => funext fun _ => walkWith_congr same _

theorem turn_without (gone : ∀ l, fs'.kind l = if l = hole then none else fs.kind l) (here : loc ≠ hole)
    (physical : ∀ aim, fs.kind hole ≠ some (.link aim)) (name : Bytes) :
    turn fs loc name = .go hole ∨ turn fs' loc name = turn fs loc name := by
  have same : fs'.kind loc = fs.kind loc := by rw [gone,if_neg here]
  rw [turn,turn,same]
  split
  · exact .inr rfl
  · split
    · exact .inr rfl
    · split
      · exact .inr rfl
      · rw [gone]
        by_cases own : loc ++ [name] = hole
        · rw [if_pos own,own]
          cases known : fs.kind hole with
          | none => exact .inr rfl
          | some kind =>
            cases kind with
            | link aim => exact absurd known (physical aim)
            | _ => exact .inl rfl
        · rw [if_neg own]
          exact .inr rfl

/-- A walk to a directory does not need a file. -/
theorem walkWith_without (gone : ∀ l, fs'.kind l = if l = hole then none else fs.kind l)
    (notDir : fs.kind hole ≠ some .dir)
    (physical : ∀ aim, fs.kind hole ≠ some (.link aim)) {f f' : Location → List Bytes → Except Errno (Location × Nat)}
    (follows : ∀ l xs, f l xs = .ok (target,m) → f' l xs = .ok (target,m)) (dir : fs.kind target = some .dir)
    (result : walkWith fs f left loc names = .ok (target,m)) : walkWith fs' f' left loc names = .ok (target,m) := by
  induction names generalizing loc with
  | nil => exact result
  | cons name names ih =>
    rw [walkWith_cons] at result ⊢
    by_cases home : fs.kind loc = some .dir
    · have here : loc ≠ hole := by
        rintro rfl
        exact notDir home
      rcases turn_without gone here physical name with passing | turns
      · -- nothing lies behind a file, and the walk did not end there
        rw [passing] at result
        cases names with
        | nil =>
          obtain ⟨rfl,_⟩ := Prod.mk.inj (Except.ok.inj result)
          exact absurd dir notDir
        | cons next rest =>
          have failed : turn fs hole next = .fail .notDirectory := if_pos notDir
          have onward : walkWith fs f left hole (next :: rest) = .ok (target,m) := result
          rw [walkWith_cons,failed] at onward
          cases onward
      · rw [turns]
        cases next : turn fs loc name with
        | fail err | missing =>
          rw [next] at result
          cases result
        | go l =>
          rw [next] at result
          exact ih result
        | jump l more =>
          rw [next] at result
          exact follows _ _ result
    · have failed : turn fs loc name = .fail .notDirectory := if_pos home
      rw [failed] at result
      cases result

theorem resolve_without (gone : ∀ l, fs'.kind l = if l = hole then none else fs.kind l)
    (notDir : fs.kind hole ≠ some .dir)
    (physical : ∀ aim, fs.kind hole ≠ some (.link aim)) (cwd : fs'.cwd = fs.cwd) (links : fs'.maxLinks = fs.maxLinks)
    (dir : fs.kind loc = some .dir) (found : resolve fs path = .ok (loc,left)) : resolve fs' path = .ok (loc,left) := by
  have some' := resolve_ne_nil found
  rw [resolve_eq _ some',origin] at found ⊢
  rw [cwd,links]
  have walks (n : Nat) {l : Location} {names : List Bytes} (result : walk fs n l names = .ok (loc,left)) :
      walk fs' n l names = .ok (loc,left) := by
    induction n generalizing l names with
    | zero => exact walkWith_without gone notDir physical (fun _ _ failed => by cases failed) dir result
    | succ n ih => exact walkWith_without gone notDir physical (fun _ _ followed => ih followed) dir result
  exact walks _ found

/-- What is read depends on what there is. -/
theorem readFile_congr (same : ∀ l, fs'.kind l = fs.kind l) (cwd : fs'.cwd = fs.cwd) (links : fs'.maxLinks = fs.maxLinks)
    (path : Bytes) : readFile fs' path = readFile fs path := by
  have resolved : resolve fs' path = resolve fs path := by rw [resolve,resolve,walk_congr same,cwd,links]
  simp only [readFile,resolved,same]

/-- What was written is read back, through whatever links. -/
theorem readFile_written (result : writeFile fs path data = .ok fs') : readFile fs' path = .ok data := by
  obtain ⟨loc,ok,found,rfl⟩ := writeFile_ok result
  have file : (fs.put loc data ok).kind loc = some (.file data) := by rw [kind_put,if_pos rfl]
  rw [locate] at found
  split at found
  · cases found
  · rename_i some'
    obtain ⟨m,walked⟩ := reach_extends (put_extends ok data) file found
    have resolved : resolve (fs.put loc data ok) path = .ok (loc,m) := (resolve_eq _ some').trans walked
    simp [readFile,resolved,bind,Except.bind,file]

/-- Empty names and dots lead nowhere. -/
theorem walk_stay (dir : fs.kind loc = some .dir) (still : name = [] ∨ name = dot) (rest : List Bytes) :
    walk fs left loc (name :: rest) = walk fs left loc rest := by
  rw [walk_eq,walkWith_cons,turn]
  simp [dir,still]

/-- The path of an entry, as `Join` makes it from the clean path of a directory. -/
theorem join_walk (found : resolve fs dir = .ok (loc,left)) (tidy : clean dir = dir) (ordinary : IsName name) :
    ∃ front, (join [dir,name]).splitOn slash = front ++ [name] ∧ join [dir,name] ≠ [] ∧
      walk fs fs.maxLinks (origin fs (join [dir,name])) front = .ok (loc,left) := by
  have some' := resolve_ne_nil found
  have outside := ordinary.2.2.2
  have relative : origin fs name = fs.cwd := if_neg fun first => outside (List.mem_of_head? first)
  have root : fs.kind [] = some .dir := kind_eq_some.mpr fs.root
  rw [resolve_eq _ some'] at found
  have path : join [dir,name] = inside dir ++ name := by
    rw [join_child dir ordinary,if_neg some',tidy]
  rw [path,inside]
  split
  · rename_i here
    subst here
    refine ⟨[],List.splitOn_eq_singleton outside,ordinary.1,?_⟩
    have home : fs.kind fs.cwd = some .dir := by
      by_contra other
      have failed : walk fs fs.maxLinks fs.cwd [dot] = .error .notDirectory := by
        rw [walk_eq,walkWith_cons,turn,if_pos other]
      cases failed.symm.trans found
    rw [List.nil_append,relative,walk_nil,← found]
    exact ((walk_stay home (.inr rfl) []).trans (walk_nil _ _ _)).symm
  · split
    · rename_i top
      subst top
      have cut : ([slash] ++ name).splitOn slash = [[]] ++ [name] := by
        rw [show [slash] ++ name = [] ++ slash :: name from rfl,List.splitOn_append_cons_self,
          List.splitOn_eq_singleton outside]
        rfl
      refine ⟨[[]],cut,by simp,?_⟩
      have one : walk fs fs.maxLinks [] [[]] = .ok ([],fs.maxLinks) :=
        (walk_stay root (.inl rfl) []).trans (walk_nil _ _ _)
      have two : walk fs fs.maxLinks [] [[],[]] = .ok ([],fs.maxLinks) := (walk_stay root (.inl rfl) [[]]).trans one
      exact one.trans (two.symm.trans found)
    · have shape : dir ++ [slash] ++ name = dir ++ slash :: name := by simp
      have start : origin fs (dir ++ slash :: name) = origin fs dir := by
        rw [origin,List.head?_append_of_ne_nil _ some',origin]
      rw [shape,List.splitOn_append_cons_self,List.splitOn_eq_singleton outside,start]
      exact ⟨_,rfl,by simp,found⟩

theorem resolve_join (found : resolve fs dir = .ok (loc,left)) (tidy : clean dir = dir) (ordinary : IsName name) :
    resolve fs (join [dir,name]) = walk fs left loc [name] := by
  obtain ⟨front,cut,some',walked⟩ := join_walk found tidy ordinary
  rw [resolve_eq _ some',cut,walk_append,walked]
  rfl

theorem locate_join (found : resolve fs dir = .ok (loc,left)) (tidy : clean dir = dir) (ordinary : IsName name) :
    locate fs (join [dir,name]) = reach fs left loc [name] := by
  obtain ⟨front,cut,some',walked⟩ := join_walk found tidy ordinary
  rw [locate,if_neg some',cut,reach_append _ _ _ _ (by simp),walked]
  rfl

theorem entryAt_join (found : resolve fs dir = .ok (loc,left)) (tidy : clean dir = dir) (ordinary : IsName name) :
    entryAt fs (join [dir,name]) = .ok (loc ++ [name]) := by
  obtain ⟨front,cut,_,walked⟩ := join_walk found tidy ordinary
  rw [entryAt,cut,List.dropLast_concat,walked]
  simp [Except.map]

/-- Both ways to write the path of an entry. -/
theorem readFile_join (found : resolve fs dir = .ok (loc,left)) (tidy : clean dir = dir) (ordinary : IsName name) :
    readFile fs (dir ++ slash :: name) = readFile fs (join [dir,name]) := by
  rw [readFile,readFile,resolve_snoc found ordinary.2.2.2,resolve_join found tidy ordinary]

/-- A write through no link stays where its path says. -/
theorem locate_entry (found : resolve fs dir = .ok (loc,left)) (tidy : clean dir = dir) (ordinary : IsName name)
    (home : fs.kind loc = some .dir) (physical : ∀ target, fs.kind (loc ++ [name]) ≠ some (.link target)) :
    locate fs (join [dir,name]) = .ok (loc ++ [name]) := by
  have ⟨held,single,up,_⟩ := ordinary
  have next : turn fs loc name = .missing ∨ turn fs loc name = .go (loc ++ [name]) := by
    rw [turn,if_neg (by simp [home]),if_neg (by simp [held,single]),if_neg up]
    cases known : fs.kind (loc ++ [name]) with
    | none => exact .inl rfl
    | some kind =>
      cases kind with
      | link target => exact absurd known (physical target)
      | _ => exact .inr rfl
  rw [locate_join found tidy ordinary,reach_eq,reachWith]
  rcases next with missing | go
  · rw [missing]
    rfl
  · rw [go]
    rfl

theorem located_home (found : resolve fs dir = .ok (loc,left)) (tidy : clean dir = dir) (ordinary : IsName name)
    (located : locate fs (join [dir,name]) = .ok target) : fs.kind loc = some .dir := by
  by_contra other
  rw [locate_join found tidy ordinary,reach_eq,reachWith,turn,if_pos other] at located
  cases located

/-- The entry through which a file was written is there afterwards, and is no directory. -/
theorem written_entry (found : resolve fs dir = .ok (loc,left)) (tidy : clean dir = dir) (ordinary : IsName name)
    (located : locate fs (join [dir,name]) = .ok target) (ok : fs.writable target = true) (data : Bytes) :
    ∃ kind, (fs.put target data ok).kind (loc ++ [name]) = some kind ∧ kind ≠ .dir := by
  have home := located_home found tidy ordinary located
  by_cases linked : ∃ aim, fs.kind (loc ++ [name]) = some (.link aim)
  · obtain ⟨aim,link⟩ := linked
    refine ⟨.link aim,?_,by simp⟩
    rw [kind_put]
    split
    · rename_i own
      obtain ⟨_,_,_,absent | ⟨old,file⟩⟩ := writable_cases ok
      · rw [own,absent] at link
        cases link
      · rw [own,file] at link
        cases link
    · exact link
  · have same := (locate_entry found tidy ordinary home fun aim link => linked ⟨aim,link⟩).symm.trans located
    refine ⟨.file data,?_,by simp⟩
    rw [kind_put,if_pos (Except.ok.inj same)]

/-- The removal takes that entry away, and leaves what it may have pointed to. -/
theorem remove_written (found : resolve fs dir = .ok (loc,left)) (tidy : clean dir = dir) (ordinary : IsName name)
    (located : locate fs (join [dir,name]) = .ok target) (ok : fs.writable target = true) (data : Bytes) :
    ∃ removable, remove (fs.put target data ok) (join [dir,name]) =
      (fs.put target data ok).drop (loc ++ [name]) removable := by
  obtain ⟨kind,known,notDir⟩ := written_entry found tidy ordinary located ok data
  have found' := resolve_extends (put_extends ok data) rfl rfl found
  have removable : (fs.put target data ok).removable (loc ++ [name]) = true :=
    removable_of (by simp) fun dir => notDir (Option.some.inj (known.symm.trans dir))
  refine ⟨removable,?_⟩
  rw [remove,entryAt_join found' tidy ordinary]
  exact dif_pos removable

end Reaching

end TradingPlatform.FileTree

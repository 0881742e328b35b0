import TradingPlatform.FileTree
import Mathlib.Data.List.Forall2

/-! The build context of `pkg/sandbox/docker.go`. Directory entries are classified as what they
are themselves, and read through a path; a link is therefore no directory, but what is read is
what it points to, wherever that is. -/
namespace TradingPlatform.Docker

open Text FileTree

/-- A file in the archive under its header. -/
structure TarEntry where
  name : Bytes
  mode : Nat
  size : Nat
  data : Bytes
  deriving DecidableEq, Repr

def fileEntry (name data : Bytes) : TarEntry := ⟨name,0o644,data.length,data⟩

inductive Failure where
  | os (err : Errno)
  | exhausted
  deriving DecidableEq, Repr

/-- `addDirToTar`, on so many levels of directories. The writer is the list of what it has been
given: it refuses nothing that comes with its own length. -/
def addDirToTar (fs : FileSystem) : Nat → List TarEntry → Bytes → Bytes → Except Failure (List TarEntry)
  | 0, _, _, _ => .error .exhausted
  | n + 1, tw, srcDir, baseInTar => do
    let entries ← (readDir fs srcDir).mapError .os
    entries.foldlM (fun tw (name,kind) =>
      let srcPath := srcDir ++ slash :: name
      let tarPath := baseInTar ++ slash :: name
      if kind = .dir then addDirToTar fs n tw srcPath tarPath
      else do
        let data ← (readFile fs srcPath).mapError .os
        .ok (tw ++ [fileEntry tarPath data])) tw

/-- The archive that `BuildImage` sends. -/
def buildContext (fs : FileSystem) (srcDir : Bytes) : Except Failure (List TarEntry) :=
  addDirToTar fs (fs.depth + 1) [] srcDir dot

section Traversals

theorem foldlM_collects {f : List β → α → Except ε (List β)} {g : α → List γ} {h : γ → Except ε β} (xs : List α)
    (each : ∀ acc, ∀ x ∈ xs, f acc x = ((g x).mapM h).map (acc ++ ·)) (acc : List β) :
    xs.foldlM f acc = ((xs.flatMap g).mapM h).map (acc ++ ·) := by
  induction xs generalizing acc with
  | nil => simp [Except.map,pure,Except.pure]
  | cons x xs ih =>
    have rest := ih fun acc y member => each acc y (List.mem_cons_of_mem _ member)
    rw [List.foldlM_cons,each acc x List.mem_cons_self,List.flatMap_cons,List.mapM_append]
    cases (g x).mapM h with
    | error e => rfl
    | ok ys =>
      simp only [Except.map,bind,Except.bind]
      rw [rest]
      cases (xs.flatMap g).mapM h with
      | error e => rfl
      | ok zs => simp [Except.map,pure,Except.pure]

theorem mapM_ok_iff (f : α → Except ε β) (xs : List α) (ys : List β) :
    xs.mapM f = .ok ys ↔ List.Forall₂ (fun x y => f x = .ok y) xs ys := by
  induction xs generalizing ys with
  | nil => simp [pure,Except.pure,eq_comm]
  | cons x xs ih =>
    rw [List.mapM_cons,List.forall₂_cons_left_iff]
    cases first : f x with
    | error e => simp [bind,Except.bind]
    | ok y =>
      simp only [bind,Except.bind,← ih,Except.ok.injEq,eq_comm]
      cases xs.mapM f with
      | error e => simp
      | ok rest => simp [pure,Except.pure,eq_comm]

theorem mapM_error {f : α → Except ε β} (xs : List α) (failed : xs.mapM f = .error e) : ∃ x ∈ xs, f x = .error e := by
  induction xs with
  | nil => simp [pure,Except.pure] at failed
  | cons x xs ih =>
    rw [List.mapM_cons] at failed
    cases first : f x with
    | error e' =>
      simp only [first,bind,Except.bind,Except.error.injEq] at failed
      exact ⟨x,List.mem_cons_self,failed ▸ first⟩
    | ok y =>
      have later : xs.mapM f = .error e := by
        cases rest : xs.mapM f with
        | error e' => simpa [first,rest,bind,Except.bind] using failed
        | ok ys => simp [first,rest,bind,Except.bind,pure,Except.pure] at failed
      obtain ⟨z,member,error⟩ := ih later
      exact ⟨z,List.mem_cons_of_mem _ member,error⟩

theorem forall₂_left_mem {R : α → β → Prop} (all : List.Forall₂ R xs ys) (member : x ∈ xs) : ∃ y ∈ ys, R x y := by
  induction all with
  | nil => simp at member
  | cons first rest ih =>
    rcases List.mem_cons.mp member with rfl | member
    · exact ⟨_,List.mem_cons_self,first⟩
    · obtain ⟨y,inside,related⟩ := ih member
      exact ⟨y,List.mem_cons_of_mem _ inside,related⟩

end Traversals

section Packing

variable {fs : FileSystem} {loc : Location} {left : Nat}

/-- What becomes of a file or link. -/
def pack (fs : FileSystem) (srcDir baseInTar : Bytes) (x : Location × Kind) : Except Failure TarEntry :=
  ((readFile fs (extend srcDir x.1)).mapError .os).map (fileEntry (extend baseInTar x.1))

theorem pack_below (srcDir baseInTar name : Bytes) (rel : Location) (kind : Kind) :
    pack fs srcDir baseInTar (name :: rel,kind) =
      pack fs (srcDir ++ slash :: name) (baseInTar ++ slash :: name) (rel,kind) := by
  simp [pack,extend_cons]

theorem readDir_found (found : resolve fs path = .ok (loc,left)) (dir : fs.kind loc = some .dir) :
    readDir fs path = .ok (fs.children loc) := by
  simp [readDir,found,bind,Except.bind,dir]

/-- The recursion packs the files and links below the directory, one after the other. -/
theorem addDirToTar_eq (found : resolve fs srcDir = .ok (loc,left)) (dir : fs.kind loc = some .dir)
    (within : Within fs loc n) (tw : List TarEntry) (baseInTar : Bytes) :
    addDirToTar fs n tw srcDir baseInTar = ((leaves fs n loc).mapM (pack fs srcDir baseInTar)).map (tw ++ ·) := by
  induction n generalizing srcDir baseInTar loc tw with
  | zero => exact absurd (within [] _ (by simpa using dir)) (Nat.not_lt_zero _)
  | succ n ih =>
    rw [addDirToTar,readDir_found found dir,leaves]
    refine foldlM_collects (fs.children loc) (fun tw x child => ?_) tw
    obtain ⟨name,kind⟩ := x
    rw [mem_children] at child
    have valid : IsName name := isName child (by simp)
    dsimp only
    split
    · rename_i isDir
      subst isDir
      have inner : resolve fs (srcDir ++ slash :: name) = .ok (loc ++ [name],left) := by
        rw [resolve_snoc found valid.2.2.2,walk_entry child (by simp)]
      rw [ih inner child (within.child name),List.mapM_map]
      simp only [Function.comp_def,pack_below]
    · simp only [List.mapM_cons,List.mapM_nil,pack,extend,List.flatMap_cons,List.flatMap_nil,List.append_nil]
      cases readFile fs (srcDir ++ slash :: name) <;> rfl

end Packing

/-- The archive holds the regular files below a location, each once and under its relative path,
and nothing else. -/
structure Exact (fs : FileSystem) (loc : Location) (archive : List TarEntry) : Prop where
  once : (archive.map TarEntry.name).Nodup
  files : ∀ entry, entry ∈ archive ↔
    ∃ rel data, fs.kind (loc ++ rel) = some (.file data) ∧ entry = fileEntry (extend dot rel) data

def NoLinks (fs : FileSystem) (loc : Location) : Prop := ∀ rel target, fs.kind (loc ++ rel) ≠ some (.link target)

/-- Link targets are part of what is compared, the files behind them are not. -/
def AgreeBelow (fs : FileSystem) (loc : Location) (fs' : FileSystem) (loc' : Location) : Prop :=
  ∀ rel, fs.kind (loc ++ rel) = fs'.kind (loc' ++ rel)

section Contents

variable {fs : FileSystem} {loc : Location} {left : Nat}

theorem buildContext_eq (found : resolve fs srcDir = .ok (loc,left)) (dir : fs.kind loc = some .dir) :
    buildContext fs srcDir = (leaves fs (fs.depth + 1) loc).mapM (pack fs srcDir dot) := by
  rw [buildContext,addDirToTar_eq found dir (within_depth fs loc)]
  cases (leaves fs (fs.depth + 1) loc).mapM (pack fs srcDir dot) <;> simp [Except.map]

theorem buildContext_dir (found : resolve fs srcDir = .ok (loc,left)) (built : buildContext fs srcDir = .ok archive) :
    fs.kind loc = some .dir := by
  by_contra other
  have failed : readDir fs srcDir = .error .notDirectory := by
    simp [readDir,found,bind,Except.bind,other]
  rw [buildContext,addDirToTar,failed] at built
  cases built

/-- The recursion always ends: directories that are entered are no links. -/
theorem buildContext_ends (fs : FileSystem) (srcDir : Bytes) : buildContext fs srcDir ≠ .error .exhausted := by
  intro exhausted
  cases found : resolve fs srcDir with
  | error e => simp [buildContext,addDirToTar,readDir,found,bind,Except.bind,Except.mapError] at exhausted
  | ok target =>
    obtain ⟨loc,left⟩ := target
    by_cases dir : fs.kind loc = some .dir
    · rw [buildContext_eq found dir] at exhausted
      obtain ⟨x,_,failed⟩ := mapM_error _ exhausted
      rw [pack] at failed
      cases read : readFile fs (extend srcDir x.1) <;> simp [read,Except.mapError,Except.map] at failed
    · simp [buildContext,addDirToTar,readDir,found,dir,bind,Except.bind,Except.mapError] at exhausted

/-- Paths below one directory are told apart by their names. -/
theorem extend_dot_inj (first : fs.kind (loc ++ rel) = some kind) (second : fs.kind (loc ++ rel') = some kind')
    (same : extend dot rel = extend dot rel') : rel = rel' := by
  have cut {rel : Location} {kind : Kind} (known : fs.kind (loc ++ rel) = some kind) :
      (extend dot rel).splitOn slash = dot :: rel :=
    splitOn_extend dot rel (by decide) fun name member => (isName known (List.mem_append_right _ member)).2.2.2
  have equal := (cut first).symm.trans ((congrArg _ same).trans (cut second))
  exact (List.cons.inj equal).2

/-- The archive of a directory without links. -/
def packed (x : Location × Kind) : TarEntry :=
  match x.2 with
  | .file data => fileEntry (extend dot x.1) data
  | _ => fileEntry (extend dot x.1) []

theorem buildContext_noLinks (found : resolve fs srcDir = .ok (loc,left)) (dir : fs.kind loc = some .dir)
    (clean : NoLinks fs loc) : buildContext fs srcDir = .ok ((leaves fs (fs.depth + 1) loc).map packed) := by
  rw [buildContext_eq found dir,mapM_ok_iff,List.forall₂_map_right_iff,List.forall₂_same]
  rintro ⟨rel,kind⟩ member
  obtain ⟨known,notDir⟩ := (mem_leaves (within_depth fs loc) dir).mp member
  cases kind with
  | dir => exact absurd rfl notDir
  | link target => exact absurd known (clean rel target)
  | file data =>
    rw [pack,readFile_extend found rel known]
    rfl

theorem packed_name (x : Location × Kind) : (packed x).name = extend dot x.1 := by
  obtain ⟨rel,kind⟩ := x
  cases kind <;> rfl

theorem packed_exact (dir : fs.kind loc = some .dir) (clean : NoLinks fs loc) :
    Exact fs loc ((leaves fs (fs.depth + 1) loc).map packed) := by
  have members {rel : Location} {kind : Kind} : (rel,kind) ∈ leaves fs (fs.depth + 1) loc ↔
      fs.kind (loc ++ rel) = some kind ∧ kind ≠ .dir := mem_leaves (within_depth fs loc) dir
  constructor
  · have names : ((leaves fs (fs.depth + 1) loc).map packed).map TarEntry.name =
        ((leaves fs (fs.depth + 1) loc).map Prod.fst).map (extend dot) := by
      simp [packed_name]
    rw [names]
    refine List.Nodup.map_on ?_ (leaves_nodup fs _ loc)
    intro rel first rel' second same
    obtain ⟨⟨_,kind⟩,leaf,rfl⟩ := List.mem_map.mp first
    obtain ⟨⟨_,kind'⟩,leaf',rfl⟩ := List.mem_map.mp second
    exact extend_dot_inj (members.mp leaf).1 (members.mp leaf').1 same
  · intro entry
    rw [List.mem_map]
    constructor
    · rintro ⟨⟨rel,kind⟩,leaf,rfl⟩
      obtain ⟨known,notDir⟩ := members.mp leaf
      cases kind with
      | dir => exact absurd rfl notDir
      | link target => exact absurd known (clean rel target)
      | file data => exact ⟨rel,data,known,rfl⟩
    · rintro ⟨rel,data,known,rfl⟩
      exact ⟨(rel,.file data),members.mpr ⟨known,by simp⟩,rfl⟩

/-- A successful build packs the regular files below the source directory and nothing else, and
does so whatever is elsewhere, exactly if there are no links below it. -/
theorem buildContext_exact_iff (fs : FileSystem) (srcDir : Bytes) (loc : Location) (left : Nat) (archive : List TarEntry)
    (found : resolve fs srcDir = .ok (loc,left)) (built : buildContext fs srcDir = .ok archive) :
    (Exact fs loc archive ∧ ∀ fs' loc' left', resolve fs' srcDir = .ok (loc',left') → AgreeBelow fs loc fs' loc' →
      buildContext fs' srcDir = .ok archive) ↔ NoLinks fs loc := by
  have dir := buildContext_dir found built
  constructor
  · rintro ⟨exact,_⟩ rel target known
    rw [buildContext_eq found dir,mapM_ok_iff] at built
    have leaf : (rel,.link target) ∈ leaves fs (fs.depth + 1) loc :=
      (mem_leaves (within_depth fs loc) dir).mpr ⟨known,by simp⟩
    -- the link has its own entry, and a regular file would have to go by its name
    obtain ⟨entry,member,read⟩ := forall₂_left_mem built leaf
    obtain ⟨rel',data,file,rfl⟩ := (exact.files entry).mp member
    have name : extend dot rel' = extend dot rel := by
      rw [pack] at read
      cases content : readFile fs (extend srcDir rel) with
      | error e => simp [content,Except.mapError,Except.map] at read
      | ok text =>
        rw [content] at read
        exact (congrArg TarEntry.name (Except.ok.inj read)).symm
    obtain rfl := extend_dot_inj file known name
    rw [file] at known
    cases known
  · intro clean
    obtain rfl := Except.ok.inj ((buildContext_noLinks found dir clean).symm.trans built)
    refine ⟨packed_exact dir clean,fun fs' loc' left' found' agree => ?_⟩
    have dir' : fs'.kind loc' = some .dir := by simpa using (agree []).symm.trans (by simpa using dir)
    have clean' : NoLinks fs' loc' := fun rel target known => clean rel target ((agree rel).trans known)
    rw [buildContext_noLinks found' dir' clean',
      leaves_congr agree (within_depth fs loc) (within_depth fs' loc') dir]

end Contents

/-- A submission of two files, one of them in a directory. -/
def plain : FileSystem where
  nodes := [([],.dir),([ascii "up"],.dir),([ascii "up",ascii "src"],.dir),
    ([ascii "up",ascii "src",ascii "main"],.file [1]),
    ([ascii "up",ascii "Dockerfile"],.file [2]),([ascii "secret"],.file [3])]
  cwd := [ascii "up"]
  maxLinks := 40
  distinct := by decide
  root := by decide
  parents := by decide
  names := by decide

theorem plain_exact : buildContext plain dot =
    .ok [fileEntry (ascii "./Dockerfile") [2],fileEntry (ascii "./src/main") [1]] ∧
    Exact plain [ascii "up"] [fileEntry (ascii "./Dockerfile") [2],fileEntry (ascii "./src/main") [1]] := by
  have clean : NoLinks plain [ascii "up"] := by
    intro rel target known
    have member := kind_eq_some.mp known
    simp [plain] at member
  exact ⟨rfl,((buildContext_exact_iff plain dot [ascii "up"] 40 _ rfl rfl).mpr clean).1⟩

/-- A submission with one file and a link to a file of the host. -/
def leaky (secret : Bytes) : FileSystem where
  nodes := [([],.dir),([ascii "up"],.dir),([ascii "up",ascii "main"],.file []),
    ([ascii "up",ascii "key"],.link (ascii "/secret")),([ascii "secret"],.file secret)]
  cwd := []
  maxLinks := 40
  distinct := by
    change [[],[ascii "up"],[ascii "up",ascii "main"],[ascii "up",ascii "key"],[ascii "secret"]].Nodup
    decide
  root := by simp
  parents := by simp
  names := by
    intro x member name inside
    have valid : ∀ name ∈ [ascii "up",ascii "main",ascii "key",ascii "secret"], IsName name := by decide
    refine valid name ?_
    simp only [List.mem_cons,List.not_mem_nil,or_false] at member ⊢
    rcases member with rfl | rfl | rfl | rfl | rfl <;> simp at inside <;> tauto

/-- The file of the host is in the archive, whatever it holds. -/
theorem leaky_reveals :
    (∀ secret secret', AgreeBelow (leaky secret) [ascii "up"] (leaky secret') [ascii "up"]) ∧
    (∀ secret, resolve (leaky secret) (ascii "/up") = .ok ([ascii "up"],40)) ∧
    (∀ secret, buildContext (leaky secret) (ascii "/up") =
      .ok [fileEntry (ascii "./key") secret,fileEntry (ascii "./main") []]) := by
  refine ⟨fun secret secret' rel => ?_,fun secret => rfl,fun secret => rfl⟩
  have elsewhere : [ascii "secret"] ≠ [ascii "up"] ++ rel := fun same => absurd (List.cons.inj same).1 (by decide)
  simp only [FileSystem.kind,leaky,List.find?_cons,List.find?_nil,decide_eq_false elsewhere]

end TradingPlatform.Docker

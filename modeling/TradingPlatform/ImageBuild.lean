import TradingPlatform.BuildContext
import TradingPlatform.FileWrites

/-! `BuildSubmission` of `pkg/sandbox/builder.go`. The platform's own Dockerfile is written over
whatever a submission has under that name, through a link if it is one, and the name is removed
again when the daemon has answered. -/
namespace TradingPlatform.Docker

open Text FileTree Paths

/-- What goes wrong, by the step that fails. -/
inductive BuildError where
  | readDockerfile (err : Errno)
  | writeDockerfile (err : Errno)
  | createContext (err : Failure)
  | build (err : Bytes)
  deriving DecidableEq, Repr

/-- The call of `ImageBuild`. -/
structure Request where
  context : List TarEntry
  tags : List Bytes
  dockerfile : Bytes
  remove : Bool

/-- The daemon answers a request with an error or with output that nobody reads. -/
abbrev Daemon := Request → Option Bytes

/-- What `BuildSubmission` returns, what it has sent, and what it leaves behind. -/
structure Build where
  result : Except BuildError Bytes
  sent : Option Request
  left : FileSystem

def buildImage (fs : FileSystem) (srcDir dockerfilePath imageTag : Bytes) (daemon : Daemon) :
    Except BuildError Unit × Option Request :=
  match buildContext fs srcDir with
  | .error err => (.error (.createContext err),none)
  | .ok context =>
    let request : Request := ⟨context,[imageTag],dockerfilePath,true⟩
    match daemon request with
    | some err => (.error (.build err),some request)
    | none => (.ok (),some request)

def dockerfileName : Bytes := ascii "Dockerfile"

def builderPath : Bytes := join [ascii "build",ascii "builder-go.Dockerfile"]

def buildSubmission (fs : FileSystem) (submissionID srcDir : Bytes) (daemon : Daemon) : Build :=
  let imageTag := ascii "submission-" ++ submissionID ++ ascii ":latest"
  match readFile fs builderPath with
  | .error err => ⟨.error (.readDockerfile err),none,fs⟩
  | .ok builderDockerfile =>
    let destDockerfile := join [srcDir,dockerfileName]
    match writeFile fs destDockerfile builderDockerfile with
    | .error err => ⟨.error (.writeDockerfile err),none,fs⟩
    | .ok written =>
      let (built,sent) := buildImage written srcDir dockerfileName imageTag daemon
      ⟨built.map fun _ => imageTag,sent,remove written destDockerfile⟩

section Builds

variable {fs : FileSystem} {loc : Location} {left : Nat} {daemon : Daemon}

theorem dockerfileName_ordinary : IsName dockerfileName := by decide

theorem buildSubmission_written (read : readFile fs builderPath = .ok builderDockerfile)
    (wrote : writeFile fs (join [srcDir,dockerfileName]) builderDockerfile = .ok written) :
    (buildSubmission fs submissionID srcDir daemon).sent =
        (buildImage written srcDir dockerfileName (ascii "submission-" ++ submissionID ++ ascii ":latest") daemon).2 ∧
      (buildSubmission fs submissionID srcDir daemon).left = remove written (join [srcDir,dockerfileName]) := by
  simp only [buildSubmission,read,wrote,and_self]

/-- A build stops before it has written anything, or it has written the Dockerfile and removes it. -/
theorem buildSubmission_cases (fs : FileSystem) (submissionID srcDir : Bytes) (daemon : Daemon) :
    ((buildSubmission fs submissionID srcDir daemon).sent = none ∧
      (buildSubmission fs submissionID srcDir daemon).left = fs) ∨
      ∃ builderDockerfile written, readFile fs builderPath = .ok builderDockerfile ∧
        writeFile fs (join [srcDir,dockerfileName]) builderDockerfile = .ok written ∧
        (buildSubmission fs submissionID srcDir daemon).sent =
          (buildImage written srcDir dockerfileName (ascii "submission-" ++ submissionID ++ ascii ":latest") daemon).2 ∧
        (buildSubmission fs submissionID srcDir daemon).left = remove written (join [srcDir,dockerfileName]) := by
  cases read : readFile fs builderPath with
  | error err => exact .inl (by simp only [buildSubmission,read,and_self])
  | ok builderDockerfile =>
    cases wrote : writeFile fs (join [srcDir,dockerfileName]) builderDockerfile with
    | error err => exact .inl (by simp only [buildSubmission,read,wrote,and_self])
    | ok written => exact .inr ⟨builderDockerfile,written,rfl,wrote,buildSubmission_written read wrote⟩

theorem buildImage_sent (fs : FileSystem) (srcDir dockerfilePath imageTag : Bytes) (daemon : Daemon) :
    (buildImage fs srcDir dockerfilePath imageTag daemon).2 =
      (buildContext fs srcDir).toOption.map fun context => ⟨context,[imageTag],dockerfilePath,true⟩ := by
  rw [buildImage]
  cases buildContext fs srcDir with
  | error err => rfl
  | ok context =>
    simp only
    split <;> rfl

/-- Below the directory itself a path of the archive has a slash. -/
theorem clean_extend (names : ∀ name ∈ rel, IsName name) (some' : rel ≠ []) (same : clean (extend dot rel) = name)
    (outside : slash ∉ name) : rel = [name] := by
  obtain ⟨front,last,rfl⟩ := (List.eq_nil_or_concat' rel).resolve_left some'
  have ordinary : IsName last := names last (by simp)
  have named : extend dot front ≠ [] := by simp [extend,dot,ascii]
  rw [extend_snoc,clean_child named ordinary] at same
  rcases List.eq_nil_or_concat' front with rfl | ⟨inner,parent,rfl⟩
  · have here : inside (clean (extend dot [])) = [] := by decide
    rw [here] at same
    simpa using same
  · have single : IsName parent := names parent (by simp)
    have other : clean (extend dot (inner ++ [parent])) ≠ dot := by
      rw [extend_snoc,clean_child (by simp [extend,dot,ascii]) single]
      intro bare
      rcases List.append_eq_singleton_iff.mp bare with ⟨_,here⟩ | ⟨_,none⟩
      · exact single.2.1 here
      · exact single.1 none
    refine absurd ?_ outside
    rw [← same,inside,if_neg other]
    split <;> simp

/-- The entries of a context, each with what is read under its path. -/
theorem mem_context (found : resolve fs srcDir = .ok (loc,left)) (built : buildContext fs srcDir = .ok context)
    {entry : TarEntry} :
    entry ∈ context ↔ ∃ rel kind data, fs.kind (loc ++ rel) = some kind ∧ kind ≠ .dir ∧
    readFile fs (extend srcDir rel) = .ok data ∧ entry = fileEntry (extend dot rel) data := by
  have dir := buildContext_dir found built
  rw [buildContext_eq found dir,mapM_ok_iff] at built
  have packed {x : Location × Kind} {entry : TarEntry} : pack fs srcDir dot x = .ok entry ↔
      ∃ data, readFile fs (extend srcDir x.1) = .ok data ∧ entry = fileEntry (extend dot x.1) data := by
    rw [pack]
    cases readFile fs (extend srcDir x.1) <;> simp [Except.mapError,Except.map,eq_comm]
  constructor
  · intro member
    obtain ⟨⟨rel,kind⟩,leaf,read⟩ := forall₂_left_mem built.flip member
    obtain ⟨known,notDir⟩ := (mem_leaves (within_depth fs loc) dir).mp leaf
    obtain ⟨data,content,same⟩ := packed.mp read
    exact ⟨rel,kind,data,known,notDir,content,same⟩
  · rintro ⟨rel,kind,data,known,notDir,content,rfl⟩
    obtain ⟨entry,member,read⟩ := forall₂_left_mem built ((mem_leaves (within_depth fs loc) dir).mpr ⟨known,notDir⟩)
    obtain ⟨data',content',rfl⟩ := packed.mp read
    cases content.symm.trans content'
    exact member

/-- Whatever a submission brings along, the image is built by the platform's own Dockerfile: the
context has it where the daemon looks, and nothing else there. -/
theorem builder_dockerfile_used (found : resolve fs srcDir = .ok (loc,left)) (tidy : clean srcDir = srcDir)
    (sent : (buildSubmission fs submissionID srcDir daemon).sent = some request) :
    ∃ builderDockerfile, readFile fs builderPath = .ok builderDockerfile ∧
      fileEntry (ascii "./Dockerfile") builderDockerfile ∈ request.context ∧
      ∀ entry ∈ request.context, clean entry.name = request.dockerfile →
        entry = fileEntry (ascii "./Dockerfile") builderDockerfile := by
  rcases buildSubmission_cases fs submissionID srcDir daemon with ⟨nothing,_⟩ |
    ⟨builderDockerfile,written,read,wrote,image,_⟩
  · cases nothing.symm.trans sent
  · have request_ := image.symm.trans sent
    rw [buildImage_sent,Option.map_eq_some_iff] at request_
    obtain ⟨context,some_,rfl⟩ := request_
    have built : buildContext written srcDir = .ok context := by
      cases outcome : buildContext written srcDir with
      | error err => simp [outcome,Except.toOption] at some_
      | ok context' => simpa [outcome,Except.toOption] using some_
    obtain ⟨target,ok,located,rfl⟩ := writeFile_ok wrote
    have found' := resolve_extends (put_extends ok builderDockerfile) rfl rfl found
    have content : readFile (fs.put target builderDockerfile ok) (extend srcDir [dockerfileName]) =
      .ok builderDockerfile := by
      have path : extend srcDir [dockerfileName] = srcDir ++ slash :: dockerfileName := by simp [extend]
      rw [path,readFile_join found' tidy dockerfileName_ordinary]
      exact readFile_written wrote
    refine ⟨builderDockerfile,read,?_,?_⟩
    · obtain ⟨kind,known,notDir⟩ := written_entry found tidy dockerfileName_ordinary located ok builderDockerfile
      exact (mem_context found' built).mpr ⟨[dockerfileName],kind,builderDockerfile,known,notDir,content,rfl⟩
    · intro entry member named
      obtain ⟨rel,kind,data,known,notDir,content',rfl⟩ := (mem_context found' built).mp member
      have names : ∀ name ∈ rel, IsName name := fun name inside => isName known (List.mem_append_right _ inside)
      have below : rel ≠ [] := by
        rintro rfl
        rw [List.append_nil,buildContext_dir found' built] at known
        exact notDir (Option.some.inj known).symm
      obtain rfl := clean_extend names below named dockerfileName_ordinary.2.2.2
      cases content.symm.trans content'
      rfl

end Builds

/-- Two submissions, one with a Dockerfile of its own and one with a link to a file of the host. -/
def workshop : FileSystem where
  nodes := [([],.dir),([ascii "build"],.dir),([ascii "build",ascii "builder-go.Dockerfile"],.file [7]),
    ([ascii "own"],.dir),([ascii "own",ascii "main"],.file [1]),([ascii "own",ascii "Dockerfile"],.file [2]),
    ([ascii "lure"],.dir),([ascii "lure",ascii "Dockerfile"],.link (ascii "/secret")),([ascii "secret"],.file [3])]
  cwd := []
  maxLinks := 40
  distinct := by decide
  root := by decide
  parents := by decide
  names := by decide

/-- The daemon gets the platform's Dockerfile, not the file that the link leads to. -/
theorem workshop_dockerfile : ∃ request,
    (buildSubmission workshop (ascii "1") (ascii "lure") fun _ => none).sent = some request ∧
    fileEntry (ascii "./Dockerfile") [7] ∈ request.context ∧
    ∀ entry ∈ request.context, clean entry.name = request.dockerfile →
      entry = fileEntry (ascii "./Dockerfile") [7] := by
  have found : resolve workshop (ascii "lure") = .ok ([ascii "lure"],40) := rfl
  have tidy : clean (ascii "lure") = ascii "lure" := by decide
  have some' : (buildSubmission workshop (ascii "1") (ascii "lure") fun _ => none).sent.isSome = true := by decide +kernel
  obtain ⟨request,sent⟩ := Option.isSome_iff_exists.mp some'
  obtain ⟨_,read,used⟩ := builder_dockerfile_used found tidy sent
  cases read
  exact ⟨request,sent,used⟩

section Leftovers

variable {fs : FileSystem} {loc : Location} {left : Nat} {daemon : Daemon}

/-- What a build leaves behind: the name is gone, the file behind a link under that name has the
platform's Dockerfile in it, and everything else is as it was. -/
theorem build_leaves (found : resolve fs srcDir = .ok (loc,left)) (tidy : clean srcDir = srcDir) :
    (buildSubmission fs submissionID srcDir daemon).left = fs ∨
      ∃ builderDockerfile target, readFile fs builderPath = .ok builderDockerfile ∧
        locate fs (join [srcDir,dockerfileName]) = .ok target ∧
        ((∀ aim, fs.kind (loc ++ [dockerfileName]) ≠ some (.link aim)) → target = loc ++ [dockerfileName]) ∧
        ∀ l, (buildSubmission fs submissionID srcDir daemon).left.kind l =
          if l = loc ++ [dockerfileName] then none
          else if l = target then some (.file builderDockerfile)
          else fs.kind l := by
  rcases buildSubmission_cases fs submissionID srcDir daemon with ⟨_,same⟩ |
    ⟨builderDockerfile,written,read,wrote,_,after⟩
  · exact .inl same
  · obtain ⟨target,ok,located,rfl⟩ := writeFile_ok wrote
    obtain ⟨removable,removed⟩ := remove_written found tidy dockerfileName_ordinary located ok builderDockerfile
    refine .inr ⟨builderDockerfile,target,read,located,fun physical => ?_,fun l => ?_⟩
    · have home := located_home found tidy dockerfileName_ordinary located
      exact (Except.ok.inj ((locate_entry found tidy dockerfileName_ordinary home physical).symm.trans located)).symm
    · rw [after,removed,kind_drop,kind_put]

/-- The file of the host behind the link now holds the platform's Dockerfile, and the link is gone. -/
theorem workshop_left : ∃ after, (buildSubmission workshop (ascii "1") (ascii "lure") fun _ => none).left = after ∧
    ∀ l, after.kind l =
      if l = [ascii "lure",ascii "Dockerfile"] then none
      else if l = [ascii "secret"] then some (.file [7])
      else workshop.kind l := by
  have found : resolve workshop (ascii "lure") = .ok ([ascii "lure"],40) := rfl
  have gone : (buildSubmission workshop (ascii "1") (ascii "lure") fun _ => none).left.kind
      [ascii "lure",ascii "Dockerfile"] = none := by decide +kernel
  have there : locate workshop (join [ascii "lure",dockerfileName]) = .ok [ascii "secret"] := by decide +kernel
  refine ⟨_,rfl,?_⟩
  rcases build_leaves found (by decide) with same | ⟨_,target,read,located,_,left⟩
  · rw [same] at gone
    exact absurd gone (by decide)
  · cases read
    cases there.symm.trans located
    exact left

theorem buildContext_congr {fs' : FileSystem} (same : ∀ l, fs'.kind l = fs.kind l) (cwd : fs'.cwd = fs.cwd)
    (links : fs'.maxLinks = fs.maxLinks) (found : resolve fs srcDir = .ok (loc,left)) (dir : fs.kind loc = some .dir) :
    buildContext fs' srcDir = buildContext fs srcDir := by
  have found' : resolve fs' srcDir = .ok (loc,left) := by
    rw [← found,resolve,resolve,walk_congr same,cwd,links]
  have packs : pack fs' srcDir dot = pack fs srcDir dot := funext fun x => by rw [pack,pack,readFile_congr same cwd links]
  rw [buildContext_eq found' ((same loc).trans dir),buildContext_eq found dir,packs,
    leaves_congr (fun rel => same (loc ++ rel)) (within_depth fs' loc) (within_depth fs loc) ((same loc).trans dir)]

/-- Although the Dockerfile of a submission is gone after a build, the next build sends the same. -/
theorem rebuild_sends_same (found : resolve fs srcDir = .ok (loc,left)) (tidy : clean srcDir = srcDir)
    (physical : ∀ aim, fs.kind (loc ++ [dockerfileName]) ≠ some (.link aim))
    (sent : (buildSubmission fs submissionID srcDir daemon).sent = some request)
    (kept : readFile (buildSubmission fs submissionID srcDir daemon).left builderPath = readFile fs builderPath)
    (daemon' : Daemon) :
    (buildSubmission (buildSubmission fs submissionID srcDir daemon).left submissionID srcDir daemon').sent =
      some request := by
  rcases buildSubmission_cases fs submissionID srcDir daemon with ⟨nothing,_⟩ |
    ⟨builderDockerfile,written,read,wrote,image,after⟩
  · cases nothing.symm.trans sent
  · obtain ⟨target,ok,located,rfl⟩ := writeFile_ok wrote
    have home := located_home found tidy dockerfileName_ordinary located
    obtain rfl := Except.ok.inj ((locate_entry found tidy dockerfileName_ordinary home physical).symm.trans located)
    obtain ⟨removable,removed⟩ := remove_written found tidy dockerfileName_ordinary located ok builderDockerfile
    rw [after,removed] at kept ⊢
    -- the first build without its Dockerfile, and the second with its own
    generalize first : (fs.put (loc ++ [dockerfileName]) builderDockerfile ok).drop
      (loc ++ [dockerfileName]) removable = rest at kept ⊢
    have gone : ∀ l, rest.kind l = if l = loc ++ [dockerfileName] then none else fs.kind l := by
      intro l
      rw [← first,kind_drop,kind_put]
      split <;> rfl
    have cwd : rest.cwd = fs.cwd := first ▸ rfl
    have links : rest.maxLinks = fs.maxLinks := first ▸ rfl
    have absent : rest.kind (loc ++ [dockerfileName]) = none := by rw [gone,if_pos rfl]
    have home' : rest.kind loc = some .dir := by
      rw [gone,if_neg (by simp),home]
    have found' := resolve_without gone (writable_not_dir ok) physical cwd links home found
    have ok' := writable_absent absent home' dockerfileName_ordinary
    have located' := locate_entry found' tidy dockerfileName_ordinary home' (by simp [absent])
    have wrote' : writeFile rest (join [srcDir,dockerfileName]) builderDockerfile =
        .ok (rest.put (loc ++ [dockerfileName]) builderDockerfile ok') := by
      rw [writeFile,located']
      exact dif_pos ok'
    have same : ∀ l, (rest.put (loc ++ [dockerfileName]) builderDockerfile ok').kind l =
        (fs.put (loc ++ [dockerfileName]) builderDockerfile ok).kind l := by
      intro l
      rw [kind_put,kind_put,gone]
      split <;> rfl
    have dir : (fs.put (loc ++ [dockerfileName]) builderDockerfile ok).kind loc = some .dir := by
      rw [kind_put,if_neg (by simp),home]
    rw [(buildSubmission_written (kept.trans read) wrote').1,buildImage_sent,
      buildContext_congr same cwd links (resolve_extends (put_extends ok builderDockerfile) rfl rfl found) dir,
      ← buildImage_sent _ _ _ _ daemon,← image,sent]

end Leftovers

/-- The submission's own Dockerfile is gone after the first build, which changes nothing. -/
theorem workshop_rebuilt : ∃ request,
    (buildSubmission workshop (ascii "1") (ascii "own") fun _ => none).sent = some request ∧
    (buildSubmission (buildSubmission workshop (ascii "1") (ascii "own") fun _ => none).left (ascii "1") (ascii "own")
      fun _ => none).sent = some request := by
  have found : resolve workshop (ascii "own") = .ok ([ascii "own"],40) := rfl
  have physical : workshop.kind ([ascii "own"] ++ [dockerfileName]) = some (.file [2]) := rfl
  have before : readFile workshop builderPath = .ok [7] := rfl
  have after : readFile (buildSubmission workshop (ascii "1") (ascii "own") fun _ => none).left builderPath =
    .ok [7] := by
    decide +kernel
  have some' : (buildSubmission workshop (ascii "1") (ascii "own") fun _ => none).sent.isSome = true := by decide +kernel
  obtain ⟨request,sent⟩ := Option.isSome_iff_exists.mp some'
  exact ⟨request,sent,rebuild_sends_same found (by decide) (by rw [physical]; simp) sent (after.trans before.symm) _⟩

end TradingPlatform.Docker

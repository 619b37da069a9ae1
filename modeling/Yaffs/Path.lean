import Yaffs.Acyclic
import Yaffs.Run
import Mathlib.Data.List.MinMax

/-!
# Path resolution

The part of the direct interface that turns a path into an object : `yaffsfs_FindObject`,
`yaffsfs_DoFindDirectory` and `yaffsfs_FollowLink`, which call each other. The core bounds
the depth of symbolic links by a counter passed by value. `Leads` says what a path means
and `Meets` which symbolic links are followed on the way, so that it can be said when the
recursion ends.

The three functions run with fuel and count their calls, which the source does not. A path
is split at its dividers beforehand.
-/

namespace Yaffs

open Acyclic

/-! ## Mounted devices -/

/-- An entry of `yaffsfs_deviceList`. -/
structure MountedDev where
  /-- `param.name`. -/
  name : Option Name
  isMounted : Bool
  dev : Dev

/-- An object of one of the devices. -/
structure ObjRef where
  dev : ℕ
  obj : ℕ
  deriving DecidableEq, Repr

/-- `yaffsfs_IsPathDivider`. -/
def isPathDivider (c : Char) : Bool :=
  c = '/'

/-- Skip the dividers a string starts with. -/
def skipDividers (s : Name) : Name :=
  s.dropWhile isPathDivider

/-- The inner loop of `yaffsfs_FindDevice` : what is left of the two strings, the length of
the match and whether it goes on. -/
def matchTextLoop : Name → Name → ℕ → Name × Name × ℕ × Bool
  | p :: ps, c :: cs, n =>
    if isPathDivider p || isPathDivider c then (p :: ps, c :: cs, n, true)
    else if p = c then matchTextLoop ps cs (n + 1)
    else (p :: ps, c :: cs, n, false)
  | p, leftOver, n => (p, leftOver, n, true)

/-- A string that is not at its end nor at a divider. -/
def atText : Name → Bool
  | c :: _ => !isPathDivider c
  | [] => false

/-- The loop of `yaffsfs_FindDevice` over the components of a device name. Every round
that goes on has matched a character of the name. -/
def matchNameLoop : ℕ → Name → Name → ℕ → Name × Name × ℕ × Bool
  | 0, p, leftOver, n => (p, leftOver, n, true)
  | fuel + 1, p, leftOver, n =>
    if p.isEmpty || leftOver.isEmpty then (p, leftOver, n, true)
    else
      let r := matchTextLoop p leftOver n
      if !r.2.2.2 || atText r.1 || atText r.2.1 then (r.1, r.2.1, r.2.2.1, false)
      else matchNameLoop fuel (skipDividers r.1) (skipDividers r.2.1) r.2.2.1

/-- The rest of the path behind the device name, and the length of the match. -/
def matchName (name path : Name) : Option (Name × ℕ) :=
  let r := matchNameLoop (name.length + 1) (skipDividers name) (skipDividers path) 0
  if r.2.2.2 && (skipDividers r.1).isEmpty then some (skipDividers r.2.1, r.2.2.1) else none

/-- The body of the loop of `yaffsfs_FindDevice`, over the device, the rest of the path and
the length of the longest match. -/
def findDeviceStep (path : Name) (best : Option (ℕ × Name × ℕ)) (m : MountedDev × ℕ) :
    Option (ℕ × Name × ℕ) :=
  match m.1.name.bind (matchName · path) with
  | none => best
  | some (rest, n) =>
    if best.all fun b => b.2.2 < n then some (m.2, rest, n) else best

section Lookup

variable (fs : List MountedDev)

/-- `yaffsfs_FindDevice`. -/
def findDevice (path : Name) : Option (ℕ × Name) :=
  (fs.zipIdx.foldl (findDeviceStep path) none).map fun b => (b.1, b.2.1)

/-- `yaffsfs_FindRoot`. -/
def findRoot (path : Name) : Option ObjRef × Name :=
  match findDevice fs path with
  | some (i, rest) => (if (fs[i]?).any (·.isMounted) then some ⟨i, objectIdRoot⟩ else none, rest)
  | none => (none, path)

/-- The object itself. -/
def objAt (o : ObjRef) : Obj :=
  match fs[o.dev]? with
  | some m => m.dev.obj o.obj
  | none => {}

/-- The parent of an object. -/
def parentAt (o : ObjRef) : Option ObjRef :=
  (objAt fs o).parent.map (ObjRef.mk o.dev)

/-- `yaffs_find_by_name`. -/
def findByNameAt (dir : ObjRef) (name : Name) : Option ObjRef :=
  (fs[dir.dev]?).bind fun m => (findByName m.dev dir.obj name).map (ObjRef.mk dir.dev)

/-- `yaffs_get_equivalent_obj`. -/
def getEquivalentObjAt (o : ObjRef) : Option ObjRef :=
  (fs[o.dev]?).bind fun m => (getEquivalentObj m.dev o.obj).map (ObjRef.mk o.dev)

/-! ## Resolution -/

/-- `YAFFSFS_MAX_SYMLINK_DEREFERENCES`. -/
def maxSymlinkDereferences : ℕ := 5

/-- The components of a path that a divider follows, cut to the buffer of
`yaffsfs_DoFindDirectory`. -/
def pathDirs (path : Name) : List Name :=
  ((path.splitOnP isPathDivider).dropLast.filter (!·.isEmpty)).map (·.take maxNameLength)

/-- What is behind the last divider. -/
def pathName (path : Name) : Name :=
  ((path.splitOnP isPathDivider).getLast?).getD []

/-- The flag behind the argument `loop`, and the number of calls so far. -/
structure Lookup where
  loop : Bool := false
  calls : ℕ := 0
  deriving DecidableEq, Repr

/-- A call of one of the three functions. -/
def Lookup.call (l : Lookup) : Lookup :=
  { l with calls := l.calls + 1 }

/-- Where a lookup starts : the directory and what is to be parsed from there. -/
def lookupStart (startDir : Option ObjRef) (path : Name) : Option ObjRef × Name :=
  match startDir with
  | some dir => (some dir, path)
  | none => findRoot fs path

/-- The directory for a component `.` or `..`. -/
def plainDir (dir : ObjRef) (c : Name) : Option (Option ObjRef) :=
  if c = ".".toList then some (some dir)
  else if c = "..".toList then some (parentAt fs dir)
  else none

/-- The test of `yaffsfs_DoFindDirectory` on what it found. -/
def asDir (o : Option ObjRef) : Option ObjRef :=
  o.filter fun o => (objAt fs o).variantType = .directory

/-- The name in a directory, at the end of `yaffsfs_FindObject`. -/
def lastObj (dir : Option ObjRef) (name : Name) : Option ObjRef :=
  match dir with
  | none => none
  | some d =>
    if name = "..".toList then parentAt fs d
    else if name = ".".toList then some d
    else if name.isEmpty then some d
    else findByNameAt fs d name

/-- The loop of `yaffsfs_DoFindDirectory`, with the flag `notDir`. -/
def findDirectoryLoop (followLink : Option ObjRef → ℕ → Lookup → Option (Option ObjRef × Lookup))
    (symDepth : ℕ) : List Name → Option ObjRef → Lookup → Option (Option ObjRef × Bool × Lookup)
  | _, none, l => some (none, false, l)
  | [], some dir, l => some (some dir, false, l)
  | c :: cs, some dir, l =>
    match plainDir fs dir c with
    | some d => findDirectoryLoop followLink symDepth cs d l
    | none =>
      match followLink (findByNameAt fs dir c) symDepth l with
      | none => none
      | some (o, l) =>
        if o.isSome && (asDir fs o).isNone then some (none, true, l)
        else findDirectoryLoop followLink symDepth cs (asDir fs o) l

/-- `yaffsfs_DoFindDirectory`, which returns the directory, the name in it and `notDir`. -/
def doFindDirectory (followLink : Option ObjRef → ℕ → Lookup → Option (Option ObjRef × Lookup))
    (startDir : Option ObjRef) (path : Name) (symDepth : ℕ) (l : Lookup) :
    Option (Option ObjRef × Name × Bool × Lookup) :=
  let l := l.call
  if maxSymlinkDereferences < symDepth then some (none, [], false, { l with loop := true })
  else
    let start := lookupStart fs startDir path
    match findDirectoryLoop fs followLink symDepth (pathDirs start.2) start.1 l with
    | none => none
    | some (dir, notDir, l) => some (dir, pathName start.2, notDir, l)

/-- What `yaffsfs_FindObject` returns : the object, `dirOut` and `notDir`. -/
structure FoundObj where
  obj : Option ObjRef
  dir : Option ObjRef
  notDir : Bool
  deriving DecidableEq, Repr

/-- `yaffsfs_FindObject`, given the function that follows links. -/
def findObjectWith (followLink : Option ObjRef → ℕ → Lookup → Option (Option ObjRef × Lookup))
    (relDir : Option ObjRef) (path : Name) (symDepth : ℕ) (getEquiv : Bool) (l : Lookup) :
    Option (FoundObj × Lookup) :=
  match doFindDirectory fs followLink relDir path symDepth l.call with
  | none => none
  | some (dir, name, notDir, l) =>
    let obj := lastObj fs dir name
    some (⟨if getEquiv then obj.bind (getEquivalentObjAt fs) else obj, dir, notDir⟩, l)

/-- The directory in which the target of the link `o` is looked up. -/
def targetStart (o : ObjRef) : Option ObjRef :=
  if atText ((objAt fs o).aliasName.getD []) || ((objAt fs o).aliasName.getD []).isEmpty then
    parentAt fs o
  else none

/-- The loop of `yaffsfs_FollowLink`. The depth is counted up after the call : the first
target is looked up at the depth of the link itself. -/
def followLinkLoop : ℕ → Option ObjRef → ℕ → Lookup → Option (Option ObjRef × Lookup)
  | 0, _, _, _ => none
  | _ + 1, none, _, l => some (none, l)
  | n + 1, some o, symDepth, l =>
    if (objAt fs o).variantType = .symlink then
      let followLink := fun o s (l : Lookup) =>
        followLinkLoop n (o.bind (getEquivalentObjAt fs)) s l.call
      match findObjectWith fs followLink (targetStart fs o) ((objAt fs o).aliasName.getD []) symDepth
        true l with
      | none => none
      | some (r, l) => followLinkLoop n r.obj (symDepth + 1) l
    else some (some o, l)

/-- `yaffsfs_FollowLink`. -/
def followLink (n : ℕ) (o : Option ObjRef) (symDepth : ℕ) (l : Lookup) :
    Option (Option ObjRef × Lookup) :=
  followLinkLoop fs n (o.bind (getEquivalentObjAt fs)) symDepth l.call

/-- `yaffsfs_FindObject`. -/
def findObject (n : ℕ) (relDir : Option ObjRef) (path : Name) (symDepth : ℕ) (getEquiv : Bool)
    (l : Lookup) : Option (FoundObj × Lookup) :=
  findObjectWith fs (followLink fs n) relDir path symDepth getEquiv l

end Lookup

/-! ## What a path means -/

section Meaning

variable (fs : List MountedDev)

/-- The object is a symbolic link. -/
def IsLink (o : ObjRef) : Prop :=
  (objAt fs o).variantType = .symlink

/-- The object behind a name in a directory. -/
def childAt (dir : ObjRef) (c : Name) : Option ObjRef :=
  (findByNameAt fs dir c).bind (getEquivalentObjAt fs)

/-- The directory in which a lookup at depth `s` starts. -/
def enterDir (s : ℕ) (dir : Option ObjRef) : Option ObjRef :=
  if maxSymlinkDereferences < s then none else dir

/-- The target of a link, and where it is looked up. -/
def target (o : ObjRef) : Option ObjRef × Name :=
  lookupStart fs (targetStart fs o) ((objAt fs o).aliasName.getD [])

/-- What the target of the link `o` names in the directory `dir`. -/
def targetEnd (o : ObjRef) (dir : Option ObjRef) : Option ObjRef :=
  (lastObj fs dir (pathName (target fs o).2)).bind (getEquivalentObjAt fs)

/-- Walking the components of a path, and following links from an object. -/
inductive Job
  | walk (s : ℕ) (dir : Option ObjRef) (cs : List Name)
  | follow (s : ℕ) (o : Option ObjRef)

/-- Where a walk ends, and what is behind links. -/
inductive Leads : Job → Option ObjRef → Prop
  | walkNone (s : ℕ) (cs : List Name) : Leads (.walk s none cs) none
  | walkNil (s : ℕ) (dir : ObjRef) : Leads (.walk s (some dir) []) (some dir)
  | walkPlain {s : ℕ} {dir : ObjRef} {c : Name} {cs : List Name} {d r : Option ObjRef} :
      plainDir fs dir c = some d → Leads (.walk s d cs) r → Leads (.walk s (some dir) (c :: cs)) r
  | walkChild {s : ℕ} {dir : ObjRef} {c : Name} {cs : List Name} {o r : Option ObjRef} :
      plainDir fs dir c = none → Leads (.follow s (childAt fs dir c)) o →
      Leads (.walk s (asDir fs o) cs) r → Leads (.walk s (some dir) (c :: cs)) r
  | followNone (s : ℕ) : Leads (.follow s none) none
  | followStop {s : ℕ} {o : ObjRef} : ¬IsLink fs o → Leads (.follow s (some o)) (some o)
  | followLink {s : ℕ} {o : ObjRef} {dir r : Option ObjRef} : IsLink fs o →
      Leads (.walk s (enterDir s (target fs o).1) (pathDirs (target fs o).2)) dir →
      Leads (.follow (s + 1) (targetEnd fs o dir)) r → Leads (.follow s (some o)) r

/-- Walking the components follows the link `m`. -/
inductive WalkMeets (s : ℕ) (m : ObjRef) : Option ObjRef → List Name → Prop
  | here {dir : ObjRef} {c : Name} {cs : List Name} : plainDir fs dir c = none →
      childAt fs dir c = some m → IsLink fs m → WalkMeets s m (some dir) (c :: cs)
  | plain {dir : ObjRef} {c : Name} {cs : List Name} {d : Option ObjRef} :
      plainDir fs dir c = some d → WalkMeets s m d cs → WalkMeets s m (some dir) (c :: cs)
  | later {dir : ObjRef} {c : Name} {cs : List Name} {o : Option ObjRef} :
      plainDir fs dir c = none → Leads fs (.follow s (childAt fs dir c)) o →
      WalkMeets s m (asDir fs o) cs → WalkMeets s m (some dir) (c :: cs)

/-- Following a link at some depth needs another link to be followed, on the way to its target
at the same depth or behind it at the next. -/
inductive Meets : ObjRef × ℕ → ObjRef × ℕ → Prop
  | within {s : ℕ} {o m : ObjRef} : IsLink fs o →
      WalkMeets fs s m (enterDir s (target fs o).1) (pathDirs (target fs o).2) → Meets (o, s) (m, s)
  | next {s : ℕ} {o m : ObjRef} {dir : Option ObjRef} : IsLink fs o →
      Leads fs (.walk s (enterDir s (target fs o).1) (pathDirs (target fs o).2)) dir →
      targetEnd fs o dir = some m → IsLink fs m → Meets (o, s) (m, s + 1)

end Meaning

/-! ## Resolution follows the meaning -/

variable {fs : List MountedDev}

/-- A lookup at depth `s` is noted. -/
def Lookup.enter (l : Lookup) (s : ℕ) : Lookup :=
  if maxSymlinkDereferences < s then { l.call.call with loop := true } else l.call.call

theorem findObjectWith_eq (fl : Option ObjRef → ℕ → Lookup → Option (Option ObjRef × Lookup))
    (relDir : Option ObjRef) (path : Name) (s : ℕ) (getEquiv : Bool) (l : Lookup) :
    findObjectWith fs fl relDir path s getEquiv l =
      (findDirectoryLoop fs fl s (pathDirs (lookupStart fs relDir path).2)
        (enterDir s (lookupStart fs relDir path).1) (l.enter s)).map fun r =>
      let obj := lastObj fs r.1 (pathName (lookupStart fs relDir path).2)
      (⟨if getEquiv then obj.bind (getEquivalentObjAt fs) else obj, r.1, r.2.1⟩, r.2.2) := by
  unfold findObjectWith doFindDirectory enterDir Lookup.enter
  by_cases hs : maxSymlinkDereferences < s
  · simp only [if_pos hs]
    unfold findDirectoryLoop
    rfl
  · simp only [if_neg hs]
    cases findDirectoryLoop fs fl s (pathDirs (lookupStart fs relDir path).2)
      (lookupStart fs relDir path).1 l.call.call <;> rfl

theorem followLinkLoop_link {n s : ℕ} {o : ObjRef} {l : Lookup} (h : IsLink fs o) :
    followLinkLoop fs (n + 1) (some o) s l =
      (findDirectoryLoop fs (followLink fs n) s (pathDirs (target fs o).2)
        (enterDir s (target fs o).1) (l.enter s)).bind fun r =>
      followLinkLoop fs n (targetEnd fs o r.1) (s + 1) r.2.2 := by
  rw [followLinkLoop, if_pos (show (objAt fs o).variantType = .symlink from h)]
  simp only [findObjectWith_eq]
  cases hr : findDirectoryLoop fs (followLink fs n) s (pathDirs (target fs o).2)
    (enterDir s (target fs o).1) (l.enter s) with
  | none =>
    unfold target followLink at hr
    simp only [hr]
    rfl
  | some r =>
    unfold target followLink at hr
    simp only [hr]
    rfl

theorem followLinkLoop_stop {n s : ℕ} {o : ObjRef} {l : Lookup} (h : ¬IsLink fs o) :
    followLinkLoop fs (n + 1) (some o) s l = some (some o, l) := by
  rw [followLinkLoop, if_neg (show ¬(objAt fs o).variantType = .symlink from h)]

theorem findDirectoryLoop_child {n s : ℕ} {dir : ObjRef} {c : Name} {cs : List Name} {l : Lookup}
    (h : plainDir fs dir c = none) :
    findDirectoryLoop fs (followLink fs n) s (c :: cs) (some dir) l =
      (followLinkLoop fs n (childAt fs dir c) s l.call).bind fun r =>
        if r.1.isSome && (asDir fs r.1).isNone then some (none, true, r.2)
        else findDirectoryLoop fs (followLink fs n) s cs (asDir fs r.1) r.2 := by
  rw [findDirectoryLoop, h]
  unfold followLink childAt
  simp only
  cases followLinkLoop fs n ((findByNameAt fs dir c).bind (getEquivalentObjAt fs)) s l.call <;> rfl

theorem findDirectoryLoop_plain {n s : ℕ} {dir : ObjRef} {c : Name} {cs : List Name} {l : Lookup}
    {d : Option ObjRef} (h : plainDir fs dir c = some d) :
    findDirectoryLoop fs (followLink fs n) s (c :: cs) (some dir) l =
      findDirectoryLoop fs (followLink fs n) s cs d l := by
  rw [findDirectoryLoop, h]

theorem findDirectoryLoop_none {fl : Option ObjRef → ℕ → Lookup → Option (Option ObjRef × Lookup)}
    {s : ℕ} {cs : List Name} {l : Lookup} :
    findDirectoryLoop fs fl s cs none l = some (none, false, l) := by
  unfold findDirectoryLoop
  rfl

/-- With enough fuel, a job ends as it should. -/
def Job.Agrees (fs : List MountedDev) (n : ℕ) (r : Option ObjRef) : Job → Prop
  | .walk s dir cs => ∀ l q, findDirectoryLoop fs (followLink fs n) s cs dir l = some q → q.1 = r
  | .follow s o => ∀ l q, followLinkLoop fs n o s l = some q → q.1 = r

theorem Leads.agrees {j : Job} {r : Option ObjRef} (h : Leads fs j r) : ∀ n, j.Agrees fs n r := by
  induction h with
  | walkNone s cs =>
    intro n l q hq
    rw [findDirectoryLoop_none] at hq
    exact congrArg Prod.fst (Option.some.inj hq).symm
  | walkNil s dir =>
    intro n l q hq
    exact congrArg Prod.fst (Option.some.inj hq).symm
  | walkPlain hp _ ih =>
    intro n l q hq
    rw [findDirectoryLoop_plain hp] at hq
    exact ih n l q hq
  | @walkChild s dir c cs o r hp _ _ iho ih =>
    intro n l q hq
    rw [findDirectoryLoop_child hp] at hq
    obtain ⟨p, hp, hq⟩ := Option.bind_eq_some_iff.mp hq
    obtain rfl := iho n _ p hp
    split_ifs at hq with hnot
    · have hnone : asDir fs p.1 = none := by simp_all
      rw [hnone] at ih
      have := ih n l (none, false, l) findDirectoryLoop_none
      rw [← Option.some.inj hq]
      exact this
    · exact ih n _ q hq
  | followNone s =>
    intro n l q hq
    cases n with
    | zero => simp [followLinkLoop] at hq
    | succ n => exact congrArg Prod.fst (Option.some.inj hq).symm
  | followStop ho =>
    intro n l q hq
    cases n with
    | zero => simp [followLinkLoop] at hq
    | succ n =>
      rw [followLinkLoop_stop ho] at hq
      exact congrArg Prod.fst (Option.some.inj hq).symm
  | followLink ho _ _ ihd ih =>
    intro n l q hq
    cases n with
    | zero => simp [followLinkLoop] at hq
    | succ n =>
      rw [followLinkLoop_link ho] at hq
      obtain ⟨p, hp, hq⟩ := Option.bind_eq_some_iff.mp hq
      obtain rfl := ihd n _ p hp
      exact ih n _ q hq

/-- A walk that ends leads where the components lead. -/
theorem findDirectoryLoop_leads {n s : ℕ}
    (hf : ∀ o s l q, followLinkLoop fs n o s l = some q → Leads fs (.follow s o) q.1)
    (cs : List Name) : ∀ dir l q, findDirectoryLoop fs (followLink fs n) s cs dir l = some q →
      Leads fs (.walk s dir cs) q.1 := by
  induction cs with
  | nil =>
    intro dir l q hq
    cases dir with
    | none =>
      rw [findDirectoryLoop_none] at hq
      exact Option.some.inj hq ▸ .walkNone s []
    | some dir => exact Option.some.inj hq ▸ .walkNil s dir
  | cons c cs ih =>
    intro dir l q hq
    cases dir with
    | none =>
      rw [findDirectoryLoop_none] at hq
      exact Option.some.inj hq ▸ .walkNone s (c :: cs)
    | some dir =>
      cases hp : plainDir fs dir c with
      | some d =>
        rw [findDirectoryLoop_plain hp] at hq
        exact .walkPlain hp (ih d l q hq)
      | none =>
        rw [findDirectoryLoop_child hp] at hq
        obtain ⟨p, hp', hq⟩ := Option.bind_eq_some_iff.mp hq
        refine .walkChild hp (hf _ _ _ _ hp') ?_
        split_ifs at hq with hnot
        · have hnone : asDir fs p.1 = none := by simp_all
          rw [hnone, ← Option.some.inj hq]
          exact .walkNone s cs
        · exact ih _ _ q hq

theorem followLinkLoop_leads (n : ℕ) :
    ∀ o s l q, followLinkLoop fs n o s l = some q → Leads fs (.follow s o) q.1 := by
  induction n with
  | zero =>
    intro o s l q hq
    simp [followLinkLoop] at hq
  | succ n ih =>
    intro o s l q hq
    cases o with
    | none => exact Option.some.inj hq ▸ .followNone s
    | some o =>
      by_cases ho : IsLink fs o
      · rw [followLinkLoop_link ho] at hq
        obtain ⟨p, hp, hq⟩ := Option.bind_eq_some_iff.mp hq
        exact .followLink ho (findDirectoryLoop_leads ih _ _ _ _ hp) (ih _ _ _ _ hq)
      · rw [followLinkLoop_stop ho] at hq
        exact Option.some.inj hq ▸ .followStop ho

/-! ## A cycle is never left -/

/-- A walk that ends has followed every link it meets. -/
theorem WalkMeets.followed {s : ℕ} {m : ObjRef} {dir : Option ObjRef} {cs : List Name}
    (h : WalkMeets fs s m dir cs) (n : ℕ) :
    ∀ l, findDirectoryLoop fs (followLink fs n) s cs dir l ≠ none →
      ∃ l', followLinkLoop fs n (some m) s l' ≠ none := by
  induction h with
  | here hp hm _ =>
    intro l hl
    rw [findDirectoryLoop_child hp, hm] at hl
    refine ⟨l.call, fun hnone => hl ?_⟩
    rw [hnone, Option.bind_none]
  | plain hp _ ih =>
    intro l hl
    rw [findDirectoryLoop_plain hp] at hl
    exact ih l hl
  | @later dir c cs o hp ho _ ih =>
    intro l hl
    rw [findDirectoryLoop_child hp] at hl
    cases hr : followLinkLoop fs n (childAt fs dir c) s l.call with
    | none => simp [hr] at hl
    | some r =>
      obtain rfl := ho.agrees n _ r hr
      rw [hr, Option.bind_some] at hl
      split_ifs at hl with hnot
      · have hnone : asDir fs r.1 = none := by simp_all
        exact ih r.2 (by simp [hnone, findDirectoryLoop_none])
      · exact ih _ hl

/-- Following a link ends only after the links it meets have been followed, with less fuel. -/
theorem Meets.followed {a b : ObjRef × ℕ} (h : Meets fs a b) (n : ℕ)
    (ha : ∃ l, followLinkLoop fs (n + 1) (some a.1) a.2 l ≠ none) :
    ∃ l, followLinkLoop fs n (some b.1) b.2 l ≠ none := by
  obtain ⟨l, hl⟩ := ha
  cases h with
  | within ho hm =>
    rw [followLinkLoop_link ho] at hl
    obtain ⟨q, hq⟩ := Option.ne_none_iff_exists'.mp hl
    obtain ⟨p, hp, -⟩ := Option.bind_eq_some_iff.mp hq
    exact hm.followed n _ (Option.ne_none_iff_exists'.mpr ⟨p, hp⟩)
  | next ho hd hm _ =>
    rw [followLinkLoop_link ho] at hl
    obtain ⟨q, hq⟩ := Option.ne_none_iff_exists'.mp hl
    obtain ⟨p, hp, hq⟩ := Option.bind_eq_some_iff.mp hq
    obtain rfl := hd.agrees n _ p hp
    rw [hm] at hq
    exact ⟨_, Option.ne_none_iff_exists'.mpr ⟨q, hq⟩⟩

/-- A link that is followed to its end is in no cycle, and leads into none. -/
theorem cycleFree_of_followed {n : ℕ} {a : ObjRef × ℕ}
    (h : ∃ l, followLinkLoop fs n (some a.1) a.2 l ≠ none) : CycleFree (Meets fs) a :=
  no_cycle (Q := fun n a => ∃ l, followLinkLoop fs n (some a.1) a.2 l ≠ none)
    (fun _ ⟨_, hl⟩ => hl rfl) (fun n _ _ hab => hab.followed n) n h

/-! ## Without a cycle the recursion is bounded -/

/-- The object is in the hash table of its device. -/
def Hashed (fs : List MountedDev) (o : ObjRef) : Prop :=
  ∃ m, fs[o.dev]? = some m ∧ o.obj ∈ m.dev.ids

/-- Directories, parents and hard links lead to objects of the hash table. -/
structure HashedTree (d : Dev) : Prop where
  root : objectIdRoot ∈ d.ids
  children : ∀ o ∈ d.ids, ∀ c ∈ (d.obj o).children, c ∈ d.ids
  parent : ∀ o ∈ d.ids, ∀ p ∈ (d.obj o).parent, p ∈ d.ids
  equivObj : ∀ o ∈ d.ids, ∀ t ∈ (d.obj o).equivObj, t ∈ d.ids

/-- The devices a path can lead to. -/
structure Mounts where
  devs : List MountedDev
  tree : ∀ m ∈ devs, HashedTree m.dev

/-- The symbolic links of the devices. -/
def links (fs : List MountedDev) : List ObjRef :=
  (fs.zipIdx.flatMap fun m => m.1.dev.ids.map (ObjRef.mk m.2)).filter
    fun o => (objAt fs o).variantType = .symlink

theorem mem_links {o : ObjRef} : o ∈ links fs ↔ Hashed fs o ∧ IsLink fs o := by
  unfold links Hashed IsLink
  rw [List.mem_filter, List.mem_flatMap]
  simp only [List.mem_map, decide_eq_true_eq]
  refine and_congr_left fun _ => ⟨?_, ?_⟩
  · rintro ⟨⟨m, i⟩, hm, n, hn, rfl⟩
    exact ⟨m, List.mem_zipIdx_iff_getElem?.mp hm, hn⟩
  · rintro ⟨m, hm, hn⟩
    exact ⟨(m, o.dev), List.mem_zipIdx_iff_getElem?.mpr hm, o.obj, hn, rfl⟩

/-- The longest target of a link. -/
def maxTarget (fs : List MountedDev) : ℕ :=
  ((links fs).map fun o => ((objAt fs o).aliasName.getD []).length).foldr max 0

/-- Most calls made when a link is followed with the fuel `n`, no target being longer
than `len`. -/
def callBound (len : ℕ) : ℕ → ℕ
  | 0 => 0
  | n + 1 => 2 + (len + 1) * (callBound len n + 1)

/-- Most calls made for a path, by its length, the number of links and the length of their
targets. -/
def lookupBound (fs : List MountedDev) (path : Name) : ℕ :=
  2 + path.length * (callBound (maxTarget fs) ((maxSymlinkDereferences + 2) * (links fs).length + 1) + 1)

/-! ### Lengths -/

theorem length_splitOnP_le (p : Char → Bool) (s : Name) : (s.splitOnP p).length ≤ s.length + 1 := by
  induction s with
  | nil => simp
  | cons c s ih =>
    rw [List.splitOnP_cons_eq_if_modifyHead]
    split_ifs <;> simp <;> omega

theorem length_pathDirs_le (path : Name) : (pathDirs path).length ≤ path.length := by
  have h := length_splitOnP_le isPathDivider path
  unfold pathDirs
  rw [List.length_map]
  refine (List.length_filter_le _ _).trans ?_
  rw [List.length_dropLast]
  omega

theorem length_skipDividers_le (s : Name) : (skipDividers s).length ≤ s.length :=
  (List.dropWhile_sublist _).length_le

theorem length_matchTextLoop_le (p : Name) : ∀ (s : Name) (n : ℕ),
    (matchTextLoop p s n).2.1.length ≤ s.length := by
  induction p with
  | nil =>
    intro s n
    simp [matchTextLoop]
  | cons c p ih =>
    intro s n
    cases s with
    | nil => simp [matchTextLoop]
    | cons x s =>
      rw [matchTextLoop]
      split_ifs
      · exact le_rfl
      · exact (ih s _).trans (Nat.le_succ _)
      · exact le_rfl

theorem length_matchNameLoop_le (fuel : ℕ) : ∀ (p s : Name) (n : ℕ),
    (matchNameLoop fuel p s n).2.1.length ≤ s.length := by
  induction fuel with
  | zero =>
    intro p s n
    exact le_rfl
  | succ fuel ih =>
    intro p s n
    have hs := length_matchTextLoop_le p s n
    rw [matchNameLoop]
    simp only
    split_ifs
    · exact le_rfl
    · exact hs
    · exact (ih _ _ _).trans ((length_skipDividers_le _).trans hs)

theorem length_of_matchName {name path rest : Name} {n : ℕ} (h : matchName name path = some (rest, n)) :
    rest.length ≤ path.length := by
  unfold matchName at h
  simp only at h
  split_ifs at h
  obtain ⟨rfl, -⟩ := Prod.mk.inj (Option.some.inj h)
  exact (length_skipDividers_le _).trans
    ((length_matchNameLoop_le _ _ _ _).trans (length_skipDividers_le _))

theorem length_findDeviceStep {path : Name} {best : Option (ℕ × Name × ℕ)} {m : MountedDev × ℕ}
    (h : ∀ b, best = some b → b.2.1.length ≤ path.length) :
    ∀ b, findDeviceStep path best m = some b → b.2.1.length ≤ path.length := by
  intro b hb
  unfold findDeviceStep at hb
  cases hm : m.1.name.bind (matchName · path) with
  | none =>
    rw [hm] at hb
    exact h b hb
  | some r =>
    rw [hm] at hb
    obtain ⟨name, -, hr⟩ := Option.bind_eq_some_iff.mp hm
    simp only at hb
    split_ifs at hb
    · rw [← Option.some.inj hb]
      exact length_of_matchName hr
    · exact h b hb

/-- The rest of a path is no longer than the path. -/
theorem length_lookupStart_le (relDir : Option ObjRef) (path : Name) :
    (lookupStart fs relDir path).2.length ≤ path.length := by
  have hfold : ∀ (l : List (MountedDev × ℕ)) (best : Option (ℕ × Name × ℕ)),
      (∀ b, best = some b → b.2.1.length ≤ path.length) →
      ∀ b, l.foldl (findDeviceStep path) best = some b → b.2.1.length ≤ path.length := by
    intro l
    induction l with
    | nil => exact fun _ h => h
    | cons m l ih => exact fun best h => ih _ (length_findDeviceStep h)
  cases relDir with
  | some dir => exact le_rfl
  | none =>
    change (findRoot fs path).2.length ≤ _
    unfold findRoot
    cases hd : findDevice fs path with
    | none => exact le_rfl
    | some r =>
      obtain ⟨b, hb, rfl⟩ := Option.map_eq_some_iff.mp hd
      exact hfold _ none (by simp) b hb

theorem length_target_le {o : ObjRef} (ho : o ∈ links fs) :
    (pathDirs (target fs o).2).length ≤ maxTarget fs := by
  refine (length_pathDirs_le _).trans ((length_lookupStart_le _ _).trans ?_)
  exact List.le_max_of_le' 0 (List.mem_map.mpr ⟨o, ho, rfl⟩) le_rfl

/-! ### What is met is in the hash table -/

section Hashed

variable {fs : Mounts} {o o' : ObjRef}

theorem Hashed.getEquivalentObjAt (h : Hashed fs.devs o) (ho : getEquivalentObjAt fs.devs o = some o') :
    Hashed fs.devs o' := by
  obtain ⟨m, hm, hid⟩ := h
  unfold Yaffs.getEquivalentObjAt getEquivalentObj at ho
  rw [hm, Option.bind_some] at ho
  split_ifs at ho
  · obtain ⟨t, ht, rfl⟩ := Option.map_eq_some_iff.mp ho
    exact ⟨m, hm, (fs.tree m (List.mem_of_getElem? hm)).equivObj _ hid t ht⟩
  · obtain rfl := Option.some.inj ho
    exact ⟨m, hm, hid⟩

theorem Hashed.parentAt (h : Hashed fs.devs o) (ho : parentAt fs.devs o = some o') : Hashed fs.devs o' := by
  obtain ⟨m, hm, hid⟩ := h
  obtain ⟨p, hp, rfl⟩ := Option.map_eq_some_iff.mp ho
  unfold objAt at hp
  rw [hm] at hp
  exact ⟨m, hm, (fs.tree m (List.mem_of_getElem? hm)).parent _ hid p hp⟩

theorem Hashed.findByNameAt (h : Hashed fs.devs o) {name : Name}
    (ho : findByNameAt fs.devs o name = some o') : Hashed fs.devs o' := by
  obtain ⟨m, hm, hid⟩ := h
  unfold Yaffs.findByNameAt at ho
  rw [hm, Option.bind_some] at ho
  obtain ⟨c, hc, rfl⟩ := Option.map_eq_some_iff.mp ho
  exact ⟨m, hm, (fs.tree m (List.mem_of_getElem? hm)).children _ hid c (List.mem_of_find?_eq_some hc)⟩

theorem Hashed.childAt (h : Hashed fs.devs o) {c : Name} (ho : childAt fs.devs o c = some o') :
    Hashed fs.devs o' := by
  obtain ⟨x, hx, ho⟩ := Option.bind_eq_some_iff.mp ho
  exact (h.findByNameAt hx).getEquivalentObjAt ho

theorem Hashed.plainDir (h : Hashed fs.devs o) {c : Name} (ho : plainDir fs.devs o c = some (some o')) :
    Hashed fs.devs o' := by
  unfold Yaffs.plainDir at ho
  split_ifs at ho
  · exact Option.some.inj (Option.some.inj ho) ▸ h
  · exact h.parentAt (Option.some.inj ho)

theorem hashed_lookupStart {relDir : Option ObjRef} (h : ∀ d, relDir = some d → Hashed fs.devs d)
    (path : Name) : ∀ d, (lookupStart fs.devs relDir path).1 = some d → Hashed fs.devs d := by
  intro d hd
  cases relDir with
  | some dir => exact h d hd
  | none =>
    change (findRoot fs.devs path).1 = some d at hd
    unfold findRoot at hd
    cases hf : findDevice fs.devs path with
    | none => simp [hf] at hd
    | some r =>
      rw [hf] at hd
      simp only at hd
      split_ifs at hd with hmount
      obtain ⟨m, hm, -⟩ := (Option.any_eq_true _ _).mp hmount
      rw [← Option.some.inj hd]
      exact ⟨m, hm, (fs.tree m (List.mem_of_getElem? hm)).root⟩

theorem hashed_enterDir {s : ℕ} {dir : Option ObjRef} (h : ∀ d, dir = some d → Hashed fs.devs d) :
    ∀ d, enterDir s dir = some d → Hashed fs.devs d := by
  intro d hd
  unfold enterDir at hd
  split_ifs at hd
  exact h d hd

theorem Hashed.target (h : Hashed fs.devs o) (s : ℕ) :
    ∀ d, enterDir s (target fs.devs o).1 = some d → Hashed fs.devs d := by
  refine hashed_enterDir (hashed_lookupStart (fun d hd => ?_) _)
  unfold targetStart at hd
  split_ifs at hd
  exact h.parentAt hd

theorem hashed_lastObj {dir : Option ObjRef} (h : ∀ d, dir = some d → Hashed fs.devs d) {name : Name} :
    ∀ d, lastObj fs.devs dir name = some d → Hashed fs.devs d := by
  intro d hd
  cases dir with
  | none => simp [lastObj] at hd
  | some dir =>
    have hdir := h dir rfl
    unfold lastObj at hd
    simp only at hd
    split_ifs at hd
    · exact hdir.parentAt hd
    · exact Option.some.inj hd ▸ hdir
    · exact Option.some.inj hd ▸ hdir
    · exact hdir.findByNameAt hd

/-- Where a job starts. -/
def Job.start : Job → Option ObjRef
  | .walk _ dir _ => dir
  | .follow _ o => o

theorem Leads.hashed {j : Job} {r : Option ObjRef} (h : Leads fs.devs j r) :
    (∀ o, j.start = some o → Hashed fs.devs o) → ∀ o, r = some o → Hashed fs.devs o := by
  induction h with
  | walkNone | followNone => simp
  | walkNil | followStop => exact fun h => h
  | @walkPlain s dir c cs d r hp _ ih =>
    intro h
    refine ih fun o ho => ?_
    have hd : d = some o := ho
    exact (h dir rfl).plainDir (hd ▸ hp)
  | @walkChild s dir c cs o r hp _ _ iho ih =>
    intro h
    refine ih fun x hx => ?_
    have hdir := h dir rfl
    exact iho (fun y hy => hdir.childAt hy) x (Option.filter_eq_some_iff.mp hx).1
  | @followLink s o dir r ho _ _ ihd ih =>
    intro h
    refine ih fun x hx => ?_
    obtain ⟨y, hy, hx⟩ := Option.bind_eq_some_iff.mp hx
    have hdir := ihd ((h o rfl).target s)
    exact (hashed_lastObj hdir y hy).getEquivalentObjAt hx

theorem WalkMeets.hashed {s : ℕ} {m : ObjRef} {dir : Option ObjRef} {cs : List Name}
    (h : WalkMeets fs.devs s m dir cs) : (∀ d, dir = some d → Hashed fs.devs d) →
      m ∈ links fs.devs := by
  induction h with
  | here hp hm hl => exact fun h => mem_links.mpr ⟨(h _ rfl).childAt hm, hl⟩
  | plain hp _ ih => exact fun h => ih fun d hd => (h _ rfl).plainDir (hd ▸ hp)
  | later hp ho _ ih =>
    intro h
    refine ih fun x hx => ?_
    exact ho.hashed (fun y hy => (h _ rfl).childAt hy) x (Option.filter_eq_some_iff.mp hx).1

theorem WalkMeets.depth {s : ℕ} {m : ObjRef} {dir : Option ObjRef} {cs : List Name}
    (h : WalkMeets fs.devs s m (enterDir s dir) cs) : s ≤ maxSymlinkDereferences := by
  by_contra hs
  rw [enterDir, if_pos (by omega)] at h
  cases h

theorem Meets.mem {a b : ObjRef × ℕ} (h : Meets fs.devs a b) (ha : Hashed fs.devs a.1) :
    b.1 ∈ links fs.devs ∧ b.2 ≤ maxSymlinkDereferences + 1 := by
  cases h with
  | within ho hm => exact ⟨hm.hashed (ha.target _), hm.depth.trans (Nat.le_succ _)⟩
  | @next s o m dir ho hd hm hl =>
    obtain ⟨y, hy, hx⟩ := Option.bind_eq_some_iff.mp hm
    refine ⟨mem_links.mpr ⟨(hashed_lastObj (hd.hashed (ha.target s)) y hy).getEquivalentObjAt hx, hl⟩, ?_⟩
    by_contra hs
    rw [enterDir, if_pos (by simp only at hs ⊢; omega)] at hd
    cases hd
    simp [lastObj] at hy

end Hashed

/-! ### The bound -/

theorem findDirectoryLoop_bounded {n s B : ℕ} (cs : List Name) : ∀ (dir : Option ObjRef),
    (∀ m, WalkMeets fs s m dir cs → ∀ l, ∃ r, followLinkLoop fs (n + 1) (some m) s l = some r ∧
      r.2.calls ≤ l.calls + B) →
    ∀ l, ∃ r, findDirectoryLoop fs (followLink fs (n + 1)) s cs dir l = some r ∧
      r.2.2.calls ≤ l.calls + cs.length * (B + 1) := by
  induction cs with
  | nil =>
    intro dir _ l
    cases dir with
    | none => exact ⟨_, findDirectoryLoop_none, by simp⟩
    | some dir => exact ⟨_, rfl, by simp⟩
  | cons c cs ih =>
    intro dir hf l
    cases dir with
    | none => exact ⟨_, findDirectoryLoop_none, Nat.le_add_right _ _⟩
    | some dir =>
      have hlen : (c :: cs).length * (B + 1) = (B + 1) + cs.length * (B + 1) := by
        rw [List.length_cons, Nat.succ_mul, Nat.add_comm]
      cases hp : plainDir fs dir c with
      | some d =>
        rw [findDirectoryLoop_plain hp]
        obtain ⟨r, hr, hcalls⟩ := ih d (fun m hm => hf m (.plain hp hm)) l
        exact ⟨r, hr, by omega⟩
      | none =>
        rw [findDirectoryLoop_child hp]
        have hchild : ∃ r, followLinkLoop fs (n + 1) (childAt fs dir c) s l.call = some r ∧
            r.2.calls ≤ l.call.calls + B := by
          cases hc : childAt fs dir c with
          | none => exact ⟨_, rfl, Nat.le_add_right _ _⟩
          | some m =>
            by_cases hm : IsLink fs m
            · exact hf m (.here hp hc hm) _
            · exact ⟨_, followLinkLoop_stop hm, Nat.le_add_right _ _⟩
        obtain ⟨r, hr, hcalls⟩ := hchild
        have hcall : l.call.calls = l.calls + 1 := rfl
        rw [hr, Option.bind_some]
        split_ifs with hnot
        · exact ⟨_, rfl, by simp only; omega⟩
        · obtain ⟨q, hq, hq'⟩ := ih (asDir fs r.1)
            (fun m hm => hf m (.later hp (followLinkLoop_leads _ _ _ _ _ hr) hm)) r.2
          exact ⟨q, hq, by omega⟩

theorem Lookup.enter_calls (l : Lookup) (s : ℕ) : (l.enter s).calls = l.calls + 2 := by
  unfold Lookup.enter
  split_ifs <;> rfl

/-- Away from cycles, a link is followed to its end in a bounded number of calls. -/
theorem followLinkLoop_bounded {fs : Mounts} {a : ObjRef × ℕ} (hac : CycleFree (Meets fs.devs) a)
    (ha : a.1 ∈ links fs.devs) (has : a.2 ≤ maxSymlinkDereferences + 1) (l : Lookup) :
    ∃ r, followLinkLoop fs.devs ((maxSymlinkDereferences + 2) * (links fs.devs).length + 1) (some a.1)
      a.2 l = some r ∧ r.2.calls ≤ l.calls + callBound (maxTarget fs.devs)
        ((maxSymlinkDereferences + 2) * (links fs.devs).length + 1) := by
  have hlen : ((List.range (maxSymlinkDereferences + 2)).flatMap fun s =>
      (links fs.devs).map fun o => (o, s)).length =
        (maxSymlinkDereferences + 2) * (links fs.devs).length := by
    simp [List.length_flatMap]
  have hmem : ∀ b : ObjRef × ℕ, b.1 ∈ links fs.devs → b.2 ≤ maxSymlinkDereferences + 1 →
      b ∈ (List.range (maxSymlinkDereferences + 2)).flatMap fun s => (links fs.devs).map fun o => (o, s) := by
    intro b hb hs
    refine List.mem_flatMap.mpr ⟨b.2, List.mem_range.mpr (by omega), ?_⟩
    exact List.mem_map.mpr ⟨b.1, hb, rfl⟩
  have hreach : ∀ b, Relation.ReflTransGen (Meets fs.devs) a b →
      b.1 ∈ links fs.devs ∧ b.2 ≤ maxSymlinkDereferences + 1 := by
    intro b hb
    induction hb with
    | refl => exact ⟨ha, has⟩
    | tail _ hbc ih => exact hbc.mem (mem_links.mp ih.1).1
  rw [← hlen]
  refine acyclic_induction (P := fun n b => b.1 ∈ links fs.devs → ∀ l, ∃ r,
    followLinkLoop fs.devs (n + 1) (some b.1) b.2 l = some r ∧
      r.2.calls ≤ l.calls + callBound (maxTarget fs.devs) (n + 1)) ?_ hac
    (fun b hb => hmem b (hreach b hb).1 (hreach b hb).2) ha l
  rintro n ⟨o, s⟩ ih ho l
  obtain ⟨hhash, hlink⟩ := mem_links.mp ho
  have hbound := length_target_le ho
  rw [followLinkLoop_link hlink]
  obtain ⟨r, hr, hcalls⟩ := findDirectoryLoop_bounded (n := n) (s := s)
    (B := callBound (maxTarget fs.devs) (n + 1)) (pathDirs (target fs.devs o).2) (enterDir s (target fs.devs o).1)
    (fun m hm => ih (m, s) (.within hlink hm) (hm.hashed (hhash.target s))) (l.enter s)
  rw [hr, Option.bind_some]
  have hend : ∃ q, followLinkLoop fs.devs (n + 1) (targetEnd fs.devs o r.1) (s + 1) r.2.2 = some q ∧
      q.2.calls ≤ r.2.2.calls + callBound (maxTarget fs.devs) (n + 1) := by
    cases ht : targetEnd fs.devs o r.1 with
    | none => exact ⟨_, rfl, Nat.le_add_right _ _⟩
    | some m =>
      by_cases hm : IsLink fs.devs m
      · have hmeets : Meets fs.devs (o, s) (m, s + 1) :=
          .next hlink (findDirectoryLoop_leads (followLinkLoop_leads _) _ _ _ _ hr) ht hm
        exact ih (m, s + 1) hmeets (hmeets.mem hhash).1 _
      · exact ⟨_, followLinkLoop_stop hm, Nat.le_add_right _ _⟩
  obtain ⟨q, hq, hqcalls⟩ := hend
  refine ⟨q, hq, ?_⟩
  rw [Lookup.enter_calls] at hcalls
  have hmul : (pathDirs (target fs.devs o).2).length * (callBound (maxTarget fs.devs) (n + 1) + 1) ≤
      maxTarget fs.devs * (callBound (maxTarget fs.devs) (n + 1) + 1) := Nat.mul_le_mul_right _ hbound
  have hstep : callBound (maxTarget fs.devs) (n + 1 + 1) =
      2 + (maxTarget fs.devs * (callBound (maxTarget fs.devs) (n + 1) + 1) +
        (callBound (maxTarget fs.devs) (n + 1) + 1)) := by
    rw [callBound, Nat.succ_mul]
  omega

/-! ## Too many links are an error -/

/-- A walk with `loop` set found no directory. -/
theorem findDirectoryLoop_loop {n s : ℕ}
    (hf : ∀ o s l q, l.loop = false → followLinkLoop fs n o s l = some q → q.2.loop = true → q.1 = none)
    (cs : List Name) : ∀ dir l q, l.loop = false →
      findDirectoryLoop fs (followLink fs n) s cs dir l = some q → q.2.2.loop = true → q.1 = none := by
  induction cs with
  | nil =>
    intro dir l q hl hq hloop
    cases dir with
    | none =>
      rw [findDirectoryLoop_none] at hq
      rw [← Option.some.inj hq]
    | some dir =>
      rw [← Option.some.inj hq] at hloop
      simp [hl] at hloop
  | cons c cs ih =>
    intro dir l q hl hq hloop
    cases dir with
    | none =>
      rw [findDirectoryLoop_none] at hq
      rw [← Option.some.inj hq]
    | some dir =>
      cases hp : plainDir fs dir c with
      | some d =>
        rw [findDirectoryLoop_plain hp] at hq
        exact ih d l q hl hq hloop
      | none =>
        rw [findDirectoryLoop_child hp] at hq
        obtain ⟨p, hp', hq⟩ := Option.bind_eq_some_iff.mp hq
        split_ifs at hq with hnot
        · rw [← Option.some.inj hq]
        · by_cases hpl : p.2.loop = true
          · rw [hf _ _ _ _ (show l.call.loop = false from hl) hp' hpl] at hq
            have hnone : asDir fs none = none := rfl
            rw [hnone, findDirectoryLoop_none] at hq
            rw [← Option.some.inj hq]
          · exact ih _ _ q (by simpa using hpl) hq hloop

theorem followLinkLoop_loop (n : ℕ) : ∀ o s l q, l.loop = false →
    followLinkLoop fs n o s l = some q → q.2.loop = true → q.1 = none := by
  induction n with
  | zero =>
    intro o s l q _ hq
    simp [followLinkLoop] at hq
  | succ n ih =>
    intro o s l q hl hq hloop
    cases o with
    | none => rw [← Option.some.inj hq]
    | some o =>
      by_cases ho : IsLink fs o
      · rw [followLinkLoop_link ho] at hq
        obtain ⟨p, hp, hq⟩ := Option.bind_eq_some_iff.mp hq
        by_cases hpl : p.2.2.loop = true
        · have hnone : p.1 = none := by
            by_cases hs : maxSymlinkDereferences < s
            · rw [enterDir, if_pos hs, findDirectoryLoop_none] at hp
              rw [← Option.some.inj hp]
            · exact findDirectoryLoop_loop ih _ _ _ _ (by simp [Lookup.enter, hs, Lookup.call, hl]) hp hpl
          rw [hnone] at hq
          cases n with
          | zero => simp [followLinkLoop] at hq
          | succ n => exact (congrArg Prod.fst (Option.some.inj hq)).symm
        · exact ih _ _ _ q (by simpa using hpl) hq hloop
      · rw [followLinkLoop_stop ho] at hq
        rw [← Option.some.inj hq] at hloop
        simp [hl] at hloop

/-! ## When resolution ends -/

/-- The lookup of a path follows the link `m`. -/
def PathMeets (fs : List MountedDev) (relDir : Option ObjRef) (path : Name) (s : ℕ) (m : ObjRef) : Prop :=
  WalkMeets fs s m (enterDir s (lookupStart fs relDir path).1) (pathDirs (lookupStart fs relDir path).2)

/-- The lookup of a path returns an object or an error, an error if it was too deep, after
no more calls than the lengths of the path and of the targets of links allow. -/
def Returns (fs : List MountedDev) (relDir : Option ObjRef) (path : Name) (s : ℕ) (getEquiv : Bool) :
    Prop :=
  ∃ n r, findObject fs n relDir path s getEquiv {} = some r ∧ r.2.calls ≤ lookupBound fs path ∧
    (r.2.loop = true → r.1.obj = none)

/-- A mounted device with one symbolic link, `a`, whose target is `a/x`. -/
def selfLinkMounts : Mounts where
  devs := [⟨some "/y".toList, true, sampleRun [.create .symlink objectIdRoot "a".toList "a/x".toList]⟩]
  tree := by
    intro m hm
    obtain rfl := List.mem_singleton.mp hm
    exact ⟨by decide +kernel, by decide +kernel, by decide +kernel, by decide +kernel⟩

end Yaffs

import Yaffs.Shifts

/-!
# Listing directories

The searches of `yaffs_opendir` and `yaffs_readdir` on one device, beside the calls that move objects.
A search has a pointer into the list of children of its directory; `yaffsfs_RemoveObjectCallback` moves it
on before an object leaves the list. An object that comes back, under another name or its old one, comes in
at the front, where no search that has started meets it.
-/

namespace Yaffs

open LiveList

/-! ## Searches -/

/-- A directory search context. -/
structure Dsc where
  inUse : Bool := false
  dirObj : ℕ := 0
  nextReturn : Option ℕ := none
  offset : ℤ := 0
  deriving DecidableEq, Repr

/-- A directory entry; `ino` is nothing where the object has no equivalent one. -/
structure Dirent where
  ino : Option ℕ
  off : ℤ
  name : Name
  deriving DecidableEq, Repr

/-- What a field of 20 bits holds. -/
def wrapOffset (n : ℤ) : ℤ :=
  (n + 2 ^ 19) % 2 ^ 20 - 2 ^ 19

/-- `yaffsfs_SetDirRewound`. -/
def setDirRewound (d : Dev) (c : Dsc) : Dsc :=
  if (d.obj c.dirObj).variantType = .directory then
    { c with offset := 0, nextReturn := (d.obj c.dirObj).children.head? }
  else c

/-- `yaffsfs_DirAdvance`. -/
def dirAdvance (d : Dev) (c : Dsc) : Dsc :=
  if (d.obj c.dirObj).variantType = .directory then
    { c with nextReturn := c.nextReturn.bind fun o => next o (d.obj c.dirObj).children }
  else c

/-- `yaffsfs_RemoveObjectCallback` on one search. -/
def removeObjectCallback (o : ℕ) (d : Dev) (c : Dsc) : Dsc :=
  if c.nextReturn = some o then dirAdvance d c else c

/-- The entry `yaffs_readdir` makes of an object. -/
def direntOf (d : Dev) (o : ℕ) (offset : ℤ) : Dirent where
  ino := getEquivalentObj d o
  off := offset
  name := if (getObjName d o).isEmpty then "zz".toList else getObjName d o

/-- A search that is in use while moves are made from `d` on : the callback for every object that leaves. -/
def Dsc.follow (ms : List DirMove) (d : Dev) (c : Dsc) : Dsc :=
  if c.inUse then
    { c with nextReturn := followed (changesAt c.dirObj ms) (d.obj c.dirObj).children c.nextReturn }
  else c

/-- What a search has done : the objects that were there when it started, those it has returned, and those
that calls have been made on since. -/
structure Track where
  start : List ℕ := []
  seen : List ℕ := []
  touched : List ℕ := []
  deriving DecidableEq, Repr

/-- A device and the searches on it. -/
structure Listing where
  dev : Dev
  dsc : ℕ → Dsc
  track : ℕ → Track

namespace Listing

variable (s : Listing)

/-- Change a search and what it has done. -/
def setDsc (i : ℕ) (c : Dsc) (t : Track) : Listing :=
  { s with dsc := Function.update s.dsc i c, track := Function.update s.track i t }

/-- `yaffs_opendir` with `nDsc` contexts, once the path has led to the directory `o`. -/
def opendir (nDsc o : ℕ) : Listing × Option ℕ :=
  match (List.range nDsc).find? fun i => !(s.dsc i).inUse with
  | some i =>
    (s.setDsc i (setDirRewound s.dev { inUse := true, dirObj := o }) { start := (s.dev.obj o).children }, some i)
  | none => (s, none)

/-- `yaffs_readdir`. -/
def readdir (i : ℕ) : Listing × Option Dirent :=
  if (s.dsc i).inUse then
    match (s.dsc i).nextReturn with
    | some o =>
      (s.setDsc i (dirAdvance s.dev { s.dsc i with offset := wrapOffset ((s.dsc i).offset + 1) })
        { s.track i with seen := (s.track i).seen ++ [o] }, some (direntOf s.dev o (s.dsc i).offset))
    | none => (s, none)
  else (s, none)

/-- `yaffs_rewinddir`. -/
def rewinddir (i : ℕ) : Listing :=
  s.setDsc i (setDirRewound s.dev (s.dsc i)) { start := (s.dev.obj (s.dsc i).dirObj).children }

/-- `yaffs_closedir`. -/
def closedir (i : ℕ) : Listing :=
  s.setDsc i { s.dsc i with inUse := false } (s.track i)

/-- A call makes the moves `ms`, and leads to the device `d`. -/
def move (ms : List DirMove) (touched : List ℕ) (d : Dev) : Listing where
  dev := d
  dsc i := (s.dsc i).follow ms s.dev
  track i := { s.track i with touched := touched ++ (s.track i).touched }

end Listing

/-! ## Calls -/

/-- The objects a rename takes out of their directories : the one that is renamed, and the target with the
first of its hard links. -/
def renameTouches (oldDir : ℕ) (oldName : Option Name) (newDir : ℕ) (newName : Name) (d : Dev) : List ℕ :=
  (renamed oldDir oldName d).toList ++
    match findByName d newDir newName with
    | some target => target :: (d.obj target).hardLinks.head?.toList
    | none => []

/-- The objects a call takes out of directories that can be listed. -/
def Op.touches (d : Dev) : Op → List ℕ
  | .rename oldDir oldName newDir newName => renameTouches oldDir (some oldName) newDir newName d
  | .unlink o => o :: (d.obj o).hardLinks.head?.toList
  | _ => []

/-- A call on the core, or on a search. `renameDir` is a rename by a path that ends in a slash. -/
inductive ListCall
  | core (op : Op)
  | renameDir (dir newDir : ℕ) (newName : Name)
  | opendir (o : ℕ)
  | readdir (i : ℕ)
  | rewinddir (i : ℕ)
  | closedir (i : ℕ)
  deriving DecidableEq, Repr

variable (g : Geometry) (e : Env) (nDsc : ℕ)

/-- One call. A search is used from its opening to its closing. -/
def Listing.step (s : Listing) : ListCall → Listing
  | .core op =>
    if op.allowed g s.dev && op.hooks s.dev then s.move (op.moves g e s.dev) (op.touches s.dev) (op.exec g e s.dev)
    else s
  | .renameDir dir newDir newName =>
    if namedDir s.dev dir && namedDir s.dev newDir then
      s.move (renameObjMoves g e dir none newDir newName s.dev) (renameTouches dir none newDir newName s.dev)
        (renameObj g e dir none newDir newName s.dev).1
    else s
  | .opendir o => if namedDir s.dev o then (s.opendir nDsc o).1 else s
  | .readdir i => (s.readdir i).1
  | .rewinddir i => if (s.dsc i).inUse then s.rewinddir i else s
  | .closedir i => if (s.dsc i).inUse then s.closedir i else s

/-- A sequence of calls. -/
def Listing.run (s : Listing) (cs : List ListCall) : Listing :=
  cs.foldl (Listing.step g e nDsc) s

/-- The call renames a hard link over the object it is the first link to. -/
def ListCall.relinks (d : Dev) : ListCall → Bool
  | .core op => op.relinks d
  | _ => false

/-- No call renames a hard link over the object it is the first link to. -/
def relinkFree : Listing → List ListCall → Bool
  | _, [] => true
  | s, c :: cs => !c.relinks s.dev && relinkFree (Listing.step g e nDsc s c) cs

/-- A device mounted on blank flash, with no search open. -/
def freshListing (bad : ℕ → Bool) : Listing where
  dev := freshDev g bad
  dsc _ := {}
  track _ := {}

variable {g : Geometry} {e : Env} {nDsc : ℕ} {d d' : Dev} {o p q : ℕ} {ms : List DirMove} {s : Listing}

/-! ## What is touched -/

theorem newObjMoves_out {type : ObjType} (ht : Tied [] d) (hq : DirMove.out q ∈ newObjMoves g e type d) : q ∉ d.ids := by
  unfold newObjMoves at hq
  rcases newObj_new (g := g) (e := e) type ht with ⟨n, hsome, hnew⟩ | ⟨hnone, -⟩
  · rw [hsome] at hq
    have heq : q = n := by simpa [addObjToDirMoves] using hq
    exact heq ▸ hnew.new
  · rw [hnone] at hq
    simp at hq

/-- What a creation takes out is the new object. -/
theorem createObjMoves_out {type : ObjType} {parent equiv : ℕ} {name aliasStr : Name} (ht : Tied [] d)
    (hq : DirMove.out q ∈ createObjMoves g e type parent name equiv aliasStr d) : q ∉ d.ids := by
  have hstr : SameTies d (if type = .symlink then cloneStr e aliasStr d else (d, some [])).1 := by
    split_ifs
    · exact ⟨fun _ => rfl, rfl, rfl⟩
    · exact SameTies.refl d
  unfold createObjMoves at hq
  simp only at hq
  generalize (if type = .symlink then cloneStr e aliasStr d else (d, some [])) = r at *
  obtain ⟨y, str⟩ := r
  have hy := (hstr.evolves ht).ties
  have hids : y.ids = d.ids := hstr.ids
  split_ifs at hq
  · simp at hq
  · cases str with
    | none => simp at hq
    | some str =>
      simp only at hq
      rcases newObj_new (g := g) (e := e) type hy with ⟨n, hsome, hnew⟩ | ⟨hnone, -⟩
      · rw [hsome] at hq
        simp only [List.mem_append] at hq
        rcases hq with (hq | hq) | hq
        · exact hids ▸ newObjMoves_out hy hq
        · have heq : q = n := by simpa [addObjToDirMoves] using hq
          exact heq ▸ hids ▸ hnew.new
        · have heq : q = n := by
            split at hq
            · exact delObjMoves_out hq
            · simp at hq
          exact heq ▸ hids ▸ hnew.new
      · rw [hnone] at hq
        exact hids ▸ newObjMoves_out hy hq

theorem nukeTargetMoves_out {newDir target : ℕ} {newName : Name} (ht : Tied [] d) (henter : Enters d newDir o)
    (hq : DirMove.out q ∈ nukeTargetMoves g e o newDir newName target d) :
    q = o ∨ q = target ∨ (d.obj target).hardLinks.head? = some q := by
  have hgc : SameTies d (setGcDisable true d) := SameTies.mapBlocks d _
  have hev := hgc.evolves ht
  have hdirs : ∀ dir', (some newDir).or ((setGcDisable true d).obj o).parent = some dir' →
      Takes (setGcDisable true d) dir' o := by
    intro dir' hd
    obtain rfl : newDir = dir' := by simpa using hd
    exact henter.takes.same hgc
  have hties := (changeObjNameWith_evolves (g := g) (e := e) (checkGc_evolves (g := g) (e := e) false) hev.ties hdirs
    newName false target).ties
  have hshadow : SameTies (changeObjName g e o (some newDir) newName false target (setGcDisable true d)).1
      ((changeObjName g e o (some newDir) newName false target (setGcDisable true d)).1.modObj target fun ob =>
        { ob with isShadowed := true }) := SameTies.modObj rfl
  have hring := changeObjName_ring (g := g) (e := e) hev.ties hdirs newName false target target
  unfold nukeTargetMoves at hq
  simp only [List.mem_append] at hq
  rcases hq with hq | hq
  · exact Or.inl (changeObjNameMoves_out hq)
  · refine Or.inr ((unlinkObjMoves_out (hshadow.evolves hties).ties hq).imp id fun hhead => ?_)
    have hkept := (hshadow.get Obj.hardLinks target).trans hring
    exact (congrArg List.head? hkept).symm.trans hhead

/-- A rename takes out what `renameTouches` tells. -/
theorem renameObjMoves_out {oldDir newDir : ℕ} {oldName : Option Name} {newName : Name} (ht : Tied [] d) (h : Homed d)
    (hold : Listed oldDir) (hold' : Listable d oldDir) (hnew : Listed newDir) (hnew' : Listable d newDir)
    (hq : DirMove.out q ∈ renameObjMoves g e oldDir oldName newDir newName d) :
    q ∈ renameTouches oldDir oldName newDir newName d := by
  unfold renameObjMoves at hq
  split_ifs at hq
  · simp at hq
  · simp at hq
  · unfold renameTouches
    cases ho : renamed oldDir oldName d with
    | none => simp [ho] at hq
    | some o =>
      have hobj : Listable d o := by
        cases oldName with
        | some name => exact h.member oldDir hold o (mem_of_findByName ho)
        | none => exact Option.some.inj ho ▸ hold'
      simp only [ho] at hq
      split_ifs at hq
      · cases htarget : findByName d newDir newName with
        | none =>
          rw [htarget] at hq
          have heq := changeObjNameMoves_out hq
          simp [heq]
        | some target =>
          rw [htarget] at hq
          simp only at hq
          split_ifs at hq
          · simp at hq
          · have heq := changeObjNameMoves_out hq
            simp [heq]
          · rcases List.mem_append.mp hq with hq | hq
            · rcases nukeTargetMoves_out ht (Enters.of_listable hnew hnew' hobj) hq with heq | heq | heq
              · simp [heq]
              · simp [heq]
              · simp [heq]
            · have heq := changeObjNameMoves_out hq
              simp [heq]
      · simp at hq

theorem releaseInodeMoves_out (hq : DirMove.out q ∈ releaseInodeMoves g e o d) : ¬Listable d q := by
  unfold releaseInodeMoves at hq
  simp only at hq
  split_ifs at hq with hun
  · have hun : (d.obj o).unlinked = true := by simpa [Dev.modObj] using hun
    rw [delObjMoves_out hq]
    exact unlinked_hidden hun
  · simp at hq

/-- A call takes no object out of the directories that can be listed but those it touches. -/
theorem Op.moves_out {op : Op} (ht : Tied [] d) (h : Homed d) (hall : op.allowed g d = true) (hl : Listable d q)
    (hq : DirMove.out q ∈ op.moves g e d) : q ∈ op.touches d := by
  cases op with
  | create type parent name aliasStr => exact absurd hl.mem (createObjMoves_out ht hq)
  | link parent name target =>
    simp only [Op.moves, linkObjMoves] at hq
    split at hq
    · exact absurd hl.mem (createObjMoves_out ht hq)
    · simp at hq
  | rename oldDir oldName newDir newName =>
    simp only [Op.allowed, Bool.and_eq_true] at hall
    exact renameObjMoves_out ht h (namedDir_receives ht hall.1).listed (named_listable ht (namedDir_named hall.1))
      (namedDir_receives ht hall.2).listed (named_listable ht (namedDir_named hall.2)) hq
  | unlink o =>
    rcases unlinkObjMoves_out ht hq with heq | heq
    · simp [Op.touches, heq]
    · simp [Op.touches, heq]
  | closeInode o => exact absurd hl (releaseInodeMoves_out hq)
  | _ => simp [Op.moves] at hq

/-! ## Searches in any sequence of calls -/

/-- What holds of a search : the objects that have not been touched since it started are still in the
directory, and they have been returned, or will be, once. -/
structure Searching (d : Dev) (c : Dsc) (t : Track) : Prop where
  listed : Listed c.dirObj
  stays : ∀ x ∈ t.start, x ∉ t.touched → x ∈ (d.obj c.dirObj).children
  visited : Visited t.start t.seen t.touched (d.obj c.dirObj).children c.nextReturn

/-- The objects are tied together, and every search that is in use is sound. -/
structure Listing.Sound (s : Listing) : Prop where
  ties : Tied [] s.dev
  homed : Homed s.dev
  search : ∀ i, (s.dsc i).inUse = true → Searching s.dev (s.dsc i) (s.track i)

theorem out_of_changesAt (h : Change.out q ∈ changesAt p ms) : DirMove.out q ∈ ms := by
  obtain ⟨m, hm, hat⟩ := List.mem_filterMap.mp h
  cases m with
  | out x =>
    simp only [DirMove.at, Option.some.injEq, Change.out.injEq] at hat
    exact hat ▸ hm
  | into dir x =>
    simp only [DirMove.at] at hat
    split_ifs at hat
    simp at hat

/-- The callback is made when an object leaves. -/
theorem Dsc.follow_out {c : Dsc} (hdir : (d.obj c.dirObj).variantType = .directory) (hin : c.inUse = true) :
    Dsc.follow [.out o] d c = removeObjectCallback o d c := by
  unfold Dsc.follow removeObjectCallback dirAdvance
  rw [if_pos hin, if_pos hdir]
  simp only [changesAt, List.filterMap_cons, DirMove.at, List.filterMap_nil, followed, Change.cursor]
  split_ifs with ho
  · rw [ho]
    rfl
  · rfl

/-- A search goes on while objects move. -/
theorem Searching.move {c : Dsc} {t : Track} {touched : List ℕ} (h : Searching d c t) (hin : c.inUse = true)
    (hd : Homed d) (hs : Shifts ms d d') (hout : ∀ q, Listable d q → DirMove.out q ∈ ms → q ∈ touched) :
    Searching d' (c.follow ms d) { t with touched := touched ++ t.touched } := by
  have hleft : ∀ x ∈ t.start, x ∉ t.touched → DirMove.out x ∈ ms → x ∈ touched := fun x hx hnot hm =>
    hout x (hd.member c.dirObj h.listed x (h.stays x hx hnot)) hm
  unfold Dsc.follow
  rw [if_pos hin]
  refine ⟨h.listed, fun x hx hnot => ?_, ?_⟩
  · obtain ⟨hnew, hold⟩ : x ∉ touched ∧ x ∉ t.touched := by simpa only [List.mem_append, not_or] using hnot
    rw [hs.children c.dirObj h.listed]
    exact mem_changed (h.stays x hx hold) fun hm => hnew (hleft x hx hold (out_of_changesAt hm))
  · have hvisited := h.visited.changes (hd.nodup c.dirObj h.listed) (hs.fits c.dirObj h.listed)
    rw [← hs.children c.dirObj h.listed] at hvisited
    refine hvisited.mono fun x hx hgone => ?_
    by_cases hold : x ∈ t.touched
    · exact List.mem_append_right touched hold
    · have hm := out_of_left ((List.mem_append.mp hgone).resolve_right hold)
      exact List.mem_append_left t.touched (hleft x hx hold (out_of_changesAt hm))

/-- A search that starts has everything to visit. -/
theorem Searching.start {c : Dsc} (ht : Tied [] d) (hd : Homed d) (hc : Listed c.dirObj)
    (hnext : ∀ x, c.nextReturn = some x → x ∈ (d.obj c.dirObj).children) :
    Searching d (setDirRewound d c) { start := (d.obj c.dirObj).children } := by
  unfold setDirRewound
  split_ifs with hdir
  · exact ⟨hc, fun x hx _ => hx, Visited.init (hd.nodup c.dirObj hc)⟩
  · -- what is no directory has no children
    have hempty := ht.childless c.dirObj hdir
    exact ⟨hc, fun x hx _ => hx, hnext, fun x hx => absurd hx (by simp [hempty])⟩

theorem dirAdvance_inUse (d : Dev) (c : Dsc) : (dirAdvance d c).inUse = c.inUse := by
  unfold dirAdvance
  split_ifs <;> rfl

theorem setDirRewound_inUse (d : Dev) (c : Dsc) : (setDirRewound d c).inUse = c.inUse := by
  unfold setDirRewound
  split_ifs <;> rfl

/-- A search returns the object it is at. -/
theorem Searching.advance {c : Dsc} {t : Track} {n : ℤ} (h : Searching d c t) (ht : Tied [] d) (hd : Homed d)
    (ho : c.nextReturn = some o) :
    Searching d (dirAdvance d { c with offset := n }) { t with seen := t.seen ++ [o] } := by
  have hmem := h.visited.cursor o ho
  have hdir : (d.obj c.dirObj).variantType = .directory := by
    by_contra hdir
    rw [ht.childless c.dirObj hdir] at hmem
    exact absurd hmem List.not_mem_nil
  have hvisited := h.visited
  rw [ho] at hvisited
  unfold dirAdvance
  rw [if_pos hdir]
  refine ⟨h.listed, h.stays, ?_⟩
  simp only [ho, Option.bind_some]
  exact hvisited.visit (hd.nodup c.dirObj h.listed)

namespace Listing

/-- A change of one search leaves the others alone. -/
theorem Sound.setDsc {i : ℕ} {c : Dsc} {t : Track} (h : s.Sound) (hc : c.inUse = true → Searching s.dev c t) :
    (s.setDsc i c t).Sound where
  ties := h.ties
  homed := h.homed
  search j hj := by
    by_cases hji : j = i
    · subst hji
      simp only [Listing.setDsc, Function.update_self] at hj ⊢
      exact hc hj
    · simp only [Listing.setDsc, Function.update_of_ne hji] at hj ⊢
      exact h.search j hj

theorem Sound.move {touched : List ℕ} (h : s.Sound) (ht : Tied [] d') (hs : Shifts ms s.dev d')
    (hout : ∀ q, Listable s.dev q → DirMove.out q ∈ ms → q ∈ touched) : (s.move ms touched d').Sound where
  ties := ht
  homed := hs.homed
  search i hi := by
    have hin : (s.dsc i).inUse = true := by
      simp only [Listing.move, Dsc.follow] at hi
      split_ifs at hi with hin
      · exact hin
      · exact hi
    exact (h.search i hin).move hin h.homed hs hout

/-- A directory is not a hard link. -/
theorem relinks_dir {dir newDir : ℕ} (ht : Tied [] d) (h : Homed d)
    (hdir : (d.obj dir).variantType = .directory) (hnew : Listed newDir) (newName : Name) :
    relinks dir none newDir newName d = false := by
  unfold relinks renamed
  simp only
  cases htarget : findByName d newDir newName with
  | none => rfl
  | some target =>
    simp only [decide_eq_false_iff_not]
    intro hhead
    have hmem := (h.member newDir hnew target (mem_of_findByName htarget)).mem
    have hlink := (ht.ring target hmem dir (List.mem_of_mem_head? hhead)).2.1
    rw [hdir] at hlink
    exact ObjType.noConfusion hlink

/-- Every call keeps the searches sound. -/
theorem Sound.step (h : s.Sound) (c : ListCall) (hring : c.relinks s.dev = false) :
    (s.step g e nDsc c).Sound := by
  cases c with
  | core op =>
    unfold Listing.step
    simp only
    split_ifs with hall
    · simp only [Bool.and_eq_true] at hall
      obtain ⟨hties, hshift⟩ := op.exec_shifts (g := g) (e := e) h.ties h.homed hall.1 hall.2 hring
      exact h.move hties hshift fun q hq hout => Op.moves_out h.ties h.homed hall.1 hq hout
    · exact h
  | renameDir dir newDir newName =>
    unfold Listing.step
    simp only
    split_ifs with hall
    · simp only [Bool.and_eq_true] at hall
      have hold := namedDir_receives h.ties hall.1
      have hnew := namedDir_receives h.ties hall.2
      have hold' := named_listable h.ties (namedDir_named hall.1)
      have hnew' := named_listable h.ties (namedDir_named hall.2)
      obtain ⟨hties, hshift⟩ := renameObj_shifts (g := g) (e := e) h.ties h.homed hold.listed hold' hnew.listed hnew'
        (relinks_dir h.ties h.homed hold.type hnew.listed newName)
      exact h.move hties hshift fun q _ hout =>
        renameObjMoves_out h.ties h.homed hold.listed hold' hnew.listed hnew' hout
    · exact h
  | opendir o =>
    unfold Listing.step
    simp only
    split_ifs with hdir
    · unfold Listing.opendir
      split
      · exact h.setDsc fun _ =>
          Searching.start h.ties h.homed (namedDir_receives h.ties hdir).listed fun x hx => absurd hx (by simp)
      · exact h
    · exact h
  | readdir i =>
    unfold Listing.step Listing.readdir
    simp only
    split_ifs with hin
    · split
      · next o ho => exact h.setDsc fun _ => (h.search i hin).advance h.ties h.homed ho
      · exact h
    · exact h
  | rewinddir i =>
    unfold Listing.step
    simp only
    split_ifs with hin
    · have hold := h.search i hin
      exact h.setDsc fun _ => Searching.start h.ties h.homed hold.listed hold.visited.cursor
    · exact h
  | closedir i =>
    unfold Listing.step
    simp only
    split_ifs
    · exact h.setDsc fun hc => absurd hc (by simp)
    · exact h

theorem Sound.run (cs : List ListCall) : ∀ s : Listing, s.Sound → relinkFree g e nDsc s cs = true →
    (s.run g e nDsc cs).Sound := by
  induction cs with
  | nil => exact fun s h _ => h
  | cons c cs ih =>
    intro s h hring
    simp only [relinkFree, Bool.and_eq_true, Bool.not_eq_true'] at hring
    exact ih _ (h.step c hring.1) hring.2

end Listing

theorem initialObj_children (p : ℕ) :
    (initialObj p).children = if p = objectIdRoot then [objectIdLostNFound] else [] := by
  unfold initialObj
  split_ifs <;> rfl

theorem freshDev_homed (g : Geometry) (bad : ℕ → Bool) : Homed (freshDev g bad) := by
  have hmem : ∀ p, ∀ o ∈ (initialObj p).children, p = objectIdRoot ∧ o = objectIdLostNFound := by
    intro p o ho
    rw [initialObj_children] at ho
    split_ifs at ho with hp
    · exact ⟨hp, List.mem_singleton.mp ho⟩
    · exact absurd ho List.not_mem_nil
  refine ⟨fun p _ => ?_, fun p _ o ho => ?_, fun p _ o ho => ?_, fun p hp => ?_⟩
  · change (initialObj p).children.Nodup
    rw [initialObj_children]
    split_ifs <;> simp
  · obtain ⟨rfl, rfl⟩ := hmem p o ho
    rfl
  · obtain ⟨rfl, rfl⟩ := hmem p o ho
    exact ⟨List.mem_cons_self, rfl, rfl⟩
  · change (initialObj p).children = []
    rw [initialObj_children, if_neg]
    rintro rfl
    exact hp (List.mem_cons_of_mem _ List.mem_cons_self)

theorem freshListing_sound (g : Geometry) (bad : ℕ → Bool) : (freshListing g bad).Sound where
  ties := freshDev_tied g bad
  homed := freshDev_homed g bad
  search i hi := absurd hi (by simp [freshListing])

/-- A file and its hard link in the root, and another file. The root is listed while the first file is
unlinked and a third one is made. -/
def sampleListing : List ListCall :=
  [.core (.create .file objectIdRoot "a".toList []), .core (.create .file objectIdRoot "c".toList []),
    .core (.link objectIdRoot "b".toList 257), .opendir objectIdRoot, .readdir 0, .core (.unlink 257),
    .core (.create .file objectIdRoot "d".toList []), .readdir 0, .readdir 0]

/-- The root holds a file and its hard link, and is listed. -/
def sampleLinks : Listing :=
  (freshListing sampleGeometry fun _ => false).run sampleGeometry okEnv 20
    [.core (.create .file objectIdRoot "a".toList []), .core (.link objectIdRoot "b".toList 257), .opendir objectIdRoot]

end Yaffs

import Yaffs.Evolve
import Yaffs.Run

/-!
# Lifetime of objects

Objects of every type are created and linked, hooked to inodes, and deleted when they are
released; they stay tied together. A device mounted on blank flash starts so.
-/

namespace Yaffs

variable {g : Geometry} {e : Env} {d : Dev} {o : ℕ}

/-! ## Inodes -/

/-- Only `my_inode` of one object has changed, and it fits. -/
theorem Ties.setInode {ids list : List ℕ} {obj : ℕ → Obj} (h : Ties [] ids list obj) {i : Option ℕ}
    (hi : i.isSome → o ∈ ids ∧ ((obj o).variantType = .file ∨ (obj o).variantType = .directory) ∧
      (obj o).deleted = false) :
    Ties [] ids list (Function.update obj o { obj o with myInode := i }) := by
  have hobj : ∀ q, Function.update obj o { obj o with myInode := i } q =
      { obj q with myInode := if q = o then i else (obj q).myInode } := by
    intro q
    by_cases hq : q = o
    · subst hq
      simp
    · simp [hq]
  exact
    { nodup := h.nodup
      initial := fun q hq => by rw [hobj]; exact h.initial q hq
      hooked := fun q hq => by
        rw [hobj] at hq ⊢
        by_cases hqo : q = o
        · subst hqo
          simp only [if_true] at hq
          exact hi hq
        · simp only [if_neg hqo] at hq
          exact h.hooked q hq
      kept := fun q => by rw [hobj]; exact h.kept q
      soft := fun q hq => by rw [hobj] at hq ⊢; exact h.soft q hq
      clean := fun q hq => by rw [hobj]; exact h.clean q hq
      ring := fun q hq l hl => by
        rw [hobj] at hl
        rw [hobj]
        exact h.ring q hq l hl
      ringNodup := fun q => by rw [hobj]; exact h.ringNodup q
      parent := fun q hq r hr => by
        rw [hobj] at hr
        rw [hobj]
        exact h.parent q hq r hr
      empty := fun q hq => by rw [hobj] at hq ⊢; exact h.empty q hq
      noRing := fun q hq => by rw [hobj] at hq ⊢; exact h.noRing q hq
      childless := fun q hq => by rw [hobj] at hq ⊢; exact h.childless q hq }

/-- An object is deleted if it has left the hash table or is marked so. -/
def IsGone (d : Dev) (o : ℕ) : Prop :=
  o ∈ d.ids → (d.obj o).deleted = true

/-- Releasing the inode of an object. -/
structure Released (o : ℕ) (d d' : Dev) : Prop where
  ties : Tied [] d'
  ids : d'.ids.Sublist d.ids
  inode : ∀ q, q ≠ o → (d'.obj q).myInode = (d.obj q).myInode
  unlinked : ∀ q, (d.obj q).unlinked = true → (d'.obj q).unlinked = true
  deleted : ∀ q, (d.obj q).deleted = true → (d'.obj q).deleted = true
  gone : (d.obj o).unlinked = true → IsGone d' o

theorem releaseInode_released (h : Tied [] d) (hin : (d.obj o).myInode.isSome) :
    Released o d (releaseInode g e o d) := by
  obtain ⟨hid, htype, hdel⟩ := h.hooked o hin
  have hsoft := h.notSoft hin
  have hties : Tied [] (d.modObj o fun ob => { ob with myInode := none }) := h.setInode (by simp)
  have hself : (d.modObj o fun ob => { ob with myInode := none }).obj o = { d.obj o with myInode := none } := by
    simp [Dev.modObj]
  have hne : ∀ q, q ≠ o → (d.modObj o fun ob => { ob with myInode := none }).obj q = d.obj q :=
    fun q hq => by simp [Dev.modObj, hq]
  have hun : ∀ q, ((d.modObj o fun ob => { ob with myInode := none }).obj q).unlinked = (d.obj q).unlinked := by
    intro q
    by_cases hq : q = o
    · rw [hq, hself]
    · rw [hne q hq]
  have hdeleted : ∀ q, ((d.modObj o fun ob => { ob with myInode := none }).obj q).deleted = (d.obj q).deleted := by
    intro q
    by_cases hq : q = o
    · rw [hq, hself]
    · rw [hne q hq]
  have hids : (d.modObj o fun ob => { ob with myInode := none }).ids = d.ids := rfl
  unfold releaseInode
  simp only
  split_ifs with hunl
  · have hgone : Evolves [] [o] (d.modObj o fun ob => { ob with myInode := none })
          (delObj g e o (d.modObj o fun ob => { ob with myInode := none })).1 ∧
        IsGone (delObj g e o (d.modObj o fun ob => { ob with myInode := none })).1 o := by
      generalize d.modObj o (fun ob => { ob with myInode := none }) = x at *
      have hin' : (x.obj o).myInode = none := by rw [hself]
      have hs' : (x.obj o).softDel = false := by rw [hself]; exact hsoft
      have hinitial : o ∉ initialDirs := fun hi => by
        rw [(hties.initial o hi).2.2.1] at hunl
        exact Bool.noConfusion hunl
      rcases htype with htype | htype
      · have ht : (x.obj o).variantType = .file := by rw [hself]; exact htype
        rw [delObj_file ht]
        have := delFile_gone (g := g) (e := e) hties ht hin' hs'
        exact ⟨this.evolves, fun hm => (this.gone hm).2⟩
      · have ht : (x.obj o).variantType = .directory := by rw [hself]; exact htype
        rw [delObj_directory ht]
        have := delDir_evolves (g := g) (e := e) hties hinitial ht hin' hs'
        exact ⟨this.1, fun hm => absurd hm (this.2 (hties.empty o hunl))⟩
    obtain ⟨hev, hgone⟩ := hgone
    exact ⟨hev.ties, hev.ids, fun q hq => (hev.inode q).trans (by rw [hne q hq]),
      fun q hq => hev.unlinked q ((hun q).trans hq), fun q hq => hev.deleted q ((hdeleted q).trans hq), fun _ => hgone⟩
  · rw [hun] at hunl
    exact ⟨hties, List.Sublist.refl _, fun q hq => by rw [hne q hq], fun q hq => (hun q).trans hq,
      fun q hq => (hdeleted q).trans hq, fun h => absurd h hunl⟩

theorem hookInode_tied (h : Tied [] d) (hid : o ∈ d.ids)
    (htype : (d.obj o).variantType = .file ∨ (d.obj o).variantType = .directory)
    (hdel : (d.obj o).deleted = false) (i : ℕ) : Tied [] (hookInode i o d) :=
  h.setInode fun _ => ⟨hid, htype, hdel⟩

theorem initialObj_dir {o : ℕ} (h : o ∈ initialDirs) : (initialObj o).variantType = .directory ∧
    (initialObj o).unlinked = false ∧ (initialObj o).unlinkAllowed = false := by
  simp only [initialDirs, List.mem_cons, List.not_mem_nil, or_false] at h
  rcases h with rfl | rfl | rfl | rfl <;> decide

theorem initialObj_eq (o : ℕ) : initialObj o = {} ∨ o ∈ initialDirs ∧ ∃ parent children,
    initialObj o = { variantType := .directory, fake := true, parent := parent, children := children } := by
  unfold initialObj
  split_ifs with h1 h2 h3
  · exact Or.inr ⟨by simp [initialDirs, h1], none, _, rfl⟩
  · exact Or.inr ⟨by simp [initialDirs, h2], _, [], rfl⟩
  · exact Or.inr ⟨by rcases h3 with rfl | rfl <;> simp [initialDirs], none, [], rfl⟩
  · exact Or.inl rfl

/-- The objects of a device mounted on blank flash are tied together. -/
theorem freshDev_tied (g : Geometry) (bad : ℕ → Bool) : Tied [] (freshDev g bad) := by
  have hplain : ∀ o, (initialObj o).myInode = none ∧ (initialObj o).deferredFree = false ∧
      (initialObj o).softDel = false ∧ (initialObj o).hardLinks = [] ∧ (initialObj o).unlinked = false := by
    intro o
    rcases initialObj_eq o with h | ⟨-, parent, children, h⟩ <;> rw [h] <;> exact ⟨rfl, rfl, rfl, rfl, rfl⟩
  exact
    { nodup := by
        change [objectIdLostNFound, objectIdRoot, objectIdDeleted, objectIdUnlinked].Nodup
        decide
      initial := fun o ho => by
        refine ⟨?_, initialObj_dir ho⟩
        have hsub : initialDirs ⊆ [objectIdLostNFound, objectIdRoot, objectIdDeleted, objectIdUnlinked] := by decide
        exact hsub ho
      hooked := fun o ho => by
        have : (initialObj o).myInode.isSome := ho
        rw [(hplain o).1] at this
        exact absurd this (by decide)
      kept := fun o => (hplain o).2.1
      soft := fun o ho => by
        have : (initialObj o).softDel = true := ho
        rw [(hplain o).2.2.1] at this
        exact absurd this (by decide)
      clean := fun o ho => absurd ho List.not_mem_nil
      ring := fun q _ l hl => by
        have : l ∈ (initialObj q).hardLinks := hl
        rw [(hplain q).2.2.2.1] at this
        exact absurd this List.not_mem_nil
      ringNodup := fun q => by
        change (initialObj q).hardLinks.Nodup
        rw [(hplain q).2.2.2.1]
        exact List.nodup_nil
      parent := fun o ho q hq => by
        have hq : (initialObj o).parent = some q := hq
        have hids : o ∈ [objectIdLostNFound, objectIdRoot, objectIdDeleted, objectIdUnlinked] := ho
        simp only [List.mem_cons, List.not_mem_nil, or_false] at hids
        change q ∈ [objectIdLostNFound, objectIdRoot, objectIdDeleted, objectIdUnlinked] ∧
          (initialObj q).variantType = .directory ∧ o ∈ (initialObj q).children
        rcases hids with rfl | rfl | rfl | rfl
        · obtain rfl : objectIdRoot = q := Option.some.inj hq
          decide
        all_goals exact absurd (show none = some q from hq) (by simp)
      empty := fun o ho => by
        have : (initialObj o).unlinked = true := ho
        rw [(hplain o).2.2.2.2] at this
        exact absurd this (by decide)
      noRing := fun o _ => (hplain o).2.2.2.1
      childless := fun o ho => by
        change (initialObj o).children = []
        rcases initialObj_eq o with h | ⟨hm, -⟩
        · rw [h]
        · exact absurd (initialObj_dir hm).1 ho }

/-! ## Creating -/

/-- A hard link joins the ring of its object. -/
theorem Ties.link {ids list : List ℕ} {obj : ℕ → Obj} {n q : ℕ} (h : Ties [] ids list obj) (hn : n ∈ ids)
    (hq : q ∈ ids) (htype : (obj n).variantType = .hardlink) (hfree : (obj n).equivObj = none)
    (hring : (obj n).hardLinks = []) (hqt : (obj q).variantType ≠ .directory) :
    Ties [] ids list fun o =>
      { obj o with
        hardLinks := if o = q then n :: (obj o).hardLinks else (obj o).hardLinks
        equivId := if o = n then q else (obj o).equivId
        equivObj := if o = n then some q else (obj o).equivObj } := by
  -- no ring held the link before, since it had no object
  have hno : ∀ o ∈ ids, n ∉ (obj o).hardLinks := fun o ho hl => by
    have := (h.ring o ho n hl).2.2
    rw [hfree] at this
    exact absurd this (by simp)
  exact
    { nodup := h.nodup
      initial := h.initial
      hooked := h.hooked
      kept := h.kept
      soft := h.soft
      clean := h.clean
      ring := fun o ho l hl => by
        by_cases hln : l = n
        · subst hln
          simp only at hl ⊢
          by_cases hoq : o = q
          · subst hoq
            exact ⟨hn, htype, by simp⟩
          · rw [if_neg hoq] at hl
            exact absurd hl (hno o ho)
        · have hl' : l ∈ (obj o).hardLinks := by
            simp only at hl
            split_ifs at hl
            · exact (List.mem_cons.mp hl).resolve_left hln
            · exact hl
          obtain ⟨hlm, hlt, hle⟩ := h.ring o ho l hl'
          exact ⟨hlm, hlt, by simp only [if_neg hln]; exact hle⟩
      ringNodup := fun o => by
        simp only
        split_ifs with hoq
        · exact List.nodup_cons.mpr ⟨hoq ▸ hno q hq, h.ringNodup o⟩
        · exact h.ringNodup o
      parent := h.parent
      empty := h.empty
      noRing := fun o ho => by
        simp only
        rw [if_neg fun hoq : o = q => hqt (hoq ▸ ho)]
        exact h.noRing o ho
      childless := h.childless }

/-- Another object than the new one : of the same type, as hooked and as softly deleted. -/
structure Bystander (ob ob' : Obj) : Prop where
  type : ob'.variantType = ob.variantType
  softDel : ob'.softDel = ob.softDel
  inode : ob'.myInode = ob.myInode
  deleted : ob'.deleted = ob.deleted

theorem Bystander.refl (ob : Obj) : Bystander ob ob :=
  ⟨rfl, rfl, rfl, rfl⟩

theorem Bystander.trans {ob ob' ob'' : Obj} (h : Bystander ob ob') (h' : Bystander ob' ob'') : Bystander ob ob'' :=
  ⟨h'.type.trans h.type, h'.softDel.trans h.softDel, h'.inode.trans h.inode, h'.deleted.trans h.deleted⟩

theorem SameTies.bystander {d' : Dev} (h : SameTies d d') (q : ℕ) : Bystander (d.obj q) (d'.obj q) :=
  ⟨h.get Obj.variantType q, h.get Obj.softDel q, h.get Obj.myInode q, h.get Obj.deleted q⟩

theorem Bystander.modObj {q : ℕ} (f : Obj → Obj) (hq : q ≠ o ∨ Bystander (d.obj o) (f (d.obj o))) :
    Bystander (d.obj q) ((d.modObj o f).obj q) := by
  by_cases hqo : q = o
  · subst hqo
    simpa [Dev.modObj] using hq
  · simp only [Dev.modObj, Function.update_of_ne hqo]
    exact Bystander.refl _

theorem addObjToDir_bystander (dir o q : ℕ) (d : Dev) : Bystander (d.obj q) ((addObjToDir dir o d).obj q) := by
  have hobj := addObjToDir_obj dir o d q
  exact ⟨(congrArg Obj.variantType hobj : _), (congrArg Obj.softDel hobj : _), (congrArg Obj.myInode hobj : _),
    (congrArg Obj.deleted hobj : _)⟩

/-- To the other objects nothing happens but that the new one lies in lost+found. -/
theorem newObj_others (type : ObjType) {n q : ℕ} (hn : (newObj g e type d).2 = some n) (hq : q ≠ n) :
    ((newObj g e type d).1.obj q).ties =
      { (d.obj q).ties with
        children := if q = objectIdLostNFound then n :: (d.obj q).children else (d.obj q).children } := by
  have hbucket := findNiceBucket_sameTies d
  unfold newObj at hn ⊢
  simp only at hn ⊢
  have htnode : SameTies d (if type = .file then (newObjId d).1.onBlocks (getTnode e) else ((newObjId d).1, true)).1 := by
    split_ifs
    · exact hbucket.trans (onBlocks_sameTies _ (getTnode e))
    · exact hbucket
  generalize (if type = .file then (newObjId d).1.onBlocks (getTnode e) else ((newObjId d).1, true)) = r at *
  generalize (newObjId d).2 = m at *
  cases hr : r.2
  · simp [hr] at hn
  · simp only [hr, if_true] at hn ⊢
    have hcall := htnode.trans (SameTies.mapBlocks r.1 fun b =>
      { b with nand := { b.nand with calls := b.nand.calls + 1 } })
    unfold allocEmptyObj at hn ⊢
    simp only at hn ⊢
    cases hok : e.allocOk r.1.nand.calls
    · simp [hok] at hn
    · simp only [hok, if_true, Option.some.injEq] at hn ⊢
      subst hn
      generalize r.1.mapBlocks (fun b => { b with nand := { b.nand with calls := b.nand.calls + 1 } }) = x at *
      have hself : (((x.modObj m fun _ => { parent := some objectIdRoot }).modObj objectIdRoot
          fun ob => { ob with children := m :: ob.children }).obj m).parent = some objectIdRoot := by
        by_cases hm : m = objectIdRoot <;> simp [Dev.modObj, hm]
      have hother : ((x.modObj m fun _ => { parent := some objectIdRoot }).modObj objectIdRoot
          fun ob => { ob with children := m :: ob.children }).obj q =
          { x.obj q with
            children := if q = objectIdRoot then m :: (x.obj q).children else (x.obj q).children } := by
        by_cases hqr : q = objectIdRoot
        · subst hqr
          simp [Dev.modObj, hq]
        · simp [Dev.modObj, hq, hqr]
      generalize (x.modObj m fun _ => { parent := some objectIdRoot }).modObj objectIdRoot
        (fun ob => { ob with children := m :: ob.children }) = y at *
      have hinit : ∀ z : Dev, (initObj g m type z).obj q = z.obj q := fun z => by
        simp only [initObj, hashObj, Dev.modObj, Function.update_of_ne hq]
      have hch : (x.obj q).children = (d.obj q).children := hcall.get Obj.children q
      have hplace : ∀ z : Dev, z.obj = y.obj → ((addObjToDir objectIdLostNFound m z).obj q).ties =
          { (x.obj q).ties with
            children := if q = objectIdLostNFound then m :: (x.obj q).children else (x.obj q).children } := by
        intro z hz
        have hleft : leftChildren z m q = (x.obj q).children := by
          unfold leftChildren
          rw [hz, hself, hother]
          by_cases hqr : q = objectIdRoot
          · simp [hqr]
          · simp [hqr, Ne.symm hqr]
        rw [addObjToDir_obj, hleft, hz, hother]
        simp only [hq, if_false, false_and, decide_false, Bool.or_false]
        rfl
      rw [hinit]
      refine (hplace { y with nObj := y.nObj + 1 } rfl).trans ?_
      rw [hcall.obj q, hch]

theorem newObj_bystander (type : ObjType) {n q : ℕ} (hn : (newObj g e type d).2 = some n) (hq : q ≠ n) :
    Bystander (d.obj q) ((newObj g e type d).1.obj q) := by
  have hobj := newObj_others type hn hq
  exact ⟨(congrArg Obj.variantType hobj : _), (congrArg Obj.softDel hobj : _), (congrArg Obj.myInode hobj : _),
    (congrArg Obj.deleted hobj : _)⟩

theorem addObjToDir_ids (dir o : ℕ) (d : Dev) : (addObjToDir dir o d).ids = d.ids := by
  unfold addObjToDir removeObjFromDir
  cases (d.obj o).parent <;> simp only <;> split_ifs <;> rfl

theorem allocEmptyObj_ids (o : ℕ) (d : Dev) : (allocEmptyObj e o d).1.ids = d.ids := by
  unfold allocEmptyObj
  dsimp only
  cases e.allocOk d.nand.calls with
  | false => rfl
  | true => exact addObjToDir_ids objectIdLostNFound o _

/-- A new object enters the hash table with the number that was chosen. -/
theorem newObj_ids (type : ObjType) (d : Dev) :
    (newObj g e type d).1.ids = d.ids ∧ (newObj g e type d).2 = none ∨
    (newObj g e type d).1.ids = (newObjId d).2 :: d.ids ∧ (newObj g e type d).2 = some (newObjId d).2 := by
  have hids : (newObjId d).1.ids = d.ids := (findNiceBucket_sameTies d).ids
  unfold newObj
  generalize newObjId d = r at hids ⊢
  dsimp only
  generalize hq : (if type = .file then r.1.onBlocks (getTnode e) else (r.1, true)) = q
  have hqids : q.1.ids = d.ids := by
    rw [← hq]
    split_ifs <;> exact hids
  have halloc : (allocEmptyObj e r.2 q.1).1.ids = d.ids := (allocEmptyObj_ids r.2 q.1).trans hqids
  split_ifs
  · exact Or.inr ⟨congrArg (r.2 :: ·) halloc, rfl⟩
  · exact Or.inl ⟨halloc, rfl⟩
  · exact Or.inl ⟨halloc, rfl⟩
  · exact Or.inl ⟨hqids, rfl⟩

theorem newObj_hashed (type : ObjType) {n : ℕ} (hn : (newObj g e type d).2 = some n) :
    (newObj g e type d).1.ids = n :: d.ids := by
  rcases newObj_ids (g := g) (e := e) type d with ⟨-, hnone⟩ | ⟨hids, hsome⟩
  · rw [hnone] at hn
    exact absurd hn (by simp)
  · rw [hids, ← Option.some.inj (hsome.symm.trans hn)]

/-- A new object has been set up in its directory. -/
structure SetUp (type : ObjType) (n : ℕ) (d d' : Dev) : Prop where
  ties : Tied [] d'
  new : n ∉ d.ids
  ids : d'.ids = n :: d.ids
  bystander : ∀ q, q ≠ n → Bystander (d.obj q) (d'.obj q)
  type : (d'.obj n).variantType = type
  plain : (d'.obj n).softDel = false ∧ (d'.obj n).deleted = false ∧ (d'.obj n).myInode = none ∧
    (d'.obj n).unlinked = false

theorem setupObj_setUp {type : ObjType} {n parent equiv : ℕ} {d' : Dev} (h : NewObj type n d d')
    (hids : d'.ids = n :: d.ids) (hby : ∀ q, q ≠ n → Bystander (d.obj q) (d'.obj q)) (hp : parent ∈ d.ids)
    (htype : (d.obj parent).variantType = .directory) (hun : (d.obj parent).unlinked = false)
    (hplain : ¬(parent = objectIdUnlinked ∨ parent = objectIdDeleted))
    (hlink : type = .hardlink → equiv ∈ d.ids ∧ (d.obj equiv).variantType ≠ .directory)
    (name : Name) (aliasStr : Option Name) :
    SetUp type n d (setupObj n parent type name equiv aliasStr d') := by
  have hpn : parent ≠ n := fun heq => h.new (heq ▸ hp)
  have hname : SameTies d' (d'.modObj n fun ob => { setObjName n name ob with dirty := true }) :=
    SameTies.modObj (setObjName_ties n name _)
  have hplace := (h.place parent hpn).trans (hname.place parent)
  have hev := hname.evolves h.creates.ties
  have hmem := hname.ids.symm ▸ h.kept parent hp
  have hmove := addObjToDir_evolves (o := n) hev.ties hmem (hplace.type.trans htype)
    (hplace.unlinked.trans hun) fun hd => absurd hd hplain
  -- the object in its directory, still without what its type adds
  have hself : ((addObjToDir parent n (d'.modObj n fun ob => { setObjName n name ob with dirty := true })).obj n).unplaced =
      { variantType := type, unlinkAllowed := true } := by
    have := congrArg Obj.unplaced (addObjToDir_obj parent n
      (d'.modObj n fun ob => { setObjName n name ob with dirty := true }) n)
    refine Eq.trans this ?_
    rw [(hname.obj n).trans h.ties]
    rfl
  have hunl : ((addObjToDir parent n (d'.modObj n fun ob => { setObjName n name ob with dirty := true })).obj n).unlinked =
      false := by
    have := congrArg Obj.unlinked (addObjToDir_obj parent n
      (d'.modObj n fun ob => { setObjName n name ob with dirty := true }) n)
    refine Eq.trans this ?_
    simp only [hplain, and_false, decide_false, Bool.or_false]
    exact congrArg Obj.unlinked ((hname.obj n).trans h.ties)
  have hids' := (addObjToDir_ids parent n (d'.modObj n fun ob => { setObjName n name ob with dirty := true })).trans hids
  have hby' : ∀ q, q ≠ n → Bystander (d.obj q)
      ((addObjToDir parent n (d'.modObj n fun ob => { setObjName n name ob with dirty := true })).obj q) :=
    fun q hq => ((hby q hq).trans (hname.bystander q)).trans (addObjToDir_bystander _ _ _ _)
  have hties := hmove.ties
  unfold setupObj
  simp only
  generalize addObjToDir parent n (d'.modObj n fun ob => { setObjName n name ob with dirty := true }) = x at *
  have hget : ∀ {α : Type} (k : Obj → α), k (x.obj n).unplaced = k { variantType := type, unlinkAllowed := true } :=
    fun k => congrArg k hself
  have hx : SetUp type n d x :=
    ⟨hties, h.new, hids', hby', hget Obj.variantType,
      hget Obj.softDel, hget Obj.deleted, hget Obj.myInode, hunl⟩
  cases type with
  | symlink =>
    have halias : SameTies x (x.modObj n fun ob => { ob with aliasName := aliasStr }) := SameTies.modObj rfl
    exact ⟨(halias.evolves hties).ties, h.new, hids', fun q hq => (hby' q hq).trans (halias.bystander q),
      (halias.get Obj.variantType n).trans hx.type, (halias.get Obj.softDel n).trans hx.plain.1,
      (halias.get Obj.deleted n).trans hx.plain.2.1, (halias.get Obj.myInode n).trans hx.plain.2.2.1,
      (halias.get Obj.unlinked n).trans hx.plain.2.2.2⟩
  | hardlink =>
    obtain ⟨hq, hqt⟩ := hlink rfl
    have hqn : equiv ≠ n := fun heq => h.new (heq ▸ hq)
    have hmemn : n ∈ x.ids := hids' ▸ List.mem_cons_self
    have hmemq : equiv ∈ x.ids := hids' ▸ List.mem_cons_of_mem _ hq
    have hring := hties.link hmemn hmemq (hget Obj.variantType) (hget Obj.equivObj) (hget Obj.hardLinks)
      (by rw [(hby' equiv hqn).type]; exact hqt)
    have hobj : ∀ q, (((x.modObj n fun ob => { ob with equivObj := some equiv, equivId := equiv }).modObj equiv
        fun ob => { ob with hardLinks := n :: ob.hardLinks }).obj q) =
        { x.obj q with
          hardLinks := if q = equiv then n :: (x.obj q).hardLinks else (x.obj q).hardLinks
          equivId := if q = n then equiv else (x.obj q).equivId
          equivObj := if q = n then some equiv else (x.obj q).equivObj } := by
      intro q
      by_cases hqe : q = equiv
      · subst hqe
        simp [Dev.modObj, hqn]
      · by_cases hqn' : q = n
        · subst hqn'
          simp [Dev.modObj, hqe]
        · simp [Dev.modObj, hqe, hqn']
    refine ⟨?_, h.new, hids', fun q hq => (hby' q hq).trans ?_, ?_, ?_⟩
    · unfold Tied
      rw [show ((x.modObj n fun ob => { ob with equivObj := some equiv, equivId := equiv }).modObj equiv
        fun ob => { ob with hardLinks := n :: ob.hardLinks }).obj = _ from funext hobj]
      exact hring
    · rw [hobj]
      exact ⟨rfl, rfl, rfl, rfl⟩
    · rw [hobj]
      exact hx.type
    · rw [hobj]
      exact hx.plain
  | _ => exact hx

/-! ## Deleting -/

theorem delObj_evolves (h : Tied [] d) (ho : o ∉ initialDirs) (hin : (d.obj o).myInode = none)
    (hs : (d.obj o).softDel = false) : Evolves [] [o] d (delObj g e o d).1 := by
  unfold delObj
  cases htype : (d.obj o).variantType with
  | file => exact (delFile_gone h htype hin hs).evolves
  | directory => exact (delDir_evolves h ho htype hin hs).1
  | symlink => exact delSymlink_evolves h htype hs
  | hardlink => exact delLink_evolves h htype
  | special =>
    have hrem := h.removable ho (by simp [htype]) hin hs fun ht => by simp [htype] at ht
    exact (genericObjDel_evolves h hrem).1
  | unknown => exact Evolves.refl h
  | other _ => exact Evolves.refl h

end Yaffs

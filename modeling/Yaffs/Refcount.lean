import Mathlib.Data.Fintype.EquivFin
import Yaffs.Handle
import Yaffs.Lifetime

/-!
# Reference counts of handles and inodes

In every state a sequence of calls reaches, the counts of descriptors and inodes are the numbers
of their users, and an object that was unlinked while it was open is deleted once, when its
last descriptor goes.

Releasing changes the tables one at a time, so that a count is one too high for a while :
`Counted` says by how much the counts are off.
-/

namespace Yaffs

open Tally

/-! ## Counts -/

section Counts

/-- The handle is open and refers to the descriptor `f`. -/
def Handle.refers (f : ℕ) (h : Handle) : Bool :=
  decide (0 < h.useCount) && decide (h.fdId = some f)

/-- The descriptor is open and refers to the inode `i`. -/
def FileDes.refers (i : ℕ) (fd : FileDes) : Bool :=
  decide (0 < fd.handleCount) && decide (fd.inodeId = some i)

variable (p : VfsParam)

/-- The number of open handles of a descriptor. -/
def openHandles (s : Vfs) (f : ℕ) : ℕ :=
  (List.range p.nHandles).countP fun h => (s.handle h).refers f

/-- The number of open descriptors of an inode. -/
def openFds (s : Vfs) (i : ℕ) : ℕ :=
  (List.range p.nHandles).countP fun f => (s.fd f).refers i

/-- The counts are right but for `δ` in the descriptors and `ε` in the inodes. -/
structure Counted (δ ε : ℕ → ℤ) (s : Vfs) : Prop where
  handleCount : ∀ f < p.nHandles, (s.fd f).handleCount = openHandles p s f + δ f
  count : ∀ i < p.nHandles, (s.inode i).count = openFds p s i + ε i

variable {p} {s : Vfs} {δ ε : ℕ → ℤ}

theorem openHandles_update {h : ℕ} (hh : h < p.nHandles) (hd : Handle) (f : ℕ) :
    (openHandles p { s with handle := Function.update s.handle h hd } f : ℤ) =
      openHandles p s f - (if (s.handle h).refers f then 1 else 0) + if hd.refers f then 1 else 0 := by
  unfold openHandles
  rw [← tally_indicator, ← tally_indicator]
  exact tally_update List.nodup_range (List.mem_range.mpr hh) _ _ _

theorem openFds_update {f : ℕ} (hf : f < p.nHandles) (fd : FileDes) (i : ℕ) :
    (openFds p { s with fd := Function.update s.fd f fd } i : ℤ) =
      openFds p s i - (if (s.fd f).refers i then 1 else 0) + if fd.refers i then 1 else 0 := by
  unfold openFds
  rw [← tally_indicator, ← tally_indicator]
  exact tally_update List.nodup_range (List.mem_range.mpr hf) _ _ _

/-- A handle changes, and the counts of descriptors are off by the difference. -/
theorem Counted.modHandle (hc : Counted p δ ε s) {h : ℕ} (hh : h < p.nHandles) {u : Handle → Handle}
    {δ' : ℕ → ℤ} (hδ : ∀ f < p.nHandles, δ' f + (if (u (s.handle h)).refers f then 1 else 0) =
      δ f + if (s.handle h).refers f then 1 else 0) : Counted p δ' ε (s.modHandle h u) where
  handleCount f hf := by
    have h1 : (openHandles p (s.modHandle h u) f : ℤ) = _ := openHandles_update hh (u (s.handle h)) f
    have h2 := hc.handleCount f hf
    have h3 := hδ f hf
    change (s.fd f).handleCount = _
    omega
  count := hc.count

/-- A descriptor changes, and the counts are off by the difference. -/
theorem Counted.modFd (hc : Counted p δ ε s) {f : ℕ} (hf : f < p.nHandles) {u : FileDes → FileDes}
    {δ' ε' : ℕ → ℤ} (hδ : ∀ f' < p.nHandles, δ' f' = δ f' +
      if f' = f then (u (s.fd f)).handleCount - (s.fd f).handleCount else 0)
    (hε : ∀ i < p.nHandles, ε' i + (if (u (s.fd f)).refers i then 1 else 0) =
      ε i + if (s.fd f).refers i then 1 else 0) : Counted p δ' ε' (s.modFd f u) where
  handleCount f' hf' := by
    have h2 := hc.handleCount f' hf'
    have h3 := hδ f' hf'
    have h4 : openHandles p (s.modFd f u) f' = openHandles p s f' := rfl
    by_cases hff : f' = f
    · subst hff
      simp only [Vfs.modFd, Function.update_self, if_true] at h3 ⊢
      change (u (s.fd f')).handleCount = (openHandles p s f' : ℤ) + δ' f'
      omega
    · simp only [hff, if_false] at h3
      simp only [Vfs.modFd, Function.update_of_ne hff]
      change (s.fd f').handleCount = (openHandles p s f' : ℤ) + δ' f'
      omega
  count i hi := by
    have h1 : (openFds p (s.modFd f u) i : ℤ) = _ := openFds_update hf (u (s.fd f)) i
    have h2 := hc.count i hi
    have h3 := hε i hi
    change (s.inode i).count = _
    omega

/-- The count of an inode changes. -/
theorem Counted.modInode (hc : Counted p δ ε s) {i : ℕ} {u : Inode → Inode} {ε' : ℕ → ℤ}
    (hε : ∀ j < p.nHandles, ε' j = ε j + if j = i then (u (s.inode i)).count - (s.inode i).count else 0) :
    Counted p δ ε' (s.modInode i u) where
  handleCount := hc.handleCount
  count j hj := by
    have h2 := hc.count j hj
    have h3 := hε j hj
    by_cases hji : j = i
    · subst hji
      simp only [Vfs.modInode, Function.update_self, if_true] at h3 ⊢
      change (u (s.inode j)).count = (openFds p s j : ℤ) + ε' j
      omega
    · simp only [hji, if_false] at h3
      simp only [Vfs.modInode, Function.update_of_ne hji]
      change (s.inode j).count = (openFds p s j : ℤ) + ε' j
      omega

end Counts

/-! ## The invariant -/

section Invariant

variable (p : VfsParam)

/-- The object is open : an inode holds it. -/
def Opened (s : Vfs) (r : ObjRef) : Prop :=
  ∃ i < p.nHandles, (s.inode i).iObj = some r

/-- The tables and the devices fit together, but for the counts. -/
structure VfsInv (δ ε : ℕ → ℤ) (s : Vfs) : Prop extends Counted p δ ε s where
  iObj : ∀ i < p.nHandles, (s.inode i).iObj.isSome ↔ 0 < (s.inode i).count
  myInode : ∀ i < p.nHandles, ∀ r, (s.inode i).iObj = some r → (s.obj r).myInode = some i
  tied : ∀ i, Tied [] (s.dev i)
  once : ∀ r, s.deletions r ≤ 1
  opened : ∀ r, Opened p s r → s.deletions r = 0
  linked : ∀ r, r.obj ∈ (s.dev r.dev).ids → (s.obj r).unlinked = false → s.deletions r = 0

/-- The core has run, and let go of no object. -/
structure Steady (s s' : Vfs) : Prop where
  iObj : ∀ i, (s'.inode i).iObj = (s.inode i).iObj
  deletions : s'.deletions = s.deletions
  unlinked : ∀ r, (s.obj r).unlinked = true → (s'.obj r).unlinked = true
  gone : ∀ r : ObjRef, IsGone (s.dev r.dev) r.obj → IsGone (s'.dev r.dev) r.obj

/-- No object is opened, let go of or deleted. -/
structure Retains (s s' : Vfs) : Prop where
  opened : ∀ r, Opened p s' r ↔ Opened p s r
  unlinked : ∀ r, Opened p s r → (s.obj r).unlinked = true → (s'.obj r).unlinked = true
  deletions : s'.deletions = s.deletions

/-- An object that is let go of while it is unlinked is deleted, and no other is. -/
structure Releases (s s' : Vfs) : Prop where
  unlinked : ∀ r, Opened p s r → (s.obj r).unlinked = true → (s'.obj r).unlinked = true
  held : ∀ r, Opened p s r → (s.obj r).unlinked = true →
    Opened p s' r ∨ s'.deletions r = 1 ∧ IsGone (s'.dev r.dev) r.obj
  only : ∀ r, s'.deletions r ≠ s.deletions r → Opened p s r ∧ ¬Opened p s' r

variable {p} {s s' s'' : Vfs} {δ ε : ℕ → ℤ}

theorem Steady.refl (s : Vfs) : Steady s s :=
  ⟨fun _ => rfl, rfl, fun _ h => h, fun _ h => h⟩

theorem Steady.trans (h : Steady s s') (h' : Steady s' s'') : Steady s s'' :=
  ⟨fun i => (h'.iObj i).trans (h.iObj i), h'.deletions.trans h.deletions, fun r hr => h'.unlinked r (h.unlinked r hr),
    fun r hr => h'.gone r (h.gone r hr)⟩

theorem Steady.opened (h : Steady s s') (r : ObjRef) : Opened p s' r ↔ Opened p s r := by
  unfold Opened
  simp only [h.iObj]

theorem Steady.retains (h : Steady s s') : Retains p s s' :=
  ⟨h.opened, fun r _ hu => h.unlinked r hu, h.deletions⟩

theorem Retains.trans (h : Retains p s s') (h' : Retains p s' s'') : Retains p s s'' :=
  ⟨fun r => (h'.opened r).trans (h.opened r),
    fun r hr hu => h'.unlinked r ((h.opened r).mpr hr) (h.unlinked r hr hu), h'.deletions.trans h.deletions⟩

theorem Retains.releases (h : Retains p s s') : Releases p s s' :=
  ⟨h.unlinked, fun r hr _ => Or.inl ((h.opened r).mpr hr), fun r hr => absurd (congrFun h.deletions r) hr⟩

theorem Steady.releases (h : Steady s s') : Releases p s s' :=
  Retains.releases (h.retains)

theorem Releases.after (h : Retains p s s') (h' : Releases p s' s'') : Releases p s s'' := by
  refine ⟨fun r hr hu => h'.unlinked r ((h.opened r).mpr hr) (h.unlinked r hr hu),
    fun r hr hu => h'.held r ((h.opened r).mpr hr) (h.unlinked r hr hu), fun r hr => ?_⟩
  rw [← h.deletions] at hr
  obtain ⟨h1, h2⟩ := h'.only r hr
  exact ⟨(h.opened r).mp h1, h2⟩

theorem Releases.before (h : Releases p s s') (h' : Steady s' s'') : Releases p s s'' := by
  refine ⟨fun r hr hu => h'.unlinked r (h.unlinked r hr hu), fun r hr hu => ?_, fun r hr => ?_⟩
  · rcases h.held r hr hu with ho | ⟨hd, hg⟩
    · exact Or.inl ((h'.opened r).mpr ho)
    · exact Or.inr ⟨by rw [h'.deletions]; exact hd, h'.gone r hg⟩
  · rw [h'.deletions] at hr
    obtain ⟨h1, h2⟩ := h.only r hr
    exact ⟨h1, fun ho => h2 ((h'.opened r).mp ho)⟩

/-! ### The core runs -/

theorem Vfs.onDev_obj (s : Vfs) (i : ℕ) (f : Dev → Dev) (r : ObjRef) :
    (s.onDev i f).obj r = if r.dev = i then (f (s.dev i)).obj r.obj else s.obj r := by
  unfold Vfs.obj Vfs.onDev
  split_ifs with hi
  · rw [hi]
    simp
  · simp [hi]

theorem Vfs.onDev_dev (s : Vfs) (i : ℕ) (f : Dev → Dev) (j : ℕ) :
    (s.onDev i f).dev j = if j = i then f (s.dev i) else s.dev j := by
  unfold Vfs.onDev
  split_ifs with hi
  · rw [hi]
    simp
  · simp [hi]

theorem VfsInv.onDev (h : VfsInv p δ ε s) {i : ℕ} {f : Dev → Dev} {S : List ℕ}
    (hev : Evolves [] S (s.dev i) (f (s.dev i))) :
    VfsInv p δ ε (s.onDev i f) ∧ Steady s (s.onDev i f) := by
  refine ⟨{ h with
    handleCount := h.handleCount
    count := h.count
    myInode := fun j hj r hr => ?_
    tied := fun j => ?_
    linked := fun r hid hun => ?_ }, fun _ => rfl, rfl, fun r hr => ?_, fun r hr => ?_⟩
  · rw [Vfs.onDev_obj]
    split_ifs with hri
    · rw [hev.inode, ← hri]
      exact h.myInode j hj r hr
    · exact h.myInode j hj r hr
  · rw [Vfs.onDev_dev]
    split_ifs
    · exact hev.ties
    · exact h.tied j
  · rw [Vfs.onDev_dev] at hid
    rw [Vfs.onDev_obj] at hun
    split_ifs at hid hun with hri
    · refine h.linked r (hri ▸ hev.ids.subset hid) ?_
      by_contra hu
      have := hev.unlinked r.obj (by rw [← hri]; simpa [Vfs.obj] using hu)
      rw [hun] at this
      exact Bool.noConfusion this
    · exact h.linked r hid hun
  · rw [Vfs.onDev_obj]
    split_ifs with hri
    · exact hev.unlinked r.obj (hri ▸ hr)
    · exact hr
  · rw [Vfs.onDev_dev]
    split_ifs with hri
    · exact fun hm => hev.deleted r.obj (hri ▸ hr (hri ▸ hev.ids.subset hm))
    · exact hr

theorem VfsInv.evolving (h : VfsInv p δ ε s) (i : ℕ) {f : Dev → Dev} (hf : Evolving [] f) :
    VfsInv p δ ε (s.onDev i f) ∧ Steady s (s.onDev i f) :=
  h.onDev (hf _ (h.tied i))

/-! ### Tables change -/

theorem VfsInv.tables (h : VfsInv p δ ε s) {δ' ε' : ℕ → ℤ} (hc : Counted p δ' ε' s')
    (hobj : ∀ i, (s'.inode i).iObj = (s.inode i).iObj)
    (hpos : ∀ i < p.nHandles, 0 < (s'.inode i).count ↔ 0 < (s.inode i).count)
    (hdev : s'.dev = s.dev) (hdel : s'.deletions = s.deletions) : VfsInv p δ' ε' s' where
  toCounted := hc
  iObj := fun i hi => by rw [hobj, hpos i hi]; exact h.iObj i hi
  myInode := by
    unfold Vfs.obj
    simp only [hobj, hdev]
    exact h.myInode
  tied := by rw [hdev]; exact h.tied
  once := by rw [hdel]; exact h.once
  opened := by
    unfold Opened
    simp only [hobj, hdel]
    exact h.opened
  linked := by
    unfold Vfs.obj
    rw [hdel, hdev]
    exact h.linked

theorem Steady.tables (hobj : ∀ i, (s'.inode i).iObj = (s.inode i).iObj) (hdev : s'.dev = s.dev)
    (hdel : s'.deletions = s.deletions) : Steady s s' := by
  refine ⟨hobj, hdel, fun r hr => ?_, fun r hr => ?_⟩
  · unfold Vfs.obj at hr ⊢
    rwa [hdev]
  · rwa [hdev]

/-- One more than the number of users. -/
def bump (i : ℕ) : ℕ → ℤ :=
  fun j => if j = i then 1 else 0

/-! ### Inodes are put back -/

/-- Only inodes and devices change. -/
theorem putInode_tables (i : ℕ) : (putInode p i s).dscInUse = s.dscInUse ∧ (putInode p i s).fd = s.fd ∧
    (putInode p i s).handle = s.handle := by
  unfold putInode releaseInodeAt
  simp only
  split_ifs
  · split <;> exact ⟨rfl, rfl, rfl⟩
  · exact ⟨rfl, rfl, rfl⟩
  · exact ⟨rfl, rfl, rfl⟩

theorem Opened.inode_eq (h : VfsInv p δ ε s) {i j : ℕ} {r : ObjRef} (hi : i < p.nHandles) (hj : j < p.nHandles)
    (hir : (s.inode i).iObj = some r) (hjr : (s.inode j).iObj = some r) : i = j := by
  have := (h.myInode i hi r hir).symm.trans (h.myInode j hj r hjr)
  exact Option.some.inj this

/-- The inode's last descriptor is gone, and the core has released its object. -/
theorem VfsInv.release {i : ℕ} {r : ObjRef} {d' : Dev} (h : VfsInv p δ ε s) (hi : i < p.nHandles)
    (hr : (s.inode i).iObj = some r) (hrel : Released r.obj (s.dev r.dev) d') {δ' ε' : ℕ → ℤ}
    (hc : Counted p δ' ε' s')
    (hinode : ∀ j, s'.inode j = if j = i then { iObj := none, count := 0 } else s.inode j)
    (hdev : ∀ j, s'.dev j = if j = r.dev then d' else s.dev j)
    (hdel : s'.deletions =
      if (s.obj r).unlinked then Function.update s.deletions r (s.deletions r + 1) else s.deletions) :
    VfsInv p δ' ε' s' ∧ Releases p s s' := by
  have hobj : ∀ q, s'.obj q = if q.dev = r.dev then d'.obj q.obj else s.obj q := by
    intro q
    unfold Vfs.obj
    rw [hdev]
    split_ifs <;> rfl
  have hopen : Opened p s r := ⟨i, hi, hr⟩
  have hzero := h.opened r hopen
  have hopened : ∀ q, Opened p s' q ↔ Opened p s q ∧ q ≠ r := by
    intro q
    unfold Opened
    refine ⟨?_, ?_⟩
    · rintro ⟨j, hj, hq⟩
      rw [hinode] at hq
      split_ifs at hq with hji
      refine ⟨⟨j, hj, hq⟩, ?_⟩
      rintro rfl
      exact hji (Opened.inode_eq h hj hi hq hr)
    · rintro ⟨⟨j, hj, hq⟩, hqr⟩
      refine ⟨j, hj, ?_⟩
      rw [hinode, if_neg]
      · exact hq
      · rintro rfl
        exact hqr (Option.some.inj (hq.symm.trans hr))
  have hne : ∀ q, q ≠ r → (if (s.obj r).unlinked then Function.update s.deletions r (s.deletions r + 1)
      else s.deletions) q = s.deletions q := by
    intro q hq
    split_ifs
    · rw [Function.update_of_ne hq]
    · rfl
  have hself : (if (s.obj r).unlinked then Function.update s.deletions r (s.deletions r + 1)
      else s.deletions) r = if (s.obj r).unlinked then 1 else 0 := by
    split_ifs
    · rw [Function.update_self, hzero]
    · exact hzero
  refine ⟨⟨hc, fun j hj => ?_, fun j hj q hq => ?_, fun j => ?_, fun q => ?_, fun q hq => ?_, fun q hid hun => ?_⟩,
    fun q _ hun => ?_, fun q hq hun => ?_, fun q hq => ?_⟩
  · rw [hinode]
    split_ifs
    · simp
    · exact h.iObj j hj
  · rw [hinode] at hq
    split_ifs at hq with hji
    rw [hobj]
    have hold := h.myInode j hj q hq
    split_ifs with hqd
    · rw [hrel.inode q.obj fun ho => ?_]
      · rw [← hqd]
        exact hold
      · have hqr : q = r := by
          obtain ⟨qd, qo⟩ := q
          obtain ⟨rd, ro⟩ := r
          obtain rfl : qd = rd := hqd
          obtain rfl : qo = ro := ho
          rfl
        subst hqr
        exact hji (Opened.inode_eq h hj hi hq hr)
    · exact hold
  · rw [hdev]
    split_ifs
    · exact hrel.ties
    · exact h.tied j
  · rw [hdel]
    by_cases hqr : q = r
    · rw [hqr, hself]
      split_ifs <;> simp
    · rw [hne q hqr]
      exact h.once q
  · rw [hdel]
    obtain ⟨ho, hqr⟩ := (hopened q).mp hq
    rw [hne q hqr]
    exact h.opened q ho
  · rw [hdel]
    rw [hdev] at hid
    rw [hobj] at hun
    by_cases hqr : q = r
    · subst hqr
      rw [hself]
      simp only [if_true] at hun
      have : (s.obj q).unlinked = false := by
        by_contra hu
        have := hrel.unlinked q.obj (by simpa [Vfs.obj] using hu)
        rw [hun] at this
        exact Bool.noConfusion this
      rw [this]
      rfl
    · rw [hne q hqr]
      split_ifs at hid hun with hqd
      · refine h.linked q (hqd ▸ hrel.ids.subset hid) ?_
        by_contra hu
        have := hrel.unlinked q.obj (by rw [← hqd]; simpa [Vfs.obj] using hu)
        rw [hun] at this
        exact Bool.noConfusion this
      · exact h.linked q hid hun
  · rw [hobj]
    split_ifs with hqd
    · exact hrel.unlinked q.obj (hqd ▸ hun)
    · exact hun
  · by_cases hqr : q = r
    · subst hqr
      refine Or.inr ⟨?_, ?_⟩
      · rw [hdel, hself, if_pos hun]
      · rw [hdev, if_pos rfl]
        exact hrel.gone hun
    · exact Or.inl ((hopened q).mpr ⟨hq, hqr⟩)
  · rw [hdel] at hq
    have hqr : q = r := by
      by_contra hqr
      exact hq (hne q hqr)
    subst hqr
    exact ⟨hopen, fun ho => ((hopened q).mp ho).2 rfl⟩

theorem putInode_spec {i : ℕ} (hi : i < p.nHandles) (h : VfsInv p δ (bump i) s) :
    VfsInv p δ 0 (putInode p i s) ∧ Releases p s (putInode p i s) ∧ (putInode p i s).fd = s.fd ∧
      (putInode p i s).handle = s.handle := by
  have hcount := h.count i hi
  simp only [bump, if_true] at hcount
  have hc : Counted p δ 0 (s.modInode i fun inode => { inode with count := inode.count - 1 }) := by
    refine h.toCounted.modInode fun j _ => ?_
    simp only [bump, Pi.zero_apply]
    split_ifs <;> omega
  have hsome := (h.iObj i hi).mpr (by omega)
  obtain ⟨r, hr⟩ := Option.isSome_iff_exists.mp hsome
  have hself : ((s.modInode i fun inode => { inode with count := inode.count - 1 }).inode i) =
      { s.inode i with count := (s.inode i).count - 1 } := by simp [Vfs.modInode]
  have hother : ∀ j, j ≠ i →
      (s.modInode i fun inode => { inode with count := inode.count - 1 }).inode j = s.inode j := by
    intro j hj
    simp [Vfs.modInode, hj]
  unfold putInode
  rw [if_pos hi]
  simp only
  rw [hself]
  simp only
  split_ifs with hlast
  · have hin : ((s.dev r.dev).obj r.obj).myInode.isSome := by
      have := h.myInode i hi r hr
      unfold Vfs.obj at this
      rw [this]
      rfl
    have hrel := releaseInode_released (g := p.geometry r.dev) (e := p.env r.dev) (h.tied r.dev) hin
    have hfds : openFds p s i = 0 := by omega
    unfold releaseInodeAt
    rw [hself]
    simp only [hr]
    refine and_assoc.mp ⟨VfsInv.release h hi hr hrel ⟨hc.handleCount, fun j hj => ?_⟩ (fun j => ?_) (fun j => ?_) rfl,
      rfl, rfl⟩
    · have hcj := hc.count j hj
      by_cases hji : j = i
      · subst hji
        simp only [Vfs.modInode, Vfs.onDev, Function.update_self, Pi.zero_apply, add_zero]
        exact (congrArg Nat.cast hfds).symm
      · simp only [Vfs.modInode, Vfs.onDev, Function.update_of_ne hji] at hcj ⊢
        exact hcj
    · by_cases hji : j = i
      · subst hji
        simp [Vfs.modInode, Vfs.onDev]
      · simp [Vfs.modInode, Vfs.onDev, hji]
    · by_cases hjr : j = r.dev
      · subst hjr
        simp [Vfs.modInode, Vfs.onDev]
      · simp [Vfs.modInode, Vfs.onDev, hjr]
  · have hobj : ∀ j, ((s.modInode i fun inode => { inode with count := inode.count - 1 }).inode j).iObj =
        (s.inode j).iObj := by
      intro j
      by_cases hj : j = i
      · rw [hj, hself]
      · rw [hother j hj]
    refine ⟨h.tables hc hobj (fun j _ => ?_) rfl rfl, (Steady.tables hobj rfl rfl).releases, rfl, rfl⟩
    by_cases hj : j = i
    · rw [hj, hself]
      simp only
      omega
    · rw [hother j hj]

/-! ### Descriptors and handles are put back -/

/-- The inodes a descriptor that is closed has still to let go of. -/
def FileDes.owes (fd : FileDes) : ℕ → ℤ :=
  fun i => if fd.inodeId = some i then 1 else 0

theorem Counted.congr {δ' ε' : ℕ → ℤ} (h : Counted p δ ε s) (hδ : ∀ f < p.nHandles, δ' f = δ f)
    (hε : ∀ i < p.nHandles, ε' i = ε i) : Counted p δ' ε' s where
  handleCount f hf := by rw [hδ f hf]; exact h.handleCount f hf
  count i hi := by rw [hε i hi]; exact h.count i hi

theorem VfsInv.congr {δ' ε' : ℕ → ℤ} (h : VfsInv p δ ε s) (hδ : ∀ f < p.nHandles, δ' f = δ f)
    (hε : ∀ i < p.nHandles, ε' i = ε i) : VfsInv p δ' ε' s :=
  h.tables (h.toCounted.congr hδ hε) (fun _ => rfl) (fun _ _ => Iff.rfl) rfl rfl

theorem FileDes.refers_of_closed {fd : FileDes} (h : fd.handleCount < 1) (i : ℕ) : fd.refers i = false := by
  unfold FileDes.refers
  rw [decide_eq_false (by omega), Bool.false_and]

theorem Handle.refers_of_closed {hd : Handle} (h : hd.useCount < 1) (f : ℕ) : hd.refers f = false := by
  unfold Handle.refers
  rw [decide_eq_false (by omega), Bool.false_and]

/-- A descriptor changes in what does not count. -/
theorem VfsInv.modFd (h : VfsInv p δ ε s) {f : ℕ} (hf : f < p.nHandles) {u : FileDes → FileDes}
    (hcount : (u (s.fd f)).handleCount = (s.fd f).handleCount)
    (hrefers : ∀ i, (u (s.fd f)).refers i = (s.fd f).refers i) :
    VfsInv p δ ε (s.modFd f u) ∧ Steady s (s.modFd f u) := by
  refine ⟨h.tables (h.toCounted.modFd hf (fun f' _ => ?_) fun i _ => ?_) (fun _ => rfl) (fun _ _ => Iff.rfl) rfl rfl,
    Steady.tables (fun _ => rfl) rfl rfl⟩
  · rw [hcount, sub_self, ite_self, add_zero]
  · rw [hrefers]

theorem putFdInode_spec {f : ℕ} (hf : f < p.nHandles) (h : VfsInv p δ (s.fd f).owes s)
    (hclosed : (s.fd f).handleCount < 1) :
    VfsInv p δ 0 (putFdInode p f s) ∧ Releases p s (putFdInode p f s) ∧ (putFdInode p f s).handle = s.handle := by
  unfold putFdInode
  cases hi : (s.fd f).inodeId with
  | none =>
    refine ⟨h.congr (fun _ _ => rfl) fun i _ => ?_, (Steady.refl s).releases, rfl⟩
    simp [FileDes.owes, hi]
  | some i =>
    simp only
    have hput : VfsInv p δ 0 (putInode p i s) ∧ Releases p s (putInode p i s) ∧ (putInode p i s).fd = s.fd ∧
        (putInode p i s).handle = s.handle := by
      by_cases hin : i < p.nHandles
      · refine putInode_spec hin (h.congr (fun _ _ => rfl) fun j _ => ?_)
        simp only [FileDes.owes, bump, hi, Option.some.injEq, eq_comm]
      · have hsame : putInode p i s = s := by
          unfold putInode
          rw [if_neg hin]
        rw [hsame]
        refine ⟨h.congr (fun _ _ => rfl) fun j hj => ?_, (Steady.refl s).releases, rfl, rfl⟩
        have hij : i ≠ j := by omega
        simp [FileDes.owes, hi, hij]
    obtain ⟨hinv, hrel, hfd, hhandle⟩ := hput
    have hclosed' : ((putInode p i s).fd f).handleCount < 1 := by rw [hfd]; exact hclosed
    obtain ⟨hinv', hsteady⟩ := hinv.modFd (u := fun fd => { fd with inodeId := none }) hf rfl fun j => by
      rw [FileDes.refers_of_closed hclosed', FileDes.refers_of_closed (by exact hclosed')]
    exact ⟨hinv', hrel.before hsteady, hhandle⟩

theorem putDir_spec {f : ℕ} (hf : f < p.nHandles) (h : VfsInv p δ ε s) :
    VfsInv p δ ε (putDir p f s) ∧ Steady s (putDir p f s) ∧ (putDir p f s).handle = s.handle ∧
      ((putDir p f s).fd f).handleCount = (s.fd f).handleCount ∧ ((putDir p f s).fd f).owes = (s.fd f).owes := by
  unfold putDir
  split_ifs
  · have hclose : VfsInv p δ ε (closedir p (s.fd f).v s) :=
      h.tables ⟨h.handleCount, h.count⟩ (fun _ => rfl) (fun _ _ => Iff.rfl) rfl rfl
    obtain ⟨hinv, hsteady⟩ := hclose.modFd (u := fun fd => { fd with v := 0 }) hf rfl fun _ => rfl
    have hsteady' : Steady s (closedir p (s.fd f).v s) := Steady.tables (fun _ => rfl) rfl rfl
    refine ⟨hinv, hsteady'.trans hsteady, rfl, ?_, ?_⟩
    · simp [Vfs.modFd, closedir]
    · simp only [Vfs.modFd, closedir, Function.update_self]
      rfl
  · exact ⟨h, Steady.refl s, rfl, rfl, rfl⟩

theorem putFileDes_spec {f : ℕ} (hδ : ∀ f, 0 ≤ δ f) (h : VfsInv p (δ + bump f) 0 s) :
    VfsInv p δ 0 (putFileDes p f s) ∧ Releases p s (putFileDes p f s) ∧ (putFileDes p f s).handle = s.handle := by
  unfold putFileDes
  by_cases hf : f < p.nHandles
  · rw [if_pos hf]
    have hcount := h.handleCount f hf
    simp only [Pi.add_apply, bump, if_true] at hcount
    have hge := hδ f
    have hself : ((s.modFd f fun fd => { fd with handleCount := fd.handleCount - 1 }).fd f) =
        { s.fd f with handleCount := (s.fd f).handleCount - 1 } := by simp [Vfs.modFd]
    have hcounts : ∀ f' < p.nHandles, δ f' = (δ + bump f) f' +
        if f' = f then (s.fd f).handleCount - 1 - (s.fd f).handleCount else 0 := by
      intro f' _
      simp only [Pi.add_apply, bump]
      split_ifs <;> omega
    have hsteady : Steady s (s.modFd f fun fd => { fd with handleCount := fd.handleCount - 1 }) :=
      Steady.tables (fun _ => rfl) rfl rfl
    simp only
    rw [hself]
    simp only
    split_ifs with hlast
    · have hinv : VfsInv p δ (s.fd f).owes (s.modFd f fun fd => { fd with handleCount := fd.handleCount - 1 }) := by
        refine h.tables (h.toCounted.modFd hf hcounts fun i _ => ?_) (fun _ => rfl) (fun _ _ => Iff.rfl) rfl rfl
        rw [FileDes.refers_of_closed (by exact hlast)]
        have hpos : 0 < (s.fd f).handleCount := by omega
        simp [FileDes.owes, FileDes.refers, hpos]
      obtain ⟨hdir, hsdir, hhdir, hcdir, hodir⟩ := putDir_spec hf hinv
      have howes : ((s.modFd f fun fd => { fd with handleCount := fd.handleCount - 1 }).fd f).owes = (s.fd f).owes := by
        rw [hself]
        rfl
      obtain ⟨hput, hrel, hhput⟩ := putFdInode_spec hf (by rw [hodir, howes]; exact hdir)
        (by rw [hcdir, hself]; exact hlast)
      exact ⟨hput, hrel.after (hsteady.trans hsdir).retains, hhput.trans hhdir⟩
    · refine ⟨h.tables (h.toCounted.modFd hf hcounts fun i _ => ?_) (fun _ => rfl) (fun _ _ => Iff.rfl) rfl rfl,
        hsteady.releases, rfl⟩
      have hpos : 0 < (s.fd f).handleCount := by omega
      have hpos' : 1 < (s.fd f).handleCount := by omega
      simp [FileDes.refers, hpos, hpos']
  · rw [if_neg hf]
    refine ⟨h.congr (fun f' hf' => ?_) fun _ _ => rfl, (Steady.refl s).releases, rfl⟩
    have : f' ≠ f := by omega
    simp [bump, this]

/-- A handle changes in what does not count. -/
theorem VfsInv.modHandle (h : VfsInv p δ ε s) {i : ℕ} (hi : i < p.nHandles) {u : Handle → Handle}
    (hrefers : ∀ f, (u (s.handle i)).refers f = (s.handle i).refers f) :
    VfsInv p δ ε (s.modHandle i u) ∧ Steady s (s.modHandle i u) := by
  refine ⟨h.tables (h.toCounted.modHandle hi fun f _ => ?_) (fun _ => rfl) (fun _ _ => Iff.rfl) rfl rfl,
    Steady.tables (fun _ => rfl) rfl rfl⟩
  rw [hrefers]

theorem putHandleAt_spec {i : ℕ} (hi : i < p.nHandles) (hδ : ∀ f, 0 ≤ δ f) (h : VfsInv p δ 0 s) :
    VfsInv p δ 0 (putHandleAt p i s) ∧ Releases p s (putHandleAt p i s) := by
  unfold putHandleAt
  by_cases hpos : 0 < (s.handle i).useCount
  · rw [if_pos hpos]
    have hself : ((s.modHandle i fun hd => { hd with useCount := hd.useCount - 1 }).handle i) =
        { s.handle i with useCount := (s.handle i).useCount - 1 } := by simp [Vfs.modHandle]
    have hsteady : Steady s (s.modHandle i fun hd => { hd with useCount := hd.useCount - 1 }) :=
      Steady.tables (fun _ => rfl) rfl rfl
    simp only
    rw [hself]
    simp only
    split_ifs with hlast
    · have hend : ∀ s', VfsInv p δ 0 s' → Releases p s s' →
          s'.handle = (s.modHandle i fun hd => { hd with useCount := hd.useCount - 1 }).handle →
          VfsInv p δ 0 (s'.modHandle i fun hd => { hd with fdId := none }) ∧
            Releases p s (s'.modHandle i fun hd => { hd with fdId := none }) := by
        intro s' hinv hrel hhandle
        have hclosed : (s'.handle i).useCount < 1 := by
          rw [hhandle, hself]
          exact hlast
        obtain ⟨hinv', hsteady'⟩ := hinv.modHandle (u := fun hd => { hd with fdId := none }) hi fun f => by
          rw [Handle.refers_of_closed hclosed, Handle.refers_of_closed (by exact hclosed)]
        exact ⟨hinv', hrel.before hsteady'⟩
      cases hf : (s.handle i).fdId with
      | none =>
        refine hend _ (h.modHandle hi fun f => ?_).1 hsteady.releases rfl
        simp [Handle.refers, hf]
      | some f =>
        have hinv : VfsInv p (δ + bump f) 0 (s.modHandle i fun hd => { hd with useCount := hd.useCount - 1 }) := by
          refine h.tables (h.toCounted.modHandle hi fun f' _ => ?_) (fun _ => rfl) (fun _ _ => Iff.rfl) rfl rfl
          rw [Handle.refers_of_closed (by exact hlast)]
          simp [Handle.refers, hpos, hf, bump, eq_comm]
        obtain ⟨h1, h2, h3⟩ := putFileDes_spec hδ hinv
        exact hend _ h1 (h2.after hsteady.retains) h3
    · obtain ⟨hinv, hsteady⟩ := h.modHandle (u := fun hd => { hd with useCount := hd.useCount - 1 }) hi fun f => by
        have hpos' : 1 < (s.handle i).useCount := by omega
        simp [Handle.refers, hpos, hpos']
      exact ⟨hinv, hsteady.releases⟩
  · rw [if_neg hpos]
    exact ⟨h, (Steady.refl s).releases⟩

theorem handleToPointer_lt {h : ℤ} {i : ℕ} (hi : handleToPointer p h = some i) : i < p.nHandles := by
  unfold handleToPointer at hi
  split_ifs at hi with hh
  have := Option.some.inj hi
  omega

theorem putHandle_spec (hδ : ∀ f, 0 ≤ δ f) (h : VfsInv p δ 0 s) (hd : ℤ) :
    VfsInv p δ 0 (putHandle p hd s) ∧ Releases p s (putHandle p hd s) := by
  unfold putHandle
  cases hi : handleToPointer p hd with
  | none => exact ⟨h, (Steady.refl s).releases⟩
  | some i => exact putHandleAt_spec (handleToPointer_lt hi) hδ h

/-! ### Handles are taken -/

theorem VfsInv.fd_closed (h : VfsInv p δ 0 s) (hδ : ∀ f, 0 ≤ δ f) {f : ℕ} (hf : f < p.nHandles) (hclosed : (s.fd f).handleCount < 1) :
    (s.fd f).handleCount = 0 ∧ δ f = 0 := by
  have := h.handleCount f hf
  have := hδ f
  omega

/-- The devices, the inodes and the descriptors are as before. -/
structure SameFds (s s' : Vfs) : Prop where
  dev : s'.dev = s.dev
  inode : s'.inode = s.inode
  fd : s'.fd = s.fd

theorem newHandle_spec (h : VfsInv p δ 0 s) :
    VfsInv p δ 0 (newHandle p s).1 ∧ Steady s (newHandle p s).1 ∧ SameFds s (newHandle p s).1 ∧
      ∀ i, (newHandle p s).2 = some i → i < p.nHandles ∧ ((newHandle p s).1.handle i).fdId = none ∧
        ((newHandle p s).1.handle i).useCount = 1 := by
  unfold newHandle
  split
  · rename_i i hi
    have hlt : i < p.nHandles := List.mem_range.mp (List.mem_of_find?_eq_some hi)
    have hclosed : (s.handle i).useCount < 1 := by simpa using List.find?_some hi
    obtain ⟨hinv, hsteady⟩ := h.modHandle (u := fun _ => { fdId := none, useCount := 1 }) hlt fun f => by
      rw [Handle.refers_of_closed hclosed]
      simp [Handle.refers]
    refine ⟨hinv, hsteady, ⟨rfl, rfl, rfl⟩, fun j hj => ?_⟩
    obtain rfl := Option.some.inj hj
    exact ⟨hlt, by simp [Vfs.modHandle], by simp [Vfs.modHandle]⟩
  · exact ⟨h, Steady.refl s, ⟨rfl, rfl, rfl⟩, by simp⟩

theorem newHandleAndFileDes_spec (hδ : ∀ f, 0 ≤ δ f) (h : VfsInv p δ 0 s) :
    VfsInv p δ 0 (newHandleAndFileDes p s).1 ∧ Steady s (newHandleAndFileDes p s).1 ∧
      (newHandleAndFileDes p s).1.dev = s.dev ∧
      ∀ i f, (newHandleAndFileDes p s).2 = some (i, f) → i < p.nHandles ∧ f < p.nHandles ∧
        ((newHandleAndFileDes p s).1.fd f).handleCount = 1 ∧ ((newHandleAndFileDes p s).1.fd f).inodeId = none := by
  obtain ⟨hinv, hsteady, hsame, hnew⟩ := newHandle_spec h
  unfold newHandleAndFileDes
  simp only
  cases hr : (newHandle p s).2 with
  | none => exact ⟨hinv, hsteady, hsame.dev, by simp⟩
  | some i =>
    obtain ⟨hi, hfd, huse⟩ := hnew i hr
    generalize (newHandle p s).1 = t at *
    simp only
    cases hf : (List.range p.nHandles).find? fun j => (t.fd j).handleCount < 1 with
    | some f =>
      have hlt : f < p.nHandles := List.mem_range.mp (List.mem_of_find?_eq_some hf)
      have hclosed : (t.fd f).handleCount < 1 := by simpa using List.find?_some hf
      obtain ⟨hzero, hleft⟩ := hinv.fd_closed hδ hlt hclosed
      have hinv' : VfsInv p δ 0 ((t.modFd f fun _ => { inodeId := none, handleCount := 1 }).modHandle i
          fun hd => { hd with fdId := some f }) := by
        have hc : Counted p (δ + bump f) 0 (t.modFd f fun _ => { inodeId := none, handleCount := 1 }) := by
          refine hinv.toCounted.modFd hlt (fun f' _ => ?_) fun j _ => ?_
          · simp only [Pi.add_apply, bump, hzero]
            split_ifs <;> rfl
          · rw [FileDes.refers_of_closed hclosed]
            simp [FileDes.refers]
        refine hinv.tables (hc.modHandle hi fun f' _ => ?_) (fun _ => rfl) (fun _ _ => Iff.rfl) rfl rfl
        simp [Vfs.modFd, Handle.refers, hfd, huse, bump, eq_comm]
      refine ⟨hinv', hsteady.trans (Steady.tables (fun _ => rfl) rfl rfl), hsame.dev, fun j f' hj => ?_⟩
      obtain ⟨rfl, rfl⟩ := Prod.mk.inj (Option.some.inj hj)
      exact ⟨hi, hlt, by simp [Vfs.modFd, Vfs.modHandle], by simp [Vfs.modFd, Vfs.modHandle]⟩
    | none =>
      obtain ⟨hinv', hsteady'⟩ := hinv.modHandle (u := fun hd => { hd with useCount := 0 }) hi fun f => by
        simp [Handle.refers, hfd]
      exact ⟨hinv', hsteady.trans hsteady', hsame.dev, by simp⟩

theorem getHandle_spec (h : VfsInv p δ 0 s) (hd : ℤ) :
    VfsInv p δ 0 (getHandle p hd s) ∧ Steady s (getHandle p hd s) := by
  unfold getHandle
  cases hi : handleToPointer p hd with
  | none => exact ⟨h, Steady.refl s⟩
  | some i =>
    simp only
    split_ifs with huse
    · refine h.modHandle (handleToPointer_lt hi) fun f => ?_
      have huse' : 0 < (s.handle i).useCount + 1 := by omega
      simp [Handle.refers, huse, huse']
    · exact ⟨h, Steady.refl s⟩

theorem handleToFileDes_spec {hd : ℤ} {f : ℕ} (hf : handleToFileDes p s hd = some f) :
    f < p.nHandles ∧ ∃ i < p.nHandles, 0 < (s.handle i).useCount ∧ (s.handle i).fdId = some f := by
  unfold handleToFileDes at hf
  obtain ⟨i, hi, hif⟩ := Option.bind_eq_some_iff.mp hf
  split_ifs at hif with huse
  obtain ⟨hfd, hlt⟩ := Option.filter_eq_some_iff.mp hif
  exact ⟨by simpa using hlt, i, handleToPointer_lt hi, huse, hfd⟩

/-- The descriptor of an open handle is open. -/
theorem VfsInv.fd_open (h : VfsInv p δ 0 s) (hδ : ∀ f, 0 ≤ δ f) {i f : ℕ} (hi : i < p.nHandles)
    (huse : 0 < (s.handle i).useCount) (hif : (s.handle i).fdId = some f) (hf : f < p.nHandles) :
    0 < (s.fd f).handleCount := by
  have hcount := h.handleCount f hf
  have hpos : 0 < openHandles p s f :=
    List.countP_pos_iff.mpr ⟨i, List.mem_range.mpr hi, by simp [Handle.refers, huse, hif]⟩
  have hge := hδ f
  omega

theorem VfsInv.handle_open (h : VfsInv p δ 0 s) (hδ : ∀ f, 0 ≤ δ f) {hd : ℤ} {f : ℕ}
    (hf : handleToFileDes p s hd = some f) : 0 < (s.fd f).handleCount := by
  obtain ⟨hlt, i, hi, huse, hif⟩ := handleToFileDes_spec hf
  exact h.fd_open hδ hi huse hif hlt

theorem handleToObject_opened {hd : ℤ} {r : ObjRef} (hr : handleToObject p s hd = some r) : Opened p s r := by
  unfold handleToObject handleToInode at hr
  obtain ⟨i, hi, hir⟩ := Option.bind_eq_some_iff.mp hr
  obtain ⟨f, -, hif⟩ := Option.bind_eq_some_iff.mp hi
  split_ifs at hif
  obtain ⟨-, hlt⟩ := Option.filter_eq_some_iff.mp hif
  exact ⟨i, by simpa using hlt, hir⟩

theorem dup_spec (hδ : ∀ f, 0 ≤ δ f) (h : VfsInv p δ 0 s) (hd : ℤ) : VfsInv p δ 0 (dup p hd s).1 ∧ Steady s (dup p hd s).1 := by
  unfold dup
  cases hf : handleToFileDes p s hd with
  | none => exact ⟨h, Steady.refl s⟩
  | some f =>
    simp only
    obtain ⟨hlt, -⟩ := handleToFileDes_spec hf
    obtain ⟨hinv, hsteady, hsame, hnew⟩ := newHandle_spec h
    -- The existing handle keeps the descriptor open.
    have hopen : 0 < (s.fd f).handleCount := h.handle_open hδ hf
    cases hr : (newHandle p s).2 with
    | none => exact ⟨hinv, hsteady⟩
    | some i =>
      simp only
      obtain ⟨hi, hfd, hone⟩ := hnew i hr
      have hopen' : 0 < ((newHandle p s).1.fd f).handleCount := by rw [hsame.fd]; exact hopen
      generalize (newHandle p s).1 = t at *
      refine ⟨?_, hsteady.trans (Steady.tables (fun _ => rfl) rfl rfl)⟩
      have hc : Counted p (fun f' => δ f' - bump f f') 0 (t.modHandle i fun hd => { hd with fdId := some f }) := by
        refine hinv.toCounted.modHandle hi fun f' _ => ?_
        by_cases hff : f' = f
        · subst hff
          simp [Handle.refers, hfd, hone, bump]
        · have hff' : f ≠ f' := Ne.symm hff
          simp [Handle.refers, hfd, bump, hff, hff']
      refine hinv.tables (hc.modFd hlt (fun f' _ => ?_) fun j _ => ?_) (fun _ => rfl) (fun _ _ => Iff.rfl) rfl rfl
      · simp only [bump]
        split_ifs
        · simp only [Vfs.modHandle]
          omega
        · omega
      · have hopen'' : 0 < (t.fd f).handleCount + 1 := by omega
        simp [Vfs.modHandle, FileDes.refers, hopen', hopen'']

/-! ### Objects are opened -/

theorem equivRef_eq {r : ObjRef} (htype : (s.obj r).variantType = .file ∨ (s.obj r).variantType = .directory) :
    equivRef s r = some r := by
  have hne : ((s.dev r.dev).obj r.obj).variantType ≠ .hardlink := by
    intro hl
    rcases htype with ht | ht <;> exact absurd (ht.symm.trans hl) (by decide)
  unfold equivRef getEquivalentObj
  rw [if_neg hne]
  rfl

/-- The inode entry of an object, or a free one if it has none. -/
theorem getInodeIdForObject_spec {r : ObjRef} (hr : equivRef s r = some r) :
    getInodeIdForObject p r s = (s, none) ∨ ∃ i < p.nHandles,
      getInodeIdForObject p r s = (s.modInode i fun inode =>
        { iObj := some r, count := (if inode.iObj.isNone then 0 else inode.count) + 1 }, some i) ∧
      ((s.inode i).iObj = some r ∨ (s.inode i).iObj = none ∧ ¬Opened p s r) := by
  unfold getInodeIdForObject findInodeIdForObject
  rw [hr]
  cases hfind : (List.range p.nHandles).find? fun i => (s.inode i).iObj = some r with
  | some i =>
    refine Or.inr ⟨i, List.mem_range.mp (List.mem_of_find?_eq_some hfind), rfl, Or.inl ?_⟩
    simpa using List.find?_some hfind
  | none =>
    cases hfree : (List.range p.nHandles).find? fun i => (s.inode i).iObj.isNone with
    | some i =>
      refine Or.inr ⟨i, List.mem_range.mp (List.mem_of_find?_eq_some hfree), rfl, Or.inr ⟨?_, ?_⟩⟩
      · simpa using List.find?_some hfree
      · rintro ⟨j, hj, hjr⟩
        have := List.find?_eq_none.mp hfind j (List.mem_range.mpr hj)
        simp [hjr] at this
    | none => exact Or.inl rfl

/-- A descriptor without an inode finds an entry for its own : there are as many inodes as descriptors. -/
theorem getInodeIdForObject_isSome (h : VfsInv p δ 0 s) {f : ℕ} (hf : f < p.nHandles)
    (hnone : (s.fd f).inodeId = none) (r : ObjRef) : (getInodeIdForObject p r s).2.isSome := by
  by_contra hno
  have hfree : (List.range p.nHandles).find? (fun i => (s.inode i).iObj.isNone) = none := by
    by_contra hne
    obtain ⟨i, hi⟩ := Option.ne_none_iff_exists'.mp hne
    refine hno ?_
    unfold getInodeIdForObject
    rw [hi]
    cases findInodeIdForObject p s r <;> rfl
  -- Otherwise every inode has a descriptor of its own, and none is left.
  have hused : ∀ i : Fin p.nHandles, ∃ f : Fin p.nHandles, (s.fd f).inodeId = some i.val := by
    intro i
    have hsome : (s.inode i).iObj.isSome := by
      have := List.find?_eq_none.mp hfree i (List.mem_range.mpr i.isLt)
      simpa [Option.isSome_iff_ne_none] using this
    have hpos := (h.iObj i i.isLt).mp hsome
    have hcount := h.count i i.isLt
    simp only [Pi.zero_apply, add_zero] at hcount
    have hopen : 0 < openFds p s i := by omega
    obtain ⟨j, hj, hrefers⟩ := List.countP_pos_iff.mp hopen
    refine ⟨⟨j, List.mem_range.mp hj⟩, ?_⟩
    simp only [FileDes.refers, Bool.and_eq_true, decide_eq_true_eq] at hrefers
    exact hrefers.2
  choose user huser using hused
  have hinj : Function.Injective user := by
    intro i j hij
    have := (huser i).symm.trans ((congrArg (fun q : Fin p.nHandles => (s.fd q).inodeId) hij).trans (huser j))
    exact Fin.ext (Option.some.inj this)
  obtain ⟨i, hi⟩ := (Finite.injective_iff_surjective.mp hinj) ⟨f, hf⟩
  have := huser i
  rw [hi, hnone] at this
  exact absurd this (by simp)

/-- An object is opened at the inode entry `i`. -/
structure Hooks (p : VfsParam) (δ : ℕ → ℤ) (i : ℕ) (r : ObjRef) (s s' : Vfs) : Prop where
  lt : i < p.nHandles
  own : (s.inode i).iObj = some r ∨ (s.inode i).iObj = none ∧ ¬Opened p s r
  counted : Counted p δ 0 s'
  inode : ∀ j, s'.inode j = if j = i then { iObj := some r, count := (s.inode i).count + 1 } else s.inode j
  dev : ∀ j, s'.dev j = if j = r.dev then hookInode i r.obj (s.dev r.dev) else s.dev j
  deletions : s'.deletions = s.deletions

theorem Hooks.obj {i : ℕ} {r : ObjRef} (h : Hooks p δ i r s s') (q : ObjRef) :
    s'.obj q = if q = r then { s.obj r with myInode := some i } else s.obj q := by
  unfold Vfs.obj
  rw [h.dev]
  by_cases hd : q.dev = r.dev
  · rw [if_pos hd]
    by_cases ho : q.obj = r.obj
    · have hqr : q = r := by
        obtain ⟨qd, qo⟩ := q
        obtain ⟨rd, ro⟩ := r
        obtain rfl : qd = rd := hd
        obtain rfl : qo = ro := ho
        rfl
      subst hqr
      simp [hookInode, Dev.modObj]
    · have hqr : q ≠ r := fun h => ho (congrArg ObjRef.obj h)
      simp [hookInode, Dev.modObj, ho, hqr, hd]
  · have hqr : q ≠ r := fun h => hd (congrArg ObjRef.dev h)
    rw [if_neg hd, if_neg hqr]

theorem Hooks.opened {i : ℕ} {r : ObjRef} (h : Hooks p δ i r s s') (q : ObjRef) :
    Opened p s' q ↔ q = r ∨ Opened p s q := by
  unfold Opened
  refine ⟨?_, ?_⟩
  · rintro ⟨j, hj, hq⟩
    rw [h.inode] at hq
    split_ifs at hq with hji
    · exact Or.inl (Option.some.inj hq).symm
    · exact Or.inr ⟨j, hj, hq⟩
  · rintro (rfl | ⟨j, hj, hq⟩)
    · exact ⟨i, h.lt, by rw [h.inode, if_pos rfl]⟩
    · refine ⟨j, hj, ?_⟩
      rw [h.inode]
      split_ifs with hji
      · subst hji
        rcases h.own with ho | ⟨ho, -⟩
        · exact ho.symm.trans hq
        · exact absurd (ho.symm.trans hq) (by simp)
      · exact hq

theorem VfsInv.hook {i : ℕ} {r : ObjRef} (h : VfsInv p δ 0 s) (hh : Hooks p δ i r s s')
    (hid : r.obj ∈ (s.dev r.dev).ids)
    (htype : (s.obj r).variantType = .file ∨ (s.obj r).variantType = .directory)
    (hdel : (s.obj r).deleted = false) (hzero : s.deletions r = 0) : VfsInv p δ 0 s' := by
  refine ⟨hh.counted, fun j hj => ?_, fun j hj q hq => ?_, fun j => ?_, fun q => ?_, fun q hq => ?_, fun q hm hun => ?_⟩
  · rw [hh.inode]
    split_ifs with hji
    · have := h.count i hh.lt
      simp only [Pi.zero_apply, add_zero] at this
      simp only [Option.isSome_some, true_iff]
      omega
    · exact h.iObj j hj
  · rw [hh.inode] at hq
    rw [hh.obj]
    split_ifs at hq with hji
    · obtain rfl := Option.some.inj hq
      rw [if_pos rfl, hji]
    · have hqr : q ≠ r := by
        rintro rfl
        rcases hh.own with ho | ⟨-, ho⟩
        · exact hji (Opened.inode_eq h hj hh.lt hq ho)
        · exact ho ⟨j, hj, hq⟩
      rw [if_neg hqr]
      exact h.myInode j hj q hq
  · rw [hh.dev]
    split_ifs
    · exact hookInode_tied (h.tied r.dev) hid htype hdel i
    · exact h.tied j
  · rw [hh.deletions]
    exact h.once q
  · rw [hh.deletions]
    rcases (hh.opened q).mp hq with rfl | ho
    · exact hzero
    · exact h.opened q ho
  · rw [hh.deletions]
    by_cases hqr : q = r
    · rw [hqr]
      exact hzero
    · rw [hh.obj, if_neg hqr] at hun
      refine h.linked q ?_ hun
      rw [hh.dev] at hm
      split_ifs at hm with hd
      · rw [hd]
        exact hm
      · exact hm

theorem VfsInv.hooks {i f : ℕ} {r : ObjRef} (h : VfsInv p δ 0 s) (hi : i < p.nHandles)
    (hf : f < p.nHandles) (hopen : 0 < (s.fd f).handleCount) (hnone : (s.fd f).inodeId = none)
    (hown : (s.inode i).iObj = some r ∨ (s.inode i).iObj = none ∧ ¬Opened p s r) {u : FileDes → FileDes}
    (hcount : (u (s.fd f)).handleCount = (s.fd f).handleCount) (hinode : (u (s.fd f)).inodeId = some i) :
    Hooks p δ i r s (((s.modInode i fun inode =>
      { iObj := some r, count := (if inode.iObj.isNone then 0 else inode.count) + 1 }).modFd f u).onDev r.dev
        (hookInode i r.obj)) := by
  have hcnt := h.count i hi
  simp only [Pi.zero_apply, add_zero] at hcnt
  have hnew : (if (s.inode i).iObj.isNone then 0 else (s.inode i).count) + 1 = (s.inode i).count + 1 := by
    split_ifs with hn
    · have hle : ¬0 < (s.inode i).count := fun hpos => by
        have := (h.iObj i hi).mpr hpos
        rw [Option.isNone_iff_eq_none.mp hn] at this
        exact Bool.noConfusion this
      omega
    · rfl
  have hc : Counted p δ (bump i) (s.modInode i fun inode =>
      { iObj := some r, count := (if inode.iObj.isNone then 0 else inode.count) + 1 }) := by
    refine h.toCounted.modInode fun j _ => ?_
    simp only [bump, Pi.zero_apply, hnew]
    split_ifs <;> omega
  refine ⟨hi, hown, ?_, fun j => ?_, fun j => ?_, rfl⟩
  · have hc' : Counted p δ 0 ((s.modInode i fun inode =>
        { iObj := some r, count := (if inode.iObj.isNone then 0 else inode.count) + 1 }).modFd f u) := by
      refine hc.modFd hf (fun f' _ => ?_) fun j _ => ?_
      · simp [Vfs.modInode, hcount]
      · have hopen' : 0 < (u (s.fd f)).handleCount := by omega
        by_cases hji : j = i
        · subst hji
          simp [Vfs.modInode, FileDes.refers, hopen', hnone, hinode, bump]
        · simp [Vfs.modInode, FileDes.refers, hnone, hinode, bump, hji, Ne.symm hji]
    exact ⟨hc'.handleCount, hc'.count⟩
  · by_cases hji : j = i
    · subst hji
      simp only [Vfs.onDev, Vfs.modFd, Vfs.modInode, Function.update_self, if_true, hnew]
    · simp [Vfs.onDev, Vfs.modFd, Vfs.modInode, hji]
  · rw [Vfs.onDev_dev]
    rfl

/-- Objects are opened, and none is let go of or deleted. -/
structure Opens (p : VfsParam) (s s' : Vfs) : Prop where
  opened : ∀ r, Opened p s r → Opened p s' r
  unlinked : ∀ r, (s.obj r).unlinked = true → (s'.obj r).unlinked = true
  deletions : s'.deletions = s.deletions

theorem Steady.opens (h : Steady s s') : Opens p s s' :=
  ⟨fun r => (h.opened r).mpr, h.unlinked, h.deletions⟩

theorem Opens.trans (h : Opens p s s') (h' : Opens p s' s'') : Opens p s s'' :=
  ⟨fun r hr => h'.opened r (h.opened r hr), fun r hr => h'.unlinked r (h.unlinked r hr),
    h'.deletions.trans h.deletions⟩

theorem Hooks.opens {i : ℕ} {r : ObjRef} (h : Hooks p δ i r s s') : Opens p s s' := by
  refine ⟨fun q hq => (h.opened q).mpr (Or.inr hq), fun q hq => ?_, h.deletions⟩
  rw [h.obj]
  split_ifs with hqr
  · rw [hqr] at hq
    exact hq
  · exact hq

theorem openObj_spec {a : OpenArgs} {f : ℕ} {r : ObjRef} {isDir : Bool} {dsc : Option ℤ} (h : VfsInv p δ 0 s)
    (hf : f < p.nHandles) (hopen : 0 < (s.fd f).handleCount) (hnone : (s.fd f).inodeId = none)
    (hid : r.obj ∈ (s.dev r.dev).ids)
    (htype : (s.obj r).variantType = .file ∨ (s.obj r).variantType = .directory)
    (hdel : (s.obj r).deleted = false) (hzero : s.deletions r = 0) :
    VfsInv p δ 0 (openObj p a f r isDir dsc s) ∧ Opens p s (openObj p a f r isDir dsc s) := by
  have hresize : ∀ t : Vfs, VfsInv p δ 0 t → VfsInv p δ 0 (t.onDev r.dev fun d =>
        (resizeFile (p.geometry r.dev) (p.env r.dev) r.obj 0 d).1) ∧
      Steady t (t.onDev r.dev fun d => (resizeFile (p.geometry r.dev) (p.env r.dev) r.obj 0 d).1) :=
    fun t ht => ht.evolving r.dev (resizeFile_evolving r.obj 0)
  have hhook : ∀ t : Vfs, VfsInv p δ 0 t ∧ Opens p s t →
      VfsInv p δ 0 (if !isDir && (a.oTrunc && !(a.oCreat && a.oExcl)) && a.writeRequested isDir then
        t.onDev r.dev fun d => (resizeFile (p.geometry r.dev) (p.env r.dev) r.obj 0 d).1 else t) ∧
      Opens p s (if !isDir && (a.oTrunc && !(a.oCreat && a.oExcl)) && a.writeRequested isDir then
        t.onDev r.dev fun d => (resizeFile (p.geometry r.dev) (p.env r.dev) r.obj 0 d).1 else t) := by
    rintro t ⟨hinv, hopens⟩
    split_ifs
    · obtain ⟨hinv', hsteady⟩ := hresize t hinv
      exact ⟨hinv', hopens.trans hsteady.opens⟩
    · exact ⟨hinv, hopens⟩
  unfold openObj
  rcases getInodeIdForObject_spec (p := p) (equivRef_eq htype) with hnew | ⟨i, hi, hnew, hown⟩
  · rw [hnew]
    refine hhook _ ?_
    obtain ⟨hinv, hsteady⟩ := h.modFd (u := fun fd =>
      { fd with
        inodeId := none
        reading := a.readRequested isDir
        writing := a.writeRequested isDir
        append := a.oAppend
        shareRead := a.shareRead
        shareWrite := a.shareWrite
        isDir := isDir
        v := dsc.getD 0 }) hf rfl fun i => by simp [FileDes.refers, hnone]
    exact ⟨hinv, hsteady.opens⟩
  · rw [hnew]
    refine hhook _ ?_
    have hh := h.hooks (u := fun fd =>
      { fd with
        inodeId := some i
        reading := a.readRequested isDir
        writing := a.writeRequested isDir
        append := a.oAppend
        shareRead := a.shareRead
        shareWrite := a.shareWrite
        isDir := isDir
        v := dsc.getD 0 }) hi hf hopen hnone hown rfl rfl
    exact ⟨h.hook hh hid htype hdel hzero, hh.opens⟩

/-- An object that is open is in the hash table and not deleted. -/
theorem VfsInv.opened_live (h : VfsInv p δ ε s) {r : ObjRef} (hr : Opened p s r) :
    r.obj ∈ (s.dev r.dev).ids ∧ ((s.obj r).variantType = .file ∨ (s.obj r).variantType = .directory) ∧
      (s.obj r).deleted = false ∧ (s.obj r).softDel = false := by
  obtain ⟨i, hi, hir⟩ := hr
  have hin : ((s.dev r.dev).obj r.obj).myInode.isSome := by
    have := h.myInode i hi r hir
    unfold Vfs.obj at this
    rw [this]
    rfl
  obtain ⟨h1, h2, h3⟩ := (h.tied r.dev).hooked r.obj hin
  exact ⟨h1, h2, h3, (h.tied r.dev).notSoft hin⟩

/-- A new object may have been created on the device `i`. -/
structure MakesObj (i n : ℕ) (d' : Dev) (s s' : Vfs) : Prop where
  creates : Creates n (s.dev i) d'
  new : n ∉ (s.dev i).ids
  inode : s'.inode = s.inode
  fd : s'.fd = s.fd
  handle : s'.handle = s.handle
  dev : ∀ j, s'.dev j = if j = i then d' else s.dev j
  deletions : s'.deletions = s.deletions ∧ (n ∈ d'.ids → (d'.obj n).unlinked = true) ∨
    s'.deletions = Function.update s.deletions ⟨i, n⟩ 0

theorem MakesObj.obj {i n : ℕ} {d' : Dev} (h : MakesObj i n d' s s') (q : ObjRef) :
    s'.obj q = if q.dev = i then d'.obj q.obj else s.obj q := by
  unfold Vfs.obj
  rw [h.dev]
  split_ifs <;> rfl

theorem MakesObj.deletions_eq {i n : ℕ} {d' : Dev} (h : MakesObj i n d' s s') {q : ObjRef}
    (hq : q ≠ ⟨i, n⟩) : s'.deletions q = s.deletions q := by
  rcases h.deletions with ⟨hd, -⟩ | hd
  · rw [hd]
  · rw [hd, Function.update_of_ne hq]

theorem MakesObj.opened {i n : ℕ} {d' : Dev} (h : MakesObj i n d' s s') (q : ObjRef) :
    Opened p s' q ↔ Opened p s q := by
  unfold Opened
  rw [h.inode]

theorem MakesObj.opened_ne {i n : ℕ} {d' : Dev} (h : MakesObj i n d' s s') (hinv : VfsInv p δ ε s) {q : ObjRef}
    (hq : Opened p s q) : q ≠ ⟨i, n⟩ := by
  rintro rfl
  exact h.new (hinv.opened_live hq).1

theorem MakesObj.unlinked {i n : ℕ} {d' : Dev} (h : MakesObj i n d' s s') {q : ObjRef} (hq : q ≠ ⟨i, n⟩)
    (hu : (s.obj q).unlinked = true) : (s'.obj q).unlinked = true := by
  rw [h.obj]
  split_ifs with hqi
  · subst hqi
    exact h.creates.unlinked q.obj (fun ho => hq (by rw [← ho])) hu
  · exact hu

theorem VfsInv.makesObj {i n : ℕ} {d' : Dev} (h : VfsInv p δ ε s) (hm : MakesObj i n d' s s') :
    VfsInv p δ ε s' := by
  have hc : Counted p δ ε s' := by
    refine ⟨fun f hf => ?_, fun j hj => ?_⟩
    · unfold openHandles
      rw [hm.fd, hm.handle]
      exact h.handleCount f hf
    · unfold openFds
      rw [hm.fd, hm.inode]
      exact h.count j hj
  refine ⟨hc, fun j hj => ?_, fun j hj q hq => ?_, fun j => ?_, fun q => ?_, fun q hq => ?_, fun q hid hun => ?_⟩
  · rw [hm.inode]
    exact h.iObj j hj
  · rw [hm.inode] at hq
    rw [hm.obj]
    split_ifs with hqi
    · rw [hm.creates.inode, ← hqi]
      exact h.myInode j hj q hq
    · exact h.myInode j hj q hq
  · rw [hm.dev]
    split_ifs
    · exact hm.creates.ties
    · exact h.tied j
  · by_cases hqn : q = ⟨i, n⟩
    · rcases hm.deletions with ⟨hd, -⟩ | hd
      · rw [hd]
        exact h.once q
      · rw [hd, hqn, Function.update_self]
        exact Nat.zero_le 1
    · rw [hm.deletions_eq hqn]
      exact h.once q
  · have ho := (hm.opened q).mp hq
    rw [hm.deletions_eq (hm.opened_ne h ho)]
    exact h.opened q ho
  · by_cases hqn : q = ⟨i, n⟩
    · rcases hm.deletions with ⟨hd, hgone⟩ | hd
      · rw [hm.dev] at hid
        rw [hm.obj] at hun
        subst hqn
        simp only [if_true] at hid hun
        rw [hgone hid] at hun
        exact Bool.noConfusion hun
      · rw [hd, hqn, Function.update_self]
    · rw [hm.deletions_eq hqn]
      rw [hm.dev] at hid
      rw [hm.obj] at hun
      split_ifs at hid hun with hqi
      · subst hqi
        have hqo : q.obj ≠ n := fun ho => hqn (by rw [← ho])
        refine h.linked q ((hm.creates.ids q.obj hid).resolve_left hqo) ?_
        by_contra hu
        have := hm.creates.unlinked q.obj hqo (by simpa [Vfs.obj] using hu)
        rw [hun] at this
        exact Bool.noConfusion this
      · exact h.linked q hid hun

/-- What a call does to the objects that are open. -/
structure Keep (p : VfsParam) (s s' : Vfs) : Prop where
  unlinked : ∀ r, Opened p s r → (s.obj r).unlinked = true → (s'.obj r).unlinked = true
  held : ∀ r, Opened p s r → (s.obj r).unlinked = true →
    Opened p s' r ∨ s'.deletions r = 1 ∧ IsGone (s'.dev r.dev) r.obj
  only : ∀ r, s'.deletions r ≠ s.deletions r →
    Opened p s r ∧ ¬Opened p s' r ∨ r.obj ∉ (s.dev r.dev).ids

theorem Releases.keep (h : Releases p s s') : Keep p s s' :=
  ⟨h.unlinked, h.held, fun r hr => Or.inl (h.only r hr)⟩

theorem Opens.keep (h : Opens p s s') : Keep p s s' :=
  ⟨fun r _ hu => h.unlinked r hu, fun r hr _ => Or.inl (h.opened r hr),
    fun r hr => absurd (congrFun h.deletions r) hr⟩

theorem MakesObj.retains {i n : ℕ} {d' : Dev} (h : MakesObj i n d' s s') (hinv : VfsInv p δ ε s)
    (hdel : s'.deletions = s.deletions) : Retains p s s' :=
  ⟨h.opened, fun _ hr hu => h.unlinked (h.opened_ne hinv hr) hu, hdel⟩

/-- An object is created and opened. -/
theorem MakesObj.keep {i n : ℕ} {d' : Dev} (h : MakesObj i n d' s s') (hinv : VfsInv p δ ε s)
    (h' : Opens p s' s'') : Keep p s s'' := by
  refine ⟨fun r hr hu => h'.unlinked r (h.unlinked (h.opened_ne hinv hr) hu),
    fun r hr _ => Or.inl (h'.opened r ((h.opened r).mpr hr)), fun r hr => ?_⟩
  rw [h'.deletions] at hr
  have hrn : r = ⟨i, n⟩ := by
    by_contra hne
    exact hr (h.deletions_eq hne)
  subst hrn
  exact Or.inr h.new

theorem namedDir_spec {d : Dev} {o : ℕ} (h : namedDir d o = true) :
    o ∈ d.ids ∧ (d.obj o).variantType = .directory ∧ (d.obj o).unlinked = false ∧
      ¬(o = objectIdUnlinked ∨ o = objectIdDeleted) := by
  unfold namedDir named reachable findByNumber at h
  simp only [Bool.and_eq_true, decide_eq_true_eq, Bool.not_eq_true', bne_iff_ne, ne_eq] at h
  obtain ⟨⟨⟨⟨⟨hid, -⟩, hun⟩, htype⟩, h3⟩, h4⟩ := h
  refine ⟨?_, htype, hun, fun h => h.elim h3 h4⟩
  split_ifs at hid with hm
  · exact hm.1
  · exact Bool.noConfusion hid

theorem named_spec {d : Dev} {o : ℕ} (h : named d o = true) :
    o ∈ d.ids ∧ (d.obj o).unlinked = false ∧ (d.obj o).deleted = false := by
  unfold named reachable findByNumber at h
  simp only [Bool.and_eq_true, Bool.not_eq_true'] at h
  obtain ⟨⟨hid, hdel⟩, hun⟩ := h
  refine ⟨?_, hun, hdel⟩
  split_ifs at hid with hm
  · exact hm.1
  · exact Bool.noConfusion hid

theorem openCreate_spec {a : OpenArgs} (h : VfsInv p δ 0 s)
    (hdir : ∀ r, a.dir = some r → namedDir (s.dev r.dev) r.obj = true) :
    (∃ i n d', (openCreate p a s).2 = some ⟨i, n⟩ ∧ MakesObj i n d' s (openCreate p a s).1 ∧
      n ∈ d'.ids ∧ (d'.obj n).variantType = .file ∧ (d'.obj n).deleted = false ∧
      (openCreate p a s).1.deletions ⟨i, n⟩ = 0) ∨
    (openCreate p a s).2 = none ∧ VfsInv p δ 0 (openCreate p a s).1 ∧ Retains p s (openCreate p a s).1 := by
  have hstay : VfsInv p δ 0 s ∧ Retains p s s := ⟨h, (Steady.refl s).retains⟩
  unfold openCreate
  cases hd : a.dir with
  | none => exact Or.inr ⟨rfl, hstay⟩
  | some dir =>
    simp only
    split_ifs with hdenied
    · exact Or.inr ⟨rfl, hstay⟩
    · obtain ⟨hid, htype, hun, hplain⟩ := namedDir_spec (hdir dir hd)
      rcases createObj_spec (g := p.geometry dir.dev) (e := p.env dir.dev) (h.tied dir.dev) hid htype hun hplain a.name 0 []
        with ⟨n, hsome, hcreate, hnew, hmem, hfile, hdel⟩ | ⟨hnone, n, hcreate, hnew, hgone⟩
      · rw [hsome]
        exact Or.inl ⟨dir.dev, n, _, rfl, ⟨hcreate, hnew, rfl, rfl, rfl, Vfs.onDev_dev s dir.dev fun _ =>
          (createObj (p.geometry dir.dev) (p.env dir.dev) .file dir.obj a.name 0 [] (s.dev dir.dev)).1, Or.inr rfl⟩,
          hmem, hfile, hdel, by simp⟩
      · rw [hnone]
        have hmakes : MakesObj dir.dev n _ s (s.onDev dir.dev fun _ =>
            (createObj (p.geometry dir.dev) (p.env dir.dev) .file dir.obj a.name 0 [] (s.dev dir.dev)).1) :=
          ⟨hcreate, hnew, rfl, rfl, rfl, Vfs.onDev_dev s dir.dev _, Or.inl ⟨rfl, hgone⟩⟩
        exact Or.inr ⟨rfl, h.makesObj hmakes, hmakes.retains h rfl⟩

theorem openFails_spec {i : ℕ} {dsc : Option ℤ} (hi : i < p.nHandles) (hδ : ∀ f, 0 ≤ δ f) (h : VfsInv p δ 0 s) :
    VfsInv p δ 0 (openFails p i dsc s) ∧ Releases p s (openFails p i dsc s) := by
  unfold openFails
  cases dsc with
  | none => exact putHandleAt_spec hi hδ h
  | some addr =>
    have hclose : VfsInv p δ 0 (closedir p addr s) :=
      h.tables ⟨h.handleCount, h.count⟩ (fun _ => rfl) (fun _ _ => Iff.rfl) rfl rfl
    have hsteady : Steady s (closedir p addr s) := Steady.tables (fun _ => rfl) rfl rfl
    obtain ⟨hinv, hrel⟩ := putHandleAt_spec hi hδ hclose
    exact ⟨hinv, hrel.after hsteady.retains⟩

theorem opendir_spec (h : VfsInv p δ ε s) :
    VfsInv p δ ε (opendir p s).1 ∧ (opendir p s).1.dev = s.dev ∧ (opendir p s).1.inode = s.inode ∧
      (opendir p s).1.fd = s.fd ∧ (opendir p s).1.deletions = s.deletions := by
  unfold opendir
  split
  · exact ⟨h.tables ⟨h.handleCount, h.count⟩ (fun _ => rfl) (fun _ _ => Iff.rfl) rfl rfl, rfl, rfl, rfl, rfl⟩
  · exact ⟨h, rfl, rfl, rfl, rfl⟩

theorem openSharing_spec {a : OpenArgs} (hδ : ∀ f, 0 ≤ δ f) (h : VfsInv p δ 0 s)
    (hobj : ∀ r, a.obj = some r → named (s.dev r.dev) r.obj = true)
    (hdir : ∀ r, a.dir = some r → namedDir (s.dev r.dev) r.obj = true) :
    VfsInv p δ 0 (openSharing p a s).1 ∧ Keep p s (openSharing p a s).1 := by
  unfold openSharing
  split_ifs
  · exact ⟨h, (Steady.refl s).opens.keep⟩
  obtain ⟨hinv, hsteady, hdev, hnew⟩ := newHandleAndFileDes_spec hδ h
  simp only
  cases hr : (newHandleAndFileDes p s).2 with
  | none => exact ⟨hinv, hsteady.opens.keep⟩
  | some hf =>
    obtain ⟨i, f⟩ := hf
    obtain ⟨hi, hf, hcount, hnone⟩ := hnew i f hr
    simp only
    generalize (newHandleAndFileDes p s).1 = t at *
    cases hfound : a.found t with
    | some r =>
      simp only
      obtain ⟨hr, htype⟩ := Option.filter_eq_some_iff.mp hfound
      obtain ⟨hid, hun, hdel⟩ := named_spec (hobj r hr)
      rw [← hdev] at hid hun hdel
      -- The state after the search context of a directory has been taken.
      have hdsc : ∀ isDir : Bool, ∃ dsc u, (if isDir then opendir p t else (t, none)) = (u, dsc) ∧ VfsInv p δ 0 u ∧
          u.dev = t.dev ∧ u.inode = t.inode ∧ u.fd = t.fd ∧ u.deletions = t.deletions := by
        intro isDir
        cases isDir
        · exact ⟨none, t, rfl, hinv, rfl, rfl, rfl, rfl⟩
        · exact ⟨(opendir p t).2, (opendir p t).1, rfl, opendir_spec hinv⟩
      obtain ⟨dsc, u, hu, hinvu, hdevu, hinodeu, hfdu, hdelu⟩ := hdsc (decide ((t.obj r).variantType = .directory))
      rw [hu]
      simp only
      have hst : Steady s u := hsteady.trans (Steady.tables (fun _ => by rw [hinodeu]) hdevu hdelu)
      have hobju : u.obj r = t.obj r := by
        unfold Vfs.obj
        rw [hdevu]
      split_ifs
      · obtain ⟨hend, hrel⟩ := openFails_spec hi hδ hinvu
        exact ⟨hend, (hrel.after hst.retains).keep⟩
      · have hlinked : u.deletions r = 0 := by
          rw [hdelu]
          exact hinv.linked r hid hun
        obtain ⟨hend, hopens⟩ := openObj_spec (a := a) (f := f) (r := r) hinvu hf
          (by rw [hfdu, hcount]; exact Int.one_pos) (by rw [hfdu]; exact hnone) (by rw [hdevu]; exact hid)
          (by rw [hobju]; simpa using htype) (by rw [hobju]; exact hdel) hlinked
        exact ⟨hend, (hst.opens.trans hopens).keep⟩
    | none =>
      simp only
      rcases openCreate_spec (a := a) hinv (fun r hr => by rw [hdev]; exact hdir r hr) with
        ⟨dev, n, d', hsome, hmakes, hmem, hfile, hdel, hzero⟩ | ⟨hnone', hinv', hkeeps⟩
      · rw [hsome]
        simp only
        have hinv' := hinv.makesObj hmakes
        have hself : (openCreate p a t).1.obj ⟨dev, n⟩ = d'.obj n := by
          rw [hmakes.obj, if_pos rfl]
        obtain ⟨hend, hopens⟩ := openObj_spec (a := a) (f := f) (r := ⟨dev, n⟩) hinv' hf
          (by rw [hmakes.fd, hcount]; exact Int.one_pos) (by rw [hmakes.fd]; exact hnone)
          (by rw [hmakes.dev, if_pos rfl]; exact hmem) (by rw [hself]; exact Or.inl hfile)
          (by rw [hself]; exact hdel) hzero
        have hkeep := hmakes.keep hinv hopens
        refine ⟨hend, fun r hr hu => hkeep.unlinked r ((hsteady.opened r).mpr hr) (hsteady.unlinked r hu),
          fun r hr hu => hkeep.held r ((hsteady.opened r).mpr hr) (hsteady.unlinked r hu), fun r hr => ?_⟩
        rw [← hsteady.deletions] at hr
        refine (hkeep.only r hr).imp (fun ho => ⟨(hsteady.opened r).mp ho.1, ho.2⟩) fun hm => ?_
        rwa [hdev] at hm
      · rw [hnone']
        obtain ⟨hend, hrel⟩ : VfsInv p δ 0 (openFails p i none _) ∧ Releases p _ (openFails p i none _) :=
          openFails_spec hi hδ hinv'
        exact ⟨hend, ((hrel.after hkeeps).after hsteady.retains).keep⟩

/-! ### The other calls -/

theorem close_spec (hδ : ∀ f, 0 ≤ δ f) (h : VfsInv p δ 0 s) (hd : ℤ) : VfsInv p δ 0 (close p hd s).1 ∧ Releases p s (close p hd s).1 := by
  unfold close
  split
  · rename_i r f _ _
    have hflush : ∀ t, t = (if (s.fd f).isDir then s
        else s.onDev r.dev fun d => (flushFile (p.geometry r.dev) (p.env r.dev) r.obj false true d).1) →
        VfsInv p δ 0 t ∧ Steady s t := by
      rintro t rfl
      split_ifs
      · exact ⟨h, Steady.refl s⟩
      · exact h.evolving r.dev (flushFile_evolving r.obj false true)
    obtain ⟨hinv, hsteady⟩ := hflush _ rfl
    obtain ⟨hput, hrel⟩ := putHandle_spec hδ hinv hd
    exact ⟨hput, hrel.after hsteady.retains⟩
  · exact ⟨h, (Steady.refl s).releases⟩

theorem doReadLoop_spec (hd : ℤ) (fuel : ℕ) : ∀ (n pos : ℕ) {s : Vfs}, VfsInv p δ 0 s →
    VfsInv p δ 0 (doReadLoop p hd fuel n pos s).1 ∧ Steady s (doReadLoop p hd fuel n pos s).1 := by
  induction fuel with
  | zero => exact fun n pos s h => ⟨h, Steady.refl s⟩
  | succ fuel ih =>
    intro n pos s h
    rw [doReadLoop]
    split_ifs
    · exact ⟨h, Steady.refl s⟩
    · simp only
      cases hr : handleToObject p s hd with
      | none => exact ⟨h, Steady.refl s⟩
      | some r =>
        obtain ⟨hinv, hsteady⟩ := h.evolving r.dev (fileRd_evolving (g := p.geometry r.dev) (e := p.env r.dev)
          r.obj pos (min n (rwSize - pos % rwSize)))
        obtain ⟨hinv', hsteady'⟩ := ih (n - min n (rwSize - pos % rwSize)) (pos + min n (rwSize - pos % rwSize)) hinv
        exact ⟨hinv', hsteady.trans hsteady'⟩

theorem doWriteLoop_spec (hd : ℤ) (fuel : ℕ) : ∀ (buf : List UInt8) (pos : ℕ) {s : Vfs}, VfsInv p δ 0 s →
    VfsInv p δ 0 (doWriteLoop p hd fuel buf pos s).1 ∧ Steady s (doWriteLoop p hd fuel buf pos s).1 := by
  induction fuel with
  | zero => exact fun buf pos s h => ⟨h, Steady.refl s⟩
  | succ fuel ih =>
    intro buf pos s h
    rw [doWriteLoop]
    split_ifs
    · exact ⟨h, Steady.refl s⟩
    · simp only
      cases hr : handleToObject p s hd with
      | none => exact ⟨h, Steady.refl s⟩
      | some r =>
        simp only
        split_ifs
        · exact ⟨h, Steady.refl s⟩
        all_goals
          obtain ⟨hinv, hsteady⟩ := h.evolving r.dev (wrFile_evolving (g := p.geometry r.dev) (e := p.env r.dev)
            r.obj (buf.take (min buf.length (rwSize - pos % rwSize))) pos false)
        · obtain ⟨hinv', hsteady'⟩ := ih (buf.drop (min buf.length (rwSize - pos % rwSize)))
            (pos + min buf.length (rwSize - pos % rwSize)) hinv
          exact ⟨hinv', hsteady.trans hsteady'⟩
        · exact ⟨hinv, hsteady⟩

/-- A transfer ends : the handle is put back and the position of the descriptor moves. -/
theorem putHandle_moves {s t : Vfs} {f : ℕ} (hδ : ∀ f, 0 ≤ δ f) (hinv : VfsInv p δ 0 t) (hsteady : Steady s t) (hf : f < p.nHandles)
    (hd v : ℤ) (stays : Prop) [Decidable stays] :
    VfsInv p δ 0 (if stays then putHandle p hd t else (putHandle p hd t).modFd f fun fd => { fd with v := v }) ∧
      Releases p s (if stays then putHandle p hd t
        else (putHandle p hd t).modFd f fun fd => { fd with v := v }) := by
  obtain ⟨hput, hrel⟩ := putHandle_spec hδ hinv hd
  have hrel' := hrel.after hsteady.retains
  split_ifs
  · exact ⟨hput, hrel'⟩
  · obtain ⟨hend, hsteady'⟩ := hput.modFd (u := fun fd => { fd with v := v }) hf rfl fun _ => rfl
    exact ⟨hend, hrel'.before hsteady'⟩

theorem doRead_spec (hδ : ∀ f, 0 ≤ δ f) (h : VfsInv p δ 0 s) (hd : ℤ) (nbyte : ℕ) (isPread : Bool) (offset : ℤ) :
    VfsInv p δ 0 (doRead p hd nbyte isPread offset s).1 ∧
      Releases p s (doRead p hd nbyte isPread offset s).1 := by
  unfold doRead
  split
  · rename_i f r hf _
    obtain ⟨hinv, hsteady⟩ := getHandle_spec h hd
    simp only
    split
    · exact ⟨h, (Steady.refl s).releases⟩
    · generalize (if isPread then offset else (s.fd f).v) = startPos
      split
      · obtain ⟨hput, hrel⟩ := putHandle_spec hδ hinv hd
        exact ⟨hput, hrel.after hsteady.retains⟩
      · obtain ⟨hinv', hsteady'⟩ := doReadLoop_spec hd _ _ _ hinv
        exact putHandle_moves hδ hinv' (hsteady.trans hsteady') (handleToFileDes_spec hf).1 hd _ _
  · exact ⟨h, (Steady.refl s).releases⟩

theorem doWrite_spec (hδ : ∀ f, 0 ≤ δ f) (h : VfsInv p δ 0 s) (hd : ℤ) (buf : List UInt8) (isPwrite : Bool) (offset : ℤ) :
    VfsInv p δ 0 (doWrite p hd buf isPwrite offset s).1 ∧
      Releases p s (doWrite p hd buf isPwrite offset s).1 := by
  unfold doWrite
  split
  · rename_i f r hf _
    obtain ⟨hinv, hsteady⟩ := getHandle_spec h hd
    simp only
    split
    · exact ⟨h, (Steady.refl s).releases⟩
    · generalize (if (s.fd f).append then (getObjLength p s r : ℤ) else if isPwrite then offset
        else (s.fd f).v) = startPos
      split
      · obtain ⟨hput, hrel⟩ := putHandle_spec hδ hinv hd
        exact ⟨hput, hrel.after hsteady.retains⟩
      · obtain ⟨hinv', hsteady'⟩ := doWriteLoop_spec hd _ _ _ hinv
        exact putHandle_moves hδ hinv' (hsteady.trans hsteady') (handleToFileDes_spec hf).1 hd _ _
  · exact ⟨h, (Steady.refl s).releases⟩

theorem unlinkObj_spec (h : VfsInv p δ 0 s) {dev o : ℕ} (hid : o ∈ (s.dev dev).ids)
    (hs : ((s.dev dev).obj o).softDel = false) :
    VfsInv p δ 0 (s.onDev dev fun _ => (unlinkObj (p.geometry dev) (p.env dev) o (s.dev dev)).1) ∧
      Steady s (s.onDev dev fun _ => (unlinkObj (p.geometry dev) (p.env dev) o (s.dev dev)).1) := by
  obtain ⟨S, -, hev⟩ := unlinkObj_evolves (g := p.geometry dev) (e := p.env dev) (h.tied dev) hid hs
  exact h.onDev hev

theorem doUnlink_spec {a : UnlinkArgs} (h : VfsInv p δ 0 s)
    (hfound : ∀ dir, a.dir = some dir → ∀ o, findByName (s.dev dir.dev) dir.obj a.name = some o →
      named (s.dev dir.dev) o = true) :
    VfsInv p δ 0 (doUnlink p a s).1 ∧ Steady s (doUnlink p a s).1 := by
  unfold doUnlink
  split
  · rename_i dir r hdir _
    split
    · exact ⟨h, Steady.refl s⟩
    · cases ho : findByName (s.dev dir.dev) dir.obj a.name with
      | none => exact ⟨h, Steady.refl s⟩
      | some o =>
        obtain ⟨hid, -, hdel⟩ := named_spec (hfound dir hdir o ho)
        refine unlinkObj_spec h hid ?_
        by_contra hs
        have := ((h.tied dir.dev).soft o (by simpa using hs)).2
        rw [hdel] at this
        exact Bool.noConfusion this
  · exact ⟨h, Steady.refl s⟩

theorem funlink_spec (h : VfsInv p δ 0 s) (hd : ℤ) :
    VfsInv p δ 0 (funlink p hd s).1 ∧ Steady s (funlink p hd s).1 := by
  unfold funlink
  cases hr : handleToObject p s hd with
  | none => exact ⟨h, Steady.refl s⟩
  | some r =>
    simp only
    split
    · exact ⟨h, Steady.refl s⟩
    · obtain ⟨hid, -, -, hs⟩ := h.opened_live (handleToObject_opened hr)
      exact unlinkObj_spec h hid hs

/-! ## Runs -/

/-- Every call keeps the invariant. -/
theorem Vfs.step_spec (hδ : ∀ f, 0 ≤ δ f) (h : VfsInv p δ 0 s) (c : Call) : VfsInv p δ 0 (s.step p c) ∧ Keep p s (s.step p c) := by
  unfold Vfs.step
  split_ifs with hc
  · cases c with
    | openSharing a =>
      simp only [Call.found, Bool.and_eq_true, Option.all_eq_true] at hc
      exact openSharing_spec hδ h hc.1 hc.2
    | dup hd =>
      obtain ⟨hinv, hsteady⟩ := dup_spec hδ h hd
      exact ⟨hinv, hsteady.opens.keep⟩
    | close hd =>
      obtain ⟨hinv, hrel⟩ := close_spec hδ h hd
      exact ⟨hinv, hrel.keep⟩
    | read hd nbyte isPread offset =>
      obtain ⟨hinv, hrel⟩ := doRead_spec hδ h hd nbyte isPread offset
      exact ⟨hinv, hrel.keep⟩
    | write hd buf isPwrite offset =>
      obtain ⟨hinv, hrel⟩ := doWrite_spec hδ h hd buf isPwrite offset
      exact ⟨hinv, hrel.keep⟩
    | unlink a =>
      simp only [Call.found, Option.all_eq_true, Bool.and_eq_true] at hc
      obtain ⟨hinv, hsteady⟩ := doUnlink_spec h fun dir hdir o ho => (hc dir hdir).2 o ho
      exact ⟨hinv, hsteady.opens.keep⟩
    | funlink hd =>
      obtain ⟨hinv, hsteady⟩ := funlink_spec h hd
      exact ⟨hinv, hsteady.opens.keep⟩
  · exact ⟨h, (Steady.refl s).opens.keep⟩

/-- Every sequence of calls does. -/
theorem Vfs.run_spec (hδ : ∀ f, 0 ≤ δ f) (h : VfsInv p δ 0 s) (cs : List Call) : VfsInv p δ 0 (s.run p cs) := by
  induction cs generalizing s with
  | nil => exact h
  | cons c cs ih => exact ih (Vfs.step_spec hδ h c).1

theorem initHandles_spec {dev : ℕ → Dev} (hd : ∀ i, Tied [] (dev i)) : VfsInv p 0 0 (initHandles dev) where
  handleCount f _ := by
    have : openHandles p (initHandles dev) f = 0 := by
      unfold openHandles
      exact List.countP_eq_zero.mpr fun h _ => by simp [initHandles, Handle.refers]
    rw [this]
    rfl
  count i _ := by
    have : openFds p (initHandles dev) i = 0 := by
      unfold openFds
      exact List.countP_eq_zero.mpr fun h _ => by simp [initHandles, FileDes.refers]
    rw [this]
    rfl
  iObj i _ := by simp [initHandles]
  myInode i _ r hr := by simp [initHandles] at hr
  tied := hd
  once r := by simp [initHandles]
  opened r _ := rfl
  linked r _ _ := rfl

/-- A state that calls reach with the devices mounted as `dev`. -/
def Vfs.Reachable (p : VfsParam) (dev : ℕ → Dev) (s : Vfs) : Prop :=
  ∃ cs, (initHandles dev).run p cs = s

/-- The counts are the numbers of users, and what is unlinked while it is open is deleted once, by the
call that releases its last descriptor. -/
theorem reachable_refcounts {dev : ℕ → Dev} (hd : ∀ i, Tied [] (dev i)) (hs : Vfs.Reachable p dev s) :
    (∀ f < p.nHandles, (s.fd f).handleCount = openHandles p s f) ∧
    (∀ i < p.nHandles, (s.inode i).count = openFds p s i) ∧
    (∀ i < p.nHandles, (s.inode i).iObj.isSome ↔ 0 < (s.inode i).count) ∧
    (∀ i < p.nHandles, ∀ r, (s.inode i).iObj = some r → (s.obj r).myInode = some i) ∧
    (∀ r, Opened p s r → s.deletions r = 0 ∧ r.obj ∈ (s.dev r.dev).ids ∧ (s.obj r).deleted = false) ∧
    (∀ r, s.deletions r ≤ 1) ∧
    ∀ c, Keep p s (s.step p c) := by
  obtain ⟨cs, rfl⟩ := hs
  have h := Vfs.run_spec (fun _ => le_rfl) (initHandles_spec (p := p) hd) cs
  refine ⟨fun f hf => ?_, fun i hi => ?_, h.iObj, h.myInode, fun r hr => ?_, h.once,
    fun c => (Vfs.step_spec (fun _ => le_rfl) h c).2⟩
  · have := h.handleCount f hf
    simpa using this
  · have := h.count i hi
    simpa using this
  · obtain ⟨hid, -, hdel, -⟩ := h.opened_live hr
    exact ⟨h.opened r hr, hid, hdel⟩

/-- A hundred handles over sample devices. -/
def sampleVfs : VfsParam where
  nHandles := 100
  nDsc := 10
  dscAddr i := i + 1
  geometry _ := sampleGeometry
  env _ := okEnv
  readOnly _ := false
  maxObjects _ := 0

/-- The root directory of a blank sample device is opened and its handle duplicated. -/
def sampleOpened : Vfs :=
  (initHandles fun _ => freshDev sampleGeometry fun _ => false).run sampleVfs
    [.openSharing
      { pathOk := true, obj := some ⟨0, objectIdRoot⟩, dir := none, name := [], loop := false
        access := .rdOnly, oCreat := false, oExcl := false, oTrunc := false, oAppend := false
        shareRead := true, shareWrite := true, mayRead := true, mayWrite := true },
      .dup 0]

/-- The descriptor that is opened and duplicated has two handles. -/
theorem sampleOpened_refcounts : (sampleOpened.fd 0).handleCount = 2 ∧
    (sampleOpened.fd 0).handleCount = openHandles sampleVfs sampleOpened 0 :=
  ⟨by decide +kernel, (reachable_refcounts (p := sampleVfs) (fun _ => freshDev_tied sampleGeometry fun _ => false)
    ⟨_, rfl⟩).1 0 (by decide)⟩

end Invariant

end Yaffs

import Yaffs.Ownership
import Yaffs.Gc

/-!
# The invariant of a device

`Inv` : the accounts of the block management and the ownership of chunks, together. The
steps that give an object a chunk or take one away keep it, and so do the changes of
objects that leave what they own.
-/

namespace Yaffs

variable {g : Geometry} {e : Env} {T : ℕ → BlockState → Prop} {soft : ℕ → Bool}

/-! ## Accounts -/

/-- A write may touch any block. -/
def anyBlock (_ : ℕ) : Prop :=
  True

/-- The accounts of the block management, of which `soft` are the soft-deleted chunks. -/
structure Accounts (g : Geometry) (T : ℕ → BlockState → Prop) (soft : ℕ → Bool) (d : BlockDev) :
    Prop where
  blk : BlkInv g T d
  opn : OpenInv g d
  free : FreeInv g soft 0 d
  checkptInv : CheckptInv g d
  programmed : Programmed d

namespace Accounts

variable {d d' : BlockDev} {c prev : ℕ} {p : Page} {K : Pages}

theorem ready (h : Accounts g T soft d) : Ready g T anyBlock d :=
  ⟨h.blk, h.opn, fun _ _ => trivial⟩

theorem wrote (h : Accounts g T soft d) (hw : Wrote g T anyBlock d d' K) : Accounts g T soft d' :=
  ⟨hw.keeps.blk, hw.opn, hw.keeps.free _ _ h.free, hw.keeps.checkptInv h.checkptInv,
    hw.programmed h.programmed⟩

theorem delete (h : Accounts g T soft d) (hc : d.chunkBits c = true) (hs : soft c = false) (m : Bool) :
    Accounts g T soft (chunkDel g e c m d) := by
  have hdel := chunkDel_spec (e := e) h.blk hc m
  exact ⟨hdel.blk, hdel.opn h.blk h.opn, hdel.free _ _ hs h.free, hdel.checkptInv h.checkptInv,
    hdel.programmed fun c' _ => h.programmed c'⟩

theorem countsOnly (h : Accounts g T soft d) (hd : CountsOnly d d') : Accounts g T soft d' := by
  obtain ⟨n, t, rfl⟩ := hd
  exact ⟨{ h.blk with }, { h.opn with }, { h.free with }, h.checkptInv, h.programmed⟩

/-- What the gc has chosen may change, as long as it is a block to collect. -/
theorem setGc (h : Accounts g T soft d) (gc : GcCursor)
    (hgc : ∀ b, b ≠ 0 → b = gc.block ∨ b = gc.dirtiest →
      b ∈ g.blocks ∧ (d.blockInfo b).blockState.collectable = true) :
    Accounts g T soft { d with gc := gc } where
  blk := { h.blk with
    cands := fun b hb hc => by
      rcases hc with hc | hc | hc
      · exact hgc b hb (Or.inl hc)
      · exact hgc b hb (Or.inr hc)
      · exact h.blk.cands b hb (Or.inr (Or.inr hc)) }
  opn := { h.opn with }
  free := { h.free with }
  checkptInv := h.checkptInv
  programmed := h.programmed

theorem bit_of_kept (hp : d.kept c = some p) : d.chunkBits c = true :=
  (kept_eq_some.mp hp).1

/-- A page has been written, and the one it replaces is deleted. -/
theorem swap (h : Accounts g T soft d) (hw : Wrote g T anyBlock d d' (Function.update d.kept c (some p)))
    (hc : d.kept c = none) {q : Page} (hq : d.kept prev = some q) (hs : soft prev = false) (m : Bool) :
    Accounts g T soft (chunkDel g e prev m d') ∧
      (chunkDel g e prev m d').kept = replacePage d.kept prev c p := by
  have hne : c ≠ prev := by
    rintro rfl
    simp [hc] at hq
  have hbit : d'.chunkBits prev = true := by
    refine bit_of_kept (p := q) ?_
    rw [hw.kept, Function.update_of_ne (Ne.symm hne), hq]
  refine ⟨(h.wrote hw).delete hbit hs m, ?_⟩
  rw [(chunkDel_spec (h.wrote hw).blk hbit m).kept, hw.kept, replacePage_eq hne]

end Accounts

theorem CountsOnly.kept {d d' : BlockDev} (h : CountsOnly d d') : d'.kept = d.kept := by
  obtain ⟨n, t, rfl⟩ := h
  rfl

theorem chunkDel_zero {d : BlockDev} (m : Bool) : chunkDel g e 0 m d = d := by
  simp [chunkDel]

/-! ## The invariant -/

/-- The accounts are kept, and chunks and objects own each other. -/
structure Inv (g : Geometry) (T : ℕ → BlockState → Prop) (d : Dev) : Prop where
  acc : Accounts g T (softOf d.kept d.obj) d.toBlockDev
  own : Own g d.kept d.ids d.obj

namespace Inv

variable {d : Dev} {bd : BlockDev} {o k c : ℕ} {p : Page}

/-- A step of the block management that leaves the pages kept for objects. -/
theorem setBlocks (h : Inv g T d) (hacc : Accounts g T (softOf d.kept d.obj) bd)
    (hkept : bd.kept = d.kept) : Inv g T { d with toBlockDev := bd } where
  acc := by
    change Accounts g T (softOf bd.kept d.obj) bd
    rwa [hkept]
  own := by
    change Own g bd.kept d.ids d.obj
    rw [hkept]
    exact h.own

theorem wrote (h : Inv g T d) (hw : Wrote g T anyBlock d.toBlockDev bd d.kept) :
    Inv g T { d with toBlockDev := bd } :=
  h.setBlocks (h.acc.wrote hw) hw.kept

theorem countsOnly (h : Inv g T d) (hd : CountsOnly d.toBlockDev bd) :
    Inv g T { d with toBlockDev := bd } :=
  h.setBlocks (h.acc.countsOnly hd) hd.kept

/-- Objects change, but not what they own. -/
theorem setObj (h : Inv g T d) {obj : ℕ → Obj} (hob : ∀ o, (d.obj o).SameOwner (obj o)) :
    Inv g T { d with obj := obj } where
  acc := by
    change Accounts g T (softOf d.kept obj) d.toBlockDev
    rw [softOf_congr fun o => (hob o).softDel]
    exact h.acc
  own := h.own.congr hob

theorem modObj (h : Inv g T d) {f : Obj → Obj} (hf : (d.obj o).SameOwner (f (d.obj o))) :
    Inv g T (d.modObj o f) := by
  refine h.setObj fun o' => ?_
  by_cases hoo : o' = o
  · subst hoo
    simpa using hf
  · simpa [hoo] using Obj.SameOwner.refl _

end Inv

/-! ## Chunks change hands -/

theorem softOf_replacePage {K : Pages} {obj : ℕ → Obj} {prev c : ℕ} {p : Page} (hc : K c = none)
    (hprev : softOf K obj prev = false)
    (hp : p.tags.chunkId = 0 ∨ (obj p.tags.objId).softDel = false) :
    softOf (replacePage K prev c p) obj = softOf K obj := by
  have hdrop : softOf (Function.update K prev none) obj = softOf K obj :=
    softOf_update hprev (by simp)
  rw [replacePage, softOf_update _ fun q hq => Option.some.inj hq ▸ hp, hdrop]
  rw [hdrop]
  exact Own.softOf_none hc

/-- A chunk that came into use is a chunk of the device. -/
theorem Wrote.mem_chunks {d d' : BlockDev} {K : Pages} {c : ℕ} {p : Page} (h : Wrote g T anyBlock d d' K)
    (hp : K c = some p) : c ∈ g.chunks := by
  rw [← h.kept] at hp
  exact Yaffs.mem_chunks.mpr (h.keeps.blk.bit_mem c (Accounts.bit_of_kept hp))

/-- A page an object can own. -/
structure Ownable (d : Dev) (o k : ℕ) (p : Page) : Prop where
  key : p.key = (o, k)
  id : o ∈ d.ids
  notFreed : (d.obj o).deferredFree = false
  unmarked : p.tags.isDeleted = false

namespace Inv

variable {d : Dev} {bd : BlockDev} {o k c prev : ℕ} {p : Page}

/-- The object `o` has a new header chunk, in place of the old one. -/
theorem swapHdr (h : Inv g T d) (hp : Ownable d o 0 p) (hdata : ∃ oh, p.data = .hdr oh)
    (hc : d.kept c = none) (hmem : c ∈ g.chunks)
    (hacc : Accounts g T (softOf d.kept d.obj) bd)
    (hkept : bd.kept = replacePage d.kept (d.obj o).hdrChunk c p) :
    Inv g T { d with
      toBlockDev := bd, obj := Function.update d.obj o { d.obj o with hdrChunk := c } } where
  acc := by
    change Accounts g T (softOf bd.kept _) bd
    have hsame : ∀ o', (Function.update d.obj o { d.obj o with hdrChunk := c } o').softDel =
        (d.obj o').softDel := by
      intro o'
      by_cases hoo : o' = o
      · subst hoo
        simp
      · simp [hoo]
    rw [softOf_congr hsame, hkept, softOf_replacePage hc (h.own.softOf_hdr o)]
    · exact hacc
    · exact Or.inl (Prod.mk.inj hp.key).2
  own := by
    change Own g bd.kept d.ids _
    rw [hkept]
    exact h.own.putHdr hc hmem hp.key hp.id hp.notFreed hp.unmarked hdata

/-- The file `o` has a new chunk `k`, in place of the one in `prev` if there is one. -/
theorem swapData (h : Inv g T d) (hp : Ownable d o k p) (hk : k ≠ 0)
    (hdata : ∃ bs, p.data = .bytes bs ∧ bs.length = g.dataBytesPerChunk)
    (hfile : (d.obj o).variantType = .file) (hsoft : (d.obj o).softDel = false)
    (hc : d.kept c = none) (hmem : c ∈ g.chunks)
    (hold : ∀ c' q, d.kept c' = some q → q.key = (o, k) → c' = prev)
    (hprev : ∀ q, d.kept prev = some q → q.key = (o, k)) {f : FileVar}
    (hf : ∀ k', f.entry k' = if k' = k then groupOf g c else (d.obj o).file.entry k')
    (hl : f.topLevel ≤ tnodesMaxLevel) {n : ℤ}
    (hn : n = (d.obj o).nDataChunks + if d.kept prev = none then 1 else 0)
    (hacc : Accounts g T (softOf d.kept d.obj) bd)
    (hkept : bd.kept = replacePage d.kept prev c p) :
    Inv g T { d with
      toBlockDev := bd, obj := Function.update d.obj o { d.obj o with file := f, nDataChunks := n } } where
  acc := by
    change Accounts g T (softOf bd.kept _) bd
    have hsame : ∀ o', (Function.update d.obj o { d.obj o with file := f, nDataChunks := n } o').softDel =
        (d.obj o').softDel := by
      intro o'
      by_cases hoo : o' = o
      · subst hoo
        simp
      · simp [hoo]
    have hpo := (Prod.mk.inj hp.key).1
    rw [softOf_congr hsame, hkept, softOf_replacePage hc]
    · exact hacc
    · cases hq : d.kept prev with
      | none => exact Own.softOf_none hq
      | some q => simp [softOf, hq, (Prod.mk.inj (hprev q hq)).1, hsoft]
    · exact Or.inr (hpo ▸ hsoft)
  own := by
    change Own g bd.kept d.ids _
    rw [hkept]
    exact h.own.putData hc hmem hp.key hk hp.id hp.notFreed hp.unmarked hfile hsoft hdata hold hprev
      hf hl hn

end Inv

end Yaffs

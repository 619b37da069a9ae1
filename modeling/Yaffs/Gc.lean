import Yaffs.Header

/-!
# Choosing blocks for garbage collection

`yaffs_check_gc` : whether to collect, how hard to look for a block and which block to
take. Only its effect matters, since no caller looks at its result.
-/

namespace Yaffs

variable (g : Geometry) (e : Env)

/-! ## The block to refresh -/

/-- The body of the loop of `yaffs2_find_refresh_block`, over `(oldest, oldest_seq)`. -/
def refreshStep (d : BlockDev) (acc : ℕ × ℕ) (b : ℕ) : ℕ × ℕ :=
  let bi := d.blockInfo b
  if bi.blockState = .full ∧ (acc.1 < 1 ∨ bi.seqNumber < acc.2) then (b, bi.seqNumber) else acc

/-- `yaffs2_find_refresh_block`. -/
def findRefreshBlock (d : BlockDev) : BlockDev × ℕ :=
  if g.isYaffs2 = false ∨ g.refreshPeriod < 10 then (d, 0)
  else
    let skip := min d.gc.refreshSkip g.refreshPeriod
    if 0 < skip then ({ d with gc := { d.gc with refreshSkip := skip } }, 0)
    else
      ({ d with gc := { d.gc with refreshSkip := g.refreshPeriod } },
        (g.blocks.foldl (refreshStep d) (0, 0)).1)

/-! ## The dirtiest block -/

/-- `YAFFS_GC_GOOD_ENOUGH` and `YAFFS_GC_PASSIVE_THRESHOLD`. -/
def gcGoodEnough : ℕ := 2
def gcPassiveThreshold : ℕ := 4

/-- The body of the loop over the prioritised blocks, with `selected` and
`prioritised_exist`. The loop ends with the first block selected. -/
def prioritisedStep (r : BlockDev × ℕ × Bool) (b : ℕ) : BlockDev × ℕ × Bool :=
  if r.2.1 ≠ 0 then r
  else if (r.1.blockInfo b).gcPrioritise then
    if (r.1.blockInfo b).blockState = .full then
      let q := blockOkForGc g b r.1
      (q.1, if q.2 then b else 0, true)
    else (r.1, 0, true)
  else r

/-- The part of `yaffs_find_gc_block` that grabs a prioritised block. -/
def findPrioritised (d : BlockDev) : BlockDev × ℕ :=
  let r := g.blocks.foldl (prioritisedStep g)
    ({ d with gc := { d.gc with dirtiest := 0 } }, 0, false)
  if r.2.2 then (r.1, if r.2.1 = 0 then r.1.oldestDirtyBlock else r.2.1)
  else ({ r.1 with gc := { r.1.gc with hasPendingPrioritised := false } }, r.2.1)

/-- The loop of `yaffs_find_gc_block` that looks for the dirtiest block. -/
def findDirtiestLoop : ℕ → BlockDev → BlockDev
  | 0, d => d
  | n + 1, d =>
    if d.gc.dirtiest < 1 ∨ gcGoodEnough < d.gc.pagesInUse then
      let b := g.nextBlock d.gc.blockFinder
      let d := { d with gc := { d.gc with blockFinder := b } }
      let bi := d.blockInfo b
      if bi.blockState = .full ∧ bi.pagesUsed < g.chunksPerBlock ∧
          (d.gc.dirtiest < 1 ∨ bi.pagesUsed < d.gc.pagesInUse) then
        let r := blockOkForGc g b d
        findDirtiestLoop n (if r.2 then
          { r.1 with gc := { r.1.gc with dirtiest := b, pagesInUse := bi.pagesUsed } } else r.1)
      else findDirtiestLoop n d
    else d

/-- The most pages in use with which the dirtiest block is taken. -/
def gcThreshold (aggressive background : Bool) (d : BlockDev) : ℕ :=
  if aggressive then g.chunksPerBlock
  else
    let maxThreshold :=
      max (if background then g.chunksPerBlock / 2 else g.chunksPerBlock / 8) gcPassiveThreshold
    min (max (if background then (d.gc.notDone + 2) * 2 else 0) gcPassiveThreshold) maxThreshold

/-- How many blocks are looked at for the dirtiest. -/
def gcIterations (aggressive : Bool) : ℕ :=
  let nBlocks := g.endBlock - g.startBlock + 1
  if aggressive then nBlocks else min (nBlocks / 16 + 1) 100

/-- The dirtiest block, if it is dirty enough. -/
def findDirtiest (aggressive background : Bool) (d : BlockDev) : BlockDev × ℕ :=
  let threshold := gcThreshold g aggressive background d
  let d := findDirtiestLoop g (gcIterations g aggressive) d
  (d, if d.gc.pagesInUse ≤ threshold then d.gc.dirtiest else 0)

/-- The oldest dirty block, when nothing has been selected for a while. -/
def findOldest (background : Bool) (d : BlockDev) : BlockDev × ℕ :=
  if g.isYaffs2 ∧ (if background then 10 else 20) ≤ d.gc.notDone then
    let d := findOldestDirtySeq g d
    let b := d.oldestDirtyBlock
    if 0 < b then
      ({ d with gc := { d.gc with dirtiest := b, pagesInUse := (d.blockInfo b).pagesUsed } }, b)
    else ({ d with gc := { d.gc with notDone := 0 } }, 0)
  else (d, 0)

/-- The end of `yaffs_find_gc_block`. -/
def gcSelected (r : BlockDev × ℕ) : BlockDev × ℕ :=
  let gc := r.1.gc
  if r.2 ≠ 0 then
    ({ r.1 with gc := { gc with
        dirtiest := 0, pagesInUse := 0, notDone := 0, refreshSkip := gc.refreshSkip - 1 } }, r.2)
  else ({ r.1 with gc := { gc with notDone := gc.notDone + 1 } }, 0)

/-- `yaffs_find_gc_block`. -/
def findGcBlock (aggressive background : Bool) (d : BlockDev) : BlockDev × ℕ :=
  let r := if d.gc.hasPendingPrioritised && !aggressive then findPrioritised g d else (d, 0)
  let r := if r.2 = 0 then findDirtiest g aggressive background r.1 else r
  let r := if r.2 = 0 then findOldest g background r.1 else r
  gcSelected r

/-! ## Checking for gc -/

/-- The first part of a round of `yaffs_check_gc` : `none` to leave the loop, else whether
to be aggressive. -/
def gcMode (background : Bool) (d : BlockDev) : BlockDev × Option Bool :=
  let erasedChunks := d.nErasedBlocks * g.chunksPerBlock
  if d.nErasedBlocks < ((g.nReservedBlocks + calcCheckptBlocksRequired g d + 1 : ℕ) : ℤ) then
    (d, some true)
  else if background = false ∧ d.nFreeChunks.tdiv 4 < erasedChunks then (d, none)
  else
    let skip := min d.gc.skip 20
    if erasedChunks < d.nFreeChunks.tdiv 2 ∨ skip < 1 ∨ background then
      ({ d with gc := { d.gc with skip := skip } }, some false)
    else ({ d with gc := { d.gc with skip := skip - 1 } }, none)

/-- Start on the block `r.2`. -/
def startGc (r : BlockDev × ℕ) : BlockDev :=
  { r.1 with gc := { r.1.gc with block := r.2, chunk := 0 } }

/-- The part of a round of `yaffs_check_gc` that chooses a block if none is being collected. -/
def chooseGcBlock (aggressive background : Bool) (d : Dev) : Dev :=
  let d := d.mapBlocks fun b => { b with gc := { b.gc with skip := 5 } }
  let d :=
    if d.gc.block < 1 && !aggressive then
      { d.mapBlocks fun b => startGc (findRefreshBlock g b) with gcCleanupList := [] }
    else d
  if d.gc.block < 1 then
    { d.mapBlocks fun b => startGc (findGcBlock g aggressive background b) with gcCleanupList := [] }
  else d

/-- The rest of the round. -/
def gcRound (aggressive background : Bool) (d : Dev) : Dev :=
  let d := chooseGcBlock g aggressive background d
  if 0 < d.gc.block then (gcBlock g e d.gc.block aggressive d).1 else d

/-- The loop of `yaffs_check_gc`. -/
def checkGcLoop (background : Bool) : ℕ → Dev → Dev
  | 0, d => d
  | n + 1, d =>
    let r := d.onBlocks (gcMode g background)
    match r.2 with
    | none => r.1
    | some aggressive =>
      let d := gcRound g e aggressive background r.1
      if d.nErasedBlocks < (g.nReservedBlocks : ℤ) ∧ 0 < d.gc.block then
        checkGcLoop background n d
      else d

/-- Ask `gc_control_fn`. -/
def gcControl (d : BlockDev) : BlockDev × Bool :=
  ({ d with nand := { d.nand with calls := d.nand.calls + 1 } }, e.gcPermitted d.nand.calls)

/-- `yaffs_check_gc`. -/
def checkGc (background : Bool) (d : Dev) : Dev :=
  let r := d.onBlocks (gcControl e)
  if r.2 && !r.1.gc.disable then checkGcLoop g e background 2 r.1 else r.1

/-! ## The functions that collect before they write -/

/-- `yaffs_update_oh`. -/
def updateOh (o : ℕ) (name : Option Name) (force isShrink : Bool) (shadows : ℕ) (d : Dev) :
    Dev × Option ℕ :=
  updateOhWith g e (checkGc g e false) o name force isShrink shadows d

/-- `yaffs_change_obj_name`. -/
def changeObjName (o : ℕ) (newDir : Option ℕ) (newName : Name) (force : Bool) (shadows : ℕ)
    (d : Dev) : Dev × Bool :=
  changeObjNameWith g e (checkGc g e false) o newDir newName force shadows d

/-- `yaffs_update_parent`. -/
def updateParent (dir : Option ℕ) (d : Dev) : Dev :=
  updateParentWith g e (checkGc g e false) dir d

/-- `yaffs_generic_obj_del`. -/
def genericObjDel (o : ℕ) (d : Dev) : Dev :=
  genericObjDelWith g e (checkGc g e false) o d

/-- `yaffs_soft_del_file`. -/
def softDelFile (o : ℕ) (d : Dev) : Dev :=
  softDelFileWith g e (checkGc g e false) o d

end Yaffs

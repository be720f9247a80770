import Recnodb.Locks

/-!
# Fixed-length records

The functions of `flatrecs.c`. A table is a chain of blocks; a record number is
resolved by walking the chain and counting the records each block can hold, and
blocks are added at its end until one contains the record.
-/

namespace Recnodb

open Interaction Octets

/-- The record size with its prefix byte. -/
def flatrecsFullRecsize (htable : RndHeadTable) : UInt32 := htable.thead.recSize + 1

def flatrecsGetRecordCapacity (htable : RndHeadTable) (hblock : InfoBlock) : UInt32 :=
  let bytesCapacity := hblock.blockSize - hblock.bytesToData.toUInt32
  let recsize := flatrecsFullRecsize htable
  if recsize > 0 then bytesCapacity / recsize else -1

/-- The variables of the search that change from round to round: the header that
`iblock` points to, the offset it was read from, and its first record number. -/
structure Search where
  iblock : InfoBlock
  iblockOffset : OffT
  startRec : UInt32
deriving DecidableEq, Repr

/-- The size of the block to be added for a record: `start_rec` is its first
record number. The number of chunks is an `int`. -/
def newBlockSize (recsize recno startRec chunkSize : UInt32) : UInt32 :=
  let newBytesNeeded := recsize * (recno - startRec)
  let chunksToAdd : Int32 :=
    (newBytesNeeded / chunkSize + if newBytesNeeded % chunkSize ≠ 0 then 1 else 0).toInt32
  chunksToAdd.toUInt32 * chunkSize

/-- At the end of the chain: add a block and go on with it. A failed extension
leaves the current block, but not the current record number, as they were. -/
def extendForRecord (handle : Rndh) (recsize recno : UInt32) (search : Search) :
    Prog (Search ⊕ (RndError × OffT)) := do
  let bdef : RndBlockDef :=
    { blockType := .data,
      blockSize := newBlockSize recsize recno search.startRec handle.headFile.fhead.chunkSize }
  note (.requested search.iblockOffset bdef)
  let (rval, bdef) ← blocksExtendChain handle search.iblockOffset bdef
  note (.extended search.iblockOffset rval bdef.newBlock)
  if rval = .success then
    let (rval, newblock) ← blocksReadBlockHead bdef.newBlock.offset
      (List.replicate sizeofInfoBlock 0) sizeofInfoBlock
    if rval ≠ .success then pure (.inr (rval, -1))
    else pure (.inl ⟨InfoBlock.ofBytes newblock, bdef.newBlock.offset, search.startRec⟩)
  else pure (.inl search)

/-- One round of the search loop. -/
def searchRound (handle : Rndh) (bloc : BlockLoc) (htable : RndHeadTable) (recno : UInt32)
    (search : Search) : Prog (Search ⊕ (RndError × OffT)) := do
  let recsize := flatrecsFullRecsize htable
  let recCapacity := flatrecsGetRecordCapacity htable search.iblock
  let localIndex := recno - search.startRec
  if localIndex < recCapacity then
    pure (.inr (.success,
      bloc.offset + search.iblock.bytesToData.toNat + (localIndex * recsize).toNat))
  else
    let startRec := search.startRec + recCapacity
    match ← blocksGetNextBlockHead search.iblock with
    | .ok (newblock, offset) => pure (.inl ⟨newblock, offset, startRec⟩)
    | .error .reachedEndOfBlockChain =>
      extendForRecord handle recsize recno { search with startRec := startRec }
    | .error rval => pure (.inr (rval, -1))

/-- Delivers the code and the offset, `-1` unless the record was found. Fuel
bounds the rounds of the loop. -/
def flatrecsMakeOffsetToRecno (fuel : Nat) (handle : Rndh) (bloc : BlockLoc)
    (htable : RndHeadTable) (recno : UInt32) : Prog (RndError × OffT) :=
  Program.iterate .fuel (searchRound handle bloc htable recno) fuel ⟨htable.bhead, bloc.offset, 1⟩

/-- `flatrecs_use_new_record`: whether the header is to be written back, and the
header as the callback left it. -/
abbrev FlatrecsUseNewRecord := Rndh → RndHeadTable → OffT → Prog (Bool × RndHeadTable)

/-- A failed search answers like a callback that changed nothing. -/
def flatrecsGetNextOffsetLockCallback (fuel : Nat) (user : FlatrecsUseNewRecord) : LockCallback :=
  fun handle bloc lockedBuffer => do
    let buffer := lockedBuffer.getD []
    let htable := RndHeadTable.ofBytes buffer
    let newRecno := htable.thead.lastRecno + 1
    note (.numbered newRecno)
    let (rval, newRecordOffset) ← flatrecsMakeOffsetToRecno fuel handle bloc htable newRecno
    if rval ≠ .success then pure (false, buffer)
    else
      note (.handed newRecno newRecordOffset)
      let (changed, htable) ← user handle htable newRecordOffset
      note (.answered changed)
      pure (changed, htable.toBytes)

def flatrecsGetNextOffset (fuel : Nat) (handle : Rndh) (tableHead : OffT)
    (user : FlatrecsUseNewRecord) : Prog RndError := do
  cAssert handle.file.isSome
  primeHandle
  rndLockArea handle ⟨tableHead, sizeofHeadTable⟩ true (flatrecsGetNextOffsetLockCallback fuel user)

end Recnodb

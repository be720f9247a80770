import Recnodb.Stdio

/-!
# Blocks

The functions of `blocks.c`. A file is a sequence of blocks, each starting with
a header; `next_block` links the blocks of a chain, and an offset of zero marks
its end. Header buffers are byte strings, because the source reads, patches and
writes them through casts whose lengths differ. A write into a buffer beyond its
end lengthens the string, and a write from one beyond its end asks the platform
for the memory next to it.
-/

namespace Recnodb

open Interaction Octets

/-- The null pointer is `none`. The magic is compared as four bytes. -/
def blocksValidateHeadFile : Option RndHeadFile → RndError
  | none => .badParameter
  | some headFile =>
      if headFile.fhead.chunkSize = 0
          ∨ headFile.fhead.magic ≠ rndb
          ∨ headFile.bhead.blockType = 0
          ∨ headFile.bhead.bytesToData = 0
          ∨ headFile.bhead.blockSize = 0 then
        .invalidHeadFile
      else .success

def blocksValidateHandle : Option Rndh → RndError
  | none => .badParameter
  | some handle =>
      if handle.file = none then .fileNotOpen
      else blocksValidateHeadFile (some handle.headFile)

def blocksHeadFileChunkSize (hf : RndHeadFile) : UInt32 := hf.fhead.chunkSize

/-- Without a handle the chunk size is 4096. -/
def blocksHandleChunkSize : Option Rndh → UInt32
  | some handle => blocksHeadFileChunkSize handle.headFile
  | none => 4096

/-- The remainder of C truncates, also for the `-1` of a failed `ftell`. -/
def blocksValidateNewBlockLocation (handle : Rndh) (newBlockLocation : OffT) : Bool :=
  newBlockLocation.tmod (blocksHandleChunkSize (some handle)).toNat == 0

/-- The length of the header of a type. -/
def blocksBytesToData (blockType : UInt16) : UInt16 :=
  if blockType = BType.table.code then 64
  else if blockType = BType.file.code then 72
  else 32

def blocksBlockPayloadSize (block : InfoBlock) : UInt32 :=
  block.blockSize - block.bytesToData.toUInt32

/-- Reads at most `sizeof(INFO_BLOCK)` bytes into the front of the buffer. A read that fails
delivers the buffer as it was: what `fread` has left of a partial item is unspecified, and no caller
looks at it. -/
def blocksReadBlockHead (offset : OffT) (block : List UInt8) (infoLen : Nat) :
    Prog (RndError × List UInt8) := do
  let bytesToRead := min sizeofInfoBlock infoLen
  match ← seekRead offset bytesToRead with
  | none =>
    keepErrno
    pure (.systemError, block)
  | some bytes => pure (.success, patch block 0 bytes.val)

/-- The out-parameters, the next header and its offset, are delivered on success only: behind a
failed read the header is unspecified, as that of `blocks_read_block_head` is. -/
def blocksGetNextBlockHead (block : InfoBlock) : Prog (Except RndError (InfoBlock × OffT)) := do
  if block.nextBlock.offset ≠ 0 then
    match ← seekRead block.nextBlock.offset sizeofInfoBlock with
    | none =>
      keepErrno
      pure (.error .systemError)
    | some bytes => pure (.ok (InfoBlock.ofBytes bytes.val, block.nextBlock.offset))
  else pure (.error .reachedEndOfBlockChain)

/-- What `fwrite` takes from a buffer and, when asked for more, from behind it. -/
def bufferBytes (block : List UInt8) (count : Nat) : Prog (List UInt8) := do
  if count ≤ block.length then pure (block.take count)
  else
    let beyond ← adjacent (count - block.length)
    pure (block ++ beyond.val)

/-- The write length is the larger of the header length and `info_len`. -/
def blocksWriteBlockHead (offset : OffT) (block : List UInt8) (infoLen : Nat) : Prog RndError := do
  let headLength := (blocksBytesToData (InfoBlock.ofBytes block).blockType).toNat
  let lenToWrite := if headLength < infoLen then infoLen else headLength
  let written ← do
    if ← fseek offset .seekSet then fwrite (← bufferBytes block lenToWrite) else pure false
  if written then pure .success
  else
    keepErrno
    pure .systemError

/-- The members behind `INFO_BLOCK` are written through casts of the buffer. -/
def blocksSetInfoBlock (blockHeadSize : Nat) (blockType : BType) (blockSize : UInt32)
    (recSize chunkSize : UInt32) : Prog (List UInt8) := do
  let ib := List.replicate blockHeadSize 0
  let bytesToData := blocksBytesToData blockType.code
  cAssert (bytesToData.toNat ≤ blockHeadSize)
  let ib := patch ib 0 (encode 2 blockType.code.toNat)
  let ib := patch ib 2 (encode 2 bytesToData.toNat)
  let ib := patch ib 4 (encode 4 blockSize.toNat)
  if bytesToData.toNat > sizeofInfoBlock then
    let ib := patch ib 56 (encode 4 recSize.toNat)
    if bytesToData.toNat > sizeofInfoTable then
      cAssert (chunkSize ≠ 0)
      let ib := patch ib 68 (encode 4 chunkSize.toNat)
      pure (patch ib 64 rndb)
    else pure ib
  else pure ib

def blocksSetInfoBlockStruct (blockHeadSize : Nat) (bdef : RndBlockDef) : Prog (List UInt8) :=
  blocksSetInfoBlock blockHeadSize bdef.blockType bdef.blockSize bdef.recSize bdef.chunkSize

/-- The first header of a new file is of type `RBT_TABLE`, with the length of a
file header. -/
def blocksPrepHeadFile (blockSize chunkSize recSize : UInt32) : Prog RndHeadFile := do
  cAssert (chunkSize > 0)
  let hf := RndHeadFile.ofBytes (List.replicate sizeofHeadFile 0)
  pure { hf with
    bhead := { hf.bhead with
      blockType := BType.table.code, blockSize := blockSize, bytesToData := 72 }
    thead := { hf.thead with recSize := recSize }
    fhead := { magic := rndb, chunkSize := chunkSize } }

/-- Write the end of the block, and go back to its start. The last byte lies at
`bytes_to_add - 1` from the end; the subtraction is of `size_t` and its result is
passed as `long`. -/
def writeEndOfBlock (bytesToAdd : UInt64) (newBlockLocation : OffT) : Prog RndError := do
  let written ← do
    if ← fseek (bytesToAdd - 1).toInt64.toInt .seekEnd then
      if ← fwrite [0] then fseek newBlockLocation .seekSet else pure false
    else pure false
  if written then pure .success
  else
    keepErrno
    pure .systemError

def blocksExtendFile (handle : Rndh) (bytesToAdd : UInt64) : Prog RndError := do
  cAssert (blocksValidateHandle (some handle) == .success)
  primeHandle
  if ← fseek 0 .seekEnd then
    let newBlockLocation ← ftell
    if blocksValidateNewBlockLocation handle newBlockLocation then
      writeEndOfBlock bytesToAdd newBlockLocation
    else pure .invalidBlockLocation
  else
    keepErrno
    pure .systemError

/-- The two measurements at the start. A failed one skips those behind it and
leaves `-1` as the position of the new block. -/
def measureEnd : Prog (OffT × OffT) := do
  let originalFilePosition ← ftell
  if originalFilePosition = -1 then pure (originalFilePosition, -1)
  else if ← fseek 0 .seekEnd then pure (originalFilePosition, ← ftell)
  else pure (originalFilePosition, -1)

/-- The header of the new block, in a buffer of exactly its length. -/
def writeNewHead (newBlockPosition : OffT) (bdef : RndBlockDef) : Prog RndError := do
  let headSize := (blocksBytesToData bdef.blockType.code).toNat
  let blockbuff ← blocksSetInfoBlockStruct headSize bdef
  blocksWriteBlockHead newBlockPosition blockbuff headSize

/-- The body between the two events of `blocksAppendBlock`. -/
def appendBlock (handle : Rndh) (bdef : RndBlockDef) : Prog (RndError × RndBlockDef) := do
  cAssert (blocksValidateHandle (some handle) == .success)
  primeHandle
  let (originalFilePosition, newBlockPosition) ← measureEnd
  if newBlockPosition = -1 then
    keepErrno
    if originalFilePosition ≠ 0 then
      let _ ← fseek originalFilePosition .seekSet
    pure (.systemError, bdef)
  else
    let bytesToAdd := bdef.blockSize.toUInt64
    let rval ← do
      match ← blocksExtendFile handle bytesToAdd with
      | .success => writeNewHead newBlockPosition bdef
      | rval => pure rval
    let _ ← fseek originalFilePosition .seekSet
    if rval = .success then
      pure (.success, { bdef with newBlock := ⟨newBlockPosition, bytesToAdd.toNat⟩ })
    else pure (rval, bdef)

/-- Delivers the code and the definition, whose `new_block` is set on success. -/
def blocksAppendBlock (handle : Rndh) (bdef : RndBlockDef) : Prog (RndError × RndBlockDef) := do
  note .appendEntered
  let (rval, bdef) ← appendBlock handle bdef
  note (.appendLeft rval bdef.newBlock)
  pure (rval, bdef)

/-- Whether a header names a child. -/
def blocksBlockPointsToChildTest (ib : List UInt8) : Bool :=
  (InfoBlock.ofBytes ib).nextBlock.offset != 0

def blocksUpdateLinkWithChild (ib : List UInt8) (newBlock : BlockLoc) : List UInt8 :=
  patch ib 16 newBlock.toBytes

/-- The scope of `blockbuff` in `blocksExtendChain`. The buffer for the old end of
the chain has the header length of the new block. -/
def linkNewBlock (chainEnd : OffT) (bdef : RndBlockDef) : Prog RndError := do
  let headSize := (blocksBytesToData bdef.blockType.code).toNat
  let blockbuff ← blocksSetInfoBlockStruct headSize bdef
  let (rval, ib) ← blocksReadBlockHead chainEnd blockbuff headSize
  if rval ≠ .success then pure rval
  else if blocksBlockPointsToChildTest ib then pure .attemptToOrphanBlock
  else blocksWriteBlockHead chainEnd (blocksUpdateLinkWithChild ib bdef.newBlock) headSize

def blocksExtendChain (handle : Rndh) (chainEnd : OffT) (bdef : RndBlockDef) :
    Prog (RndError × RndBlockDef) := do
  primeHandle
  let (rval, bdef) ← blocksAppendBlock handle bdef
  if rval ≠ .success then pure (rval, bdef)
  else
    let rval ← linkNewBlock chainEnd bdef
    pure (rval, bdef)

/-! ## Opening and closing -/

/-- `RND_CREATE` in the flags. -/
def rndCreate (flags : UInt32) : Bool := flags &&& 1 != 0

/-- A handle after `memset(handle, 0, sizeof(RNDH))`. -/
def Rndh.cleared : Rndh := ⟨none, RndHeadFile.ofBytes (List.replicate sizeofHeadFile 0)⟩

/-- Fill the header of a handle, by creating it or by reading it. The byte that
reserves the first block is the character zero. -/
def headOfOpenedFile (createMode : Bool) (chunkSize recSize : UInt32) (handle : Rndh) :
    Prog (RndError × Rndh) := do
  if createMode then
    let reserved ← do
      if ← fseek (chunkSize - 1).toNat .seekSet then
        if ← fwrite [0x30] then fseek 0 .seekSet else pure false
      else pure false
    if reserved then
      let headFile ← blocksPrepHeadFile chunkSize chunkSize recSize
      let handle := { handle with headFile := headFile }
      if ← fwrite headFile.toBytes then pure (.success, handle)
      else
        keepErrno
        pure (.systemError, handle)
    else
      keepErrno
      pure (.systemError, handle)
  else
    match ← fread sizeofHeadFile with
    | some bytes => pure (.success, { handle with headFile := RndHeadFile.ofBytes bytes.val })
    | none =>
      keepErrno
      pure (.systemError, handle)

/-- The path is the one file of the model. The handle keeps the stream that was
stored before a failed validation closed it. -/
def blocksFileOpen (flags : UInt32) (chunkSize recSize : UInt32) : Prog (RndError × Rndh) := do
  primeHandle
  match ← fopen (rndCreate flags) with
  | none =>
    keepErrno
    pure (.systemError, Rndh.cleared)
  | some f =>
    let (rval, handle) ← headOfOpenedFile (rndCreate flags) chunkSize recSize Rndh.cleared
    if rval ≠ .success then
      let _ ← fclose f
      pure (rval, handle)
    else
      let handle := { handle with file := some f }
      let rval := blocksValidateHandle (some handle)
      if rval ≠ .success then
        let _ ← fclose f
        pure (rval, handle)
      else pure (.success, handle)

def blocksFileClose (handle : Rndh) : Prog Rndh :=
  match handle.file with
  | none => pure handle
  | some stream => do
    let _ ← fclose stream
    pure { handle with file := none }

/-- `rnd_user`: the handle as the user leaves it. -/
abbrev RndUser := Rndh → Prog Rndh

/-- The handle lives in this call only; the code is that of the opening. -/
def blocksFileUse (flags : UInt32) (chunkSize recSize : UInt32) (user : RndUser) :
    Prog RndError := do
  let (rval, handle) ← blocksFileOpen flags chunkSize recSize
  if rval = .success then
    let handle ← user handle
    let _ ← blocksFileClose handle
    pure rval
  else pure rval

end Recnodb

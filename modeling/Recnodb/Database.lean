import Recnodb.Blocks

/-!
# Handles

The functions of `recnodb.c` that prepare, open and close a handle. A path is the file
behind it; an opening clears whatever the handle held before. The chunk size of
`rnd_open` is what `get_blocksize` of `extra.c` makes of the answer of `stat`.
-/

namespace Recnodb

open Interaction

/-- The prepared handle, and the code that is always success. -/
def rndInit : RndError × Rndh := (.success, Rndh.cleared)

/-- The record length is an `int` and is passed on as `uint32_t`. -/
def rndOpenRaw (reclen : Int32) (flags : UInt32) : Prog (RndError × Rndh) :=
  blocksFileOpen flags 4096 reclen.toUInt32

def rndCloseRaw (handle : Rndh) : Prog (RndError × Rndh) :=
  match handle.file with
  | some stream => do
    let _ ← fclose stream
    pure (.success, { handle with file := none })
  | none => pure (.fileNotOpen, handle)

/-- `st_blksize` of the current directory, unless `stat` fails. -/
def getBlocksize : Option UInt64 → UInt32
  | some stBlksize => stBlksize.toUInt32
  | none => 0

/-- The handle that `rnd_init` prepares is cleared once more by the opening. -/
def rndOpen (stat : Option UInt64) (reclen : Int32) (flags : UInt32) (user : RndUser) :
    Prog RndError := do
  let (result, handle) ← blocksFileOpen flags (getBlocksize stat) reclen.toUInt32
  if result = .success then
    let handle ← user handle
    let _ ← blocksFileClose handle
    pure result
  else pure result

end Recnodb

import Recnodb.Blocks

/-!
# Chains

The functions of `chains.c`. A walk reads each block of a chain into one buffer,
hands the buffer to a viewer and follows the link in it; the viewer's closure is
threaded through the walk as a value.
-/

namespace Recnodb

open Interaction Octets

/-- The link is replaced in the header as it was read. -/
def chainsAddLink (parent : OffT) (newLink : BlockLoc) : Prog RndError := do
  match ← seekRead parent sizeofInfoBlock with
  | none =>
    keepErrno
    pure .systemError
  | some bytes =>
    let ibParent := InfoBlock.ofBytes bytes.val
    if ibParent.nextBlock.offset ≠ 0 then pure .attemptToOrphanBlock
    else if ← seekWrite parent { ibParent with nextBlock := newLink }.toBytes then pure .success
    else
      keepErrno
      pure .systemError

/-- `block_walk_view`: whether to go on, and the header buffer and the closure as the
viewer left them. The viewer is given the buffer of the walk itself and the offset its
bytes were read from. -/
abbrev BlockWalkView (κ : Type) := List UInt8 → OffT → κ → Prog (Bool × List UInt8 × κ)

/-- One round of the loop, for the block in the buffer. -/
def chainsWalkRound {κ : Type} (viewer : BlockWalkView κ) :
    List UInt8 × OffT × κ → Prog ((List UInt8 × OffT × κ) ⊕ (RndError × κ))
  | (curblock, offBlock, closure) => do
    let (more, curblock, closure) ← viewer curblock offBlock closure
    if more then
      let offNext := (InfoBlock.ofBytes curblock).nextBlock.offset
      if offNext = 0 then pure (.inr (.success, closure))
      else
        match ← seekRead offNext sizeofHeadFile with
        | none =>
          keepErrno
          pure (.inr (.systemError, closure))
        | some bytes => pure (.inl (bytes.val, offNext, closure))
    else pure (.inr (.success, closure))

/-- Fuel bounds the number of blocks shown. -/
def chainsWalk {κ : Type} (fuel : Nat) (block : OffT) (viewer : BlockWalkView κ) (closure : κ) :
    Prog (RndError × κ) := do
  match ← seekRead block sizeofHeadFile with
  | none =>
    keepErrno
    pure (.systemError, closure)
  | some bytes =>
    Program.iterate .fuel (chainsWalkRound viewer) fuel (bytes.val, block, closure)

/-- The closure is the copied header and its offset, once the last link was seen.
As many bytes are copied as the header says, out of the buffer of a file header. -/
def chainsLastLinkViewer : BlockWalkView (Option (List UInt8 × OffT)) :=
  fun ib offsetToIb closure => do
    let block := InfoBlock.ofBytes ib
    if block.nextBlock.offset = 0 then
      let copied ← bufferBytes ib block.bytesToData.toNat
      pure (false, ib, some (copied, offsetToIb))
    else pure (true, ib, closure)

def chainsLastLink (fuel : Nat) (link : OffT) : Prog (RndError × Option (List UInt8 × OffT)) :=
  chainsWalk fuel link chainsLastLinkViewer none

end Recnodb

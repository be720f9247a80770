import Recnodb.Blocks

/-!
# Locked areas

The function `rnd_lock_area` of `locks.c`. The callback receives the handle, the
location of the area and, when data was asked for, the bytes of the area; it
answers whether they are to be written back, and as what. Its closure is part of
the function passed.
-/

namespace Recnodb

open Interaction Octets

/-- `lock_callback`, with `none` for the null buffer. -/
abbrev LockCallback := Rndh → BlockLoc → Option (List UInt8) → Prog (Bool × List UInt8)

/-- The part under the lock that reads the area, runs the callback and writes the
area back. Only a failed first seek skips the restored position. -/
def lockedData (handle : Rndh) (bhandle : BlockLoc) (callback : LockCallback) : Prog RndError := do
  let savedOffset ← ftell
  if ← fseek bhandle.offset .seekSet then
    let rval ← do
      match ← fread bhandle.size.toNat with
      | none => pure .lockReadFailed
      | some buffer =>
        let (changed, buffer) ← callback handle bhandle (some buffer.val)
        if changed then
          if ← seekWrite bhandle.offset buffer then pure .success else pure .unlockWriteFailed
        else pure .success
    let _ ← fseek savedOffset .seekSet
    pure rval
  else
    keepErrno
    pure .systemError

/-- Without data the result stays `RND_FAIL` unless the unlock fails. -/
def rndLockArea (handle : Rndh) (bhandle : BlockLoc) (retrieveData : Bool)
    (callback : LockCallback) : Prog RndError := do
  primeHandle
  match ← fcntl .writeLock bhandle.offset bhandle.size with
  | some errno =>
    if errno = eagain ∨ errno = eacces then pure .lockFailed
    else
      keepErrno
      pure .systemError
  | none =>
    let rval ← do
      if retrieveData then lockedData handle bhandle callback
      else
        let _ ← callback handle bhandle none
        pure .fail
    match ← fcntl .unlock bhandle.offset bhandle.size with
    | some _ =>
      keepErrno
      pure .systemError
    | none => pure rval

end Recnodb

import Recnodb.Chains
import Recnodb.TableChain

/-!
# Walks along a chain

A walk shows the header of a block, takes the next offset from the header it showed
and goes on with the block there. Seen from any of its blocks it is a read, a view and
the walk of the rest, which is the form every property of it is proved in.
-/

namespace Recnodb

open Interaction Octets Program

variable {κ : Type} {viewer : BlockWalkView κ}

/-- The header in the buffer of a walk is the header in the file. -/
theorem ofBytes_shown (file : List UInt8) (start : Nat) :
    InfoBlock.ofBytes (slice file start sizeofHeadFile) = headAt file start := by
  rw [← InfoBlock.ofBytes_front, slice_slice file start sizeofHeadFile 0 32 (by decide), Nat.add_zero]

/-- What a walk does with the block in its buffer. -/
def viewBlock (fuel : Nat) (viewer : BlockWalkView κ) (curblock : List UInt8) (offBlock : OffT)
    (closure : κ) : Prog (RndError × κ) := do
  let (more, curblock, closure) ← viewer curblock offBlock closure
  if more then
    if (InfoBlock.ofBytes curblock).nextBlock.offset = 0 then pure (.success, closure)
    else chainsWalk fuel (InfoBlock.ofBytes curblock).nextBlock.offset viewer closure
  else pure (.success, closure)

theorem walkLoop_succ (fuel : Nat) (curblock : List UInt8) (offBlock : OffT) (closure : κ) :
    iterate .fuel (chainsWalkRound viewer) (fuel + 1) (curblock, offBlock, closure) =
      viewBlock fuel viewer curblock offBlock closure := by
  rw [iterate_succ, chainsWalkRound, viewBlock, bind_assoc]
  refine congrArg _ (funext fun shown => ?_)
  obtain ⟨more, curblock, closure⟩ := shown
  cases more with
  | false => rfl
  | true =>
    dsimp only
    rw [if_pos rfl, if_pos rfl]
    by_cases last : (InfoBlock.ofBytes curblock).nextBlock.offset = 0
    · rw [if_pos last, if_pos last]
      rfl
    · rw [if_neg last, if_neg last, chainsWalk, bind_assoc]
      refine congrArg _ (funext fun read => ?_)
      cases read with
      | none => rfl
      | some bytes => rfl

/-- A walk is a read, a view and the walk of the rest. -/
theorem chainsWalk_succ (fuel : Nat) (block : OffT) (closure : κ) :
    chainsWalk (fuel + 1) block viewer closure = (do
      match ← seekRead block sizeofHeadFile with
      | none =>
        keepErrno
        pure (.systemError, closure)
      | some bytes => viewBlock fuel viewer bytes.val block closure) := by
  rw [chainsWalk]
  refine congrArg _ (funext fun read => ?_)
  cases read with
  | none => rfl
  | some bytes => exact walkLoop_succ fuel bytes.val block closure

/-! ## The calls of a viewer -/

/-- One call of a viewer: the header and the offset it was given, and whether it asked to
go on. -/
structure View where
  header : List UInt8
  offset : OffT
  more : Bool
deriving DecidableEq

/-- A viewer whose calls are recorded. -/
def recorded (viewer : BlockWalkView κ) : BlockWalkView (κ × List View) :=
  fun ib offset (closure, views) => do
    let (more, left, closure) ← viewer ib offset closure
    pure (more, left, closure, views ++ [⟨ib, offset, more⟩])

/-- The views of a walk over some blocks: their headers in order, up to the first one at
which the viewer stops. -/
def Shows (file : List UInt8) : List Nat → List View → Prop
  | [], views => views = []
  | offset :: rest, views => ∃ more later,
      views = ⟨slice file offset sizeofHeadFile, offset, more⟩ :: later ∧
        if more then Shows file rest later else later = []

/-- The viewer returns and leaves the file as it was, and also the link in the header it was
given if it asks to go on. -/
def Observes (memory : Nat → Nat → UInt8) (file : List UInt8) (viewer : BlockWalkView κ) : Prop :=
  ∀ ib offset closure, OnFile memory file (viewer ib offset closure) fun result after _ =>
    after = file ∧ (result.1 = true →
      (InfoBlock.ofBytes result.2.1).nextBlock.offset = (InfoBlock.ofBytes ib).nextBlock.offset)

section Walk

variable {memory : Nat → Nat → UInt8} {file : List UInt8}

/-- Recording the calls of a viewer changes nothing else. -/
theorem chainsWalk_recorded (fuel : Nat) (block : OffT) (closure : κ) (views : List View) :
    chainsWalk fuel block viewer closure = (do
      let (rval, closure, _) ← chainsWalk fuel block (recorded viewer) (closure, views)
      pure (rval, closure)) := by
  induction fuel generalizing block closure views with
  | zero =>
    rw [chainsWalk, chainsWalk, bind_assoc]
    refine congrArg _ (funext fun read => ?_)
    cases read with
    | none => rfl
    | some bytes => rfl
  | succ fuel ih =>
    rw [chainsWalk_succ, chainsWalk_succ, bind_assoc]
    refine congrArg _ (funext fun read => ?_)
    cases read with
    | none => rfl
    | some bytes =>
      dsimp only
      rw [viewBlock, viewBlock, recorded, bind_assoc, bind_assoc]
      refine congrArg _ (funext fun shown => ?_)
      obtain ⟨more, left, closure⟩ := shown
      cases more with
      | false => rfl
      | true =>
        dsimp only
        rw [if_pos rfl, pure_bind]
        dsimp only
        rw [if_pos rfl]
        by_cases last : (InfoBlock.ofBytes left).nextBlock.offset = 0
        · rw [if_pos last, if_pos last]
          rfl
        · rw [if_neg last, if_neg last]
          exact ih _ _ _

/-- What follows the view of a block: nothing if the viewer stops or the block has no child,
else the walk from its child. -/
theorem viewBlock_shows {offset : Nat} (observes : Observes memory file viewer) {fuel : Nat}
    {closure : κ} {views : List View} {post : RndError × κ × List View → List UInt8 → Prop}
    (stops : ∀ closure,
      post (.success, closure, views ++ [⟨slice file offset sizeofHeadFile, offset, false⟩]) file)
    (ends : (headAt file offset).nextBlock.offset = 0 → ∀ closure,
      post (.success, closure, views ++ [⟨slice file offset sizeofHeadFile, offset, true⟩]) file)
    (goes : (headAt file offset).nextBlock.offset ≠ 0 → ∀ closure, OnFile memory file
      (chainsWalk fuel (headAt file offset).nextBlock.offset (recorded viewer)
        (closure, views ++ [⟨slice file offset sizeofHeadFile, offset, true⟩]))
      fun result after _ => post result after) :
    OnFile memory file (viewBlock fuel (recorded viewer) (slice file offset sizeofHeadFile) offset
      (closure, views)) fun result after _ => post result after := by
  rw [viewBlock, recorded, bind_assoc]
  apply OnFile.bind (observes _ _ _)
  rintro ⟨more, left, closure⟩ after past ⟨rfl, unlinked⟩
  rw [pure_bind]
  dsimp only
  cases more with
  | false => exact OnFile.ret (stops closure)
  | true =>
    rw [if_pos rfl, unlinked rfl, ofBytes_shown]
    by_cases last : (headAt after offset).nextBlock.offset = 0
    · rw [if_pos last]
      exact OnFile.ret (ends last closure)
    · rw [if_neg last]
      exact goes last closure

/-- A walk whose first header lies inside the file views it. -/
theorem chainsWalk_reads {offset fuel : Nat} {closure : κ}
    {post : RndError × κ → List UInt8 → List Event → Prop}
    (inside : offset + sizeofHeadFile ≤ file.length)
    (viewed : OnFile memory file
      (viewBlock fuel viewer (slice file offset sizeofHeadFile) offset closure) post) :
    OnFile memory file (chainsWalk (fuel + 1) offset viewer closure) post := by
  rw [chainsWalk_succ]
  exact OnFile.bind_eq (OnFile.seekRead inside) viewed

/-- A walk shows the blocks of a chain, by induction on the chain. -/
theorem chainsWalk_shows {offset : Nat} {rest : List Nat} (observes : Observes memory file viewer)
    (chain : IsChain file (offset :: rest))
    (inside : ∀ block ∈ offset :: rest, block + sizeofHeadFile ≤ file.length) {fuel : Nat}
    (enough : rest.length < fuel) (closure : κ) (views : List View) :
    OnFile memory file (chainsWalk fuel offset (recorded viewer) (closure, views))
      fun result after _ => after = file ∧ result.1 = .success ∧
        ∃ later, result.2.2 = views ++ later ∧ Shows file (offset :: rest) later := by
  have here := inside offset List.mem_cons_self
  induction rest generalizing offset fuel closure views with
  | nil =>
    obtain ⟨less, rfl⟩ := Nat.exists_eq_succ_of_ne_zero (Nat.pos_iff_ne_zero.mp enough)
    apply chainsWalk_reads here
    apply viewBlock_shows observes
    · intro closure
      exact ⟨rfl, rfl, _, rfl, false, [], rfl, rfl⟩
    · intro _ closure
      exact ⟨rfl, rfl, _, rfl, true, [], rfl, rfl⟩
    · intro child
      exact absurd chain.2 child
  | cons next rest ih =>
    obtain ⟨less, rfl⟩ := Nat.exists_eq_succ_of_ne_zero (Nat.ne_of_gt (Nat.zero_lt_of_lt enough))
    have nonzero := chain.2.1
    have link := chain.2.2.1
    apply chainsWalk_reads here
    apply viewBlock_shows observes
    · intro closure
      exact ⟨rfl, rfl, _, rfl, false, [], rfl, rfl⟩
    · intro childless
      rw [link] at childless
      exact absurd (Int.natCast_eq_zero.mp childless) nonzero
    · intro _ closure
      rw [link]
      refine OnFile.mono (ih chain.tail (fun block among =>
        inside block (List.mem_cons_of_mem _ among)) (Nat.lt_of_succ_lt_succ enough) _ _
        (inside next (List.mem_cons_of_mem _ List.mem_cons_self))) ?_
      rintro result after _ ⟨same, success, later, views', shows⟩
      refine ⟨same, success, _ :: later, ?_, true, later, rfl, shows⟩
      rw [views', List.append_assoc]
      rfl

/-! ## The last link -/

/-- The search for the last link copies its header, by induction on the chain. -/
theorem chainsLastLink_found {offset last : Nat} {rest : List Nat}
    (chain : IsChain file (offset :: rest))
    (inside : ∀ block ∈ offset :: rest, block + sizeofHeadFile ≤ file.length)
    (isLast : (offset :: rest).getLast? = some last)
    (fits : (headAt file last).bytesToData.toNat ≤ sizeofHeadFile) {fuel : Nat}
    (enough : rest.length < fuel) :
    OnFile memory file (chainsLastLink fuel offset) fun result after _ => after = file ∧
      result = (RndError.success,
        some (slice file last (headAt file last).bytesToData.toNat, (last : OffT))) := by
  have here := inside offset List.mem_cons_self
  induction rest generalizing offset fuel with
  | nil =>
    obtain rfl : offset = last := by simpa using isLast
    obtain ⟨less, rfl⟩ := Nat.exists_eq_succ_of_ne_zero (Nat.pos_iff_ne_zero.mp enough)
    apply chainsWalk_reads here
    have length := slice_length_inside here
    rw [viewBlock, chainsLastLinkViewer]
    dsimp only
    rw [ofBytes_shown, if_pos chain.2, bufferBytes, if_pos (by rw [length]; exact fits)]
    refine OnFile.ret ⟨rfl, ?_⟩
    rw [slice, List.take_take, Nat.min_eq_left fits]
    rfl
  | cons next rest ih =>
    obtain ⟨less, rfl⟩ := Nat.exists_eq_succ_of_ne_zero (Nat.ne_of_gt (Nat.zero_lt_of_lt enough))
    have child : (headAt file offset).nextBlock.offset ≠ 0 := by
      rw [chain.2.2.1]
      exact fun none => chain.2.1 (Int.natCast_eq_zero.mp none)
    apply chainsWalk_reads here
    rw [viewBlock, chainsLastLinkViewer]
    dsimp only
    rw [ofBytes_shown, if_neg child, pure_bind]
    dsimp only
    rw [if_pos rfl, ofBytes_shown, if_neg child, chain.2.2.1]
    exact ih chain.tail (fun block among => inside block (List.mem_cons_of_mem _ among))
      (by simpa using isLast) (Nat.lt_of_succ_lt_succ enough)
      (inside next (List.mem_cons_of_mem _ List.mem_cons_self))

/-! ## A new link -/

/-- A childless block is linked to the new one. -/
theorem chainsAddLink_linked {parent : Nat} {newLink : BlockLoc}
    (inside : parent + sizeofInfoBlock ≤ file.length)
    (childless : (headAt file parent).nextBlock.offset = 0) :
    OnFile memory file (chainsAddLink parent newLink) fun rval after _ =>
      after = linked file parent newLink [] ∧ rval = .success := by
  rw [chainsAddLink]
  refine OnFile.bind_eq (OnFile.seekRead inside) ?_
  dsimp only
  rw [if_neg (not_not_intro childless), linked, List.append_nil]
  exact OnFile.seekWrite_bind (OnFile.ret ⟨rfl, rfl⟩)

/-- A block with a child is left alone. -/
theorem chainsAddLink_refused {parent : Nat} {newLink : BlockLoc}
    (inside : parent + sizeofInfoBlock ≤ file.length)
    (child : (headAt file parent).nextBlock.offset ≠ 0) :
    OnFile memory file (chainsAddLink parent newLink) fun rval after _ =>
      after = file ∧ rval = .attemptToOrphanBlock := by
  rw [chainsAddLink]
  refine OnFile.bind_eq (OnFile.seekRead inside) ?_
  dsimp only
  rw [if_pos child]
  exact OnFile.ret ⟨rfl, rfl⟩

end Walk

end Recnodb

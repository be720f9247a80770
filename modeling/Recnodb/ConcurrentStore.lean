import Recnodb.Departures
import Recnodb.LastLinks
import Recnodb.StoreLifetimes

/-!
# Blocks of several processes

The functions that extend a file and link its blocks lock nothing themselves; the calling
function must see to it that no two processes extend the file at once. Here each process adds
blocks to the chain of one file under the lock of one area, as often as it likes, in any
interleaving of the single calls, whichever of them fail without losing what a stream holds
and wherever a process is killed.
The lock is enough: the blocks of the acknowledged calls are on the chain in the order in
which the processes held the lock, and no two blocks meet.
-/

namespace Recnodb

open Interaction Octets Program Extents

/-! ## The search for the last link -/

section Search

variable {platform : Platform} {file : List UInt8} {offset last fuel : Nat} {rest : List Nat}

/-- The calls of the search for the last link. -/
def Call.Searching (request : Call) : Prop := request.Plain ∧ request.Keeping

theorem searching_chainsLastLink {link : OffT} : (chainsLastLink fuel link).Only Call.Searching := by
  have read {place : OffT} {size : Nat} : (seekRead place size).Only Call.Searching :=
    only_bind (only_perform ⟨trivial, trivial⟩) fun found => by
      cases found
      · trivial
      · exact only_perform ⟨trivial, trivial⟩
  refine only_bind read fun bytes => ?_
  cases bytes with
  | none => exact only_bind (only_perform ⟨trivial, trivial⟩) fun _ => trivial
  | some bytes =>
    refine only_iterate (fun round => ?_) fuel _
    obtain ⟨curblock, offBlock, closure⟩ := round
    have copied {count : Nat} : (bufferBytes curblock count).Only Call.Searching := by
      unfold bufferBytes
      split
      · trivial
      · exact only_bind (only_perform ⟨trivial, trivial⟩) fun _ => trivial
    refine only_bind ?_ ?_
    · unfold chainsLastLinkViewer
      dsimp only
      split
      · exact only_bind copied fun _ => trivial
      · trivial
    · rintro ⟨more, block, found⟩
      dsimp only
      split
      · split
        · trivial
        · refine only_bind read fun bytes => ?_
          cases bytes with
          | none => exact only_bind (only_perform ⟨trivial, trivial⟩) fun _ => trivial
          | some bytes => trivial
      · trivial

/-- The search of a chain keeps the file, and if it finds a block, this is the last one. -/
theorem chainsLastLink_leaves (chain : IsChain file (offset :: rest))
    (isLast : (offset :: rest).getLast? = some last) :
    UnderFaults platform file (chainsLastLink fuel offset) fun result after _ => after = file ∧
      (result.2 = none ∧ result.1 ≠ .success ∨
        ∃ header, result = (.success, some (header, (last : OffT)))) := by
  intro world same value after completed lossless
  constructor
  · exact UnderFaults.of_keeping (only_mono (fun _ searching => searching.2) searching_chainsLastLink)
      world same value after completed lossless
  clear lossless
  have lost {fuel offset : Nat} {world : World}
      (lost : ¬ ReadsAt platform world.file world.clock offset sizeofHeadFile)
      (completed : run (posix platform) (chainsLastLink fuel offset) world = (.ok value, after)) :
      value = (.systemError, none) := by
    obtain ⟨final, returned⟩ := @lastLink_lost _ _ fuel _ lost
    exact Except.ok.inj (Prod.mk.inj (completed.symm.trans returned)).1
  induction fuel generalizing offset rest world with
  | zero =>
    by_cases reads : ReadsAt platform world.file world.clock offset sizeofHeadFile
    · have unfinished := lastLink_unfinished reads
      rw [completed] at unfinished
      exact absurd unfinished fun stopped => by cases stopped
    · rw [lost reads completed]
      exact .inl ⟨rfl, RndError.noConfusion⟩
  | succ fuel ih =>
    by_cases reads : ReadsAt platform world.file world.clock offset sizeofHeadFile
    · cases rest with
      | nil =>
        obtain rfl : offset = last := Option.some.inj isLast
        obtain ⟨header, final, returned, -⟩ := @lastLink_last _ _ fuel _ reads
          (show (headAt world.file offset).nextBlock.offset = 0 by rw [same]; exact chain.2)
        exact .inr ⟨header, Except.ok.inj (Prod.mk.inj (completed.symm.trans returned)).1⟩
      | cons next rest =>
        obtain ⟨-, nonzero, link, later⟩ := chain
        have child : (headAt world.file offset).nextBlock.offset ≠ 0 := by
          rw [same, link]
          exact Int.natCast_ne_zero.mpr nonzero
        rw [lastLink_linked reads child] at completed
        have onward : (headAt world.file ((offset : OffT).toNat)).nextBlock.offset =
          (next : OffT) := by
          rw [← link, ← same]
          rfl
        rw [onward] at completed
        rw [List.getLast?_cons_cons] at isLast
        exact ih later isLast (world.shown offset) same completed
    · rw [lost reads completed]
      exact .inl ⟨rfl, RndError.noConfusion⟩

/-- The search of a chain comes to its end, whatever fails without a loss. -/
theorem completes_chainsLastLink (chain : IsChain file (offset :: rest))
    (enough : rest.length < fuel) :
    Completes platform file (chainsLastLink fuel offset) := by
  intro position world same _ lossless
  clear lossless
  induction rest generalizing offset fuel position world with
  | nil =>
    obtain ⟨fuel, rfl⟩ := Nat.exists_eq_succ_of_ne_zero (Nat.pos_iff_ne_zero.mp enough)
    by_cases reads : ReadsAt platform world.file world.clock offset sizeofHeadFile
    · obtain ⟨header, after, returned, -⟩ := @lastLink_last _ _ fuel _ reads
        (show (headAt world.file offset).nextBlock.offset = 0 by rw [same]; exact chain.2)
      exact ⟨_, after, returned⟩
    · obtain ⟨after, returned⟩ := @lastLink_lost _ _ (fuel + 1) _ reads
      exact ⟨_, after, returned⟩
  | cons next rest ih =>
    obtain ⟨less, rfl⟩ := Nat.exists_eq_succ_of_ne_zero (Nat.ne_of_gt (Nat.zero_lt_of_lt enough))
    by_cases reads : ReadsAt platform world.file world.clock offset sizeofHeadFile
    · obtain ⟨-, nonzero, link, later⟩ := chain
      have child : (headAt world.file offset).nextBlock.offset ≠ 0 := by
        rw [same, link]
        exact Int.natCast_ne_zero.mpr nonzero
      have onward : (headAt world.file ((offset : OffT).toNat)).nextBlock.offset = (next : OffT) := by
        rw [← link, ← same]
        rfl
      rw [lastLink_linked reads child, onward]
      exact ih later (Nat.lt_of_succ_lt_succ enough) _ (world.shown offset) same rfl
    · obtain ⟨after, returned⟩ := @lastLink_lost _ _ (less + 1) _ reads
      exact ⟨_, after, returned⟩

end Search

/-! ## What becomes of a store -/

/-- A block that is to be added to the chain: the bytes behind its header, and its offset if its
process learnt of the success. -/
structure Growth where
  count : Nat
  placed : Option Nat
deriving DecidableEq

/-- The block, at an offset. -/
def Growth.block (growth : Growth) (start : Nat) : Block := ⟨start, List.replicate growth.count 0⟩

/-- What becomes of the contents when a block is to be added. It is linked last, or allocated only,
or not there, and the last two only if its process learnt of no success. -/
inductive Grows (contents : Contents) (growth : Growth) : Contents → Prop where
  | unchanged (untold : growth.placed = none) : Grows contents growth contents
  | loose {start : Nat} (untold : growth.placed = none)
      (behind : ∀ block ∈ contents.blocks, block.stop ≤ start) :
      Grows contents growth (contents.allocate start growth.count)
  | linked {start : Nat} (told : ∀ offset, growth.placed = some offset → offset = start)
      (behind : ∀ block ∈ contents.blocks, block.stop ≤ start) :
      Grows contents growth ⟨contents.linked ++ [growth.block start], contents.loose⟩

/-- What becomes of contents may become of them untold. -/
theorem Grows.untold {contents contents' : Contents} {growth : Growth}
    (grows : Grows contents growth contents') : Grows contents ⟨growth.count, none⟩ contents' := by
  cases grows with
  | unchanged => exact .unchanged rfl
  | loose _ behind => exact .loose rfl behind
  | linked _ behind => exact .linked nofun behind

section Growing

variable {platform : Platform} {chunkSize recSize : UInt32} {contents : Contents}
variable {file : List UInt8} {handle : Rndh} {bdef : RndBlockDef} {fuel : Nat}

/-- No file grows beyond the largest offset. -/
theorem UnderFaults.bounded {α : Type} {program : Prog α} (bounded : file.length ≤ offMax) :
    UnderFaults platform file program fun _ after _ => after.length ≤ offMax := by
  intro world same value after completed _
  have limit := run_bounded platform program world (same ▸ bounded)
  rwa [completed] at limit

/-- The payload of a block of this definition. -/
def RndBlockDef.payload (bdef : RndBlockDef) : Nat := bdef.blockSize.toNat - 32

/-- A block behind the others has the header of an appended one. -/
theorem Contents.Stored.size_append (stored : contents.Stored chunkSize recSize file)
    (large : sizeofHeadFile ≤ chunkSize.toNat) (chunked : bdef.Chunked chunkSize) :
    (Block.mk file.length (List.replicate bdef.payload 0)).size = bdef.blockSize.toNat := by
  obtain ⟨root, rooted, zero⟩ := stored.root
  have inside := (Block.root_stop zero).trans (stored.behind root rooted)
  have whole := Nat.le_of_dvd chunked.some chunked.whole
  have chunk : 72 ≤ chunkSize.toNat := large
  have header : headSizeAt file.length = 32 := if_neg (by omega)
  rw [Block.size, header, List.length_replicate, RndBlockDef.payload]
  omega

/-- There is a last linked block. -/
theorem Contents.Stored.ends (stored : contents.Stored chunkSize recSize file) :
    ∃ front last, contents.linked = front ++ [last] := by
  obtain ⟨root, rest, linked, -⟩ := stored.first
  exact ⟨_, _, (List.dropLast_append_getLast (linked ▸ List.cons_ne_nil root rest)).symm⟩

/-- If the search for the last link finds a block, this is the last linked one. -/
theorem Contents.Stored.lastLink_leaves {front : List Block} {last : Block}
    (stored : contents.Stored chunkSize recSize file) (ends : contents.linked = front ++ [last]) :
    UnderFaults platform file (chainsLastLink fuel 0) fun result after _ => after = file ∧
      (result.2 = none ∧ result.1 ≠ .success ∨
        ∃ header, result = (.success, some (header, (last.start : OffT)))) := by
  obtain ⟨root, rest, linked, zero⟩ := stored.first
  have chain := stored.chain
  have isLast : (contents.linked.map Block.start).getLast? = some last.start := by
    rw [ends, List.map_append]
    exact List.getLast?_concat
  rw [linked, List.map_cons, zero] at chain isLast
  exact chainsLastLink_leaves chain isLast

/-- Whatever fails without a loss, an append and the link behind the last block make of the contents
what one more block may. -/
theorem Contents.Stored.growing (stored : contents.Stored chunkSize recSize file)
    (large : sizeofHeadFile ≤ chunkSize.toNat) (bounded : file.length ≤ offMax)
    (whole : platform.WholeLinks) (chunked : bdef.Chunked chunkSize) :
    UnderFaults platform file (appendAndLink fuel handle bdef) fun answer after _ =>
      ∃ contents', Grows contents ⟨bdef.payload, allocatedAt (some answer)⟩ contents' ∧
        contents'.Stored chunkSize recSize after := by
  refine UnderFaults.bind (((blocksAppendBlock_faults chunked.short.settable).both
    (stored.allocation large chunked)).both (UnderFaults.bounded bounded)) ?_
  rintro ⟨rval, placed⟩ grown _ ⟨⟨⟨-, appended⟩, contents', becomes, still⟩, limit⟩
  dsimp only
  by_cases success : rval = .success
  · obtain ⟨rfl, rfl, -⟩ := appended.whole success
    rw [if_neg (not_not_intro success)]
    have appended' := stored.append large chunked
    obtain ⟨front, last, ends⟩ := stored.ends
    refine UnderFaults.bind (appended'.lastLink_leaves ends) ?_
    rintro ⟨code, found⟩ middle _ ⟨rfl, lost | ⟨header, same⟩⟩
    · obtain ⟨rfl, bad⟩ := lost
      exact UnderFaults.ret ⟨_, .loose (if_neg bad) stored.behind, appended'⟩
    · obtain ⟨rfl, rfl⟩ := Prod.mk.inj same
      refine UnderFaults.bind (chainsAddLink_leaves whole limit) fun code after _ left =>
        UnderFaults.ret ?_
      rcases left with ⟨failed, rfl⟩ | ⟨childless, rfl⟩
      · exact ⟨_, .loose (if_neg failed) stored.behind, appended'⟩
      · have split : (contents.allocate file.length bdef.payload).loose =
            contents.loose ++ ⟨file.length, List.replicate bdef.payload 0⟩ :: [] := rfl
        have joined := appended'.link limit ends split
        rw [List.append_nil, stored.size_append large chunked] at joined
        refine ⟨_, .linked (fun offset told => ?_) stored.behind, joined⟩
        rw [allocatedAt] at told
        split at told
        · exact (Option.some.inj told).symm
        · exact absurd told.symm (Option.some_ne_none _)
  · rw [if_pos success]
    rw [allocatedAt, if_neg success] at becomes
    cases becomes with
    | unallocated =>
      refine UnderFaults.ret ⟨contents, .unchanged ?_, still⟩
      exact if_neg success

/-- The calls come to their end, if the search of the chain may take so many rounds. -/
theorem Contents.Stored.completes_growing (stored : contents.Stored chunkSize recSize file)
    (large : sizeofHeadFile ≤ chunkSize.toNat) (chunked : bdef.Chunked chunkSize)
    (valid : blocksValidateHandle (some handle) = .success) (enough : contents.linked.length ≤ fuel) :
    Completes platform file (appendAndLink fuel handle bdef) := by
  intro position
  refine CompletesFrom.bind
    (CompletesFrom.of_answers (delivers_blocksAppendBlock valid chunked.short.settable))
    (blocksAppendBlock_faults chunked.short.settable) ?_
  rintro ⟨rval, placed⟩ grown past ⟨-, appended⟩ position
  dsimp only
  by_cases success : rval = .success
  · obtain ⟨rfl, rfl, -⟩ := appended.whole success
    rw [if_neg (not_not_intro success)]
    have chain := (stored.append large chunked).chain
    obtain ⟨root, rest, linked, zero⟩ := stored.first
    rw [Contents.linked_allocate, linked, List.map_cons, zero] at chain
    have shorter : (rest.map Block.start).length < fuel := by
      rw [linked, List.length_cons] at enough
      rw [List.length_map]
      exact enough
    refine CompletesFrom.bind (completes_chainsLastLink chain shorter position) UnderFaults.nothing ?_
    rintro ⟨code, found⟩ after past - position
    apply CompletesFrom.of_answers
    cases found with
    | none => trivial
    | some reached => exact delivers_bind delivers_chainsAddLink fun _ => trivial
  · rw [if_pos success]
    exact CompletesFrom.of_answers trivial

/-- The calls of an append and a link. -/
theorem working_appendAndLink : (appendAndLink fuel handle bdef).Only Call.Working := by
  have plain {α : Type} {program : Prog α} (only : program.Only Call.Plain) :
      program.Only Call.Working := only_mono (fun _ => Call.Plain.working) only
  have link {offset : OffT} {newLink : BlockLoc} :
    (chainsAddLink offset newLink).Only Call.Direct := by
    refine only_bind direct_seekRead fun read => ?_
    cases read with
    | none => exact only_bind direct_keepErrno fun _ => trivial
    | some bytes =>
      dsimp only
      split
      · trivial
      · exact only_bind direct_seekWrite fun written => direct_outcome
  refine only_bind (only_bind (only_perform trivial) fun _ =>
    only_bind (plain plain_appendBlock) fun _ => only_bind (only_perform trivial) fun _ => trivial) ?_
  rintro ⟨rval, placed⟩
  dsimp only
  split
  · trivial
  · refine only_bind (only_mono (fun _ searching => searching.1.working) searching_chainsLastLink) ?_
    rintro ⟨code, found⟩
    cases found with
    | none => trivial
    | some reached => exact only_bind (plain (plain_of_direct link)) fun _ => trivial

end Growing

/-! ## Growth under a lock -/

/-- A callback that adds a block to the chain of the first one, and leaves the locked bytes as they
are. What its process learns is passed as an event. -/
def growCallback (fuel : Nat) (bdef : RndBlockDef) : LockCallback := fun handle _ buffer => do
  let (rval, placed) ← appendAndLink fuel handle bdef
  note (.extended (0 : Nat) rval placed.newBlock)
  pure (false, buffer.getD [])

/-- The offset of the new block, if the last event tells of a success. -/
def toldAt (past : List Event) : Option Nat :=
  past.getLast? >>= fun
    | .extended _ .success newBlock => some newBlock.offset.toNat
    | _ => none

/-- A process that adds a block to an opened file, and makes no more calls than its lifetime has. -/
structure Grower (chunkSize : UInt32) where
  early : Prog Unit
  handle : Rndh
  bdef : RndBlockDef
  fuel : Nat
  lifetime : Nat
  waiting : early.Only Call.Waiting
  chunked : bdef.Chunked chunkSize
  valid : blocksValidateHandle (some handle) = .success

/-- The block is added under the lock of an area. -/
def Grower.errand {chunkSize : UInt32} (grower : Grower chunkSize) (bhandle : BlockLoc) :
    Errand bhandle where
  early := grower.early
  handle := grower.handle
  retrieveData := true
  callback := growCallback grower.fuel grower.bdef
  waiting := grower.waiting
  working _ := only_bind working_appendAndLink fun _ => only_bind (only_perform trivial) fun _ =>
    trivial

section Locked

variable {platform : Platform} {chunkSize recSize : UInt32} {contents : Contents}
variable {file : List UInt8} {bhandle : BlockLoc} {entry now : World}

/-- What the part under the lock leaves: what one more block makes of the contents, and what its
process learnt if it got to the end. -/
def Leaves (chunkSize recSize : UInt32) (contents : Contents) (count : Nat) (rval : RndError)
    (after : List UInt8) (past : List Event) : Prop :=
  ∃ contents', Grows contents ⟨count, if rval = .success then toldAt past else none⟩ contents' ∧
    contents'.Stored chunkSize recSize after

/-- Whatever fails without a loss, the part under the lock adds its block, or a part of it. -/
theorem Contents.Stored.locked (stored : contents.Stored chunkSize recSize file)
    (large : sizeofHeadFile ≤ chunkSize.toNat) (bounded : file.length ≤ offMax)
    (whole : platform.WholeLinks) (grower : Grower chunkSize) :
    UnderFaults platform file (grower.errand bhandle).body
      (Leaves chunkSize recSize contents grower.bdef.payload) := by
  refine lockedData_leaves (fun rval bad => ⟨contents, .unchanged (if_neg bad), stored⟩)
    fun start _ _ => ?_
  refine UnderFaults.bind (stored.growing large bounded whole grower.chunked) ?_
  rintro ⟨rval, placed⟩ middle past ⟨contents', grows, still⟩
  refine UnderFaults.note_bind (UnderFaults.ret ⟨fun _ => ⟨contents', ?_, still⟩, Bool.noConfusion⟩)
  have told : toldAt (past ++ [.extended (0 : Nat) rval placed.newBlock]) =
      allocatedAt (some (rval, placed)) := by
    rw [toldAt, List.getLast?_concat]
    cases rval <;> rfl
  rw [if_pos rfl, told]
  exact grows

/-- A killed process leaves a part of its block on the disk, of which nobody learns. -/
theorem Contents.Stored.passed (stored : contents.Stored chunkSize recSize entry.disk)
    (large : sizeofHeadFile ≤ chunkSize.toNat) (bounded : entry.disk.length ≤ offMax)
    (durable : platform.Durable) (whole : platform.WholeLinks) (grower : Grower chunkSize)
    (enough : contents.linked.length ≤ grower.fuel) (entered : entry.held = [])
    (passes : Passes (posix platform) (grower.errand bhandle).body entry now) :
    now.disk.length ≤ offMax ∧ ∃ contents', Grows contents ⟨grower.bdef.payload, none⟩ contents' ∧
      contents'.Stored chunkSize recSize now.disk := by
  rw [← World.file_of_empty entered] at stored bounded
  refine passes_leaves whole durable (fun time known => known.endedAt time)
    (fun file => file.length ≤ offMax ∧ ∃ contents',
      Grows contents ⟨grower.bdef.payload, none⟩ contents' ∧ contents'.Stored chunkSize recSize file)
    (fun _ known => ?_) (fun _ => ?_) entered passes
  · refine ((UnderFaults.bounded bounded).both
      (stored.locked large bounded known grower)).mono ?_
    rintro rval after past ⟨limit, contents', grows, still⟩
    exact ⟨limit, contents', grows.untold, still⟩
  · refine completes_lockedData fun start _ _ position => ?_
    refine CompletesFrom.bind (stored.completes_growing large grower.chunked grower.valid enough _)
      UnderFaults.nothing ?_
    exact fun _ _ _ _ _ => CompletesFrom.of_answers fun _ => trivial

end Locked

/-! ## All processes -/

/-- What becomes of a store: behind the blocks it had, the chain has those of the calls that were
acknowledged, each where its process learnt that it is, and no others than those that were begun. -/
structure Grown (chunkSize recSize : UInt32) (first : Contents) (past : List Growth)
    (file : List UInt8)
    (kept : List (Growth × Nat)) (final : Contents) : Prop where
  linked : final.linked = first.linked ++ kept.map fun added => added.1.block added.2
  loose : first.loose <+: final.loose
  begun : (kept.map Prod.fst).Sublist past
  acknowledged : (past.filter fun growth => growth.placed.isSome).Sublist (kept.map Prod.fst)
  told : ∀ added ∈ kept, ∀ offset, added.1.placed = some offset → offset = added.2
  bounded : file.length ≤ offMax
  stored : final.Stored chunkSize recSize file

section Runs

variable {chunkSize recSize : UInt32} {first : Contents} {past : List Growth} {file after : List UInt8}
variable {kept : List (Growth × Nat)} {final contents' : Contents} {growth : Growth}

/-- The chain has no more blocks than calls were begun, besides those it had. -/
theorem Grown.length (grown : Grown chunkSize recSize first past file kept final) :
    final.linked.length ≤ first.linked.length + past.length := by
  have fewer := grown.begun.length_le
  rw [List.length_map] at fewer
  rw [grown.linked, List.length_append, List.length_map]
  omega

/-- One more call. -/
theorem Grown.next (grown : Grown chunkSize recSize first past file kept final)
    (grows : Grows final growth contents') (bounded : after.length ≤ offMax)
    (stored : contents'.Stored chunkSize recSize after) :
    ∃ kept', Grown chunkSize recSize first (past ++ [growth]) after kept' contents' := by
  have begun := grown.begun.trans (List.sublist_append_left past [growth])
  have skipped (untold : growth.placed = none) :
      ((past ++ [growth]).filter fun growth => growth.placed.isSome).Sublist (kept.map Prod.fst) := by
    rw [List.filter_append, List.filter_singleton, untold]
    simpa using grown.acknowledged
  cases grows with
  | unchanged untold =>
    exact ⟨kept, grown.linked, grown.loose, begun, skipped untold, grown.told, bounded, stored⟩
  | loose untold behind =>
    exact ⟨kept, grown.linked, grown.loose.trans (List.prefix_append _ _), begun, skipped untold,
      grown.told, bounded, stored⟩
  | @linked start told behind =>
    refine ⟨kept ++ [(growth, start)], ?_, grown.loose, ?_, ?_, ?_, bounded, stored⟩
    · rw [List.map_append, ← List.append_assoc, ← grown.linked]
      rfl
    · rw [List.map_append]
      exact grown.begun.append_right _
    · rw [List.filter_append, List.map_append]
      exact grown.acknowledged.append List.filter_sublist
    · intro added among
      rcases List.mem_append.mp among with old | new
      · exact grown.told added old
      · obtain rfl := List.mem_singleton.mp new
        exact told

variable {ι : Type} [DecidableEq ι] (machine : ι → Machine) (growers : ι → Nat → Grower chunkSize)
variable (bhandle : BlockLoc)

/-- The errands of the processes. -/
def growErrands (process : ι) (number : Nat) : Errand bhandle :=
    (growers process number).errand bhandle

/-- How many calls the processes make. -/
def growLifetimes (process : ι) (number : Nat) : Nat := (growers process number).lifetime

variable {machine growers bhandle} {shared : Shared ι}
variable {past : List (Act ι Call Answer Parted (Shared ι))}
variable {pool : Pool ι Call Answer Stop Parted (Shared ι)}

end Runs

/-! ## A process that is killed in front of its link -/

/-- Two processes that add blocks of one chunk. The first call of the first one is killed when its
block is there and not yet linked. -/
def chunkGrowers (process : Bool) (number : Nat) : Grower 80 where
  early := pure ()
  handle := freshHandle 0 80 3
  bdef := chunkBlock
  fuel := 4
  lifetime := if process = false ∧ number = 0 then 24 else 100
  waiting := trivial
  chunked := ⟨.inl rfl, by decide, by decide⟩
  valid := by decide

end Recnodb

import Mathlib.Logic.Relation
import Mathlib.Data.List.Chain
import Recnodb.SearchFaults

/-!
# The chain under faults

What is left of a chain when its extension fails. The blocks that were linked stay
linked: only the header of the last block may be partly rewritten, and its first
fields are rewritten with what they held. So whatever fails in a record search
without losing what the stream holds, every block of the chain is still reached
from the root, and so is every block that the search linked.
-/

namespace Recnodb

open Interaction Octets Program

/-- The header of a block names another. -/
def Links (file : List UInt8) (one next : Nat) : Prop :=
  next ≠ 0 ∧ (headAt file one).nextBlock.offset = next

/-- A block is reached from the root through the links on disk. -/
def Reachable (file : List UInt8) (root block : Nat) : Prop :=
  Relation.ReflTransGen (Links file) root block

/-- Blocks that name each other from the root on, whatever the last one names. -/
structure Threaded (file : List UInt8) (root : Nat) (blocks : List Nat) : Prop where
  heads : HeadsLaid file blocks
  path : blocks.IsChain (Links file)
  head : blocks.head? = some root

/-! ## Paths -/

section Paths

variable {file after : List UInt8} {root : Nat} {blocks : List Nat}

/-- A chain is a path. -/
theorem IsChain.path (chain : IsChain file blocks) : blocks.IsChain (Links file) := by
  induction blocks with
  | nil => exact chain.elim
  | cons offset rest ih =>
    cases rest with
    | nil => exact List.isChain_singleton _
    | cons next rest =>
      rw [List.isChain_cons_cons]
      exact ⟨⟨chain.2.1, chain.2.2.1⟩, ih chain.tail⟩

theorem Laid.threaded (laid : Laid file root blocks) : Threaded file root blocks :=
  ⟨laid.heads, laid.chain.path, laid.head⟩

/-- A path needs the links of all its blocks but the last. -/
theorem path_kept (path : blocks.IsChain (Links file))
    (inner : ∀ offset ∈ blocks.dropLast,
      (headAt after offset).nextBlock.offset = (headAt file offset).nextBlock.offset) :
    blocks.IsChain (Links after) := by
  induction blocks with
  | nil => exact List.isChain_nil
  | cons offset rest ih =>
    cases rest with
    | nil => exact List.isChain_singleton _
    | cons next rest =>
      rw [List.isChain_cons_cons] at path ⊢
      rw [List.dropLast_cons_cons] at inner
      have link := inner offset List.mem_cons_self
      refine ⟨⟨path.1.1, link.trans path.1.2⟩, ih path.2 ?_⟩
      intro other among
      exact inner other (List.mem_cons_of_mem _ among)

/-- Every block of a path is reached from its first one. -/
theorem path_reachable (path : blocks.IsChain (Links file)) (head : blocks.head? = some root)
    {block : Nat} (among : block ∈ blocks) : Reachable file root block := by
  cases blocks with
  | nil => exact absurd among List.not_mem_nil
  | cons first rest =>
    obtain rfl : first = root := by simpa using head
    refine List.IsChain.induction (fun other => Reachable file first other) _ path ?_ ?_ block among
    · exact fun _ _ link reached => reached.tail link
    · exact fun _ => Relation.ReflTransGen.refl

/-- No other block is reached from the root of a chain. -/
theorem IsChain.only_reachable (chain : IsChain file blocks) (head : blocks.head? = some root)
    {block : Nat} (reached : Reachable file root block) : block ∈ blocks := by
  induction reached with
  | refl => exact List.mem_of_head? head
  | @tail one next _ link ih =>
    obtain ⟨before, behind, rfl⟩ := List.append_of_mem ih
    cases behind with
    | nil =>
      have none : (next : OffT) = 0 := link.2.symm.trans chain.at_last.2
      exact absurd (Int.natCast_eq_zero.mp none) link.1
    | cons named behind =>
      have same : named = next := Int.natCast_inj.mp (chain.at_inner.2.2.symm.trans link.2)
      simp [same]

/-- A thread is kept where headers are kept. -/
theorem Threaded.kept (threaded : Threaded file root blocks)
    (longer : file.length ≤ after.length)
    (same : ∀ offset ∈ blocks, (headAt after offset).SameBlock (headAt file offset))
    (inner : ∀ offset ∈ blocks.dropLast, (headAt after offset).Alike (headAt file offset)) :
    Threaded after root blocks := by
  constructor
  · constructor
    · intro offset among
      rw [headLength_sameBlock (same offset among)]
      exact (threaded.heads.inside offset among).trans longer
    · refine threaded.heads.apart.imp_of_mem fun {one other} oneAmong otherAmong apart => ?_
      rw [HeadsApart, headLength_sameBlock (same one oneAmong),
        headLength_sameBlock (same other otherAmong)]
      exact apart
  · exact path_kept threaded.path fun offset among => (inner offset among).next
  · exact threaded.head

end Paths

/-! ## One extension -/

section Extension

variable {platform : Platform} {file after : List UInt8} {handle : Rndh} {bdef : RndBlockDef}
variable {root last : Nat} {before : List Nat} {result : RndError × RndBlockDef}

/-- Headers with the same first eight bytes are headers of the same block. -/
theorem headAt_sameBlock {first second : List UInt8} {offset offset' : Nat}
    (same : slice first offset 8 = slice second offset' 8) :
    (headAt first offset).SameBlock (headAt second offset') := by
  have field (start count : Nat) (within : start + count ≤ 8) :
      slice (slice first offset 32) start count = slice (slice second offset' 32) start count := by
    rw [slice_slice _ _ _ _ _ (by omega), slice_slice _ _ _ _ _ (by omega),
      ← slice_slice first offset 8 start count within,
      ← slice_slice second offset' 8 start count within, same]
  constructor
  · simp only [InfoBlock.ofBytes, field 0 2 (by omega)]
  · simp only [InfoBlock.ofBytes, field 2 2 (by omega)]
  · simp only [InfoBlock.ofBytes, field 4 4 (by omega)]

/-- The bytes before the link are written as they were. -/
theorem linkBytes_front {time start index : Nat} (inside : start + 32 ≤ file.length)
    (front : index < 16) :
    (linkBytes platform time file start bdef)[index]? = file[start + index]? := by
  have header : (headAt file start).toBytes = slice file start 32 := toBytes_headAt inside
  rw [linkBytes, List.append_assoc, List.getElem?_append_left (by simp; omega),
    ← InfoBlock.toBytes_link, header, patch_getElem?_outside, slice_getElem?, if_pos (by omega)]
  · rw [slice_length_inside inside]
    omega
  · exact .inl front

theorem linkBytes_length {time start : Nat} (short : bdef.Short) :
    (linkBytes platform time file start bdef).length =
      32 + overrun (headAt file start).blockType := by
  have tail : linkTail bdef = [] := by
    rcases short with data | generic
    · rw [linkTail, data, if_neg (by decide)]
    · rw [linkTail, generic, if_neg (by decide)]
  simp only [linkBytes, tail, linkLength, short.headSize, overrun, List.length_append,
    InfoBlock.toBytes_length, List.length_nil, adjacentBytes_length]
  omega

/-- A completed extension is one block more. -/
theorem ChainGrown.completed (grown : ChainGrown platform file handle last bdef result after)
    (short : bdef.Short) (inside : last + 32 ≤ file.length) (success : result.1 = .success) :
    result.2 = bdef.placed file ∧ file.length + 32 ≤ offMax ∧ ∃ extra : List UInt8,
      extra.length = overrun (headAt file last).blockType ∧
        after = chainGrown file last bdef extra := by
  obtain ⟨place, bound, start, time, same, -, -, written⟩ := grown.whole success
  obtain rfl : last = start := Int.natCast_inj.mp same
  have alike : (headAt (appended file bdef) last).Alike (headAt file last) := appended_alike inside
  refine ⟨place, bound, linkTail bdef ++ adjacentBytes (platform.memory time)
    (linkLength (appended file bdef) last (bdef.placed file) -
      (blocksBytesToData bdef.blockType.code).toNat), ?_, ?_⟩
  · have whole := @linkBytes_length platform (appended file bdef) (bdef.placed file) time last short
    rw [linkBytes, List.append_assoc, List.length_append, InfoBlock.toBytes_length,
      alike.type] at whole
    exact Nat.add_left_cancel whole
  · rw [written, linkBytes, chainGrown, linked, List.append_assoc]
    rfl

/-- A failed extension leaves every header but the last one's link. -/
theorem ChainGrown.left (grown : ChainGrown platform file handle last bdef result after)
    (short : bdef.Short) (heads : HeadsLaid file (before ++ [last]))
    (failed : result.1 ≠ .success) :
    file.length ≤ after.length ∧
      (headAt after last).SameBlock (headAt file last) ∧
      ∀ offset ∈ before, (headAt after offset).Alike (headAt file offset) := by
  have room := heads.room
  obtain ⟨middle, front, rfl | ⟨start, time, count, same, inside, rfl⟩⟩ := grown.failed failed
  · refine ⟨front.longer, (front.alike (by omega)).sameBlock, fun offset among => front.alike ?_⟩
    exact (heads.apart_last among).1
  · obtain rfl : last = start := Int.natCast_inj.mp same
    have kept := front.alike (by omega : last + 32 ≤ file.length)
    have longer := front.longer
    have short' : (bdef.placed file).Short := short
    have length : ((linkBytes platform time middle last (bdef.placed file)).take count).length ≤
        32 + overrun (headAt file last).blockType := by
      rw [List.length_take, linkBytes_length short', kept.type]
      exact Nat.min_le_right _ _
    refine ⟨longer.trans (length_le_patch _ _ _), ?_, fun offset among => ?_⟩
    · have here : (headAt (patch middle last ((linkBytes platform time middle last
          (bdef.placed file)).take count)) last).SameBlock (headAt middle last) := by
        apply headAt_sameBlock
        apply slice_patch_agrees
        · omega
        · intro index below reached
          rw [List.length_take] at reached
          rw [List.getElem?_take, if_pos (by omega), linkBytes_front inside (by omega)]
      have there := kept.sameBlock
      exact ⟨here.type.trans there.type, here.data.trans there.data, here.size.trans there.size⟩
    · obtain ⟨within, apart⟩ := heads.apart_last among
      refine InfoBlock.Alike.trans (headAt_alike ?_) (front.alike within)
      apply slice_patch_disjoint
      · omega
      · omega

/-- A thread whose last block was extended is longer by one block. -/
theorem Threaded.grown {extra : List UInt8} (threaded : Threaded file root (before ++ [last]))
    (bounded : file.length < 2 ^ 63) (short : bdef.Short)
    (length : extra.length = overrun (headAt file last).blockType) :
    Threaded (chainGrown file last bdef extra) root (before ++ [last] ++ [file.length]) := by
  obtain ⟨heads, path, head⟩ := threaded
  have room := heads.room
  constructor
  · exact heads.grown bounded short length
  · rw [List.isChain_append]
    refine ⟨path_kept path fun offset among => ?_, List.isChain_singleton _, ?_⟩
    · rw [List.dropLast_concat] at among
      exact (heads.alike_grown length among).next
    · rintro one isLast next isFirst
      obtain rfl : last = one := by simpa using isLast
      obtain rfl : file.length = next := by simpa using isFirst
      exact ⟨by omega, (heads.linked_grown bounded).2⟩
  · rw [List.head?_append, head]
    rfl

end Extension

/-! ## A whole search -/

/-- Every block that was linked lies behind the old file and is among these. -/
def LinkedAmong (file : List UInt8) (past : List Event) (blocks : List Nat) : Prop :=
  ∀ chainEnd newBlock, .extended chainEnd .success newBlock ∈ past →
    ∃ block ∈ blocks, file.length ≤ block ∧ newBlock.offset = (block : OffT)

/-- What is left of a thread: its blocks in order, some new ones behind them, and
among them every block that was linked. -/
structure ThreadKept (file : List UInt8) (root : Nat) (blocks : List Nat) (after : List UInt8)
    (past : List Event) (blocks' : List Nat) : Prop where
  grown : Outgrows file blocks after blocks'
  threaded : Threaded after root blocks'
  longer : file.length ≤ after.length
  linked : LinkedAmong file past blocks'

theorem ThreadKept.refl {file : List UInt8} {root : Nat} {blocks : List Nat}
    (threaded : Threaded file root blocks) : ThreadKept file root blocks file [] blocks :=
  ⟨Outgrows.refl _ _, threaded, Nat.le_refl _, fun _ _ none => absurd none List.not_mem_nil⟩

theorem ThreadKept.trans {first second third : List UInt8} {root : Nat}
    {blocks blocks' blocks'' : List Nat} {past later : List Event}
    (one : ThreadKept first root blocks second past blocks')
    (two : ThreadKept second root blocks' third later blocks'') :
    ThreadKept first root blocks third (past ++ later) blocks'' := by
  constructor
  · exact one.grown.trans two.grown
  · exact two.threaded
  · exact one.longer.trans two.longer
  · intro chainEnd newBlock among
    rcases List.mem_append.mp among with before | behind
    · obtain ⟨block, there, fresh, same⟩ := one.linked chainEnd newBlock before
      obtain ⟨added, rfl⟩ := two.grown.more
      exact ⟨block, List.mem_append_left _ there, fresh, same⟩
    · obtain ⟨block, there, fresh, same⟩ := two.linked chainEnd newBlock behind
      exact ⟨block, there, one.longer.trans fresh, same⟩

section Search

variable {platform : Platform} {file : List UInt8} {handle : Rndh} {bloc : BlockLoc}
variable {htable : RndHeadTable} {recno : UInt32} {root last : Nat} {search : Search}
variable {before : List Nat}

/-- The search goes on with the header it has, or with that of the block it asked
for. -/
structure Search.Resumed (handle : Rndh) (htable : RndHeadTable) (recno : UInt32)
    (search next : Search) : Prop where
  start : next.startRec = search.startRec
  block : next.iblock = search.iblock ∨
    next.iblock = newInfoBlock (requestedBlock handle htable recno search)

/-- It stands at the end of the chain again. -/
theorem Search.Resumed.unlinked {next : Search} (resumed : search.Resumed handle htable recno next)
    (free : search.iblock.nextBlock.offset = 0) : next.iblock.nextBlock.offset = 0 := by
  rcases resumed.block with same | new
  · rw [same, free]
  · rw [new]
    rfl

/-- An extension by the search keeps the thread, and stands at its last block if
it goes on. -/
theorem extendForRecord_threads (threaded : Threaded file root (before ++ [last]))
    (place : search.iblockOffset = last) :
    UnderFaults platform file (extendForRecord handle (flatrecsFullRecsize htable) recno search)
      fun outcome after past => (¬ Aligned handle file → after = file) ∧
        (∀ code offset, outcome = .inr (code, offset) → code ≠ .success) ∧
        ∃ (before' : List Nat) (last' : Nat),
          ThreadKept file root (before ++ [last]) after past (before' ++ [last']) ∧
          ∀ next, outcome = .inl next → next.iblockOffset = last' ∧
            search.Resumed handle htable recno next := by
  have short : (requestedBlock handle htable recno search).Short := .inl rfl
  refine extendForRecord_faults.mono fun outcome after past ⟨result, extended⟩ => ?_
  obtain ⟨grown, ⟨code, rfl⟩, onward, again⟩ := extended
  rw [place] at grown
  refine ⟨fun misaligned => (grown.refused misaligned).2, ?_, ?_⟩
  · rintro code' offset rfl
    by_cases success : result.1 = .success
    · rcases onward success with none | ⟨code'', bad, same⟩
      · exact absurd none Sum.inr_ne_inl
      · obtain ⟨rfl, -⟩ := Prod.mk.inj (Sum.inr.inj same)
        exact bad
    · exact absurd (again success) Sum.inr_ne_inl
  by_cases success : result.1 = .success
  · obtain ⟨linkedThere, bound, extra, length, rfl⟩ := grown.completed short
      (by have := threaded.heads.room; omega) success
    have below : file.length < 2 ^ 63 := lt_of_le_offMax (by omega)
    refine ⟨before ++ [last], file.length, ⟨⟨⟨_, rfl⟩, ?_, ?_⟩, ?_, ?_, ?_⟩, ?_⟩
    · exact fun offset among => threaded.heads.same_grown below length among
    · intro offset among
      rw [List.dropLast_concat] at among
      exact threaded.heads.alike_grown length among
    · exact threaded.grown below short length
    · rw [threaded.heads.grown_length length, appended_length]
      omega
    · intro chainEnd newBlock among
      have named : chainEnd = search.iblockOffset ∧ newBlock = result.2.newBlock := by
        simpa [success] using among
      refine ⟨file.length, List.mem_append_right _ (List.mem_singleton_self _), Nat.le_refl _, ?_⟩
      rw [named.2, linkedThere]
      rfl
    · rintro next going
      rcases onward success with moved | ⟨code', -, given⟩
      · obtain rfl := Sum.inl.inj (going.symm.trans moved)
        exact ⟨rfl, rfl, .inr (threaded.heads.head_grown length)⟩
      · rw [given] at going
        exact absurd going Sum.inr_ne_inl
  · obtain ⟨longer, same, alike⟩ := grown.left short threaded.heads success
    have allSame : ∀ offset ∈ before ++ [last],
        (headAt after offset).SameBlock (headAt file offset) := by
      intro offset among
      rcases List.mem_append.mp among with old | single
      · exact (alike offset old).sameBlock
      · obtain rfl := List.mem_singleton.mp single
        exact same
    have inner : ∀ offset ∈ (before ++ [last]).dropLast,
        (headAt after offset).Alike (headAt file offset) := by
      intro offset among
      rw [List.dropLast_concat] at among
      exact alike offset among
    refine ⟨before, last, ⟨⟨⟨[], (List.append_nil _).symm⟩, allSame, inner⟩,
      threaded.kept longer allSame inner, longer, ?_⟩, ?_⟩
    · intro chainEnd newBlock among
      have failed : result.1 = .success := by
        simp only [List.mem_cons, reduceCtorEq, Event.extended.injEq, List.not_mem_nil, or_false,
          false_or] at among
        exact among.2.1.symm
      exact absurd failed success
    · rintro next going
      obtain rfl := Sum.inl.inj (going.symm.trans (again success))
      exact ⟨place, rfl, .inl rfl⟩

/-- A search that stands at the last block keeps the thread. -/
theorem search_threads_end (fuel : Nat) (threaded : Threaded file root (before ++ [last]))
    (place : search.iblockOffset = last) (unlinked : search.iblock.nextBlock.offset = 0) :
    UnderFaults platform file (searchFrom fuel handle bloc htable recno search)
      fun _ after past => (¬ Aligned handle file → after = file) ∧
        ∃ blocks, ThreadKept file root (before ++ [last]) after past blocks := by
  induction fuel generalizing file search before last with
  | zero => exact UnderFaults.stop _
  | succ fuel ih =>
    apply searchFrom_faults
    by_cases covered : search.Covers htable recno
    · rw [searchRound_found covered]
      exact UnderFaults.ret ⟨fun _ => rfl, _, ThreadKept.refl threaded⟩
    · have stillThere : (search.advanced htable).iblockOffset = last := place
      have stillFree : (search.advanced htable).iblock.nextBlock.offset = 0 := unlinked
      rw [searchRound_end covered unlinked]
      refine (extendForRecord_threads threaded stillThere).mono ?_
      rintro outcome after past ⟨frozen, -, before', last', kept, onward⟩
      cases outcome with
      | inl next =>
        obtain ⟨there, resumed⟩ := onward next rfl
        refine (ih kept.threaded there (resumed.unlinked stillFree)).mono ?_
        rintro result final later ⟨frozen', blocks, kept'⟩
        refine ⟨fun misaligned => ?_, blocks, kept.trans kept'⟩
        have unchanged := frozen misaligned
        rw [frozen' (by rwa [unchanged]), unchanged]
      | inr result => exact ⟨frozen, _, kept⟩

/-- A search that stands in a chain keeps the thread. -/
theorem search_threads (fuel : Nat) {behind : List Nat} {target : Nat}
    (laid : Laid file root (before ++ target :: behind))
    (place : search.iblockOffset = target)
    (head : search.iblock.nextBlock.offset = (headAt file target).nextBlock.offset) :
    UnderFaults platform file (searchFrom fuel handle bloc htable recno search)
      fun _ after past => (¬ Aligned handle file → after = file) ∧
        ∃ blocks, ThreadKept file root (before ++ target :: behind) after past blocks := by
  induction fuel generalizing search before target behind with
  | zero => exact UnderFaults.stop _
  | succ fuel ih =>
    cases behind with
    | nil =>
      exact search_threads_end (fuel + 1) laid.threaded place (head.trans laid.chain.at_last.2)
    | cons next behind =>
      apply searchFrom_faults
      by_cases covered : search.Covers htable recno
      · rw [searchRound_found covered]
        exact UnderFaults.ret ⟨fun _ => rfl, _, ThreadKept.refl laid.threaded⟩
      · obtain ⟨nonzero, -, link⟩ := laid.chain.at_inner
        have named : search.iblock.nextBlock.offset = next := head.trans link
        have more : search.iblock.nextBlock.offset ≠ 0 := by
          rw [named]
          exact_mod_cast nonzero
        refine (searchRound_inside covered more).mono ?_
        rintro outcome after past ⟨rfl, rfl, rfl | ⟨next', same, rfl⟩⟩
        · exact ⟨fun _ => rfl, _, ThreadKept.refl laid.threaded⟩
        · obtain rfl : next = next' := Int.natCast_inj.mp (named.symm.trans same)
          have split : before ++ target :: next :: behind =
              before ++ [target] ++ next :: behind := by simp
          rw [split] at laid ⊢
          exact ih laid rfl rfl

end Search

end Recnodb

import Recnodb.SearchFaults
import Recnodb.Creation

/-!
# Repeated requests

A table header is read once, and record after record is asked for with the same
copy. If the copy names a child, a record that was found keeps its offset: the
chain only grows behind it. If the copy names none, every request past the root
extends the root again, whatever was linked to it before; an earlier answer is
then kept only by requests that do not come back to it.
-/

namespace Recnodb

open Interaction Octets Program

/-! ## Settled records -/

/-- A record that has a place keeps it. -/
theorem PlacedAt.outgrows {file after : List UInt8} {bloc : BlockLoc} {htable : RndHeadTable}
    {blocks blocks' : List Nat} {recno : UInt32} {offset : OffT}
    (placed : PlacedAt file bloc htable blocks recno offset)
    (grown : Outgrows file blocks after blocks') :
    PlacedAt after bloc htable blocks' recno offset := by
  obtain ⟨segment, place, target, located, found, rfl⟩ := placed
  obtain ⟨added, rfl⟩ := grown.more
  have same : capacities after htable blocks = capacities file htable blocks := by
    apply List.map_congr_left
    intro block among
    rw [capacityAt, capacityAt, capacity_sameBlock (grown.same block among)]
  obtain ⟨inside, rfl⟩ := List.getElem?_eq_some_iff.mp found
  refine ⟨segment, place, blocks[segment], ?_, ?_, ?_⟩
  · rw [capacities, List.map_append]
    apply Segments.locate_append
    rw [← located, ← same]
    rfl
  · rw [List.getElem?_append_left inside]
    exact found
  · rw [slotOffset, slotOffset, (grown.same _ (List.getElem_mem inside)).data]

/-- The record is found by a search that moves its record number on at the last
block of the chain. -/
def WrappedAt (file : List UInt8) (bloc : BlockLoc) (htable : RndHeadTable) (blocks : List Nat)
    (recno : UInt32) (offset : OffT) : Prop :=
  ∃ before last search, blocks = before ++ [last] ∧
    StandsIn file htable recno before last search ∧ WrapsTo bloc htable recno search offset

theorem WrappedAt.unique {file : List UInt8} {bloc : BlockLoc} {htable : RndHeadTable}
    {blocks : List Nat} {recno : UInt32} {offset offset' : OffT}
    (one : WrappedAt file bloc htable blocks recno offset)
    (other : WrappedAt file bloc htable blocks recno offset') : offset = offset' := by
  obtain ⟨before, last, search, rfl, here, wraps⟩ := one
  obtain ⟨before', last', search', split, here', wraps'⟩ := other
  obtain ⟨rfl, single⟩ := List.append_inj' split rfl
  obtain rfl := List.singleton_inj.mp single
  have same : search.iblock.SameBlock search'.iblock :=
    (here.stands.head.trans here'.stands.head.symm).sameBlock
  have start : search.startRec = search'.startRec :=
    UInt32.toNat.inj (here.stands.start.trans here'.stands.start.symm)
  exact (wraps.sameBlock same start).unique wraps'

/-- Within the capacity of the chain, that is the place of the record. -/
theorem WrappedAt.placed {file : List UInt8} {bloc : BlockLoc} {htable : RndHeadTable}
    {blocks : List Nat} {recno : UInt32} {offset : OffT}
    (wrapped : WrappedAt file bloc htable blocks recno offset)
    (within : recno.toNat ≤ (capacities file htable blocks).sum) :
    PlacedAt file bloc htable blocks recno offset := by
  obtain ⟨before, last, search, rfl, here, wraps⟩ := wrapped
  have covered := here.covers_last within
  rw [wraps.unique (WrapsTo.here covered)]
  exact here.placed covered

/-- What fixes the offset of a record from now on: it has its place in the chain,
or the file can no longer grow. -/
def Settled (handle : Rndh) (file : List UInt8) (bloc : BlockLoc) (htable : RndHeadTable)
    (blocks : List Nat) (recno : UInt32) (offset : OffT) : Prop :=
  PlacedAt file bloc htable blocks recno offset ∨
    ¬ Aligned handle file ∧ WrappedAt file bloc htable blocks recno offset

theorem Settled.unique {handle : Rndh} {file : List UInt8} {bloc : BlockLoc}
    {htable : RndHeadTable} {blocks : List Nat} {recno : UInt32} {offset offset' : OffT}
    (one : Settled handle file bloc htable blocks recno offset)
    (other : Settled handle file bloc htable blocks recno offset') : offset = offset' := by
  rcases one with placed | ⟨-, wrapped⟩
  · rcases other with placed' | ⟨-, wrapped'⟩
    · exact placed.unique placed'
    · exact placed.unique (wrapped'.placed placed.within)
  · rcases other with placed' | ⟨-, wrapped'⟩
    · exact (wrapped.placed placed'.within).unique placed'
    · exact wrapped.unique wrapped'

/-! ## One call -/

section Call

variable {platform : Platform} {handle : Rndh} {bloc : BlockLoc} {htable : RndHeadTable}
variable {recno : UInt32} {root : Nat}

/-- A round at the end of the chain in which no file operation fails appends a block,
links it and stands at it. -/
theorem round_grows (valid : blocksValidateHandle (some handle) = .success)
    {search : Search} {before : List Nat} {last : Nat} {world middle : World}
    {outcome : Search ⊕ (RndError × OffT)} (aligned : Aligned handle world.file)
    (laid : Laid world.file root (before ++ [last]))
    (here : StandsIn world.file htable recno before last search)
    (beyond : ¬ search.Covers htable recno)
    (round : run (posix platform) (searchRound handle bloc htable recno search) world =
      (.ok outcome, middle)) (calm : middle.failures = world.failures) :
    ∃ next, outcome = .inl next ∧ Laid middle.file root (before ++ [last] ++ [world.file.length]) ∧
      Outgrows world.file (before ++ [last]) middle.file
        (before ++ [last] ++ [world.file.length]) ∧
      StandsIn middle.file htable recno (before ++ [last]) world.file.length next := by
  have short : (requestedBlock handle htable recno (search.advanced htable)).Short := .inl rfl
  obtain ⟨room, free⟩ := laid.chain.at_last
  have bounded := lt_of_le_offMax laid.bounded
  have quiet : (run (posix platform) (searchRound handle bloc htable recno search)
      world).2.failures = world.failures := by
    rw [round]
    exact calm
  have within := run_bounded platform (searchRound handle bloc htable recno search) world
    laid.bounded
  rw [round] at within
  obtain ⟨outcome', middle', smoothly, rfl, -, extra, length, grown⟩ :=
    @searchRound_grows platform.memory world.file handle bloc htable recno last search valid aligned
      bounded here.stands.place beyond
        (here.stands.head.next.trans free) free laid.heads.room world rfl
  rw [(run_calm quiet).1] at round
  obtain ⟨made, rfl⟩ := Prod.mk.inj (round.symm.trans smoothly)
  obtain rfl := Except.ok.inj made
  rw [grown] at within ⊢
  have same := @HeadsLaid.grown_length _ _ _
    (requestedBlock handle htable recno (search.advanced htable)) _ laid.heads length
  refine ⟨_, rfl, laid.grown short length ?_, laid.outgrows length, ?_, ?_⟩
  · rw [← same]
    exact within
  · refine ⟨?_, rfl, ?_⟩
    · rw [laid.heads.head_grown length]
      exact InfoBlock.Alike.refl _
    · rw [laid.capacities_grown length]
      exact (@StandsIn.next _ _ _ _ _ _ 0 here beyond).stands.start
  · exact advanced_behind here.behind beyond

/-- A search in which no file operation fails grows the chain, if it can, and
settles the record. -/
theorem search_calm (valid : blocksValidateHandle (some handle) = .success) (fuel : Nat)
    {search : Search} {before behind : List Nat} {target : Nat} {world final : World}
    {code : RndError} {offset : OffT}
    (laid : Laid world.file root (before ++ target :: behind))
    (here : StandsIn world.file htable recno before target search)
    (completed : run (posix platform) (searchFrom fuel handle bloc htable recno search) world =
      (.ok (code, offset), final)) (calm : final.failures = world.failures) :
    ∃ blocks, Outgrows world.file (before ++ target :: behind) final.file blocks ∧
      Laid final.file root blocks ∧ (¬ Aligned handle world.file → final.file = world.file) ∧
      (code = .success → Settled handle final.file bloc htable blocks recno offset) := by
  induction fuel generalizing search before behind target world with
  | zero => simp [searchFrom] at completed
  | succ fuel ih =>
    obtain ⟨less, outcome, middle, same, round, rest⟩ := run_iterate_inv _ completed
    obtain rfl : fuel = less := Nat.succ.inj same
    by_cases covered : search.Covers htable recno
    · rw [searchRound_found covered] at round
      obtain ⟨rfl, rfl⟩ := run_ret_inv _ round
      obtain ⟨delivered, rfl⟩ := rest
      obtain ⟨-, rfl⟩ := Prod.mk.inj delivered
      exact ⟨_, Outgrows.refl _ _, laid, fun _ => rfl, fun _ => .inl (here.placed covered)⟩
    · -- no failure in the round, and none behind it
      have first := run_failures platform (searchRound handle bloc htable recno search) world
      rw [round] at first
      have later : middle.failures ≤ final.failures := by
        cases outcome with
        | inl next =>
          have rises := run_failures platform (searchFrom fuel handle bloc htable recno next) middle
          rwa [searchFrom, rest] at rises
        | inr delivered => rw [rest.2]
      have calmRound : middle.failures = world.failures :=
        Nat.le_antisymm (calm ▸ later) first
      cases behind with
      | cons next behind =>
        obtain ⟨nonzero, -, link⟩ := laid.chain.at_inner
        have linked : search.iblock.nextBlock.offset = next := here.stands.head.next.trans link
        have some : search.iblock.nextBlock.offset ≠ 0 := by
          rw [linked]
          exact_mod_cast nonzero
        obtain ⟨unchanged, -, given | ⟨next', there, moved⟩⟩ :=
          searchRound_inside covered some world rfl _ _ round
            (lossless_of_calm (by rw [round]; exact calmRound))
        · rw [given] at rest
          obtain ⟨delivered, rfl⟩ := rest
          obtain ⟨rfl, -⟩ := Prod.mk.inj delivered
          rw [unchanged]
          exact ⟨_, Outgrows.refl _ _, laid, fun _ => rfl, RndError.noConfusion⟩
        · obtain rfl : next = next' := Int.natCast_inj.mp (linked.symm.trans there)
          have split : before ++ target :: next :: behind =
              before ++ [target] ++ next :: behind := by simp
          have onward := @StandsIn.next _ _ _ _ _ _ next here covered
          rw [moved, ← unchanged] at rest
          rw [split, ← unchanged] at laid ⊢
          rw [← unchanged] at onward
          exact ih laid onward rest (calm.trans calmRound.symm)
      | nil =>
        obtain ⟨room, free⟩ := laid.chain.at_last
        have last : search.iblock.nextBlock.offset = 0 := here.stands.head.next.trans free
        by_cases aligned : Aligned handle world.file
        · obtain ⟨next, rfl, laid', grown, there⟩ :=
            round_grows valid aligned laid here covered round calmRound
          obtain ⟨blocks, grown', laid'', -, settled⟩ :=
            ih laid' there rest (calm.trans calmRound.symm)
          exact ⟨blocks, grown.trans grown', laid'', fun off => absurd aligned off, settled⟩
        · obtain ⟨unchanged, wraps⟩ := search_stuck aligned last _ world rfl _ _ completed
            (lossless_of_calm (by rw [completed]; exact calm))
          rw [unchanged]
          exact ⟨_, Outgrows.refl _ _, laid, fun _ => rfl, fun success =>
            .inr ⟨aligned, before, target, search, rfl, here, wraps success⟩⟩

end Call

/-! ## Sequences of calls -/

/-- One completed call: the record asked for, what was answered, and the states
around it. -/
structure Request where
  recno : UInt32
  before : World
  code : RndError
  offset : OffT
  after : World

/-- The completed calls of a sequence, each from the state the last one left. File operations may
fail, as long as none loses what the stream holds. -/
inductive Requests (platform : Platform) (handle : Rndh) (bloc : BlockLoc) (htable : RndHeadTable) :
    World → List Request → World → Prop where
  | none (world : World) : Requests platform handle bloc htable world [] world
  | more {fuel : Nat} {recno : UInt32} {world middle final : World} {code : RndError}
      {offset : OffT} {later : List Request}
      (completed : run (posix platform) (flatrecsMakeOffsetToRecno fuel handle bloc htable recno)
        world = (.ok (code, offset), middle))
      (lossless : Lossless platform (log (posix platform)
        (flatrecsMakeOffsetToRecno fuel handle bloc htable recno) world))
      (rest : Requests platform handle bloc htable middle later final) :
      Requests platform handle bloc htable world (⟨recno, world, code, offset, middle⟩ :: later)
        final

/-- A later call does not disturb an answer: asked for no more than was found, it
leaves the file alone, and asked for the same record it finds the same offset. -/
def Undisturbed (recno : UInt32) (offset : OffT) (later : Request) : Prop :=
  (later.recno.toNat ≤ recno.toNat → later.after.file = later.before.file) ∧
    (later.code = .success → later.recno = recno → later.offset = offset)

/-- No answer of a sequence is disturbed by a later call. -/
def Stable (requests : List Request) : Prop :=
  requests.Pairwise fun earlier later => earlier.code = .success →
    Undisturbed earlier.recno earlier.offset later

/-- No file operation of the call failed. -/
def Request.Calm (request : Request) : Prop := request.after.failures = request.before.failures

/-- The record lies in the chain as it was before the call. -/
def Request.Within (htable : RndHeadTable) (root : Nat) (request : Request) : Prop :=
  ∃ rest, IsChain request.before.file (root :: rest) ∧
    request.recno.toNat ≤ (capacities request.before.file htable (root :: rest)).sum

/-- The later request does not come back to the earlier one with a stale copy: it
stays in the root, goes beyond everything found, or is made in a file that cannot
grow, as the earlier one was if it was for the same record. -/
def ComesBackSafely (handle : Rndh) (htable : RndHeadTable) (earlier later : Request) : Prop :=
  later.recno.toNat ≤ (flatrecsGetRecordCapacity htable htable.bhead).toNat ∨
    earlier.recno.toNat < later.recno.toNat ∨
    ¬ Aligned handle later.before.file ∧
      (later.recno = earlier.recno → ¬ Aligned handle earlier.before.file)

/-- The copy names a child, and every call that may extend the chain meets no
failure; or the copy names none, and no call comes back past the root. -/
def AskedSafely (handle : Rndh) (htable : RndHeadTable) (root : Nat) (requests : List Request) :
    Prop :=
  (htable.bhead.nextBlock.offset ≠ 0 ∧
      ∀ request ∈ requests, request.Calm ∨ request.Within htable root) ∨
    (htable.bhead.nextBlock.offset = 0 ∧ requests.Pairwise fun earlier later =>
      earlier.code = .success → ComesBackSafely handle htable earlier later)

section Sequence

variable {platform : Platform} {handle : Rndh} {bloc : BlockLoc} {htable : RndHeadTable}
variable {root : Nat}

/-- The copy of the root header, whose child the file knows as well. -/
structure TableKept (file : List UInt8) (htable : RndHeadTable) (root : Nat) (blocks : List Nat) :
    Prop where
  laid : Laid file root blocks
  copy : htable.bhead.Alike (headAt file root)
  child : htable.bhead.nextBlock.offset ≠ 0

/-- The chain of a kept table starts with its root and its child. -/
theorem TableKept.two {file : List UInt8} {blocks : List Nat}
    (table : TableKept file htable root blocks) : ∃ next rest, blocks = root :: next :: rest := by
  obtain ⟨-, chain, head, -⟩ := table.laid
  match blocks, chain, head with
  | [only], chain, head =>
    obtain rfl : only = root := by simpa using head
    exact absurd (table.copy.next.trans chain.2) table.child
  | first :: next :: rest, chain, head =>
    obtain rfl : first = root := by simpa using head
    exact ⟨next, rest, rfl⟩

/-- A table is kept while its chain grows. -/
theorem TableKept.outgrows {file after : List UInt8} {blocks blocks' : List Nat}
    (table : TableKept file htable root blocks) (grown : Outgrows file blocks after blocks')
    (laid : Laid after root blocks') : TableKept after htable root blocks' := by
  obtain ⟨next, rest, rfl⟩ := table.two
  have inner : root ∈ (root :: next :: rest).dropLast := by simp
  exact ⟨laid, table.copy.trans (grown.inner root inner).symm, table.child⟩

/-- What one call on a kept table does: the table is kept, every settled record
stays settled, and so does the one it answers. -/
theorem call_keeps (valid : blocksValidateHandle (some handle) = .success)
    (here : bloc.offset = root) {fuel : Nat} {recno : UInt32} {world final : World}
    {code : RndError} {offset : OffT} {blocks : List Nat} (first : 1 ≤ recno.toNat)
    (table : TableKept world.file htable root blocks)
    (completed : run (posix platform) (flatrecsMakeOffsetToRecno fuel handle bloc htable recno)
      world = (.ok (code, offset), final))
    (lossless : Lossless platform (log (posix platform)
      (flatrecsMakeOffsetToRecno fuel handle bloc htable recno) world))
    (safe : final.failures = world.failures ∨
      recno.toNat ≤ (capacities world.file htable blocks).sum) :
    ∃ blocks', TableKept final.file htable root blocks' ∧
      (∀ recno' offset', Settled handle world.file bloc htable blocks recno' offset' →
        Settled handle final.file bloc htable blocks' recno' offset') ∧
      (code = .success → Settled handle final.file bloc htable blocks' recno offset) ∧
      (¬ Aligned handle world.file ∨ recno.toNat ≤ (capacities world.file htable blocks).sum →
        final.file = world.file) := by
  obtain ⟨next, rest, rfl⟩ := table.two
  have stands : StandsIn world.file htable recno [] root ⟨htable.bhead, bloc.offset, 1⟩ :=
    ⟨⟨table.copy, here, rfl⟩, first⟩
  by_cases within : recno.toNat ≤ (capacities world.file htable (root :: next :: rest)).sum
  · obtain ⟨unchanged, -, placed⟩ :=
      @search_within _ _ _ _ _ _ _ [] _ _ table.laid.chain stands within fuel world rfl _ _
        completed lossless
    rw [unchanged]
    exact ⟨_, table, fun _ _ settled => settled, fun success => .inl (placed success), fun _ => rfl⟩
  · have calm := safe.resolve_right within
    obtain ⟨blocks', grown, laid, frozen, settled⟩ :=
      @search_calm _ _ _ _ _ _ valid fuel _ [] _ _ _ _ _ _ table.laid stands completed calm
    refine ⟨blocks', table.outgrows grown laid, ?_, settled, ?_⟩
    · rintro recno' offset' (placed | ⟨misaligned, wrapped⟩)
      · exact .inl (placed.outgrows grown)
      · have unchanged := frozen misaligned
        obtain ⟨added, rfl⟩ := grown.more
        rw [unchanged] at laid ⊢
        have none : added = [] := by
          have same := table.laid.chain.unique laid.chain
          simpa using same
        rw [none, List.append_nil]
        exact .inr ⟨misaligned, wrapped⟩
    · rintro (misaligned | inside)
      · exact frozen misaligned
      · exact absurd inside within

/-- On a kept table, no call of a sequence disturbs a settled record or an earlier
answer. -/
theorem requests_keep (valid : blocksValidateHandle (some handle) = .success)
    (here : bloc.offset = root) {world final : World} {requests : List Request}
    (sequence : Requests platform handle bloc htable world requests final)
    (first : ∀ request ∈ requests, 1 ≤ request.recno.toNat)
    (safe : ∀ request ∈ requests, request.Calm ∨ request.Within htable root)
    {blocks : List Nat} (table : TableKept world.file htable root blocks) :
    Stable requests ∧ ∀ recno offset,
      Settled handle world.file bloc htable blocks recno offset →
        ∀ later ∈ requests, Undisturbed recno offset later := by
  induction sequence generalizing blocks with
  | none world => exact ⟨List.Pairwise.nil, fun _ _ _ _ none => absurd none List.not_mem_nil⟩
  | @more fuel recno world middle final code offset later completed lossless rest ih =>
    have safeHere : middle.failures = world.failures ∨
        recno.toNat ≤ (capacities world.file htable blocks).sum := by
      rcases safe _ List.mem_cons_self with calm | ⟨rest', chain, within⟩
      · exact .inl calm
      · obtain ⟨next, rest'', rfl⟩ := table.two
        rw [← chain.unique table.laid.chain]
        exact .inr within
    obtain ⟨blocks', table', keeps, answered, unchanged⟩ :=
      call_keeps valid here (first _ List.mem_cons_self) table completed lossless safeHere
    obtain ⟨stable, undisturbed⟩ :=
      ih (fun request among => first request (List.mem_cons_of_mem _ among))
        (fun request among => safe request (List.mem_cons_of_mem _ among)) table'
    constructor
    · refine List.Pairwise.cons (fun request among success => ?_) stable
      exact undisturbed _ _ (answered success) request among
    · intro recno' offset' settled request among
      rcases List.mem_cons.mp among with rfl | behind
      · constructor
        · intro less
          apply unchanged
          rcases settled with placed | ⟨misaligned, -⟩
          · exact .inr (Nat.le_trans less placed.within)
          · exact .inl misaligned
        · intro success same
          obtain rfl : recno = recno' := same
          exact (answered success).unique (keeps _ _ settled)
      · exact undisturbed _ _ (keeps _ _ settled) request behind

/-- Each call of a sequence is a run. -/
theorem Requests.ran {world final : World} {requests : List Request}
    (sequence : Requests platform handle bloc htable world requests final) {request : Request}
    (among : request ∈ requests) :
    ∃ fuel, run (posix platform) (flatrecsMakeOffsetToRecno fuel handle bloc htable request.recno)
        request.before = (.ok (request.code, request.offset), request.after) ∧
      Lossless platform (log (posix platform)
        (flatrecsMakeOffsetToRecno fuel handle bloc htable request.recno) request.before) := by
  induction sequence with
  | none world => exact absurd among List.not_mem_nil
  | @more fuel recno world middle final code offset later completed lossless rest ih =>
    rcases List.mem_cons.mp among with rfl | behind
    · exact ⟨fuel, completed, lossless⟩
    · exact ih behind

/-- What a call does whose record is in the root, or that is made in a file that
cannot grow, when the copy names no child. -/
theorem childless_call (childless : htable.bhead.nextBlock.offset = 0) {fuel : Nat}
    {recno : UInt32} {world final : World} {code : RndError} {offset : OffT}
    (first : 1 ≤ recno.toNat)
    (completed : run (posix platform) (flatrecsMakeOffsetToRecno fuel handle bloc htable recno)
      world = (.ok (code, offset), final))
    (lossless : Lossless platform (log (posix platform)
      (flatrecsMakeOffsetToRecno fuel handle bloc htable recno) world))
    (safe : recno.toNat ≤ (flatrecsGetRecordCapacity htable htable.bhead).toNat ∨
      ¬ Aligned handle world.file) :
    final.file = world.file ∧ (code = .success →
      WrapsTo bloc htable recno ⟨htable.bhead, bloc.offset, 1⟩ offset) := by
  have behind : Search.Behind recno ⟨htable.bhead, bloc.offset, 1⟩ := first
  rcases safe with root | misaligned
  · have covered : Search.Covers htable recno ⟨htable.bhead, bloc.offset, 1⟩ := by
      rw [covers_iff behind]
      have one : (1 : UInt32).toNat = 1 := rfl
      simp only [one]
      omega
    cases fuel with
    | zero => simp [flatrecsMakeOffsetToRecno] at completed
    | succ fuel =>
      rw [flatrecsMakeOffsetToRecno, iterate_succ, searchRound_found covered] at completed
      obtain ⟨made, rfl⟩ := run_ret_inv _ completed
      obtain ⟨-, rfl⟩ := Prod.mk.inj made
      exact ⟨rfl, fun _ => WrapsTo.here covered⟩
  · exact search_stuck misaligned childless fuel world rfl _ _ completed lossless

/-- In every sequence of calls that are asked safely, no answer is disturbed. -/
theorem stable_of_askedSafely (valid : blocksValidateHandle (some handle) = .success)
    (here : bloc.offset = root) {world final : World} {rest : List Nat}
    (laid : Laid world.file root (root :: rest))
    (copy : htable = RndHeadTable.ofBytes (slice world.file root 64)) {requests : List Request}
    (sequence : Requests platform handle bloc htable world requests final)
    (first : ∀ request ∈ requests, 1 ≤ request.recno.toNat)
    (safe : AskedSafely handle htable root requests) : Stable requests := by
  rcases safe with ⟨child, safe⟩ | ⟨childless, safe⟩
  · have alike : htable.bhead.Alike (headAt world.file root) := by
      rw [copy]
      simp only [RndHeadTable.ofBytes]
      rw [slice_slice _ _ _ _ _ (by omega : 0 + 32 ≤ 64)]
      exact InfoBlock.Alike.refl _
    exact (requests_keep valid here sequence first safe ⟨laid, alike, child⟩).1
  · refine safe.imp_of_mem fun {earlier later} earlierAmong laterAmong comes success => ?_
    obtain ⟨fuel, ranEarlier, keptEarlier⟩ := sequence.ran earlierAmong
    obtain ⟨fuel', ranLater, keptLater⟩ := sequence.ran laterAmong
    have firstEarlier := first earlier earlierAmong
    have firstLater := first later laterAmong
    rcases comes success with root | beyond | ⟨misaligned, before⟩
    · obtain ⟨unchanged, wraps⟩ := childless_call childless firstLater ranLater keptLater (.inl root)
      refine ⟨fun _ => unchanged, fun found same => ?_⟩
      rw [same] at root wraps
      exact (wraps found).unique
        ((childless_call childless firstEarlier ranEarlier keptEarlier (.inl root)).2 success)
    · constructor
      · intro less
        omega
      · intro _ same
        rw [same] at beyond
        omega
    · obtain ⟨unchanged, wraps⟩ :=
        childless_call childless firstLater ranLater keptLater (.inr misaligned)
      refine ⟨fun _ => unchanged, fun found same => ?_⟩
      have misalignedEarlier := before same
      rw [same] at wraps
      exact (wraps found).unique
        ((childless_call childless firstEarlier ranEarlier keptEarlier (.inr misalignedEarlier)).2
          success)

end Sequence

/-! ## Two sequences on a new table -/

/-- The calls of the sequence, run one behind the other. -/
def requestsOf (platform : Platform) (fuel : Nat) (handle : Rndh) (bloc : BlockLoc)
    (htable : RndHeadTable) : World → List UInt32 → List Request
  | _, [] => []
  | world, recno :: rest =>
      match run (posix platform) (flatrecsMakeOffsetToRecno fuel handle bloc htable recno) world with
      | (.ok (code, offset), after) =>
          ⟨recno, world, code, offset, after⟩ ::
            requestsOf platform fuel handle bloc htable after rest
      | (.error _, _) => []

/-- Such calls are a sequence. -/
theorem requestsOf_sequence {platform : Platform} (durable : platform.Durable) (fuel : Nat)
    (handle : Rndh) (bloc : BlockLoc) (htable : RndHeadTable) (world : World) (recnos : List UInt32) :
    ∃ final, Requests platform handle bloc htable world
      (requestsOf platform fuel handle bloc htable world recnos) final := by
  induction recnos generalizing world with
  | nil => exact ⟨world, .none world⟩
  | cons recno rest ih =>
    rw [requestsOf]
    rcases completed : run (posix platform) (flatrecsMakeOffsetToRecno fuel handle bloc htable recno)
      world with ⟨reason | ⟨code, offset⟩, after⟩
    · exact ⟨world, .none world⟩
    · obtain ⟨final, sequence⟩ := ih after
      exact ⟨final, .more completed (durable.lossless _) sequence⟩

/-- They ask for the listed records. -/
theorem requestsOf_recno {platform : Platform} {fuel : Nat} {handle : Rndh} {bloc : BlockLoc}
    {htable : RndHeadTable} {world : World} {recnos : List UInt32} {request : Request}
    (among : request ∈ requestsOf platform fuel handle bloc htable world recnos) :
    request.recno ∈ recnos := by
  induction recnos generalizing world with
  | nil => exact absurd among List.not_mem_nil
  | cons recno rest ih =>
    rw [requestsOf] at among
    split at among
    · rcases List.mem_cons.mp among with rfl | behind
      · exact List.mem_cons_self
      · exact List.mem_cons_of_mem _ (ih behind)
    · exact absurd among List.not_mem_nil

theorem freshWorld_laid : Laid (freshWorld 80 3).file 0 [0] where
  heads := ⟨by decide +kernel, List.pairwise_singleton _ _⟩
  chain := by constructor <;> decide +kernel
  head := rfl
  bounded := by decide +kernel

/-- The two records of a new root, asked for in turn. -/
def rootRequests : List Request :=
  requestsOf (Platform.sound fun _ _ => 0) 3 (freshHandle 0 80 3) ⟨0, 64⟩ (freshTable 80 3)
    (freshWorld 80 3) [2, 1]

theorem stable_of_askedSafely_root : Stable rootRequests := by
  obtain ⟨final, sequence⟩ := requestsOf_sequence (Platform.durable_sound fun _ _ => 0) 3
    (freshHandle 0 80 3) ⟨0, 64⟩ (freshTable 80 3) (freshWorld 80 3) [2, 1]
  have among (request : Request) (there : request ∈ rootRequests) :
      request.recno = 2 ∨ request.recno = 1 := by
    simpa using requestsOf_recno there
  refine stable_of_askedSafely (by decide +kernel) rfl freshWorld_laid (by decide +kernel) sequence
    (fun request there => ?_) (.inr ⟨by decide +kernel, ?_⟩)
  · rcases among request there with two | one
    · rw [two]
      decide
    · rw [one]
      decide
  · apply List.pairwise_of_forall_mem_list
    intro earlier _ later there _
    left
    rcases among later there with two | one
    · rw [two]
      decide +kernel
    · rw [one]
      decide +kernel

/-- The third record of a new table, whose root holds two, asked for twice: the
first answer lies behind the `INFO_BLOCK` of the root, and the second one is the
address of the first record. -/
theorem third_record_moves :
    ¬ ∀ requests final, Requests (Platform.sound fun _ _ => 0) (freshHandle 0 80 3) ⟨0, 64⟩
        (freshTable 80 3) (freshWorld 80 3) requests final →
      (∀ request ∈ requests, 1 ≤ request.recno.toNat) → Stable requests := by
  intro always
  obtain ⟨final, sequence⟩ := requestsOf_sequence (Platform.durable_sound fun _ _ => 0) 3
    (freshHandle 0 80 3) ⟨0, 64⟩ (freshTable 80 3) (freshWorld 80 3) [3, 3]
  have answers : (requestsOf (Platform.sound fun _ _ => 0) 3 (freshHandle 0 80 3) ⟨0, 64⟩
      (freshTable 80 3) (freshWorld 80 3) [3, 3]).map
        (fun request => (request.recno, request.code, request.offset)) =
      [(3, .success, 32), (3, .success, 72)] := by decide +kernel
  have stable := always _ _ sequence fun request there => by
    have three : request.recno = 3 := by simpa using requestsOf_recno there
    rw [three]
    decide
  -- the two answers for the same record are to be equal
  have same : ((requestsOf (Platform.sound fun _ _ => 0) 3 (freshHandle 0 80 3) ⟨0, 64⟩
      (freshTable 80 3) (freshWorld 80 3) [3, 3]).map
        (fun request => (request.recno, request.code, request.offset))).Pairwise
      fun earlier later => earlier.2.1 = .success → later.2.1 = .success →
        later.1 = earlier.1 → later.2.2 = earlier.2.2 :=
    List.pairwise_map.mpr (stable.imp fun undisturbed success => (undisturbed success).2)
  rw [answers] at same
  simp at same

end Recnodb

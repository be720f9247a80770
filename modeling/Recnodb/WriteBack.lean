import Mathlib.Data.List.Pairwise
import Recnodb.Addressing
import Recnodb.LockedArea
import Recnodb.Stability

/-!
# The write-back of the table header

The next-offset function works on a copy of the table header, while the search it
calls may extend the chain on disk. Where the extended block is the root itself,
the link exists on disk only, and a copy that is written back removes it: every
block behind the root is lost. Where the root has a child already, or is not
extended, or the copy is not written back, no block is lost, whatever fails without
losing what the stream holds.
-/

namespace Recnodb

open Interaction Octets Program

/-- Every block that was reached from the root still is, and so is every block
that the call linked. -/
structure NothingLost (file after : List UInt8) (root : Nat) (past : List Event) : Prop where
  kept : ∀ block, Reachable file root block → Reachable after root block
  linked : ∀ chainEnd newBlock, .extended chainEnd .success newBlock ∈ past →
    ∃ block : Nat, newBlock.offset = (block : OffT) ∧ Reachable after root block

/-- The root has a child, or the call does not extend it, or the user callback does
not ask for the header to be written back. -/
def RootSpared (file : List UInt8) (root : Nat) (past : List Event) : Prop :=
  (headAt file root).nextBlock.offset ≠ 0 ∨
    (∀ newBlock, .extended root .success newBlock ∉ past) ∨ .answered true ∉ past

/-- The next record lies in the root. -/
def RootHolds (file : List UInt8) (root : Nat) : Prop :=
  (htableAt file root).thead.lastRecno <
    flatrecsGetRecordCapacity (htableAt file root) (headAt file root)

/-- A header that was changed in its last record number at most. -/
def RndHeadTable.Renumbered (htable changed : RndHeadTable) : Prop :=
  ∃ lastRecno, changed = htable.numbered lastRecno

/-- The links of a table are as they were. -/
structure KeepsLinks (root : Nat) (file after : List UInt8) : Prop where
  longer : file.length ≤ after.length
  same : ∀ block, Reachable file root block →
    (headAt after block).nextBlock.offset = (headAt file block).nextBlock.offset

/-- Whatever the search leaves and delivers, the user callback changes at most the
last record number of the header it is given and no link of the table on disk. -/
def Courteous (platform : Platform) (fuel : Nat) (handle : Rndh) (file : List UInt8) (root : Nat)
    (user : FlatrecsUseNewRecord) : Prop :=
  ∀ before after offset, before.file = file →
    run (posix platform) (flatrecsMakeOffsetToRecno fuel handle ⟨root, sizeofHeadTable⟩
      (htableAt file root) (nextRecno file root)) before = (.ok (.success, offset), after) →
    UnderFaults platform after.file (user handle (htableAt file root) offset)
      fun answer final past => past = [] ∧ KeepsLinks root after.file final ∧
        (htableAt file root).Renumbered answer.2

/-! ## The copy -/

section Copy

variable {file middle : List UInt8} {root : Nat} {changed : RndHeadTable}

/-- The root header that is written back is the one that was read. -/
theorem headAt_writtenBack (renumbered : (htableAt file root).Renumbered changed) :
    headAt (patch middle root changed.toBytes) root = headAt file root := by
  obtain ⟨lastRecno, rfl⟩ := renumbered
  have same : ((htableAt file root).numbered lastRecno).bhead = headAt file root :=
    htableAt_bhead file root
  have fits : (headAt file root).nextBlock.Fits := BlockLoc.ofBytes_fits _
  rw [headAt, slice_patch_inside _ (Nat.le_refl _) (by simp), Nat.sub_self, RndHeadTable.toBytes,
    slice_field_first (InfoBlock.toBytes_length _), same, InfoBlock.ofBytes_toBytes fits]

/-- The write-back reaches no other header. -/
theorem link_writtenBack {block : Nat} (inside : block + 32 ≤ middle.length)
    (apart : block + 32 ≤ root ∨ root + 64 ≤ block) :
    (headAt (patch middle root changed.toBytes) block).nextBlock.offset =
      (headAt middle block).nextBlock.offset := by
  have same : slice (patch middle root changed.toBytes) block 32 = slice middle block 32 :=
    slice_patch_disjoint inside (by simpa using apart)
  rw [headAt, same]

/-- A table in which the link of its root was removed is its root. -/
theorem reachable_alone {after : List UInt8} {block : Nat}
    (free : (headAt after root).nextBlock.offset = 0) (reached : Reachable after root block) :
    block = root := by
  rcases Relation.ReflTransGen.cases_head reached with same | ⟨next, link, -⟩
  · exact same.symm
  · have none : (next : OffT) = 0 := link.2.symm.trans free
    exact absurd (Int.natCast_eq_zero.mp none) link.1

end Copy

/-! ## The search below the copy -/

section Sought

variable {platform : Platform} {file : List UInt8} {handle : Rndh} {bloc : BlockLoc}
variable {htable : RndHeadTable} {recno : UInt32} {search : Search}

/-- At the end of the chain, the first block to be extended is the one the search
stands at. -/
theorem search_extends_here (fuel : Nat) (last : search.iblock.nextBlock.offset = 0) :
    UnderFaults platform file (searchFrom fuel handle bloc htable recno search)
      fun _ _ past => ∀ chainEnd newBlock, .extended chainEnd .success newBlock ∈ past →
        ∃ newBlock', .extended search.iblockOffset .success newBlock' ∈ past := by
  induction fuel generalizing file search with
  | zero => exact UnderFaults.stop _
  | succ fuel ih =>
    apply searchFrom_faults
    by_cases covered : search.Covers htable recno
    · rw [searchRound_found covered]
      exact UnderFaults.ret fun _ _ none => absurd none List.not_mem_nil
    · have stillLast : (search.advanced htable).iblock.nextBlock.offset = 0 := last
      rw [searchRound_end covered last]
      refine extendForRecord_faults.mono fun outcome after past ⟨result, extended⟩ => ?_
      obtain ⟨-, ⟨code, rfl⟩, onward, again⟩ := extended
      by_cases success : result.1 = .success
      · -- the extension of this block is among the events, whatever follows
        have here : .extended search.iblockOffset .success result.2.newBlock ∈
            ([.requested (search.advanced htable).iblockOffset
                (requestedBlock handle htable recno (search.advanced htable)), .appendEntered,
              .appendLeft code result.2.newBlock,
              .extended (search.advanced htable).iblockOffset result.1 result.2.newBlock] :
                List Event) := by
          rw [success]
          simp [Search.advanced]
        cases outcome with
        | inl next =>
          intro world _ value final _ _ chainEnd newBlock _
          exact ⟨_, List.mem_append_left _ here⟩
        | inr delivered => exact fun chainEnd newBlock _ => ⟨_, here⟩
      · rw [again success]
        refine (ih stillLast).mono fun value final later first chainEnd newBlock among => ?_
        rcases List.mem_append.mp among with before | behind
        · simp at before
          exact absurd before.2.1.symm success
        · obtain ⟨newBlock', there⟩ := first chainEnd newBlock behind
          exact ⟨newBlock', List.mem_append_right _ there⟩

end Sought

/-! ## What a call leaves -/

section Left

variable {platform : Platform} {file middle final : List UInt8} {handle : Rndh} {fuel : Nat}
variable {root : Nat} {rest blocks : List Nat} {past whole : List Event} {changed : RndHeadTable}

/-- The links that a thread follows are those of reached blocks. -/
theorem Threaded.path_links (threaded : Threaded middle root blocks)
    (links : KeepsLinks root middle final) : blocks.IsChain (Links final) :=
  path_kept threaded.path fun _ among =>
    links.same _ (path_reachable threaded.path threaded.head (List.dropLast_subset _ among))

/-- If every block of the thread is still reached, nothing is lost. -/
theorem ThreadKept.nothingLost (laid : Laid file root (root :: rest))
    (kept : ThreadKept file root (root :: rest) middle past blocks)
    (reached : ∀ block ∈ blocks, Reachable final root block)
    (only : ∀ chainEnd newBlock, .extended chainEnd .success newBlock ∈ whole →
      .extended chainEnd .success newBlock ∈ past) :
    NothingLost file final root whole := by
  obtain ⟨added, rfl⟩ := kept.grown.more
  constructor
  · intro block before
    exact reached block (List.mem_append_left _ (laid.chain.only_reachable laid.head before))
  · intro chainEnd newBlock among
    obtain ⟨block, there, -, same⟩ := kept.linked chainEnd newBlock (only _ _ among)
    exact ⟨block, same, reached block there⟩

/-- Where the root has a child, the write-back keeps every link of the thread. -/
theorem ThreadKept.writtenBack (laid : Laid file root (root :: rest))
    (kind : 64 ≤ headLength file root)
    (kept : ThreadKept file root (root :: rest) middle past blocks)
    (links : KeepsLinks root middle final)
    (renumbered : (htableAt file root).Renumbered changed)
    (child : (headAt file root).nextBlock.offset ≠ 0) :
    ∀ block ∈ blocks, Reachable (patch final root changed.toBytes) root block := by
  have path : blocks.IsChain (Links (patch final root changed.toBytes)) := by
    refine path_kept (kept.threaded.path_links links) fun block among => ?_
    have there : block ∈ blocks := List.dropLast_subset _ among
    by_cases same : block = root
    · subst same
      have inner : block ∈ (block :: rest).dropLast := by
        cases rest with
        | nil => exact absurd laid.chain.2 child
        | cons next rest => simp
      have before := links.same block Relation.ReflTransGen.refl
      rw [headAt_writtenBack renumbered, before]
      exact (kept.grown.inner block inner).next.symm
    · have wide : headLength middle root = headLength file root :=
        headLength_sameBlock (kept.grown.same root List.mem_cons_self)
      have rootAmong : root ∈ blocks := List.mem_of_head? kept.threaded.head
      have inside := kept.threaded.heads.inside block there
      have apart : HeadsApart middle block root :=
        kept.threaded.heads.apart.forall there rootAmong same
      have longer := links.longer
      rw [HeadsApart, wide] at apart
      simp only [headLength] at inside apart kind
      exact link_writtenBack (by omega) (by omega)
  exact fun block among => path_reachable path kept.threaded.head among

/-- What the search leaves, below the copy. -/
structure Sought (file : List UInt8) (handle : Rndh) (root : Nat) (rest : List Nat)
    (middle : List UInt8) (past : List Event) : Prop where
  thread : ∃ blocks, ThreadKept file root (root :: rest) middle past blocks
  frozen : ¬ Aligned handle file → middle = file
  held : RootHolds file root → past = []
  events : ∀ event ∈ past, event.OfSearch
  first : (headAt file root).nextBlock.offset = 0 → ∀ chainEnd newBlock,
    .extended chainEnd .success newBlock ∈ past → ∃ newBlock',
      .extended root .success newBlock' ∈ past

/-- The search for the next record covers it at once if the root holds it. -/
theorem rootHolds_iff : RootHolds file root ↔
    Search.Covers (htableAt file root)
      (nextRecno file root) ⟨(htableAt file root).bhead, root, 1⟩ := by
  have index : nextRecno file root - 1 = (htableAt file root).thead.lastRecno := by
    rw [nextRecno, UInt32.add_sub_cancel]
  rw [RootHolds, Search.Covers, index, htableAt_bhead]

theorem search_sought (laid : Laid file root (root :: rest)) :
    UnderFaults platform file (flatrecsMakeOffsetToRecno fuel handle ⟨root, sizeofHeadTable⟩
      (htableAt file root) (nextRecno file root))
      fun _ middle past => Sought file handle root rest middle past := by
  have bhead := htableAt_bhead file root
  have passed := @UnderFaults.ofSearch platform file _ (flatrecsMakeOffsetToRecno fuel handle
    ⟨root, sizeofHeadTable⟩ (htableAt file root) (nextRecno file root))
    ofSearch_flatrecsMakeOffsetToRecno
  have threads := @search_threads platform file handle ⟨root, sizeofHeadTable⟩ (htableAt file root)
    (nextRecno file root) root ⟨(htableAt file root).bhead, root, 1⟩ [] fuel rest root laid rfl
    (by rw [bhead])
  by_cases held : RootHolds file root
  · refine (threads.both (search_here (rootHolds_iff.mp held))).mono ?_
    rintro _ middle past ⟨⟨frozen, thread⟩, -, -, rfl⟩
    exact ⟨thread, frozen, fun _ => rfl, fun _ none => absurd none List.not_mem_nil,
      fun _ _ _ none => absurd none List.not_mem_nil⟩
  · by_cases last : (headAt file root).nextBlock.offset = 0
    · have stands : (htableAt file root).bhead.nextBlock.offset = 0 := by rw [bhead, last]
      refine ((threads.both passed).both (search_extends_here fuel stands)).mono ?_
      rintro _ middle past ⟨⟨⟨frozen, thread⟩, among⟩, first⟩
      exact ⟨thread, frozen, fun yes => absurd yes held, among, fun _ => first⟩
    · refine (threads.both passed).mono ?_
      rintro _ middle past ⟨⟨frozen, thread⟩, among⟩
      exact ⟨thread, frozen, fun yes => absurd yes held, among, fun free => absurd free last⟩

/-- The root is extended only by a search that leaves it, in a file that can grow. -/
theorem Sought.extended (sought : Sought file handle root rest middle past) {newBlock : BlockLoc}
    (among : .extended root .success newBlock ∈ past) : Aligned handle file ∧
      ¬ RootHolds file root := by
  obtain ⟨⟨blocks, kept⟩, frozen, held, -, -⟩ := sought
  constructor
  · by_contra misaligned
    obtain ⟨block, there, fresh, -⟩ := kept.linked root newBlock among
    have inside := kept.threaded.heads.inside block there
    rw [frozen misaligned, headLength] at inside
    omega
  · intro holds
    rw [held holds] at among
    exact absurd among List.not_mem_nil

end Left

/-! ## Exactly when nothing is lost -/

section Call

variable {platform : Platform} {file : List UInt8} {handle : Rndh} {fuel : Nat} {root : Nat}
variable {rest : List Nat} {user : FlatrecsUseNewRecord}

/-- What a successful call leaves, whatever fails without a loss: no block is lost if and only if
the root is spared, and the root is extended only where the search leaves it. -/
structure WroteBack (file : List UInt8) (handle : Rndh) (root : Nat) (after : List UInt8)
    (past : List Event) : Prop where
  spared : NothingLost file after root past ↔ RootSpared file root past
  extended : ∀ newBlock, .extended root .success newBlock ∈ past →
    Aligned handle file ∧ ¬ RootHolds file root

theorem getNextOffset_writesBack (laid : Laid file root (root :: rest))
    (kind : 64 ≤ headLength file root)
    (courteous : Courteous platform fuel handle file root user) :
    UnderFaults platform file (flatrecsGetNextOffset fuel handle root user)
      fun rval after past => rval = .success → WroteBack file handle root after past := by
  refine getNextOffset_success fun inside => ?_
  refine ((search_sought laid).both (UnderFaults.ran _)).mono ?_
  rintro ⟨code, offset⟩ middle past ⟨sought, before, final, same, rfl, completed, -⟩
  obtain ⟨blocks, kept⟩ := sought.thread
  have silent : .answered true ∉ past := fun among => sought.events _ among
  refine ⟨fun failed => ⟨?_, ?_⟩, fun success => ?_⟩
  · have unanswered : .answered true ∉ (.numbered (nextRecno file root) :: past : List Event) := by
      simpa using silent
    have reached : ∀ block ∈ blocks, Reachable final.file root block := fun block among =>
      path_reachable kept.threaded.path kept.threaded.head among
    exact iff_of_true (kept.nothingLost laid reached (by simp)) (.inr (.inr unanswered))
  · intro newBlock among
    exact sought.extended (by simpa using among)
  · dsimp only at success
    subst success
    refine (courteous before final offset same completed).mono ?_
    rintro ⟨changed, htable⟩ after later ⟨rfl, links, renumbered⟩
    dsimp only at renumbered ⊢
    refine ⟨?_, fun newBlock among => sought.extended (by simpa using among)⟩
    cases changed with
    | false =>
      have reached : ∀ block ∈ blocks, Reachable after root block := fun block among =>
        path_reachable (kept.threaded.path_links links) kept.threaded.head among
      refine iff_of_true (kept.nothingLost laid reached (by simp)) (.inr (.inr ?_))
      simpa using silent
    | true =>
      rw [if_pos rfl]
      by_cases child : (headAt file root).nextBlock.offset = 0
      · -- the copy names no child, and so does the root from now on
        have free : (headAt (patch after root htable.toBytes) root).nextBlock.offset = 0 := by
          rw [headAt_writtenBack renumbered, child]
        constructor
        · intro nothing
          refine .inr (.inl fun newBlock among => ?_)
          obtain ⟨block, named, reached⟩ := nothing.linked root newBlock among
          obtain ⟨block', -, fresh, named'⟩ := kept.linked root newBlock (by simpa using among)
          have alone := reachable_alone free reached
          have same : (block : OffT) = block' := named.symm.trans named'
          have := Int.natCast_inj.mp same
          omega
        · rintro (some | spared | unanswered)
          · exact absurd child some
          · constructor
            · intro block before
              obtain rfl := reachable_alone child before
              exact Relation.ReflTransGen.refl
            · intro chainEnd newBlock among
              obtain ⟨newBlock', there⟩ := sought.first child chainEnd newBlock (by simpa using among)
              exact absurd (by simpa using there) (spared newBlock')
          · simp at unanswered
      · exact iff_of_true (kept.nothingLost laid
          (kept.writtenBack laid kind links renumbered child) (by simp)) (.inl child)

/-- On a file on which nothing fails, a search that leaves the root extends it. -/
theorem getNextOffset_extends (memory : Nat → Nat → UInt8)
    (valid : blocksValidateHandle (some handle) = .success) (laid : Laid file root (root :: rest))
    (kind : 64 ≤ headLength file root) (free : (headAt file root).nextBlock.offset = 0)
    (aligned : Aligned handle file) (beyond : ¬ RootHolds file root) :
    ∃ newBlock, Smoothly memory file (flatrecsGetNextOffset fuel handle root user)
      fun _ _ past => .extended root .success newBlock ∈ past := by
  have room := laid.heads.inside root List.mem_cons_self
  have below := lt_of_le_offMax laid.bounded
  have bhead := htableAt_bhead file root
  obtain ⟨newBlock, grows⟩ : ∃ newBlock, OnFile memory file (searchRound handle
      ⟨root, sizeofHeadTable⟩ (htableAt file root) (nextRecno file root)
      ⟨(htableAt file root).bhead, root, 1⟩)
      fun _ _ past => .extended root .success newBlock ∈ past := by
    refine ⟨⟨file.length, (requestedBlock handle (htableAt file root) (nextRecno file root)
      (Search.advanced (htableAt file root)
        ⟨(htableAt file root).bhead, root, 1⟩)).blockSize.toNat⟩, ?_⟩
    refine (searchRound_grows valid aligned below rfl (mt rootHolds_iff.mpr beyond)
      (by rw [bhead, free]) free (by rw [headLength] at room; omega)).mono ?_
    rintro outcome after past ⟨-, rfl, -⟩
    simp
  have called : Smoothly memory file (flatrecsGetNextOffsetLockCallback fuel user handle
      ⟨root, sizeofHeadTable⟩ (some (slice file root 64)))
      fun _ _ past => .extended root .success newBlock ∈ past := by
    refine Smoothly.among_note (Smoothly.among_left ?_)
    cases fuel with
    | zero => exact Smoothly.stop _
    | succ fuel => exact Smoothly.among_left (Smoothly.of_total grows)
  refine ⟨newBlock, ?_⟩
  apply Smoothly.assert_bind
  apply Smoothly.primeHandle_bind
  apply Smoothly.primeHandle_bind
  apply Smoothly.fcntl_bind
  apply Smoothly.among_left
  refine Smoothly.of_positions fun position => SmoothlyFrom.ftell_bind (SmoothlyFrom.fseek_bind ?_)
  dsimp only
  rw [if_pos rfl]
  refine SmoothlyFrom.fread_bind (by simp; omega) (SmoothlyFrom.of_file ?_)
  exact Smoothly.among_left called

/-- A successful call in which no failing operation loses what the stream holds loses
no block if and only if the root is spared; in a call without a failed operation that
means: the root has a child, or holds the next record, or cannot be extended, or the
callback does not ask for the write-back. -/
theorem nothingLost_iff_rootSpared {world after : World}
    (laid : Laid world.file root (root :: rest)) (kind : 64 ≤ headLength world.file root)
    (valid : blocksValidateHandle (some handle) = .success)
    (courteous : Courteous platform fuel handle world.file root user)
    (completed : run (posix platform) (flatrecsGetNextOffset fuel handle root user) world =
      (.ok .success, after))
    (lossless : Lossless platform
      (log (posix platform) (flatrecsGetNextOffset fuel handle root user) world)) :
    let past := events (log (posix platform) (flatrecsGetNextOffset fuel handle root user) world)
    (NothingLost world.file after.file root past ↔ RootSpared world.file root past) ∧
      (after.failures = world.failures →
        (RootSpared world.file root past ↔
          (headAt world.file root).nextBlock.offset ≠ 0 ∨ RootHolds world.file root ∨
            ¬ Aligned handle world.file ∨ .answered true ∉ past)) := by
  intro past
  have left : WroteBack world.file handle root after.file past :=
    getNextOffset_writesBack laid kind courteous world rfl _ _ completed lossless rfl
  refine ⟨left.spared, fun calm => ?_⟩
  rw [RootSpared]
  by_cases free : (headAt world.file root).nextBlock.offset = 0
  · have extended : (∃ newBlock, .extended root .success newBlock ∈ past) ↔
        Aligned handle world.file ∧ ¬ RootHolds world.file root := by
      constructor
      · rintro ⟨newBlock, among⟩
        exact left.extended newBlock among
      · rintro ⟨aligned, beyond⟩
        obtain ⟨newBlock, among⟩ := @getNextOffset_extends world.file handle fuel root rest user
          platform.memory valid laid kind free aligned beyond
        have quiet : (run (posix platform) (flatrecsGetNextOffset fuel handle root user)
            world).2.failures = world.failures := by
          rw [completed]
          exact calm
        obtain ⟨sameRun, sameLog⟩ := run_calm quiet
        have there := among world rfl _ _ (sameRun.symm.trans completed)
        rw [← sameLog] at there
        exact ⟨newBlock, there⟩
    have never : (∀ newBlock, .extended root .success newBlock ∉ past) ↔
        RootHolds world.file root ∨ ¬ Aligned handle world.file := by
      rw [← not_exists, extended, not_and_or, not_not, or_comm]
    rw [never, or_assoc]
  · exact iff_of_true (.inl free) (.inl free)

end Call

/-! ## The third record of a new table -/

theorem takeNumber_courteous {platform : Platform} {fuel : Nat} {handle : Rndh}
    {file : List UInt8} {root : Nat} : Courteous platform fuel handle file root takeNumber :=
  fun _ _ _ _ _ => UnderFaults.ret ⟨rfl, ⟨Nat.le_refl _, fun _ _ => rfl⟩, _, rfl⟩

/-- The request for the first record of a new table. -/
def firstRequest : Prog RndError := flatrecsGetNextOffset 1 (freshHandle 0 80 3) (0 : Nat) takeNumber

theorem nothingLost_iff_rootSpared_first :
    NothingLost (freshWorld 80 3).file
      (run (posix soundPlatform) firstRequest (freshWorld 80 3)).2.file 0
      (events (log (posix soundPlatform) firstRequest (freshWorld 80 3))) := by
  have completed : (run (posix soundPlatform) firstRequest (freshWorld 80 3)).1 = .ok .success := by
    decide +kernel
  have holds : RootHolds (freshWorld 80 3).file 0 := by
    rw [RootHolds]
    decide +kernel
  have calm : (run (posix soundPlatform) firstRequest (freshWorld 80 3)).2.failures =
      (freshWorld 80 3).failures := by
    decide +kernel
  rw [firstRequest] at completed calm ⊢
  obtain ⟨spared, exactly⟩ := nothingLost_iff_rootSpared freshWorld_laid (by decide +kernel)
    (by decide +kernel) takeNumber_courteous (run_eq_of_value _ completed)
    (lossless_of_calm calm)
  exact spared.mpr ((exactly calm).mpr (.inr (.inl holds)))

/-- A new table whose root holds two records and names two. -/
def fullRoot : World := { freshWorld 80 3 with
  disk := patch (freshWorld 80 3).file 60 (encode 4 2) }

/-- The third record is put into a new block, which the write-back of the header
cuts off. -/
theorem third_record_loses_block :
    let program := flatrecsGetNextOffset 3 (freshHandle 0 80 3) 0 takeNumber
    (run (posix soundPlatform) program fullRoot).1 = .ok .success ∧
      ¬ NothingLost fullRoot.file (run (posix soundPlatform) program fullRoot).2.file 0
        (events (log (posix soundPlatform) program fullRoot)) := by
  intro program
  refine ⟨by decide +kernel, fun nothing => ?_⟩
  have linked : .extended 0 .success ⟨80, 0⟩ ∈ events
    (log (posix soundPlatform) program fullRoot) := by
    decide +kernel
  obtain ⟨block, named, reached⟩ := nothing.linked _ _ linked
  have free : (headAt (run (posix soundPlatform) program fullRoot).2.file 0).nextBlock.offset = 0 :=
    by
    decide +kernel
  rw [reachable_alone free reached] at named
  exact absurd named (by decide)

end Recnodb

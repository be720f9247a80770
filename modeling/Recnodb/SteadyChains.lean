import Recnodb.ConcurrentStore

/-!
# Chains that only grow

A walk relies on the links it has followed and on the headers it has shown. An append leaves
the whole file in front of its block, and a link changes the last header of the chain only, so
every single call of a process that adds blocks lets the chain go on behind its last block and
leaves what walks read in front of that one. This holds of the disk whichever of the calls
fail, and whatever they lose of what the stream holds: where the header of a new block is
lost, zeros stand in its place, and a block of zeros has no child.
-/

namespace Recnodb

open Interaction Octets Program Extents

/-! ## Growing chains -/

/-- The chain of the first block only grows: it goes on behind its last block, and what walks read
of the blocks in front of that one stays. -/
def ChainGrows (before after : List UInt8) : Prop :=
  ∀ blocks, ChainAt before 0 blocks → ∃ added, ChainAt after 0 (blocks ++ added) ∧
    ∀ block ∈ blocks.dropLast, slice after block sizeofHeadFile = slice before block sizeofHeadFile

section Growth

variable {file before middle after : List UInt8} {blocks : List Nat}

theorem ChainGrows.refl (file : List UInt8) : ChainGrows file file := by
  intro blocks chain
  exact ⟨[], by rwa [List.append_nil], fun _ _ => rfl⟩

/-- The blocks in front of the last one stay there when a chain goes on. -/
theorem dropLast_grown {block : Nat} {blocks added : List Nat} (among : block ∈ blocks.dropLast) :
    block ∈ (blocks ++ added).dropLast := by
  cases added with
  | nil => rwa [List.append_nil]
  | cons next rest =>
    rw [List.dropLast_append_of_ne_nil (List.cons_ne_nil next rest)]
    exact List.mem_append_left _ (List.dropLast_subset _ among)

theorem ChainGrows.trans (first : ChainGrows before middle) (second : ChainGrows middle after) :
    ChainGrows before after := by
  intro blocks chain
  obtain ⟨added, chain', kept⟩ := first blocks chain
  obtain ⟨added', chain'', kept'⟩ := second _ chain'
  refine ⟨added ++ added', by rwa [← List.append_assoc], fun block among => ?_⟩
  exact (kept' block (dropLast_grown among)).trans (kept block among)

/-- The chain of a file is one. -/
theorem ChainAt.unique {start : Nat} {blocks' : List Nat} (one : ChainAt file start blocks)
    (other : ChainAt file start blocks') : blocks = blocks' := by
  obtain ⟨rest, rfl⟩ := one.cons
  obtain ⟨rest', rfl⟩ := other.cons
  rw [one.chain.unique other.chain]

/-- A chain stays where its file is a prefix, and so does what walks read of it. -/
theorem ChainAt.in_front {start : Nat} (chain : ChainAt file start blocks) (front : file <+: after)
    (bounded : after.length ≤ offMax) : ChainAt after start blocks ∧
      ∀ block ∈ blocks, slice after block sizeofHeadFile = slice file block sizeofHeadFile := by
  have longer := front.length_le
  have same {block : Nat} (among : block ∈ blocks) :
      slice after block sizeofHeadFile = slice file block sizeofHeadFile := by
    have inside := chain.inside block among
    refine slice_congr fun index _ below => ?_
    rw [List.prefix_iff_getElem?.mp front index (by omega), List.getElem?_eq_getElem]
  have head {block : Nat} (among : block ∈ blocks) : headAt after block = headAt file block := by
    rw [← ofBytes_shown, ← ofBytes_shown, same among]
  refine ⟨⟨chain.chain.kept longer fun block among => head among, chain.head,
    fun block among => (chain.inside block among).trans longer, ?_, bounded⟩, fun block => same⟩
  refine chain.apart.imp_of_mem fun {one other} oneAmong otherAmong apart => ?_
  rw [BlocksApart, blockStop, blockStop, head oneAmong, head otherAmong]
  exact apart

/-- What is done behind a file lets its chain be. -/
theorem chainGrows_behind (chain : ChainAt file 0 blocks) (front : file <+: before)
    (front' : file <+: after) (bounded : after.length ≤ offMax) : ChainGrows before after := by
  intro blocks' chain'
  have limit : before.length ≤ offMax := chain'.bounded
  obtain ⟨here, same⟩ := chain.in_front front limit
  obtain ⟨there, same'⟩ := chain.in_front front' bounded
  obtain rfl := here.unique chain'
  refine ⟨[], by rwa [List.append_nil], fun block among => ?_⟩
  have old := List.dropLast_subset _ among
  exact (same' block old).trans (same block old).symm

end Growth

/-! ## Chains with room -/

/-- The chain of the first block. Each of its blocks has the length of a file header to itself, and
none ends behind the file. -/
structure Grounded (file : List UInt8) (blocks : List Nat) : Prop extends ChainAt file 0 blocks where
  spaced : blocks.Pairwise fun one other =>
    one + sizeofHeadFile ≤ other ∨ other + sizeofHeadFile ≤ one
  behind : ∀ block ∈ blocks, blockStop file block ≤ file.length

/-- There is such a chain. -/
def Rooted (file : List UInt8) : Prop := ∃ blocks, Grounded file blocks

/-- A change of the disk that lets the chain grow. -/
structure Tends (before after : List UInt8) : Prop where
  grows : ChainGrows before after
  rooted : Rooted after

section Chains

variable {file after : List UInt8} {blocks : List Nat}

/-- The chain of stored blocks is such a chain. -/
theorem Contents.Stored.grounded {chunkSize recSize : UInt32} {contents : Contents}
    (stored : contents.Stored chunkSize recSize file) (large : sizeofHeadFile ≤ chunkSize.toNat)
    (bounded : file.length ≤ offMax) : Grounded file (contents.linked.map Block.start) := by
  have among {block : Block} (linked : block ∈ contents.linked) : block ∈ contents.blocks :=
    List.mem_append_left _ linked
  refine ⟨stored.chainAt large bounded, ?_, fun offset there => ?_⟩
  · apply List.pairwise_map.mpr
    apply (List.pairwise_append.mp stored.apart).1.imp_of_mem
    intro one other oneAmong otherAmong apart
    have long {block : Block} (linked : block ∈ contents.linked) : sizeofHeadFile ≤ block.size := by
      have size := block.size_ge
      exact large.trans (Nat.le_of_dvd (by omega) (stored.each block (among linked)).whole)
    have first := long oneAmong
    have second := long otherAmong
    rw [Block.Apart, Block.stop, Block.stop] at apart
    omega
  · obtain ⟨block, linked, rfl⟩ := List.mem_map.mp there
    rw [blockStop, (stored.each block (among linked)).size,
      show max sizeofInfoBlock block.size = block.size from Nat.max_eq_right block.size_ge]
    exact stored.behind block (among linked)

/-- What is written behind a file lets its chain be. -/
theorem Grounded.in_front (grounded : Grounded file blocks) (front : file <+: after)
    (bounded : after.length ≤ offMax) : Grounded after blocks := by
  obtain ⟨chain, same⟩ := grounded.toChainAt.in_front front bounded
  refine ⟨chain, grounded.spaced, fun block among => ?_⟩
  have stop : blockStop after block = blockStop file block := by
    rw [blockStop, blockStop, ← ofBytes_shown, ← ofBytes_shown, same block among]
  rw [stop]
  exact (grounded.behind block among).trans front.length_le

section Sprouting

variable {bdef : RndBlockDef}

/-- What is left of a header between zeros is the old header or one with smaller numbers. -/
theorem Sprouts.faded (sprouts : Sprouts file (headBuffer bdef) after) :
    Faded (slice after file.length 32) (headBuffer bdef) := by
  intro index byte there
  rw [slice_getElem?] at there
  split at there
  · exact sprouts.fresh index byte there
  · exact absurd there.symm (Option.some_ne_none byte)

/-- A new block has no child, whatever is lost of its header. -/
theorem Sprouts.childless (sprouts : Sprouts file (headBuffer bdef) after) :
    (headAt after file.length).nextBlock.offset = 0 := by
  apply InfoBlock.childless_of_faded sprouts.faded
  rw [ofBytes_headBuffer]
  rfl

/-- And its header gives it no more bytes than it has. -/
theorem Sprouts.stop (sprouts : Sprouts file (headBuffer bdef) after)
    (long : file.length + bdef.blockSize.toNat ≤ after.length)
    (large : sizeofHeadFile ≤ bdef.blockSize.toNat) : blockStop after file.length ≤ after.length := by
  have header : UInt32.ofNat (decode (slice (headBuffer bdef) 4 4)) = bdef.blockSize :=
    congrArg InfoBlock.blockSize (@ofBytes_headBuffer bdef)
  have less := (sprouts.faded.slice 4 4).decode_le
  have size : (headAt after file.length).blockSize.toNat ≤ bdef.blockSize.toNat := by
    have bound : decode (slice (headBuffer bdef) 4 4) < 256 ^ 4 := by
      apply decode_lt
      rw [slice_length]
      exact Nat.min_le_left _ _
    change (UInt32.ofNat (decode (slice (slice after file.length 32) 4 4))).toNat ≤ _
    rw [← header, UInt32.toNat_ofNat', UInt32.toNat_ofNat',
      Nat.mod_eq_of_lt (bound.trans_eq (by decide))]
    exact (Nat.mod_le _ _).trans less
  have large : 72 ≤ bdef.blockSize.toNat := large
  rw [blockStop, show sizeofInfoBlock = 32 from rfl]
  omega

/-- So it may be linked. -/
theorem Grounded.fresh (grounded : Grounded file blocks)
    (sprouts : Sprouts file (headBuffer bdef) after)
    (long : file.length + bdef.blockSize.toNat ≤ after.length)
    (large : sizeofHeadFile ≤ bdef.blockSize.toNat) (bounded : after.length ≤ offMax) :
    FreshBlock after blocks file.length := by
  refine ⟨sprouts.childless, (Nat.add_le_add_left large _).trans long, fun offset among => .inl ?_⟩
  obtain ⟨-, same⟩ := grounded.toChainAt.in_front sprouts.kept bounded
  rw [blockStop, ← ofBytes_shown, same offset among, ofBytes_shown]
  exact grounded.behind offset among

end Sprouting

section Linking

variable {before : List Nat} {last fresh : Nat} {size : OffT}

/-- A link of a block in room of its own behind the last one lets the chain grow. -/
theorem Grounded.linked (grounded : Grounded file (before ++ [last]))
    (block : FreshBlock file (before ++ [last]) fresh)
    (room : ∀ offset ∈ before ++ [last], offset + sizeofHeadFile ≤ fresh)
    (stop : blockStop file fresh ≤ file.length) (fits : BlockLoc.Fits ⟨fresh, size⟩) :
    Tends file (linked file last ⟨fresh, size⟩ []) := by
  have there : last ∈ before ++ [last] := List.mem_append_right _ (List.mem_singleton_self _)
  have elsewhere : fresh ≠ 0 := by
    have some := room last there
    rw [show sizeofHeadFile = 72 from rfl] at some
    omega
  have joined := grounded.toChainAt.linked block elsewhere fits
  have length := @ChainAt.length_linked _ _ _ _ fresh size grounded.toChainAt
  constructor
  · intro blocks chain
    obtain rfl := chain.unique grounded.toChainAt
    refine ⟨[fresh], joined, fun offset among => ?_⟩
    rw [List.dropLast_concat] at among
    have apart := (List.pairwise_append.mp grounded.spaced).2.2 offset among last
      (List.mem_singleton_self _)
    rw [Recnodb.linked, List.append_nil]
    refine slice_patch_disjoint (grounded.inside offset (List.mem_append_left _ among)) ?_
    rw [InfoBlock.toBytes_length]
    rw [show sizeofHeadFile = 72 from rfl] at apart ⊢
    omega
  · refine ⟨_, joined, ?_, fun offset among => ?_⟩
    · refine List.pairwise_append.mpr ⟨grounded.spaced, List.pairwise_singleton _ _, ?_⟩
      intro offset old _ single
      obtain rfl := List.mem_singleton.mp single
      exact .inl (room offset old)
    · rw [grounded.toChainAt.blockStop_linked block fits among, length]
      rcases List.mem_append.mp among with old | new
      · exact grounded.behind offset old
      · obtain rfl := List.mem_singleton.mp new
        exact stop

end Linking

end Chains

/-! ## Programs that let the chain grow -/

/-- What the platform may lose of what a stream holds. -/
def Platform.Loses (platform : Platform) : Option Nat → Prop
  | none => True
  | some count => ∃ time fault, platform.faults time = some fault ∧ fault.lost = some count

/-- A call that writes nothing leaves the disk and what the stream holds, or passes that on, but for
what is lost. -/
theorem posix_keeping_disk {platform : Platform} {request : Call} {world : World}
    (keeping : request.Keeping) :
    ((posix platform request world).2.disk = world.disk ∧
      (posix platform request world).2.held = world.held) ∨
    (∃ lost, platform.Loses lost ∧ (posix platform request world).2.disk = world.reached lost) ∧
      (posix platform request world).2.held = [] := by
  rcases @FromPosition.posix_scheduled platform request world with sound | ⟨fault, scheduled, broken⟩
  · have passed : platform.Loses none ∧ world.file = world.reached none := ⟨trivial, rfl⟩
    rw [sound]
    cases request with
    | fwrite bytes => exact keeping.elim
    | fopen create =>
      obtain rfl : create = false := keeping
      exact .inr ⟨⟨none, passed⟩, rfl⟩
    | fclose stream => exact .inr ⟨⟨none, passed⟩, rfl⟩
    | fseek | fread =>
      simp only [unfaulted]
      split_ifs <;> exact .inr ⟨⟨none, passed⟩, rfl⟩
    | fcntl =>
      simp only [unfaulted]
      split_ifs <;> exact .inl ⟨rfl, rfl⟩
    | _ => exact .inl ⟨rfl, rfl⟩
  · have loses : platform.Loses fault.lost := by
      cases lost : fault.lost with
      | none => trivial
      | some count => exact ⟨_, fault, scheduled, lost⟩
    rw [broken]
    cases request with
    | fwrite bytes => exact keeping.elim
    | fclose | fseek | fread => exact .inr ⟨⟨_, loses, rfl⟩, rfl⟩
    | _ => exact .inl ⟨rfl, rfl⟩

/-- Whatever the platform loses of what the stream holds, the chain of the disk grows when it is
passed on. -/
structure Poised (platform : Platform) (world : World) : Prop where
  rooted : Rooted world.disk
  tends : ∀ lost, platform.Loses lost → Tends world.disk (world.reached lost)

/-- Each call of the run lets the chain of the disk grow, and the postcondition holds of a value it
delivers. -/
structure Tended {α : Type} (platform : Platform) (world : World) (program : Prog α)
    (post : α → World → Prop) : Prop where
  steps : ∀ before after, Steps (posix platform) program world before after →
    Tends before.disk after.disk
  ends : ∀ value after, run (posix platform) program world = (.ok value, after) → post value after

section Tending

variable {α β : Type} {platform : Platform} {world : World} {program : Prog α}
variable {post : β → World → Prop}

theorem Tends.refl {file : List UInt8} (rooted : Rooted file) : Tends file file :=
  ⟨.refl file, rooted⟩

/-- A stream that holds nothing has nothing to lose. -/
theorem Poised.of_empty (empty : world.held = []) (rooted : Rooted world.disk) :
    Poised platform world := by
  refine ⟨rooted, fun lost _ => ?_⟩
  rw [World.reached_empty empty, World.file_of_empty empty]
  exact .refl rooted

/-- A call that writes nothing. -/
theorem Poised.call {request : Call} (poised : Poised platform world) (keeping : request.Keeping) :
    Tends world.disk (posix platform request world).2.disk ∧
      Poised platform (posix platform request world).2 := by
  rcases @posix_keeping_disk platform request world keeping with
    ⟨disk, held⟩ | ⟨⟨lost, loses, disk⟩, empty⟩
  · have same (lost : Option Nat) :
        (posix platform request world).2.reached lost = world.reached lost := by
      cases lost <;> simp only [World.reached, World.file, disk, held]
    rw [disk]
    refine ⟨.refl poised.rooted, disk ▸ poised.rooted, fun lost loses => ?_⟩
    rw [same, disk]
    exact poised.tends lost loses
  · have tends := poised.tends lost loses
    rw [← disk] at tends
    exact ⟨tends, .of_empty empty tends.rooted⟩

namespace Tended

theorem mono {post' : β → World → Prop} {program : Prog β}
    (tended : Tended platform world program post)
    (stronger : ∀ value after, post value after → post' value after) :
    Tended platform world program post' :=
  ⟨tended.steps, fun value after completed => stronger _ _ (tended.ends value after completed)⟩

theorem ret {value : β} (holds : post value world) : Tended platform world (.ret value) post := by
  constructor
  · rintro before after ⟨moment, among, -⟩
    exact absurd among List.not_mem_nil
  · intro result after completed
    obtain ⟨rfl, rfl⟩ := run_ret_inv _ completed
    exact holds

/-- The sequence rule. -/
theorem bind {rest : α → Prog β} {middle : α → World → Prop}
    (first : Tended platform world program middle)
    (second : ∀ value after, middle value after → Tended platform after (rest value) post) :
    Tended platform world (program >>= rest) post := by
  constructor
  · intro before after steps
    rcases steps_bind steps with early | ⟨value, between, completed, late⟩
    · exact first.steps before after early
    · exact (second value between (first.ends value between completed)).steps before after late
  · intro value after completed
    obtain ⟨middle, between, early, late⟩ := run_bind_inv _ completed
    exact (second middle between (first.ends middle between early)).ends value after late

/-- The rule for one call. -/
theorem call {request : Call} {next : Answer request → Prog β}
    (tends : Tends world.disk (posix platform request world).2.disk)
    (later : Tended platform (posix platform request world).2 (next (posix platform request world).1)
      post) : Tended platform world (.call request next) post := by
  refine ⟨fun before after steps => ?_, later.ends⟩
  rcases steps_call steps with ⟨rfl, rfl⟩ | rest
  · exact tends
  · exact later.steps before after rest

/-- The disk keeps such a chain in every state that the run passes through. -/
theorem passes {now : World} {post : α → World → Prop} (tended : Tended platform world program post)
    (rooted : Rooted world.disk) (passes : Passes (posix platform) program world now) :
    Rooted now.disk := by
  rcases passes_steps passes with rfl | ⟨before, steps⟩
  · exact rooted
  · exact (tended.steps before now steps).rooted

/-- A program that writes nothing passes on what the stream holds. -/
theorem poised (keeping : program.Only Call.Keeping) (poised : Poised platform world) :
    Tended platform world program fun _ after => Poised platform after := by
  induction program generalizing world with
  | ret value => exact ret poised
  | stop reason =>
    refine ⟨?_, fun value after stopped => nomatch (Prod.mk.inj stopped).1⟩
    rintro before after ⟨moment, among, -⟩
    exact absurd among List.not_mem_nil
  | call request next ih =>
    obtain ⟨tends, still⟩ := poised.call keeping.1
    exact call tends (ih _ (keeping.2 _) still)

/-- Where the stream holds nothing, it leaves the disk. -/
theorem idle (keeping : program.Only Call.Keeping) (empty : world.held = [])
    (rooted : Rooted world.disk) : Tended platform world program fun value after =>
      run (posix platform) program world = (.ok value, after) ∧
        Lossless platform (log (posix platform) program world) ∧ after.held = [] ∧
          after.disk = world.disk := by
  refine ⟨(poised keeping (.of_empty empty rooted)).steps, fun value after completed => ?_⟩
  obtain ⟨lossless, held, file⟩ := @idle_of_keeping platform world α program keeping empty
  rw [completed] at held file
  rw [World.file_of_empty held, World.file_of_empty empty] at file
  exact ⟨completed, lossless, held, file⟩

end Tended

end Tending

/-! ## Links -/

section Links

variable {platform : Platform} {world : World}

/-- A write of a header that is the old one in front of its link, and as a whole lets the chain
grow. -/
theorem Platform.WholeLinks.poised {bytes : List UInt8} (whole : platform.WholeLinks)
    (empty : world.held = []) (room : world.position + 32 ≤ offMax) (length : bytes.length = 32)
    (rooted : Rooted world.disk)
    (short : ∀ count, count ≤ 16 → patch world.disk world.position (bytes.take count) = world.disk)
    (grows : Tends world.disk (patch world.disk world.position bytes)) :
    Tends world.disk (posix platform (.fwrite bytes) world).2.disk ∧
      Poised platform (posix platform (.fwrite bytes) world).2 := by
  have part {count : Nat} (either : count ≤ 16 ∨ 32 ≤ count) :
      Tends world.disk (patch world.disk world.position (bytes.take count)) := by
    rcases either with few | all
    · rw [short count few]
      exact .refl rooted
    · rwa [List.take_of_length_le (length.trans_le all)]
  have file := World.file_of_empty empty
  have passed {after : World} (empty : after.held = []) (tends : Tends world.disk after.disk) :
      Tends world.disk after.disk ∧ Poised platform after := ⟨tends, .of_empty empty tends.rooted⟩
  rcases @FromPosition.posix_scheduled platform (.fwrite bytes) world with
    sound | ⟨fault, scheduled, broken⟩
  · rw [sound]
    simp only [unfaulted]
    split_ifs
    · rcases world.hold_taken bytes with ⟨disk, held⟩ | through
      · -- the stream holds the write, and passes on the whole of it or what is left of it
        rw [empty, List.nil_append] at held
        have still : Tends world.disk (world.hold bytes).disk := by
          rw [disk]
          exact .refl rooted
        refine ⟨still, still.rooted, fun lost loses => ?_⟩
        change Tends (world.hold bytes).disk ((world.hold bytes).reached lost)
        rw [disk]
        cases lost with
        | none =>
          rw [World.reached, World.hold_file, file]
          exact grows
        | some count =>
          obtain ⟨time, fault, scheduled, loses⟩ := loses
          rw [World.reached, held, disk, puts_frontWrites_one]
          exact part ((whole time fault scheduled).2 count loses)
      · refine passed through ?_
        change Tends world.disk (world.hold bytes).disk
        rw [← World.file_of_empty through, World.hold_file, file]
        exact grows
    · exact passed empty (.refl rooted)
  · rw [broken]
    refine passed rfl ?_
    change Tends world.disk ((world.drain fault.lost).hold (bytes.take (fault.taken world))).file
    rw [World.hold_file, World.drain_file, World.drain_position, World.reached_empty empty, file]
    apply part
    have either := (whole _ fault scheduled).1
    rw [Fault.taken]
    split_ifs <;> omega

theorem keeping_seekRead {offset : OffT} {size : Nat} : (seekRead offset size).Only Call.Keeping := by
  refine only_bind (only_perform trivial) fun found => ?_
  cases found with
  | false => trivial
  | true => exact only_perform trivial

/-- A read of a range delivers what the file has there. -/
theorem seekRead_leaves {file : List UInt8} {offset : OffT} {size : Nat} :
    UnderFaults platform file (seekRead offset size) fun read after _ => after = file ∧
      ∀ bytes, read = some bytes → ∃ start : Nat, offset = start ∧ start + size ≤ file.length ∧
        bytes.val = slice file start size := by
  rw [← bind_pure (seekRead offset size)]
  refine UnderFaults.seekRead_bind (fun start inside same => UnderFaults.ret ⟨rfl, ?_⟩)
    (UnderFaults.ret ⟨rfl, fun _ none => absurd none.symm (Option.some_ne_none _)⟩)
  rintro bytes ⟨⟩
  exact ⟨start, same, inside, rfl⟩

/-- An error that is recorded. -/
theorem Tended.outcome {rval : RndError} (poised : Poised platform world) :
    Tended platform world (keepErrno >>= fun _ => pure rval : Prog RndError) fun _ after =>
      Poised platform after :=
  .poised (only_bind (only_perform trivial) fun _ => trivial) poised

variable {front : List Nat} {last fresh : Nat} {size : OffT}

/-- A link of a block in room of its own. -/
theorem Tended.link (whole : platform.WholeLinks) (empty : world.held = [])
    (grounded : Grounded world.disk (front ++ [last]))
    (grows : Tends world.disk (linked world.disk last ⟨fresh, size⟩ [])) :
    Tended platform world (chainsAddLink last ⟨fresh, size⟩) fun _ after => Poised platform after :=
      by
  have rooted : Rooted world.disk := ⟨_, grounded⟩
  rw [linked, List.append_nil] at grows
  refine .bind (.idle keeping_seekRead empty rooted) ?_
  rintro read after ⟨completed, lossless, held, disk⟩
  cases read with
  | none => exact .outcome (.of_empty held (disk ▸ rooted))
  | some bytes =>
    obtain ⟨-, shows⟩ := seekRead_leaves world rfl _ _ completed lossless
    obtain ⟨start, same, inside, shown⟩ := shows bytes rfl
    obtain rfl : last = start := Int.natCast_inj.mp same
    rw [World.file_of_empty empty, ← disk] at inside shown
    rw [← disk] at grounded rooted grows
    have inside : last + 32 ≤ after.disk.length := inside
    dsimp only
    rw [shown]
    split
    · exact .ret (.of_empty held rooted)
    · have wrote : Tended platform after (seekWrite (last : OffT)
          { headAt after.disk last with nextBlock := ⟨fresh, size⟩ }.toBytes)
          fun _ after => Poised platform after := by
        refine .bind (.idle (only_perform trivial) held rooted) ?_
        rintro found sought ⟨completed, -, held, disk⟩
        cases found with
        | false => exact .ret (.of_empty held (disk ▸ rooted))
        | true =>
          obtain ⟨sent, left⟩ := Prod.mk.inj completed
          have moved := @posix_fseek_after platform after (last : OffT) .seekSet
          have position : sought.position = last :=
            left ▸ Int.natCast_inj.mp (moved.found (Except.ok.inj sent))
          rw [← disk] at inside grounded rooted grows ⊢
          have room : sought.position + 32 ≤ offMax := by
            rw [position]
            exact inside.trans grounded.bounded
          rw [← position] at inside grows ⊢
          obtain ⟨tends, poised⟩ := whole.poised held room (InfoBlock.toBytes_length _) rooted
            (fun count few => torn_link inside few) grows
          exact .call tends (.ret poised)
      refine .bind wrote fun written final poised => ?_
      cases written with
      | true => exact .ret poised
      | false => exact .outcome poised

end Links

/-! ## Processes that add blocks -/

section Adding

variable {platform : Platform} {world : World} {blocks : List Nat}
variable {chunkSize : UInt32} {handle : Rndh} {bdef : RndBlockDef} {fuel : Nat}

/-- An append leaves everything in front of its block, at each of its calls. -/
theorem Tended.append (empty : world.held = []) (grounded : Grounded world.disk blocks)
    (large : 0 < bdef.blockSize.toNat) (settable : bdef.Settable)
    (valid : blocksValidateHandle (some handle) = .success) :
    Tended platform world (blocksAppendBlock handle bdef) fun result after =>
      AppendAnswers world bdef result after ∧ after.file.length ≤ offMax := by
  have file := World.file_of_empty empty
  have left (platform : Platform) : world.disk <+: (run (posix platform)
      (blocksAppendBlock handle bdef) world).2.file ∧ (run (posix platform)
      (blocksAppendBlock handle bdef) world).2.file.length ≤ offMax := by
    obtain ⟨result, after, completed, -⟩ :=
      run_answers (posix platform) (delivers_blocksAppendBlock valid settable) world
    refine ⟨?_, run_bounded platform _ world (file.symm ▸ grounded.bounded)⟩
    rw [completed, ← file]
    exact ((appendAnswers_of_run large completed).sprouts empty).kept
  -- where its calls end in front of one of them, it leaves what the stream knew there
  obtain ⟨moments, final⟩ := @on_disk _ platform
    (fun file => world.disk <+: file ∧ file.length ≤ offMax) _ world ⟨List.prefix_rfl,
      grounded.bounded⟩ (fun moment among => run_endedAt among ▸ left _) (left platform)
  have passed {now : World}
    (passes : Passes (posix platform) (blocksAppendBlock handle bdef) world now) :
      world.disk <+: now.disk ∧ now.disk.length ≤ offMax := by
    rcases passes with ⟨moment, among, rfl⟩ | rfl
    · exact moments moment among
    · exact final
  refine ⟨fun before after steps => ?_, fun result after completed => ?_⟩
  · obtain ⟨there, here⟩ := steps_passes steps
    obtain ⟨kept, bounded⟩ := passed here
    exact ⟨chainGrows_behind grounded.toChainAt (passed there).1 kept bounded,
      blocks, grounded.in_front kept bounded⟩
  · have limit := (left platform).2
    rw [completed] at limit
    exact ⟨appendAnswers_of_run large completed, limit⟩

/-- And so do an append and the link of its block. -/
theorem Tended.appendAndLink (whole : platform.WholeLinks) (empty : world.held = [])
    (rooted : Rooted world.disk) (large : sizeofHeadFile ≤ bdef.blockSize.toNat)
    (settable : bdef.Settable) (valid : blocksValidateHandle (some handle) = .success) :
    Tended platform world (appendAndLink fuel handle bdef) fun _ after => Poised platform after := by
  obtain ⟨blocks, grounded⟩ := rooted
  have file := World.file_of_empty empty
  refine .bind (.append empty grounded (Nat.lt_of_lt_of_le (by decide) large) settable valid) ?_
  rintro ⟨rval, placed⟩ after ⟨answers, limit⟩
  have disk := World.file_of_empty answers.held
  have sprouts := answers.sprouts empty
  rw [file, disk] at sprouts
  rw [disk] at limit
  have grounded' := grounded.in_front sprouts.kept limit
  dsimp only
  by_cases success : rval = .success
  · obtain ⟨rfl, -, -⟩ := answers.whole success
    have longer := answers.longer success
    rw [file, disk] at longer
    rw [if_neg (not_not_intro success)]
    refine .bind (.idle (only_mono (fun _ searching => searching.2) searching_chainsLastLink)
      answers.held ⟨_, grounded'⟩) ?_
    rintro ⟨code, found⟩ searched ⟨completed, lossless, held, same⟩
    obtain ⟨rest, rfl⟩ := grounded.toChainAt.cons
    obtain ⟨front, last, ends⟩ : ∃ front last, 0 :: rest = front ++ [last] :=
      ⟨_, _, (List.dropLast_append_getLast (List.cons_ne_nil 0 rest)).symm⟩
    have isLast : (0 :: rest).getLast? = some last := by
      rw [ends]
      exact List.getLast?_concat
    obtain ⟨-, result⟩ :=
      chainsLastLink_leaves grounded'.chain isLast after disk _ _ completed lossless
    rw [← same] at grounded' sprouts longer limit
    rcases result with ⟨lost, -⟩ | ⟨header, reached⟩
    · obtain rfl : found = none := lost
      exact .ret (.of_empty held ⟨_, grounded'⟩)
    · obtain ⟨rfl, rfl⟩ := Prod.mk.inj reached
      have fresh := grounded.fresh sprouts longer large limit
      have room : ∀ offset ∈ 0 :: rest, offset + sizeofHeadFile ≤ world.disk.length := grounded.inside
      have stop := sprouts.stop longer large
      rw [ends] at grounded' fresh room
      have fits : BlockLoc.Fits ⟨world.disk.length, bdef.blockSize.toNat⟩ :=
        placed_fits grounded.bounded
      have grows := grounded'.linked fresh room stop fits
      refine .bind (.link whole held grounded' ?_) fun _ final poised => .ret poised
      rw [← file] at grows
      exact grows
  · rw [if_pos success]
    exact .ret (.of_empty answers.held ⟨_, grounded'⟩)

variable {bhandle : BlockLoc} (grower : Grower chunkSize)

/-- The callback leaves the locked bytes as they are. -/
theorem Grower.tended_callback (large : sizeofHeadFile ≤ chunkSize.toNat)
    (whole : platform.WholeLinks)
    (empty : world.held = []) (rooted : Rooted world.disk) (buffer : List UInt8) :
    Tended platform world
      (growCallback grower.fuel grower.bdef grower.handle bhandle (some buffer))
      fun answer after => answer.1 = false ∧ Poised platform after := by
  have longer := large.trans (Nat.le_of_dvd grower.chunked.some grower.chunked.whole)
  refine .bind (.appendAndLink whole empty rooted longer grower.chunked.short.settable grower.valid)
    ?_
  rintro ⟨rval, placed⟩ after poised
  exact .bind (.poised (only_perform trivial) poised) fun _ _ still => .ret ⟨rfl, still⟩

/-- What a process does under the lock to add its block lets the chain of the disk grow with each of
its calls. -/
theorem Grower.tended (large : sizeofHeadFile ≤ chunkSize.toNat) (whole : platform.WholeLinks)
    (empty : world.held = []) (rooted : Rooted world.disk) :
    Tended platform world (grower.errand bhandle).body fun _ _ => True := by
  change Tended platform world
    (lockedData grower.handle bhandle (growCallback grower.fuel grower.bdef)) _
  rw [lockedData_eq]
  refine .bind (.idle (only_perform trivial) empty rooted) ?_
  rintro saved told ⟨-, -, held, same⟩
  rw [← same] at rooted
  refine .bind (.idle (only_perform trivial) held rooted) ?_
  rintro found sought ⟨-, -, held, same⟩
  rw [← same] at rooted
  have back {saved : OffT} {rval : RndError} {after : World} (poised : Poised platform after) :
      Tended platform after (fseek saved .seekSet >>= fun _ => pure rval : Prog RndError)
        fun _ _ => True := by
    have keeping : (fseek saved .seekSet >>= fun _ => pure rval : Prog RndError).Only Call.Keeping :=
      only_bind (only_perform trivial) fun _ => trivial
    exact (Tended.poised keeping poised).mono fun _ _ _ => trivial
  cases found with
  | false => exact (Tended.outcome (.of_empty held rooted)).mono fun _ _ _ => trivial
  | true =>
    rw [if_pos rfl]
    have area : Tended platform sought
        (readArea grower.handle bhandle (growCallback grower.fuel grower.bdef))
        fun _ after => Poised platform after := by
      refine .bind (.idle (only_perform trivial) held rooted) ?_
      rintro read taken ⟨-, -, held, same⟩
      rw [← same] at rooted
      cases read with
      | none => exact .ret (.of_empty held rooted)
      | some buffer =>
        refine .bind (grower.tended_callback large whole held rooted _) ?_
        rintro ⟨changed, left⟩ after ⟨rfl, poised⟩
        exact .ret poised
    exact .bind area fun _ _ => back

end Adding

end Recnodb

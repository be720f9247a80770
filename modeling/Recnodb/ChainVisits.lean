import Recnodb.Addressing
import Recnodb.ChainLayout
import Recnodb.ChainWalk

/-!
# The blocks a walk visits

Over a finite chain of disjoint blocks a walk calls its viewer with every block in
order, up to the first one at which the viewer stops; the search for the last link
finds the block without a child; and a new block linked to it is visited behind the
old ones. The viewer works on the buffer of the walk, so it must leave the link in it
alone, and a block at offset zero cannot be linked, because zero marks the end.
-/

namespace Recnodb

open Interaction Octets Program

/-- The end of a block: its size behind its start, and at least the header it begins with. -/
def blockStop (file : List UInt8) (offset : Nat) : Nat :=
  offset + max sizeofInfoBlock (headAt file offset).blockSize.toNat

/-- Two blocks do not meet. -/
def BlocksApart (file : List UInt8) (one other : Nat) : Prop :=
  blockStop file one ≤ other ∨ blockStop file other ≤ one

/-- The links from an offset form a finite chain of disjoint blocks, each at least the length
of a file header before the end of a file that an `off_t` can measure. -/
structure ChainAt (file : List UInt8) (start : Nat) (blocks : List Nat) : Prop where
  chain : IsChain file blocks
  head : blocks.head? = some start
  inside : ∀ offset ∈ blocks, offset + sizeofHeadFile ≤ file.length
  apart : blocks.Pairwise (BlocksApart file)
  bounded : file.length ≤ offMax

/-- A childless block, disjoint from a chain and as far from the end of the file. -/
structure FreshBlock (file : List UInt8) (blocks : List Nat) (fresh : Nat) : Prop where
  childless : (headAt file fresh).nextBlock.offset = 0
  inside : fresh + sizeofHeadFile ≤ file.length
  apart : ∀ offset ∈ blocks, BlocksApart file offset fresh

/-- Every walk on which nothing fails shows the blocks to its viewer. -/
def WalksOver (platform : Platform) (world : World) (start : Nat) (blocks : List Nat) : Prop :=
  ∀ (κ : Type) (viewer : BlockWalkView κ) (closure : κ) (fuel : Nat),
    Observes platform.memory world.file viewer → blocks.length ≤ fuel →
    (run (posix platform) (chainsWalk fuel start (recorded viewer) (closure, [])) world).2.failures =
      world.failures →
    ∃ closure' views after,
      run (posix platform) (chainsWalk fuel start (recorded viewer) (closure, [])) world =
        (.ok (.success, closure', views), after) ∧
      after.file = world.file ∧ Shows world.file blocks views

/-- The search for the last link finds this block and copies its header. -/
def FindsLast (platform : Platform) (world : World) (start : Nat) (blocks : List Nat)
    (last : Nat) : Prop :=
  (headAt world.file last).bytesToData.toNat ≤ sizeofHeadFile → ∀ fuel, blocks.length ≤ fuel →
    (run (posix platform) (chainsLastLink fuel start) world).2.failures = world.failures →
    ∃ after, run (posix platform) (chainsLastLink fuel start) world =
      (.ok (.success,
        some (slice world.file last (headAt world.file last).bytesToData.toNat, last)), after) ∧
      after.file = world.file

/-- A fresh block that is linked to this one is visited behind the others. -/
def TakesLink (platform : Platform) (world : World) (start : Nat) (blocks : List Nat)
    (last : Nat) : Prop :=
  ∀ (fresh : Nat) (size : OffT), FreshBlock world.file blocks fresh → fresh ≠ 0 →
    BlockLoc.Fits ⟨fresh, size⟩ →
    (run (posix platform) (chainsAddLink last ⟨fresh, size⟩) world).2.failures = world.failures →
    ∃ after, run (posix platform) (chainsAddLink last ⟨fresh, size⟩) world = (.ok .success, after) ∧
      ChainAt after.file start (blocks ++ [fresh]) ∧
        WalksOver platform after start (blocks ++ [fresh])

/-- Walks over a chain, the search for its last link, and one more link. -/
structure VisitsChain (platform : Platform) (world : World) (start : Nat) (blocks : List Nat) :
    Prop where
  walks : WalksOver platform world start blocks
  last : ∃ last ∈ blocks, (headAt world.file last).nextBlock.offset = 0 ∧
    (∀ other ∈ blocks, (headAt world.file other).nextBlock.offset = 0 → other = last) ∧
    FindsLast platform world start blocks last ∧ TakesLink platform world start blocks last

variable {platform : Platform} {world : World} {file : List UInt8} {start : Nat}
variable {blocks : List Nat}

/-- Blocks that do not meet have headers that do not meet. -/
theorem BlocksApart.heads {one other : Nat} (apart : BlocksApart file one other) :
    one + sizeofInfoBlock ≤ other ∨ other + sizeofInfoBlock ≤ one := by
  have reaches (offset : Nat) : offset + sizeofInfoBlock ≤ blockStop file offset :=
    Nat.add_le_add_left (Nat.le_max_left _ _) _
  rcases apart with before | behind
  · exact .inl ((reaches one).trans before)
  · exact .inr ((reaches other).trans behind)

/-- No block of a chain occurs twice. -/
theorem ChainAt.nodup (at_ : ChainAt file start blocks) : blocks.Nodup := by
  apply at_.apart.imp
  intro one other apart same
  have heads := apart.heads
  rw [show sizeofInfoBlock = 32 from rfl] at heads
  omega

/-- A chain has a first block. -/
theorem ChainAt.cons (at_ : ChainAt file start blocks) : ∃ rest, blocks = start :: rest := by
  cases blocks with
  | nil => exact absurd at_.head.symm (Option.some_ne_none _)
  | cons first rest =>
    obtain rfl : first = start := by simpa using at_.head
    exact ⟨rest, rfl⟩

/-- A run on which nothing fails is the run that the laws on files describe. -/
theorem calm_onFile {α : Type} {program : Prog α} {post : α → List UInt8 → List Event → Prop}
    (proved : OnFile platform.memory world.file program post)
    (calm : (run (posix platform) program world).2.failures = world.failures) :
    ∃ value after, run (posix platform) program world = (.ok value, after) ∧
      post value after.file (events (log (posix platform) program world)) := by
  obtain ⟨value, after, completed, holds⟩ := proved world rfl
  rw [(run_calm calm).1, (run_calm calm).2]
  exact ⟨value, after, completed, holds⟩

theorem ChainAt.walksOver (at_ : ChainAt world.file start blocks) :
    WalksOver platform world start blocks := by
  intro κ viewer closure fuel observes enough calm
  obtain ⟨rest, rfl⟩ := at_.cons
  obtain ⟨⟨rval, closure', views⟩, after, completed, same, success, later, added, shows⟩ :=
    calm_onFile (chainsWalk_shows observes at_.chain at_.inside enough closure []) calm
  obtain rfl : rval = .success := success
  obtain rfl : views = later := added
  exact ⟨closure', views, after, completed, same, shows⟩

/-- A chain has one block without a child, its last one. -/
theorem IsChain.only_last {before : List Nat} {last other : Nat}
    (chain : IsChain file (before ++ [last])) (among : other ∈ before ++ [last])
    (childless : (headAt file other).nextBlock.offset = 0) : other = last := by
  rcases List.mem_append.mp among with inner | single
  · obtain ⟨front, behind, rfl⟩ := List.append_of_mem inner
    obtain ⟨next, rest, same⟩ : ∃ next rest, behind ++ [last] = next :: rest := by
      cases behind with
      | nil => exact ⟨last, [], rfl⟩
      | cons next rest => exact ⟨next, rest ++ [last], rfl⟩
    have named : IsChain file (front ++ other :: next :: rest) := by
      rwa [List.append_assoc, List.cons_append, same] at chain
    obtain ⟨nonzero, -, link⟩ := named.at_inner
    rw [link] at childless
    exact absurd (Int.natCast_eq_zero.mp childless) nonzero
  · exact List.mem_singleton.mp single

section Linked

variable {before : List Nat} {last fresh other : Nat} {size : OffT}

/-- A link behind the last block leaves the length of the file. -/
theorem ChainAt.length_linked (at_ : ChainAt file start (before ++ [last])) :
    (linked file last ⟨fresh, size⟩ []).length = file.length := by
  have inside := at_.inside last (List.mem_append_right _ (List.mem_singleton_self _))
  apply linked_length
  rw [show sizeofHeadFile = 72 from rfl] at inside
  simp only [List.length_nil]
  omega

/-- It leaves the headers of the other blocks. -/
theorem ChainAt.headAt_linked (at_ : ChainAt file start (before ++ [last]))
    (block : FreshBlock file (before ++ [last]) fresh) (among : other ∈ before ∨ other = fresh) :
    headAt (linked file last ⟨fresh, size⟩ []) other = headAt file other := by
  have there : last ∈ before ++ [last] := List.mem_append_right _ (List.mem_singleton_self _)
  have kept (inside : other + sizeofHeadFile ≤ file.length) (apart : BlocksApart file other last) :
      headAt (linked file last ⟨fresh, size⟩ []) other = headAt file other := by
    have heads := apart.heads
    rw [show sizeofHeadFile = 72 from rfl] at inside
    rw [show sizeofInfoBlock = 32 from rfl] at heads
    exact headAt_linked_other (by omega) heads
  rcases among with inner | rfl
  · exact kept (at_.inside other (List.mem_append_left _ inner))
      ((List.pairwise_append.mp at_.apart).2.2 other inner last (List.mem_singleton_self _))
  · exact kept block.inside (block.apart last there).symm

/-- And it leaves where the blocks end. -/
theorem ChainAt.blockStop_linked (at_ : ChainAt file start (before ++ [last]))
    (block : FreshBlock file (before ++ [last]) fresh) (fits : BlockLoc.Fits ⟨fresh, size⟩)
    (among : other ∈ before ++ [last] ++ [fresh]) :
    blockStop (linked file last ⟨fresh, size⟩ []) other = blockStop file other := by
  rcases List.mem_append.mp among with old | new
  · rcases List.mem_append.mp old with inner | single
    · rw [blockStop, at_.headAt_linked block (.inl inner), blockStop]
    · obtain rfl := List.mem_singleton.mp single
      rw [blockStop, @Recnodb.headAt_linked file other _ [] fits, blockStop]
  · rw [blockStop, at_.headAt_linked block (.inr (List.mem_singleton.mp new)), blockStop]

/-- The chain with one more block behind its last one. -/
theorem ChainAt.linked (at_ : ChainAt file start (before ++ [last]))
    (block : FreshBlock file (before ++ [last]) fresh) (elsewhere : fresh ≠ 0)
    (fits : BlockLoc.Fits ⟨fresh, size⟩) :
    ChainAt (linked file last ⟨fresh, size⟩ []) start (before ++ [last] ++ [fresh]) := by
  have length := @ChainAt.length_linked _ _ _ _ fresh size at_
  have here := @Recnodb.headAt_linked file last _ [] fits
  have keptFresh := @ChainAt.headAt_linked _ _ _ _ _ _ size at_ block (.inr rfl)
  constructor
  · rw [List.append_assoc]
    refine IsChain.extend at_.chain (Nat.le_of_eq length.symm)
      (fun offset among => ?_) ?_ elsewhere ?_ ?_
    · rw [at_.headAt_linked block (.inl among)]
      exact InfoBlock.Alike.refl _
    · rw [here]
    · rw [length]
      have inside := block.inside
      rw [show sizeofHeadFile = 72 from rfl] at inside
      omega
    · rw [keptFresh]
      exact block.childless
  · rw [List.head?_append_of_ne_nil _ (List.append_ne_nil_of_right_ne_nil _ (List.cons_ne_nil _ _))]
    exact at_.head
  · rw [length]
    intro offset among
    rcases List.mem_append.mp among with old | new
    · exact at_.inside offset old
    · obtain rfl := List.mem_singleton.mp new
      exact block.inside
  · have apart : (before ++ [last] ++ [fresh]).Pairwise (BlocksApart file) := by
      refine List.pairwise_append.mpr ⟨at_.apart, List.pairwise_singleton _ _, ?_⟩
      intro other old new single
      obtain rfl := List.mem_singleton.mp single
      exact block.apart other old
    refine apart.imp_of_mem fun one two away => ?_
    rw [BlocksApart, at_.blockStop_linked block fits one, at_.blockStop_linked block fits two]
    exact away
  · rw [length]
    exact at_.bounded

end Linked

/-- Walks visit exactly the chain, the search finds its last block, and a fresh block that
is linked to that one is visited behind the others. -/
theorem visitsChain_of_chainAt (at_ : ChainAt world.file start blocks) :
    VisitsChain platform world start blocks := by
  obtain ⟨before, last, rfl⟩ := at_.chain.split_last
  have lastAmong : last ∈ before ++ [last] := List.mem_append_right _ (List.mem_singleton_self _)
  have ends := at_.chain.at_last
  refine ⟨at_.walksOver, last, lastAmong, ends.2, fun other among childless =>
    at_.chain.only_last among childless, ?_, ?_⟩
  · intro fits fuel enough calm
    obtain ⟨rest, same⟩ := at_.cons
    have isLast : (start :: rest).getLast? = some last := by
      rw [← same, List.getLast?_concat]
    have chain := at_.chain
    have inside := at_.inside
    rw [same] at chain inside enough
    obtain ⟨result, after, completed, kept, rfl⟩ :=
      calm_onFile (chainsLastLink_found chain inside isLast fits enough) calm
    exact ⟨after, completed, kept⟩
  · intro fresh size block elsewhere fits calm
    obtain ⟨rval, after, completed, same, rfl⟩ :=
      calm_onFile (chainsAddLink_linked ends.1 ends.2) calm
    have grown := at_.linked block elsewhere fits
    rw [← same] at grown
    exact ⟨after, completed, grown, grown.walksOver⟩

/-- A viewer that never stops is shown every block. -/
theorem shows_all {views : List View} (shows : Shows file blocks views)
    (going : ∀ view ∈ views, view.more = true) :
    views.map View.offset = blocks.map fun (offset : Nat) => (offset : OffT) := by
  induction blocks generalizing views with
  | nil =>
    obtain rfl : views = [] := shows
    rfl
  | cons offset rest ih =>
    obtain ⟨more, later, rfl, shown⟩ := shows
    rw [show more = true from going _ List.mem_cons_self, if_pos rfl] at shown
    rw [List.map_cons, List.map_cons, ih shown fun view among =>
      going view (List.mem_cons_of_mem _ among)]

/-! ## Two blocks -/

theorem visitsChain_of_chainAt_pair :
    VisitsChain (Platform.sound fun _ _ => 0) { disk := twoBlocks } 0 [0, 80] :=
  visitsChain_of_chainAt
    ⟨⟨by decide +kernel, by decide, by decide +kernel, by decide +kernel, by decide +kernel⟩, rfl,
      by decide +kernel, List.pairwise_pair.mpr (.inl (by decide +kernel)), by decide +kernel⟩

/-- A viewer that asks to go on, and clears the header it was given. -/
def clearing : BlockWalkView Unit := fun _ _ closure => pure (true, List.replicate 72 0, closure)

/-- A viewer that asks to go on. -/
def going : BlockWalkView Unit := fun ib _ closure => pure (true, ib, closure)

/-- Two blocks without a child. -/
def looseBlocks : List UInt8 :=
  (InfoBlock.mk 2 32 80 0 ⟨0, 0⟩).toBytes ++ List.replicate 48 0 ++
    ((InfoBlock.mk 2 32 80 0 ⟨0, 0⟩).toBytes ++ List.replicate 48 0)

/-- A walk whose viewer clears the link in its buffer ends at the first block; and a block at
offset zero that is linked behind another is not visited. -/
theorem cleared_link_and_zero_link_end_walk :
    (¬ ∀ (platform : Platform) (world : World) (start : Nat) (blocks : List Nat),
      ChainAt world.file start blocks → ∀ (viewer : BlockWalkView Unit) (fuel : Nat),
      (∀ ib offset closure, OnFile platform.memory world.file (viewer ib offset closure)
        fun _ after _ => after = world.file) → blocks.length ≤ fuel →
      (run (posix platform) (chainsWalk fuel start (recorded viewer) ((), [])) world).2.failures =
        world.failures →
      ∃ views after,
        run (posix platform) (chainsWalk fuel start (recorded viewer) ((), [])) world =
          (.ok (.success, (), views), after) ∧ Shows world.file blocks views) ∧
    ¬ ∀ (platform : Platform) (world : World) (start : Nat) (blocks : List Nat),
      ChainAt world.file start blocks → ∀ last ∈ blocks,
      (headAt world.file last).nextBlock.offset = 0 → ∀ (fresh : Nat) (size : OffT),
      FreshBlock world.file blocks fresh → BlockLoc.Fits ⟨fresh, size⟩ →
      (run (posix platform) (chainsAddLink last ⟨fresh, size⟩) world).2.failures = world.failures →
      ∃ after, run (posix platform) (chainsAddLink last ⟨fresh, size⟩) world = (.ok .success, after) ∧
        WalksOver platform after start (blocks ++ [fresh]) := by
  constructor
  · intro always
    obtain ⟨views, after, completed, shows⟩ :=
      always (Platform.sound fun _ _ => 0) { disk := twoBlocks } 0 [0, 80]
        ⟨⟨by decide +kernel, by decide, by decide +kernel, by decide +kernel, by decide +kernel⟩, rfl,
          by decide +kernel, List.pairwise_pair.mpr (.inl (by decide +kernel)), by decide +kernel⟩
        clearing 2 (fun _ _ _ => OnFile.ret rfl) (by decide) (by decide +kernel)
    have shown : (run (posix (Platform.sound fun _ _ => 0))
        (chainsWalk 2 (0 : Nat) (recorded clearing) ((), [])) { disk := twoBlocks }).1 =
          .ok (.success, (), [⟨slice twoBlocks 0 72, 0, true⟩]) := by decide +kernel
    rw [completed] at shown
    obtain rfl := (Prod.mk.inj (Prod.mk.inj (Except.ok.inj shown)).2).2
    exact absurd (shows_all shows (by simp)) (by decide)
  · intro always
    obtain ⟨after, completed, walks⟩ :=
      always (Platform.sound fun _ _ => 0) { disk := looseBlocks } 80 [80]
        ⟨⟨by decide +kernel, by decide +kernel⟩, rfl, by decide +kernel, List.pairwise_singleton _ _,
          by decide +kernel⟩ 80 (by decide) (by decide +kernel) 0 80
        ⟨by decide +kernel, by decide +kernel, by
          intro offset among
          obtain rfl := List.mem_singleton.mp among
          exact .inr (by decide +kernel)⟩ (by simp [BlockLoc.Fits]) (by decide +kernel)
    obtain rfl : (run (posix (Platform.sound fun _ _ => 0)) (chainsAddLink (80 : Nat) ⟨(0 : Nat), 80⟩)
        { disk := looseBlocks }).2 = after := congrArg Prod.snd completed
    obtain ⟨_, views, final, walked, -, shows⟩ := walks Unit going () 2
      (fun _ _ _ => OnFile.ret ⟨rfl, fun _ => rfl⟩) (by decide) (by decide +kernel)
    have shown : (run (posix (Platform.sound fun _ _ => 0))
        (chainsWalk 2 (80 : Nat) (recorded going) ((), []))
        (run (posix (Platform.sound fun _ _ => 0)) (chainsAddLink (80 : Nat) ⟨(0 : Nat), 80⟩)
          { disk := looseBlocks }).2).1 =
        .ok (.success, (), [⟨(InfoBlock.mk 2 32 80 0 ⟨0, 80⟩).toBytes ++ List.replicate 40 0, 80,
          true⟩]) := by
      decide +kernel
    rw [walked] at shown
    obtain rfl := (Prod.mk.inj (Prod.mk.inj (Except.ok.inj shown)).2).2
    exact absurd (shows_all shows (by simp)) (by decide)

end Recnodb

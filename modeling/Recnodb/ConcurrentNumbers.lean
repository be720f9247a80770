import Recnodb.NumberTaking

/-!
# Record numbers of several processes

Processes that open one file and take record numbers of one table, in any interleaving of
their single calls to the platform. The ledger keeps the numbers computed, as pending
until their call returns success. Of all processes at most one stands between the lock and
its release, so the header in the file counts every number of the ledger whenever no
process is using one, and a number that lies behind the header is a new one. A stream that
still buffers an older header makes its process compute a number that was given.
-/

namespace Recnodb

open Interaction Octets Program Extents

section Ledger

variable {ι : Type} [DecidableEq ι]

/-- The numbers that were computed in calls that did not return yet, and those of the calls that
returned success. -/
structure Ledger (ι : Type) where
  pending : ι → Option UInt32
  taken : List UInt32

/-- The ledger behind one more act. -/
def Ledger.enter (ledger : Ledger ι) (act : Act ι Call Answer Returned (Shared ι)) : Ledger ι :=
  match act.deed with
  | .call ⟨_, .note (.numbered number), _⟩ =>
    { ledger with pending := Function.update ledger.pending act.thread (some number) }
  | .deliver (.called _ _ rval) =>
    { pending := Function.update ledger.pending act.thread none
      taken := if rval = .success then ledger.taken ++ (ledger.pending act.thread).toList
        else ledger.taken }
  | _ => ledger

def ledger (past : List (Act ι Call Answer Returned (Shared ι))) : Ledger ι :=
  past.foldl Ledger.enter ⟨fun _ => none, []⟩

/-- The numbers that successful calls computed, in the order in which they returned. -/
def numbersTaken (past : List (Act ι Call Answer Returned (Shared ι))) : List UInt32 :=
  (ledger past).taken

theorem ledger_concat {past : List (Act ι Call Answer Returned (Shared ι))}
    {act : Act ι Call Answer Returned (Shared ι)} :
    ledger (past ++ [act]) = (ledger past).enter act := by
  simp [ledger]

variable {book : Ledger ι} {process : ι} {moment : Moment Call Answer (Shared ι)}

/-- Only the event of a number is entered. -/
theorem Ledger.enter_call (plain : ∀ number, moment.request ≠ .note (.numbered number)) :
    book.enter ⟨process, .call moment⟩ = book := by
  obtain ⟨before, request, reply⟩ := moment
  cases request with
  | note event =>
    cases event with
    | numbered number => exact absurd rfl (plain number)
    | _ => rfl
  | _ => rfl

end Ledger

/-! ## One step -/

/-- A number behind another one is larger, if it did not wrap. -/
theorem lt_next {number : UInt32} (unwrapped : number + 1 ≠ 0) : number < number + 1 := by
  have bound := number.toNat_lt
  have value : (number + 1).toNat = (number.toNat + 1) % 2 ^ 32 := UInt32.toNat_add _ _
  have some : (number + 1).toNat ≠ 0 := fun zero => unwrapped (UInt32.toNat.inj zero)
  rw [UInt32.lt_iff_toNat_lt, value]
  rw [value] at some
  omega

/-- A number in front of one that did not wrap is counted by what stands in front of that one. -/
theorem le_of_lt_next {number last : UInt32} (less : number < last + 1) : number ≤ last := by
  have value : (last + 1).toNat = (last.toNat + 1) % 2 ^ 32 := UInt32.toNat_add _ _
  rw [UInt32.lt_iff_toNat_lt, value] at less
  rw [UInt32.le_iff_toNat_le]
  omega

section Step

variable {ι : Type} {tableHead : OffT} {phases : ι → Taking} {book : Ledger ι}
variable {shared after : Shared ι} {process : ι} {moment : Moment Call Answer (Shared ι)}

/-- A number computed in a call that may still succeed. -/
def Ledger.Pending (book : Ledger ι) (phases : ι → Taking) (process : ι) (number : UInt32) : Prop :=
  book.pending process = some number ∧ (phases process).live = true

/-- A number that was taken, or that a process other than this one may take. -/
def Ledger.Beside (book : Ledger ι) (phases : ι → Taking) (process : ι) (number : UInt32) : Prop :=
  number ∈ book.taken ∨ ∃ other, other ≠ process ∧ book.Pending phases other number

/-- A number that was taken or may be taken. -/
def Ledger.Known (book : Ledger ι) (phases : ι → Taking) (number : UInt32) : Prop :=
  number ∈ book.taken ∨ ∃ process, book.Pending phases process number

/-- What holds of the processes and of the ledger: who should have the lock has it; the number
behind a header that was read is that of the file; the numbers known are counted by the header, or
lie in front of the number in use; and no number is in the ledger twice. -/
structure Accounted (tableHead : OffT) (phases : ι → Taking) (book : Ledger ι) (shared : Shared ι) :
    Prop where
  locked : ∀ process, (phases process).locked = true →
    shared.locks.Holds process (headerLock tableHead)
  read : ∀ process number, phases process = .read number →
    number = lastRecno tableHead shared.file + 1
  known : (∀ process, (phases process).inUse = none) → ∀ number, book.Known phases number →
    number ≤ lastRecno tableHead shared.file
  used : ∀ process number, (phases process).inUse = some number →
    book.pending process = some number ∧ ∀ other, book.Beside phases process other → other < number
  taken : book.taken.Nodup
  pending : ∀ process number, book.Pending phases process number → number ∉ book.taken
  alone : ∀ one other number, book.Pending phases one number → book.Pending phases other number →
    one = other

/-- A header is not apart from itself. -/
theorem headerLock_meets : ¬ (headerLock tableHead).Apart (headerLock tableHead) := by
  have area : headerLock tableHead = ⟨tableHead.toNat, 64⟩ := by
    rw [headerLock, lockedArea, if_neg (by decide), if_pos (by decide)]
    rfl
  rw [area, Extent.Apart, Extent.stop]
  dsimp only
  omega

/-- At most one process has the lock. -/
theorem holder_unique {locks : LockTable ι} {one other : ι}
    (first : locks.Holds one (headerLock tableHead))
    (second : locks.Holds other (headerLock tableHead)) :
    one = other := by
  by_contra different
  exact headerLock_meets (first.apart second different)

/-- While one process has the lock, no other one uses a number. -/
theorem Accounted.unused (accounted : Accounted tableHead phases book shared)
    (mine : (phases process).locked = true) {other : ι} (different : other ≠ process) :
    (phases other).inUse = none := by
  cases used : (phases other).inUse with
  | none => rfl
  | some number =>
    have theirs := accounted.locked other (Taking.locked_of_inUse used)
    exact absurd (holder_unique theirs (accounted.locked process mine)) different

/-- A number known is that of the process itself, or known beside it. -/
theorem Ledger.Known.own_or_beside {number : UInt32} (known : book.Known phases number)
    (process : ι) : book.Pending phases process number ∨ book.Beside phases process number := by
  rcases known with taken | ⟨other, pending⟩
  · exact .inr (.inl taken)
  · by_cases same : other = process
    · exact .inl (same ▸ pending)
    · exact .inr (.inr ⟨other, same, pending⟩)

/-- Where one process has read a header, the number behind it is larger than all numbers known. -/
theorem Accounted.fresh (accounted : Accounted tableHead phases book shared) {number : UInt32}
    (read : phases process = .read number) (unwrapped : number ≠ 0) {other : UInt32}
    (known : book.Known phases other) : other < number := by
  have unused (still : ι) : (phases still).inUse = none := by
    by_cases same : still = process
    · rw [same, read]
      rfl
    · exact accounted.unused (read ▸ rfl) same
  have behind := accounted.read process number read
  have counted := accounted.known unused other known
  rw [behind] at unwrapped ⊢
  exact UInt32.lt_of_le_of_lt counted (lt_next unwrapped)

variable [DecidableEq ι]

section Call

variable (accounted : Accounted tableHead phases book moment.before)
variable (allows : (phases process).Allows tableHead process moment after)

include allows

/-- A call that can only fail stays one, so what may be taken behind a step could be taken before. -/
theorem pending_step {other : ι} {number : UInt32} (pending : book.Pending
      (Function.update phases process ((phases process).advance (.call moment))) other number) :
    book.Pending phases other number := by
  refine ⟨pending.1, ?_⟩
  have alive := pending.2
  by_cases same : other = process
  · subst same
    rw [Function.update_self] at alive
    cases live : (phases other).live with
    | true => rfl
    | false => exact absurd (alive.symm.trans (allows.fails live)) Bool.noConfusion
  · rw [Function.update_of_ne same] at alive
    exact alive

theorem beside_step {other : ι} {number : UInt32} (beside : book.Beside
      (Function.update phases process ((phases process).advance (.call moment))) other number) :
    book.Beside phases other number :=
  beside.imp_right fun ⟨another, different, pending⟩ =>
    ⟨another, different, pending_step allows pending⟩

include accounted

/-- Who should have the lock behind a step has it. -/
theorem Accounted.locked_step {other : ι} (locked : (Function.update phases process
      ((phases process).advance (.call moment)) other).locked = true) :
    after.locks.Holds other (headerLock tableHead) := by
  by_cases same : other = process
  · subst same
    rw [Function.update_self] at locked
    exact allows.locked locked
  · rw [Function.update_of_ne same] at locked
    exact allows.locks other same _ (accounted.locked other locked)

/-- The header that another process has read stays in the file, and so does the one that the process
itself has read. -/
theorem Accounted.read_step {other : ι} {number : UInt32} (read : Function.update phases process
      ((phases process).advance (.call moment)) other = .read number) :
    number = lastRecno tableHead after.file + 1 := by
  have kept (unused : (phases process).inUse = none ∨ other ≠ process)
      (here : phases other = .read number) : number = lastRecno tableHead after.file + 1 := by
    rcases allows.file with same | ⟨used, holds⟩
    · rw [same]
      exact accounted.read other number here
    · rcases unused with unused | different
      · exact absurd unused used
      · exact absurd (holder_unique (accounted.locked other (here ▸ rfl)) holds) different
  by_cases same : other = process
  · subst same
    rw [Function.update_self] at read
    rcases allows.reads number read with here | behind
    · exact kept (.inl (here ▸ rfl)) here
    · exact behind
  · rw [Function.update_of_ne same] at read
    exact kept (.inr same) read

/-- The numbers known behind a step are counted, if no number is in use. -/
theorem Accounted.known_step (unused : ∀ other, (Function.update phases process
      ((phases process).advance (.call moment)) other).inUse = none) {number : UInt32}
    (known : book.Known (Function.update phases process ((phases process).advance (.call moment)))
      number) : number ≤ lastRecno tableHead after.file := by
  have mine := unused process
  rw [Function.update_self] at mine
  have before : book.Known phases number :=
    known.imp_right fun ⟨other, pending⟩ => ⟨other, pending_step allows pending⟩
  cases inUse : (phases process).inUse with
  | none =>
    have same : after.file = moment.before.file :=
      allows.file.resolve_right fun used => used.1 inUse
    rw [same]
    apply accounted.known _ number before
    intro other
    by_cases here : other = process
    · rw [here, inUse]
    · have idle := unused other
      rw [Function.update_of_ne here] at idle
      exact idle
  | some used =>
    obtain ⟨own, front⟩ := accounted.used process used inUse
    rcases allows.counts used inUse with still | ⟨-, counted | ⟨dead, uncounted⟩⟩
    · exact absurd (still.symm.trans mine) (Option.some_ne_none used)
    · rw [counted]
      rcases before.own_or_beside process with pending | beside
      · exact UInt32.le_of_eq (Option.some.inj (pending.1.symm.trans own))
      · exact UInt32.le_of_lt (front number beside)
    · -- the process has lost its number, which the header does not count
      apply le_of_lt_next
      rw [uncounted]
      rcases known.own_or_beside process with pending | beside
      · have alive := pending.2
        rw [Function.update_self, dead] at alive
        exact absurd alive Bool.noConfusion
      · exact front number (beside_step allows beside)

theorem Accounted.used_step (plain : ∀ number, moment.request ≠ .note (.numbered number))
    {other : ι} {used : UInt32} (inUse : (Function.update phases process
      ((phases process).advance (.call moment)) other).inUse = some used) :
    book.pending other = some used ∧ ∀ number, book.Beside
      (Function.update phases process ((phases process).advance (.call moment))) other number →
        number < used := by
  have before : (phases other).inUse = some used := by
    by_cases same : other = process
    · subst same
      rw [Function.update_self] at inUse
      exact (allows.uses used inUse).resolve_left (plain used)
    · rw [Function.update_of_ne same] at inUse
      exact inUse
  obtain ⟨own, front⟩ := accounted.used other used before
  exact ⟨own, fun number beside => front number (beside_step allows beside)⟩

/-- A call that computes no number keeps the account. -/
theorem Accounted.call (plain : ∀ number, moment.request ≠ .note (.numbered number)) :
    Accounted tableHead (Function.update phases process ((phases process).advance (.call moment)))
      book after where
  locked _ locked := accounted.locked_step allows locked
  read _ _ read := accounted.read_step allows read
  known unused _ known := accounted.known_step allows unused known
  used _ _ inUse := accounted.used_step allows plain inUse
  taken := accounted.taken
  pending _ _ pending := accounted.pending _ _ (pending_step allows pending)
  alone _ _ _ first second :=
    accounted.alone _ _ _ (pending_step allows first) (pending_step allows second)

/-- A number that is computed is a new one. -/
theorem Accounted.numbered {number : UInt32} (passed : moment.request = .note (.numbered number)) :
    Accounted tableHead (Function.update phases process ((phases process).advance (.call moment)))
      (book.enter ⟨process, .call moment⟩) after := by
  obtain ⟨read, unwrapped⟩ := allows.numbers number passed
  have fresh {other : UInt32} (known : book.Known phases other) : other < number :=
    accounted.fresh read unwrapped known
  obtain ⟨entered, phase⟩ : book.enter ⟨process, .call moment⟩ =
      { book with pending := Function.update book.pending process (some number) } ∧
      (phases process).advance (.call moment) = .numbered number := by
    obtain ⟨before, request, reply⟩ := moment
    obtain rfl : request = .note (.numbered number) := passed
    exact ⟨rfl, rfl⟩
  have entry {other : ι} {one : UInt32} (pending : (book.enter ⟨process, .call moment⟩).Pending
      (Function.update phases process ((phases process).advance (.call moment))) other one) :
      other = process ∧ one = number ∨ other ≠ process ∧ book.Pending phases other one := by
    obtain ⟨pending, alive⟩ := pending
    rw [entered] at pending
    dsimp only at pending
    by_cases same : other = process
    · rw [same, Function.update_self] at pending
      exact .inl ⟨same, (Option.some.inj pending).symm⟩
    · rw [Function.update_of_ne same] at pending alive
      exact .inr ⟨same, pending, alive⟩
  have kept : (book.enter ⟨process, .call moment⟩).taken = book.taken := by rw [entered]
  constructor
  · exact fun _ locked => accounted.locked_step allows locked
  · exact fun _ _ read => accounted.read_step allows read
  · intro unused
    have mine := unused process
    rw [Function.update_self, phase] at mine
    exact nomatch mine
  · intro other used inUse
    by_cases same : other = process
    · subst same
      rw [Function.update_self, phase] at inUse
      obtain rfl : number = used := Option.some.inj inUse
      constructor
      · rw [entered]
        exact Function.update_self _ _ _
      · rintro one (taken | ⟨another, different, pending⟩)
        · exact fresh (.inl (kept ▸ taken))
        · rcases entry pending with ⟨same, -⟩ | ⟨-, before⟩
          · exact absurd same different
          · exact fresh (.inr ⟨another, before⟩)
    · rw [Function.update_of_ne same, accounted.unused (read ▸ rfl) same] at inUse
      exact nomatch inUse
  · rw [kept]
    exact accounted.taken
  · intro other one pending taken
    rw [kept] at taken
    rcases entry pending with ⟨-, rfl⟩ | ⟨-, before⟩
    · exact UInt32.lt_irrefl _ (fresh (.inl taken))
    · exact accounted.pending other one before taken
  · intro one other same first second
    rcases entry first with ⟨rfl, rfl⟩ | ⟨-, before⟩
    · rcases entry second with ⟨same, -⟩ | ⟨-, before'⟩
      · exact same.symm
      · exact absurd (fresh (.inr ⟨other, before'⟩)) (UInt32.lt_irrefl _)
    · rcases entry second with ⟨-, rfl⟩ | ⟨-, before'⟩
      · exact absurd (fresh (.inr ⟨one, before⟩)) (UInt32.lt_irrefl _)
      · exact accounted.alone one other same before before'

end Call

/-- Behind a returned call, its process has no number pending, and the others have theirs. -/
theorem Ledger.pending_called {number : Nat} {handle : Rndh} {rval : RndError} {phase : Taking}
    {other : ι} {one : UInt32}
    (pending : (book.enter ⟨process, .deliver (.called number handle rval)⟩).Pending
      (Function.update phases process phase) other one) :
    other ≠ process ∧ book.Pending phases other one := by
  obtain ⟨pending, alive⟩ := pending
  change Function.update book.pending process none other = some one at pending
  by_cases same : other = process
  · rw [same, Function.update_self] at pending
    exact nomatch pending
  · rw [Function.update_of_ne same] at pending alive
    exact ⟨same, pending, alive⟩

/-- A returned call takes at most the number that was pending for it. -/
theorem Ledger.taken_called {number : Nat} {handle : Rndh} {rval : RndError} {one : UInt32}
    (taken : one ∈ (book.enter ⟨process, .deliver (.called number handle rval)⟩).taken) :
    one ∈ book.taken ∨ rval = .success ∧ book.pending process = some one := by
  have listed : one ∈ if rval = .success then book.taken ++ (book.pending process).toList
    else book.taken := taken
  split at listed
  · rename_i success
    exact (List.mem_append.mp listed).imp_right fun pending =>
      ⟨success, Option.mem_toList.mp pending⟩
  · exact .inl listed

/-- A return keeps the account: a number that is taken was pending, and is no longer. -/
theorem Accounted.called (accounted : Accounted tableHead phases book shared) {since : Shared ι}
    {number : Nat} {handle : Rndh} {rval : RndError}
    (closed : Closed tableHead process rval (phases process) since) :
    Accounted tableHead (Function.update phases process (phases process).returned)
      (book.enter ⟨process, .deliver (.called number handle rval)⟩) shared := by
  obtain ⟨unused, unused', locks, unread, succeeds⟩ := closed.at_rest
  have among {one : UInt32} (taken : one ∈ (book.enter ⟨process,
      .deliver (.called number handle rval)⟩).taken) :
      one ∈ book.taken ∨ book.Pending phases process one :=
    (Ledger.taken_called taken).imp_right fun pending => ⟨pending.2, succeeds pending.1⟩
  constructor
  · intro other locked
    apply accounted.locked
    by_cases same : other = process
    · rw [same, Function.update_self, locks] at locked
      exact same ▸ locked
    · rw [Function.update_of_ne same] at locked
      exact locked
  · intro other one read
    by_cases same : other = process
    · rw [same, Function.update_self] at read
      exact absurd read (unread one)
    · rw [Function.update_of_ne same] at read
      exact accounted.read other one read
  · intro idle one known
    refine accounted.known (fun other => ?_) one ?_
    · by_cases same : other = process
      · rw [same, unused]
      · have still := idle other
        rw [Function.update_of_ne same] at still
        exact still
    · rcases known with taken | ⟨other, pending⟩
      · exact (among taken).imp_right fun pending => ⟨process, pending⟩
      · exact .inr ⟨other, (Ledger.pending_called pending).2⟩
  · intro other used inUse
    by_cases same : other = process
    · rw [same, Function.update_self, unused'] at inUse
      exact nomatch inUse
    · rw [Function.update_of_ne same] at inUse
      obtain ⟨own, front⟩ := accounted.used other used inUse
      refine ⟨(Function.update_of_ne same _ _).trans own, fun one beside => front one ?_⟩
      rcases beside with taken | ⟨another, different, pending⟩
      · exact (among taken).imp_right fun pending => ⟨process, Ne.symm same, pending⟩
      · exact .inr ⟨another, different, (Ledger.pending_called pending).2⟩
  · change (if rval = .success then book.taken ++ (book.pending process).toList
      else book.taken).Nodup
    split
    · rename_i success
      cases pending : book.pending process with
      | none =>
        rw [Option.toList_none, List.append_nil]
        exact accounted.taken
      | some one =>
        apply List.Nodup.append accounted.taken (List.nodup_singleton one)
        intro other taken same
        rw [List.mem_singleton.mp same] at taken
        exact accounted.pending process one ⟨pending, succeeds success⟩ taken
    · exact accounted.taken
  · intro other one pending taken
    obtain ⟨different, here⟩ := Ledger.pending_called pending
    rcases among taken with earlier | mine
    · exact accounted.pending other one here earlier
    · exact different (accounted.alone other process one here mine)
  · intro one other same first second
    exact accounted.alone one other same (Ledger.pending_called first).2 (Ledger.pending_called second).2

/-- So does every return. -/
theorem Accounted.deliver (accounted : Accounted tableHead phases book shared) {since : Shared ι}
    {value : Returned} (rests : RestsBehind tableHead process value (phases process) since) :
    Accounted tableHead (Function.update phases process (phases process).returned)
      (book.enter ⟨process, .deliver value⟩) shared := by
  cases value with
  | opened handle rval =>
    have same : (phases process).returned = phases process := by
      rw [show phases process = .outside from rests.1]
      rfl
    rw [same, Function.update_eq_self]
    exact accounted
  | called number handle rval => exact accounted.called rests

end Step

/-! ## All processes -/

section Runs

variable {ι : Type} [DecidableEq ι] {machine : ι → Machine} {workers : ι → Worker}
variable {tableHead : OffT}

/-- What one worker is allowed, the others rely on. -/
theorem together_taking : Together (sharedPosix machine)
    (fun process => (workers process).again tableHead) (taking machine tableHead)
    (RestsBehind tableHead) where
  refl _ _ := ⟨rfl, fun _ holds => holds, fun _ => rfl⟩
  trans _ _ _ _ first second :=
    ⟨second.stream.trans first.stream, fun area holds => second.locks area (first.locks area holds),
      fun holds => (second.file (first.locks _ holds)).trans (first.file holds)⟩
  respects _ other _ _ _ different allowed := by
    refine ⟨allowed.processes other (Ne.symm different), allowed.locks other (Ne.symm different), ?_⟩
    exact fun holds => allowed.file.resolve_right fun used =>
      different (holder_unique used.2 holds)
  again process value phase state rests := by
    cases value with
    | opened handle rval =>
      obtain ⟨rfl, settled⟩ : phase = .outside ∧ state.Settled process := rests
      change Keeps _ _ (if rval = .success then _ else _) _ _ _
      split
      · exact taking_takeNext (ready_outside settled)
      · exact taking_openFile settled
    | called number handle rval => exact taking_takeNext (Closed.ready rests)

variable {past : List (Act ι Call Answer Returned (Shared ι))} {shared : Shared ι}
variable {pool : Pool ι Call Answer Stop Returned (Shared ι)}

/-- The phases behind one more act. -/
theorem phases_concat {process : ι} {deed : Deed Call Answer Returned (Shared ι)} :
    (fun other => phaseOf (taking machine tableHead) .outside other (past ++ [⟨process, deed⟩])) =
      Function.update (fun other => phaseOf (taking machine tableHead) .outside other past) process
        ((phaseOf (taking machine tableHead) .outside process past).advance deed) := by
  funext other
  by_cases same : other = process
  · rw [same, Function.update_self]
    exact phaseOf_concat_self
  · rw [Function.update_of_ne same]
    exact phaseOf_concat_other (Ne.symm same)

/-- The initial state: everybody is outside, and no number is known. -/
theorem accounted_start : Accounted tableHead (fun _ : ι => .outside) (ledger []) shared where
  locked _ locked := nomatch locked
  read _ _ read := Taking.noConfusion read
  known _ _ known := by
    rcases known with taken | ⟨_, pending, -⟩
    · exact absurd taken List.not_mem_nil
    · exact nomatch pending
  used _ _ inUse := nomatch inUse
  taken := .nil
  pending _ _ pending := nomatch pending.1
  alone _ _ _ pending := nomatch pending.1

/-- However the calls of the processes interleave, no number is taken twice, if every header that is
read under the lock is that of the file, no number wraps, no search fails under a lock that is then
released, and no header is written in part or lost when the stream is sent back. -/
theorem numbersTaken_nodup (settled : ∀ process, shared.Settled process)
    (interleaves : Interleaves (sharedPosix machine)
      (fun process => (workers process).again tableHead)
      ⟨fun process => (workers process).first tableHead, shared⟩ past pool)
    (fine : AllFine (taking machine tableHead) .outside past) : (numbersTaken past).Nodup := by
  have accounted : Accounted tableHead
      (fun process => phaseOf (taking machine tableHead) .outside process past) (ledger past)
      pool.state := by
    refine interleaves.invariant (fun past shared => Accounted tableHead
      (fun process => phaseOf (taking machine tableHead) .outside process past) (ledger past) shared)
      together_taking ?_ ?_ ?_ ?_ fine
    · exact fun process => taking_first (settled process)
    · exact accounted_start
    · intro past shared process request accounted _ allowed
      rw [phases_concat, ledger_concat]
      by_cases computes : ∃ number, request = .note (.numbered number)
      · obtain ⟨number, passed⟩ := computes
        exact accounted.numbered allowed passed
      · have plain (number : UInt32) : request ≠ .note (.numbered number) :=
          fun passed => computes ⟨number, passed⟩
        rw [Ledger.enter_call plain]
        exact accounted.call allowed plain
    · intro past shared process value since accounted rests _
      rw [phases_concat, ledger_concat]
      exact accounted.deliver rests
  exact accounted.taken

end Runs

/-! ## Two processes -/

/-- A process that opens the file of a new table and takes numbers. -/
def newWorker : Worker where
  handle := none
  flags := 0
  chunkSize := 80
  recSize := 3
  fuel _ := 5
  user := takeNumber
  existing := rfl
  counts _ _ _ := ⟨trivial, rfl⟩

/-- The file of a new table, which nobody has opened yet. -/
def sharedTable : Shared Bool where
  file := freshFile 80 3
  locks := .empty
  processes _ := { world := { disk := [] } }

/-- Two processes on which nothing fails. Each stream reads a page ahead, and answers from it or
not: not before its process has used it for some time. -/
def readAhead (kept : Bool) (_ : Bool) : Machine :=
  ⟨.sound fun _ _ => 0, fun time => kept && decide (12 ≤ time), fun _ => 4096⟩

/-- The run that a schedule of the two processes gives. -/
def workerRun (kept : Bool) (turns : List Bool) :
    List (Act Bool Call Answer Returned (Shared Bool)) :=
  (schedule (sharedPosix (readAhead kept)) (fun _ => newWorker.again 0)
    ⟨fun _ => newWorker.first 0, sharedTable⟩ turns).1

theorem workerRun_interleaves (kept : Bool) (turns : List Bool) : ∃ pool,
    Interleaves (sharedPosix (readAhead kept)) (fun _ => newWorker.again 0)
      ⟨fun _ => newWorker.first 0, sharedTable⟩ (workerRun kept turns) pool :=
  ⟨_, interleaves_schedule _ turns⟩

/-- Both processes open the file, and then the first one takes a number, the second one does, and
the first one takes another. -/
def openedTurns : List Bool :=
  List.replicate 4 false ++ List.replicate 4 true ++ List.replicate 14 false ++
    List.replicate 14 true ++ List.replicate 14 false

/-- The first process computes its second number behind the header that its stream had written and
still has, and all calls succeed. -/
theorem number_taken_twice : ∃ past pool,
    Interleaves (sharedPosix (readAhead true)) (fun _ => newWorker.again 0)
      ⟨fun _ => newWorker.first 0, sharedTable⟩ past pool ∧
    numbersTaken past = [1, 2, 2] ∧ ¬ (numbersTaken past).Nodup := by
  obtain ⟨pool, run⟩ := workerRun_interleaves true openedTurns
  refine ⟨_, pool, run, ?_⟩
  decide +kernel

theorem numbers_taken_once : numbersTaken (workerRun false openedTurns) = [1, 2] ∧
    (numbersTaken (workerRun false openedTurns)).Nodup := by
  obtain ⟨_, run⟩ := workerRun_interleaves false openedTurns
  have settled (process : Bool) : sharedTable.Settled process := rfl
  constructor
  · decide +kernel
  · apply @numbersTaken_nodup Bool _ (readAhead false)
      (fun _ => newWorker) 0 _ sharedTable _ settled run
    decide +kernel

end Recnodb

import Recnodb.LockedArea
import Recnodb.Outcomes

/-!
# Slots handed to the user callback

The moments of a run in which a record slot is handed to the user callback, with the
length of the file at that time. In a call for the next offset such a moment comes
directly behind the search, on the file that the search left.
-/

namespace Recnodb

open Interaction Octets Program

/-- The offset of a slot that is handed over, and the length of the file then. -/
structure Handover where
  offset : OffT
  fileLength : Nat
deriving DecidableEq, Repr

/-- The hand-over of a moment, if it is one. -/
def Handover.ofMoment (moment : Moment Call Answer World) : Option Handover :=
  match moment.request with
  | .note (.handed _ offset) => some ⟨offset, moment.before.file.length⟩
  | _ => none

/-- The hand-overs of a run in order. -/
def handovers (past : List (Moment Call Answer World)) : List Handover :=
  past.filterMap Handover.ofMoment

/-- The handovers of two parts in a row. -/
@[simp] theorem handovers_append (first second : List (Moment Call Answer World)) :
    handovers (first ++ second) = handovers first ++ handovers second :=
  List.filterMap_append

/-- The offset that an event hands over. -/
def Event.handedOffset : Event → Option OffT
  | .handed _ offset => some offset
  | _ => none

/-- The hand-overs of a run are its events of that kind. -/
theorem handovers_offsets (past : List (Moment Call Answer World)) :
    (handovers past).map Handover.offset = (events past).filterMap Event.handedOffset := by
  rw [handovers, events, List.map_filterMap, List.filterMap_filterMap]
  congr 1
  funext moment
  obtain ⟨before, request, reply⟩ := moment
  cases request with
  | note event => cases event <;> rfl
  | _ => rfl

/-- A run that hands nothing over. -/
theorem handovers_eq_nil {past : List (Moment Call Answer World)}
    (unhanded : (events past).filterMap Event.handedOffset = []) : handovers past = [] := by
  rw [← handovers_offsets] at unhanded
  exact List.map_eq_nil_iff.mp unhanded

/-! ## Parts that hand nothing over -/

/-- A call that is no hand-over. -/
def Call.Unhanded : Call → Prop
  | .note (.handed _ _) => False
  | _ => True

/-- The same, if it leaves the file alone. -/
def Call.Reading : Call → Prop
  | .fopen _ => False
  | .fwrite _ => False
  | request => request.Unhanded

/-- A call of the search hands nothing over. -/
theorem Call.OfSearch.unhanded {request : Call} (ofSearch : request.OfSearch) :
    request.Unhanded := by
  cases request with
  | note event => cases event <;> first | exact ofSearch | trivial
  | _ => trivial

/-- A program of such calls hands nothing over. -/
theorem unhanded_of_search {α : Type} {program : Prog α} (only : program.Only Call.OfSearch) :
    program.Only Call.Unhanded :=
  only_mono (fun _ => Call.OfSearch.unhanded) only

/-- A program of direct calls hands nothing over. -/
theorem unhanded_of_direct {α : Type} {program : Prog α} (only : program.Only Call.Direct) :
    program.Only Call.Unhanded :=
  unhanded_of_search (ofSearch_of_plain (plain_of_direct only))

/-- A reading call hands nothing over. -/
theorem Call.Reading.unhanded {request : Call} (reading : request.Reading) : request.Unhanded := by
  cases request <;> first | exact reading | trivial

/-- A reading call leaves the file. -/
theorem Call.Reading.keeping {request : Call} (reading : request.Reading) : request.Keeping := by
  cases request <;> first | exact reading.elim | trivial

/-- A run of such calls has no handover. -/
theorem handovers_unhanded {α : Type} {platform : Platform} {program : Prog α}
    (only : program.Only Call.Unhanded) (world : World) :
    handovers (log (posix platform) program world) = [] := by
  refine List.filterMap_eq_nil_iff.mpr fun moment among => ?_
  have allowed := log_only (posix platform) only world moment among
  obtain ⟨before, request, reply⟩ := moment
  cases request with
  | note event => cases event <;> first | exact allowed.elim | rfl
  | _ => rfl

/-- A call that is no hand-over does not show among them. -/
theorem handovers_call {β : Type} {platform : Platform} {request : Call}
    (reading : request.Reading) (rest : Answer request → Prog β) (world : World) :
    handovers (log (posix platform) (issue request >>= rest) world) =
      handovers (log (posix platform) (rest (posix platform request world).1)
        (posix platform request world).2) := by
  refine List.filterMap_cons_none ?_
  cases request with
  | note event => cases event <;> first | exact reading.elim | rfl
  | _ => rfl

/-- A seek that succeeds leaves the stream at its target. -/
theorem posix_fseek_found {platform : Platform} {offset : OffT} {world : World}
    (found : (posix platform (.fseek offset .seekSet) world).1 = true) :
    offset = (posix platform (.fseek offset .seekSet) world).2.position := by
  rcases @FromPosition.posix_cases platform (.fseek offset .seekSet) world with
    sound | ⟨fault, broken⟩
  · rw [sound, unfaulted] at found ⊢
    split_ifs at found ⊢ with inside
    exact (Int.toNat_of_nonneg inside.1).symm
  · rw [broken] at found
    exact absurd found Bool.false_ne_true

/-- A read that succeeds delivers the bytes at the position. -/
theorem posix_fread_read {platform : Platform} {size : Nat} {world : World}
    {bytes : { bytes : List UInt8 // bytes.length = size }}
    (read : (posix platform (.fread size) world).1 = some bytes) :
    bytes.val = slice world.file world.position size := by
  rcases @FromPosition.posix_cases platform (.fread size) world with
    sound | ⟨fault, broken⟩
  · rw [sound, unfaulted] at read
    split_ifs at read with inside
    rw [← Option.some.inj read]
  · rw [broken] at read
    exact absurd read (Option.some_ne_none _).symm

/-! ## Triples about hand-overs -/

/-- What holds of every slot that a completed run from this file hands over, as long as nothing is
lost behind the back of the program. -/
def Hands {α : Type} (platform : Platform) (file : List UInt8) (program : Prog α)
    (good : Handover → Prop) : Prop :=
  Allows (posix platform) (fun world => world.file = file) program
    fun _ past _ => Lossless platform past → ∀ slot ∈ handovers past, good slot

namespace Hands

variable {α β : Type} {platform : Platform} {file : List UInt8} {good : Handover → Prop}

/-- A program that hands nothing over. -/
theorem of_unhanded {program : Prog α} (only : program.Only Call.Unhanded) :
    Hands platform file program good := by
  intro world _ value after _ _ slot among
  rw [handovers_unhanded only] at among
  exact absurd among List.not_mem_nil

/-- A first part that leaves the file alone. -/
theorem skip {program : Prog α} {rest : α → Prog β} (only : program.Only Call.Reading)
    (second : ∀ value, Hands platform file (rest value) good) :
    Hands platform file (program >>= rest) good := by
  intro world same value after completed lossless slot among
  obtain ⟨first, between, firstRun, secondRun⟩ := run_bind_inv _ completed
  rw [log_bind_ok _ firstRun] at lossless among
  obtain ⟨spared, later⟩ := lossless_append.mp lossless
  have kept : between.file = world.file := by
    have still := run_keeping_spared (only_mono (fun _ => Call.Reading.keeping) only) spared
    rwa [firstRun] at still
  rw [handovers_append, handovers_unhanded (only_mono (fun _ => Call.Reading.unhanded) only),
    List.nil_append] at among
  exact second first between (kept.trans same) value after secondRun later slot among

/-- A value hands nothing over. -/
theorem ret {value : β} : Hands platform file (.ret value) good := of_unhanded trivial

/-- A read behind a seek: the bytes at the offset, or a failure of either. -/
theorem seek_read {offset : OffT} {size : Nat} {lost : Prog β}
    {rest : Option { bytes : List UInt8 // bytes.length = size } → Prog β}
    (read : ∀ (start : Nat) (bytes : { bytes : List UInt8 // bytes.length = size }),
      offset = start → bytes.val = slice file start size →
      Hands platform file (rest (some bytes)) good)
    (unread : Hands platform file (rest none) good) (unsought : Hands platform file lost good) :
    Hands platform file
      (fseek offset .seekSet >>= fun found => if found then fread size >>= rest else lost) good := by
  intro world same value after completed lossless slot among
  have reading : (Call.fseek offset .seekSet).Reading := trivial
  obtain ⟨spared, lossless⟩ := lossless_cons.mp lossless
  have kept := (@posix_keeping platform world _ reading.keeping spared).trans same
  have completed' : run (posix platform)
      (if (posix platform (.fseek offset .seekSet) world).1 then fread size >>= rest else lost)
      (posix platform (.fseek offset .seekSet) world).2 = (.ok value, after) := completed
  rw [fseek, handovers_call reading] at among
  change Lossless platform (log (posix platform)
    (if (posix platform (.fseek offset .seekSet) world).1 then fread size >>= rest else lost)
    (posix platform (.fseek offset .seekSet) world).2) at lossless
  by_cases found : (posix platform (.fseek offset .seekSet) world).1 = true
  · rw [if_pos found] at completed' among lossless
    have place := posix_fseek_found found
    generalize (posix platform (.fseek offset .seekSet) world).2 = sought at *
    have reading' : (Call.fread size).Reading := trivial
    obtain ⟨spared', later⟩ := lossless_cons.mp lossless
    have kept' := (@posix_keeping platform sought _ reading'.keeping spared').trans kept
    change Lossless platform (log (posix platform) (rest (posix platform (.fread size) sought).1)
      (posix platform (.fread size) sought).2) at later
    have completed'' : run (posix platform) (rest (posix platform (.fread size) sought).1)
        (posix platform (.fread size) sought).2 = (.ok value, after) := completed'
    rw [fread, handovers_call reading'] at among
    cases outcome : (posix platform (.fread size) sought).1 with
    | none =>
      rw [outcome] at completed'' among later
      exact unread _ kept' value after completed'' later slot among
    | some bytes =>
      have holds := posix_fread_read outcome
      rw [kept] at holds
      rw [outcome] at completed'' among later
      exact read sought.position bytes place holds _ kept' value after completed'' later slot among
  · rw [if_neg found] at completed' among lossless
    exact unsought _ kept value after completed' lossless slot among

/-- A last part that hands nothing over. -/
theorem drop {program : Prog α} {rest : α → Prog β} (first : Hands platform file program good)
    (only : ∀ value, (rest value).Only Call.Unhanded) :
    Hands platform file (program >>= rest) good := by
  intro world same value after completed lossless slot among
  obtain ⟨value', between, firstRun, secondRun⟩ := run_bind_inv _ completed
  rw [log_bind_ok _ firstRun] at lossless among
  rw [handovers_append, handovers_unhanded (only value'), List.append_nil] at among
  exact first world same value' between firstRun (lossless_append.mp lossless).1 slot among

end Hands

/-! ## The call for the next offset -/

section Call

variable {platform : Platform} {file : List UInt8} {handle : Rndh} {fuel : Nat} {root : Nat}
variable {user : FlatrecsUseNewRecord}

/-- A user callback that passes no event. -/
def Silent (platform : Platform) (user : FlatrecsUseNewRecord) : Prop :=
  ∀ handle htable offset file,
    UnderFaults platform file (user handle htable offset) fun _ _ past => past = []

/-- The slot is what the search delivered, on the file that the search left. -/
def HandedBySearch (platform : Platform) (fuel : Nat) (handle : Rndh) (file : List UInt8) (root : Nat)
    (slot : Handover) : Prop :=
  ∃ before after, before.file = file ∧
    run (posix platform) (flatrecsMakeOffsetToRecno fuel handle ⟨root, sizeofHeadTable⟩
      (htableAt file root) (nextRecno file root)) before = (.ok (.success, slot.offset), after) ∧
    Lossless platform (log (posix platform) (flatrecsMakeOffsetToRecno fuel handle
      ⟨root, sizeofHeadTable⟩ (htableAt file root) (nextRecno file root)) before) ∧
    slot.fileLength = after.file.length

/-- The callback hands over what its search delivers. -/
theorem lockCallback_hands (silent : Silent platform user) {bytes : List UInt8}
    (read : bytes = slice file root 64) :
    Hands platform file (flatrecsGetNextOffsetLockCallback fuel user handle ⟨root, sizeofHeadTable⟩
      (some bytes)) (HandedBySearch platform fuel handle file root) := by
  subst read
  have numbered : (note (.numbered (nextRecno file root))).Only Call.Reading := only_perform trivial
  refine Hands.skip numbered fun _ => ?_
  intro world same value after completed lossless slot among
  obtain ⟨⟨code, offset⟩, searched, searchRun, completed⟩ := run_bind_inv _ completed
  rw [log_bind_ok _ searchRun] at lossless among
  obtain ⟨spared, lossless⟩ := lossless_append.mp lossless
  rw [handovers_append, handovers_unhanded (unhanded_of_search ofSearch_flatrecsMakeOffsetToRecno),
    List.nil_append] at among
  dsimp only at completed among lossless
  by_cases success : code = .success
  · subst success
    rw [if_neg (not_not_intro rfl)] at completed among lossless
    obtain ⟨_, noted, noteRun, completed⟩ := run_bind_inv _ completed
    rw [log_bind_ok _ noteRun] at lossless among
    rw [handovers_append] at among
    rcases List.mem_append.mp among with here | later
    · obtain rfl := List.mem_singleton.mp here
      exact ⟨world, searched, same, searchRun, spared, rfl⟩
    · obtain ⟨⟨changed, htable⟩, used, userRun, completed⟩ := run_bind_inv _ completed
      rw [log_bind_ok _ userRun] at lossless later
      have kept := (lossless_append.mp (lossless_append.mp lossless).2).1
      have quiet := silent handle _ offset noted.file noted rfl _ _ userRun kept
      rw [handovers_append, handovers_eq_nil (by rw [quiet]; rfl), List.nil_append] at later
      exact absurd later List.not_mem_nil
  · rw [if_pos success] at among
    exact absurd among List.not_mem_nil

/-- The next-offset function hands over what its search delivers. -/
theorem getNextOffset_hands (silent : Silent platform user) :
    Hands platform file (flatrecsGetNextOffset fuel handle root user)
      (HandedBySearch platform fuel handle file root) := by
  have asserted {fact : Bool} : (cAssert fact).Only Call.Reading := by
    cases fact <;> trivial
  have primed : primeHandle.Only Call.Reading := only_perform trivial
  have told : ftell.Only Call.Reading := only_perform trivial
  have requested {type : LockType} {start len : OffT} : (fcntl type start len).Only Call.Reading :=
    only_perform trivial
  have restored {saved : OffT} {rval : RndError} :
      (fseek saved .seekSet >>= fun _ => pure rval : Prog RndError).Only Call.Unhanded :=
    only_bind (unhanded_of_direct direct_fseek) fun _ => trivial
  have kept {rval : RndError} :
      (keepErrno >>= fun _ => pure rval : Prog RndError).Only Call.Unhanded :=
    unhanded_of_direct direct_kept
  have locked : Hands platform file (lockedData handle ⟨root, sizeofHeadTable⟩
      (flatrecsGetNextOffsetLockCallback fuel user))
      (HandedBySearch platform fuel handle file root) := by
    refine Hands.skip told fun saved => ?_
    refine Hands.seek_read (fun start bytes place read => ?_) ?_ (Hands.of_unhanded kept)
    · obtain rfl : root = start := Int.natCast_inj.mp place
      refine Hands.drop (lockCallback_hands silent read) fun answer => ?_
      dsimp only
      split
      · refine only_bind (unhanded_of_direct direct_seekWrite) fun written => ?_
        split <;> exact restored
      · exact restored
    · exact Hands.of_unhanded restored
  refine Hands.skip asserted fun _ => Hands.skip primed fun _ => Hands.skip primed fun _ =>
    Hands.skip requested fun reply => ?_
  cases reply with
  | some errno =>
    dsimp only
    split
    · exact Hands.ret
    · exact Hands.of_unhanded kept
  | none =>
    refine Hands.drop locked fun rval => ?_
    refine only_bind (only_mono (fun _ => Call.Reading.unhanded) requested) fun reply => ?_
    cases reply with
    | some errno => exact kept
    | none => trivial

/-- A search passes no hand-over. -/
theorem ofSearch_unhanded {past : List Event} (only : ∀ event ∈ past, event.OfSearch) :
    past.filterMap Event.handedOffset = [] := by
  refine List.filterMap_eq_nil_iff.mpr fun event among => ?_
  have allowed := only event among
  cases event <;> first | rfl | exact allowed.elim

/-- A successful call hands over what its search delivers, if it succeeds. -/
theorem getNextOffset_handed (silent : Silent platform user) {delivered : OffT → Prop}
    (searched : UnderFaults platform file (flatrecsMakeOffsetToRecno fuel handle
      ⟨root, sizeofHeadTable⟩ (htableAt file root) (nextRecno file root))
      fun result _ _ => result.1 = .success → delivered result.2) :
    UnderFaults platform file (flatrecsGetNextOffset fuel handle root user)
      fun rval _ past => rval = .success → past.filterMap Event.handedOffset = [] ∨
        ∃ offset, delivered offset ∧ past.filterMap Event.handedOffset = [offset] := by
  refine getNextOffset_success fun _ =>
    (searched.both (UnderFaults.ofSearch ofSearch_flatrecsMakeOffsetToRecno)).mono ?_
  rintro ⟨code, offset⟩ middle past ⟨found, only⟩
  have nothing := ofSearch_unhanded only
  refine ⟨fun _ => .inl ?_, fun success => ?_⟩
  · rw [List.filterMap_cons_none rfl, nothing]
  · refine (silent handle _ offset middle).mono ?_
    rintro answer final later rfl
    refine .inr ⟨offset, found success, ?_⟩
    rw [List.append_assoc, List.cons_append, List.filterMap_cons_none rfl, List.filterMap_append,
      nothing]
    rfl

end Call

end Recnodb

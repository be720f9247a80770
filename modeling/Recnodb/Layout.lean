import Recnodb.Octets.LittleEndian

/-!
# Structures of the file and of the handle

The structures that `blocks.h` maps directly onto file bytes, in the layout of
the 64-bit little-endian build: no padding, two's complement offsets. Reading a
structure takes its fields from fixed ranges; writing it concatenates them. Both
round trips hold, so a header that was read and written back is the same bytes,
and a header that was written is read as it was meant.

File offsets are integers. A stored one must lie in the signed 64-bit range,
which `Fits` states; every offset read from bytes does.
-/

namespace Recnodb

open Octets

/-- `off_t`. -/
abbrev OffT := Int

/-- `RND_ERROR`, without the sentinel `RND_ERROR_LIMIT`. -/
inductive RndError where
  | success
  | fail
  | systemError
  | invalidRecnodbFile
  | badParameter
  | missingFhead
  | fileAlreadyOpen
  | fileNotOpen
  | extinctRecord
  | attemptToOrphanBlock
  | reachedEndOfBlockChain
  | lockFailed
  | unlockFailed
  | lockReadFailed
  | unlockWriteFailed
  | incompleteRead
  | incompleteWrite
  | invalidBlockSize
  | invalidBlockLocation
  | invalidHeadFile
deriving DecidableEq, Repr

/-- `BTYPE`. -/
inductive BType where
  | undefined
  | generic
  | data
  | table
  | file
deriving DecidableEq, Repr

/-- The enumeration value that a header stores. -/
def BType.code : BType → UInt16
  | .undefined => 0
  | .generic => 1
  | .data => 2
  | .table => 3
  | .file => 4

/-- `BLOCK_LOC`. -/
structure BlockLoc where
  offset : OffT
  size : OffT
deriving DecidableEq, Repr

/-- `INFO_BLOCK`, also named `RND_HEAD_BLOCK`. -/
structure InfoBlock where
  blockType : UInt16
  bytesToData : UInt16
  blockSize : UInt32
  firstRecno : UInt64
  nextBlock : BlockLoc
deriving DecidableEq, Repr

/-- `INFO_CHAIN`. -/
structure InfoChain where
  chainOffset : OffT
  blockPenultimate : OffT
  blockLast : OffT
deriving DecidableEq, Repr

/-- `INFO_TABLE`. -/
structure InfoTable where
  recSize : UInt32
  lastRecno : UInt32
deriving DecidableEq, Repr

/-- `INFO_FILE`. -/
structure InfoFile where
  magic : List UInt8
  chunkSize : UInt32
deriving DecidableEq, Repr

/-- `RND_HEAD_TABLE`. -/
structure RndHeadTable where
  bhead : InfoBlock
  chead : InfoChain
  thead : InfoTable
deriving DecidableEq, Repr

/-- `RND_HEAD_FILE`. -/
structure RndHeadFile where
  bhead : InfoBlock
  chead : InfoChain
  thead : InfoTable
  fhead : InfoFile
deriving DecidableEq, Repr

/-- `RND_BLOCK_DEF`. Members that a C initializer leaves out are zero. -/
structure RndBlockDef where
  blockType : BType
  blockSize : UInt32
  recSize : UInt32 := 0
  chunkSize : UInt32 := 0
  newBlock : BlockLoc := ⟨0, 0⟩
deriving DecidableEq, Repr

/-- `RNDH`. A stream is named by a number; `none` is the null pointer. The
`sys_errno` member is kept with the process state, which every call can reach. -/
structure Rndh where
  file : Option Nat
  headFile : RndHeadFile
deriving DecidableEq, Repr

/-- `"RNDB"`. -/
def rndb : List UInt8 := [0x52, 0x4E, 0x44, 0x42]

/-! ## Sizes -/

/-- `sizeof(INFO_BLOCK)`. -/
abbrev sizeofInfoBlock : Nat := 32

/-- `sizeof(INFO_TABLE)`. -/
abbrev sizeofInfoTable : Nat := 8

/-- `sizeof(RND_HEAD_TABLE)`. -/
abbrev sizeofHeadTable : Nat := 64

/-- `sizeof(RND_HEAD_FILE)`. -/
abbrev sizeofHeadFile : Nat := 72

/-! ## Structures as bytes -/

/-- A location as it is stored: its offset and its size. -/
def BlockLoc.toBytes (loc : BlockLoc) : List UInt8 :=
  encodeSigned loc.offset ++ encodeSigned loc.size

/-- A location as it is read. -/
def BlockLoc.ofBytes (bytes : List UInt8) : BlockLoc where
  offset := decodeSigned (slice bytes 0 8)
  size := decodeSigned (slice bytes 8 8)

/-- An `INFO_BLOCK` as it is stored. -/
def InfoBlock.toBytes (block : InfoBlock) : List UInt8 :=
  encode 2 block.blockType.toNat ++ (encode 2 block.bytesToData.toNat ++
    (encode 4 block.blockSize.toNat ++ (encode 8 block.firstRecno.toNat ++
      block.nextBlock.toBytes)))

/-- An `INFO_BLOCK` as it is read. -/
def InfoBlock.ofBytes (bytes : List UInt8) : InfoBlock where
  blockType := UInt16.ofNat (decode (slice bytes 0 2))
  bytesToData := UInt16.ofNat (decode (slice bytes 2 2))
  blockSize := UInt32.ofNat (decode (slice bytes 4 4))
  firstRecno := UInt64.ofNat (decode (slice bytes 8 8))
  nextBlock := BlockLoc.ofBytes (slice bytes 16 16)

/-- Where the link of a header lies. -/
theorem InfoBlock.ofBytes_child (bytes : List UInt8) : (InfoBlock.ofBytes bytes).nextBlock.offset =
    decodeSigned (slice (slice bytes 16 16) 0 8) := rfl

/-- Faded bytes of a header without a child have none. -/
theorem InfoBlock.childless_of_faded {bytes others : List UInt8} (faded : Faded bytes others)
    (childless : (InfoBlock.ofBytes others).nextBlock.offset = 0) :
    (InfoBlock.ofBytes bytes).nextBlock.offset = 0 := by
  have less := ((faded.slice 16 16).slice 0 8).decode_le
  have short (bytes : List UInt8) : (slice bytes 0 8).length ≤ 8 := by
    rw [slice_length]
    exact Nat.min_le_left _ _
  rw [InfoBlock.ofBytes_child, decodeSigned_zero (short _)] at childless ⊢
  exact Nat.le_zero.mp (less.trans_eq childless)

/-- An `INFO_CHAIN` as it is stored. -/
def InfoChain.toBytes (chain : InfoChain) : List UInt8 :=
  encodeSigned chain.chainOffset ++ (encodeSigned chain.blockPenultimate ++
    encodeSigned chain.blockLast)

/-- An `INFO_CHAIN` as it is read. -/
def InfoChain.ofBytes (bytes : List UInt8) : InfoChain where
  chainOffset := decodeSigned (slice bytes 0 8)
  blockPenultimate := decodeSigned (slice bytes 8 8)
  blockLast := decodeSigned (slice bytes 16 8)

/-- An `INFO_TABLE` as it is stored. -/
def InfoTable.toBytes (table : InfoTable) : List UInt8 :=
  encode 4 table.recSize.toNat ++ encode 4 table.lastRecno.toNat

/-- An `INFO_TABLE` as it is read. -/
def InfoTable.ofBytes (bytes : List UInt8) : InfoTable where
  recSize := UInt32.ofNat (decode (slice bytes 0 4))
  lastRecno := UInt32.ofNat (decode (slice bytes 4 4))

/-- An `INFO_FILE` as it is stored. -/
def InfoFile.toBytes (file : InfoFile) : List UInt8 :=
  file.magic ++ encode 4 file.chunkSize.toNat

/-- An `INFO_FILE` as it is read. -/
def InfoFile.ofBytes (bytes : List UInt8) : InfoFile where
  magic := slice bytes 0 4
  chunkSize := UInt32.ofNat (decode (slice bytes 4 4))

/-- A table header as it is stored: its three parts in a row. -/
def RndHeadTable.toBytes (head : RndHeadTable) : List UInt8 :=
  head.bhead.toBytes ++ (head.chead.toBytes ++ head.thead.toBytes)

/-- A table header as it is read. -/
def RndHeadTable.ofBytes (bytes : List UInt8) : RndHeadTable where
  bhead := InfoBlock.ofBytes (slice bytes 0 32)
  chead := InfoChain.ofBytes (slice bytes 32 24)
  thead := InfoTable.ofBytes (slice bytes 56 8)

/-- A file header as it is stored: its four parts in a row. -/
def RndHeadFile.toBytes (head : RndHeadFile) : List UInt8 :=
  head.bhead.toBytes ++ (head.chead.toBytes ++ (head.thead.toBytes ++ head.fhead.toBytes))

/-- A file header as it is read. -/
def RndHeadFile.ofBytes (bytes : List UInt8) : RndHeadFile where
  bhead := InfoBlock.ofBytes (slice bytes 0 32)
  chead := InfoChain.ofBytes (slice bytes 32 24)
  thead := InfoTable.ofBytes (slice bytes 56 8)
  fhead := InfoFile.ofBytes (slice bytes 64 8)

@[simp] theorem BlockLoc.toBytes_length (loc : BlockLoc) : loc.toBytes.length = 16 := by
  simp [BlockLoc.toBytes]

@[simp] theorem InfoBlock.toBytes_length (block : InfoBlock) : block.toBytes.length = 32 := by
  simp [InfoBlock.toBytes]

@[simp] theorem InfoChain.toBytes_length (chain : InfoChain) : chain.toBytes.length = 24 := by
  simp [InfoChain.toBytes]

@[simp] theorem InfoTable.toBytes_length (table : InfoTable) : table.toBytes.length = 8 := by
  simp [InfoTable.toBytes]

@[simp] theorem RndHeadTable.toBytes_length (head : RndHeadTable) : head.toBytes.length = 64 := by
  simp [RndHeadTable.toBytes]

/-! ## Fields survive a write and a read -/

/-- Both members lie in the signed 64-bit range. -/
def BlockLoc.Fits (loc : BlockLoc) : Prop :=
  (-2 ^ 63 ≤ loc.offset ∧ loc.offset < 2 ^ 63) ∧ (-2 ^ 63 ≤ loc.size ∧ loc.size < 2 ^ 63)

/-- A block of a file whose length is an `off_t` has a location that fits. -/
theorem BlockLoc.fits_of_lt {offset size : Nat} (offsetBound : offset < 2 ^ 63)
    (sizeBound : size < 2 ^ 63) : BlockLoc.Fits ⟨offset, size⟩ := by
  have natural (value : Nat) (bound : value < 2 ^ 63) :
      (-2 ^ 63 : Int) ≤ (value : Int) ∧ (value : Int) < 2 ^ 63 := by omega
  exact ⟨natural offset offsetBound, natural size sizeBound⟩

/-- A location that was read fits its fields. -/
theorem BlockLoc.ofBytes_fits (bytes : List UInt8) : (BlockLoc.ofBytes bytes).Fits :=
  ⟨decodeSigned_bounds (by simp), decodeSigned_bounds (by simp)⟩

/-- A location that fits its fields is read as it was written. -/
theorem BlockLoc.ofBytes_toBytes {loc : BlockLoc} (fits : loc.Fits) :
    BlockLoc.ofBytes loc.toBytes = loc := by
  have first : slice loc.toBytes 0 8 = encodeSigned loc.offset := by
    rw [BlockLoc.toBytes, slice_append_left _ (by simp)]
    simpa using slice_all (encodeSigned loc.offset)
  have second : slice loc.toBytes 8 8 = encodeSigned loc.size := by
    rw [BlockLoc.toBytes, slice_append_right _ (by simp), encodeSigned_length]
    simpa using slice_all (encodeSigned loc.size)
  rw [BlockLoc.ofBytes, first, second, decodeSigned_encodeSigned fits.1.1 fits.1.2,
    decodeSigned_encodeSigned fits.2.1 fits.2.2]

/-- A location that is read and written back is the same bytes. -/
theorem BlockLoc.toBytes_ofBytes {bytes : List UInt8} (length : bytes.length = 16) :
    (BlockLoc.ofBytes bytes).toBytes = bytes := by
  rw [BlockLoc.toBytes, BlockLoc.ofBytes, encodeSigned_decodeSigned (by simp [length]),
    encodeSigned_decodeSigned (by simp [length]), slice_append_slice bytes 0 8 8]
  simpa [length] using slice_all bytes

/-- The first of two joined fields. -/
theorem slice_field_first {first second : List UInt8} {width : Nat} (length : first.length = width) :
    slice (first ++ second) 0 width = first := by
  rw [slice_append_left second (by omega), ← length, slice_all]

/-- A field behind the first of two joined parts. -/
theorem slice_field_later {first second : List UInt8} {skipped start count : Nat}
    (length : first.length = skipped) (past : skipped ≤ start) :
    slice (first ++ second) start count = slice second (start - skipped) count := by
  rw [slice_append_right first (by omega), length]

/-- A field of two bytes that is read and written back. -/
theorem uint16_field {bytes : List UInt8} (length : bytes.length = 2) :
    encode 2 (UInt16.ofNat (decode bytes)).toNat = bytes := by
  have bound : decode bytes < 256 ^ 2 := length ▸ decode_bound bytes
  rw [UInt16.toNat_ofNat', Nat.mod_eq_of_lt (by omega), encode_decode_of_length length]

/-- A field of four bytes that is read and written back. -/
theorem uint32_field {bytes : List UInt8} (length : bytes.length = 4) :
    encode 4 (UInt32.ofNat (decode bytes)).toNat = bytes := by
  have bound : decode bytes < 256 ^ 4 := length ▸ decode_bound bytes
  rw [UInt32.toNat_ofNat', Nat.mod_eq_of_lt (by omega), encode_decode_of_length length]

/-- A field of eight bytes that is read and written back. -/
theorem uint64_field {bytes : List UInt8} (length : bytes.length = 8) :
    encode 8 (UInt64.ofNat (decode bytes)).toNat = bytes := by
  have bound : decode bytes < 256 ^ 8 := length ▸ decode_bound bytes
  rw [UInt64.toNat_ofNat', Nat.mod_eq_of_lt (by omega), encode_decode_of_length length]

/-- A value of two bytes that is written and read. -/
theorem uint16_value (value : UInt16) : UInt16.ofNat (decode (encode 2 value.toNat)) = value := by
  rw [decode_encode_of_lt value.toNat_lt, UInt16.ofNat_toNat]

/-- A value of four bytes that is written and read. -/
theorem uint32_value (value : UInt32) : UInt32.ofNat (decode (encode 4 value.toNat)) = value := by
  rw [decode_encode_of_lt value.toNat_lt, UInt32.ofNat_toNat]

/-- A value of eight bytes that is written and read. -/
theorem uint64_value (value : UInt64) : UInt64.ofNat (decode (encode 8 value.toNat)) = value := by
  rw [decode_encode_of_lt value.toNat_lt, UInt64.ofNat_toNat]

/-- A header whose link fits is read as it was written. -/
theorem InfoBlock.ofBytes_toBytes {block : InfoBlock} (fits : block.nextBlock.Fits) :
    InfoBlock.ofBytes block.toBytes = block := by
  have type : slice block.toBytes 0 2 = encode 2 block.blockType.toNat :=
    slice_field_first (encode_length 2 _)
  have data : slice block.toBytes 2 2 = encode 2 block.bytesToData.toNat := by
    rw [InfoBlock.toBytes, slice_field_later (encode_length 2 _) (by omega)]
    exact slice_field_first (encode_length 2 _)
  have size : slice block.toBytes 4 4 = encode 4 block.blockSize.toNat := by
    rw [InfoBlock.toBytes, slice_field_later (encode_length 2 _) (by omega),
      slice_field_later (encode_length 2 _) (by omega)]
    exact slice_field_first (encode_length 4 _)
  have recno : slice block.toBytes 8 8 = encode 8 block.firstRecno.toNat := by
    rw [InfoBlock.toBytes, slice_field_later (encode_length 2 _) (by omega),
      slice_field_later (encode_length 2 _) (by omega),
      slice_field_later (encode_length 4 _) (by omega)]
    exact slice_field_first (encode_length 8 _)
  have next : slice block.toBytes 16 16 = block.nextBlock.toBytes := by
    rw [InfoBlock.toBytes, slice_field_later (encode_length 2 _) (by omega),
      slice_field_later (encode_length 2 _) (by omega),
      slice_field_later (encode_length 4 _) (by omega),
      slice_field_later (encode_length 8 _) (by omega)]
    simpa using slice_all block.nextBlock.toBytes
  rw [InfoBlock.ofBytes, type, data, size, recno, next, uint16_value, uint16_value, uint32_value,
    uint64_value, BlockLoc.ofBytes_toBytes fits]

/-- Setting the link of a header overwrites its last sixteen bytes. -/
theorem InfoBlock.toBytes_link (block : InfoBlock) (loc : BlockLoc) :
    patch block.toBytes 16 loc.toBytes = { block with nextBlock := loc }.toBytes := by
  have nonempty : loc.toBytes ≠ [] := List.ne_nil_of_length_pos (by simp)
  have front : block.toBytes.take 16 = encode 2 block.blockType.toNat ++
      (encode 2 block.bytesToData.toNat ++ (encode 4 block.blockSize.toNat ++
        encode 8 block.firstRecno.toNat)) := by
    simp [InfoBlock.toBytes, List.take_append, List.take_of_length_le]
  rw [patch, if_neg nonempty, front]
  simp [InfoBlock.toBytes]

/-- The fields of a header lie in its first 32 bytes. -/
theorem InfoBlock.ofBytes_front (bytes : List UInt8) :
    InfoBlock.ofBytes (slice bytes 0 32) = InfoBlock.ofBytes bytes := by
  simp only [InfoBlock.ofBytes, slice_slice bytes 0 32 _ _ (by omega : 0 + 2 ≤ 32),
    slice_slice bytes 0 32 _ _ (by omega : 2 + 2 ≤ 32),
    slice_slice bytes 0 32 _ _ (by omega : 4 + 4 ≤ 32),
    slice_slice bytes 0 32 _ _ (by omega : 8 + 8 ≤ 32),
    slice_slice bytes 0 32 _ _ (by omega : 16 + 16 ≤ 32), Nat.zero_add]

/-- What follows a header does not change how it reads. -/
theorem InfoBlock.ofBytes_append {head : List UInt8} (length : head.length = 32)
    (rest : List UInt8) : InfoBlock.ofBytes (head ++ rest) = InfoBlock.ofBytes head := by
  rw [← InfoBlock.ofBytes_front, slice_append_left rest (by omega), InfoBlock.ofBytes_front]

/-- The bytes of a header that was read are the bytes it was read from. -/
theorem InfoBlock.toBytes_ofBytes {bytes : List UInt8} (length : bytes.length = 32) :
    (InfoBlock.ofBytes bytes).toBytes = bytes := by
  rw [InfoBlock.toBytes, InfoBlock.ofBytes, uint16_field (by simp [length]),
    uint16_field (by simp [length]), uint32_field (by simp [length]),
    uint64_field (by simp [length]), BlockLoc.toBytes_ofBytes (by simp [length]),
    slice_append_slice bytes 8 8 16, slice_append_slice bytes 4 4 24,
    slice_append_slice bytes 2 2 28, slice_append_slice bytes 0 2 30]
  simpa [length] using slice_all bytes

/-- An `INFO_CHAIN` that is read and written back is the same bytes. -/
theorem InfoChain.toBytes_ofBytes {bytes : List UInt8} (length : bytes.length = 24) :
    (InfoChain.ofBytes bytes).toBytes = bytes := by
  rw [InfoChain.toBytes, InfoChain.ofBytes, encodeSigned_decodeSigned (by simp [length]),
    encodeSigned_decodeSigned (by simp [length]), encodeSigned_decodeSigned (by simp [length]),
    slice_append_slice bytes 8 8 8, slice_append_slice bytes 0 8 16]
  simpa [length] using slice_all bytes

/-- An `INFO_TABLE` is read as it was written. -/
theorem InfoTable.ofBytes_toBytes (table : InfoTable) :
    InfoTable.ofBytes table.toBytes = table := by
  have first : slice table.toBytes 0 4 = encode 4 table.recSize.toNat :=
    slice_field_first (encode_length 4 _)
  have second : slice table.toBytes 4 4 = encode 4 table.lastRecno.toNat := by
    rw [InfoTable.toBytes, slice_field_later (encode_length 4 _) (by omega)]
    simpa using slice_all (encode 4 table.lastRecno.toNat)
  rw [InfoTable.ofBytes, first, second, uint32_value, uint32_value]

/-- An `INFO_TABLE` that is read and written back is the same bytes. -/
theorem InfoTable.toBytes_ofBytes {bytes : List UInt8} (length : bytes.length = 8) :
    (InfoTable.ofBytes bytes).toBytes = bytes := by
  rw [InfoTable.toBytes, InfoTable.ofBytes, uint32_field (by simp [length]),
    uint32_field (by simp [length]), slice_append_slice bytes 0 4 4]
  simpa [length] using slice_all bytes

/-- The table part of a table header is read as it was written. -/
theorem RndHeadTable.thead_toBytes (head : RndHeadTable) :
    (RndHeadTable.ofBytes head.toBytes).thead = head.thead := by
  have back : slice head.toBytes 56 8 = head.thead.toBytes := by
    rw [RndHeadTable.toBytes, slice_field_later (InfoBlock.toBytes_length _) (by omega),
      slice_field_later (InfoChain.toBytes_length _) (by omega)]
    simpa using slice_all head.thead.toBytes
  exact (congrArg InfoTable.ofBytes back).trans (InfoTable.ofBytes_toBytes _)

/-- A table header whose link fits is read as it was written, if its chain part is. -/
theorem RndHeadTable.ofBytes_toBytes {head : RndHeadTable} (fits : head.bhead.nextBlock.Fits)
    (chain : InfoChain.ofBytes head.chead.toBytes = head.chead) :
    RndHeadTable.ofBytes head.toBytes = head := by
  have front : slice head.toBytes 0 32 = head.bhead.toBytes :=
    slice_field_first (InfoBlock.toBytes_length _)
  have middle : slice head.toBytes 32 24 = head.chead.toBytes := by
    rw [RndHeadTable.toBytes, slice_field_later (InfoBlock.toBytes_length _) (by omega)]
    exact slice_field_first (InfoChain.toBytes_length _)
  have back : InfoTable.ofBytes (slice head.toBytes 56 8) = head.thead :=
    RndHeadTable.thead_toBytes head
  rw [RndHeadTable.ofBytes, front, middle, back, InfoBlock.ofBytes_toBytes fits, chain]

/-- An `INFO_FILE` with a magic of four bytes is read as it was written. -/
theorem InfoFile.ofBytes_toBytes {file : InfoFile} (magic : file.magic.length = 4) :
    InfoFile.ofBytes file.toBytes = file := by
  have first : slice file.toBytes 0 4 = file.magic := slice_field_first magic
  have second : slice file.toBytes 4 4 = encode 4 file.chunkSize.toNat := by
    rw [InfoFile.toBytes, slice_field_later magic (by omega)]
    simpa using slice_all (encode 4 file.chunkSize.toNat)
  rw [InfoFile.ofBytes, first, second, uint32_value]

/-- A file header whose link fits is read as it was written, if its chain part is. -/
theorem RndHeadFile.ofBytes_toBytes {head : RndHeadFile} (fits : head.bhead.nextBlock.Fits)
    (chain : InfoChain.ofBytes head.chead.toBytes = head.chead)
    (magic : head.fhead.magic.length = 4) : RndHeadFile.ofBytes head.toBytes = head := by
  have front : slice head.toBytes 0 32 = head.bhead.toBytes :=
    slice_field_first (InfoBlock.toBytes_length _)
  have second : slice head.toBytes 32 24 = head.chead.toBytes := by
    rw [RndHeadFile.toBytes, slice_field_later (InfoBlock.toBytes_length _) (by omega)]
    exact slice_field_first (InfoChain.toBytes_length _)
  have third : slice head.toBytes 56 8 = head.thead.toBytes := by
    rw [RndHeadFile.toBytes, slice_field_later (InfoBlock.toBytes_length _) (by omega),
      slice_field_later (InfoChain.toBytes_length _) (by omega)]
    exact slice_field_first (InfoTable.toBytes_length _)
  have last : slice head.toBytes 64 8 = head.fhead.toBytes := by
    rw [RndHeadFile.toBytes, slice_field_later (InfoBlock.toBytes_length _) (by omega),
      slice_field_later (InfoChain.toBytes_length _) (by omega),
      slice_field_later (InfoTable.toBytes_length _) (by omega)]
    have length : head.fhead.toBytes.length = 8 := by
      rw [InfoFile.toBytes, List.length_append, magic, encode_length]
    have whole := slice_all head.fhead.toBytes
    rwa [length] at whole
  rw [RndHeadFile.ofBytes, front, second, third, last, InfoBlock.ofBytes_toBytes fits, chain,
    InfoTable.ofBytes_toBytes, InfoFile.ofBytes_toBytes magic]

end Recnodb

import ZeroMQ.Lib.Blocks
import ZeroMQ.Lib.Run

/-!
# The swap file of a data dam

The bytes of a `data_dam_t` (`libzmq/data_dam.cpp`) go through a circular file
and two buffers of one block each.  The writer fills a buffer and saves it at
the end of the block; the reader fills its buffer from the file at the beginning
of a block.  When both are in the same block they share a buffer, and part
again when the writer leaves it.

The file is an array of bytes with a seek position; a byte that was never
written cannot be read.  `memcpy` does not leave its buffer, and a loop makes at
most as many turns as there are bytes to copy.  Whatever breaks one of these
rules is `none`.

The invariant is stated in positions of the stream, which do not wrap: `w`
bytes have been written and `r` of them read, and the blocks are those of
`ZeroMQ.Lib.Blocks`.

## Main definitions

* `DamFile` — the members of `data_dam_t` but for the message counter, and the
  file.
* `DamFile.copyToFile`, `DamFile.copyFromFile` — the two loops.

## Main results

* `DamFile.Holds.writeChunk`, `DamFile.Holds.readChunk` — one turn of each loop.
* `dam_file_fifo` — the file is a FIFO of bytes.
-/

namespace ZeroMQ

open ZeroMQ.Lib ZeroMQ.Lib.Blocks

variable {bytes : List UInt8} {pos : Nat}

/-! ## Buffers -/

/-- `memcpy (&buf [pos], bytes, n)`. -/
def putAt (buf : List UInt8) (pos : Nat) (bytes : List UInt8) :
    Option (List UInt8) :=
  if pos + bytes.length ≤ buf.length then
    some (buf.take pos ++ bytes ++ buf.drop (pos + bytes.length))
  else none

/-- `memcpy (ptr, &buf [pos], n)`. -/
def getAt (buf : List UInt8) (pos n : Nat) : Option (List UInt8) :=
  if pos + n ≤ buf.length then some ((buf.drop pos).take n) else none

theorem putAt_eq_some {buf : List UInt8} (h : pos + bytes.length ≤ buf.length) :
    ∃ buf', putAt buf pos bytes = some buf' ∧ buf'.length = buf.length ∧
      (∀ i < bytes.length, buf'[pos + i]? = bytes[i]?) ∧
      ∀ i, i < pos ∨ pos + bytes.length ≤ i → buf'[i]? = buf[i]? := by
  have hpos : (buf.take pos).length = pos := by
    rw [List.length_take]
    omega
  refine ⟨_, if_pos h, ?_, fun i hi => ?_, fun i hi => ?_⟩
  · simp only [List.length_append, hpos, List.length_drop]
    omega
  · rw [List.append_assoc, List.getElem?_append_right (by omega), hpos,
      Nat.add_sub_cancel_left, List.getElem?_append_left hi]
  · rcases hi with hi | hi
    · rw [List.append_assoc, List.getElem?_append_left (by omega),
        List.getElem?_take_of_lt hi]
    · rw [List.getElem?_append_right (by rw [List.length_append]; omega),
        List.length_append, hpos, List.getElem?_drop]
      congr 1
      omega

theorem getAt_eq_some {buf : List UInt8} (hle : pos + bytes.length ≤ buf.length)
    (h : ∀ i < bytes.length, buf[pos + i]? = bytes[i]?) :
    getAt buf pos bytes.length = some bytes := by
  rw [getAt, if_pos hle, Option.some.injEq]
  apply List.ext_getElem?
  intro i
  rw [List.getElem?_take]
  split
  · next hi => rw [List.getElem?_drop, h i hi]
  · next hi => rw [List.getElem?_eq_none (Nat.not_lt.mp hi)]

/-- The `n` bytes of the file from `pos` on. -/
def readFile (file : Nat → Option UInt8) : Nat → Nat → Option (List UInt8)
  | _, 0 => some []
  | pos, n + 1 =>
      (file pos).bind fun byte =>
        (readFile file (pos + 1) n).map fun bytes => byte :: bytes

theorem readFile_eq_some {file : Nat → Option UInt8}
    (h : ∀ i < bytes.length, file (pos + i) = bytes[i]?) :
    readFile file pos bytes.length = some bytes := by
  induction bytes generalizing pos with
  | nil => rfl
  | cons byte bytes ih =>
      have hfirst : file pos = some byte := h 0 (Nat.succ_pos _)
      have hrest : readFile file (pos + 1) bytes.length = some bytes := by
        apply ih
        intro i hi
        have hnext := h (i + 1) (Nat.succ_lt_succ hi)
        rw [List.getElem?_cons_succ] at hnext
        rw [← hnext]
        congr 1
        omega
      simp [readFile, hfirst, hrest]

/-! ## `data_dam_t` -/

/-- The two buffers. -/
inductive Buf where
  | buf1
  | buf2
  deriving DecidableEq, Repr

def Buf.other : Buf → Buf
  | .buf1 => .buf2
  | .buf2 => .buf1

theorem Buf.other_ne (b : Buf) : b.other ≠ b := by
  cases b <;> decide

/-- The members of `data_dam_t` that have to do with bytes, the contents of the
file and the seek position the operating system keeps. -/
structure DamFile where
  filesize : Nat
  blockSize : Nat
  file : Nat → Option UInt8
  seekPos : Nat
  filePos : Nat
  writePos : Nat
  readPos : Nat
  buf1 : List UInt8
  buf2 : List UInt8
  readBuf : Buf
  writeBuf : Buf
  writeBufStartAddr : Nat

namespace DamFile

/-- The constructor.  The file is empty, the buffers are not initialised. -/
def create (filesize blockSize : Nat) (buf1 buf2 : List UInt8) : DamFile :=
  { filesize := filesize, blockSize := blockSize, file := fun _ => none,
    seekPos := 0, filePos := 0, writePos := 0, readPos := 0, buf1 := buf1,
    buf2 := buf2, readBuf := .buf1, writeBuf := .buf1, writeBufStartAddr := 0 }

def buf (d : DamFile) : Buf → List UInt8
  | .buf1 => d.buf1
  | .buf2 => d.buf2

def setBuf (d : DamFile) (b : Buf) (bytes : List UInt8) : DamFile :=
  { d with
    buf1 := if b = .buf1 then bytes else d.buf1
    buf2 := if b = .buf2 then bytes else d.buf2 }

/-- `lseek`, unless the position is right. -/
def seek (d : DamFile) (addr : Nat) : DamFile :=
  if d.filePos = addr then d else { d with seekPos := addr, filePos := addr }

/-- `fill_read_buf`. -/
def fillReadBuf (d : DamFile) : Option DamFile :=
  let d := d.seek d.readPos
  let n := min d.blockSize (d.filesize - d.readPos)
  (readFile d.file d.seekPos n).bind fun bytes =>
    (putAt (d.buf d.readBuf) 0 bytes).map fun buf =>
      { d.setBuf d.readBuf buf with
        seekPos := d.seekPos + n
        filePos := d.filePos + n }

/-- `save_write_buf`. -/
def saveWriteBuf (d : DamFile) : Option DamFile :=
  let d := d.seek d.writeBufStartAddr
  let n := min d.blockSize (d.filesize - d.writeBufStartAddr)
  (getAt (d.buf d.writeBuf) 0 n).map fun bytes =>
    { d with
      file := fun a =>
        if d.seekPos ≤ a ∧ a < d.seekPos + n then bytes[a - d.seekPos]?
        else d.file a
      seekPos := d.seekPos + n
      filePos := d.filePos + n }

/-- The reader has come to the beginning of a block. -/
def nextReadBlock (d : DamFile) : Option DamFile :=
  if d.readPos / d.blockSize = d.writePos / d.blockSize then
    some { d with readBuf := d.writeBuf }
  else d.fillReadBuf

/-- The writer has come to the end of a block. -/
def nextWriteBlock (d : DamFile) : Option DamFile :=
  d.saveWriteBuf.map fun d =>
    { d with
      writeBufStartAddr := d.writePos
      writeBuf := if d.writeBuf = d.readBuf then d.writeBuf.other
        else d.writeBuf }

/-- The number of bytes `copy_from_file` copies in one turn. -/
def readSize (d : DamFile) (nLeft : Nat) : Nat :=
  min nLeft (min (d.filesize - d.readPos)
    (d.blockSize - d.readPos % d.blockSize))

/-- One turn of the loop of `copy_from_file`. -/
def readChunk (d : DamFile) (n : Nat) : Option (List UInt8 × DamFile) :=
  (getAt (d.buf d.readBuf) (d.readPos % d.blockSize) n).bind fun bytes =>
    let d := { d with readPos := (d.readPos + n) % d.filesize }
    (if d.readPos % d.blockSize = 0 then d.nextReadBlock else some d).map
      fun d => (bytes, d)

/-- The loop of `copy_from_file`, with a bound on its turns. -/
def readLoop : Nat → DamFile → Nat → Option (List UInt8 × DamFile)
  | _, d, 0 => some ([], d)
  | 0, _, _ + 1 => none
  | turns + 1, d, nLeft + 1 =>
      let n := d.readSize (nLeft + 1)
      (d.readChunk n).bind fun (bytes, d) =>
        (readLoop turns d (nLeft + 1 - n)).map fun (rest, d) =>
          (bytes ++ rest, d)

/-- `copy_from_file`. -/
def copyFromFile (d : DamFile) (count : Nat) : Option (List UInt8 × DamFile) :=
  readLoop count d count

/-- The number of bytes `copy_to_file` copies in one turn. -/
def writeSize (d : DamFile) (nLeft : Nat) : Nat :=
  min nLeft (min (d.filesize - d.writePos)
    (d.blockSize - d.writePos % d.blockSize))

/-- `n` bytes have been copied to the buffer of the writer. -/
def wrote (d : DamFile) (buf : List UInt8) (n : Nat) : DamFile :=
  { d.setBuf d.writeBuf buf with writePos := (d.writePos + n) % d.filesize }

/-- One turn of the loop of `copy_to_file`. -/
def writeChunk (d : DamFile) (bytes : List UInt8) : Option DamFile :=
  (putAt (d.buf d.writeBuf) (d.writePos % d.blockSize) bytes).bind fun buf =>
    let d := d.wrote buf bytes.length
    if d.writePos % d.blockSize = 0 then d.nextWriteBlock else some d

/-- The loop of `copy_to_file`, with a bound on its turns. -/
def writeLoop : Nat → DamFile → List UInt8 → Option DamFile
  | _, d, [] => some d
  | 0, _, _ :: _ => none
  | turns + 1, d, byte :: bytes =>
      let n := d.writeSize (bytes.length + 1)
      (d.writeChunk ((byte :: bytes).take n)).bind fun d =>
        writeLoop turns d ((byte :: bytes).drop n)

/-- `copy_to_file`. -/
def copyToFile (d : DamFile) (bytes : List UInt8) : Option DamFile :=
  writeLoop bytes.length d bytes

/-- `buffer_space`. -/
def bufferSpace (d : DamFile) : Nat :=
  if d.writePos < d.readPos then d.readPos - d.writePos
  else d.filesize - (d.writePos - d.readPos)

/-! ## The invariant -/

variable {d d' : DamFile} {size block r : Nat} {given : List UInt8} {n : Nat}

/-- The dam after `given` was written and `r` bytes of it were read.  The
buffers hold the blocks of the writer and the reader, and are one buffer if that
is one block; the blocks in between are in the file. -/
structure Holds (size block : Nat) (d : DamFile) (given : List UInt8)
    (r : Nat) : Prop where
  sizePos : 0 < size
  blockPos : 0 < block
  filesize : d.filesize = size
  blockSize : d.blockSize = block
  written : r ≤ given.length
  ahead : given.length < r + size
  readPos : d.readPos = r % size
  writePos : d.writePos = given.length % size
  startAddr : d.writeBufStartAddr = base size block given.length % size
  filePos : d.filePos = d.seekPos
  buf : ∀ b, (d.buf b).length = block
  shared : d.writeBuf = d.readBuf ↔
    base size block r = base size block given.length
  writeBuf : ∀ x, base size block given.length ≤ x → x < given.length →
    (d.buf d.writeBuf)[x - base size block given.length]? = given[x]?
  readBuf : ∀ x, r ≤ x → x < bound size block r → x < given.length →
    (d.buf d.readBuf)[x - base size block r]? = given[x]?
  file : ∀ x, bound size block r ≤ x → x < base size block given.length →
    d.file (x % size) = given[x]?

@[simp] theorem buf_setBuf_self (d : DamFile) (b : Buf) (bytes : List UInt8) :
    (d.setBuf b bytes).buf b = bytes := by
  cases b <;> rfl

theorem buf_setBuf_of_ne (d : DamFile) {a b : Buf} (h : a ≠ b)
    (bytes : List UInt8) : (d.setBuf b bytes).buf a = d.buf a := by
  cases a <;> cases b <;> first | rfl | exact (h rfl).elim

theorem length_buf_setBuf {b : Buf} (h : ∀ a, (d.buf a).length = block)
    (hlen : bytes.length = block) (a : Buf) :
    ((d.setBuf b bytes).buf a).length = block := by
  by_cases hab : a = b
  · subst hab
    rw [buf_setBuf_self, hlen]
  · rw [buf_setBuf_of_ne d hab, h a]

theorem seek_eq (h : d.filePos = d.seekPos) (addr : Nat) :
    d.seek addr = { d with seekPos := addr, filePos := addr } := by
  unfold seek
  split
  · next heq =>
      cases d
      simp_all
  · rfl

theorem saveWriteBuf_eq (hpos : d.filePos = d.seekPos)
    (hn : min d.blockSize (d.filesize - d.writeBufStartAddr) = n)
    (hfits : n ≤ (d.buf d.writeBuf).length) :
    d.saveWriteBuf = some
      { d with
        file := fun a =>
          if d.writeBufStartAddr ≤ a ∧ a < d.writeBufStartAddr + n then
            ((d.buf d.writeBuf).take n)[a - d.writeBufStartAddr]?
          else d.file a
        seekPos := d.writeBufStartAddr + n
        filePos := d.writeBufStartAddr + n } := by
  have hget : getAt (d.buf d.writeBuf) 0 n =
      some ((d.buf d.writeBuf).take n) := by
    rw [getAt, if_pos (by omega), List.drop_zero]
  rw [saveWriteBuf, seek_eq hpos]
  dsimp only
  rw [hn]
  change (getAt (d.buf d.writeBuf) 0 n).map _ = _
  rw [hget]
  rfl

theorem fillReadBuf_eq (hpos : d.filePos = d.seekPos) {buf : List UInt8}
    (hn : min d.blockSize (d.filesize - d.readPos) = bytes.length)
    (hread : readFile d.file d.readPos bytes.length = some bytes)
    (hput : putAt (d.buf d.readBuf) 0 bytes = some buf) :
    d.fillReadBuf = some
      { d.setBuf d.readBuf buf with
        seekPos := d.readPos + bytes.length
        filePos := d.readPos + bytes.length } := by
  rw [fillReadBuf, seek_eq hpos]
  dsimp only
  rw [hn, hread, Option.bind_some]
  change (putAt (d.buf d.readBuf) 0 bytes).map _ = _
  rw [hput]
  rfl

theorem Holds.create (hsize : 0 < size) (hblock : 0 < block)
    {buf1 buf2 : List UInt8} (h1 : buf1.length = block)
    (h2 : buf2.length = block) :
    Holds size block (DamFile.create size block buf1 buf2) [] 0 where
  sizePos := hsize
  blockPos := hblock
  filesize := rfl
  blockSize := rfl
  written := Nat.le_refl 0
  ahead := by simpa using hsize
  readPos := (Nat.zero_mod size).symm
  writePos := (Nat.zero_mod size).symm
  startAddr := by simp [DamFile.create, base]
  filePos := rfl
  buf b := by
    cases b with
    | buf1 => exact h1
    | buf2 => exact h2
  shared := by simp [DamFile.create]
  writeBuf x _ hx := (Nat.not_lt_zero x hx).elim
  readBuf x _ _ hx := (Nat.not_lt_zero x hx).elim
  file x _ hx := by simp [base] at hx

/-! ## Writing -/

variable {buf : List UInt8}

/-- `buf` is the writer's buffer with `bytes` put in: it has the bytes of the
writer's block, and the reader finds what it is to read in its own. -/
structure Put (size block : Nat) (d : DamFile) (given bytes : List UInt8)
    (r : Nat) (buf : List UInt8) : Prop where
  length : buf.length = block
  writer : ∀ x, base size block given.length ≤ x →
    x < given.length + bytes.length →
    buf[x - base size block given.length]? = (given ++ bytes)[x]?
  reader : ∀ x, r ≤ x → x < bound size block r →
    x < given.length + bytes.length →
    ((d.setBuf d.writeBuf buf).buf d.readBuf)[x - base size block r]? =
      (given ++ bytes)[x]?

theorem Holds.put (h : Holds size block d given r)
    (hle : bytes.length ≤ left size block given.length) :
    ∃ buf, putAt (d.buf d.writeBuf) (offset size block given.length) bytes =
      some buf ∧ Put size block d given bytes r buf := by
  have hw : base size block given.length + offset size block given.length =
      given.length := base_add_offset
  have hfits : offset size block given.length + bytes.length ≤
      (d.buf d.writeBuf).length := by
    have hoff : offset size block given.length < block :=
      Nat.mod_lt _ h.blockPos
    rw [h.buf]
    unfold left at hle
    omega
  obtain ⟨buf, hput, hlen, hnew, hold⟩ := putAt_eq_some hfits
  have hblock : ∀ x, base size block given.length ≤ x →
      x < given.length + bytes.length →
      buf[x - base size block given.length]? = (given ++ bytes)[x]? := by
    intro x hx hlt
    rcases Nat.lt_or_ge x given.length with hxw | hxw
    · rw [hold _ (.inl (by omega)), h.writeBuf x hx hxw,
        List.getElem?_append_left hxw]
    · rw [List.getElem?_append_right hxw, ← hnew _ (by omega)]
      congr 1
      omega
  refine ⟨buf, hput, hlen.trans (h.buf _), hblock, fun x hr hb hlt => ?_⟩
  by_cases hshared : d.writeBuf = d.readBuf
  · have hbase := h.shared.mp hshared
    rw [← hshared, buf_setBuf_self, hbase]
    exact hblock x (hbase ▸ base_le.trans hr) hlt
  · -- the reader's block is complete, and in the other buffer
    have hbefore : x < given.length := by
      rcases base_eq_or_bound_le h.sizePos h.blockPos h.written with heq | hle
      · exact (hshared (h.shared.mpr heq)).elim
      · exact hb.trans_le (hle.trans base_le)
    rw [buf_setBuf_of_ne d (Ne.symm hshared), h.readBuf x hr hb hbefore,
      List.getElem?_append_left hbefore]

theorem Holds.wrote_writePos (h : Holds size block d given r)
    (buf : List UInt8) (n : Nat) :
    (d.wrote buf n).writePos = (given.length + n) % size := by
  rw [wrote, h.writePos, h.filesize, Nat.mod_add_mod]

theorem Holds.writeWithin (h : Holds size block d given r)
    (hlt : bytes.length < left size block given.length)
    (hroom : given.length + bytes.length < r + size)
    (hput : Put size block d given bytes r buf) :
    Holds size block (d.wrote buf bytes.length) (given ++ bytes) r := by
  have hbase : base size block (given ++ bytes).length =
      base size block given.length := by
    rw [List.length_append, base_add hlt]
  have hw := h.written
  exact
    { h with
      written := by
        rw [List.length_append]
        omega
      ahead := by
        rw [List.length_append]
        exact hroom
      writePos := by
        rw [List.length_append]
        exact h.wrote_writePos buf bytes.length
      startAddr := by
        rw [hbase]
        exact h.startAddr
      buf := length_buf_setBuf h.buf hput.length
      shared := by
        rw [hbase]
        exact h.shared
      writeBuf := by
        rw [hbase, List.length_append]
        intro x hx hlt
        rw [← hput.writer x hx hlt, show (d.wrote buf bytes.length).buf
          (d.wrote buf bytes.length).writeBuf = buf from
            buf_setBuf_self d d.writeBuf buf]
      readBuf := by
        rw [List.length_append]
        exact hput.reader
      file := by
        rw [hbase]
        intro x hb hx
        have hxw : x < given.length := hx.trans_le base_le
        rw [List.getElem?_append_left hxw]
        exact h.file x hb hx }

/-- The number of bytes saved at the end of a block is its length. -/
theorem Holds.saveSize (h : Holds size block d given r) :
    min d.blockSize (d.filesize - d.writeBufStartAddr) =
      left size block (base size block given.length) := by
  rw [h.blockSize, h.filesize, h.startAddr, left, offset_base, Nat.sub_zero,
    Nat.min_comm]

/-- The file once the block of the writer is saved: it has that block, and still
those the reader has to fetch. -/
theorem Holds.file_saved (h : Holds size block d given r)
    (hend : bytes.length = left size block given.length)
    (hroom : given.length + bytes.length < r + size)
    (hput : Put size block d given bytes r buf)
    {x : Nat} (hb : bound size block r ≤ x)
    (hx : x < given.length + bytes.length) :
    (if base size block given.length % size ≤ x % size ∧
        x % size < base size block given.length % size +
          left size block (base size block given.length) then
      (buf.take (left size block (base size block given.length)))[
        x % size - base size block given.length % size]?
    else d.file (x % size)) = (given ++ bytes)[x]? := by
  have hbound : base size block given.length +
      left size block (base size block given.length) =
        given.length + bytes.length := by
    rw [base_add_left h.sizePos h.blockPos, hend, bound]
  have hr : r < bound size block r := lt_bound h.sizePos h.blockPos
  rcases Nat.lt_or_ge x (base size block given.length) with hlt | hge
  · have hout : ¬ (base size block given.length % size ≤ x % size ∧
        x % size < base size block given.length % size +
          left size block (base size block given.length)) := by
      rintro ⟨h1, h2⟩
      -- the cell would be that of a later position of the same round
      obtain ⟨k, hk⟩ := Nat.exists_eq_add_of_le h1
      have hin : k < left size block (base size block given.length) := by omega
      have hround : base size block given.length + k < x + size := by omega
      exact mod_ne (by omega) hround (hk.trans (mod_add hin).symm)
    have hxw : x < given.length := hlt.trans_le base_le
    rw [if_neg hout, h.file x hb hlt, List.getElem?_append_left hxw]
  · obtain ⟨k, rfl⟩ := Nat.exists_eq_add_of_le hge
    have hk : k < left size block (base size block given.length) := by omega
    rw [mod_add hk, if_pos ⟨by omega, by omega⟩, Nat.add_sub_cancel_left,
      List.getElem?_take_of_lt hk, ← hput.writer _ hge hx, Nat.add_sub_cancel_left]

/-- A chunk that reaches the end of the block. -/
theorem Holds.writeBoundary (h : Holds size block d given r)
    (hend : bytes.length = left size block given.length)
    (hroom : given.length + bytes.length < r + size)
    (hput : Put size block d given bytes r buf) :
    ∃ d', (d.wrote buf bytes.length).nextWriteBlock = some d' ∧
      Holds size block d' (given ++ bytes) r := by
  have hbound : given.length + bytes.length = bound size block given.length := by
    rw [hend, bound]
  have hbase : base size block (given ++ bytes).length =
      given.length + bytes.length := by
    rw [List.length_append, hbound, base_bound h.sizePos h.blockPos]
  have hfits : left size block (base size block given.length) ≤ buf.length := by
    rw [hput.length]
    unfold left
    omega
  have hbuf : (d.wrote buf bytes.length).buf d.writeBuf = buf :=
    buf_setBuf_self d d.writeBuf buf
  have hr : base size block r < given.length + bytes.length := by
    have hpos : 0 < left size block given.length :=
      left_pos h.sizePos h.blockPos
    have hbr : base size block r ≤ r := base_le
    have hw := h.written
    omega
  have hsave := saveWriteBuf_eq (d := d.wrote buf bytes.length) h.filePos
    h.saveSize (hfits.trans_eq (congrArg List.length hbuf).symm)
  refine ⟨_, by rw [nextWriteBlock, hsave]; rfl, ?_⟩
  have hw := h.written
  have hpos := h.wrote_writePos buf bytes.length
  exact
    { h with
      written := by
        rw [List.length_append]
        omega
      ahead := by
        rw [List.length_append]
        exact hroom
      writePos := by
        rw [List.length_append]
        exact hpos
      startAddr := by
        rw [hbase]
        exact hpos
      filePos := rfl
      buf := length_buf_setBuf h.buf hput.length
      shared := by
        rw [hbase]
        refine ⟨fun heq => ?_, fun heq => (Nat.ne_of_lt hr heq).elim⟩
        dsimp only [wrote, setBuf] at heq
        split at heq
        · next hs => exact (Buf.other_ne _ (heq.trans hs.symm)).elim
        · next hs => exact (hs heq).elim
      writeBuf := by
        rw [hbase, List.length_append]
        exact fun x hx hlt => (Nat.not_lt.mpr hx hlt).elim
      readBuf := by
        rw [List.length_append]
        exact hput.reader
      file := by
        rw [hbase]
        intro x hb hx
        have hsaved := h.file_saved hend hroom hput hb hx
        rw [← h.startAddr, ← hbuf] at hsaved
        exact hsaved }

theorem Holds.writeChunk (h : Holds size block d given r)
    (hpos : 0 < bytes.length)
    (hle : bytes.length ≤ left size block given.length)
    (hroom : given.length + bytes.length < r + size) :
    ∃ d', d.writeChunk bytes = some d' ∧
      Holds size block d' (given ++ bytes) r := by
  obtain ⟨buf, hbuf, hput⟩ := h.put hle
  have hplace : d.writePos % d.blockSize = offset size block given.length := by
    rw [h.writePos, h.blockSize, offset]
  have hoffset : (d.wrote buf bytes.length).writePos % d.blockSize =
      offset size block (given.length + bytes.length) := by
    rw [h.wrote_writePos, h.blockSize, offset]
  rw [DamFile.writeChunk, hplace, hbuf, Option.bind_some]
  dsimp only
  rcases Nat.lt_or_ge bytes.length (left size block given.length) with hlt | hge
  · have hne : (d.wrote buf bytes.length).writePos % d.blockSize ≠ 0 := by
      rw [hoffset, offset_add hlt]
      omega
    exact ⟨_, if_neg hne, h.writeWithin hlt hroom hput⟩
  · have hend : bytes.length = left size block given.length :=
      Nat.le_antisymm hle hge
    have hzero : (d.wrote buf bytes.length).writePos % d.blockSize = 0 := by
      rw [hoffset, hend]
      exact offset_bound h.sizePos h.blockPos
    obtain ⟨d', hd', hnext⟩ := h.writeBoundary hend hroom hput
    exact ⟨d', (if_pos hzero).trans hd', hnext⟩

theorem Holds.writeSize (h : Holds size block d given r) (n : Nat) :
    d.writeSize n = min n (left size block given.length) := by
  rw [DamFile.writeSize, h.filesize, h.blockSize, h.writePos, left, offset]

theorem Holds.writeLoop (h : Holds size block d given r) {turns : Nat}
    (hturns : bytes.length ≤ turns)
    (hroom : given.length + bytes.length < r + size) :
    ∃ d', DamFile.writeLoop turns d bytes = some d' ∧
      Holds size block d' (given ++ bytes) r := by
  induction turns generalizing d given bytes with
  | zero =>
      obtain rfl : bytes = [] := List.length_eq_zero_iff.mp (by omega)
      exact ⟨d, rfl, by simpa using h⟩
  | succ turns ih =>
      cases bytes with
      | nil => exact ⟨d, rfl, by simpa using h⟩
      | cons byte bytes =>
          have hpos : 0 < left size block given.length :=
            left_pos h.sizePos h.blockPos
          have hsize := h.writeSize (bytes.length + 1)
          rw [DamFile.writeLoop]
          generalize d.writeSize (bytes.length + 1) = n at hsize ⊢
          have hlen : ((byte :: bytes).take n).length = n := by
            rw [List.length_take, List.length_cons]
            omega
          rw [List.length_cons] at hturns hroom
          have hsome : 0 < ((byte :: bytes).take n).length := by omega
          have hrest : ((byte :: bytes).drop n).length ≤ turns := by
            rw [List.length_drop, List.length_cons]
            omega
          obtain ⟨d₁, h₁, hold₁⟩ := h.writeChunk hsome (by omega) (by omega)
          obtain ⟨d₂, h₂, hold₂⟩ := ih hold₁ hrest (by
            rw [List.length_append, hlen, List.length_drop, List.length_cons]
            omega)
          rw [List.append_assoc, List.take_append_drop] at hold₂
          exact ⟨d₂, by rw [h₁, Option.bind_some, h₂], hold₂⟩

theorem Holds.copyToFile (h : Holds size block d given r)
    (bytes : List UInt8) (hroom : given.length + bytes.length < r + size) :
    ∃ d', d.copyToFile bytes = some d' ∧
      Holds size block d' (given ++ bytes) r :=
  h.writeLoop (Nat.le_refl _) hroom

/-! ## Reading -/

theorem Holds.get (h : Holds size block d given r) (hle : n ≤ left size block r)
    (havail : r + n ≤ given.length) :
    getAt (d.buf d.readBuf) (d.readPos % d.blockSize) n =
      some ((given.drop r).take n) := by
  have hlen : ((given.drop r).take n).length = n := by
    rw [List.length_take, List.length_drop]
    omega
  have hplace : d.readPos % d.blockSize = offset size block r := by
    rw [h.readPos, h.blockSize, offset]
  have hr : base size block r + offset size block r = r := base_add_offset
  have hoff : offset size block r < block := Nat.mod_lt _ h.blockPos
  rw [hplace]
  refine (congrArg (getAt _ _) hlen.symm).trans (getAt_eq_some ?_ ?_)
  · rw [hlen, h.buf]
    unfold left at hle
    omega
  · intro i hi
    rw [hlen] at hi
    rw [List.getElem?_take_of_lt hi, List.getElem?_drop,
      ← h.readBuf (r + i) (by omega) (by unfold bound; omega) (by omega)]
    congr 1
    omega

theorem Holds.readWithin (h : Holds size block d given r)
    (hlt : n < left size block r) (havail : r + n ≤ given.length) :
    Holds size block { d with readPos := (d.readPos + n) % d.filesize } given
      (r + n) := by
  have hbase : base size block (r + n) = base size block r := base_add hlt
  have hbound : bound size block (r + n) = bound size block r :=
    bound_eq_of_base_eq h.sizePos h.blockPos hbase
  have hahead := h.ahead
  exact
    { h with
      written := havail
      ahead := by omega
      readPos := by rw [h.readPos, h.filesize, Nat.mod_add_mod]
      shared := by
        rw [hbase]
        exact h.shared
      readBuf := by
        rw [hbase, hbound]
        exact fun x hx => h.readBuf x (by omega)
      file := by
        rw [hbound]
        exact h.file }

/-- The reader has come to the block of the writer. -/
theorem Holds.readShared (h : Holds size block d given r) {p : Nat}
    (hp : bound size block r = p) (hw : base size block given.length = p) :
    Holds size block { d with readPos := p % size, readBuf := d.writeBuf } given
      p := by
  have hbase : base size block p = p :=
    hp ▸ base_bound h.sizePos h.blockPos
  have hle : base size block given.length ≤ given.length := base_le
  have hahead := h.ahead
  have hr : r < p := hp ▸ lt_bound h.sizePos h.blockPos
  exact
    { h with
      written := by omega
      ahead := by omega
      readPos := rfl
      shared := by
        rw [hbase, hw]
        exact iff_of_true rfl rfl
      readBuf := by
        rw [hbase, ← hw]
        exact fun x hx _ => h.writeBuf x hx
      file := by
        have hlt : p < bound size block p := lt_bound h.sizePos h.blockPos
        intro x hb hx
        omega }

/-- The reader has come to a block the writer has saved. -/
theorem Holds.readFilled (h : Holds size block d given r) {p : Nat}
    (hp : bound size block r = p) (havail : p ≤ given.length)
    (hw : base size block given.length ≠ p) :
    ∃ d', fillReadBuf { d with readPos := p % size } = some d' ∧
      Holds size block d' given p := by
  have hoff : offset size block p = 0 :=
    hp ▸ offset_bound h.sizePos h.blockPos
  have hbase : base size block p = p :=
    hp ▸ base_bound h.sizePos h.blockPos
  have hsaved : p + left size block p ≤ base size block given.length := by
    rcases base_eq_or_bound_le h.sizePos h.blockPos havail with heq | hle
    · exact (hw (heq.symm.trans hbase)).elim
    · exact hle
  have hle : base size block given.length ≤ given.length := base_le
  have hr : r < p := hp ▸ lt_bound h.sizePos h.blockPos
  -- the writer is not in the block the reader leaves
  have hparted : d.writeBuf ≠ d.readBuf := by
    intro heq
    have hend : given.length < bound size block r := by
      rw [bound_eq_of_base_eq h.sizePos h.blockPos (h.shared.mp heq)]
      exact lt_bound h.sizePos h.blockPos
    omega
  obtain ⟨bytes, hlen, hbytes⟩ : ∃ bytes : List UInt8,
      bytes.length = left size block p ∧
      ∀ i < bytes.length, bytes[i]? = given[p + i]? := by
    refine ⟨(given.drop p).take (left size block p), ?_, ?_⟩
    · rw [List.length_take, List.length_drop]
      omega
    · intro i hi
      rw [List.length_take] at hi
      rw [List.getElem?_take_of_lt (by omega), List.getElem?_drop]
  have hread : readFile d.file (p % size) bytes.length = some bytes := by
    apply readFile_eq_some
    intro i hi
    rw [hbytes i hi, ← mod_add (hi.trans_eq hlen)]
    rw [hlen] at hi
    exact h.file _ (by omega) (by omega)
  have hn : min d.blockSize (d.filesize - p % size) = bytes.length := by
    rw [hlen, h.blockSize, h.filesize, left, hoff, Nat.sub_zero, Nat.min_comm]
  have hfits : 0 + bytes.length ≤ (d.buf d.readBuf).length := by
    rw [h.buf, ← h.blockSize]
    omega
  obtain ⟨buf, hput, hsame, hnew, -⟩ := putAt_eq_some hfits
  refine ⟨_, fillReadBuf_eq (d := { d with readPos := p % size }) h.filePos hn
    hread hput, ?_⟩
  have hahead := h.ahead
  exact
    { h with
      written := havail
      ahead := by omega
      readPos := rfl
      filePos := rfl
      buf := length_buf_setBuf h.buf (hsame.trans (h.buf _))
      shared := by
        have hlt : p < bound size block p := lt_bound h.sizePos h.blockPos
        rw [hbase]
        exact iff_of_false hparted (by omega)
      writeBuf := by
        intro x hx hxw
        rw [← h.writeBuf x hx hxw, ← buf_setBuf_of_ne d hparted buf]
        rfl
      readBuf := by
        rw [hbase]
        intro x hx hb hxw
        have hi : x - p < bytes.length := by
          unfold bound at hb
          omega
        have hold := (hnew _ hi).trans (hbytes _ hi)
        rw [Nat.zero_add, Nat.add_sub_cancel' hx,
          ← buf_setBuf_self d d.readBuf buf] at hold
        exact hold
      file := by
        intro x hb hx
        exact h.file x (by unfold bound at hb; omega) hx }

theorem Holds.readChunk (h : Holds size block d given r) (hpos : 0 < n)
    (hle : n ≤ left size block r) (havail : r + n ≤ given.length) :
    ∃ d', d.readChunk n = some ((given.drop r).take n, d') ∧
      Holds size block d' given (r + n) := by
  have hreadPos : (d.readPos + n) % d.filesize = (r + n) % size := by
    rw [h.readPos, h.filesize, Nat.mod_add_mod]
  have hoffset : (d.readPos + n) % d.filesize % d.blockSize =
      offset size block (r + n) := by
    rw [hreadPos, h.blockSize, offset]
  rw [DamFile.readChunk, h.get hle havail, Option.bind_some]
  dsimp only
  rcases Nat.lt_or_ge n (left size block r) with hlt | hge
  · have hne : (d.readPos + n) % d.filesize % d.blockSize ≠ 0 := by
      rw [hoffset, offset_add hlt]
      omega
    rw [if_neg hne]
    exact ⟨_, rfl, h.readWithin hlt havail⟩
  · have hend : bound size block r = r + n := by
      rw [bound, Nat.le_antisymm hle hge]
    have hzero : offset size block (r + n) = 0 :=
      hend ▸ offset_bound h.sizePos h.blockPos
    have hindex := index_eq_iff h.blockPos hzero havail
      (by have := h.ahead; omega)
    rw [if_pos (hoffset.trans hzero), hreadPos, nextReadBlock]
    dsimp only
    by_cases hw : base size block given.length = r + n
    · rw [if_pos (by rw [h.blockSize, h.writePos, hindex, hw])]
      exact ⟨_, rfl, h.readShared hend hw⟩
    · obtain ⟨d', hfill, hd'⟩ := h.readFilled hend havail hw
      rw [if_neg (by rwa [h.blockSize, h.writePos, hindex])]
      exact ⟨d', congrArg (Option.map _) hfill, hd'⟩

theorem Holds.readSize (h : Holds size block d given r) (n : Nat) :
    d.readSize n = min n (left size block r) := by
  rw [DamFile.readSize, h.filesize, h.blockSize, h.readPos, left, offset]

theorem Holds.readLoop (h : Holds size block d given r) {turns nLeft : Nat}
    (hturns : nLeft ≤ turns) (havail : r + nLeft ≤ given.length) :
    ∃ d', DamFile.readLoop turns d nLeft =
        some ((given.drop r).take nLeft, d') ∧
      Holds size block d' given (r + nLeft) := by
  induction turns generalizing d r nLeft with
  | zero =>
      obtain rfl : nLeft = 0 := Nat.le_zero.mp hturns
      exact ⟨d, rfl, h⟩
  | succ turns ih =>
      cases nLeft with
      | zero => exact ⟨d, rfl, h⟩
      | succ nLeft =>
          have hpos : 0 < left size block r := left_pos h.sizePos h.blockPos
          have hsize := h.readSize (nLeft + 1)
          rw [DamFile.readLoop]
          generalize d.readSize (nLeft + 1) = n at hsize ⊢
          obtain ⟨d₁, h₁, hold₁⟩ :=
            h.readChunk (n := n) (by omega) (by omega) (by omega)
          have hrest : nLeft + 1 - n ≤ turns := by omega
          obtain ⟨d₂, h₂, hold₂⟩ := ih hold₁ hrest (by omega)
          have hall : r + n + (nLeft + 1 - n) = r + (nLeft + 1) := by omega
          have hbytes : (given.drop r).take n ++
              (given.drop (r + n)).take (nLeft + 1 - n) =
                (given.drop r).take (nLeft + 1) := by
            rw [← List.drop_drop, ← List.take_add]
            congr 1
            omega
          refine ⟨d₂, ?_, hall ▸ hold₂⟩
          rw [h₁, Option.bind_some, ← hbytes]
          exact congrArg (Option.map _) h₂

theorem Holds.copyFromFile (h : Holds size block d given r) (count : Nat)
    (havail : r + count ≤ given.length) :
    ∃ d', d.copyFromFile count = some ((given.drop r).take count, d') ∧
      Holds size block d' given (r + count) :=
  h.readLoop (Nat.le_refl _) havail

theorem Holds.copyNext (h : Holds size block d given r) {rest : List UInt8}
    (hnext : given.drop r = bytes ++ rest) :
    ∃ d', d.copyFromFile bytes.length = some (bytes, d') ∧
      Holds size block d' given (r + bytes.length) ∧
      given.drop (r + bytes.length) = rest := by
  have hlen : given.length - r = bytes.length + rest.length := by
    rw [← List.length_drop, hnext, List.length_append]
  have hw := h.written
  obtain ⟨d', hd', h'⟩ := h.copyFromFile bytes.length (by omega)
  rw [hnext, List.take_left] at hd'
  refine ⟨d', hd', h', ?_⟩
  rw [← List.drop_drop, hnext, List.drop_left]

/-- `buffer_space` is what the bytes in use leave of the file. -/
theorem Holds.bufferSpace (h : Holds size block d given r) :
    d.bufferSpace = size - (given.length - r) := by
  have hahead := h.ahead
  have hr := Nat.mod_lt r h.sizePos
  obtain ⟨k, hk⟩ := Nat.exists_eq_add_of_le h.written
  rw [DamFile.bufferSpace, h.filesize, h.readPos, h.writePos, hk,
    ← Nat.mod_add_mod]
  rcases Nat.lt_or_ge (r % size + k) size with hlt | hge
  · rw [Nat.mod_eq_of_lt hlt, if_neg (by omega)]
    omega
  · have hwrap : (r % size + k) % size = r % size + k - size := by
      rw [Nat.mod_eq_sub_mod hge, Nat.mod_eq_of_lt (by omega)]
    rw [hwrap, if_pos (by omega)]
    omega

end DamFile

/-! ## The file as a FIFO of bytes -/

/-- A data dam with the bytes given to it and taken from it. -/
structure DamFileSys where
  dam : DamFile
  given : List UInt8
  delivered : List UInt8

inductive DamFileAct where
  | copyTo (bytes : List UInt8)
  | copyFrom (count : Nat)
  deriving DecidableEq, Repr

namespace DamFileSys

def start (filesize blockSize : Nat) (buf1 buf2 : List UInt8) : DamFileSys :=
  { dam := .create filesize blockSize buf1 buf2, given := [], delivered := [] }

def step (s : DamFileSys) : DamFileAct → Option DamFileSys
  | .copyTo bytes =>
      (s.dam.copyToFile bytes).map fun dam =>
        { s with dam := dam, given := s.given ++ bytes }
  | .copyFrom count =>
      (s.dam.copyFromFile count).map fun (bytes, dam) =>
        { s with dam := dam, delivered := s.delivered ++ bytes }

/-- The bytes written and not yet read are fewer than the file has, and no more
than these are asked for. -/
def Bounded (s : DamFileSys) : DamFileAct → Prop
  | .copyTo bytes =>
      s.given.length - s.delivered.length + bytes.length < s.dam.filesize
  | .copyFrom count => count ≤ s.given.length - s.delivered.length

instance (s : DamFileSys) (a : DamFileAct) : Decidable (s.Bounded a) :=
  match a with
  | .copyTo _ => inferInstanceAs (Decidable (_ < _))
  | .copyFrom _ => inferInstanceAs (Decidable (_ ≤ _))

/-- What a call adds to the two histories. -/
def Copied (s s' : DamFileSys) : DamFileAct → Prop
  | .copyTo bytes =>
      s'.given = s.given ++ bytes ∧ s'.delivered = s.delivered
  | .copyFrom count =>
      s'.given = s.given ∧
        s'.delivered.length = s.delivered.length + count

/-- What was taken is what was given, and the rest is in the dam. -/
structure Inv (size block : Nat) (s : DamFileSys) : Prop where
  holds : s.dam.Holds size block s.given s.delivered.length
  fifo : s.delivered = s.given.take s.delivered.length

variable {size block : Nat} {s s' : DamFileSys} {a : DamFileAct}

/-- A call within the bounds does what it is meant to do. -/
theorem Inv.step (h : Inv size block s) (hok : s.Bounded a) :
    ∃ s', s.step a = some s' ∧ Inv size block s' ∧ s.Copied s' a := by
  have hw := h.holds.written
  cases a with
  | copyTo bytes =>
      have hroom : s.given.length + bytes.length <
          s.delivered.length + size := by
        simp only [Bounded, h.holds.filesize] at hok
        omega
      obtain ⟨dam, hdam, hholds⟩ := h.holds.copyToFile bytes hroom
      refine ⟨_, congrArg (Option.map _) hdam, ⟨hholds, ?_⟩, rfl, rfl⟩
      show s.delivered = (s.given ++ bytes).take s.delivered.length
      rw [List.take_append_of_le_length hw]
      exact h.fifo
  | copyFrom count =>
      have havail : s.delivered.length + count ≤ s.given.length := by
        simp only [Bounded] at hok
        omega
      obtain ⟨dam, hdam, hholds⟩ := h.holds.copyFromFile count havail
      have hdelivered : s.delivered ++
          (s.given.drop s.delivered.length).take count =
            s.given.take (s.delivered.length + count) := by
        rw [List.take_add, ← h.fifo]
      have hlen : (s.delivered ++
          (s.given.drop s.delivered.length).take count).length =
            s.delivered.length + count := by
        rw [hdelivered, List.length_take_of_le havail]
      refine ⟨_, congrArg (Option.map _) hdam, ⟨?_, ?_⟩, rfl, hlen⟩
      · show dam.Holds size block s.given (List.length (_ ++ _))
        rw [hlen]
        exact hholds
      · show _ ++ _ = s.given.take (List.length (_ ++ _))
        rw [hlen, hdelivered]

theorem Inv.run {buf1 buf2 : List UInt8} (hsize : 0 < size)
    (hblock : 0 < block) (h1 : buf1.length = block) (h2 : buf2.length = block)
    {acts : List DamFileAct}
    (hrun : Run DamFileSys.step Bounded (start size block buf1 buf2) acts s) :
    Inv size block s := by
  refine hrun.invariant (fun s a s' h hok hstep => ?_)
    ⟨.create hsize hblock h1 h2, rfl⟩
  obtain ⟨s₁, hs₁, h₁, -⟩ := h.step hok
  rw [hs₁, Option.some.injEq] at hstep
  exact hstep ▸ h₁

end DamFileSys

/-- **The file is a FIFO of bytes.**  However the calls are interleaved, and
whatever the sizes of the file and the blocks, the bytes read are the first of
those written, and a call within the bounds comes to its end with all its bytes
copied. -/
theorem dam_file_fifo {size block : Nat} {buf1 buf2 : List UInt8}
    (hsize : 0 < size) (hblock : 0 < block) (h1 : buf1.length = block)
    (h2 : buf2.length = block) {acts : List DamFileAct} {s : DamFileSys}
    (hrun : Run DamFileSys.step DamFileSys.Bounded
      (.start size block buf1 buf2) acts s) :
    s.delivered <+: s.given ∧
      ∀ a, s.Bounded a → ∃ s', s.step a = some s' ∧ s.Copied s' a := by
  have hinv := DamFileSys.Inv.run hsize hblock h1 h2 hrun
  refine ⟨?_, fun a hok => ?_⟩
  · rw [hinv.fifo]
    exact List.take_prefix _ _
  · obtain ⟨s', hstep, -, hcopied⟩ := hinv.step hok
    exact ⟨s', hstep, hcopied⟩

/-- Blocks of three bytes in a file of seven; both positions go round it. -/
theorem dam_file_fifo_seven :
    ∃ s, Run DamFileSys.step DamFileSys.Bounded
        (.start 7 3 [0, 0, 0] [0, 0, 0])
        [.copyTo [1, 2, 3, 4, 5], .copyFrom 3, .copyTo [6, 7, 8, 9],
          .copyFrom 5, .copyTo [10, 11, 12]] s ∧
      s.given = [1, 2, 3, 4, 5, 6, 7, 8, 9, 10, 11, 12] ∧
      s.delivered = [1, 2, 3, 4, 5, 6, 7, 8] ∧
      ∃ s', s.step (.copyFrom 4) = some s' ∧ s'.delivered <+: s.given ∧
        s'.delivered.length = 12 := by
  refine Run.exists_of_exec (by decide +kernel)
    fun s hrun hs => ⟨And.left hs, And.right hs, ?_⟩
  obtain ⟨hgiven, hdelivered⟩ := hs
  have hok : s.Bounded (.copyFrom 4) := by
    simp [DamFileSys.Bounded, hgiven, hdelivered]
  have hsize : 0 < 7 := by decide
  have hblock : 0 < 3 := by decide
  obtain ⟨-, hcall⟩ := dam_file_fifo hsize hblock rfl rfl hrun
  obtain ⟨s', hstep, hsame, hlen⟩ := hcall _ hok
  obtain ⟨hfifo, -⟩ :=
    dam_file_fifo hsize hblock rfl rfl (hrun.snoc hok hstep)
  exact ⟨s', hstep, hsame ▸ hfifo, by rw [hlen, hdelivered]; rfl⟩

end ZeroMQ

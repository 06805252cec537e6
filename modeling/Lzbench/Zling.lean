import Lzbench.Codec
import Lzbench.Lib.Loop
import Mathlib.Algebra.BigOperators.Group.List.Basic

/-!
# The output of zling

zling writes through an `Outputter`.  The one in memory, `MemOutputter`, shortens a write that
does not fit, and reports an error when it has written more than its buffer holds, which it
never has.  So the loop that writes a block until all of it is taken goes on forever when the
block does not fit, and a byte of a header that does not fit is lost without a trace.

## Main definitions

* `MemOutputter` — the buffer and its fill, with the counts of all writes as history.
* `drain` — the loop that writes a block.
* `DrainReports` — the loop ends, and an error is reported exactly if a byte is lost.
* `lzbenchZlingCompress` — the wrapper, over the blocks that the coder makes.
* `CompressesWhole` — what the wrapper returns as a success is a complete stream.
* `drainReports_putAll`, `compressesWhole_iff` — when the two hold.
-/

namespace Lzbench

open Imperative

/-- `MemOutputter`.  `puts` has the size of every write and what of it was stored; no branch
reads it. -/
structure MemOutputter where
  mem : Mem
  mBuffer : ℕ
  mBuflen : ℕ
  mTotalWrite : ℕ
  puts : List (ℕ × ℕ)
  totalWrite_le : mTotalWrite ≤ mBuflen

namespace MemOutputter

def init (mem : Mem) (buffer buflen : ℕ) : MemOutputter :=
  ⟨mem, buffer, buflen, 0, [], Nat.zero_le _⟩

/-- What `PutData` takes of `len` bytes. -/
def putLen (o : MemOutputter) (len : ℕ) : ℕ :=
  if len > o.mBuflen - o.mTotalWrite then o.mBuflen - o.mTotalWrite else len

theorem totalWrite_add_putLen (o : MemOutputter) (len : ℕ) :
    o.mTotalWrite + o.putLen len ≤ o.mBuflen := by
  have hle := o.totalWrite_le
  simp only [putLen]
  split <;> omega

/-- `PutData`. -/
def putData (o : MemOutputter) (buf : List UInt8) : ℕ × MemOutputter :=
  let len := o.putLen buf.length
  (len,
    { o with
      mem := ((Patch.ofList (buf.take len)).shift (o.mBuffer + o.mTotalWrite)).onto o.mem
      mTotalWrite := o.mTotalWrite + len
      puts := o.puts ++ [(buf.length, len)]
      totalWrite_le := o.totalWrite_add_putLen buf.length })

/-- `IsErr`. -/
def isErr (o : MemOutputter) : Bool := o.mTotalWrite > o.mBuflen

/-- `GetOutputSize`. -/
def getOutputSize (o : MemOutputter) : ℕ := o.mTotalWrite

/-- `PutChar`. -/
def putChar (o : MemOutputter) (v : ℕ) : MemOutputter := (o.putData [UInt8.ofNat v]).2

/-- `PutUInt32`. -/
def putUInt32 (o : MemOutputter) (v : ℕ) : MemOutputter :=
  (((o.putChar (v / 16777216 % 256)).putChar (v / 65536 % 256)).putChar (v / 256 % 256)).putChar
    (v / 1 % 256)

/-- The writes of some buffers, one after the other. -/
def putAll (o : MemOutputter) (bufs : List (List UInt8)) : MemOutputter :=
  bufs.foldl (fun o buf => (o.putData buf).2) o

/-- The loop by which `Encode` and `Decode` write a block, for at most `fuel` rounds. -/
def drain (fuel : ℕ) (o : MemOutputter) (block : List UInt8) : Option MemOutputter :=
  (whileDo (fun s : MemOutputter × ℕ => !s.1.isErr && decide (s.2 < block.length))
    (fun s => ((s.1.putData (block.drop s.2)).2, s.2 + (s.1.putData (block.drop s.2)).1)) fuel
    (o, 0)).map Prod.fst

/-- Some byte of a write was not stored. -/
def Lost (o : MemOutputter) : Prop := ∃ p ∈ o.puts, p.2 < p.1

/-- The room left. -/
def room (o : MemOutputter) : ℕ := o.mBuflen - o.mTotalWrite

variable (o : MemOutputter)

/-- No error is ever reported. -/
@[simp] theorem isErr_eq_false : o.isErr = false := by
  have hle := o.totalWrite_le
  simpa [isErr] using hle

theorem putLen_eq (len : ℕ) : o.putLen len = min len o.room := by
  simp only [putLen, room]
  split <;> omega

@[simp] theorem putData_fst (buf : List UInt8) : (o.putData buf).1 = min buf.length o.room :=
  o.putLen_eq _

theorem room_putData (buf : List UInt8) : (o.putData buf).2.room = o.room - buf.length := by
  have hlen := o.putLen_eq buf.length
  simp only [putData, room] at hlen ⊢
  omega

@[simp] theorem puts_putData (buf : List UInt8) :
    (o.putData buf).2.puts = o.puts ++ [(buf.length, min buf.length o.room)] := by
  simp only [putData, putLen_eq]

/-- A write loses a byte if it does not fit, or one was lost before. -/
theorem lost_putData (buf : List UInt8) :
    (o.putData buf).2.Lost ↔ o.Lost ∨ o.room < buf.length := by
  simp only [Lost, puts_putData, List.mem_append, List.mem_singleton]
  constructor
  · rintro ⟨p, hp | rfl, hlt⟩
    · exact Or.inl ⟨p, hp, hlt⟩
    · right
      simp only at hlt
      omega
  · rintro (⟨p, hp, hlt⟩ | hlt)
    · exact ⟨p, Or.inl hp, hlt⟩
    · refine ⟨_, Or.inr rfl, ?_⟩
      show min buf.length o.room < buf.length
      omega

/-- Writes that fit fill the buffer byte for byte. -/
theorem room_putAll (bufs : List (List UInt8)) :
    (o.putAll bufs).room = o.room - (bufs.map List.length).sum := by
  induction bufs generalizing o with
  | nil => simp [putAll]
  | cons buf bufs ih =>
    have hrest := ih (o.putData buf).2
    rw [room_putData] at hrest
    simp only [putAll, List.foldl_cons, List.map_cons, List.sum_cons] at hrest ⊢
    omega

/-- A byte is lost by some writes exactly if they do not fit together. -/
theorem lost_putAll (bufs : List (List UInt8)) :
    (o.putAll bufs).Lost ↔ o.Lost ∨ o.room < (bufs.map List.length).sum := by
  induction bufs generalizing o with
  | nil => simp [putAll]
  | cons buf bufs ih =>
    have hrest := ih (o.putData buf).2
    rw [lost_putData, room_putData] at hrest
    simp only [putAll, List.foldl_cons, List.map_cons, List.sum_cons] at hrest ⊢
    rw [hrest, or_assoc]
    refine or_congr_right ?_
    omega

/-! ## Writing a block -/

/-- A block that fits is written at once. -/
theorem drain_of_le {block : List UInt8} (hfit : block.length ≤ o.room) (fuel : ℕ) :
    o.drain (fuel + 1) block = some (if block = [] then o else (o.putData block).2) := by
  cases block with
  | nil => simp [drain, whileDo]
  | cons b block =>
    have hall : min (b :: block).length o.room = (b :: block).length := min_eq_left hfit
    rw [drain, whileDo, if_pos (by simp)]
    simp only [List.drop_zero, putData_fst, hall, Nat.zero_add]
    cases fuel <;> simp [whileDo]

/-- With less fuel than it takes nothing else is returned. -/
theorem drain_zero (block : List UInt8) :
    o.drain 0 block = if block = [] then some o else none := by
  cases block <;> simp [drain, whileDo]

/-- What is left of a block that does not fit is offered to a full buffer for ever. -/
theorem drain_of_lt {block : List UInt8} (hlong : o.room < block.length) (fuel : ℕ) :
    o.drain fuel block = none := by
  rw [drain, Option.map_eq_none_iff]
  refine whileDo_stuck (I := fun s => s.1.room + s.2 < block.length) ?_ fuel hlong
  intro s hs
  have hoff : s.2 < block.length := by omega
  refine ⟨by simp [hoff], ?_⟩
  simp only [room_putData, putData_fst, List.length_drop]
  omega

/-- What is asked of the outputter when a block is written: the loop ends, and after it an
error is reported exactly if some byte is lost. -/
def DrainReports (o : MemOutputter) (block : List UInt8) : Prop :=
  ∃ o' enough, (∀ fuel, enough < fuel → o.drain fuel block = some o') ∧
    (o'.isErr = true ↔ o'.Lost)

end MemOutputter

open MemOutputter

/-- After any writes the outputter does what is asked of it exactly if they and the block fit
the buffer together. -/
theorem drainReports_putAll (mem : Mem) (buffer buflen : ℕ) (bufs : List (List UInt8))
    (block : List UInt8) :
    ((init mem buffer buflen).putAll bufs).DrainReports block ↔
      (bufs.map List.length).sum + block.length ≤ buflen := by
  have hroom := (init mem buffer buflen).room_putAll bufs
  have hlost := (init mem buffer buflen).lost_putAll bufs
  have hfresh : ¬ (init mem buffer buflen).Lost := by simp [Lost, init]
  have hempty : (init mem buffer buflen).room = buflen := Nat.sub_zero buflen
  rw [hempty] at hroom hlost
  generalize (init mem buffer buflen).putAll bufs = o at hroom hlost ⊢
  constructor
  · rintro ⟨o', enough, hrun, hreports⟩
    have hend := hrun (enough + 1) (Nat.lt_succ_self enough)
    by_cases hfit : block.length ≤ o.room
    · rw [drain_of_le o hfit, Option.some.injEq] at hend
      have hkept : ¬ o.Lost := by
        intro hlost
        have hlost' : o'.Lost := by
          rw [← hend]
          split
          · exact hlost
          · exact (o.lost_putData block).mpr (Or.inl hlost)
        simp [hlost'] at hreports
      have hsum : ¬ buflen < (bufs.map List.length).sum := fun h => hkept (hlost.mpr (Or.inr h))
      omega
    · rw [drain_of_lt o (by omega)] at hend
      cases hend
  · intro hfit
    have hblock : block.length ≤ o.room := by omega
    have hkept : ¬ o.Lost := by
      intro h
      cases hlost.mp h with
      | inl h => exact hfresh h
      | inr h => omega
    refine ⟨if block = [] then o else (o.putData block).2, 0, fun fuel hfuel => ?_, ?_⟩
    · obtain ⟨n, rfl⟩ := Nat.exists_eq_succ_of_ne_zero (by omega : fuel ≠ 0)
      exact drain_of_le o hblock n
    · rw [isErr_eq_false]
      refine iff_of_false Bool.false_ne_true ?_
      split
      · exact hkept
      · rw [lost_putData]
        exact fun h => h.elim hkept (by omega)

/-! ## The wrapper -/

/-- A block of codes as `Encode` writes it.  Its bytes begin with the tables of code lengths, so
there are some. -/
structure ZlingBlock where
  encpos : ℕ
  rlen : ℕ
  obuf : List UInt8
  obuf_ne_nil : obuf ≠ []

/-- A call of the outputter. -/
inductive ZlingPut
  | char (v : ℕ)
  | uint32 (v : ℕ)
  | block (buf : List UInt8)

/-- How `Encode` is left before its end. -/
inductive ZlingExit
  | hang
  /-- `CHECK_IO_ERROR`. -/
  | ioError (o : MemOutputter)

/-- `CHECK_IO_ERROR`. -/
def checkIoError (o : MemOutputter) : Except ZlingExit MemOutputter :=
  if o.isErr then .error (.ioError o) else .ok o

def ZlingPut.run (fuel : ℕ) (o : MemOutputter) : ZlingPut → Except ZlingExit MemOutputter
  | char v => checkIoError (o.putChar v)
  | uint32 v => checkIoError (o.putUInt32 v)
  | block buf =>
    match o.drain fuel buf with
    | none => .error .hang
    | some o => checkIoError o

/-- The calls for one block: `kFlagRolzContinue`, the three sizes, the bytes. -/
def ZlingBlock.puts (b : ZlingBlock) : List ZlingPut :=
  [.char 1, .uint32 b.encpos, .uint32 b.rlen, .uint32 b.obuf.length, .block b.obuf]

/-- The calls of `Encode`: the blocks for every buffer of input, and `kFlagRolzStop` after
them. -/
def encodePuts (inputs : List (List ZlingBlock)) : List ZlingPut :=
  inputs.flatMap fun blocks => blocks.flatMap ZlingBlock.puts ++ [.char 0]

/-- `lzbench_zling_compress`, with the blocks that the coder makes of its input; what `Encode`
returns is not looked at. -/
def lzbenchZlingCompress (coder : List UInt8 → ℕ → List (List ZlingBlock)) (fuel : ℕ)
    (a : CodecArgs) : Except Stop (ℤ × Mem) :=
  match (encodePuts (coder a.input a.param1)).foldlM (ZlingPut.run fuel)
      (init a.outbuf a.outpos a.outsize) with
  | .error .hang => .error .hang
  | .error (.ioError o) => .ok (toInt64 o.getOutputSize, o.mem)
  | .ok o => .ok (toInt64 o.getOutputSize, o.mem)

/-- The bytes of a call. -/
def ZlingPut.bytes : ZlingPut → List UInt8
  | char v => [UInt8.ofNat v]
  | uint32 v => [.ofNat (v / 16777216 % 256), .ofNat (v / 65536 % 256), .ofNat (v / 256 % 256),
      .ofNat (v / 1 % 256)]
  | block buf => buf

@[simp] theorem bytes_char (v : ℕ) : (ZlingPut.char v).bytes = [UInt8.ofNat v] := rfl

@[simp] theorem length_bytes_uint32 (v : ℕ) : (ZlingPut.uint32 v).bytes.length = 4 := rfl

@[simp] theorem bytes_block (buf : List UInt8) : (ZlingPut.block buf).bytes = buf := rfl

/-- The stream of zling. -/
def zlingStream (inputs : List (List ZlingBlock)) : List UInt8 :=
  (encodePuts inputs).flatMap ZlingPut.bytes

/-- What the buffer holds. -/
def MemOutputter.contents (o : MemOutputter) : List UInt8 := o.mem.bytes o.mBuffer o.mTotalWrite

/-- `o'` has `bytes` more than `o`. -/
structure MemOutputter.Extends (o o' : MemOutputter) (bytes : List UInt8) : Prop where
  mBuffer_eq : o'.mBuffer = o.mBuffer
  mBuflen_eq : o'.mBuflen = o.mBuflen
  totalWrite_eq : o'.mTotalWrite = o.mTotalWrite + bytes.length
  contents_eq : o'.contents = o.contents ++ bytes

namespace MemOutputter

variable {o o' o'' : MemOutputter} {bytes bytes' : List UInt8}

theorem Extends.refl (o : MemOutputter) : o.Extends o [] :=
  ⟨rfl, rfl, rfl, (List.append_nil _).symm⟩

theorem Extends.trans (h : o.Extends o' bytes) (h' : o'.Extends o'' bytes') :
    o.Extends o'' (bytes ++ bytes') := by
  constructor
  · rw [h'.mBuffer_eq, h.mBuffer_eq]
  · rw [h'.mBuflen_eq, h.mBuflen_eq]
  · rw [h'.totalWrite_eq, h.totalWrite_eq, List.length_append, Nat.add_assoc]
  · rw [h'.contents_eq, h.contents_eq, List.append_assoc]

theorem Extends.room_eq (h : o.Extends o' bytes) : o'.room = o.room - bytes.length := by
  simp only [room, h.mBuflen_eq, h.totalWrite_eq]
  omega

/-- A write adds as much as there is room for. -/
theorem extends_putData (o : MemOutputter) (buf : List UInt8) :
    o.Extends (o.putData buf).2 (buf.take o.room) := by
  have htake : buf.take (o.putLen buf.length) = buf.take o.room := by
    rw [putLen_eq, min_comm, ← List.take_eq_take_min]
  have hlen : o.putLen buf.length = (buf.take o.room).length := by
    rw [putLen_eq, List.length_take, min_comm]
  refine ⟨rfl, rfl, ?_, ?_⟩
  · simp only [putData, hlen]
  · simp only [contents, putData, htake]
    rw [hlen, Patch.bytes_onto_append]

/-- Two writes add as much of both as there is room for. -/
theorem Extends.trans_take (h : o.Extends o' (bytes.take o.room))
    (h' : o'.Extends o'' (bytes'.take o'.room)) :
    o.Extends o'' ((bytes ++ bytes').take o.room) := by
  have hroom : o'.room = o.room - bytes.length := by
    rw [h.room_eq, List.length_take]
    omega
  rw [hroom] at h'
  rw [List.take_append]
  exact h.trans h'

/-- The four bytes of a number are one write of them. -/
theorem extends_putUInt32 (o : MemOutputter) (v : ℕ) :
    o.Extends (o.putUInt32 v) ((ZlingPut.uint32 v).bytes.take o.room) :=
  (((o.extends_putData _).trans_take (extends_putData _ _)).trans_take
    (extends_putData _ _)).trans_take (extends_putData _ _)

/-- A block that fits is added, if it is not empty. -/
theorem extends_block (hfit : bytes.length ≤ o.room) :
    o.Extends (if bytes = [] then o else (o.putData bytes).2) bytes := by
  split
  · rename_i hnil
    rw [hnil]
    exact Extends.refl o
  · have hput := o.extends_putData bytes
    rwa [List.take_of_length_le hfit] at hput

end MemOutputter

open MemOutputter

@[simp] theorem checkIoError_eq (o : MemOutputter) : checkIoError o = .ok o := by
  simp [checkIoError]

@[simp] theorem run_char (fuel v : ℕ) (o : MemOutputter) :
    (ZlingPut.char v).run fuel o = .ok (o.putChar v) := checkIoError_eq _

@[simp] theorem run_uint32 (fuel v : ℕ) (o : MemOutputter) :
    (ZlingPut.uint32 v).run fuel o = .ok (o.putUInt32 v) := checkIoError_eq _

/-- A block that fits is written, unless there is no fuel. -/
theorem run_block_of_le {block : List UInt8} {o : MemOutputter} (hfit : block.length ≤ o.room)
    (fuel : ℕ) :
    (ZlingPut.block block).run fuel o = .error .hang ∨
      (ZlingPut.block block).run fuel o = .ok (if block = [] then o else (o.putData block).2) := by
  cases fuel with
  | zero =>
    by_cases hnil : block = []
    · right
      simp [ZlingPut.run, o.drain_zero, hnil]
    · left
      simp [ZlingPut.run, o.drain_zero, hnil]
  | succ fuel =>
    right
    simp [ZlingPut.run, o.drain_of_le hfit]

/-- A call for which there is room. -/
theorem run_of_le {p : ZlingPut} {o : MemOutputter} (hfit : p.bytes.length ≤ o.room) (fuel : ℕ) :
    ∃ o', p.run (fuel + 1) o = .ok o' ∧ o.Extends o' p.bytes := by
  cases p with
  | char v =>
    have hput := o.extends_putData [UInt8.ofNat v]
    rw [← bytes_char, List.take_of_length_le hfit] at hput
    exact ⟨_, run_char _ v o, hput⟩
  | uint32 v =>
    have hput := o.extends_putUInt32 v
    rw [List.take_of_length_le hfit] at hput
    exact ⟨_, run_uint32 _ v o, hput⟩
  | block buf =>
    rw [bytes_block] at hfit ⊢
    exact ⟨_, by simp [ZlingPut.run, o.drain_of_le hfit], extends_block hfit⟩

/-- Calls for which there is room. -/
theorem foldlM_of_le (puts : List ZlingPut) {o : MemOutputter}
    (hfit : (puts.flatMap ZlingPut.bytes).length ≤ o.room) (fuel : ℕ) :
    ∃ o', puts.foldlM (ZlingPut.run (fuel + 1)) o = .ok o' ∧
      o.Extends o' (puts.flatMap ZlingPut.bytes) := by
  induction puts generalizing o with
  | nil => exact ⟨o, rfl, Extends.refl o⟩
  | cons p puts ih =>
    rw [List.flatMap_cons, List.length_append] at hfit
    obtain ⟨t, ht, hext⟩ := run_of_le (p := p) (o := o) (by omega) fuel
    obtain ⟨o', ho', hrest⟩ := ih (o := t) (by
      rw [hext.room_eq]
      omega)
    refine ⟨o', ?_, ?_⟩
    · rw [List.foldlM_cons, ht]
      exact ho'
    · rw [List.flatMap_cons]
      exact hext.trans hrest

/-- A block is not written without fuel, nor without room. -/
theorem run_block_hang {buf : List UInt8} (hne : buf ≠ []) {fuel : ℕ} {o : MemOutputter}
    (hstuck : fuel = 0 ∨ o.room < buf.length) :
    (ZlingPut.block buf).run fuel o = .error .hang := by
  have hdrain : o.drain fuel buf = none := by
    rcases hstuck with rfl | hlong
    · rw [o.drain_zero, if_neg hne]
    · exact o.drain_of_lt hlong fuel
  simp only [ZlingPut.run, hdrain]

/-- Calls up to a block for which there is no room do not end. -/
theorem foldlM_hang (puts : List ZlingPut) {buf : List UInt8} (hne : buf ≠ []) {fuel : ℕ}
    {o : MemOutputter} (hstuck : fuel = 0 ∨
      o.room < ((puts ++ [ZlingPut.block buf]).flatMap ZlingPut.bytes).length) :
    (puts ++ [ZlingPut.block buf]).foldlM (ZlingPut.run fuel) o = .error .hang := by
  induction puts generalizing o with
  | nil =>
    simp only [List.nil_append, List.flatMap_singleton, bytes_block] at hstuck
    simp only [List.nil_append, List.foldlM_cons, run_block_hang hne hstuck]
    rfl
  | cons p puts ih =>
    have hpos : 0 < buf.length := List.length_pos_iff.mpr hne
    have hrest : buf.length ≤ ((puts ++ [ZlingPut.block buf]).flatMap ZlingPut.bytes).length := by
      rw [List.flatMap_append, List.length_append]
      simp
    rw [List.cons_append, List.flatMap_cons, List.length_append] at hstuck
    rw [List.cons_append, List.foldlM_cons]
    -- a header leaves less than is needed after it, a block that does not fit ends the calls
    cases p with
    | char v =>
      have hroom := (o.extends_putData [UInt8.ofNat v]).room_eq
      rw [List.length_take, List.length_singleton] at hroom
      rw [bytes_char, List.length_singleton] at hstuck
      rw [run_char]
      refine ih (o := o.putChar v) (hstuck.imp_right fun hlong => ?_)
      show (o.putData [UInt8.ofNat v]).2.room < _
      omega
    | uint32 v =>
      have hroom := (o.extends_putUInt32 v).room_eq
      rw [List.length_take, length_bytes_uint32] at hroom
      rw [length_bytes_uint32] at hstuck
      rw [run_uint32]
      refine ih (o := o.putUInt32 v) (hstuck.imp_right fun hlong => ?_)
      omega
    | block b =>
      rw [bytes_block] at hstuck
      by_cases hfit : b.length ≤ o.room
      · have hroom := (extends_block hfit).room_eq
        cases run_block_of_le hfit fuel with
        | inl hrun =>
          rw [hrun]
          rfl
        | inr hrun =>
          rw [hrun]
          exact ih (hstuck.imp_right fun hlong => by omega)
      · have hb : b ≠ [] := by
          rintro rfl
          exact hfit (Nat.zero_le _)
        rw [run_block_hang hb (Or.inr (by omega))]
        rfl

/-- The last call but one writes a block, the last one a byte. -/
theorem encodePuts_eq {inputs : List (List ZlingBlock)} (hne : inputs ≠ [])
    (hblocks : ∀ blocks ∈ inputs, blocks ≠ []) :
    ∃ puts buf, buf ≠ [] ∧ encodePuts inputs = puts ++ [ZlingPut.block buf] ++ [.char 0] ∧
      zlingStream inputs = (puts ++ [ZlingPut.block buf]).flatMap ZlingPut.bytes ++ [0] := by
  obtain ⟨init, last, rfl⟩ := (List.eq_nil_or_concat' inputs).resolve_left hne
  have hlast : last ≠ [] := hblocks last (by simp)
  obtain ⟨bs, b, rfl⟩ := (List.eq_nil_or_concat' last).resolve_left hlast
  have hputs : encodePuts (init ++ [bs ++ [b]]) = encodePuts init ++ bs.flatMap ZlingBlock.puts ++
      [.char 1, .uint32 b.encpos, .uint32 b.rlen, .uint32 b.obuf.length] ++
      [ZlingPut.block b.obuf] ++ [.char 0] := by
    simp [encodePuts, ZlingBlock.puts]
  refine ⟨_, b.obuf, b.obuf_ne_nil, hputs, ?_⟩
  rw [zlingStream, hputs, List.flatMap_append]
  rfl

section Wrapper

variable {coder : List UInt8 → ℕ → List (List ZlingBlock)} {a : CodecArgs}

/-- A stream that fits is returned. -/
theorem lzbenchZlingCompress_of_le
    (hfit : (zlingStream (coder a.input a.param1)).length ≤ a.outsize) (fuel : ℕ) :
    ∃ out, lzbenchZlingCompress coder (fuel + 1) a =
        .ok (toInt64 (zlingStream (coder a.input a.param1)).length, out) ∧
      out.bytes a.outpos (zlingStream (coder a.input a.param1)).length =
        zlingStream (coder a.input a.param1) := by
  obtain ⟨o, ho, hext⟩ := foldlM_of_le (encodePuts (coder a.input a.param1))
    (o := init a.outbuf a.outpos a.outsize) hfit fuel
  have htotal : o.mTotalWrite = (zlingStream (coder a.input a.param1)).length :=
    hext.totalWrite_eq.trans (Nat.zero_add _)
  have hbytes := hext.contents_eq
  rw [contents, contents, htotal, hext.mBuffer_eq] at hbytes
  refine ⟨o.mem, ?_, hbytes⟩
  simp only [lzbenchZlingCompress, ho, getOutputSize, htotal]

/-- A stream of which only the last byte does not fit is returned without it. -/
theorem lzbenchZlingCompress_of_eq (hne : coder a.input a.param1 ≠ [])
    (hblocks : ∀ blocks ∈ coder a.input a.param1, blocks ≠ [])
    (hlong : (zlingStream (coder a.input a.param1)).length = a.outsize + 1) (fuel : ℕ) :
    ∃ out, lzbenchZlingCompress coder (fuel + 1) a = .ok (toInt64 a.outsize, out) ∧
      out.bytes a.outpos a.outsize = (zlingStream (coder a.input a.param1)).take a.outsize := by
  obtain ⟨puts, buf, -, heq, hstream⟩ := encodePuts_eq hne hblocks
  have hlen : ((puts ++ [ZlingPut.block buf]).flatMap ZlingPut.bytes).length = a.outsize := by
    rw [hstream, List.length_append] at hlong
    exact Nat.succ_injective hlong
  obtain ⟨o, ho, hext⟩ := foldlM_of_le (puts ++ [ZlingPut.block buf])
    (o := init a.outbuf a.outpos a.outsize) hlen.le fuel
  have hroom : o.room = 0 := by
    rw [hext.room_eq, hlen]
    exact Nat.sub_self _
  have hlast := hext.trans (hroom ▸ o.extends_putData [UInt8.ofNat 0])
  rw [List.take_zero, List.append_nil] at hlast
  have htotal : (o.putChar 0).mTotalWrite = a.outsize :=
    hlast.totalWrite_eq.trans ((Nat.zero_add _).trans hlen)
  have hbuffer : (o.putChar 0).mBuffer = a.outpos := hlast.mBuffer_eq
  have hbytes : (o.putChar 0).contents = (puts ++ [ZlingPut.block buf]).flatMap ZlingPut.bytes :=
    hlast.contents_eq
  rw [contents, hbuffer, htotal] at hbytes
  refine ⟨(o.putChar 0).mem, ?_, ?_⟩
  · simp only [lzbenchZlingCompress, heq]
    rw [List.foldlM_append, ho]
    simp only [bind, Except.bind, List.foldlM_cons, run_char, List.foldlM_nil, pure, Except.pure,
      getOutputSize, htotal]
  · rw [hstream, List.take_left' hlen]
    exact hbytes

/-- A longer one is never returned, and none is returned without fuel. -/
theorem lzbenchZlingCompress_hang (hne : coder a.input a.param1 ≠ [])
    (hblocks : ∀ blocks ∈ coder a.input a.param1, blocks ≠ []) {fuel : ℕ}
    (hstuck : fuel = 0 ∨ a.outsize + 1 < (zlingStream (coder a.input a.param1)).length) :
    lzbenchZlingCompress coder fuel a = .error .hang := by
  obtain ⟨puts, buf, hbuf, heq, hstream⟩ := encodePuts_eq hne hblocks
  rw [hstream, List.length_append] at hstuck
  have hhang := foldlM_hang puts hbuf (o := init a.outbuf a.outpos a.outsize)
    (hstuck.imp_right Nat.lt_of_succ_lt_succ)
  simp only [lzbenchZlingCompress, heq]
  rw [List.foldlM_append, hhang]
  rfl

end Wrapper

/-- What is asked of the wrapper: a stream that it returns as a success is complete. -/
def CompressesWhole (coder : List UInt8 → ℕ → List (List ZlingBlock)) (a : CodecArgs) : Prop :=
  ∀ fuel ret out, lzbenchZlingCompress coder fuel a = .ok (ret, out) → 0 < ret →
    out.bytes a.outpos ret.toNat = zlingStream (coder a.input a.param1)

section Exact

variable {coder : List UInt8 → ℕ → List (List ZlingBlock)} {a : CodecArgs}

theorem length_zlingStream_pos {inputs : List (List ZlingBlock)} (hne : inputs ≠ [])
    (hblocks : ∀ blocks ∈ inputs, blocks ≠ []) : 1 < (zlingStream inputs).length := by
  obtain ⟨puts, buf, hbuf, -, hstream⟩ := encodePuts_eq hne hblocks
  have hpos : 0 < buf.length := List.length_pos_iff.mpr hbuf
  simp only [hstream, List.flatMap_append, List.length_append, List.flatMap_singleton,
    bytes_block, List.length_singleton]
  omega

/-- A success is a complete stream unless its last byte is the only one that does not fit. -/
theorem compressesWhole_iff (hblocks : ∀ blocks ∈ coder a.input a.param1, blocks ≠ [])
    (hout : a.outsize ≤ ptrdiffMax) :
    CompressesWhole coder a ↔
      (zlingStream (coder a.input a.param1)).length ≠ a.outsize + 1 := by
  constructor
  · intro hwhole hlong
    have hne : coder a.input a.param1 ≠ [] := by
      intro hnil
      rw [hnil] at hlong
      cases hlong
    have hpos := length_zlingStream_pos hne hblocks
    obtain ⟨out, hret, -⟩ := lzbenchZlingCompress_of_eq hne hblocks hlong 0
    rw [toInt64_ofNat hout] at hret
    have hbytes := hwhole 1 _ out hret (by omega)
    have hlen := congrArg List.length hbytes
    rw [Mem.length_bytes, Int.toNat_natCast] at hlen
    omega
  · intro hlen fuel ret out hret hpos
    by_cases hne : coder a.input a.param1 = []
    · have hzero : lzbenchZlingCompress coder fuel a = .ok (0, a.outbuf) := by
        simp only [lzbenchZlingCompress, hne]
        rfl
      rw [hzero] at hret
      cases hret
      cases hpos
    · by_cases hstuck : fuel = 0 ∨ a.outsize + 1 < (zlingStream (coder a.input a.param1)).length
      · rw [lzbenchZlingCompress_hang hne hblocks hstuck] at hret
        cases hret
      · obtain ⟨n, rfl⟩ := Nat.exists_eq_succ_of_ne_zero fun h => hstuck (Or.inl h)
        have hfit : (zlingStream (coder a.input a.param1)).length ≤ a.outsize := by
          by_contra hover
          exact hstuck (Or.inr (by omega))
        obtain ⟨out', hret', hbytes⟩ := lzbenchZlingCompress_of_le hfit n
        rw [hret', toInt64_ofNat (hfit.trans hout)] at hret
        cases hret
        exact hbytes

end Exact

end Lzbench

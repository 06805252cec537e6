import Lzbench.Codec
import Lzbench.Lib.Loop
import Mathlib.Data.List.Infix

/-!
# The loop of the lzlib compressor

`lzbench_lzlib_compress` feeds an encoder and reads from it until the encoder is finished.
Nothing else ends the loop: when the output is full before the stream is complete, every
further read asks for zero bytes, gets none, and the loop goes on forever.  Sizes are handed
over as `int`, so an input or an output of `2 ^ 31` bytes stalls it as well.

The encoder is a parameter.  What it has been given and has delivered is history, an
`EncoderView`, and what the library promises is stated about that.

## Main definitions

* `Lzlib` — the functions of `lzlib.h` that are used.
* `lzlibRound`, `lzbenchLzlibCompress` — one round of the loop, and the wrapper.
* `LzlibLaws` — what the encoder does.
* `LzlibReturns` — the loop ends, with a complete stream or with the failure.
* `lzlibReturns_iff` — when it does.
-/

namespace Lzbench

open Imperative

variable {ε : Type}

/-! ## The wrapper -/

/-- `LZ_ok`. -/
def lzOk : ℤ := 0

/-- `LZ_min_dictionary_size()`. -/
def lzMinDictionarySize : ℤ := 2 ^ 12

/-- What `LZ_compress_read` leaves: the count, the bytes at its pointer, the encoder. -/
structure LzRead (ε : Type) where
  ret : ℤ
  out : Patch
  encoder : ε

/-- The encoder functions of `lzlib.h`. -/
structure Lzlib (ε : Type) where
  compressOpen : ℤ → ℤ → ℕ → Option ε
  compressErrno : ε → ℤ
  compressWriteSize : ε → ℤ
  compressWrite : ε → Mem → ℕ → ℤ → ℤ × ε
  compressFinish : ε → ε
  compressRead : ε → ℤ → LzRead ε
  compressFinished : ε → ℤ
  compressClose : ε → ℤ

/-- `struct Lzma_options`. -/
structure LzmaOptions where
  dictionarySize : ℤ
  matchLenLimit : ℤ
  deriving DecidableEq

/-- `option_mapping`. -/
def optionMapping : List LzmaOptions :=
  [⟨65535, 16⟩, ⟨2 ^ 20, 5⟩, ⟨3 * 2 ^ 19, 6⟩, ⟨2 ^ 21, 8⟩, ⟨3 * 2 ^ 20, 12⟩, ⟨2 ^ 22, 20⟩,
    ⟨2 ^ 23, 36⟩, ⟨2 ^ 24, 68⟩, ⟨3 * 2 ^ 23, 132⟩, ⟨2 ^ 25, 273⟩]

/-- `member_size`. -/
def memberSize : ℕ := 2 ^ 63 - 1

/-- `dict_size`, which is lowered to the input and raised to the minimum. -/
def lzlibDictSize (o : LzmaOptions) (insize : ℕ) : ℤ :=
  let dictSize := if toSize o.dictionarySize > insize then toInt32 insize else o.dictionarySize
  if dictSize < lzMinDictionarySize then lzMinDictionarySize else dictSize

/-- The encoder, unless it is missing or reports an error. -/
def lzlibOpen (lib : Lzlib ε) (o : LzmaOptions) (insize : ℕ) : Option ε :=
  (lib.compressOpen (lzlibDictSize o insize) o.matchLenLimit memberSize).filter
    fun e => lib.compressErrno e = lzOk

/-- The variables of the loop. -/
structure LzlibLoop (ε : Type) where
  encoder : ε
  written : ℕ
  newPos : ℕ
  out : Mem

/-- How the loop is left before its test. -/
inductive LzlibExit (ε : Type)
  | hang
  /-- `error = true; break;` -/
  | error (s : LzlibLoop ε)

section Loop

variable (lib : Lzlib ε) (a : CodecArgs)

/-- `LZ_compress_write`, while there is input left. -/
def lzlibWrite (s : LzlibLoop ε) : Except (LzlibExit ε) (LzlibLoop ε) :=
  if s.written < a.insize then
    let wr := lib.compressWrite s.encoder a.inbuf (a.inpos + s.written)
      (toInt32 (subSize a.insize s.written))
    if wr.1 < 0 then .error (.error { s with encoder := wr.2 })
    else .ok { s with encoder := wr.2, written := s.written + wr.1.toNat }
  else .ok s

/-- The first half of a round. -/
def lzlibFeed (s : LzlibLoop ε) : Except (LzlibExit ε) (LzlibLoop ε) :=
  if lib.compressWriteSize s.encoder > 0 then do
    let s ← lzlibWrite lib a s
    if s.written ≥ a.insize then pure { s with encoder := lib.compressFinish s.encoder }
    else pure s
  else .ok s

/-- The second half. -/
def lzlibDrain (s : LzlibLoop ε) : Except (LzlibExit ε) (LzlibLoop ε) :=
  let rd := lib.compressRead s.encoder (toInt32 (subSize a.outsize s.newPos))
  let out := (rd.out.shift (a.outpos + s.newPos)).onto s.out
  if rd.ret < 0 then .error (.error { s with encoder := rd.encoder, out := out })
  else .ok { s with encoder := rd.encoder, newPos := s.newPos + rd.ret.toNat, out := out }

/-- The body of the loop. -/
def lzlibRound (s : LzlibLoop ε) : Except (LzlibExit ε) (LzlibLoop ε) := do
  let s ← lzlibFeed lib a s
  lzlibDrain lib a s

/-- The loop, for at most `fuel` rounds. -/
def lzlibLoop (fuel : ℕ) (s : LzlibLoop ε) : Except (LzlibExit ε) (LzlibLoop ε) :=
  doWhile (fun _ => .hang) (lzlibRound lib a) (fun s => lib.compressFinished s.encoder ≠ 1) fuel s

/-- `lzbench_lzlib_compress`. -/
def lzbenchLzlibCompress (fuel : ℕ) : Except Stop (ℤ × Mem) :=
  match optionMapping[a.param1]? with
  | none => .error .undefined
  | some o =>
    match lzlibOpen lib o a.insize with
    | none => .ok (0, a.outbuf)
    | some encoder =>
      match lzlibLoop lib a fuel ⟨encoder, 0, 0, a.outbuf⟩ with
      | .error .hang => .error .hang
      | .error (.error s) => .ok (0, s.out)
      | .ok s => .ok (if lib.compressClose s.encoder < 0 then 0 else s.newPos, s.out)

end Loop

/-! ## The library -/

/-- What an encoder was opened with, has accepted and has delivered.  It was read eagerly if
it took no more input, or was at its end, whenever it was read. -/
structure EncoderView where
  dictSize : ℤ
  matchLenLimit : ℤ
  accepted : List UInt8
  ended : Bool
  delivered : List UInt8
  eager : Bool

/-- What the library does, for an encoder and its history.  The stream of an input is `stream`
of it, if the encoder is read eagerly. -/
structure LzlibLaws (lib : Lzlib ε) (stream : ℤ → ℤ → List UInt8 → List UInt8)
    (At : ε → EncoderView → Prop) : Prop where
  opened : ∀ d m k e, lib.compressOpen d m k = some e → lib.compressErrno e = lzOk →
    At e ⟨d, m, [], false, [], true⟩
  closed : ∀ e v, At e v → 0 ≤ lib.compressClose e
  writeSize_nonneg : ∀ e v, At e v → 0 ≤ lib.compressWriteSize e
  writeSize_ended : ∀ e v, At e v → v.ended = true → lib.compressWriteSize e = 0
  /-- Nothing is accepted for a size that is not positive. -/
  write : ∀ e v, At e v → ∀ buf pos size,
    let n := (min (lib.compressWriteSize e) size).toNat
    (lib.compressWrite e buf pos size).1 = n ∧
    lib.compressWriteSize (lib.compressWrite e buf pos size).2 = lib.compressWriteSize e - n ∧
    At (lib.compressWrite e buf pos size).2 { v with accepted := v.accepted ++ buf.bytes pos n }
  finish : ∀ e v, At e v → At (lib.compressFinish e) { v with ended := true }
  read : ∀ e v, At e v → ∀ size, ∃ bytes : List UInt8,
    (lib.compressRead e size).ret = bytes.length ∧ bytes.length ≤ size.toNat ∧
    (lib.compressRead e size).out = .ofList bytes ∧
    At (lib.compressRead e size).encoder
      { v with
        delivered := v.delivered ++ bytes
        eager := v.eager && (v.ended || lib.compressWriteSize e = 0) }
  /-- An encoder at its end has something to read until it is finished. -/
  read_ended : ∀ e v, At e v → v.ended = true → lib.compressFinished e ≠ 1 → ∀ size, 0 < size →
    0 < (lib.compressRead e size).ret
  /-- Before that, an encoder with nothing to read takes more input. -/
  read_open : ∀ e v, At e v → v.ended = false → ∀ size, 0 < size →
    (lib.compressRead e size).ret = 0 →
    0 < lib.compressWriteSize (lib.compressRead e size).encoder
  finished_ended : ∀ e v, At e v → lib.compressFinished e = 1 → v.ended = true
  finished_iff : ∀ e v, At e v → v.ended = true → v.eager = true →
    (lib.compressFinished e = 1 ↔ v.delivered = stream v.dictSize v.matchLenLimit v.accepted)
  delivered_prefix : ∀ e v, At e v → v.ended = true → v.eager = true →
    v.delivered <+: stream v.dictSize v.matchLenLimit v.accepted
  /-- Before the end of the input something of the stream is missing. -/
  delivered_lt : ∀ e v, At e v → v.ended = false → v.eager = true → ∀ rest,
    v.delivered.length < (stream v.dictSize v.matchLenLimit (v.accepted ++ rest)).length

/-! ## What is asked of the wrapper -/

/-- The stream of the whole input. -/
def lzlibStream (stream : ℤ → ℤ → List UInt8 → List UInt8) (o : LzmaOptions) (a : CodecArgs) :
    List UInt8 :=
  stream (lzlibDictSize o a.insize) o.matchLenLimit a.input

/-- The loop ends, and the result is the length of the complete stream, which is stored, or 0
when there is no encoder or the stream does not fit. -/
def LzlibReturns (lib : Lzlib ε) (stream : ℤ → ℤ → List UInt8 → List UInt8) (o : LzmaOptions)
    (a : CodecArgs) : Prop :=
  ∃ ret out enough, (∀ fuel, enough < fuel → lzbenchLzlibCompress lib a fuel = .ok (ret, out)) ∧
    (ret = (lzlibStream stream o a).length ∧ (lzlibStream stream o a).length ≤ a.outsize ∧
        out.bytes a.outpos (lzlibStream stream o a).length = lzlibStream stream o a ∨
      ret = 0 ∧ (lzlibOpen lib o a.insize = none ∨
        a.outsize < (lzlibStream stream o a).length))

/-! ## The invariant -/

/-- The room that the reads come to use: `outsize` as an `int`. -/
def lzlibRoom (a : CodecArgs) : ℕ := (toInt32 a.outsize).toNat

/-- After some rounds: the bytes written are a part of the input, those read are in the output,
and the input is ended only when all of it is written.  A remaining input of `2 ^ 31` bytes
stays one. -/
structure LzlibInv (At : ε → EncoderView → Prop) (a : CodecArgs) (o : LzmaOptions)
    (s : LzlibLoop ε) (v : EncoderView) : Prop where
  view : At s.encoder v
  dictSize_eq : v.dictSize = lzlibDictSize o a.insize
  matchLenLimit_eq : v.matchLenLimit = o.matchLenLimit
  accepted_eq : v.accepted = a.inbuf.bytes a.inpos s.written
  written_le : s.written ≤ a.insize
  ended : v.ended = true → s.written = a.insize
  newPos_eq : s.newPos = v.delivered.length
  newPos_le : s.newPos ≤ lzlibRoom a
  out_eq : s.out.bytes a.outpos s.newPos = v.delivered
  eager : a.insize < 2 ^ 31 → v.eager = true
  stalled : 2 ^ 31 ≤ a.insize → s.written + 2 ^ 31 ≤ a.insize

section Round

variable {lib : Lzlib ε} {stream : ℤ → ℤ → List UInt8 → List UInt8} {At : ε → EncoderView → Prop}
  {a : CodecArgs} {o : LzmaOptions} {s : LzlibLoop ε} {v : EncoderView}

theorem lzlibRoom_le (a : CodecArgs) : lzlibRoom a ≤ a.outsize := by
  have hle := (toInt32_ofNat_le a.outsize).1
  simp only [lzlibRoom]
  omega

theorem lzlibInv_init (hlib : LzlibLaws lib stream At) {encoder : ε}
    (hopen : lzlibOpen lib o a.insize = some encoder) :
    LzlibInv At a o ⟨encoder, 0, 0, a.outbuf⟩
      ⟨lzlibDictSize o a.insize, o.matchLenLimit, [], false, [], true⟩ := by
  simp only [lzlibOpen, Option.filter_eq_some_iff, decide_eq_true_eq] at hopen
  exact
    { view := hlib.opened _ _ _ _ hopen.1 hopen.2
      dictSize_eq := rfl
      matchLenLimit_eq := rfl
      accepted_eq := rfl
      written_le := Nat.zero_le _
      ended := fun h => nomatch h
      newPos_eq := rfl
      newPos_le := Nat.zero_le _
      out_eq := rfl
      eager := fun _ => rfl
      stalled := fun h => (Nat.zero_add _).trans_le h }

/-- What a round does first: the encoder takes as much as it can, and all of it once the input
is ended. -/
structure Feeds (lib : Lzlib ε) (At : ε → EncoderView → Prop) (a : CodecArgs) (o : LzmaOptions)
    (s s' : LzlibLoop ε) (v' : EncoderView) : Prop where
  inv : LzlibInv At a o s' v'
  newPos_eq : s'.newPos = s.newPos
  written_le : s.written ≤ s'.written
  full : a.insize < 2 ^ 31 → v'.ended = true ∨ lib.compressWriteSize s'.encoder = 0
  same : lib.compressWriteSize s.encoder = 0 → s' = s
  progress : a.insize < 2 ^ 31 → 0 < lib.compressWriteSize s.encoder →
    s.written < s'.written ∨ v'.ended = true

/-- A write is made with input left, and is accepted as far as the encoder has room. -/
theorem lzlibWrite_inv (hlib : LzlibLaws lib stream At) (hin : a.insize < 2 ^ 64)
    (h : LzlibInv At a o s v) (hleft : s.written < a.insize) (hopen : v.ended = false) :
    ∃ s' v', lzlibWrite lib a s = .ok s' ∧ LzlibInv At a o s' v' ∧ v'.ended = false ∧
      s'.newPos = s.newPos ∧ s.written ≤ s'.written ∧
      (a.insize < 2 ^ 31 → 0 < lib.compressWriteSize s.encoder → s.written < s'.written) ∧
      (a.insize < 2 ^ 31 → s'.written < a.insize → lib.compressWriteSize s'.encoder = 0) := by
  obtain ⟨hret, hfree, hview⟩ := hlib.write s.encoder v h.view a.inbuf (a.inpos + s.written)
    (toInt32 (subSize a.insize s.written))
  have hnonneg := hlib.writeSize_nonneg s.encoder v h.view
  have hwritten := h.written_le
  have hsize : toInt32 (subSize a.insize s.written) = toInt32 (a.insize - s.written : ℕ) := by
    rw [subSize_of_le hwritten hin]
  have hsmall : a.insize < 2 ^ 31 →
      toInt32 (a.insize - s.written : ℕ) = (a.insize - s.written : ℕ) :=
    fun hlt => toInt32_ofNat (by omega)
  have hlarge := fun hge => @toNat_toInt32_add_le (a.insize - s.written) hge
  have hbound := (toInt32_ofNat_le (a.insize - s.written)).1
  rw [hsize] at hret hfree hview
  generalize hsz : toInt32 (a.insize - s.written : ℕ) = size at *
  generalize hn : (min (lib.compressWriteSize s.encoder) size).toNat = n at *
  refine ⟨⟨(lib.compressWrite s.encoder a.inbuf (a.inpos + s.written) size).2, s.written + n,
    s.newPos, s.out⟩, _, ?_, ⟨hview, h.dictSize_eq, h.matchLenLimit_eq, ?_, ?_, ?_, h.newPos_eq,
    h.newPos_le, h.out_eq, h.eager, ?_⟩, hopen, rfl, ?_, ?_, ?_⟩
  · simp only [lzlibWrite, if_pos hleft, hsize, hret]
    rw [if_neg (by omega)]
    rfl
  · simp only [h.accepted_eq, Mem.bytes_add]
  · show s.written + n ≤ a.insize
    omega
  · intro hend
    rw [hopen] at hend
    cases hend
  · intro hge
    have hstall := h.stalled hge
    have hlarge := hlarge (by omega)
    show s.written + n + 2 ^ 31 ≤ a.insize
    omega
  · exact Nat.le_add_right _ _
  · intro hlt hpos
    have hsmall := hsmall hlt
    show s.written < s.written + n
    omega
  · intro hlt hmore
    have hsmall := hsmall hlt
    rw [hfree]
    simp only at hmore
    omega

/-- The end of the input is told once all of it is written. -/
theorem LzlibInv.finish (hlib : LzlibLaws lib stream At) (h : LzlibInv At a o s v)
    (hall : s.written = a.insize) :
    LzlibInv At a o { s with encoder := lib.compressFinish s.encoder } { v with ended := true } :=
  { h with
    view := hlib.finish s.encoder v h.view
    ended := fun _ => hall }

/-- The first half of a round. -/
theorem lzlibFeed_feeds (hlib : LzlibLaws lib stream At) (hin : a.insize < 2 ^ 64)
    (h : LzlibInv At a o s v) :
    ∃ s' v', lzlibFeed lib a s = .ok s' ∧ Feeds lib At a o s s' v' := by
  by_cases hpos : lib.compressWriteSize s.encoder > 0
  · have hopen : v.ended = false := by
      by_contra hended
      have hzero := hlib.writeSize_ended s.encoder v h.view (Bool.not_eq_false _ ▸ hended)
      omega
    by_cases hleft : s.written < a.insize
    · obtain ⟨t, u, ht, hinv, hu, hpos', hle, hmore, hfull⟩ := lzlibWrite_inv hlib hin h hleft hopen
      by_cases hall : t.written ≥ a.insize
      · have hwritten : t.written = a.insize := Nat.le_antisymm hinv.written_le hall
        refine ⟨{ t with encoder := lib.compressFinish t.encoder }, _, ?_,
          hinv.finish hlib hwritten, hpos', hle, fun _ => Or.inl rfl, fun hzero => ?_,
          fun _ _ => Or.inr rfl⟩
        · simp only [lzlibFeed, if_pos hpos, ht, bind, Except.bind, if_pos hall]
          rfl
        · omega
      · refine ⟨t, u, ?_, hinv, hpos', hle, fun hlt => Or.inr (hfull hlt (by omega)),
          fun hzero => ?_, fun hlt hpos => Or.inl (hmore hlt hpos)⟩
        · simp only [lzlibFeed, if_pos hpos, ht, bind, Except.bind, if_neg hall]
          rfl
        · omega
    · have hall : s.written = a.insize := Nat.le_antisymm h.written_le (by omega)
      refine ⟨{ s with encoder := lib.compressFinish s.encoder }, _, ?_, h.finish hlib hall,
        rfl, le_rfl, fun _ => Or.inl rfl, fun hzero => ?_, fun _ _ => Or.inr rfl⟩
      · simp only [lzlibFeed, if_pos hpos, lzlibWrite, if_neg hleft, bind, Except.bind,
          if_pos hall.ge]
        rfl
      · omega
  · have hzero : lib.compressWriteSize s.encoder = 0 :=
      le_antisymm (by omega) (hlib.writeSize_nonneg s.encoder v h.view)
    refine ⟨s, v, ?_, h, rfl, le_rfl, fun _ => Or.inr hzero, fun _ => rfl, fun _ hpos' => ?_⟩
    · simp only [lzlibFeed, if_neg hpos]
    · exact absurd hpos' hpos

/-- What it does then: what is read is appended to the output, and something is read as long as
there is room for it, unless an open encoder takes more input instead. -/
structure Drains (lib : Lzlib ε) (At : ε → EncoderView → Prop) (a : CodecArgs) (o : LzmaOptions)
    (s : LzlibLoop ε) (v : EncoderView) (s' : LzlibLoop ε) : Prop where
  inv : ∃ v', LzlibInv At a o s' v'
  written_eq : s'.written = s.written
  newPos_le : s.newPos ≤ s'.newPos
  ended : v.ended = true → lib.compressFinished s.encoder ≠ 1 → s.newPos < lzlibRoom a →
    s.newPos < s'.newPos
  opened : v.ended = false → s.newPos < lzlibRoom a →
    s.newPos < s'.newPos ∨ 0 < lib.compressWriteSize s'.encoder

/-- The second half of a round. -/
theorem lzlibDrain_drains (hlib : LzlibLaws lib stream At) (hout : a.outsize < 2 ^ 64)
    (h : LzlibInv At a o s v)
    (hfull : a.insize < 2 ^ 31 → v.ended = true ∨ lib.compressWriteSize s.encoder = 0) :
    ∃ s', lzlibDrain lib a s = .ok s' ∧ Drains lib At a o s v s' := by
  have hle : s.newPos ≤ a.outsize := h.newPos_le.trans (lzlibRoom_le a)
  have hroom := h.newPos_le
  have hsize : toInt32 (subSize a.outsize s.newPos) = toInt32 a.outsize - s.newPos := by
    rw [subSize_of_le hle hout]
    refine toInt32_sub hle ?_
    simp only [lzlibRoom] at hroom
    omega
  obtain ⟨bytes, hret, hlen, hbytes, hview⟩ := hlib.read s.encoder v h.view
    (toInt32 (subSize a.outsize s.newPos))
  have hended := hlib.read_ended s.encoder v h.view
  have hopen := hlib.read_open s.encoder v h.view
  rw [hsize] at hret hlen hbytes hview
  refine ⟨⟨(lib.compressRead s.encoder (toInt32 a.outsize - s.newPos)).encoder, s.written,
    s.newPos + bytes.length, ((Patch.ofList bytes).shift (a.outpos + s.newPos)).onto s.out⟩, ?_,
    ⟨_, hview, h.dictSize_eq, h.matchLenLimit_eq, h.accepted_eq, h.written_le, h.ended, ?_, ?_, ?_,
      ?_, h.stalled⟩, rfl, Nat.le_add_right _ _, ?_, ?_⟩
  · simp only [lzlibDrain, hsize, hret, hbytes]
    rw [if_neg (by omega)]
    rfl
  · simp only [h.newPos_eq, List.length_append]
  · show s.newPos + bytes.length ≤ lzlibRoom a
    simp only [lzlibRoom] at hroom ⊢
    omega
  · show (((Patch.ofList bytes).shift (a.outpos + s.newPos)).onto s.out).bytes a.outpos
      (s.newPos + bytes.length) = v.delivered ++ bytes
    rw [Patch.bytes_onto_append, h.out_eq]
  · intro hlt
    simp only [h.eager hlt, Bool.true_and, Bool.or_eq_true, decide_eq_true_eq]
    exact hfull hlt
  · intro hv hfin hlt
    have hsome := hended hv hfin (toInt32 a.outsize - s.newPos) (by
      simp only [lzlibRoom] at hlt
      omega)
    show s.newPos < s.newPos + bytes.length
    omega
  · intro hv hlt
    by_cases hnone : bytes.length = 0
    · refine Or.inr (hopen hv _ ?_ (by omega))
      simp only [lzlibRoom] at hlt
      omega
    · left
      show s.newPos < s.newPos + bytes.length
      omega

/-- A round is never left early. -/
theorem lzlibRound_ok (hlib : LzlibLaws lib stream At) (hin : a.insize < 2 ^ 64)
    (hout : a.outsize < 2 ^ 64) (h : LzlibInv At a o s v) :
    ∃ t u s', lzlibRound lib a s = .ok s' ∧ Feeds lib At a o s t u ∧ Drains lib At a o t u s' := by
  obtain ⟨t, u, ht, hfeeds⟩ := lzlibFeed_feeds hlib hin h
  obtain ⟨s', hs', hdrains⟩ := lzlibDrain_drains hlib hout hfeeds.inv hfeeds.full
  refine ⟨t, u, s', ?_, hfeeds, hdrains⟩
  simp only [lzlibRound, ht, bind, Except.bind]
  exact hs'

/-- An unfinished encoder has more of the stream to deliver. -/
theorem LzlibInv.newPos_lt (hlib : LzlibLaws lib stream At) (h : LzlibInv At a o s v)
    (hlt : a.insize < 2 ^ 31) (hfin : lib.compressFinished s.encoder ≠ 1) :
    s.newPos < (lzlibStream stream o a).length := by
  have hinput : v.accepted ++ a.inbuf.bytes (a.inpos + s.written) (a.insize - s.written) =
      a.input := by
    rw [h.accepted_eq, ← Mem.bytes_add, Nat.add_sub_cancel' h.written_le, CodecArgs.input]
  have hstream : lzlibStream stream o a = stream v.dictSize v.matchLenLimit a.input := by
    rw [lzlibStream, h.dictSize_eq, h.matchLenLimit_eq]
  rw [hstream, h.newPos_eq]
  by_cases hended : v.ended = true
  · have hall : v.accepted = a.input := by
      rw [h.accepted_eq, h.ended hended, CodecArgs.input]
    have hpre := hlib.delivered_prefix _ v h.view hended (h.eager hlt)
    have hiff := hlib.finished_iff _ v h.view hended (h.eager hlt)
    rw [hall] at hpre hiff
    refine lt_of_le_of_ne hpre.length_le fun hlen => hfin (hiff.mpr ?_)
    exact hpre.eq_of_length hlen
  · rw [← hinput]
    exact hlib.delivered_lt _ v h.view (Bool.eq_false_iff.mpr hended) (h.eager hlt) _

/-- A finished encoder has delivered the stream of the whole input. -/
theorem LzlibInv.complete (hlib : LzlibLaws lib stream At) (h : LzlibInv At a o s v)
    (hlt : a.insize < 2 ^ 31) (hfin : lib.compressFinished s.encoder = 1) :
    v.delivered = lzlibStream stream o a := by
  have hended := hlib.finished_ended _ v h.view hfin
  have hstream := (hlib.finished_iff _ v h.view hended (h.eager hlt)).mp hfin
  rw [hstream, lzlibStream, h.dictSize_eq, h.matchLenLimit_eq, h.accepted_eq, h.ended hended,
    CodecArgs.input]

/-! ## The loop -/

/-- What is left to be written and read, and whether the encoder has to make room first. -/
def lzlibMeasure (lib : Lzlib ε) (a : CodecArgs) (s : LzlibLoop ε) : ℕ :=
  2 * (a.insize - s.written) + 2 * (lzlibRoom a - s.newPos) +
    if lib.compressWriteSize s.encoder = 0 then 1 else 0

/-- A round that is not the last makes progress, if the stream fits. -/
theorem lzlibRound_measure (hlib : LzlibLaws lib stream At) (hin : a.insize < 2 ^ 31)
    (hout : a.outsize < 2 ^ 64) (hfit : (lzlibStream stream o a).length ≤ lzlibRoom a)
    (h : LzlibInv At a o s v) {s' : LzlibLoop ε} (hs' : lzlibRound lib a s = .ok s')
    (hfin : lib.compressFinished s'.encoder ≠ 1) :
    lzlibMeasure lib a s' < lzlibMeasure lib a s := by
  obtain ⟨t, u, s'', hs'', hfeeds, hdrains⟩ := lzlibRound_ok hlib (by omega) hout h
  obtain rfl : s'' = s' := Except.ok.inj (hs''.symm.trans hs')
  obtain ⟨v', h'⟩ := hdrains.inv
  have hmissing : s''.newPos < (lzlibStream stream o a).length := h'.newPos_lt hlib hin hfin
  have hread := hdrains.newPos_le
  have hroom : t.newPos < lzlibRoom a := by omega
  have hunfinished : lib.compressFinished t.encoder ≠ 1 := by
    intro hdone
    have hall := hfeeds.inv.complete hlib hin hdone
    rw [← hall, ← hfeeds.inv.newPos_eq] at hmissing
    omega
  have hsame := hfeeds.newPos_eq
  have hwritten := hdrains.written_eq
  have hmore := hfeeds.written_le
  have hle := hfeeds.inv.written_le
  have hsize := hlib.writeSize_nonneg s.encoder v h.view
  simp only [lzlibMeasure]
  by_cases hpos : 0 < lib.compressWriteSize s.encoder
  · -- the encoder takes input, or is at its end and delivers
    rw [if_neg (by omega : ¬ lib.compressWriteSize s.encoder = 0)]
    cases hfeeds.progress hin hpos with
    | inl hlt =>
      split <;> omega
    | inr hended =>
      have hlt := hdrains.ended hended hunfinished hroom
      split <;> omega
  · -- it delivers, or takes input afterwards
    have hzero : lib.compressWriteSize s.encoder = 0 := by omega
    rw [if_pos hzero]
    by_cases hended : u.ended = true
    · have hlt := hdrains.ended hended hunfinished hroom
      split <;> omega
    · cases hdrains.opened (Bool.eq_false_iff.mpr hended) hroom with
      | inl hlt =>
        split <;> omega
      | inr hfree =>
        rw [if_neg (by omega)]
        omega

/-- A stream that fits is read to its end. -/
theorem lzlibLoop_total (hlib : LzlibLaws lib stream At) (hin : a.insize < 2 ^ 31)
    (hout : a.outsize < 2 ^ 64) (hfit : (lzlibStream stream o a).length ≤ lzlibRoom a)
    (h : LzlibInv At a o s v) :
    ∃ s' v', LzlibInv At a o s' v' ∧ lib.compressFinished s'.encoder = 1 ∧
      ∀ fuel, lzlibMeasure lib a s < fuel → lzlibLoop lib a fuel s = .ok s' := by
  have htotal := @total_doWhile _ _ (fun _ => LzlibExit.hang) (lzlibRound lib a)
    (fun s => lib.compressFinished s.encoder ≠ 1)
    (fun s => ∃ v, LzlibInv At a o s v)
    (fun s => (∃ v, LzlibInv At a o s v) ∧ lib.compressFinished s.encoder = 1)
    (fun _ => False) (lzlibMeasure lib a) ?_ s ⟨v, h⟩
  · obtain ⟨r, hr, hrun⟩ := htotal
    cases r with
    | error e => exact ((ends_error _ _ e).mp hr).elim
    | ok s' =>
      obtain ⟨⟨v', h'⟩, hfin⟩ := (ends_ok _ _ s').mp hr
      exact ⟨s', v', h', hfin, hrun⟩
  · rintro s ⟨v, h⟩
    obtain ⟨t, u, s', hs', -, hdrains⟩ := lzlibRound_ok hlib (by omega) hout h
    rw [hs', ends_ok]
    by_cases hfin : lib.compressFinished s'.encoder = 1
    · rw [if_neg (by simpa using hfin)]
      exact ⟨hdrains.inv, hfin⟩
    · rw [if_pos (by simpa using hfin)]
      exact ⟨hdrains.inv, lzlibRound_measure hlib hin hout hfit h hs' hfin⟩

/-- A stream that does not fit, or whose input is too long for an `int`, is never complete. -/
theorem lzlibLoop_hangs (hlib : LzlibLaws lib stream At) (hin : a.insize < 2 ^ 64)
    (hout : a.outsize < 2 ^ 64)
    (hmiss : 2 ^ 31 ≤ a.insize ∨ lzlibRoom a < (lzlibStream stream o a).length)
    (h : LzlibInv At a o s v) (fuel : ℕ) : lzlibLoop lib a fuel s = .error .hang := by
  have hstuck := @doWhile_stuck _ _ (fun _ => LzlibExit.hang) (lzlibRound lib a)
    (fun s => lib.compressFinished s.encoder ≠ 1)
    (fun s => ∃ v, LzlibInv At a o s v) ?_ fuel s ⟨v, h⟩
  · obtain ⟨_, _, hrun⟩ := hstuck
    exact hrun
  · rintro s ⟨v, h⟩
    obtain ⟨t, u, s', hs', -, hdrains⟩ := lzlibRound_ok hlib hin hout h
    obtain ⟨v', h'⟩ := hdrains.inv
    refine ⟨s', hs', ?_, v', h'⟩
    rw [decide_eq_true_eq]
    intro hfin
    by_cases hlarge : 2 ^ 31 ≤ a.insize
    · have hended := h'.ended (hlib.finished_ended _ v' h'.view hfin)
      have hstall := h'.stalled hlarge
      omega
    · have hall := h'.complete hlib (by omega) hfin
      have hlen := h'.newPos_eq
      have hle := h'.newPos_le
      rw [hall] at hlen
      omega

end Round

/-! ## When the loop ends -/

/-- A stream that does not fit, or whose input is too long for an `int`, is not returned. -/
theorem not_lzlibReturns {lib : Lzlib ε} {stream : ℤ → ℤ → List UInt8 → List UInt8}
    {At : ε → EncoderView → Prop} (hlib : LzlibLaws lib stream At) {a : CodecArgs}
    {o : LzmaOptions} (ho : optionMapping[a.param1]? = some o) (hin : a.insize < 2 ^ 64)
    (hout : a.outsize < 2 ^ 64) {encoder : ε} (hopen : lzlibOpen lib o a.insize = some encoder)
    (hmiss : 2 ^ 31 ≤ a.insize ∨ lzlibRoom a < (lzlibStream stream o a).length) :
    ¬ LzlibReturns lib stream o a := by
  rintro ⟨ret, out, enough, hrun, -⟩
  have hhang := lzlibLoop_hangs hlib hin hout hmiss (lzlibInv_init hlib hopen) (enough + 1)
  have hret := hrun (enough + 1) (Nat.lt_succ_self enough)
  simp only [lzbenchLzlibCompress, ho, hopen, hhang] at hret
  cases hret

/-- The wrapper does what is asked of it exactly if it has no encoder, or the sizes are right for
an `int` and the stream fits. -/
theorem lzlibReturns_iff {lib : Lzlib ε} {stream : ℤ → ℤ → List UInt8 → List UInt8}
    {At : ε → EncoderView → Prop} (hlib : LzlibLaws lib stream At) (a : CodecArgs)
    (hlevel : a.param1 ≤ 9) (hin : a.insize < 2 ^ 64) (hout : a.outsize < 2 ^ 64) :
    ∃ o, optionMapping[a.param1]? = some o ∧
      (LzlibReturns lib stream o a ↔ lzlibOpen lib o a.insize = none ∨
        a.insize < 2 ^ 31 ∧ ((lzlibStream stream o a).length : ℤ) ≤ max 0 (toInt32 a.outsize)) := by
  have hindex : a.param1 < optionMapping.length := Nat.lt_succ_of_le hlevel
  obtain ⟨o, ho⟩ : ∃ o, optionMapping[a.param1]? = some o :=
    ⟨_, List.getElem?_eq_getElem hindex⟩
  refine ⟨o, ho, ?_⟩
  have hroom : ((lzlibStream stream o a).length : ℤ) ≤ max 0 (toInt32 a.outsize) ↔
      (lzlibStream stream o a).length ≤ lzlibRoom a := by
    simp only [lzlibRoom]
    omega
  rw [hroom]
  cases hopen : lzlibOpen lib o a.insize with
  | none =>
    refine iff_of_true ⟨0, a.outbuf, 0, fun fuel _ => ?_, Or.inr ⟨rfl, Or.inl hopen⟩⟩ (Or.inl rfl)
    simp only [lzbenchLzlibCompress, ho, hopen]
  | some encoder =>
    constructor
    · intro hreturns
      by_contra hcond
      refine not_lzlibReturns hlib ho hin hout hopen ?_ hreturns
      by_contra hnone
      exact hcond (Or.inr (by omega))
    · rintro (hnone | ⟨hlt, hfit⟩)
      · cases hnone
      · obtain ⟨s, v, hinv, hfin, hrun⟩ := lzlibLoop_total hlib hlt hout hfit
          (lzlibInv_init hlib hopen)
        have hall := hinv.complete hlib hlt hfin
        have hlen := hinv.newPos_eq
        have hbytes := hinv.out_eq
        rw [hall] at hlen hbytes
        refine ⟨s.newPos, s.out, lzlibMeasure lib a ⟨encoder, 0, 0, a.outbuf⟩,
          fun fuel hfuel => ?_, Or.inl ⟨by rw [hlen], hfit.trans (lzlibRoom_le a), hlen ▸ hbytes⟩⟩
        have hclose := hlib.closed _ v hinv.view
        simp only [lzbenchLzlibCompress, ho, hopen, hrun fuel hfuel]
        rw [if_neg (by omega)]

/-! ## An encoder of which one stream is known

It keeps its input until the end and delivers the stream then.  The stream of the one byte `a`
is that of the library; any other input is stored. -/

/-- The member for the one byte `a`. -/
def oneByteStream : List UInt8 :=
  [76, 90, 73, 80, 1, 12, 0, 48, 193, 251, 255, 255, 255, 224, 0, 0, 0, 67, 190, 183, 232, 1, 0, 0,
    0, 0, 0, 0, 0, 37, 0, 0, 0, 0, 0, 0, 0]

def knownStream (_ _ : ℤ) (input : List UInt8) : List UInt8 :=
  if input = [97] then oneByteStream else input ++ [0]

/-- The size of the buffer. -/
def knownBuffer : ℕ := 65536

structure KnownEncoder where
  dictSize : ℤ
  matchLenLimit : ℤ
  accepted : List UInt8
  free : ℕ
  ended : Bool
  taken : ℕ

namespace KnownEncoder

def stream (e : KnownEncoder) : List UInt8 := knownStream e.dictSize e.matchLenLimit e.accepted

def writeSize (e : KnownEncoder) : ℤ := if e.ended then 0 else e.free

def read (e : KnownEncoder) (size : ℤ) : LzRead KnownEncoder :=
  if e.ended then
    let bytes := (e.stream.drop e.taken).take size.toNat
    ⟨bytes.length, .ofList bytes, { e with taken := e.taken + bytes.length }⟩
  else ⟨0, .ofList [], { e with free := knownBuffer }⟩

/-- What the encoder has done; how it was read is not kept. -/
def view (e : KnownEncoder) (eager : Bool) : EncoderView :=
  ⟨e.dictSize, e.matchLenLimit, e.accepted, e.ended, e.stream.take e.taken, eager⟩

/-- Nothing is taken before the end, and no more than the stream after it. -/
def At (e : KnownEncoder) (v : EncoderView) : Prop :=
  (∃ eager, v = e.view eager) ∧ e.taken ≤ e.stream.length ∧ (e.ended = false → e.taken = 0)

end KnownEncoder

def knownLib : Lzlib KnownEncoder where
  compressOpen d m _ := some ⟨d, m, [], knownBuffer, false, 0⟩
  compressErrno _ := lzOk
  compressWriteSize := KnownEncoder.writeSize
  compressWrite e buf pos size :=
    let n := (min e.writeSize size).toNat
    (n, { e with accepted := e.accepted ++ buf.bytes pos n, free := e.free - n })
  compressFinish e := { e with ended := true }
  compressRead := KnownEncoder.read
  compressFinished e := if e.ended ∧ e.taken = e.stream.length then 1 else 0
  compressClose _ := 0

theorem length_knownStream_pos (d m : ℤ) (input : List UInt8) :
    0 < (knownStream d m input).length := by
  rw [knownStream]
  split
  · decide
  · simp

namespace KnownEncoder

variable {e : KnownEncoder} {v : EncoderView}

/-- Before the end a write is taken up to the room in the buffer. -/
theorem At.write (h : e.At v) (buf : Mem) (pos : ℕ) (size : ℤ) :
    let n := (min e.writeSize size).toNat
    (knownLib.compressWrite e buf pos size).2.writeSize = e.writeSize - n ∧
    (knownLib.compressWrite e buf pos size).2.At
      { v with accepted := v.accepted ++ buf.bytes pos n } := by
  obtain ⟨⟨eager, rfl⟩, hle, hopen⟩ := h
  cases hended : e.ended with
  | true =>
    have hnone : (min e.writeSize size).toNat = 0 := by
      simp only [writeSize, hended, if_true]
      omega
    have hsame : (knownLib.compressWrite e buf pos size).2 = e := by
      simp [knownLib, hnone, Mem.bytes]
    rw [hsame, hnone]
    exact ⟨by simp, ⟨eager, by simp [view, Mem.bytes]⟩, hle, hopen⟩
  | false =>
    have htaken : e.taken = 0 := hopen hended
    refine ⟨?_, ⟨eager, ?_⟩, ?_, fun _ => htaken⟩
    · simp only [knownLib, writeSize, hended, Bool.false_eq_true, if_false]
      omega
    · simp [view, knownLib, htaken]
    · exact htaken.trans_le (Nat.zero_le _)

/-- A read at the end takes the next bytes of the stream. -/
theorem At.read (h : e.At v) (size : ℤ) :
    ∃ bytes : List UInt8,
      (e.read size).ret = bytes.length ∧ bytes.length ≤ size.toNat ∧
      (e.read size).out = .ofList bytes ∧
      (e.read size).encoder.At
        { v with
          delivered := v.delivered ++ bytes
          eager := v.eager && (v.ended || e.writeSize = 0) } := by
  obtain ⟨⟨eager, rfl⟩, hle, hopen⟩ := h
  cases hended : e.ended with
  | true =>
    have hread : e.read size = ⟨((e.stream.drop e.taken).take size.toNat).length,
        .ofList ((e.stream.drop e.taken).take size.toNat),
        { e with taken := e.taken + ((e.stream.drop e.taken).take size.toNat).length }⟩ :=
      if_pos hended
    rw [hread]
    refine ⟨_, rfl, List.length_take_le _ _, rfl, ⟨eager, ?_⟩, ?_, ?_⟩
    · have htake : e.stream.take (e.taken + ((e.stream.drop e.taken).take size.toNat).length) =
          e.stream.take e.taken ++ (e.stream.drop e.taken).take size.toNat := by
        rw [List.take_add, List.length_take, ← List.take_eq_take_min]
      simp only [view, hended, Bool.true_or, Bool.and_true, ← htake]
      rfl
    · have hbytes : ((e.stream.drop e.taken).take size.toNat).length ≤
          e.stream.length - e.taken := by
        rw [← List.length_drop]
        exact List.length_take_le' _ _
      show e.taken + ((e.stream.drop e.taken).take size.toNat).length ≤ e.stream.length
      omega
    · intro hopen
      rw [hended] at hopen
      cases hopen
  | false =>
    have hread : e.read size = ⟨0, .ofList [], { e with free := knownBuffer }⟩ :=
      if_neg (Bool.eq_false_iff.mp hended)
    rw [hread]
    exact ⟨[], rfl, Nat.zero_le _, rfl, ⟨_, by simp [view, stream]; rfl⟩, hle, hopen⟩

end KnownEncoder

theorem knownLaws : LzlibLaws knownLib knownStream KnownEncoder.At where
  opened := by
    intro d m k e hopen _
    obtain rfl := Option.some.inj hopen
    exact ⟨⟨true, rfl⟩, Nat.zero_le _, fun _ => rfl⟩
  closed := fun _ _ _ => le_rfl
  writeSize_nonneg := by
    intro e v _
    simp only [knownLib, KnownEncoder.writeSize]
    split <;> omega
  writeSize_ended := by
    rintro e v ⟨⟨eager, rfl⟩, -⟩ hended
    exact if_pos hended
  write := fun e v h buf pos size => ⟨rfl, h.write buf pos size⟩
  finish := by
    rintro e v ⟨⟨eager, rfl⟩, hle, -⟩
    exact ⟨⟨eager, rfl⟩, hle, fun h => nomatch h⟩
  read := fun e v h size => h.read size
  read_ended := by
    rintro e v ⟨⟨eager, rfl⟩, hle, -⟩ hended hfin size hsize
    have hended : e.ended = true := hended
    have hmore : e.taken ≠ e.stream.length := fun hall => hfin (if_pos ⟨hended, hall⟩)
    simp only [knownLib, KnownEncoder.read, hended, if_true, List.length_take, List.length_drop]
    omega
  read_open := by
    rintro e v ⟨⟨eager, rfl⟩, -⟩ hopen size _ _
    have hread : knownLib.compressRead e size = ⟨0, .ofList [], { e with free := knownBuffer }⟩ :=
      if_neg (Bool.eq_false_iff.mp hopen)
    have hsize : ({ e with free := knownBuffer } : KnownEncoder).writeSize = knownBuffer :=
      if_neg (Bool.eq_false_iff.mp hopen)
    have hfree : (0 : ℤ) < knownBuffer := by decide
    rw [hread]
    exact hfree.trans_eq hsize.symm
  finished_ended := by
    rintro e v ⟨⟨eager, rfl⟩, -⟩ hfin
    simp only [knownLib] at hfin
    split at hfin
    · rename_i hall
      exact hall.1
    · cases hfin
  finished_iff := by
    rintro e v ⟨⟨eager, rfl⟩, hle, -⟩ hended -
    have hended : e.ended = true := hended
    have htake : e.stream.take e.taken = e.stream ↔ e.taken = e.stream.length := by
      rw [List.take_eq_self_iff]
      exact ⟨fun h => le_antisymm hle h, fun h => h.ge⟩
    simp only [knownLib, hended, true_and, KnownEncoder.view]
    rw [← KnownEncoder.stream, htake]
    simp
  delivered_prefix := by
    rintro e v ⟨⟨eager, rfl⟩, -⟩ - -
    exact List.take_prefix _ _
  delivered_lt := by
    rintro e v ⟨⟨eager, rfl⟩, -, hopen⟩ hended - rest
    have hnone : e.taken = 0 := hopen hended
    simp only [KnownEncoder.view, hnone, List.take_zero, List.length_nil]
    exact length_knownStream_pos _ _ _

/-- The call for the one byte `a` at the default level, with room for `outsize` bytes. -/
def oneByteCall (outsize : ℕ) : CodecArgs :=
  ⟨fun _ => 97, 0, 1, fun _ => 0, 0, outsize, 6, 0, 0⟩

theorem lzlibStream_oneByte (o : LzmaOptions) (outsize : ℕ) :
    lzlibStream knownStream o (oneByteCall outsize) = oneByteStream := by
  rw [lzlibStream, knownStream]
  exact if_pos rfl

/-- The stream is returned where it fits. -/
theorem lzlibReturns_oneByte :
    LzlibReturns knownLib knownStream ⟨2 ^ 23, 36⟩ (oneByteCall 37) := by
  obtain ⟨o, ho, hiff⟩ := lzlibReturns_iff knownLaws (oneByteCall 37) (by decide) (by decide)
    (by decide)
  obtain rfl := Option.some.inj ho
  refine hiff.mpr (Or.inr ⟨by decide, ?_⟩)
  rw [lzlibStream_oneByte]
  decide

/-- With room for one byte less the loop does not end. -/
theorem lzlib_stalls :
    ¬ ∀ (ε : Type) (lib : Lzlib ε) (stream : ℤ → ℤ → List UInt8 → List UInt8)
      (At : ε → EncoderView → Prop), LzlibLaws lib stream At → ∀ a : CodecArgs, a.param1 ≤ 9 →
      a.insize < 2 ^ 64 → a.outsize < 2 ^ 64 → ∀ o, optionMapping[a.param1]? = some o →
      LzlibReturns lib stream o a := by
  intro hall
  refine not_lzlibReturns knownLaws (a := oneByteCall 36) rfl (by decide) (by decide) rfl
    (Or.inr ?_) (hall _ knownLib knownStream _ knownLaws (oneByteCall 36) (by decide) (by decide)
      (by decide) _ rfl)
  rw [lzlibStream_oneByte]
  decide

end Lzbench

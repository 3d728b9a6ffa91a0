import BitcoinGpuMiner.Encoding.Sha256

/-! # `SHA256_CPU` with its buffer

The object itself, with the whole 64-byte array and the three parts of `Write`. It computes what the hasher on
the bytes in use computes, so it does not matter how a message is cut into writes.
-/

namespace BitcoinGpuMiner

set_option autoImplicit false

/-- `memcpy(dst + offset, src, …)`. -/
def memcpy (dst : Bytes) (offset : Nat) (src : Bytes) : Bytes :=
  dst.take offset ++ src ++ dst.drop (offset + src.length)

theorem memcpy_append (x z : Bytes) {y y' : Bytes} {n : Nat} (hOffset : x.length = n) (hLength : y.length = y'.length) :
    memcpy (x ++ y ++ z) n y' = x ++ y' ++ z := by
  have hDrop : n + y'.length = (x ++ y).length := by rw [List.length_append, hOffset, hLength]
  rw [memcpy, hDrop, List.drop_left, List.append_assoc x y z, List.take_left' hOffset]

namespace Sha256

/-- `Transform` over a number of chunks. -/
def transformBlocks : Nat → State → Bytes → State
  | 0, s, _ => s
  | blocks + 1, s, chunk => transformBlocks blocks (transform s (chunk.take 64)) (chunk.drop 64)

/-- The digest that is read off at the end of `Finalize`. -/
def digest (s : State) : Bytes := [s.a, s.b, s.c, s.d, s.e, s.f, s.g, s.h].flatMap (writeBE 4)

structure Stream where
  s : State
  buf : Bytes
  bytes : Nat

namespace Stream

/-- `Reset`, which leaves the array as it is. -/
def reset (ctx : Stream) : Stream := { ctx with s := initialState, bytes := 0 }

/-- The first part of `Write`: fill the buffer and process it. -/
def fill (ctx : Stream) (data : Bytes) : Stream × Bytes :=
  let bufsize := ctx.bytes % 64
  if bufsize ≠ 0 ∧ bufsize + data.length ≥ 64 then
    let buf := memcpy ctx.buf bufsize (data.take (64 - bufsize))
    (⟨transform ctx.s buf, buf, (ctx.bytes + (64 - bufsize)) % 2 ^ 64⟩, data.drop (64 - bufsize))
  else (ctx, data)

/-- The second part: whole chunks straight from the input. -/
def whole (ctx : Stream) (data : Bytes) : Stream × Bytes :=
  if data.length ≥ 64 then
    let blocks := data.length / 64
    ({ ctx with s := transformBlocks blocks ctx.s data, bytes := (ctx.bytes + 64 * blocks) % 2 ^ 64 },
      data.drop (64 * blocks))
  else (ctx, data)

/-- The third part: what remains goes into the buffer. After either of the other parts `bufsize` is zero, and so
is `bytes % 64`. -/
def keep (ctx : Stream) (data : Bytes) : Stream :=
  if data.length > 0 then
    { ctx with buf := memcpy ctx.buf (ctx.bytes % 64) data, bytes := (ctx.bytes + data.length) % 2 ^ 64 }
  else ctx

def write (ctx : Stream) (data : Bytes) : Stream :=
  let (ctx, data) := ctx.fill data
  let (ctx, data) := ctx.whole data
  ctx.keep data

/-- The two writes of `Finalize`; the first one takes a part of a fixed array. -/
def padded (ctx : Stream) : Stream :=
  let pad : Bytes := 0x80 :: List.replicate 63 0
  let sizedesc := writeBE 8 (ctx.bytes <<< 3)
  (ctx.write (pad.take (1 + (119 - ctx.bytes % 64) % 64))).write sizedesc

/-- `DoubleHash256::Finalize`: the digest, then the digest of the digest with the same object. -/
def finalizeTwice (ctx : Stream) : Bytes :=
  digest (ctx.padded.reset.write (digest ctx.padded.s)).padded.s

/-- A `CHashWriter` that receives its message piece by piece; `garbage` is what the array holds at first. -/
def hashPieces (garbage : Bytes) (pieces : List Bytes) : Uint256 :=
  Uint256.ofBytes (pieces.foldl write (reset ⟨initialState, garbage, 0⟩)).finalizeTwice

end Stream

section Run

/-- All whole chunks of a byte string, and what is left. -/
def run (s : State) (data : Bytes) : State × Bytes := absorb (data.length / 64 + 1) s data

variable {s : State} {data : Bytes}

theorem write_eq (ctx : Hasher) (data : Bytes) : write ctx data =
    ⟨(run ctx.s (ctx.buf ++ data)).1, (run ctx.s (ctx.buf ++ data)).2, (ctx.bytes + data.length) % 2 ^ 64⟩ := rfl

theorem run_short (hShort : data.length < 64) : run s data = (s, data) := by
  rw [run, absorb, if_pos hShort]

theorem run_chunk {chunk : Bytes} (hChunk : chunk.length = 64) (rest : Bytes) :
    run s (chunk ++ rest) = run (transform s chunk) rest := by
  have hLength : (chunk ++ rest).length / 64 = rest.length / 64 + 1 := by
    rw [List.length_append, hChunk]
    omega
  have hLong : ¬ (chunk ++ rest).length < 64 := by
    rw [List.length_append, hChunk]
    omega
  rw [run, hLength, absorb, if_neg hLong, List.take_left' hChunk, List.drop_left' hChunk, run]

theorem run_blocks (blocks : Nat) (hLength : 64 * blocks ≤ data.length) :
    run s data = run (transformBlocks blocks s data) (data.drop (64 * blocks)) := by
  induction blocks generalizing s data with
  | zero => rw [transformBlocks, Nat.mul_zero, List.drop_zero]
  | succ blocks ih =>
    have hTake : (data.take 64).length = 64 := by
      rw [List.length_take]
      omega
    have hRest : 64 * blocks ≤ (data.drop 64).length := by
      rw [List.length_drop]
      omega
    have hSplit := run_chunk (s := s) hTake (data.drop 64)
    rw [List.take_append_drop] at hSplit
    rw [hSplit, ih hRest, transformBlocks, List.drop_drop, Nat.mul_succ, Nat.add_comm 64]

theorem run_whole (s : State) (data : Bytes) : run s data = (transformBlocks (data.length / 64) s data, data.drop (64 * (data.length / 64))) := by
  rw [run_blocks (data.length / 64) (Nat.mul_div_le _ _), run_short]
  rw [List.length_drop]
  omega

theorem run_append (x y : Bytes) : run s (x ++ y) = run (run s x).1 ((run s x).2 ++ y) := by
  have hLength : 64 * (x.length / 64) ≤ (x ++ y).length := by
    rw [List.length_append]
    omega
  have hBlocks : ∀ (blocks : Nat) (s : State) (x : Bytes), 64 * blocks ≤ x.length →
      transformBlocks blocks s (x ++ y) = transformBlocks blocks s x := by
    intro blocks
    induction blocks with
    | zero => exact fun _ _ _ => rfl
    | succ blocks ih =>
      intro s x hLe
      rw [transformBlocks, transformBlocks, List.take_append_of_le_length (by omega),
        List.drop_append_of_le_length (by omega), ih _ _ (by rw [List.length_drop]; omega)]
  rw [run_blocks _ hLength, hBlocks _ _ _ (Nat.mul_div_le _ _), run_whole s x,
    List.drop_append_of_le_length (Nat.mul_div_le _ _)]

theorem write_append (ctx : Hasher) (x y : Bytes) : write (write ctx x) y = write ctx (x ++ y) := by
  have hCount : ((ctx.bytes + x.length) % 2 ^ 64 + y.length) % 2 ^ 64 = (ctx.bytes + (x ++ y).length) % 2 ^ 64 := by
    rw [List.length_append]
    omega
  rw [write_eq, write_eq, write_eq]
  dsimp only
  rw [hCount, ← run_append, List.append_assoc]

theorem doubleHash256_eq (message : Bytes) :
    doubleHash256 message = Uint256.ofBytes (finalize (write reset (finalize (write reset message)))) := by
  -- the equation lemma of the irreducible definition is costly to generate
  delta doubleHash256
  exact rfl

theorem finalize_eq_digest (ctx : Hasher) : finalize ctx = digest
    (write (write ctx (0x80 :: List.replicate ((119 - ctx.bytes % 64) % 64) 0)) (writeBE 8 (ctx.bytes <<< 3))).s := by
  rw [finalize, digest]

/-- What `Finalize` adds to a message of `count` bytes. -/
def padding (count : Nat) : Bytes :=
  (0x80 : UInt8) :: List.replicate ((119 - count % 64) % 64) 0 ++ writeBE 8 (count <<< 3)

theorem finalize_write_reset {message : Bytes} (hLt : message.length < 2 ^ 64) : finalize (write reset message) =
    digest (transformBlocks ((message ++ padding message.length).length / 64) initialState
      (message ++ padding message.length)) := by
  have hBytes : (write reset message).bytes = message.length := by
    rw [write_eq, reset, Nat.zero_add]
    exact Nat.mod_eq_of_lt hLt
  rw [finalize_eq_digest, hBytes, write_append, write_append, ← padding, write_eq, run_whole]
  rfl

end Run

namespace Stream

/-- The bytes of the array that are in use. -/
def view (ctx : Stream) : Hasher := ⟨ctx.s, ctx.buf.take (ctx.bytes % 64), ctx.bytes⟩

structure Wf (ctx : Stream) : Prop where
  buf : ctx.buf.length = 64
  bytes : ctx.bytes < 2 ^ 64

section View

variable {ctx : Stream} {data : Bytes}

theorem length_view_buf (hWf : ctx.Wf) : ctx.view.buf.length = ctx.bytes % 64 := by
  rw [view, List.length_take, hWf.buf]
  omega

theorem view_keep (hWf : ctx.Wf) (hFits : ctx.bytes % 64 + data.length < 64) :
    (ctx.keep data).Wf ∧ (ctx.keep data).view = Sha256.write ctx.view data := by
  have hShort : (ctx.view.buf ++ data).length < 64 := by
    rw [List.length_append, length_view_buf hWf]
    exact hFits
  rw [write_eq, run_short hShort, keep]
  split
  case isTrue hSome =>
    have hLength : (memcpy ctx.buf (ctx.bytes % 64) data).length = 64 := by
      rw [memcpy, List.length_append, List.length_append, List.length_take, List.length_drop, hWf.buf]
      omega
    have hBytes : (ctx.bytes + data.length) % 2 ^ 64 % 64 = ctx.bytes % 64 + data.length := by omega
    refine ⟨⟨hLength, Nat.mod_lt _ (by decide)⟩, ?_⟩
    rw [view, view]
    dsimp only
    rw [hBytes, memcpy, List.take_append_of_le_length, List.take_of_length_le]
    · rw [List.length_append, List.length_take, hWf.buf]
      omega
    · rw [List.length_append, List.length_take, hWf.buf]
      omega
  case isFalse hNone =>
    have hNil : data = [] := List.eq_nil_of_length_eq_zero (by omega)
    refine ⟨hWf, ?_⟩
    rw [hNil, List.append_nil, List.length_nil, Nat.add_zero,
      Nat.mod_eq_of_lt (show ctx.view.bytes < 2 ^ 64 from hWf.bytes)]

/-- After the first part the buffer is empty or the input fits into it. -/
theorem view_fill (hWf : ctx.Wf) (data : Bytes) : (ctx.fill data).1.Wf ∧
    Sha256.write (ctx.fill data).1.view (ctx.fill data).2 = Sha256.write ctx.view data ∧
    ((ctx.fill data).1.bytes % 64 = 0 ∨ (ctx.fill data).1.bytes % 64 + (ctx.fill data).2.length < 64) := by
  rw [fill]
  dsimp only
  split
  case isFalse hNot =>
    refine ⟨hWf, rfl, ?_⟩
    dsimp only
    omega
  case isTrue hFull =>
    obtain ⟨hUsed, hEnough⟩ := hFull
    have hTaken : (data.take (64 - ctx.bytes % 64)).length = 64 - ctx.bytes % 64 := by
      rw [List.length_take]
      omega
    have hBuf : memcpy ctx.buf (ctx.bytes % 64) (data.take (64 - ctx.bytes % 64)) =
        ctx.view.buf ++ data.take (64 - ctx.bytes % 64) := by
      rw [memcpy, hTaken, List.drop_of_length_le (by rw [hWf.buf]; omega), List.append_nil]
      rfl
    have hLength : (ctx.view.buf ++ data.take (64 - ctx.bytes % 64)).length = 64 := by
      rw [List.length_append, length_view_buf hWf, hTaken]
      omega
    have hBytes : (ctx.bytes + (64 - ctx.bytes % 64)) % 2 ^ 64 % 64 = 0 := by omega
    refine ⟨⟨by rw [hBuf]; exact hLength, Nat.mod_lt _ (by decide)⟩, ?_, .inl hBytes⟩
    have hRun := run_chunk (s := ctx.s) hLength (data.drop (64 - ctx.bytes % 64))
    rw [List.append_assoc, List.take_append_drop] at hRun
    have hCount : ((ctx.bytes + (64 - ctx.bytes % 64)) % 2 ^ 64 + (data.drop (64 - ctx.bytes % 64)).length) % 2 ^ 64 =
        (ctx.bytes + data.length) % 2 ^ 64 := by
      rw [List.length_drop]
      omega
    rw [write_eq, write_eq, view]
    dsimp only
    rw [hBytes, List.take_zero, List.nil_append, hBuf, hCount]
    rw [show ctx.view.s = ctx.s from rfl, hRun]
    rfl

theorem view_whole (hWf : ctx.Wf) (hPlace : ctx.bytes % 64 = 0 ∨ ctx.bytes % 64 + data.length < 64) :
    (ctx.whole data).1.Wf ∧ Sha256.write (ctx.whole data).1.view (ctx.whole data).2 = Sha256.write ctx.view data ∧
    (ctx.whole data).1.bytes % 64 + (ctx.whole data).2.length < 64 := by
  rw [whole]
  split
  case isFalse hNot =>
    refine ⟨hWf, rfl, ?_⟩
    dsimp only
    omega
  case isTrue hLong =>
    have hZero : ctx.bytes % 64 = 0 := by omega
    have hBytes : (ctx.bytes + 64 * (data.length / 64)) % 2 ^ 64 % 64 = 0 := by omega
    refine ⟨⟨hWf.buf, Nat.mod_lt _ (by decide)⟩, ?_, ?_⟩
    · have hCount : ((ctx.bytes + 64 * (data.length / 64)) % 2 ^ 64 +
          (data.drop (64 * (data.length / 64))).length) % 2 ^ 64 = (ctx.bytes + data.length) % 2 ^ 64 := by
        rw [List.length_drop]
        omega
      rw [write_eq, write_eq, view, view]
      dsimp only
      rw [hBytes, hZero, List.take_zero, List.nil_append, List.nil_append, hCount,
        ← run_blocks _ (Nat.mul_div_le _ _)]
    · dsimp only
      rw [hBytes, List.length_drop]
      omega

theorem view_write (hWf : ctx.Wf) (data : Bytes) : (ctx.write data).Wf ∧ (ctx.write data).view = Sha256.write ctx.view data := by
  obtain ⟨hFillWf, hFill, hPlace⟩ := view_fill hWf data
  obtain ⟨hWholeWf, hWhole, hFits⟩ := view_whole hFillWf hPlace
  obtain ⟨hKeepWf, hKeep⟩ := view_keep hWholeWf hFits
  exact ⟨hKeepWf, hKeep.trans (hWhole.trans hFill)⟩

theorem view_foldl (hWf : ctx.Wf) (first : Bytes) (pieces : List Bytes) :
    (pieces.foldl write (ctx.write first)).Wf ∧
      (pieces.foldl write (ctx.write first)).view = Sha256.write ctx.view (first ++ pieces.flatten) := by
  induction pieces generalizing ctx first with
  | nil =>
    rw [List.foldl_nil, List.flatten_nil, List.append_nil]
    exact view_write hWf first
  | cons piece pieces ih =>
    obtain ⟨hFirstWf, hFirst⟩ := view_write hWf first
    obtain ⟨hAllWf, hAll⟩ := ih hFirstWf piece
    rw [List.foldl_cons, hAll, hFirst, write_append, List.flatten_cons]
    exact ⟨hAllWf, rfl⟩

theorem take_pad {n : Nat} (hLe : n ≤ 63) :
    ((0x80 : UInt8) :: List.replicate 63 0).take (1 + n) = 0x80 :: List.replicate n 0 := by
  rw [Nat.add_comm, List.take_succ_cons, List.take_replicate, Nat.min_eq_left hLe]

theorem view_s (ctx : Stream) : ctx.view.s = ctx.s := rfl

theorem view_bytes (ctx : Stream) : ctx.view.bytes = ctx.bytes := rfl

theorem digest_padded (hWf : ctx.Wf) : ctx.padded.Wf ∧ digest ctx.padded.s = Sha256.finalize ctx.view := by
  have hPad : (119 - ctx.bytes % 64) % 64 ≤ 63 := by omega
  obtain ⟨hPadWf, hPadView⟩ := view_write hWf (0x80 :: List.replicate ((119 - ctx.bytes % 64) % 64) 0)
  obtain ⟨hSizeWf, hSizeView⟩ := view_write hPadWf (writeBE 8 (ctx.bytes <<< 3))
  rw [padded, take_pad hPad, finalize_eq_digest, view_bytes, ← hPadView, ← hSizeView, view_s]
  exact ⟨hSizeWf, rfl⟩

theorem view_reset (ctx : Stream) : ctx.reset.view = Sha256.reset := by
  rw [view, reset, Nat.zero_mod, List.take_zero, Sha256.reset]

theorem Wf.reset (hBuf : ctx.buf.length = 64) : ctx.reset.Wf := ⟨hBuf, Nat.two_pow_pos 64⟩

theorem finalizeTwice_eq (hWf : ctx.Wf) :
    ctx.finalizeTwice = Sha256.finalize (Sha256.write Sha256.reset (Sha256.finalize ctx.view)) := by
  obtain ⟨hFirstWf, hFirst⟩ := digest_padded hWf
  obtain ⟨hBufWf, hBuf⟩ := view_write (Wf.reset hFirstWf.buf) (digest ctx.padded.s)
  rw [finalizeTwice, (digest_padded hBufWf).2, hBuf, hFirst, view_reset]

end View

/-- How a message is cut into pieces makes no difference, and neither do the first contents of the array. -/
theorem hashPieces_eq {garbage : Bytes} (hGarbage : garbage.length = 64) (first : Bytes) (pieces : List Bytes) :
    hashPieces garbage (first :: pieces) = doubleHash256 (first ++ pieces.flatten) := by
  have hReset : (reset ⟨initialState, garbage, 0⟩).Wf := Wf.reset hGarbage
  obtain ⟨hAllWf, hAll⟩ := view_foldl hReset first pieces

  rw [hashPieces, List.foldl_cons, finalizeTwice_eq hAllWf, hAll, view_reset, doubleHash256_eq]

end Stream

end Sha256

end BitcoinGpuMiner

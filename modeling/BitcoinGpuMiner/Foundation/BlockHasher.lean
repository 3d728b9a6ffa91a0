import Mathlib.Algebra.Order.Ring.Int
import Mathlib.Data.List.Basic

/-! # Hash functions that work block by block

An object keeps a state, an array of one block and a 64-bit count of the elements written. What it holds depends only
on the elements written so far and not on how they were cut into pieces.
-/

namespace BitcoinGpuMiner.Foundation

set_option autoImplicit false

/-- The size of a block and the function that adds one to the state. -/
structure BlockHash (S β : Type) where
  block : Nat
  pos : 0 < block
  dvd : block ∣ 2 ^ 64
  initial : S
  transform : S → List β → S

namespace BlockHash

variable {S β : Type} (H : BlockHash S β)

structure Object (S β : Type) where
  s : S
  buf : List β
  bytes : Nat

def overwrite (dst : List β) (offset : Nat) (src : List β) : List β :=
  dst.take offset ++ src ++ dst.drop (offset + src.length)

def blocks : Nat → S → List β → S
  | 0, s, _ => s
  | count + 1, s, data => blocks count (H.transform s (data.take H.block)) (data.drop H.block)

def create (garbage : List β) : Object S β := ⟨H.initial, garbage, 0⟩

/-- Whole blocks are processed where they stand; what is left of the input goes into the array. -/
def drain (s : S) (buf : List β) (bufsize : Nat) (data : List β) : S × List β :=
  let count := data.length / H.block
  (H.blocks count s data, overwrite buf bufsize (data.drop (H.block * count)))

/-- A buffer that is in use and can be filled up is processed first. -/
def write (ctx : Object S β) (data : List β) : Object S β :=
  let bufsize := ctx.bytes % H.block
  let bytes := (ctx.bytes + data.length) % 2 ^ 64
  if bufsize ≠ 0 ∧ bufsize + data.length ≥ H.block then
    let buf := overwrite ctx.buf bufsize (data.take (H.block - bufsize))
    let r := H.drain (H.transform ctx.s buf) buf 0 (data.drop (H.block - bufsize))
    ⟨r.1, r.2, bytes⟩
  else
    let r := H.drain ctx.s ctx.buf bufsize data
    ⟨r.1, r.2, bytes⟩

/-- The whole blocks of a list, processed from the first state, and what is left of it. -/
def absorbed (data : List β) : S × List β :=
  (H.blocks (data.length / H.block) H.initial data, data.drop (H.block * (data.length / H.block)))

variable {H}

theorem blocks_add (m n : Nat) (s : S) (data : List β) :
    H.blocks (m + n) s data = H.blocks n (H.blocks m s data) (data.drop (H.block * m)) := by
  induction m generalizing s data with
  | zero => rw [Nat.zero_add, blocks, Nat.mul_zero, List.drop_zero]
  | succ m ih => rw [Nat.add_right_comm, blocks, ih, blocks, List.drop_drop, Nat.mul_succ, Nat.add_comm H.block]

theorem blocks_append {count : Nat} {data : List β} (hLength : H.block * count ≤ data.length) (s : S) (more : List β) :
    H.blocks count s (data ++ more) = H.blocks count s data := by
  induction count generalizing s data with
  | zero => rfl
  | succ count ih =>
    rw [Nat.mul_succ] at hLength
    rw [blocks, blocks, List.take_append_of_le_length (by omega), List.drop_append_of_le_length (by omega), ih]
    rw [List.length_drop]
    omega

theorem overwrite_take {dst : List β} {offset : Nat} (hOffset : offset ≤ dst.length) (src : List β) :
    (overwrite dst offset src).take (offset + src.length) = dst.take offset ++ src := by
  rw [overwrite, List.take_left']
  rw [List.length_append, List.length_take, Nat.min_eq_left hOffset]

theorem length_overwrite {dst src : List β} {offset : Nat} (hFits : offset + src.length ≤ dst.length) :
    (overwrite dst offset src).length = dst.length := by
  rw [overwrite, List.length_append, List.length_append, List.length_take, List.length_drop]
  omega

/-- The state and the part of the array in use are what the written elements leave. -/
structure Holds (H : BlockHash S β) (ctx : Object S β) (data : List β) : Prop where
  buf : ctx.buf.length = H.block
  bytes : ctx.bytes = data.length % 2 ^ 64
  state : ctx.s = (H.absorbed data).1
  used : ctx.buf.take (data.length % H.block) = (H.absorbed data).2

theorem Holds.create {garbage : List β} (hGarbage : garbage.length = H.block) : H.Holds (H.create garbage) [] where
  buf := hGarbage
  bytes := rfl
  state := by
    rw [absorbed, List.length_nil, Nat.zero_div]
    rfl
  used := by rw [absorbed, List.drop_nil, List.length_nil, Nat.zero_mod, List.take_zero]

theorem absorbed_eq {data rest : List β} {s : S} {count : Nat} (hBlocks : H.blocks count H.initial data = s)
    (hRest : data.drop (H.block * count) = rest) (hLe : H.block * count ≤ data.length) :
    H.absorbed data = (H.blocks (rest.length / H.block) s rest, rest.drop (H.block * (rest.length / H.block))) := by
  have hLength : data.length = H.block * count + rest.length := by
    rw [← hRest, List.length_drop]
    omega
  have hCount : data.length / H.block = count + rest.length / H.block := by
    rw [hLength, Nat.mul_add_div H.pos]
  rw [absorbed, hCount, blocks_add, hBlocks, hRest, Nat.mul_add, ← List.drop_drop, hRest]

theorem absorbed_append (data more : List β) : H.absorbed (data ++ more) =
    (H.blocks (((H.absorbed data).2 ++ more).length / H.block) (H.absorbed data).1 ((H.absorbed data).2 ++ more),
      ((H.absorbed data).2 ++ more).drop (H.block * (((H.absorbed data).2 ++ more).length / H.block))) := by
  have hLe : H.block * (data.length / H.block) ≤ data.length := Nat.mul_div_le _ _
  apply absorbed_eq
  · rw [blocks_append hLe]
    rfl
  · rw [List.drop_append_of_le_length hLe]
    rfl
  · rw [List.length_append]
    omega

theorem drain_eq {s : S} {buf data : List β} {bufsize : Nat} (hBuf : buf.length = H.block)
    (hPlace : bufsize = 0 ∨ bufsize + data.length < H.block) :
    (H.drain s buf bufsize data).2.length = H.block ∧
    (H.drain s buf bufsize data).1 = H.blocks ((bufsize + data.length) / H.block) s (buf.take bufsize ++ data) ∧
    (H.drain s buf bufsize data).2.take ((bufsize + data.length) % H.block) =
      (buf.take bufsize ++ data).drop (H.block * ((bufsize + data.length) / H.block)) := by
  have hPos := H.pos
  have hDiv := Nat.div_add_mod data.length H.block
  have hLt := Nat.mod_lt data.length hPos
  have hLeft : (data.drop (H.block * (data.length / H.block))).length = data.length % H.block := by
    rw [List.length_drop]
    omega
  rw [drain]
  dsimp only
  rcases hPlace with rfl | hShort
  · rw [length_overwrite (by omega), List.take_zero, List.nil_append, Nat.zero_add, ← hLeft]
    refine ⟨hBuf, rfl, ?_⟩
    have hTake := overwrite_take (Nat.zero_le buf.length) (data.drop (H.block * (data.length / H.block)))
    rwa [Nat.zero_add, List.take_zero, List.nil_append] at hTake
  · have hNone : data.length / H.block = 0 := Nat.div_eq_of_lt (by omega)
    rw [hNone, Nat.mul_zero, List.drop_zero, Nat.div_eq_of_lt hShort, Nat.mod_eq_of_lt hShort, Nat.mul_zero,
      List.drop_zero, length_overwrite (by omega)]
    exact ⟨hBuf, rfl, overwrite_take (by omega) _⟩

theorem Holds.of_drain {data : List β} {s : S} {buf rest : List β} {bufsize bytes : Nat} (hBuf : buf.length = H.block)
    (hPlace : bufsize = 0 ∨ bufsize + rest.length < H.block) (hBytes : bytes = data.length % 2 ^ 64)
    (hLength : data.length % H.block = (bufsize + rest.length) % H.block)
    (hAbsorbed : H.absorbed data = (H.blocks ((bufsize + rest.length) / H.block) s (buf.take bufsize ++ rest),
      (buf.take bufsize ++ rest).drop (H.block * ((bufsize + rest.length) / H.block)))) :
    H.Holds ⟨(H.drain s buf bufsize rest).1, (H.drain s buf bufsize rest).2, bytes⟩ data := by
  obtain ⟨hSize, hState, hUsed⟩ := drain_eq (s := s) hBuf hPlace
  refine ⟨hSize, hBytes, ?_, ?_⟩
  · rw [hAbsorbed]
    exact hState
  · rw [hAbsorbed, hLength]
    exact hUsed

/-- One write, of whatever length. -/
theorem Holds.write {ctx : Object S β} {data : List β} (hHolds : H.Holds ctx data) (more : List β) :
    H.Holds (H.write ctx more) (data ++ more) := by
  have hPos := H.pos
  have hSize : ctx.bytes % H.block = data.length % H.block := by
    rw [hHolds.bytes, Nat.mod_mod_of_dvd _ H.dvd]
  have hLt : data.length % H.block < H.block := Nat.mod_lt _ H.pos
  have hBytes : (ctx.bytes + more.length) % 2 ^ 64 = (data ++ more).length % 2 ^ 64 := by
    rw [hHolds.bytes, List.length_append, Nat.mod_add_mod]
  have hAppend := H.absorbed_append data more
  rw [← hHolds.used, ← hHolds.state, List.length_append, List.length_take, hHolds.buf, Nat.min_eq_left (by omega)] at hAppend
  rw [BlockHash.write, hSize]
  dsimp only
  split
  case isTrue hFull =>
    -- the buffer and the head of the input make a block of their own
    have hTaken : (more.take (H.block - data.length % H.block)).length = H.block - data.length % H.block := by
      rw [List.length_take]
      omega
    have hBuf : overwrite ctx.buf (data.length % H.block) (more.take (H.block - data.length % H.block)) =
        ctx.buf.take (data.length % H.block) ++ more.take (H.block - data.length % H.block) := by
      rw [overwrite, hTaken, List.drop_of_length_le (by rw [hHolds.buf]; omega), List.append_nil]
    have hBlock : (ctx.buf.take (data.length % H.block) ++ more.take (H.block - data.length % H.block)).length =
        H.block := by
      rw [List.length_append, hTaken, List.length_take, hHolds.buf]
      omega
    have hRest : (more.drop (H.block - data.length % H.block)).length =
        data.length % H.block + more.length - H.block := by
      rw [List.length_drop]
      omega
    have hOnce : (data.length % H.block + more.length) / H.block =
        1 + (data.length % H.block + more.length - H.block) / H.block := by
      rw [Nat.div_eq_sub_div hPos hFull.2, Nat.add_comm 1]
    rw [hBuf]
    apply Holds.of_drain hBlock (.inl rfl) hBytes
    · rw [hRest, List.length_append, Nat.zero_add, Nat.add_mod, ← Nat.mod_eq_sub_mod hFull.2, ← Nat.add_mod,
        Nat.mod_add_mod]
    · have hAll : ctx.buf.take (data.length % H.block) ++ more =
          ctx.buf.take (data.length % H.block) ++ more.take (H.block - data.length % H.block) ++
            more.drop (H.block - data.length % H.block) := by
        rw [List.append_assoc, List.take_append_drop]
      rw [hAppend, hOnce, blocks_add, Nat.mul_add, ← List.drop_drop, Nat.mul_one, hAll, List.drop_left' hBlock,
        Nat.zero_add, List.take_zero, List.nil_append, hRest, blocks, blocks, List.take_left' hBlock]
  case isFalse hNot =>
    have hPlace : data.length % H.block = 0 ∨ data.length % H.block + more.length < H.block := by omega
    apply Holds.of_drain hHolds.buf hPlace hBytes _ hAppend
    rw [List.length_append, Nat.mod_add_mod]

/-- Any number of writes. -/
theorem Holds.foldl_write {ctx : Object S β} {data : List β} (hHolds : H.Holds ctx data) (pieces : List (List β)) :
    H.Holds (pieces.foldl H.write ctx) (data ++ pieces.flatten) := by
  induction pieces generalizing ctx data with
  | nil =>
    rw [List.flatten_nil, List.append_nil]
    exact hHolds
  | cons piece pieces ih =>
    rw [List.flatten_cons, ← List.append_assoc]
    exact ih (hHolds.write piece)

end BlockHash

end BitcoinGpuMiner.Foundation

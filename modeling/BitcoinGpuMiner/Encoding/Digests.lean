import BitcoinGpuMiner.Encoding.Sha256
import BitcoinGpuMiner.Foundation.BlockHasher

/-! # RIPEMD-160, SHA-1 and the hashes built from them

Words are natural numbers below `2 ^ 32`, as for SHA-256. The rounds of the source rotate the roles of its five
variables; here the values move instead.
-/

namespace BitcoinGpuMiner

set_option autoImplicit false

open Foundation

namespace Digest

/-! The parts the two functions share. -/

def not32 (x : Nat) : Nat := Nat.xor x 0xffffffff

def rol (x n : Nat) : Nat := Nat.lor (Nat.mod (Nat.shiftLeft x n) 4294967296) (Nat.shiftRight x (Nat.sub 32 n))

/-- The five words of a state. -/
structure Words5 where
  a : Nat
  b : Nat
  c : Nat
  d : Nat
  e : Nat

def initialState : Words5 := ⟨0x67452301, 0xEFCDAB89, 0x98BADCFE, 0x10325476, 0xC3D2E1F0⟩

def Words5.toList (s : Words5) : List Nat := [s.a, s.b, s.c, s.d, s.e]

/-- `Finalize` up to the digest: `pad` is a part of a fixed array, the length in bits is the one before padding. -/
def finish {S : Type} (H : BlockHash S UInt8) (sizedesc : Nat → Bytes) (ctx : BlockHash.Object S UInt8) : S :=
  let pad : Bytes := 0x80 :: List.replicate 63 0
  (H.write (H.write ctx (pad.take (1 + (119 - ctx.bytes % 64) % 64))) (sizedesc (ctx.bytes <<< 3))).s

end Digest

namespace Ripemd160

open Digest
open Sha256 (add32)

def f1 (x y z : Nat) : Nat := Nat.xor (Nat.xor x y) z

def f2 (x y z : Nat) : Nat := Nat.lor (Nat.land x y) (Nat.land (not32 x) z)

def f3 (x y z : Nat) : Nat := Nat.xor (Nat.lor x (not32 y)) z

def f4 (x y z : Nat) : Nat := Nat.lor (Nat.land x z) (Nat.land y (not32 z))

def f5 (x y z : Nat) : Nat := Nat.xor x (Nat.lor y (not32 z))

def round (f : Nat → Nat → Nat → Nat) (k : Nat) (s : Words5) (x r : Nat) : Words5 :=
  ⟨s.e, add32 (rol (add32 (add32 (add32 s.a (f s.b s.c s.d)) x) k) r) s.e, s.b, rol s.c 10, s.d⟩

/-- Sixteen rounds of one kind: which word each takes and by how much it rotates. -/
structure Pass where
  f : Nat → Nat → Nat → Nat
  k : Nat
  order : List (Nat × Nat)

def Pass.run (pass : Pass) (w : List Nat) (s : Words5) : Words5 :=
  pass.order.foldl (fun s x => round pass.f pass.k s (w.getD x.1 0) x.2) s

def firstLine : List Pass := [
  ⟨f1, 0, [(0, 11), (1, 14), (2, 15), (3, 12), (4, 5), (5, 8), (6, 7), (7, 9),
    (8, 11), (9, 13), (10, 14), (11, 15), (12, 6), (13, 7), (14, 9), (15, 8)]⟩,
  ⟨f2, 0x5A827999, [(7, 7), (4, 6), (13, 8), (1, 13), (10, 11), (6, 9), (15, 7), (3, 15),
    (12, 7), (0, 12), (9, 15), (5, 9), (2, 11), (14, 7), (11, 13), (8, 12)]⟩,
  ⟨f3, 0x6ED9EBA1, [(3, 11), (10, 13), (14, 6), (4, 7), (9, 14), (15, 9), (8, 13), (1, 15),
    (2, 14), (7, 8), (0, 13), (6, 6), (13, 5), (11, 12), (5, 7), (12, 5)]⟩,
  ⟨f4, 0x8F1BBCDC, [(1, 11), (9, 12), (11, 14), (10, 15), (0, 14), (8, 15), (12, 9), (4, 8),
    (13, 9), (3, 14), (7, 5), (15, 6), (14, 8), (5, 6), (6, 5), (2, 12)]⟩,
  ⟨f5, 0xA953FD4E, [(4, 9), (0, 15), (5, 5), (9, 11), (7, 6), (12, 8), (2, 13), (10, 12),
    (14, 5), (1, 12), (3, 13), (8, 14), (11, 11), (6, 8), (15, 5), (13, 6)]⟩]

def secondLine : List Pass := [
  ⟨f5, 0x50A28BE6, [(5, 8), (14, 9), (7, 9), (0, 11), (9, 13), (2, 15), (11, 15), (4, 5),
    (13, 7), (6, 7), (15, 8), (8, 11), (1, 14), (10, 14), (3, 12), (12, 6)]⟩,
  ⟨f4, 0x5C4DD124, [(6, 9), (11, 13), (3, 15), (7, 7), (0, 12), (13, 8), (5, 9), (10, 11),
    (14, 7), (15, 7), (8, 12), (12, 7), (4, 6), (9, 15), (1, 13), (2, 11)]⟩,
  ⟨f3, 0x6D703EF3, [(15, 9), (5, 7), (1, 15), (3, 11), (7, 8), (14, 6), (6, 6), (9, 14),
    (11, 12), (8, 13), (12, 5), (2, 14), (10, 13), (0, 13), (4, 7), (13, 5)]⟩,
  ⟨f2, 0x7A6D76E9, [(8, 15), (6, 5), (4, 8), (1, 11), (3, 14), (11, 14), (15, 6), (0, 14),
    (5, 6), (12, 9), (2, 12), (13, 9), (9, 12), (7, 5), (10, 15), (14, 8)]⟩,
  ⟨f1, 0, [(12, 8), (15, 5), (10, 12), (4, 9), (1, 12), (5, 5), (8, 14), (7, 6),
    (6, 8), (2, 13), (13, 6), (14, 5), (0, 15), (3, 13), (9, 11), (11, 11)]⟩]

def readWords : Bytes → List Nat
  | b0 :: b1 :: b2 :: b3 :: rest => readLE [b0, b1, b2, b3] :: readWords rest
  | _ => []

/-- `Transform`: the two lines run side by side over the same words. -/
def transform (s : Words5) (chunk : Bytes) : Words5 :=
  let w := readWords chunk
  let r1 := firstLine.foldl (fun r pass => pass.run w r) s
  let r2 := secondLine.foldl (fun r pass => pass.run w r) s
  ⟨add32 (add32 s.b r1.c) r2.d, add32 (add32 s.c r1.d) r2.e, add32 (add32 s.d r1.e) r2.a,
    add32 (add32 s.e r1.a) r2.b, add32 (add32 s.a r1.b) r2.c⟩

def CRIPEMD160 : BlockHash Words5 UInt8 where
  block := 64
  pos := by decide
  dvd := by decide
  initial := initialState
  transform := transform

def finalize (ctx : BlockHash.Object Words5 UInt8) : Bytes :=
  (finish CRIPEMD160 (writeLE 8) ctx).toList.flatMap (writeLE 4)

/-- An object whose array is not initialised, written piece by piece. -/
def hashPieces (garbage : Bytes) (pieces : List Bytes) : Bytes :=
  finalize (pieces.foldl CRIPEMD160.write (CRIPEMD160.create garbage))

@[irreducible] def hash (message : Bytes) : Bytes := hashPieces (List.replicate 64 0) [message]

end Ripemd160

namespace Sha1

open Digest
open Sha256 (add32)

def f1 (b c d : Nat) : Nat := Nat.xor d (Nat.land b (Nat.xor c d))

def f2 (b c d : Nat) : Nat := Nat.xor (Nat.xor b c) d

def f3 (b c d : Nat) : Nat := Nat.lor (Nat.land b c) (Nat.land d (Nat.lor b c))

def left (x : Nat) : Nat := rol x 1

def round (f : Nat → Nat → Nat → Nat) (k : Nat) (s : Words5) (w : Nat) : Words5 :=
  ⟨add32 s.e (add32 (add32 (add32 (rol s.a 5) (f s.b s.c s.d)) k) w), s.a, rol s.b 30, s.c, s.d⟩

/-- The words of `count` rounds; each of the sixteen in use is replaced in place once it has been taken. -/
def expand : Nat → List Nat → List Nat
  | count + 1, [w0, w1, w2, w3, w4, w5, w6, w7, w8, w9, w10, w11, w12, w13, w14, w15] =>
    w0 :: expand count [w1, w2, w3, w4, w5, w6, w7, w8, w9, w10, w11, w12, w13, w14, w15,
      left (Nat.xor (Nat.xor (Nat.xor w0 w13) w8) w2)]
  | _, _ => []

def transform (s : Words5) (chunk : Bytes) : Words5 :=
  let w := expand 80 (Sha256.readWords chunk)
  let r := (w.take 20).foldl (round f1 0x5A827999) s
  let r := ((w.drop 20).take 20).foldl (round f2 0x6ED9EBA1) r
  let r := ((w.drop 40).take 20).foldl (round f3 0x8F1BBCDC) r
  let r := (w.drop 60).foldl (round f2 0xCA62C1D6) r
  ⟨add32 s.a r.a, add32 s.b r.b, add32 s.c r.c, add32 s.d r.d, add32 s.e r.e⟩

def CSHA1 : BlockHash Words5 UInt8 where
  block := 64
  pos := by decide
  dvd := by decide
  initial := initialState
  transform := transform

def finalize (ctx : BlockHash.Object Words5 UInt8) : Bytes :=
  (finish CSHA1 (writeBE 8) ctx).toList.flatMap (writeBE 4)

def hashPieces (garbage : Bytes) (pieces : List Bytes) : Bytes :=
  finalize (pieces.foldl CSHA1.write (CSHA1.create garbage))

@[irreducible] def hash (message : Bytes) : Bytes := hashPieces (List.replicate 64 0) [message]

end Sha1

/-- `SHA256_CPU` after one `Write` of the whole message. -/
@[irreducible] def Sha256.hash (message : Bytes) : Bytes := finalize (write reset message)

/-- `CHash160`. -/
def hash160 (message : Bytes) : Bytes := Ripemd160.hash (Sha256.hash message)

namespace Digest

theorem length_flatMap_write {write : Nat → Bytes} (hWrite : ∀ n, (write n).length = 4) (s : Words5) :
    (s.toList.flatMap write).length = 20 := by
  simp [Words5.toList, hWrite]

end Digest

theorem Ripemd160.length_hash (message : Bytes) : (Ripemd160.hash message).length = 20 := by
  delta Ripemd160.hash
  exact Digest.length_flatMap_write (fun n => length_writeLE 4 n) _

theorem Sha1.length_hash (message : Bytes) : (Sha1.hash message).length = 20 := by
  delta Sha1.hash
  exact Digest.length_flatMap_write (fun n => length_writeBE 4 n) _

theorem Sha256.length_hash (message : Bytes) : (Sha256.hash message).length = 32 := by
  delta Sha256.hash
  exact length_finalize _

theorem length_hash160 (message : Bytes) : (hash160 message).length = 20 := Ripemd160.length_hash _

/-! ## What is hashed -/

namespace Digest

variable {S : Type} {H : BlockHash S UInt8} {sizedesc : Nat → Bytes}

/-- The message up to a whole number of blocks: a one bit, zeros, and the length in bits as the 64-bit count has it. -/
def padded (sizedesc : Nat → Bytes) (message : Bytes) : Bytes :=
  message ++ ((0x80 : UInt8) :: List.replicate ((119 - message.length % 2 ^ 64 % 64) % 64) 0) ++
    sizedesc ((message.length % 2 ^ 64) <<< 3)

theorem dvd_length_padded (hSize : ∀ n, (sizedesc n).length = 8) (message : Bytes) : 64 ∣ (padded sizedesc message).length := by
  have hMod : message.length % 2 ^ 64 % 64 = message.length % 64 := Nat.mod_mod_of_dvd _ (by decide)
  rw [padded, hMod, List.length_append, List.length_append, hSize, List.length_cons, List.length_replicate]
  omega

theorem finish_eq (hBlock : H.block = 64) {ctx : BlockHash.Object S UInt8} {message : Bytes} (hHolds : H.Holds ctx message) :
    finish H sizedesc ctx = H.blocks ((padded sizedesc message).length / 64) H.initial (padded sizedesc message) := by
  have hPad : ((0x80 : UInt8) :: List.replicate 63 0).take (1 + (119 - ctx.bytes % 64) % 64) =
      0x80 :: List.replicate ((119 - message.length % 2 ^ 64 % 64) % 64) 0 := by
    rw [hHolds.bytes, Nat.add_comm 1, List.take_succ_cons, List.take_replicate, Nat.min_eq_left (by omega)]
  have hAll := (hHolds.write (0x80 :: List.replicate ((119 - message.length % 2 ^ 64 % 64) % 64) 0)).write
    (sizedesc ((message.length % 2 ^ 64) <<< 3))
  rw [finish, hPad, hHolds.bytes, hAll.state, BlockHash.absorbed, hBlock, padded]

end Digest

theorem Ripemd160.hashPieces_eq {garbage : Bytes} (hGarbage : garbage.length = 64) (pieces : List Bytes) :
    hashPieces garbage pieces = (CRIPEMD160.blocks ((Digest.padded (writeLE 8) pieces.flatten).length / 64)
      Digest.initialState (Digest.padded (writeLE 8) pieces.flatten)).toList.flatMap (writeLE 4) := by
  have hHolds : CRIPEMD160.Holds (pieces.foldl CRIPEMD160.write (CRIPEMD160.create garbage)) ([] ++ pieces.flatten) :=
    (BlockHash.Holds.create hGarbage).foldl_write pieces
  rw [List.nil_append] at hHolds
  rw [hashPieces, finalize, Digest.finish_eq rfl hHolds]
  rfl

theorem Sha1.hashPieces_eq {garbage : Bytes} (hGarbage : garbage.length = 64) (pieces : List Bytes) :
    hashPieces garbage pieces = (CSHA1.blocks ((Digest.padded (writeBE 8) pieces.flatten).length / 64)
      Digest.initialState (Digest.padded (writeBE 8) pieces.flatten)).toList.flatMap (writeBE 4) := by
  have hHolds : CSHA1.Holds (pieces.foldl CSHA1.write (CSHA1.create garbage)) ([] ++ pieces.flatten) :=
    (BlockHash.Holds.create hGarbage).foldl_write pieces
  rw [List.nil_append] at hHolds
  rw [hashPieces, finalize, Digest.finish_eq rfl hHolds]
  rfl

/-- However a message is cut and whatever the array held before, the padded message is hashed block by block. -/
theorem digests_of_pieces {garbage : Bytes} (hGarbage : garbage.length = 64) (pieces : List Bytes) :
    (64 ∣ (Digest.padded (writeLE 8) pieces.flatten).length ∧
      Ripemd160.hashPieces garbage pieces = Ripemd160.hash pieces.flatten ∧
      Ripemd160.hash pieces.flatten = (Ripemd160.CRIPEMD160.blocks ((Digest.padded (writeLE 8) pieces.flatten).length / 64)
        Digest.initialState (Digest.padded (writeLE 8) pieces.flatten)).toList.flatMap (writeLE 4)) ∧
    (64 ∣ (Digest.padded (writeBE 8) pieces.flatten).length ∧
      Sha1.hashPieces garbage pieces = Sha1.hash pieces.flatten ∧
      Sha1.hash pieces.flatten = (Sha1.CSHA1.blocks ((Digest.padded (writeBE 8) pieces.flatten).length / 64)
        Digest.initialState (Digest.padded (writeBE 8) pieces.flatten)).toList.flatMap (writeBE 4)) := by
  have hRipemd : Ripemd160.hash pieces.flatten = Ripemd160.hashPieces garbage pieces := by
    delta Ripemd160.hash
    rw [Ripemd160.hashPieces_eq hGarbage, Ripemd160.hashPieces_eq (List.length_replicate), List.flatten_singleton]
  have hSha : Sha1.hash pieces.flatten = Sha1.hashPieces garbage pieces := by
    delta Sha1.hash
    rw [Sha1.hashPieces_eq hGarbage, Sha1.hashPieces_eq (List.length_replicate), List.flatten_singleton]
  exact ⟨⟨Digest.dvd_length_padded (fun n => length_writeLE 8 n) _, hRipemd.symm,
      hRipemd.trans (Ripemd160.hashPieces_eq hGarbage pieces)⟩,
    Digest.dvd_length_padded (fun n => length_writeBE 8 n) _, hSha.symm, hSha.trans (Sha1.hashPieces_eq hGarbage pieces)⟩

theorem digests_of_pieces_cut : Ripemd160.hashPieces (List.replicate 64 7) [[1, 2], [], [3]] = Ripemd160.hash [1, 2, 3] ∧
    Sha1.hashPieces (List.replicate 64 7) [[1, 2], [], [3]] = Sha1.hash [1, 2, 3] :=
  have hBoth := digests_of_pieces (show (List.replicate 64 (7 : UInt8)).length = 64 from List.length_replicate)
    [[1, 2], [], [3]]
  ⟨hBoth.1.2.1, hBoth.2.2.1⟩

end BitcoinGpuMiner

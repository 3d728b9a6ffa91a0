import BitcoinGpuMiner.Encoding.Streaming

/-! # `btc_sha256_gpu.cl`

The kernel has its own copy of the hash function, on 32-bit words and with all rounds written out. Host and device
are little-endian.
-/

namespace BitcoinGpuMiner.Kernel

set_option autoImplicit false

def toBE32 (x : UInt32) : UInt32 :=
  ((x &&& 0xff000000) >>> 24) ||| ((x &&& 0x00ff0000) >>> 8) ||| ((x &&& 0x0000ff00) <<< 8) |||
    ((x &&& 0x000000ff) <<< 24)

def toBE64 (x : UInt64) : UInt64 :=
  ((x &&& 0xff00000000000000) >>> 56) ||| ((x &&& 0x00ff000000000000) >>> 40) |||
    ((x &&& 0x0000ff0000000000) >>> 24) ||| ((x &&& 0x000000ff00000000) >>> 8) |||
    ((x &&& 0x00000000ff000000) <<< 8) ||| ((x &&& 0x0000000000ff0000) <<< 24) |||
    ((x &&& 0x000000000000ff00) <<< 40) ||| ((x &&& 0x00000000000000ff) <<< 56)

def writeBE32Ex (x : UInt32) : Bytes := writeLE 4 (toBE32 x).toNat

def writeBE64Ex (x : UInt64) : Bytes := writeLE 8 (toBE64 x).toNat

def readBE32Ex (ptr : Bytes) : UInt32 := toBE32 (UInt32.ofNat (readLE (ptr.take 4)))

def ch (x y z : UInt32) : UInt32 := z ^^^ (x &&& (y ^^^ z))

def maj (x y z : UInt32) : UInt32 := (x &&& y) ||| (z &&& (x ||| y))

def bigSigma0 (x : UInt32) : UInt32 := (x >>> 2 ||| x <<< 30) ^^^ (x >>> 13 ||| x <<< 19) ^^^ (x >>> 22 ||| x <<< 10)

def bigSigma1 (x : UInt32) : UInt32 := (x >>> 6 ||| x <<< 26) ^^^ (x >>> 11 ||| x <<< 21) ^^^ (x >>> 25 ||| x <<< 7)

def sigma0 (x : UInt32) : UInt32 := (x >>> 7 ||| x <<< 25) ^^^ (x >>> 18 ||| x <<< 14) ^^^ (x >>> 3)

def sigma1 (x : UInt32) : UInt32 := (x >>> 17 ||| x <<< 15) ^^^ (x >>> 19 ||| x <<< 13) ^^^ (x >>> 10)

/-- The new values of `*d` and `*h`. -/
def round (a b c d e f g h k w : UInt32) : UInt32 × UInt32 :=
  let t1 := h + bigSigma1 e + ch e f g + k + w
  let t2 := bigSigma0 a + maj a b c
  (d + t1, t1 + t2)

structure Registers where
  a : UInt32
  b : UInt32
  c : UInt32
  d : UInt32
  e : UInt32
  f : UInt32
  g : UInt32
  h : UInt32

/-- Eight lines of `T`, after which the registers have their first roles again. -/
def rounds8 (r : Registers) (k0 w0 k1 w1 k2 w2 k3 w3 k4 w4 k5 w5 k6 w6 k7 w7 : UInt32) : Registers :=
  let (d, h) := round r.a r.b r.c r.d r.e r.f r.g r.h k0 w0
  let (c, g) := round h r.a r.b r.c d r.e r.f r.g k1 w1
  let (b, f) := round g h r.a r.b c d r.e r.f k2 w2
  let (a, e) := round f g h r.a b c d r.e k3 w3
  let (h, d) := round e f g h a b c d k4 w4
  let (g, c) := round d e f g h a b c k5 w5
  let (f, b) := round c d e f g h a b k6 w6
  let (e, a) := round b c d e f g h a k7 w7
  ⟨a, b, c, d, e, f, g, h⟩

structure Words where
  w0 : UInt32
  w1 : UInt32
  w2 : UInt32
  w3 : UInt32
  w4 : UInt32
  w5 : UInt32
  w6 : UInt32
  w7 : UInt32
  w8 : UInt32
  w9 : UInt32
  w10 : UInt32
  w11 : UInt32
  w12 : UInt32
  w13 : UInt32
  w14 : UInt32
  w15 : UInt32

def loadWords (chunk : Bytes) : Words where
  w0 := readBE32Ex (chunk.drop 0)
  w1 := readBE32Ex (chunk.drop 4)
  w2 := readBE32Ex (chunk.drop 8)
  w3 := readBE32Ex (chunk.drop 12)
  w4 := readBE32Ex (chunk.drop 16)
  w5 := readBE32Ex (chunk.drop 20)
  w6 := readBE32Ex (chunk.drop 24)
  w7 := readBE32Ex (chunk.drop 28)
  w8 := readBE32Ex (chunk.drop 32)
  w9 := readBE32Ex (chunk.drop 36)
  w10 := readBE32Ex (chunk.drop 40)
  w11 := readBE32Ex (chunk.drop 44)
  w12 := readBE32Ex (chunk.drop 48)
  w13 := readBE32Ex (chunk.drop 52)
  w14 := readBE32Ex (chunk.drop 56)
  w15 := readBE32Ex (chunk.drop 60)

/-- The words of sixteen further lines. The last two lines of all do not store their sum, which nothing reads. -/
def Words.next (w : Words) : Words :=
  let w0 := w.w0 + (sigma1 w.w14 + w.w9 + sigma0 w.w1)
  let w1 := w.w1 + (sigma1 w.w15 + w.w10 + sigma0 w.w2)
  let w2 := w.w2 + (sigma1 w0 + w.w11 + sigma0 w.w3)
  let w3 := w.w3 + (sigma1 w1 + w.w12 + sigma0 w.w4)
  let w4 := w.w4 + (sigma1 w2 + w.w13 + sigma0 w.w5)
  let w5 := w.w5 + (sigma1 w3 + w.w14 + sigma0 w.w6)
  let w6 := w.w6 + (sigma1 w4 + w.w15 + sigma0 w.w7)
  let w7 := w.w7 + (sigma1 w5 + w0 + sigma0 w.w8)
  let w8 := w.w8 + (sigma1 w6 + w1 + sigma0 w.w9)
  let w9 := w.w9 + (sigma1 w7 + w2 + sigma0 w.w10)
  let w10 := w.w10 + (sigma1 w8 + w3 + sigma0 w.w11)
  let w11 := w.w11 + (sigma1 w9 + w4 + sigma0 w.w12)
  let w12 := w.w12 + (sigma1 w10 + w5 + sigma0 w.w13)
  let w13 := w.w13 + (sigma1 w11 + w6 + sigma0 w.w14)
  let w14 := w.w14 + (sigma1 w12 + w7 + sigma0 w.w15)
  let w15 := w.w15 + (sigma1 w13 + w8 + sigma0 w0)
  ⟨w0, w1, w2, w3, w4, w5, w6, w7, w8, w9, w10, w11, w12, w13, w14, w15⟩

def rounds16 (r : Registers) (w : Words) (k0 k1 k2 k3 k4 k5 k6 k7 k8 k9 k10 k11 k12 k13 k14 k15 : UInt32) :
    Registers :=
  rounds8 (rounds8 r k0 w.w0 k1 w.w1 k2 w.w2 k3 w.w3 k4 w.w4 k5 w.w5 k6 w.w6 k7 w.w7)
    k8 w.w8 k9 w.w9 k10 w.w10 k11 w.w11 k12 w.w12 k13 w.w13 k14 w.w14 k15 w.w15

/-- The sixty-four lines of the loop of `T`. -/
def lines (r : Registers) (w : Words) : Registers :=
  let r := rounds16 r w
    0x428a2f98 0x71374491 0xb5c0fbcf 0xe9b5dba5 0x3956c25b 0x59f111f1 0x923f82a4 0xab1c5ed5
    0xd807aa98 0x12835b01 0x243185be 0x550c7dc3 0x72be5d74 0x80deb1fe 0x9bdc06a7 0xc19bf174
  let w := w.next
  let r := rounds16 r w
    0xe49b69c1 0xefbe4786 0x0fc19dc6 0x240ca1cc 0x2de92c6f 0x4a7484aa 0x5cb0a9dc 0x76f988da
    0x983e5152 0xa831c66d 0xb00327c8 0xbf597fc7 0xc6e00bf3 0xd5a79147 0x06ca6351 0x14292967
  let w := w.next
  let r := rounds16 r w
    0x27b70a85 0x2e1b2138 0x4d2c6dfc 0x53380d13 0x650a7354 0x766a0abb 0x81c2c92e 0x92722c85
    0xa2bfe8a1 0xa81a664b 0xc24b8b70 0xc76c51a3 0xd192e819 0xd6990624 0xf40e3585 0x106aa070
  let w := w.next
  rounds16 r w
    0x19a4c116 0x1e376c08 0x2748774c 0x34b0bcb5 0x391c0cb3 0x4ed8aa4a 0x5b9cca4f 0x682e6ff3
    0x748f82ee 0x78a5636f 0x84c87814 0x8cc70208 0x90befffa 0xa4506ceb 0xbef9a3f7 0xc67178f2

def transform (s : Registers) (chunk : Bytes) : Registers :=
  let r := lines s (loadWords chunk)
  ⟨s.a + r.a, s.b + r.b, s.c + r.c, s.d + r.d, s.e + r.e, s.f + r.f, s.g + r.g, s.h + r.h⟩

def t : Nat → Registers → Bytes → Registers
  | 0, s, _ => s
  | blocks + 1, s, chunk => t blocks (transform s chunk) (chunk.drop 64)

def reset : Registers :=
  ⟨0x6a09e667, 0xbb67ae85, 0x3c6ef372, 0xa54ff53a, 0x510e527f, 0x9b05688c, 0x1f83d9ab, 0x5be0cd19⟩

def finalize (s : Registers) : Bytes :=
  writeBE32Ex s.a ++ writeBE32Ex s.b ++ writeBE32Ex s.c ++ writeBE32Ex s.d ++
    writeBE32Ex s.e ++ writeBE32Ex s.f ++ writeBE32Ex s.g ++ writeBE32Ex s.h

/-- What `DoHash` writes at the start of `out`. -/
def doHash (data : Bytes) (blocks : Nat) (out : Bytes) : Bytes := memcpy out 0 (finalize (t blocks reset data))

/-- The bytes one work item writes, and the index of the first one in `pOut`. -/
structure Output where
  offset : UInt64
  bytes : Bytes
deriving DecidableEq

/-- `BtcDoubleSHA256` in the work item `globalId`. -/
def btcDoubleSHA256 (pIn : Bytes) (nonceOffset globalId : UInt32) : Output :=
  let puId : Int32 := globalId.toInt32
  let data := pIn.take 128
  let nonce : UInt32 := puId.toUInt32 + nonceOffset
  let data := memcpy data 76 (writeLE 4 nonce.toNat)
  let hashResult : Bytes := List.replicate 64 0
  let hashResult := doHash data 2 hashResult
  let hashResult := memcpy hashResult 32 [0x80]
  let hashResult := memcpy hashResult 56 (writeBE64Ex ((32 : UInt64) <<< 3))
  let hashResult := doHash hashResult 1 hashResult
  -- the product of two `int` values, converted afterwards
  let outDataOffset : UInt64 := (puId * 32).toInt64.toUInt64
  ⟨outDataOffset, hashResult.take 32⟩

/-- The kernel in the work items `0`, …, `count - 1`, on the output buffer `pOut`. -/
def launch (pIn : Bytes) (nonceOffset : UInt32) (count : Nat) (pOut : Bytes) : Bytes :=
  (List.range count).foldl (fun pOut i =>
    let output := btcDoubleSHA256 pIn nonceOffset (UInt32.ofNat i)
    memcpy pOut output.offset.toNat output.bytes) pOut

/-- The buffer as the host reads it back. -/
def readResults : Nat → Bytes → List Uint256
  | 0, _ => []
  | count + 1, pOut => Uint256.ofBytes (pOut.take 32) :: readResults count (pOut.drop 32)

end BitcoinGpuMiner.Kernel

namespace BitcoinGpuMiner

/-- `PadBlockHaderData` on a vector of 128 bytes. -/
def padBlockHaderData (vBytes : Bytes) : Bytes :=
  let buf := memcpy vBytes 80 (List.replicate 48 0)
  let buf := memcpy buf 80 [0x80]
  memcpy buf 120 (writeBE 8 (80 <<< 3))

end BitcoinGpuMiner

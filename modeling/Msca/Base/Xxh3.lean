import Msca.Base.Bytes

/-! The 64-bit XXH3 hash of a byte string with the default secret and seed zero. Words are naturals
below `2 ^ 64`; every sum and product is reduced. -/
namespace Xxh3
set_option autoImplicit false

/-- The default secret, as one little-endian number. -/
def secret : Bytes := Bytes.leBytes 192
  0x7e404bbbcafbd7af280416958f3acb45ce31d07ad1b8f88ffca1477d58be162b9e68d429265516d349daf0b751dd0d17eb6313faffa081c5c3ebd33483acc5ea647378d9c97e9fc83159b4cd4be0518a1d4f0bc7c7bbdcf93f349ce33f76faa8d8acdea946ef19384ef90da297486471a32e531b8b65d088cb00c391bb52283c4c263a81e69035e08e2443f7744608b82172ffcc7dd05a8278e5c0cc4ee679cb1f67b3b7a4a44072db979083e96dd4de1cad21f72c81017cbe4ba423396cfeb8

def P32_1 : Nat := 0x9E3779B1
def P32_2 : Nat := 0x85EBCA77
def P32_3 : Nat := 0xC2B2AE3D
def P64_1 : Nat := 0x9E3779B185EBCA87
def P64_2 : Nat := 0xC2B2AE3D27D4EB4F
def P64_3 : Nat := 0x165667B19E3779F9
def P64_4 : Nat := 0x85EBCA77C2B2AE63
def P64_5 : Nat := 0x27D4EB2F165667C5
def PMX1 : Nat := 0x165667919E3779F9
def PMX2 : Nat := 0x9FB21C651E98DF25

def word (n : Nat) : Nat := n % 2 ^ 64

def read (width : Nat) (bs : Bytes) (off : Nat) : Nat := Bytes.ofLe (Bytes.slice bs off width)

def rotl (n k : Nat) : Nat := word (n <<< k) ||| (n >>> (64 - k))

def shiftXor (n k : Nat) : Nat := n ^^^ (n >>> k)

/-- The halves of a 128-bit product, combined. -/
def fold64 (a b : Nat) : Nat := word (a * b) ^^^ ((a * b) >>> 64)

def avalanche64 (h : Nat) : Nat :=
  shiftXor (word (shiftXor (word (shiftXor h 33 * P64_2)) 29 * P64_3)) 32

def avalanche (h : Nat) : Nat := shiftXor (word (shiftXor h 37 * PMX1)) 32

def rrmxmx (h len : Nat) : Nat :=
  let h := word ((h ^^^ rotl h 49 ^^^ rotl h 24) * PMX2)
  shiftXor (word ((h ^^^ word (h >>> 35 + len)) * PMX2)) 28

def mix16 (bs : Bytes) (off sec : Nat) : Nat :=
  fold64 (read 8 bs off ^^^ read 8 secret sec) (read 8 bs (off + 8) ^^^ read 8 secret (sec + 8))

/-! ## Inputs by length -/

def upTo3 (bs : Bytes) : Nat :=
  let at' (i : Nat) := read 1 bs i
  let combined := (at' 0 <<< 16) ||| (at' (bs.length / 2) <<< 24) ||| at' (bs.length - 1) ||| (bs.length <<< 8)
  avalanche64 (combined ^^^ (read 4 secret 0 ^^^ read 4 secret 4))

def upTo8 (bs : Bytes) : Nat :=
  let both := word (read 4 bs (bs.length - 4) + (read 4 bs 0 <<< 32))
  rrmxmx (both ^^^ (read 8 secret 8 ^^^ read 8 secret 16)) bs.length

def upTo16 (bs : Bytes) : Nat :=
  let lo := read 8 bs 0 ^^^ (read 8 secret 24 ^^^ read 8 secret 32)
  let hi := read 8 bs (bs.length - 8) ^^^ (read 8 secret 40 ^^^ read 8 secret 48)
  let swapped := Bytes.ofLe (Bytes.leBytes 8 lo).reverse
  avalanche (word (bs.length + swapped + hi + fold64 lo hi))

def upTo128 (bs : Bytes) : Nat :=
  let pairs := (List.range 4).filter fun i => decide (i = 0) || decide (32 * i < bs.length)
  avalanche (word (bs.length * P64_1 + (pairs.map fun i =>
    mix16 bs (16 * i) (32 * i) + mix16 bs (bs.length - 16 * (i + 1)) (32 * i + 16)).sum))

def upTo240 (bs : Bytes) : Nat :=
  let head := ((List.range 8).map fun i => mix16 bs (16 * i) (16 * i)).sum
  let rest := ((List.range (bs.length / 16 - 8)).map fun i => mix16 bs (16 * (i + 8)) (16 * i + 3)).sum
  avalanche (word (avalanche (word (bs.length * P64_1 + head)) + rest + mix16 bs (bs.length - 16) 119))

/-! ## Long inputs -/

def init : List Nat := [P32_3, P64_1, P64_2, P64_3, P64_4, P32_2, P64_5, P32_1]

/-- One stripe of 64 bytes at `off`. -/
def stripe (bs : Bytes) (acc : List Nat) (off sec : Nat) : List Nat :=
  let lane (i : Nat) := read 8 bs (off + 8 * i)
  let key (i : Nat) := lane i ^^^ read 8 secret (sec + 8 * i)
  acc.mapIdx fun i a => word (a + lane (i ^^^ 1) + key i % 2 ^ 32 * (key i >>> 32))

def stripes (bs : Bytes) (acc : List Nat) (off count : Nat) : List Nat :=
  (List.range count).foldl (fun acc i => stripe bs acc (off + 64 * i) (8 * i)) acc

def scramble (acc : List Nat) : List Nat :=
  acc.mapIdx fun i a => word ((shiftXor a 47 ^^^ read 8 secret (128 + 8 * i)) * P32_1)

def merge (acc : List Nat) (start : Nat) : Nat :=
  let at' (i : Nat) := acc.getD i 0 ^^^ read 8 secret (11 + 8 * i)
  avalanche (word (start + ((List.range 4).map fun i => fold64 (at' (2 * i)) (at' (2 * i + 1))).sum))

def long (bs : Bytes) : Nat :=
  let blocks := (bs.length - 1) / 1024
  let acc := (List.range blocks).foldl (fun acc i => scramble (stripes bs acc (1024 * i) 16)) init
  let acc := stripes bs acc (1024 * blocks) ((bs.length - 1 - 1024 * blocks) / 64)
  merge (stripe bs acc (bs.length - 64) 121) (word (bs.length * P64_1))

def hash (bs : Bytes) : Nat :=
  if bs.length = 0 then avalanche64 (read 8 secret 56 ^^^ read 8 secret 64)
  else if bs.length ≤ 3 then upTo3 bs
  else if bs.length ≤ 8 then upTo8 bs
  else if bs.length ≤ 16 then upTo16 bs
  else if bs.length ≤ 128 then upTo128 bs
  else if bs.length ≤ 240 then upTo240 bs
  else long bs

end Xxh3

/- The part of the zlib format that stores its content in one block, uncompressed. -/

import Mathlib.Algebra.Order.Ring.Nat
import StreamDataPipeline.Foundations.ByteString

set_option autoImplicit false
set_option relaxedAutoImplicit false

namespace StreamDataPipeline.Foundations.StoredDeflate

open ByteString

def adlerStep (sums : Nat × Nat) (x : UInt8) : Nat × Nat :=
  ((sums.1 + x.toNat) % 65521, (sums.2 + sums.1 + x.toNat) % 65521)

def adler32 (data : Bytes) : Nat :=
  let sums := data.foldl adlerStep (1, 0)
  sums.2 * 2 ^ 16 + sums.1

def be32 (n : Nat) : Bytes :=
  [UInt8.ofNat (n / 2 ^ 24), UInt8.ofNat (n / 2 ^ 16), UInt8.ofNat (n / 2 ^ 8), UInt8.ofNat n]

def le16 (n : Nat) : Bytes := [UInt8.ofNat n, UInt8.ofNat (n / 2 ^ 8)]

/-- One final stored block, for content that fits a block. -/
def compressStored (data : Bytes) : Option Bytes :=
  if data.length < 2 ^ 16 then
    some ([0x78, 0x9c, 1] ++ le16 data.length ++ le16 (2 ^ 16 - 1 - data.length) ++
      (data ++ be32 (adler32 data)))
  else none

def inflateStored : Bytes → Option Bytes
  | 0x78 :: 0x9c :: 1 :: l₀ :: l₁ :: n₀ :: n₁ :: rest =>
      let len := l₀.toNat + l₁.toNat * 2 ^ 8
      let data := rest.take len
      if n₀.toNat + n₁.toNat * 2 ^ 8 = 2 ^ 16 - 1 - len ∧ len ≤ rest.length ∧
          (rest.drop len).take 4 = be32 (adler32 data) then some data
      else none
  | _ => none

private theorem le16_value {n : Nat} (h : n < 2 ^ 16) :
    (UInt8.ofNat n).toNat + (UInt8.ofNat (n / 2 ^ 8)).toNat * 2 ^ 8 = n := by
  simp only [UInt8.toNat_ofNat']
  omega

theorem inflateStored_compressStored {data comp : Bytes} (h : compressStored data = some comp) :
    inflateStored comp = some data := by
  unfold compressStored at h
  split_ifs at h with short
  cases h
  have len := le16_value short
  have complement := le16_value (show 2 ^ 16 - 1 - data.length < 2 ^ 16 by omega)
  simp only [le16, List.cons_append, List.nil_append, inflateStored, len, complement,
    List.take_left, List.drop_left]
  simp [be32]

end StreamDataPipeline.Foundations.StoredDeflate

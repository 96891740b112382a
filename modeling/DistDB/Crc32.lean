import DistDB.Bytes

/-!
The table-driven CRC-32 of `storage/crc32.cpp`.
-/

namespace DistDB.Crc32

/-- One pass of the inner loop of `ComputeTableEntry`. -/
def bitStep (c : BitVec 32) : BitVec 32 :=
  if c &&& 1#32 ≠ 0#32 then 0xEDB88320#32 ^^^ (c >>> 1) else c >>> 1

def computeTableEntry (n : BitVec 32) : BitVec 32 :=
  (List.range 8).foldl (fun c _ => bitStep c) n

def crcTable : List (BitVec 32) :=
  (List.range 256).map fun n => computeTableEntry (BitVec.ofNat 32 n)

def byteStep (crc : BitVec 32) (b : UInt8) : BitVec 32 :=
  crcTable.getD ((crc ^^^ b.toBitVec.setWidth 32) &&& 0xFF#32).toNat 0 ^^^ (crc >>> 8)

def crc32 (bytes : Bytes) : BitVec 32 := bytes.foldl byteStep 0xFFFFFFFF#32 ^^^ 0xFFFFFFFF#32

-- the check value of CRC-32: the digits one to nine
example : crc32 [49, 50, 51, 52, 53, 54, 55, 56, 57] = 0xCBF43926#32 := by decide +kernel

end DistDB.Crc32

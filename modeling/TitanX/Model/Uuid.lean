import TitanX.Lib.Hex

/-!
# Generated ids

`generate_uuid` of `titanx/model/Order`: the text of a version 4 UUID made of two draws of a
64-bit generator. The generator itself, a Mersenne twister per thread that is seeded with the
time and the thread, is outside: the draws are parameters.
-/

namespace TitanX

/-- The arguments of the `snprintf`, with their casts. -/
def uuidFields (a b : UInt64) : UInt32 × UInt16 × UInt16 × UInt16 × UInt64 :=
  ((a >>> 32).toUInt32,
    ((a >>> 16) &&& 0xFFFF).toUInt16,
    ((0x4000 : UInt64) ||| (a &&& 0x0FFF)).toUInt16,
    ((0x8000 : UInt64) ||| ((b >>> 48) &&& 0x3FFF)).toUInt16,
    b &&& 0x0000FFFFFFFFFFFF)

def generateUuid (a b : UInt64) : String :=
  let (timeLow, timeMid, version, variant, node) := uuidFields a b
  String.ofList (Hex.print 8 timeLow.toNat ++ '-' :: (Hex.print 4 timeMid.toNat
    ++ '-' :: (Hex.print 4 version.toNat ++ '-' :: (Hex.print 4 variant.toNat
    ++ '-' :: Hex.print 12 node.toNat))))

end TitanX

import Mathlib.Tactic.Common

/-!
# `Ndsl.Net.Crc`: the checksum of a data block

`DTP.cc`: `getCRC16_CCITT` and the two functions that turn the bits of a byte and of the result
around.
-/

set_option autoImplicit false

namespace Ndsl.Net.Dtp

/-- `DTP::InvertUint8`. -/
def invertUint8 (srcBuf : UInt8) : UInt8 :=
  (List.range 8).foldl (fun tmp i =>
    if srcBuf &&& (1 <<< UInt8.ofNat i) ≠ 0 then tmp ||| (1 <<< UInt8.ofNat (7 - i)) else tmp) 0

/-- `DTP::InvertUint16`. -/
def invertUint16 (srcBuf : UInt16) : UInt16 :=
  (List.range 16).foldl (fun tmp i =>
    if srcBuf &&& (1 <<< UInt16.ofNat i) ≠ 0 then tmp ||| (1 <<< UInt16.ofNat (15 - i)) else tmp) 0

/-- One turn of the inner loop of `getCRC16_CCITT`. -/
def crcShift (wCRCin : UInt16) : UInt16 :=
  if wCRCin &&& 0x8000 ≠ 0 then (wCRCin <<< 1) ^^^ 0x1021 else wCRCin <<< 1

/-- One turn of the outer loop. -/
def crcByte (wCRCin : UInt16) (byte : UInt8) : UInt16 :=
  (List.range 8).foldl (fun wCRCin _ => crcShift wCRCin)
    (wCRCin ^^^ ((invertUint8 byte).toUInt16 <<< 8))

/-- `DTP::getCRC16_CCITT` of a buffer. -/
def getCRC16_CCITT (puchMsg : List UInt8) : UInt16 :=
  invertUint16 (puchMsg.foldl crcByte 0)

/-- The check value of the parameters 0x1021, reflected, zero initial value. -/
example : getCRC16_CCITT [0x31, 0x32, 0x33, 0x34, 0x35, 0x36, 0x37, 0x38, 0x39] = 0x2189 := by
  decide +kernel

end Ndsl.Net.Dtp

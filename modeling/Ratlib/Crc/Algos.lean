import Ratlib.Crc.Detection

/-! The predefined algorithms of rcrc.h and rat_rcrc.c. `rcrc_init` accepts the row of each
identifier, and every polynomial has a constant term. -/
namespace Ratlib.Crc

open Feedback Residue Rocksoft

inductive RcrcId where
  | rcrc1ParityBit | rcrc3Gsm | rcrc3Rohc | rcrc4G704 | rcrc4Interlaken | rcrc5EpcC1g2 | rcrc5G704
  | rcrc5Usb | rcrc6Cdma2000A | rcrc6Cdma2000B | rcrc6Darc | rcrc6G704 | rcrc6Gsm | rcrc7Mmc
  | rcrc7Rohc | rcrc7Umts | rcrc8Autosar | rcrc8Bluetooth | rcrc8Cdma2000 | rcrc8Darc | rcrc8DvbS2
  | rcrc8GsmA | rcrc8GsmB | rcrc8Hitag | rcrc8I432_1 | rcrc8ICode | rcrc8Lte | rcrc8MaximDow
  | rcrc8MifareMad | rcrc8Nrsc5 | rcrc8Opensafety | rcrc8Rohc | rcrc8SaeJ1850 | rcrc8Smbus
  | rcrc8Tech3250 | rcrc8Wcdma | rcrc10Atm | rcrc10Cdma2000 | rcrc10Gsm | rcrc11Flexray
  | rcrc11Umts | rcrc12Cdma2000 | rcrc12Dect | rcrc12Gsm | rcrc12Umts | rcrc13Bbc | rcrc14Darc
  | rcrc14Gsm | rcrc15Can | rcrc15Mpt1327 | rcrc16Arc | rcrc16Cdma2000 | rcrc16Cms | rcrc16Dds110
  | rcrc16DectR | rcrc16DectX | rcrc16Dnp | rcrc16En13757 | rcrc16Genibus | rcrc16Gsm
  | rcrc16Ibm3740 | rcrc16IbmSdlc | rcrc16IsoIec14443_3A | rcrc16Kermit | rcrc16Lj1200 | rcrc16M17
  | rcrc16MaximDow | rcrc16Mcrf4xx | rcrc16Modbus | rcrc16Nrsc5 | rcrc16OpensafetyA
  | rcrc16OpensafetyB | rcrc16Profibus | rcrc16Riello | rcrc16SpiFujitsu | rcrc16T10Dif
  | rcrc16Teledisk | rcrc16Tms37157 | rcrc16Umts | rcrc16Usb | rcrc16Xmodem | rcrc17CanFd
  | rcrc21CanFd | rcrc24Ble | rcrc24FlexrayA | rcrc24FlexrayB | rcrc24Interlaken | rcrc24LteA
  | rcrc24LteB | rcrc24Openpgp | rcrc24Os9 | rcrc30Cdma | rcrc31Philips | rcrc32Aixm
  | rcrc32Autosar | rcrc32Base91D | rcrc32Bzip2 | rcrc32CdRomEdc | rcrc32Cksum | rcrc32Iscsi
  | rcrc32IsoHdlc | rcrc32Jamcrc | rcrc32Mef | rcrc32Mpeg2 | rcrc32Xfer | rcrc32Sata | rcrc40Gsm
  | rcrc64Ecma182 | rcrc64GoIso | rcrc64Ms | rcrc64Redis | rcrc64We | rcrc64Xz

structure Algo where
  poly : UintMax
  init : UintMax
  xorOut : UintMax
  bitWidth : Nat
  refIn : Bool
  refOut : Bool

def algos : RcrcId → Algo
  | .rcrc1ParityBit => ⟨0x01, 0x00, 0x00, 1, false, false⟩
  | .rcrc3Gsm => ⟨0x03, 0x00, 0x07, 3, false, false⟩
  | .rcrc3Rohc => ⟨0x03, 0x07, 0x00, 3, true, true⟩
  | .rcrc4G704 => ⟨0x03, 0x00, 0x00, 4, true, true⟩
  | .rcrc4Interlaken => ⟨0x03, 0x0F, 0x0F, 4, false, false⟩
  | .rcrc5EpcC1g2 => ⟨0x09, 0x09, 0x00, 5, false, false⟩
  | .rcrc5G704 => ⟨0x15, 0x00, 0x00, 5, true, true⟩
  | .rcrc5Usb => ⟨0x05, 0x1F, 0x1F, 5, true, true⟩
  | .rcrc6Cdma2000A => ⟨0x27, 0x3F, 0x00, 6, false, false⟩
  | .rcrc6Cdma2000B => ⟨0x07, 0x3F, 0x00, 6, false, false⟩
  | .rcrc6Darc => ⟨0x19, 0x00, 0x00, 6, true, true⟩
  | .rcrc6G704 => ⟨0x03, 0x00, 0x00, 6, true, true⟩
  | .rcrc6Gsm => ⟨0x2F, 0x00, 0x3F, 6, false, false⟩
  | .rcrc7Mmc => ⟨0x09, 0x00, 0x00, 7, false, false⟩
  | .rcrc7Rohc => ⟨0x4F, 0x7F, 0x00, 7, true, true⟩
  | .rcrc7Umts => ⟨0x45, 0x00, 0x00, 7, false, false⟩
  | .rcrc8Autosar => ⟨0x2F, 0xFF, 0xFF, 8, false, false⟩
  | .rcrc8Bluetooth => ⟨0xA7, 0x00, 0x00, 8, true, true⟩
  | .rcrc8Cdma2000 => ⟨0x9B, 0xFF, 0x00, 8, false, false⟩
  | .rcrc8Darc => ⟨0x39, 0x00, 0x00, 8, true, true⟩
  | .rcrc8DvbS2 => ⟨0xD5, 0x00, 0x00, 8, false, false⟩
  | .rcrc8GsmA => ⟨0x1D, 0x00, 0x00, 8, false, false⟩
  | .rcrc8GsmB => ⟨0x49, 0x00, 0xFF, 8, false, false⟩
  | .rcrc8Hitag => ⟨0x1D, 0xFF, 0x00, 8, false, false⟩
  | .rcrc8I432_1 => ⟨0x07, 0x00, 0x55, 8, false, false⟩
  | .rcrc8ICode => ⟨0x1D, 0xFD, 0x00, 8, false, false⟩
  | .rcrc8Lte => ⟨0x9B, 0x00, 0x00, 8, false, false⟩
  | .rcrc8MaximDow => ⟨0x31, 0x00, 0x00, 8, true, true⟩
  | .rcrc8MifareMad => ⟨0x1D, 0xC7, 0x00, 8, false, false⟩
  | .rcrc8Nrsc5 => ⟨0x31, 0xFF, 0x00, 8, false, false⟩
  | .rcrc8Opensafety => ⟨0x2F, 0x00, 0x00, 8, false, false⟩
  | .rcrc8Rohc => ⟨0x07, 0xFF, 0x00, 8, true, true⟩
  | .rcrc8SaeJ1850 => ⟨0x1D, 0xFF, 0xFF, 8, false, false⟩
  | .rcrc8Smbus => ⟨0x07, 0x00, 0x00, 8, false, false⟩
  | .rcrc8Tech3250 => ⟨0x1D, 0xFF, 0x00, 8, true, true⟩
  | .rcrc8Wcdma => ⟨0x9B, 0x00, 0x00, 8, true, true⟩
  | .rcrc10Atm => ⟨0x0233, 0x0000, 0x0000, 10, false, false⟩
  | .rcrc10Cdma2000 => ⟨0x03D9, 0x03FF, 0x0000, 10, false, false⟩
  | .rcrc10Gsm => ⟨0x0175, 0x0000, 0x03FF, 10, false, false⟩
  | .rcrc11Flexray => ⟨0x0385, 0x001A, 0x0000, 11, false, false⟩
  | .rcrc11Umts => ⟨0x0307, 0x0000, 0x0000, 11, false, false⟩
  | .rcrc12Cdma2000 => ⟨0x0F13, 0x0FFF, 0x0000, 12, false, false⟩
  | .rcrc12Dect => ⟨0x080F, 0x0000, 0x0000, 12, false, false⟩
  | .rcrc12Gsm => ⟨0x0D31, 0x0000, 0x0FFF, 12, false, false⟩
  | .rcrc12Umts => ⟨0x080F, 0x0000, 0x0000, 12, false, true⟩
  | .rcrc13Bbc => ⟨0x1CF5, 0x0000, 0x0000, 13, false, false⟩
  | .rcrc14Darc => ⟨0x0805, 0x0000, 0x0000, 14, true, true⟩
  | .rcrc14Gsm => ⟨0x202D, 0x0000, 0x3FFF, 14, false, false⟩
  | .rcrc15Can => ⟨0x4599, 0x0000, 0x0000, 15, false, false⟩
  | .rcrc15Mpt1327 => ⟨0x6815, 0x0000, 0x0001, 15, false, false⟩
  | .rcrc16Arc => ⟨0x8005, 0x0000, 0x0000, 16, true, true⟩
  | .rcrc16Cdma2000 => ⟨0xC867, 0xFFFF, 0x0000, 16, false, false⟩
  | .rcrc16Cms => ⟨0x8005, 0xFFFF, 0x0000, 16, false, false⟩
  | .rcrc16Dds110 => ⟨0x8005, 0x800D, 0x0000, 16, false, false⟩
  | .rcrc16DectR => ⟨0x0589, 0x0000, 0x0001, 16, false, false⟩
  | .rcrc16DectX => ⟨0x0589, 0x0000, 0x0000, 16, false, false⟩
  | .rcrc16Dnp => ⟨0x3D65, 0x0000, 0xFFFF, 16, true, true⟩
  | .rcrc16En13757 => ⟨0x3D65, 0x0000, 0xFFFF, 16, false, false⟩
  | .rcrc16Genibus => ⟨0x1021, 0xFFFF, 0xFFFF, 16, false, false⟩
  | .rcrc16Gsm => ⟨0x1021, 0x0000, 0xFFFF, 16, false, false⟩
  | .rcrc16Ibm3740 => ⟨0x1021, 0xFFFF, 0x0000, 16, false, false⟩
  | .rcrc16IbmSdlc => ⟨0x1021, 0xFFFF, 0xFFFF, 16, true, true⟩
  | .rcrc16IsoIec14443_3A => ⟨0x1021, 0xC6C6, 0x0000, 16, true, true⟩
  | .rcrc16Kermit => ⟨0x1021, 0x0000, 0x0000, 16, true, true⟩
  | .rcrc16Lj1200 => ⟨0x6F63, 0x0000, 0x0000, 16, false, false⟩
  | .rcrc16M17 => ⟨0x5935, 0xFFFF, 0x0000, 16, false, false⟩
  | .rcrc16MaximDow => ⟨0x8005, 0x0000, 0xFFFF, 16, true, true⟩
  | .rcrc16Mcrf4xx => ⟨0x1021, 0xFFFF, 0x0000, 16, true, true⟩
  | .rcrc16Modbus => ⟨0x8005, 0xFFFF, 0x0000, 16, true, true⟩
  | .rcrc16Nrsc5 => ⟨0x080B, 0xFFFF, 0x0000, 16, true, true⟩
  | .rcrc16OpensafetyA => ⟨0x5935, 0x0000, 0x0000, 16, false, false⟩
  | .rcrc16OpensafetyB => ⟨0x755B, 0x0000, 0x0000, 16, false, false⟩
  | .rcrc16Profibus => ⟨0x1DCF, 0xFFFF, 0xFFFF, 16, false, false⟩
  | .rcrc16Riello => ⟨0x1021, 0xB2AA, 0x0000, 16, true, true⟩
  | .rcrc16SpiFujitsu => ⟨0x1021, 0x1D0F, 0x0000, 16, false, false⟩
  | .rcrc16T10Dif => ⟨0x8BB7, 0x0000, 0x0000, 16, false, false⟩
  | .rcrc16Teledisk => ⟨0xA097, 0x0000, 0x0000, 16, false, false⟩
  | .rcrc16Tms37157 => ⟨0x1021, 0x89EC, 0x0000, 16, true, true⟩
  | .rcrc16Umts => ⟨0x8005, 0x0000, 0x0000, 16, false, false⟩
  | .rcrc16Usb => ⟨0x8005, 0xFFFF, 0xFFFF, 16, true, true⟩
  | .rcrc16Xmodem => ⟨0x1021, 0x0000, 0x0000, 16, false, false⟩
  | .rcrc17CanFd => ⟨0x01685B, 0x000000, 0x000000, 17, false, false⟩
  | .rcrc21CanFd => ⟨0x102899, 0x000000, 0x000000, 21, false, false⟩
  | .rcrc24Ble => ⟨0x00065B, 0x555555, 0x000000, 24, true, true⟩
  | .rcrc24FlexrayA => ⟨0x5D6DCB, 0xFEDCBA, 0x000000, 24, false, false⟩
  | .rcrc24FlexrayB => ⟨0x5D6DCB, 0xABCDEF, 0x000000, 24, false, false⟩
  | .rcrc24Interlaken => ⟨0x328B63, 0xFFFFFF, 0xFFFFFF, 24, false, false⟩
  | .rcrc24LteA => ⟨0x864CFB, 0x000000, 0x000000, 24, false, false⟩
  | .rcrc24LteB => ⟨0x800063, 0x000000, 0x000000, 24, false, false⟩
  | .rcrc24Openpgp => ⟨0x864CFB, 0xB704CE, 0x000000, 24, false, false⟩
  | .rcrc24Os9 => ⟨0x800063, 0xFFFFFF, 0xFFFFFF, 24, false, false⟩
  | .rcrc30Cdma => ⟨0x2030B9C7, 0x3FFFFFFF, 0x3FFFFFFF, 30, false, false⟩
  | .rcrc31Philips => ⟨0x04C11DB7, 0x7FFFFFFF, 0x7FFFFFFF, 31, false, false⟩
  | .rcrc32Aixm => ⟨0x814141AB, 0x00000000, 0x00000000, 32, false, false⟩
  | .rcrc32Autosar => ⟨0xF4ACFB13, 0xFFFFFFFF, 0xFFFFFFFF, 32, true, true⟩
  | .rcrc32Base91D => ⟨0xA833982B, 0xFFFFFFFF, 0xFFFFFFFF, 32, true, true⟩
  | .rcrc32Bzip2 => ⟨0x04C11DB7, 0xFFFFFFFF, 0xFFFFFFFF, 32, false, false⟩
  | .rcrc32CdRomEdc => ⟨0x8001801B, 0x00000000, 0x00000000, 32, true, true⟩
  | .rcrc32Cksum => ⟨0x04C11DB7, 0x00000000, 0xFFFFFFFF, 32, false, false⟩
  | .rcrc32Iscsi => ⟨0x1EDC6F41, 0xFFFFFFFF, 0xFFFFFFFF, 32, true, true⟩
  | .rcrc32IsoHdlc => ⟨0x04C11DB7, 0xFFFFFFFF, 0xFFFFFFFF, 32, true, true⟩
  | .rcrc32Jamcrc => ⟨0x04C11DB7, 0xFFFFFFFF, 0x00000000, 32, true, true⟩
  | .rcrc32Mef => ⟨0x741B8CD7, 0xFFFFFFFF, 0x00000000, 32, true, true⟩
  | .rcrc32Mpeg2 => ⟨0x04C11DB7, 0xFFFFFFFF, 0x00000000, 32, false, false⟩
  | .rcrc32Xfer => ⟨0x000000AF, 0x00000000, 0x00000000, 32, false, false⟩
  | .rcrc32Sata => ⟨0x04C11DB7, 0x52325032, 0x00000000, 32, false, false⟩
  | .rcrc40Gsm => ⟨0x0000000004820009, 0x0000000000000000, 0x000000FFFFFFFFFF, 40, false, false⟩
  | .rcrc64Ecma182 => ⟨0x42F0E1EBA9EA3693, 0x0000000000000000, 0x0000000000000000, 64, false, false⟩
  | .rcrc64GoIso => ⟨0x000000000000001B, 0xFFFFFFFFFFFFFFFF, 0xFFFFFFFFFFFFFFFF, 64, true, true⟩
  | .rcrc64Ms => ⟨0x259C84CBA6426349, 0xFFFFFFFFFFFFFFFF, 0x0000000000000000, 64, true, true⟩
  | .rcrc64Redis => ⟨0xAD93D23594C935A9, 0x0000000000000000, 0x0000000000000000, 64, true, true⟩
  | .rcrc64We => ⟨0x42F0E1EBA9EA3693, 0xFFFFFFFFFFFFFFFF, 0xFFFFFFFFFFFFFFFF, 64, false, false⟩
  | .rcrc64Xz => ⟨0x42F0E1EBA9EA3693, 0xFFFFFFFFFFFFFFFF, 0xFFFFFFFFFFFFFFFF, 64, true, true⟩

def rcrcInitFromId (id : RcrcId) : Rcrc :=
  let algo := algos id
  rcrcInit algo.bitWidth algo.poly algo.init algo.refIn algo.refOut algo.xorOut

def rcrcCalcFromId (id : RcrcId) (buf : List Byte) : UintMax := rcrcResult (rcrcAdd (rcrcInitFromId id) buf)

theorem algos_accepted (id : RcrcId) :
    rcrcInitAsserts (algos id).bitWidth (algos id).poly (algos id).init (algos id).xorOut = true := by
  cases id <;> rfl

theorem algos_odd (id : RcrcId) : (algos id).poly.getLsbD 0 = true := by
  cases id <;> rfl

def Algo.rocksoft (a : Algo) : Rocksoft a.bitWidth :=
  ⟨a.poly.setWidth _, a.init.setWidth _, a.refIn, a.refOut, a.xorOut.setWidth _⟩

/-- `rcrc_init` accepts the row of a predefined algorithm, which then gives the CRC of its
model, by one call or by any sequence of calls, for exactly the messages that meet all of its
`init`, so for all where that is zero and for all of at least its width; and it detects every
error within as many consecutive bits. -/
theorem rcrcFromId_correct (id : RcrcId) :
    let r := (algos id).rocksoft
    rcrcInitAsserts (algos id).bitWidth (algos id).poly (algos id).init (algos id).xorOut = true ∧
      (∀ calls : List Call, rcrcResult (calls.foldl Call.apply (rcrcInitFromId id)) =
        (r.crc (calls.flatMap Call.bytes)).setWidth 64 ↔ InitMet r.init (8 * (calls.flatMap Call.bytes).length)) ∧
      (∀ message, rcrcCalcFromId id message = (r.crc message).setWidth 64 ↔ InitMet r.init (8 * message.length)) ∧
      ∀ message message' first, message.length = message'.length → message ≠ message' →
        (∀ i : Nat, (difference r.refIn message message')[i]? = some true →
          first ≤ i ∧ i < first + (algos id).bitWidth) →
        rcrcCalcFromId id message ≠ rcrcCalcFromId id message' := by
  intro r
  obtain ⟨positive, bound, start⟩ := rcrcInit_start (algos_accepted id) (algos id).refIn (algos id).refOut
  have start : rcrcInitFromId id = r.start := start
  have odd : r.poly.getLsbD 0 = true := by
    have := algos_odd id
    simpa [r, Algo.rocksoft, positive] using this
  refine ⟨algos_accepted id, fun calls => ?_, fun message => ?_,
    fun message message' first length differ window same => ?_⟩
  · rw [start]
    exact consumed_correct_iff positive bound (consumed_calls positive bound calls (consumed_start r))
  · rw [rcrcCalcFromId, start]
    exact consumed_correct_iff positive bound (consumed_add positive bound message (consumed_start r))
  · rw [rcrcCalcFromId, rcrcCalcFromId, start] at same
    exact differ (burst_missed positive bound odd length window same)

end Ratlib.Crc

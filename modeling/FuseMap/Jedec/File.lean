import FuseMap.Fuse.Array
import FuseMap.Jedec.Field
import FuseMap.Text.Basic

/-! # Fuse files

The format of a fuse file, with `STX` and `ETX` for the characters 2 and 3:

```
STX Device: GAL22V10
*F0            state of the fuses that are not listed
*G0            security fuse off
*QF5892        number of fuses
*L0044 1111    first fuse of a field and the states of its fuses
*C1a2b         checksum of the fuses
*
ETX 0c4f       checksum of the text so far
```
-/

namespace FuseMap.Jedec

/-! ## Checksums -/

def sum16 (ns : List Nat) : Nat := ns.foldr (· + ·) 0 % 65536

/-- The number whose binary digits are given, the least significant first. -/
def byteValue : List Bool → Nat
  | [] => 0
  | bit :: rest => bit.toNat + 2 * byteValue rest

/-- Bits packed into bytes, eight at a time; the first argument bounds the number of bytes. -/
def packBytes : Nat → List Bool → List Nat
  | n + 1, bit :: rest => byteValue ((bit :: rest).take 8) :: packBytes n ((bit :: rest).drop 8)
  | _, _ => []

/-- The checksum of fuses: the sum of the bytes they make up, the first fuse of a byte being its
least significant bit. -/
def fuseChecksum (bits : List Bool) : Nat :=
  sum16 (packBytes bits.length bits)

/-- The checksum of a text: the sum of its characters. -/
def textChecksum (cs : List Char) : Nat :=
  sum16 (cs.map Char.toNat)

/-! ## The text of a file -/

def lineEnd : List Char := ['\r', '\n']

/-- The state of a fuse. -/
def fuseChar (fuse : Fuse) : Char := if fuse = 0 then '0' else '1'

/-- The number of digits of an address on a device with the given number of fuses. -/
def addressWidth (fuseCount : Int) : Nat :=
  max 4 (toString (fuseCount - 1)).length

/-- The line of a field; a field whose fuses are all 0 has none. -/
def fieldLine (width : Nat) (fuses : List Fuse) (f : Field) : List Char :=
  let states := window fuses f.first (f.first + f.length)
  if states.all (· == 0) then []
  else
    ['*', 'L'] ++ (Text.zeroFilled width f.first).toList ++ [' '] ++ states.map fuseChar ++ lineEnd

/-- The file up to its last checksum. -/
def body (p : Device.Profile) (fuses : List Fuse) : List Char :=
  ['\x02'] ++ s!"Device: {p.deviceName}".toList ++ lineEnd ++
  "*F0".toList ++ lineEnd ++
  "*G0".toList ++ lineEnd ++
  s!"*QF{p.fuseCount}".toList ++ lineEnd ++
  (fields p).flatMap (fieldLine (addressWidth p.fuseCount) fuses) ++
  ("*C" ++ Text.hex 4 (fuseChecksum (fuses.map (· != 0)))).toList ++ lineEnd ++
  ['*'] ++ lineEnd ++
  ['\x03']

/-- The fuse file of a device. The array has to have the fuses of the device, and the name of the
device has to be ASCII. -/
def render (d : Device) (fuses : List Fuse) : Except Error String :=
  if (fuses.length : Int) ≠ d.profile.fuseCount then
    .error (.wrongFuseCount fuses.length d.identifier d.profile.fuseCount)
  else if ¬ d.profile.deviceName.toList.all (·.toNat < 128) then .error .notAscii
  else
    let text := body d.profile fuses
    .ok (String.ofList text ++ Text.hex 4 (textChecksum text))

end FuseMap.Jedec

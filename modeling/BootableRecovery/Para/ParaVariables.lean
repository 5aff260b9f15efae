import BootableRecovery.Theory.BlockDevice
import BootableRecovery.Theory.LittleEndian
import Mathlib.Data.List.Sort

/-!
# The variables on the para partition

`ParaVariables` of `para_variables.cpp`: variables by name, which are written to a block of the para
partition and read from it. The block starts with a signature, which is repeated before the checksum
at its end; a `char` is unsigned, as it is on ARM.
-/

namespace BootableRecovery.Para

inductive ParaVarErrors
  | paraVarErrorNone
  | paraVarErrorReadBlock
  | paraVarErrorBadSig
  | paraVarErrorBadCheckSum
  deriving DecidableEq

/-- `ENV_v1`. -/
def signature : List UInt8 := [69, 78, 86, 95, 118, 49]

def ParaEnvBlockRWStart : Nat := 0x20000

def ParaEnvBlockSize : Nat := 0x4000

def ParaEnvNullChar : UInt8 := 0

def ParaEnvBlockSigSize : Nat := 8

def ParaEnvBlockSig2Pos : Nat := ParaEnvBlockSize - ParaEnvBlockSigSize - 4

def ParaEnvBlockSig1Pos : Nat := 0

/-- The character `=`. -/
def equalsSign : UInt8 := 61

/-- `std::map<std::string, std::string>`. -/
abbrev Variables := Std.ExtTreeMap (List UInt8) (List UInt8) compare

/-! ## Reading -/

/-- The variable in a piece of the block, if it has a `=`. -/
def variableOf (variableBlock : List UInt8) : Option (List UInt8 × List UInt8) :=
  if equalsSign ∈ variableBlock then
    some (variableBlock.takeWhile (· ≠ equalsSign),
      (variableBlock.dropWhile (· ≠ equalsSign)).drop 1)
  else none

/-- `variables.insert`, which keeps a value that is there. -/
def insertVariable (vars : Variables) (x : List UInt8 × List UInt8) : Variables :=
  vars.insertIfNew x.1 x.2

/-- The loop of `ReadFromStream`, on what stands after `end`. If there is no NUL after a piece, its
length is wrong and the constructor of `std::string` throws. -/
def readVariables : (fuel : Nat) → (rest : List UInt8) → Variables → Option Variables
  | 0, _, vars => some vars
  | fuel + 1, rest, vars =>
    let rest := rest.dropWhile (· = ParaEnvNullChar)
    if rest = [] then some vars
    else if ParaEnvNullChar ∉ rest then none
    else
      let variableBlock := rest.takeWhile (· ≠ ParaEnvNullChar)
      readVariables fuel (rest.dropWhile (· ≠ ParaEnvNullChar))
        ((variableOf variableBlock).elim vars (insertVariable vars))

/-- `std::accumulate` over characters. -/
def accumulate (bytes : List UInt8) : Nat := (bytes.map UInt8.toNat).sum

/-- `ReadFromStream` from a device of this size. `none` is an exception. -/
def readFromStream (vars : Variables) (dev : BlockDevice) (size : Nat) :
    Option (ParaVarErrors × Variables) :=
  if size < ParaEnvBlockRWStart + ParaEnvBlockSize then some (.paraVarErrorReadBlock, vars)
  else
    let block := dev.read ParaEnvBlockRWStart ParaEnvBlockSize
    if (block.drop ParaEnvBlockSig1Pos).take signature.length ≠ signature then
      some (.paraVarErrorBadSig, vars)
    else
      (readVariables block.length (block.drop signature.length) vars).map fun vars =>
        if (block.drop ParaEnvBlockSig2Pos).take signature.length ≠ signature then
          (.paraVarErrorBadSig, vars)
        else
          let sum := accumulate ((block.take ParaEnvBlockSig2Pos).drop signature.length) % 2 ^ 32
          if (block.drop (ParaEnvBlockSize - 4)).take 4 ≠ leBytes 4 sum then
            (.paraVarErrorBadCheckSum, vars)
          else (.paraVarErrorNone, vars)

/-! ## Writing -/

/-- A stream on a device, with its position. -/
structure Stream where
  device : BlockDevice
  pos : Nat

namespace Stream

def seekp (s : Stream) (pos : Nat) : Stream := { s with pos }

def put (s : Stream) (bytes : List UInt8) : Stream where
  device := s.device.write s.pos bytes
  pos := s.pos + bytes.length

end Stream

/-- One variable in the first loop of `WriteToStream`. -/
def writeVariable (s : Stream) (x : List UInt8 × List UInt8) : Stream :=
  (((s.put x.1).put [equalsSign]).put x.2).put [ParaEnvNullChar]

/-- The first loop of `WriteToStream`. -/
def writeVariables (vars : Variables) (s : Stream) : Stream := vars.toList.foldl writeVariable s

/-- The second loop, which writes NULs up to a position. -/
def fill (limit : Nat) (s : Stream) : Stream := (fun s => s.put [ParaEnvNullChar])^[limit - s.pos] s

/-- The checksum of the variables. -/
def checksum (vars : Variables) : Nat :=
  vars.toList.foldl
    (fun sum x => (sum + accumulate x.1 + equalsSign.toNat + accumulate x.2) % 2 ^ 32) 0

def writeToStream (vars : Variables) (dev : BlockDevice) : BlockDevice :=
  let s : Stream := ⟨dev, 0⟩
  let s := (s.seekp ParaEnvBlockRWStart).put signature
  let s := s.seekp (ParaEnvBlockRWStart + ParaEnvBlockSigSize)
  let s := writeVariables vars s
  let s := fill (ParaEnvBlockRWStart + ParaEnvBlockSigSize) s
  let s := (s.seekp (ParaEnvBlockRWStart + ParaEnvBlockSig2Pos)).put signature
  let s := s.seekp (ParaEnvBlockRWStart + ParaEnvBlockSize - 4)
  (s.put (leBytes 4 (checksum vars))).device

end BootableRecovery.Para

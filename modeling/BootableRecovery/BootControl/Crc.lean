import BootableRecovery.BootControl.Control
import BootableRecovery.Theory.ShiftRegister

/-!
# The CRC of the control block

`CRC32` of `boot_control/boot_control.cpp`, with the table that its first call builds, and the
CRC-32 bit by bit. A look-up stands for the eight shifts of a byte (`run_eq`).
-/

namespace BootableRecovery.BootControl.Crc

/-! ## The code -/

abbrev CrcTable := Vector UInt32 256

/-- `crc_table` before the first call. -/
def CrcTable.unset : CrcTable := Vector.replicate 256 0

/-- The body of the inner loop that computes the table. -/
def halve (crc : UInt32) : UInt32 :=
  let mask := 0 - (crc &&& 1)
  (crc >>> 1) ^^^ (0xEDB88320 &&& mask)

/-- The loops that compute the table. -/
def computeTable (crcTable : CrcTable) : CrcTable :=
  (List.finRange 256).foldl
  (fun t i => t.set i.val (halve^[8] (UInt32.ofNat i.val)) i.isLt) crcTable

theorem toNat_and_lt (x : UInt32) : (x &&& 0xFF).toNat < 256 := by
  rw [UInt32.toNat_and]
  exact Nat.lt_succ_of_le Nat.and_le_right

/-- The body of the loop over the bytes. -/
def lookUp (crcTable : CrcTable) (ret : UInt32) (b : UInt8) : UInt32 :=
  (ret >>> 8) ^^^ crcTable.get ⟨((ret ^^^ b.toUInt32) &&& 0xFF).toNat, toNat_and_lt _⟩

/-- `CRC32`: the result and the table after the call. -/
def crc32 (buf : List UInt8) (crcTable : CrcTable) : UInt32 × CrcTable :=
  let crcTable := if crcTable.get 1 = 0 then computeTable crcTable else crcTable
  (~~~buf.foldl (lookUp crcTable) 0xFFFFFFFF, crcTable)

/-- Calls one after the other. -/
def run : List (List UInt8) → CrcTable → List UInt32
  | [], _ => []
  | buf :: bufs, crcTable => (crc32 buf crcTable).1 :: run bufs (crc32 buf crcTable).2

/-! ## Bit by bit -/

/-- The polynomial, its bits reflected. -/
def polynomial : BitVec 32 := 0xEDB88320

/-- CRC-32: the bits of all bytes, the lowest of each first, are fed into a register that starts
with all ones and is inverted in the end. -/
def bitwise (buf : List UInt8) : UInt32 :=
  .ofBitVec
  (~~~(buf.flatMap fun b => ShiftRegister.bits b.toBitVec).foldl (ShiftRegister.feed polynomial)
    (BitVec.allOnes 32))

example : bitwise [0x31, 0x32, 0x33, 0x34, 0x35, 0x36, 0x37, 0x38, 0x39] = 0xCBF43926 := by
    decide +kernel

/-! ## The table -/

theorem toBitVec_halve (crc : UInt32) :
    (halve crc).toBitVec = ShiftRegister.shift polynomial crc.toBitVec := by
  have hand : (crc &&& 1).toBitVec = (BitVec.ofBool (crc.toBitVec.getLsbD 0)).setWidth 32 := by
    rw [UInt32.toBitVec_and]
    exact BitVec.and_one_eq_setWidth_ofBool_getLsbD
  have hdown : (crc >>> 1).toBitVec = crc.toBitVec >>> 1 := by
    rw [UInt32.toBitVec_shiftRight]
    rfl
  rw [halve, ShiftRegister.shift, UInt32.toBitVec_xor, UInt32.toBitVec_and, UInt32.toBitVec_sub,
    hand, hdown]
  cases crc.toBitVec.getLsbD 0
  · exact BitVec.xor_zero
  · rfl

theorem toBitVec_halve_iterate (n : Nat) (crc : UInt32) :
    (halve^[n] crc).toBitVec = (ShiftRegister.shift polynomial)^[n] crc.toBitVec := by
  induction n with
  | zero => rfl
  | succ n ih => rw [Function.iterate_succ_apply', Function.iterate_succ_apply', toBitVec_halve, ih]

theorem get_foldl_set (f : Fin 256 → UInt32) (l : List (Fin 256)) (t : CrcTable) (j : Fin 256) :
    (l.foldl (fun t i => t.set i.val (f i) i.isLt) t).get j = if j ∈ l then f j else t.get j := by
  induction l generalizing t with
  | nil => rfl
  | cons i l ih =>
    rw [List.foldl_cons, ih]
    by_cases hj : j ∈ l
    · rw [if_pos hj, if_pos (List.mem_cons_of_mem i hj)]
    · rw [if_neg hj]
      by_cases hi : j = i
      · subst hi
        rw [if_pos List.mem_cons_self]
        exact Vector.getElem_set_self _
      · rw [if_neg (by simp [hi, hj])]
        exact Vector.getElem_set_ne _ _ fun h => hi (Fin.ext h.symm)

/-- The table that has been computed. -/
def Computed (t : CrcTable) : Prop := ∀ i : Fin 256, t.get i = halve^[8] (UInt32.ofNat i.val)

theorem computed_computeTable (t : CrcTable) : Computed (computeTable t) := by
  intro i
  rw [computeTable, get_foldl_set (fun i => halve^[8] (UInt32.ofNat i.val)),
    if_pos (List.mem_finRange i)]

/-- A table is either as it was set up, or as it was computed. -/
def TableInv (t : CrcTable) : Prop := t = .unset ∨ Computed t

theorem TableInv.lookup {t : CrcTable} (h : TableInv t) :
    Computed (if t.get 1 = 0 then computeTable t else t) := by
  split
  · exact computed_computeTable t
  · rename_i hset
    rcases h with rfl | h
    · exact absurd rfl hset
    · exact h

/-! ## Calls -/

theorem toBitVec_lookUp {t : CrcTable} (h : Computed t) (ret : UInt32) (b : UInt8) :
    (lookUp t ret b).toBitVec =
    (ShiftRegister.bits b.toBitVec).foldl (ShiftRegister.feed polynomial) ret.toBitVec := by
  have hdown : (ret >>> 8).toBitVec = ret.toBitVec >>> 8 := by
    rw [UInt32.toBitVec_shiftRight]
    rfl
  have hmask (x : BitVec 32) : x &&& 0xFF#32 = ShiftRegister.low 8 x := by
    apply BitVec.eq_of_getLsbD_eq
    intro i _
    rw [ShiftRegister.getLsbD_low, BitVec.getLsbD_and, Bool.and_comm]
    congr 1
    exact Nat.testBit_two_pow_sub_one 8 i
  have hlow : ((ret ^^^ b.toUInt32) &&& 0xFF).toBitVec =
      ShiftRegister.low 8 (ret.toBitVec ^^^ b.toBitVec.setWidth 32) := by
    rw [UInt32.toBitVec_and, UInt32.toBitVec_xor, UInt8.toBitVec_toUInt32]
    exact hmask _
  rw [lookUp, ShiftRegister.foldl_feed_bits_eq_table polynomial _ _ (by decide),
    UInt32.toBitVec_xor, hdown, h, UInt32.ofNat_toNat, toBitVec_halve_iterate, hlow]

theorem toBitVec_foldl_lookUp {t : CrcTable} (h : Computed t) (buf : List UInt8) (ret : UInt32) :
    (buf.foldl (lookUp t) ret).toBitVec =
      (buf.flatMap fun b => ShiftRegister.bits b.toBitVec).foldl (ShiftRegister.feed polynomial)
      ret.toBitVec := by
  induction buf generalizing ret with
  | nil => rfl
  | cons b buf ih =>
    rw [List.foldl_cons, ih, toBitVec_lookUp h, List.flatMap_cons, List.foldl_append]

theorem crc32_eq_bitwise {t : CrcTable} (h : TableInv t) (buf : List UInt8) :
    (crc32 buf t).1 = bitwise buf := by
  apply UInt32.toBitVec_inj.mp
  rw [crc32, bitwise, UInt32.toBitVec_not, toBitVec_foldl_lookUp h.lookup]
  rfl

theorem TableInv.crc32 {t : CrcTable} (h : TableInv t) (buf : List UInt8) :
    TableInv (crc32 buf t).2 := .inr h.lookup

theorem run_eq_of_tableInv {t : CrcTable} (h : TableInv t) (bufs : List (List UInt8)) :
    run bufs t = bufs.map bitwise := by
  induction bufs generalizing t with
  | nil => rfl
  | cons buf bufs ih => rw [run, List.map_cons, crc32_eq_bitwise h, ih (h.crc32 buf)]

/-- Every call of every sequence of calls gives the CRC-32 of its bytes. -/
theorem run_eq (bufs : List (List UInt8)) : run bufs .unset = bufs.map bitwise :=
  run_eq_of_tableInv (.inl rfl) bufs

theorem crc32_chars {buf : List Char} (h : ∀ c ∈ buf, c.toNat < 256) :
    BootControl.crc32 buf = bitwise (buf.map fun c => UInt8.ofNat c.toNat) := by
  have hcomputed := computed_computeTable .unset
  have hfold (ret : UInt32) : buf.foldl (fun (ret : UInt32) c =>
      (ret >>> 8) ^^^ crcTable ((ret ^^^ UInt32.ofNat c.toNat) &&& 0xFF)) ret =
      (buf.map fun c => UInt8.ofNat c.toNat).foldl (lookUp (computeTable .unset)) ret := by
    induction buf generalizing ret with
    | nil => rfl
    | cons c buf ih =>
      have hbyte : (UInt8.ofNat c.toNat).toUInt32 = UInt32.ofNat c.toNat := by
        apply UInt32.toNat_inj.mp
        rw [UInt8.toNat_toUInt32, UInt8.toNat_ofNat', UInt32.toNat_ofNat',
          Nat.mod_eq_of_lt (h c List.mem_cons_self),
          Nat.mod_eq_of_lt (by have := h c List.mem_cons_self; omega)]
      rw [List.foldl_cons, ih (fun c hc => h c (List.mem_cons_of_mem _ hc)), List.map_cons,
        List.foldl_cons, lookUp, hcomputed, UInt32.ofNat_toNat, hbyte]
      rfl
  rw [← crc32_eq_bitwise (.inl rfl), crc32, BootControl.crc32, hfold]
  rfl

end BootableRecovery.BootControl.Crc

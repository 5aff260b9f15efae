import BootableRecovery.Para.ParaVariables
import Mathlib.Data.List.TakeWhile

/-!
# The block that the variables are written to

Writing some variables and reading the block again. `ReadFromStream` takes everything between two
NULs for a variable if it has a `=`, also the bytes of the checksum; and what an earlier
`WriteToStream` left behind the variables stays where it is, because the loop that is to fill the
block with NULs stops at the start of the data.
-/

namespace BootableRecovery.Para

/-! ## The pieces of a block -/

/-- The pieces between the NULs. -/
def pieces (l : List UInt8) : List (List UInt8) := (l.splitOn ParaEnvNullChar).filter (· ≠ [])

/-- The variables that the reader finds in some bytes. -/
def found (l : List UInt8) : List (List UInt8 × List UInt8) := (pieces l).filterMap variableOf

theorem pieces_append_null (a b : List UInt8) :
    pieces (a ++ ParaEnvNullChar :: b) = pieces a ++ pieces b := by
  rw [pieces, List.splitOn_append_cons_self, List.filter_append]
  rfl

theorem pieces_nil : pieces [] = [] := by decide

theorem pieces_cons_null (l : List UInt8) : pieces (ParaEnvNullChar :: l) = pieces l := by
  rw [← List.nil_append (ParaEnvNullChar :: l), pieces_append_null, pieces_nil, List.nil_append]

theorem pieces_of_not_mem (h : ParaEnvNullChar ∉ l) (hne : l ≠ []) : pieces l = [l] := by
  rw [pieces, List.splitOn_eq_singleton h, List.filter_singleton]
  simp [hne]

theorem pieces_nulls (n : Nat) (l : List UInt8) :
    pieces (List.replicate n ParaEnvNullChar ++ l) = pieces l := by
  induction n with
  | zero => rfl
  | succ n ih => rw [List.replicate_succ, List.cons_append, pieces_cons_null, ih]

theorem pieces_dropWhile_null (l : List UInt8) :
    pieces (l.dropWhile (· = ParaEnvNullChar)) = pieces l := by
  induction l with
  | nil => rfl
  | cons b l ih =>
    rcases Decidable.em (b = ParaEnvNullChar) with rfl | hb
    · rw [List.dropWhile_cons_of_pos (by simp), ih, pieces_cons_null]
    · rw [List.dropWhile_cons_of_neg (by simpa using hb)]

/-- The rest of the block ends with a NUL, unless it is empty. -/
def EndsWithNull (l : List UInt8) : Prop := ∀ b ∈ l.getLast?, b = ParaEnvNullChar

theorem EndsWithNull.dropWhile {l : List UInt8} (h : EndsWithNull l) (p : UInt8 → Bool) :
    EndsWithNull (l.dropWhile p) := by
  intro b hb
  apply h
  have hne : l.dropWhile p ≠ [] := by
    rintro heq
    simp [heq] at hb
  rw [← List.takeWhile_append_dropWhile (p := p) (l := l), List.getLast?_append_of_ne_nil _ hne]
  exact hb

theorem exists_piece {l : List UInt8} (h : EndsWithNull l) (hne : l ≠ [])
    (hhead : ∀ b ∈ l.head?, b ≠ ParaEnvNullChar) :
    ∃ rest, l.takeWhile (· ≠ ParaEnvNullChar) ≠ [] ∧
      l.dropWhile (· ≠ ParaEnvNullChar) = ParaEnvNullChar :: rest := by
  obtain ⟨b, l, rfl⟩ := List.exists_cons_of_ne_nil hne
  have hb : b ≠ ParaEnvNullChar := hhead b rfl
  refine ⟨((b :: l).dropWhile (· ≠ ParaEnvNullChar)).tail, by simp [hb], ?_⟩
  have hmem : ParaEnvNullChar ∈ b :: l := by
    have := h _ (List.getLast?_eq_getLast_of_ne_nil hne)
    rw [← this]
    exact List.getLast_mem hne
  have hdrop : (b :: l).dropWhile (· ≠ ParaEnvNullChar) ≠ [] := by
    intro heq
    simpa using List.dropWhile_eq_nil_iff.mp heq _ hmem
  have hhd := List.head_dropWhile_not (· ≠ ParaEnvNullChar) hdrop
  conv_lhs => rw [← List.cons_head_tail hdrop]
  rw [show ((b :: l).dropWhile (· ≠ ParaEnvNullChar)).head hdrop = ParaEnvNullChar by
    simpa using hhd]

theorem readVariables_eq {rest : List UInt8} (h : EndsWithNull rest) (hfuel : rest.length ≤ fuel)
    (vars : Variables) :
    readVariables fuel rest vars = some ((found rest).foldl insertVariable vars) := by
  induction fuel generalizing rest vars with
  | zero =>
    rw [List.eq_nil_of_length_eq_zero (Nat.le_zero.mp hfuel)]
    rfl
  | succ fuel ih =>
    have hend := h.dropWhile (· = ParaEnvNullChar)
    have hlen : (rest.dropWhile (· = ParaEnvNullChar)).length ≤ rest.length :=
      (List.dropWhile_sublist _).length_le
    have hhead : ∀ b ∈ (rest.dropWhile (· = ParaEnvNullChar)).head?, b ≠ ParaEnvNullChar := by
      intro b hb
      have := List.head?_dropWhile_not (· = ParaEnvNullChar) rest
      rw [Option.mem_def.mp hb] at this
      simpa using this
    rw [readVariables, found, ← pieces_dropWhile_null rest]
    generalize rest.dropWhile (· = ParaEnvNullChar) = l at hend hlen hhead ⊢
    rcases Decidable.em (l = []) with rfl | hne
    · rw [if_pos rfl, pieces_nil]
      rfl
    obtain ⟨next, hpiece, hdrop⟩ := exists_piece hend hne hhead
    have hl : l = l.takeWhile (· ≠ ParaEnvNullChar) ++ ParaEnvNullChar :: next := by
      rw [← hdrop, List.takeWhile_append_dropWhile]
    have hmem : ParaEnvNullChar ∈ l := by
      rw [hl]
      simp
    have hnull : ParaEnvNullChar ∉ l.takeWhile (· ≠ ParaEnvNullChar) := by
      intro hm
      simpa using List.mem_takeWhile_imp hm
    have hnext : (l.dropWhile (· ≠ ParaEnvNullChar)).length ≤ fuel := by
      have h₁ := congrArg List.length hl
      have h₂ := List.length_pos_iff.mpr hpiece
      simp only [List.length_append, List.length_cons] at h₁
      rw [hdrop, List.length_cons]
      omega
    have hpieces :
        pieces l = l.takeWhile (· ≠ ParaEnvNullChar) ::
        pieces (l.dropWhile (· ≠ ParaEnvNullChar)) := by
      conv_lhs => rw [hl, pieces_append_null, pieces_of_not_mem hnull hpiece]
      rw [hdrop, pieces_cons_null]
      rfl
    rw [if_neg hne, if_neg (not_not_intro hmem), ih (hend.dropWhile _) hnext, hpieces,
      List.filterMap_cons]
    cases variableOf (l.takeWhile (· ≠ ParaEnvNullChar)) with
    | none => rfl
    | some x => rfl

/-! ## The bytes of a written block -/

/-- The bytes of the variables. -/
def encode (l : List (List UInt8 × List UInt8)) : List UInt8 :=
  l.flatMap fun x => x.1 ++ equalsSign :: x.2 ++ [ParaEnvNullChar]

/-- The variables end before the second signature. -/
def Fits (vars : Variables) : Prop :=
  ParaEnvBlockSigSize + (encode vars.toList).length ≤ ParaEnvBlockSig2Pos

theorem Stream.put_put (s : Stream) (a b : List UInt8) : (s.put a).put b = s.put (a ++ b) := by
  simp only [Stream.put, BlockDevice.write_append, List.length_append, Nat.add_assoc]

theorem writeVariable_eq (s : Stream) (x : List UInt8 × List UInt8) :
    writeVariable s x = s.put (x.1 ++ equalsSign :: x.2 ++ [ParaEnvNullChar]) := by
  simp [writeVariable, Stream.put_put]

theorem writeVariables_eq (vars : Variables) (s : Stream) :
    writeVariables vars s = s.put (encode vars.toList) := by
  rw [writeVariables]
  generalize vars.toList = l
  induction l generalizing s with
  | nil => simp [encode, Stream.put]
  | cons x l ih =>
    rw [List.foldl_cons, ih, writeVariable_eq, Stream.put_put, encode, encode, List.flatMap_cons]

theorem fill_of_le (h : limit ≤ s.pos) : fill limit s = s := by
  rw [fill, Nat.sub_eq_zero_of_le h]
  rfl

theorem writeToStream_eq (vars : Variables) (dev : BlockDevice) :
    writeToStream vars dev = (((dev.write ParaEnvBlockRWStart signature).write
      (ParaEnvBlockRWStart + ParaEnvBlockSigSize) (encode vars.toList)).write
      (ParaEnvBlockRWStart + ParaEnvBlockSig2Pos) signature).write
      (ParaEnvBlockRWStart + ParaEnvBlockSize - 4) (leBytes 4 (checksum vars)) := by
  simp only [writeToStream, writeVariables_eq]
  rw [fill_of_le (by simp [Stream.put, Stream.seekp])]
  rfl

theorem read_writeToStream (h : Fits vars) (dev : BlockDevice) :
    (writeToStream vars dev).read ParaEnvBlockRWStart ParaEnvBlockSize =
      signature ++ (dev.read (ParaEnvBlockRWStart + 6) 2 ++ (encode vars.toList ++
        (dev.read (ParaEnvBlockRWStart + 8 + (encode vars.toList).length)
          (ParaEnvBlockSig2Pos - 8 - (encode vars.toList).length) ++
        (signature ++ (dev.read (ParaEnvBlockRWStart + ParaEnvBlockSig2Pos + 6) 2 ++
          leBytes 4 (checksum vars)))))) := by
  have hsig : signature.length = 6 := rfl
  have hcs : (leBytes 4 (checksum vars)).length = 4 := length_leBytes 4 _
  rw [writeToStream_eq]
  unfold Fits at h
  generalize encode vars.toList = enc at h ⊢
  generalize leBytes 4 (checksum vars) = sum at hcs ⊢
  simp only [ParaEnvBlockSigSize, ParaEnvBlockSig2Pos, ParaEnvBlockSize, ParaEnvBlockRWStart] at h ⊢
  obtain ⟨n, hn⟩ : ∃ n, 16364 = enc.length + n := ⟨16364 - enc.length, by omega⟩
  have hrest : 0x4000 - 8 - 4 - 8 - enc.length = n := by omega
  have hsplit : ∀ d : BlockDevice, d.read 0x20000 0x4000 = d.read 0x20000 6 ++ (d.read 0x20006 2 ++
      (d.read 0x20008 enc.length ++ (d.read (0x20008 + enc.length) n ++ (d.read 0x23ff4 6 ++
      (d.read 0x23ffa 2 ++ d.read 0x23ffc 4))))) := by
    intro d
    have hlen : 0x4000 = 6 + (2 + (enc.length + (n + (6 + (2 + 4))))) := by omega
    have hend : 0x20000 + 6 + 2 + enc.length + n = 0x23ff4 := by omega
    rw [hlen]
    simp only [BlockDevice.read_add, hend]
  rw [hsplit, hrest]
  -- a piece is from one of the four writes, or was there before; the other writes do not touch it
  refine congrArg₂ _ ?_ (congrArg₂ _ ?_ (congrArg₂ _ ?_ (congrArg₂ _ ?_ (congrArg₂ _ ?_
    (congrArg₂ _ ?_ ?_)))))
  · rw [BlockDevice.read_write_of_disjoint (by omega),
      BlockDevice.read_write_of_disjoint (by omega), BlockDevice.read_write_of_disjoint (by omega)]
    exact BlockDevice.read_write_self hsig
  · rw [BlockDevice.read_write_of_disjoint (by omega),
      BlockDevice.read_write_of_disjoint (by omega), BlockDevice.read_write_of_disjoint (by omega),
      BlockDevice.read_write_of_disjoint (by omega)]
  · rw [BlockDevice.read_write_of_disjoint (by omega),
      BlockDevice.read_write_of_disjoint (by omega)]
    exact BlockDevice.read_write_self rfl
  · rw [BlockDevice.read_write_of_disjoint (by omega),
      BlockDevice.read_write_of_disjoint (by omega), BlockDevice.read_write_of_disjoint (by omega),
      BlockDevice.read_write_of_disjoint (by omega)]
  · rw [BlockDevice.read_write_of_disjoint (by omega)]
    exact BlockDevice.read_write_self hsig
  · rw [BlockDevice.read_write_of_disjoint (by omega),
      BlockDevice.read_write_of_disjoint (by omega), BlockDevice.read_write_of_disjoint (by omega),
      BlockDevice.read_write_of_disjoint (by omega)]
  · exact BlockDevice.read_write_self hcs

/-! ## Sums of characters -/

theorem accumulate_append (a b : List UInt8) :
    accumulate (a ++ b) = accumulate a + accumulate b := by
  simp [accumulate]

theorem accumulate_le (l : List UInt8) : accumulate l ≤ 255 * l.length := by
  induction l with
  | nil => simp [accumulate]
  | cons b l ih =>
    have := b.toNat_lt
    simp only [accumulate, List.map_cons, List.sum_cons, List.length_cons] at ih ⊢
    omega

theorem accumulate_eq_zero {l : List UInt8} : accumulate l = 0 ↔ ∀ b ∈ l, b = ParaEnvNullChar := by
  induction l with
  | nil => simp [accumulate]
  | cons b l ih =>
    have hcons : accumulate (b :: l) = b.toNat + accumulate l := rfl
    have hb : b.toNat = 0 ↔ b = ParaEnvNullChar := UInt8.toNat_inj (b := 0)
    rw [hcons, Nat.add_eq_zero_iff, ih, hb, List.forall_mem_cons]

theorem checksum_eq (vars : Variables) :
    checksum vars = accumulate (encode vars.toList) % 2 ^ 32 := by
  have key : ∀ (l : List (List UInt8 × List UInt8)) (sum : Nat), sum < 2 ^ 32 →
      l.foldl (fun sum x => (sum + accumulate x.1 + equalsSign.toNat + accumulate x.2) % 2 ^ 32)
      sum =
        (sum + accumulate (encode l)) % 2 ^ 32 := by
    intro l
    induction l with
    | nil =>
      intro sum h
      exact (Nat.mod_eq_of_lt h).symm
    | cons x l ih =>
      intro sum h
      have hx : accumulate (encode (x :: l)) =
          accumulate x.1 + equalsSign.toNat + accumulate x.2 + accumulate (encode l) := by
        rw [encode, List.flatMap_cons, accumulate_append, ← encode]
        simp [accumulate, ParaEnvNullChar, Nat.add_assoc]
      rw [List.foldl_cons, ih _ (Nat.mod_lt _ (by decide)), hx]
      omega
  have := key vars.toList 0 (by decide)
  rwa [Nat.zero_add] at this

section
variable {vars : Variables} (h : Fits vars)
include h

theorem Fits.accumulate_lt : accumulate (encode vars.toList) < 2 ^ 22 := by
  have := accumulate_le (encode vars.toList)
  simp only [Fits, ParaEnvBlockSigSize, ParaEnvBlockSig2Pos, ParaEnvBlockSize] at h
  omega

theorem Fits.checksum_eq : checksum vars = accumulate (encode vars.toList) := by
  have := h.accumulate_lt
  rw [Para.checksum_eq, Nat.mod_eq_of_lt (by omega)]

end

theorem endsWithNull_leBytes (h : n < 2 ^ 24) (l : List UInt8) :
    EndsWithNull (l ++ leBytes 4 n) := by
  intro b hb
  have hlast : leBytes 4 n = leBytes 3 n ++ [UInt8.ofNat (n / 256 ^ 3 % 256)] := by
    simp [leBytes, List.range_succ]
  rw [hlast, ← List.append_assoc, List.getLast?_append_of_ne_nil _ (by simp)] at hb
  have hz : n / 256 ^ 3 % 256 = 0 := by omega
  rw [hz, List.getLast?_singleton, Option.mem_some_iff] at hb
  exact hb.symm

theorem leBytes_inj {m n : Nat} (hm : m < 2 ^ 32) (hn : n < 2 ^ 32) :
    leBytes 4 m = leBytes 4 n ↔ m = n := by
  refine ⟨fun h => ?_, fun h => by rw [h]⟩
  have := congrArg leNat h
  rwa [leNat_leBytes_of_lt hm, leNat_leBytes_of_lt hn] at this

/-! ## Reading a written block -/

theorem readFromStream_of_block (hsize : ParaEnvBlockRWStart + ParaEnvBlockSize ≤ size)
    {dev : BlockDevice} {data gap : List UInt8}
    (hblock : dev.read ParaEnvBlockRWStart ParaEnvBlockSize =
      signature ++ (data ++ (signature ++ (gap ++ leBytes 4 sum))))
    (hdata : data.length = ParaEnvBlockSig2Pos - 6) (hgap : gap.length = 2) (hsum : sum < 2 ^ 24) :
    readFromStream ∅ dev size = some
      (if accumulate data = sum then .paraVarErrorNone else .paraVarErrorBadCheckSum,
      (found (data ++ (signature ++ (gap ++ leBytes 4 sum)))).foldl insertVariable ∅) := by
  have hpos : (signature ++ data).length = ParaEnvBlockSig2Pos := by
    rw [List.length_append, hdata]
    rfl
  have hlast : (signature ++ (data ++ (signature ++ gap))).length = ParaEnvBlockSize - 4 := by
    simp only [List.length_append, hdata, hgap]
    rfl
  have hend : EndsWithNull (data ++ (signature ++ (gap ++ leBytes 4 sum))) := by
    have := endsWithNull_leBytes hsum (data ++ (signature ++ gap))
    simpa only [List.append_assoc] using this
  have hlt : accumulate data < 2 ^ 32 := by
    have := accumulate_le data
    rw [hdata, ParaEnvBlockSig2Pos, ParaEnvBlockSize, ParaEnvBlockSigSize] at this
    omega
  have hsig2 :
      (signature ++ (data ++ (signature ++ (gap ++ leBytes 4 sum)))).drop ParaEnvBlockSig2Pos =
      signature ++ (gap ++ leBytes 4 sum) := by
    rw [← List.append_assoc, List.drop_left' hpos]
  have htake :
      (signature ++ (data ++ (signature ++ (gap ++ leBytes 4 sum)))).take ParaEnvBlockSig2Pos =
      signature ++ data := by
    rw [← List.append_assoc, List.take_left' hpos]
  have hcheck :
      (signature ++ (data ++ (signature ++ (gap ++ leBytes 4 sum)))).drop (ParaEnvBlockSize - 4) =
      leBytes 4 sum := by
    rw [show signature ++ (data ++ (signature ++ (gap ++ leBytes 4 sum))) =
      signature ++ (data ++ (signature ++ gap)) ++ leBytes 4 sum by simp only [List.append_assoc],
      List.drop_left' hlast]
  rw [readFromStream, if_neg (Nat.not_lt.mpr hsize), hblock]
  dsimp only
  rw [ParaEnvBlockSig1Pos, List.drop_zero, List.take_left, if_neg (not_not_intro rfl),
    List.drop_left, readVariables_eq hend (by simp only [List.length_append]; omega),
    Option.map_some, hsig2, List.take_left, if_neg (not_not_intro rfl), htake,
    List.drop_left, hcheck, List.take_of_length_le (by simp), Nat.mod_eq_of_lt hlt]
  rcases Decidable.em (accumulate data = sum) with heq | hne
  · rw [heq, if_neg (not_not_intro rfl), if_pos rfl]
  · rw [if_pos fun h => hne ((leBytes_inj (by omega) hlt).mp h).symm, if_neg hne]

/-- `ReadFromStream` after `WriteToStream`: the old bytes before and after the variables count for
the checksum, and they are searched for variables too. -/
theorem readFromStream_writeToStream (h : Fits vars)
    (hsize : ParaEnvBlockRWStart + ParaEnvBlockSize ≤ size)
    {dev : BlockDevice} {before after gap : List UInt8}
    (hbefore : dev.read (ParaEnvBlockRWStart + 6) 2 = before)
    (hafter : dev.read (ParaEnvBlockRWStart + 8 + (encode vars.toList).length)
      (ParaEnvBlockSig2Pos - 8 - (encode vars.toList).length) = after)
    (hgap : dev.read (ParaEnvBlockRWStart + ParaEnvBlockSig2Pos + 6) 2 = gap) :
    readFromStream ∅ (writeToStream vars dev) size = some
      (if accumulate before + accumulate after = 0 then .paraVarErrorNone
        else .paraVarErrorBadCheckSum,
      (found (before ++ (encode vars.toList ++ after) ++ (signature ++ (gap ++
        leBytes 4 (accumulate (encode vars.toList)))))).foldl insertVariable ∅) := by
  have hblock := read_writeToStream h dev
  have hlt := h.accumulate_lt
  have hfits : 8 + (encode vars.toList).length ≤ ParaEnvBlockSig2Pos := h
  have hdata : (before ++ (encode vars.toList ++ after)).length = ParaEnvBlockSig2Pos - 6 := by
    rw [← hbefore, ← hafter]
    simp only [List.length_append, BlockDevice.length_read]
    omega
  have hshape : signature ++ (before ++ (encode vars.toList ++ (after ++ (signature ++ (gap ++
      leBytes 4 (accumulate (encode vars.toList))))))) =
      signature ++
      (before ++ (encode vars.toList ++ after) ++
        (signature ++ (gap ++ leBytes 4 (accumulate (encode vars.toList))))) := by
    simp only [List.append_assoc]
  have htotal :
      accumulate (before ++ (encode vars.toList ++ after)) = accumulate (encode vars.toList) ↔
      accumulate before + accumulate after = 0 := by
    simp only [accumulate_append]
    omega
  rw [hbefore, hafter, hgap, h.checksum_eq, hshape] at hblock
  rw [readFromStream_of_block hsize hblock hdata (by rw [← hgap, BlockDevice.length_read])
    (by omega)]
  simp only [htotal]

/-! ## Variables -/

/-- Names without `=` and NUL, values without NUL. -/
def WellNamed (vars : Variables) : Prop :=
  ∀ x ∈ vars.toList, equalsSign ∉ x.1 ∧ ParaEnvNullChar ∉ x.1 ∧ ParaEnvNullChar ∉ x.2

theorem variableOf_append (h : equalsSign ∉ name) (value : List UInt8) :
    variableOf (name ++ equalsSign :: value) = some (name, value) := by
  have hall : ∀ b ∈ name, decide (b ≠ equalsSign) = true := by
    intro b hb
    simpa using fun heq : b = equalsSign => h (heq ▸ hb)
  rw [variableOf, if_pos (by simp), List.takeWhile_append_of_pos hall,
    List.dropWhile_append_of_pos hall]
  simp

theorem found_encode {l : List (List UInt8 × List UInt8)}
    (h : ∀ x ∈ l, equalsSign ∉ x.1 ∧ ParaEnvNullChar ∉ x.1 ∧ ParaEnvNullChar ∉ x.2)
    (rest : List UInt8) : found (encode l ++ rest) = l ++ found rest := by
  induction l with
  | nil => rfl
  | cons x l ih =>
    obtain ⟨heq, hname, hvalue⟩ := h x List.mem_cons_self
    have hnull : ParaEnvNullChar ∉ x.1 ++ equalsSign :: x.2 := by
      simp only [List.mem_append, List.mem_cons, not_or]
      exact ⟨hname, by decide, hvalue⟩
    have happ : encode (x :: l) ++ rest =
        (x.1 ++ equalsSign :: x.2) ++ ParaEnvNullChar :: (encode l ++ rest) := by
      simp [encode]
    have ih := ih fun y hy => h y (List.mem_cons_of_mem _ hy)
    rw [found, happ, pieces_append_null, pieces_of_not_mem hnull (by simp), List.singleton_append,
      List.filterMap_cons, variableOf_append heq]
    rw [found] at ih
    rw [ih, found]
    rfl

theorem found_nulls (n : Nat) (l : List UInt8) :
    found (List.replicate n ParaEnvNullChar ++ l) = found l := by
  rw [found, pieces_nulls, found]

theorem getElem?_foldl_insertVariable (l : List (List UInt8 × List UInt8)) (vars : Variables)
    (name : List UInt8) :
    (l.foldl insertVariable vars)[name]? =
    vars[name]?.or ((l.find? (·.1 = name)).map Prod.snd) := by
  induction l generalizing vars with
  | nil => simp
  | cons x l ih =>
    rw [List.foldl_cons, ih, insertVariable, Std.ExtTreeMap.getElem?_insertIfNew, List.find?_cons]
    rcases Decidable.em (x.1 = name) with rfl | hne
    · rcases Decidable.em (x.1 ∈ vars) with hm | hm
      · simp [hm]
      · simp [hm]
    · simp [hne]

theorem foldl_insertVariable_toList (vars : Variables) :
    vars.toList.foldl insertVariable ∅ = vars := by
  apply Std.ExtTreeMap.ext_getElem?
  intro name
  rw [getElem?_foldl_insertVariable, Std.ExtTreeMap.getElem?_empty, Option.none_or]
  cases hf : vars.toList.find? (·.1 = name) with
  | none =>
    have hnone : ∀ value, vars[name]? ≠ some value := by
      intro value hv
      have hm := Std.ExtTreeMap.mem_toList_iff_getElem?_eq_some.mpr hv
      simpa using List.find?_eq_none.mp hf _ hm
    rw [Option.map_none, Option.eq_none_iff_forall_ne_some.mpr hnone]
  | some x =>
    have hm : (x.1, x.2) ∈ vars.toList := List.mem_of_find?_eq_some hf
    have hx : x.1 = name := by simpa using List.find?_some hf
    rw [Option.map_some, ← hx, Std.ExtTreeMap.mem_toList_iff_getElem?_eq_some.mp hm]

theorem foldl_insertVariable_eq_self {l : List (List UInt8 × List UInt8)} :
    l.foldl insertVariable vars = vars ↔ ∀ x ∈ l, x.1 ∈ vars := by
  constructor
  · intro h x hx
    rw [Std.ExtTreeMap.mem_iff_isSome_getElem?, ← h, getElem?_foldl_insertVariable,
      Option.isSome_or, Option.isSome_map, List.find?_isSome.mpr ⟨x, hx, by simp⟩, Bool.or_true]
  · intro h
    induction l with
    | nil => rfl
    | cons x l ih =>
      have hx : insertVariable vars x = vars := by
        apply Std.ExtTreeMap.ext_getElem?
        intro name
        rw [insertVariable, Std.ExtTreeMap.getElem?_insertIfNew, if_neg]
        exact fun hn => hn.2 (h x List.mem_cons_self)
      rw [List.foldl_cons, hx]
      exact ih fun y hy => h y (List.mem_cons_of_mem _ hy)

/-! ## The round trip -/

theorem read_of_zero {dev : BlockDevice}
    (h : ∀ i, start ≤ i → i < start + len → dev i = ParaEnvNullChar) :
    dev.read start len = List.replicate len ParaEnvNullChar := by
  apply List.eq_replicate_iff.mpr
  refine ⟨BlockDevice.length_read, ?_⟩
  intro b hb
  obtain ⟨i, h₁, h₂, rfl⟩ := BlockDevice.mem_read.mp hb
  exact h i h₁ h₂

theorem accumulate_replicate (n : Nat) : accumulate (List.replicate n ParaEnvNullChar) = 0 :=
  accumulate_eq_zero.mpr fun _ hb => List.eq_of_mem_replicate hb

/-- With NULs around the variables, they are read back, and then what looks like a variable in the
rest of the block. -/
theorem readFromStream_of_clean (hnamed : WellNamed vars) (h : Fits vars)
    (hsize : ParaEnvBlockRWStart + ParaEnvBlockSize ≤ size) {dev : BlockDevice}
    (hbefore : dev.read (ParaEnvBlockRWStart + 6) 2 = List.replicate 2 ParaEnvNullChar)
    (hafter : dev.read (ParaEnvBlockRWStart + 8 + (encode vars.toList).length)
      (ParaEnvBlockSig2Pos - 8 - (encode vars.toList).length) =
      List.replicate (ParaEnvBlockSig2Pos - 8 - (encode vars.toList).length) ParaEnvNullChar) :
    readFromStream ∅ (writeToStream vars dev) size = some (.paraVarErrorNone,
      (found (signature ++ (dev.read (ParaEnvBlockRWStart + ParaEnvBlockSig2Pos + 6) 2 ++
        leBytes 4 (accumulate (encode vars.toList))))).foldl insertVariable vars) := by
  rw [readFromStream_writeToStream h hsize hbefore hafter rfl, accumulate_replicate,
    accumulate_replicate, if_pos rfl, List.append_assoc, found_nulls, List.append_assoc,
    found_encode hnamed, found_nulls, List.foldl_append, foldl_insertVariable_toList]

theorem found_signature (sum : Nat) :
    found (signature ++ (List.replicate 2 ParaEnvNullChar ++ leBytes 4 sum)) =
    found (leBytes 4 sum) := by
  have hsig : ParaEnvNullChar ∉ signature := by decide
  rw [found, List.replicate_succ, List.cons_append, pieces_append_null, pieces_nulls,
    pieces_of_not_mem hsig (by decide)]
  rfl

/-- The block holds NULs only. -/
def ZeroFilled (dev : BlockDevice) : Prop :=
  ∀ i, ParaEnvBlockRWStart ≤ i → i < ParaEnvBlockRWStart + ParaEnvBlockSize →
  dev i = ParaEnvNullChar

theorem readFromStream_of_zeroFilled {dev : BlockDevice} (hnamed : WellNamed vars) (h : Fits vars)
    (hsize : ParaEnvBlockRWStart + ParaEnvBlockSize ≤ size) (hzero : ZeroFilled dev) :
    readFromStream ∅ (writeToStream vars dev) size = some (.paraVarErrorNone,
      (found (leBytes 4 (accumulate (encode vars.toList)))).foldl insertVariable vars) := by
  have hfits : 8 + (encode vars.toList).length ≤ ParaEnvBlockSig2Pos := h
  have hpos : ParaEnvBlockSig2Pos = 0x3ff4 := rfl
  have hlen : ParaEnvBlockSize = 0x4000 := rfl
  have hpart : ∀ p n, p + n ≤ ParaEnvBlockSize →
      dev.read (ParaEnvBlockRWStart + p) n = List.replicate n ParaEnvNullChar := by
    intro p n hn
    exact read_of_zero fun i h₁ h₂ => hzero i (by omega) (by omega)
  rw [readFromStream_of_clean hnamed h hsize (hpart _ _ (by omega))
    (by rw [Nat.add_assoc]; exact hpart _ _ (by omega)), Nat.add_assoc, hpart _ _ (by omega),
    found_signature]

/-- The variables are read back exactly if the bytes of the checksum do not look like a variable
with a new name. -/
theorem readFromStream_writeToStream_iff {dev : BlockDevice} (hnamed : WellNamed vars)
    (h : Fits vars) (hsize : ParaEnvBlockRWStart + ParaEnvBlockSize ≤ size)
    (hzero : ZeroFilled dev) :
    readFromStream ∅ (writeToStream vars dev) size = some (.paraVarErrorNone, vars) ↔
      ∀ x ∈ found (leBytes 4 (accumulate (encode vars.toList))), x.1 ∈ vars := by
  rw [readFromStream_of_zeroFilled hnamed h hsize hzero, Option.some.injEq, Prod.mk.injEq,
    foldl_insertVariable_eq_self]
  exact and_iff_right rfl

/-- `a=b`, whose characters add up to 256. -/
theorem readFromStream_writeToStream_iff_small :
    readFromStream ∅ (writeToStream ((∅ : Variables).insert [97] [98]) fun _ => 0) 0x24000 =
      some (.paraVarErrorNone, (∅ : Variables).insert [97] [98]) :=
  (readFromStream_writeToStream_iff (by unfold WellNamed; decide) (by unfold Fits; decide)
    (by decide) fun _ _ _ => rfl).mpr (by decide)

/-- The characters of `a=OP` add up to 317, whose lowest byte is `=`. -/
theorem not_readFromStream_writeToStream : ¬ ∀ (vars : Variables) (dev : BlockDevice) (size : Nat),
    WellNamed vars → Fits vars → ParaEnvBlockRWStart + ParaEnvBlockSize ≤ size → ZeroFilled dev →
    readFromStream ∅ (writeToStream vars dev) size = some (.paraVarErrorNone, vars) := by
  intro hall
  obtain ⟨vars, hvars⟩ : ∃ vars : Variables, vars = (∅ : Variables).insert [97] [79, 80] := ⟨_, rfl⟩
  have hnamed : WellNamed vars := by
    unfold WellNamed
    rw [hvars]
    decide
  have hfits : Fits vars := by
    unfold Fits
    rw [hvars]
    decide
  have hzero : ZeroFilled fun _ => ParaEnvNullChar := fun _ _ _ => rfl
  have h := hall vars _ 0x24000 hnamed hfits (by decide) hzero
  rw [readFromStream_of_zeroFilled hnamed hfits (by decide) hzero, Option.some.injEq, Prod.mk.injEq,
    foldl_insertVariable_eq_self, hvars] at h
  exact absurd (h.2 ([], [1]) (by decide)) (by decide)

/-! ## Writing over an earlier block -/

/-- What `WriteToStream` leaves of the block between the signatures is zero. -/
def Clean (vars : Variables) (dev : BlockDevice) : Prop :=
  ∀ i, 6 ≤ i → i < ParaEnvBlockSig2Pos → i < 8 ∨ 8 + (encode vars.toList).length ≤ i →
    dev (ParaEnvBlockRWStart + i) = ParaEnvNullChar

theorem clean_iff (h : Fits vars) (dev : BlockDevice) :
    Clean vars dev ↔ accumulate (dev.read (ParaEnvBlockRWStart + 6) 2) +
      accumulate (dev.read (ParaEnvBlockRWStart + 8 + (encode vars.toList).length)
        (ParaEnvBlockSig2Pos - 8 - (encode vars.toList).length)) = 0 := by
  have hfits : 8 + (encode vars.toList).length ≤ ParaEnvBlockSig2Pos := h
  rw [Nat.add_eq_zero_iff, accumulate_eq_zero, accumulate_eq_zero]
  constructor
  · intro hc
    constructor <;> intro b hb <;> obtain ⟨i, h₁, h₂, rfl⟩ := BlockDevice.mem_read.mp hb
    · have := hc (i - ParaEnvBlockRWStart) (by omega) (by omega) (by omega)
      rwa [Nat.add_sub_cancel' (by omega)] at this
    · have := hc (i - ParaEnvBlockRWStart) (by omega) (by omega) (by omega)
      rwa [Nat.add_sub_cancel' (by omega)] at this
  · rintro ⟨hb, ha⟩ i h₁ h₂ (h₃ | h₃)
    · exact hb _ (BlockDevice.mem_read.mpr ⟨_, by omega, by omega, rfl⟩)
    · exact ha _ (BlockDevice.mem_read.mpr ⟨_, by omega, by omega, rfl⟩)

theorem Clean.readFromStream {dev : BlockDevice} (hclean : Clean vars dev) (hnamed : WellNamed vars)
    (h : Fits vars) (hsize : ParaEnvBlockRWStart + ParaEnvBlockSize ≤ size) :
    readFromStream ∅ (writeToStream vars dev) size = some (.paraVarErrorNone,
      (found (signature ++ (dev.read (ParaEnvBlockRWStart + ParaEnvBlockSig2Pos + 6) 2 ++
        leBytes 4 (accumulate (encode vars.toList))))).foldl insertVariable vars) := by
  have hsum := Nat.add_eq_zero_iff.mp ((clean_iff h dev).mp hclean)
  apply readFromStream_of_clean hnamed h hsize
  · exact List.eq_replicate_iff.mpr ⟨BlockDevice.length_read, accumulate_eq_zero.mp hsum.1⟩
  · exact List.eq_replicate_iff.mpr ⟨BlockDevice.length_read, accumulate_eq_zero.mp hsum.2⟩

theorem writeToStream_of_unwritten (dev : BlockDevice)
    (h₁ : i < ParaEnvBlockRWStart ∨ ParaEnvBlockRWStart + 6 ≤ i)
    (h₂ : i < ParaEnvBlockRWStart + 8 ∨ ParaEnvBlockRWStart + 8 + (encode vars.toList).length ≤ i)
    (h₃ : i < ParaEnvBlockRWStart + ParaEnvBlockSig2Pos ∨
      ParaEnvBlockRWStart + ParaEnvBlockSig2Pos + 6 ≤ i ∧
      i < ParaEnvBlockRWStart + ParaEnvBlockSize - 4 ∨ ParaEnvBlockRWStart + ParaEnvBlockSize ≤ i) :
    writeToStream vars dev i = dev i := by
  have hsig : signature.length = 6 := rfl
  have hcs : (leBytes 4 (checksum vars)).length = 4 := length_leBytes 4 _
  have hpos : ParaEnvBlockSig2Pos = 0x3ff4 := rfl
  have hlen : ParaEnvBlockSize = 0x4000 := rfl
  have hother : ∀ (d : BlockDevice) (offset : Nat) (bytes : List UInt8),
      i < offset ∨ offset + bytes.length ≤ i → d.write offset bytes i = d i := by
    intro d offset bytes h
    rcases h with h | h
    · exact BlockDevice.write_of_lt h
    · exact BlockDevice.write_of_le h
  rw [writeToStream_eq, ParaEnvBlockSigSize, hother _ _ _ (by omega), hother _ _ _ (by omega),
    hother _ _ _ h₂, hother _ _ _ (by omega)]

/-- An earlier block on NULs is overwritten, unless its variables are longer. -/
theorem clean_of_length_le {dev : BlockDevice} (hzero : ZeroFilled dev)
    (h : (encode earlier.toList).length ≤ (encode vars.toList).length) :
    Clean vars (writeToStream earlier dev) := by
  intro i h₁ h₂ h₃
  have hpos : ParaEnvBlockSig2Pos = 0x3ff4 := rfl
  have hlen : ParaEnvBlockSize = 0x4000 := rfl
  rw [writeToStream_of_unwritten dev (by omega) (by omega) (by omega)]
  exact hzero _ (by omega) (by omega)

theorem writeVariables_frame_iff (vars : Variables) :
    (∀ (dev : BlockDevice) (i : Nat), i < ParaEnvBlockRWStart ∨
      ParaEnvBlockRWStart + ParaEnvBlockSize ≤ i ∨
        ParaEnvBlockRWStart + ParaEnvBlockSig2Pos ≤ i ∧
          i < ParaEnvBlockRWStart + ParaEnvBlockSig2Pos + ParaEnvBlockSigSize →
        (writeVariables vars ⟨dev, ParaEnvBlockRWStart + ParaEnvBlockSigSize⟩).device i = dev i) ↔
      Fits vars := by
  have hpos : ParaEnvBlockSig2Pos = 0x3ff4 := rfl
  have hlen : ParaEnvBlockSize = 0x4000 := rfl
  have hsig : ParaEnvBlockSigSize = 8 := rfl
  simp only [writeVariables_eq, Stream.put, Fits]
  generalize encode vars.toList = enc
  constructor
  · intro h
    refine Nat.le_of_not_lt fun hlt => ?_
    -- a device that has another byte where the second signature starts
    obtain ⟨b, hb⟩ : ∃ b, enc[ParaEnvBlockSig2Pos - ParaEnvBlockSigSize]? = some b :=
      ⟨_, List.getElem?_eq_getElem (by omega)⟩
    have hi := h (fun _ => b + 1) (ParaEnvBlockRWStart + ParaEnvBlockSig2Pos) (by omega)
    have hsub : ParaEnvBlockRWStart + ParaEnvBlockSig2Pos -
        (ParaEnvBlockRWStart + ParaEnvBlockSigSize) =
        ParaEnvBlockSig2Pos - ParaEnvBlockSigSize := by omega
    rw [BlockDevice.write, if_pos (by omega), hsub, List.getD_eq_getElem?_getD, hb,
      Option.getD_some] at hi
    have hlt256 := b.toNat_lt
    have hnat := congrArg UInt8.toNat hi
    have hone : (1 : UInt8).toNat = 1 := rfl
    rw [UInt8.toNat_add, hone] at hnat
    omega
  · intro h dev i hi
    rcases Nat.lt_or_ge i (ParaEnvBlockRWStart + ParaEnvBlockSigSize) with hlt | hge
    · exact BlockDevice.write_of_lt hlt
    · exact BlockDevice.write_of_le (by omega)

/-- What is read after a second `WriteToStream` is what it would leave on an empty block, exactly if
the first one and the device left only NULs where the second one does not write, and what stands
after the second signature adds no variable; and the variables of a map stay below the second
signature exactly if they fit. -/
theorem overwrite_iff {earlier vars : Variables} {dev blank : BlockDevice} {size : Nat}
    (hnamed : WellNamed earlier ∧ WellNamed vars) (hfits : Fits earlier ∧ Fits vars)
    (hsize : ParaEnvBlockRWStart + ParaEnvBlockSize ≤ size) (hblank : ZeroFilled blank) :
    ((∃ error result, readFromStream ∅ (writeToStream vars blank) size = some (error, result) ∧
        readFromStream ∅ (writeToStream vars (writeToStream earlier dev)) size =
          some (.paraVarErrorNone, result)) ↔
      Clean vars (writeToStream earlier dev) ∧
      (found (signature ++ ((writeToStream earlier dev).read
          (ParaEnvBlockRWStart + ParaEnvBlockSig2Pos + 6) 2 ++
          leBytes 4 (accumulate (encode vars.toList))))).foldl insertVariable vars =
        (found (leBytes 4 (accumulate (encode vars.toList)))).foldl insertVariable vars) ∧
    ∀ vars, (∀ (dev : BlockDevice) (i : Nat), i < ParaEnvBlockRWStart ∨
        ParaEnvBlockRWStart + ParaEnvBlockSize ≤ i ∨ ParaEnvBlockRWStart + ParaEnvBlockSig2Pos ≤ i ∧
          i < ParaEnvBlockRWStart + ParaEnvBlockSig2Pos + ParaEnvBlockSigSize →
        (writeVariables vars ⟨dev, ParaEnvBlockRWStart + ParaEnvBlockSigSize⟩).device i = dev i) ↔
      Fits vars := by
  refine ⟨?_, writeVariables_frame_iff⟩
  rw [readFromStream_of_zeroFilled hnamed.2 hfits.2 hsize hblank]
  generalize writeToStream earlier dev = old
  constructor
  · rintro ⟨_, result, hres, hread⟩
    obtain ⟨-, rfl⟩ := Prod.mk.inj (Option.some.inj hres)
    have hclean : Clean vars old := by
      rw [readFromStream_writeToStream hfits.2 hsize rfl rfl rfl, Option.some.injEq, Prod.mk.injEq]
        at hread
      rw [clean_iff hfits.2]
      by_contra hne
      rw [if_neg hne] at hread
      exact absurd hread.1 (by decide)
    rw [hclean.readFromStream hnamed.2 hfits.2 hsize, Option.some.injEq, Prod.mk.injEq] at hread
    exact ⟨hclean, hread.2⟩
  · rintro ⟨hclean, hfound⟩
    refine ⟨_, _, rfl, ?_⟩
    rw [hclean.readFromStream hnamed.2 hfits.2 hsize, hfound]

/-- A longer value over a shorter one, on an empty device. -/
theorem overwrite_iff_longer : ∃ error result,
    readFromStream ∅ (writeToStream ((∅ : Variables).insert [97] [98, 99]) fun _ => 0) 0x24000 =
      some (error, result) ∧
    readFromStream ∅ (writeToStream ((∅ : Variables).insert [97] [98, 99])
      (writeToStream ((∅ : Variables).insert [97] [98]) fun _ => 0)) 0x24000 =
        some (.paraVarErrorNone, result) := by
  have hzero : ZeroFilled fun _ => 0 := fun _ _ _ => rfl
  apply (overwrite_iff (by unfold WellNamed; decide) (by unfold Fits; decide)
    (by decide) hzero).1.mpr
  refine ⟨clean_of_length_le hzero (by decide), ?_⟩
  rw [show (writeToStream ((∅ : Variables).insert [97] [98]) fun _ => 0).read
    (ParaEnvBlockRWStart + ParaEnvBlockSig2Pos + 6) 2 = List.replicate 2 ParaEnvNullChar by
    decide +kernel,
    found_signature]

/-- After `a=bcd`, the `d` stays behind `a=b`. -/
theorem not_overwrite : ¬ ∀ (earlier vars : Variables) (dev blank : BlockDevice) (size : Nat),
    WellNamed earlier ∧ WellNamed vars → Fits earlier ∧ Fits vars →
    ParaEnvBlockRWStart + ParaEnvBlockSize ≤ size → ZeroFilled blank →
    ∃ error result, readFromStream ∅ (writeToStream vars blank) size = some (error, result) ∧
      readFromStream ∅ (writeToStream vars (writeToStream earlier dev)) size =
        some (.paraVarErrorNone, result) := by
  intro hall
  have hzero : ZeroFilled fun _ => 0 := fun _ _ _ => rfl
  obtain ⟨earlier, hearlier⟩ :
      ∃ vars : Variables, vars = (∅ : Variables).insert [97] [98, 99, 100] := ⟨_, rfl⟩
  obtain ⟨vars, hvars⟩ : ∃ vars : Variables, vars = (∅ : Variables).insert [97] [98] := ⟨_, rfl⟩
  have hfits : Fits vars := by
    unfold Fits
    rw [hvars]
    decide
  obtain ⟨error, result, -, hread⟩ := hall earlier vars (fun _ => 0) (fun _ => 0) 0x24000
    (by unfold WellNamed; rw [hearlier, hvars]; decide)
      (by unfold Fits; rw [hearlier, hvars]; decide)
    (by decide) hzero
  rw [readFromStream_writeToStream hfits (by decide) rfl rfl rfl, Option.some.injEq, Prod.mk.injEq]
    at hread
  have hclean : Clean vars (writeToStream earlier fun _ => 0) := by
    rw [clean_iff hfits]
    by_contra hne
    rw [if_neg hne] at hread
    exact absurd hread.1 (by decide)
  have hd := hclean 12 (by decide) (by decide) (.inr (by rw [hvars]; decide))
  rw [hearlier] at hd
  revert hd
  decide +kernel

end BootableRecovery.Para

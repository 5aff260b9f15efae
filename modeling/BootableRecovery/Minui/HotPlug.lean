import BootableRecovery.Minui.Events
import BootableRecovery.Theory.LittleEndian

/-!
# Input devices that are plugged in later

`inotify_cb` of `minui/events.cpp`, which goes over the records of a buffer by their lengths and
ends each name with a NUL. The NUL of the last record is behind the buffer, and a device that is
gone ends the loop (`hotPlugRight_iff`).
-/

namespace BootableRecovery.Minui.Events

/-- `sizeof(inotify_event)`, without the name. -/
def inotifyEventSize : Nat := 16

/-- The place of `len` in an `inotify_event`. -/
def lenOffset : Nat := 12

def eventPrefix : List UInt8 := "event".toList.map fun c => .ofNat c.toNat

/-- What `openat` gives: the descriptor, its bits if they can be read, and whether `epoll_ctl` takes
it. -/
structure Opened where
  fd : Int
  bits : Option EvBits
  added : Bool

/-- What the callback finds: whether `opendir` and `malloc` give something, what stands in the
memory from the block on, and what `openat` gives for a name at the record with that offset. -/
structure World where
  dirOpened : Bool
  granted : Bool
  heap : Nat → UInt8
  openat : Nat → List UInt8 → Option Opened

/-- A pass of the loop: the offset of the record, the places that are read or written after `read`,
counted from `buf`, whether the event is looked at, and what is handed to `ev_add_fd`. -/
structure Visit where
  offset : Nat
  accesses : List Nat
  looked : Bool
  handed : Option (Int × Bool)

/-- The end of a pass: `continue`, or `ev_add_fd`. -/
def Opened.handed (opened : Opened) : Option (Int × Bool) :=
  match opened.bits with
  | none => none
  | some bits => if !bits.key && !bits.rel && !bits.sw then none else some (opened.fd, opened.added)

/-- The string at `p`, which ends at a NUL among the `len` characters or is followed by one. -/
def cString (mem : Nat → UInt8) (p len : Nat) : List UInt8 :=
  ((List.range len).map fun i => mem (p + i)).takeWhile (· ≠ 0)

def lenReads (offset : Nat) : List Nat := (List.range 4).map (offset + lenOffset + ·)

/-- The first `n` characters of a name, its NUL included. -/
def nameReads (offset n : Nat) : List Nat := (List.range n).map (offset + inotifyEventSize + ·)

/-- The loop of `inotify_cb`. -/
def inotifyLoop (w : World) (eventLen : Nat) (mem : Nat → UInt8) (offset : Nat) :
    Int × List Visit :=
  if _h : offset < eventLen then
    let len := leNat ((List.range 4).map fun i => mem (offset + lenOffset + i))
    if offset + inotifyEventSize + len > eventLen
      then (-1, [⟨offset, lenReads offset, false, none⟩])
    else
      let next := offset + inotifyEventSize + len
      -- The terminator, at `name[len]`.
      let mem := Function.update mem next 0
      let name := cString mem (offset + inotifyEventSize) len
      let accesses :=
        lenReads offset ++ next :: nameReads offset (min eventPrefix.length (name.length + 1))
      if ¬eventPrefix <+: name then
        (inotifyLoop w eventLen mem next).map id (⟨offset, accesses, true, none⟩ :: ·)
      else
        let accesses := accesses ++ nameReads offset (name.length + 1)
        match w.openat offset name with
        | none => (0, [⟨offset, accesses, true, none⟩])
        | some opened =>
          (inotifyLoop w eventLen mem next).map id (⟨offset, accesses, true, opened.handed⟩ :: ·)
  else (0, [])
termination_by eventLen - offset
decreasing_by all_goals (simp only [inotifyEventSize] at *; omega)

/-- `inotify_cb`, where `FIONREAD` gives `eventLen` and `read` gives `bytes`. -/
def inotifyCb (w : World) (t : Table) (eventLen : Option Nat) (bytes : Option (List UInt8)) :
    Int × List Visit :=
  if t.savedInputCb = none then (-1, [])
  else
    match eventLen with
    | none => (-1, [])
    | some eventLen =>
      if !w.dirOpened then (-1, [])
      else if !w.granted then (-1, [])
      else
        match bytes with
        | none => (-1, [])
        | some bytes =>
          if bytes.length ≠ eventLen then (-1, [])
          else inotifyLoop w eventLen (fun i => bytes[i]?.getD (w.heap i)) 0

/-- The calls of `ev_add_fd`. -/
def handedOf (visits : List Visit) : List (Int × Bool) := visits.filterMap Visit.handed

/-! ## Events -/

/-- A complete event of the kernel; the name is empty if there is none. -/
structure Event where
  wd : Int
  mask : Nat
  cookie : Nat
  name : List UInt8
  name_ne : 0 ∉ name
  name_lt : name.length + inotifyEventSize < 2 ^ 32

namespace Event

/-- The kernel fills a name with NULs to a multiple of the size of an event. -/
def len (e : Event) : Nat :=
  if e.name = [] then 0 else (e.name.length + 1 + (inotifyEventSize - 1)) / inotifyEventSize *
  inotifyEventSize

def head (e : Event) : List UInt8 := int32Bytes e.wd ++ leBytes 4 e.mask ++ leBytes 4 e.cookie

def field (e : Event) : List UInt8 := e.name ++ List.replicate (e.len - e.name.length) 0

def bytes (e : Event) : List UInt8 := e.head ++ leBytes 4 e.len ++ e.field

/-- Whether the name is one of an input device. -/
def IsInput (e : Event) : Prop := eventPrefix <+: e.name

instance (e : Event) : Decidable e.IsInput := inferInstanceAs (Decidable (_ <+: _))

end Event

/-- What one `read` returns. -/
def batch (events : List Event) : List UInt8 := events.flatMap Event.bytes

@[simp] theorem batch_cons (e : Event) (events : List Event) :
    batch (e :: events) = e.bytes ++ batch events := rfl

@[simp] theorem batch_append (seen unseen : List Event) :
    batch (seen ++ unseen) = batch seen ++ batch unseen :=
  List.flatMap_append

/-- The events with their offsets. -/
def place : (offset : Nat) → List Event → List (Nat × Event)
  | _, [] => []
  | offset, e :: events => (offset, e) :: place (offset + e.bytes.length) events

/-- What is to be handed to `ev_add_fd` for an event. -/
def World.device (w : World) (p : Nat × Event) : Option (Int × Bool) :=
  if p.2.IsInput then
    match w.openat p.1 p.2.name with
    | some ⟨fd, some bits, added⟩ =>
      if bits.key ∨ bits.rel ∨ bits.sw then some (fd, added) else none
    | _ => none
  else none

/-- The accesses are inside the block, every event is looked at, and every device is handed to
`ev_add_fd`. -/
structure HotPlugRight (w : World) (events : List Event) (visits : List Visit) : Prop where
  inside : ∀ v ∈ visits, ∀ a ∈ v.accesses, a < (batch events).length
  looked : ∀ p ∈ place 0 events, ∃ v ∈ visits, v.looked ∧ v.offset = p.1
  handed : ∀ p ∈ place 0 events, ∀ d ∈ w.device p, d ∈ handedOf visits

/-- A device that cannot be opened: it is gone when its event is looked at. -/
def World.Gone (w : World) (p : Nat × Event) : Prop := p.2.IsInput ∧ w.openat p.1 p.2.name = none

instance (w : World) (p : Nat × Event) : Decidable (w.Gone p) := inferInstanceAs (Decidable (_ ∧ _))

/-- The events up to the first device that is gone. -/
def World.reached (w : World) : List (Nat × Event) → List (Nat × Event)
  | [] => []
  | p :: events => if w.Gone p then [p] else p :: w.reached events

/-- The places that a pass over an event reads or writes. -/
def touches (p : Nat × Event) : List Nat :=
  lenReads p.1 ++ (p.1 + inotifyEventSize + p.2.len) ::
    (nameReads p.1 (min eventPrefix.length (p.2.name.length + 1)) ++
      if p.2.IsInput then nameReads p.1 (p.2.name.length + 1) else [])

/-- The pass over an event. -/
def World.visit (w : World) (p : Nat × Event) : Visit := ⟨p.1, touches p, true, w.device p⟩

section
variable {w : World} {t t' : Table} {rows : List FdInfo} {e : Event} {events : List Event}
    {p : Nat × Event}
  {mem : Nat → UInt8} {offset : Nat} {bytes rest : List UInt8}

/-! ## The buffer -/

theorem Event.length_head (e : Event) : e.head.length = lenOffset := by simp [Event.head, lenOffset]

theorem Event.name_lt_len (h : e.name ≠ []) : e.name.length < e.len := by
  rw [Event.len, if_neg h]
  simp only [inotifyEventSize]
  omega

theorem Event.name_le_len (e : Event) : e.name.length ≤ e.len := by
  by_cases h : e.name = []
  · simp [h]
  · exact (Event.name_lt_len h).le

theorem Event.len_lt (e : Event) : e.len < 256 ^ 4 := by
  have hlt := e.name_lt
  rw [Event.len]
  simp only [inotifyEventSize] at *
  split <;> omega

theorem Event.length_field (e : Event) : e.field.length = e.len := by
  simp [Event.field, Nat.add_sub_cancel' e.name_le_len]

theorem Event.length_bytes (e : Event) : e.bytes.length = inotifyEventSize + e.len := by
  simp only [Event.bytes, List.length_append, e.length_head, e.length_field, length_leBytes,
    lenOffset, inotifyEventSize]

/-- The memory holds some bytes from `offset` on. The first of them may be the NUL of the name in
front. -/
def Holds (mem : Nat → UInt8) (offset : Nat) (bytes : List UInt8) : Prop :=
  ∀ i, 0 < i → ∀ b ∈ bytes[i]?, mem (offset + i) = b

theorem Holds.slice {a b c : List UInt8} (h : Holds mem offset (a ++ b ++ c)) (ha : a ≠ []) :
    ((List.range b.length).map fun i => mem (offset + a.length + i)) = b := by
  have hpos : 0 < a.length := List.length_pos_iff.mpr ha
  apply List.ext_getElem (by simp)
  intro i hi hb
  rw [List.getElem_map, List.getElem_range, Nat.add_assoc]
  refine h (a.length + i) (by omega) _ ?_
  rw [List.append_assoc, List.getElem?_append_right (by omega), Nat.add_sub_cancel_left,
    List.getElem?_append_left hb, List.getElem?_eq_getElem hb]
  rfl

theorem Holds.len (h : Holds mem offset (e.bytes ++ rest)) :
    leNat ((List.range 4).map fun i => mem (offset + lenOffset + i)) = e.len := by
  have hne : e.head ≠ [] := List.ne_nil_of_length_pos (by rw [e.length_head]; decide)
  rw [Event.bytes, List.append_assoc] at h
  have hslice := h.slice hne
  rw [length_leBytes, e.length_head] at hslice
  rw [hslice, leNat_leBytes_of_lt e.len_lt]

theorem Holds.terminate (h : Holds mem offset (bytes ++ rest)) :
    Holds (Function.update mem (offset + bytes.length) 0) offset bytes := by
  intro i hi b hb
  have hlt : i < bytes.length := (List.getElem?_eq_some_iff.mp hb).1
  rw [Function.update_of_ne (by omega)]
  exact h i hi b (by rw [List.getElem?_append_left hlt]; exact hb)

/-- What comes after the event stands as it was, its first byte apart, which is not looked at. -/
theorem Holds.next (h : Holds mem offset (bytes ++ rest)) :
    Holds (Function.update mem (offset + bytes.length) 0) (offset + bytes.length) rest := by
  intro i hi b hb
  rw [Function.update_of_ne (by omega), Nat.add_assoc]
  refine h (bytes.length + i) (by omega) b ?_
  rw [List.getElem?_append_right (by omega), Nat.add_sub_cancel_left]
  exact hb

theorem Holds.name (h : Holds mem offset e.bytes) :
    cString mem (offset + inotifyEventSize) e.len = e.name := by
  have hne : e.head ++ leBytes 4 e.len ≠ [] := by simp [Event.head, int32Bytes, leBytes]
  have hhead : (e.head ++ leBytes 4 e.len).length = inotifyEventSize := by
    rw [List.length_append, e.length_head, length_leBytes]
    rfl
  have hslice := Holds.slice (b := e.field) (c := []) (by rwa [List.append_nil]) hne
  rw [hhead, e.length_field] at hslice
  have hchars : ∀ b ∈ e.name, (decide (b ≠ 0)) = true := fun b hb =>
    decide_eq_true fun hzero => e.name_ne (hzero ▸ hb)
  rw [cString, hslice, Event.field, List.takeWhile_append_of_pos hchars]
  simp

/-! ## The loop -/

theorem Opened.handed_eq (opened : Opened) :
    opened.handed = opened.bits.bind fun bits =>
      if bits.key ∨ bits.rel ∨ bits.sw then some (opened.fd, opened.added) else none := by
  obtain ⟨fd, bits, added⟩ := opened
  cases bits with
  | none => rfl
  | some bits =>
    obtain ⟨key, rel, abs, sw⟩ := bits
    cases key <;> cases rel <;> cases sw <;> rfl

theorem World.device_of_not_isInput (h : ¬p.2.IsInput) : w.device p = none := if_neg h

theorem World.device_of_gone (h : w.Gone p) : w.device p = none := by
  rw [World.device, if_pos h.1, h.2]

theorem World.device_of_opened {opened : Opened} (h : p.2.IsInput)
    (hopen : w.openat p.1 p.2.name = some opened) : w.device p = opened.handed := by
  obtain ⟨fd, bits, added⟩ := opened
  rw [World.device, if_pos h, hopen, Opened.handed_eq]
  cases bits <;> rfl

/-- The loop over complete events: one pass over each, until a device is gone. -/
theorem inotifyLoop_spec (h : Holds mem offset (batch events)) :
    inotifyLoop w (offset + (batch events).length) mem offset =
    (0, (w.reached (place offset events)).map w.visit) := by
  induction events generalizing mem offset with
  | nil =>
    rw [inotifyLoop, dif_neg (by simp [batch])]
    rfl
  | cons e events ih =>
    rw [batch_cons] at h ⊢
    have hlength := e.length_bytes
    have hname := h.terminate.name
    have hnext := ih h.next
    have hend :
        offset + (e.bytes ++ batch events).length =
        offset + e.bytes.length + (batch events).length := by
      rw [List.length_append, Nat.add_assoc]
    have hoffset : offset + inotifyEventSize + e.len = offset + e.bytes.length := by omega
    rw [inotifyLoop, hend, dif_pos (by rw [hlength, inotifyEventSize]; omega)]
    dsimp only
    rw [h.len, if_neg (by omega), hoffset, hname, hnext, place]
    rw [World.reached]
    have htouches : touches (offset, e) = lenReads offset ++ (offset + e.bytes.length) ::
        (nameReads offset (min eventPrefix.length (e.name.length + 1)) ++
          if e.IsInput then nameReads offset (e.name.length + 1) else []) := by
      rw [touches, hoffset]
    split
    · rename_i hother
      replace hother : ¬e.IsInput := hother
      have hgone : ¬w.Gone (offset, e) := fun hgone => hother hgone.1
      rw [if_neg hgone, List.map_cons, World.visit,
        World.device_of_not_isInput (p := (offset, e)) hother, htouches, if_neg hother,
        List.append_nil]
      rfl
    · rename_i hinput
      replace hinput : e.IsInput := not_not.mp hinput
      cases hopen : w.openat offset e.name with
      | none =>
        have hgone : w.Gone (offset, e) := ⟨hinput, hopen⟩
        rw [if_pos hgone, List.map_singleton, World.visit, World.device_of_gone hgone, htouches,
          if_pos hinput]
        simp
      | some opened =>
        have hgone : ¬w.Gone (offset, e) := fun hgone => nomatch hopen.symm.trans hgone.2
        rw [if_neg hgone, List.map_cons, World.visit, World.device_of_opened hinput hopen, htouches,
          if_pos hinput]
        simp

theorem inotifyCb_spec (hsaved : t.savedInputCb ≠ none) (hdir : w.dirOpened = true)
    (hgranted : w.granted = true) (events : List Event) :
    inotifyCb w t (some (batch events).length) (some (batch events)) =
      (0, (w.reached (place 0 events)).map w.visit) := by
  have hholds : Holds (fun i => (batch events)[i]?.getD (w.heap i)) 0 (batch events) := by
    intro i _ b hb
    dsimp only
    rw [Nat.zero_add, Option.mem_def.mp hb, Option.getD_some]
  rw [inotifyCb, if_neg hsaved, hdir, hgranted, if_neg (by decide), if_neg (by decide),
    if_neg (not_not_intro rfl)]
  have hloop := inotifyLoop_spec (w := w) hholds
  rwa [Nat.zero_add] at hloop

theorem inotifyCb_of_not (h : ¬(t.savedInputCb ≠ none ∧ w.dirOpened = true ∧ w.granted = true))
    (eventLen : Option Nat) (bytes : Option (List UInt8)) :
    inotifyCb w t eventLen bytes = (-1, []) := by
  unfold inotifyCb
  split
  · rfl
  · rename_i hsaved
    cases eventLen with
    | none => rfl
    | some eventLen =>
      dsimp only
      cases hdir : w.dirOpened with
      | false => rfl
      | true =>
        cases hgranted : w.granted with
        | false => rfl
        | true => exact absurd ⟨hsaved, hdir, hgranted⟩ h

/-! ## What the passes reach -/

theorem place_append (offset : Nat) (seen unseen : List Event) :
    place offset (seen ++ unseen) =
    place offset seen ++ place (offset + (batch seen).length) unseen := by
  induction seen generalizing offset with
  | nil => rfl
  | cons e seen ih =>
    rw [List.cons_append, place, ih, place, List.cons_append, batch_cons, List.length_append,
      Nat.add_assoc]

/-- The events that are reached come first, and there is one if there are events. -/
theorem exists_seen (w : World) (offset : Nat) (events : List Event) :
    ∃ seen unseen, events = seen ++ unseen ∧ w.reached (place offset events) = place offset seen ∧
      (seen = [] → events = []) := by
  induction events generalizing offset with
  | nil => exact ⟨[], [], rfl, rfl, fun _ => rfl⟩
  | cons e events ih =>
    rw [place, World.reached]
    split
    · exact ⟨[e], events, rfl, rfl, nofun⟩
    · obtain ⟨seen, unseen, hevents, hreached, -⟩ := ih (offset + e.bytes.length)
      refine ⟨e :: seen, unseen, by rw [hevents]; rfl, ?_, nofun⟩
      rw [hreached, place]

/-- All events are reached if and only if no device but the last is gone. -/
theorem reached_eq_iff (w : World) (l : List (Nat × Event)) :
    w.reached l = l ↔ ∀ p ∈ l.dropLast, ¬w.Gone p := by
  induction l with
  | nil => simp [World.reached]
  | cons p l ih =>
    rw [World.reached]
    cases l with
    | nil => simp [World.reached]
    | cons q l =>
      rw [List.dropLast_cons_cons, List.forall_mem_cons, ← ih]
      split
      · rename_i hgone
        simp [hgone]
      · rename_i hgone
        simp [hgone]

theorem end_le (h : p ∈ place offset events) :
    p.1 + inotifyEventSize + p.2.len ≤ offset + (batch events).length := by
  induction events generalizing offset with
  | nil => cases h
  | cons e events ih =>
    have hlength := e.length_bytes
    rw [batch_cons, List.length_append]
    rcases List.mem_cons.mp h with rfl | h
    · dsimp only
      omega
    · have hle := ih h
      omega

/-- A pass reads and writes from its event's start to its end, which is the place of the
terminator. -/
theorem touches_le {a : Nat} (h : a ∈ touches p) : a ≤ p.1 + inotifyEventSize + p.2.len := by
  have hname : ∀ n ≤ p.2.name.length + 1, a ∈ nameReads p.1 n →
      a ≤ p.1 + inotifyEventSize + p.2.len := by
    intro n hn hmem
    obtain ⟨i, hi, rfl⟩ := List.mem_map.mp hmem
    have hlt := List.mem_range.mp hi
    have hle := p.2.name_le_len
    omega
  rcases List.mem_append.mp h with h | h
  · obtain ⟨i, hi, rfl⟩ := List.mem_map.mp h
    have hlt := List.mem_range.mp hi
    simp only [lenOffset, inotifyEventSize]
    omega
  · rcases List.mem_cons.mp h with rfl | h
    · exact Nat.le_refl _
    · rcases List.mem_append.mp h with h | h
      · exact hname _ (Nat.min_le_right _ _) h
      · split at h
        · exact hname _ (Nat.le_refl _) h
        · cases h

theorem end_mem_touches (p : Nat × Event) : p.1 + inotifyEventSize + p.2.len ∈ touches p :=
  List.mem_append_right _ List.mem_cons_self

theorem exists_last (hne : events ≠ []) (offset : Nat) :
    ∃ p ∈ place offset events, p.1 + inotifyEventSize + p.2.len =
    offset + (batch events).length := by
  induction events generalizing offset with
  | nil => exact absurd rfl hne
  | cons e events ih =>
    have hlength := e.length_bytes
    rw [batch_cons, List.length_append]
    cases events with
    | nil => exact ⟨(offset, e), List.mem_cons_self,
      by simp only [batch, List.flatMap_nil, List.length_nil]; omega⟩
    | cons e' events =>
      obtain ⟨p, hp, hend⟩ := ih (List.cons_ne_nil _ _) (offset + e.bytes.length)
      exact ⟨p, List.mem_cons_of_mem _ hp, by omega⟩

/-- All accesses are in the block, or at the one place behind it. -/
theorem accesses_le (events : List Event) :
    ∀ v ∈ (w.reached (place 0 events)).map w.visit, ∀ a ∈ v.accesses,
      a ≤ (batch events).length := by
  obtain ⟨seen, unseen, hevents, hreached, -⟩ := exists_seen w 0 events
  rw [hreached]
  intro v hv a ha
  obtain ⟨p, hp, rfl⟩ := List.mem_map.mp hv
  have hle := touches_le ha
  have hend := end_le hp
  rw [hevents, batch_append, List.length_append]
  omega

/-- The accesses stay in the block if and only if there is no event, or the last one is not
reached. -/
theorem inside_iff (w : World) (events : List Event) :
    (∀ v ∈ (w.reached (place 0 events)).map w.visit, ∀ a ∈ v.accesses, a < (batch events).length) ↔
      events = [] ∨ w.reached (place 0 events) ≠ place 0 events := by
  obtain ⟨seen, unseen, hevents, hreached, hseen⟩ := exists_seen w 0 events
  have hbatch : (batch events).length = (batch seen).length + (batch unseen).length := by
    rw [hevents, batch_append, List.length_append]
  constructor
  · intro hinside
    by_cases hne : events = []
    · exact .inl hne
    · refine .inr fun hall => ?_
      obtain ⟨p, hp, hend⟩ := exists_last hne 0
      have hlt := hinside _ (List.mem_map_of_mem (hall.symm ▸ hp)) _ (end_mem_touches p)
      omega
  · rintro (hnil | hpart)
    · subst hnil
      intro v hv
      cases hv
    · intro v hv a ha
      rw [hreached] at hv
      obtain ⟨p, hp, rfl⟩ := List.mem_map.mp hv
      have hle := touches_le ha
      have hend := end_le hp
      cases unseen with
      | nil =>
        rw [List.append_nil] at hevents
        exact absurd (by rw [hreached, hevents]) hpart
      | cons e unseen =>
        have hlength := e.length_bytes
        rw [batch_cons, List.length_append] at hbatch
        simp only [inotifyEventSize] at *
        omega

/-- Every event is looked at if and only if the loop reaches the last one. -/
theorem looked_iff (w : World) (events : List Event) :
    (∀ p ∈ place 0 events, ∃ v ∈ (w.reached (place 0 events)).map w.visit, v.looked ∧
      v.offset = p.1) ↔ w.reached (place 0 events) = place 0 events := by
  constructor
  · intro hlooked
    obtain ⟨seen, unseen, hevents, hreached, -⟩ := exists_seen w 0 events
    cases unseen with
    | nil => rw [hreached, hevents, List.append_nil]
    | cons e unseen =>
      have hmem : (0 + (batch seen).length, e) ∈ place 0 events := by
        rw [hevents, place_append]
        exact List.mem_append_right _ List.mem_cons_self
      obtain ⟨v, hv, -, hoffset⟩ := hlooked _ hmem
      rw [hreached] at hv
      obtain ⟨p, hp, rfl⟩ := List.mem_map.mp hv
      have hend := end_le hp
      rw [World.visit] at hoffset
      dsimp only at hoffset
      simp only [inotifyEventSize] at hend
      omega
  · intro hall p hp
    rw [hall]
    exact ⟨w.visit p, List.mem_map_of_mem hp, rfl, rfl⟩

theorem handedOf_visits (w : World) (l : List (Nat × Event)) :
    handedOf (l.map w.visit) = l.filterMap w.device := by
  rw [handedOf, List.filterMap_map]
  rfl

theorem looked_handed_of_not_gone (h : ∀ p ∈ (place 0 events).dropLast, ¬w.Gone p) :
    ∀ p ∈ place 0 events,
      (∃ v ∈ (w.reached (place 0 events)).map w.visit, v.looked ∧ v.offset = p.1) ∧
      ∀ d ∈ w.device p, d ∈ handedOf ((w.reached (place 0 events)).map w.visit) := by
  have hall := (reached_eq_iff w _).mpr h
  intro p hp
  refine ⟨(looked_iff w events).mpr hall p hp, fun d hd => ?_⟩
  rw [handedOf_visits, hall]
  exact List.mem_filterMap.mpr ⟨p, hp, hd⟩

/-! ## The table -/

end

/-- No batch with an event is gone over as it should be: the loop ends early, or the terminator of
the last name is stored behind the buffer. -/
theorem hotPlugRight_iff (w : World) (t : Table) (events : List Event) :
    HotPlugRight w events (inotifyCb w t (some (batch events).length) (some (batch events))).2 ↔
    events = [] := by
  by_cases hloop : t.savedInputCb ≠ none ∧ w.dirOpened = true ∧ w.granted = true
  · rw [inotifyCb_spec hloop.1 hloop.2.1 hloop.2.2]
    constructor
    · intro hright
      exact ((inside_iff w events).mp hright.inside).resolve_right
        (not_not_intro ((looked_iff w events).mp hright.looked))
    · rintro rfl
      exact ⟨by simp [place, World.reached], by simp [place], by simp [place]⟩
  · rw [inotifyCb_of_not hloop]
    constructor
    · intro hright
      cases events with
      | nil => rfl
      | cons e events =>
        obtain ⟨v, hv, -⟩ := hright.looked _ List.mem_cons_self
        cases hv
    · rintro rfl
      exact ⟨by simp, by simp [place], by simp [place]⟩

/-- One device that is plugged in and can be opened: its descriptor is handed over, and the NUL of
its name is stored at the place behind the buffer. -/
theorem not_hotPlugRight :
    ∃ (w : World) (t : Table) (events : List Event),
      ¬HotPlugRight w events
      (inotifyCb w t (some (batch events).length) (some (batch events))).2 := by
  refine ⟨⟨true, true, fun _ => 0, fun _ _ => some ⟨5, some ⟨true, false, false, false⟩, true⟩⟩,
    { Table.empty with savedInputCb := some (.other 0) },
    [⟨1, 0x100, 0, eventPrefix ++ [48], by decide, by decide⟩], ?_⟩
  intro hright
  rw [inotifyCb_spec (Option.some_ne_none _) rfl rfl] at hright
  exact absurd (hright.inside _ List.mem_cons_self 32 (by decide)) (by decide)

end BootableRecovery.Minui.Events

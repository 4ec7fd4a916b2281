import RegisterCode.Proofs.Code.Agreement
import RegisterCode.Proofs.Code.Ledger
import RegisterCode.Proofs.Code.Preservation
import RegisterCode.Proofs.Machine.Isolation

/-!
Machines that keep to the ledgers of a program. What is known of the top of a frame is where it
was when the frame was opened, and how many values the ledger says are on top of it. Every
instruction keeps this up (`Machine.Tidy.goesOn`), and at the same time it does the same in
two machines that agree on what has come from below and on what was written since.
-/

namespace RegisterCode

/-! ### What instructions touch -/

namespace Instruction

variable {op : Opcode} {x y : Operand} {r : Nat}

/-- How many registers below the top a call hands on. -/
def arguments? (i : Instruction) : Option Nat :=
  match i.op with
  | .call | .nativeCall => (i.operand? 1).map fun x => x.value.toNatClampNeg
  | _ => none

theorem register?_unary (op : Opcode) (x : Operand) : (unary op x).register? 0 =
    if x.mode = .register then some x.value.toNatClampNeg else none := by
  rw [register?, operand?_unary]
  rfl

theorem register?_binary_zero (op : Opcode) (x y : Operand) : (binary op x y).register? 0 =
    if x.mode = .register then some x.value.toNatClampNeg else none := by
  rw [register?, operand?_binary_zero]
  rfl

theorem register?_binary_one (op : Opcode) (x y : Operand) : (binary op x y).register? 1 =
    if y.mode = .register then some y.value.toNatClampNeg else none := by
  rw [register?, operand?_binary_one]
  rfl

theorem register?_ofNat (small : r < numberRange) :
    (if (Operand.register (Int16.ofNat r)).mode = .register then
      some (Operand.register (Int16.ofNat r)).value.toNatClampNeg else none) = some r := by
  have mode : (Operand.register (Int16.ofNat r)).mode = .register := rfl
  rw [if_pos mode]
  exact congrArg some (Machine.toNatClampNeg_ofNat_of_small small)

theorem arguments?_call (func count : Int16) :
    (binary .call (.immediate func) (.immediate count)).arguments? =
      some count.toNatClampNeg := by
  show Option.map _ ((binary .call _ _).operand? 1) = _
  rw [operand?_binary_one]
  rfl

theorem arguments?_nativeCall (id count : Int16) :
    (binary .nativeCall (.immediate id) (.immediate count)).arguments? =
      some count.toNatClampNeg := by
  show Option.map _ ((binary .nativeCall _ _).operand? 1) = _
  rw [operand?_binary_one]
  rfl

theorem mem_sources {i : Instruction} {slot : Nat} (mem : slot ∈ i.readSlots)
    (register : i.register? slot = some r) : r ∈ i.sources :=
  List.mem_filterMap.2 ⟨slot, mem, register⟩

end Instruction

namespace Machine

/-- The register of the file that an instruction writes in its frame. -/
def touched (m : Machine) (i : Instruction) : Set Nat :=
  { r | (touching m i).map (m.base + ·) = some r }

variable {m : Machine} {src : Operand} {r : Nat}

theorem touched_of_eq {i : Instruction} {offset : Nat} (touches : touching m i = some offset) :
    m.touched i = {m.base + offset} := by
  ext x
  rw [touched, Set.mem_ofPred_eq, touches, Option.map_some, Option.some.injEq,
    Set.mem_singleton_iff, eq_comm]

theorem touched_mov (small : r < numberRange) :
    m.touched (.binary .mov (.register (Int16.ofNat r)) src) = {m.base + r} :=
  touched_of_eq ((Instruction.register?_binary_zero _ _ _).trans
    (Instruction.register?_ofNat small))

theorem touched_neg (small : r < numberRange) :
    m.touched (.unary .neg (.register (Int16.ofNat r))) = {m.base + r} :=
  touched_of_eq ((Instruction.register?_unary _ _).trans (Instruction.register?_ofNat small))

theorem touched_push (plain : src.mode ≠ .stack) (seated : Seated m) :
    m.touched (.unary .push src) = {m.top} := by
  have mode : (Instruction.unary .push src).mode? 0 ≠ some .stack := by
    rw [Instruction.mode?_unary]
    exact fun same => plain (Option.some.inj same)
  have touches : touching m (.unary .push src) = some (m.top - m.base) := by
    show some ((if (Instruction.unary .push src).mode? 0 = some .stack then m.top - 1
      else m.top) - m.base) = _
    rw [if_neg mode]
  have base_le := seated.base_le
  rw [touched_of_eq touches, Nat.add_sub_cancel' base_le]

theorem touched_operate (op : BinaryOp) (room : m.base + 2 ≤ m.top) :
    m.touched (.nonary (.binary op)) = {m.top - 2} := by
  have touches : touching m (.nonary (.binary op)) = some (m.top - 2 - m.base) := rfl
  rw [touched_of_eq touches, Nat.add_sub_cancel' (by omega)]

theorem touched_of_none {i : Instruction} (touches : touching m i = none) : m.touched i = ∅ := by
  ext x
  simp [touched, touches]

/-- An instruction that writes no register adds nothing to what is known. -/
theorem AgreeOn.untouched {known : Set Nat} {n n' : Machine} {i : Instruction}
    (h : AgreeOn known n n') (touches : touching m i = none) :
    AgreeOn (known ∪ m.touched i) n n' := by
  rw [touched_of_none touches, Set.union_empty]
  exact h

/-- Who the machine goes back to, innermost first. -/
def callers (m : Machine) : List Frame := m.frames.toList.reverse

theorem length_callers (m : Machine) : m.callers.length = m.depth := by
  rw [callers, List.length_reverse, Array.length_toList]
  rfl

end Machine

/-! ### Levels -/

/-- The top when the frame at hand was opened: that of the frame it was called from. -/
def entryTop (callers : List Frame) : Nat := callers.head?.elim 0 Frame.top

namespace Ledger

/-- The top in front of an instruction of a frame that was opened with the top at `entry`. -/
structure Levels (b : Ledger) (q entry base top : Nat) : Prop where
  base_le : base ≤ entry
  low : entry + b.held q ≤ top
  high : top ≤ max entry (base + b.room q) + b.held q

namespace Levels

variable {b : Ledger} {code : Nat → Option Instruction} {q q' entry base top top' slot : Nat}
  (h : b.Levels q entry base top) (fits : b.Fits code)

include h fits

/-- The top stays where it is. -/
theorem still (le : q ≤ q') (held : b.held q = 0) (held' : b.held q' = 0) :
    b.Levels q' entry base top := by
  have mono := fits.mono le
  obtain ⟨base_le, low, high⟩ := h
  exact ⟨base_le, by omega, by omega⟩

/-- What was on top of the frame is taken, and a slot is written. -/
theorem written (taken : top' + b.held q = top) (named : slot < b.room (q + 1))
    (next : b.held (q + 1) = 0) : b.Levels (q + 1) entry base (max top' (base + slot + 1)) := by
  have mono := fits.mono (Nat.le_add_right q 1)
  obtain ⟨base_le, low, high⟩ := h
  exact ⟨base_le, by omega, by omega⟩

/-- There are more values on top of the frame than before, or fewer. -/
theorem moved (same : top' + b.held q = top + b.held (q + 1)) :
    b.Levels (q + 1) entry base top' := by
  have mono := fits.mono (Nat.le_add_right q 1)
  obtain ⟨base_le, low, high⟩ := h
  exact ⟨base_le, by omega, by omega⟩

end Levels

/-- In front of a call is its window. -/
theorem Allows.window {b : Ledger} {code : Nat → Option Instruction} {q n : Nat}
    {i : Instruction} (h : b.Allows code q i) (arguments : i.arguments? = some n) :
    i.op ≠ .nop ∧ b.Window code q n ∧ b.held q = 0 := by
  cases h with
  | call is named some window held next =>
      subst is
      cases (Instruction.arguments?_call _ _).symm.trans arguments
      exact ⟨nofun, window, held⟩
  | nativeCall is named some window held next =>
      subst is
      cases (Instruction.arguments?_nativeCall _ _).symm.trans arguments
      exact ⟨nofun, window, held⟩
  | nop is | move is | store is | push is | neg is | operate is | jump is | jumpElse is | ret is =>
      subst is
      cases arguments

end Ledger

namespace Machine

section

variable (s : Setting) (ledgers : Nat → Ledger) (outer : List Frame) (known : Set Nat)

/-- Frames on top of the outer ones, each of which waits behind a call that it made. What they
have got from below is known. -/
inductive Awaits : List Frame → Prop where
  | outer : Awaits outer
  | call {frame : Frame} {rest : List Frame} {q : Nat} {i : Instruction}
    (place : frame.place = q + 1) (fetched : s.program.fetch? frame.func q = some i)
    (isCall : i.op = .call) (held : (ledgers frame.func).held frame.place = 0)
    (levels : (ledgers frame.func).Levels frame.place (entryTop rest) frame.base frame.top)
    (grounded : ∀ r, frame.base ≤ r → r < entryTop rest → r ∈ known)
    (below : Awaits rest) : Awaits (frame :: rest)

/-- A machine that has kept to the ledgers since it had no more than the outer frames. What it
has got from below is known, and what is on top of its frame. -/
structure Tidy (m : Machine) : Prop where
  awaits : Awaits s ledgers outer known m.callers
  levels : (ledgers m.func).Levels m.place (entryTop m.callers) m.base m.top
  grounded : ∀ r, m.base ≤ r → r < entryTop m.callers → r ∈ known
  held : ∀ r < m.top, m.top ≤ r + (ledgers m.func).held m.place → r ∈ known

/-- How a machine has come to where it is with its last instruction. -/
inductive Arrives (m n : Machine) : Prop where
  | next (frames : n.frames = m.frames) (func : n.func = m.func) (base : n.base = m.base)
    (place : n.place = m.place + 1)
  | landed (nop : s.program.fetch? n.func n.place = some (.nonary .nop))
  | entered (start : n.place = 0)
  | back {q : Nat} {i : Instruction} (place : n.place = q + 1)
    (fetched : s.program.fetch? n.func q = some i) (isCall : i.op = .call)

/-- What an instruction reads of the registers, apart from what is on top of the frame. -/
structure Reads (m : Machine) (i : Instruction) : Prop where
  sources : ∀ offset ∈ i.sources, m.base + offset ∈ known
  window : ∀ n, i.arguments? = some n → ∀ r < m.top, m.top ≤ r + n → r ∈ known

end

namespace Reads

variable {known : Set Nat} {m : Machine} {op : Opcode} {x y : Operand}

theorem unary (h : Reads known m (.unary op x)) (reads : 0 ∈ (Instruction.unary op x).readSlots)
    (register : x.mode = .register) : m.base + x.value.toNatClampNeg ∈ known :=
  h.sources _ (Instruction.mem_sources reads
    ((Instruction.register?_unary op x).trans (if_pos register)))

theorem binary_zero (h : Reads known m (.binary op x y))
    (reads : 0 ∈ (Instruction.binary op x y).readSlots) (register : x.mode = .register) :
    m.base + x.value.toNatClampNeg ∈ known :=
  h.sources _ (Instruction.mem_sources reads
    ((Instruction.register?_binary_zero op x y).trans (if_pos register)))

theorem binary_one (h : Reads known m (.binary .mov x y)) (register : y.mode = .register) :
    m.base + y.value.toNatClampNeg ∈ known :=
  have reads : 1 ∈ (Instruction.binary .mov x y).readSlots := List.mem_singleton_self 1
  h.sources _ (Instruction.mem_sources reads
    ((Instruction.register?_binary_one .mov x y).trans (if_pos register)))

end Reads

section

variable (s : Setting) (ledgers : Nat → Ledger) (outer : List Frame) (known : Set Nat)

/-- From machines that agree, the instruction leads to machines that agree, the first of which
is tidy if it is still above the outer frames; or it fails in both. -/
def GoesOn (m m' : Machine) (i : Instruction) : Prop :=
  BothFail s i m.started m'.started ∨
    ∃ n n', dispatch s i m.started = .ok () n ∧ dispatch s i m'.started = .ok () n' ∧
      AgreeOn (known ∪ m.touched i) n n' ∧
      (outer.length ≤ n.depth → Tidy s ledgers outer (known ∪ m.touched i) n ∧ Arrives s m n)

end

variable {s : Setting} {ledgers : Nat → Ledger} {outer : List Frame} {known known' : Set Nat}
  {m m' n : Machine}

theorem Awaits.mono {frames : List Frame} (h : Awaits s ledgers outer known frames)
    (le : known ⊆ known') : Awaits s ledgers outer known' frames := by
  induction h with
  | outer => exact .outer
  | call place fetched isCall held levels grounded _ ih =>
      exact .call place fetched isCall held levels (fun r ge lt => le (grounded r ge lt)) ih

namespace Tidy

theorem mono (h : Tidy s ledgers outer known m) (le : known ⊆ known') :
    Tidy s ledgers outer known' m :=
  ⟨h.awaits.mono le, h.levels, fun r ge lt => le (h.grounded r ge lt),
    fun r lt ge => le (h.held r lt ge)⟩

/-- In the frame at hand the levels change, and what is on top of the frame. -/
theorem within (h : Tidy s ledgers outer known m) (le : known ⊆ known')
    (frames : n.frames = m.frames) (func : n.func = m.func) (base : n.base = m.base)
    (levels : (ledgers m.func).Levels n.place (entryTop m.callers) m.base n.top)
    (held : ∀ r < n.top, n.top ≤ r + (ledgers m.func).held n.place → r ∈ known') :
    Tidy s ledgers outer known' n := by
  have callers : n.callers = m.callers := by rw [callers, frames]; rfl
  refine ⟨?_, ?_, fun r ge lt => ?_, ?_⟩
  · rw [callers]
    exact h.awaits.mono le
  · rw [func, callers, base]
    exact levels
  · rw [base] at ge
    rw [callers] at lt
    exact le (h.grounded r ge lt)
  · rw [func]
    exact held

/-- Behind an instruction that goes on in the frame at hand. -/
theorem next (h : Tidy s ledgers outer known m) {i : Instruction} {n n' : Machine}
    (ok : dispatch s i m.started = .ok () n) (ok' : dispatch s i m'.started = .ok () n')
    (agree : AgreeOn (known ∪ m.touched i) n n') (frames : n.frames = m.frames)
    (func : n.func = m.func) (base : n.base = m.base) (place : n.place = m.place + 1)
    (levels : (ledgers m.func).Levels (m.place + 1) (entryTop m.callers) m.base n.top)
    (held : ∀ r < n.top, n.top ≤ r + (ledgers m.func).held (m.place + 1) →
      r ∈ known ∪ m.touched i) : GoesOn s ledgers outer known m m' i := by
  refine .inr ⟨n, n', ok, ok', agree, fun _ =>
    ⟨h.within Set.subset_union_left frames func base ?_ ?_, .next frames func base place⟩⟩
  · rw [place]
    exact levels
  · rw [place]
    exact held

/-- Behind an instruction that goes on with nothing on top of the frame at hand. -/
theorem next_bare (h : Tidy s ledgers outer known m) {i : Instruction} {n n' : Machine}
    (ok : dispatch s i m.started = .ok () n) (ok' : dispatch s i m'.started = .ok () n')
    (agree : AgreeOn (known ∪ m.touched i) n n') (frames : n.frames = m.frames)
    (func : n.func = m.func) (base : n.base = m.base) (place : n.place = m.place + 1)
    (levels : (ledgers m.func).Levels (m.place + 1) (entryTop m.callers) m.base n.top)
    (next : (ledgers m.func).held (m.place + 1) = 0) : GoesOn s ledgers outer known m m' i := by
  refine h.next ok ok' agree frames func base place levels fun r lt ge => ?_
  rw [next] at ge
  exact absurd ge (Nat.not_le.2 lt)

section

variable {src : Operand} {slot : Nat} (fits : (ledgers m.func).Fits (s.program.fetch? m.func))
  (h : Tidy s ledgers outer known m) (agree : AgreeOn known m m')

include fits h agree

/-- A move to a register of the frame. -/
theorem move (reads : Reads known m (.binary .mov (.register (Int16.ofNat slot)) src))
    (plain : src.mode ≠ .stack) (small : slot < numberRange)
    (named : slot < (ledgers m.func).room (m.place + 1)) (held : (ledgers m.func).held m.place = 0)
    (next : (ledgers m.func).held (m.place + 1) = 0) :
    GoesOn s ledgers outer known m m' (.binary .mov (.register (Int16.ofNat slot)) src) := by
  rcases agree.started.move (s := s) small plain reads.binary_one with ⟨v, -, ok, ok'⟩ | fails
  · refine h.next_bare ok ok' ?_ rfl rfl rfl rfl (h.levels.written fits ?_ named next) next
    · rw [touched_mov small, Set.union_singleton]
      exact (agree.started.assigned slot v).advanced
    · exact congrArg (m.top + ·) held
  · exact .inl fails

/-- A move of the value on top of the frame. -/
theorem store (seated : Seated m) (small : slot < numberRange)
    (named : slot < (ledgers m.func).room (m.place + 1)) (held : (ledgers m.func).held m.place = 1)
    (next : (ledgers m.func).held (m.place + 1) = 0) :
    GoesOn s ledgers outer known m m' (.binary .mov (.register (Int16.ofNat slot)) .stack) := by
  obtain ⟨base_le, low, high⟩ := h.levels
  have room : m.base < m.top := by omega
  have top : m.top - 1 ∈ known := h.held _ (by omega) (by omega)
  rcases agree.started.store (s := s) small ⟨seated.base_le, seated.top_le⟩ room top with
    ⟨v, ok, ok'⟩ | fails
  · refine h.next_bare ok ok' ?_ rfl rfl rfl rfl (h.levels.written fits ?_ named next) next
    · rw [touched_mov small, Set.union_singleton]
      exact (agree.started.lowered.assigned slot v).advanced
    · show m.top - 1 + _ = _
      omega
  · exact .inl fails

/-- A value is put on top of the frame. -/
theorem push (reads : Reads known m (.unary .push src)) (seated : Seated m)
    (plain : src.mode ≠ .stack)
    (next : (ledgers m.func).held (m.place + 1) = (ledgers m.func).held m.place + 1) :
    GoesOn s ledgers outer known m m' (.unary .push src) := by
  rcases agree.started.push (s := s) plain (reads.unary (List.mem_singleton_self 0)) with
    ⟨v, ok, ok'⟩ | fails
  · refine h.next ok ok' ?_ rfl rfl rfl rfl (h.levels.moved fits ?_) fun r lt ge => ?_
    · rw [touched_push plain seated, Set.union_singleton]
      exact (agree.started.pushed v).advanced
    · show m.top + 1 + _ = _
      omega
    · rw [touched_push plain seated, Set.union_singleton]
      have lt : r < m.top + 1 := lt
      have ge : m.top + 1 ≤ r + (ledgers m.func).held (m.place + 1) := ge
      rcases Nat.lt_succ_iff_lt_or_eq.1 lt with lt | rfl
      · exact Set.mem_insert_of_mem _ (h.held r lt (by omega))
      · exact Set.mem_insert _ _
  · exact .inl fails

/-- A register of the frame is negated. -/
theorem neg (reads : Reads known m (.unary .neg (.register (Int16.ofNat slot))))
    (small : slot < numberRange) (named : slot < (ledgers m.func).room (m.place + 1))
    (held : (ledgers m.func).held m.place = 0)
    (next : (ledgers m.func).held (m.place + 1) = 0) :
    GoesOn s ledgers outer known m m' (.unary .neg (.register (Int16.ofNat slot))) := by
  have source := reads.unary (List.mem_singleton_self 0) rfl
  rw [show (Operand.register (Int16.ofNat slot)).value.toNatClampNeg = slot from
    toNatClampNeg_ofNat_of_small small] at source
  rcases agree.started.neg (s := s) small source with ⟨v, ok, ok'⟩ | fails
  · refine h.next_bare ok ok' ?_ rfl rfl rfl rfl (h.levels.written fits ?_ named next) next
    · rw [touched_neg small, Set.union_singleton]
      exact (agree.started.assigned slot v).advanced
    · exact congrArg (m.top + ·) held
  · exact .inl fails

/-- The values on top of the frame are combined. -/
theorem operate (seated : Seated m) (op : BinaryOp) (held : (ledgers m.func).held m.place = 2)
    (next : (ledgers m.func).held (m.place + 1) = 1) :
    GoesOn s ledgers outer known m m' (.nonary (.binary op)) := by
  obtain ⟨base_le, low, high⟩ := h.levels
  have room : m.base + 2 ≤ m.top := by omega
  have left : m.top - 2 ∈ known := h.held _ (by omega) (by omega)
  have right : m.top - 1 ∈ known := h.held _ (by omega) (by omega)
  rcases agree.started.operate (s := s) op ⟨seated.base_le, seated.top_le⟩ room left right with
    ⟨v, ok, ok'⟩ | fails
  · refine h.next ok ok' ?_ rfl rfl rfl rfl (h.levels.moved fits ?_) fun r lt ge => ?_
    · rw [touched_operate op room, Set.union_singleton]
      exact (agree.started.combined v).advanced
    · show m.top - 1 + _ = _
      omega
    · rw [touched_operate op room, Set.union_singleton]
      have lt : r < m.top - 1 := lt
      have ge : m.top - 1 ≤ r + (ledgers m.func).held (m.place + 1) := ge
      obtain rfl : r = m.top - 2 := by omega
      exact Set.mem_insert _ _
  · exact .inl fails

/-- Nothing happens. -/
theorem nop (held : (ledgers m.func).held m.place = 0)
    (next : (ledgers m.func).held (m.place + 1) = 0) :
    GoesOn s ledgers outer known m m' (.nonary .nop) :=
  h.next_bare (dispatch_nop _) (dispatch_nop _) (agree.started.advanced.untouched rfl) rfl rfl rfl
    rfl (h.levels.still fits (Nat.le_add_right m.place 1) held next) next

/-- The machine lands where it has jumped to. -/
theorem land {i : Instruction} {place : Nat} (ahead : m.place ≤ place)
    (lands : s.program.fetch? m.func place = some (.nonary .nop))
    (held : (ledgers m.func).held m.place = 0) (landed : (ledgers m.func).held place = 0)
    (touches : touching m i = none) (flag : Bool)
    (ok : dispatch s i m.started = .ok () (decided flag place m.started))
    (ok' : dispatch s i m'.started = .ok () (decided flag place m'.started)) :
    GoesOn s ledgers outer known m m' i := by
  have alike := agree.started.map (decided flag place) fun _ _ => rfl
  have levels := h.levels.still fits ahead held landed
  refine .inr ⟨_, _, ok, ok', alike.untouched touches, fun _ =>
    ⟨h.within Set.subset_union_left rfl rfl rfl levels fun r lt ge => ?_, .landed lands⟩⟩
  have lt : r < m.top := lt
  have ge : m.top ≤ r + (ledgers m.func).held place := ge
  rw [landed] at ge
  exact absurd ge (Nat.not_le.2 lt)

theorem jump {place : Nat} (small : place < numberRange) (ahead : m.place ≤ place)
    (lands : s.program.fetch? m.func place = some (.nonary .nop))
    (held : (ledgers m.func).held m.place = 0) (landed : (ledgers m.func).held place = 0) :
    GoesOn s ledgers outer known m m' (.unary .jump (.immediate (Int16.ofNat place))) := by
  have target := toNatClampNeg_ofNat_of_small small
  have named := zero_le_ofNat_of_small small
  have ok := dispatch_jump (s := s) named m.started
  have ok' := dispatch_jump (s := s) named m'.started
  rw [target] at ok ok'
  refine h.land fits agree ahead lands held landed rfl m.flag ok (ok'.trans ?_)
  rw [← agree.flag]
  rfl

/-- A condition decides where to go on. -/
theorem jumpElse {place : Nat}
    (reads : Reads known m (.binary .jumpElse src (.immediate (Int16.ofNat place))))
    (plain : src.mode ≠ .stack) (small : place < numberRange) (ahead : m.place ≤ place)
    (lands : s.program.fetch? m.func place = some (.nonary .nop))
    (held : (ledgers m.func).held m.place = 0) (next : (ledgers m.func).held (m.place + 1) = 0)
    (landed : (ledgers m.func).held place = 0) :
    GoesOn s ledgers outer known m m'
      (.binary .jumpElse src (.immediate (Int16.ofNat place))) := by
  rcases agree.started.jumpElse (s := s) (zero_le_ofNat_of_small small) plain
    (reads.binary_zero List.mem_cons_self) with ⟨flag, _, rfl | rfl, ok, ok'⟩ | fails
  · have alike := agree.started.map (decided flag (m.place + 1)) fun _ _ => rfl
    exact h.next_bare ok ok' (alike.untouched rfl) rfl rfl rfl rfl
      (h.levels.still fits (Nat.le_add_right m.place 1) held next) next
  · rw [toNatClampNeg_ofNat_of_small small] at ok ok'
    exact h.land fits agree ahead lands held landed rfl flag ok ok'
  · exact .inl fails

/-- A call opens a frame for the values of its window. -/
theorem call {func count : Int16}
    (reads : Reads known m (.binary .call (.immediate func) (.immediate count)))
    (start : ∀ f, (ledgers f).held 0 = 0) (seated : Seated m)
    (fetched : s.program.fetch? m.func m.place =
      some (.binary .call (.immediate func) (.immediate count)))
    (named : 0 ≤ func) (some : 0 < count) (held : (ledgers m.func).held m.place = 0)
    (next : (ledgers m.func).held (m.place + 1) = 0) :
    GoesOn s ledgers outer known m m' (.binary .call (.immediate func) (.immediate count)) := by
  have arguments := Instruction.arguments?_call func count
  rcases agree.started.call (s := s) named (Int16.le_of_lt some) with ⟨callable, ok, ok'⟩ | fails
  · have argc_le : count.toNatClampNeg ≤ m.top - m.base := callable.argc_le
    have seat := seated.base_le
    have callers : (m.started.called func.toNatClampNeg count.toNatClampNeg).callers =
        m.started.kept :: m.callers := toList_push_reverse _ _
    refine .inr ⟨_, _, ok, ok', (agree.started.called _ _).untouched rfl, fun _ =>
      ⟨⟨?_, ?_, fun r ge lt => ?_, fun r lt ge => ?_⟩, .entered rfl⟩⟩
    · rw [callers]
      exact .call rfl fetched rfl next
        (h.levels.still fits (Nat.le_add_right m.place 1) held next)
        (fun r ge lt => .inl (h.grounded r ge lt)) (h.awaits.mono Set.subset_union_left)
    · rw [callers]
      refine ⟨Nat.sub_le _ _, ?_, ?_⟩
      · show m.top + (ledgers _).held 0 ≤ m.top
        rw [start]
        exact Nat.le_refl _
      · exact Nat.le_trans (Nat.le_max_left _ _) (Nat.le_add_right _ _)
    · rw [callers] at lt
      have ge : m.top - count.toNatClampNeg ≤ r := ge
      have lt : r < m.top := lt
      exact .inl (reads.window _ arguments r lt (by omega))
    · have lt : r < m.top := lt
      have ge : m.top ≤ r + (ledgers _).held 0 := ge
      rw [start] at ge
      omega
  · exact .inl fails

/-- A procedure works on the values of its window. -/
theorem nativeCall {id count : Int16}
    (reads : Reads known m (.binary .nativeCall (.immediate id) (.immediate count)))
    (lawful : s.Lawful) (seated : Seated m) (named : 0 ≤ id) (some : 0 ≤ count)
    (window : (ledgers m.func).Window (s.program.fetch? m.func) m.place count.toNatClampNeg)
    (room : m.base + count.toNatClampNeg ≤ m.top) (held : (ledgers m.func).held m.place = 0)
    (next : (ledgers m.func).held (m.place + 1) = 0) :
    GoesOn s ledgers outer known m m' (.binary .nativeCall (.immediate id) (.immediate count)) := by
  have arguments := Instruction.arguments?_nativeCall id count
  rcases agree.started.nativeCall lawful named some window.positive
    ⟨seated.base_le, seated.top_le⟩ room (reads.window _ arguments) with
    ⟨n, n', ok, ok', confined, works⟩ | fails
  · have frames : n.frames = m.frames := by rw [confined.same]; rfl
    have func : n.func = m.func := by rw [confined.same]; rfl
    have base : n.base = m.base := by rw [confined.same]; rfl
    have place : n.place = m.place := by rw [confined.same]; rfl
    have top : n.advanced.top = m.top := by rw [advanced, confined.same]; rfl
    refine h.next_bare ok ok' (works.advanced.untouched rfl) frames func base
      (congrArg Nat.succ place) ?_ next
    rw [top]
    exact h.levels.still fits (Nat.le_add_right m.place 1) held next
  · exact .inl fails

end

/-- A return leads back to a frame that waits, or below the outer frames. -/
theorem ret {src : Operand} (h : Tidy s ledgers outer known m) (agree : AgreeOn known m m')
    (reads : Reads known m (.unary .ret src)) {limits : Limits} (framed : Framed limits m)
    (opened : m.frames ≠ #[]) (plain : src.mode ≠ .stack) :
    GoesOn s ledgers outer known m m' (.unary .ret src) := by
  have framed' : Framed limits m.started := framed.congr rfl rfl rfl rfl rfl
  rcases agree.started.ret (s := s) framed' opened plain (reads.unary (List.mem_singleton_self 0))
    with ⟨v, frames, frame, saved, flag, inside, inside', split, ok, ok'⟩ | fails
  · have callers : m.callers = frame :: frames.toList.reverse := by
      rw [callers, show m.frames = frames.push frame from split, toList_push_reverse]
    have popped : (m.started.returned v frame saved flag inside).frames = frames := by
      rw [returned, split, Array.pop_push]
    have callers' : (m.started.returned v frame saved flag inside).callers =
        frames.toList.reverse := by
      rw [Machine.callers, popped]
    have agree' := (agree.started.returned v frame saved flag inside inside').mono
      (Set.subset_insert _ _)
    refine .inr ⟨_, _, ok, ok', agree'.untouched rfl, fun deep => ?_⟩
    have awaits := h.awaits
    rw [callers] at awaits
    cases awaits with
    | outer =>
        rw [depth, popped, List.length_cons, List.length_reverse, Array.length_toList] at deep
        omega
    | call place fetched isCall held levels grounded below =>
        refine ⟨⟨?_, ?_, ?_, fun r lt ge => ?_⟩, .back place fetched isCall⟩
        · rw [callers']
          exact below.mono Set.subset_union_left
        · rw [callers']
          exact levels
        · rw [callers']
          exact fun r ge lt => .inl (grounded r ge lt)
        · have lt : r < frame.top := lt
          have ge : frame.top ≤ r + (ledgers frame.func).held frame.place := ge
          rw [held] at ge
          omega
  · exact .inl fails

/-- Every instruction of a program with ledgers goes on from a tidy machine. -/
theorem goesOn (ruled : s.program.Ruled ledgers) (lawful : s.Lawful) {limits : Limits}
    (framed : Framed limits m) (opened : m.frames ≠ #[]) (h : Tidy s ledgers outer known m)
    (agree : AgreeOn known m m') {i : Instruction}
    (fetched : s.program.fetch? m.func m.place = some i)
    (room : ∀ n, i.arguments? = some n → m.base + n ≤ m.top) (reads : Reads known m i) :
    GoesOn s ledgers outer known m m' i := by
  have fits := ruled m.func
  have seated := framed.seated
  cases fits.allows m.place i fetched with
  | nop is held next =>
      subst is
      exact h.nop fits agree held next
  | move is plain small named held next =>
      subst is
      exact h.move fits agree reads plain small named held next
  | store is small named held next =>
      subst is
      exact h.store fits agree seated small named held next
  | push is plain next =>
      subst is
      exact h.push fits agree reads seated plain next
  | neg is small named held next =>
      subst is
      exact h.neg fits agree reads small named held next
  | @operate op is held next =>
      subst is
      exact h.operate fits agree seated op held next
  | jump is small ahead lands held landed =>
      subst is
      exact h.jump fits agree small ahead lands held landed
  | jumpElse is plain small ahead lands held next landed =>
      subst is
      exact h.jumpElse fits agree reads plain small ahead lands held next landed
  | call is named some window held next =>
      subst is
      exact h.call fits agree reads (fun f => (ruled f).start) seated fetched named some held next
  | nativeCall is named some window held next =>
      subst is
      exact h.nativeCall fits agree reads lawful seated named (Int16.le_of_lt some) window
        (room _ (Instruction.arguments?_nativeCall _ _)) held next
  | ret is plain =>
      subst is
      exact h.ret agree reads framed opened plain

end Tidy

end Machine

end RegisterCode

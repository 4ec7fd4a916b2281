import Mathlib.Data.Nat.Find
import RegisterCode.Proofs.Code.Safety

/-!
What compiled code keeps to. In front of each of its instructions it is known how many values
lie on top of the registers in use, and how many registers of the frame have been named so
far: that is the ledger of a function. An instruction either moves values between the
registers that are named and the top of the frame as the ledger says, or it leads to where the
ledger fits again. The arguments of a call are moved, right in front of it, to the registers
that were named last.
-/

namespace RegisterCode

/-- For each instruction of a function, how many values lie on top of the registers in use in
front of it, and how many registers have been named. The first of them are the parameters. -/
structure Ledger where
  params : Nat
  held : Nat → Nat
  room : Nat → Nat

namespace Ledger

/-- In front of an instruction, `n` values are moved to the registers named last. -/
structure Window (b : Ledger) (code : Nat → Option Instruction) (q n : Nat) : Prop where
  positive : 0 < n
  le : n ≤ q
  room : b.params + n ≤ b.room q
  small : b.room q ≤ numberRange
  copies : ∀ i < n, ∃ src : Operand, src.mode ≠ .stack ∧
    code (q - n + i) = some (.binary .mov (.register (Int16.ofNat (b.room q - n + i))) src)

/-- The ways in which an instruction keeps to the ledger. -/
inductive Allows (b : Ledger) (code : Nat → Option Instruction) (q : Nat) (i : Instruction) :
    Prop where
  | nop (is : i = .nonary .nop) (held : b.held q = 0) (next : b.held (q + 1) = 0)
  | move {r : Nat} {src : Operand} (is : i = .binary .mov (.register (Int16.ofNat r)) src)
    (plain : src.mode ≠ .stack) (small : r < numberRange) (named : r < b.room (q + 1))
    (held : b.held q = 0) (next : b.held (q + 1) = 0)
  | store {r : Nat} (is : i = .binary .mov (.register (Int16.ofNat r)) .stack)
    (small : r < numberRange) (named : r < b.room (q + 1)) (held : b.held q = 1)
    (next : b.held (q + 1) = 0)
  | push {src : Operand} (is : i = .unary .push src) (plain : src.mode ≠ .stack)
    (next : b.held (q + 1) = b.held q + 1)
  | neg {r : Nat} (is : i = .unary .neg (.register (Int16.ofNat r))) (small : r < numberRange)
    (named : r < b.room (q + 1)) (held : b.held q = 0) (next : b.held (q + 1) = 0)
  | operate {op : BinaryOp} (is : i = .nonary (.binary op)) (held : b.held q = 2)
    (next : b.held (q + 1) = 1)
  | jump {place : Nat} (is : i = .unary .jump (.immediate (Int16.ofNat place)))
    (small : place < numberRange) (ahead : q ≤ place) (lands : code place = some (.nonary .nop))
    (held : b.held q = 0) (landed : b.held place = 0)
  | jumpElse {src : Operand} {place : Nat}
    (is : i = .binary .jumpElse src (.immediate (Int16.ofNat place))) (plain : src.mode ≠ .stack)
    (small : place < numberRange) (ahead : q ≤ place) (lands : code place = some (.nonary .nop))
    (held : b.held q = 0) (next : b.held (q + 1) = 0) (landed : b.held place = 0)
  | call {func count : Int16} (is : i = .binary .call (.immediate func) (.immediate count))
    (named : 0 ≤ func) (some : 0 < count) (window : b.Window code q count.toNatClampNeg)
    (held : b.held q = 0) (next : b.held (q + 1) = 0)
  | nativeCall {id count : Int16}
    (is : i = .binary .nativeCall (.immediate id) (.immediate count)) (named : 0 ≤ id)
    (some : 0 < count) (window : b.Window code q count.toNatClampNeg) (held : b.held q = 0)
    (next : b.held (q + 1) = 0)
  | ret {src : Operand} (is : i = .unary .ret src) (plain : src.mode ≠ .stack)

/-- The code keeps to the ledger. -/
structure Fits (b : Ledger) (code : Nat → Option Instruction) : Prop where
  start : b.held 0 = 0
  mono : ∀ {q q' : Nat}, q ≤ q' → b.room q ≤ b.room q'
  params_le : ∀ q, b.params ≤ b.room q
  allows : ∀ (q : Nat) (i : Instruction), code q = some i → b.Allows code q i

end Ledger

namespace Listing

/-- The step that an instruction belongs to. -/
def stepAt (l : Listing) (q : Nat) : Nat := Nat.findGreatest (l.place · ≤ q) l.steps.length

/-- How many steps have begun in front of an instruction. -/
def begun (l : Listing) (q : Nat) : Nat :=
  if l.place (l.stepAt q) = q then l.stepAt q else l.stepAt q + 1

/-- The ledger of the code of a listing. -/
def ledger (l : Listing) : Ledger where
  params := l.params
  held q := l.steps[l.stepAt q]?.elim 0 (·.held (q - l.place (l.stepAt q)))
  room q := l.room (l.begun q)

variable {l : Listing} {k j q n pool functions procedures : Nat} {step : Step} {i : Instruction}

theorem place_stepAt_le (l : Listing) (q : Nat) : l.place (l.stepAt q) ≤ q :=
  Nat.findGreatest_spec (P := (l.place · ≤ q)) (Nat.zero_le _) (Nat.zero_le _)

theorem le_stepAt (le : k ≤ l.steps.length) (place : l.place k ≤ q) : k ≤ l.stepAt q :=
  Nat.le_findGreatest le place

theorem stepAt_mono (l : Listing) {q q' : Nat} (le : q ≤ q') : l.stepAt q ≤ l.stepAt q' :=
  Nat.findGreatest_mono (fun _ place => Nat.le_trans place le) (Nat.le_refl _)

theorem stepAt_eq (found : l.steps[k]? = some step) (lt : j < step.width) :
    l.stepAt (l.place k + j) = k := by
  have inside := (List.getElem?_eq_some_iff.1 found).1
  refine Nat.le_antisymm (Nat.not_lt.1 fun later => ?_)
    (le_stepAt (Nat.le_of_lt inside) (Nat.le_add_right _ _))
  have place := l.place_stepAt_le (l.place k + j)
  have mono := l.place_mono (Nat.succ_le_of_lt later)
  rw [Nat.succ_eq_add_one, place_succ found] at mono
  omega

theorem held_ledger (found : l.steps[k]? = some step) (lt : j < step.width) :
    l.ledger.held (l.place k + j) = step.held j := by
  show l.steps[l.stepAt (l.place k + j)]?.elim 0 (·.held (l.place k + j - l.place (l.stepAt _))) = _
  rw [stepAt_eq found lt, found, Nat.add_sub_cancel_left]
  rfl

theorem begun_mono (l : Listing) {q q' : Nat} (le : q ≤ q') : l.begun q ≤ l.begun q' := by
  have mono := l.stepAt_mono le
  have place := l.place_stepAt_le q
  rcases Nat.eq_or_lt_of_le mono with same | lt
  · rw [begun, begun, ← same]
    split_ifs <;> omega
  · rw [begun, begun]
    split_ifs <;> omega

theorem begun_place (found : l.steps[k]? = some step) (width : 0 < step.width) :
    l.begun (l.place k) = k := by
  have at_ : l.stepAt (l.place k) = k := stepAt_eq (j := 0) found width
  rw [begun, at_, if_pos rfl]

theorem begun_amid (found : l.steps[k]? = some step) (some : 0 < j) (lt : j < step.width) :
    l.begun (l.place k + j) = k + 1 := by
  rw [begun, stepAt_eq found lt, if_neg (by omega)]

theorem le_begun (le : k ≤ l.steps.length) : k ≤ l.begun (l.place k) := by
  have at_ := le_stepAt le (Nat.le_refl (l.place k))
  rw [begun]
  split_ifs
  · exact at_
  · exact Nat.le_succ_of_le at_

/-- Between two steps nothing lies on top of the frame. -/
theorem held_ledger_place (le : k ≤ l.steps.length) : l.ledger.held (l.place k) = 0 := by
  have mono := l.place_mono (le_stepAt le (Nat.le_refl (l.place k)))
  show l.steps[l.stepAt (l.place k)]?.elim 0 (·.held (l.place k - l.place (l.stepAt _))) = 0
  rw [Nat.sub_eq_zero_of_le mono]
  cases l.steps[l.stepAt (l.place k)]? with
  | none => rfl
  | some step => exact step.held_zero

/-- In front of the next instruction, what the step names has a register. -/
theorem room_succ_le_ledger (found : l.steps[k]? = some step) (lt : j < step.width) :
    l.room (k + 1) ≤ l.ledger.room (l.place k + j + 1) := by
  refine l.room_mono ?_
  by_cases amid : j + 1 < step.width
  · exact Nat.le_of_eq (begun_amid found (Nat.succ_pos j) amid).symm
  · have inside := (List.getElem?_eq_some_iff.1 found).1
    have last : l.place k + j + 1 = l.place (k + 1) := by
      rw [place_succ found]
      omega
    rw [last]
    exact le_begun inside

/-- What lies on top of the frame in front of the next instruction. -/
theorem held_ledger_succ (found : l.steps[k]? = some step) (lt : j < step.width) :
    l.ledger.held (l.place k + j + 1) = if j + 1 < step.width then step.held (j + 1) else 0 := by
  split_ifs with amid
  · exact held_ledger found amid
  · have inside := (List.getElem?_eq_some_iff.1 found).1
    have last : l.place k + j + 1 = l.place (k + 1) := by
      rw [place_succ found]
      omega
    rw [last]
    exact held_ledger_place inside

/-- The copies in front of a call have an instruction each. -/
theorem Window.place (h : l.Window k n) {d : Nat} (le : d ≤ n) :
    l.place (k - n + d) = l.place (k - n) + d := by
  have inside := h.le
  induction d with
  | zero => rfl
  | succ d ih =>
      obtain ⟨t, a, copy, -⟩ := h.copies (k - n + d) (by omega) (by omega)
      rw [← Nat.add_assoc, place_succ copy, ih (by omega), Nat.add_assoc]
      rfl

theorem Window.place_eq (h : l.Window k n) : l.place k = l.place (k - n) + n := by
  rw [← h.place (Nat.le_refl n), Nat.sub_add_cancel h.le]

/-- They name the next registers, one after the other. -/
theorem Window.slots (h : l.Window k n) {d : Nat} (le : d ≤ n) :
    l.room (k - n + d) = l.room (k - n) + d ∧
      ∀ i < d, ∃ t a, l.steps[k - n + i]? = some (.copy (.temp t) a) ∧
        l.slot t = l.room (k - n) + i ∧ l.Known t := by
  have inside := h.le
  induction d with
  | zero => exact ⟨rfl, fun i lt => absurd lt (Nat.not_lt_zero i)⟩
  | succ d ih =>
      obtain ⟨room, each⟩ := ih (by omega)
      obtain ⟨t, a, copy, param, only⟩ := h.copies (k - n + d) (by omega) (by omega)
      have dest : (Step.copy (.temp t) a).dest?.map Address.id = some t := rfl
      have fresh : t ∉ l.names (k - n + d) := by
        intro mem
        obtain ⟨-, q, lt, writes⟩ := mem_names_iff.1 mem
        have same := only q writes
        omega
      have writes : l.writes? (k - n + d) = some t := by
        rw [writes?, copy]
        rfl
      refine ⟨?_, fun i lt => ?_⟩
      · rw [← Nat.add_assoc, room_succ_of_fresh copy dest param fresh, room, Nat.add_assoc]
      · rcases Nat.lt_succ_iff_lt_or_eq.1 lt with lt | rfl
        · exact each i lt
        · exact ⟨t, a, copy, (slot_of_fresh copy dest param fresh).trans room,
            known_of_named (named_of_writes writes)⟩

variable {chunk : Chunk}

theorem Window.ledger (h : l.Window k n) (orderly : l.Orderly pool functions procedures)
    (assembled : l.Assembled chunk) (found : l.steps[k]? = some step) (width : 0 < step.width) :
    l.ledger.Window (chunk[·]?) (l.place k) n := by
  have room := (h.slots (Nat.le_refl n)).1
  rw [Nat.sub_add_cancel h.le] at room
  have here : l.ledger.room (l.place k) = l.room k := congrArg l.room (begun_place found width)
  have place := h.place_eq
  exact {
    positive := h.positive
    le := by omega
    room := by
      rw [here, room]
      exact Nat.add_le_add_right (Nat.le_add_right _ _) n
    small := by
      rw [here]
      exact Nat.le_trans (l.room_le_all k) (Nat.le_trans orderly.room_le (Nat.sub_le _ _))
    copies := fun i lt => by
      obtain ⟨t, a, copy, slot, -⟩ := (h.slots (Nat.le_refl n)).2 i lt
      refine ⟨l.operand a, l.mode_operand a, ?_⟩
      have code := assembled.code _ _ copy 0 _ rfl
      rw [h.place (Nat.le_of_lt lt), Nat.add_zero] at code
      have shift : l.place k - n + i = l.place (k - n) + i := by omega
      have same : l.room k - n + i = l.slot t := by omega
      show chunk[l.place k - n + i]? = _
      rw [shift, code, here, same]
      rfl }

/-- The code of a listing keeps to its ledger. -/
theorem Assembled.allows (orderly : l.Orderly pool functions procedures)
    (assembled : l.Assembled chunk) (here : chunk[q]? = some i) :
    l.ledger.Allows (chunk[·]?) q i := by
  obtain ⟨k, step, j, found, rfl, code⟩ := assembled.origin orderly here
  have legal := orderly.legal k step found
  have lt : j < step.width := by
    rw [← length_codeWith (l := l) legal l.landing k, codeWith_landing]
    exact (List.getElem?_eq_some_iff.1 code).1
  have held := held_ledger found lt
  have next := held_ledger_succ found lt
  have plain (a : Address) := l.mode_operand a
  have dest {t : Int16} (dest : step.dest? = some (.temp t)) :
      l.slot t < numberRange ∧ l.slot t < l.ledger.room (l.place k + j + 1) := by
    have writes := named_of_writes (writes?_of_dest found dest)
    exact ⟨orderly.slot_lt (known_of_named writes),
      Nat.lt_of_lt_of_le (slot_lt_room writes) (room_succ_le_ledger found lt)⟩
  have single {x : Instruction} (code : [x][j]? = some i) : j = 0 ∧ x = i := by
    rw [List.getElem?_singleton] at code
    split at code
    · exact ⟨‹_›, Option.some.inj code⟩
    · cases code
  have lands (isJump : step.marker.IsJump) : ∃ place, l.target k = .immediate (Int16.ofNat place) ∧
      place < numberRange ∧ l.place k ≤ place ∧ chunk[place]? = some (.nonary .nop) ∧
      l.ledger.held place = 0 := by
    obtain ⟨landing, place, landed, target, rfl, small, ahead⟩ :=
      assembled.target_eq orderly found isJump
    have nop := (orderly.landing_spec landed).2
    have inside := (List.getElem?_eq_some_iff.1 nop).1
    exact ⟨_, target, small, Nat.le_trans (l.place_mono (Nat.le_succ k)) ahead,
      assembled.code _ _ nop 0 _ rfl, held_ledger_place (Nat.le_of_lt inside)⟩
  have window {n : Nat} (isCall : step.window? = some n) (width : step.width = 1) :
      l.ledger.Window (chunk[·]?) (l.place k) n :=
    (orderly.window k step n found isCall).ledger orderly assembled found
      (width ▸ Nat.succ_pos 0)
  cases legal with
  | copy t sound =>
      obtain ⟨rfl, rfl⟩ := single code
      obtain ⟨small, named⟩ := dest rfl
      exact .move rfl (plain _) small named held next
  | @neg t a sound =>
      obtain ⟨small, named⟩ := dest rfl
      have silent : ∀ j, (Step.unary (.temp t) .neg a).held j = 0 := fun _ => rfl
      rw [silent] at held
      rw [silent, ite_self] at next
      by_cases same : Address.temp t = a
      · rw [Listing.code, if_pos same] at code
        obtain ⟨rfl, rfl⟩ := single code
        exact .neg rfl small named held next
      · rw [Listing.code, if_neg same] at code
        rcases j with _ | _ | j
        · cases code
          exact .move rfl (plain _) small named held next
        · cases code
          exact .neg rfl small named held next
        · cases code
  | binary t op sound sound' =>
      obtain ⟨small, named⟩ := dest rfl
      rcases j with _ | _ | _ | _ | j
      · cases code
        exact .push rfl (plain _) (by rw [next, held]; rfl)
      · cases code
        exact .push rfl (plain _) (by rw [next, held]; rfl)
      · cases code
        exact .operate rfl held next
      · cases code
        exact .store rfl small named held next
      · cases code
  | nop =>
      obtain ⟨rfl, rfl⟩ := single code
      exact .nop rfl held next
  | jump =>
      obtain ⟨rfl, rfl⟩ := single code
      obtain ⟨place, target, small, ahead, nop, landed⟩ := lands (.inl rfl)
      rw [target]
      exact .jump rfl small ahead nop held landed
  | ret sound =>
      obtain ⟨rfl, rfl⟩ := single code
      exact .ret rfl (plain _)
  | jumpElse sound =>
      obtain ⟨rfl, rfl⟩ := single code
      obtain ⟨place, target, small, ahead, nop, landed⟩ := lands (.inr rfl)
      rw [target]
      exact .jumpElse rfl (plain _) small ahead nop held next landed
  | call named known some =>
      obtain ⟨rfl, rfl⟩ := single code
      exact .call rfl named some (window rfl rfl) held next
  | nativeCall named known some =>
      obtain ⟨rfl, rfl⟩ := single code
      exact .nativeCall rfl named some (window rfl rfl) held next
  | savePatch | shufflePatch | patchJump | patchJumpElse | condensed => cases code

theorem Assembled.fits (orderly : l.Orderly pool functions procedures)
    (assembled : l.Assembled chunk) : l.ledger.Fits (chunk[·]?) where
  start := held_ledger_place (k := 0) (Nat.zero_le _)
  mono le := l.room_mono (l.begun_mono le)
  params_le _ := Nat.le_add_right _ _
  allows _ _ here := assembled.allows orderly here

end Listing

/-- The program has a ledger for each function. -/
def Program.Ruled (p : Program) (ledgers : Nat → Ledger) : Prop :=
  ∀ f, (ledgers f).Fits (p.fetch? f)

/-- The ledgers of a bundle's functions. -/
def Bundle.ledgers (b : Bundle) (f : Nat) : Ledger :=
  b.graphs[f]?.elim ⟨0, fun _ => 0, fun _ => 0⟩ fun g => g.listing.ledger

/-- The program of an orderly bundle keeps to the ledgers. -/
theorem Bundle.Orderly.ruled {b : Bundle} {procedures : Nat} (orderly : b.Orderly procedures)
    {program : Program} (emitted : Program.ofBundle b = .ok program) :
    program.Ruled b.ledgers := by
  obtain ⟨-, -, size, each⟩ := ofBundle_ok emitted
  intro f
  cases found : b.graphs[f]? with
  | none =>
      have beyond := Array.getElem?_eq_none_iff.1 found
      have none : program.fetch? f = fun _ => none := by
        funext q
        rw [Program.fetch?, Array.getElem?_eq_none (size ▸ beyond)]
        rfl
      rw [none, ledgers, found]
      exact ⟨rfl, fun _ => Nat.le_refl 0, fun _ => Nat.le_refl 0, fun _ _ here => by cases here⟩
  | some g =>
      obtain ⟨chunk, here, emitted⟩ := each f g found
      have mem := Array.mem_of_getElem? found
      have assembled := assembled_of_emit (orderly.forward g mem) (orderly.orderly g mem) emitted
      have code : program.fetch? f = (chunk[·]?) := by
        funext q
        rw [Program.fetch?, here]
        rfl
      rw [code, ledgers, found]
      exact assembled.fits (orderly.orderly g mem)

end RegisterCode

import Mathlib.Algebra.Ring.Nat
import RegisterCode.Code.OfFlow
import RegisterCode.Proofs.Flow.Journey

/-!
The code that a listing stands for, told from its slots and landings alone, and
what it is for a chunk to be that code.
-/

namespace RegisterCode

/-- How many instructions a step becomes. -/
def Step.width : Step → Nat
  | .unary dest .neg arg => if dest = arg then 1 else 2
  | .unary .. => 1
  | .binary .. => 4
  | .act .nop => 1
  | .act _ => 0
  | .actOn .. | .actOnTwo .. => 1

namespace Listing

/-- The place in the code where step `k` begins. -/
def place (l : Listing) (k : Nat) : Nat := ((l.steps.take k).map Step.width).sum

/-- The place that a jump leads to, as an operand. -/
def target (l : Listing) (k : Nat) : Operand :=
  .immediate (Int16.ofNat ((l.landing k).elim 0 l.place))

/-- The operand that an address becomes. -/
def operand (l : Listing) (a : Address) : Operand :=
  match a.space with
  | .immediate => .immediate a.id
  | .constant => .constant a.id
  | .temp => .register (Int16.ofNat (l.slot a.id))
  | .object => .object a.id

/-- The instructions of step `k`. -/
def code (l : Listing) (k : Nat) : Step → List Instruction
  | .unary dest .nop arg => [.binary .mov (l.operand dest) (l.operand arg)]
  | .unary dest .neg arg =>
    if dest = arg then [.unary .neg (l.operand dest)]
    else [.binary .mov (l.operand dest) (l.operand arg), .unary .neg (l.operand dest)]
  | .binary dest (.binary op) left right =>
    [.unary .push (l.operand left), .unary .push (l.operand right), .nonary (.binary op),
      .binary .mov (l.operand dest) .stack]
  | .act .nop => [.nonary .nop]
  | .actOn .jump _ => [.unary .jump (l.target k)]
  | .actOn .ret arg => [.unary .ret (l.operand arg)]
  | .actOnTwo .jumpElse arg _ => [.binary .jumpElse (l.operand arg) (l.target k)]
  | .actOnTwo .call func count => [.binary .call (l.operand func) (l.operand count)]
  | .actOnTwo .nativeCall id count => [.binary .nativeCall (l.operand id) (l.operand count)]
  | _ => []

/-- The chunk is the code of the listing. -/
structure Assembled (l : Listing) (chunk : Chunk) : Prop where
  size : chunk.size = l.place l.steps.length
  code : ∀ (k : Nat) (step : Step), l.steps[k]? = some step →
    ∀ (j : Nat) (i : Instruction), (l.code k step)[j]? = some i → chunk[l.place k + j]? = some i
  landing : ∀ k target, l.landing k = some target → l.place target < numberRange

variable {l : Listing} {k : Nat} {step : Step}

theorem place_succ (h : l.steps[k]? = some step) : l.place (k + 1) = l.place k + step.width := by
  rw [place, place, List.take_add_one, h]
  simp

theorem place_of_le (h : l.steps.length ≤ k) : l.place k = l.place l.steps.length := by
  rw [place, place, List.take_of_length_le h, List.take_length]

theorem place_mono (l : Listing) {i k : Nat} (h : i ≤ k) : l.place i ≤ l.place k := by
  induction h with
  | refl => exact Nat.le_refl _
  | @step k _ ih =>
      refine Nat.le_trans ih ?_
      cases found : l.steps[k]? with
      | none =>
          have le := List.getElem?_eq_none_iff.1 found
          rw [place_of_le le, place_of_le (Nat.le_succ_of_le le)]
      | some step =>
          rw [place_succ found]
          exact Nat.le_add_right _ _

/-! ### What an orderly listing says about its slots -/

variable {pool functions procedures : Nat}

theorem writes?_eq_some {t : Int16} (h : l.writes? k = some t) :
    ∃ step, l.steps[k]? = some step ∧ step.dest?.map Address.id = some t := by
  cases found : l.steps[k]? with
  | none => simp [writes?, found] at h
  | some step => exact ⟨step, rfl, by simpa [writes?, found] using h⟩

theorem writes?_of_dest {a : Address} (h : l.steps[k]? = some step) (dest : step.dest? = some a) :
    l.writes? k = some a.id := by
  simp [writes?, h, dest]

/-- A temporary has a name as soon as it is written. -/
theorem named_of_writes {t : Int16} (h : l.writes? k = some t) :
    IsParam l.params t ∨ t ∈ l.names (k + 1) := by
  obtain ⟨step, found, dest⟩ := writes?_eq_some h
  by_cases param : IsParam l.params t
  · exact .inl param
  · rw [names_succ found, mem_addName]
    exact .inr (.inr ⟨param, dest⟩)

theorem known_of_named {t : Int16} (h : IsParam l.params t ∨ t ∈ l.names k) : l.Known t :=
  h.imp_right fun mem => (names_prefix_all l k).subset mem

theorem mem_names_iff {t : Int16} :
    t ∈ l.names k ↔ ¬ IsParam l.params t ∧ ∃ q, q < k ∧ l.writes? q = some t := by
  induction k with
  | zero => simp [names_zero]
  | succ k ih =>
      cases found : l.steps[k]? with
      | none =>
          have le := List.getElem?_eq_none_iff.1 found
          rw [names_of_le (Nat.le_succ_of_le le), ← names_of_le le, ih]
          refine and_congr_right fun _ => ⟨fun ⟨q, lt, h⟩ => ⟨q, by omega, h⟩, fun ⟨q, lt, h⟩ => ?_⟩
          refine ⟨q, ?_, h⟩
          obtain ⟨step, found', -⟩ := writes?_eq_some h
          have inside := (List.getElem?_eq_some_iff.1 found').1
          omega
      | some step =>
          rw [names_succ found, mem_addName, ih]
          constructor
          · rintro (⟨param, q, lt, h⟩ | ⟨param, dest⟩)
            · exact ⟨param, q, by omega, h⟩
            · exact ⟨param, k, by omega, by simpa [writes?, found] using dest⟩
          · rintro ⟨param, q, lt, h⟩
            by_cases last : q = k
            · subst last
              exact .inr ⟨param, by simpa [writes?, found] using h⟩
            · exact .inl ⟨param, q, by omega, h⟩

theorem Awaits.mono {i k : Nat} {t : Int16} (h : l.Awaits k t) (le : i ≤ k) : l.Awaits i t := by
  obtain ⟨q, lt, reads⟩ := h
  exact ⟨q, Nat.le_trans le lt, reads⟩

/-- The temporaries that a step other than a call reads. -/
theorem mem_reads (h : l.steps[k]? = some step) (window : step.window? = none) {a : Address}
    (mem : a ∈ step.args) (t : Int16) (temp : a.temp? = some t) : t ∈ l.reads k := by
  simp only [reads, h, window]
  exact List.mem_filterMap.2 ⟨a, mem, temp⟩

namespace Orderly

/-- A temporary among the operands of a step is one that it reads. -/
theorem reads_of_mem_args (h : l.Orderly pool functions procedures) {t : Int16}
    (found : l.steps[k]? = some step) (mem : .temp t ∈ step.args) : t ∈ l.reads k := by
  cases h.legal k step found with
  | call | nativeCall =>
      simp only [Step.args, List.mem_cons, List.not_mem_nil, or_false] at mem
      rcases mem with same | same <;> cases congrArg Address.space same
  | _ => exact mem_reads found rfl mem t rfl

theorem known_of_awaits (h : l.Orderly pool functions procedures) {t : Int16}
    (awaits : l.Awaits k t) : l.Known t := by
  obtain ⟨q, -, reads⟩ := awaits
  exact known_of_named (h.read q t reads)

theorem slot_lt (h : l.Orderly pool functions procedures) {t : Int16} (known : l.Known t) :
    l.slot t < numberRange := by
  have room := h.room_le
  have below := slot_lt_room_all known
  simp only [numberRange] at room ⊢
  omega

theorem landing_spec (h : l.Orderly pool functions procedures) {target : Nat}
    (landed : l.landing k = some target) :
    k < target ∧ l.steps[target]? = some (.act .nop) := by
  obtain ⟨p, played, pending⟩ := h.played
  have spec := Patching.played played
  rw [landing, played] at landed
  refine ⟨(spec.landing k target landed).1, ?_⟩
  have nop := (spec.landing k target landed).2.1
  rw [markers, List.getElem?_map] at nop
  obtain ⟨step, found, marker⟩ := Option.map_eq_some_iff.1 nop
  rw [found]
  have legal := h.legal target step found
  cases legal <;> simp [Step.marker] at marker ⊢

/-- Where a jump lands there is a step to land on, behind the jump. -/
theorem lands (h : l.Orderly pool functions procedures) {op : Op}
    (jump : l.markers[k]? = some op) (isJump : op.IsJump) :
    ∃ target, l.landing k = some target ∧ k < target ∧
      l.steps[target]? = some (.act .nop) := by
  obtain ⟨p, played, pending⟩ := h.played
  have spec := Patching.played played
  rcases spec.saved k (h.saved k op jump isJump) with ⟨kind, mem⟩ | ⟨target, landed⟩
  · rw [pending] at mem
    cases mem
  · have landed' : l.landing k = some target := by
      rw [landing, played]
      exact landed
    exact ⟨target, landed', h.landing_spec landed'⟩

end Orderly

end Listing

end RegisterCode

import RegisterCode.Proofs.Code.Assembly
import RegisterCode.Proofs.Flow.LayOut

/-!
Emission makes the code that an orderly listing stands for. While it goes
through the steps, its slots are those of the temporaries named so far, its
pending patches are the jumps that have not landed yet, and the code is the
listing's up to the targets that are still missing (`Emitting`). The only thing
that can stop it is a jump that leads too far.
-/

namespace RegisterCode

/-! ### Instructions of steps with some of the jumps landed -/

namespace Instruction

theorem arity_nonary (op : Opcode) : (nonary op).arity = 0 := by
  have word : (nonary op).metadata = 0 ||| UInt16.ofNat 0 := rfl
  rw [arity, word]
  decide

theorem arity_unary (op : Opcode) (x : Operand) : (unary op x).arity = 1 := by
  obtain ⟨mode, value⟩ := x
  have word : (unary op ⟨mode, value⟩).metadata =
      0 ||| mode.code <<< modeShift 0 ||| UInt16.ofNat 1 := rfl
  rw [arity, word]
  cases mode <;> decide

theorem arity_binary (op : Opcode) (x y : Operand) : (binary op x y).arity = 2 := by
  obtain ⟨mode, value⟩ := x
  obtain ⟨mode', value'⟩ := y
  have word : (binary op ⟨mode, value⟩ ⟨mode', value'⟩).metadata =
      0 ||| mode.code <<< modeShift 0 ||| mode'.code <<< modeShift 1 ||| UInt16.ofNat 2 := rfl
  rw [arity, word]
  cases mode <;> cases mode' <;> decide

theorem stackDelta_nonary (op : Opcode) : (nonary op).stackDelta = op.stackDelta := by
  have same : (nonary op).op = op := rfl
  rw [stackDelta, arity_nonary, same]
  exact Int.sub_zero _

theorem stackDelta_unary (op : Opcode) {x : Operand} (h : x.mode ≠ .stack) :
    (unary op x).stackDelta = op.stackDelta := by
  have same : (unary op x).op = op := rfl
  rw [stackDelta, arity_unary, same]
  simp [List.range_succ, mode?_unary, h]

theorem stackDelta_binary (op : Opcode) {x y : Operand} (h : x.mode ≠ .stack)
    (h' : y.mode ≠ .stack) : (binary op x y).stackDelta = op.stackDelta := by
  have same : (binary op x y).op = op := rfl
  rw [stackDelta, arity_binary, same]
  simp [List.range_succ, mode?_binary, h, h']

end Instruction

namespace Listing

/-- Where a jump leads, as an operand, when the jumps land as given. -/
def targetWith (l : Listing) (landing : Nat → Option Nat) (k : Nat) : Operand :=
  .immediate (Int16.ofNat ((landing k).elim 0 l.place))

/-- The instructions of step `k` when the jumps land as given. -/
def codeWith (l : Listing) (landing : Nat → Option Nat) (k : Nat) : Step → List Instruction
  | .actOn .jump _ => [.unary .jump (l.targetWith landing k)]
  | .actOnTwo .jumpElse arg _ => [.binary .jumpElse (l.operand arg) (l.targetWith landing k)]
  | step => l.code k step

theorem codeWith_landing (l : Listing) (k : Nat) (step : Step) :
    l.codeWith l.landing k step = l.code k step := by
  unfold codeWith
  split <;> rfl

theorem mode_operand (l : Listing) (a : Address) : (l.operand a).mode ≠ .stack := by
  obtain ⟨space, id⟩ := a
  cases space <;> simp [operand, Operand.immediate, Operand.constant, Operand.register,
    Operand.object]

variable {l : Listing} {k pool functions procedures : Nat} {step : Step}

theorem length_codeWith (legal : step.Legal pool functions procedures)
    (landing : Nat → Option Nat) (k : Nat) :
    (l.codeWith landing k step).length = step.width := by
  cases legal with
  | @neg t a sound =>
      by_cases same : Address.temp t = a
      · simp [codeWith, code, Step.width, same]
      · simp [codeWith, code, Step.width, same]
  | _ => rfl

/-- Only where the jump at the step itself lands matters for its code. -/
theorem codeWith_congr {landing landing' : Nat → Option Nat} (same : landing k = landing' k) :
    l.codeWith landing k step = l.codeWith landing' k step := by
  unfold codeWith
  split <;> simp only [targetWith, same]

end Listing

/-! ### The emitter on its way -/

/-- The emitter has the slots of the temporaries that the first `k` steps name. -/
structure Slotted (l : Listing) (k : Nat) (e : Emitter) : Prop where
  slots : ∀ t n, e.slots[t]? = some n ↔ t ∈ l.names k ∧ n = l.slot t
  nextSlot : e.nextSlot = l.room k

/-- The emitter behind step `k`, when the markers have been played up to there. -/
structure Emitting (l : Listing) (k : Nat) (p : Patching) (e : Emitter) : Prop where
  slotted : Slotted l k e
  size : e.code.size = l.place k
  code : ∀ (i : Nat) (step : Step), i < k → l.steps[i]? = some step →
    ∀ (j : Nat) (instruction : Instruction),
      (l.codeWith p.landing i step)[j]? = some instruction →
        e.code[l.place i + j]? = some instruction
  patches : e.patches = p.pending.map fun jump => l.place jump.2
  near : ∀ jump target, p.landing jump = some target → l.place target < numberRange

/-- The context of an emission suits a listing. -/
structure Suits (f : EmissionContext) (l : Listing) : Prop where
  params : f.paramCount.toNat = l.params

namespace Emitter

variable {f : EmissionContext} {l : Listing} {k functions procedures : Nat} {e : Emitter}

theorem adjust_of_fits {delta : Int} (next : Nat) (is : (e.nextSlot : Int) + delta = next)
    (fits : next < UInt16.size) :
    adjust f delta e = .ok () { e with nextSlot := next } := by
  have natural : ¬ (next : Int) < 0 := by omega
  have below : ¬ (UInt16.size : Int) ≤ next := by omega
  simp only [adjust, is, natural, below, if_false, Int.toNat_natCast]

theorem emit_of_fits {i : Instruction} (next : Nat)
    (is : (e.nextSlot : Int) + i.stackDelta = next) (fits : next < UInt16.size) :
    emit f i e = .ok () { e with nextSlot := next, code := e.code.push i } := by
  rw [emit, bind_of_ok (adjust_of_fits next is fits)]
  rfl

theorem isParam_iff (suits : Suits f l) {t : Int16} :
    t.toUInt16 < f.paramCount ↔ Listing.IsParam l.params t := by
  rw [UInt16.lt_iff_toNat_lt, suits.params]
  rfl

/-- The slot of a temporary that has a name. -/
theorem slotOf_of_named (suits : Suits f l) (slotted : Slotted l k e) {t : Int16}
    (named : Listing.IsParam l.params t ∨ t ∈ l.names k) {e' : Emitter}
    (slots : e'.slots = e.slots) : slotOf f t e' = .ok (l.slot t) e' := by
  unfold slotOf
  by_cases param : Listing.IsParam l.params t
  · rw [if_pos ((isParam_iff suits).2 param), Listing.slot_of_isParam param]
  · have here : e'.slots[t]? = some (l.slot t) := by
      rw [slots]
      exact (slotted.slots t _).2 ⟨named.resolve_left param, rfl⟩
    rw [if_neg fun lt => param ((isParam_iff suits).1 lt), here]

/-- The operand of an address that is read. -/
theorem resolve_of_sound (suits : Suits f l)
    (orderly : l.Orderly f.constants functions procedures) (slotted : Slotted l k e)
    {a : Address} (sound : a.Sound f.constants)
    (named : ∀ t, a.temp? = some t → Listing.IsParam l.params t ∨ t ∈ l.names k) (e' : Emitter)
    (slots : e'.slots = e.slots) : resolve f a e' = .ok (l.operand a) e' := by
  obtain ⟨space, id⟩ := a
  cases space with
  | immediate => rfl
  | constant => simp [resolve, sound.1, sound.2, Listing.operand]
  | temp =>
      have known := named id rfl
      have small := orderly.slot_lt (Listing.known_of_named known)
      simp only [resolve]
      rw [bind_of_ok (slotOf_of_named suits slotted known slots), if_pos small]
      rfl
  | object => exact False.elim sound

/-- Writing a temporary gives it a slot, if it has none. -/
theorem resolveDest_of_writes (suits : Suits f l)
    (orderly : l.Orderly f.constants functions procedures) (slotted : Slotted l k e) {t : Int16}
    (writes : l.writes? k = some t) :
    ∃ e', resolveDest f (.temp t) e = .ok (l.operand (.temp t)) e' ∧ Slotted l (k + 1) e' ∧
      e'.code = e.code ∧ e'.patches = e.patches := by
  have named := Listing.named_of_writes writes
  have small := orderly.slot_lt (Listing.known_of_named named)
  obtain ⟨step, found, dest⟩ := Listing.writes?_eq_some writes
  have isTemp : (Address.temp t).isTemp = true := rfl
  have resolves : resolveDest f (.temp t) = (slotOf f t >>= fun slot =>
      if slot < numberRange then return .register (Int16.ofNat slot)
      else throw (.operandOverflow f.func slot)) := by
    rw [resolveDest, isTemp, if_pos rfl]
    rfl
  by_cases known : Listing.IsParam l.params t ∨ t ∈ l.names k
  · refine ⟨e, ?_, ?_, rfl, rfl⟩
    · rw [resolves, bind_of_ok (slotOf_of_named suits slotted known rfl), if_pos small]
      rfl
    · have same : l.names (k + 1) = l.names k := by
        rw [Listing.names_succ found, Listing.addName]
        obtain ⟨a, is, rfl⟩ := Option.map_eq_some_iff.1 dest
        rw [is]
        exact if_pos known
      refine ⟨fun t' n => ?_, ?_⟩
      · rw [same]
        exact slotted.slots t' n
      · rw [slotted.nextSlot, Listing.room, Listing.room, same]
  · rw [not_or] at known
    have slot := Listing.slot_of_fresh found dest known.1 known.2
    have room := Listing.room_succ_of_fresh found dest known.1 known.2
    have fresh : e.slots[t]? = none := by
      cases here : e.slots[t]? with
      | none => rfl
      | some n => exact absurd ((slotted.slots t n).1 here).1 known.2
    have fits : ¬ UInt16.size ≤ e.nextSlot + 1 := by
      rw [slotted.nextSlot, ← slot]
      simp only [numberRange] at small
      simp only [UInt16.size]
      omega
    refine ⟨{ e with slots := e.slots.insert t e.nextSlot, nextSlot := e.nextSlot + 1 }, ?_,
      ⟨fun t' n => ?_, ?_⟩, rfl, rfl⟩
    · have slotOf : slotOf f t e = .ok (l.slot t)
          { e with slots := e.slots.insert t e.nextSlot, nextSlot := e.nextSlot + 1 } := by
        unfold Emitter.slotOf
        rw [if_neg fun lt => known.1 ((isParam_iff suits).1 lt), fresh]
        simp only [if_neg fits]
        rw [slot, slotted.nextSlot]
      rw [resolves, bind_of_ok slotOf, if_pos small]
      rfl
    · rw [Std.HashMap.getElem?_insert, Listing.names_succ found, Listing.mem_addName, dest]
      by_cases same : t = t'
      · subst same
        simp only [beq_self_eq_true, if_true, Option.some.injEq]
        rw [slotted.nextSlot, ← slot]
        exact ⟨fun is => ⟨.inr ⟨known.1, trivial⟩, is.symm⟩, fun is => is.2.symm⟩
      · have other : (t == t') = false := beq_false_of_ne same
        rw [other, if_neg Bool.false_ne_true, slotted.slots]
        refine and_congr_left fun _ => ⟨.inl, fun named => named.resolve_right fun fresh => ?_⟩
        exact same (Option.some.inj fresh.2)
    · show e.nextSlot + 1 = _
      rw [room, slotted.nextSlot]

end Emitter

/-- The marker at step `k` is there to give a jump its target, which is the last
instruction emitted before. -/
structure Listing.Patches (l : Listing) (k index : Nat) : Prop where
  marker : l.steps[k]? = some (.act .patchJump) ∨ l.steps[k]? = some (.act .patchJumpElse)
  index : index = l.place k - 1

/-- The emitter gets behind a step, unless a jump leads too far. Then the index is
reported that a marker had to store. -/
def Emits (f : EmissionContext) (l : Listing) (k : Nat) (p : Patching)
    (r : EStateM.Result EmissionError Emitter Unit) : Prop :=
  match r with
  | .ok _ e => Emitting l k p e
  | .error error _ => ∃ k index, l.Patches k index ∧
    (∃ jump target, p.landing jump = some target ∧ l.place target = index) ∧
    numberRange ≤ index ∧ error = .operandOverflow f.func index

variable {f : EmissionContext} {l : Listing} {k functions procedures : Nat} {p p' : Patching}
  {e e' : Emitter} {step : Step}

theorem Slotted.congr (h : Slotted l k e) (slots : e'.slots = e.slots)
    (nextSlot : e'.nextSlot = e.nextSlot) : Slotted l k e' :=
  ⟨fun t n => slots ▸ h.slots t n, nextSlot.trans h.nextSlot⟩

/-- A step that writes nothing names nothing. -/
theorem Slotted.silent (h : Slotted l k e) (found : l.steps[k]? = some step)
    (silent : step.dest? = none) : Slotted l (k + 1) e := by
  have same : l.names (k + 1) = l.names k := by
    rw [Listing.names_succ found, Listing.addName, silent]
  refine ⟨fun t n => ?_, ?_⟩
  · rw [same]
    exact h.slots t n
  · rw [h.nextSlot, Listing.room, Listing.room, same]

/-- Instructions were added at the end, those of the step. -/
theorem Emitting.appended (orderly : l.Orderly f.constants functions procedures)
    (h : Emitting l k p e)
    (found : l.steps[k]? = some step) (slotted : Slotted l (k + 1) e')
    (code : e'.code = e.code ++ (l.codeWith p.landing k step).toArray)
    (landing : p'.landing = p.landing)
    (patches : e'.patches = p'.pending.map fun jump => l.place jump.2) :
    Emitting l (k + 1) p' e' := by
  have legal := orderly.legal k step found
  have length := Listing.length_codeWith (l := l) legal p.landing k
  refine ⟨slotted, ?_, fun i step' lt found' j instruction here => ?_, patches, ?_⟩
  · rw [code, Array.size_append, h.size, Listing.place_succ found, List.size_toArray, length]
  · rw [landing] at here
    rw [code]
    by_cases last : i = k
    · subst last
      rw [found] at found'
      cases found'
      rw [Array.getElem?_append_right (by rw [h.size]; omega), h.size, Nat.add_sub_cancel_left,
        List.getElem?_toArray]
      exact here
    · have before := h.code i step' (by omega) found' j instruction here
      rw [Array.getElem?_append_left (Array.getElem?_eq_some_iff.1 before).1]
      exact before
  · rw [landing]
    exact h.near

/-- The room that a step needs is there. -/
theorem nextSlot_lt (orderly : l.Orderly f.constants functions procedures) (h : Slotted l k e) :
    e.nextSlot + 2 < UInt16.size := by
  have room := l.room_le_all k
  have room_le := orderly.room_le
  rw [h.nextSlot]
  simp only [numberRange] at room_le
  simp only [UInt16.size]
  omega

/-- An instruction that leaves the top of the frame where it is. -/
theorem emit_level (orderly : l.Orderly f.constants functions procedures) (h : Slotted l k e)
    {i : Instruction} (level : i.stackDelta = 0) :
    Emitter.emit f i e = .ok () { e with code := e.code.push i } := by
  have fits := nextSlot_lt orderly h
  exact Emitter.emit_of_fits e.nextSlot (by rw [level, Int.add_zero]) (by omega)

/-- A step with one instruction that writes nothing. -/
theorem emits_single (orderly : l.Orderly f.constants functions procedures)
    (h : Emitting l k p e) (found : l.steps[k]? = some step) (silent : step.dest? = none)
    {i : Instruction} (code : l.codeWith p.landing k step = [i]) (level : i.stackDelta = 0)
    {op : Op} : Emits f l (k + 1) (p.moved op) (Emitter.emit f i e) := by
  rw [emit_level orderly h.slotted level]
  refine h.appended orderly found ((h.slotted.silent found silent).congr rfl rfl) ?_ rfl h.patches
  rw [code]
  exact Array.push_eq_append

/-- Copying. -/
theorem emits_copy (suits : Suits f l) (orderly : l.Orderly f.constants functions procedures)
    (h : Emitting l k p e) {t : Int16} {a : Address}
    (found : l.steps[k]? = some (.unary (.temp t) .nop a)) (sound : a.Sound f.constants)
    (named : ∀ t, a.temp? = some t → Listing.IsParam l.params t ∨ t ∈ l.names k) {op : Op} :
    Emits f l (k + 1) (p.moved op) (Emitter.emitStep f (.unary (.temp t) .nop a) e) := by
  obtain ⟨e', dest, slotted, code, patches⟩ :=
    Emitter.resolveDest_of_writes (t := t) suits orderly h.slotted
      (Listing.writes?_of_dest found rfl)
  have level : (Instruction.binary .mov (l.operand (.temp t)) (l.operand a)).stackDelta = 0 :=
    Instruction.stackDelta_binary _ (l.mode_operand _) (l.mode_operand _)
  simp only [Emitter.emitStep]
  rw [bind_of_ok (Emitter.resolve_of_sound suits orderly h.slotted sound named _ rfl), bind_of_ok dest,
    emit_level orderly slotted level]
  refine h.appended orderly found (slotted.congr rfl rfl) ?_ rfl (patches.trans h.patches)
  rw [code]
  exact Array.push_eq_append

/-- Addresses that differ have different operands. -/
theorem operand_ne (orderly : l.Orderly f.constants functions procedures) {t : Int16}
    {a : Address} (known : l.Known t) (known' : ∀ t, a.temp? = some t → l.Known t)
    (ne : Address.temp t ≠ a) : l.operand (.temp t) ≠ l.operand a := by
  obtain ⟨space, id⟩ := a
  cases space with
  | temp =>
      intro same
      have small := orderly.slot_lt known
      have small' := orderly.slot_lt (known' id rfl)
      have numbers : Int16.ofNat (l.slot t) = Int16.ofNat (l.slot id) :=
        congrArg Operand.value same
      have slots : l.slot t = l.slot id := by
        rw [← Machine.toNatClampNeg_ofNat_of_small small, numbers,
          Machine.toNatClampNeg_ofNat_of_small small']
      exact ne (congrArg Address.temp (Listing.slot_inj known slots))
  | _ => exact nofun

/-- Negating. -/
theorem emits_neg (suits : Suits f l) (orderly : l.Orderly f.constants functions procedures)
    (h : Emitting l k p e) {t : Int16} {a : Address}
    (found : l.steps[k]? = some (.unary (.temp t) .neg a)) (sound : a.Sound f.constants)
    (named : ∀ t, a.temp? = some t → Listing.IsParam l.params t ∨ t ∈ l.names k) {op : Op} :
    Emits f l (k + 1) (p.moved op) (Emitter.emitStep f (.unary (.temp t) .neg a) e) := by
  have writes : l.writes? k = some t := Listing.writes?_of_dest found rfl
  obtain ⟨e', dest, slotted, code, patches⟩ :=
    Emitter.resolveDest_of_writes suits orderly h.slotted writes
  have known := Listing.known_of_named (Listing.named_of_writes writes)
  have level : (Instruction.binary .mov (l.operand (.temp t)) (l.operand a)).stackDelta = 0 :=
    Instruction.stackDelta_binary _ (l.mode_operand _) (l.mode_operand _)
  have level' : (Instruction.unary .neg (l.operand (.temp t))).stackDelta = 0 :=
    Instruction.stackDelta_unary _ (l.mode_operand _)
  have resolved := Emitter.resolve_of_sound suits orderly h.slotted sound named e rfl
  simp only [Emitter.emitStep]
  rw [bind_of_ok resolved, bind_of_ok dest]
  by_cases same : Address.temp t = a
  · subst same
    rw [if_neg (by simp), emit_level orderly slotted level']
    refine h.appended orderly found (slotted.congr rfl rfl) ?_ rfl (patches.trans h.patches)
    have list : l.codeWith p.landing k (.unary (.temp t) .neg (.temp t)) =
        [.unary .neg (l.operand (.temp t))] := if_pos rfl
    rw [code, list]
    exact Array.push_eq_append
  · have ne := operand_ne orderly known (fun t' temp => Listing.known_of_named (named t' temp)) same
    rw [if_pos ne, bind_of_ok (emit_level orderly slotted level)]
    have again (code : Array Instruction) : Slotted l (k + 1) { e' with code := code } :=
      slotted.congr rfl rfl
    rw [emit_level orderly (again _) level']
    refine h.appended orderly found (slotted.congr rfl rfl) ?_ rfl (patches.trans h.patches)
    have list : l.codeWith p.landing k (.unary (.temp t) .neg a) =
        [.binary .mov (l.operand (.temp t)) (l.operand a), .unary .neg (l.operand (.temp t))] :=
      if_neg same
    rw [list]
    show (e'.code.push _).push _ = _
    rw [code]
    exact Array.toList_inj.1 (by simp)

/-- Computing an operator. -/
theorem emits_binary (suits : Suits f l) (orderly : l.Orderly f.constants functions procedures)
    (h : Emitting l k p e) {t : Int16} {operator : BinaryOp} {a b : Address}
    (found : l.steps[k]? = some (.binary (.temp t) (.binary operator) a b))
    (sound : a.Sound f.constants)
    (named : ∀ t, a.temp? = some t → Listing.IsParam l.params t ∨ t ∈ l.names k)
    (sound' : b.Sound f.constants)
    (named' : ∀ t, b.temp? = some t → Listing.IsParam l.params t ∨ t ∈ l.names k) {op : Op} :
    Emits f l (k + 1) (p.moved op)
      (Emitter.emitStep f (.binary (.temp t) (.binary operator) a b) e) := by
  have fits := nextSlot_lt orderly h.slotted
  have up : ∀ a, (Instruction.unary .push (l.operand a)).stackDelta = 1 := fun a =>
    Instruction.stackDelta_unary _ (l.mode_operand _)
  have down : (Instruction.nonary (.binary operator)).stackDelta = -1 :=
    Instruction.stackDelta_nonary _
  have left := Emitter.resolve_of_sound suits orderly h.slotted sound named e rfl
  have right (code : Array Instruction) (next : Nat) := Emitter.resolve_of_sound suits orderly
    h.slotted sound' named' { e with code := code, nextSlot := next } rfl
  have again (code : Array Instruction) :
      Slotted l k { e with code := code, nextSlot := e.nextSlot } := h.slotted.congr rfl rfl
  simp only [Emitter.emitStep, Emitter.emitBinary]
  rw [bind_of_ok left,
    bind_of_ok (Emitter.emit_of_fits (e.nextSlot + 1) (by rw [up]; rfl) (by omega)),
    bind_of_ok (right _ _),
    bind_of_ok (Emitter.emit_of_fits (e.nextSlot + 2) (by rw [up]; rfl) (by omega)),
    bind_of_ok (Emitter.emit_of_fits (e.nextSlot + 1) (by rw [down]; dsimp only; omega)
      (by omega)),
    bind_of_ok (Emitter.adjust_of_fits e.nextSlot (by dsimp only; omega) (by omega))]
  obtain ⟨e', dest, slotted, code, patches⟩ :=
    Emitter.resolveDest_of_writes (t := t) suits orderly (again _)
      (Listing.writes?_of_dest found rfl)
  rw [bind_of_ok dest]
  refine h.appended orderly found (slotted.congr rfl rfl) ?_ rfl (patches.trans h.patches)
  show e'.code.push _ = _
  rw [code]
  have list : l.codeWith p.landing k (.binary (.temp t) (.binary operator) a b) =
      [.unary .push (l.operand a), .unary .push (l.operand b), .nonary (.binary operator),
        .binary .mov (l.operand (.temp t)) .stack] := rfl
  rw [list]
  exact Array.toList_inj.1 (by simp)

/-! ### Markers -/

/-- The step of a marker that stands for an instruction. -/
theorem place_of_marker (orderly : l.Orderly f.constants functions procedures) {op : Op}
    (marker : l.markers[k]? = some op) (some_ : op.IsJump ∨ op = .nop) :
    l.place (k + 1) = l.place k + 1 := by
  rw [Listing.markers, List.getElem?_map] at marker
  obtain ⟨step, found, is⟩ := Option.map_eq_some_iff.1 marker
  rw [Listing.place_succ found]
  have legal := orderly.legal k step found
  subst is
  cases legal with
  | nop => rfl
  | jump => rfl
  | jumpElse => rfl
  | _ => exact absurd some_ (by simp [Step.marker, Op.IsJump])

/-- The instruction that the marker played last stands for was emitted last. -/
theorem place_previous (orderly : l.Orderly f.constants functions procedures)
    (inside : k ≤ l.steps.length) (played : Patching.Played (l.markers.take k) p)
    (some_ : p.previous.IsJump ∨ p.previous = .nop) :
    p.position = k ∧ l.place k = l.place (p.position - 1) + 1 := by
  have length : (l.markers.take k).length = k := by
    rw [List.length_take, Listing.markers, List.length_map]
    omega
  have position := played.position
  rw [length] at position
  have notCondensed : p.previous ≠ .condensed := by
    intro same
    rw [same] at some_
    exact absurd some_ (by decide)
  obtain ⟨positive, here⟩ := played.previous notCondensed
  rw [position] at positive here ⊢
  rw [List.getElem?_take, if_pos (by omega)] at here
  have place := place_of_marker orderly here some_
  rw [Nat.sub_add_cancel positive] at place
  exact ⟨rfl, place⟩

/-- A marker whose emission leaves the code as it is. -/
theorem Emitting.marked (orderly : l.Orderly f.constants functions procedures)
    (h : Emitting l k p e) {op : Op} (found : l.steps[k]? = some (.act op)) (silent : op ≠ .nop)
    (code : e'.code = e.code) (slots : e'.slots = e.slots) (nextSlot : e'.nextSlot = e.nextSlot)
    (landing : p'.landing = p.landing)
    (patches : e'.patches = p'.pending.map fun jump => l.place jump.2) :
    Emitting l (k + 1) p' e' := by
  refine h.appended orderly found ((h.slotted.silent found rfl).congr slots nextSlot) ?_ landing
    patches
  have none : l.codeWith p.landing k (.act op) = [] := by
    cases op with
    | nop => exact absurd rfl silent
    | _ => rfl
  rw [code, none]
  exact Array.append_empty.symm

theorem emits_condensed (orderly : l.Orderly f.constants functions procedures)
    (h : Emitting l k p e) (found : l.steps[k]? = some (.act .condensed)) {op : Op} :
    Emits f l (k + 1) (p.moved op) (Emitter.emitStep f (.act .condensed) e) :=
  h.marked orderly found (by decide) rfl rfl rfl rfl h.patches

theorem emits_savePatch (orderly : l.Orderly f.constants functions procedures)
    (played : Patching.Played (l.markers.take k) p) (h : Emitting l k p e)
    (found : l.steps[k]? = some (.act .savePatch)) (next : p.next .savePatch = some p') :
    Emits f l (k + 1) p' (Emitter.emitStep f (.act .savePatch) e) := by
  have inside := Nat.le_of_lt (List.getElem?_eq_some_iff.1 found).1
  rw [Patching.next] at next
  split at next
  · rename_i isJump
    cases next
    obtain ⟨position, place⟩ := place_previous orderly inside played (.inl isJump)
    have nonempty : e.code.isEmpty = false := by
      rw [Array.isEmpty_eq_false_iff, ← Array.size_pos_iff, h.size, place]
      exact Nat.succ_pos _
    have saves : Emitter.emitStep f (.act .savePatch) e =
        .ok () { e with patches := (e.code.size - 1) :: e.patches } := by
      show (if e.code.isEmpty then _ else _) = _
      rw [nonempty]
      rfl
    rw [saves]
    refine h.marked orderly found (by decide) rfl rfl rfl rfl ?_
    show (e.code.size - 1) :: e.patches = _
    rw [List.map_cons, h.patches, h.size, place]
    rfl
  · cases next

theorem emits_shufflePatch (orderly : l.Orderly f.constants functions procedures)
    (h : Emitting l k p e) (found : l.steps[k]? = some (.act .shufflePatch))
    (next : p.next .shufflePatch = some p') :
    Emits f l (k + 1) p' (Emitter.emitStep f (.act .shufflePatch) e) := by
  rw [Patching.next] at next
  split at next
  · rename_i a b rest pending
    cases next
    have patches := h.patches
    rw [pending] at patches
    have shuffles : Emitter.emitStep f (.act .shufflePatch) e =
        .ok () { e with patches := (b :: a :: rest).map (fun jump => l.place jump.2) } := by
      simp only [Emitter.emitStep, Emitter.shufflePatches, patches, List.map_cons]
    rw [shuffles]
    exact h.marked orderly found (by decide) rfl rfl rfl rfl rfl
  · cases next

/-- A jump is given its target. -/
theorem Emitting.landed (orderly : l.Orderly f.constants functions procedures)
    (h : Emitting l k p e) {marker : Op}
    (found : l.steps[k]? = some (.act marker)) (silent : marker ≠ .nop) {jump : Nat}
    {rest : List (Op × Nat)} {step : Step} (there : l.steps[jump]? = some step) {target : Nat}
    {i i' : Instruction}
    (before : l.codeWith p.landing jump step = [i])
    (after : l.codeWith (Function.update p.landing jump (some target)) jump step = [i'])
    (near : l.place target < numberRange)
    (sized : e'.code.size = e.code.size)
    (code : ∀ q, e'.code[q]? = if l.place jump = q then some i' else e.code[q]?)
    (slots : e'.slots = e.slots) (nextSlot : e'.nextSlot = e.nextSlot)
    (patches : e'.patches = rest.map fun jump => l.place jump.2) :
    Emitting l (k + 1) { p.moved marker with
      pending := rest
      landing := Function.update p.landing jump (some target) } e' := by
  have width : (Step.act marker).width = 0 := by
    cases marker with
    | nop => exact absurd rfl silent
    | _ => rfl
  have none : ∀ landing, l.codeWith landing k (.act marker) = [] := by
    intro landing
    cases marker with
    | nop => exact absurd rfl silent
    | _ => rfl
  have width' : step.width = 1 := by
    rw [← Listing.length_codeWith (l := l) (orderly.legal jump step there) p.landing jump, before]
    rfl
  have placed := Listing.place_succ there
  refine ⟨(h.slotted.silent found rfl).congr slots nextSlot, ?_,
    fun q step' lt found' j instruction here => ?_, patches, fun jump' target' landed => ?_⟩
  · rw [sized, h.size, Listing.place_succ found, width]
    rfl
  · rw [code]
    by_cases last : q = k
    · subst last
      rw [found] at found'
      cases found'
      rw [none] at here
      cases here
    · by_cases same : q = jump
      · subst same
        rw [there] at found'
        cases found'
        rw [after] at here
        have first : j = 0 := by
          have inside := (List.getElem?_eq_some_iff.1 here).1
          rw [List.length_singleton] at inside
          omega
        subst first
        cases here
        exact if_pos (Nat.add_zero _).symm
      · rw [Listing.codeWith_congr (Function.update_of_ne same _ _)] at here
        have held := h.code q step' (by omega) found' j instruction here
        have inside := (List.getElem?_eq_some_iff.1 here).1
        rw [Listing.length_codeWith (orderly.legal q step' found')] at inside
        have placed' := Listing.place_succ found'
        rw [if_neg, held]
        rcases Nat.lt_or_gt_of_ne same with lt' | lt'
        · have mono : l.place (q + 1) ≤ l.place jump := l.place_mono lt'
          omega
        · have mono : l.place (jump + 1) ≤ l.place q := l.place_mono lt'
          omega
  · change Function.update p.landing jump (some target) jump' = some target' at landed
    by_cases same : jump' = jump
    · subst same
      rw [Function.update_self] at landed
      cases landed
      exact near
    · rw [Function.update_of_ne same] at landed
      exact h.near jump' target' landed

/-- The instruction of a saved jump that has not landed. -/
theorem pending_jump (orderly : l.Orderly f.constants functions procedures)
    (played : Patching.Played (l.markers.take k) p) {kind : Op} {jump : Nat}
    (pending : (kind, jump) ∈ p.pending) :
    ∃ step, l.steps[jump]? = some step ∧ step.marker = kind ∧ p.landing jump = none ∧ jump < k ∧
      step.Legal f.constants functions procedures := by
  obtain ⟨isJump, here, -, free⟩ := played.pending kind jump pending
  rw [List.getElem?_take] at here
  split at here
  · rename_i lt
    rw [Listing.markers, List.getElem?_map] at here
    obtain ⟨step, found, marker⟩ := Option.map_eq_some_iff.1 here
    exact ⟨step, found, marker, free, lt, orderly.legal jump step found⟩
  · cases here

theorem set_set (s : Slots) (a b : Int16) (slot : Nat) :
    (s.set a slot).set b slot = s.set b slot := by
  rcases slot with _ | _ | _ | _ <;> rfl

/-- Landing a jump of either kind: `slot` is where the jump has its target. -/
theorem emits_patch (orderly : l.Orderly f.constants functions procedures)
    (played : Patching.Played (l.markers.take k) p) (h : Emitting l k p e) {marker kind : Op}
    {expected : Opcode} {slot : Nat} (found : l.steps[k]? = some (.act marker))
    (patches : marker = .patchJump ∨ marker = .patchJumpElse)
    (jumps : ∀ step : Step, step.Legal f.constants functions procedures → step.marker = kind →
      ∃ i : Instruction, i.op = expected ∧ ∀ landing jump,
        l.codeWith landing jump step = [{ i with
          args := i.args.set (Int16.ofNat ((landing jump).elim 0 l.place)) slot }])
    (next : p.land kind marker = some p') :
    Emits f l (k + 1) p' (Emitter.patch f marker expected slot e) := by
  have inside := Nat.le_of_lt (List.getElem?_eq_some_iff.1 found).1
  have silent : marker ≠ .nop := by rcases patches with rfl | rfl <;> decide
  have marks : l.steps[k]? = some (.act .patchJump) ∨ l.steps[k]? = some (.act .patchJumpElse) := by
    rcases patches with rfl | rfl
    · exact .inl found
    · exact .inr found
  unfold Patching.land at next
  split at next
  · rename_i kind' jump rest pending
    split at next
    · rename_i fits
      obtain ⟨rfl, nop⟩ := fits
      cases next
      obtain ⟨position, place⟩ := place_previous orderly inside played (.inr nop)
      obtain ⟨step, there, marked, free, lt, legal⟩ :=
        pending_jump orderly played (pending ▸ List.mem_cons_self)
      obtain ⟨i, op, code⟩ := jumps step legal marked
      have patches := h.patches
      rw [pending, List.map_cons] at patches
      dsimp only at patches
      have old := code p.landing jump
      rw [free] at old
      have held := h.code jump step lt there 0 _ (by rw [old]; rfl)
      rw [Nat.add_zero] at held
      have sized : e.code.size = l.place (p.position - 1) + 1 := h.size.trans place
      have accepts : Emitter.acceptsJump expected i.op = true := by simp [Emitter.acceptsJump, op]
      by_cases near : l.place (p.position - 1) < numberRange
      · have far : ¬ numberRange ≤ l.place (p.position - 1) := Nat.not_le.2 near
        simp only [Emitter.patch, Emitter.takePatch, patches, bind_apply, get_apply, sized, far,
          held, accepts, Nat.add_sub_cancel, Nat.succ_ne_zero, if_false, if_true, modify_apply]
        refine h.landed orderly found silent there old (code _ jump) near ?_ (fun q => ?_) rfl rfl
          rfl
        · exact Array.size_modify
        · rw [Array.getElem?_modify]
          by_cases same : l.place jump = q
          · subst same
            rw [if_pos rfl, if_pos rfl, held, Option.map_some, Function.update_self, set_set]
            rfl
          · rw [if_neg same, if_neg same]
      · have far : numberRange ≤ l.place (p.position - 1) := Nat.not_lt.1 near
        simp only [Emitter.patch, Emitter.takePatch, patches, bind_apply, get_apply, sized, far,
          Nat.add_sub_cancel, Nat.succ_ne_zero, if_false, if_true, throw_apply]
        exact ⟨k, _, ⟨marks, by rw [place, Nat.add_sub_cancel]⟩,
          ⟨jump, _, Function.update_self _ _ _, rfl⟩, far, rfl⟩
    · cases next
  · cases next

/-! ### Whole listings -/

/-- One step. -/
theorem emits_step (suits : Suits f l) (orderly : l.Orderly f.constants functions procedures)
    (played : Patching.Played (l.markers.take k) p) (h : Emitting l k p e)
    (found : l.steps[k]? = some step) (next : p.next step.marker = some p') :
    Emits f l (k + 1) p' (Emitter.emitStep f step e) := by
  have legal := orderly.legal k step found
  have named {a : Address} (window : step.window? = none) (mem : a ∈ step.args) (t : Int16)
      (temp : a.temp? = some t) : Listing.IsParam l.params t ∨ t ∈ l.names k :=
    orderly.read k t (Listing.mem_reads found window mem t temp)
  have resolve {a : Address} (sound : a.Sound f.constants) (window : step.window? = none)
      (mem : a ∈ step.args) : Emitter.resolve f a e = .ok (l.operand a) e :=
    Emitter.resolve_of_sound suits orderly h.slotted sound (named window mem) _ rfl
  have free : p.landing k = none := by
    cases landed : p.landing k with
    | none => rfl
    | some target =>
        obtain ⟨ahead, nop, -⟩ := played.landing k target landed
        have inside := (List.getElem?_eq_some_iff.1 nop).1
        rw [List.length_take] at inside
        omega
  cases legal with
  | copy t sound =>
      cases next
      exact emits_copy suits orderly h found sound (named rfl List.mem_cons_self)
  | neg t sound =>
      cases next
      exact emits_neg suits orderly h found sound (named rfl List.mem_cons_self)
  | binary t op sound sound' =>
      cases next
      exact emits_binary suits orderly h found sound (named rfl List.mem_cons_self) sound'
        (named rfl (List.mem_cons_of_mem _ List.mem_cons_self))
  | nop =>
      cases next
      exact emits_single orderly h found rfl rfl (Instruction.stackDelta_nonary _)
  | savePatch => exact emits_savePatch orderly played h found next
  | shufflePatch => exact emits_shufflePatch orderly h found next
  | patchJump =>
      refine emits_patch orderly played h found (.inl rfl) (fun step legal is => ?_) next
      cases legal with
      | jump => exact ⟨.unary .jump (.immediate 0), rfl, fun _ _ => rfl⟩
      | _ => cases is
  | patchJumpElse =>
      refine emits_patch orderly played h found (.inr rfl) (fun step legal is => ?_) next
      cases legal with
      | @jumpElse a sound =>
          exact ⟨.binary .jumpElse (l.operand a) (.immediate 0), rfl, fun _ _ => rfl⟩
      | _ => cases is
  | condensed =>
      cases next
      exact emits_condensed orderly h found
  | jump =>
      cases next
      refine emits_single orderly h found rfl ?_ (Instruction.stackDelta_unary _ (by decide))
      rw [Listing.codeWith, Listing.targetWith, free]
      rfl
  | @ret a sound =>
      cases next
      simp only [Emitter.emitStep]
      rw [bind_of_ok (resolve sound rfl List.mem_cons_self)]
      exact emits_single orderly h found rfl rfl
        (Instruction.stackDelta_unary _ (l.mode_operand _))
  | @jumpElse a sound =>
      cases next
      have window : (Step.actOnTwo .jumpElse a (.immediate 0)).window? = none := rfl
      simp only [Emitter.emitStep]
      rw [bind_of_ok (resolve sound window List.mem_cons_self)]
      refine emits_single orderly h found rfl ?_
        (Instruction.stackDelta_binary _ (l.mode_operand _) (by decide))
      rw [Listing.codeWith, Listing.targetWith, free]
      rfl
  | @call func count named known some =>
      cases next
      exact emits_single orderly h found rfl rfl
        (Instruction.stackDelta_binary _ (l.mode_operand _) (l.mode_operand _))
  | @nativeCall id count named known some =>
      cases next
      exact emits_single orderly h found rfl rfl
        (Instruction.stackDelta_binary _ (l.mode_operand _) (l.mode_operand _))

/-- The steps from `k` on. -/
theorem emits_from (suits : Suits f l) (orderly : l.Orderly f.constants functions procedures)
    {n : Nat} (count : l.steps.length = k + n)
    (play : Patching.start.play (l.markers.take k) = some p) (h : Emitting l k p e)
    (rest : p.play (l.markers.drop k) = some p') :
    Emits f l l.steps.length p' ((l.steps.drop k).forM (Emitter.emitStep f) e) := by
  induction n generalizing k p e with
  | zero =>
      have beyond : l.steps.length ≤ k := Nat.le_of_eq count
      rw [List.drop_of_length_le beyond]
      rw [List.drop_of_length_le (by rw [Listing.markers, List.length_map]; exact beyond)] at rest
      cases rest
      rw [count]
      exact h
  | succ n ih =>
      have inside : k < l.steps.length := by omega
      have inside' : k < l.markers.length := by
        rw [Listing.markers, List.length_map]
        exact inside
      have found : l.steps[k]? = some l.steps[k] := List.getElem?_eq_getElem inside
      have marker : l.markers[k] = l.steps[k].marker := by simp [Listing.markers]
      rw [List.drop_eq_getElem_cons inside', Patching.play, List.foldlM_cons] at rest
      obtain ⟨q, next, rest⟩ := Option.bind_eq_some_iff.1 rest
      have play' : Patching.start.play (l.markers.take (k + 1)) = some q := by
        rw [List.take_succ_eq_append_getElem inside', Patching.play_snoc, play]
        exact next
      rw [marker] at next
      have step := emits_step suits orderly (Patching.played play) h found next
      rw [List.drop_eq_getElem_cons inside, forM_cons]
      cases emitted : Emitter.emitStep f l.steps[k] e with
      | ok _ e' =>
          rw [emitted] at step
          rw [bind_of_ok emitted]
          exact ih (by omega) play' step rest
      | error error e' =>
          rw [emitted] at step
          rw [bind_of_error emitted]
          obtain ⟨at_, index, patches, ⟨jump, target, landed, same⟩, overflow⟩ := step
          exact ⟨at_, index, patches,
            ⟨jump, target, Patching.landing_of_play play' rest landed, same⟩, overflow⟩

/-! ### Whole graphs -/

/-- The blocks of a forward graph are emitted one after the other. -/
theorem emitLaidOut_eq {g : Graph} (forward : g.Forward) (f : EmissionContext) :
    g.emitLaidOut f = g.listing.steps.forM (Emitter.emitStep f) >>= fun _ => (do
      let pending := (← get).patches.length
      if pending ≠ 0 then throw (.unbalancedPatches f.func pending)
      return (← get).code) := by
  have blocks : (List.range g.blocks.size).map (fun id => (g.blocks[id]?.map Block.steps).getD #[]) =
      g.blocks.toList.map Block.steps := by
    refine List.ext_getElem? fun i => ?_
    have here : g.blocks.toList[i]? = g.blocks[i]? := Array.getElem?_toList
    rw [List.getElem?_map, List.getElem?_map, here]
    by_cases inside : i < g.blocks.size
    · rw [List.getElem?_range inside, Array.getElem?_eq_getElem inside]
      simp [inside]
    · rw [Array.getElem?_eq_none (Nat.not_lt.1 inside),
        List.getElem?_eq_none (by rw [List.length_range]; exact Nat.not_lt.1 inside)]
      rfl
  have steps : g.listing.steps.forM (Emitter.emitStep f) =
      (List.range g.blocks.size).forM fun id =>
        ((g.blocks[id]?.map Block.steps).getD #[]).toList.forM (Emitter.emitStep f) := by
    rw [Graph.listing, Graph.steps]
    dsimp only
    rw [forM_flatMap, ← forM_map g.blocks.toList Block.steps
      (fun steps => steps.toList.forM (Emitter.emitStep f)), ← blocks, forM_map]
  rw [Graph.emitLaidOut, forward.layOut_eq, steps]
  simp only [← Array.forIn_toList, forIn_eq_forM, Array.toList_range]

theorem emitting_start {g : Graph} : Emitting g.listing 0 .start (Emitter.start g.paramCount) where
  slotted := {
    slots := fun t n => by simp [Emitter.start, Listing.names_zero]
    nextSlot := rfl }
  size := rfl
  code i step lt := absurd lt (Nat.not_lt_zero i)
  patches := rfl
  near jump target landed := by cases landed

variable {g : Graph} {constants func : Nat}

/-- What the emission of a graph comes to. -/
theorem emit_cases (func : Nat) (forward : g.Forward)
    (orderly : g.listing.Orderly constants functions procedures) :
    (∃ chunk, (g.emit constants func).result = .ok chunk ∧ g.listing.Assembled chunk) ∨
      ∃ k index, g.listing.Patches k index ∧
        (∃ jump target, g.listing.landing jump = some target ∧ g.listing.place target = index) ∧
        numberRange ≤ index ∧
        (g.emit constants func).result = .error (.operandOverflow func index) := by
  obtain ⟨p, played, pending⟩ := orderly.played
  have suits : Suits ⟨func, g.paramCount, constants⟩ g.listing := ⟨rfl⟩
  have emits := emits_from (f := ⟨func, g.paramCount, constants⟩) suits orderly
    (n := g.listing.steps.length) (Nat.zero_add _).symm rfl emitting_start played
  have landing : g.listing.landing = p.landing := by
    funext jump
    rw [Listing.landing, played]
    rfl
  rw [List.drop_zero] at emits
  rw [Graph.emit, emitLaidOut_eq forward]
  cases emitted : g.listing.steps.forM (Emitter.emitStep ⟨func, g.paramCount, constants⟩)
      (Emitter.start g.paramCount) with
  | ok _ e =>
      rw [emitted] at emits
      have patches := emits.patches
      rw [pending] at patches
      refine .inl ⟨e.code, ?_, emits.size, fun k step found j i here => ?_, fun k target landed => ?_⟩
      · rw [bind_of_ok emitted, bind_of_ok (get_apply e), patches]
        rfl
      · rw [← Listing.codeWith_landing, landing] at here
        exact emits.code k step (List.getElem?_eq_some_iff.1 found).1 found j i here
      · rw [landing] at landed
        exact emits.near k target landed
  | error error e =>
      rw [emitted] at emits
      obtain ⟨k, index, patches, ⟨jump, target, landed, same⟩, far, rfl⟩ := emits
      refine .inr ⟨k, index, patches, ⟨jump, target, landing ▸ landed, same⟩, far, ?_⟩
      rw [bind_of_error emitted]

/-- A graph that is emitted has the code of its listing. -/
theorem assembled_of_emit (forward : g.Forward)
    (orderly : g.listing.Orderly constants functions procedures) {chunk : Chunk}
    (emitted : (g.emit constants func).result = .ok chunk) : g.listing.Assembled chunk := by
  rcases emit_cases func forward orderly with
    ⟨chunk', emitted', assembled⟩ | ⟨_, _, _, _, _, emitted'⟩
  · rw [emitted] at emitted'
    cases emitted'
    exact assembled
  · rw [emitted] at emitted'
    cases emitted'

/-- A graph none of whose jumps leads too far is emitted. -/
theorem emit_of_near (func : Nat) (forward : g.Forward)
    (orderly : g.listing.Orderly constants functions procedures)
    (near : ∀ jump target, g.listing.landing jump = some target →
      g.listing.place target < numberRange) :
    ∃ chunk, (g.emit constants func).result = .ok chunk := by
  rcases emit_cases func forward orderly with
    ⟨chunk, emitted, -⟩ | ⟨-, -, -, ⟨jump, target, landed, rfl⟩, far, -⟩
  · exact ⟨chunk, emitted⟩
  · exact absurd (near jump target landed) (Nat.not_lt.2 far)

/-- Every marker of an orderly listing lands a jump. -/
theorem Listing.Patches.lands {l : Listing} {pool functions procedures k index : Nat}
    (h : l.Patches k index) (orderly : l.Orderly pool functions procedures) :
    ∃ jump target, l.landing jump = some target ∧ l.place target = index := by
  obtain ⟨p, played, -⟩ := orderly.played
  obtain ⟨op, found, patches⟩ : ∃ op, l.steps[k]? = some (.act op) ∧
      (op = .patchJump ∨ op = .patchJumpElse) :=
    h.marker.elim (fun found => ⟨_, found, .inl rfl⟩) fun found => ⟨_, found, .inr rfl⟩
  have inside := (List.getElem?_eq_some_iff.1 found).1
  have marker : l.markers[k]? = some op := by
    rw [Listing.markers, List.getElem?_map, found]
    rfl
  have split : l.markers = l.markers.take k ++ op :: l.markers.drop (k + 1) := by
    obtain ⟨lt, same⟩ := List.getElem?_eq_some_iff.1 marker
    rw [← same, List.getElem_cons_drop, List.take_append_drop]
  have all := played
  rw [split, Patching.play_append] at all
  obtain ⟨q, before, rest⟩ := Option.bind_eq_some_iff.1 all
  rw [Patching.play, List.foldlM_cons] at rest
  obtain ⟨q', next, rest⟩ := Option.bind_eq_some_iff.1 rest
  have play' : Patching.start.play (l.markers.take k ++ [op]) = some q' := by
    rw [Patching.play_snoc, before]
    exact next
  -- Landing asks for the place to land at right in front of the marker.
  have lands : ∃ jump, q.previous = .nop ∧ q'.landing jump = some (q.position - 1) := by
    have lands {kind : Op} (next : q.land kind op = some q') :
        ∃ jump, q.previous = .nop ∧ q'.landing jump = some (q.position - 1) := by
      unfold Patching.land at next
      split at next
      · split at next
        · rename_i jump rest pending fits
          cases next
          exact ⟨jump, fits.2, Function.update_self _ _ _⟩
        · cases next
      · cases next
    rcases patches with rfl | rfl <;> exact lands next
  obtain ⟨jump, nop, landed⟩ := lands
  obtain ⟨position, place⟩ := place_previous (f := ⟨0, 0, pool⟩) orderly (Nat.le_of_lt inside)
    (Patching.played before) (.inr nop)
  refine ⟨jump, q.position - 1, ?_, ?_⟩
  · rw [Listing.landing, played]
    exact Patching.landing_of_play play' rest landed
  · rw [h.index, place, Nat.add_sub_cancel]

namespace Listing

/-- The code of all steps. -/
def chunk (l : Listing) : Chunk := (l.steps.zipIdx.flatMap fun (step, k) => l.code k step).toArray

variable {l : Listing} {pool functions procedures : Nat}

/-- A listing has one code only. -/
theorem Assembled.eq_chunk (orderly : l.Orderly pool functions procedures) {chunk : Chunk}
    (h : l.Assembled chunk) : chunk = l.chunk := by
  suffices all : ∀ k, chunk.toList.take (l.place k) =
      (l.steps.zipIdx.take k).flatMap fun (step, k) => l.code k step by
    have whole := all l.steps.length
    rw [List.take_of_length_le (by rw [Array.length_toList, h.size]),
      List.take_of_length_le (by rw [List.length_zipIdx])] at whole
    exact Array.toList_inj.1 whole
  intro k
  induction k with
  | zero => rfl
  | succ k ih =>
      rw [List.take_add_one, List.getElem?_zipIdx, List.flatMap_append, ← ih]
      cases found : l.steps[k]? with
      | none =>
          have le := List.getElem?_eq_none_iff.1 found
          rw [place, place, List.take_of_length_le le, List.take_of_length_le (Nat.le_succ_of_le le)]
          exact (List.append_nil _).symm
      | some step =>
          have length := length_codeWith (l := l) (orderly.legal k step found) l.landing k
          rw [codeWith_landing] at length
          rw [place_succ found, List.take_add]
          refine congrArg _ (List.ext_getElem? fun j => ?_)
          show _ = ([(step, 0 + k)].flatMap fun (step, k) => l.code k step)[j]?
          rw [List.flatMap_singleton, Nat.zero_add]
          by_cases inside : j < step.width
          · obtain ⟨i, here⟩ : ∃ i, (l.code k step)[j]? = some i :=
              ⟨_, List.getElem?_eq_getElem (length ▸ inside)⟩
            rw [List.getElem?_take_of_lt inside, List.getElem?_drop, Array.getElem?_toList, here]
            exact h.code k step found j i here
          · rw [List.getElem?_take_eq_none (Nat.not_lt.1 inside),
              List.getElem?_eq_none (length ▸ Nat.not_lt.1 inside)]

/-- Every instruction of the code belongs to a step. -/
theorem Assembled.origin (orderly : l.Orderly pool functions procedures) {chunk : Chunk}
    (h : l.Assembled chunk) {q : Nat} {i : Instruction} (here : chunk[q]? = some i) :
    ∃ k step j, l.steps[k]? = some step ∧ q = l.place k + j ∧ (l.code k step)[j]? = some i := by
  have inside := (Array.getElem?_eq_some_iff.1 here).1
  rw [h.size] at inside
  obtain ⟨k, le, lt⟩ : ∃ k, l.place k ≤ q ∧ q < l.place (k + 1) := by
    generalize l.steps.length = n at inside
    induction n with
    | zero => exact absurd inside (Nat.not_lt_zero _)
    | succ n ih =>
        rcases Nat.lt_or_ge q (l.place n) with lt | le
        · exact ih lt
        · exact ⟨n, le, inside⟩
  cases found : l.steps[k]? with
  | none =>
      have beyond := List.getElem?_eq_none_iff.1 found
      rw [place, List.take_of_length_le (Nat.le_succ_of_le beyond)] at lt
      rw [place, List.take_of_length_le beyond] at le
      omega
  | some step =>
      have length := length_codeWith (l := l) (orderly.legal k step found) l.landing k
      rw [codeWith_landing] at length
      rw [place_succ found] at lt
      obtain ⟨i', code⟩ : ∃ i', (l.code k step)[q - l.place k]? = some i' :=
        ⟨_, List.getElem?_eq_getElem (by omega)⟩
      have there := h.code k step found _ i' code
      rw [Nat.add_sub_cancel' le, here] at there
      cases there
      exact ⟨k, step, _, found, (Nat.add_sub_cancel' le).symm, code⟩

/-- The target of a jump, as it stands in the code, is ahead. -/
theorem Assembled.target_eq (orderly : l.Orderly pool functions procedures) {chunk : Chunk}
    (h : l.Assembled chunk) {k : Nat} {step : Step} (found : l.steps[k]? = some step)
    (isJump : step.marker.IsJump) :
    ∃ landing place, l.landing k = some landing ∧ l.target k = .immediate (Int16.ofNat place) ∧
      place = l.place landing ∧ place < numberRange ∧ l.place (k + 1) ≤ place := by
  have marker : l.markers[k]? = some step.marker := by
    rw [markers, List.getElem?_map, found]
    rfl
  obtain ⟨landing, landed, ahead, -⟩ := orderly.lands marker isJump
  refine ⟨landing, l.place landing, landed, ?_, rfl, h.landing k landing landed, l.place_mono ahead⟩
  rw [target, landed]
  rfl

/-- In a short code no jump leads too far. -/
theorem near_of_short (orderly : l.Orderly pool functions procedures)
    (short : l.place l.steps.length ≤ numberRange) {jump target : Nat}
    (landed : l.landing jump = some target) : l.place target < numberRange := by
  obtain ⟨-, nop⟩ := orderly.landing_spec landed
  have inside := (List.getElem?_eq_some_iff.1 nop).1
  have next : l.place (target + 1) = l.place target + 1 := place_succ nop
  have le : l.place (target + 1) ≤ l.place l.steps.length := l.place_mono inside
  omega

end Listing

end RegisterCode

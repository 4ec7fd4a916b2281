import Mathlib
import RegisterCode.Proofs.Code.Worklist

/-!
Which register slot each temporary is bound to, on any graph that is emitted. While the right
operand of a binary step is looked up, the left one is pushed already, and the next free slot is one
higher. So a temporary that is named there first leaves out a slot, and the temporary that is named
first after it gets the same slot as it, unless that is a right operand again. There is no other way
for two temporaries to share a register.
-/

namespace RegisterCode

/-! ### The order in which temporaries are named -/

/-- The addresses of a step in the order in which emission looks them up, each with the number of
values that are pushed at that time. -/
def Step.lookups : Step → List (Address × Nat)
  | unary dest _ arg => [(arg, 0), (dest, 0)]
  | binary dest _ left right => [(left, 0), (right, 1), (dest, 0)]
  | act _ => []
  | actOn _ a => [(a, 0)]
  | actOnTwo _ a b => [(a, 0), (b, 0)]

/-- Notes a temporary that is looked up for the first time, unless it holds a parameter. -/
def note (params : UInt16) (named : List (Int16 × Nat)) (lookup : Address × Nat) :
    List (Int16 × Nat) :=
  if lookup.1.isTemp ∧ ¬ lookup.1.id.toUInt16 < params ∧ lookup.1.id ∉ named.map Prod.fst then
    named ++ [(lookup.1.id, lookup.2)]
  else named

/-- The steps of the blocks laid out, in order. -/
def Graph.laidOut (g : Graph) : List Step :=
  g.layOut.order.toList.flatMap fun id => g.rows.getD id []

/-- The temporaries in the order in which they are named first, apart from those that hold
parameters. -/
def Graph.namings (g : Graph) : List (Int16 × Nat) :=
  (g.laidOut.flatMap Step.lookups).foldl (note g.paramCount) []

namespace Emitter

/-- The slot that a temporary is bound to. -/
def slot? (e : Emitter) (params : UInt16) (t : Int16) : Option Nat :=
  if t.toUInt16 < params then some t.toUInt16.toNat else e.slots[t]?

variable {f : EmissionContext} {named : List (Int16 × Nat)} {pushed : Nat} {e e' : Emitter}

/-- A temporary that is bound keeps its slot. -/
theorem slotOf_of_slot? {t : Int16} {slot : Nat} (bound : e.slot? f.paramCount t = some slot) :
    slotOf f t e = .ok slot e := by
  rw [slot?] at bound
  rw [slotOf]
  split at bound
  · rename_i param
    cases bound
    rw [if_pos param]
  · rename_i other
    rw [if_neg other, bound]

/-- The temporaries named so far have got their slots, and so many values are pushed. -/
structure Binds (f : EmissionContext) (named : List (Int16 × Nat)) (pushed : Nat) (e : Emitter) :
    Prop where
  next : e.nextSlot = f.paramCount.toNat + named.length + pushed
  slots : ∀ t slot, e.slots[t]? = some slot ↔ ∃ i height, named[i]? = some (t, height) ∧
    slot = f.paramCount.toNat + i + height
  once : (named.map Prod.fst).Nodup
  others : ∀ entry ∈ named, ¬ entry.1.toUInt16 < f.paramCount

theorem binds_start (f : EmissionContext) : Binds f [] 0 (start f.paramCount) where
  next := rfl
  slots t slot := by simp [start]
  once := List.nodup_nil
  others _ mem := nomatch mem

namespace Binds

/-- The bindings depend on two parts of the emitter. -/
theorem congr (h : Binds f named pushed e) (next : e'.nextSlot = e.nextSlot)
    (slots : e'.slots = e.slots) : Binds f named pushed e' :=
  ⟨next.trans h.next, slots ▸ h.slots, h.once, h.others⟩

theorem adjust (h : Binds f named pushed e) {delta : Int} (pushed' : Nat)
    (ok : adjust f delta e = .ok () e') (is : (pushed : Int) + delta = pushed') :
    Binds f named pushed' e' := by
  unfold Emitter.adjust at ok
  dsimp only at ok
  split at ok
  · cases ok
  · split at ok
    · cases ok
    · cases ok
      refine ⟨?_, h.slots, h.once, h.others⟩
      have next := h.next
      dsimp only
      omega

theorem emit (h : Binds f named pushed e) {i : Instruction} (pushed' : Nat)
    (ok : emit f i e = .ok () e') (is : (pushed : Int) + i.stackDelta = pushed') :
    Binds f named pushed' e' := by
  obtain ⟨_, e1, adjusted, appended⟩ := bind_eq_ok_iff.1 ok
  cases appended
  exact (h.adjust pushed' adjusted is).congr rfl rfl

/-- A temporary that is named for the first time gets the next free slot. -/
theorem name (h : Binds f named pushed e) {t : Int16} (other : ¬ t.toUInt16 < f.paramCount)
    (fresh : t ∉ named.map Prod.fst) :
    Binds f (named ++ [(t, pushed)]) pushed
      { e with slots := e.slots.insert t e.nextSlot, nextSlot := e.nextSlot + 1 } := by
  have next := h.next
  refine ⟨?_, fun t' slot => ?_, ?_, fun entry mem => ?_⟩
  · rw [List.length_append, List.length_singleton]
    dsimp only
    omega
  · have entries {i height : Nat} : (named ++ [(t, pushed)])[i]? = some (t', height) ↔
        named[i]? = some (t', height) ∨ (i = named.length ∧ t = t' ∧ pushed = height) := by
      rw [List.getElem?_append]
      split
      · rename_i lt
        exact ⟨.inl, fun at_ => at_.resolve_right fun last => by omega⟩
      · rename_i beyond
        rw [List.getElem?_eq_none (Nat.le_of_not_lt beyond), List.getElem?_singleton]
        constructor
        · intro at_
          split at at_ <;> cases at_
          exact .inr ⟨by omega, rfl, rfl⟩
        · rintro (none | ⟨rfl, rfl, rfl⟩)
          · cases none
          · rw [Nat.sub_self, if_pos rfl]
    simp only [entries]
    rw [Std.HashMap.getElem?_insert]
    by_cases same : t = t'
    · subst same
      rw [if_pos (beq_self_eq_true t), Option.some.injEq]
      constructor
      · rintro rfl
        exact ⟨_, _, .inr ⟨rfl, rfl, rfl⟩, next⟩
      · rintro ⟨i, height, at_ | ⟨rfl, -, rfl⟩, rfl⟩
        · exact absurd (List.mem_map_of_mem (List.mem_of_getElem? at_)) fresh
        · exact next
    · rw [if_neg (by simpa using same), h.slots]
      simp only [same, false_and, and_false, or_false]
  · rw [List.map_append, List.map_singleton, ← List.concat_eq_append, List.nodup_concat]
    exact ⟨fresh, h.once⟩
  · rcases List.mem_append.1 mem with mem | mem
    · exact h.others entry mem
    · rw [List.mem_singleton.1 mem]
      exact other

theorem slotOf (h : Binds f named pushed e) {t : Int16} {slot : Nat}
    (ok : slotOf f t e = .ok slot e') :
    Binds f (note f.paramCount named (.temp t, pushed)) pushed e' := by
  have isTemp : (Address.temp t).isTemp = true := rfl
  have id : (Address.temp t).id = t := rfl
  rw [note, id, isTemp]
  unfold Emitter.slotOf at ok
  split at ok
  · rename_i param
    cases ok
    rw [if_neg fun new => new.2.1 param]
    exact h
  · rename_i other
    split at ok
    · rename_i slot found
      cases ok
      obtain ⟨i, height, at_, -⟩ := (h.slots t slot).1 found
      rw [if_neg fun new => new.2.2 (List.mem_map_of_mem (List.mem_of_getElem? at_))]
      exact h
    · rename_i none
      dsimp only at ok
      split at ok
      · cases ok
      · cases ok
        have fresh : t ∉ named.map Prod.fst := by
          intro mem
          obtain ⟨entry, inside, rfl⟩ := List.mem_map.1 mem
          obtain ⟨i, at_⟩ := List.mem_iff_getElem?.1 inside
          have found := (h.slots entry.1 _).2 ⟨i, entry.2, at_, rfl⟩
          rw [none] at found
          cases found
        rw [if_pos ⟨rfl, other, fresh⟩]
        exact h.name other fresh

/-- An address is looked up, and what it becomes takes nothing from the stack. -/
theorem resolve (h : Binds f named pushed e) {a : Address} {x : Operand}
    (ok : resolve f a e = .ok x e') :
    Binds f (note f.paramCount named (a, pushed)) pushed e' ∧ x.mode ≠ .stack := by
  obtain ⟨space, id⟩ := a
  have constant (other : space ≠ .temp) : note f.paramCount named (⟨space, id⟩, pushed) = named :=
    if_neg fun new => other (of_decide_eq_true new.1)
  cases space with
  | temp =>
      obtain ⟨slot, e1, found, ok⟩ := bind_eq_ok_iff.1 ok
      have named' := h.slotOf found
      split at ok
      · cases ok
        exact ⟨named', Mode.noConfusion⟩
      · cases ok
  | immediate | object =>
      cases ok
      rw [constant (by decide)]
      exact ⟨h, Mode.noConfusion⟩
  | constant =>
      simp only [Emitter.resolve] at ok
      split at ok
      · cases ok
        rw [constant (by decide)]
        exact ⟨h, Mode.noConfusion⟩
      · cases ok

theorem resolveDest (h : Binds f named pushed e) {a : Address} {x : Operand}
    (ok : resolveDest f a e = .ok x e') :
    Binds f (note f.paramCount named (a, pushed)) pushed e' ∧ x.mode ≠ .stack := by
  rw [Emitter.resolveDest] at ok
  split at ok
  · exact h.resolve ok
  · cases ok

theorem emitBinary (h : Binds f named 0 e) {op : BinaryOp} {dest left right : Address}
    (ok : emitBinary f op dest left right e = .ok () e') :
    Binds f ([(left, 0), (right, 1), (dest, 0)].foldl (note f.paramCount) named) 0 e' := by
  obtain ⟨x, e1, found, ok⟩ := bind_eq_ok_iff.1 ok
  obtain ⟨h, mode⟩ := h.resolve found
  obtain ⟨_, e2, pushed, ok⟩ := bind_eq_ok_iff.1 ok
  replace h := h.emit 1 pushed (by rw [Instruction.stackDelta_unary _ mode]; rfl)
  obtain ⟨y, e3, found, ok⟩ := bind_eq_ok_iff.1 ok
  obtain ⟨h, mode⟩ := h.resolve found
  obtain ⟨_, e4, pushed, ok⟩ := bind_eq_ok_iff.1 ok
  replace h := h.emit 2 pushed (by rw [Instruction.stackDelta_unary _ mode]; rfl)
  obtain ⟨_, e5, computed, ok⟩ := bind_eq_ok_iff.1 ok
  replace h := h.emit 1 computed (by rw [Instruction.stackDelta_nonary]; rfl)
  obtain ⟨_, e6, adjusted, ok⟩ := bind_eq_ok_iff.1 ok
  replace h := h.adjust 0 adjusted rfl
  obtain ⟨z, e7, found, ok⟩ := bind_eq_ok_iff.1 ok
  obtain ⟨h, -⟩ := h.resolveDest found
  cases ok
  exact h.congr rfl rfl

theorem patch (h : Binds f named pushed e) {marker : Op} {expected : Opcode} {slot : Nat}
    (ok : patch f marker expected slot e = .ok () e') : Binds f named pushed e' := by
  obtain ⟨position, e1, taken, ok⟩ := bind_eq_ok_iff.1 ok
  have h : Binds f named pushed e1 := by
    unfold takePatch at taken
    split at taken <;> cases taken
    exact h.congr rfl rfl
  obtain ⟨_, _, got, ok⟩ := bind_eq_ok_iff.1 ok
  cases got
  dsimp only at ok
  split at ok
  · cases ok
  · split at ok
    · cases ok
    · obtain ⟨_, _, got, ok⟩ := bind_eq_ok_iff.1 ok
      cases got
      cases found : e1.code[position]? with
      | none =>
          rw [found] at ok
          cases ok
      | some i =>
          rw [found] at ok
          dsimp only at ok
          split at ok <;> cases ok
          exact h.congr rfl rfl

/-- Every step names the temporaries that it looks up, and leaves as many values pushed as were. -/
theorem emitStep (h : Binds f named 0 e) {step : Step} (ok : emitStep f step e = .ok () e') :
    Binds f (step.lookups.foldl (note f.paramCount) named) 0 e' := by
  have one {op : Opcode} (level : op.stackDelta = 0) {a : Address}
      (ok : (Emitter.resolve f a >>= fun x => Emitter.emit f (.unary op x)) e = .ok () e') :
      Binds f ([(a, 0)].foldl (note f.paramCount) named) 0 e' := by
    obtain ⟨x, e1, found, ok⟩ := bind_eq_ok_iff.1 ok
    obtain ⟨h, mode⟩ := h.resolve found
    exact h.emit 0 ok (by rw [Instruction.stackDelta_unary _ mode, level]; rfl)
  have two {op : Opcode} (level : op.stackDelta = 0) {a b : Address}
      (ok : (Emitter.resolve f a >>= fun x => Emitter.resolve f b >>= fun y =>
        Emitter.emit f (.binary op x y)) e = .ok () e') :
      Binds f ([(a, 0), (b, 0)].foldl (note f.paramCount) named) 0 e' := by
    obtain ⟨x, e1, found, ok⟩ := bind_eq_ok_iff.1 ok
    obtain ⟨h, mode⟩ := h.resolve found
    obtain ⟨y, e2, found, ok⟩ := bind_eq_ok_iff.1 ok
    obtain ⟨h, mode'⟩ := h.resolve found
    exact h.emit 0 ok (by rw [Instruction.stackDelta_binary _ mode mode', level]; rfl)
  have none {op : Opcode} (level : op.stackDelta = 0)
      (ok : Emitter.emit f (.nonary op) e = .ok () e') : Binds f named 0 e' :=
    h.emit 0 ok (by rw [Instruction.stackDelta_nonary, level]; rfl)
  unfold Emitter.emitStep at ok
  dsimp only at ok
  split at ok
  · obtain ⟨x, e1, found, ok⟩ := bind_eq_ok_iff.1 ok
    obtain ⟨h, mode⟩ := h.resolve found
    obtain ⟨y, e2, found, ok⟩ := bind_eq_ok_iff.1 ok
    obtain ⟨h, mode'⟩ := h.resolveDest found
    exact h.emit 0 ok (by rw [Instruction.stackDelta_binary _ mode' mode]; rfl)
  · obtain ⟨x, e1, found, ok⟩ := bind_eq_ok_iff.1 ok
    obtain ⟨h, mode⟩ := h.resolve found
    obtain ⟨y, e2, found, ok⟩ := bind_eq_ok_iff.1 ok
    obtain ⟨h, mode'⟩ := h.resolveDest found
    split at ok
    · obtain ⟨_, e3, moved, ok⟩ := bind_eq_ok_iff.1 ok
      replace h := h.emit 0 moved
        (by rw [Instruction.stackDelta_binary _ mode' mode]; rfl)
      exact h.emit 0 ok (by rw [Instruction.stackDelta_unary _ mode']; rfl)
    · exact h.emit 0 ok (by rw [Instruction.stackDelta_unary _ mode']; rfl)
  · cases ok
  · exact h.emitBinary ok
  · cases ok
  · exact none rfl ok
  · exact none rfl ok
  · cases ok
    exact h
  · unfold savePatch at ok
    split at ok <;> cases ok
    exact h.congr rfl rfl
  · unfold shufflePatches at ok
    split at ok <;> cases ok
    exact h.congr rfl rfl
  · exact h.patch ok
  · exact h.patch ok
  · cases ok
  · exact one rfl ok
  · exact one rfl ok
  · cases ok
  · exact two rfl ok
  · exact two rfl ok
  · exact two rfl ok
  · exact two rfl ok
  · cases ok

theorem forM (h : Binds f named 0 e) {steps : List Step}
    (ok : steps.forM (Emitter.emitStep f) e = .ok () e') :
    Binds f ((steps.flatMap Step.lookups).foldl (note f.paramCount) named) 0 e' := by
  induction steps generalizing named e with
  | nil =>
      cases ok
      exact h
  | cons step steps ih =>
      rw [forM_cons] at ok
      obtain ⟨_, e1, emitted, ok⟩ := bind_eq_ok_iff.1 ok
      rw [List.flatMap_cons, List.foldl_append]
      exact ih (h.emitStep emitted) ok

end Binds

end Emitter

/-! ### Who shares a slot -/

/-- A temporary is noted with the height at which it was looked up. -/
theorem heights_of_foldl {params : UInt16} {lookups : List (Address × Nat)}
    {named : List (Int16 × Nat)} (heights : ∀ lookup ∈ lookups, lookup.2 ≤ 1)
    (before : ∀ entry ∈ named, entry.2 ≤ 1) :
    ∀ entry ∈ lookups.foldl (note params) named, entry.2 ≤ 1 := by
  induction lookups generalizing named with
  | nil => exact before
  | cons lookup lookups ih =>
      rw [List.forall_mem_cons] at heights
      refine ih heights.2 fun entry mem => ?_
      rw [note] at mem
      split at mem
      · rcases List.mem_append.1 mem with mem | mem
        · exact before entry mem
        · rw [List.mem_singleton.1 mem]
          exact heights.1
      · exact before entry mem

theorem Step.height_le (step : Step) : ∀ lookup ∈ step.lookups, lookup.2 ≤ 1 := by
  cases step <;> simp [lookups]

namespace Graph

variable {g : Graph}

theorem height_namings_le : ∀ entry ∈ g.namings, entry.2 ≤ 1 := by
  refine heights_of_foldl (fun lookup mem => ?_) (fun _ mem => nomatch mem)
  obtain ⟨step, -, mem⟩ := List.mem_flatMap.1 mem
  exact step.height_le lookup mem

theorem conclude_of_ok {f : EmissionContext} {missing : Option (Nat × Nat)} {chunk : Chunk}
    {e e' : Emitter} (ok : conclude f missing e = .ok chunk e') : e' = e := by
  unfold conclude at ok
  split at ok
  · cases ok
  · obtain ⟨_, _, got, ok⟩ := bind_eq_ok_iff.1 ok
    cases got
    dsimp only at ok
    split at ok <;> cases ok
    rfl

/-- What the emitter knows in the end are the temporaries named. -/
theorem binds_of_emitLaidOut {f : EmissionContext} (params : f.paramCount = g.paramCount)
    {chunk : Chunk} {e : Emitter}
    (emitted : g.emitLaidOut f (.start g.paramCount) = .ok chunk e) :
    Emitter.Binds f g.namings 0 e := by
  rw [emitLaidOut_eq_forM] at emitted
  obtain ⟨_, e1, ok, concluded⟩ := bind_eq_ok_iff.1 emitted
  obtain rfl := conclude_of_ok concluded
  have steps : g.laidOut.forM (Emitter.emitStep f) = g.layOut.order.toList.forM (g.emitBlock f) :=
    forM_flatMap _ _ _
  rw [← steps] at ok
  rw [namings, ← params]
  rw [← params] at ok
  exact (Emitter.binds_start f).forM ok

/-- The register slots of a graph that is emitted, which are those that the emitter finds.
Parameters have the first ones, and the other temporaries the next ones in the order in which they
are named first, except that a right operand takes one higher. So the slots are distinct just when
no right operand is named first with a new temporary next that is none. -/
theorem registers_of_emission {constants func : Nat} {chunk : Chunk} {e : Emitter}
    (emitted : g.emitLaidOut ⟨func, g.paramCount, constants⟩ (.start g.paramCount) = .ok chunk e) :
    (∀ t slot, e.slot? g.paramCount t = some slot →
      Emitter.slotOf ⟨func, g.paramCount, constants⟩ t e = .ok slot e) ∧
    (∀ t slot, e.slot? g.paramCount t = some slot ↔
      (t.toUInt16 < g.paramCount ∧ slot = t.toUInt16.toNat) ∨
        ∃ i height, g.namings[i]? = some (t, height) ∧ slot = g.paramCount.toNat + i + height) ∧
    ((∀ t t' slot, e.slot? g.paramCount t = some slot → e.slot? g.paramCount t' = some slot →
        t = t') ↔
      ∀ i t t', g.namings[i]? = some (t, 1) → g.namings[i + 1]? ≠ some (t', 0)) := by
  obtain ⟨-, slots, once, others⟩ := binds_of_emitLaidOut (f := ⟨func, g.paramCount, constants⟩)
    rfl emitted
  dsimp only at slots others
  have keeps (t : Int16) (slot : Nat) (bound : e.slot? g.paramCount t = some slot) :
      Emitter.slotOf ⟨func, g.paramCount, constants⟩ t e = .ok slot e :=
    Emitter.slotOf_of_slot? bound
  have bound (t : Int16) (slot : Nat) : e.slot? g.paramCount t = some slot ↔
      (t.toUInt16 < g.paramCount ∧ slot = t.toUInt16.toNat) ∨
        ∃ i height, g.namings[i]? = some (t, height) ∧ slot = g.paramCount.toNat + i + height := by
    rw [Emitter.slot?]
    split
    · rename_i param
      rw [Option.some.injEq]
      refine ⟨fun same => .inl ⟨param, same.symm⟩, ?_⟩
      rintro (⟨-, same⟩ | ⟨i, height, at_, -⟩)
      · exact same.symm
      · exact absurd param (others _ (List.mem_of_getElem? at_))
    · rename_i other
      rw [slots]
      exact ⟨.inr, fun which => which.resolve_left fun param => other param.1⟩
  have place {i j : Nat} {t : Int16} {height height' : Nat} (at_ : g.namings[i]? = some (t, height))
      (at' : g.namings[j]? = some (t, height')) : i = j := by
    have names (k : Nat) : (g.namings.map Prod.fst)[k]? = g.namings[k]?.map Prod.fst :=
      List.getElem?_map
    have lt : i < (g.namings.map Prod.fst).length := by
      rw [List.length_map]
      exact (List.getElem?_eq_some_iff.1 at_).1
    refine (List.getElem?_inj lt once).1 ?_
    rw [names, names, at_, at']
    rfl
  refine ⟨keeps, bound, fun distinct i t t' right next => ?_,
    fun apart t t' slot first second => ?_⟩
  · obtain rfl := distinct t t' (g.paramCount.toNat + i + 1)
      ((bound _ _).2 (.inr ⟨i, 1, right, rfl⟩)) ((bound _ _).2 (.inr ⟨i + 1, 0, next, rfl⟩))
    have same := place right next
    omega
  · have ordered {t t' : Int16} {i j height height' : Nat}
        (at_ : g.namings[i]? = some (t, height)) (at' : g.namings[j]? = some (t', height'))
        (same : i + height = j + height') : ¬ i < j := by
      intro lt
      have le := height_namings_le _ (List.mem_of_getElem? at_)
      dsimp only at le
      obtain rfl : height = 1 := by omega
      obtain rfl : height' = 0 := by omega
      obtain rfl : j = i + 1 := by omega
      exact apart i t t' at_ at'
    rcases (bound t slot).1 first with ⟨param, rfl⟩ | ⟨i, height, at_, rfl⟩
    · rcases (bound t' _).1 second with ⟨-, same⟩ | ⟨j, height', -, same⟩
      · rw [← t.toInt16_toUInt16, UInt16.toNat_inj.1 same, t'.toInt16_toUInt16]
      · have lt := UInt16.lt_iff_toNat_lt.1 param
        omega
    · rcases (bound t' _).1 second with ⟨param, same⟩ | ⟨j, height', at', same⟩
      · have lt := UInt16.lt_iff_toNat_lt.1 param
        omega
      · have notLt := ordered at_ at' (by omega)
        have notGt := ordered at' at_ (by omega)
        obtain rfl : i = j := by omega
        rw [at_] at at'
        cases at'
        rfl

/-- The code of an emission that succeeds, and the slots that two temporaries are bound to. -/
def bindings? (r : EStateM.Result EmissionError Emitter Chunk) (params : UInt16) (t t' : Int16) :
    Option (Chunk × Option Nat × Option Nat) :=
  match r with
  | .ok chunk e => some (chunk, e.slot? params t, e.slot? params t')
  | .error _ _ => none

theorem of_bindings? {r : EStateM.Result EmissionError Emitter Chunk} {params : UInt16}
    {t t' : Int16} {chunk : Chunk} {slot slot' : Option Nat}
    (h : bindings? r params t t' = some (chunk, slot, slot')) :
    ∃ e, r = .ok chunk e ∧ e.slot? params t = slot ∧ e.slot? params t' = slot' := by
  unfold bindings? at h
  split at h <;> cases h
  exact ⟨_, rfl, rfl, rfl⟩

namespace Sharing

/-- A product, and a sum with the product. -/
def straight : Graph :=
  ⟨#[⟨#[.binary (.temp 0) (.binary .mul) (.constant 0) (.constant 1),
        .binary (.temp 1) (.binary .add) (.constant 0) (.temp 0), .actOn .ret (.temp 1)],
        none, none⟩], 0⟩

def straightChunk : Chunk :=
  #[.unary .push (.constant 0), .unary .push (.constant 1), .nonary (.binary .mul),
    .binary .mov (.register 0) .stack, .unary .push (.constant 0), .unary .push (.register 0),
    .nonary (.binary .add), .binary .mov (.register 1) .stack, .unary .ret (.register 1)]

/-- The second block adds `t1` to a constant, gives the sum to `t2` and returns `t1`. The third one
is executed before it and gives `t1` its value. -/
def turned : Graph :=
  ⟨#[⟨#[.actOnTwo .jumpElse (.constant 2) (.immediate 6)], some 1, some 2⟩,
     ⟨#[.binary (.temp 2) (.binary .add) (.constant 0) (.temp 1), .actOn .ret (.temp 1)],
        none, none⟩,
     ⟨#[.copy (.temp 1) (.constant 1), .actOn .jump (.immediate 1)], some 1, none⟩], 0⟩

def turnedChunk : Chunk :=
  #[.binary .jumpElse (.constant 2) (.immediate 6), .unary .push (.constant 0),
    .unary .push (.register 1), .nonary (.binary .add), .binary .mov (.register 1) .stack,
    .unary .ret (.register 1), .binary .mov (.register 1) (.constant 1),
    .unary .jump (.immediate 1)]

end Sharing

theorem registers_of_straight :
    ∃ e, Sharing.straight.emitLaidOut ⟨0, 0, 2⟩ (.start 0) = .ok Sharing.straightChunk e ∧
      ∀ t t' slot, e.slot? 0 t = some slot → e.slot? 0 t' = some slot → t = t' := by
  have bindings : bindings? (Sharing.straight.emitLaidOut ⟨0, 0, 2⟩ (.start 0)) 0 0 1 =
      some (Sharing.straightChunk, some 0, some 1) := by
    cbv
  have namings : Sharing.straight.namings = [(0, 0), (1, 0)] := by decide +kernel
  obtain ⟨e, emitted, -⟩ := of_bindings? bindings
  refine ⟨e, emitted, (registers_of_emission emitted).2.2.2 fun i t t' right => ?_⟩
  have mem := List.mem_of_getElem? right
  rw [namings] at mem
  simp at mem

/-- The sum is moved to the register that `t1` is in and that is returned. -/
theorem registers_are_shared :
    ∃ e, Sharing.turned.emitLaidOut ⟨0, 0, 3⟩ (.start 0) = .ok Sharing.turnedChunk e ∧
      e.slot? 0 1 = some 1 ∧ e.slot? 0 2 = some 1 := by
  have bindings : bindings? (Sharing.turned.emitLaidOut ⟨0, 0, 3⟩ (.start 0)) 0 1 2 =
      some (Sharing.turnedChunk, some 1, some 1) := by
    cbv
  exact of_bindings? bindings

end Graph

end RegisterCode

import RegisterCode.Proofs.Machine.Procedures

/-!
A procedure as a function of its arguments and of the world around the machine.
A lawful procedure does the same in two machines that agree on the arguments and
on the world (`Couples`), so what it does can be told from a machine that holds
nothing but the arguments.
-/

namespace RegisterCode

/-- The limits are what a run is stopped by, not what its program does wrong. -/
def Fault.isLimit : Fault → Bool
  | registerLimit | operandStackLimit | callDepthLimit => true
  | _ => false

/-- What a procedure may fail with: it shows in the status, and it is none of
the limits of the machine. -/
def Fault.IsOwn (fault : Fault) : Prop := fault.status ≠ .ok ∧ fault.isLimit = false

instance (fault : Fault) : Decidable fault.IsOwn := inferInstanceAs (Decidable (_ ∧ _))

/-- What outlives the frames: the object store, the input that is left, and the
output so far. -/
structure World where
  store : Store
  input : List UInt8
  output : String

namespace Machine

def world (m : Machine) : World := ⟨m.store, m.input, m.output⟩

def withWorld (m : Machine) (w : World) : Machine :=
  { m with store := w.store, input := w.input, output := w.output }

/-- A machine whose only frame holds the arguments. -/
def holding (args : List Value) (w : World) : Machine where
  registers := args.toArray
  operands := #[]
  frames := #[]
  store := w.store
  func := 0
  place := 0
  base := 0
  top := args.length
  status := .ok
  flag := false
  halted := false
  steps := 0
  input := w.input
  output := w.output

end Machine

/-- What a procedure does with the given arguments: its answer and the world
after it, or its fault. -/
def Procedure.perform (p : Procedure) (args : List Value) (w : World) :
    Except Fault Value × World :=
  match p.run (UInt16.ofNat args.length) (Machine.holding args w) with
  | .ok _ m => (.ok ((m.registers[0]?).getD .dud), m.world)
  | .error fault m => (.error fault, m.world)

namespace Machine

/-! ### Machines that agree on the arguments -/

/-- Two machines with the same world that hold the same `count` arguments. -/
structure Twin (count : UInt16) (m n : Machine) : Prop where
  world : m.world = n.world
  room : m.base + count.toNat ≤ m.top
  room' : n.base + count.toNat ≤ n.top
  top_le : m.top ≤ m.registers.size
  top_le' : n.top ≤ n.registers.size
  window : ∀ i < count.toNat,
    m.registers[m.top - count.toNat + i]? = n.registers[n.top - count.toNat + i]?

/-- The action comes to the same in machines that agree on the arguments, and
when it fails, the fault is its own. -/
def Couples {α : Type} (count : UInt16) (a : Action α) : Prop :=
  ∀ m n, Twin count m n →
    (∃ x m' n', a m = .ok x m' ∧ a n = .ok x n' ∧ Twin count m' n') ∨
      ∃ fault m' n', a m = .error fault m' ∧ a n = .error fault n' ∧ m'.world = n'.world ∧
        fault.IsOwn

variable {count : UInt16} {α β : Type}

theorem Twin.withWorld {m n : Machine} (h : Twin count m n) (w : World) :
    Twin count (m.withWorld w) (n.withWorld w) :=
  ⟨rfl, h.room, h.room', h.top_le, h.top_le', h.window⟩

namespace Couples

theorem pure (x : α) : Couples count (pure x) :=
  fun m n twin => .inl ⟨x, m, n, rfl, rfl, twin⟩

theorem throw {fault : Fault} (h : fault.IsOwn) :
    Couples count (throw fault : Action α) :=
  fun m n twin => .inr ⟨fault, m, n, rfl, rfl, twin.world, h⟩

theorem bind {a : Action α} {f : α → Action β} (ha : Couples count a)
    (hf : ∀ x, Couples count (f x)) : Couples count (a >>= f) := by
  intro m n twin
  rcases ha m n twin with ⟨x, m', n', hm, hn, twin'⟩ | ⟨fault, m', n', hm, hn, world, own⟩
  · rw [bind_of_ok hm, bind_of_ok hn]
    exact hf x m' n' twin'
  · rw [bind_of_error hm, bind_of_error hn]
    exact .inr ⟨fault, m', n', rfl, rfl, world, own⟩

theorem need {fault : Fault} (h : fault.IsOwn) (x : Option α) :
    Couples count (need fault x) := by
  cases x with
  | none => exact .throw h
  | some x => exact .pure x

theorem require {fault : Fault} (h : fault.IsOwn) (condition : Bool) :
    Couples count (require condition fault) := by
  cases condition with
  | false => exact .throw h
  | true => exact .pure ()

/-- An action that starts by looking at the world. -/
theorem of_world {a : Action α} (f : World → Action α) (same : ∀ m, a m = f m.world m)
    (h : ∀ w, Couples count (f w)) : Couples count a := by
  intro m n twin
  rw [same m, same n, ← twin.world]
  exact h m.world m n twin

/-- An action that changes the world and nothing else. -/
theorem change {a : Action α} (f : World → α × World)
    (same : ∀ m, a m = .ok (f m.world).1 (m.withWorld (f m.world).2)) : Couples count a := by
  intro m n twin
  refine .inl ⟨(f m.world).1, _, _, same m, ?_, twin.withWorld (f m.world).2⟩
  rw [same n, ← twin.world]

end Couples

theorem argument_couples (index : UInt16) : Couples count (argument count index) := by
  by_cases named : index < count
  · intro m n twin
    have lt : index.toNat < count.toNat := UInt16.lt_iff_toNat_lt.1 named
    have room := twin.room
    have room' := twin.room'
    have top_le := twin.top_le
    have top_le' := twin.top_le'
    have inside : m.top - count.toNat + index.toNat < m.registers.size := by omega
    have inside' : n.top - count.toNat + index.toNat < n.registers.size := by omega
    have same := twin.window _ lt
    rw [Array.getElem?_eq_getElem inside, Array.getElem?_eq_getElem inside',
      Option.some.injEq] at same
    rw [argument_of_lt named, bind_of_ok (firstArgument_of_le room),
      bind_of_ok (firstArgument_of_le room'), read_of_lt inside, read_of_lt inside', same]
    exact .inl ⟨_, _, _, rfl, rfl, twin⟩
  · rw [argument_of_not_lt named]
    exact .throw (by decide)

theorem answer_couples (v : Value) : Couples count (answer v count) := by
  by_cases none : count = 0
  · rw [none, answer_zero]
    exact .throw (by decide)
  · intro m n twin
    have some : count.toNat ≠ 0 := fun zero => none (UInt16.toNat_inj.1 zero)
    have room := twin.room
    have room' := twin.room'
    have top_le := twin.top_le
    have top_le' := twin.top_le'
    have inside : m.top - count.toNat < m.registers.size := by omega
    have inside' : n.top - count.toNat < n.registers.size := by omega
    rw [answer_of_ne_zero none, bind_of_ok (firstArgument_of_le room),
      bind_of_ok (firstArgument_of_le room'), write_of_lt v inside, write_of_lt v inside']
    refine .inl ⟨(), _, _, rfl, rfl, twin.world, room, room', ?_, ?_, fun i hi => ?_⟩
    · rw [Array.size_set]
      exact top_le
    · rw [Array.size_set]
      exact top_le'
    · have same := twin.window i hi
      simp only [Array.getElem?_set]
      by_cases first : i = 0
      · subst first
        simp
      · rw [if_neg (by omega), if_neg (by omega)]
        exact same

theorem arguments_go_couples (n : Nat) (vs : Array Value) :
    Couples count (arguments.go count n vs) := by
  induction n generalizing vs with
  | zero => exact .pure _
  | succ n ih => exact .bind (argument_couples _) fun v => ih (vs.push v)

theorem reference_couples (index : UInt16) : Couples count (reference count index) := by
  refine .bind (argument_couples index) fun v => ?_
  split
  · exact .pure _
  · exact .throw (by decide)

theorem sequence_couples (id : ObjectId) : Couples count (sequence id) :=
  .of_world (fun w => need .deadReference (w.store.get? id)) (fun _ => rfl)
    fun _ => .need (by decide) _

theorem lengthValue_couples (n : Nat) : Couples count (lengthValue n) :=
  .bind (.require (by decide) _) fun _ => .pure _

theorem putSequence_couples (id : ObjectId) (s : Sequence) :
    Couples count (putSequence id s) :=
  .change (fun w => ((), { w with store := w.store.put id s })) fun _ => rfl

theorem writeLine_couples (line : String) : Couples count (writeLine line) :=
  .change (fun w => ((), { w with output := w.output ++ line ++ "\n" })) fun _ => rfl

theorem createSequence_couples (s : Sequence) : Couples count (createSequence s) := by
  intro m n twin
  have store : n.store = m.store := congrArg World.store twin.world.symm
  unfold createSequence
  rw [store]
  cases created : m.store.create? s with
  | none => exact .inr ⟨_, _, _, rfl, rfl, twin.world, by decide⟩
  | some result =>
      obtain ⟨id, store'⟩ := result
      refine .inl ⟨_, _, _, rfl, rfl, ?_⟩
      have changed := twin.withWorld { m.world with store := store' }
      have same : n.withWorld { m.world with store := store' } = { n with store := store' } := by
        rw [twin.world]
        rfl
      rw [same] at changed
      exact changed

theorem readLine_couples : Couples count readLine := by
  intro m n twin
  have input : n.input = m.input := congrArg World.input twin.world.symm
  have changed := twin.withWorld { m.world with
    input := m.input.drop ((m.input.takeWhile (· ≠ 10)).length + 1) }
  have same : n.withWorld { m.world with
      input := m.input.drop ((m.input.takeWhile (· ≠ 10)).length + 1) } =
      { n with input := m.input.drop ((m.input.takeWhile (· ≠ 10)).length + 1) } := by
    rw [twin.world]
    rfl
  rw [same] at changed
  unfold readLine
  rw [input]
  dsimp only
  cases String.fromUTF8? ⟨(m.input.takeWhile (· ≠ 10)).toArray⟩ with
  | none => exact .inr ⟨_, _, _, rfl, rfl, changed.world, by decide⟩
  | some text => exact .inl ⟨_, _, _, rfl, rfl, changed⟩

end Machine

/-! ### Lawful procedures -/

/-- A procedure works through its arguments and the world, and its failures are
its own. -/
structure Procedure.Lawful (p : Procedure) : Prop where
  confined : p.IsConfined
  couples : ∀ count, Machine.Couples count (p.run count)

/-- A setting all of whose procedures are lawful. -/
def Setting.Lawful (s : Setting) : Prop :=
  ∀ p ∈ s.procedures, p.Lawful

theorem Setting.Lawful.isConfined {s : Setting} (h : s.Lawful) : s.IsConfined :=
  fun p hp => (h p hp).confined

namespace Procedure

open Machine

variable (count : UInt16)

theorem print_couples : Couples count (print.run count) := by
  refine .bind (argument_couples 0) fun v => ?_
  split
  · rename_i id
    refine .of_world (fun w => (w.store.get? id).elim (writeLine (Value.object id).text)
      fun s => writeLine s.text) (fun m => ?_) fun w => ?_
    · have store : m.store = m.world.store := rfl
      rw [bind_of_ok (get_apply m)]
      simp only [store]
      cases m.world.store.get? id <;> rfl
    · cases w.store.get? id <;> exact writeLine_couples _
  · exact writeLine_couples _

theorem promptInt_couples : Couples count (promptInt.run count) :=
  .bind readLine_couples fun _ => answer_couples _

theorem promptFloat_couples : Couples count (promptFloat.run count) :=
  .bind readLine_couples fun _ => answer_couples _

theorem lenOf_couples : Couples count (lenOf.run count) :=
  .bind (reference_couples 0) fun id =>
    .bind (sequence_couples id) fun _ =>
      .bind (lengthValue_couples _) fun v => answer_couples v

theorem makeList_couples : Couples count (makeList.run count) :=
  .bind (createSequence_couples _) fun v => answer_couples v

theorem makeTuple_couples : Couples count (makeTuple.run count) :=
  .bind (arguments_go_couples _ _) fun _ =>
    .bind (createSequence_couples _) fun v => answer_couples v

theorem listPush_couples : Couples count (listPush.run count) :=
  .bind (reference_couples 0) fun id =>
    .bind (argument_couples 1) fun _ =>
      .bind (sequence_couples id) fun _ =>
        .bind (.need (by decide) _) fun s =>
          .bind (putSequence_couples id s) fun _ =>
            .bind (lengthValue_couples _) fun v => answer_couples v

theorem listPop_couples : Couples count (listPop.run count) :=
  .bind (reference_couples 0) fun id =>
    .bind (sequence_couples id) fun _ =>
      .bind (.need (by decide) _) fun taken =>
        .bind (putSequence_couples id taken.2) fun _ => answer_couples taken.1

theorem listPopFront_couples : Couples count (listPopFront.run count) :=
  .bind (reference_couples 0) fun id =>
    .bind (sequence_couples id) fun _ =>
      .bind (.need (by decide) _) fun taken =>
        .bind (putSequence_couples id taken.2) fun _ => answer_couples taken.1

theorem listConcat_couples : Couples count (listConcat.run count) :=
  .bind (reference_couples 0) fun target =>
    .bind (reference_couples 1) fun source =>
      .bind (sequence_couples source) fun _ =>
        .bind (sequence_couples target) fun _ =>
          .bind (.need (by decide) _) fun s =>
            .bind (putSequence_couples target s) fun _ => answer_couples _

theorem listGet_couples : Couples count (listGet.run count) := by
  refine .bind (reference_couples 0) fun id => ?_
  refine .bind (argument_couples 1) fun v => ?_
  have rest : ∀ index : Nat, Couples count (do
      let s ← sequence id
      answer (← Machine.need .indexOutOfRange s.items[index]?) count) := fun index =>
    .bind (sequence_couples id) fun _ =>
      .bind (.need (by decide) _) fun v => answer_couples v
  split
  · split
    · exact .bind (.throw (by decide)) rest
    · exact .bind (.pure _) rest
  · exact .bind (.throw (by decide)) rest

theorem listFree_couples : Couples count (listFree.run count) :=
  .bind (reference_couples 0) fun id =>
    .bind (.change (fun w => ((w.store.destroy id).1, { w with store := (w.store.destroy id).2 }))
      fun _ => rfl) fun _ => answer_couples _

/-- The standard procedures are lawful. -/
theorem standard_lawful : ∀ p ∈ standard, p.Lawful := by
  intro p hp
  refine ⟨standard_isConfined p hp, fun count => ?_⟩
  simp only [standard, List.mem_toArray, List.mem_cons, List.not_mem_nil, or_false] at hp
  rcases hp with rfl | rfl | rfl | rfl | rfl | rfl | rfl | rfl | rfl | rfl | rfl | rfl
  · exact print_couples count
  · exact promptInt_couples count
  · exact promptFloat_couples count
  · exact lenOf_couples count
  · exact makeList_couples count
  · exact makeTuple_couples count
  · exact listPush_couples count
  · exact listPop_couples count
  · exact listPopFront_couples count
  · exact listConcat_couples count
  · exact listGet_couples count
  · exact listFree_couples count

/-! ### What a lawful procedure does in a frame -/

theorem holding_twin {args : List Value} {m : Machine} (small : args.length < UInt16.size)
    (room : m.base + args.length ≤ m.top) (top_le : m.top ≤ m.registers.size)
    (window : ∀ i (h : i < args.length), m.registers[m.top - args.length + i]? = some args[i]) :
    Twin (UInt16.ofNat args.length) (holding args m.world) m := by
  have count : (UInt16.ofNat args.length).toNat = args.length :=
    UInt16.toNat_ofNat_of_lt small
  refine ⟨rfl, ?_, ?_, ?_, top_le, fun i hi => ?_⟩
  · rw [count]
    exact Nat.le_of_eq (Nat.zero_add _)
  · rw [count]
    exact room
  · exact Nat.le_refl _
  · rw [count] at hi ⊢
    rw [window i hi]
    show args.toArray[args.length - args.length + i]? = _
    simp [hi]

/-- In a frame that holds the arguments on top, a lawful procedure answers what
it answers to the arguments alone, in the register of the first of them. -/
theorem Lawful.run {p : Procedure} (lawful : p.Lawful) {args : List Value} {m : Machine}
    (nonempty : args ≠ []) (small : args.length < UInt16.size)
    (room : m.base + args.length ≤ m.top) (top_le : m.top ≤ m.registers.size)
    (window : ∀ i (h : i < args.length), m.registers[m.top - args.length + i]? = some args[i]) :
    match p.perform args m.world with
    | (.ok v, w) => ∃ m', p.run (UInt16.ofNat args.length) m = .ok () m' ∧ m'.world = w ∧
        m'.registers[m.top - args.length]? = some v ∧
        Confined (UInt16.ofNat args.length) m m'
    | (.error fault, w) => fault.IsOwn ∧
        ∃ m', p.run (UInt16.ofNat args.length) m = .error fault m' ∧ m'.world = w ∧
          Confined (UInt16.ofNat args.length) m m' := by
  have count : (UInt16.ofNat args.length).toNat = args.length :=
    UInt16.toNat_ofNat_of_lt small
  have positive : 0 < args.length := List.length_pos_iff.2 nonempty
  have twin := holding_twin small room top_le window
  unfold perform
  rcases lawful.couples _ _ _ twin with
    ⟨x, n', m', hn, hm, twin'⟩ | ⟨fault, n', m', hn, hm, world, own⟩
  · rw [hn]
    have held := (lawful.confined _).ok hn
    have confined := (lawful.confined _).ok hm
    have top : m'.top = m.top := by rw [confined.same]
    have top' : n'.top = args.length := by rw [held.same]; rfl
    have size : n'.registers.size = args.length := held.size
    have first := twin'.window 0 (by rw [count]; exact positive)
    rw [count, top, top', Nat.sub_self, Nat.add_zero,
      Nat.add_zero, Array.getElem?_eq_getElem (by rw [size]; exact positive)] at first
    refine ⟨m', hm, twin'.world.symm, ?_, confined⟩
    rw [← first, Array.getElem?_eq_getElem (by rw [size]; exact positive)]
    rfl
  · rw [hn]
    exact ⟨own, m', hm, world.symm, (lawful.confined _).error hm⟩

end Procedure

end RegisterCode

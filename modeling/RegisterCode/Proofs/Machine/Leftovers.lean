import RegisterCode.Proofs.Machine.Moves
import RegisterCode.Proofs.Store.Reuse

/-!
What a standard procedure leaves behind when it fails. Nearly always it is nothing: the checks come
first, and a procedure that has read an argument has a register for its answer. The exceptions are
the two that create an object before they look for that register, and a list that becomes longer
than a number can say (`Leftover`); and a line of input is read before it is known that there is
nowhere to put it.
-/

namespace RegisterCode

/-- A new object shows in what the store charges. -/
theorem Store.ne_of_create? {s s' : Store} {object : Sequence} {id : ObjectId}
    (h : s.create? object = some (id, s')) : s' ≠ s := by
  intro same
  have charged : s'.charge = s.charge + Sequence.unit := by
    unfold create? at h
    split at h
    · cases h
    · split at h <;> cases h <;> rfl
  rw [same] at charged
  exact absurd charged (Nat.ne_of_lt (Nat.lt_add_of_pos_right (by decide)))

theorem Sequence.size_push? {s s' : Sequence} {v : Value} (h : s.push? v = some s') :
    s'.size = s.size + 1 := by
  unfold push? at h
  split at h
  · cases h
  · cases h
    exact Array.size_push v

namespace Machine

variable {α β : Type} {count : UInt16}

/-! ### Frames that hold the arguments -/

/-- The frame holds that many arguments. -/
structure Seats (count : UInt16) (m : Machine) : Prop where
  some : count ≠ 0
  room : m.base + count.toNat ≤ m.top
  top_le : m.top ≤ m.registers.size

theorem answer_of_seats {m : Machine} (h : m.Seats count) (v : Value) :
    ∃ inside : m.top - count.toNat < m.registers.size, answer v count m =
      .ok () { m with registers := m.registers.set (m.top - count.toNat) v inside } := by
  have some : count.toNat ≠ 0 := fun zero => h.some (UInt16.toNat_inj.1 zero)
  have room := h.room
  have top_le := h.top_le
  have inside : m.top - count.toNat < m.registers.size := by omega
  refine ⟨inside, ?_⟩
  rw [answer_of_ne_zero h.some, bind_of_ok (firstArgument_of_le room), write_of_lt v inside]

/-! ### Failing without a trace -/

/-- Nothing has changed. -/
def Still (m n : Machine) : Prop := n = m

instance : Composes Still := ⟨fun _ => rfl, fun h h' => h'.trans h⟩

/-- In a machine like that, the action changes nothing if it fails. -/
def Traceless (P : Machine → Prop) (a : Action α) : Prop := FailsTo P Still a

/-- A sequence that starts with an action of no effect fails there, or goes on from the very same
machine. -/
theorem still_bind {a : Action α} {f : α → Action β} {m n : Machine} {fault : Fault}
    (still : KeepsTo Still a) (failed : (a >>= f) m = .error fault n) :
    n = m ∨ ∃ x, a m = .ok x m ∧ f x m = .error fault n := by
  rcases bind_eq_error_iff.1 failed with first | ⟨x, m', ran, second⟩
  · exact .inl (still.error first)
  · obtain rfl : m' = m := still.ok ran
    exact .inr ⟨x, ran, second⟩

/-- What becomes of the store does not matter to the arguments. -/
theorem Seats.withStore {m : Machine} (h : m.Seats count) (store : Store) :
    Seats count { m with store := store } :=
  ⟨h.some, h.room, h.top_le⟩

/-- Whoever has read an argument has a register for the answer, which is that of the first. -/
theorem seats_of_argument {m n : Machine} {index : UInt16} {v : Value} (seated : m.Seated)
    (h : argument count index m = .ok v n) : m.Seats count := by
  by_cases named : index < count
  · have some : count ≠ 0 := by
      rintro rfl
      exact absurd named UInt16.not_lt_zero
    by_cases room : m.base + count.toNat ≤ m.top
    · exact ⟨some, room, seated.top_le⟩
    · rw [argument_of_lt named, bind_of_error (firstArgument_of_lt (Nat.not_le.1 room))] at h
      cases h
  · rw [argument_of_not_lt named] at h
    cases h

theorem seats_of_reference {m n : Machine} {index : UInt16} {id : ObjectId} (seated : m.Seated)
    (h : reference count index m = .ok id n) : m.Seats count := by
  obtain ⟨v, m', read, -⟩ := bind_eq_ok_iff.1 h
  exact seats_of_argument seated read

/-- Whoever has read all the arguments either had none or has a register for the answer. -/
theorem seats_of_arguments {m n : Machine} {items : Array Value} (seated : m.Seated)
    (read : arguments count m = .ok items n) : count = 0 ∧ items = #[] ∨ m.Seats count := by
  by_cases none : count = 0
  · subst none
    cases read
    exact .inl ⟨rfl, rfl⟩
  · obtain ⟨rest, more⟩ := Nat.exists_eq_succ_of_ne_zero
      fun zero : count.toNat = 0 => none (UInt16.toNat_inj.1 zero)
    rw [arguments, more] at read
    obtain ⟨v, m', first, -⟩ := bind_eq_ok_iff.1 read
    exact .inr (seats_of_argument seated first)

theorem eq_some_of_need {fault : Fault} {x : Option α} {a : α} {m n : Machine}
    (h : need fault x m = .ok a n) : x = some a := by
  cases x with
  | none => cases h
  | some b =>
      cases h
      rfl

theorem need_ok {fault : Fault} {x : Option α} {a : α} {m n : Machine}
    (h : need fault x m = .ok a n) : n = m ∧ x = some a := by
  have still : KeepsTo Still (need fault x) := need_keeps fault x
  exact ⟨still.ok h, eq_some_of_need h⟩

namespace Traceless

variable {P : Machine → Prop} {f : α → Action β}

/-- An action that changes nothing, in front of one that fails cleanly. What the first has made
sure of, the second can rely on. -/
theorem bind_of {Q : Machine → Prop} {a : Action α} (ha : KeepsTo Still a)
    (sure : ∀ m x, P m → a m = .ok x m → Q m) (hf : ∀ x, Traceless Q (f x)) :
    Traceless P (a >>= f) := by
  refine FailsTo.bind_of (.of_keeps ha) (fun m x n holds ran => ?_) hf
  obtain rfl : n = m := ha.ok ran
  exact ⟨sure n x holds ran, fun _ still => still⟩

theorem bind {a : Action α} (ha : KeepsTo Still a) (hf : ∀ x, Traceless P (f x)) :
    Traceless P (a >>= f) :=
  bind_of ha (fun _ _ holds _ => holds) hf

theorem argument (index : UInt16) {f : Value → Action β}
    (hf : ∀ v, Traceless (Seats count) (f v)) : Traceless Seated (argument count index >>= f) :=
  bind_of (argument_keeps index) (fun _ _ seated read => seats_of_argument seated read) hf

theorem reference (index : UInt16) {f : ObjectId → Action β}
    (hf : ∀ id, Traceless (Seats count) (f id)) : Traceless Seated (reference count index >>= f) :=
  bind_of (reference_keeps index) (fun _ _ seated read => seats_of_reference seated read) hf

theorem write (index : Nat) (v : Value) : Traceless P (write index v) := by
  intro m fault n _ failed
  by_cases inside : index < m.registers.size
  · cases (write_of_lt v inside).symm.trans failed
  · cases (write_of_le v (Nat.not_lt.1 inside)).symm.trans failed
    rfl

theorem answer (v : Value) : Traceless P (answer v count) :=
  .bind (require_keeps _ _) fun _ => .bind firstArgument_keeps fun first => .write first v

/-- A change of the store after which there still is a register for the answer. -/
theorem commit {a : Action α} (change : ∀ m, ∃ x store, a m = .ok x { m with store := store })
    (v : α → Value) : Traceless (Seats count) (a >>= fun x => Machine.answer (v x) count) := by
  intro m fault n seats failed
  obtain ⟨x, store, ran⟩ := change m
  obtain ⟨inside, answers⟩ := answer_of_seats (seats.withStore store) (v x)
  rw [bind_of_ok ran, answers] at failed
  cases failed

theorem putSequence (id : ObjectId) (s : Sequence) (v : Value) :
    Traceless (Seats count) (putSequence id s >>= fun _ => Machine.answer v count) :=
  commit (fun m => ⟨PUnit.unit, m.store.put id s, rfl⟩) fun _ => v

end Traceless

theorem unanswered {m n : Machine} {v : Value} {fault : Fault}
    (failed : answer v count m = .error fault n) : n = m :=
  Traceless.answer (P := fun _ => True) v m fault n trivial failed

/-! ### The procedures -/

/-- What a failing procedure can leave in the store. -/
inductive Leftover (count : UInt16) (m : Machine) : Procedure → Store → Prop where
  /-- An empty list that nothing refers to, since the reference has no register to go to. -/
  | list {id : ObjectId} {store : Store} (nowhere : count = 0 ∨ m.top < m.base + count.toNat)
      (created : m.store.create? (.list #[]) = some (id, store)) :
      Leftover count m Procedure.makeList store
  /-- An empty tuple that nothing refers to. -/
  | tuple {id : ObjectId} {store : Store} (none : count = 0)
      (created : m.store.create? (.tuple #[]) = some (id, store)) :
      Leftover count m Procedure.makeTuple store
  /-- The item that makes a list longer than a number can say. -/
  | item {id : ObjectId} {s s' : Sequence} {v : Value} (target : reference count 0 m = .ok id m)
      (new : argument count 1 m = .ok v m) (held : m.store.get? id = some s)
      (pushed : s.push? v = some s') (long : ¬ 2 * s'.size < UInt32.size) :
      Leftover count m Procedure.listPush (m.store.put id s')

/-- What becomes of a machine in which a procedure fails. -/
inductive Failure (count : UInt16) (m : Machine) : Procedure → Machine → Prop where
  | clean {p : Procedure} : Failure count m p m
  /-- A line of the input was read. -/
  | line {p : Procedure} (input : List UInt8) : Failure count m p { m with input := input }
  | leftover {p : Procedure} {store : Store} (h : Leftover count m p store) :
      Failure count m p { m with store := store }

theorem Leftover.ne {m : Machine} {p : Procedure} {store : Store} (h : Leftover count m p store) :
    store ≠ m.store := by
  cases h with
  | list nowhere created => exact Store.ne_of_create? created
  | tuple none created => exact Store.ne_of_create? created
  | @item id s s' v target new held pushed long =>
      intro same
      have put : (m.store.put id s').get? id = some s' :=
        Store.get?_put (Store.isLive_of_get? held) s'
      rw [same, held] at put
      obtain rfl : s = s' := Option.some.inj put
      exact absurd (Sequence.size_push? pushed) (Nat.ne_of_lt (Nat.lt_succ_self _))

theorem Traceless.failure {p : Procedure} {m n : Machine} {fault : Fault}
    (clean : Traceless Seated (p.run count)) (seated : m.Seated)
    (failed : p.run count m = .error fault n) : Failure count m p n := by
  rw [clean m fault n seated failed]
  exact .clean

end Machine

namespace Procedure

open Machine

variable {count : UInt16} {m n : Machine} {fault : Fault}

theorem print_traceless : Traceless Seated (print.run count) := by
  refine .argument 0 fun v => FailsTo.of_never ?_
  split
  · refine .bind .get fun m => ?_
    split <;> exact .modify _
  · exact .modify _

theorem lenOf_traceless : Traceless Seated (lenOf.run count) :=
  .reference 0 fun id => .bind (sequence_keeps id) fun _ =>
    .bind (lengthValue_keeps _) fun v => .answer v

theorem listPop_traceless : Traceless Seated (listPop.run count) :=
  .reference 0 fun id => .bind (sequence_keeps id) fun _ =>
    .bind (need_keeps _ _) fun taken => .putSequence id taken.2 taken.1

theorem listPopFront_traceless : Traceless Seated (listPopFront.run count) :=
  .reference 0 fun id => .bind (sequence_keeps id) fun _ =>
    .bind (need_keeps _ _) fun taken => .putSequence id taken.2 taken.1

theorem listConcat_traceless : Traceless Seated (listConcat.run count) :=
  .reference 0 fun target => .bind (reference_keeps 1) fun source =>
    .bind (sequence_keeps source) fun _ => .bind (sequence_keeps target) fun _ =>
      .bind (need_keeps _ _) fun s => .putSequence target s (.object target)

theorem listGet_traceless : Traceless Seated (listGet.run count) := by
  refine .reference 0 fun id => .bind (argument_keeps 1) fun v => ?_
  have rest : ∀ index : Nat, Traceless (Seats count) (do
      let s ← sequence id
      answer (← Machine.need .indexOutOfRange s.items[index]?) count) := fun index =>
    .bind (sequence_keeps id) fun s => .bind (need_keeps _ _) fun v => .answer v
  split
  · split
    · exact .bind (.throw _) rest
    · exact .bind (.pure _) rest
  · exact .bind (.throw _) rest

theorem listFree_traceless : Traceless Seated (listFree.run count) :=
  .reference 0 fun id =>
    .commit (fun m => ⟨(m.store.destroy id).1, (m.store.destroy id).2, rfl⟩) fun b => .bool b

/-- A line that was read stays read. -/
theorem failure_of_readLine {p : Procedure} {v : String → Value}
    (run : p.run count = readLine >>= fun line => answer (v line) count)
    (failed : p.run count m = .error fault n) : Failure count m p n := by
  have reads : leaves readLine m =
      { m with input := m.input.drop ((m.input.takeWhile (· ≠ 10)).length + 1) } := by
    unfold leaves readLine
    dsimp only
    cases String.fromUTF8? ⟨(m.input.takeWhile (· ≠ 10)).toArray⟩ <;> rfl
  have left : n = leaves readLine m := by
    rw [run] at failed
    rcases bind_eq_error_iff.1 failed with unread | ⟨line, m', read, answered⟩
    · exact (leaves_of_error unread).symm
    · rw [leaves_of_ok read]
      exact unanswered answered
  rw [left, reads]
  exact .line _

/-- Without a register for the reference to it, a new object stays behind. -/
theorem failure_of_create {p : Procedure} {object : Sequence}
    (lost : ∀ {id store}, ¬ m.Seats count → m.store.create? object = some (id, store) →
      Leftover count m p store)
    (failed : (createSequence object >>= fun v => answer v count) m = .error fault n) :
    Failure count m p n := by
  cases created : m.store.create? object with
  | none =>
      have refused : createSequence object m = .error .storeFull m := by
        rw [createSequence, created]
      rw [bind_of_error refused] at failed
      cases failed
      exact .clean
  | some result =>
      obtain ⟨id, store⟩ := result
      have fills : createSequence object m = .ok (.object id) { m with store := store } := by
        rw [createSequence, created]
      rw [bind_of_ok fills] at failed
      have seatless : ¬ m.Seats count := fun seats => by
        obtain ⟨inside, answers⟩ := answer_of_seats (seats.withStore store) (.object id)
        cases answers.symm.trans failed
      have same : n = { m with store := store } := unanswered failed
      rw [same]
      exact .leftover (lost seatless created)

theorem makeList_failure (seated : m.Seated) (failed : makeList.run count m = .error fault n) :
    Failure count m makeList n := by
  refine failure_of_create (fun seatless created => .list ?_ created) failed
  by_contra placed
  rw [not_or, Nat.not_lt] at placed
  exact seatless ⟨placed.1, placed.2, seated.top_le⟩

theorem makeTuple_failure (seated : m.Seated) (failed : makeTuple.run count m = .error fault n) :
    Failure count m makeTuple n := by
  rcases still_bind arguments_keeps failed with rfl | ⟨items, read, failed⟩
  · exact .clean
  · refine failure_of_create (fun seatless created => ?_) failed
    rcases seats_of_arguments seated read with ⟨none, rfl⟩ | seats
    · exact .tuple none created
    · exact absurd seats seatless

theorem listPush_failure (seated : m.Seated) (failed : listPush.run count m = .error fault n) :
    Failure count m listPush n := by
  rcases still_bind (reference_keeps 0) failed with rfl | ⟨id, target, failed⟩
  · exact .clean
  rcases still_bind (argument_keeps 1) failed with rfl | ⟨v, new, failed⟩
  · exact .clean
  rcases still_bind (sequence_keeps id) failed with rfl | ⟨s, found, failed⟩
  · exact .clean
  rcases still_bind (need_keeps _ _) failed with rfl | ⟨s', allowed, failed⟩
  · exact .clean
  have held : m.store.get? id = some s := eq_some_of_need found
  have pushed : s.push? v = some s' := eq_some_of_need allowed
  have seats := (seats_of_reference seated target).withStore (m.store.put id s')
  have puts : putSequence id s' m = .ok () { m with store := m.store.put id s' } := rfl
  rw [bind_of_ok puts] at failed
  by_cases short : 2 * s'.size < UInt32.size
  · have fits : lengthValue s'.size { m with store := m.store.put id s' } =
        .ok (.int (Int32.ofNat s'.size)) { m with store := m.store.put id s' } := by
      simp [lengthValue, Machine.require, short]
    rw [bind_of_ok fits] at failed
    obtain ⟨inside, answers⟩ := answer_of_seats seats (.int (Int32.ofNat s'.size))
    cases answers.symm.trans failed
  · have refused : lengthValue s'.size { m with store := m.store.put id s' } =
        .error .lengthLimit { m with store := m.store.put id s' } := by
      simp [lengthValue, Machine.require, short, bind_apply]
    rw [bind_of_error refused] at failed
    cases failed
    exact .leftover (.item target new held pushed short)

/-- However a standard procedure fails, this is all that becomes of the machine. -/
theorem standard_failure {p : Procedure} (known : p ∈ standard) (seated : m.Seated)
    (failed : p.run count m = .error fault n) : Failure count m p n := by
  simp only [standard, List.mem_toArray, List.mem_cons, List.not_mem_nil, or_false] at known
  rcases known with rfl | rfl | rfl | rfl | rfl | rfl | rfl | rfl | rfl | rfl | rfl | rfl
  · exact print_traceless.failure seated failed
  · exact failure_of_readLine rfl failed
  · exact failure_of_readLine rfl failed
  · exact lenOf_traceless.failure seated failed
  · exact makeList_failure seated failed
  · exact makeTuple_failure seated failed
  · exact listPush_failure seated failed
  · exact listPop_traceless.failure seated failed
  · exact listPopFront_traceless.failure seated failed
  · exact listConcat_traceless.failure seated failed
  · exact listGet_traceless.failure seated failed
  · exact listFree_traceless.failure seated failed

end Procedure

namespace Machine

/-- Let a standard procedure fail in a machine that a host brought about, be it in the middle of
an instruction. Then the store is as it was, unless one of the leftovers is in it: an empty list
or tuple without a register for the reference, or one item too many to be counted. -/
theorem store_of_failure (limits : Limits) (program : Program) (input : List UInt8)
    (moves : List Move) (parts : List Part) {p : Procedure} (known : p ∈ Procedure.standard)
    (count : UInt16) :
    let s : Setting := ⟨limits, program, Procedure.standard⟩
    let m := ((initial limits input).afterMoves s moves).afterParts s parts
    ∀ fault n, p.run count m = .error fault n →
      (n.store ≠ m.store ↔ Leftover count m p n.store) := by
  intro s m fault n failed
  have framed : Framed limits m :=
    afterParts_framed (s := s)
      (afterMoves_framed (s := s) standard_isConfined (.initial limits input) moves) parts
  refine ⟨fun changed => ?_, Leftover.ne⟩
  cases Procedure.standard_failure known framed.seated failed with
  | clean => exact absurd rfl changed
  | line input => exact absurd rfl changed
  | leftover left => exact left

/-- A program that pushes a number and calls the procedure with that many arguments. -/
def asking (id argc : Int16) : Setting where
  limits := ⟨4, 4, 2, none⟩
  program := {
    chunks := #[
      #[.make .push [.immediate 5], .make .nativeCall [.immediate id, .immediate argc]]]
    constants := #[]
    entry := some 0 }
  procedures := Procedure.standard

theorem store_of_number :
    let s := asking 7 1
    let m := (initial s.limits []).afterMoves s [.begin, .step]
    Procedure.listPop.run 1 m = .error .notAReference m ∧
      (m.store ≠ m.store ↔ Leftover 1 m Procedure.listPop m.store) :=
  ⟨rfl, store_of_failure (asking 7 1).limits (asking 7 1).program [] [.begin, .step] []
    (by simp [Procedure.standard]) 1 _ _ rfl⟩

/-- Asked for a list without an argument to put it in the place of, the machine notices only when
the list has been made. -/
theorem store_of_lost_list :
    let s := asking 4 0
    let m := (initial s.limits []).afterMoves s [.begin, .step]
    ∃ n, Procedure.makeList.run 0 m = .error .noResultRegister n ∧ n.store ≠ m.store :=
  ⟨_, rfl, by decide⟩

end Machine

end RegisterCode

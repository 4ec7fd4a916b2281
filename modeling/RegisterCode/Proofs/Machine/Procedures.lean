import RegisterCode.Proofs.Machine.Frame

/-!
The standard procedures work through their arguments, the store, the input and
the output, and through nothing else.
-/

namespace RegisterCode

namespace Machine

variable {count : UInt16} {R : Machine → Machine → Prop} [Composes R]

theorem firstArgument_keeps  :
    KeepsTo R (firstArgument count) := by
  refine .get_bind fun m => ?_
  split
  · exact KeepsTo.throw _ m
  · exact KeepsTo.pure _ m

theorem argument_keeps (index : UInt16) :
    KeepsTo R (argument count index) :=
  .bind (require_keeps _ _) fun _ =>
    .bind (firstArgument_keeps) fun _ => read_keeps _

theorem arguments_go_keeps (n : Nat) (vs : Array Value) :
    KeepsTo R (arguments.go count n vs) := by
  induction n generalizing vs with
  | zero => exact .pure _
  | succ n ih => exact .bind (argument_keeps _) fun v => ih (vs.push v)

theorem arguments_keeps : KeepsTo R (arguments count) :=
  arguments_go_keeps _ _

theorem reference_keeps (index : UInt16) :
    KeepsTo R (reference count index) := by
  refine .bind (argument_keeps index) fun v => ?_
  split
  · exact .pure _
  · exact .throw _

theorem sequence_keeps  (id : ObjectId) :
    KeepsTo R (sequence id) :=
  .get_bind fun m => need_keeps _ _ m

theorem lengthValue_keeps (n : Nat) : KeepsTo R (lengthValue n) :=
  .bind (require_keeps _ _) fun _ => .pure _

theorem firstArgument_of_le {m : Machine} (h : m.base + count.toNat ≤ m.top) :
    firstArgument count m = .ok (m.top - count.toNat) m := by
  rw [firstArgument, bind_of_ok (get_apply m), if_neg (Nat.not_lt.2 h)]
  rfl

theorem firstArgument_of_lt {m : Machine} (h : m.top < m.base + count.toNat) :
    firstArgument count m = .error .missingArguments m := by
  rw [firstArgument, bind_of_ok (get_apply m), if_pos h]
  rfl

theorem argument_of_lt {index : UInt16} (named : index < count) :
    argument count index = firstArgument count >>= fun first => read (first + index.toNat) := by
  simp [argument, require, named]

theorem argument_of_not_lt {index : UInt16} (unnamed : ¬ index < count) :
    argument count index = throw .noSuchArgument := by
  simp only [argument, require, unnamed, decide_false]
  rfl

theorem answer_of_ne_zero (some : count ≠ 0) (v : Value) :
    answer v count = firstArgument count >>= fun first => write first v := by
  simp [answer, require, some]

theorem answer_zero (v : Value) : answer v 0 = throw .noResultRegister := rfl

theorem write_confined {m : Machine} (v : Value) (h : m.base + count.toNat ≤ m.top) :
    Confined count m (leaves (write (m.top - count.toNat) v) m) := by
  by_cases inside : m.top - count.toNat < m.registers.size
  · rw [leaves_of_ok (write_of_lt v inside)]
    refine ⟨rfl, Array.size_set inside, fun i hi => ?_⟩
    show (m.registers.set _ v)[i]? = _
    rw [Array.getElem?_set_ne]
    omega
  · rw [leaves_of_error (write_of_le v (Nat.not_lt.1 inside))]
    exact .refl m

theorem answer_confined (v : Value) : KeepsTo (Confined count) (answer v count) := by
  refine .bind (require_keeps _ _) fun _ m => ?_
  by_cases h : m.base + count.toNat ≤ m.top
  · rw [leaves, bind_of_ok (firstArgument_of_le h)]
    exact write_confined v h
  · rw [leaves, bind_of_error (firstArgument_of_lt (Nat.not_le.1 h))]
    exact .refl m

/-- Only the store, the input and the output change. -/
theorem confined_of_world (m : Machine) (store : Store) (input : List UInt8)
    (output : String) :
    Confined count m { m with store := store, input := input, output := output } :=
  ⟨rfl, rfl, fun _ _ => rfl⟩

theorem readLine_confined : KeepsTo (Confined count) readLine := by
  intro m
  have read : Confined count m { m with
      input := m.input.drop ((m.input.takeWhile (· ≠ 10)).length + 1) } :=
    confined_of_world m m.store _ m.output
  unfold leaves readLine
  dsimp only
  cases String.fromUTF8? ⟨(m.input.takeWhile (· ≠ 10)).toArray⟩ <;> exact read

theorem writeLine_confined (line : String) : KeepsTo (Confined count) (writeLine line) :=
  .modify fun m => confined_of_world m m.store m.input _

theorem putSequence_confined (id : ObjectId) (s : Sequence) :
    KeepsTo (Confined count) (putSequence id s) :=
  .modify fun m => confined_of_world m _ m.input m.output

theorem createSequence_confined (s : Sequence) :
    KeepsTo (Confined count) (createSequence s) := by
  intro m
  unfold leaves createSequence
  cases m.store.create? s with
  | none => exact .refl m
  | some created => exact confined_of_world m created.2 m.input m.output

end Machine

namespace Procedure

open Machine

/-- An action that changes nothing in front of a confined one. -/
theorem confined_bind {α β : Type} {count : UInt16} {a : Action α} {f : α → Action β}
    (ha : KeepsTo (Confined count) a) (hf : ∀ x, KeepsTo (Confined count) (f x)) :
    KeepsTo (Confined count) (a >>= f) :=
  .bind ha hf

theorem print_isConfined : print.IsConfined := by
  refine fun count => confined_bind (argument_keeps 0) fun v => ?_
  split
  · refine .get_bind fun m => ?_
    split
    · exact writeLine_confined _ m
    · exact writeLine_confined _ m
  · exact writeLine_confined _

theorem promptInt_isConfined : promptInt.IsConfined := fun _ =>
  confined_bind readLine_confined fun _ => answer_confined _

theorem promptFloat_isConfined : promptFloat.IsConfined := fun _ =>
  confined_bind readLine_confined fun _ => answer_confined _

theorem lenOf_isConfined : lenOf.IsConfined := fun _ =>
  confined_bind (reference_keeps 0) fun id =>
    confined_bind (sequence_keeps id) fun _ =>
      confined_bind (lengthValue_keeps _) fun v => answer_confined v

theorem makeList_isConfined : makeList.IsConfined := fun _ =>
  confined_bind (createSequence_confined _) fun v => answer_confined v

theorem makeTuple_isConfined : makeTuple.IsConfined := fun _ =>
  confined_bind (arguments_keeps) fun _ =>
    confined_bind (createSequence_confined _) fun v => answer_confined v

theorem listPush_isConfined : listPush.IsConfined := fun _ =>
  confined_bind (reference_keeps 0) fun id =>
    confined_bind (argument_keeps 1) fun _ =>
      confined_bind (sequence_keeps id) fun _ =>
        confined_bind (need_keeps _ _) fun s =>
          confined_bind (putSequence_confined id s) fun _ =>
            confined_bind (lengthValue_keeps _) fun v => answer_confined v

theorem listPop_isConfined : listPop.IsConfined := fun _ =>
  confined_bind (reference_keeps 0) fun id =>
    confined_bind (sequence_keeps id) fun _ =>
      confined_bind (need_keeps _ _) fun taken =>
        confined_bind (putSequence_confined id taken.2) fun _ => answer_confined taken.1

theorem listPopFront_isConfined : listPopFront.IsConfined := fun _ =>
  confined_bind (reference_keeps 0) fun id =>
    confined_bind (sequence_keeps id) fun _ =>
      confined_bind (need_keeps _ _) fun taken =>
        confined_bind (putSequence_confined id taken.2) fun _ => answer_confined taken.1

theorem listConcat_isConfined : listConcat.IsConfined := fun _ =>
  confined_bind (reference_keeps 0) fun target =>
    confined_bind (reference_keeps 1) fun source =>
      confined_bind (sequence_keeps source) fun _ =>
        confined_bind (sequence_keeps target) fun _ =>
          confined_bind (need_keeps _ _) fun s =>
            confined_bind (putSequence_confined target s) fun _ => answer_confined _

theorem listGet_isConfined : listGet.IsConfined := by
  refine fun count => confined_bind (reference_keeps 0) fun id => ?_
  refine confined_bind (argument_keeps 1) fun v => ?_
  have rest : ∀ index : Nat, KeepsTo (Confined count) (do
      let s ← sequence id
      answer (← need .indexOutOfRange s.items[index]?) count) := fun index =>
    confined_bind (sequence_keeps id) fun _ =>
      confined_bind (need_keeps _ _) fun v => answer_confined v
  split
  · split
    · exact confined_bind (.throw _) rest
    · exact confined_bind (.pure _) rest
  · exact confined_bind (.throw _) rest

theorem listFree_isConfined : listFree.IsConfined := fun _ =>
  confined_bind (reference_keeps 0) fun id =>
    confined_bind (fun m => confined_of_world m (m.store.destroy id).2 m.input m.output)
      fun _ => answer_confined _

end Procedure

/-- The standard procedures are confined. -/
theorem standard_isConfined : ∀ p ∈ Procedure.standard, p.IsConfined := by
  intro p hp
  simp only [Procedure.standard, List.mem_toArray, List.mem_cons, List.not_mem_nil,
    or_false] at hp
  rcases hp with rfl | rfl | rfl | rfl | rfl | rfl | rfl | rfl | rfl | rfl | rfl | rfl
  · exact Procedure.print_isConfined
  · exact Procedure.promptInt_isConfined
  · exact Procedure.promptFloat_isConfined
  · exact Procedure.lenOf_isConfined
  · exact Procedure.makeList_isConfined
  · exact Procedure.makeTuple_isConfined
  · exact Procedure.listPush_isConfined
  · exact Procedure.listPop_isConfined
  · exact Procedure.listPopFront_isConfined
  · exact Procedure.listConcat_isConfined
  · exact Procedure.listGet_isConfined
  · exact Procedure.listFree_isConfined

end RegisterCode

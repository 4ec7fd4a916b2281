import RegisterCode.Proofs.Machine.Leftovers
import RegisterCode.Proofs.Store.Objects

/-!
What the procedures on sequences do when they succeed. Each of them takes its arguments from the
topmost registers, changes the store and writes its answer (`Replied`). The change is first told of
the store that the machine holds (`Acted`), then of the objects that a reader sees in it (`Effect`):
lists of items under numbers, of which at most one is bound anew.
-/

namespace RegisterCode

namespace Machine

/-- The topmost registers, which a procedure takes for its arguments. -/
def topmost (m : Machine) (count : Nat) : List Value :=
  (m.registers.toList.take m.top).drop (m.top - count)

/-- The machine after a procedure has answered and left the store in some state. -/
def replied (m : Machine) (count : UInt16) (v : Value) (store : Store) : Machine :=
  { m with registers := m.registers.setIfInBounds (m.top - count.toNat) v, store := store }

section

variable {count index : UInt16} {m n : Machine} {v : Value} {k : Nat}

theorem getElem?_topmost (inside : m.top - count.toNat + k < m.top) :
    (m.topmost count.toNat)[k]? = m.registers[m.top - count.toNat + k]? := by
  rw [topmost, List.getElem?_drop, List.getElem?_take_of_lt inside, Array.getElem?_toList]

theorem topmost_succ (inside : k < m.top) (here : m.registers[m.top - (k + 1)]? = some v) :
    m.topmost (k + 1) = v :: m.topmost k := by
  have lower : m.top - (k + 1) < m.top := by omega
  have first : (m.registers.toList.take m.top)[m.top - (k + 1)]? = some v := by
    rw [List.getElem?_take_of_lt lower, Array.getElem?_toList, here]
  obtain ⟨bound, value⟩ := List.getElem?_eq_some_iff.1 first
  have next : m.top - (k + 1) + 1 = m.top - k := by omega
  rw [topmost, List.drop_eq_getElem_cons bound, value, next, topmost]

/-! ### The parts of a procedure -/

theorem read_ok (h : read k m = .ok v n) : n = m ∧ m.registers[k]? = some v :=
  need_ok h

/-- Whoever has read an argument has found it among the topmost registers. -/
theorem argument_ok (h : argument count index m = .ok v n) :
    n = m ∧ index < count ∧ m.base + count.toNat ≤ m.top ∧
      m.registers[m.top - count.toNat + index.toNat]? = some v := by
  by_cases named : index < count
  · by_cases room : m.base + count.toNat ≤ m.top
    · rw [argument_of_lt named, bind_of_ok (firstArgument_of_le room)] at h
      obtain ⟨same, here⟩ := read_ok h
      exact ⟨same, named, room, here⟩
    · rw [argument_of_lt named, bind_of_error (firstArgument_of_lt (Nat.not_le.1 room))] at h
      cases h
  · rw [argument_of_not_lt named] at h
    cases h

theorem topmost_of_argument (h : argument count index m = .ok v n) :
    n = m ∧ (m.topmost count.toNat)[index.toNat]? = some v := by
  obtain ⟨same, named, room, here⟩ := argument_ok h
  have named : index.toNat < count.toNat := UInt16.lt_iff_toNat_lt.1 named
  rw [getElem?_topmost (by omega)]
  exact ⟨same, here⟩

theorem topmost_of_reference {id : ObjectId} (h : reference count index m = .ok id n) :
    n = m ∧ (m.topmost count.toNat)[index.toNat]? = some (.object id) := by
  obtain ⟨v, m₁, taken, rest⟩ := bind_eq_ok_iff.1 h
  obtain ⟨rfl, here⟩ := topmost_of_argument taken
  cases v with
  | object other =>
      cases rest
      exact ⟨rfl, here⟩
  | _ => cases rest

theorem topmost_of_arguments_go {items items' : Array Value} (few : k ≤ count.toNat)
    (h : arguments.go count k items m = .ok items' n) :
    n = m ∧ items'.toList = items.toList ++ m.topmost k := by
  -- What is left to read are the topmost `k` registers, of which the lowest comes next.
  induction k generalizing items with
  | zero =>
      cases h
      refine ⟨rfl, ?_⟩
      rw [topmost, Nat.sub_zero, List.drop_eq_nil_of_le (List.length_take_le _ _), List.append_nil]
  | succ k ih =>
      obtain ⟨v, m₁, taken, rest⟩ := bind_eq_ok_iff.1 h
      obtain ⟨rfl, -, room, here⟩ := argument_ok taken
      obtain ⟨same, list⟩ := ih (Nat.le_of_succ_le few) rest
      have small := count.toNat_lt
      have offset : (UInt16.ofNat (k + 1)).toNat = k + 1 :=
        UInt16.toNat_ofNat_of_lt' (Nat.lt_of_le_of_lt few small)
      have position : m₁.top - count.toNat + (count - UInt16.ofNat (k + 1)).toNat =
          m₁.top - (k + 1) := by
        have le : UInt16.ofNat (k + 1) ≤ count := UInt16.le_iff_toNat_le.2 (by rwa [offset])
        rw [UInt16.toNat_sub_of_le _ _ le, offset]
        omega
      rw [position] at here
      refine ⟨same, ?_⟩
      rw [list, topmost_succ (by omega) here, Array.toList_push, List.append_assoc]
      rfl

theorem topmost_of_arguments {items : Array Value} (h : arguments count m = .ok items n) :
    n = m ∧ items.toList = m.topmost count.toNat :=
  topmost_of_arguments_go (Nat.le_refl _) h

theorem sequence_ok {id : ObjectId} {x : Sequence} (h : sequence id m = .ok x n) :
    n = m ∧ m.store.get? id = some x :=
  need_ok h

/-- A length that is a value is what it says. -/
theorem lengthValue_ok (h : lengthValue k m = .ok v n) :
    n = m ∧ ∃ number : Int32, v = .int number ∧ number.toInt = k := by
  have still : KeepsTo Still (lengthValue k) := lengthValue_keeps k
  refine ⟨still.ok h, ?_⟩
  by_cases short : 2 * k < UInt32.size
  · rw [lengthValue, require, decide_eq_true short] at h
    cases h
    have small : k < 2 ^ 31 := by
      rw [UInt32.size] at short
      omega
    exact ⟨_, rfl, Int32.toInt_ofNat_of_lt small⟩
  · rw [lengthValue, require, decide_eq_false short] at h
    cases h

/-- A procedure that has answered has written the register of its first argument. -/
theorem answer_ok (seated : m.Seated) {store : Store}
    (h : answer v count { m with store := store } = .ok () n) :
    m.Seats count ∧ n = m.replied count v store := by
  by_cases none : count = 0
  · rw [none, answer_zero] at h
    cases h
  · by_cases room : m.base + count.toNat ≤ m.top
    · have seats : m.Seats count := ⟨none, room, seated.top_le⟩
      obtain ⟨inside, answers⟩ := answer_of_seats (seats.withStore store) v
      cases answers.symm.trans h
      refine ⟨seats, ?_⟩
      rw [replied, Array.setIfInBounds, dif_pos inside]
    · have lost : firstArgument count { m with store := store } =
          .error .missingArguments { m with store := store } :=
        firstArgument_of_lt (Nat.not_le.1 room)
      rw [answer_of_ne_zero none, bind_of_error lost] at h
      cases h

end

end Machine

namespace Procedure

open Machine

/-! ### What the procedures do to the store -/

/-- The standard procedures that work on sequences. -/
def onSequences : List Procedure :=
  [lenOf, makeList, makeTuple, listPush, listPop, listPopFront, listConcat, listGet, listFree]

/-- What a procedure on sequences does to the store when it succeeds, with the arguments that it has
and the answer that it gives. -/
inductive Acted (args : List Value) (s : Store) : Procedure → Value → Store → Prop where
  | lenOf {id : ObjectId} {x : Sequence} {size : Int32} (list : args[0]? = some (.object id))
      (held : s.get? id = some x) (counts : size.toInt = x.size) : Acted args s lenOf (.int size) s
  | makeList {id : ObjectId} {s' : Store} (made : s.create? (.list #[]) = some (id, s')) :
      Acted args s makeList (.object id) s'
  | makeTuple {id : ObjectId} {s' : Store}
      (made : s.create? (.tuple args.toArray) = some (id, s')) :
      Acted args s makeTuple (.object id) s'
  | listPush {id : ObjectId} {v : Value} {x x' : Sequence} {size : Int32}
      (list : args[0]? = some (.object id)) (item : args[1]? = some v)
      (held : s.get? id = some x) (pushed : x.push? v = some x') (counts : size.toInt = x'.size) :
      Acted args s listPush (.int size) (s.put id x')
  | listPop {id : ObjectId} {v : Value} {x x' : Sequence} (list : args[0]? = some (.object id))
      (held : s.get? id = some x) (popped : x.pop? = some (v, x')) :
      Acted args s listPop v (s.put id x')
  | listPopFront {id : ObjectId} {v : Value} {x x' : Sequence}
      (list : args[0]? = some (.object id)) (held : s.get? id = some x)
      (popped : x.popFront? = some (v, x')) : Acted args s listPopFront v (s.put id x')
  | listConcat {target source : ObjectId} {x x' y : Sequence}
      (list : args[0]? = some (.object target)) (other : args[1]? = some (.object source))
      (held : s.get? target = some x) (more : s.get? source = some y)
      (appended : x.append? y.items = some x') :
      Acted args s listConcat (.object target) (s.put target x')
  | listGet {id : ObjectId} {index : Int32} {v : Value} {x : Sequence}
      (list : args[0]? = some (.object id)) (place : args[1]? = some (.int index))
      (natural : ¬ index < 0) (held : s.get? id = some x)
      (item : x.items[index.toNatClampNeg]? = some v) : Acted args s listGet v s
  | listFree {id : ObjectId} (list : args[0]? = some (.object id)) :
      Acted args s listFree (.bool (s.destroy id).1) (s.destroy id).2

/-- A procedure on sequences has succeeded: the frame held its arguments, it has done its work in
the store, and it has written its answer. -/
def Replied (count : UInt16) (m n : Machine) (p : Procedure) : Prop :=
  ∃ v store, m.Seats count ∧ n = m.replied count v store ∧
    Acted (m.topmost count.toNat) m.store p v store

variable {count : UInt16} {m n : Machine}

theorem lenOf_ok (seated : m.Seated) (h : lenOf.run count m = .ok () n) :
    Replied count m n lenOf := by
  obtain ⟨id, m₁, taken, h⟩ := bind_eq_ok_iff.1 h
  obtain ⟨x, m₂, found, h⟩ := bind_eq_ok_iff.1 h
  obtain ⟨v, m₃, sized, answers⟩ := bind_eq_ok_iff.1 h
  obtain ⟨rfl, list⟩ := topmost_of_reference taken
  obtain ⟨rfl, held⟩ := sequence_ok found
  obtain ⟨rfl, size, rfl, counts⟩ := lengthValue_ok sized
  obtain ⟨seats, rfl⟩ := answer_ok seated answers
  exact ⟨_, _, seats, rfl, .lenOf list held counts⟩

theorem createSequence_ok {x : Sequence} {v : Value} (h : createSequence x m = .ok v n) :
    ∃ id store, m.store.create? x = some (id, store) ∧ v = .object id ∧
      n = { m with store := store } := by
  rw [createSequence] at h
  split at h
  next id store made =>
    cases h
    exact ⟨id, store, made, rfl, rfl⟩
  next => cases h

theorem makeList_ok (seated : m.Seated) (h : makeList.run count m = .ok () n) :
    Replied count m n makeList := by
  obtain ⟨v, m₁, creates, answers⟩ := bind_eq_ok_iff.1 h
  obtain ⟨id, store, made, rfl, rfl⟩ := createSequence_ok creates
  obtain ⟨seats, rfl⟩ := answer_ok seated answers
  exact ⟨_, _, seats, rfl, .makeList made⟩

theorem makeTuple_ok (seated : m.Seated) (h : makeTuple.run count m = .ok () n) :
    Replied count m n makeTuple := by
  obtain ⟨items, m₁, taken, h⟩ := bind_eq_ok_iff.1 h
  obtain ⟨v, m₂, creates, answers⟩ := bind_eq_ok_iff.1 h
  obtain ⟨rfl, list⟩ := topmost_of_arguments taken
  obtain ⟨id, store, made, rfl, rfl⟩ := createSequence_ok creates
  obtain ⟨seats, rfl⟩ := answer_ok seated answers
  refine ⟨_, _, seats, rfl, .makeTuple ?_⟩
  rw [← list, Array.toArray_toList]
  exact made

theorem listPush_ok (seated : m.Seated) (h : listPush.run count m = .ok () n) :
    Replied count m n listPush := by
  obtain ⟨id, m₁, taken, h⟩ := bind_eq_ok_iff.1 h
  obtain ⟨v, m₂, taken', h⟩ := bind_eq_ok_iff.1 h
  obtain ⟨x, m₃, found, h⟩ := bind_eq_ok_iff.1 h
  obtain ⟨x', m₄, allowed, h⟩ := bind_eq_ok_iff.1 h
  obtain ⟨_, m₅, puts, h⟩ := bind_eq_ok_iff.1 h
  obtain ⟨v', m₆, sized, answers⟩ := bind_eq_ok_iff.1 h
  obtain ⟨rfl, list⟩ := topmost_of_reference taken
  obtain ⟨rfl, item⟩ := topmost_of_argument taken'
  obtain ⟨rfl, held⟩ := sequence_ok found
  obtain ⟨rfl, pushed⟩ := need_ok allowed
  cases puts
  obtain ⟨rfl, size, rfl, counts⟩ := lengthValue_ok sized
  obtain ⟨seats, rfl⟩ := answer_ok seated answers
  exact ⟨_, _, seats, rfl, .listPush list item held pushed counts⟩

/-- Taking an item off a sequence, in either way. -/
theorem take_ok (take? : Sequence → Option (Value × Sequence)) (seated : m.Seated)
    (h : (do
      let id ← reference count 0
      let s ← sequence id
      let (v, s) ← Machine.need .unchangeable (take? s)
      putSequence id s
      answer v count) m = .ok () n) :
    ∃ id x v x', (m.topmost count.toNat)[0]? = some (.object id) ∧ m.store.get? id = some x ∧
      take? x = some (v, x') ∧ m.Seats count ∧ n = m.replied count v (m.store.put id x') := by
  obtain ⟨id, m₁, taken, h⟩ := bind_eq_ok_iff.1 h
  obtain ⟨x, m₂, found, h⟩ := bind_eq_ok_iff.1 h
  obtain ⟨⟨v, x'⟩, m₃, allowed, h⟩ := bind_eq_ok_iff.1 h
  obtain ⟨_, m₄, puts, answers⟩ := bind_eq_ok_iff.1 h
  obtain ⟨rfl, list⟩ := topmost_of_reference taken
  obtain ⟨rfl, held⟩ := sequence_ok found
  obtain ⟨rfl, popped⟩ := need_ok allowed
  cases puts
  obtain ⟨seats, rfl⟩ := answer_ok seated answers
  exact ⟨id, x, v, x', list, held, popped, seats, rfl⟩

theorem listPop_ok (seated : m.Seated) (h : listPop.run count m = .ok () n) :
    Replied count m n listPop := by
  obtain ⟨id, x, v, x', list, held, popped, seats, rfl⟩ := take_ok Sequence.pop? seated h
  exact ⟨_, _, seats, rfl, .listPop list held popped⟩

theorem listPopFront_ok (seated : m.Seated) (h : listPopFront.run count m = .ok () n) :
    Replied count m n listPopFront := by
  obtain ⟨id, x, v, x', list, held, popped, seats, rfl⟩ :=
    take_ok Sequence.popFront? seated h
  exact ⟨_, _, seats, rfl, .listPopFront list held popped⟩

theorem listConcat_ok (seated : m.Seated) (h : listConcat.run count m = .ok () n) :
    Replied count m n listConcat := by
  obtain ⟨target, m₁, taken, h⟩ := bind_eq_ok_iff.1 h
  obtain ⟨source, m₂, taken', h⟩ := bind_eq_ok_iff.1 h
  obtain ⟨y, m₃, found, h⟩ := bind_eq_ok_iff.1 h
  obtain ⟨x, m₄, found', h⟩ := bind_eq_ok_iff.1 h
  obtain ⟨x', m₅, allowed, h⟩ := bind_eq_ok_iff.1 h
  obtain ⟨_, m₆, puts, answers⟩ := bind_eq_ok_iff.1 h
  obtain ⟨rfl, list⟩ := topmost_of_reference taken
  obtain ⟨rfl, other⟩ := topmost_of_reference taken'
  obtain ⟨rfl, more⟩ := sequence_ok found
  obtain ⟨rfl, held⟩ := sequence_ok found'
  obtain ⟨rfl, appended⟩ := need_ok allowed
  cases puts
  obtain ⟨seats, rfl⟩ := answer_ok seated answers
  exact ⟨_, _, seats, rfl, .listConcat list other held more appended⟩

theorem listGet_ok (seated : m.Seated) (h : listGet.run count m = .ok () n) :
    Replied count m n listGet := by
  obtain ⟨id, m₁, taken, h⟩ := bind_eq_ok_iff.1 h
  obtain ⟨w, m₂, taken', rest⟩ := bind_eq_ok_iff.1 h
  obtain ⟨rfl, list⟩ := topmost_of_reference taken
  obtain ⟨rfl, place⟩ := topmost_of_argument taken'
  cases w with
  | int index =>
      dsimp only at rest
      split at rest
      next => cases rest
      next natural =>
        rw [pure_bind] at rest
        obtain ⟨x, m₃, found, gets⟩ := bind_eq_ok_iff.1 rest
        obtain ⟨v, m₄, inside, answers⟩ := bind_eq_ok_iff.1 gets
        obtain ⟨rfl, held⟩ := sequence_ok found
        obtain ⟨rfl, item⟩ := need_ok inside
        obtain ⟨seats, rfl⟩ := answer_ok seated answers
        exact ⟨_, _, seats, rfl, .listGet list place natural held item⟩
  | _ => cases rest

theorem listFree_ok (seated : m.Seated) (h : listFree.run count m = .ok () n) :
    Replied count m n listFree := by
  obtain ⟨id, m₁, taken, h⟩ := bind_eq_ok_iff.1 h
  obtain ⟨destroyed, m₂, destroys, answers⟩ := bind_eq_ok_iff.1 h
  obtain ⟨rfl, list⟩ := topmost_of_reference taken
  cases destroys
  obtain ⟨seats, rfl⟩ := answer_ok seated answers
  exact ⟨_, _, seats, rfl, .listFree list⟩

theorem replied_of_ok {p : Procedure} (known : p ∈ onSequences) (seated : m.Seated)
    (h : p.run count m = .ok () n) : Replied count m n p := by
  simp only [onSequences, List.mem_cons, List.not_mem_nil, or_false] at known
  rcases known with rfl | rfl | rfl | rfl | rfl | rfl | rfl | rfl | rfl
  · exact lenOf_ok seated h
  · exact makeList_ok seated h
  · exact makeTuple_ok seated h
  · exact listPush_ok seated h
  · exact listPop_ok seated h
  · exact listPopFront_ok seated h
  · exact listConcat_ok seated h
  · exact listGet_ok seated h
  · exact listFree_ok seated h

/-! ### What the procedures do to the objects -/

/-- What a procedure on sequences does to the objects when it succeeds, with the arguments that it
has and the answer that it gives. -/
inductive Effect (args : List Value) (h : Objects) : Procedure → Value → Objects → Prop where
  | lenOf {id : ObjectId} {items : List Value} {frozen : Bool} {size : Int32}
      (list : args[0]? = some (.object id)) (held : h id = some (items, frozen))
      (counts : size.toInt = items.length) : Effect args h lenOf (.int size) h
  | makeList {id : ObjectId} (dead : h id = none) :
      Effect args h makeList (.object id) (Function.update h id (some ([], false)))
  | makeTuple {id : ObjectId} (dead : h id = none) :
      Effect args h makeTuple (.object id) (Function.update h id (some (args, true)))
  | listPush {id : ObjectId} {v : Value} {items : List Value} {size : Int32}
      (list : args[0]? = some (.object id)) (item : args[1]? = some v)
      (held : h id = some (items, false)) (counts : size.toInt = items.length + 1) :
      Effect args h listPush (.int size) (Function.update h id (some (items ++ [v], false)))
  | listPop {id : ObjectId} {v : Value} {items : List Value}
      (list : args[0]? = some (.object id)) (held : h id = some (items ++ [v], false)) :
      Effect args h listPop v (Function.update h id (some (items, false)))
  | listPopFront {id : ObjectId} {v : Value} {items : List Value}
      (list : args[0]? = some (.object id)) (held : h id = some (v :: items, false)) :
      Effect args h listPopFront v (Function.update h id (some (items, false)))
  /-- The two lists may be the same. A tuple has nothing appended to it. -/
  | listConcat {target source : ObjectId} {items more : List Value} {frozen frozen' : Bool}
      (list : args[0]? = some (.object target)) (other : args[1]? = some (.object source))
      (held : h target = some (items, frozen)) (held' : h source = some (more, frozen'))
      (loose : frozen = true → more = []) :
      Effect args h listConcat (.object target)
        (Function.update h target (some (items ++ more, frozen)))
  | listGet {id : ObjectId} {index : Int32} {v : Value} {items : List Value} {frozen : Bool}
      (list : args[0]? = some (.object id)) (place : args[1]? = some (.int index))
      (held : h id = some (items, frozen)) (natural : 0 ≤ index.toInt)
      (item : items[index.toInt.toNat]? = some v) : Effect args h listGet v h
  | listFree {id : ObjectId} (list : args[0]? = some (.object id)) :
      Effect args h listFree (.bool (h id).isSome) (Function.update h id none)

section

variable {args : List Value} {s s' : Store} {p : Procedure} {v : Value} {x x' : Sequence}

theorem items_of_push? (h : x.push? v = some x') :
    x.frozen = false ∧ x'.items.toList = x.items.toList ++ [v] ∧ x'.frozen = false := by
  obtain ⟨items, frozen, refs⟩ := x
  cases frozen with
  | true => cases h
  | false =>
      cases h
      exact ⟨rfl, Array.toList_push, rfl⟩

theorem items_of_pop? (h : x.pop? = some (v, x')) :
    x.frozen = false ∧ x.items.toList = x'.items.toList ++ [v] ∧ x'.frozen = false := by
  obtain ⟨items, frozen, refs⟩ := x
  cases frozen with
  | true => cases h
  | false =>
      obtain ⟨w, last, same⟩ := Option.map_eq_some_iff.1 h
      cases same
      refine ⟨rfl, ?_, rfl⟩
      rw [Array.toList_pop]
      exact (List.dropLast_append_getLast? v (by rwa [Array.getLast?_toList])).symm

theorem items_of_popFront? (h : x.popFront? = some (v, x')) :
    x.frozen = false ∧ x.items.toList = v :: x'.items.toList ∧ x'.frozen = false := by
  obtain ⟨⟨items⟩, frozen, refs⟩ := x
  cases frozen with
  | true => cases h
  | false =>
      obtain ⟨w, first, same⟩ := Option.map_eq_some_iff.1 h
      cases same
      cases items with
      | nil => cases first
      | cons w rest =>
          cases first
          refine ⟨rfl, ?_, rfl⟩
          simp

theorem items_of_append? {items : Array Value} (h : x.append? items = some x') :
    x'.items.toList = x.items.toList ++ items.toList ∧ x'.frozen = x.frozen ∧
      (x.frozen = true → items = #[]) := by
  rw [Sequence.append?] at h
  split at h
  next => cases h
  next fits =>
    cases h
    refine ⟨Array.toList_append, rfl, fun frozen => ?_⟩
    simpa [frozen] using fits

theorem eq_of_append? {items : Array Value} (h : x.append? items = some x')
    (frozen : x.frozen = true) : x' = x := by
  obtain rfl : items = #[] := (items_of_append? h).2.2 frozen
  obtain ⟨list, same, refs⟩ := x
  cases (frozen : same = true)
  cases h
  rw [Array.append_empty]

theorem Acted.effect (orderly : s.Orderly) (h : Acted args s p v s') :
    Effect args s.objects p v s'.objects := by
  cases h with
  | lenOf list held counts => exact .lenOf list (Store.objects_eq_some held) counts
  | makeList made =>
      rw [Store.objects_create orderly made]
      exact .makeList (Store.objects_eq_none_iff.2 (Store.isLive_of_create? orderly made))
  | makeTuple made =>
      rw [Store.objects_create orderly made]
      exact .makeTuple (Store.objects_eq_none_iff.2 (Store.isLive_of_create? orderly made))
  | listPush list item held pushed counts =>
      obtain ⟨loose, items, loose'⟩ := items_of_push? pushed
      rw [Store.objects_put (Store.isLive_of_get? held), items, loose']
      refine .listPush list item ?_ ?_
      · rw [Store.objects_eq_some held, loose]
      · rw [counts, Sequence.size_push? pushed]
        rfl
  | listPop list held popped =>
      obtain ⟨loose, items, loose'⟩ := items_of_pop? popped
      rw [Store.objects_put (Store.isLive_of_get? held), loose']
      refine .listPop list ?_
      rw [Store.objects_eq_some held, loose, items]
  | listPopFront list held popped =>
      obtain ⟨loose, items, loose'⟩ := items_of_popFront? popped
      rw [Store.objects_put (Store.isLive_of_get? held), loose']
      refine .listPopFront list ?_
      rw [Store.objects_eq_some held, loose, items]
  | listConcat list other held more appended =>
      obtain ⟨items, same, loose⟩ := items_of_append? appended
      rw [Store.objects_put (Store.isLive_of_get? held), items, same]
      refine .listConcat list other (Store.objects_eq_some held) (Store.objects_eq_some more) ?_
      intro frozen
      rw [loose frozen]
  | listGet list place natural held item =>
      refine .listGet list place (Store.objects_eq_some held) ?_ ?_
      · exact Int.not_lt.1 fun below => natural (Int32.lt_iff_toInt_lt.2 below)
      · rw [Array.getElem?_toList]
        exact item
  | @listFree id list =>
      have live : (s.destroy id).1 = (s.objects id).isSome := by
        rw [Store.isSome_objects, Store.destroy]
        cases s.isLive id <;> rfl
      rw [live, Store.objects_destroy]
      exact .listFree list

theorem Acted.changed (h : Acted args s p v s') : s.Changed s' := by
  cases h with
  | lenOf => exact .same
  | makeList made => exact .created made
  | makeTuple made => exact .created made
  | listPush list item held pushed =>
      refine .replaced held fun frozen => ?_
      cases frozen.symm.trans (items_of_push? pushed).1
  | listPop list held popped =>
      refine .replaced held fun frozen => ?_
      cases frozen.symm.trans (items_of_pop? popped).1
  | listPopFront list held popped =>
      refine .replaced held fun frozen => ?_
      cases frozen.symm.trans (items_of_popFront? popped).1
  | listConcat list other held more appended =>
      exact .replaced held fun frozen => eq_of_append? appended frozen
  | listGet => exact .same
  | listFree => exact .destroyed _

end

end Procedure

end RegisterCode

import RegisterCode.Proofs.Machine.Sequences

/-!
What the standard procedures fail with when the frame holds their arguments: nothing but what
they object to themselves (`Objection`), each of them in its own way (`Procedure.standard_objects`).
-/

namespace RegisterCode

/-- What a procedure finds when it is called. -/
structure Given where
  args : List Value
  store : Store
  input : List UInt8

def Machine.given (m : Machine) (count : UInt16) : Given :=
  ⟨m.topmost count.toNat, m.store, m.input⟩

namespace Procedure

/-- The standard procedures with two arguments. -/
def ofTwo : List Procedure := [listPush, listConcat, listGet]

/-- Which arguments of the standard procedures have to be references. -/
def referring : List (Procedure × Nat) :=
  [(lenOf, 0), (listPush, 0), (listPop, 0), (listPopFront, 0), (listConcat, 0), (listConcat, 1),
    (listGet, 0), (listFree, 0)]

/-- The standard procedures that need what is referred to. Nothing has to be there to be freed. -/
def exacting : List Procedure := [lenOf, listPush, listPop, listPopFront, listConcat, listGet]

end Procedure

open Procedure in
/-- What a standard procedure looks out for, and what is amiss then. -/
inductive Objection (given : Given) : Procedure → Fault → Prop where
  | few {p : Procedure} (asks : p ∈ ofTwo) (few : given.args.length < 2) :
      Objection given p .noSuchArgument
  | stranger {p : Procedure} {k : Nat} {v : Value} (asks : (p, k) ∈ referring)
      (passed : given.args[k]? = some v) (other : ∀ id, v ≠ .object id) :
      Objection given p .notAReference
  | dead {p : Procedure} {k : Nat} {id : ObjectId} (asks : (p, k) ∈ referring)
      (needs : p ∈ exacting) (passed : given.args[k]? = some (.object id))
      (gone : given.store.get? id = none) : Objection given p .deadReference
  /-- A tuple keeps its length. -/
  | frozen {p : Procedure} {id : ObjectId} {x : Sequence}
      (asks : p ∈ [listPush, listPop, listPopFront, listConcat])
      (passed : given.args[0]? = some (.object id)) (held : given.store.get? id = some x)
      (frozen : x.frozen = true) : Objection given p .unchangeable
  /-- Nothing is left to be taken off. -/
  | drained {p : Procedure} {id : ObjectId} {x : Sequence} (asks : p ∈ [listPop, listPopFront])
      (passed : given.args[0]? = some (.object id)) (held : given.store.get? id = some x)
      (empty : x.size = 0) : Objection given p .unchangeable
  | index {v : Value} (passed : given.args[1]? = some v) (other : ∀ n, v ≠ .int n) :
      Objection given listGet .badIndex
  | negative {n : Int32} (passed : given.args[1]? = some (.int n)) (below : n < 0) :
      Objection given listGet .indexOutOfRange
  | beyond {n : Int32} {id : ObjectId} {x : Sequence}
      (list : given.args[0]? = some (.object id)) (held : given.store.get? id = some x)
      (passed : given.args[1]? = some (.int n)) (beyond : x.size ≤ n.toNatClampNeg) :
      Objection given listGet .indexOutOfRange
  /-- No number says how many items there are. -/
  | length {id : ObjectId} {x : Sequence} (passed : given.args[0]? = some (.object id))
      (held : given.store.get? id = some x) (long : UInt32.size ≤ 2 * x.size) :
      Objection given lenOf .lengthLimit
  /-- No number says how many items there are with one more. -/
  | longer {id : ObjectId} {x : Sequence} (passed : given.args[0]? = some (.object id))
      (held : given.store.get? id = some x) (long : UInt32.size ≤ 2 * (x.size + 1)) :
      Objection given listPush .lengthLimit
  | full {p : Procedure} (asks : p ∈ [makeList, makeTuple]) (full : given.store.isFull = true) :
      Objection given p .storeFull
  | line {p : Procedure} (asks : p ∈ [promptInt, promptFloat])
      (bytes : String.fromUTF8? ⟨(given.input.takeWhile (· ≠ 10)).toArray⟩ = none) :
      Objection given p .unreadableInput

theorem Sequence.pop?_eq_none {x : Sequence} (h : x.pop? = none) :
    x.frozen = true ∨ x.size = 0 := by
  cases frozen : x.frozen with
  | true => exact .inl rfl
  | false =>
      refine .inr ?_
      simpa [pop?, frozen, size] using h

theorem Sequence.popFront?_eq_none {x : Sequence} (h : x.popFront? = none) :
    x.frozen = true ∨ x.size = 0 := by
  cases frozen : x.frozen with
  | true => exact .inl rfl
  | false =>
      refine .inr ?_
      simpa [popFront?, frozen, size] using h

theorem Store.isFull_of_create? {s : Store} {x : Sequence} (h : s.create? x = none) :
    s.isFull = true := by
  unfold create? at h
  split at h
  · assumption
  · split at h <;> cases h

/-- No objection gives another status than one of these. -/
theorem Objection.status {given : Given} {p : Procedure} {fault : Fault}
    (h : Objection given p fault) :
    fault.status = .argError ∨ fault.status = .memError ∨ fault.status = .anyError := by
  cases h with
  | few | stranger | frozen | drained | index => exact .inl rfl
  | dead | negative | beyond | length | longer | full => exact .inr (.inl rfl)
  | line => exact .inr (.inr rfl)

namespace Machine

variable {α β : Type} {count : UInt16} {m n : Machine} {p : Procedure} {given : Given}

/-- If the action fails, then for something that the procedure objects to. -/
def Objects (given : Given) (p : Procedure) (a : Action α) (m : Machine) : Prop :=
  ∀ fault n, a m = .error fault n → Objection given p fault

theorem length_topmost (h : m.Seats count) : (m.topmost count.toNat).length = count.toNat := by
  have room := h.room
  have top_le := h.top_le
  rw [topmost, List.length_drop, List.length_take, Array.length_toList]
  omega

theorem argument_of_seats (h : m.Seats count) {index : UInt16} (lt : index < count) :
    ∃ v, argument count index m = .ok v m := by
  have lt' : index.toNat < count.toNat := UInt16.lt_iff_toNat_lt.1 lt
  have room := h.room
  have top_le := h.top_le
  have inside : m.top - count.toNat + index.toNat < m.registers.size := by omega
  rw [argument_of_lt lt, bind_of_ok (firstArgument_of_le room), read_of_lt inside]
  exact ⟨_, rfl⟩

theorem arguments_go_of_seats (h : m.Seats count) {k : Nat} (few : k ≤ count.toNat)
    (items : Array Value) : ∃ items', arguments.go count k items m = .ok items' m := by
  induction k generalizing items with
  | zero => exact ⟨items, rfl⟩
  | succ k ih =>
      have small := count.toNat_lt
      have offset : (UInt16.ofNat (k + 1)).toNat = k + 1 :=
        UInt16.toNat_ofNat_of_lt' (Nat.lt_of_le_of_lt few small)
      have le : UInt16.ofNat (k + 1) ≤ count := UInt16.le_iff_toNat_le.2 (by rwa [offset])
      have lt : count - UInt16.ofNat (k + 1) < count := by
        rw [UInt16.lt_iff_toNat_lt, UInt16.toNat_sub_of_le _ _ le, offset]
        omega
      obtain ⟨v, taken⟩ := argument_of_seats h lt
      rw [arguments.go, bind_of_ok taken]
      exact ih (Nat.le_of_succ_le few) _

namespace Objects

theorem bind {a : Action α} {f : α → Action β} (ha : Objects given p a m)
    (hf : ∀ x n, a m = .ok x n → Objects given p (f x) n) : Objects given p (a >>= f) m := by
  intro fault n failed
  rcases bind_eq_error_iff.1 failed with first | ⟨x, m', ran, second⟩
  · exact ha fault n first
  · exact hf x m' ran fault n second

theorem of_ok {a : Action α} {x : α} (ran : a m = .ok x n) : Objects given p a m := by
  intro fault n' failed
  cases ran.symm.trans failed

theorem answer (h : m.Seats count) (v : Value) : Objects given p (answer v count) m := by
  obtain ⟨inside, answers⟩ := answer_of_seats h v
  exact of_ok answers

theorem need {fault : Fault} {x : Option α} {f : α → Action β}
    (lack : x = none → Objection given p fault) (next : ∀ a, x = some a → Objects given p (f a) m) :
    Objects given p (need fault x >>= f) m := by
  cases x with
  | none =>
      intro fault' n failed
      cases failed
      exact lack rfl
  | some a => exact next a rfl

theorem lengthValue {k : Nat} {f : Value → Action β}
    (long : UInt32.size ≤ 2 * k → Objection given p .lengthLimit)
    (next : ∀ v, Objects given p (f v) m) : Objects given p (lengthValue k >>= f) m := by
  refine bind (fun fault n failed => ?_) fun v n sized => ?_
  · by_cases short : 2 * k < UInt32.size
    · rw [Machine.lengthValue, require, decide_eq_true short] at failed
      cases failed
    · rw [Machine.lengthValue, require, decide_eq_false short] at failed
      cases failed
      exact long (Nat.not_lt.1 short)
  · obtain ⟨rfl, -⟩ := lengthValue_ok sized
    exact next v

/-- An argument is there, or it is the second of one. -/
theorem argument (h : m.Seats count) {index : UInt16} {f : Value → Action β}
    (asks : index = 0 ∨ index = 1 ∧ p ∈ Procedure.ofTwo)
    (next : ∀ v, (m.topmost count.toNat)[index.toNat]? = some v →
      Objects (m.given count) p (f v) m) :
    Objects (m.given count) p (argument count index >>= f) m := by
  have positive : 0 < count := UInt16.pos_iff_ne_zero.2 h.some
  by_cases named : index < count
  · obtain ⟨v, taken⟩ := argument_of_seats h named
    rw [Objects, bind_of_ok taken]
    exact next v (topmost_of_argument taken).2
  · obtain ⟨rfl, two⟩ := asks.resolve_left fun first => named (first ▸ positive)
    rw [Objects, argument_of_not_lt named]
    intro fault n failed
    cases failed
    refine .few two ?_
    rw [given, length_topmost h]
    exact Nat.lt_succ_of_le (UInt16.le_iff_toNat_le.1 (UInt16.not_lt.1 named))

theorem reference (h : m.Seats count) {index : UInt16} {f : ObjectId → Action β}
    (asks : index = 0 ∨ index = 1 ∧ p ∈ Procedure.ofTwo)
    (refers : (p, index.toNat) ∈ Procedure.referring)
    (next : ∀ id, (m.topmost count.toNat)[index.toNat]? = some (.object id) →
      Objects (m.given count) p (f id) m) :
    Objects (m.given count) p (reference count index >>= f) m := by
  rw [Machine.reference, bind_assoc]
  refine argument h asks fun v passed => ?_
  cases v with
  | object id => exact next id passed
  | _ =>
      intro fault n failed
      cases failed
      exact .stranger refers passed fun id same => by cases same

theorem sequence {k : Nat} {id : ObjectId} {f : Sequence → Action β}
    (refers : (p, k) ∈ Procedure.referring) (needs : p ∈ Procedure.exacting)
    (passed : (m.topmost count.toNat)[k]? = some (.object id))
    (next : ∀ x, m.store.get? id = some x → Objects (m.given count) p (f x) m) :
    Objects (m.given count) p (sequence id >>= f) m := by
  rw [Machine.sequence, bind_assoc]
  exact need (fun gone => .dead refers needs passed gone) next

end Objects

end Machine

namespace Procedure

open Machine

/-- In a frame that holds its arguments, the procedure fails only for what it objects to. -/
def Objects (p : Procedure) : Prop :=
  ∀ (count : UInt16) (m : Machine), m.Seats count →
    Machine.Objects (m.given count) p (p.run count) m

theorem print_objects : print.Objects := by
  intro count m seats
  refine .argument seats (.inl rfl) fun v _ => ?_
  cases v with
  | object id =>
      intro fault n failed
      cases held : m.store.get? id with
      | none =>
          simp only [bind_apply, get_apply, held] at failed
          cases failed
      | some x =>
          simp only [bind_apply, get_apply, held] at failed
          cases failed
  | _ => exact .of_ok rfl

/-- Reading a line and answering what is made of it. -/
theorem prompt_objects {p : Procedure} (asks : p ∈ [promptInt, promptFloat])
    (reading : String → Value)
    (run : ∀ count, p.run count = readLine >>= fun line => answer (reading line) count) :
    p.Objects := by
  intro count m seats
  rw [run]
  refine .bind (fun fault n failed => ?_) fun line n read => ?_
  · rw [readLine] at failed
    split at failed
    · cases failed
    · rename_i bytes
      cases failed
      exact .line asks bytes
  · have placed : n.Seats count := by
      rw [readLine] at read
      split at read
      · cases read
        exact ⟨seats.some, seats.room, seats.top_le⟩
      · cases read
    exact .answer placed _

theorem lenOf_objects : lenOf.Objects := by
  intro count m seats
  refine .reference seats (.inl rfl) (by simp [referring]) fun id passed => ?_
  refine .sequence (by simp [referring]) (by simp [exacting]) passed fun x held => ?_
  exact .lengthValue (fun long => .length passed held long) fun v => .answer seats v

/-- Making a sequence and answering the reference to it. -/
theorem create_objects {p : Procedure} (asks : p ∈ [makeList, makeTuple]) {count : UInt16}
    {m : Machine} (seats : m.Seats count) (x : Sequence) :
    Machine.Objects (m.given count) p (createSequence x >>= fun v => answer v count) m := by
  refine .bind (fun fault n failed => ?_) fun v n made => ?_
  · rw [createSequence] at failed
    split at failed
    · cases failed
    · rename_i refused
      cases failed
      exact .full asks (Store.isFull_of_create? refused)
  · obtain ⟨id, store, -, -, rfl⟩ := createSequence_ok made
    exact .answer (seats.withStore store) v

theorem makeList_objects : makeList.Objects :=
  fun _ _ seats => create_objects List.mem_cons_self seats _

theorem makeTuple_objects : makeTuple.Objects := by
  intro count m seats
  obtain ⟨items, taken⟩ := arguments_go_of_seats seats (Nat.le_refl _) #[]
  refine .bind (.of_ok taken) fun items' n read => ?_
  cases taken.symm.trans read
  exact create_objects (List.mem_cons_of_mem _ List.mem_cons_self) seats _

theorem listPush_objects : listPush.Objects := by
  intro count m seats
  refine .reference seats (.inl rfl) (by simp [referring]) fun id passed => ?_
  refine .argument seats (.inr ⟨rfl, by simp [ofTwo]⟩) fun v _ => ?_
  refine .sequence (by simp [referring]) (by simp [exacting]) passed fun x held => ?_
  refine .need (fun refused => .frozen (by simp) passed held ?_) fun x' pushed => ?_
  · cases frozen : x.frozen with
    | true => rfl
    | false => simp [Sequence.push?, frozen] at refused
  · refine .bind (.of_ok rfl) fun _ n put => ?_
    cases put
    rw [Sequence.size_push? pushed]
    exact .lengthValue (fun long => .longer passed held long) fun v =>
      .answer (seats.withStore _) v

/-- Taking an item off a sequence, in either way. -/
theorem take_objects {p : Procedure} (asks : p ∈ [listPop, listPopFront])
    (take? : Sequence → Option (Value × Sequence))
    (refuses : ∀ x, take? x = none → x.frozen = true ∨ x.size = 0)
    (run : ∀ count, p.run count = do
      let id ← reference count 0
      let s ← sequence id
      let (v, s) ← Machine.need .unchangeable (take? s)
      putSequence id s
      answer v count) : p.Objects := by
  intro count m seats
  obtain ⟨refers, needs⟩ : (p, 0) ∈ referring ∧ p ∈ exacting := by
    simp only [List.mem_cons, List.not_mem_nil, or_false] at asks
    rcases asks with rfl | rfl <;> simp [referring, exacting]
  rw [run]
  refine .reference seats (.inl rfl) refers fun id passed => ?_
  refine .sequence refers needs passed fun x held => ?_
  refine .need (fun refused => ?_) fun taken _ => ?_
  · have changes := List.mem_cons_of_mem listPush (List.mem_append_left [listConcat] asks)
    rcases refuses x refused with frozen | empty
    · exact .frozen changes passed held frozen
    · exact .drained asks passed held empty
  · exact .bind (.of_ok rfl) fun _ n put => by
      cases put
      exact .answer (seats.withStore _) _

theorem listConcat_objects : listConcat.Objects := by
  intro count m seats
  refine .reference seats (.inl rfl) (by simp [referring]) fun target passed => ?_
  refine .reference seats (.inr ⟨rfl, by simp [ofTwo]⟩) (by simp [referring]) fun source other => ?_
  refine .sequence (by simp [referring]) (by simp [exacting]) other fun y _ => ?_
  refine .sequence (by simp [referring]) (by simp [exacting]) passed fun x held => ?_
  refine .need (fun refused => .frozen (by simp) passed held ?_) fun x' _ => ?_
  · cases frozen : x.frozen with
    | true => rfl
    | false => simp [Sequence.append?, frozen] at refused
  · refine .bind (.of_ok rfl) fun _ n put => ?_
    cases put
    exact .answer (seats.withStore _) _

theorem listGet_objects : listGet.Objects := by
  intro count m seats
  refine .reference seats (.inl rfl) (by simp [referring]) fun id list => ?_
  refine .argument seats (.inr ⟨rfl, by simp [ofTwo]⟩) fun v passed => ?_
  cases v with
  | int index =>
      dsimp only
      split
      · rename_i below
        intro fault n failed
        cases failed
        exact .negative passed below
      · refine .sequence (by simp [referring]) (by simp [exacting]) list fun x held => ?_
        refine .need (fun none => ?_) fun v _ => .answer seats v
        exact .beyond list held passed (Array.getElem?_eq_none_iff.1 none)
  | _ =>
      intro fault n failed
      cases failed
      exact .index passed fun n same => by cases same

theorem listFree_objects : listFree.Objects := by
  intro count m seats
  refine .reference seats (.inl rfl) (by simp [referring]) fun id _ => ?_
  refine .bind (.of_ok rfl) fun destroyed n destroys => ?_
  cases destroys
  exact .answer (seats.withStore _) _

/-- The standard procedures fail with what they check themselves. -/
theorem standard_objects : ∀ p ∈ standard, p.Objects := by
  intro p hp
  simp only [standard, List.mem_toArray, List.mem_cons, List.not_mem_nil, or_false] at hp
  rcases hp with rfl | rfl | rfl | rfl | rfl | rfl | rfl | rfl | rfl | rfl | rfl | rfl
  · exact print_objects
  · exact prompt_objects List.mem_cons_self _ fun _ => rfl
  · exact prompt_objects (List.mem_cons_of_mem _ List.mem_cons_self) _ fun _ => rfl
  · exact lenOf_objects
  · exact makeList_objects
  · exact makeTuple_objects
  · exact listPush_objects
  · exact take_objects List.mem_cons_self Sequence.pop?
      (fun _ => Sequence.pop?_eq_none) fun _ => rfl
  · exact take_objects (List.mem_cons_of_mem _ List.mem_cons_self) Sequence.popFront?
      (fun _ => Sequence.popFront?_eq_none) fun _ => rfl
  · exact listConcat_objects
  · exact listGet_objects
  · exact listFree_objects

end Procedure

end RegisterCode

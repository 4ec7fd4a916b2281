import Mathlib.Data.List.Induction
import RegisterCode.Proofs.Store.Reuse

/-!
What the count of an object counts. While an object is in its slot (`Lasts`), the count is the number
of retains less the number of releases since it was created, and neither the ends of the word nor
the floor at zero ever come into it: the release that would leave nothing takes the object away.
-/

namespace RegisterCode

theorem Sequence.Change.refs_eq {x y : Sequence} {change : Sequence.Change}
    (h : change.apply? x = some y) : y.refs = x.refs := by
  cases change with
  | push v =>
      have pushed : x.push? v = some y := h
      rw [Sequence.push?, Option.ite_none_left_eq_some] at pushed
      exact (Option.some.inj pushed.2) ▸ rfl
  | pop =>
      obtain ⟨⟨v, z⟩, popped, rfl⟩ := Option.map_eq_some_iff.1 h
      rw [Sequence.pop?, Option.ite_none_left_eq_some] at popped
      obtain ⟨w, -, same⟩ := Option.map_eq_some_iff.1 popped.2
      exact (Prod.mk.inj same).2 ▸ rfl
  | popFront =>
      obtain ⟨⟨v, z⟩, popped, rfl⟩ := Option.map_eq_some_iff.1 h
      rw [Sequence.popFront?, Option.ite_none_left_eq_some] at popped
      obtain ⟨w, -, same⟩ := Option.map_eq_some_iff.1 popped.2
      exact (Prod.mk.inj same).2 ▸ rfl
  | set index v =>
      have replaced : x.set? index v = some y := h
      rw [Sequence.set?, Option.dite_none_right_eq_some] at replaced
      obtain ⟨inside, same⟩ := replaced
      exact (Option.some.inj same) ▸ rfl
  | freeze => exact (Option.some.inj h) ▸ rfl

namespace Store

/-! ### One operation -/

theorem count_of_target {operation : Operation} (counted : Operation)
    (apart : operation.target? ≠ counted.target?) : [operation].count counted = 0 := by
  rw [List.count_singleton, if_neg]
  intro same
  exact apart (congrArg Operation.target? (beq_iff_eq.1 same))

/-- The counts of an object that is in its slot: its own, the releases, and the retains. Without a
retain there was no release, and with some there were more retains than releases. -/
structure Counted (x : Sequence) (releases retains : Nat) : Prop where
  balance : x.refs.toNat + releases = retains
  fewer : releases < max 1 retains

namespace Counted

variable {s : Store} {id : ObjectId} {x : Sequence} {releases retains : Nat}

theorem retained (h : Counted x releases retains) (few : retains + 1 < UInt32.size) :
    Counted { x with refs := x.refs + 1 } releases (retains + 1) := by
  have balance := h.balance
  have fewer := h.fewer
  have count : (x.refs + 1).toNat = x.refs.toNat + 1 := by
    rw [UInt32.toNat_add, UInt32.toNat_one]
    refine Nat.mod_eq_of_lt (Nat.lt_of_le_of_lt ?_ few)
    omega
  constructor
  · rw [count]
    omega
  · omega

theorem released (h : Counted x releases retains) (more : 1 < x.refs.toNat) :
    Counted { x with refs := x.refs - 1 } (releases + 1) retains := by
  have balance := h.balance
  have count : (x.refs - 1).toNat = x.refs.toNat - 1 :=
    UInt32.toNat_sub_of_le x.refs 1 (UInt32.le_iff_toNat_le.2 (Nat.le_of_lt more))
  constructor
  · rw [count]
    omega
  · omega

/-- The release that empties the slot is the one that brings the releases to the number of retains,
or the first one if there was no retain. -/
theorem isLive_release (h : Counted x releases retains) (here : s.get? id = some x) :
    (s.release id).2.isLive id = false ↔ releases + 1 = max 1 retains := by
  have balance := h.balance
  have fewer := h.fewer
  rcases Nat.lt_or_ge 1 x.refs.toNat with more | last
  · rw [release_of_more here more, isLive_put, isLive_of_get? here]
    simp only [Bool.true_eq_false, false_iff]
    omega
  · rw [release_of_last here last]
    simp only [isLive_destroy, true_iff]
    omega

/-- An operation after which the object is still there counts as what it is: a retain of this
object, a release of it, or neither. -/
theorem perform (h : Counted x releases retains) (orderly : s.Orderly)
    (here : s.get? id = some x) {operation : Operation}
    (live : (s.perform operation).isLive id = true)
    (few : retains + [operation].count (.retain id) < UInt32.size) :
    ∃ y, (s.perform operation).get? id = some y ∧
      Counted y (releases + [operation].count (.release id))
        (retains + [operation].count (.retain id)) := by
  have old := isLive_of_get? here
  by_cases named : operation.target? = some id
  · cases operation with
    | create object => cases named
    | destroy id' =>
        cases named
        rw [Store.perform, isLive_destroy] at live
        cases live
    | retain id' =>
        cases named
        have other : [Operation.retain id].count (.release id) = 0 := rfl
        rw [List.count_singleton_self] at few ⊢
        rw [Store.perform, retain_of_live here, other]
        exact ⟨_, get?_put old _, h.retained few⟩
    | release id' =>
        cases named
        have other : [Operation.release id].count (.retain id) = 0 := rfl
        rw [Store.perform] at live ⊢
        rcases Nat.lt_or_ge 1 x.refs.toNat with more | last
        · rw [release_of_more here more, List.count_singleton_self, other]
          exact ⟨_, get?_put old _, h.released more⟩
        · rw [release_of_last here last, isLive_destroy] at live
          cases live
    | change id' change =>
        cases named
        have other : [Operation.change id change].count (.release id) = 0 ∧
            [Operation.change id change].count (.retain id) = 0 := ⟨rfl, rfl⟩
        rw [Store.perform, here, Option.bind_some, other.1, other.2]
        cases changed : change.apply? x with
        | none => exact ⟨x, here, h⟩
        | some y =>
            refine ⟨y, get?_put old y, ?_, h.fewer⟩
            rw [Sequence.Change.refs_eq changed]
            exact h.balance
  · rw [get?_perform orderly old named, count_of_target (.release id) named,
      count_of_target (.retain id) named]
    exact ⟨x, here, h⟩

end Counted

theorem isLive_of_isLive_destroy {s : Store} {id other : ObjectId}
    (live : (s.destroy id).2.isLive other = true) : s.isLive other = true := by
  by_cases same : other = id
  · rw [same, isLive_destroy] at live
    cases live
  · exact (isLive_eq_of_get? (get?_destroy_of_ne same)).symm.trans live

/-- What is there after an operation was there before, unless the operation created it. -/
theorem isLive_of_perform {s : Store} {operation : Operation} {id : ObjectId} (h : s.Orderly)
    (live : (s.perform operation).isLive id = true) : s.isLive id = true ∨
      ∃ object s', operation = .create object ∧ s.create? object = some (id, s') := by
  have performed := performed s operation
  generalize s.perform operation = s' at performed live
  cases performed with
  | refused full => exact .inl live
  | @created object new s' made =>
      by_cases same : id = new
      · exact .inr ⟨object, s', rfl, same ▸ made⟩
      · exact .inl ((isLive_eq_of_get? (get?_create?_of_ne h made same)).symm.trans live)
  | idle target => exact .inl live
  | put target object => exact .inl ((isLive_put object).symm.trans live)
  | destroyed target => exact .inl (isLive_of_isLive_destroy live)
  | released target object =>
      exact .inl ((isLive_put object).symm.trans (isLive_of_isLive_destroy live))

/-! ### The time of an object -/

/-- The object that is created in the slot after the operations `before` is there from then on, after
each of the operations `later`. -/
inductive Lasts (before : List Operation) (object : Sequence) (id : ObjectId) :
    List Operation → Prop where
  | made {s : Store} (made : (after before).create? object = some (id, s)) :
      Lasts before object id []
  | still {later : List Operation} {operation : Operation} (h : Lasts before object id later)
      (live : ((after (before ++ .create object :: later)).perform operation).isLive id = true) :
      Lasts before object id (later ++ [operation])

theorem after_concat (operations : List Operation) (operation : Operation) :
    after (operations ++ [operation]) = (after operations).perform operation :=
  List.foldl_concat ..

/-- An object that is there after the operations was created by one of them and is there since. -/
theorem exists_lasts {operations : List Operation} {id : ObjectId}
    (live : (after operations).isLive id = true) : ∃ before object later,
      operations = before ++ .create object :: later ∧ Lasts before object id later := by
  induction operations using List.reverseRecOn with
  | nil => simp [after, empty, isLive, get?] at live
  | append_singleton operations operation ih =>
      rw [after_concat] at live
      rcases isLive_of_perform (orderly_after operations) live with old | ⟨object, s', rfl, made⟩
      · obtain ⟨before, object, later, rfl, lasts⟩ := ih old
        exact ⟨before, object, later ++ [operation], by simp, lasts.still live⟩
      · exact ⟨operations, object, [], rfl, .made made⟩

/-- The counts of an object that was created without references. -/
theorem Lasts.counted {before later : List Operation} {object : Sequence} {id : ObjectId}
    (h : Lasts before object id later) (fresh : object.refs = 0)
    (few : later.count (.retain id) < UInt32.size) :
    ∃ x, (after (before ++ .create object :: later)).get? id = some x ∧
      Counted x (later.count (.release id)) (later.count (.retain id)) := by
  induction h with
  | @made s made =>
      have created : after (before ++ [.create object]) = s := by
        rw [after_concat, perform, made]
        rfl
      rw [created]
      refine ⟨object, ((orderly_after before).create made).2.2, ?_, ?_⟩
      · rw [fresh]
        rfl
      · exact Nat.zero_lt_one
  | @still later operation _ live ih =>
      rw [List.count_append] at few
      obtain ⟨x, here, counted⟩ := ih (Nat.lt_of_le_of_lt (Nat.le_add_right _ _) few)
      rw [← List.cons_append, ← List.append_assoc, after_concat, List.count_append,
        List.count_append]
      exact counted.perform (orderly_after _) here live few

/-- Take any history of a store that was empty at first, and a slot. An object that is in the slot
was created there by one of the operations and has been there since. If it was created without
references and has been retained fewer times than a word can count, its count is the number of
retains since then less the number of releases; and the next release empties the slot just when it
makes as many releases as there were retains, or when it is the first and there was no retain. To
retain or release what is not there does nothing, and the answer says so. -/
theorem references_after (operations : List Operation) (id : ObjectId) :
    let s := after operations
    (s.isLive id = true → ∃ before object later,
      operations = before ++ .create object :: later ∧ Lasts before object id later) ∧
    (∀ before object later, operations = before ++ .create object :: later →
      Lasts before object id later → object.refs = 0 →
      later.count (.retain id) < UInt32.size →
      let retains := later.count (.retain id)
      let releases := later.count (.release id)
      (∃ x, s.get? id = some x ∧ x.refs.toNat + releases = retains) ∧
        ((s.release id).2.isLive id = false ↔ releases + 1 = max 1 retains)) ∧
    (s.isLive id = false → s.retain id = (false, s) ∧ s.release id = (false, s)) := by
  intro s
  refine ⟨exists_lasts, ?_, ?_⟩
  · rintro before object later rfl lasts fresh few retains releases
    obtain ⟨x, here, counted⟩ := lasts.counted fresh few
    exact ⟨⟨x, here, counted.balance⟩, counted.isLive_release here⟩
  · intro dead
    have none : s.get? id = none := by
      rwa [isLive, Option.isSome_eq_false_iff, Option.isNone_iff_eq_none] at dead
    exact ⟨retain_of_dead none, release_of_dead none⟩

/-- The second object in the slot counts from zero again. -/
theorem references_of_second :
    let list := Sequence.list #[]
    let before : List Operation := [.create list, .retain 0, .retain 0, .release 0, .release 0]
    let later : List Operation := [.retain 0, .retain 0, .release 0]
    let s := after (before ++ .create list :: later)
    Lasts before list 0 later ∧ (∃ x, s.get? 0 = some x ∧ x.refs.toNat + 1 = 2) ∧
      ((s.release 0).2.isLive 0 = false ↔ 1 + 1 = max 1 2) := by
  intro list before later s
  have made : Lasts before list 0 [] := .made (s := ⟨#[some list], [], 16⟩) (by decide)
  have once : Lasts before list 0 [.retain 0] := made.still (by decide)
  have twice : Lasts before list 0 [.retain 0, .retain 0] := once.still (by decide)
  have lasts : Lasts before list 0 later := twice.still (by decide)
  have retains : later.count (.retain 0) = 2 := by decide
  have releases : later.count (.release 0) = 1 := by decide
  have counts := (references_after (before ++ .create list :: later) 0).2.1 before list later rfl
    lasts rfl (by rw [retains]; decide)
  rw [retains, releases] at counts
  exact ⟨lasts, counts⟩

end Store

end RegisterCode

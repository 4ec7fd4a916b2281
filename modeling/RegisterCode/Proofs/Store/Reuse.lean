import Mathlib.Data.List.Dedup
import RegisterCode.Proofs.Store.Slots

/-!
Which slot a new object takes, told by what happened to the slots before. Seen from outside, an
operation makes an object appear in a slot, or makes one vanish, or does neither (`event?`). The
queue of empty slots is what a reader of these events would write down (`waiting`), and the size of
the table is how many slots they mention; so the slot that has waited longest is the next.
-/

namespace RegisterCode

namespace Store

/-! ### What an operation does to one slot -/

section

variable {s : Store} {id other : ObjectId} {object : Sequence}

theorem isLive_of_get? (here : s.get? id = some object) : s.isLive id = true := by
  rw [isLive, here]
  rfl

theorem isLive_eq_of_get? {s' : Store} (same : s'.get? id = s.get? id) :
    s'.isLive id = s.isLive id := by
  rw [isLive, isLive, same]

/-- Numbers are the slots that they name. -/
theorem toNat_ne (apart : other ≠ id) : id.toNat ≠ other.toNat :=
  fun same => apart (UInt32.toNat_inj.1 same.symm)

theorem put_free (object : Sequence) : (s.put id object).free = s.free := by
  rw [put]
  split <;> rfl

theorem put_size (object : Sequence) : (s.put id object).slots.size = s.slots.size := by
  rw [put]
  split
  · rw [Array.set!_eq_setIfInBounds, Array.size_setIfInBounds]
  · rfl

theorem get?_put (live : s.isLive id = true) (object : Sequence) :
    (s.put id object).get? id = some object := by
  obtain ⟨old, here⟩ := isLive_iff.1 live
  rw [put, if_pos live, get?_eq_some, getElem?_set here, if_pos rfl]

theorem get?_put_of_ne (apart : other ≠ id) (object : Sequence) :
    (s.put id object).get? other = s.get? other := by
  rw [put]
  split
  next live =>
    obtain ⟨old, here⟩ := isLive_iff.1 live
    rw [get?, get?, getElem?_set here, if_neg (toNat_ne apart)]
  next => rfl

theorem isLive_put (object : Sequence) : (s.put id object).isLive other = s.isLive other := by
  by_cases same : other = id
  · subst same
    by_cases live : s.isLive other = true
    · rw [isLive_of_get? (get?_put live object), live]
    · rw [put, if_neg live]
  · exact isLive_eq_of_get? (get?_put_of_ne same object)

theorem destroy_of_live (live : s.isLive id = true) : s.destroy id =
    (true, ⟨s.slots.set! id.toNat none, s.free ++ [id.toNat], s.charge - Sequence.unit⟩) := by
  rw [destroy, if_pos live]

theorem destroy_of_dead (dead : ¬ s.isLive id = true) : s.destroy id = (false, s) := by
  rw [destroy, if_neg dead]

theorem isLive_destroy : (s.destroy id).2.isLive id = false := by
  by_cases live : s.isLive id = true
  · obtain ⟨old, here⟩ := isLive_iff.1 live
    rw [destroy_of_live live, isLive, get?, getElem?_set here, if_pos rfl]
    rfl
  · rw [destroy_of_dead live]
    exact Bool.eq_false_iff.2 live

theorem get?_destroy_of_ne (apart : other ≠ id) : (s.destroy id).2.get? other = s.get? other := by
  by_cases live : s.isLive id = true
  · obtain ⟨old, here⟩ := isLive_iff.1 live
    rw [destroy_of_live live, get?, get?, getElem?_set here, if_neg (toNat_ne apart)]
  · rw [destroy_of_dead live]

theorem retain_of_live (here : s.get? id = some object) :
    s.retain id = (true, s.put id { object with refs := object.refs + 1 }) := by
  rw [retain, here]

theorem retain_of_dead (dead : s.get? id = none) : s.retain id = (false, s) := by
  rw [retain, dead]

/-- A release that leaves references on the object. -/
theorem release_of_more (here : s.get? id = some object) (more : 1 < object.refs.toNat) :
    s.release id = (true, s.put id { object with refs := object.refs - 1 }) := by
  have some : object.refs ≠ 0 := by
    intro none
    rw [none] at more
    exact absurd more (by decide)
  have left : object.refs - 1 ≠ 0 := by
    intro none
    have count := UInt32.toNat_sub_of_le object.refs 1 (UInt32.le_iff_toNat_le.2 (Nat.le_of_lt more))
    rw [none] at count
    simp only [UInt32.toNat_zero, UInt32.toNat_one] at count
    omega
  rw [release, here]
  simp only [if_neg some, if_neg left]

/-- A release of the last reference, or of an object without any. -/
theorem release_of_last (here : s.get? id = some object) (last : object.refs.toNat ≤ 1) :
    s.release id = (true, ((s.put id { object with refs := 0 }).destroy id).2) := by
  have left : (if object.refs = 0 then 0 else object.refs - 1) = 0 := by
    split
    next => rfl
    next some =>
      have one : object.refs = 1 := by
        apply UInt32.toNat_inj.1
        have positive : object.refs.toNat ≠ 0 := fun none => some (UInt32.toNat_inj.1 none)
        rw [UInt32.toNat_one]
        omega
      rw [one]
      rfl
  rw [release, here]
  simp only [left, if_true]

theorem release_of_dead (dead : s.get? id = none) : s.release id = (false, s) := by
  rw [release, dead]

end

/-- The slot that an operation names. -/
def Operation.target? : Operation → Option ObjectId
  | create _ => none
  | destroy id | retain id | release id | change id _ => some id

/-- What an operation can come to. On an object it puts another in its place, takes it away, or does
both; or it does nothing. -/
inductive Performed (s : Store) : Operation → Store → Prop where
  | refused {object : Sequence} (full : s.create? object = none) : Performed s (.create object) s
  | created {object : Sequence} {id : ObjectId} {s' : Store}
      (made : s.create? object = some (id, s')) : Performed s (.create object) s'
  | idle {operation : Operation} {id : ObjectId} (target : operation.target? = some id) :
      Performed s operation s
  | put {operation : Operation} {id : ObjectId} (target : operation.target? = some id)
      (object : Sequence) : Performed s operation (s.put id object)
  | destroyed {operation : Operation} {id : ObjectId} (target : operation.target? = some id) :
      Performed s operation (s.destroy id).2
  | released {operation : Operation} {id : ObjectId} (target : operation.target? = some id)
      (object : Sequence) : Performed s operation ((s.put id object).destroy id).2

theorem performed (s : Store) (operation : Operation) :
    Performed s operation (s.perform operation) := by
  cases operation with
  | create object =>
      rw [perform]
      cases made : s.create? object with
      | none => exact .refused made
      | some result => exact .created made
  | destroy id => exact .destroyed rfl
  | retain id =>
      rw [perform]
      cases here : s.get? id with
      | none =>
          rw [retain_of_dead here]
          exact .idle rfl
      | some object =>
          rw [retain_of_live here]
          exact .put rfl _
  | release id =>
      rw [perform]
      cases here : s.get? id with
      | none =>
          rw [release_of_dead here]
          exact .idle rfl
      | some object =>
          rcases Nat.lt_or_ge 1 object.refs.toNat with more | last
          · rw [release_of_more here more]
            exact .put rfl _
          · rw [release_of_last here last]
            exact .released rfl _
  | change id change =>
      rw [perform]
      split
      · exact .put rfl _
      · exact .idle rfl

/-! ### What is seen of an operation -/

/-- An object appeared in a slot, or vanished from it. -/
inductive Event where
  | made (id : ObjectId)
  | emptied (id : ObjectId)
deriving DecidableEq, Repr

/-- The slot that an event fills. -/
def Event.made? : Event → Option ObjectId
  | made id => some id
  | emptied _ => none

/-- The event of an object that is no longer there. -/
def vanished? (s s' : Store) (id : ObjectId) : Option Event :=
  if s.isLive id && !s'.isLive id then some (.emptied id) else none

/-- What an operation makes happen. A slot is emptied by whatever operation it is after which the
object is no longer there. -/
def event? (s : Store) (operation : Operation) : Option Event :=
  match operation with
  | .create object => (s.create? object).map fun made => .made made.1
  | .destroy id | .retain id | .release id | .change id _ =>
    s.vanished? (s.perform operation) id

/-- What the operations make happen, one after the other. -/
def history (s : Store) : List Operation → List Event
  | [] => []
  | operation :: later => (s.event? operation).toList ++ (s.perform operation).history later

/-- The slots that were emptied and have not been filled since, the one emptied longest ago in
front. -/
def waiting : List Event → List ObjectId
  | [] => []
  | .made _ :: later => waiting later
  | .emptied id :: later => if .made id ∈ later then waiting later else id :: waiting later

/-- The slots ever filled, each of them once. -/
def used (events : List Event) : List ObjectId := (events.filterMap Event.made?).dedup

theorem mem_used {events : List Event} {id : ObjectId} :
    id ∈ used events ↔ .made id ∈ events := by
  rw [used, List.mem_dedup, List.mem_filterMap]
  constructor
  · rintro ⟨event, mem, made⟩
    cases event with
    | made id' =>
        obtain rfl : id' = id := Option.some.inj made
        exact mem
    | emptied id' => cases made
  · intro mem
    exact ⟨_, mem, rfl⟩

/-- A slot that is emptied waits behind all others. -/
theorem waiting_emptied (events : List Event) (id : ObjectId) :
    waiting (events ++ [.emptied id]) = waiting events ++ [id] := by
  induction events with
  | nil => rfl
  | cons event events ih =>
      cases event with
      | made other => exact ih
      | emptied other =>
          have same : .made other ∈ events ++ [.emptied id] ↔ .made other ∈ events := by simp
          rw [List.cons_append, waiting, waiting, ih]
          simp only [same]
          split <;> rfl

/-- A slot that is filled waits no longer. -/
theorem waiting_made (events : List Event) (id : ObjectId) :
    waiting (events ++ [.made id]) = (waiting events).filter (· ≠ id) := by
  induction events with
  | nil => rfl
  | cons event events ih =>
      cases event with
      | made other => exact ih
      | emptied other =>
          rw [List.cons_append, waiting, waiting, ih]
          by_cases again : .made other ∈ events
          · rw [if_pos (List.mem_append_left _ again), if_pos again]
          · by_cases same : other = id
            · subst same
              rw [if_pos (List.mem_append_right _ List.mem_cons_self), if_neg again,
                List.filter_cons_of_neg (by simp)]
            · rw [if_neg, if_neg again, List.filter_cons_of_pos (by simpa using same)]
              simp [again, same]

/-- What happens to the queue and to the table when something is seen to happen, or nothing. -/
inductive Shows (s : Store) : Option Event → Store → Prop where
  | nothing {s' : Store} (free : s'.free = s.free) (size : s'.slots.size = s.slots.size) :
      Shows s none s'
  | emptied {id : ObjectId} {s' : Store} (free : s'.free = s.free ++ [id.toNat])
      (size : s'.slots.size = s.slots.size) : Shows s (some (.emptied id)) s'
  | made {object : Sequence} {id : ObjectId} {s' : Store}
      (made : s.create? object = some (id, s')) : Shows s (some (.made id)) s'

theorem shows_of_same {s s' : Store} {id : ObjectId} (live : s'.isLive id = s.isLive id)
    (free : s'.free = s.free) (size : s'.slots.size = s.slots.size) :
    s.Shows (s.vanished? s' id) s' := by
  rw [vanished?, live, Bool.and_not_self]
  exact .nothing free size

theorem shows_destroy {s s' : Store} {id : ObjectId} (live : s'.isLive id = s.isLive id)
    (free : s'.free = s.free) (size : s'.slots.size = s.slots.size) :
    s.Shows (s.vanished? (s'.destroy id).2 id) (s'.destroy id).2 := by
  by_cases here : s'.isLive id = true
  · rw [vanished?, isLive_destroy, ← live, here]
    refine .emptied ?_ ?_
    · rw [destroy_of_live here, free]
    · rw [destroy_of_live here, Array.set!_eq_setIfInBounds, Array.size_setIfInBounds, size]
  · rw [destroy_of_dead here]
    exact shows_of_same live free size

theorem event?_of_target {s : Store} {operation : Operation} {id : ObjectId}
    (target : operation.target? = some id) :
    s.event? operation = s.vanished? (s.perform operation) id := by
  cases operation <;> cases target <;> rfl

theorem shows (s : Store) (operation : Operation) :
    s.Shows (s.event? operation) (s.perform operation) := by
  have performed := performed s operation
  generalize after : s.perform operation = s' at performed
  cases performed with
  | refused full =>
      rw [event?, full]
      exact .nothing rfl rfl
  | created made =>
      rw [event?, made]
      exact .made made
  | idle target =>
      rw [event?_of_target target, after]
      exact shows_of_same rfl rfl rfl
  | put target object =>
      rw [event?_of_target target, after]
      exact shows_of_same (isLive_put object) (put_free object) (put_size object)
  | destroyed target =>
      rw [event?_of_target target, after]
      exact shows_destroy rfl rfl rfl
  | released target object =>
      rw [event?_of_target target, after]
      exact shows_destroy (isLive_put object) (put_free object) (put_size object)

/-! ### Reading the queue off the events -/

/-- The queue lists the slots that wait, and the table has the slots that were ever filled. -/
structure Recorded (events : List Event) (s : Store) : Prop where
  free : s.free = (waiting events).map UInt32.toNat
  made : ∀ id, .made id ∈ events ↔ id.toNat < s.slots.size

/-- A new object takes the slot in front of the queue, which was empty, or the slot behind all
others. -/
theorem create?_cases {s s' : Store} {object : Sequence} {id : ObjectId} (h : s.Orderly)
    (made : s.create? object = some (id, s')) :
    (s.free = [] ∧ id.toNat = s.slots.size ∧
      s' = ⟨s.slots.push (some object), [], s.charge + Sequence.unit⟩) ∨
    ∃ others, s.free = id.toNat :: others ∧ s.slots[id.toNat]? = some none ∧
      s' = ⟨s.slots.set! id.toNat (some object), others, s.charge + Sequence.unit⟩ := by
  have room : ¬ s.isFull = true := by
    intro full
    rw [create?_of_isFull full] at made
    cases made
  have next := (h.create made).2.1
  cases free : s.free with
  | nil =>
      rw [create?_of_no_free room free] at made
      cases made
      rw [nextSlot, free] at next
      exact .inl ⟨rfl, next, rfl⟩
  | cons slot others =>
      have empty := (h.mem_free slot).1 (by rw [free]; exact List.mem_cons_self)
      rw [create?_of_free room free] at made
      cases made
      rw [nextSlot, free] at next
      have same : (UInt32.ofNat slot).toNat = slot := next
      exact .inr ⟨others, by rw [same], by rw [same]; exact empty, by rw [same]⟩

namespace Recorded

variable {events : List Event} {s : Store}

theorem empty : Recorded [] empty where
  free := rfl
  made id := by simp [Store.empty]

/-- One operation, and what is seen of it. -/
theorem step (h : Recorded events s) (orderly : s.Orderly) {event? : Option Event} {s' : Store}
    (shows : s.Shows event? s') : Recorded (events ++ event?.toList) s' := by
  cases shows with
  | nothing free size =>
      rw [Option.toList_none, List.append_nil]
      exact ⟨free.trans h.free, fun id => size ▸ h.made id⟩
  | emptied free size =>
      refine ⟨?_, fun id => ?_⟩
      · rw [Option.toList_some, waiting_emptied, free, h.free, List.map_append]
        rfl
      · rw [size, ← h.made id]
        simp
  | @made object id s' made =>
      have filled (other : ObjectId) : .made other ∈ events ++ [Event.made id] ↔
          other.toNat < s.slots.size ∨ other.toNat = id.toNat := by
        rw [List.mem_append, h.made, List.mem_singleton, Event.made.injEq, UInt32.toNat_inj]
      rcases create?_cases orderly made with ⟨free, next, rfl⟩ | ⟨others, free, empty, rfl⟩
      · have none : waiting events = [] := List.map_eq_nil_iff.1 (h.free.symm.trans free)
        refine ⟨?_, fun other => ?_⟩
        · rw [Option.toList_some, waiting_made, none]
          rfl
        · rw [Option.toList_some, filled, Array.size_push, next]
          omega
      · obtain ⟨oldest, rest, front, same, rfl⟩ := List.map_eq_cons_iff.1 (h.free.symm.trans free)
        obtain rfl : oldest = id := UInt32.toNat_inj.1 same
        have nodup := orderly.nodup
        rw [free, List.nodup_cons] at nodup
        have apart : ∀ other ∈ rest, other ≠ oldest := by
          intro other mem same
          exact nodup.1 (same ▸ List.mem_map_of_mem mem)
        have inside := (Array.getElem?_eq_some_iff.1 empty).1
        refine ⟨?_, fun other => ?_⟩
        · rw [Option.toList_some, waiting_made, front, List.filter_cons_of_neg (by simp),
            List.filter_eq_self.2 (by simpa using apart)]
        · rw [Option.toList_some, filled, Array.set!_eq_setIfInBounds, Array.size_setIfInBounds]
          omega

theorem run (h : Recorded events s) (orderly : s.Orderly) (operations : List Operation) :
    Recorded (events ++ s.history operations) (operations.foldl perform s) := by
  induction operations generalizing events s with
  | nil =>
      rw [history, List.append_nil]
      exact h
  | cons operation later ih =>
      rw [history, ← List.append_assoc]
      exact ih (h.step orderly (shows s operation)) (orderly.perform operation)

/-- As many slots were ever filled as the table has. -/
theorem length_used (h : Recorded events s) (orderly : s.Orderly) :
    (used events).length = s.slots.size := by
  have nodup : ((used events).map UInt32.toNat).Nodup :=
    (List.nodup_dedup _).map fun _ _ => UInt32.toNat_inj.1
  have perm : ((used events).map UInt32.toNat).Perm (List.range s.slots.size) := by
    rw [List.perm_ext_iff_of_nodup nodup List.nodup_range]
    intro slot
    rw [List.mem_map, List.mem_range]
    constructor
    · rintro ⟨id, mem, rfl⟩
      exact (h.made id).1 (mem_used.1 mem)
    · intro inside
      have word := Orderly.word_of_size (Nat.le_trans (Nat.le_of_lt inside) orderly.size)
      exact ⟨UInt32.ofNat slot, mem_used.2 ((h.made _).2 (by rwa [word])), word⟩
  rw [← List.length_map, perm.length_eq, List.length_range]

end Recorded

/-! ### The other slots -/

theorem isLive_of_create? {s s' : Store} {object : Sequence} {id : ObjectId} (h : s.Orderly)
    (made : s.create? object = some (id, s')) : s.isLive id = false := by
  rw [Bool.eq_false_iff, Ne, isLive_iff]
  rintro ⟨old, here⟩
  rcases create?_cases h made with ⟨-, next, -⟩ | ⟨others, -, empty, -⟩
  · rw [next, Array.getElem?_size] at here
    cases here
  · cases empty.symm.trans here

theorem get?_create?_of_ne {s s' : Store} {object : Sequence} {id other : ObjectId}
    (h : s.Orderly) (made : s.create? object = some (id, s')) (apart : other ≠ id) :
    s'.get? other = s.get? other := by
  rcases create?_cases h made with ⟨-, next, rfl⟩ | ⟨others, -, empty, rfl⟩
  · rw [get?, get?, Array.getElem?_push, if_neg]
    exact next ▸ (toNat_ne apart).symm
  · rw [get?, get?, getElem?_set empty, if_neg (toNat_ne apart)]

/-- An operation leaves alone all objects but the one that it names. -/
theorem get?_perform {s : Store} {operation : Operation} {other : ObjectId} (h : s.Orderly)
    (live : s.isLive other = true) (apart : operation.target? ≠ some other) :
    (s.perform operation).get? other = s.get? other := by
  have ne {id : ObjectId} (target : operation.target? = some id) : other ≠ id :=
    fun same => apart (same ▸ target)
  have performed := performed s operation
  generalize s.perform operation = s' at performed
  cases performed with
  | refused full => rfl
  | created made =>
      refine get?_create?_of_ne h made ?_
      rintro rfl
      rw [isLive_of_create? h made] at live
      cases live
  | idle target => rfl
  | put target object => exact get?_put_of_ne (ne target) object
  | destroyed target => exact get?_destroy_of_ne (ne target)
  | released target object =>
      exact (get?_destroy_of_ne (ne target)).trans (get?_put_of_ne (ne target) object)

/-- Whatever was done to a store that was empty at first, a new object takes the slot that was
emptied longest ago among those not filled since, and if there is none, the slot whose number is
how many slots were ever filled. No object was there, and now the new one is. Nothing that is done
to one object changes another, nor does creating one. -/
theorem reuse_after (operations : List Operation) :
    let s := after operations
    let events := empty.history operations
    (∀ object id s', s.create? object = some (id, s') →
      ((waiting events).head? = some id ∨
        waiting events = [] ∧ id.toNat = (used events).length) ∧
      s.isLive id = false ∧ s'.get? id = some object) ∧
    ∀ operation other, s.isLive other = true → operation.target? ≠ some other →
      (s.perform operation).get? other = s.get? other := by
  intro s events
  have h : s.Orderly := orderly_after operations
  have recorded : Recorded events s := Recorded.empty.run orderly_empty operations
  refine ⟨fun object id s' made => ⟨?_, isLive_of_create? h made, (h.create made).2.2⟩,
    fun operation other live apart => get?_perform h live apart⟩
  rcases create?_cases h made with ⟨free, next, -⟩ | ⟨others, free, -, -⟩
  · have none : waiting events = [] := List.map_eq_nil_iff.1 (recorded.free.symm.trans free)
    exact .inr ⟨none, next.trans (recorded.length_used h).symm⟩
  · obtain ⟨oldest, rest, front, same, -⟩ :=
      List.map_eq_cons_iff.1 (recorded.free.symm.trans free)
    rw [front, List.head?_cons, UInt32.toNat_inj.1 same]
    exact .inl rfl

/-- Slots are used again in the order in which they were emptied, by whatever operation; emptying
one a second time does not count. -/
theorem reuse_of_turns :
    let list := Sequence.list #[]
    let operations : List Operation :=
      [.create list, .create list, .create list, .release 1, .destroy 0, .destroy 1]
    let s := after operations
    let events := empty.history operations
    waiting events = [1, 0] ∧ used events = [0, 1, 2] ∧ ∃ s', s.create? list = some (1, s') ∧
      (((waiting events).head? = some 1 ∨
        waiting events = [] ∧ (1 : ObjectId).toNat = (used events).length) ∧
        s.isLive 1 = false ∧ s'.get? 1 = some list) ∧
      (s'.perform (.destroy 1)).get? 2 = s'.get? 2 :=
  ⟨by decide, by decide, _, rfl, (reuse_after _).1 _ _ _ rfl,
    (reuse_after [.create (.list #[]), .create (.list #[]), .create (.list #[]), .release 1,
      .destroy 0, .destroy 1, .create (.list #[])]).2 (.destroy 1) 2 (by decide) (by decide)⟩

end Store

end RegisterCode

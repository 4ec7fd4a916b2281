import Mathlib.Data.List.Nodup
import RegisterCode.Store.Basic

/-!
The bookkeeping of the object store. A store holds its slots, a queue of the slots that
are empty, and a total charge; each of the three could be computed from the slots. What
is said here (`Orderly`) is that they never come apart, whatever is done to a store that
was empty at first. So the charge bounds the number of live slots, and the number of live
slots bounds the table: it grows only when no slot in it is empty.
-/

namespace RegisterCode

/-- The ways to change a sequence in place. -/
inductive Sequence.Change where
  | push (v : Value)
  | pop
  | popFront
  | set (index : Nat) (v : Value)
  | freeze
deriving DecidableEq, Repr

/-- The changed sequence, if the sequence allows the change. -/
def Sequence.Change.apply? (x : Sequence) : Sequence.Change → Option Sequence
  | push v => x.push? v
  | pop => x.pop?.map Prod.snd
  | popFront => x.popFront?.map Prod.snd
  | set index v => x.set? index v
  | freeze => some x.freeze

namespace Store

/-- What can be done to a store. -/
inductive Operation where
  | create (object : Sequence)
  | destroy (id : ObjectId)
  | retain (id : ObjectId)
  | release (id : ObjectId)
  | change (id : ObjectId) (change : Sequence.Change)
deriving DecidableEq, Repr

/-- The store afterwards; an operation that fails leaves it as it is. -/
def perform (s : Store) : Operation → Store
  | .create object => ((s.create? object).map Prod.snd).getD s
  | .destroy id => (s.destroy id).2
  | .retain id => (s.retain id).2
  | .release id => (s.release id).2
  | .change id change =>
    match (s.get? id).bind change.apply? with
    | some object => s.put id object
    | none => s

/-- The store after some operations, empty at first. -/
def after (operations : List Operation) : Store := operations.foldl perform empty

/-- How many objects a store has room for. -/
def places : Nat := 1024

/-- The queue and the charge agree with the slots, and there are not too many of these. -/
structure Orderly (s : Store) : Prop where
  nodup : s.free.Nodup
  mem_free : ∀ slot, slot ∈ s.free ↔ s.slots[slot]? = some none
  charge : s.charge = Sequence.unit * s.liveCount
  bounded : s.charge ≤ capacity
  size : s.slots.size ≤ places

/-- The slot that the next object takes. -/
def nextSlot (s : Store) : Nat := s.free.head?.getD s.slots.size

/-! ### One slot -/

theorem get?_eq_some {s : Store} {id : ObjectId} {object : Sequence} :
    s.get? id = some object ↔ s.slots[id.toNat]? = some (some object) := by
  rw [get?, Option.join_eq_some_iff]

theorem isLive_iff {s : Store} {id : ObjectId} :
    s.isLive id = true ↔ ∃ object, s.slots[id.toNat]? = some (some object) := by
  rw [isLive, Option.isSome_iff_exists]
  simp only [get?_eq_some]

theorem getElem?_set {slots : Array (Option Sequence)} {slot : Nat} {old : Option Sequence}
    (here : slots[slot]? = some old) (new : Option Sequence) (other : Nat) :
    (slots.set! slot new)[other]? = if slot = other then some new else slots[other]? := by
  obtain ⟨inside, -⟩ := Array.getElem?_eq_some_iff.1 here
  rw [Array.set!_eq_setIfInBounds, Array.getElem?_setIfInBounds, if_pos inside]

/-- The number of live slots changes by what one slot holds more or less than before. -/
theorem countP_set {slots : Array (Option Sequence)} {slot : Nat} {old : Option Sequence}
    (here : slots[slot]? = some old) (new : Option Sequence) :
    (slots.set! slot new).countP Option.isSome + old.isSome.toNat =
      slots.countP Option.isSome + new.isSome.toNat := by
  obtain ⟨inside, rfl⟩ := Array.getElem?_eq_some_iff.1 here
  have live : slots[slot].isSome = true → 0 < slots.countP Option.isSome := by
    intro some
    exact Array.countP_pos_iff.2 ⟨_, Array.getElem_mem inside, some⟩
  rw [Array.set!_eq_setIfInBounds, Array.setIfInBounds, dif_pos inside, Array.countP_set]
  cases before : slots[slot].isSome with
  | true =>
      have := live before
      cases new <;> simp <;> omega
  | false => cases new <;> simp

/-! ### What an operation keeps -/

theorem orderly_empty : empty.Orderly where
  nodup := List.nodup_nil
  mem_free slot := by simp [empty]
  charge := rfl
  bounded := Nat.zero_le _
  size := Nat.zero_le _

namespace Orderly

variable {s : Store}

theorem slot_lt (h : s.Orderly) {slot : Nat} (free : slot ∈ s.free) : slot < s.slots.size :=
  (Array.getElem?_eq_some_iff.1 ((h.mem_free slot).1 free)).1

/-- Without an empty slot, all slots are live. -/
theorem liveCount_of_free_eq_nil (h : s.Orderly) (none : s.free = []) :
    s.liveCount = s.slots.size := by
  apply Array.countP_eq_size.2
  intro slot mem
  obtain ⟨i, here⟩ := Array.mem_iff_getElem?.1 mem
  cases slot with
  | some object => rfl
  | none =>
      have queued := (h.mem_free i).2 here
      rw [none] at queued
      cases queued

theorem isFull_iff (h : s.Orderly) : s.isFull = true ↔ s.liveCount = places := by
  have charge := h.charge
  have bounded := h.bounded
  rw [isFull, decide_eq_true_eq]
  simp only [Sequence.unit, capacity, places] at *
  omega

theorem liveCount_lt (h : s.Orderly) (room : ¬ s.isFull = true) : s.liveCount < places := by
  have charge := h.charge
  have bounded := h.bounded
  rw [h.isFull_iff] at room
  simp only [Sequence.unit, capacity, places] at *
  omega

theorem isRipe_iff (h : s.Orderly) : s.isRipe = true ↔ 512 ≤ s.liveCount := by
  have charge := h.charge
  rw [isRipe, decide_eq_true_eq]
  simp only [Sequence.unit, ripeness] at *
  omega

theorem nextSlot_le (h : s.Orderly) : s.nextSlot ≤ s.slots.size := by
  rw [nextSlot]
  cases free : s.free with
  | nil => exact Nat.le_refl _
  | cons slot others =>
      apply Nat.le_of_lt
      apply h.slot_lt
      rw [free]
      exact List.mem_cons_self

/-- To put an object in the place of another changes nothing else. -/
theorem put (h : s.Orderly) (id : ObjectId) (object : Sequence) : (s.put id object).Orderly := by
  rw [Store.put]
  by_cases live : s.isLive id = true
  · obtain ⟨old, here⟩ := isLive_iff.1 live
    have count := countP_set here (some object)
    rw [if_pos live]
    refine ⟨h.nodup, ?_, ?_, h.bounded, ?_⟩
    · intro slot
      rw [getElem?_set here, h.mem_free]
      split
      next same =>
        subst same
        simp [here]
      next => rfl
    · have charge := h.charge
      rw [liveCount] at charge ⊢
      rw [charge]
      exact congrArg _ (Nat.add_right_cancel count).symm
    · rw [Array.set!_eq_setIfInBounds, Array.size_setIfInBounds]
      exact h.size
  · rw [if_neg live]
    exact h

theorem destroy (h : s.Orderly) (id : ObjectId) : (s.destroy id).2.Orderly := by
  rw [Store.destroy]
  by_cases live : s.isLive id = true
  · obtain ⟨old, here⟩ := isLive_iff.1 live
    have count := countP_set here none
    have charge := h.charge
    have queued : id.toNat ∉ s.free := by
      rw [h.mem_free, here]
      simp
    rw [if_pos live]
    constructor
    · rw [List.nodup_append]
      refine ⟨h.nodup, List.nodup_singleton _, ?_⟩
      intro slot mem other one same
      rw [same, List.mem_singleton.1 one] at mem
      exact queued mem
    · intro slot
      rw [getElem?_set here, List.mem_append, h.mem_free, List.mem_singleton]
      split
      next same => simp [same]
      next other =>
        constructor
        · intro mem
          exact mem.resolve_right (Ne.symm other)
        · intro mem
          exact .inl mem
    · rw [liveCount] at charge ⊢
      simp only [Option.isSome_some, Option.isSome_none, Bool.toNat_true, Bool.toNat_false,
        Sequence.unit] at count charge ⊢
      omega
    · exact Nat.le_trans (Nat.sub_le _ _) h.bounded
    · rw [Array.set!_eq_setIfInBounds, Array.size_setIfInBounds]
      exact h.size
  · rw [if_neg live]
    exact h

end Orderly

/-- Creating fails on a full store only, and otherwise fills the slot that is next. -/
theorem create?_of_isFull {s : Store} (full : s.isFull = true) (object : Sequence) :
    s.create? object = none := by
  rw [create?, if_pos full]

theorem create?_of_free {s : Store} (room : ¬ s.isFull = true) {slot : Nat} {others : List Nat}
    (free : s.free = slot :: others) (object : Sequence) :
    s.create? object = some (UInt32.ofNat slot,
      ⟨s.slots.set! slot (some object), others, s.charge + Sequence.unit⟩) := by
  rw [create?, if_neg room]
  simp only [free]

theorem create?_of_no_free {s : Store} (room : ¬ s.isFull = true) (free : s.free = [])
    (object : Sequence) :
    s.create? object = some (UInt32.ofNat s.slots.size,
      ⟨s.slots.push (some object), [], s.charge + Sequence.unit⟩) := by
  rw [create?, if_neg room]
  simp only [free]

namespace Orderly

variable {s : Store}

theorem create?_eq_none_iff (h : s.Orderly) (object : Sequence) :
    s.create? object = none ↔ s.liveCount = places := by
  rw [← h.isFull_iff]
  constructor
  · intro refused
    by_contra room
    cases free : s.free with
    | nil =>
        rw [create?_of_no_free room free] at refused
        cases refused
    | cons slot others =>
        rw [create?_of_free room free] at refused
        cases refused
  · intro full
    exact create?_of_isFull full object

theorem word_of_size {n : Nat} (small : n ≤ places) : (UInt32.ofNat n).toNat = n :=
  UInt32.toNat_ofNat_of_lt' (Nat.lt_of_le_of_lt small (by decide))

/-- The slot that is next is one of the table or the one behind it, and a number of 32 bits
is enough for it. -/
theorem nextSlot_word (h : s.Orderly) : (UInt32.ofNat s.nextSlot).toNat = s.nextSlot :=
  word_of_size (Nat.le_trans h.nextSlot_le h.size)

/-- A new object is found in the slot that was next. -/
theorem create (h : s.Orderly) {object : Sequence} {id : ObjectId} {s' : Store}
    (made : s.create? object = some (id, s')) :
    s'.Orderly ∧ id.toNat = s.nextSlot ∧ s'.get? id = some object := by
  have room : ¬ s.isFull = true := by
    intro full
    rw [create?_of_isFull full] at made
    cases made
  have charge := h.charge
  have fewer := h.liveCount_lt room
  have word := h.nextSlot_word
  rw [liveCount, places] at fewer
  rw [liveCount, Sequence.unit] at charge
  cases free : s.free with
  | nil =>
      have next : s.nextSlot = s.slots.size := by rw [nextSlot, free]; rfl
      have all := h.liveCount_of_free_eq_nil free
      rw [liveCount] at all
      rw [next] at word
      rw [create?_of_no_free room free] at made
      cases made
      refine ⟨⟨List.nodup_nil, ?_, ?_, ?_, ?_⟩, by rw [word, next], ?_⟩
      · intro slot
        have none := h.mem_free slot
        rw [free] at none
        rw [Array.getElem?_push, none]
        split
        next last =>
          subst last
          simp
        next => rfl
      · rw [liveCount, Array.countP_push, Sequence.unit, charge]
        simp only [Option.isSome_some, if_true]
        omega
      · simp only [capacity, Sequence.unit]
        omega
      · rw [Array.size_push, places]
        omega
      · rw [get?_eq_some, word, Array.getElem?_push, if_pos rfl]
  | cons slot others =>
      have next : s.nextSlot = slot := by rw [nextSlot, free]; rfl
      have here := (h.mem_free slot).1 (by rw [free]; exact List.mem_cons_self)
      have count := countP_set here (some object)
      have nodup := h.nodup
      rw [free, List.nodup_cons] at nodup
      rw [next] at word
      rw [create?_of_free room free] at made
      cases made
      simp only [Option.isSome_some, Option.isSome_none, Bool.toNat_true, Bool.toNat_false]
        at count
      refine ⟨⟨nodup.2, ?_, ?_, ?_, ?_⟩, by rw [word, next], ?_⟩
      · intro other
        have none := h.mem_free other
        rw [free, List.mem_cons] at none
        rw [getElem?_set here]
        split
        next same =>
          subst same
          simp [nodup.1]
        next apart =>
          rw [← none]
          constructor
          · intro mem
            exact .inr mem
          · intro mem
            exact mem.resolve_left (Ne.symm apart)
      · simp only [liveCount, Sequence.unit]
        omega
      · simp only [capacity, Sequence.unit]
        omega
      · rw [Array.set!_eq_setIfInBounds, Array.size_setIfInBounds]
        exact h.size
      · rw [get?_eq_some, word, getElem?_set here, if_pos rfl]

theorem retain (h : s.Orderly) (id : ObjectId) : (s.retain id).2.Orderly := by
  rw [Store.retain]
  cases s.get? id with
  | none => exact h
  | some object => exact h.put id _

theorem release (h : s.Orderly) (id : ObjectId) : (s.release id).2.Orderly := by
  rw [Store.release]
  cases s.get? id with
  | none => exact h
  | some object =>
      simp only
      generalize (if object.refs = 0 then 0 else object.refs - 1) = refs
      have counted := h.put id { object with refs := refs }
      split
      · exact counted.destroy id
      · exact counted

/-- Every operation keeps the store orderly. -/
theorem perform (h : s.Orderly) (operation : Operation) : (s.perform operation).Orderly := by
  cases operation with
  | create object =>
      rw [Store.perform]
      cases made : s.create? object with
      | none => exact h
      | some result => exact (h.create made).1
  | destroy id => exact h.destroy id
  | retain id => exact h.retain id
  | release id => exact h.release id
  | change id change =>
      rw [Store.perform]
      split
      · exact h.put id _
      · exact h

end Orderly

theorem orderly_after (operations : List Operation) : (after operations).Orderly := by
  have further (s : Store) (h : s.Orderly) : (operations.foldl perform s).Orderly := by
    induction operations generalizing s with
    | nil => exact h
    | cons operation operations ih => exact ih _ (h.perform operation)
  exact further empty orderly_empty

/-- Whatever was done to a store that was empty at first, its queue lists the empty slots,
each of them once, its charge is what its live objects cost, and it has no more slots than
places. Creating fails just when every place is taken, and half of them taken is when the
store is ripe. So what is destroyed was charged for, a slot that waits in the queue is one of
the table, and a new object is found under the number of the slot that was next. -/
theorem bookkeeping_after (operations : List Operation) :
    let s := after operations
    s.free.Nodup ∧ (∀ slot, slot ∈ s.free ↔ s.slots[slot]? = some none) ∧
      s.charge = 16 * s.liveCount ∧ s.charge ≤ 16384 ∧ s.slots.size ≤ 1024 ∧
      (∀ object, s.create? object = none ↔ s.liveCount = 1024) ∧
      (s.isRipe = true ↔ 512 ≤ s.liveCount) ∧
      (∀ id, s.isLive id = true → 16 ≤ s.charge) ∧
      (∀ slot ∈ s.free, slot < s.slots.size) ∧ s.nextSlot < UInt32.size ∧
      (∀ object id s', s.create? object = some (id, s') →
        id.toNat = s.nextSlot ∧ s'.get? id = some object) := by
  intro s
  have h : s.Orderly := orderly_after operations
  have next : s.nextSlot < UInt32.size :=
    Nat.lt_of_le_of_lt (Nat.le_trans h.nextSlot_le h.size) (by decide)
  refine ⟨h.nodup, h.mem_free, h.charge, h.bounded, h.size, h.create?_eq_none_iff, h.isRipe_iff,
    ?_, ?_, next, ?_⟩
  · intro id live
    obtain ⟨object, here⟩ := isLive_iff.1 live
    have some : 0 < s.liveCount :=
      Array.countP_pos_iff.2 ⟨_, Array.mem_of_getElem? here, rfl⟩
    have charge := h.charge
    rw [Sequence.unit] at charge
    omega
  · intro slot free
    exact h.slot_lt free
  · intro object id s' made
    exact (h.create made).2

end Store

end RegisterCode

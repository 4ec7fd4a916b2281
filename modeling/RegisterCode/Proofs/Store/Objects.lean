import Mathlib.Logic.Function.Basic
import RegisterCode.Proofs.Store.Reuse

/-!
The object store as a map from numbers to objects. An object is a list of items that may be frozen;
how often it is referred to, which slots are empty and what is charged for them is not part of it.
What procedures do to the store (`Changed`) is to bind a number that was bound to nothing, to bind
one anew unless it is bound to a frozen object, or to unbind one. So a frozen object stays as it is
as long as it is there.
-/

namespace RegisterCode

/-- What a reader sees of the object store. -/
abbrev Objects := ObjectId → Option (List Value × Bool)

namespace Store

/-- For each number the items of the object, and whether they are frozen. -/
def objects (s : Store) : Objects := fun id =>
  (s.get? id).map fun x => (x.items.toList, x.frozen)

variable {s s' : Store} {id : ObjectId} {x x' : Sequence} {items : List Value}

theorem objects_eq_some (held : s.get? id = some x) :
    s.objects id = some (x.items.toList, x.frozen) := by
  rw [objects, held]
  rfl

theorem objects_eq_some_iff {frozen : Bool} : s.objects id = some (items, frozen) ↔
    ∃ x, s.get? id = some x ∧ x.items.toList = items ∧ x.frozen = frozen := by
  rw [objects, Option.map_eq_some_iff]
  simp only [Prod.mk.injEq]

theorem objects_eq_none_iff : s.objects id = none ↔ s.isLive id = false := by
  rw [objects, Option.map_eq_none_iff, isLive, Option.isSome_eq_false_iff,
    Option.isNone_iff_eq_none]

theorem isSome_objects : (s.objects id).isSome = s.isLive id := by
  rw [objects, Option.isSome_map, isLive]

/-- A store that differs from another in one place only. -/
theorem objects_eq_update (here : s'.get? id = some x)
    (others : ∀ other, other ≠ id → s'.get? other = s.get? other) :
    s'.objects = Function.update s.objects id (some (x.items.toList, x.frozen)) := by
  funext other
  by_cases same : other = id
  · rw [same, Function.update_self, objects_eq_some here]
  · rw [Function.update_of_ne same, objects, objects, others other same]

theorem objects_put (live : s.isLive id = true) (x : Sequence) :
    (s.put id x).objects = Function.update s.objects id (some (x.items.toList, x.frozen)) :=
  objects_eq_update (get?_put live x) fun _ apart => get?_put_of_ne apart x

theorem objects_create (orderly : s.Orderly) (made : s.create? x = some (id, s')) :
    s'.objects = Function.update s.objects id (some (x.items.toList, x.frozen)) :=
  objects_eq_update (orderly.create made).2.2 fun _ apart => get?_create?_of_ne orderly made apart

theorem objects_destroy : (s.destroy id).2.objects = Function.update s.objects id none := by
  funext other
  by_cases same : other = id
  · rw [same, Function.update_self, objects_eq_none_iff]
    exact isLive_destroy
  · rw [Function.update_of_ne same, objects, objects, get?_destroy_of_ne same]

/-! ### Changes -/

/-- What a procedure does to the store at most. -/
inductive Changed (s : Store) : Store → Prop where
  | same : Changed s s
  | created {x : Sequence} {id : ObjectId} {s' : Store} (made : s.create? x = some (id, s')) :
      Changed s s'
  | replaced {x x' : Sequence} {id : ObjectId} (held : s.get? id = some x)
      (loose : x.frozen = true → x' = x) : Changed s (s.put id x')
  | destroyed (id : ObjectId) : Changed s (s.destroy id).2

namespace Changed

theorem orderly (h : Changed s s') (orderly : s.Orderly) : s'.Orderly := by
  cases h with
  | same => exact orderly
  | created made => exact (orderly.create made).1
  | replaced held loose => exact orderly.put _ _
  | destroyed id => exact orderly.destroy id

/-- A frozen object stays as it is, or it is no longer there. -/
theorem frozen (h : Changed s s') (orderly : s.Orderly)
    (here : s.objects id = some (items, true)) :
    s'.objects id = some (items, true) ∨ s'.objects id = none := by
  cases h with
  | same => exact .inl here
  | @created x new s' made =>
      have apart : id ≠ new := by
        rintro rfl
        cases (objects_eq_none_iff.2 (isLive_of_create? orderly made)).symm.trans here
      rw [objects_create orderly made, Function.update_of_ne apart]
      exact .inl here
  | @replaced x x' target held loose =>
      rw [objects_put (isLive_of_get? held)]
      by_cases same : id = target
      · rw [same] at here
        obtain ⟨y, held', -, frozen⟩ := objects_eq_some_iff.1 here
        obtain rfl : x = y := Option.some.inj (held.symm.trans held')
        rw [same, Function.update_self, loose frozen, ← objects_eq_some held]
        exact .inl here
      · rw [Function.update_of_ne same]
        exact .inl here
  | destroyed target =>
      rw [objects_destroy]
      by_cases same : id = target
      · rw [same, Function.update_self]
        exact .inr rfl
      · rw [Function.update_of_ne same]
        exact .inl here

end Changed

end Store

end RegisterCode

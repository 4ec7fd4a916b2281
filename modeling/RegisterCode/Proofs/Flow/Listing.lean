import RegisterCode.Flow.Condense
import Mathlib.Data.List.Basic
import Mathlib.Data.List.Infix
import Mathlib.Data.List.Nodup
import Mathlib.Logic.Function.Basic

/-!
The steps of a function as one list, in the order in which its blocks are laid
out, and what can be read off that list: which register slot each temporary has
(the order of the first writes), and where each jump lands (the markers, played
through like the emission plays them).
-/

namespace RegisterCode

/-- The steps of a function, and the number of its parameters. -/
structure Listing where
  params : Nat
  steps : List Step
deriving DecidableEq, Repr

def Graph.listing (g : Graph) : Listing := ⟨g.paramCount.toNat, g.steps⟩

/-- The temporary that an address names, if it names one. -/
def Address.temp? (a : Address) : Option Int16 := if a.isTemp then some a.id else none

namespace Listing

/-! ### Slots -/

/-- A temporary that holds a parameter. -/
def IsParam (params : Nat) (t : Int16) : Prop := t.toUInt16.toNat < params

instance (params : Nat) (t : Int16) : Decidable (IsParam params t) :=
  inferInstanceAs (Decidable (_ < _))

/-- Adds the temporary that a step writes to those that have a name already. -/
def addName (params : Nat) (names : List Int16) (step : Step) : List Int16 :=
  match step.dest? with
  | some a => if IsParam params a.id ∨ a.id ∈ names then names else names ++ [a.id]
  | none => names

/-- The temporaries other than parameters that the first `k` steps write, in the
order of their first writes. -/
def names (l : Listing) (k : Nat) : List Int16 :=
  (l.steps.take k).foldl (addName l.params) []

/-- How many slots are taken before step `k`. -/
def room (l : Listing) (k : Nat) : Nat := l.params + (l.names k).length

/-- The register of the frame that a temporary has. -/
def slot (l : Listing) (t : Int16) : Nat :=
  if IsParam l.params t then t.toUInt16.toNat
  else l.params + (l.names l.steps.length).idxOf t

/-- The temporaries that have a slot of their own. -/
def Known (l : Listing) (t : Int16) : Prop :=
  IsParam l.params t ∨ t ∈ l.names l.steps.length

variable {l : Listing} {k : Nat} {t : Int16}

theorem names_zero : l.names 0 = [] := rfl

theorem names_succ {step : Step} (h : l.steps[k]? = some step) :
    l.names (k + 1) = addName l.params (l.names k) step := by
  rw [names, List.take_add_one, h, List.foldl_append]
  rfl

theorem names_of_le (h : l.steps.length ≤ k) : l.names k = l.names l.steps.length := by
  rw [names, names, List.take_of_length_le h, List.take_length]

theorem prefix_addName (params : Nat) (names : List Int16) (step : Step) :
    names <+: addName params names step := by
  unfold addName
  split
  · split
    · exact List.prefix_rfl
    · exact List.prefix_append _ _
  · exact List.prefix_rfl

theorem names_prefix_succ (l : Listing) (k : Nat) : l.names k <+: l.names (k + 1) := by
  cases h : l.steps[k]? with
  | none =>
      have le := List.getElem?_eq_none_iff.1 h
      rw [names_of_le le, names_of_le (Nat.le_succ_of_le le)]
  | some step =>
      rw [names_succ h]
      exact prefix_addName _ _ _

theorem names_isPrefix (l : Listing) {i k : Nat} (h : i ≤ k) : l.names i <+: l.names k := by
  induction h with
  | refl => exact List.prefix_rfl
  | step _ ih => exact ih.trans (names_prefix_succ l _)

theorem names_prefix_all (l : Listing) (k : Nat) : l.names k <+: l.names l.steps.length := by
  rcases Nat.le_total k l.steps.length with le | le
  · exact names_isPrefix l le
  · rw [names_of_le le]

theorem room_mono (l : Listing) {i k : Nat} (h : i ≤ k) : l.room i ≤ l.room k :=
  Nat.add_le_add_left (names_isPrefix l h).length_le _

theorem room_le_all (l : Listing) (k : Nat) : l.room k ≤ l.room l.steps.length :=
  Nat.add_le_add_left (names_prefix_all l k).length_le _

theorem mem_addName {params : Nat} {names : List Int16} {step : Step} {t : Int16} :
    t ∈ addName params names step ↔
      t ∈ names ∨ (¬ IsParam params t ∧ step.dest?.map Address.id = some t) := by
  unfold addName
  cases step.dest? with
  | none => simp
  | some a =>
      by_cases h : IsParam params a.id ∨ a.id ∈ names
      · simp only [h, if_true, Option.map_some, Option.some.injEq]
        refine ⟨.inl, fun known => ?_⟩
        rcases known with known | ⟨fresh, rfl⟩
        · exact known
        · exact h.resolve_left fresh
      · simp only [h, if_false, List.mem_append, List.mem_singleton, Option.map_some,
          Option.some.injEq]
        rw [not_or] at h
        refine or_congr_right ⟨fun same => ⟨same ▸ h.1, same.symm⟩, fun ⟨_, same⟩ => same.symm⟩

theorem not_isParam_of_mem_names (h : t ∈ l.names k) : ¬ IsParam l.params t := by
  induction k with
  | zero => simp [names_zero] at h
  | succ k ih =>
      cases step : l.steps[k]? with
      | none =>
          have le := List.getElem?_eq_none_iff.1 step
          rw [names_of_le (Nat.le_succ_of_le le), ← names_of_le le] at h
          exact ih h
      | some step' =>
          rw [names_succ step, mem_addName] at h
          exact h.elim ih fun fresh => fresh.1

theorem nodup_names (l : Listing) (k : Nat) : (l.names k).Nodup := by
  induction k with
  | zero => exact List.nodup_nil
  | succ k ih =>
      cases step : l.steps[k]? with
      | none =>
          have le := List.getElem?_eq_none_iff.1 step
          rw [names_of_le (Nat.le_succ_of_le le), ← names_of_le le]
          exact ih
      | some step' =>
          rw [names_succ step, addName]
          split
          · split
            · exact ih
            · rename_i fresh
              rw [not_or] at fresh
              exact List.nodup_append.2 ⟨ih, List.nodup_singleton _, fun a ha b hb same =>
                fresh.2 (List.mem_singleton.1 hb ▸ same ▸ ha)⟩
          · exact ih

theorem slot_of_isParam (h : IsParam l.params t) : l.slot t = t.toUInt16.toNat :=
  if_pos h

theorem slot_of_not_isParam (h : ¬ IsParam l.params t) :
    l.slot t = l.params + (l.names l.steps.length).idxOf t :=
  if_neg h

theorem slot_lt_room (h : IsParam l.params t ∨ t ∈ l.names k) : l.slot t < l.room k := by
  rcases h with h | h
  · rw [slot_of_isParam h]
    exact Nat.lt_of_lt_of_le h (Nat.le_add_right _ _)
  · rw [slot_of_not_isParam (not_isParam_of_mem_names h), room]
    have inside := List.idxOf_lt_length_of_mem h
    obtain ⟨rest, all⟩ := names_prefix_all l k
    rw [← all, List.idxOf_append_of_mem h]
    omega

theorem slot_lt_room_all (h : l.Known t) : l.slot t < l.room l.steps.length :=
  slot_lt_room h

/-- A temporary without a name so far has a slot beyond those taken. -/
theorem room_le_slot (param : ¬ IsParam l.params t) (h : t ∉ l.names k) :
    l.room k ≤ l.slot t := by
  rw [slot_of_not_isParam param, room]
  obtain ⟨rest, all⟩ := names_prefix_all l k
  rw [← all, List.idxOf_append_of_notMem h]
  omega

theorem room_succ_le (l : Listing) (k : Nat) : l.room (k + 1) ≤ l.room k + 1 := by
  cases step : l.steps[k]? with
  | none =>
      have le := List.getElem?_eq_none_iff.1 step
      rw [room, room, names_of_le (Nat.le_succ_of_le le), ← names_of_le le]
      exact Nat.le_succ _
  | some step' =>
      have size : (addName l.params (l.names k) step').length ≤ (l.names k).length + 1 := by
        unfold addName
        split
        · split
          · exact Nat.le_succ _
          · rw [List.length_append, List.length_singleton]
        · exact Nat.le_succ _
      rw [room, room, names_succ step]
      exact Nat.add_le_add_left size _

/-- The step that first writes a temporary gives it the next slot. -/
theorem slot_of_fresh {step : Step} (h : l.steps[k]? = some step)
    (dest : step.dest?.map Address.id = some t) (param : ¬ IsParam l.params t)
    (fresh : t ∉ l.names k) : l.slot t = l.room k := by
  have named : t ∈ l.names (k + 1) := by
    rw [names_succ h, mem_addName]
    exact .inr ⟨param, dest⟩
  have below := slot_lt_room (.inr named)
  have above := room_le_slot param fresh
  have size := room_succ_le l k
  omega

theorem room_succ_of_fresh {step : Step} (h : l.steps[k]? = some step)
    (dest : step.dest?.map Address.id = some t) (param : ¬ IsParam l.params t)
    (fresh : t ∉ l.names k) : l.room (k + 1) = l.room k + 1 := by
  have named : t ∈ l.names (k + 1) := by
    rw [names_succ h, mem_addName]
    exact .inr ⟨param, dest⟩
  have below := slot_lt_room (.inr named)
  rw [slot_of_fresh h dest param fresh] at below
  have size := room_succ_le l k
  omega

theorem slot_inj {t t' : Int16} (h : l.Known t)
    (same : l.slot t = l.slot t') : t = t' := by
  by_cases param : IsParam l.params t
  · by_cases param' : IsParam l.params t'
    · rw [slot_of_isParam param, slot_of_isParam param'] at same
      exact Int16.toBitVec_inj.1 (congrArg UInt16.toBitVec (UInt16.toNat_inj.1 same))
    · rw [slot_of_isParam param, slot_of_not_isParam param'] at same
      have inside : t.toUInt16.toNat < l.params := param
      omega
  · by_cases param' : IsParam l.params t'
    · rw [slot_of_not_isParam param, slot_of_isParam param'] at same
      have inside : t'.toUInt16.toNat < l.params := param'
      omega
    · rw [slot_of_not_isParam param, slot_of_not_isParam param'] at same
      exact (List.idxOf_inj (h.resolve_left param)).1 (Nat.add_left_cancel same)

end Listing

end RegisterCode

import RegisterCode.Flow.Traversal
import Mathlib.Data.List.Sort

/-!
Graphs whose edges all lead forward, to a later block, and whose blocks can all
be reached. The blocks of such a graph are laid out in the order of their
numbers, without exception.
-/

namespace RegisterCode

/-- Every edge leads to a later block of the graph, and to every block but the
entry there is one. -/
structure Graph.Forward (g : Graph) : Prop where
  entry : 0 < g.blocks.size
  ahead : ∀ (id : Nat) (b : Block), g.blocks[id]? = some b →
    ∀ s : Nat, s ∈ b.successors → id < s ∧ s < g.blocks.size
  entered : ∀ id : Nat, 0 < id → id < g.blocks.size →
    ∃ before : Nat, before < id ∧ ∃ b, g.blocks[before]? = some b ∧ id ∈ b.successors

/-! ### The waiting blocks -/

theorem mem_insertId {id : Nat} {ids : List Nat} {x : Nat} :
    x ∈ insertId id ids ↔ x = id ∨ x ∈ ids := by
  induction ids with
  | nil => simp [insertId]
  | cons first rest ih =>
      unfold insertId
      split
      · simp
      · split
        · rename_i same
          subst same
          simp
        · simp only [List.mem_cons, ih]
          exact or_left_comm

theorem pairwise_insertId {id : Nat} {ids : List Nat} (h : ids.Pairwise (· < ·)) :
    (insertId id ids).Pairwise (· < ·) := by
  induction ids with
  | nil => simp [insertId]
  | cons first rest ih =>
      obtain ⟨below, sorted⟩ := List.pairwise_cons.1 h
      unfold insertId
      split
      · rename_i lt
        refine List.pairwise_cons.2 ⟨fun x mem => ?_, h⟩
        rcases List.mem_cons.1 mem with rfl | mem
        · exact lt
        · exact Nat.lt_trans lt (below x mem)
      · split
        · exact h
        · rename_i notLt notEq
          refine List.pairwise_cons.2 ⟨fun x mem => ?_, ih sorted⟩
          rcases mem_insertId.1 mem with rfl | mem
          · exact Nat.lt_of_le_of_ne (Nat.not_lt.1 notLt) (Ne.symm notEq)
          · exact below x mem

theorem mem_foldl_insertId {found ids : List Nat} {x : Nat} :
    x ∈ found.foldl (fun ids s => insertId s ids) ids ↔ x ∈ found ∨ x ∈ ids := by
  induction found generalizing ids with
  | nil => simp
  | cons s found ih =>
      rw [List.foldl_cons, ih, mem_insertId, List.mem_cons, ← or_assoc]
      exact or_congr_left or_comm

theorem pairwise_foldl_insertId {found ids : List Nat} (h : ids.Pairwise (· < ·)) :
    (found.foldl (fun ids s => insertId s ids) ids).Pairwise (· < ·) := by
  induction found generalizing ids with
  | nil => exact h
  | cons s found ih => exact ih (pairwise_insertId h)

namespace Graph

/-- The state of the walk when the blocks below `id` have been laid out. -/
structure Walked (g : Graph) (id : Nat) (waiting : List Nat) (seen : Array Bool)
    (order : Array Nat) : Prop where
  sorted : waiting.Pairwise (· < ·)
  waits : ∀ x : Nat, x ∈ waiting ↔ id ≤ x ∧ (x = 0 ∨ ∃ before < id, ∃ b,
    g.blocks[before]? = some b ∧ x ∈ b.successors)
  size : seen.size = g.blocks.size
  seen : ∀ x : Nat, x < g.blocks.size → seen[x]? = some (decide (x < id))
  order : order = Array.range id

variable {g : Graph} {id : Nat} {waiting : List Nat} {seen : Array Bool}
  {order : Array Nat}

theorem walked_zero (g : Graph) :
    Walked g 0 [0] (Array.replicate g.blocks.size false) #[] where
  sorted := List.pairwise_singleton _ _
  waits x := by simp
  size := Array.size_replicate
  seen x lt := by simp [lt]
  order := rfl

namespace Walked

/-- The block that is next is the first one waiting. -/
theorem head (forward : g.Forward) (h : Walked g id waiting seen order)
    (lt : id < g.blocks.size) : ∃ rest, waiting = id :: rest := by
  have waits : id ∈ waiting := by
    rw [h.waits]
    refine ⟨Nat.le_refl _, ?_⟩
    by_cases first : id = 0
    · exact .inl first
    · exact .inr (forward.entered id (Nat.pos_of_ne_zero first) lt)
  have sorted := h.sorted
  cases waiting with
  | nil => cases waits
  | cons first rest =>
      have le := ((h.waits first).1 List.mem_cons_self).1
      rcases List.mem_cons.1 waits with same | mem
      · exact ⟨rest, same ▸ rfl⟩
      · have below := (List.pairwise_cons.1 sorted).1 id mem
        omega

/-- When all blocks are laid out, none is waiting. -/
theorem nil (forward : g.Forward) (h : Walked g g.blocks.size waiting seen order) :
    waiting = [] := by
  refine List.eq_nil_iff_forall_not_mem.2 fun x mem => ?_
  obtain ⟨le, zero | ⟨before, lt, b, here, mem⟩⟩ := (h.waits x).1 mem
  · have := forward.entry
    omega
  · have := (forward.ahead before b here x mem).2
    omega

theorem next (forward : g.Forward) {rest : List Nat}
    (h : Walked g id (id :: rest) seen order) {b : Block} (here : g.blocks[id]? = some b) :
    Walked g (id + 1)
      ((b.successors.filter fun s => !(seen.setIfInBounds id true).getD s true).foldl
        (fun ids s => insertId s ids) rest)
      (seen.setIfInBounds id true) (order.push id) := by
  have lt := (Array.getElem?_eq_some_iff.1 here).1
  obtain ⟨below, sorted⟩ := List.pairwise_cons.1 h.sorted
  have size := h.size
  have seen' : ∀ x < g.blocks.size,
      (seen.setIfInBounds id true)[x]? = some (decide (x < id + 1)) := by
    intro x lt'
    by_cases same : x = id
    · subst same
      rw [Array.getElem?_setIfInBounds_self_of_lt (by omega)]
      simp
    · rw [Array.getElem?_setIfInBounds_ne (Ne.symm same), h.seen x lt']
      congr 1
      rw [decide_eq_decide]
      omega
  refine ⟨pairwise_foldl_insertId sorted, fun x => ?_, ?_, seen', ?_⟩
  · rw [mem_foldl_insertId, List.mem_filter]
    constructor
    · rintro (⟨mem, -⟩ | mem)
      · exact ⟨(forward.ahead id b here x mem).1, .inr ⟨id, Nat.lt_succ_self id, b, here, mem⟩⟩
      · obtain ⟨-, entered⟩ := (h.waits x).1 (List.mem_cons_of_mem _ mem)
        refine ⟨below x mem, entered.imp_right ?_⟩
        rintro ⟨before, lt', rest⟩
        exact ⟨before, by omega, rest⟩
    · rintro ⟨le, zero | ⟨before, lt', b', here', mem⟩⟩
      · omega
      · by_cases last : before = id
        · subst last
          rw [here] at here'
          cases here'
          refine .inl ⟨mem, ?_⟩
          have inside := (forward.ahead before b here x mem).2
          rw [Array.getD_eq_getD_getElem?, seen' x inside]
          simp
          omega
        · refine .inr ?_
          have waits := (h.waits x).2 ⟨by omega, .inr ⟨before, by omega, b', here', mem⟩⟩
          rcases List.mem_cons.1 waits with same | mem
          · omega
          · exact mem
  · rw [Array.size_setIfInBounds]
    exact size
  · rw [h.order, Array.range_succ, Array.push_eq_append]

end Walked

theorem layOutFrom_eq (forward : g.Forward) {n : Nat} (h : Walked g id waiting seen order)
    (le : id ≤ g.blocks.size) (turns : g.blocks.size < n + id) :
    g.layOutFrom n waiting seen order = ⟨Array.range g.blocks.size, none⟩ := by
  induction n generalizing id waiting seen order with
  | zero => omega
  | succ n ih =>
      by_cases lt : id < g.blocks.size
      · obtain ⟨rest, rfl⟩ := h.head forward lt
        have here := Array.getElem?_eq_getElem lt
        have inside : (g.blocks[id].successors.find? fun s => g.blocks.size ≤ s) = none := by
          rw [List.find?_eq_none]
          intro s mem
          have := (forward.ahead id _ here s mem).2
          simp only [decide_eq_true_eq]
          omega
        rw [layOutFrom, here]
        simp only [inside]
        exact ih (h.next forward here) lt (by omega)
      · have last : id = g.blocks.size := by omega
        subst last
        rw [h.nil forward, layOutFrom, h.order]

/-- The blocks of a forward graph are laid out in the order of their numbers. -/
theorem Forward.layOut_eq (forward : g.Forward) :
    g.layOut = ⟨Array.range g.blocks.size, none⟩ :=
  layOutFrom_eq forward (walked_zero g) (Nat.zero_le _) (Nat.lt_succ_self _)

end Graph

end RegisterCode

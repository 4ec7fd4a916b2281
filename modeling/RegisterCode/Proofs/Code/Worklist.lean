import RegisterCode.Proofs.Code.Emission
import RegisterCode.Proofs.Flow.WellFormed
import Mathlib.Data.Finset.Card
import Mathlib.Data.Prod.Lex
import Mathlib.Order.Bounds.Basic

/-!
The walk that emission takes through a graph, told turn by turn: a set of waiting blocks, the
blocks visited so far, and the emitter. Each turn takes the lowest block that waits. The graph may
go round, have blocks that are out of reach, and edges that lead nowhere.
-/

namespace RegisterCode

/-! ### Turns -/

/-- A walk under way. -/
structure Worklist where
  waiting : Finset Nat
  visited : List Nat
  emitter : Emitter

/-- A walk begins at the entry, with nothing emitted. -/
def Worklist.start (paramCount : UInt16) : Worklist := ⟨{0}, [], .start paramCount⟩

namespace Graph

/-- Emits a block, if there is one. -/
def emitBlock (g : Graph) (f : EmissionContext) (id : Nat) : Emission Unit :=
  (g.rows.getD id []).forM (Emitter.emitStep f)

variable (g : Graph) (f : EmissionContext)

/-- One turn of a walk. The lowest block that waits is emitted, unless it was visited before, and
its successors wait from now on, as far as they were not visited. -/
inductive Turn : Worklist → Worklist → Prop where
  | skip {waiting : Finset Nat} {visited : List Nat} {e : Emitter} {id : Nat}
    (least : IsLeast (waiting : Set Nat) id) (again : id ∈ visited) :
    Turn ⟨waiting, visited, e⟩ ⟨waiting.erase id, visited, e⟩
  | visit {waiting : Finset Nat} {visited : List Nat} {e e' : Emitter} {id : Nat} {b : Block}
    (least : IsLeast (waiting : Set Nat) id) (fresh : id ∉ visited)
    (found : g.blocks[id]? = some b) (emitted : g.emitBlock f id e = .ok () e')
    (inside : ∀ s : Nat, s ∈ b.successors → s < g.blocks.size) :
    Turn ⟨waiting, visited, e⟩
      ⟨waiting.erase id ∪ (b.successors.filter (· ∉ visited ++ [id])).toFinset, visited ++ [id], e'⟩

/-- How a walk ends. Nothing waits any more, and all jumps have their targets or some have not. Or
the lowest block that waits does not exist, cannot be emitted, or is left along an edge that leads
nowhere. -/
inductive Ends : Worklist → EStateM.Result EmissionError Emitter Chunk → Prop where
  | done {visited : List Nat} {e : Emitter} (balanced : e.patches = []) :
    Ends ⟨∅, visited, e⟩ (.ok e.code e)
  | unbalanced {visited : List Nat} {e : Emitter} (pending : e.patches ≠ []) :
    Ends ⟨∅, visited, e⟩ (.error (.unbalancedPatches f.func e.patches.length) e)
  | noBlock {waiting : Finset Nat} {visited : List Nat} {e : Emitter} {id : Nat}
    (least : IsLeast (waiting : Set Nat) id) (fresh : id ∉ visited)
    (missing : g.blocks[id]? = none) :
    Ends ⟨waiting, visited, e⟩ (.error (.missingBlock f.func id id) e)
  | refused {waiting : Finset Nat} {visited : List Nat} {e e' : Emitter} {id : Nat}
    {error : EmissionError} (least : IsLeast (waiting : Set Nat) id) (fresh : id ∉ visited)
    (emitted : g.emitBlock f id e = .error error e') :
    Ends ⟨waiting, visited, e⟩ (.error error e')
  | astray {waiting : Finset Nat} {visited : List Nat} {e e' : Emitter} {id s : Nat} {b : Block}
    (least : IsLeast (waiting : Set Nat) id) (fresh : id ∉ visited)
    (found : g.blocks[id]? = some b) (emitted : g.emitBlock f id e = .ok () e')
    (outside : b.successors.find? (g.blocks.size ≤ ·) = some s) :
    Ends ⟨waiting, visited, e⟩ (.error (.missingBlock f.func id s) e')

variable {g f} {w w' : Worklist}

/-- There is no endless walk. Each turn visits another block, or visits none and leaves fewer
blocks waiting. -/
theorem turn_wellFounded : WellFounded fun w' w => g.Turn f w w' := by
  let left (w : Worklist) : Nat := (Finset.range g.blocks.size \ w.visited.toFinset).card
  refine Subrelation.wf (r := InvImage _ fun w => (left w, w.waiting.card)) ?_
    (InvImage.wf _ (Prod.lex Nat.lt_wfRel Nat.lt_wfRel).wf)
  intro w' w turn
  cases turn with
  | skip least => exact .right _ (Finset.card_erase_lt_of_mem (Finset.mem_coe.1 least.1))
  | @visit waiting visited e e' id b _ fresh found =>
      have lt := (Array.getElem?_eq_some_iff.1 found).1
      refine .left _ _ (Finset.card_lt_card ?_)
      rw [Finset.ssubset_iff_of_subset]
      · exact ⟨id, by simp [lt, fresh], by simp⟩
      · intro x mem
        rw [Finset.mem_sdiff, List.mem_toFinset] at mem ⊢
        exact ⟨mem.1, fun old => mem.2 (List.mem_append_left _ old)⟩

/-! ### The frontier -/

/-- What is known of a walk under way. It has visited blocks of the graph that can be reached, each
of them once, and what waits is whatever they lead to apart from themselves. The emitter is where
it is when those blocks are emitted, one after the other. -/
structure Explored (g : Graph) (f : EmissionContext) (w : Worklist) : Prop where
  once : w.visited.Nodup
  reached : ∀ id ∈ w.visited, Relation.ReflTransGen g.Edge 0 id
  inside : ∀ id ∈ w.visited, id < g.blocks.size ∧ ∀ s, g.Edge id s → s < g.blocks.size
  waits : ∀ id, id ∈ w.waiting ↔ id ∉ w.visited ∧ (id = 0 ∨ ∃ before ∈ w.visited, g.Edge before id)
  emitted : w.visited.forM (g.emitBlock f) (Emitter.start g.paramCount) = .ok () w.emitter

theorem explored_start (g : Graph) (f : EmissionContext) :
    g.Explored f (.start g.paramCount) where
  once := List.nodup_nil
  reached _ mem := nomatch mem
  inside _ mem := nomatch mem
  waits id := by simp [Worklist.start]
  emitted := rfl

/-- What waits can be reached. -/
theorem Explored.reaches (h : g.Explored f w) {id : Nat} (waits : id ∈ w.waiting) :
    Relation.ReflTransGen g.Edge 0 id := by
  obtain ⟨-, rfl | ⟨before, mem, edge⟩⟩ := (h.waits id).1 waits
  · exact .refl
  · exact (h.reached before mem).tail edge

theorem Explored.turn (h : g.Explored f w) (turn : g.Turn f w w') : g.Explored f w' := by
  cases turn with
  | skip least again => exact absurd again ((h.waits _).1 (Finset.mem_coe.1 least.1)).1
  | @visit waiting visited e e' id b least fresh found emitted inside =>
      have waits := Finset.mem_coe.1 least.1
      have edges {s : Nat} : g.Edge id s ↔ s ∈ b.successors := by
        rw [Edge, found]
        simp
      refine ⟨?_, fun x mem => ?_, fun x mem => ?_, fun x => ?_, ?_⟩
      · rw [← List.concat_eq_append, List.nodup_concat]
        exact ⟨fresh, h.once⟩
      · rcases List.mem_append.1 mem with mem | mem
        · exact h.reached x mem
        · exact List.mem_singleton.1 mem ▸ h.reaches waits
      · rcases List.mem_append.1 mem with mem | mem
        · exact h.inside x mem
        · obtain rfl := List.mem_singleton.1 mem
          exact ⟨(Array.getElem?_eq_some_iff.1 found).1, fun s edge => inside s (edges.1 edge)⟩
      · have before := h.waits x
        dsimp only at before ⊢
        rw [Finset.mem_union, Finset.mem_erase, before, List.mem_toFinset, List.mem_filter,
          decide_eq_true_eq]
        simp only [List.mem_append, List.mem_singleton, or_and_right, exists_or, exists_eq_left,
          edges, not_or]
        constructor
        · rintro (⟨other, old, entered⟩ | ⟨mem, old, other⟩)
          · exact ⟨⟨old, other⟩, entered.imp_right .inl⟩
          · exact ⟨⟨old, other⟩, .inr (.inr mem)⟩
        · rintro ⟨⟨old, other⟩, zero | entered | mem⟩
          · exact .inl ⟨other, old, .inl zero⟩
          · exact .inl ⟨other, old, .inr entered⟩
          · exact .inr ⟨mem, old, other⟩
      · rw [forM_append, bind_of_ok h.emitted, forM_cons, bind_of_ok emitted]
        rfl

theorem Explored.walk (h : g.Explored f w) (walk : Relation.ReflTransGen (g.Turn f) w w') :
    g.Explored f w' := by
  induction walk with
  | refl => exact h
  | tail _ turn ih => exact ih.turn turn

/-- When nothing waits any more, the blocks visited are those that can be reached. -/
theorem Explored.complete (h : g.Explored f w) (empty : w.waiting = ∅) {id : Nat} :
    id ∈ w.visited ↔ Relation.ReflTransGen g.Edge 0 id := by
  have closed {id : Nat} (entered : id = 0 ∨ ∃ before ∈ w.visited, g.Edge before id) :
      id ∈ w.visited := by
    by_contra fresh
    have waits := (h.waits id).2 ⟨fresh, entered⟩
    rw [empty] at waits
    exact Finset.notMem_empty id waits
  refine ⟨h.reached id, fun reached => ?_⟩
  induction reached with
  | refl => exact closed (.inl rfl)
  | tail _ edge ih => exact closed (.inr ⟨_, ih, edge⟩)

/-! ### Emission walks -/

/-- What remains to be done when the walk is over. -/
def conclude (f : EmissionContext) (missing : Option (Nat × Nat)) : Emission Chunk := do
  match missing with
  | some (source, target) => throw (.missingBlock f.func source target)
  | none => pure ()
  let pending := (← get).patches.length
  if pending ≠ 0 then throw (.unbalancedPatches f.func pending)
  return (← get).code

theorem emitLaidOut_eq_forM (g : Graph) (f : EmissionContext) :
    g.emitLaidOut f =
      g.layOut.order.toList.forM (g.emitBlock f) >>= fun _ => conclude f g.layOut.missing := by
  have block : g.emitBlock f = fun id : Nat =>
      ((g.blocks[id]?.map Block.steps).getD #[]).toList.forM (Emitter.emitStep f) := by
    funext id
    rw [emitBlock, List.getD_eq_getElem?_getD, rows, List.getElem?_map, Array.getElem?_toList]
    cases g.blocks[id]? <;> rfl
  rw [emitLaidOut, block]
  simp only [← Array.forIn_toList, forIn_eq_forM]
  rfl

/-- The walk has come as far as the traversal of the graph. -/
structure Tracks (g : Graph) (w : Worklist) (waiting : List Nat) (seen : Array Bool)
    (order : Array Nat) : Prop where
  sorted : waiting.Pairwise (· < ·)
  waits : w.waiting = waiting.toFinset
  visited : w.visited = order.toList
  seen : ∀ id < g.blocks.size, seen[id]? = some (decide (id ∈ order))

theorem tracks_start (g : Graph) :
    g.Tracks (.start g.paramCount) [0] (Array.replicate g.blocks.size false) #[] where
  sorted := List.pairwise_singleton _ _
  waits := rfl
  visited := rfl
  seen id lt := by simp [lt]

theorem Tracks.least {id : Nat} {waiting : List Nat} {seen : Array Bool} {order : Array Nat}
    (h : g.Tracks w (id :: waiting) seen order) : IsLeast (w.waiting : Set Nat) id := by
  rw [h.waits, List.coe_toFinset]
  refine ⟨List.mem_cons_self, fun x mem => ?_⟩
  rcases List.mem_cons.1 mem with rfl | mem
  · exact Nat.le_refl _
  · exact Nat.le_of_lt ((List.pairwise_cons.1 h.sorted).1 x mem)

theorem Tracks.visit {id : Nat} {b : Block} {waiting : List Nat} {seen : Array Bool}
    {order : Array Nat} {e : Emitter} (h : g.Tracks w (id :: waiting) seen order)
    (found : g.blocks[id]? = some b) (inside : ∀ s : Nat, s ∈ b.successors → s < g.blocks.size) :
    g.Tracks ⟨w.waiting.erase id ∪ (b.successors.filter (· ∉ w.visited ++ [id])).toFinset,
        w.visited ++ [id], e⟩
      ((b.successors.filter fun s => !(seen.setIfInBounds id true).getD s true).foldl
        (fun ids s => insertId s ids) waiting)
      (seen.setIfInBounds id true) (order.push id) := by
  obtain ⟨below, sorted⟩ := List.pairwise_cons.1 h.sorted
  have lt := (Array.getElem?_eq_some_iff.1 found).1
  have seen' : ∀ x < g.blocks.size,
      (seen.setIfInBounds id true)[x]? = some (decide (x ∈ order.push id)) := by
    intro x lt'
    by_cases same : x = id
    · subst same
      have inSeen := (Array.getElem?_eq_some_iff.1 (h.seen x lt)).1
      rw [Array.getElem?_setIfInBounds_self_of_lt inSeen]
      simp
    · rw [Array.getElem?_setIfInBounds_ne (Ne.symm same), h.seen x lt']
      simp [same]
  refine ⟨pairwise_foldl_insertId sorted, ?_, ?_, seen'⟩
  · ext x
    rw [h.waits, h.visited]
    simp only [Finset.mem_union, Finset.mem_erase, List.mem_toFinset, mem_foldl_insertId,
      List.mem_filter, List.mem_cons]
    have rest : (x ≠ id ∧ (x = id ∨ x ∈ waiting)) ↔ x ∈ waiting := by
      refine ⟨fun both => both.2.resolve_left both.1, fun mem => ⟨?_, .inr mem⟩⟩
      exact Nat.ne_of_gt (below x mem)
    rw [rest, or_comm]
    refine or_congr_left (and_congr_right fun mem => ?_)
    rw [Array.getD_eq_getD_getElem?, seen' x (inside x mem)]
    simp
  · rw [h.visited, Array.toList_push]

/-- The traversal goes on from the order that it has. -/
theorem prefix_layOutFrom (n : Nat) (waiting : List Nat) (seen : Array Bool) (order : Array Nat) :
    order.toList <+: (g.layOutFrom n waiting seen order).order.toList := by
  induction n generalizing waiting seen order with
  | zero => exact List.prefix_rfl
  | succ n ih =>
      have pushed (id : Nat) : order.toList <+: (order.push id).toList := by
        rw [Array.toList_push]
        exact List.prefix_append _ _
      cases waiting with
      | nil => exact List.prefix_rfl
      | cons id waiting =>
          rw [layOutFrom]
          split
          · exact List.prefix_rfl
          · dsimp only
            split
            · exact pushed id
            · exact (pushed id).trans (ih _ _ _)

/-- The block that is next is the next one in the order, even if one of its edges leads nowhere. -/
theorem goes_on {n id : Nat} {b : Block} {waiting more : List Nat} {seen : Array Bool}
    {order : Array Nat} (found : g.blocks[id]? = some b)
    (goes : (g.layOutFrom (n + 1) (id :: waiting) seen order).order.toList =
      order.toList ++ more) : ∃ rest, more = id :: rest := by
  have pushed : (order.push id).toList <+:
      (g.layOutFrom (n + 1) (id :: waiting) seen order).order.toList := by
    rw [layOutFrom, found]
    dsimp only
    split
    · exact List.prefix_rfl
    · exact prefix_layOutFrom _ _ _ _
  rw [goes, Array.toList_push, List.prefix_append_right_inj] at pushed
  obtain ⟨rest, rfl⟩ := pushed
  exact ⟨rest, rfl⟩

theorem ends_conclude (visited : List Nat) (e : Emitter) :
    g.Ends f ⟨∅, visited, e⟩ (conclude f none e) := by
  have concluded : conclude f none e =
      if e.patches.length ≠ 0 then .error (.unbalancedPatches f.func e.patches.length) e
      else .ok e.code e := by
    unfold conclude
    dsimp only
    rw [bind_of_ok (get_apply e)]
    split <;> rfl
  rw [concluded]
  split
  · rename_i pending
    exact .unbalanced (mt List.length_eq_zero_iff.2 pending)
  · rename_i none
    exact .done (List.length_eq_zero_iff.1 (Decidable.not_not.1 none))

/-- Going through the blocks of the traversal and concluding is a walk and the end of it. -/
theorem walk_of_layOutFrom {n : Nat} {waiting : List Nat} {seen : Array Bool} {order : Array Nat}
    (tracks : g.Tracks w waiting seen order) (explored : g.Explored f w)
    (fuel : g.blocks.size < n + order.size) {more : List Nat}
    (goes : (g.layOutFrom n waiting seen order).order.toList = order.toList ++ more) :
    ∃ w', Relation.ReflTransGen (g.Turn f) w w' ∧
      g.Ends f w' ((more.forM (g.emitBlock f) >>= fun _ =>
        conclude f (g.layOutFrom n waiting seen order).missing) w.emitter) := by
  induction n generalizing w waiting seen order more with
  | zero =>
      -- No more blocks than there are can have been visited, so the fuel lasts.
      have subset : order.toList ⊆ List.range g.blocks.size := fun id mem =>
        List.mem_range.2 (explored.inside id (tracks.visited ▸ mem)).1
      have once := tracks.visited ▸ explored.once
      have le := (List.subperm_of_subset once subset).length_le
      rw [List.length_range, Array.length_toList] at le
      omega
  | succ n ih =>
      obtain ⟨waits, visited, e⟩ := w
      cases waiting with
      | nil =>
          obtain rfl : waits = ∅ := tracks.waits
          obtain rfl := List.self_eq_append_right.1 goes
          exact ⟨_, .refl, ends_conclude visited e⟩
      | cons id waiting =>
          have least := tracks.least
          have fresh := ((explored.waits id).1 (Finset.mem_coe.1 least.1)).1
          cases found : g.blocks[id]? with
          | none =>
              rw [layOutFrom, found] at goes ⊢
              obtain rfl := List.self_eq_append_right.1 goes
              exact ⟨_, .refl, .noBlock least fresh found⟩
          | some b =>
              obtain ⟨rest, rfl⟩ := goes_on found goes
              rw [forM_cons, bind_assoc]
              cases emitted : g.emitBlock f id e with
              | error error e' =>
                  refine ⟨_, .refl, ?_⟩
                  rw [bind_of_error emitted]
                  exact .refused least fresh emitted
              | ok _ e' =>
                  rw [bind_of_ok emitted]
                  rw [layOutFrom, found] at goes ⊢
                  have pushed : order.toList ++ id :: rest = (order.push id).toList ++ rest := by
                    rw [Array.toList_push, List.append_assoc]
                    rfl
                  rw [pushed] at goes
                  cases outside : b.successors.find? fun s => g.blocks.size ≤ s with
                  | some s =>
                      simp only [outside] at goes ⊢
                      obtain rfl := List.self_eq_append_right.1 goes
                      exact ⟨_, .refl, .astray least fresh found emitted outside⟩
                  | none =>
                      have inside : ∀ s ∈ b.successors, s < g.blocks.size := fun s mem => by
                        simpa using List.find?_eq_none.1 outside s mem
                      simp only [outside] at goes ⊢
                      have turn : g.Turn f ⟨waits, visited, e⟩ _ :=
                        .visit least fresh found emitted inside
                      obtain ⟨w', walk, ends⟩ := ih (tracks.visit found inside)
                        (explored.turn turn) (by rw [Array.size_push]; omega) goes
                      exact ⟨w', .head turn walk, ends⟩

end Graph

/-! ### Missing blocks -/

/-- The error tells of an edge to a block that does not exist. -/
def EmissionError.IsMissing : EmissionError → Prop
  | missingBlock .. => True
  | _ => False

namespace Emitter

variable (f : EmissionContext)

/-- Going through steps never fails for a missing block. -/
abbrev InBlock {α : Type} (a : Emission α) : Prop := FailsOnly (fun error => ¬ error.IsMissing) a

theorem inBlock_adjust (delta : Int) : InBlock (adjust f delta) := by
  intro e error e' failed
  unfold adjust at failed
  dsimp only at failed
  split at failed
  · cases failed
    exact not_false
  · split at failed <;> cases failed
    exact not_false

theorem inBlock_emit (i : Instruction) : InBlock (emit f i) :=
  (inBlock_adjust f _).bind fun _ => .modify _

theorem inBlock_slotOf (t : Int16) : InBlock (slotOf f t) := by
  intro e error e' failed
  unfold slotOf at failed
  split at failed
  · cases failed
  · split at failed
    · cases failed
    · dsimp only at failed
      split at failed <;> cases failed
      exact not_false

theorem inBlock_resolve (a : Address) : InBlock (resolve f a) := by
  unfold resolve
  split
  · exact .pure _
  · split
    · exact .pure _
    · exact .throw not_false
  · exact .pure _
  · refine (inBlock_slotOf f _).bind fun slot => ?_
    split
    · exact .pure _
    · exact .throw not_false

theorem inBlock_resolveDest (a : Address) : InBlock (resolveDest f a) := by
  unfold resolveDest
  split
  · exact inBlock_resolve f a
  · exact .throw not_false

theorem inBlock_emitBinary (op : BinaryOp) (dest left right : Address) :
    InBlock (emitBinary f op dest left right) := by
  refine (inBlock_resolve f left).bind fun _ => (inBlock_emit f _).bind fun _ => ?_
  refine (inBlock_resolve f right).bind fun _ => (inBlock_emit f _).bind fun _ => ?_
  refine (inBlock_emit f _).bind fun _ => (inBlock_adjust f _).bind fun _ => ?_
  exact (inBlock_resolveDest f dest).bind fun _ => .modify _

theorem inBlock_savePatch : InBlock savePatch := by
  intro e error e' failed
  unfold savePatch at failed
  split at failed <;> cases failed
  exact not_false

theorem inBlock_shufflePatches : InBlock (shufflePatches f) := by
  intro e error e' failed
  unfold shufflePatches at failed
  split at failed <;> cases failed
  exact not_false

theorem inBlock_takePatch (marker : Op) : InBlock (takePatch f marker) := by
  intro e error e' failed
  unfold takePatch at failed
  split at failed <;> cases failed
  exact not_false

theorem inBlock_patch (marker : Op) (expected : Opcode) (slot : Nat) :
    InBlock (patch f marker expected slot) := by
  refine (inBlock_takePatch f marker).bind fun position => FailsOnly.get.bind fun e => ?_
  dsimp only
  split
  · exact .throw_bind not_false
  · split
    · exact .throw_bind not_false
    · refine FailsOnly.get.bind fun e => ?_
      split
      · exact .throw not_false
      · split
        · exact .modify _
        · exact .throw not_false

/-- No step fails for a missing block. -/
theorem inBlock_emitStep (step : Step) : InBlock (emitStep f step) := by
  unfold emitStep
  dsimp only
  split
  · refine (inBlock_resolve f _).bind fun _ => (inBlock_resolveDest f _).bind fun _ => ?_
    exact inBlock_emit f _
  · refine (inBlock_resolve f _).bind fun _ => (inBlock_resolveDest f _).bind fun _ => ?_
    split
    · exact (inBlock_emit f _).bind fun _ => inBlock_emit f _
    · exact inBlock_emit f _
  all_goals first
    | exact .throw not_false
    | exact .pure _
    | exact inBlock_emit f _
    | exact inBlock_emitBinary f _ _ _ _
    | exact inBlock_savePatch
    | exact inBlock_shufflePatches f
    | exact inBlock_patch f _ _ _
    | exact (inBlock_resolve f _).bind fun _ => inBlock_emit f _
    | exact (inBlock_resolve f _).bind fun _ => (inBlock_resolve f _).bind fun _ => inBlock_emit f _

end Emitter

namespace Graph

variable {g : Graph} {f : EmissionContext} {w w1 w2 : Worklist}

/-- There is no choice in a walk. -/
theorem Turn.unique (first : g.Turn f w w1) (second : g.Turn f w w2) : w1 = w2 := by
  cases first with
  | skip least again =>
      cases second with
      | skip least' => rw [least.unique least']
      | visit least' fresh => exact absurd (least.unique least' ▸ again) fresh
  | visit least fresh found emitted =>
      cases second with
      | skip least' again => exact absurd (least'.unique least ▸ again) fresh
      | visit least' _ found' emitted' =>
          obtain rfl := least.unique least'
          rw [found] at found'
          cases found'
          rw [emitted] at emitted'
          cases emitted'
          rfl

/-- A walk that goes on is not at an end. -/
theorem Turn.not_ends (turn : g.Turn f w w1) {r : EStateM.Result EmissionError Emitter Chunk} :
    ¬ g.Ends f w r := by
  intro ends
  cases turn with
  | skip least again =>
      cases ends with
      | done | unbalanced => exact Finset.notMem_empty _ (Finset.mem_coe.1 least.1)
      | noBlock least' fresh | refused least' fresh | astray least' fresh =>
          exact fresh (least'.unique least ▸ again)
  | visit least fresh found emitted inside =>
      cases ends with
      | done | unbalanced => exact Finset.notMem_empty _ (Finset.mem_coe.1 least.1)
      | noBlock least' _ missing =>
          rw [least'.unique least, found] at missing
          cases missing
      | refused least' _ emitted' =>
          rw [least'.unique least, emitted] at emitted'
          cases emitted'
      | astray least' _ found' _ outside =>
          rw [least'.unique least, found] at found'
          cases found'
          have beyond := List.find?_some outside
          have lt := inside _ (List.mem_of_find?_eq_some outside)
          exact Nat.not_lt.2 (of_decide_eq_true beyond) lt

/-- The entry is missing, or an edge from a block that can be reached leads nowhere. -/
def Astray (g : Graph) : Prop :=
  g.blocks = #[] ∨ ∃ source target, Relation.ReflTransGen g.Edge 0 source ∧ g.Edge source target ∧
    g.blocks[target]? = none

/-- A walk that goes astray does not end well. -/
theorem Explored.not_astray (h : g.Explored f w) (empty : w.waiting = ∅) : ¬ g.Astray := by
  rintro (none | ⟨source, target, reached, edge, missing⟩)
  · have lt := (h.inside 0 ((h.complete empty).2 .refl)).1
    rw [none] at lt
    exact Nat.not_lt_zero 0 lt
  · have lt := (h.inside source ((h.complete empty).2 reached)).2 target edge
    exact Nat.not_lt.2 (Array.getElem?_eq_none_iff.1 missing) lt

/-- Where a walk ends for a missing block, the entry is missing or the block is that of an edge. -/
theorem Explored.missing (h : g.Explored f w) {e : Emitter} {func source target : Nat}
    (ends : g.Ends f w (.error (.missingBlock func source target) e)) :
    func = f.func ∧ ((g.blocks = #[] ∧ source = 0 ∧ target = 0) ∨
      (Relation.ReflTransGen g.Edge 0 source ∧ g.Edge source target ∧
        g.blocks[target]? = none)) := by
  cases ends with
  | noBlock least fresh missing =>
      obtain ⟨-, rfl | ⟨before, mem, edge⟩⟩ := (h.waits _).1 (Finset.mem_coe.1 least.1)
      · exact ⟨rfl, .inl ⟨Array.size_eq_zero_iff.1 (Nat.le_zero.1
          (Array.getElem?_eq_none_iff.1 missing)), rfl, rfl⟩⟩
      · have lt := (h.inside before mem).2 _ edge
        exact absurd lt (Nat.not_lt.2 (Array.getElem?_eq_none_iff.1 missing))
  | refused least fresh emitted =>
      exact absurd trivial (FailsOnly.forM (Emitter.inBlock_emitStep f) _ _ _ emitted)
  | astray least fresh found emitted outside =>
      have beyond : g.blocks.size ≤ target := by simpa using List.find?_some outside
      exact ⟨rfl, .inr ⟨h.reaches (Finset.mem_coe.1 least.1),
        ⟨_, found, List.mem_of_find?_eq_some outside⟩, Array.getElem?_eq_none beyond⟩⟩

/-- Emission is a walk through the graph, however its edges go. The walk comes to an end, visits a
block no more than once, the lowest that waits first, and is over when it has emitted all that can
be reached. It fails for a missing block only if there is one, and does not succeed then. -/
theorem emission_walks (g : Graph) (constants func : Nat) :
    let f : EmissionContext := ⟨func, g.paramCount, constants⟩
    let result := (g.emit constants func).result
    WellFounded (fun w' w => g.Turn f w w') ∧
    (∀ w w1, g.Turn f w w1 → (∀ w2, g.Turn f w w2 → w1 = w2) ∧ ∀ r, ¬ g.Ends f w r) ∧
    (∀ w, Relation.ReflTransGen (g.Turn f) (.start g.paramCount) w → g.Explored f w) ∧
    (∃ w, Relation.ReflTransGen (g.Turn f) (.start g.paramCount) w ∧
      g.Ends f w (g.emitLaidOut f (.start g.paramCount)) ∧
      ∀ chunk, result = .ok chunk → w.emitter.code = chunk ∧
        ∀ id, id ∈ w.visited ↔ Relation.ReflTransGen g.Edge 0 id) ∧
    (∀ func' source target, result = .error (.missingBlock func' source target) →
      func' = func ∧ ((g.blocks = #[] ∧ source = 0 ∧ target = 0) ∨
        (Relation.ReflTransGen g.Edge 0 source ∧ g.Edge source target ∧
          g.blocks[target]? = none))) ∧
    (g.Astray → ∀ chunk, result ≠ .ok chunk) := by
  intro f result
  have explored (w : Worklist)
      (walk : Relation.ReflTransGen (g.Turn f) (.start g.paramCount) w) : g.Explored f w :=
    (explored_start g f).walk walk
  have goes : g.layOut.order.toList = [] ++ g.layOut.order.toList := rfl
  obtain ⟨w, walk, ends⟩ := walk_of_layOutFrom (tracks_start g) (explored_start g f)
    (Nat.lt_succ_self _) goes
  have ends : g.Ends f w (g.emitLaidOut f (.start g.paramCount)) := by
    rw [emitLaidOut_eq_forM]
    exact ends
  have accepted {chunk : Chunk} (ok : result = .ok chunk) :
      ∃ e, g.Ends f w (.ok chunk e) := by
    cases run : g.emitLaidOut f (.start g.paramCount) with
    | ok chunk' e =>
        have same : result = .ok chunk' := by simp only [result, emit, f, run]
        cases same.symm.trans ok
        exact ⟨e, run ▸ ends⟩
    | error error e =>
        have same : result = .error error := by simp only [result, emit, f, run]
        cases same.symm.trans ok
  refine ⟨turn_wellFounded, fun _ _ turn => ⟨fun _ => turn.unique, fun _ => turn.not_ends⟩,
    explored, ⟨w, walk, ends, ?_⟩, ?_, ?_⟩
  · intro chunk ok
    obtain ⟨e, done⟩ := accepted ok
    cases done
    exact ⟨rfl, fun id => (explored _ walk).complete rfl⟩
  · intro func' source target failed
    cases run : g.emitLaidOut f (.start g.paramCount) with
    | ok chunk e =>
        have same : result = .ok chunk := by simp only [result, emit, f, run]
        cases same.symm.trans failed
    | error error e =>
        have same : result = .error error := by simp only [result, emit, f, run]
        cases same.symm.trans failed
        exact (explored w walk).missing (run ▸ ends)
  · intro astray chunk ok
    obtain ⟨e, done⟩ := accepted ok
    cases done
    exact (explored _ walk).not_astray rfl astray

namespace Winding

/-- The first block leads to itself and to the second, which leads twice to the third, which leads
back to the first. Nothing leads to the last block, and its edge leads nowhere. -/
def graph : Graph :=
  ⟨#[⟨#[.copy (.temp 0) (.constant 0)], some 1, some 0⟩,
     ⟨#[.act .nop], some 2, some 2⟩,
     ⟨#[.actOn .ret (.temp 0)], some 0, none⟩,
     ⟨#[.act .nop], some 9, none⟩], 0⟩

def chunk : Chunk :=
  #[.binary .mov (.register 0) (.constant 0), .nonary .nop, .unary .ret (.register 0)]

end Winding

theorem emission_of_winding :
    (Winding.graph.emit 1 0).result = .ok Winding.chunk ∧
      ∃ w, Relation.ReflTransGen (Winding.graph.Turn ⟨0, 0, 1⟩) (.start 0) w ∧
        w.emitter.code = Winding.chunk ∧
        ∀ id, id ∈ w.visited ↔ Relation.ReflTransGen Winding.graph.Edge 0 id := by
  have emitted : (Winding.graph.emit 1 0).result = .ok Winding.chunk := by decide +kernel
  obtain ⟨-, -, -, ⟨w, walk, -, ok⟩, -⟩ := emission_walks Winding.graph 1 0
  exact ⟨emitted, w, walk, ok _ emitted⟩

end Graph

end RegisterCode

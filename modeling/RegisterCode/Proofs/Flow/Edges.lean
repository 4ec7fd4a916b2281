import RegisterCode.Proofs.Flow.Drafting
import RegisterCode.Tree.Basic

/-!
The outline of a function, told from the tree alone: the blocks that its statements open, and
the edges that they ask for. A conditional has its two edges in the right order, and no block is
asked for a third one, so that all of them can be placed.
-/

namespace RegisterCode

/-! ### What is told from the tree -/

/-- A conditional: the block that its condition is decided in, the block that its body
begins in, and the one to go on in if the condition fails. That is where the alternative
begins, or the block behind the body. -/
structure Fork where
  condition : Nat
  body : Nat
  otherwise : Nat
deriving DecidableEq, Repr

namespace Stmt

mutual

/-- How many blocks a statement opens behind the one that it begins in. -/
def opens : Stmt → Nat
  | ifThen _ body => body.opens + 2
  | ifElse _ body body' => body.opens + body'.opens + 3
  | block items => opensAll items
  | _ => 0

def opensAll : List Stmt → Nat
  | [] => 0
  | s :: rest => s.opens + opensAll rest

end

mutual

/-- The conditionals of a statement that begins in the block `first`. -/
def forks : Stmt → Nat → List Fork
  | ifThen _ body, first => ⟨first, first + 1, first + body.opens + 2⟩ :: body.forks (first + 1)
  | ifElse _ body body', first =>
    ⟨first, first + 1, first + body.opens + 2⟩ ::
      (body.forks (first + 1) ++ body'.forks (first + body.opens + 2))
  | block items, first => forksAll items first
  | _, _ => []

def forksAll : List Stmt → Nat → List Fork
  | [], _ => []
  | s :: rest, first => s.forks first ++ forksAll rest (first + s.opens)

end

mutual

/-- The jumps over an alternative: the blocks they end, and those they lead to. -/
def hops : Stmt → Nat → List (Nat × Nat)
  | ifThen _ body, first => body.hops (first + 1)
  | ifElse _ body body', first =>
    body.hops (first + 1) ++ (first + body.opens + 1, first + body.opens + body'.opens + 3) ::
      body'.hops (first + body.opens + 2)
  | block items, first => hopsAll items first
  | _, _ => []

def hopsAll : List Stmt → Nat → List (Nat × Nat)
  | [], _ => []
  | s :: rest, first => s.hops first ++ hopsAll rest (first + s.opens)

end

end Stmt

/-! ### The edges of an outline -/

/-- Where the edges from a block lead, in the order in which they are asked for. -/
def targets (edges : List (Nat × Nat)) (id : Nat) : List Nat :=
  (edges.filter fun edge => edge.1 = id).map Prod.snd

section

variable {edges edges' : List (Nat × Nat)} {id : Nat}

theorem targets_append : targets (edges ++ edges') id = targets edges id ++ targets edges' id := by
  rw [targets, List.filter_append, List.map_append, targets, targets]

theorem targets_cons (edge : Nat × Nat) : targets (edge :: edges) id =
    if edge.1 = id then edge.2 :: targets edges id else targets edges id := by
  by_cases same : edge.1 = id <;> simp [targets, same]

@[simp]
theorem targets_nil : targets [] id = [] := rfl

theorem mem_targets {target : Nat} : target ∈ targets edges id ↔ (id, target) ∈ edges := by
  simp only [targets, List.mem_map, List.mem_filter, decide_eq_true_eq, Prod.exists,
    exists_eq_right]

theorem targets_eq_nil (h : ∀ edge ∈ edges, edge.1 ≠ id) : targets edges id = [] := by
  rw [targets, List.filter_eq_nil_iff.2 (by simpa using h), List.map_nil]

end

/-- The edges that a piece of a function asks for, which begins in the block `first` and
ends in the block `last`. All of them lead ahead; those of a conditional lead to its body
and to what comes otherwise, in this order, and any other block has at most one. -/
structure Planned (edges : List (Nat × Nat)) (first last : Nat) (forks : List Fork)
    (hops : List (Nat × Nat)) : Prop where
  ahead : ∀ edge ∈ edges, first ≤ edge.1 ∧ edge.1 < edge.2 ∧ edge.2 ≤ last
  fork : ∀ fork ∈ forks, targets edges fork.condition = [fork.body, fork.otherwise]
  hop : ∀ hop ∈ hops, targets edges hop.1 = [hop.2]
  plain : ∀ id : Nat, (∀ fork ∈ forks, fork.condition ≠ id) → (targets edges id).length ≤ 1

namespace Planned

variable {edges edges' : List (Nat × Nat)} {first last middle id : Nat} {forks forks' : List Fork}
  {hops hops' : List (Nat × Nat)}

theorem nil (first : Nat) : Planned [] first first [] [] :=
  ⟨by simp, by simp, by simp, by simp⟩

theorem targets_before (h : Planned edges first last forks hops) (lt : id < first) :
    targets edges id = [] :=
  targets_eq_nil fun edge mem => by have := h.ahead edge mem; omega

theorem targets_from (h : Planned edges first last forks hops) (le : last ≤ id) :
    targets edges id = [] :=
  targets_eq_nil fun edge mem => by have := h.ahead edge mem; omega

theorem inside (h : Planned edges first last forks hops) {target : Nat}
    (mem : target ∈ targets edges id) : first ≤ id ∧ id < target ∧ target ≤ last :=
  h.ahead _ (mem_targets.1 mem)

theorem fork_inside (h : Planned edges first last forks hops) {fork : Fork} (mem : fork ∈ forks) :
    first ≤ fork.condition ∧ fork.condition < last := by
  have inside := h.inside (h.fork fork mem ▸ List.mem_cons_self)
  omega

theorem hop_inside (h : Planned edges first last forks hops) {hop : Nat × Nat} (mem : hop ∈ hops) :
    first ≤ hop.1 ∧ hop.1 < last := by
  have inside := h.inside (h.hop hop mem ▸ List.mem_cons_self)
  omega

/-- One piece behind the other: a block has edges in one of the two. -/
theorem append (h : Planned edges first middle forks hops)
    (h' : Planned edges' middle last forks' hops') (le : first ≤ middle) (le' : middle ≤ last) :
    Planned (edges ++ edges') first last (forks ++ forks') (hops ++ hops') where
  ahead edge mem := by
    rcases List.mem_append.1 mem with mem | mem
    · have := h.ahead edge mem
      omega
    · have := h'.ahead edge mem
      omega
  fork fork mem := by
    rw [targets_append]
    rcases List.mem_append.1 mem with mem | mem
    · rw [h.fork fork mem, h'.targets_before (h.fork_inside mem).2, List.append_nil]
    · rw [h'.fork fork mem, h.targets_from (h'.fork_inside mem).1, List.nil_append]
  hop hop mem := by
    rw [targets_append]
    rcases List.mem_append.1 mem with mem | mem
    · rw [h.hop hop mem, h'.targets_before (h.hop_inside mem).2, List.append_nil]
    · rw [h'.hop hop mem, h.targets_from (h'.hop_inside mem).1, List.nil_append]
  plain id other := by
    rw [targets_append]
    rcases Nat.lt_or_ge id middle with lt | le
    · rw [h'.targets_before lt, List.append_nil]
      exact h.plain id fun fork mem => other fork (List.mem_append_left _ mem)
    · rw [h.targets_from le, List.nil_append]
      exact h'.plain id fun fork mem => other fork (List.mem_append_right _ mem)

/-- No block has a third edge. -/
theorem length_le (h : Planned edges first last forks hops) (id : Nat) :
    (targets edges id).length ≤ 2 := by
  by_cases fork : ∃ fork ∈ forks, fork.condition = id
  · obtain ⟨fork, mem, rfl⟩ := fork
    rw [h.fork fork mem]
    rfl
  · exact Nat.le_succ_of_le (h.plain id fun fork' mem same => fork ⟨fork', mem, same⟩)

/-- Behind the condition of a branch without an alternative, only the last block of the
body is asked for more edges than the body asks for. -/
theorem targets_ifThen (above : first < id) (below : id < last) :
    targets (edges ++ [(first, first + 1), (last, last + 1), (first, last + 1)]) id =
      targets edges id := by
  have apart : first ≠ id := by omega
  have apart' : last ≠ id := by omega
  simp [targets_append, targets_cons, apart, apart']

/-- A branch without an alternative, whose body ends in the block `last`. -/
theorem ifThen (h : Planned edges (first + 1) last forks hops) (le : first + 1 ≤ last) :
    Planned (edges ++ [(first, first + 1), (last, last + 1), (first, last + 1)]) first (last + 1)
      (⟨first, first + 1, last + 1⟩ :: forks) hops where
  ahead edge mem := by
    rcases List.mem_append.1 mem with mem | mem
    · have := h.ahead edge mem
      omega
    · simp only [List.mem_cons, List.not_mem_nil, or_false] at mem
      rcases mem with rfl | rfl | rfl <;> dsimp only <;> omega
  fork fork mem := by
    rcases List.mem_cons.1 mem with rfl | mem
    · have apart : last ≠ first := by omega
      simp [targets_append, targets_cons, h.targets_before (Nat.lt_succ_self first), apart]
    · have inside := h.fork_inside mem
      rw [targets_ifThen inside.1 inside.2, h.fork fork mem]
  hop hop mem := by
    have inside := h.hop_inside mem
    rw [targets_ifThen inside.1 inside.2, h.hop hop mem]
  plain id other := by
    have apart : first ≠ id := other _ List.mem_cons_self
    have rest := h.plain id fun fork mem => other fork (List.mem_cons_of_mem _ mem)
    by_cases tail : last = id
    · subst tail
      simp [targets_append, targets_cons, h.targets_from (Nat.le_refl _), apart]
    · simpa [targets_append, targets_cons, apart, tail] using rest

/-- The edges of two branches, whose bodies end in the blocks `middle` and `last`. -/
def alternatives (edges edges' : List (Nat × Nat)) (first middle last : Nat) : List (Nat × Nat) :=
  edges ++ [(first, first + 1)] ++ edges' ++
    [(first, middle + 1), (middle, last + 1), (last, last + 1)]

theorem targets_alternatives (id : Nat) : targets (alternatives edges edges' first middle last) id =
    targets edges id ++ (if first = id then [first + 1] else []) ++ targets edges' id ++
      ((if first = id then [middle + 1] else []) ++ (if middle = id then [last + 1] else []) ++
        if last = id then [last + 1] else []) := by
  simp only [alternatives, targets_append, targets_cons, targets_nil]
  congr 1
  split_ifs <;> rfl

/-- The blocks of two branches have their edges from the part that they lie in, but for
those where a part begins or ends. -/
theorem targets_within (h : Planned edges (first + 1) middle forks hops)
    (h' : Planned edges' (middle + 1) last forks' hops') (le : middle ≤ last) :
    (first < id → id < middle →
      targets (alternatives edges edges' first middle last) id = targets edges id) ∧
    (first < middle → middle < id → id < last →
      targets (alternatives edges edges' first middle last) id = targets edges' id) := by
  rw [targets_alternatives]
  refine ⟨fun above below => ?_, fun some above below => ?_⟩
  · rw [h'.targets_before (by omega), if_neg (by omega), if_neg (by omega), if_neg (by omega),
      if_neg (by omega)]
    simp
  · rw [h.targets_from (by omega), if_neg (by omega), if_neg (by omega), if_neg (by omega),
      if_neg (by omega)]
    simp

theorem ifElse (h : Planned edges (first + 1) middle forks hops)
    (h' : Planned edges' (middle + 1) last forks' hops') (le : first + 1 ≤ middle)
    (le' : middle + 1 ≤ last) :
    Planned (alternatives edges edges' first middle last) first (last + 1)
      (⟨first, first + 1, middle + 1⟩ :: (forks ++ forks'))
      (hops ++ (middle, last + 1) :: hops') where
  ahead edge mem := by
    simp only [alternatives, List.mem_append, List.mem_cons, List.not_mem_nil, or_false] at mem
    rcases mem with ((mem | rfl) | mem) | (rfl | rfl | rfl)
    · have := h.ahead edge mem
      omega
    · dsimp only
      omega
    · have := h'.ahead edge mem
      omega
    all_goals
      dsimp only
      omega
  fork fork mem := by
    rcases List.mem_cons.1 mem with rfl | mem
    · show targets _ first = _
      rw [targets_alternatives, h.targets_before (Nat.lt_succ_self first),
        h'.targets_before (show first < middle + 1 by omega), if_pos rfl, if_pos rfl,
        if_neg (by omega), if_neg (by omega)]
      rfl
    · rcases List.mem_append.1 mem with mem | mem
      · have inside := h.fork_inside mem
        rw [(targets_within h h' (by omega)).1 (by omega) (by omega), h.fork fork mem]
      · have inside := h'.fork_inside mem
        rw [(targets_within h h' (by omega)).2 (by omega) (by omega) (by omega), h'.fork fork mem]
  hop hop mem := by
    rcases List.mem_append.1 mem with mem | mem
    · have inside := h.hop_inside mem
      rw [(targets_within h h' (by omega)).1 (by omega) (by omega), h.hop hop mem]
    · rcases List.mem_cons.1 mem with rfl | mem
      · show targets _ middle = _
        rw [targets_alternatives, h.targets_from (Nat.le_refl _),
          h'.targets_before (Nat.lt_succ_self middle), if_neg (by omega), if_neg (by omega),
          if_pos rfl, if_neg (by omega)]
        rfl
      · have inside := h'.hop_inside mem
        rw [(targets_within h h' (by omega)).2 (by omega) (by omega) (by omega), h'.hop hop mem]
  plain id other := by
    have apart : first ≠ id := other _ List.mem_cons_self
    have rest := h.plain id fun fork mem =>
      other fork (List.mem_cons_of_mem _ (List.mem_append_left _ mem))
    have rest' := h'.plain id fun fork mem =>
      other fork (List.mem_cons_of_mem _ (List.mem_append_right _ mem))
    rw [targets_alternatives, if_neg apart, if_neg apart]
    rcases Nat.lt_trichotomy id middle with lt | rfl | lt
    · rw [h'.targets_before (by omega), if_neg (by omega), if_neg (by omega)]
      simpa using rest
    · rw [h.targets_from (Nat.le_refl _), h'.targets_before (Nat.lt_succ_self id),
        if_neg (show ¬ last = id by omega)]
      simp
    · rw [h.targets_from (Nat.le_of_lt lt), if_neg (show ¬ middle = id by omega)]
      by_cases tail : last = id
      · subst tail
        simp [h'.targets_from (Nat.le_refl _)]
      · simpa [tail] using rest'

end Planned

/-! ### Graphs with their edges -/

namespace Graph

/-- The blocks have the given edges: the first one is taken when a condition holds, and
the second one when it fails. -/
def Strung (g : Graph) (edges : List (Nat × Nat)) : Prop :=
  ∀ (id : Nat) (b : Block), g.blocks[id]? = some b →
    b.truthy = (targets edges id)[0]? ∧ b.falsy = (targets edges id)[1]?

variable {g : Graph} {edges : List (Nat × Nat)} {source : Nat}

theorem Bare.strung (h : g.Bare) : g.Strung [] := h

theorem Strung.canLink (h : g.Strung edges) (inside : source < g.blocks.size)
    (room : (targets edges source).length ≤ 1) : g.canLink source = true := by
  have here := Array.getElem?_eq_getElem inside
  have free := (h source _ here).2
  rw [List.getElem?_eq_none room] at free
  rw [Graph.canLink, here, Option.any_some, Block.hasRoom, free]
  exact Bool.or_true _

theorem Strung.link (h : g.Strung edges) (room : (targets edges source).length ≤ 1)
    (target : Nat) : (g.link source target).Strung (edges ++ [(source, target)]) := by
  intro id b found
  simp only [Graph.link, Array.getElem?_modify] at found
  rw [targets_append, targets_cons, targets_nil]
  by_cases same : source = id
  · subst same
    rw [if_pos rfl] at found ⊢
    obtain ⟨b', here, rfl⟩ := Option.map_eq_some_iff.1 found
    obtain ⟨truthy, falsy⟩ := h source b' here
    rcases eq : targets edges source with _ | ⟨first, _ | ⟨second, rest⟩⟩
    · rw [eq] at truthy falsy
      rw [Block.link, if_pos (by rw [truthy]; rfl)]
      exact ⟨rfl, falsy⟩
    · rw [eq] at truthy falsy
      rw [Block.link, if_neg (by rw [truthy]; exact Bool.noConfusion),
        if_pos (by rw [falsy]; rfl)]
      exact ⟨truthy, rfl⟩
    · rw [eq] at room
      simp at room
  · rw [if_neg same] at found ⊢
    rw [List.append_nil]
    exact h id b found

end Graph

end RegisterCode

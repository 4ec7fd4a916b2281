import RegisterCode.Proofs.Flow.Landing

/-!
The markers of branches. Playing the markers of a whole statement leaves the
jumps that were saved before it as they are; those of its own all land.
-/

namespace RegisterCode

namespace Patching

/-- Markers that save and land jumps in pairs. -/
structure Balanced (ops : List Op) : Prop where
  plays : ∀ p : Patching, ∃ p', p.play ops = some p' ∧ p'.pending = p.pending ∧
    p'.position = p.position + ops.length
  saved : ∀ (k : Nat) (op : Op), ops[k]? = some op → op.IsJump → ops[k + 1]? = some .savePatch

theorem play_of_append {p p' p'' : Patching} {ops ops' : List Op} (h : p.play ops = some p')
    (h' : p'.play ops' = some p'') : p.play (ops ++ ops') = some p'' := by
  rw [play_append, h]
  exact h'

/-! ### The parts of a branch -/

theorem play_open (p : Patching) : ∃ p', p.play [.jumpElse, .savePatch] = some p' ∧
    p'.pending = (.jumpElse, p.position) :: p.pending ∧ p'.position = p.position + 2 :=
  ⟨_, rfl, rfl, rfl⟩

/-- The jump over the other branch is saved, and the one to it lands. -/
theorem play_turn {p : Patching} {jump : Nat} {rest : List (Op × Nat)}
    (pending : p.pending = (.jumpElse, jump) :: rest) :
    ∃ p', p.play [.jump, .savePatch, .shufflePatch, .nop, .patchJumpElse] = some p' ∧
      p'.pending = (.jump, p.position) :: rest ∧ p'.position = p.position + 5 ∧
      p'.landing jump = some (p.position + 3) := by
  obtain ⟨position, previous, pending', landing⟩ := p
  cases pending
  exact ⟨_, rfl, rfl, rfl, Function.update_self ..⟩

theorem play_close {p : Patching} {kind marker : Op} {jump : Nat} {rest : List (Op × Nat)}
    (pending : p.pending = (kind, jump) :: rest)
    (fits : (kind = .jump ∧ marker = .patchJump) ∨ (kind = .jumpElse ∧ marker = .patchJumpElse)) :
    ∃ p', p.play [.nop, marker] = some p' ∧ p'.pending = rest ∧
      p'.position = p.position + 2 ∧ p'.landing jump = some p.position := by
  obtain ⟨position, previous, pending', landing⟩ := p
  cases pending
  rcases fits with ⟨rfl, rfl⟩ | ⟨rfl, rfl⟩
  · exact ⟨_, rfl, rfl, rfl, Function.update_self ..⟩
  · exact ⟨_, rfl, rfl, rfl, Function.update_self ..⟩

/-! ### Whole statements -/

theorem balanced_nil : Balanced [] where
  plays p := ⟨p, rfl, rfl, rfl⟩
  saved k op found := by simp at found

/-- Markers that have nothing to do with jumps. -/
theorem balanced_quiet {ops : List Op} (h : ∀ op ∈ ops, op = .condensed) : Balanced ops where
  plays p := by
    induction ops generalizing p with
    | nil => exact ⟨p, rfl, rfl, rfl⟩
    | cons op ops ih =>
        obtain rfl := h op List.mem_cons_self
        obtain ⟨p', run, pending, position⟩ :=
          ih (fun op mem => h op (List.mem_cons_of_mem _ mem)) (p.moved .condensed)
        refine ⟨p', run, pending, ?_⟩
        rw [position, List.length_cons]
        show p.position + 1 + ops.length = _
        omega
  saved k op found isJump := by
    obtain rfl := h op (List.mem_of_getElem? found)
    exact absurd isJump (by decide)

/-- Whether every jump is saved can be told piece by piece. -/
theorem saved_append {ops ops' : List Op}
    (h : ∀ (k : Nat) (op : Op), ops[k]? = some op → op.IsJump → ops[k + 1]? = some .savePatch)
    (h' : ∀ (k : Nat) (op : Op), ops'[k]? = some op → op.IsJump →
      ops'[k + 1]? = some .savePatch) :
    ∀ (k : Nat) (op : Op), (ops ++ ops')[k]? = some op → op.IsJump →
      (ops ++ ops')[k + 1]? = some .savePatch := by
  intro k op found isJump
  rw [List.getElem?_append] at found
  split at found
  · have saved := h k op found isJump
    rw [List.getElem?_append_left (List.getElem?_eq_some_iff.1 saved).1]
    exact saved
  · rename_i beyond
    have saved := h' _ op found isJump
    rw [List.getElem?_append_right (by omega), Nat.sub_add_comm (by omega)]
    exact saved

theorem Balanced.append {ops ops' : List Op} (h : Balanced ops) (h' : Balanced ops') :
    Balanced (ops ++ ops') where
  plays p := by
    obtain ⟨p1, run, pending, position⟩ := h.plays p
    obtain ⟨p2, run', pending', position'⟩ := h'.plays p1
    refine ⟨p2, play_of_append run run', pending'.trans pending, ?_⟩
    rw [position', position, List.length_append, Nat.add_assoc]
  saved := saved_append h.saved h'.saved

theorem saved_open : ∀ (k : Nat) (op : Op), [Op.jumpElse, .savePatch][k]? = some op →
    op.IsJump → [Op.jumpElse, .savePatch][k + 1]? = some .savePatch := by
  intro k op found isJump
  match k with
  | 0 => rfl
  | 1 =>
      cases found
      exact absurd isJump (by decide)
  | k + 2 => cases found

theorem saved_turn : ∀ (k : Nat) (op : Op),
    [Op.jump, .savePatch, .shufflePatch, .nop, .patchJumpElse][k]? = some op →
    op.IsJump →
    [Op.jump, .savePatch, .shufflePatch, .nop, .patchJumpElse][k + 1]? = some .savePatch := by
  intro k op found isJump
  match k with
  | 0 => rfl
  | 1 | 2 | 3 | 4 =>
      cases found
      exact absurd isJump (by decide)
  | k + 5 => cases found

theorem saved_close {marker : Op} (other : ¬ marker.IsJump) : ∀ (k : Nat) (op : Op),
    [Op.nop, marker][k]? = some op → op.IsJump → [Op.nop, marker][k + 1]? = some .savePatch := by
  intro k op found isJump
  match k with
  | 0 =>
      cases found
      exact absurd isJump (by decide)
  | 1 =>
      cases found
      exact absurd isJump other
  | k + 2 => cases found

theorem Balanced.ifThen {body : List Op} (h : Balanced body) :
    Balanced ([.jumpElse, .savePatch] ++ body ++ [.nop, .patchJumpElse]) where
  plays p := by
    obtain ⟨p1, run1, pending1, position1⟩ := play_open p
    obtain ⟨p2, run2, pending2, position2⟩ := h.plays p1
    obtain ⟨p3, run3, pending3, position3, -⟩ :=
      play_close (pending2.trans pending1) (.inr ⟨rfl, rfl⟩)
    refine ⟨p3, play_of_append (play_of_append run1 run2) run3, pending3, ?_⟩
    simp only [List.length_append, List.length_cons, List.length_nil]
    omega
  saved := saved_append (saved_append saved_open h.saved) (saved_close (by decide))

theorem Balanced.ifElse {body body' : List Op} (h : Balanced body) (h' : Balanced body') :
    Balanced ([.jumpElse, .savePatch] ++ body ++
      [.jump, .savePatch, .shufflePatch, .nop, .patchJumpElse] ++ body' ++
      [.nop, .patchJump]) where
  plays p := by
    obtain ⟨p1, run1, pending1, position1⟩ := play_open p
    obtain ⟨p2, run2, pending2, position2⟩ := h.plays p1
    obtain ⟨p3, run3, pending3, position3, -⟩ := play_turn (pending2.trans pending1)
    obtain ⟨p4, run4, pending4, position4⟩ := h'.plays p3
    obtain ⟨p5, run5, pending5, position5, -⟩ :=
      play_close (pending4.trans pending3) (.inl ⟨rfl, rfl⟩)
    refine ⟨p5, play_of_append (play_of_append (play_of_append (play_of_append run1 run2) run3)
      run4) run5, pending5, ?_⟩
    simp only [List.length_append, List.length_cons, List.length_nil]
    omega
  saved := saved_append (saved_append (saved_append (saved_append saved_open h.saved) saved_turn)
    h'.saved) (saved_close (by decide))

end Patching

/-! ### Where the jumps of branches land -/

namespace Listing

open Patching

variable {l : Listing} {done pre body body' : List Step} {p last : Patching}

theorem exists_play (played : start.play l.markers = some last) (pre : List Step)
    (begins : pre <+: l.steps) :
    ∃ p, start.play (pre.map Step.marker) = some p ∧ p.position = pre.length := by
  obtain ⟨rest, all⟩ := begins
  rw [markers, ← all, List.map_append, play_append] at played
  obtain ⟨p, run, -⟩ := Option.bind_eq_some_iff.1 played
  exact ⟨p, run, by rw [(Patching.played run).position, List.length_map]⟩

/-- A jump that lands among the first steps stays where it is. -/
theorem landing_of_begins (played : start.play l.markers = some last) (begins : done <+: l.steps)
    (run : start.play (done.map Step.marker) = some p) {jump target : Nat}
    (landed : p.landing jump = some target) : l.landing jump = some target := by
  obtain ⟨rest, all⟩ := begins
  have played' := played
  rw [markers, ← all, List.map_append, play_append, run] at played'
  rw [landing, played]
  exact landing_of_play run played' landed

/-- The jump of a branch without an alternative lands behind its body. -/
theorem landing_ifThen (played : start.play l.markers = some last) {a : Address}
    (balanced : Balanced (body.map Step.marker))
    (begins : pre ++ [.actOnTwo .jumpElse a (.immediate 0), .act .savePatch] ++ body ++
      [.act .nop, .act .patchJumpElse] <+: l.steps) :
    l.landing pre.length = some (pre.length + 2 + body.length) := by
  obtain ⟨p, run, position⟩ := exists_play played pre (by
    simp only [List.append_assoc] at begins
    exact (List.prefix_append _ _).trans begins)
  obtain ⟨p1, run1, pending1, position1⟩ := play_open p
  obtain ⟨p2, run2, pending2, position2⟩ := balanced.plays p1
  obtain ⟨p3, run3, -, -, landed⟩ := play_close (pending2.trans pending1) (.inr ⟨rfl, rfl⟩)
  rw [position, position2, position1, position, List.length_map] at landed
  refine landing_of_begins played begins ?_ landed
  simp only [List.map_append]
  exact play_of_append (play_of_append (play_of_append run run1) run2) run3

/-- Of two branches, the jump to the second one lands in front of its body, and the
jump over it lands behind it. -/
theorem landing_ifElse (played : start.play l.markers = some last) {a : Address}
    (balanced : Balanced (body.map Step.marker)) (balanced' : Balanced (body'.map Step.marker))
    (begins : pre ++ [.actOnTwo .jumpElse a (.immediate 0), .act .savePatch] ++ body ++
      [.actOn .jump (.immediate 0), .act .savePatch, .act .shufflePatch, .act .nop,
        .act .patchJumpElse] ++ body' ++ [.act .nop, .act .patchJump] <+: l.steps) :
    l.landing pre.length = some (pre.length + 2 + body.length + 3) ∧
      l.landing (pre.length + 2 + body.length) =
        some (pre.length + 2 + body.length + 5 + body'.length) := by
  obtain ⟨p, run, position⟩ := exists_play played pre (by
    simp only [List.append_assoc] at begins
    exact (List.prefix_append _ _).trans begins)
  obtain ⟨p1, run1, pending1, position1⟩ := play_open p
  obtain ⟨p2, run2, pending2, position2⟩ := balanced.plays p1
  obtain ⟨p3, run3, pending3, position3, landed⟩ := play_turn (pending2.trans pending1)
  obtain ⟨p4, run4, pending4, position4⟩ := balanced'.plays p3
  obtain ⟨p5, run5, -, -, landed'⟩ := play_close (pending4.trans pending3) (.inl ⟨rfl, rfl⟩)
  rw [List.length_map] at position2 position4
  rw [position4, position3, position2, position1, position] at landed'
  rw [position, position2, position1, position] at landed
  have run3' := play_of_append (play_of_append (play_of_append run run1) run2) run3
  have run5' := play_of_append (play_of_append run3' run4) run5
  refine ⟨landing_of_begins played ((List.prefix_append _ _).trans begins) ?_
    (landing_of_play run3' run4 landed), landing_of_begins played begins ?_ landed'⟩
  · simp only [List.map_append]
    exact play_of_append run3' run4
  · simp only [List.map_append]
    exact run5'

end Listing

end RegisterCode

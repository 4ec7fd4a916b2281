import RegisterCode.Proofs.Flow.Listing

/-!
Where jumps land. The markers of a listing are played through from the first to
the last: a jump is put on a stack when it is saved, and a patch marker takes it
off and lands it at the step in front of the marker.
-/

namespace RegisterCode

/-- What a step means for the jumps of its function: a jump, a place to land at,
or one of the markers. All other steps count as condensed. -/
def Step.marker : Step → Op
  | .act op => op
  | .actOn .jump _ => .jump
  | .actOnTwo .jumpElse _ _ => .jumpElse
  | _ => .condensed

/-- A jump that is saved until its target is known. -/
def Op.IsJump (op : Op) : Prop := op = .jump ∨ op = .jumpElse

instance (op : Op) : Decidable op.IsJump := inferInstanceAs (Decidable (_ ∨ _))

/-- How far the markers have been played. -/
structure Patching where
  position : Nat
  /-- The marker played last. -/
  previous : Op
  /-- The jumps saved and not landed, the latest in front. -/
  pending : List (Op × Nat)
  landing : Nat → Option Nat

namespace Patching

def start : Patching := ⟨0, .condensed, [], fun _ => none⟩

def moved (p : Patching) (op : Op) : Patching :=
  { p with position := p.position + 1, previous := op }

/-- Lands the jump saved last, which has to be of the expected kind. -/
def land (p : Patching) (expected marker : Op) : Option Patching :=
  match p.pending with
  | (kind, jump) :: rest =>
    if kind = expected ∧ p.previous = .nop then
      some { p.moved marker with
        pending := rest
        landing := Function.update p.landing jump (some (p.position - 1)) }
    else none
  | [] => none

/-- Plays one marker. -/
def next (p : Patching) (op : Op) : Option Patching :=
  match op with
  | .savePatch =>
    if p.previous.IsJump then
      some { p.moved op with pending := (p.previous, p.position - 1) :: p.pending }
    else none
  | .shufflePatch =>
    match p.pending with
    | a :: b :: rest => some { p.moved op with pending := b :: a :: rest }
    | _ => none
  | .patchJump => p.land .jump op
  | .patchJumpElse => p.land .jumpElse op
  | _ => some (p.moved op)

/-- Plays the markers of a list. -/
def play (p : Patching) (ops : List Op) : Option Patching := ops.foldlM next p

theorem play_append (p : Patching) (ops ops' : List Op) :
    p.play (ops ++ ops') = (p.play ops).bind (·.play ops') :=
  List.foldlM_append

theorem play_snoc (p : Patching) (ops : List Op) (op : Op) :
    p.play (ops ++ [op]) = (p.play ops).bind (·.next op) := by
  rw [play_append]
  cases p.play ops with
  | none => rfl
  | some q => exact bind_pure (q.next op)

/-! ### What playing the markers comes to -/

/-- The state after playing all of `ops`. -/
structure Played (ops : List Op) (p : Patching) : Prop where
  position : p.position = ops.length
  previous : p.previous ≠ .condensed →
    0 < p.position ∧ ops[p.position - 1]? = some p.previous
  pending : ∀ kind jump, (kind, jump) ∈ p.pending →
    kind.IsJump ∧ ops[jump]? = some kind ∧ ops[jump + 1]? = some .savePatch ∧
      p.landing jump = none
  nodup : (p.pending.map Prod.snd).Nodup
  landing : ∀ jump target, p.landing jump = some target →
    jump < target ∧ ops[target]? = some .nop ∧ ops[jump + 1]? = some .savePatch
  saved : ∀ jump, ops[jump + 1]? = some .savePatch →
    (∃ kind, (kind, jump) ∈ p.pending) ∨ ∃ target, p.landing jump = some target

theorem played_start : Played [] start where
  position := rfl
  previous h := absurd rfl h
  pending := by simp [start]
  nodup := List.nodup_nil
  landing := by simp [start]
  saved := by simp

theorem getElem?_snoc_of_some {α : Type} {xs : List α} {x y : α} {i : Nat}
    (h : xs[i]? = some y) : (xs ++ [x])[i]? = some y := by
  rw [List.getElem?_append_left (List.getElem?_eq_some_iff.1 h).1]
  exact h

namespace Played

variable {ops : List Op} {p : Patching}

theorem getElem?_moved (op : Op) : (ops ++ [op])[ops.length]? = some op := by
  simp

/-- An operation that neither saves nor lands a jump, and may reorder the stack. -/
theorem moved (h : Played ops p) {op : Op} (other : op ≠ .savePatch)
    {pending : List (Op × Nat)} (perm : pending.Perm p.pending) :
    Played (ops ++ [op]) { p.moved op with pending := pending } where
  position := by simp [Patching.moved, h.position]
  previous _ := by simp [Patching.moved, h.position]
  pending kind jump mem := by
    obtain ⟨isJump, at_, saved, landing⟩ := h.pending kind jump (perm.mem_iff.1 mem)
    exact ⟨isJump, getElem?_snoc_of_some at_, getElem?_snoc_of_some saved, landing⟩
  nodup := ((perm.map Prod.snd).nodup_iff).2 h.nodup
  landing jump target landed := by
    obtain ⟨lt, at_, saved⟩ := h.landing jump target landed
    exact ⟨lt, getElem?_snoc_of_some at_, getElem?_snoc_of_some saved⟩
  saved jump saved := by
    rw [List.getElem?_append] at saved
    split at saved
    · exact (h.saved jump saved).imp_left fun ⟨kind, mem⟩ => ⟨kind, perm.mem_iff.2 mem⟩
    · rw [List.getElem?_singleton] at saved
      split at saved
      · exact absurd (Option.some.inj saved) other
      · cases saved

theorem save (h : Played ops p) (isJump : p.previous.IsJump) :
    Played (ops ++ [.savePatch]) { p.moved .savePatch with
      pending := (p.previous, p.position - 1) :: p.pending } := by
  have notCondensed : p.previous ≠ .condensed := by
    rintro same
    rw [same] at isJump
    exact absurd isJump (by decide)
  obtain ⟨pos, at_⟩ := h.previous notCondensed
  have position := h.position
  have here : (ops ++ [Op.savePatch])[p.position - 1 + 1]? = some .savePatch := by
    rw [Nat.sub_add_cancel pos, position]
    exact getElem?_moved _
  have unseen : ∀ jump, ops[jump + 1]? = some .savePatch → jump ≠ p.position - 1 := by
    intro jump saved same
    have inside := (List.getElem?_eq_some_iff.1 saved).1
    omega
  refine ⟨by simp [Patching.moved, position], fun _ => by simp [Patching.moved, position],
    ?_, ?_, ?_, ?_⟩
  · intro kind jump mem
    rcases List.mem_cons.1 mem with same | mem
    · cases same
      refine ⟨isJump, getElem?_snoc_of_some at_, here, ?_⟩
      cases landed : p.landing (p.position - 1) with
      | none => exact landed
      | some target => exact absurd rfl (unseen _ (h.landing _ _ landed).2.2)
    · obtain ⟨isJump, at_, saved, landing⟩ := h.pending kind jump mem
      exact ⟨isJump, getElem?_snoc_of_some at_, getElem?_snoc_of_some saved, landing⟩
  · refine List.nodup_cons.2 ⟨fun mem => ?_, h.nodup⟩
    obtain ⟨⟨kind, jump⟩, mem, same⟩ := List.mem_map.1 mem
    exact unseen jump (h.pending kind jump mem).2.2.1 same
  · intro jump target landed
    obtain ⟨lt, at_, saved⟩ := h.landing jump target landed
    exact ⟨lt, getElem?_snoc_of_some at_, getElem?_snoc_of_some saved⟩
  · intro jump saved
    rw [List.getElem?_append] at saved
    split at saved
    · exact (h.saved jump saved).imp_left fun ⟨kind, mem⟩ => ⟨kind, List.mem_cons_of_mem _ mem⟩
    · rename_i beyond
      have last : jump + 1 - ops.length = 0 := by
        rw [List.getElem?_singleton] at saved
        split at saved
        · assumption
        · cases saved
      have same : jump = p.position - 1 := by omega
      exact .inl ⟨p.previous, same ▸ List.mem_cons_self⟩

theorem land (h : Played ops p) {kind marker : Op} {jump : Nat} {rest : List (Op × Nat)}
    (pending : p.pending = (kind, jump) :: rest) (previous : p.previous = .nop)
    (other : marker ≠ .savePatch) :
    Played (ops ++ [marker]) { p.moved marker with
      pending := rest
      landing := Function.update p.landing jump (some (p.position - 1)) } := by
  have notCondensed : p.previous ≠ .condensed := by rw [previous]; decide
  obtain ⟨pos, at_⟩ := h.previous notCondensed
  have position := h.position
  obtain ⟨isJump, here, saved, -⟩ := h.pending kind jump (pending ▸ List.mem_cons_self)
  have nodup := h.nodup
  rw [pending, List.map_cons, List.nodup_cons] at nodup
  have lt : jump < p.position - 1 := by
    have inside := (List.getElem?_eq_some_iff.1 saved).1
    have before : jump + 1 ≠ p.position - 1 := by
      intro same
      rw [← same, saved, previous] at at_
      cases at_
    omega
  refine ⟨by simp [Patching.moved, position], fun _ => by simp [Patching.moved, position],
    ?_, nodup.2, ?_, ?_⟩
  · intro kind' jump' mem
    obtain ⟨isJump, at_, saved, landing⟩ :=
      h.pending kind' jump' (pending ▸ List.mem_cons_of_mem _ mem)
    refine ⟨isJump, getElem?_snoc_of_some at_, getElem?_snoc_of_some saved, ?_⟩
    have other : jump' ≠ jump := by
      rintro rfl
      exact nodup.1 (List.mem_map.2 ⟨_, mem, rfl⟩)
    exact (Function.update_of_ne other _ _).trans landing
  · intro jump' target landed
    by_cases same : jump' = jump
    · subst same
      simp only [Function.update_self, Option.some.injEq] at landed
      subst landed
      rw [previous] at at_
      exact ⟨lt, getElem?_snoc_of_some at_, getElem?_snoc_of_some saved⟩
    · obtain ⟨lt, at_, saved⟩ := h.landing jump' target
        ((Function.update_of_ne same _ _).symm.trans landed)
      exact ⟨lt, getElem?_snoc_of_some at_, getElem?_snoc_of_some saved⟩
  · intro jump' saved'
    by_cases same : jump' = jump
    · subst same
      exact .inr ⟨_, Function.update_self ..⟩
    · rw [List.getElem?_append] at saved'
      split at saved'
      · rcases h.saved jump' saved' with ⟨kind', mem⟩ | ⟨target, landed⟩
        · rw [pending] at mem
          rcases List.mem_cons.1 mem with eq | mem
          · exact absurd (congrArg Prod.snd eq) same
          · exact .inl ⟨kind', mem⟩
        · exact .inr ⟨target, (Function.update_of_ne same _ _).trans landed⟩
      · rw [List.getElem?_singleton] at saved'
        split at saved'
        · exact absurd (Option.some.inj saved') other
        · cases saved'

theorem next (h : Played ops p) {op : Op} {p' : Patching} (run : p.next op = some p') :
    Played (ops ++ [op]) p' := by
  unfold Patching.next at run
  split at run
  · split at run
    · rename_i isJump
      cases run
      exact h.save isJump
    · cases run
  · split at run
    · rename_i a b rest pending
      cases run
      exact h.moved (by decide) (pending ▸ List.Perm.swap _ _ _)
    · cases run
  · unfold Patching.land at run
    split at run
    · rename_i kind jump rest pending
      split at run
      · rename_i fits
        cases run
        exact h.land pending fits.2 (by decide)
      · cases run
    · cases run
  · unfold Patching.land at run
    split at run
    · rename_i kind jump rest pending
      split at run
      · rename_i fits
        cases run
        exact h.land pending fits.2 (by decide)
      · cases run
    · cases run
  · rename_i other _ _ _
    cases run
    exact h.moved other (List.Perm.refl _)

end Played

theorem played {ops : List Op} {p : Patching} (h : start.play ops = some p) : Played ops p := by
  induction ops using List.reverseRecOn generalizing p with
  | nil =>
      cases h
      exact played_start
  | append_singleton ops op ih =>
      rw [play_snoc] at h
      obtain ⟨q, before, last⟩ := Option.bind_eq_some_iff.1 h
      exact (ih before).next last

/-- A jump that has landed stays where it is. -/
theorem landing_of_next {ops : List Op} {p p' : Patching} {op : Op} (h : Played ops p)
    (run : p.next op = some p') {jump target : Nat} (landed : p.landing jump = some target) :
    p'.landing jump = some target := by
  have other : ∀ kind jump' rest, p.pending = (kind, jump') :: rest → jump ≠ jump' := by
    rintro kind jump' rest pending rfl
    have free := (h.pending kind jump (pending ▸ List.mem_cons_self)).2.2.2
    rw [free] at landed
    cases landed
  unfold Patching.next at run
  split at run
  · split at run <;> cases run
    exact landed
  · split at run <;> cases run
    exact landed
  · unfold Patching.land at run
    split at run
    · rename_i kind jump' rest pending
      split at run <;> cases run
      exact (Function.update_of_ne (other _ _ _ pending) _ _).trans landed
    · cases run
  · unfold Patching.land at run
    split at run
    · rename_i kind jump' rest pending
      split at run <;> cases run
      exact (Function.update_of_ne (other _ _ _ pending) _ _).trans landed
    · cases run
  · cases run
    exact landed

theorem landing_of_play {ops : List Op} {p : Patching} (h : start.play ops = some p)
    {ops' : List Op} {p' : Patching} (run : p.play ops' = some p') {jump target : Nat}
    (landed : p.landing jump = some target) : p'.landing jump = some target := by
  induction ops' generalizing ops p with
  | nil =>
      cases run
      exact landed
  | cons op ops' ih =>
      rw [play, List.foldlM_cons] at run
      obtain ⟨q, first, rest⟩ := Option.bind_eq_some_iff.1 run
      have here : start.play (ops ++ [op]) = some q := by
        rw [play_snoc, h]
        exact first
      exact ih here rest (landing_of_next (played h) first landed)

end Patching

namespace Listing

def markers (l : Listing) : List Op := l.steps.map Step.marker

/-- Where a jump of the listing lands. -/
def landing (l : Listing) (jump : Nat) : Option Nat :=
  (Patching.start.play l.markers).bind (·.landing jump)

end Listing

end RegisterCode

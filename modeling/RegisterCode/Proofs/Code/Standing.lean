import RegisterCode.Proofs.Code.Assembly

/-!
How the temporaries of a journey lie in the register file: each temporary that
is set and will be read stands in its slot of the frame, below the top, and the
callers' temporaries stand below the frames they called.
-/

namespace RegisterCode

/-- The temporaries of a visit in the frame that begins at `base`: those that are
set stand below `bound`, and the frame reaches up to `top`. The temporary `skip`
is left out, since a callee is going to answer in it. -/
structure Stands (l : Listing) (v : Visit) (skip : Option Int16) (base bound top : Nat)
    (registers : Array Value) (written : List Nat) : Prop where
  set : ∀ t x, l.Awaits v.pos t → skip ≠ some t → v.temps t = some x →
    l.slot t < max 1 (l.room v.pos) ∧ base + l.slot t < bound ∧
      registers[base + l.slot t]? = some x
  unset : ∀ t, l.Awaits v.pos t → skip ≠ some t → v.temps t = none → l.slot t ∉ written
  /-- What the steps since the last landing wrote is there. -/
  recent : ∀ p t, p < v.pos →
    (∀ q, p < q → q ≤ v.pos → l.steps[q]? ≠ some (.act .nop)) →
    l.writes? p = some t → (v.temps t).isSome ∧ base + l.slot t < top
  top_le : top ≤ base + max 1 (l.room v.pos)

namespace Stands

variable {l : Listing} {v : Visit} {skip : Option Int16} {base bound top : Nat}
  {registers : Array Value} {written : List Nat}

/-- Only the registers that the temporaries stand in matter. -/
theorem congr {registers' : Array Value} (h : Stands l v skip base bound top registers written)
    (same : ∀ i < bound, registers'[i]? = registers[i]?) :
    Stands l v skip base bound top registers' written := by
  refine ⟨fun t x awaits notSkip value => ?_, h.unset, h.recent, h.top_le⟩
  obtain ⟨slot_lt, below, here⟩ := h.set t x awaits notSkip value
  exact ⟨slot_lt, below, (same _ below).trans here⟩

/-- A step that writes nothing. -/
theorem move (h : Stands l v skip base bound top registers written)
    (writes : l.writes? v.pos = none) :
    Stands l v.move skip base bound top registers written := by
  have room := room_le (l := l) v.pos
  refine ⟨fun t x awaits notSkip value => ?_, fun t awaits => ?_, fun p t lt straight wrote => ?_,
    ?_⟩
  · obtain ⟨slot_lt, below, here⟩ := h.set t x (awaits.mono (Nat.le_succ _)) notSkip value
    exact ⟨Nat.lt_of_lt_of_le slot_lt room, below, here⟩
  · exact h.unset t (awaits.mono (Nat.le_succ _))
  · have before : p ≠ v.pos := by
      rintro rfl
      rw [writes] at wrote
      cases wrote
    have lt' : p < v.pos + 1 := lt
    exact h.recent p t (by omega) (fun q lt le => straight q lt (Nat.le_succ_of_le le)) wrote
  · exact Nat.le_trans h.top_le (Nat.add_le_add_left room _)
where
  room_le {l : Listing} (k : Nat) : max 1 (l.room k) ≤ max 1 (l.room (k + 1)) := by
    have room : l.room k ≤ l.room (k + 1) := l.room_mono (Nat.le_succ k)
    omega

/-- A jump ahead to a landing. -/
theorem jump (h : Stands l v skip base bound top registers written) {target : Nat}
    (ahead : v.pos < target) (nop : l.steps[target]? = some (.act .nop)) :
    Stands l (v.jump target) skip base bound top registers written := by
  have room := l.room_mono (Nat.le_of_lt ahead)
  refine ⟨fun t x awaits notSkip value => ?_, fun t awaits => ?_, fun p t lt straight wrote => ?_,
    ?_⟩
  · obtain ⟨slot_lt, below, here⟩ := h.set t x (awaits.mono (Nat.le_of_lt ahead)) notSkip value
    exact ⟨show _ < max 1 (l.room target) by omega, below, here⟩
  · exact h.unset t (awaits.mono (Nat.le_of_lt ahead))
  · exact absurd nop (straight target lt (Nat.le_refl _))
  · have le := h.top_le
    show top ≤ base + max 1 (l.room target)
    omega

variable {pool functions procedures : Nat}

/-- A step that writes a temporary, into the register of its slot. -/
theorem assign (orderly : l.Orderly pool functions procedures)
    (h : Stands l v none base top top registers written) {t : Int16}
    (writes : l.writes? v.pos = some t) {x : Value} {registers' : Array Value}
    {written' : List Nat} (here : registers'[base + l.slot t]? = some x)
    (same : ∀ i < top, i ≠ base + l.slot t → registers'[i]? = registers[i]?)
    (subset : written' ⊆ l.slot t :: written) :
    Stands l (v.set t x).move none base (max top (base + l.slot t + 1))
      (max top (base + l.slot t + 1)) registers' written' := by
  have named := Listing.named_of_writes writes
  have slot_lt : l.slot t < l.room (v.pos + 1) := Listing.slot_lt_room named
  have room : l.room v.pos ≤ l.room (v.pos + 1) := l.room_mono (Nat.le_succ v.pos)
  have other : ∀ t', l.Awaits (v.pos + 1) t' → t' ≠ t → l.slot t' ≠ l.slot t :=
    fun t' awaits ne eq => ne (Listing.slot_inj (orderly.known_of_awaits awaits) eq)
  refine ⟨fun t' x' awaits _ value => ?_, fun t' awaits _ value => ?_,
    fun p t' lt straight wrote => ?_, ?_⟩
  · by_cases is : t' = t
    · subst is
      simp only [Visit.move, Visit.set, Function.update_self, Option.some.injEq] at value
      subst value
      exact ⟨show _ < max 1 (l.room (v.pos + 1)) by omega, by omega, here⟩
    · simp only [Visit.move, Visit.set, Function.update_of_ne is] at value
      obtain ⟨slot_lt', below, here'⟩ :=
        h.set t' x' (awaits.mono (Nat.le_succ _)) nofun value
      have ne := other t' awaits is
      refine ⟨show _ < max 1 (l.room (v.pos + 1)) by omega, by omega, ?_⟩
      rw [same _ below (by omega)]
      exact here'
  · by_cases is : t' = t
    · subst is
      simp [Visit.move, Visit.set] at value
    · simp only [Visit.move, Visit.set, Function.update_of_ne is] at value
      intro mem
      rcases List.mem_cons.1 (subset mem) with eq | mem
      · exact other t' awaits is eq
      · exact h.unset t' (awaits.mono (Nat.le_succ _)) nofun value mem
  · have lt' : p < v.pos + 1 := lt
    by_cases is : t' = t
    · subst is
      simp only [Visit.move, Visit.set, Function.update_self, Option.isSome_some, true_and]
      omega
    · have before : p ≠ v.pos := by
        rintro rfl
        rw [writes] at wrote
        exact is (Option.some.inj wrote).symm
      obtain ⟨isSome, below⟩ := h.recent p t' (by omega)
        (fun q lt le => straight q lt (Nat.le_succ_of_le le)) wrote
      simp only [Visit.move, Visit.set, Function.update_of_ne is]
      exact ⟨isSome, by omega⟩
  · have le := h.top_le
    show max top (base + l.slot t + 1) ≤ base + max 1 (l.room (v.pos + 1))
    omega

/-- The callee answers: the caller's temporaries are all there again. -/
theorem answered {answer : Int16}
    (h : Stands l v (some answer) base bound top registers written)
    (slot_lt : l.slot answer < max 1 (l.room v.pos)) (place : base + l.slot answer = bound)
    (below : bound < top) {registers' : Array Value} {x : Value}
    (same : ∀ i < bound, registers'[i]? = registers[i]?) (here : registers'[bound]? = some x) :
    Stands l (v.set answer x) none base top top registers' written := by
  refine ⟨fun t' x' awaits _ value => ?_, fun t' awaits _ value => ?_,
    fun p t' lt straight wrote => ?_, h.top_le⟩
  · by_cases is : t' = answer
    · subst is
      simp only [Visit.set, Function.update_self, Option.some.injEq] at value
      subst value
      refine ⟨slot_lt, by omega, ?_⟩
      rw [place]
      exact here
    · simp only [Visit.set, Function.update_of_ne is] at value
      obtain ⟨slot_lt', below', here'⟩ := h.set t' x' awaits
        (fun eq => is (Option.some.inj eq).symm) value
      exact ⟨slot_lt', by omega, (same _ below').trans here'⟩
  · by_cases is : t' = answer
    · subst is
      simp [Visit.set] at value
    · simp only [Visit.set, Function.update_of_ne is] at value
      exact h.unset t' awaits (fun eq => is (Option.some.inj eq).symm) value
  · obtain ⟨isSome, below'⟩ := h.recent p t' lt straight wrote
    refine ⟨?_, below'⟩
    by_cases is : t' = answer
    · simp [Visit.set, is]
    · simpa [Visit.set, Function.update_of_ne is] using isSome

end Stands

/-- The callers of a frame that begins at `base`, the innermost first. Their
answers are awaited at the bases of the frames they called. -/
inductive Pile (c : Chart) (registers : Array Value) :
    Nat → List Waiting → List Frame → List (List Nat) → Prop where
  | entry {frame : Frame} (top : frame.top = 0) : Pile c registers 0 [] [frame] []
  | call {l : Listing} {w : Waiting} {rest : List Waiting} {frame : Frame} {frames : List Frame}
    {written : List Nat} {writtens : List (List Nat)} {base : Nat}
    (known : c.listings[w.visit.func]? = some l)
    (func : frame.func = w.visit.func) (place : frame.place = l.place w.visit.pos)
    (answerSlot : l.slot w.answer < max 1 (l.room w.visit.pos))
    (answerPlace : frame.base + l.slot w.answer = base) (below : base < frame.top)
    (stands : Stands l w.visit (some w.answer) frame.base base frame.top registers written)
    (outer : Pile c registers frame.base rest frames writtens) :
    Pile c registers base (w :: rest) (frame :: frames) (written :: writtens)

theorem Pile.frames_ne {c : Chart} {registers : Array Value} {base : Nat}
    {waiting : List Waiting} {frames : List Frame} {writtens : List (List Nat)}
    (h : Pile c registers base waiting frames writtens) : frames ≠ [] := by
  cases h <;> exact List.cons_ne_nil _ _

/-- Changes above the base of a frame do not concern its callers. -/
theorem Pile.congr {c : Chart} {registers registers' : Array Value} {base : Nat}
    {waiting : List Waiting} {frames : List Frame} {writtens : List (List Nat)}
    (h : Pile c registers base waiting frames writtens)
    (same : ∀ i < base, registers'[i]? = registers[i]?) :
    Pile c registers' base waiting frames writtens := by
  induction h with
  | entry top => exact .entry top
  | call known func place answerSlot answerPlace below stands _ ih =>
      exact .call known func place answerSlot answerPlace below (stands.congr same)
        (ih fun i hi => same i (by omega))

end RegisterCode

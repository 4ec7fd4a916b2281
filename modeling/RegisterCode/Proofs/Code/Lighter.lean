import RegisterCode.Proofs.Code.Simulation
import RegisterCode.Proofs.Flow.Abreast
import RegisterCode.Proofs.Flow.Shrinking

/-!
Machines that execute condensed code beside machines that execute the code before. The
condensed code is no slower and needs no more registers, so it gets through wherever the code
before does (`Ahead.completes`).
-/

namespace RegisterCode

open Machine Tracked

namespace Listing

/-! ### Steps that take less -/

/-- A step of the listing `l'` takes no more than a step of the listing `l` does. -/
structure Lighter (l l' : Listing) (step step' : Step) : Prop where
  cost : ∀ ok, step'.cost ok ≤ step.cost ok
  opens : step'.opens = step.opens
  reach : ∀ (ok : Bool) (base base' top top' : Nat), base' ≤ base → top' ≤ top →
    l'.reach step' ok base' top' ≤ l.reach step ok base top
  shift : ∀ bounds bounds', List.Forall₂ (· ≤ ·) bounds' bounds →
    List.Forall₂ (· ≤ ·) (l'.shift step' bounds') (l.shift step bounds)

variable {l l' : Listing} {k : Nat} {step step' : Step} {pool functions procedures : Nat}

/-- The bounds of the frames when the innermost one gets a value in a slot. -/
def raised (slot : Nat) : List (Nat × Nat) → List (Nat × Nat)
  | [] => []
  | (base, top) :: rest => (base, max top (base + slot + 1)) :: rest

theorem shift_unary (dest a : Address) (op : Op) (bounds : List (Nat × Nat)) :
    l.shift (.unary dest op a) bounds = raised (l.slot dest.id) bounds := by
  cases bounds <;> rfl

theorem shift_binary (dest a b : Address) (op : Op) (bounds : List (Nat × Nat)) :
    l.shift (.binary dest op a b) bounds = raised (l.slot dest.id) bounds := by
  cases bounds <;> rfl

theorem le_raised (slot : Nat) {bounds bounds' : List (Nat × Nat)}
    (below : List.Forall₂ (· ≤ ·) bounds' bounds) :
    List.Forall₂ (· ≤ ·) bounds' (raised slot bounds) := by
  cases below with
  | nil => exact .nil
  | cons first rest =>
      obtain ⟨base, top⟩ := first
      exact .cons ⟨base, Nat.le_trans top (Nat.le_max_left _ _)⟩ rest

theorem raised_le {slot slot' : Nat} (le : slot' ≤ slot) {bounds bounds' : List (Nat × Nat)}
    (below : List.Forall₂ (· ≤ ·) bounds' bounds) :
    List.Forall₂ (· ≤ ·) (raised slot' bounds') (raised slot bounds) := by
  cases below with
  | nil => exact .nil
  | cons first rest =>
      obtain ⟨base, top⟩ := first
      exact .cons ⟨base, max_le_max top (by omega)⟩ rest

namespace Lighter

theorem unary {dest dest' a a' : Address} {op op' : Op} (slot : l'.slot dest'.id ≤ l.slot dest.id)
    (width : (Step.unary dest' op' a').width ≤ (Step.unary dest op a).width) :
    Lighter l l' (.unary dest op a) (.unary dest' op' a') where
  cost _ := width
  opens := rfl
  reach ok base base' top top' low high := by
    show max top' (base' + l'.slot dest'.id + 1) ≤ max top (base + l.slot dest.id + 1)
    omega
  shift bounds bounds' below := by
    rw [shift_unary, shift_unary]
    exact raised_le slot below

theorem binary {dest dest' a b a' b' : Address} {op op' : Op}
    (slot : l'.slot dest'.id ≤ l.slot dest.id) :
    Lighter l l' (.binary dest op a b) (.binary dest' op' a' b') where
  cost _ := Nat.le_refl _
  opens := rfl
  reach ok base base' top top' low high := by
    simp only [Listing.reach]
    split <;> omega
  shift bounds bounds' below := by
    rw [shift_binary, shift_binary]
    exact raised_le slot below

/-- A step that is left out. -/
theorem neutral {a : Address} (dest : step.dest? = some a) : Lighter l l' step .neutral := by
  have keeps (bounds : List (Nat × Nat)) : l'.shift .neutral bounds = bounds := by
    cases bounds <;> rfl
  cases step with
  | unary d op x =>
      refine ⟨fun _ => Nat.zero_le _, rfl, fun ok base base' top top' _ high =>
        Nat.le_trans high (Nat.le_max_left _ _), fun bounds bounds' below => ?_⟩
      rw [keeps, shift_unary]
      exact le_raised _ below
  | binary d op x y =>
      refine ⟨fun _ => Nat.zero_le _, rfl, fun ok base base' top top' _ high => ?_,
        fun bounds bounds' below => ?_⟩
      · show top' ≤ if ok then max (top + 2) (base + l.slot d.id + 1) else top + 2
        split <;> omega
      · rw [keeps, shift_binary]
        exact le_raised _ below
  | _ => cases dest

/-- A step that writes no temporary is still there as it was. -/
theorem same (dest : step.dest? = none) : Lighter l l' step step := by
  refine ⟨fun _ => Nat.le_refl _, rfl, fun ok base base' top top' _ high => ?_,
    fun bounds bounds' below => ?_⟩
  · cases step with
    | unary => cases dest
    | binary => cases dest
    | _ => exact high
  · cases below with
    | nil => exact .nil
    | @cons first' first _ _ here rest =>
        obtain ⟨base, top⟩ := here
        cases step with
        | unary => cases dest
        | binary => cases dest
        | act => exact .cons ⟨base, top⟩ rest
        | actOn op a =>
            cases op with
            | ret => exact rest
            | _ => exact .cons ⟨base, top⟩ rest
        | actOnTwo op a b =>
            cases op with
            | call => exact .cons ⟨Nat.sub_le_sub_right top _, top⟩ (.cons ⟨base, top⟩ rest)
            | _ => exact .cons ⟨base, top⟩ rest

end Lighter

/-- No step of a condensed listing takes more than it did before. -/
theorem Shrinks.lighter (h : l.Shrinks l') (fresh : l.Fresh)
    (orderly : l.Orderly pool functions procedures) (found : l.steps[k]? = some step)
    (found' : l'.steps[k]? = some step') : Lighter l l' step step' := by
  have width := h.width_le fresh orderly found found'
  have slot {a a' : Address} (dest : step.dest? = some a) (dest' : step'.dest? = some a') :
      l'.slot a'.id ≤ l.slot a.id := by
    obtain ⟨t, writes, le⟩ := h.slot_le fresh (writes?_of_dest found' dest')
    rw [writes?_of_dest found dest] at writes
    cases writes
    exact le
  obtain ⟨step₁, found₁, became⟩ := h.became k step' found'
  obtain rfl : step = step₁ := Option.some.inj (found.symm.trans found₁)
  cases became with
  | gone dest => exact .neutral dest
  | copied => exact .unary (slot rfl rfl) width
  | moved t computes dest never =>
      cases step with
      | unary => exact .unary (slot rfl rfl) width
      | binary => exact .binary (slot rfl rfl)
      | _ => cases dest
  | same =>
      cases step with
      | unary => exact .unary (slot rfl rfl) width
      | binary => exact .binary (slot rfl rfl)
      | _ => exact .same rfl

end Listing

/-! ### Machines side by side -/

/-- The listings of the chart `c'` are those of `c`, condensed. -/
structure Chart.Condensed (c c' : Chart) : Prop extends c.Simulates c' where
  fresh : ∀ l ∈ c.listings, l.Fresh
  shrinks : ∀ (f : Nat) (l l' : Listing), c.listings[f]? = some l → c'.listings[f]? = some l' →
    l.Shrinks l'

/-- The machine `x'` in condensed code is where the machine `x` in the code before is, and has
taken no more so far. -/
structure Ahead (s s' : Setting) (c c' : Chart) (j j' : Journey) (x x' : Tracked) : Prop where
  here : ∃ l, Match s c l j x
  there : ∃ l, Match s' c' l j' x'
  alike : j.Alike c c' j'
  steps : x'.machine.steps ≤ x.machine.steps
  peak : x'.peak ≤ x.peak
  bounds : List.Forall₂ (· ≤ ·) x'.machine.bounds x.machine.bounds

theorem Machine.length_bounds (m : Machine) : m.bounds.length = m.depth + 1 := by
  simp [bounds, depth]

namespace Ahead

variable {s s' : Setting} {c c' : Chart} {l l' : Listing} {j j' k : Journey} {x x' z : Tracked}
  {step step' : Step} {n : Nat}

theorem inner (h : Ahead s s' c c' j j' x x') :
    x'.machine.base ≤ x.machine.base ∧ x'.machine.top ≤ x.machine.top := by
  obtain ⟨first, -⟩ := List.forall₂_cons.1 h.bounds
  exact first

theorem depth (h : Ahead s s' c c' j j' x x') : x'.machine.depth = x.machine.depth := by
  have length := h.bounds.length_eq
  rw [Machine.length_bounds, Machine.length_bounds] at length
  exact Nat.succ.inj length

theorem demand_le (h : Ahead s s' c c' j j' x x') (lighter : l.Lighter l' step step') (ok : Bool) :
    (l'.demand step' ok x'.machine).Le (l.demand step ok x.machine) where
  steps := Nat.add_le_add h.steps (lighter.cost ok)
  registers := lighter.reach ok _ _ _ _ h.inner.1 h.inner.2
  depth := by
    show x'.machine.depth + step'.opens ≤ x.machine.depth + step.opens
    rw [h.depth, lighter.opens]

/-- Both machines follow the next step of their journeys. -/
theorem followed (linked : Linked s c) (linked' : Linked s' c') (condensed : c.Condensed c')
    (h : Ahead s s' c c' j j' x x') :
    ∃ l l' step step', Followed s c l step x (j.step c) ∧
      Followed s' c' l' step' x' (j'.step c') ∧ l.Lighter l' step step' := by
  obtain ⟨l, here⟩ := h.here
  obtain ⟨l', there⟩ := h.there
  obtain ⟨func, pos, -⟩ := h.alike.visit
  have known := there.known
  rw [func] at known
  have shrinks := condensed.shrinks _ l l' here.known known
  have length : l'.steps.length = l.steps.length := shrinks.length_eq
  have orderly := here.orderly linked
  cases found : l.steps[j.visit.pos]? with
  | none =>
      have beyond := List.getElem?_eq_none_iff.1 found
      have found' : l'.steps[j'.visit.pos]? = none := by
        rw [List.getElem?_eq_none_iff, pos, length]
        exact beyond
      exact ⟨l, l', _, _, here.followed_end linked found, there.followed_end linked' found',
        .same rfl⟩
  | some step =>
      have inside := (List.getElem?_eq_some_iff.1 found).1
      obtain ⟨step', found'⟩ : ∃ step', l'.steps[j.visit.pos]? = some step' :=
        ⟨_, List.getElem?_eq_getElem (length.symm ▸ inside)⟩
      have lighter := shrinks.lighter (condensed.fresh l (List.mem_of_getElem? here.known)) orderly
        found found'
      rw [← pos] at found'
      have followed := here.followed linked found
      have followed' := there.followed linked' found'
      have turn := here.step_eq
      have turn' := there.step_eq
      rw [found] at turn
      rw [found'] at turn'
      rw [turn, turn']
      exact ⟨l, l', _, _, followed, followed', lighter⟩

/-- If the machine in the code before gets through a step, so does the machine in condensed
code. -/
theorem on (linked : Linked s c) (linked' : Linked s' c') (condensed : c.Condensed c')
    (limits : s'.limits = s.limits) (h : Ahead s s' c c' j j' x x')
    (run : Completes s storing Any n x z) (first : j.step c = .on k) :
    ∃ k' y y' n' count, Ahead s s' c c' k k' y y' ∧ Completes s storing Any n' y z ∧
      Steps s' storing count x' y' := by
  obtain ⟨l, l', step, step', followed, followed', lighter⟩ :=
    h.followed linked linked' condensed
  have alike := h.alike.step condensed.toSimulates (by rw [first]; nofun)
  rw [first] at followed alike
  generalize j'.step c' = turn' at followed' alike
  cases alike with
  | @on _ k' alike =>
      rcases followed with ⟨-, barred⟩ | ⟨within, count, y, steps, arrived⟩
      · exact absurd run (barred n z)
      · rcases followed' with ⟨exceeds, -⟩ | ⟨-, count', y', steps', arrived'⟩
        · rw [limits] at exceeds
          exact absurd (exceeds.mono (h.demand_le lighter true)) within
        · obtain ⟨n', -, rest⟩ := run.after_steps steps
          have bounds : List.Forall₂ (· ≤ ·) y'.machine.bounds y.machine.bounds := by
            rw [arrived.bounds, arrived'.bounds]
            exact lighter.shift _ _ h.bounds
          have top := (List.forall₂_cons.1 bounds).1.2
          refine ⟨k', y, y', n', count', ⟨arrived.arrived, arrived'.arrived, alike, ?_, ?_,
            bounds⟩, rest, steps'⟩
          · rw [arrived.steps, arrived'.steps]
            exact (h.demand_le lighter true).steps
          · rw [arrived.peak, arrived'.peak]
            exact max_le_max (max_le_max h.peak (h.demand_le lighter true).registers) top

/-- If a run of the code before is completed, so is that of condensed code, with the same end
and having taken no more. -/
theorem completes (linked : Linked s c) (linked' : Linked s' c') (condensed : c.Condensed c')
    (limits : s'.limits = s.limits) (h : Ahead s s' c c' j j' x x')
    (run : Completes s storing Any n x z) {r : Except Fault Value} {w : World}
    (finishes : j.Finishes c r w) :
    ∃ n' z', Completes s' storing Any n' x' z' ∧ Shows z' r w ∧
      z'.machine.steps ≤ z.machine.steps ∧ z'.peak ≤ z.peak := by
  induction finishes generalizing j' x x' n with
  | @finished j v w last =>
      obtain ⟨l, l', step, step', followed, followed', lighter⟩ :=
        h.followed linked linked' condensed
      have alike := h.alike.step condensed.toSimulates (by rw [last]; nofun)
      rw [last] at followed alike
      generalize j'.step c' = turn' at followed' alike
      cases alike
      rcases followed with ⟨-, barred⟩ | ⟨within, count, y, run', -, -, -, steps, peak⟩
      · exact absurd run (barred n z)
      · obtain ⟨-, rfl⟩ := run.unique run'
        rcases followed' with ⟨exceeds, -⟩ | ⟨-, count', z', run', status, world, value, steps',
          peak'⟩
        · rw [limits] at exceeds
          refine absurd (exceeds.mono ⟨Nat.succ_le_succ h.steps, max_le_max h.inner.2 (le_refl 1),
            h.depth.le⟩) within
        · refine ⟨count', z', run', ⟨world, status, value⟩, ?_, ?_⟩
          · rw [steps, steps']
            exact Nat.succ_le_succ h.steps
          · rw [peak, peak']
            exact h.peak
  | @failed j fault w last =>
      obtain ⟨l, l', step, step', followed, followed', lighter⟩ :=
        h.followed linked linked' condensed
      have alike := h.alike.step condensed.toSimulates (by rw [last]; nofun)
      rw [last] at followed alike
      generalize j'.step c' = turn' at followed' alike
      cases alike
      have less := h.demand_le lighter false
      rcases followed.2.ends with ⟨-, barred⟩ | ⟨within, count, y, run', -, -, steps, peak⟩
      · exact absurd run (barred n z)
      · obtain ⟨-, rfl⟩ := run.unique run'
        rcases followed'.2.ends with
          ⟨exceeds, -⟩ | ⟨-, count', z', run', status, world, steps', peak'⟩
        · rw [limits] at exceeds
          exact absurd (exceeds.mono less) within
        · refine ⟨count', z', run', ⟨world, status⟩, ?_, ?_⟩
          · rw [steps, steps']
            exact less.steps
          · rw [peak, peak']
            exact max_le_max h.peak less.registers
  | on first _ ih =>
      obtain ⟨k', y, y', n', count, ahead, rest, steps⟩ :=
        h.on linked linked' condensed limits run first
      obtain ⟨n'', z', run', shows, less⟩ := ih ahead rest
      exact ⟨count + n'', z', run'.of_steps steps, shows, less⟩

end Ahead

end RegisterCode

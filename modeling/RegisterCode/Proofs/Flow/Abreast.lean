import RegisterCode.Proofs.Flow.Condensing
import RegisterCode.Proofs.Flow.Plans

/-!
Condensed listings do what the listings before did (`Listing.exists_simulates`). Between the
two steps of a merge the value is not where it was: it is still in the source of the copy
that is made later, or already in its destination.
-/

namespace RegisterCode

open Function (update)

/-! ### One merge -/

/-- The temporaries before and after a merge are the same, except for the one that is bypassed
and, on the way from one of the two steps to the other, for those that are covered. On that way,
`way` tells where the value is. -/
structure Shaded (origin position : Nat) (middle : Int16) (covered : Int16 → Prop)
    (way : (Int16 → Option Value) → (Int16 → Option Value) → Prop) (pos : Nat)
    (temps temps' : Int16 → Option Value) : Prop where
  agree : ∀ t x, t ≠ middle → (covered t → ¬ (origin < pos ∧ pos ≤ position)) →
    temps t = some x → temps' t = some x
  way : origin < pos → pos ≤ position → way temps temps'

/-- What happens on the way between the two steps. -/
structure Listing.Unwatched (l : Listing) (origin position : Nat) (covered : Int16 → Prop)
    (way : (Int16 → Option Value) → (Int16 → Option Value) → Prop) : Prop where
  unread : ∀ (q : Nat) (step : Step) (t : Int16), origin < q → q < position →
    l.steps[q]? = some step → covered t → .temp t ∉ step.args
  keeps : ∀ (q : Nat) (t : Int16) (x : Value) (temps temps' : Int16 → Option Value), origin < q →
    q < position → l.writes? q = some t → way temps temps' →
    way (update temps t (some x)) (update temps' t (some x))

/-- Setting a temporary to the same value. -/
theorem update_of_agree {temps temps' : Int16 → Option Value} {t t' : Int16} {x y : Value}
    (agree : t' ≠ t → temps t' = some y → temps' t' = some y)
    (value : update temps t (some x) t' = some y) : update temps' t (some x) t' = some y := by
  by_cases same : t' = t
  · subst same
    rw [Function.update_self] at value ⊢
    exact value
  · rw [Function.update_of_ne same] at value ⊢
    exact agree same value

namespace Shaded

variable {c : Chart} {l : Listing} {origin position pos : Nat} {middle dest : Int16}
  {writer : Step} {covered : Int16 → Prop}
  {way : (Int16 → Option Value) → (Int16 → Option Value) → Prop}
  {temps temps' : Int16 → Option Value} {t : Int16} {x : Value}

/-- Addresses other than those of the temporaries left out have the same values. -/
theorem value (h : Shaded origin position middle covered way pos temps temps') {a : Address}
    (other : a ≠ .temp middle)
    (open_ : ∀ t, a = .temp t → covered t → ¬ (origin < pos ∧ pos ≤ position))
    (here : c.value? temps a = some x) : c.value? temps' a = some x := by
  obtain ⟨space, id⟩ := a
  cases space with
  | temp => exact h.agree id x (fun same => other (same ▸ rfl)) (open_ id rfl) here
  | _ => exact here

/-- A step that sets no temporary. -/
theorem move (h : Shaded origin position middle covered way pos temps temps')
    (first : pos ≠ origin) (second : pos ≠ position) :
    Shaded origin position middle covered way (pos + 1) temps temps' where
  agree t x other open_ := h.agree t x other fun hidden between => open_ hidden (by omega)
  way low high := h.way (by omega) (by omega)

/-- A step that sets a temporary. -/
theorem set (unwatched : l.Unwatched origin position covered way)
    (h : Shaded origin position middle covered way pos temps temps')
    (first : pos ≠ origin) (second : pos ≠ position) (writes : l.writes? pos = some t) :
    Shaded origin position middle covered way (pos + 1) (update temps t (some x))
      (update temps' t (some x)) where
  agree t' y other open_ := update_of_agree fun _ =>
    h.agree t' y other fun hidden between => open_ hidden (by omega)
  way low high :=
    unwatched.keeps pos t x temps temps' (by omega) (by omega) writes (h.way (by omega) (by omega))

/-- Away from the two steps only the temporary that is bypassed matters. -/
theorem outside {pos' : Nat} (h : Shaded origin position middle covered way pos temps temps')
    (away : ¬ (origin < pos ∧ pos ≤ position)) (away' : ¬ (origin < pos' ∧ pos' ≤ position)) :
    Shaded origin position middle covered way pos' temps temps' where
  agree t x other _ := h.agree t x other fun _ => away
  way low high := absurd ⟨low, high⟩ away'

theorem outside_set {pos' : Nat}
    (h : Shaded origin position middle covered way pos temps temps')
    (away : ¬ (origin < pos ∧ pos ≤ position)) (away' : ¬ (origin < pos' ∧ pos' ≤ position)) :
    Shaded origin position middle covered way pos' (update temps t (some x))
      (update temps' t (some x)) where
  agree t' y other _ := update_of_agree fun _ => h.agree t' y other fun _ => away
  way low high := absurd ⟨low, high⟩ away'

end Shaded

/-- The values of a list of temporaries in a larger assignment. -/
theorem mapM_of_agree {α β : Type} {f g : α → Option β} {xs : List α} {ys : List β}
    (agree : ∀ x ∈ xs, ∀ y, f x = some y → g x = some y) (h : xs.mapM f = some ys) :
    xs.mapM g = some ys := by
  induction xs generalizing ys with
  | nil => exact h
  | cons x xs ih =>
      rw [List.mapM_cons] at h ⊢
      obtain ⟨y, first, h⟩ := Option.bind_eq_some_iff.1 h
      obtain ⟨rest, more, h⟩ := Option.bind_eq_some_iff.1 h
      have first' := agree x List.mem_cons_self y first
      have more' := ih (fun x mem => agree x (List.mem_cons_of_mem _ mem)) more
      rw [first', Option.bind_eq_bind, Option.bind_some, more', Option.bind_eq_bind,
        Option.bind_some]
      exact h

namespace Listing

variable {c : Chart} {l : Listing} {origin position pool functions procedures : Nat}
  {middle dest : Int16} {writer w' c' : Step} {covered : Int16 → Prop}
  {way : (Int16 → Option Value) → (Int16 → Option Value) → Prop}

/-- Where a jump lands is not on the way between the two steps. -/
theorem Bypass.landing_outside (h : l.Bypass origin position middle dest writer) {target : Nat}
    (nop : l.steps[target]? = some (.act .nop)) : ¬ (origin < target ∧ target ≤ position) := by
  rintro ⟨low, high⟩
  rcases Nat.lt_or_eq_of_le high with lt | same
  · exact (h.between target _ low lt nop).2.2 rfl
  · rw [same, h.copy] at nop
    cases nop

/-- Neither is a call or a jump. -/
theorem Bypass.outside (h : l.Bypass origin position middle dest writer) {pos : Nat} {step : Step}
    (found : l.steps[pos]? = some step) (second : pos ≠ position)
    (leaves : step.op.isCall = true ∨ step.marker.IsJump) :
    ¬ (origin < pos ∧ pos ≤ position) := by
  rintro ⟨low, high⟩
  obtain ⟨plain, straight, -⟩ := h.between pos step low (by omega) found
  rcases leaves with call | jump
  · rw [plain] at call
    cases call
  · exact straight jump

/-- A step that is not one of the two does the same with temporaries that are related. -/
theorem planned_alike (orderly : l.Orderly pool functions procedures)
    (bypass : l.Bypass origin position middle dest writer)
    (rewrites : l.Rewrites origin position middle dest writer w' c')
    (unwatched : l.Unwatched origin position covered way) {v v' : Visit} (func : v'.func = v.func)
    (at_ : v'.pos = v.pos) {step : Step} (first : v.pos ≠ origin) (second : v.pos ≠ position)
    (found : l.steps[v.pos]? = some step)
    (h : Shaded origin position middle covered way v.pos v.temps v'.temps)
    (fine : v.planned c l step ≠ .astray) :
    Plan.Alike (Shaded origin position middle covered way) v.pos v.temps v'.temps
      (v.planned c l step) (v'.planned c (l.replaced origin position w' c') step) := by
  -- The operands have the same values.
  have values {a : Address} (mem : a ∈ step.args) {x : Value}
      (value : c.value? v.temps a = some x) : c.value? v'.temps a = some x := by
    refine h.value (fun same => second (bypass.read v.pos step found (same ▸ mem))) ?_ value
    rintro t rfl hidden ⟨low, high⟩
    exact unwatched.unread v.pos step t low (by omega) found hidden mem
  have moved : Plan.Alike (Shaded origin position middle covered way) v.pos v.temps v'.temps
      (.go v.move) (.go v'.move) := .go func (congrArg Nat.succ at_) (h.move first second)
  have assigned {t : Int16} (writes : l.writes? v.pos = some t) (x : Value) :
      Plan.Alike (Shaded origin position middle covered way) v.pos v.temps v'.temps
        (v.assign t x) (v'.assign t x) :=
    .go func (congrArg Nat.succ at_) (h.set unwatched first second writes)
  have landed (jump : step.marker.IsJump) (fine : v.land l ≠ .astray) :
      Plan.Alike (Shaded origin position middle covered way) v.pos v.temps v'.temps
        (v.land l) (v'.land (l.replaced origin position w' c')) := by
    rw [Visit.land] at fine ⊢
    rw [Visit.land, landing_replaced bypass rewrites, at_]
    cases landed : l.landing v.pos with
    | none =>
        rw [landed] at fine
        exact absurd rfl fine
    | some target =>
        have nop := (orderly.landing_spec landed).2
        exact .go func rfl (h.outside (bypass.outside found second (.inr jump))
          (bypass.landing_outside nop))
  have handed {n : Nat} (window : step.window? = some n) (call : step.op.isCall = true)
      {plan : List Value → Int16 → Plan} (fine : v.hand l n plan ≠ .astray)
      (alike : ∀ args answer, (∀ x, Shaded origin position middle covered way (v.pos + 1)
        (update v.temps answer (some x)) (update v'.temps answer (some x))) →
        Plan.Alike (Shaded origin position middle covered way) v.pos v.temps v'.temps
          (plan args answer) (plan args answer)) :
      Plan.Alike (Shaded origin position middle covered way) v.pos v.temps v'.temps
        (v.hand l n plan) (v'.hand (l.replaced origin position w' c') n plan) := by
    have away := bypass.outside found second (.inl call)
    have found' : (l.replaced origin position w' c').steps[v.pos]? = some step :=
      (getElem?_replaced first second).trans found
    obtain ⟨-, same⟩ := window_replaced bypass rewrites found' window
    rw [Visit.hand] at fine ⊢
    rw [Visit.hand, at_, same]
    cases args : (l.window v.pos n).mapM v.temps with
    | none =>
        rw [args] at fine
        exact absurd rfl fine
    | some values =>
        have args' : (l.window v.pos n).mapM v'.temps = some values := by
          refine mapM_of_agree (fun t mem x value => ?_) args
          refine h.agree t x ?_ (fun _ => away) value
          rintro rfl
          exact bypass.notMem_window found window mem
        rw [args']
        cases head : (l.window v.pos n).head? with
        | none =>
            rw [args, head] at fine
            exact absurd rfl fine
        | some answer => exact alike values answer fun x => h.outside_set away (by omega)
  cases orderly.legal v.pos step found with
  | @copy t a sound =>
      have writes := writes?_of_dest found rfl
      simp only [Visit.planned] at fine ⊢
      cases value : c.value? v.temps a with
      | none =>
          rw [value] at fine
          exact absurd rfl fine
      | some x =>
          rw [values List.mem_cons_self value]
          exact assigned writes x
  | @neg t a sound =>
      have writes := writes?_of_dest found rfl
      simp only [Visit.planned] at fine ⊢
      cases value : c.value? v.temps a with
      | none =>
          rw [value] at fine
          exact absurd rfl fine
      | some x =>
          rw [values List.mem_cons_self value]
          dsimp only
          cases x.neg.isDud with
          | true => exact .fail _
          | false => exact assigned writes x.neg
  | @binary t op a b sound sound' =>
      have writes := writes?_of_dest found rfl
      simp only [Visit.planned] at fine ⊢
      cases left : c.value? v.temps a with
      | none =>
          rw [left] at fine
          exact absurd rfl fine
      | some x =>
          cases right : c.value? v.temps b with
          | none =>
              rw [left, right] at fine
              exact absurd rfl fine
          | some y =>
              rw [values List.mem_cons_self left,
                values (List.mem_cons_of_mem _ List.mem_cons_self) right]
              dsimp only
              cases op.outcome x y with
              | error fault => exact .fail fault
              | ok z => exact assigned writes z
  | nop => exact moved
  | savePatch => exact moved
  | shufflePatch => exact moved
  | patchJump => exact moved
  | patchJumpElse => exact moved
  | condensed => exact moved
  | jump => exact landed (.inl rfl) fine
  | @ret a sound =>
      simp only [Visit.planned] at fine ⊢
      cases value : c.value? v.temps a with
      | none =>
          rw [value] at fine
          exact absurd rfl fine
      | some x =>
          rw [values List.mem_cons_self value]
          exact .leave x
  | @jumpElse a sound =>
      simp only [Visit.planned] at fine ⊢
      cases value : c.value? v.temps a with
      | none =>
          rw [value] at fine
          exact absurd rfl fine
      | some x =>
          rw [value] at fine
          rw [values List.mem_cons_self value]
          dsimp only at fine ⊢
          cases truth : x.truthy? with
          | none => exact .fail _
          | some taken =>
              rw [truth] at fine
              cases taken with
              | true => exact moved
              | false => exact landed (.inr rfl) fine
  | call => exact handed rfl rfl fine fun args answer => .call _ args answer
  | nativeCall => exact handed rfl rfl fine fun args answer => .perform _ args answer

/-- A function is entered with the same arguments. One without parameters gets its argument in
the slot of the temporary that is written first, which no merge changes. -/
theorem entered_replaced (bypass : l.Bypass origin position middle dest writer)
    (rewrites : l.Rewrites origin position middle dest writer w' c') {args : List Value}
    (fits : args.length ≤ max 1 l.params) {t : Int16} {x : Value} (other : t ≠ middle)
    (value : l.entered args t = some x) :
    (l.replaced origin position w' c').entered args t = some x := by
  suffices same : (l.replaced origin position w' c').slot t = l.slot t by
    rw [entered, same]
    exact value
  have lt : l.slot t < args.length := (List.getElem?_eq_some_iff.1 value).1
  by_cases param : IsParam l.params t
  · rw [slot_of_isParam param]
    exact slot_of_isParam (show IsParam (l.replaced origin position w' c').params t from param)
  · have slot := slot_of_not_isParam param
    have params : l.params = 0 := by omega
    have zero : l.slot t = 0 := by omega
    have free (t : Int16) : ¬ IsParam l.params t := by
      rw [params]
      exact Nat.not_lt_zero _
    have written : ∃ q, l.writes? q = some t := by
      by_contra never
      have unnamed : t ∉ l.names (origin + 1) := fun mem =>
        never ((mem_names_iff.1 mem).2.imp fun _ h => h.2)
      have named : middle ∈ l.names (origin + 1) :=
        mem_names_iff.2 ⟨free middle, origin, Nat.lt_succ_self _, bypass.writes_origin⟩
      have some := List.length_pos_of_mem named
      have le := room_le_slot param unnamed
      rw [room] at le
      omega
    -- No step in front of the one that first writes the temporary writes anything.
    let q := Nat.find written
    have here : l.writes? q = some t := Nat.find_spec written
    have fresh : t ∉ l.names q := fun mem => by
      obtain ⟨-, q', lt, writes⟩ := mem_names_iff.1 mem
      exact Nat.find_min written lt writes
    have silent : l.names q = [] := by
      have le := room_le_slot param fresh
      rw [room] at le
      exact List.eq_nil_of_length_eq_zero (by omega)
    have late : q ≤ origin := by
      refine Nat.not_lt.1 fun lt => ?_
      have named : middle ∈ l.names q :=
        mem_names_iff.2 ⟨free middle, origin, lt, bypass.writes_origin⟩
      rw [silent] at named
      cases named
    have first : q ≠ origin := by
      intro same
      rw [same, bypass.writes_origin] at here
      exact other (Option.some.inj here).symm
    have lt' := bypass.lt
    have second : q ≠ position := by omega
    have silent' : (l.replaced origin position w' c').names q = [] := by
      refine List.eq_nil_iff_forall_not_mem.2 fun t' mem => ?_
      obtain ⟨param', q', lt, writes⟩ := mem_names_iff.1 mem
      rcases writes?_replaced bypass rewrites writes with ⟨-, rfl | rfl⟩ | ⟨-, -, writes⟩
      · omega
      · omega
      · have named : t' ∈ l.names q := mem_names_iff.2 ⟨param', q', lt, writes⟩
        rw [silent] at named
        cases named
    obtain ⟨step, found, dest'⟩ := writes?_eq_some here
    have found' := (getElem?_replaced (w := w') (c := c') first second).trans found
    rw [zero, slot_of_fresh found' dest' param (by rw [silent']; exact List.not_mem_nil), room,
      silent']
    exact params

/-- A merge is a simulation if its two steps do what they should. -/
theorem Bypass.simulates (orderly : l.Orderly pool functions procedures)
    (bypass : l.Bypass origin position middle dest writer)
    (rewrites : l.Rewrites origin position middle dest writer w' c')
    (unwatched : l.Unwatched origin position covered way)
    (at_origin : ∀ v v' : Visit, v'.func = v.func → v'.pos = v.pos → v.pos = origin →
      Shaded origin position middle covered way v.pos v.temps v'.temps →
      v.planned c l writer ≠ .astray →
      Plan.Alike (Shaded origin position middle covered way) v.pos v.temps v'.temps
        (v.planned c l writer) (v'.planned c (l.replaced origin position w' c') w'))
    (at_position : ∀ v v' : Visit, v'.func = v.func → v'.pos = v.pos → v.pos = position →
      Shaded origin position middle covered way v.pos v.temps v'.temps → ∀ x,
      v.temps middle = some x →
      Plan.Alike (Shaded origin position middle covered way) v.pos v.temps v'.temps
        (v.assign dest x) (v'.planned c (l.replaced origin position w' c') c')) :
    l.Simulates c (l.replaced origin position w' c')
      (Shaded origin position middle covered way) where
  params := rfl
  length := length_replaced
  enter args fits := ⟨fun t x other _ value => entered_replaced bypass rewrites fits other value,
    fun low => absurd low (Nat.not_lt_zero _)⟩
  step v v' step step' func at_ h found found' fine := by
    by_cases first : v.pos = origin
    · rw [first, bypass.here] at found
      rw [first, bypass.getElem?_origin] at found'
      cases found
      cases found'
      exact at_origin v v' func at_ first h fine
    · by_cases second : v.pos = position
      · rw [second, bypass.copy] at found
        rw [second, bypass.getElem?_position] at found'
        cases found
        cases found'
        simp only [Step.copy, Visit.planned] at fine ⊢
        cases value : c.value? v.temps (.temp middle) with
        | none =>
            simp only [value] at fine
            exact absurd rfl fine
        | some x => exact at_position v v' func at_ second h x value
      · rw [getElem?_replaced first second, found] at found'
        cases found'
        exact planned_alike orderly bypass rewrites unwatched func at_ first second found h fine

/-- On the way a copied value is where it was copied from. -/
theorem Bypass.simulates_forward (orderly : l.Orderly pool functions procedures)
    {source : Address} (bypass : l.Bypass origin position middle dest (.copy (.temp middle) source))
    (steady : ∀ (q : Nat) (t : Int16), source.temp? = some t → origin < q → q < position →
      l.writes? q ≠ some t) :
    l.Simulates c (l.replaced origin position .neutral (.copy (.temp dest) source))
      (Shaded origin position middle (fun _ => False) fun temps _ =>
        ∀ x, temps middle = some x → c.value? temps source = some x) := by
  have apart : source ≠ .temp middle := fun same =>
    bypass.unread_origin (same ▸ List.mem_cons_self)
  -- The value of the source does not depend on other temporaries.
  have value_update {temps : Int16 → Option Value} {t : Int16} {x : Value}
      (other : source ≠ .temp t) :
      c.value? (update temps t (some x)) source = c.value? temps source := by
    obtain ⟨space, id⟩ := source
    cases space with
    | temp =>
        refine Function.update_of_ne ?_ _ _
        rintro rfl
        exact other rfl
    | _ => rfl
  refine bypass.simulates orderly (.forward rfl steady)
    ⟨fun _ _ _ _ _ _ => False.elim, fun q t x temps temps' low high writes way y value => ?_⟩
    (fun v v' func at_ first h fine => ?_) fun v v' func at_ second h x value => ?_
  · have ne : middle ≠ t := by
      rintro rfl
      exact absurd (bypass.written q writes) (Nat.ne_of_gt low)
    rw [Function.update_of_ne ne] at value
    rw [value_update fun same => steady q t (by rw [same]; rfl) low high writes]
    exact way y value
  · simp only [Step.copy, Visit.planned] at fine ⊢
    cases value : c.value? v.temps source with
    | none =>
        simp only [value] at fine
        exact absurd rfl fine
    | some x =>
        refine .go func (congrArg Nat.succ at_) ⟨fun t y other _ here => ?_, fun _ _ y is => ?_⟩
        · exact h.agree t y other False.elim ((Function.update_of_ne other _ _).symm.trans here)
        · have is : update v.temps middle (some x) middle = some y := is
          rw [Function.update_self] at is
          cases is
          exact (value_update apart).trans value
  · have low := bypass.lt
    have here := h.value apart (fun _ _ => False.elim)
      (h.way (by omega) (Nat.le_of_eq second) x value)
    have planned : v'.planned c (l.replaced origin position .neutral (.copy (.temp dest) source))
        (.copy (.temp dest) source) = v'.assign dest x := by
      simp only [Visit.planned, Step.copy, here]
      rfl
    rw [planned]
    refine .go func (congrArg Nat.succ at_) ⟨fun t y other _ =>
      update_of_agree fun _ => h.agree t y other False.elim, fun _ high => ?_⟩
    have high : v.pos + 1 ≤ position := high
    omega

/-- On the way a computed value is where it is going to be copied to. -/
theorem Bypass.simulates_retarget (orderly : l.Orderly pool functions procedures)
    (bypass : l.Bypass origin position middle dest writer) (computes : writer.computes = true)
    (unwritten : ∀ q, origin < q → q < position → l.writes? q ≠ some dest)
    (unread : ∀ (q : Nat) (step : Step), origin < q → q < position → l.steps[q]? = some step →
      .temp dest ∉ step.args) :
    l.Simulates c (l.replaced origin position (writer.withDest (.temp dest)) .neutral)
      (Shaded origin position middle (· = dest) fun temps temps' =>
        ∀ x, temps middle = some x → temps' dest = some x) := by
  refine bypass.simulates orderly (.retarget computes unwritten unread)
    ⟨fun q step t low high found same => same ▸ unread q step low high found,
      fun q t x temps temps' low high writes way y value => ?_⟩
    (fun v v' func at_ first h fine => ?_) fun v v' func at_ second h x value => ?_
  · have ne : middle ≠ t := by
      rintro rfl
      exact absurd (bypass.written q writes) (Nat.ne_of_gt low)
    have ne' : dest ≠ t := by
      rintro rfl
      exact unwritten q low high writes
    rw [Function.update_of_ne ne] at value
    rw [Function.update_of_ne ne']
    exact way y value
  · -- The operands do not lie on the way.
    have away : ¬ (origin < v.pos ∧ v.pos ≤ position) := by omega
    have values {a : Address} (mem : a ∈ writer.args) {x : Value}
        (value : c.value? v.temps a = some x) : c.value? v'.temps a = some x :=
      h.value (fun same => bypass.unread_origin (same ▸ mem)) (fun _ _ _ => away) value
    have assigned (x : Value) : Plan.Alike (Shaded origin position middle (· = dest)
        fun temps temps' => ∀ x, temps middle = some x → temps' dest = some x) v.pos v.temps
        v'.temps
        (v.assign middle x) (v'.assign dest x) := by
      refine .go func (congrArg Nat.succ at_) ⟨fun t y other hidden here => ?_, fun _ _ y is => ?_⟩
      · have low := bypass.lt
        have ne : t ≠ dest := fun same => hidden same ⟨show origin < v.pos + 1 by omega,
          show v.pos + 1 ≤ position by omega⟩
        have here := (Function.update_of_ne other _ _).symm.trans here
        exact (Function.update_of_ne ne _ _).trans (h.agree t y other (fun _ => away) here)
      · have is : update v.temps middle (some x) middle = some y := is
        rw [Function.update_self] at is
        exact (Function.update_self ..).trans is
    have gives := bypass.gives
    have legal := orderly.legal origin writer bypass.here
    cases legal with
    | @neg t a sound =>
        cases gives
        simp only [Step.withDest, Visit.planned] at fine ⊢
        cases value : c.value? v.temps a with
        | none =>
            rw [value] at fine
            exact absurd rfl fine
        | some x =>
            rw [values List.mem_cons_self value]
            dsimp only
            cases x.neg.isDud with
            | true => exact .fail _
            | false => exact assigned x.neg
    | @binary t op a b sound sound' =>
        cases gives
        simp only [Step.withDest, Visit.planned] at fine ⊢
        cases left : c.value? v.temps a with
        | none =>
            rw [left] at fine
            exact absurd rfl fine
        | some x =>
            cases right : c.value? v.temps b with
            | none =>
                rw [left, right] at fine
                exact absurd rfl fine
            | some y =>
                rw [values List.mem_cons_self left,
                  values (List.mem_cons_of_mem _ List.mem_cons_self) right]
                dsimp only
                cases op.outcome x y with
                | error fault => exact .fail fault
                | ok z => exact assigned z
    | _ => cases computes
  · have low := bypass.lt
    have there := h.way (by omega) (Nat.le_of_eq second) x value
    refine .go func (congrArg Nat.succ at_) ⟨fun t y other _ here => ?_, fun _ high => ?_⟩
    · have here : update v.temps dest (some x) t = some y := here
      by_cases same : t = dest
      · rw [same, Function.update_self] at here
        rw [same]
        exact there.trans here
      · exact h.agree t y other (fun hidden => absurd hidden same)
          ((Function.update_of_ne same _ _).symm.trans here)
    · have high : v.pos + 1 ≤ position := high
      omega

/-- Condensing is a simulation. -/
theorem exists_simulates {l' : Listing} (c : Chart) (orderly : l.Orderly pool functions procedures)
    (merges : Relation.ReflTransGen Merges l l') : ∃ R, l.Simulates c l' R := by
  induction merges with
  | refl => exact ⟨_, .refl c l⟩
  | tail before merge ih =>
      obtain ⟨R, simulates⟩ := ih
      have orderly' := orderly.merges before
      obtain ⟨bypass, rewrites⟩ := merge
      cases rewrites with
      | forward is steady =>
          subst is
          exact ⟨_, simulates.comp (bypass.simulates_forward orderly' steady)⟩
      | retarget computes unwritten unread =>
          exact ⟨_, simulates.comp (bypass.simulates_retarget orderly' computes unwritten unread)⟩

end Listing

end RegisterCode

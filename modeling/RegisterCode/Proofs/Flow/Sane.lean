import RegisterCode.Proofs.Flow.Drafting

/-!
Drafts that make sense: the function at hand has a listing that grows as it
should, its blocks have no edges yet, and every name stands for something. Each
of the moves that compiling consists of keeps a draft sane.
-/

namespace RegisterCode

namespace Draft

/-- The temporary has a name. -/
def Owned (d : Draft) (t : Int16) : Prop := ∃ name : String, d.locals[name]? = some (.temp t)

/-- What is known in every function: the functions, and constants. -/
def Settled (d : Draft) (a : Address) : Prop :=
  (∃ f < d.functions, a = .immediate (Int16.ofNat f)) ∨
    ∃ i < d.constants.size, a = .constant (Int16.ofNat i)

/-- An address that can be read from now on. -/
structure Usable (d : Draft) (a : Address) : Prop where
  sound : a.Sound d.constants.size
  ready : ∀ t, a = .temp t → d.graph.listing.Ready t

structure Sane (procedures : Nat) (d : Draft) : Prop where
  growing : d.graph.listing.Growing d.constants.size d.functions procedures d.temps d.Owned
  opened : 0 < d.graph.blocks.size
  bare : d.graph.Bare
  locals : ∀ (name : String) (a : Address), d.locals[name]? = some a → a.isTemp = true
  distinct : ∀ (name name' : String) (a : Address), d.locals[name]? = some a →
    d.locals[name']? = some a → name = name'
  globals : ∀ (name : String) (a : Address), d.globals[name]? = some a → d.Settled a
  functions_le : d.functions ≤ numberLimit
  constants_le : d.constants.size ≤ numberRange

variable {d d' : Draft} {procedures : Nat} {step : Step} {a : Address} {t : Int16}

theorem eq_temp_of_isTemp (h : a.isTemp = true) : a = .temp a.id := by
  obtain ⟨space, id⟩ := a
  simp only [Address.isTemp, decide_eq_true_eq] at h
  rw [h]
  rfl

theorem temp?_eq_some : a.temp? = some t ↔ a = .temp t := by
  unfold Address.temp?
  constructor
  · intro h
    split at h
    · rename_i temp
      cases h
      exact eq_temp_of_isTemp temp
    · cases h
  · rintro rfl
    rfl

/-! ### Addresses -/

theorem Settled.sound (h : d.Settled a) (limit : d.constants.size ≤ numberRange) :
    a.Sound d.constants.size := by
  rcases h with ⟨f, -, rfl⟩ | ⟨i, lt, rfl⟩
  · trivial
  · have small := Nat.lt_of_lt_of_le lt limit
    refine ⟨Machine.zero_le_ofNat_of_small small, ?_⟩
    show (Int16.ofNat i).toNatClampNeg < _
    rwa [Machine.toNatClampNeg_ofNat_of_small small]

theorem Settled.not_temp (h : d.Settled a) : a ≠ .temp t := by
  rintro rfl
  rcases h with ⟨f, -, same⟩ | ⟨i, -, same⟩ <;> cases congrArg Address.space same

theorem Settled.usable (h : d.Settled a) (limit : d.constants.size ≤ numberRange) :
    d.Usable a :=
  ⟨h.sound limit, fun _ same => absurd same h.not_temp⟩

theorem Usable.onward (h : d.Usable a) (onward : d.Onward d') : d'.Usable a := by
  refine ⟨?_, fun t same => onward.ready t (h.ready t same)⟩
  have sound := h.sound
  unfold Address.Sound at sound ⊢
  split
  · trivial
  · trivial
  · rename_i same
    rw [same] at sound
    exact ⟨sound.1, Nat.lt_of_lt_of_le sound.2 onward.size_constants_le⟩
  · rename_i same
    rw [same] at sound
    exact sound

theorem usable_immediate (d : Draft) (id : Int16) : d.Usable (.immediate id) :=
  ⟨trivial, fun _ same => by cases congrArg Address.space same⟩

namespace Sane

theorem usable_global (h : d.Sane procedures) {name : String}
    (known : d.globals[name]? = some a) : d.Usable a :=
  (h.globals name a known).usable h.constants_le

theorem usable_local (h : d.Sane procedures) {name : String}
    (known : d.locals[name]? = some a) : d.Usable a := by
  have temp := eq_temp_of_isTemp (h.locals name a known)
  refine ⟨temp ▸ trivial, fun t same => h.growing.ready_of_owned ⟨name, ?_⟩⟩
  rw [known, same]

/-! ### Steps -/

/-- A step that has nothing to do with jumps goes on with the row. -/
theorem drawn_pushed (quiet : step.marker = .condensed) (drawn : Drawn d.graph.rows) :
    Drawn (d.pushed step).graph.rows := by
  obtain ⟨rows, row, eq, -⟩ := drawn.split
  rw [eq] at drawn
  rw [graph_pushed, Graph.rows_pushNewest eq]
  exact .step drawn quiet

theorem listing_pushed (h : 0 < d.graph.blocks.size) :
    (d.pushed step).graph.listing = d.graph.listing.snoc step := by
  simp only [graph_pushed, Graph.listing, Listing.snoc, Graph.steps_pushNewest h]
  rfl

/-- What a step that is no call reads, when it is added. -/
theorem ready_of_mem_reads (plain : step.window? = none)
    (args : ∀ a ∈ step.args, d.Usable a) :
    ∀ t ∈ (d.graph.listing.snoc step).reads d.graph.listing.steps.length,
      d.graph.listing.Ready t := by
  intro t mem
  simp only [Listing.reads, Listing.getElem?_snoc_length, plain] at mem
  obtain ⟨a, mem, temp⟩ := List.mem_filterMap.1 mem
  exact (args a mem).ready t (temp?_eq_some.1 temp)

/-- Adds a step that writes nothing, or a temporary that has a name. -/
theorem pushed (h : d.Sane procedures)
    (legal : step.Legal d.constants.size d.functions procedures)
    (plain : step.window? = none) (computes : step.computes = false)
    (dest : ∀ t, step.dest?.map Address.id = some t → d.Owned t)
    (args : ∀ a ∈ step.args, d.Usable a) : (d.pushed step).Sane procedures := by
  have growing : (d.pushed step).graph.listing.Growing d.constants.size d.functions procedures
      d.temps d.Owned := by
    rw [listing_pushed h.opened]
    exact h.growing.snoc (Nat.le_refl _) h.growing.temps_le legal
      (fun t same => .inr (dest t same)) (fun is => by rw [computes] at is; cases is)
      (ready_of_mem_reads plain args)
      fun n called => by rw [plain] at called; cases called
  exact { h with
    growing := growing
    opened := Nat.lt_of_lt_of_eq h.opened Graph.size_pushNewest.symm
    bare := h.bare.pushNewest }

theorem onward_pushed (h : d.Sane procedures) (plain : step.window? = none) :
    d.Onward (d.pushed step) :=
  { Onward.refl d with
    steps := ⟨[step], (Graph.steps_pushNewest h.opened).symm⟩
    ready := fun _ known => listing_pushed h.opened ▸ known.snoc plain }

theorem beside_pushed (h : d.Sane procedures) (plain : step.window? = none)
    (quiet : step.marker = .condensed) : d.Beside (d.pushed step) where
  toOnward := h.onward_pushed plain
  same_locals := rfl
  links := rfl
  blocks := Graph.size_pushNewest
  quiet := ⟨[step], Graph.steps_pushNewest h.opened, by simpa using quiet⟩
  drawn := drawn_pushed quiet

/-- Adds a step that writes a new temporary. -/
theorem computed (h : d.Sane procedures) {f : Address → Step} (limit : d.temps < numberLimit)
    (legal : (f (.temp (Int16.ofNat d.temps))).Legal d.constants.size d.functions procedures)
    (plain : (f (.temp (Int16.ofNat d.temps))).window? = none)
    (dest : (f (.temp (Int16.ofNat d.temps))).dest? = some (.temp (Int16.ofNat d.temps)))
    (args : ∀ a ∈ (f (.temp (Int16.ofNat d.temps))).args, d.Usable a) :
    (d.computed f).Sane procedures := by
  have growing : (d.computed f).graph.listing.Growing d.constants.size d.functions procedures
      (d.temps + 1) d.Owned := by
    have listing : (d.computed f).graph.listing =
        d.graph.listing.snoc (f (.temp (Int16.ofNat d.temps))) := listing_pushed h.opened
    rw [listing]
    have new : ∀ t, (f (.temp (Int16.ofNat d.temps))).dest?.map Address.id = some t →
        numberOf t = d.temps := by
      intro t same
      rw [dest] at same
      cases same
      exact numberOf_ofNat limit
    refine h.growing.snoc (Nat.le_succ _) limit legal (fun t same => .inl ?_)
      (fun _ t same => Nat.le_of_eq (new t same).symm)
      (ready_of_mem_reads plain args) fun n called => by rw [plain] at called; cases called
    rw [new t same]
    exact ⟨Nat.le_refl _, Nat.lt_succ_self _⟩
  exact { h with
    growing := growing
    opened := Nat.lt_of_lt_of_eq h.opened Graph.size_pushNewest.symm
    bare := h.bare.pushNewest }

theorem beside_computed (h : d.Sane procedures) {f : Address → Step}
    (plain : (f (.temp (Int16.ofNat d.temps))).window? = none)
    (quiet : (f (.temp (Int16.ofNat d.temps))).marker = .condensed) :
    d.Beside (d.computed f) :=
  { h.beside_pushed plain quiet with temps_le := Nat.le_succ d.temps }

/-- The new temporary can be read. -/
theorem usable_computed (h : d.Sane procedures) {f : Address → Step}
    (limit : d.temps < numberLimit)
    (plain : (f (.temp (Int16.ofNat d.temps))).window? = none)
    (dest : (f (.temp (Int16.ofNat d.temps))).dest? = some (.temp (Int16.ofNat d.temps))) :
    (d.computed f).Usable (.temp (Int16.ofNat d.temps)) := by
  refine ⟨trivial, fun t same => ?_⟩
  cases same
  have listing : (d.computed f).graph.listing =
      d.graph.listing.snoc (f (.temp (Int16.ofNat d.temps))) := listing_pushed h.opened
  rw [listing]
  refine ⟨Listing.known_dest (by rw [dest]; rfl), Listing.not_passes_snoc ?_ plain⟩
  exact h.growing.not_passes_of_le (Nat.le_of_eq (numberOf_ofNat limit).symm)

end Sane

/-- An expression was compiled: the draft went on, and the value of the
expression can be read at `a`. -/
structure Gives (procedures : Nat) (d : Draft) (a : Address) (d' : Draft) : Prop where
  sane : d'.Sane procedures
  beside : d.Beside d'
  usable : d'.Usable a

theorem Gives.after {d'' : Draft} (h : d.Beside d') (h' : Gives procedures d' a d'') :
    Gives procedures d a d'' :=
  ⟨h'.sane, h.trans h'.beside, h'.usable⟩

theorem Gives.computed (h : d.Sane procedures) {f : Address → Step}
    (limit : d.temps < numberLimit)
    (legal : (f (.temp (Int16.ofNat d.temps))).Legal d.constants.size d.functions procedures)
    (plain : (f (.temp (Int16.ofNat d.temps))).window? = none)
    (dest : (f (.temp (Int16.ofNat d.temps))).dest? = some (.temp (Int16.ofNat d.temps)))
    (quiet : (f (.temp (Int16.ofNat d.temps))).marker = .condensed)
    (args : ∀ a ∈ (f (.temp (Int16.ofNat d.temps))).args, d.Usable a) :
    Gives procedures d (.temp (Int16.ofNat d.temps)) (d.computed f) :=
  ⟨h.computed limit legal plain dest args, h.beside_computed plain quiet,
    h.usable_computed limit plain dest⟩

/-- A literal has an entry in the pool, or gets one. -/
theorem Gives.intern (h : d.Sane procedures) {lexeme : String} {v : Value}
    (run : intern lexeme v d = .ok a d') : Gives procedures d a d' := by
  rcases intern_ok run with ⟨rfl, known⟩ | ⟨unknown, limit, rfl, rfl⟩
  · exact ⟨h, .refl _, h.usable_global known⟩
  · have size : (d.constants.push v).size = d.constants.size + 1 := Array.size_push _
    have onward : d.Onward { d with
        constants := d.constants.push v
        globals := d.globals.insert lexeme (.constant (Int16.ofNat d.constants.size)) } :=
      { Onward.refl d with
        constants := by simp
        globals := fun name a known => by
          have other : lexeme ≠ name := by
            rintro rfl
            rw [unknown] at known
            cases known
          rw [Std.HashMap.getElem?_insert, if_neg (by simpa using other)]
          exact known }
    have sane : Sane procedures { d with
        constants := d.constants.push v
        globals := d.globals.insert lexeme (.constant (Int16.ofNat d.constants.size)) } :=
      { h with
        growing := h.growing.mono (by simp [size]) (Nat.le_refl _) (Nat.le_refl _)
          h.growing.temps_le
        globals := fun name a known => by
          simp only [Std.HashMap.getElem?_insert] at known
          split at known
          · cases known
            exact .inr ⟨d.constants.size, by simp [size], rfl⟩
          · refine (h.globals name a known).imp_right ?_
            rintro ⟨i, lt, same⟩
            exact ⟨i, by simp only [size]; omega, same⟩
        constants_le := by simp only [size]; omega }
    refine ⟨sane, { onward with
      same_locals := rfl
      links := rfl
      blocks := rfl
      quiet := ⟨[], (List.append_nil _).symm, by simp⟩
      drawn := id }, ?_⟩
    exact (Settled.usable (.inr ⟨d.constants.size, by simp [size], rfl⟩)) sane.constants_le

end Draft

end RegisterCode

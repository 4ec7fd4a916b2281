import RegisterCode.Proofs.Flow.Forest

/-!
The order in which temporaries are named. Compiling a function writes each new temporary
before it makes the next one, so the temporaries are named in the order of their numbers,
and each has the slot of its number.
-/

namespace RegisterCode

namespace Listing

variable {l l' : Listing} {temps : Nat} {step : Step} {t : Int16}

/-- The temporaries below a number, other than parameters, are named in order. -/
def Numbered (l : Listing) (temps : Nat) : Prop :=
  (l.names l.steps.length).map numberOf = List.range' l.params (temps - l.params)

theorem Numbered.slot_eq (h : l.Numbered temps) (known : l.Known t) : l.slot t = numberOf t := by
  by_cases param : IsParam l.params t
  · exact slot_of_isParam param
  · have named := known.resolve_left param
    have at_ : ((l.names l.steps.length).map numberOf)[(l.names l.steps.length).idxOf t]? =
        some (numberOf t) := by
      rw [List.getElem?_map, List.getElem?_idxOf named]
      rfl
    rw [h, List.getElem?_range'] at at_
    · rw [slot_of_not_isParam param]
      simpa using at_
    · have inside := (List.getElem?_eq_some_iff.1 at_).1
      rwa [List.length_range'] at inside

/-- The temporaries that are known are those with smaller numbers. -/
theorem Numbered.known (h : l.Numbered temps) (lt : numberOf t < temps) : l.Known t := by
  by_cases param : IsParam l.params t
  · exact .inl param
  · have ge : l.params ≤ numberOf t := Nat.not_lt.1 param
    have mem : numberOf t ∈ (l.names l.steps.length).map numberOf := by
      rw [h, List.mem_range'_1]
      omega
    obtain ⟨t', mem, same⟩ := List.mem_map.1 mem
    exact .inr (numberOf_inj same ▸ mem)

/-- A step that writes the next temporary. -/
theorem Numbered.snoc_new (h : l.Numbered temps) (le : l.params ≤ temps)
    (dest : step.dest?.map Address.id = some t) (new : numberOf t = temps) :
    (l.snoc step).Numbered (temps + 1) := by
  have param : ¬ IsParam l.params t := by
    show ¬ numberOf t < l.params
    omega
  have fresh : t ∉ l.names l.steps.length := by
    intro mem
    have mem : numberOf t ∈ (l.names l.steps.length).map numberOf := List.mem_map_of_mem mem
    rw [h, List.mem_range'_1] at mem
    omega
  obtain ⟨a, writes, rfl⟩ := Option.map_eq_some_iff.1 dest
  have names : addName l.params (l.names l.steps.length) step =
      l.names l.steps.length ++ [a.id] := by
    rw [addName, writes]
    exact if_neg (not_or.2 ⟨param, fresh⟩)
  rw [Numbered, length_snoc, names_snoc_length, names, List.map_append, h, params_snoc,
    Nat.succ_sub le, List.range'_concat, List.map_singleton, new, Nat.one_mul,
    Nat.add_sub_cancel' le]

/-- A step that writes nothing, or a temporary that is known. -/
theorem Numbered.snoc_old (h : l.Numbered temps)
    (old : ∀ t, step.dest?.map Address.id = some t → numberOf t < temps) :
    (l.snoc step).Numbered temps := by
  have names : addName l.params (l.names l.steps.length) step = l.names l.steps.length := by
    unfold addName
    split
    · rename_i a writes
      exact if_pos (h.known (old a.id (by rw [writes]; rfl)))
    · rfl
  rw [Numbered, length_snoc, names_snoc_length, names, params_snoc]
  exact h

/-- Steps that write nothing. -/
theorem Numbered.append_silent {added : List Step} (h : l.Numbered temps)
    (silent : ∀ step ∈ added, step.dest? = none) :
    Numbered ⟨l.params, l.steps ++ added⟩ temps := by
  induction added generalizing l with
  | nil =>
      rw [List.append_nil]
      exact h
  | cons step added ih =>
      have next : (l.snoc step).Numbered temps := h.snoc_old fun t same => by
        rw [silent step List.mem_cons_self] at same
        cases same
      have all := ih next fun step mem => silent step (List.mem_cons_of_mem _ mem)
      rw [snoc, List.append_assoc] at all
      exact all

end Listing

namespace Draft

variable {c : Context} {d d' : Draft} {procedures : Nat} {a : Address} {as : List Address}

/-- The function at hand has named its temporaries in order. -/
def Numbered (d : Draft) : Prop := d.graph.listing.Numbered d.temps

theorem Numbered.congr (h : d.Numbered) (graph : d'.graph = d.graph) (temps : d'.temps = d.temps) :
    d'.Numbered := by
  rw [Numbered, graph, temps]
  exact h

/-- A step that writes a new temporary. -/
theorem Numbered.computed (h : d.Numbered) (sane : d.Sane procedures)
    (limit : d.temps < numberLimit) {f : Address → Step}
    (dest : (f (.temp (Int16.ofNat d.temps))).dest? = some (.temp (Int16.ofNat d.temps))) :
    (d.computed f).Numbered := by
  have listing : (d.computed f).graph.listing =
      d.graph.listing.snoc (f (.temp (Int16.ofNat d.temps))) := Sane.listing_pushed sane.opened
  rw [Numbered, listing]
  exact Listing.Numbered.snoc_new h sane.growing.params_le (by rw [dest]; rfl)
    (numberOf_ofNat limit)

theorem Numbered.copied (h : d.Numbered) (sane : d.Sane procedures)
    (limit : d.temps + as.length ≤ numberLimit) (usable : ∀ a ∈ as, d.Usable a) :
    (d.copied as).Numbered := by
  induction as generalizing d with
  | nil => exact h
  | cons a as ih =>
      rw [List.length_cons] at limit
      have within : d.temps < numberLimit := by omega
      have gives := Gives.computed sane (f := (.copy · a)) within
        (.copy _ (usable a List.mem_cons_self).sound) rfl rfl rfl
        (by simpa [Step.copy, Step.args] using usable a List.mem_cons_self)
      exact ih (h.computed sane within rfl) gives.sane
        (by show d.temps + 1 + as.length ≤ numberLimit; omega)
        fun b mem => (usable b (List.mem_cons_of_mem _ mem)).onward gives.beside.toOnward

/-- Steps were added that write nothing, and no temporary. -/
theorem Numbered.silent (h : d.Numbered) {added : List Step}
    (steps : d'.graph.steps = d.graph.steps ++ added)
    (params : d'.graph.paramCount = d.graph.paramCount) (temps : d'.temps = d.temps)
    (silent : ∀ step ∈ added, step.dest? = none) : d'.Numbered := by
  have listing : d'.graph.listing = ⟨d.graph.listing.params, d.graph.listing.steps ++ added⟩ := by
    rw [Graph.listing, steps, params]
    rfl
  rw [Numbered, listing, temps]
  exact Listing.Numbered.append_silent h silent

/-! The moves that branches are made of write nothing. -/

theorem temps_landed {marker : Op} : (d.landed marker).temps = d.temps := rfl

theorem temps_turned : d.turned.temps = d.temps := by
  rw [turned, temps_landed]
  rfl

theorem Numbered.entered (h : d.Numbered) (sane : d.Sane procedures) (usable : d.Usable a) :
    (d.branched a).opened.Numbered := by
  obtain ⟨-, onward, steps, -⟩ := sane.entered usable
  refine h.silent steps onward.params ?_ (by simp [Step.dest?])
  rw [branched]
  rfl

theorem Numbered.joined (h : d.Numbered) (sane : d.Sane procedures) (first : Nat) :
    (d.joined first).Numbered := by
  obtain ⟨-, onward, steps⟩ := sane.joined first
  exact h.silent steps onward.params rfl (by simp [Step.dest?])

theorem Numbered.alternated (h : d.Numbered) (sane : d.Sane procedures) (first : Nat) :
    (d.alternated first).Numbered := by
  obtain ⟨-, onward, steps⟩ := sane.alternated first
  refine h.silent steps onward.params ?_ (by simp [Step.dest?])
  rw [Draft.alternated, temps_turned]
  rfl

theorem Numbered.rejoined (h : d.Numbered) (sane : d.Sane procedures) (first second : Nat) :
    (d.rejoined first second).Numbered := by
  obtain ⟨-, onward, steps⟩ := sane.rejoined first second
  exact h.silent steps onward.params rfl (by simp [Step.dest?])

theorem Numbered.pushed (h : d.Numbered) (opened : 0 < d.graph.blocks.size) {step : Step}
    (silent : step.dest? = none) : (d.pushed step).Numbered :=
  h.silent (Graph.steps_pushNewest opened) rfl rfl (by simpa using silent)

mutual

theorem ofExpr_numbered (below : c.procedures.Below procedures) (e : Expr) {d d' : Draft}
    {a : Address} (run : ofExpr c e d = .ok a d') (sane : d.Sane procedures) (h : d.Numbered) :
    d'.Numbered := by
  cases e with
  | literal token span =>
      rw [ofExpr] at run
      rcases ofLiteral_ok run with ⟨v, -, interned⟩ | ⟨-, -, -, rfl⟩
      · rcases intern_ok interned with ⟨rfl, -⟩ | ⟨-, -, -, rfl⟩
        · exact h
        · exact h.congr rfl rfl
      · exact h
  | call callee args span =>
      obtain ⟨called, d1, operands, d2, named, evaluated, passed⟩ := ofExpr_call run
      obtain ⟨token, _, -, -, named⟩ := ofCallee_ok named
      obtain rfl := (ofName_ok named).1
      obtain ⟨sane', -, as, all, -, usable⟩ := ofArgs_gives below args sane evaluated
      have all : operands.toList = as := all
      obtain ⟨-, limit, -, rfl⟩ := ofCall_ok passed
      rw [all] at limit ⊢
      have usable : ∀ a ∈ passedOperands as, d2.Usable a := by
        intro a mem
        unfold passedOperands at mem
        split at mem
        · rw [List.mem_singleton.1 mem]
          exact usable_immediate _ _
        · exact usable a mem
      have copied := (ofArgs_numbered below args evaluated sane h).copied sane' limit usable
      exact copied.pushed (sane'.copied limit usable).1.opened rfl
  | unary op inner span =>
      obtain ⟨-, arg, d1, first, limit, -, rfl⟩ := ofExpr_unary run
      exact (ofExpr_numbered below inner first sane h).computed
        (ofExpr_gives below inner sane first).sane limit rfl
  | binary op left right span =>
      obtain ⟨first, d1, second, d2, op', one, two, -, limit, -, rfl⟩ := ofExpr_binary run
      have sane1 := (ofExpr_gives below left sane one).sane
      exact (ofExpr_numbered below right two sane1
        (ofExpr_numbered below left one sane h)).computed
        (ofExpr_gives below right sane1 two).sane limit rfl
  | assign target value span =>
      obtain ⟨d1, arg, d2, targeted, evaluated, rfl⟩ := ofExpr_assign run
      obtain ⟨token, _, -, -, -, known, temp, rfl⟩ := ofTarget_ok targeted
      have gives := ofExpr_gives below value sane evaluated
      have after := ofExpr_numbered below value evaluated sane h
      have known := (sane.lookup_temp known temp).2
      rw [← gives.beside.same_locals, eq_temp_of_isTemp temp] at known
      have listing : (d2.pushed (.copy a arg)).graph.listing =
          d2.graph.listing.snoc (.copy a arg) := Sane.listing_pushed gives.sane.opened
      rw [Numbered, listing]
      refine Listing.Numbered.snoc_old after fun t same => ?_
      cases same
      exact (gives.sane.growing.owned a.id ⟨_, known⟩).1
termination_by sizeOf e

theorem ofArgs_numbered (below : c.procedures.Below procedures) (es : List Expr)
    {d d' : Draft} {read operands : Array Address} (run : ofArgs c es read d = .ok operands d')
    (sane : d.Sane procedures) (h : d.Numbered) : d'.Numbered := by
  cases es with
  | nil =>
      cases run
      exact h
  | cons e rest =>
      obtain ⟨first, d1, evaluated, more⟩ := ofArgs_cons run
      exact ofArgs_numbered below rest more (ofExpr_gives below e sane evaluated).sane
        (ofExpr_numbered below e evaluated sane h)
termination_by sizeOf es

end

mutual

/-- A statement names its temporaries in order. -/
theorem ofStmt_numbered (below : c.procedures.Below procedures) (s : Stmt) {d d' : Draft}
    (run : ofStmt c s d = .ok () d') (sane : d.Sane procedures) (h : d.Numbered) :
    d'.Numbered := by
  cases s with
  | expr e =>
      rw [ofStmt] at run
      obtain ⟨_, d1, evaluated, run⟩ := bind_eq_ok_iff.1 run
      cases run
      exact ofExpr_numbered below e evaluated sane h
  | define name init =>
      rw [ofStmt] at run
      obtain ⟨source, d1, evaluated, limit, -, rfl⟩ := ofDefinition_ok run
      have computed : (d1.computed (.copy · source)).Numbered :=
        (ofExpr_numbered below init evaluated sane h).computed
          (ofExpr_gives below init sane evaluated).sane limit rfl
      exact computed.congr rfl rfl
  | ifThen cond thenBody =>
      obtain ⟨source, d1, d2, evaluated, body, rfl⟩ := ofStmt_ifThen run
      have gives := ofExpr_gives below cond sane evaluated
      have entered := (gives.sane.entered gives.usable).1
      have first := (ofExpr_numbered below cond evaluated sane h).entered gives.sane gives.usable
      exact (ofStmt_numbered below thenBody body entered first).joined
        (ofStmt_executes below thenBody entered body).sane _
  | ifElse cond thenBody elseBody =>
      obtain ⟨source, d1, d2, d3, evaluated, body, body', rfl⟩ := ofStmt_ifElse run
      have gives := ofExpr_gives below cond sane evaluated
      have entered := (gives.sane.entered gives.usable).1
      have first := (ofExpr_numbered below cond evaluated sane h).entered gives.sane gives.usable
      have between := (ofStmt_executes below thenBody entered body).sane
      have second := ofStmt_numbered below thenBody body entered first
      have entered' := (between.alternated d1.graph.blocks.size).1
      have third := ofStmt_numbered below elseBody body' entered' (second.alternated between _)
      exact third.rejoined (ofStmt_executes below elseBody entered' body').sane _ _
  | ret e =>
      obtain ⟨source, d1, evaluated, rfl⟩ := ofStmt_ret run
      exact (ofExpr_numbered below e evaluated sane h).pushed
        (ofExpr_gives below e sane evaluated).sane.opened rfl
  | block items =>
      rw [ofStmt] at run
      exact ofBlock_numbered below items run sane h
  | function name params body =>
      rw [ofStmt] at run
      cases run
  | imports name =>
      rw [ofStmt] at run
      cases run
  | stub name params =>
      rw [ofStmt] at run
      cases run
termination_by sizeOf s

theorem ofBlock_numbered (below : c.procedures.Below procedures) (items : List Stmt)
    {d d' : Draft} (run : ofBlock c items d = .ok () d') (sane : d.Sane procedures)
    (h : d.Numbered) : d'.Numbered := by
  cases items with
  | nil =>
      cases run
      exact h
  | cons s rest =>
      obtain ⟨d1, first, more⟩ := ofBlock_cons run
      exact ofBlock_numbered below rest more (ofStmt_executes below s sane first).sane
        (ofStmt_numbered below s first sane h)
termination_by sizeOf items

end

/-- A function that is accepted has named its temporaries in order. -/
theorem ofFunction_numbered (below : c.procedures.Below procedures) {params : List Token}
    {body : Stmt} {u : Unit} (steady : d.Steady) (h : ofFunction c params body d = .ok u d') :
    d'.Numbered := by
  obtain ⟨d1, d2, entered, compiled, linking⟩ := ofFunction_ok h
  have sane : d1.Sane procedures := entered.sane steady
  have start : d1.Numbered := by
    have temps : d1.temps = d1.graph.listing.params := by
      rw [entered.params, entered.eq]
    have none : d1.graph.listing.steps = [] := entered.steps
    rw [Numbered, Listing.Numbered, temps, Nat.sub_self, none]
    rfl
  have numbered := ofStmt_numbered below body compiled sane start
  have bare := (ofStmt_executes below body sane compiled).sane.bare
  obtain ⟨eq, -, -, rows, paramCount⟩ := forM_link_ok linking bare.wired
  have temps : d'.temps = d2.temps := by rw [eq]
  have listing : d'.graph.listing = d2.graph.listing := by
    rw [Graph.listing, Graph.listing, Graph.steps_congr rows, paramCount]
  rw [Numbered, listing, temps]
  exact numbered

end Draft

/-- In an accepted forest every temporary has the slot of its number. -/
theorem slot_of_ofForest {procedures : Registry} {sources : Array String}
    {forest : List SourceUnit} {b : Bundle}
    (h : Bundle.ofForest procedures sources forest = .ok b) {g : Graph} (mem : g ∈ b.graphs)
    {t : Int16} (known : g.listing.Known t) : g.listing.slot t = numberOf t := by
  have below : procedures.Below 65536 := fun _ id _ => id.toNat_lt
  obtain ⟨size, each⟩ := Draft.compiles_of_ofForest h
  obtain ⟨i, at_⟩ := Array.mem_iff_getElem?.1 mem
  have lt : i < (declarations sources forest).length := by
    rw [← size]
    exact (Array.getElem?_eq_some_iff.1 at_).1
  obtain ⟨d0, d1, steady, ⟨params, -, run⟩, rfl⟩ := each i _ g (List.getElem?_eq_getElem lt) at_
  exact (Draft.ofFunction_numbered (c := ⟨procedures, _⟩) below steady run).slot_eq known

end RegisterCode

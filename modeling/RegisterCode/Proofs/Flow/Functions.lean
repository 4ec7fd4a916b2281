import RegisterCode.Proofs.Code.Linking
import RegisterCode.Proofs.Flow.Attempts
import RegisterCode.Proofs.Flow.Statements

/-!
Compiling functions: the parameters get the first temporaries, the body is
compiled, and the edges it asked for are added. The graph leads forward, and its
listing is orderly.
-/

namespace RegisterCode

namespace Draft

variable {c : Context} {d d' : Draft} {procedures : Nat}

/-- A draft between two functions: every global stands for something. -/
structure Steady (d : Draft) : Prop where
  globals : ∀ (name : String) (a : Address), d.globals[name]? = some a → d.Settled a
  functions_le : d.functions ≤ numberLimit
  constants_le : d.constants.size ≤ numberRange

theorem Sane.steady (h : d.Sane procedures) : d.Steady :=
  ⟨h.globals, h.functions_le, h.constants_le⟩

/-! ### Parameters -/

/-- Names got the next temporaries, in order. -/
structure Bound (names : List String) (d d' : Draft) : Prop where
  eq : d' = { d with temps := d.temps + names.length, locals := d'.locals }
  locals : ∀ (name : String) (a : Address), d'.locals[name]? = some a ↔
    d.locals[name]? = some a ∨
      ∃ i, names[i]? = some name ∧ a = .temp (Int16.ofNat (d.temps + i))
  nodup : names.Nodup
  free : ∀ name ∈ names, d.locals[name]? = none
  limit : names ≠ [] → d.temps + names.length ≤ numberLimit

theorem bindParam_ok {param : Token} {u : Unit} (h : bindParam c param d = .ok u d') :
    d.temps < numberLimit ∧ d.locals[param.lexeme c.source]? = none ∧
      d' = { d with
        temps := d.temps + 1
        locals := d.locals.insert (param.lexeme c.source) (.temp (Int16.ofNat d.temps)) } := by
  obtain ⟨temp, d1, first, h⟩ := bind_eq_ok_iff.1 h
  obtain ⟨limit, rfl, rfl⟩ := newTemp_ok.1 first
  rw [bind_of_ok (get_apply _)] at h
  obtain ⟨_, d2, binding, h⟩ := bind_eq_ok_iff.1 h
  cases binding
  dsimp only at h
  split at h
  · cases h
  · rename_i free
    cases h
    have free : param.lexeme c.source ∉ d.locals := free
    exact ⟨limit, Std.HashMap.getElem?_eq_none free, rfl⟩

theorem bound_of_forM {params : List Token} {u : Unit}
    (h : params.forM (bindParam c) d = .ok u d') :
    Bound (params.map fun param => param.lexeme c.source) d d' := by
  induction params generalizing d with
  | nil =>
      cases h
      exact ⟨rfl, by simp, List.nodup_nil, by simp, fun some => absurd rfl some⟩
  | cons param params ih =>
      rw [forM_cons] at h
      obtain ⟨_, d1, first, rest⟩ := bind_eq_ok_iff.1 h
      obtain ⟨limit, free, rfl⟩ := bindParam_ok first
      obtain ⟨eq, locals, nodup, others, limit'⟩ := ih rest
      have lookup : ∀ name : String,
          (d.locals.insert (param.lexeme c.source) (.temp (Int16.ofNat d.temps)))[name]? =
            if param.lexeme c.source = name then some (.temp (Int16.ofNat d.temps))
            else d.locals[name]? := by
        intro name
        simp only [Std.HashMap.getElem?_insert, beq_iff_eq]
      dsimp only at eq locals others limit'
      simp only [lookup] at locals others
      have apart : param.lexeme c.source ∉ params.map fun param => param.lexeme c.source := by
        intro mem
        have none := others _ mem
        rw [if_pos rfl] at none
        cases none
      refine ⟨?_, fun name a => ?_, ?_, fun name mem => ?_, fun _ => ?_⟩
      · rw [eq, List.map_cons, List.length_cons, Nat.add_right_comm, Nat.add_assoc]
      · rw [locals]
        constructor
        · rintro (known | ⟨i, at_, rfl⟩)
          · split at known
            · rename_i same
              cases known
              exact .inr ⟨0, by rw [List.map_cons, List.getElem?_cons_zero, same], rfl⟩
            · exact .inl known
          · exact .inr ⟨i + 1, by rw [List.map_cons, List.getElem?_cons_succ]; exact at_,
              by rw [Nat.add_right_comm, Nat.add_assoc]⟩
        · rintro (known | ⟨i, at_, rfl⟩)
          · refine .inl ?_
            rw [if_neg]
            · exact known
            · rintro rfl
              rw [free] at known
              cases known
          · cases i with
            | zero =>
                rw [List.map_cons, List.getElem?_cons_zero] at at_
                exact .inl (if_pos (Option.some.inj at_))
            | succ i =>
                rw [List.map_cons, List.getElem?_cons_succ] at at_
                exact .inr ⟨i, at_, by rw [Nat.add_right_comm, Nat.add_assoc]⟩
      · exact List.nodup_cons.2 ⟨apart, nodup⟩
      · rcases List.mem_cons.1 mem with rfl | mem
        · exact free
        · have none := others name mem
          split at none
          · cases none
          · exact none
      · rw [List.map_cons, List.length_cons]
        by_cases last : (params.map fun param => param.lexeme c.source) = []
        · rw [last]
          exact limit
        · have more := limit' last
          omega

/-- A function whose parameters are bound, and whose body is not looked at yet. -/
structure Entered (names : List String) (d d' : Draft) : Prop where
  eq : d' = { d.enter with
    temps := names.length
    locals := d'.locals
    current := some { Graph.empty.addBlock with paramCount := UInt16.ofNat names.length } }
  locals : ∀ (name : String) (a : Address), d'.locals[name]? = some a ↔
    ∃ i, names[i]? = some name ∧ a = .temp (Int16.ofNat i)
  nodup : names.Nodup
  limit : names.length ≤ numberLimit

theorem entered_of_ofParams {params : List Token} {u : Unit}
    (h : ofParams c params d.enter = .ok u d') :
    Entered (params.map fun param => param.lexeme c.source) d d' := by
  rw [ofParams_eq] at h
  obtain ⟨_, d1, binding, h⟩ := bind_eq_ok_iff.1 h
  cases h
  obtain ⟨eq, locals, nodup, -, limit⟩ := bound_of_forM binding
  generalize (params.map fun param => param.lexeme c.source) = names at *
  have empty : d.enter.locals = ∅ := rfl
  have zero : d.enter.temps = 0 := rfl
  rw [zero, Nat.zero_add] at eq limit
  refine ⟨?_, fun name a => ?_, nodup, ?_⟩
  · rw [eq]
    rfl
  · rw [locals, empty, zero]
    simp
  · by_cases none : names = []
    · rw [none]
      exact Nat.zero_le _
    · exact limit none

theorem toNat_ofNat_of_le {n : Nat} (h : n ≤ numberLimit) : (UInt16.ofNat n).toNat = n :=
  UInt16.toNat_ofNat_of_lt (Nat.lt_of_le_of_lt h (by decide))

/-- The graph of a function that was entered has one block. -/
theorem Entered.graph {names : List String} (h : Entered names d d') :
    d'.graph = { Graph.empty.addBlock with paramCount := UInt16.ofNat names.length } :=
  graph_of_some (by rw [h.eq])

theorem Entered.steps {names : List String} (h : Entered names d d') : d'.graph.steps = [] := by
  rw [h.graph]
  simp [Graph.steps, Graph.empty, Graph.addBlock, Block.empty]

theorem Entered.params {names : List String} (h : Entered names d d') :
    d'.graph.listing.params = names.length := by
  rw [h.graph]
  exact toNat_ofNat_of_le h.limit

/-- A function that was entered is sane. -/
theorem Entered.sane {names : List String} (h : Entered names d d') (steady : d.Steady) :
    d'.Sane procedures := by
  have steps := h.steps
  have params := h.params
  have temps : d'.temps = names.length := by rw [h.eq]
  have functions : d'.functions = d.functions := by rw [h.eq]; rfl
  have constants : d'.constants = d.constants := by rw [h.eq]; rfl
  have globals : d'.globals = d.globals := by rw [h.eq]; rfl
  have blocks : d'.graph.blocks = Graph.empty.addBlock.blocks := by rw [h.graph]
  have none : ∀ k : Nat, d'.graph.listing.steps[k]? = none := by
    intro k
    show d'.graph.steps[k]? = none
    rw [steps]
    exact List.getElem?_nil
  have unpassed : ∀ first t, ¬ d'.graph.listing.Passes first t := by
    rintro first t ⟨k, step, n, i, found, -⟩
    rw [none k] at found
    cases found
  have length_le := h.limit
  refine ⟨⟨?_, ?_, fun k step found => ?_, fun k t writes => ?_, fun k t reads => ?_,
    fun k step n found => ?_, ?_, fun k step t found => ?_⟩, ?_, ?_, fun name a known => ?_,
    fun one two a known known' => ?_,
    ?_, ?_, ?_⟩
  · rw [params, temps]
  · rw [temps]
    exact length_le
  · rw [none k] at found
    cases found
  · rw [Listing.writes?, none k] at writes
    cases writes
  · rw [Listing.reads, none k] at reads
    cases reads
  · rw [none k] at found
    cases found
  · rintro t ⟨name, known⟩
    obtain ⟨i, at_, same⟩ := (h.locals name _).1 known
    cases same
    have lt : i < names.length := (List.getElem?_eq_some_iff.1 at_).1
    have number : numberOf (Int16.ofNat i) = i := numberOf_ofNat (by omega)
    refine ⟨by omega, .inl ?_, unpassed _ _⟩
    show numberOf (Int16.ofNat i) < _
    omega
  · rw [none k] at found
    cases found
  · rw [blocks]
    decide
  · intro id b found
    rw [blocks] at found
    exact Graph.bare_entry id b found
  · obtain ⟨i, -, rfl⟩ := (h.locals name a).1 known
    rfl
  · obtain ⟨i, at_, rfl⟩ := (h.locals one a).1 known
    obtain ⟨j, at_', same⟩ := (h.locals two _).1 known'
    have lt : i < names.length := (List.getElem?_eq_some_iff.1 at_).1
    have lt' : j < names.length := (List.getElem?_eq_some_iff.1 at_').1
    have number : numberOf (Int16.ofNat i) = i := numberOf_ofNat (by omega)
    have number' : numberOf (Int16.ofNat j) = j := numberOf_ofNat (by omega)
    have same : Int16.ofNat i = Int16.ofNat j := congrArg Address.id same
    rw [same, number'] at number
    subst number
    rw [at_] at at_'
    exact Option.some.inj at_'
  · rw [globals]
    intro name a known
    have settled := steady.globals name a known
    unfold Settled at settled ⊢
    rw [functions, constants]
    exact settled
  · rw [functions]
    exact steady.functions_le
  · rw [constants]
    exact steady.constants_le

/-! ### Edges -/

theorem link_ok {edge : BlockId × BlockId} {u : Unit} (h : link edge d = .ok u d') :
    d.graph.canLink edge.1 = true ∧
      d' = { d with current := some (d.graph.link edge.1 edge.2) } := by
  unfold link at h
  split at h
  · rename_i room
    cases h
    exact ⟨room, rfl⟩
  · cases h

end Draft

theorem Block.mem_successors_link {b : Block} (room : b.hasRoom = true) (target s : Nat) :
    s ∈ (b.link target).successors ↔ s = target ∨ s ∈ b.successors := by
  obtain ⟨steps, truthy, falsy⟩ := b
  cases truthy with
  | none => simp [Block.link, Block.successors]
  | some first =>
      cases falsy with
      | none =>
          simp only [Block.link, Block.successors, Option.isNone_some, Option.isNone_none,
            Bool.false_eq_true, if_false, if_true, Option.toList_some, Option.toList_none,
            List.append_nil, List.mem_append, List.mem_singleton]
          exact or_comm
      | some second => simp [Block.hasRoom] at room

namespace Graph

/-- The edges of the graph are the given ones. -/
def Wired (g : Graph) (edges : List (Nat × Nat)) : Prop :=
  ∀ (id : Nat) (b : Block), g.blocks[id]? = some b →
    ∀ s : Nat, s ∈ b.successors ↔ (id, s) ∈ edges

variable {g : Graph} {edges : List (Nat × Nat)} {source target : Nat}

theorem Bare.wired (h : g.Bare) : g.Wired [] := by
  intro id b found s
  obtain ⟨truthy, falsy⟩ := h id b found
  simp [Block.successors, truthy, falsy]

theorem size_link : (g.link source target).blocks.size = g.blocks.size := by
  simp [link]

theorem rows_link : (g.link source target).rows = g.rows := by
  have same : ∀ (bs : List Block) (i : Nat),
      (bs.modify i fun b => b.link target).map (fun b => b.steps.toList) =
        bs.map fun b => b.steps.toList := by
    intro bs
    induction bs with
    | nil => intro i; cases i <;> rfl
    | cons b bs ih =>
        intro i
        cases i with
        | zero =>
            have steps : (b.link target).steps = b.steps := by
              unfold Block.link
              split
              · rfl
              · split <;> rfl
            simp [steps]
        | succ i => simp [ih i]
  simp only [rows, link, Array.toList_modify]
  exact same _ _

theorem Wired.link (h : g.Wired edges) (room : g.canLink source = true) :
    (g.link source target).Wired (edges ++ [(source, target)]) := by
  intro id b found s
  simp only [Graph.link, Array.getElem?_modify] at found
  rw [List.mem_append, List.mem_singleton, Prod.mk.injEq]
  by_cases same : source = id
  · subst same
    rw [if_pos rfl] at found
    obtain ⟨b', here, rfl⟩ := Option.map_eq_some_iff.1 found
    have hasRoom : b'.hasRoom = true := by
      rw [canLink, here] at room
      exact room
    rw [Block.mem_successors_link hasRoom, h source b' here s]
    simp only [true_and]
    exact or_comm
  · rw [if_neg same] at found
    rw [h id b found s]
    refine (or_iff_left ?_).symm
    rintro ⟨rfl, -⟩
    exact same rfl

end Graph

namespace Draft

variable {c : Context} {d d' : Draft} {procedures : Nat}

theorem forM_link_ok {edges done : List (Nat × Nat)} {u : Unit} (h : edges.forM link d = .ok u d')
    (wired : d.graph.Wired done) :
    d' = { d with current := d'.current } ∧ d'.graph.Wired (done ++ edges) ∧
      d'.graph.blocks.size = d.graph.blocks.size ∧ d'.graph.rows = d.graph.rows ∧
      d'.graph.paramCount = d.graph.paramCount := by
  induction edges generalizing d done with
  | nil =>
      cases h
      exact ⟨rfl, by rwa [List.append_nil], rfl, rfl, rfl⟩
  | cons edge edges ih =>
      rw [forM_cons] at h
      obtain ⟨_, d1, first, rest⟩ := bind_eq_ok_iff.1 h
      obtain ⟨room, rfl⟩ := link_ok first
      obtain ⟨eq, wired', size, rows, params⟩ := ih rest (wired.link room)
      refine ⟨eq, ?_, size.trans Graph.size_link, rows.trans Graph.rows_link, params⟩
      rwa [List.append_assoc] at wired'

/-! ### Whole functions -/

/-- What a function that is accepted went through. -/
theorem ofFunction_runs {params : List Token} {body : Stmt} {u : Unit}
    (h : ofFunction c params body d = .ok u d') :
    ∃ d1 d2, ofParams c params d.enter = .ok () d1 ∧ ofStmt c body d1 = .ok () d2 ∧
      d2.links.toList.forM link d2 = .ok () d' := by
  obtain ⟨_, d1, entering, h⟩ := bind_eq_ok_iff.1 h
  cases entering
  obtain ⟨_, d2, binding, h⟩ := bind_eq_ok_iff.1 h
  obtain ⟨_, d3, compiled, h⟩ := bind_eq_ok_iff.1 h
  rw [bind_of_ok (get_apply d3)] at h
  have each : d3.links.forM link = d3.links.toList.forM link :=
    List.forM_toArray d3.links.toList link
  rw [each] at h
  exact ⟨d2, d3, binding, compiled, h⟩

theorem ofFunction_ok {params : List Token} {body : Stmt} {u : Unit}
    (h : ofFunction c params body d = .ok u d') :
    ∃ d1 d2, Entered (params.map fun param => param.lexeme c.source) d d1 ∧
      ofStmt c body d1 = .ok () d2 ∧ d2.links.toList.forM link d2 = .ok () d' := by
  obtain ⟨d1, d2, binding, rest⟩ := ofFunction_runs h
  exact ⟨d1, d2, entered_of_ofParams binding, rest⟩

/-- The graph of a function that is accepted. -/
structure Finished (procedures : Nat) (d d' : Draft) : Prop where
  forward : d'.graph.Forward
  orderly : d'.graph.listing.Orderly d'.constants.size d'.functions procedures
  steady : d'.Steady
  functions : d'.functions = d.functions
  main : d'.main = d.main
  graphs : d'.graphs = d.graphs
  constants : d.constants.toList <+: d'.constants.toList
  drawn : Drawn d'.graph.rows
  fresh : d'.graph.listing.Fresh

theorem ofFunction_finished (below : c.procedures.Below procedures) {params : List Token}
    {body : Stmt} {u : Unit} (steady : d.Steady) (h : ofFunction c params body d = .ok u d') :
    Finished procedures d d' := by
  obtain ⟨d1, d2, entered, compiled, linking⟩ := ofFunction_ok h
  have executes := ofStmt_executes below body (entered.sane steady) compiled
  obtain ⟨eq, wired, size, rows, paramCount⟩ := forM_link_ok linking executes.sane.bare.wired
  have steps := Graph.steps_congr rows
  rw [List.nil_append] at wired
  have growing := executes.sane.growing
  have listing : d'.graph.listing = d2.graph.listing := by
    rw [Graph.listing, Graph.listing, steps, paramCount]
  have same : ∀ {α : Type} (f : Draft → α), (∀ d g, f { d with current := g } = f d) →
      f d' = f d2 := by
    intro α f indifferent
    rw [eq]
    exact indifferent _ _
  have constants : d'.constants = d2.constants := same constants fun _ _ => rfl
  have functions : d'.functions = d2.functions := same functions fun _ _ => rfl
  have onward := executes.onward
  have links : d1.links.toList = [] := by
    rw [entered.eq]
    rfl
  have blocks : d1.graph.blocks.size = 1 := by
    rw [entered.graph]
    rfl
  have start : d1.graph.steps = [] := entered.steps
  have markers : ∃ p, Patching.start.play d2.graph.listing.markers = some p ∧ p.pending = [] ∧
      ∀ (k : Nat) (op : Op), d2.graph.listing.markers[k]? = some op → op.IsJump →
        d2.graph.listing.markers[k + 1]? = some .savePatch := by
    obtain ⟨added, all, balanced⟩ := executes.balanced
    rw [start, List.nil_append] at all
    have same : d2.graph.listing.markers = added.map Step.marker := by
      rw [← all]
      rfl
    rw [same]
    obtain ⟨p, run, pending, -⟩ := balanced.plays .start
    exact ⟨p, run, pending, balanced.saved⟩
  obtain ⟨p, run, pending, saved⟩ := markers
  refine ⟨⟨?_, fun id b found s mem => ?_, fun id pos lt => ?_⟩, ?_, ?_, ?_, ?_, ?_, ?_, ?_,
    listing ▸ growing.fresh⟩
  · rw [size]
    exact executes.sane.opened
  · rw [size]
    have edge := (wired id b found s).1 mem
    rcases executes.ahead id s edge with old | ahead
    · rw [links] at old
      cases old
    · exact ahead
  · rw [size] at lt
    obtain ⟨source, mem⟩ := executes.entered id (by omega) lt
    have ahead : source < id := by
      rcases executes.ahead source id mem with old | ahead
      · rw [links] at old
        cases old
      · exact ahead.1
    have inside : source < d'.graph.blocks.size := by
      rw [size]
      exact Nat.lt_trans ahead lt
    have here := Array.getElem?_eq_getElem inside
    exact ⟨source, ahead, _, here, (wired source _ here id).2 mem⟩
  · rw [listing, constants, functions]
    exact ⟨growing.legal, growing.read, growing.window,
      Nat.le_trans growing.room_le growing.temps_le, ⟨p, run, pending⟩, saved⟩
  · have steady := executes.sane.steady
    refine ⟨fun name a known => ?_, functions ▸ steady.functions_le,
      constants ▸ steady.constants_le⟩
    rw [same globals fun _ _ => rfl] at known
    have settled := steady.globals name a known
    unfold Settled at settled ⊢
    rwa [functions, constants]
  · rw [functions, onward.functions, entered.eq]
    rfl
  · rw [same main fun _ _ => rfl, onward.main, entered.eq]
    rfl
  · rw [same graphs fun _ _ => rfl, onward.graphs, entered.eq]
    rfl
  · rw [constants]
    have prefix' := onward.constants
    rw [entered.eq] at prefix'
    exact prefix'
  · rw [rows]
    refine executes.drawn ?_
    have blocks : d1.graph.blocks = Graph.empty.addBlock.blocks := by rw [entered.graph]
    rw [Graph.rows, blocks]
    exact .entry

end Draft

end RegisterCode

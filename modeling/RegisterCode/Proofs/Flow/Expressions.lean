import RegisterCode.Proofs.Flow.Arguments
import RegisterCode.Proofs.Tree.Evaluation

/-!
Compiling expressions: what each form of expression is compiled to, and that
the draft stays sane.
-/

namespace RegisterCode

/-- The numbers of a registry are below a bound. -/
def Registry.Below (r : Registry) (bound : Nat) : Prop :=
  ∀ (name : String) (id : UInt16), r.id? name = some id → id.toNat < bound

namespace Registry
variable {names : Array String} {name : String} {id : UInt16}

/-- A name in the registry of a list has a place in the list for its number. -/
theorem exists_of_id? (known : (ofNames names).id? name = some id) :
    ∃ i, names[i]? = some name ∧ id = UInt16.ofNat i := by
  revert name id
  refine Array.foldl_induction (fun _ (r : Registry) => ∀ {name : String} {id : UInt16},
    r.id? name = some id → ∃ i, names[i]? = some name ∧ id = UInt16.ofNat i) ?_ ?_
  · intro name id known
    simp [id?, empty] at known
  · intro i r ih name id known
    have lt : i < names.size := Nat.lt_of_lt_of_eq i.isLt Array.size_zipIdx
    have at_ : names.zipIdx[i] = (names[i], i.val) := by simp
    simp only [at_, id?, Registry.insert, Std.HashMap.getElem?_insert, beq_iff_eq] at known
    split at known
    · rename_i same
      cases known
      exact ⟨i, same ▸ Array.getElem?_eq_getElem lt, rfl⟩
    · exact ih known

theorem id?_eq_none (unknown : name ∉ names) : (ofNames names).id? name = none := by
  by_contra some
  obtain ⟨id, known⟩ := Option.ne_none_iff_exists'.1 some
  obtain ⟨i, at_, -⟩ := exists_of_id? known
  exact unknown (Array.mem_of_getElem? at_)

end Registry

namespace Draft

variable {c : Context} {d d' : Draft} {a : Address} {procedures : Nat}

/-! ### When an expression is accepted -/

theorem ofLiteral_ok {token : Token} (h : ofLiteral c token d = .ok a d') :
    (∃ v, token.kind.value? (token.lexeme c.source) = some v ∧
      intern (token.lexeme c.source) v d = .ok a d') ∨
    (token.kind = .identifier ∧ c.procedures.contains (token.lexeme c.source) = false ∧
      d.lookup? (token.lexeme c.source) = some a ∧ d' = d) := by
  unfold ofLiteral at h
  unfold TokenKind.value?
  cases kind : token.kind with
  | true =>
      rw [kind] at h
      exact .inl ⟨_, rfl, h⟩
  | false =>
      rw [kind] at h
      exact .inl ⟨_, rfl, h⟩
  | int =>
      simp only [kind] at h
      cases read : Text.readInt32? (token.lexeme c.source) with
      | some n =>
          rw [read] at h
          exact .inl ⟨.int n, rfl, h⟩
      | none =>
          rw [read] at h
          cases h
  | float =>
      simp only [kind] at h
      cases read : Decimal.read? (token.lexeme c.source) with
      | some x =>
          rw [read] at h
          exact .inl ⟨.float x, rfl, h⟩
      | none =>
          rw [read] at h
          cases h
  | identifier =>
      simp only [kind] at h
      split at h
      · cases h
      · rename_i free
        rw [bind_of_ok (get_apply d)] at h
        cases known : d.lookup? (token.lexeme c.source) with
        | some a' =>
            rw [known] at h
            cases h
            exact .inr ⟨rfl, Bool.eq_false_iff.2 free, rfl, rfl⟩
        | none =>
            rw [known] at h
            cases h

theorem ofName_ok {name snippet : String} {callee : Callee}
    (h : ofName c name snippet d = .ok callee d') :
    d' = d ∧
      ((∃ id, c.procedures.id? name = some id ∧ id.toNat < numberRange ∧
          callee = .procedure (Int16.ofNat id.toNat)) ∨
        (c.procedures.id? name = none ∧
          ∃ f, d.lookup? name = some (.immediate f) ∧ callee = .function f)) := by
  unfold ofName at h
  cases registered : c.procedures.id? name with
  | some id =>
      simp only [registered] at h
      split at h
      · rename_i within
        cases h
        exact ⟨rfl, .inl ⟨id, rfl, within, rfl⟩⟩
      · cases h
  | none =>
      simp only [registered] at h
      rw [bind_of_ok (get_apply d)] at h
      cases known : d.lookup? name with
      | some a =>
          simp only [known] at h
          split at h
          · rename_i immediate
            cases h
            refine ⟨rfl, .inr ⟨rfl, a.id, ?_, rfl⟩⟩
            rw [Address.immediate, ← immediate]
          · cases h
      | none =>
          rw [known] at h
          cases h

/-- Only an identifier is called. -/
theorem ofCallee_ok {callee : Expr} {called : Callee} (h : ofCallee c callee d = .ok called d') :
    ∃ token span, callee = .literal token span ∧ token.kind = .identifier ∧
      ofName c (token.lexeme c.source) (callee.text c.source) d = .ok called d' := by
  cases callee with
  | literal token span =>
      simp only [ofCallee] at h
      split at h
      · rename_i identifier
        exact ⟨token, span, rfl, identifier, h⟩
      · cases h
  | call | unary | binary | assign => cases h

/-- Only a local or a parameter is assigned to. -/
theorem ofTarget_ok {target : Expr} (h : ofTarget c target d = .ok a d') :
    ∃ token span, target = .literal token span ∧ token.kind = .identifier ∧
      c.procedures.contains (token.lexeme c.source) = false ∧
      d.lookup? (token.lexeme c.source) = some a ∧ a.isTemp = true ∧ d' = d := by
  cases target with
  | literal token span =>
      simp only [ofTarget] at h
      split at h
      · rename_i identifier
        obtain ⟨a', d1, looked, h⟩ := bind_eq_ok_iff.1 h
        split at h
        · rename_i temp
          cases h
          rcases ofLiteral_ok looked with ⟨v, literal, -⟩ | ⟨-, free, known, rfl⟩
          · rw [identifier] at literal
            cases literal
          · exact ⟨token, span, rfl, identifier, free, known, temp, rfl⟩
        · cases h
      · cases h
  | call | unary | binary | assign => cases h

theorem ofExpr_call {callee : Expr} {args : List Expr} {span : Span}
    (h : ofExpr c (.call callee args span) d = .ok a d') :
    ∃ called d1 operands d2, ofCallee c callee d = .ok called d1 ∧
      ofArgs c args #[] d1 = .ok operands d2 ∧
      ofCall called operands (span.text c.source) d2 = .ok a d' := by
  rw [ofExpr] at h
  obtain ⟨called, d1, first, h⟩ := bind_eq_ok_iff.1 h
  obtain ⟨operands, d2, second, h⟩ := bind_eq_ok_iff.1 h
  exact ⟨called, d1, operands, d2, first, second, h⟩

theorem ofExpr_unary {op : Operator} {inner : Expr} {span : Span}
    (h : ofExpr c (.unary op inner span) d = .ok a d') :
    op = .negate ∧ ∃ arg d1, ofExpr c inner d = .ok arg d1 ∧ d1.temps < numberLimit ∧
      a = .temp (Int16.ofNat d1.temps) ∧ d' = d1.computed (.unary · .neg arg) := by
  rw [ofExpr] at h
  split at h
  · cases h
  · rename_i negate
    obtain ⟨arg, d1, first, h⟩ := bind_eq_ok_iff.1 h
    obtain ⟨limit, -, rfl, rfl⟩ := compute_ok.1 h
    exact ⟨not_not.1 negate, arg, d1, first, limit, rfl, rfl⟩

theorem ofExpr_binary {op : Operator} {left right : Expr} {span : Span}
    (h : ofExpr c (.binary op left right span) d = .ok a d') :
    ∃ first d1 second d2 op', ofExpr c left d = .ok first d1 ∧
      ofExpr c right d1 = .ok second d2 ∧ op.binary? = some op' ∧ d2.temps < numberLimit ∧
      a = .temp (Int16.ofNat d2.temps) ∧
      d' = d2.computed (.binary · (.binary op') first second) := by
  rw [ofExpr] at h
  obtain ⟨first, d1, one, h⟩ := bind_eq_ok_iff.1 h
  obtain ⟨second, d2, two, h⟩ := bind_eq_ok_iff.1 h
  cases binary : op.binary? with
  | none =>
      rw [binary] at h
      cases h
  | some op' =>
      simp only [binary] at h
      obtain ⟨limit, -, rfl, rfl⟩ := compute_ok.1 h
      exact ⟨first, d1, second, d2, op', one, two, rfl, limit, rfl, rfl⟩

theorem ofExpr_assign {target value : Expr} {span : Span}
    (h : ofExpr c (.assign target value span) d = .ok a d') :
    ∃ d1 arg d2, ofTarget c target d = .ok a d1 ∧ ofExpr c value d1 = .ok arg d2 ∧
      d' = d2.pushed (.copy a arg) := by
  rw [ofExpr] at h
  obtain ⟨dest, d1, first, h⟩ := bind_eq_ok_iff.1 h
  obtain ⟨arg, d2, second, h⟩ := bind_eq_ok_iff.1 h
  obtain ⟨_, d3, third, h⟩ := bind_eq_ok_iff.1 h
  obtain ⟨-, rfl⟩ := push_ok.1 third
  cases h
  exact ⟨d1, arg, d2, first, second, rfl⟩

theorem ofArgs_cons {e : Expr} {rest : List Expr} {read operands : Array Address}
    (h : ofArgs c (e :: rest) read d = .ok operands d') :
    ∃ first d1, ofExpr c e d = .ok first d1 ∧
      ofArgs c rest (read.push first) d1 = .ok operands d' := by
  rw [ofArgs] at h
  exact bind_eq_ok_iff.1 h

/-! ### What names stand for -/

/-- What a name stands for can be read. -/
theorem Sane.usable_lookup (h : d.Sane procedures) {name : String}
    (known : d.lookup? name = some a) : d.Usable a := by
  unfold lookup? at known
  cases globally : d.globals[name]? with
  | some a' =>
      rw [globally] at known
      cases known
      exact h.usable_global globally
  | none =>
      rw [globally] at known
      exact h.usable_local known

/-- A number that a name stands for is that of a function. -/
theorem Sane.lookup_immediate (h : d.Sane procedures) {name : String} {id : Int16}
    (known : d.lookup? name = some (.immediate id)) :
    ∃ f < d.functions, id = Int16.ofNat f ∧
      d.globals[name]? = some (.immediate (Int16.ofNat f)) := by
  unfold lookup? at known
  cases globally : d.globals[name]? with
  | some a' =>
      rw [globally] at known
      cases known
      rcases h.globals name _ globally with ⟨f, lt, same⟩ | ⟨i, -, same⟩
      · cases same
        exact ⟨f, lt, rfl, rfl⟩
      · cases same
  | none =>
      rw [globally] at known
      cases h.locals name _ known

/-- A temporary that a name stands for is a local's. -/
theorem Sane.lookup_temp (h : d.Sane procedures) {name : String}
    (known : d.lookup? name = some a) (temp : a.isTemp = true) :
    d.globals[name]? = none ∧ d.locals[name]? = some a := by
  unfold lookup? at known
  cases globally : d.globals[name]? with
  | some a' =>
      rw [globally] at known
      cases known
      exact absurd (eq_temp_of_isTemp temp) (h.globals name _ globally).not_temp
  | none =>
      rw [globally] at known
      exact ⟨rfl, known⟩

/-- The step of a call is legal. -/
theorem legal_callStep (h : d.Sane procedures) (below : c.procedures.Below procedures)
    {name snippet : String} {callee : Callee} (named : ofName c name snippet d = .ok callee d)
    {count : Nat} (some : 0 < count) (small : count < numberRange) (pool : Nat) :
    (callStep callee count).Legal pool d.functions procedures := by
  have positive : 0 < Int16.ofNat count := by
    rw [Int16.lt_iff_toInt_lt, Machine.toInt_ofNat_of_small small]
    exact Int.natCast_pos.2 some
  rcases (ofName_ok named).2 with ⟨id, known, within, rfl⟩ | ⟨-, f, known, rfl⟩
  · refine .nativeCall (Machine.zero_le_ofNat_of_small within) ?_ positive
    rw [Callee.id, Machine.toNatClampNeg_ofNat_of_small within]
    exact below name id known
  · obtain ⟨f, lt, rfl, -⟩ := h.lookup_immediate known
    have within : f < numberRange :=
      Nat.lt_of_lt_of_le (Nat.lt_of_lt_of_le lt h.functions_le) (by decide)
    refine .call (Machine.zero_le_ofNat_of_small within) ?_ positive
    rwa [Callee.id, Machine.toNatClampNeg_ofNat_of_small within]

/-! ### Compiling keeps drafts sane -/

/-- An assignment writes the temporary of its target. -/
theorem Gives.assigned (h : d.Sane procedures) {name : String} {arg : Address}
    (known : d.locals[name]? = some a) (usable : d.Usable arg) :
    Gives procedures d a (d.pushed (.copy a arg)) := by
  have temp := eq_temp_of_isTemp (h.locals name a known)
  have sane : (d.pushed (.copy a arg)).Sane procedures := by
    refine h.pushed ?_ rfl rfl (fun t same => ?_) (by simpa [Step.copy, Step.args] using usable)
    · rw [temp]
      exact .copy _ usable.sound
    · cases same
      exact ⟨name, known.trans (congrArg some temp)⟩
  exact ⟨sane, h.beside_pushed rfl rfl, sane.usable_local known⟩

/-- A call passes what its arguments have given, to the callee that was looked up before. -/
theorem Gives.passed {d0 : Draft} (h0 : d0.Sane procedures) (below : c.procedures.Below procedures)
    {name snippet : String} {callee : Callee} (named : ofName c name snippet d0 = .ok callee d0)
    (beside : d0.Beside d) (h : d.Sane procedures) {as : List Address}
    (small : (passedOperands as).length < numberRange)
    (limit : d.temps + (passedOperands as).length ≤ numberLimit)
    (usable : ∀ a ∈ as, d.Usable a) :
    Gives procedures d (.temp (Int16.ofNat d.temps)) (d.called callee (passedOperands as)) := by
  have some := passedOperands_ne_nil as
  have legal := legal_callStep h0 below named (List.length_pos_of_ne_nil some) small
    d.constants.size
  rw [← beside.functions] at legal
  refine .called h some small limit legal fun a mem => ?_
  unfold passedOperands at mem
  split at mem
  · rw [List.mem_singleton.1 mem]
    exact usable_immediate _ _
  · exact usable a mem

mutual

/-- An expression that is accepted keeps the draft sane, and its value can be read
at the address it gives. -/
theorem ofExpr_gives (below : c.procedures.Below procedures) (e : Expr) {d d' : Draft}
    {a : Address} (h : d.Sane procedures) (run : ofExpr c e d = .ok a d') :
    Gives procedures d a d' := by
  cases e with
  | literal token span =>
      rw [ofExpr] at run
      rcases ofLiteral_ok run with ⟨v, -, interned⟩ | ⟨-, -, known, rfl⟩
      · exact .intern h interned
      · exact ⟨h, .refl _, h.usable_lookup known⟩
  | call callee args span =>
      obtain ⟨called, d1, operands, d2, named, evaluated, passed⟩ := ofExpr_call run
      obtain ⟨token, _, -, -, named⟩ := ofCallee_ok named
      obtain rfl := (ofName_ok named).1
      obtain ⟨sane, beside, as, all, -, usable⟩ := ofArgs_gives below args h evaluated
      have all : operands.toList = as := all
      obtain ⟨small, limit, rfl, rfl⟩ := ofCall_ok passed
      rw [all] at small limit ⊢
      exact .after beside (.passed h below named beside sane small limit usable)
  | unary op inner span =>
      obtain ⟨-, arg, d1, first, limit, rfl, rfl⟩ := ofExpr_unary run
      obtain ⟨sane, beside, usable⟩ := ofExpr_gives below inner h first
      exact .after beside (.computed sane limit (.neg _ usable.sound) rfl rfl rfl
        (by simpa [Step.args] using usable))
  | binary op left right span =>
      obtain ⟨first, d1, second, d2, op', one, two, -, limit, rfl, rfl⟩ := ofExpr_binary run
      obtain ⟨sane, beside, usable⟩ := ofExpr_gives below left h one
      obtain ⟨sane', beside', usable'⟩ := ofExpr_gives below right sane two
      have usable := usable.onward beside'.toOnward
      exact .after (beside.trans beside') (.computed sane' limit
        (.binary _ op' usable.sound usable'.sound) rfl rfl rfl
        (by simpa [Step.args] using ⟨usable, usable'⟩))
  | assign target value span =>
      obtain ⟨d1, arg, d2, targeted, evaluated, rfl⟩ := ofExpr_assign run
      obtain ⟨token, _, -, -, -, known, temp, rfl⟩ := ofTarget_ok targeted
      obtain ⟨sane, beside, usable⟩ := ofExpr_gives below value h evaluated
      have known := (h.lookup_temp known temp).2
      exact .after beside (.assigned sane (beside.same_locals ▸ known) usable)
termination_by sizeOf e

theorem ofArgs_gives (below : c.procedures.Below procedures) (es : List Expr) {d d' : Draft}
    {read operands : Array Address} (h : d.Sane procedures)
    (run : ofArgs c es read d = .ok operands d') :
    d'.Sane procedures ∧ d.Beside d' ∧ ∃ as, operands.toList = read.toList ++ as ∧
      as.length = es.length ∧ ∀ a ∈ as, d'.Usable a := by
  cases es with
  | nil =>
      cases run
      exact ⟨h, .refl d, [], by simp, rfl, by simp⟩
  | cons e rest =>
      obtain ⟨first, d1, one, more⟩ := ofArgs_cons run
      obtain ⟨sane, beside, usable⟩ := ofExpr_gives below e h one
      obtain ⟨sane', beside', as, all, length, each⟩ := ofArgs_gives below rest sane more
      refine ⟨sane', beside.trans beside', first :: as, ?_, ?_, fun a mem => ?_⟩
      · rw [all, Array.toList_push, List.append_assoc]
        rfl
      · rw [List.length_cons, List.length_cons, length]
      · rcases List.mem_cons.1 mem with rfl | mem
        · exact usable.onward beside'.toOnward
        · exact each a mem
termination_by sizeOf es

end

end Draft

end RegisterCode

import RegisterCode.Proofs.Flow.Forest

/-!
What the names that are known everywhere mean. In a forest where no lexeme
serves two purposes, the entry of a literal in the pool is the value of that
literal, and what a function's name stands for is the number of the first
function with that name.
-/

namespace RegisterCode

namespace Draft

variable {kindOf : String → TokenKind} {function? : String → Option Nat} {d d' : Draft}
  {a : Address} {name : String}

/-- The globals mean what their lexemes serve as. -/
structure Named (kindOf : String → TokenKind) (function? : String → Option Nat)
    (d : Draft) : Prop where
  meaning : ∀ (name : String) (a : Address), d.globals[name]? = some a →
    (kindOf name = .identifier ∧
      ∃ f, function? name = some f ∧ a = .immediate (Int16.ofNat f)) ∨
    ∃ v i, (kindOf name).value? name = some v ∧ i < numberRange ∧
      a = .constant (Int16.ofNat i) ∧ d.constants[i]? = some v
  functions : ∀ (name : String) (f : Nat), function? name = some f →
    d.globals[name]? = some (.immediate (Int16.ofNat f))
  small : ∀ (name : String) (f : Nat), function? name = some f → f < numberRange

/-- Names keep their meaning. -/
def KeepsNames (kindOf : String → TokenKind) (function? : String → Option Nat)
    (d d' : Draft) : Prop :=
  d.Named kindOf function? → d'.Named kindOf function?

instance : Composes (KeepsNames kindOf function?) where
  refl _ named := named
  trans h h' named := h' (h named)

theorem Named.interned {lexeme : String} {v : Value} (h : d.Named kindOf function?)
    (literal : (kindOf lexeme).value? lexeme = some v) (unknown : d.globals[lexeme]? = none)
    (within : d.constants.size < numberRange) :
    Named kindOf function? { d with
      constants := d.constants.push v
      globals := d.globals.insert lexeme (.constant (Int16.ofNat d.constants.size)) } where
  meaning name a known := by
    simp only [Std.HashMap.getElem?_insert, beq_iff_eq] at known
    split at known
    · rename_i same
      subst same
      cases known
      exact .inr ⟨v, d.constants.size, literal, within, rfl, Array.getElem?_push_size⟩
    · refine (h.meaning name a known).imp_right ?_
      rintro ⟨v', i, literal', small, same, pooled⟩
      refine ⟨v', i, literal', small, same, ?_⟩
      have lt := (Array.getElem?_eq_some_iff.1 pooled).1
      rw [Array.getElem?_push, if_neg (Nat.ne_of_lt lt)]
      exact pooled
  functions name f numbered := by
    have known := h.functions name f numbered
    simp only [Std.HashMap.getElem?_insert, beq_iff_eq]
    rw [if_neg]
    · exact known
    · rintro rfl
      rw [unknown] at known
      cases known
  small := h.small

theorem Named.quiet (h : d.Named kindOf function?) (globals : d'.globals = d.globals)
    (constants : d'.constants = d.constants) : d'.Named kindOf function? where
  meaning := by rw [globals, constants]; exact h.meaning
  functions := by rw [globals]; exact h.functions
  small := h.small

theorem Named.pushed (h : d.Named kindOf function?) (step : Step) :
    (d.pushed step).Named kindOf function? := h.quiet rfl rfl

theorem keepsNames_tame :
    Tame (KeepsNames kindOf function?) fun lexeme kind => kindOf lexeme = kind where
  quiet globals constants _ _ named := named.quiet globals constants
  intern {lexeme kind v} used literal := by
    intro d named
    cases run : intern lexeme v d with
    | ok a d' =>
        rw [leaves_of_ok run]
        rcases intern_ok run with ⟨rfl, -⟩ | ⟨unknown, within, rfl, rfl⟩
        · exact named
        · exact named.interned (used ▸ literal) unknown within
    | error r d' =>
        rw [leaves_of_error run]
        have same : d' = d := by
          unfold intern at run
          split at run
          · cases run
          · split at run <;> cases run
            rfl
        rw [same]
        exact named

/-- The address of a literal is that of its value. -/
theorem Named.literal (h : d'.Named kindOf function?) {lexeme : String} {kind : TokenKind}
    {v : Value} (used : kindOf lexeme = kind) (value : kind.value? lexeme = some v)
    (run : intern lexeme v d = .ok a d') :
    ∃ i < numberRange, a = .constant (Int16.ofNat i) ∧ d'.constants[i]? = some v := by
  have known : d'.globals[lexeme]? = some a := by
    rcases intern_ok run with ⟨rfl, known⟩ | ⟨-, -, rfl, rfl⟩
    · exact known
    · exact Std.HashMap.getElem?_insert_self
  rcases h.meaning lexeme a known with ⟨identifier, -⟩ | ⟨v', i, value', small, same, pooled⟩
  · rw [← used, identifier] at value
    cases value
  · rw [used, value] at value'
    cases value'
    exact ⟨i, small, same, pooled⟩

/-- An identifier stands for the function of that name, or for a local. -/
theorem Named.identifier (h : d.Named kindOf function?) (used : kindOf name = .identifier)
    (known : d.lookup? name = some a) :
    (∃ f, function? name = some f ∧ a = .immediate (Int16.ofNat f)) ∨
      (function? name = none ∧ d.locals[name]? = some a) := by
  unfold lookup? at known
  cases globally : d.globals[name]? with
  | some a' =>
      rw [globally] at known
      cases known
      rcases h.meaning name _ globally with ⟨-, numbered⟩ | ⟨v, i, value, -⟩
      · exact .inl numbered
      · rw [used] at value
        cases value
  | none =>
      rw [globally] at known
      refine .inr ⟨?_, known⟩
      cases numbered : function? name with
      | none => rfl
      | some f =>
          rw [h.functions name f numbered] at globally
          cases globally

/-- When the functions have been declared, names mean what they should. -/
theorem Declared.named {names : List String} (h : Declared names d)
    (identifiers : ∀ name ∈ names, kindOf name = .identifier) :
    d.Named kindOf fun name => names.findIdx? fun other => other = name where
  meaning name a known := by
    obtain ⟨f, first, rfl⟩ := (h.globals name a).1 known
    obtain ⟨lt, same, -⟩ := List.findIdx?_eq_some_iff_getElem.1 first
    refine .inl ⟨?_, f, first, rfl⟩
    have same : names[f] = name := of_decide_eq_true same
    exact same ▸ identifiers _ (List.getElem_mem lt)
  functions name f first := (h.globals name _).2 ⟨f, first, rfl⟩
  small name f first := by
    have lt := (List.findIdx?_eq_some_iff_getElem.1 first).1
    exact Nat.lt_of_lt_of_le lt (Nat.le_trans h.limit (by decide))

end Draft

/-- What the lexemes of a hygienic forest serve as. -/
theorem Hygienic.kindOf {sources : Array String} {forest : List SourceUnit}
    (h : Hygienic sources forest) :
    ∃ kindOf : String → TokenKind, ∀ x ∈ lexemes sources forest, kindOf x.1 = x.2 := by
  refine ⟨fun name => (((lexemes sources forest).find? fun x => x.1 = name).map
    Prod.snd).getD .identifier, fun x mem => ?_⟩
  cases found : (lexemes sources forest).find? fun y => y.1 = x.1 with
  | none =>
      have other := List.find?_eq_none.1 found x mem
      simp at other
  | some y =>
      have same : y.1 = x.1 := by simpa using List.find?_some found
      show (Option.map Prod.snd ((lexemes sources forest).find? fun y => y.1 = x.1)).getD _ = _
      rw [found]
      exact h y (List.mem_of_find?_eq_some found) x mem same

end RegisterCode

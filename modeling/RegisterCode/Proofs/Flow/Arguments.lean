import RegisterCode.Proofs.Flow.Sane

/-!
Calls: the copies of the operands to consecutive new temporaries, and the step
that passes them.
-/

namespace RegisterCode

/-- The steps that copy operands to the temporaries from a number on. -/
def copies (temps : Nat) : List Address → List Step
  | [] => []
  | a :: as => .copy (.temp (Int16.ofNat temps)) a :: copies (temps + 1) as

/-- The operands of a call. One without arguments passes a number. -/
def passedOperands (args : List Address) : List Address :=
  if args.isEmpty then [.immediate 0] else args

@[simp] theorem length_copies (temps : Nat) (as : List Address) :
    (copies temps as).length = as.length := by
  induction as generalizing temps with
  | nil => rfl
  | cons a as ih => simp [copies, ih]

theorem getElem?_copies (temps : Nat) (as : List Address) (j : Nat) :
    (copies temps as)[j]? = as[j]?.map fun a => .copy (.temp (Int16.ofNat (temps + j))) a := by
  induction as generalizing temps j with
  | nil => simp [copies]
  | cons a as ih =>
      cases j with
      | zero => simp [copies]
      | succ j =>
          rw [copies, List.getElem?_cons_succ, List.getElem?_cons_succ, ih,
            Nat.add_right_comm temps 1 j, Nat.add_assoc]

theorem passedOperands_ne_nil (args : List Address) : passedOperands args ≠ [] := by
  unfold passedOperands
  split
  · simp
  · rename_i some
    simpa using some

namespace Listing

variable {l : Listing} {pre : List Step} {temps k : Nat} {as : List Address} {t : Int16}

theorem writes?_append_copies (h : l.steps = pre ++ copies temps as) {j : Nat}
    (lt : j < as.length) :
    l.writes? (pre.length + j) = some (Int16.ofNat (temps + j)) := by
  rw [writes?, h, List.getElem?_append_right (Nat.le_add_right _ _), Nat.add_sub_cancel_left,
    getElem?_copies, List.getElem?_eq_getElem lt]
  rfl

/-- Behind the copies of the operands there is a window for a call. -/
theorem window_of_copies (h : l.steps = pre ++ copies temps as) (some : as ≠ [])
    (params : l.params ≤ temps) (limit : temps + as.length ≤ numberLimit)
    (before : ∀ k t, k < pre.length → l.writes? k = Option.some t → numberOf t < temps)
    (step : Step) (dest : step.dest? = none) :
    (l.snoc step).Window l.steps.length as.length := by
  have length : l.steps.length = pre.length + as.length := by simp [h]
  have number : ∀ j < as.length, numberOf (Int16.ofNat (temps + j)) = temps + j :=
    fun j lt => numberOf_ofNat (by omega)
  refine ⟨List.length_pos_of_ne_nil some, by omega, fun i low high => ?_,
    fun i t low high writes => ?_⟩
  · obtain ⟨j, rfl⟩ : ∃ j, i = pre.length + j := ⟨i - pre.length, by omega⟩
    have lt : j < as.length := by omega
    refine ⟨Int16.ofNat (temps + j), as[j], ?_, ?_, fun q writes => ?_⟩
    · rw [getElem?_snoc high, h, List.getElem?_append_right (Nat.le_add_right _ _),
        Nat.add_sub_cancel_left, getElem?_copies, List.getElem?_eq_getElem lt]
      rfl
    · show ¬ numberOf _ < l.params
      rw [number j lt]
      omega
    · rcases Nat.lt_or_eq_of_le (Nat.le_of_lt_succ (length_snoc ▸ lt_of_writes? writes))
        with inside | rfl
      · rw [writes?_snoc inside] at writes
        by_cases early : q < pre.length
        · have below := before q _ early writes
          rw [number j lt] at below
          omega
        · obtain ⟨j', rfl⟩ : ∃ j', q = pre.length + j' := ⟨q - pre.length, by omega⟩
          rw [writes?_append_copies h (by omega)] at writes
          have same := congrArg numberOf (Option.some.inj writes)
          rw [number j lt, number j' (by omega)] at same
          omega
      · rw [writes?_snoc_length, dest] at writes
        cases writes
  · rintro ⟨q, behind, read⟩
    have inside := lt_of_mem_reads read
    rw [length_snoc] at inside
    omega

end Listing

namespace Draft

variable {d d' : Draft} {procedures : Nat} {a : Address} {as : List Address} {t : Int16}

/-- The draft with the copies of operands. -/
def copied (d : Draft) : List Address → Draft
  | [] => d
  | a :: as => (d.computed (.copy · a)).copied as

theorem forM_copyToTemp_ok {u : Unit} (h : as.forM copyToTemp d = .ok u d') :
    d' = d.copied as ∧ (as ≠ [] → d.temps + as.length ≤ numberLimit) := by
  induction as generalizing d with
  | nil =>
      cases h
      exact ⟨rfl, fun some => absurd rfl some⟩
  | cons a as ih =>
      rw [forM_cons, bind_eq_ok_iff] at h
      obtain ⟨_, d1, first, rest⟩ := h
      obtain ⟨lt, -, rfl⟩ := copyToTemp_ok.1 first
      obtain ⟨rfl, limit⟩ := ih rest
      refine ⟨rfl, fun _ => ?_⟩
      rw [List.length_cons]
      by_cases last : as = []
      · subst last
        exact lt
      · have more : d.temps + 1 + as.length ≤ numberLimit := limit last
        omega

theorem steps_copied (opened : 0 < d.graph.blocks.size) :
    (d.copied as).graph.steps = d.graph.steps ++ copies d.temps as := by
  induction as generalizing d with
  | nil => exact (List.append_nil _).symm
  | cons a as ih =>
      have size : 0 < (d.computed (.copy · a)).graph.blocks.size :=
        Nat.lt_of_lt_of_eq opened Graph.size_pushNewest.symm
      have first : (d.computed (.copy · a)).graph.steps =
          d.graph.steps ++ [.copy (.temp (Int16.ofNat d.temps)) a] :=
        Graph.steps_pushNewest opened
      rw [copied, ih size, first, List.append_assoc]
      rfl

theorem temps_copied : (d.copied as).temps = d.temps + as.length := by
  induction as generalizing d with
  | nil => rfl
  | cons a as ih =>
      rw [copied, ih, List.length_cons]
      show d.temps + 1 + as.length = _
      omega

/-- Copying operands keeps a draft sane, and the copies can be read. -/
theorem Sane.copied (h : d.Sane procedures) (limit : d.temps + as.length ≤ numberLimit)
    (usable : ∀ a ∈ as, d.Usable a) :
    (d.copied as).Sane procedures ∧ d.Beside (d.copied as) ∧
      ∀ j < as.length, (d.copied as).Usable (.temp (Int16.ofNat (d.temps + j))) := by
  induction as generalizing d with
  | nil => exact ⟨h, .refl d, fun j lt => absurd lt (Nat.not_lt_zero j)⟩
  | cons a as ih =>
      rw [List.length_cons] at limit
      have gives := Gives.computed h (f := (.copy · a)) (by omega)
        (.copy _ (usable a List.mem_cons_self).sound) rfl rfl rfl
        (by simpa [Step.copy, Step.args] using usable a List.mem_cons_self)
      obtain ⟨sane, beside, each⟩ := ih gives.sane
        (by show d.temps + 1 + as.length ≤ numberLimit; omega)
        fun b mem => (usable b (List.mem_cons_of_mem _ mem)).onward gives.beside.toOnward
      refine ⟨sane, gives.beside.trans beside, fun j lt => ?_⟩
      cases j with
      | zero => exact gives.usable.onward beside.toOnward
      | succ j =>
          have there := each j (by simpa using lt)
          have same : (d.computed (.copy · a)).temps + j = d.temps + (j + 1) := by
            show d.temps + 1 + j = _
            omega
          rwa [same] at there

/-- The step that passes copied operands to what is called. -/
def callStep (callee : Callee) (count : Nat) : Step :=
  .actOnTwo callee.op (.immediate callee.id) (.immediate (Int16.ofNat count))

theorem window?_callStep {callee : Callee} {count : Nat} (small : count < numberRange) :
    (callStep callee count).window? = some count := by
  have count_eq := Machine.toNatClampNeg_ofNat_of_small small
  cases callee <;>
    simp [callStep, Step.window?, Address.immediate, Callee.op, Op.isCall, count_eq]

/-- The draft with a whole call. -/
def called (d : Draft) (callee : Callee) (as : List Address) : Draft :=
  (d.copied as).pushed (callStep callee as.length)

/-- When a call is compiled, and to what. -/
theorem ofCall_ok {callee : Callee} {args : Array Address} {snippet : String}
    (h : ofCall callee args snippet d = .ok a d') :
    (passedOperands args.toList).length < numberRange ∧
      d.temps + (passedOperands args.toList).length ≤ numberLimit ∧
      a = .temp (Int16.ofNat d.temps) ∧ d' = d.called callee (passedOperands args.toList) := by
  have operands : (if args.isEmpty then #[Address.immediate 0] else args).toList =
      passedOperands args.toList := by
    unfold passedOperands
    rw [Array.isEmpty_toList]
    split <;> rfl
  unfold ofCall at h
  generalize (if args.isEmpty then #[Address.immediate 0] else args) = given at h operands
  have size : given.size = (passedOperands args.toList).length := by
    rw [← operands, Array.length_toList]
  split at h
  · cases h
  · rename_i within
    obtain ⟨_, _, copying, h⟩ := bind_eq_ok_iff.1 h
    obtain ⟨_, _, pushing, h⟩ := bind_eq_ok_iff.1 h
    have each : given.forM copyToTemp = (passedOperands args.toList).forM copyToTemp := by
      rw [← operands]
      exact List.forM_toArray given.toList copyToTemp
    rw [each] at copying
    obtain ⟨rfl, limit⟩ := forM_copyToTemp_ok copying
    obtain ⟨-, rfl⟩ := push_ok.1 pushing
    cases h
    refine ⟨by omega, limit (passedOperands_ne_nil _), ?_, ?_⟩
    · show Address.temp (Int16.ofNat ((d.copied _).temps - given.size)) = _
      rw [temps_copied, size, Nat.add_sub_cancel]
    · rw [called, callStep, size]

/-- A call is compiled to a window and the step behind it. The value is found in
the first temporary of the window. -/
theorem Gives.called (h : d.Sane procedures) {callee : Callee} (some : as ≠ [])
    (small : as.length < numberRange) (limit : d.temps + as.length ≤ numberLimit)
    (legal : (callStep callee as.length).Legal d.constants.size d.functions procedures)
    (usable : ∀ a ∈ as, d.Usable a) :
    Gives procedures d (.temp (Int16.ofNat d.temps)) (d.called callee as) := by
  obtain ⟨sane, beside, each⟩ := h.copied limit usable
  have steps : (d.copied as).graph.listing.steps = d.graph.steps ++ copies d.temps as :=
    steps_copied h.opened
  have params : (d.copied as).graph.listing.params = d.graph.listing.params :=
    congrArg UInt16.toNat beside.params
  have length : (d.copied as).graph.listing.steps.length = d.graph.steps.length + as.length := by
    simp [steps]
  have before : ∀ k t, k < d.graph.steps.length →
      (d.copied as).graph.listing.writes? k = Option.some t → numberOf t < d.temps := by
    intro k t lt writes
    refine h.growing.written k t ?_
    rw [Listing.writes?, steps, List.getElem?_append_left lt] at writes
    exact writes
  have number : ∀ j < as.length, numberOf (Int16.ofNat (d.temps + j)) = d.temps + j :=
    fun j lt => numberOf_ofNat (by omega)
  have window := Listing.window_of_copies steps some (params ▸ h.growing.params_le) limit before
    (callStep callee as.length) rfl
  have called : (callStep callee as.length).window? = Option.some as.length :=
    window?_callStep small
  have listing : (d.called callee as).graph.listing =
      (d.copied as).graph.listing.snoc (callStep callee as.length) :=
    Sane.listing_pushed sane.opened
  -- The temporaries of the window are the copies.
  have inWindow : ∀ i t, (d.copied as).graph.listing.steps.length - as.length ≤ i →
      i < (d.copied as).graph.listing.steps.length →
      (d.copied as).graph.listing.writes? i = Option.some t →
      ∃ j < as.length, i = d.graph.steps.length + j ∧ t = Int16.ofNat (d.temps + j) := by
    intro i t low high writes
    obtain ⟨j, rfl⟩ : ∃ j, i = d.graph.steps.length + j := ⟨i - d.graph.steps.length, by omega⟩
    have lt : j < as.length := by omega
    rw [Listing.writes?_append_copies steps lt] at writes
    exact ⟨j, lt, rfl, (Option.some.inj writes).symm⟩
  have reads : ∀ t ∈ (d.called callee as).graph.listing.reads
      (d.copied as).graph.listing.steps.length, (d.copied as).graph.listing.Ready t := by
    intro t mem
    rw [listing, Listing.reads, Listing.getElem?_snoc_length] at mem
    simp only [called, Listing.window_snoc (Nat.le_refl _)] at mem
    obtain ⟨here, there, dest⟩ := List.mem_filterMap.1 mem
    rw [List.take_length] at there
    obtain ⟨i, found⟩ := List.mem_iff_getElem?.1 there
    rw [List.getElem?_drop] at found
    have inside := (List.getElem?_eq_some_iff.1 found).1
    obtain ⟨j, lt, -, rfl⟩ := inWindow _ t (Nat.le_add_right _ _) inside
      (by rw [Listing.writes?, found]; exact dest)
    exact (each j lt).ready _ rfl
  have owned : ∀ t, d.Owned t → numberOf t < d.temps := fun t mine => (h.growing.owned t mine).1
  have growing : (d.called callee as).graph.listing.Growing (d.copied as).constants.size
      (d.copied as).functions procedures (d.copied as).temps (d.copied as).Owned := by
    rw [listing] at reads ⊢
    refine sane.growing.snoc (Nat.le_refl _) sane.growing.temps_le
      (legal.mono beside.size_constants_le (Nat.le_of_eq beside.functions.symm))
      (fun t dest => by cases dest) (fun _ t dest => by cases dest) reads fun n passes => ?_
    rw [called] at passes
    cases passes
    refine ⟨window, fun i t low high writes mine => ?_⟩
    obtain ⟨j, lt, -, rfl⟩ := inWindow i t low high writes
    rw [Draft.Owned, beside.same_locals] at mine
    have below := owned _ mine
    rw [number j lt] at below
    omega
  have ready : ∀ t, (d.copied as).graph.listing.Ready t →
      (numberOf t < d.temps ∨ t = Int16.ofNat d.temps) →
      (d.called callee as).graph.listing.Ready t := by
    intro t known apart
    rw [listing]
    refine ⟨known.1.snoc, fun passes => ?_⟩
    rcases Listing.passes_of_snoc passes with before | ⟨n, i, passes, low, high, writes⟩
    · exact known.2 before
    · rw [called] at passes
      cases passes
      rw [if_neg (by decide)] at low
      obtain ⟨j, lt, rfl, rfl⟩ := inWindow i t (Nat.le_of_lt low) high writes
      have number0 := number 0 (by omega)
      rw [Nat.add_zero] at number0
      rcases apart with below | same
      · rw [number j lt] at below
        omega
      · have same := congrArg numberOf same
        rw [number j lt, number0] at same
        omega
  have pushed : (d.called callee as).graph.steps =
      (d.copied as).graph.steps ++ [callStep callee as.length] :=
    Graph.steps_pushNewest sane.opened
  have quiet : (callStep callee as.length).marker = .condensed := by
    cases callee <;> rfl
  refine ⟨{ sane with
    growing := growing
    opened := Nat.lt_of_lt_of_eq sane.opened Graph.size_pushNewest.symm
    bare := sane.bare.pushNewest }, ?_, trivial, ?_⟩
  · refine { beside with
      steps := beside.steps.trans ⟨_, pushed.symm⟩
      ready := fun t known => ready t (beside.ready t known)
        (.inl (h.growing.number_lt_of_known known.1))
      blocks := Graph.size_pushNewest.trans beside.blocks
      quiet := ?_
      drawn := fun rows => Sane.drawn_pushed quiet (beside.drawn rows) }
    obtain ⟨added, same, all⟩ := beside.quiet
    refine ⟨added ++ [callStep callee as.length], by rw [pushed, same, List.append_assoc],
      fun here mem => ?_⟩
    rcases List.mem_append.1 mem with mem | mem
    · exact all here mem
    · rw [List.mem_singleton.1 mem]
      exact quiet
  · rintro t same
    cases same
    have first := (each 0 (List.length_pos_of_ne_nil some)).ready _ rfl
    exact ready _ first (.inr rfl)

end Draft

end RegisterCode

import RegisterCode.Flow.Draft
import RegisterCode.Proofs.Flow.Rows
import Mathlib.Data.List.Perm.Subperm

/-!
Listings that grow at the end, as compiling a function makes them grow. What a
listing says of its steps stays true of them; a step that is added may read
only temporaries that are ready, and write one that is new or that a name owns.
-/

namespace RegisterCode

/-- The number of a temporary. -/
abbrev numberOf (t : Int16) : Nat := t.toUInt16.toNat

theorem numberOf_ofNat {n : Nat} (h : n < numberLimit) : numberOf (Int16.ofNat n) = n := by
  have small : n < 65536 := Nat.lt_trans h (by decide)
  exact Nat.mod_eq_of_lt small

theorem numberOf_inj {t t' : Int16} (h : numberOf t = numberOf t') : t = t' :=
  Int16.toBitVec_inj.1 (congrArg UInt16.toBitVec (UInt16.toNat_inj.1 h))

theorem Step.Legal.mono {pool functions procedures pool' functions' : Nat} {step : Step}
    (h : step.Legal pool functions procedures) (le : pool ≤ pool')
    (le' : functions ≤ functions') : step.Legal pool' functions' procedures := by
  have widen : ∀ {a : Address}, a.Sound pool → a.Sound pool' := by
    intro a sound
    unfold Address.Sound at sound ⊢
    split
    · trivial
    · trivial
    · rename_i same
      rw [same] at sound
      exact ⟨sound.1, Nat.lt_of_lt_of_le sound.2 le⟩
    · rename_i same
      rw [same] at sound
      exact sound
  cases h with
  | copy t sound => exact .copy t (widen sound)
  | neg t sound => exact .neg t (widen sound)
  | binary t op sound sound' => exact .binary t op (widen sound) (widen sound')
  | nop => exact .nop
  | savePatch => exact .savePatch
  | shufflePatch => exact .shufflePatch
  | patchJump => exact .patchJump
  | patchJumpElse => exact .patchJumpElse
  | condensed => exact .condensed
  | jump => exact .jump
  | ret sound => exact .ret (widen sound)
  | jumpElse sound => exact .jumpElse (widen sound)
  | call named known some => exact .call named (Nat.lt_of_lt_of_le known le') some
  | nativeCall named known some => exact .nativeCall named known some

namespace Listing

/-- The listing with one more step. -/
def snoc (l : Listing) (step : Step) : Listing := { l with steps := l.steps ++ [step] }

variable {l : Listing} {step : Step} {k n temps : Nat} {t : Int16}

@[simp] theorem params_snoc : (l.snoc step).params = l.params := rfl

@[simp] theorem length_snoc : (l.snoc step).steps.length = l.steps.length + 1 := by
  simp [snoc]

theorem getElem?_snoc (h : k < l.steps.length) : (l.snoc step).steps[k]? = l.steps[k]? :=
  List.getElem?_append_left h

theorem getElem?_snoc_length : (l.snoc step).steps[l.steps.length]? = some step := by
  simp [snoc]

/-- A step of the grown listing is one of the steps before or the new one. -/
theorem getElem?_snoc_some {here : Step} (h : (l.snoc step).steps[k]? = some here) :
    (k < l.steps.length ∧ l.steps[k]? = some here) ∨ (k = l.steps.length ∧ here = step) := by
  have inside := (List.getElem?_eq_some_iff.1 h).1
  rw [length_snoc] at inside
  rcases Nat.lt_or_eq_of_le (Nat.le_of_lt_succ inside) with lt | rfl
  · rw [getElem?_snoc lt] at h
    exact .inl ⟨lt, h⟩
  · rw [getElem?_snoc_length] at h
    exact .inr ⟨rfl, (Option.some.inj h).symm⟩

theorem names_snoc (h : k ≤ l.steps.length) : (l.snoc step).names k = l.names k := by
  rw [names, names, snoc, List.take_append_of_le_length h]

theorem names_snoc_length :
    (l.snoc step).names (l.steps.length + 1) =
      addName l.params (l.names l.steps.length) step := by
  rw [names_succ getElem?_snoc_length, names_snoc (Nat.le_refl _), params_snoc]

theorem window_snoc (h : k ≤ l.steps.length) : (l.snoc step).window k n = l.window k n := by
  rw [window, window, snoc, List.take_append_of_le_length h]

theorem reads_snoc (h : k < l.steps.length) : (l.snoc step).reads k = l.reads k := by
  rw [reads, reads, getElem?_snoc h]
  simp only [window_snoc (Nat.le_of_lt h)]

theorem writes?_snoc (h : k < l.steps.length) : (l.snoc step).writes? k = l.writes? k := by
  rw [writes?, writes?, getElem?_snoc h]

theorem writes?_snoc_length :
    (l.snoc step).writes? l.steps.length = step.dest?.map Address.id := by
  rw [writes?, getElem?_snoc_length]
  rfl

theorem lt_of_writes? (h : l.writes? k = some t) : k < l.steps.length := by
  obtain ⟨here, found, -⟩ := Option.bind_eq_some_iff.1 h
  exact (List.getElem?_eq_some_iff.1 found).1

theorem lt_of_mem_reads (h : t ∈ l.reads k) : k < l.steps.length := by
  unfold reads at h
  split at h
  · cases h
  · rename_i here found
    exact (List.getElem?_eq_some_iff.1 found).1

theorem Known.snoc (h : l.Known t) : (l.snoc step).Known t := by
  refine h.imp_right fun named => ?_
  rw [length_snoc, names_snoc_length]
  exact mem_addName.2 (.inl named)

/-- The temporary that a new step writes is known from then on. -/
theorem known_dest (h : step.dest?.map Address.id = some t) : (l.snoc step).Known t := by
  by_cases param : IsParam l.params t
  · exact .inl param
  · refine .inr ?_
    rw [length_snoc, names_snoc_length]
    exact mem_addName.2 (.inr ⟨param, h⟩)

/-! ### Temporaries in windows -/

/-- The temporary is one of those that a call passes, other than the first if
`first` is not allowed for. -/
def Passes (l : Listing) (first : Bool) (t : Int16) : Prop :=
  ∃ (k : Nat) (step : Step) (n i : Nat), l.steps[k]? = some step ∧ step.window? = some n ∧
    (if first then k - n ≤ i else k - n < i) ∧ i < k ∧ l.writes? i = some t

/-- The temporary can be read: it was written, and no call used it up. -/
def Ready (l : Listing) (t : Int16) : Prop := l.Known t ∧ ¬ l.Passes false t

theorem Passes.any {first : Bool} (h : l.Passes first t) : l.Passes true t := by
  obtain ⟨k, here, n, i, found, window, le, lt, writes⟩ := h
  refine ⟨k, here, n, i, found, window, ?_, lt, writes⟩
  rw [if_pos rfl]
  split at le <;> omega

/-- A temporary that is passed in the grown listing was passed before, unless the
new step is the call that passes it. -/
theorem passes_of_snoc {first : Bool} (h : (l.snoc step).Passes first t) :
    l.Passes first t ∨ ∃ n i, step.window? = some n ∧
      (if first then l.steps.length - n ≤ i else l.steps.length - n < i) ∧
      i < l.steps.length ∧ l.writes? i = some t := by
  obtain ⟨k, here, n, i, found, window, le, lt, writes⟩ := h
  rcases getElem?_snoc_some found with ⟨inside, found⟩ | ⟨rfl, rfl⟩
  · rw [writes?_snoc (Nat.lt_trans lt inside)] at writes
    exact .inl ⟨k, here, n, i, found, window, le, lt, writes⟩
  · rw [writes?_snoc lt] at writes
    exact .inr ⟨n, i, window, le, lt, writes⟩

theorem not_passes_snoc {first : Bool} (h : ¬ l.Passes first t) (plain : step.window? = none) :
    ¬ (l.snoc step).Passes first t := by
  intro passes
  rcases passes_of_snoc passes with before | ⟨n, i, window, -⟩
  · exact h before
  · rw [plain] at window
    cases window

theorem Ready.snoc (h : l.Ready t) (plain : step.window? = none) : (l.snoc step).Ready t :=
  ⟨h.1.snoc, not_passes_snoc h.2 plain⟩

/-! ### Growing -/

end Listing

/-- A step whose value is new, and not that of an operand. -/
def Step.computes : Step → Bool
  | .unary _ .neg _ | .binary .. => true
  | _ => false

namespace Step

variable {step : Step} {dest : Address}

@[simp] theorem args_withDest (dest : Address) (step : Step) :
    (step.withDest dest).args = step.args := by
  cases step <;> rfl

@[simp] theorem op_withDest (dest : Address) (step : Step) :
    (step.withDest dest).op = step.op := by
  cases step <;> rfl

@[simp] theorem withDest_withDest (dest dest' : Address) (step : Step) :
    (step.withDest dest).withDest dest' = step.withDest dest' := by
  cases step <;> rfl

@[simp] theorem computes_withDest (dest : Address) (step : Step) :
    (step.withDest dest).computes = step.computes := by
  cases step with
  | unary _ op _ => cases op <;> rfl
  | _ => rfl

theorem withDest_of_dest (h : step.dest? = some dest) : step.withDest dest = step := by
  cases step with
  | unary | binary =>
      cases h
      rfl
  | _ => rfl

/-- A step that computes a value is a negation or has two operands. -/
theorem computes_cases (h : step.computes = true) :
    (∃ dest arg, step = unary dest .neg arg) ∨
      ∃ dest op left right, step = binary dest op left right := by
  cases step with
  | unary dest op arg =>
      cases op with
      | neg => exact .inl ⟨dest, arg, rfl⟩
      | _ => cases h
  | binary dest op left right => exact .inr ⟨dest, op, left, right, rfl⟩
  | _ => cases h

theorem dest_withDest (h : step.computes = true) : (step.withDest dest).dest? = some dest := by
  obtain ⟨d, arg, rfl⟩ | ⟨d, op, left, right, rfl⟩ := computes_cases h
  · rfl
  · rfl

theorem isCopy_of_computes (h : step.computes = true) : step.isCopy = false := by
  obtain ⟨d, arg, rfl⟩ | ⟨d, op, left, right, rfl⟩ := computes_cases h
  · rfl
  · rfl

theorem window_of_computes (h : step.computes = true) : step.window? = none := by
  obtain ⟨d, arg, rfl⟩ | ⟨d, op, left, right, rfl⟩ := computes_cases h
  · rfl
  · rfl

theorem marker_of_computes (h : step.computes = true) : step.marker = .condensed := by
  obtain ⟨d, arg, rfl⟩ | ⟨d, op, left, right, rfl⟩ := computes_cases h
  · rfl
  · rfl

theorem ne_neutral_of_computes (h : step.computes = true) : step ≠ neutral := by
  rintro rfl
  cases h

end Step

namespace Listing

/-- What is computed is written to a temporary of its own. -/
def Fresh (l : Listing) : Prop :=
  ∀ (k : Nat) (step : Step) (t : Int16), l.steps[k]? = some step → step.computes = true →
    step.dest?.map Address.id = some t → ¬ IsParam l.params t ∧ t ∉ l.names k

variable {l : Listing} {step : Step} {k n temps : Nat} {t : Int16}

/-- A listing in the making. Its temporaries have the numbers below `temps`, and
those that names own are ready and are passed by no call. -/
structure Growing (pool functions procedures temps : Nat) (owned : Int16 → Prop)
    (l : Listing) : Prop where
  params_le : l.params ≤ temps
  temps_le : temps ≤ numberLimit
  legal : ∀ (k : Nat) (step : Step), l.steps[k]? = some step →
    step.Legal pool functions procedures
  written : ∀ (k : Nat) (t : Int16), l.writes? k = some t → numberOf t < temps
  read : ∀ (k : Nat) (t : Int16), t ∈ l.reads k → IsParam l.params t ∨ t ∈ l.names k
  window : ∀ (k : Nat) (step : Step) (n : Nat), l.steps[k]? = some step →
    step.window? = some n → l.Window k n
  owned : ∀ t, owned t → numberOf t < temps ∧ l.Known t ∧ ¬ l.Passes true t
  fresh : l.Fresh

variable {pool functions procedures : Nat} {owned : Int16 → Prop}

namespace Growing

theorem ready_of_owned (h : Growing pool functions procedures temps owned l) (mine : owned t) :
    l.Ready t :=
  ⟨(h.owned t mine).2.1, fun passes => (h.owned t mine).2.2 passes.any⟩

theorem number_lt_of_known (h : Growing pool functions procedures temps owned l)
    (known : l.Known t) : numberOf t < temps := by
  rcases known with param | named
  · exact Nat.lt_of_lt_of_le param h.params_le
  · suffices each : ∀ k, t ∈ l.names k → numberOf t < temps from each _ named
    intro k
    induction k with
    | zero => simp [names_zero]
    | succ k ih =>
        intro named
        cases found : l.steps[k]? with
        | none =>
            have le := List.getElem?_eq_none_iff.1 found
            rw [names_of_le (Nat.le_succ_of_le le), ← names_of_le le] at named
            exact ih named
        | some here =>
            rw [names_succ found, mem_addName] at named
            rcases named with before | ⟨-, dest⟩
            · exact ih before
            · exact h.written k t (by rw [writes?, found]; exact dest)

theorem mono {pool' functions' temps' : Nat}
    (h : Growing pool functions procedures temps owned l) (le : pool ≤ pool')
    (le' : functions ≤ functions') (more : temps ≤ temps') (limit : temps' ≤ numberLimit) :
    Growing pool' functions' procedures temps' owned l where
  params_le := Nat.le_trans h.params_le more
  temps_le := limit
  legal k step found := (h.legal k step found).mono le le'
  written k t writes := Nat.lt_of_lt_of_le (h.written k t writes) more
  read := h.read
  window := h.window
  owned t mine := ⟨Nat.lt_of_lt_of_le (h.owned t mine).1 more, (h.owned t mine).2⟩
  fresh := h.fresh

/-- Another choice of the temporaries that are owned. -/
theorem own {owned' : Int16 → Prop} (h : Growing pool functions procedures temps owned l)
    (each : ∀ t, owned' t → owned t ∨ (numberOf t < temps ∧ l.Known t ∧ ¬ l.Passes true t)) :
    Growing pool functions procedures temps owned' l :=
  { h with owned := fun t mine => (each t mine).elim (h.owned t) id }

/-- The new step writes a temporary that no window holds. -/
theorem writes_apart (h : Growing pool functions procedures temps owned l)
    (dest : ∀ t, step.dest?.map Address.id = some t → temps ≤ numberOf t ∨ owned t) {i : Nat}
    (passes : l.Passes true t) (writes : l.writes? i = some t) :
    step.dest?.map Address.id ≠ some t := by
  intro same
  rcases dest t same with fresh | mine
  · have before := h.written i t writes
    omega
  · exact (h.owned t mine).2.2 passes

/-- A window stays one when a step is added behind its call. -/
theorem window_snoc (h : Growing pool functions procedures temps owned l) {here : Step}
    (found : l.steps[k]? = some here) (passes : here.window? = some n)
    (dest : ∀ t, step.dest?.map Address.id = some t → temps ≤ numberOf t ∨ owned t)
    (reads : ∀ t ∈ (l.snoc step).reads l.steps.length, ¬ l.Passes false t) :
    (l.snoc step).Window k n := by
  have inside := (List.getElem?_eq_some_iff.1 found).1
  obtain ⟨positive, le, copies, rest⟩ := h.window k here n found passes
  refine ⟨positive, le, fun i low high => ?_, fun i t low high writes => ?_⟩
  · obtain ⟨t, a, copy, param, once⟩ := copies i low high
    have writes : l.writes? i = some t := by rw [writes?, copy]; rfl
    refine ⟨t, a, (getElem?_snoc (Nat.lt_trans high inside)).trans copy, param,
      fun q same => ?_⟩
    rcases Nat.lt_or_eq_of_le (Nat.le_of_lt_succ (length_snoc ▸ lt_of_writes? same)) with lt | rfl
    · exact once q ((writes?_snoc lt).symm.trans same)
    · rw [writes?_snoc_length] at same
      exact absurd same (h.writes_apart dest
        ⟨k, here, n, i, found, passes, by rw [if_pos rfl]; exact low, high, writes⟩ writes)
  · rw [writes?_snoc (Nat.lt_trans high inside)] at writes
    rintro ⟨q, behind, read⟩
    rcases Nat.lt_or_eq_of_le (Nat.le_of_lt_succ (length_snoc ▸ lt_of_mem_reads read)) with lt | rfl
    · exact rest i t low high writes ⟨q, behind, reads_snoc lt ▸ read⟩
    · exact reads t read
        ⟨k, here, n, i, found, passes, by rw [if_neg (by decide)]; exact low, high, writes⟩

/-- Adds a step. It may write one new temporary or one that is owned. -/
theorem snoc {temps' : Nat} (h : Growing pool functions procedures temps owned l)
    (more : temps ≤ temps') (limit : temps' ≤ numberLimit)
    (legal : step.Legal pool functions procedures)
    (dest : ∀ t, step.dest?.map Address.id = some t →
      (temps ≤ numberOf t ∧ numberOf t < temps') ∨ owned t)
    (computes : step.computes = true → ∀ t, step.dest?.map Address.id = some t →
      temps ≤ numberOf t)
    (reads : ∀ t ∈ (l.snoc step).reads l.steps.length, l.Ready t)
    (window : ∀ n, step.window? = some n → (l.snoc step).Window l.steps.length n ∧
      ∀ i t, l.steps.length - n ≤ i → i < l.steps.length → l.writes? i = some t → ¬ owned t) :
    Growing pool functions procedures temps' owned (l.snoc step) where
  params_le := Nat.le_trans h.params_le more
  temps_le := limit
  legal k here found := by
    rcases getElem?_snoc_some found with ⟨-, found⟩ | ⟨-, rfl⟩
    · exact h.legal k here found
    · exact legal
  written k t writes := by
    rcases Nat.lt_or_eq_of_le (Nat.le_of_lt_succ (length_snoc ▸ lt_of_writes? writes)) with lt | rfl
    · exact Nat.lt_of_lt_of_le (h.written k t ((writes?_snoc lt).symm.trans writes)) more
    · rw [writes?_snoc_length] at writes
      rcases dest t writes with fresh | mine
      · exact fresh.2
      · exact Nat.lt_of_lt_of_le (h.owned t mine).1 more
  read k t read := by
    rcases Nat.lt_or_eq_of_le (Nat.le_of_lt_succ (length_snoc ▸ lt_of_mem_reads read)) with lt | rfl
    · rw [names_snoc (Nat.le_of_lt lt)]
      exact h.read k t (reads_snoc lt ▸ read)
    · rw [names_snoc (Nat.le_refl _)]
      exact (reads t read).1
  window k here n found passes := by
    rcases getElem?_snoc_some found with ⟨-, found⟩ | ⟨rfl, rfl⟩
    · exact h.window_snoc found passes (fun t same => (dest t same).imp_left And.left)
        fun t read => (reads t read).2
    · exact (window n passes).1
  owned t mine := by
    obtain ⟨lt, known, apart⟩ := h.owned t mine
    refine ⟨Nat.lt_of_lt_of_le lt more, known.snoc, fun passes => ?_⟩
    rcases passes_of_snoc passes with before | ⟨n, i, called, low, high, writes⟩
    · exact apart before
    · rw [if_pos rfl] at low
      exact (window n called).2 i t low high writes mine
  fresh k here t found isNew writes := by
    rcases getElem?_snoc_some found with ⟨lt, found⟩ | ⟨rfl, rfl⟩
    · rw [params_snoc, names_snoc (Nat.le_of_lt lt)]
      exact h.fresh k here t found isNew writes
    · have above := computes isNew t writes
      rw [params_snoc, names_snoc (Nat.le_refl _)]
      refine ⟨fun param => ?_, fun named => ?_⟩
      · have below : numberOf t < l.params := param
        have params_le := h.params_le
        omega
      · have below := h.number_lt_of_known (.inr named)
        omega

/-- A temporary above all others is passed by no call. -/
theorem not_passes_of_le (h : Growing pool functions procedures temps owned l)
    (above : temps ≤ numberOf t) {first : Bool} : ¬ l.Passes first t := by
  rintro ⟨k, here, n, i, -, -, -, -, writes⟩
  have before := h.written i t writes
  omega

/-- The slots of a function are at most as many as its temporaries. -/
theorem room_le (h : Growing pool functions procedures temps owned l) :
    l.room l.steps.length ≤ temps := by
  have nodup : ((l.names l.steps.length).map numberOf).Nodup :=
    (nodup_names l l.steps.length).map_on fun t _ t' _ same => numberOf_inj same
  have inside : (l.names l.steps.length).map numberOf ⊆
      List.range' l.params (temps - l.params) := by
    intro x mem
    obtain ⟨t, named, rfl⟩ := List.mem_map.1 mem
    have above : ¬ numberOf t < l.params := not_isParam_of_mem_names named
    have below := h.number_lt_of_known (.inr named)
    rw [List.mem_range'_1]
    omega
  have length := (List.subperm_of_subset nodup inside).length_le
  rw [List.length_map, List.length_range'] at length
  have params_le := h.params_le
  rw [room]
  omega

end Growing

end Listing

end RegisterCode

import RegisterCode.Proofs.Code.Assembly
import RegisterCode.Proofs.Flow.Growing

/-!
One merge of a writer with the copy behind it, as condensing makes many: the value of
a temporary that is written once and read once goes straight to where the copy would
take it. A listing stays orderly.
-/

namespace RegisterCode

namespace Listing

/-- The listing with other steps at two positions. -/
def replaced (l : Listing) (origin position : Nat) (writer copy : Step) : Listing :=
  { l with steps := (l.steps.set position copy).set origin writer }

/-- The step at `origin` gives the temporary `middle` a value, which the step at
`position` copies to `dest`, and that is all that happens to `middle`. The way there
is straight, and neither step belongs to the window of a call. -/
structure Bypass (l : Listing) (origin position : Nat) (middle dest : Int16) (writer : Step) :
    Prop where
  lt : origin < position
  here : l.steps[origin]? = some writer
  gives : writer.dest? = some (.temp middle)
  copy : l.steps[position]? = some (.copy (.temp dest) (.temp middle))
  written : ∀ q, l.writes? q = some middle → q = origin
  read : ∀ (q : Nat) (step : Step), l.steps[q]? = some step → .temp middle ∈ step.args →
    q = position
  between : ∀ (q : Nat) (step : Step), origin < q → q < position → l.steps[q]? = some step →
    step.op.isCall = false ∧ ¬ step.marker.IsJump ∧ step ≠ .act .nop
  unpinned : ∀ (k : Nat) (step : Step) (n i : Nat), l.steps[k]? = some step →
    step.window? = some n → k - n ≤ i → i < k → i ≠ origin ∧ i ≠ position

/-- The two steps that take the place of the writer and of the copy. -/
inductive Rewrites (l : Listing) (origin position : Nat) (middle dest : Int16) (writer : Step) :
    Step → Step → Prop where
  /-- A copied value is copied from its origin instead, which must not change meanwhile. -/
  | forward {source : Address} (is : writer = .copy (.temp middle) source)
    (steady : ∀ (q : Nat) (t : Int16), source.temp? = some t → origin < q → q < position →
      l.writes? q ≠ some t) :
    Rewrites l origin position middle dest writer .neutral (.copy (.temp dest) source)
  /-- A computed value is computed into the destination, of which no step in between
  must know. -/
  | retarget (computes : writer.computes = true)
    (unwritten : ∀ q, origin < q → q < position → l.writes? q ≠ some dest)
    (unread : ∀ (q : Nat) (step : Step), origin < q → q < position → l.steps[q]? = some step →
      .temp dest ∉ step.args) :
    Rewrites l origin position middle dest writer (writer.withDest (.temp dest)) .neutral

variable {l : Listing} {origin position : Nat} {middle dest : Int16} {writer w c : Step}
  {k n q : Nat} {t : Int16} {step : Step}

/-! ### The steps of the new listing -/

theorem length_replaced :
    (l.replaced origin position w c).steps.length = l.steps.length := by
  simp [replaced]

theorem getElem?_replaced (first : q ≠ origin) (second : q ≠ position) :
    (l.replaced origin position w c).steps[q]? = l.steps[q]? := by
  simp [replaced, List.getElem?_set_ne (Ne.symm first), List.getElem?_set_ne (Ne.symm second)]

/-- What a call passes was written in its window. -/
theorem exists_of_mem_window (mem : t ∈ l.window k n) :
    ∃ i, k - n ≤ i ∧ i < k ∧ l.writes? i = some t := by
  obtain ⟨here, there, dest⟩ := List.mem_filterMap.1 mem
  obtain ⟨i, found⟩ := List.mem_iff_getElem?.1 there
  rw [List.getElem?_drop] at found
  have lt := (List.getElem?_eq_some_iff.1 found).1
  rw [List.length_take] at lt
  have inside : k - n + i < k := by omega
  rw [List.getElem?_take_of_lt inside] at found
  refine ⟨k - n + i, Nat.le_add_right _ _, inside, ?_⟩
  rw [writes?, found]
  exact dest

namespace Bypass

theorem getElem?_origin (h : l.Bypass origin position middle dest writer) :
    (l.replaced origin position w c).steps[origin]? = some w := by
  have inside := (List.getElem?_eq_some_iff.1 h.here).1
  simp [replaced, inside]

theorem getElem?_position (h : l.Bypass origin position middle dest writer) :
    (l.replaced origin position w c).steps[position]? = some c := by
  have inside := (List.getElem?_eq_some_iff.1 h.copy).1
  rw [replaced, List.getElem?_set_ne (Nat.ne_of_lt h.lt), List.getElem?_set_self inside]

/-- A step of the new listing is one of the two, or was there before. -/
theorem step_cases (h : l.Bypass origin position middle dest writer)
    (found : (l.replaced origin position w c).steps[q]? = some step) :
    (q = origin ∧ step = w) ∨ (q = position ∧ step = c) ∨
      (q ≠ origin ∧ q ≠ position ∧ l.steps[q]? = some step) := by
  by_cases first : q = origin
  · subst first
    rw [h.getElem?_origin] at found
    exact .inl ⟨rfl, (Option.some.inj found).symm⟩
  · by_cases second : q = position
    · subst second
      rw [h.getElem?_position] at found
      exact .inr (.inl ⟨rfl, (Option.some.inj found).symm⟩)
    · rw [getElem?_replaced first second] at found
      exact .inr (.inr ⟨first, second, found⟩)

theorem writes_origin (h : l.Bypass origin position middle dest writer) :
    l.writes? origin = some middle :=
  writes?_of_dest h.here h.gives

theorem writes_position (h : l.Bypass origin position middle dest writer) :
    l.writes? position = some dest :=
  writes?_of_dest h.copy rfl

theorem dest_ne (h : l.Bypass origin position middle dest writer) : dest ≠ middle := by
  intro same
  exact absurd (h.written position (same ▸ h.writes_position)) (Nat.ne_of_gt h.lt)

/-- The writer does not read what it writes. -/
theorem unread_origin (h : l.Bypass origin position middle dest writer) :
    .temp middle ∉ writer.args := fun mem =>
  absurd (h.read origin writer h.here mem) (Nat.ne_of_lt h.lt)

/-- The temporary that is bypassed is not passed by a call. -/
theorem notMem_window (h : l.Bypass origin position middle dest writer)
    (found : l.steps[k]? = some step) (window : step.window? = some n) :
    middle ∉ l.window k n := by
  intro mem
  obtain ⟨i, low, high, writes⟩ := exists_of_mem_window mem
  exact (h.unpinned k step n i found window low high).1 (h.written i writes)

end Bypass

/-! ### The two steps -/

namespace Rewrites

theorem window_none (h : l.Rewrites origin position middle dest writer w c) :
    w.window? = none ∧ c.window? = none := by
  cases h with
  | forward => exact ⟨rfl, rfl⟩
  | retarget computes =>
      exact ⟨Step.window_of_computes ((Step.computes_withDest _ writer).trans computes), rfl⟩

theorem marker (h : l.Rewrites origin position middle dest writer w c) :
    w.marker = .condensed ∧ c.marker = .condensed ∧ writer.marker = .condensed := by
  cases h with
  | forward is => exact ⟨rfl, rfl, is ▸ rfl⟩
  | retarget computes =>
      exact ⟨Step.marker_of_computes ((Step.computes_withDest _ writer).trans computes), rfl,
        Step.marker_of_computes computes⟩

/-- They read nothing that the writer did not read. -/
theorem args (h : l.Rewrites origin position middle dest writer w c) {a : Address} :
    (a ∈ w.args → a ∈ writer.args) ∧ (a ∈ c.args → a ∈ writer.args) := by
  cases h with
  | forward is => exact ⟨nofun, fun mem => is ▸ mem⟩
  | retarget computes =>
      refine ⟨fun mem => ?_, nofun⟩
      rwa [Step.args_withDest] at mem

theorem dests (h : l.Rewrites origin position middle dest writer w c) {a : Address} :
    (w.dest? = some a → a = .temp dest) ∧ (c.dest? = some a → a = .temp dest) := by
  cases h with
  | forward is =>
      refine ⟨nofun, fun same => ?_⟩
      cases same
      rfl
  | retarget computes =>
      refine ⟨fun same => ?_, nofun⟩
      rw [Step.dest_withDest computes] at same
      exact (Option.some.inj same).symm

/-- One of them writes the destination. -/
theorem writes (h : l.Rewrites origin position middle dest writer w c) :
    w.dest? = some (.temp dest) ∨ c.dest? = some (.temp dest) := by
  cases h with
  | forward => exact .inr rfl
  | retarget computes => exact .inl (Step.dest_withDest computes)

theorem legal {pool functions procedures : Nat}
    (h : l.Rewrites origin position middle dest writer w c)
    (legal : writer.Legal pool functions procedures) :
    w.Legal pool functions procedures ∧ c.Legal pool functions procedures := by
  cases h with
  | forward is =>
      subst is
      cases legal with
      | copy _ sound => exact ⟨.condensed, .copy _ sound⟩
  | retarget computes =>
      refine ⟨?_, .condensed⟩
      cases legal with
      | neg _ sound => exact .neg _ sound
      | binary _ op sound sound' => exact .binary _ op sound sound'
      | _ => cases computes

end Rewrites

/-! ### What the new listing writes and reads -/

section

variable (h : l.Bypass origin position middle dest writer)
  (rewrites : l.Rewrites origin position middle dest writer w c)

include h rewrites

theorem writes?_replaced (writes : (l.replaced origin position w c).writes? q = some t) :
    (t = dest ∧ (q = origin ∨ q = position)) ∨
      (q ≠ origin ∧ q ≠ position ∧ l.writes? q = some t) := by
  obtain ⟨step, found, writes⟩ := writes?_eq_some writes
  obtain ⟨a, dest', rfl⟩ := Option.map_eq_some_iff.1 writes
  rcases h.step_cases found with ⟨rfl, rfl⟩ | ⟨rfl, rfl⟩ | ⟨first, second, found⟩
  · exact .inl ⟨congrArg Address.id (rewrites.dests.1 dest'), .inl rfl⟩
  · exact .inl ⟨congrArg Address.id (rewrites.dests.2 dest'), .inr rfl⟩
  · exact .inr ⟨first, second, writes?_of_dest found dest'⟩

/-- Only what was written before is written. -/
theorem writes_of_replaced (writes : (l.replaced origin position w c).writes? q = some t) :
    t ≠ middle ∧ ∃ q', l.writes? q' = some t := by
  rcases writes?_replaced h rewrites writes with ⟨rfl, -⟩ | ⟨first, -, writes⟩
  · exact ⟨h.dest_ne, position, h.writes_position⟩
  · exact ⟨fun same => first (h.written q (same ▸ writes)), q, writes⟩

/-- What has a name keeps one, apart from the temporary that is bypassed. -/
theorem mem_names_replaced (mem : t ∈ l.names k) (other : t ≠ middle) :
    t ∈ (l.replaced origin position w c).names k := by
  obtain ⟨param, q, lt, writes⟩ := mem_names_iff.1 mem
  refine mem_names_iff.2 ⟨param, ?_⟩
  by_cases first : q = origin
  · subst first
    rw [h.writes_origin] at writes
    exact absurd (Option.some.inj writes).symm other
  · by_cases second : q = position
    · subst second
      rw [h.writes_position] at writes
      obtain rfl := Option.some.inj writes
      rcases rewrites.writes with dest | dest
      · exact ⟨origin, Nat.lt_trans h.lt lt, writes?_of_dest h.getElem?_origin dest⟩
      · exact ⟨q, lt, writes?_of_dest h.getElem?_position dest⟩
    · refine ⟨q, lt, ?_⟩
      rwa [writes?, getElem?_replaced first second]

theorem names_replaced_subset {k' : Nat} (le : l.steps.length ≤ k') :
    (l.replaced origin position w c).names k ⊆ l.names k' := by
  intro t mem
  obtain ⟨param, q, -, writes⟩ := mem_names_iff.1 mem
  obtain ⟨-, q', writes⟩ := writes_of_replaced h rewrites writes
  refine mem_names_iff.2 ⟨param, q', ?_, writes⟩
  exact Nat.lt_of_lt_of_le (lt_of_writes? writes) le

/-- The window of a call is what it was. -/
theorem window_replaced (found : (l.replaced origin position w c).steps[k]? = some step)
    (window : step.window? = some n) :
    l.steps[k]? = some step ∧ (l.replaced origin position w c).window k n = l.window k n := by
  have at_ : l.steps[k]? = some step := by
    rcases h.step_cases found with ⟨-, rfl⟩ | ⟨-, rfl⟩ | ⟨-, -, found⟩
    · rw [rewrites.window_none.1] at window
      cases window
    · rw [rewrites.window_none.2] at window
      cases window
    · exact found
  refine ⟨at_, congrArg (List.filterMap _) (List.ext_getElem? fun i => ?_)⟩
  rw [List.getElem?_drop, List.getElem?_drop]
  by_cases inside : k - n + i < k
  · obtain ⟨first, second⟩ := h.unpinned k step n _ at_ window (Nat.le_add_right _ _) inside
    rw [List.getElem?_take_of_lt inside, List.getElem?_take_of_lt inside]
    exact getElem?_replaced first second
  · rw [List.getElem?_take_eq_none (Nat.not_lt.1 inside),
      List.getElem?_take_eq_none (Nat.not_lt.1 inside)]

/-- What a step reads was read by the step before, or by the writer if its operand is
read at the copy now. -/
theorem reads_replaced (read : t ∈ (l.replaced origin position w c).reads q) :
    t ∈ l.reads q ∨ (q = position ∧ t ∈ l.reads origin) := by
  have writer_reads {a : Address} (mem : a ∈ writer.args) (temp : a.temp? = some t) :
      t ∈ l.reads origin := by
    refine mem_reads h.here ?_ mem t temp
    have gives := h.gives
    cases writer <;> first | rfl | cases gives
  unfold reads at read
  cases found : (l.replaced origin position w c).steps[q]? with
  | none =>
      rw [found] at read
      cases read
  | some step =>
      simp only [found] at read
      cases window : step.window? with
      | some n =>
          obtain ⟨at_, same⟩ := window_replaced h rewrites found window
          simp only [window, same] at read
          refine .inl ?_
          simp only [reads, at_, window]
          exact read
      | none =>
          simp only [window] at read
          obtain ⟨a, mem, temp⟩ := List.mem_filterMap.1 read
          rcases h.step_cases found with ⟨rfl, rfl⟩ | ⟨rfl, rfl⟩ | ⟨-, -, at_⟩
          · exact .inl (writer_reads (rewrites.args.1 mem) temp)
          · exact .inr ⟨rfl, writer_reads (rewrites.args.2 mem) temp⟩
          · exact .inl (mem_reads at_ window mem t temp)

/-- The temporary that is bypassed is not read any more. -/
theorem middle_unread : middle ∉ (l.replaced origin position w c).reads q := by
  intro read
  unfold reads at read
  cases found : (l.replaced origin position w c).steps[q]? with
  | none =>
      rw [found] at read
      cases read
  | some step =>
      simp only [found] at read
      cases window : step.window? with
      | some n =>
          obtain ⟨at_, same⟩ := window_replaced h rewrites found window
          simp only [window, same] at read
          exact h.notMem_window at_ window read
      | none =>
          simp only [window] at read
          obtain ⟨a, mem, temp⟩ := List.mem_filterMap.1 read
          obtain rfl : a = .temp middle := by
            unfold Address.temp? Address.isTemp at temp
            split at temp
            · rename_i space
              obtain ⟨_, id⟩ := a
              cases temp
              cases of_decide_eq_true space
              rfl
            · cases temp
          rcases h.step_cases found with ⟨-, rfl⟩ | ⟨-, rfl⟩ | ⟨-, second, at_⟩
          · exact h.unread_origin (rewrites.args.1 mem)
          · exact h.unread_origin (rewrites.args.2 mem)
          · exact second (h.read q step at_ mem)

theorem markers_replaced : (l.replaced origin position w c).markers = l.markers := by
  refine List.ext_getElem? fun q => ?_
  rw [markers, markers, List.getElem?_map, List.getElem?_map]
  by_cases first : q = origin
  · subst first
    rw [h.getElem?_origin, h.here, Option.map_some, Option.map_some, rewrites.marker.1,
      rewrites.marker.2.2]
  · by_cases second : q = position
    · subst second
      rw [h.getElem?_position, h.copy, Option.map_some, Option.map_some, rewrites.marker.2.1]
      rfl
    · rw [getElem?_replaced first second]

theorem landing_replaced : (l.replaced origin position w c).landing = l.landing := by
  funext jump
  rw [landing, landing, markers_replaced h rewrites]

/-- A listing stays orderly. -/
theorem Orderly.replaced {pool functions procedures : Nat}
    (orderly : l.Orderly pool functions procedures) :
    (l.replaced origin position w c).Orderly pool functions procedures where
  legal k step found := by
    have legal := rewrites.legal (orderly.legal origin writer h.here)
    rcases h.step_cases found with ⟨-, rfl⟩ | ⟨-, rfl⟩ | ⟨-, -, found⟩
    · exact legal.1
    · exact legal.2
    · exact orderly.legal k step found
  read q t read := by
    have other : t ≠ middle := fun same => middle_unread h rewrites (same ▸ read)
    have named : ∃ k ≤ q, IsParam l.params t ∨ t ∈ l.names k := by
      rcases reads_replaced h rewrites read with before | ⟨rfl, before⟩
      · exact ⟨q, Nat.le_refl _, orderly.read q t before⟩
      · exact ⟨origin, Nat.le_of_lt h.lt, orderly.read origin t before⟩
    obtain ⟨k, le, named⟩ := named
    refine named.imp_right fun named => ?_
    exact mem_names_replaced h rewrites ((names_isPrefix l le).subset named) other
  window k step n found window := by
    obtain ⟨at_, -⟩ := window_replaced h rewrites found window
    obtain ⟨positive, le, copies, rest⟩ := orderly.window k step n at_ window
    have apart : ∀ i, k - n ≤ i → i < k → i ≠ origin ∧ i ≠ position := fun i =>
      h.unpinned k step n i at_ window
    refine ⟨positive, le, fun i low high => ?_, fun i t low high writes => ?_⟩
    · obtain ⟨t, a, copy, param, once⟩ := copies i low high
      obtain ⟨first, second⟩ := apart i low high
      refine ⟨t, a, (getElem?_replaced first second).trans copy, param, fun q writes => ?_⟩
      rcases writes?_replaced h rewrites writes with ⟨rfl, -⟩ | ⟨-, -, writes⟩
      · exact absurd (once position h.writes_position).symm second
      · exact once q writes
    · obtain ⟨first, second⟩ := apart i (Nat.le_of_lt low) high
      rw [writes?, getElem?_replaced first second] at writes
      rintro ⟨q, behind, read⟩
      refine rest i t low high writes ?_
      rcases reads_replaced h rewrites read with before | ⟨rfl, before⟩
      · exact ⟨q, behind, before⟩
      · -- No call stands between the two steps.
        refine ⟨origin, Nat.not_lt.1 fun early => ?_, before⟩
        have plain : step.op.isCall = false := by
          rcases Nat.lt_or_eq_of_le (Nat.le_of_lt_succ early) with lt | same
          · exact (h.between k step lt behind at_).1
          · subst same
            rw [h.here] at at_
            cases at_
            have gives := h.gives
            cases writer <;> first | cases window | cases gives
        unfold Step.window? at window
        split at window
        · rename_i op _ count
          have plain : op.isCall = false := plain
          rw [plain] at window
          cases window
        · cases window
  room_le := by
    have fewer := (List.subperm_of_subset (nodup_names (l.replaced origin position w c)
      (l.replaced origin position w c).steps.length)
        (names_replaced_subset h rewrites (Nat.le_refl _))).length_le
    refine Nat.le_trans ?_ orderly.room_le
    exact Nat.add_le_add_left fewer l.params
  played := by
    rw [markers_replaced h rewrites]
    exact orderly.played
  saved := by
    rw [markers_replaced h rewrites]
    exact orderly.saved

end

end Listing

end RegisterCode

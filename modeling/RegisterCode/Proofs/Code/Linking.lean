import RegisterCode.Proofs.Code.Emission
import RegisterCode.Proofs.Code.Match
import RegisterCode.Proofs.Machine.Termination

/-!
From the code of single functions to programs: a program that is emitted from
orderly graphs is the code of their listings.
-/

namespace RegisterCode

/-- The listings of a bundle's graphs, with what a run of its program has besides. -/
def Bundle.chart (b : Bundle) (procedures : Array Procedure) : Chart :=
  ⟨b.graphs.toList.map Graph.listing, b.constants, procedures⟩

/-- A bundle of forward graphs with orderly listings. -/
structure Bundle.Orderly (b : Bundle) (procedures : Nat) : Prop where
  forward : ∀ g ∈ b.graphs, g.Forward
  orderly : ∀ g ∈ b.graphs,
    g.listing.Orderly b.constants.size b.graphs.size procedures

/-- Graphs that are all emitted, one chunk for each. -/
theorem emitGraphs_ok {constants : Nat} {gs : List Graph} {chunks chunks' : Array Chunk}
    {notes : Array Note} (h : (emitGraphs constants gs chunks notes).result = .ok chunks') :
    ∃ rest : List Chunk, chunks'.toList = chunks.toList ++ rest ∧ rest.length = gs.length ∧
      ∀ (i : Nat) (g : Graph), gs[i]? = some g → ∃ chunk, rest[i]? = some chunk ∧
        (g.emit constants (chunks.size + i)).result = .ok chunk := by
  induction gs generalizing chunks notes with
  | nil =>
      cases h
      exact ⟨[], by simp, rfl, by simp⟩
  | cons g gs ih =>
      rw [emitGraphs] at h
      cases emitted : (g.emit constants chunks.size).result with
      | error error =>
          rw [emitted] at h
          cases h
      | ok chunk =>
          rw [emitted] at h
          obtain ⟨rest, all, length, each⟩ := ih h
          refine ⟨chunk :: rest, ?_, by simp [length], fun i g' found => ?_⟩
          · rw [all]
            simp
          · cases i with
            | zero =>
                cases found
                exact ⟨chunk, rfl, emitted⟩
            | succ i =>
                obtain ⟨chunk', there, emitted'⟩ := each i g' found
                refine ⟨chunk', there, ?_⟩
                rw [Array.size_push, Nat.add_right_comm] at emitted'
                exact emitted'

/-- The error of a graph that is not emitted is the error of them all. -/
theorem emitGraphs_error {constants : Nat} {gs : List Graph} {chunks : Array Chunk}
    {notes : Array Note} {error : EmissionError}
    (h : (emitGraphs constants gs chunks notes).result = .error error) :
    ∃ (i : Nat) (g : Graph), gs[i]? = some g ∧
      (g.emit constants (chunks.size + i)).result = .error error := by
  induction gs generalizing chunks notes with
  | nil => cases h
  | cons g gs ih =>
      rw [emitGraphs] at h
      cases emitted : (g.emit constants chunks.size).result with
      | error error' =>
          rw [emitted] at h
          cases h
          exact ⟨0, g, rfl, emitted⟩
      | ok chunk =>
          rw [emitted] at h
          obtain ⟨i, g', found, failed⟩ := ih h
          rw [Array.size_push, Nat.add_right_comm] at failed
          exact ⟨i + 1, g', found, failed⟩

/-- Graphs that can all be emitted are emitted. -/
theorem emitGraphs_of_all {constants : Nat} {gs : List Graph}
    (h : ∀ g ∈ gs, ∀ func, ∃ chunk, (g.emit constants func).result = .ok chunk)
    (chunks : Array Chunk) (notes : Array Note) :
    ∃ chunks', (emitGraphs constants gs chunks notes).result = .ok chunks' := by
  induction gs generalizing chunks notes with
  | nil => exact ⟨chunks, rfl⟩
  | cons g gs ih =>
      obtain ⟨chunk, emitted⟩ := h g List.mem_cons_self chunks.size
      rw [emitGraphs, emitted]
      exact ih (fun g' mem => h g' (List.mem_cons_of_mem _ mem)) _ _

variable {b : Bundle} {program : Program} {procedures : Nat}

/-- What the program of a bundle consists of. -/
theorem ofBundle_ok (h : Program.ofBundle b = .ok program) :
    program.constants = b.constants ∧ program.entry = b.main.map UInt64.ofNat ∧
      program.chunks.size = b.graphs.size ∧
      ∀ (f : Nat) (g : Graph), b.graphs[f]? = some g → ∃ chunk, program.chunks[f]? = some chunk ∧
        (g.emit b.constants.size f).result = .ok chunk := by
  rw [Program.ofBundle, Bundle.emit] at h
  dsimp only at h
  cases emitted : (emitGraphs b.constants.size b.graphs.toList #[] #[]).result with
  | error error =>
      rw [emitted] at h
      cases h
  | ok chunks =>
      rw [emitted] at h
      cases h
      obtain ⟨rest, all, length, each⟩ := emitGraphs_ok emitted
      have same : chunks.toList = rest := all
      refine ⟨rfl, rfl, ?_, fun f g found => ?_⟩
      · rw [← Array.length_toList, same, length, Array.length_toList]
      · obtain ⟨chunk, there, emitted'⟩ := each f g (by rw [Array.getElem?_toList]; exact found)
        refine ⟨chunk, ?_, ?_⟩
        · rw [← same, Array.getElem?_toList] at there
          exact there
        · simpa using emitted'

/-- A bundle is emitted when all its graphs can be. -/
theorem ofBundle_of_all
    (h : ∀ g ∈ b.graphs, ∀ func, ∃ chunk, (g.emit b.constants.size func).result = .ok chunk) :
    ∃ program, Program.ofBundle b = .ok program := by
  obtain ⟨chunks, emitted⟩ :=
    emitGraphs_of_all (fun g mem => h g (Array.mem_toList_iff.1 mem)) #[] #[]
  rw [Program.ofBundle, Bundle.emit]
  dsimp only
  rw [emitted]
  exact ⟨_, rfl⟩

/-- A bundle that is not emitted has a graph that is not. -/
theorem ofBundle_error {error : EmissionError} (h : Program.ofBundle b = .error error) :
    ∃ (f : Nat) (g : Graph), b.graphs[f]? = some g ∧
      (g.emit b.constants.size f).result = .error error := by
  rw [Program.ofBundle, Bundle.emit] at h
  dsimp only at h
  cases emitted : (emitGraphs b.constants.size b.graphs.toList #[] #[]).result with
  | ok chunks =>
      rw [emitted] at h
      cases h
  | error error' =>
      rw [emitted] at h
      cases h
      obtain ⟨f, g, found, failed⟩ := emitGraphs_error emitted
      rw [Array.getElem?_toList] at found
      refine ⟨f, g, found, ?_⟩
      simpa using failed

/-! ### Orderly bundles -/

namespace Bundle

/-- A marker of the function has to store this instruction index. -/
def Patches (b : Bundle) (func index : Nat) : Prop :=
  ∃ g k, b.graphs[func]? = some g ∧ g.listing.Patches k index

/-- An orderly bundle is emitted if and only if all indices that its markers have to
store are in range. Otherwise such an index is reported that is not. -/
theorem Orderly.emission (orderly : b.Orderly procedures) :
    ((∃ program, Program.ofBundle b = .ok program) ↔
      ∀ func index, b.Patches func index → index < numberRange) ∧
    ∀ error, Program.ofBundle b = .error error →
      ∃ func index, b.Patches func index ∧ numberRange ≤ index ∧
        error = .operandOverflow func index := by
  have reported : ∀ error, Program.ofBundle b = .error error →
      ∃ func index, b.Patches func index ∧ numberRange ≤ index ∧
        error = .operandOverflow func index := by
    intro error failed
    obtain ⟨f, g, found, failed⟩ := ofBundle_error failed
    have mem := Array.mem_of_getElem? found
    rcases emit_cases f (orderly.forward g mem) (orderly.orderly g mem) with
      ⟨chunk, emitted, -⟩ | ⟨k, index, patches, -, far, emitted⟩
    · rw [emitted] at failed
      cases failed
    · rw [emitted] at failed
      cases failed
      exact ⟨f, index, ⟨g, k, found, patches⟩, far, rfl⟩
  refine ⟨⟨fun ⟨program, emitted⟩ f index ⟨g, k, found, patches⟩ => ?_, fun near => ?_⟩, reported⟩
  · obtain ⟨-, -, -, chunks⟩ := ofBundle_ok emitted
    obtain ⟨chunk, -, emitted⟩ := chunks f g found
    have mem := Array.mem_of_getElem? found
    obtain ⟨jump, target, landed, rfl⟩ := patches.lands (orderly.orderly g mem)
    exact (assembled_of_emit (orderly.forward g mem) (orderly.orderly g mem) emitted).landing
      jump target landed
  · cases emitted : Program.ofBundle b with
    | ok program => exact ⟨program, rfl⟩
    | error error =>
        obtain ⟨func, index, patches, far, -⟩ := reported error emitted
        exact absurd (near func index patches) (Nat.not_lt.2 far)

/-- A bundle of short functions is emitted. -/
theorem Orderly.ofBundle_eq {b : Bundle} {procedures : Nat} (orderly : b.Orderly procedures)
    (short : ∀ g ∈ b.graphs, g.listing.place g.listing.steps.length ≤ numberRange) :
    Program.ofBundle b =
      .ok ⟨b.graphs.map fun g => g.listing.chunk, b.constants, b.main.map UInt64.ofNat⟩ := by
  obtain ⟨⟨chunks, constants, entry⟩, emitted⟩ := ofBundle_of_all fun g mem func =>
    emit_of_near func (orderly.forward g mem) (orderly.orderly g mem) fun _ _ landed =>
      Listing.near_of_short (orderly.orderly g mem) (short g mem) landed
  obtain ⟨rfl, rfl, size, each⟩ := ofBundle_ok emitted
  rw [emitted]
  congr 2
  refine Array.ext (size.trans Array.size_map.symm) fun f lt lt' => ?_
  have inside : f < b.graphs.size := by rwa [Array.size_map] at lt'
  have mem := Array.getElem_mem inside
  obtain ⟨chunk, here, emitted⟩ := each f _ (Array.getElem?_eq_getElem inside)
  obtain ⟨_, same⟩ := Array.getElem?_eq_some_iff.1 here
  rw [Array.getElem_map]
  exact same.trans ((assembled_of_emit (orderly.forward _ mem) (orderly.orderly _ mem)
    emitted).eq_chunk (orderly.orderly _ mem))

end Bundle

namespace Listing

variable {l : Listing} {pool functions procedures : Nat}

/-- All jumps of the code lead ahead. -/
theorem Assembled.forward (orderly : l.Orderly pool functions procedures) {chunk : Chunk}
    (h : l.Assembled chunk) {q : Nat} {i : Instruction} (here : chunk[q]? = some i)
    {target : Int16} (jumps : i.target? = some (.immediate target)) :
    q < target.toNatClampNeg := by
  obtain ⟨k, step, j, found, rfl, code⟩ := h.origin orderly here
  have ahead (isJump : step.marker.IsJump) (first : j = 0)
      (target_eq : l.target k = .immediate target) (width : step.width = 1) :
      l.place k + j < target.toNatClampNeg := by
    obtain ⟨-, place, -, same, -, small, le⟩ := h.target_eq orderly found isJump
    rw [target_eq] at same
    cases same
    rw [place_succ found] at le
    rw [Machine.toNatClampNeg_ofNat_of_small small]
    omega
  have mem := List.mem_of_getElem? code
  have other {ops : List Instruction} (mem : i ∈ ops) (none : ∀ i ∈ ops, i.target? = none) :
      l.place k + j < target.toNatClampNeg := by
    rw [none i mem] at jumps
    cases jumps
  have single {i' : Instruction} (code : [i'][j]? = some i) : j = 0 ∧ i = i' := by
    cases j with
    | zero => exact ⟨rfl, (Option.some.inj code).symm⟩
    | succ j => simp at code
  cases orderly.legal k step found with
  | jump =>
      obtain ⟨first, rfl⟩ := single code
      rw [Instruction.target?_jump] at jumps
      exact ahead (.inl rfl) first (Option.some.inj jumps) rfl
  | jumpElse =>
      obtain ⟨first, rfl⟩ := single code
      rw [Instruction.target?_jumpElse] at jumps
      exact ahead (.inr rfl) first (Option.some.inj jumps) rfl
  | @neg t a =>
      refine other mem fun i mem => ?_
      rw [Listing.code] at mem
      split at mem
      · obtain rfl := List.mem_singleton.1 mem
        rfl
      · rcases List.mem_pair.1 mem with rfl | rfl <;> rfl
  | binary =>
      refine other mem fun i mem => ?_
      simp only [Listing.code, List.mem_cons, List.not_mem_nil, or_false] at mem
      rcases mem with rfl | rfl | rfl | rfl <;> rfl
  | copy | nop | ret | call | nativeCall =>
      obtain ⟨-, rfl⟩ := single code
      cases jumps
  | _ => simp [Listing.code] at code

end Listing

/-- The jumps of a program that is emitted lead forward. -/
theorem forward_of_ofBundle (orderly : b.Orderly procedures)
    (emitted : Program.ofBundle b = .ok program) : program.Forward := by
  obtain ⟨-, -, size, chunks⟩ := ofBundle_ok emitted
  intro func place i target fetched jumps
  obtain ⟨chunk, found, here⟩ := Option.bind_eq_some_iff.1 fetched
  have lt : func < b.graphs.size := size ▸ (Array.getElem?_eq_some_iff.1 found).1
  have mem := Array.getElem_mem lt
  obtain ⟨chunk', found', emitted⟩ := chunks func _ (Array.getElem?_eq_getElem lt)
  rw [found] at found'
  cases found'
  exact (assembled_of_emit (orderly.forward _ mem) (orderly.orderly _ mem) emitted).forward
    (orderly.orderly _ mem) here jumps

/-- A program that is emitted is the code of the listings. -/
theorem linked_of_ofBundle {s : Setting} (orderly : b.Orderly s.procedures.size)
    (lawful : s.Lawful) (emitted : Program.ofBundle b = .ok s.program) :
    Linked s (b.chart s.procedures) := by
  obtain ⟨constants, -, size, chunks⟩ := ofBundle_ok emitted
  have length : (b.chart s.procedures).listings.length = b.graphs.size := by
    simp [Bundle.chart]
  refine ⟨constants, rfl, lawful, size.trans length.symm, fun l mem => ?_, fun f l found => ?_⟩
  · obtain ⟨g, mem', rfl⟩ := List.mem_map.1 mem
    rw [length]
    exact orderly.orderly g (Array.mem_toList_iff.1 mem')
  · simp only [Bundle.chart, List.getElem?_map, Array.getElem?_toList] at found
    obtain ⟨g, there, rfl⟩ := Option.map_eq_some_iff.1 found
    obtain ⟨chunk, here, emitted'⟩ := chunks f g there
    have mem := Array.mem_of_getElem? there
    exact ⟨chunk, here, assembled_of_emit (orderly.forward g mem) (orderly.orderly g mem) emitted'⟩

end RegisterCode

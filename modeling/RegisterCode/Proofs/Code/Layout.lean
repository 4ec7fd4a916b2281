import RegisterCode.Proofs.Code.Accepted
import RegisterCode.Proofs.Flow.Condensation
import RegisterCode.Proofs.Flow.Numbering
import RegisterCode.Proofs.Flow.Routes
import RegisterCode.Proofs.Flow.Shrinking

/-!
How the code of a function is laid out: block after block in the order of their numbers,
with every jump leading to the beginning of the block that its edge leads to. Without
condensing, each temporary is held in the register of its number.
-/

namespace RegisterCode

namespace Graph

/-- The place in the code where a block begins. -/
def start (g : Graph) (id : Nat) : Nat := g.listing.place (g.offset id)

/-- The instructions of a block. -/
def blockCode (g : Graph) (id : Nat) : List Instruction :=
  ((g.rows.getD id []).zipIdx (g.offset id)).flatMap fun (step, k) => g.listing.code k step

/-- The steps of a graph before step `k` are emitted, and this is the emitter then. -/
def Reaches (g : Graph) (f : EmissionContext) (k : Nat) (e : Emitter) : Prop :=
  (g.steps.take k).forM (Emitter.emitStep f) (Emitter.start g.paramCount) = .ok () e

/-- The code is that of the blocks, one after the other. -/
theorem chunk_eq_blocks (g : Graph) :
    g.listing.chunk.toList = (List.range g.blocks.size).flatMap g.blockCode := by
  suffices all : ∀ n, (((g.rows.take n).flatten.zipIdx).flatMap fun (step, k) =>
      g.listing.code k step) = (List.range n).flatMap g.blockCode by
    rw [← all, List.take_of_length_le (Nat.le_of_eq g.length_rows), ← steps_eq_flatten]
    rfl
  intro n
  induction n with
  | zero => rfl
  | succ n ih =>
      rw [List.range_succ, List.flatMap_append, List.flatMap_singleton, ← ih, List.take_add_one,
        List.flatten_append, List.zipIdx_append, List.flatMap_append, Nat.zero_add]
      congr 1
      rw [blockCode, List.getD_eq_getElem?_getD, offset]
      cases g.rows[n]? <;> simp

/-! ### Emission, block by block -/

section

variable {g : Graph} {f : EmissionContext} {functions procedures k : Nat}

/-- A graph that is emitted has its steps emitted, the first `k` of them in particular. -/
theorem reaches_of_emit (forward : g.Forward) {func constants : Nat} {chunk : Chunk}
    (emitted : (g.emit constants func).result = .ok chunk) (k : Nat) :
    ∃ e, g.Reaches ⟨func, g.paramCount, constants⟩ k e := by
  rw [emit, emitLaidOut_eq forward] at emitted
  have steps : g.listing.steps = g.steps.take k ++ g.steps.drop k :=
    (List.take_append_drop k g.steps).symm
  rw [steps, forM_append] at emitted
  cases run : (g.steps.take k).forM (Emitter.emitStep ⟨func, g.paramCount, constants⟩)
      (Emitter.start g.paramCount) with
  | ok _ e => exact ⟨e, run⟩
  | error error e =>
      rw [bind_of_error (bind_of_error run)] at emitted
      cases emitted

/-- Behind the first `k` steps the emitter has their code, and knows the slots of the
temporaries that they name. -/
theorem Reaches.emitting (suits : Suits f g.listing)
    (orderly : g.listing.Orderly f.constants functions procedures) (le : k ≤ g.steps.length)
    {e : Emitter} (reaches : g.Reaches f k e) :
    ∃ p, Patching.start.play (g.listing.markers.take k) = some p ∧ Emitting g.listing k p e := by
  induction k generalizing e with
  | zero =>
      cases reaches
      exact ⟨_, rfl, emitting_start⟩
  | succ k ih =>
      have found : g.listing.steps[k]? = some g.steps[k] := List.getElem?_eq_getElem le
      rw [Reaches, List.take_succ_eq_append_getElem le, forM_append] at reaches
      obtain ⟨_, e', before, last⟩ := bind_eq_ok_iff.1 reaches
      rw [forM_cons] at last
      obtain ⟨_, e'', emitted, done⟩ := bind_eq_ok_iff.1 last
      cases done
      obtain ⟨p, played, emitting⟩ := ih (Nat.le_of_lt le) before
      have marker : g.listing.markers[k]? = some g.steps[k].marker := by
        rw [Listing.markers, List.getElem?_map, found]
        rfl
      obtain ⟨p', next, -⟩ := orderly.played
      rw [← List.take_append_drop (k + 1) g.listing.markers, Patching.play_append] at next
      obtain ⟨p', played', -⟩ := Option.bind_eq_some_iff.1 next
      refine ⟨p', played', ?_⟩
      rw [List.take_add_one, marker, Option.toList_some, Patching.play_snoc, played] at played'
      have emits := emits_step suits orderly (Patching.played played) emitting found played'
      rwa [emitted] at emits

end

/-! ### Condensing keeps the shape of a graph -/

/-- The edges of the blocks and how many steps they have. -/
def shape (g : Graph) : Array (Option BlockId × Option BlockId × Nat) :=
  g.blocks.map fun b => (b.truthy, b.falsy, b.steps.size)

theorem InPlace.shape {g g' : Graph} (h : g.InPlace g') : g'.shape = g.shape := by
  refine Array.ext_getElem? fun id => ?_
  rw [Graph.shape, Graph.shape, Array.getElem?_map, Array.getElem?_map]
  cases found : g.blocks[id]? with
  | none =>
      rw [Array.getElem?_eq_none_iff, ← h.size, ← Array.getElem?_eq_none_iff] at found
      rw [found]
  | some b =>
      obtain ⟨b', found', becomes⟩ := h.exists_block found
      rw [found', Option.map_some, Option.map_some, becomes.truthy, becomes.falsy, becomes.size]

theorem shape_condense? {g g' : Graph} {n : Nat} (h : g.condense? = some (g', n)) :
    g'.shape = g.shape := by
  obtain ⟨⟨middles, rewrites, -⟩, -⟩ := passed_condense? h
  exact rewrites.spec.1.shape

theorem Charted.of_shape {g g' : Graph} {body : Stmt} (h : g.Charted body)
    (shape : g'.shape = g.shape) (markers : g'.listing.markers = g.listing.markers) :
    g'.Charted body := by
  refine h.congr ?_ ?_ markers
  · have edges := congrArg (Array.map fun entry => (entry.1, entry.2.1)) shape
    rwa [Graph.shape, Graph.shape, Array.map_map, Array.map_map] at edges
  · have lengths := congrArg (fun entries => entries.toList.map fun entry => entry.2.2) shape
    simpa [Graph.shape, rows, Function.comp_def] using lengths

/-! ### Code that is laid out -/

/-- An instruction of the block `id` leads to the block `next`: its target is the place of
the first instruction of that block, which lies ahead and does nothing. -/
structure Leads (g : Graph) (chunk : Chunk) (q id next : Nat) (target : Operand) : Prop where
  inside : g.start id ≤ q ∧ q < g.start (id + 1)
  target : target = .immediate (Int16.ofNat (g.start next))
  near : g.start next < numberRange
  ahead : q < g.start next
  begins : (g.blockCode next).head? = some (.nonary .nop)
  there : chunk[g.start next]? = some (.nonary .nop)

/-- The code of a graph is that of its blocks. -/
structure LaidOut (g : Graph) (f : EmissionContext) (chunk : Chunk) : Prop where
  /-- Every block is visited, once and in its turn. -/
  order : g.layOut = ⟨Array.range g.blocks.size, none⟩
  code : chunk.toList = (List.range g.blocks.size).flatMap g.blockCode
  /-- When a block is emitted, the code has been emitted up to where the block begins. -/
  starts : ∀ id ≤ g.blocks.size, ∃ e, g.Reaches f (g.offset id) e ∧ e.code.size = g.start id
  jumpElse : ∀ (q : Nat) (i : Instruction), chunk[q]? = some i → i.op = .jumpElse →
    ∃ id b next x target, g.blocks[id]? = some b ∧ b.falsy = some next ∧
      i = .binary .jumpElse x target ∧ g.Leads chunk q id next target
  jump : ∀ (q : Nat) (i : Instruction), chunk[q]? = some i → i.op = .jump →
    ∃ id b next target, g.blocks[id]? = some b ∧ b.truthy = some next ∧ b.falsy = none ∧
      i = .unary .jump target ∧ g.Leads chunk q id next target

/-- Every temporary has the register of its number: that is where the emitter looks it up,
whichever steps have been emitted, and where it is in all instructions. -/
structure KeepsNumbers (g : Graph) (f : EmissionContext) : Prop where
  slots : ∀ (k : Nat) (e : Emitter), k ≤ g.steps.length → g.Reaches f k e →
    ∀ (t : Int16) (n : Nat), e.slots[t]? = some n → n = t.toUInt16.toNat
  operand : ∀ step ∈ g.steps, ∀ a : Address, (step.dest? = some a ∨ a ∈ step.args) →
    a.isTemp = true → 0 ≤ a.id ∧ g.listing.operand a = .register a.id

end Graph

namespace Listing

variable {l : Listing} {k j pool functions procedures : Nat} {step : Step} {i : Instruction}

/-- Which steps have a jump in their code: it is all of their code, and leads where the
step does. -/
theorem jump_cases (legal : step.Legal pool functions procedures)
    (here : (l.code k step)[j]? = some i) :
    (i.op ≠ .jump ∧ i.op ≠ .jumpElse) ∨
      j = 0 ∧ step.width = 1 ∧
        ((step.marker = .jump ∧ i = .unary .jump (l.target k)) ∨
          step.marker = .jumpElse ∧ ∃ x, i = .binary .jumpElse x (l.target k)) := by
  have other (each : ∀ i ∈ l.code k step, i.op ≠ .jump ∧ i.op ≠ .jumpElse) :
      i.op ≠ .jump ∧ i.op ≠ .jumpElse := each i (List.mem_of_getElem? here)
  have single {i' : Instruction} (code : l.code k step = [i']) : j = 0 ∧ i' = i := by
    rw [code, List.getElem?_singleton] at here
    split at here
    · rename_i zero
      exact ⟨zero, Option.some.inj here⟩
    · cases here
  cases legal with
  | jump =>
      obtain ⟨zero, same⟩ := single rfl
      exact .inr ⟨zero, rfl, .inl ⟨rfl, same.symm⟩⟩
  | jumpElse sound =>
      obtain ⟨zero, same⟩ := single rfl
      exact .inr ⟨zero, rfl, .inr ⟨rfl, _, same.symm⟩⟩
  | neg t sound =>
      refine .inl (other ?_)
      rw [code]
      split <;> simp [Instruction.unary, Instruction.binary, Instruction.make]
  | copy | binary | ret | call | nativeCall | nop | savePatch | shufflePatch | patchJump |
    patchJumpElse | condensed =>
      refine .inl (other ?_)
      simp [code, Instruction.nonary, Instruction.unary, Instruction.binary, Instruction.make]

/-- The temporaries that steps mention are known. -/
theorem known_of_mentions (orderly : l.Orderly pool functions procedures) (mem : step ∈ l.steps)
    {a : Address} (mentions : step.dest? = some a ∨ a ∈ step.args) (temp : a.isTemp = true) :
    l.Known a.id := by
  obtain ⟨k, found⟩ := List.mem_iff_getElem?.1 mem
  rcases mentions with writes | read
  · exact known_of_named (named_of_writes (writes?_of_dest found writes))
  · rw [Draft.eq_temp_of_isTemp temp] at read
    exact known_of_named (orderly.read k a.id (orderly.reads_of_mem_args found read))

end Listing

namespace Graph

variable {g : Graph} {chunk : Chunk} {body : Stmt} {id next k functions procedures constants : Nat}
  {step : Step}

theorem head_blockCode (holds : g.Holds next (g.offset next))
    (nop : g.steps[g.offset next]? = some (.act .nop)) :
    (g.blockCode next).head? = some (.nonary .nop) := by
  obtain ⟨row, j, found, lt, same⟩ := holds.exists_row
  obtain rfl : j = 0 := by omega
  rw [← Nat.add_zero (g.offset next), steps_offset found lt] at nop
  rw [blockCode, List.getD_eq_getElem?_getD, found, Option.getD_some]
  cases row with
  | nil => cases nop
  | cons step rest =>
      cases nop
      rfl

/-- A jump leads to the block that it lands on. -/
theorem LandsOn.leads (lands : g.LandsOn k next)
    (orderly : g.listing.Orderly constants functions procedures)
    (assembled : g.listing.Assembled chunk) (holds : g.Holds id k)
    (found : g.listing.steps[k]? = some step) (width : step.width = 1) :
    g.Leads chunk (g.listing.place k) id next (g.listing.target k) := by
  obtain ⟨landing, begun⟩ := lands
  obtain ⟨ahead, nop⟩ := orderly.landing_spec landing
  have behind : g.listing.place (k + 1) = g.listing.place k + 1 := by
    rw [Listing.place_succ found, width]
  exact {
    inside := by
      have le := g.listing.place_mono holds.1
      have le' := g.listing.place_mono (show k + 1 ≤ g.offset (id + 1) from holds.2)
      exact ⟨le, by rw [start]; omega⟩
    target := by
      rw [Listing.target, landing]
      rfl
    near := assembled.landing k _ landing
    ahead := by
      have le := g.listing.place_mono (show k + 1 ≤ g.offset next from ahead)
      rw [start]
      omega
    begins := head_blockCode begun nop
    there := assembled.code _ _ nop 0 _ rfl }

/-- A graph that is emitted is laid out. -/
theorem Charted.laidOut (charted : g.Charted body) (forward : g.Forward)
    (orderly : g.listing.Orderly constants functions procedures) {func : Nat}
    (emitted : (g.emit constants func).result = .ok chunk) :
    g.LaidOut ⟨func, g.paramCount, constants⟩ chunk := by
  have assembled := assembled_of_emit forward orderly emitted
  have origin {q : Nat} {i : Instruction} (here : chunk[q]? = some i)
      (jumps : i.op = .jump ∨ i.op = .jumpElse) :
      ∃ id b k step, g.blocks[id]? = some b ∧ g.Holds id k ∧
        g.listing.steps[k]? = some step ∧ g.listing.markers[k]? = some step.marker ∧
        q = g.listing.place k ∧ step.width = 1 ∧
        ((step.marker = .jump ∧ i = .unary .jump (g.listing.target k)) ∨
          step.marker = .jumpElse ∧ ∃ x, i = .binary .jumpElse x (g.listing.target k)) := by
    obtain ⟨k, step, j, found, rfl, code⟩ := assembled.origin orderly here
    obtain ⟨id, lt, holds⟩ := exists_holds (List.getElem?_eq_some_iff.1 found).1
    rcases Listing.jump_cases (orderly.legal k step found) code with
      ⟨other, other'⟩ | ⟨rfl, width, cases⟩
    · exact (jumps.elim other other').elim
    · refine ⟨id, _, k, step, Array.getElem?_eq_getElem lt, holds, found, ?_, rfl, width, cases⟩
      rw [Listing.markers, List.getElem?_map, found]
      rfl
  refine ⟨forward.layOut_eq, ?_, fun id _ => ?_, fun q i here op => ?_, fun q i here op => ?_⟩
  · rw [assembled.eq_chunk orderly]
    exact g.chunk_eq_blocks
  · obtain ⟨e, reaches⟩ := reaches_of_emit forward emitted (g.offset id)
    obtain ⟨_, -, emitting⟩ := reaches.emitting ⟨rfl⟩ orderly (g.offset_le id)
    exact ⟨e, reaches, emitting.size⟩
  · obtain ⟨id, b, k, step, at_, holds, found, marker, rfl, width, ⟨-, rfl⟩ | ⟨jump, x, rfl⟩⟩ :=
      origin here (.inr op)
    · cases op
    · rw [jump] at marker
      obtain ⟨next, falsy, lands⟩ := charted.landing_jumpElse at_ holds marker
      exact ⟨id, b, next, x, _, at_, falsy, rfl,
        lands.leads orderly assembled holds found width⟩
  · obtain ⟨id, b, k, step, at_, holds, found, marker, rfl, width, ⟨jump, rfl⟩ | ⟨-, x, rfl⟩⟩ :=
      origin here (.inl op)
    · rw [jump] at marker
      obtain ⟨next, truthy, falsy, lands⟩ := charted.landing_jump at_ holds marker
      exact ⟨id, b, next, _, at_, truthy, falsy, rfl,
        lands.leads orderly assembled holds found width⟩
    · cases op

theorem keepsNumbers {f : EmissionContext} (suits : Suits f g.listing)
    (orderly : g.listing.Orderly f.constants functions procedures)
    (numbered : ∀ t, g.listing.Known t → g.listing.slot t = numberOf t) : g.KeepsNumbers f where
  slots k e le reaches t n found := by
    obtain ⟨_, -, emitting⟩ := reaches.emitting suits orderly le
    obtain ⟨named, rfl⟩ := (emitting.slotted.slots t n).1 found
    exact numbered t (Listing.known_of_named (.inr named))
  operand step mem a mentions temp := by
    have known := Listing.known_of_mentions orderly mem mentions temp
    have small : g.listing.slot a.id < numberLimit :=
      Nat.lt_of_lt_of_le (Listing.slot_lt_room_all known) orderly.room_le
    have same : Int16.ofNat (g.listing.slot a.id) = a.id :=
      numberOf_inj (by rw [numberOf_ofNat small, numbered a.id known])
    refine ⟨same ▸ Machine.zero_le_ofNat_of_small (orderly.slot_lt known), ?_⟩
    have space : a.space = .temp := by simpa [Address.isTemp] using temp
    rw [Listing.operand, space]
    exact congrArg Operand.register same

end Graph

variable {procedures : Registry} {sources : Array String} {forest : List SourceUnit}
  {b b' : Bundle}

/-- The graphs of both variants are as the bodies of the functions say. -/
theorem Graph.charted_of_variant (accepted : Bundle.ofForest procedures sources forest = .ok b)
    (variant : b.Variant b') {i : Nat} {g' : Graph} (at_ : b'.graphs[i]? = some g') :
    ∃ body, g'.Charted body := by
  obtain ⟨size, charted⟩ := charted_of_ofForest accepted
  have plain {g : Graph} (at_ : b.graphs[i]? = some g) : ∃ body, g.Charted body := by
    have lt : i < (declarations sources forest).length := by
      rw [← size]
      exact (Array.getElem?_eq_some_iff.1 at_).1
    exact ⟨_, charted i _ g (List.getElem?_eq_getElem lt) at_⟩
  cases variant with
  | plain => exact plain at_
  | condensed =>
      have compiled : b.Compiled 65536 :=
        Draft.compiled_of_ofForest (fun _ id _ => id.toNat_lt) accepted
      have graphs : b.condense.bundle.graphs =
          b.graphs.map fun g => (g.condense?.map Prod.fst).getD g := by
        rw [Bundle.condense]
        simp
      rw [graphs, Array.getElem?_map] at at_
      obtain ⟨g, found, rfl⟩ := Option.map_eq_some_iff.1 at_
      have mem := Array.mem_of_getElem? found
      obtain ⟨g', n, condensed, -, -, -, merges⟩ :=
        condense?_spec (compiled.forward g mem) (compiled.drawn g mem) (compiled.orderly g mem)
      obtain ⟨body, charted⟩ := plain found
      rw [condensed]
      exact ⟨body, charted.of_shape (shape_condense? condensed)
        (Listing.shrinks_of_merges merges).markers⟩

/-- The program of a forest that is accepted, condensed or not, has a chunk for each graph,
in which the blocks are laid out in the order of their numbers and every jump leads to the
block that its edge leads to. If it is not condensed, every temporary has the register of its
number. -/
theorem layout_of_accepted (accepted : Bundle.ofForest procedures sources forest = .ok b)
    (variant : b.Variant b') {program : Program} (emitted : Program.ofBundle b' = .ok program) :
    program.chunks.size = b'.graphs.size ∧
      ∀ (i : Nat) (g : Graph) (chunk : Chunk), b'.graphs[i]? = some g →
        program.chunks[i]? = some chunk →
          let f : EmissionContext := ⟨i, g.paramCount, b'.constants.size⟩
          g.LaidOut f chunk ∧ (b' = b → g.KeepsNumbers f) := by
  have orderly : b'.Orderly 65536 :=
    orderly_of_variant (fun _ id _ => id.toNat_lt) accepted variant
  obtain ⟨-, -, size, each⟩ := ofBundle_ok emitted
  refine ⟨size, fun i g chunk at_ at_' => ?_⟩
  obtain ⟨chunk', at_'', emitted⟩ := each i g at_
  rw [at_'] at at_''
  cases at_''
  have mem := Array.mem_of_getElem? at_
  obtain ⟨body, charted⟩ := Graph.charted_of_variant accepted variant at_
  refine ⟨charted.laidOut (orderly.forward g mem) (orderly.orderly g mem) emitted, ?_⟩
  rintro rfl
  exact Graph.keepsNumbers ⟨rfl⟩ (orderly.orderly g mem) fun t known =>
    slot_of_ofForest accepted mem known

open Sample in
theorem layout_of_sample :
    Bundle.ofForest (.ofTable Procedure.standard) #[text] Sample.forest = .ok bundle ∧
      bundle.Variant bundle ∧ Program.ofBundle bundle = .ok program ∧
      ∃ g chunk, bundle.graphs[1]? = some g ∧ program.chunks[1]? = some chunk ∧
        (∃ i ∈ chunk, i.op = .jumpElse) ∧ g.LaidOut ⟨1, g.paramCount, bundle.constants.size⟩ chunk ∧
        g.KeepsNumbers ⟨1, g.paramCount, bundle.constants.size⟩ := by
  obtain ⟨laidOut, numbers⟩ := (layout_of_accepted accepted .plain emitted).2 1 _ _ rfl rfl
  exact ⟨accepted, .plain, emitted, _, _, rfl, rfl, by decide, laidOut, numbers rfl⟩

end RegisterCode

import Mathlib
import RegisterCode.Proofs.Code.RoundTrip

/-!
An image that is cut short is no image (`ofBytes_of_prefix`). A reader never looks past
the bytes it was given without saying so: either it ran into their end, or whatever
stands behind them makes no difference to it (`InOrder`). So a part of an image that was
read as a program would leave nothing over for the rest of the image to be.
-/

namespace RegisterCode

namespace Image

variable {α β : Type}

/-- What reading gives when more bytes stand behind those it was given. -/
def followedBy (back : List UInt8) :
    Except Defect (α × List UInt8) → Except Defect (α × List UInt8)
  | .ok (x, rest) => .ok (x, rest ++ back)
  | .error d => .error d

/-- The reader takes byte after byte: it comes to the end too early, or bytes that stand
behind change nothing. -/
def InOrder (read : Reader α) : Prop :=
  ∀ front, read front = .error .endOfBytes ∨
    ∀ back, read (front ++ back) = followedBy back (read front)

namespace InOrder

theorem pure (x : α) : InOrder (pure x) := fun _ => .inr fun _ => rfl

theorem throw (d : Defect) : InOrder (throw d : Reader α) := fun _ => .inr fun _ => rfl

theorem bind {read : Reader α} {k : α → Reader β} (h : InOrder read)
    (h' : ∀ x, InOrder (k x)) : InOrder (read >>= k) := by
  have apply (bytes : List UInt8) :
      (read >>= k) bytes = (read bytes).bind fun (x, rest) => k x rest := rfl
  intro front
  simp only [apply]
  rcases h front with short | same
  · rw [short]
    exact .inl rfl
  cases first : read front with
  | error d =>
      simp only [first] at same
      exact .inr fun back => by rw [same back]; rfl
  | ok p =>
      obtain ⟨x, rest⟩ := p
      simp only [first] at same
      rcases h' x rest with short | same'
      · exact .inl short
      · refine .inr fun back => ?_
        rw [same back]
        exact same' back

theorem map {read : Reader α} (h : InOrder read) (f : α → β) :
    InOrder (read >>= fun x => Pure.pure (f x)) :=
  h.bind fun x => .pure (f x)

theorem ite {c : Prop} [Decidable c] {read read' : Reader α} (h : InOrder read)
    (h' : InOrder read') : InOrder (if c then read else read') := by
  split
  · exact h
  · exact h'

/-- The reader does not take a part of some bytes for all of them. -/
theorem endOfBytes {read : Reader α} (h : InOrder read) {front back : List UInt8} {x : α}
    (whole : read (front ++ back) = .ok (x, [])) (more : back ≠ []) :
    read front = .error .endOfBytes := by
  refine (h front).resolve_right fun same => more ?_
  rw [same back] at whole
  cases part : read front with
  | error d =>
      rw [part] at whole
      cases whole
  | ok p =>
      rw [part] at whole
      have none : p.2 ++ back = [] := by injection whole with pair; exact congrArg Prod.snd pair
      exact (List.append_eq_nil_iff.1 none).2

end InOrder

/-! ### The parts of the format -/

theorem readByte_inOrder : InOrder readByte := by
  intro front
  cases front with
  | nil => exact .inl rfl
  | cons b rest => exact .inr fun _ => rfl

theorem readVarint_inOrder (w : Width) : InOrder (readVarint w) := by
  have many (n : Nat) : InOrder (readVarintBytes w.lastByte n) := by
    induction n with
    | zero => exact .throw _
    | succ n ih =>
        refine readByte_inOrder.bind fun b => .ite ?_ (ih.map _)
        exact .ite (.throw _) (.pure _)
  exact many w.bytes

theorem readBits_inOrder (n : Nat) : InOrder (readBits n) := by
  induction n with
  | zero => exact .pure 0
  | succ n ih => exact readByte_inOrder.bind fun b => ih.map _

theorem readFlag_inOrder (defect : Defect) : InOrder (readFlag defect) :=
  readByte_inOrder.bind fun _ => .ite (.pure _) (.ite (.pure _) (.throw _))

theorem readOpcode_inOrder : InOrder readOpcode := by
  refine (readVarint_inOrder _).bind fun n => ?_
  cases Opcode.ofIndex? n with
  | some op => exact .pure op
  | none => exact .throw _

theorem readInt16_inOrder : InOrder readInt16 := (readVarint_inOrder _).map _

theorem readInstruction_inOrder : InOrder readInstruction :=
  readOpcode_inOrder.bind fun _ => readInt16_inOrder.bind fun _ => readInt16_inOrder.bind fun _ =>
    readInt16_inOrder.bind fun _ => (readVarint_inOrder _).map _

theorem readValue_inOrder : InOrder readValue := by
  refine (readVarint_inOrder _).bind fun variant => ?_
  split
  · exact .pure _
  · exact (readFlag_inOrder _).map _
  · exact (readVarint_inOrder _).map _
  · exact (readBits_inOrder 8).map _
  · exact (readVarint_inOrder _).map _
  · exact .throw _

theorem readRow_inOrder {item : Reader α} (h : InOrder item) : InOrder (readRow item) := by
  have many (n : Nat) (read : Array α) : InOrder (readMany item n read) := by
    induction n generalizing read with
    | zero => exact .pure read
    | succ n ih => exact h.bind fun x => ih (read.push x)
  exact (readVarint_inOrder _).bind fun n => many n #[]

theorem readEntry_inOrder : InOrder readEntry :=
  (readFlag_inOrder _).bind fun _ => .ite ((readVarint_inOrder _).map _) (.pure _)

theorem readBody_inOrder : InOrder readBody :=
  (readRow_inOrder (readRow_inOrder readInstruction_inOrder)).bind fun _ =>
    (readRow_inOrder readValue_inOrder).bind fun _ => readEntry_inOrder.map _

end Image

/-- A program's image that ends too early is not read as a program, wherever it was cut:
within the mark, it is no image; behind the mark, more bytes are expected. -/
theorem ofBytes_of_prefix {p : Program} (stored : p.Stored) {bytes : List UInt8}
    (cut : bytes <+: p.toBytes) (short : bytes ≠ p.toBytes) :
    Program.ofBytes bytes =
      .error (if bytes.length < 4 then .badMark else .defect .endOfBytes) := by
  rw [Program.ofBytes]
  by_cases within : bytes.length < 4
  · have unmarked : bytes.take 4 ≠ Image.mark := by
      rw [List.take_of_length_le (Nat.le_of_lt within)]
      rintro rfl
      exact absurd within (by decide)
    rw [if_neg unmarked, if_pos within]
  · obtain ⟨back, whole⟩ := cut
    have behind : 4 ≤ bytes.length := Nat.not_lt.1 within
    have marked : bytes.take 4 = Image.mark := by
      rw [← List.take_append_of_le_length behind, whole]
      rfl
    have rest : bytes.drop 4 ++ back = Image.writeBody p := by
      rw [← List.drop_append_of_le_length behind, whole]
      rfl
    have more : back ≠ [] := by
      rintro rfl
      exact short (by rwa [List.append_nil] at whole)
    have all := readBody_recovers stored []
    rw [List.append_nil, ← rest] at all
    rw [if_pos marked, if_neg within, Image.readBody_inOrder.endOfBytes all more]

theorem ofBytes_of_prefix_extremes :
    Program.extremes.Stored ∧
      Program.ofBytes (Program.extremes.toBytes.take 3) = .error .badMark ∧
      Program.ofBytes (Program.extremes.toBytes.take 45) = .error (.defect .endOfBytes) := by
  have stored : Program.extremes.Stored :=
    ⟨by decide, by decide, by decide⟩
  have long : Program.extremes.toBytes.length = 74 := by cbv
  have short (n : Nat) (fewer : n < 74) :
      Program.extremes.toBytes.take n ≠ Program.extremes.toBytes := by
    intro same
    have length := congrArg List.length same
    rw [List.length_take, long, Nat.min_eq_left (Nat.le_of_lt fewer)] at length
    exact absurd fewer (Nat.not_lt.2 (Nat.le_of_eq length.symm))
  have three := ofBytes_of_prefix stored (List.take_prefix 3 _) (short 3 (by decide))
  have middle := ofBytes_of_prefix stored (List.take_prefix 45 _) (short 45 (by decide))
  rw [List.length_take, long] at three middle
  exact ⟨stored, three, middle⟩

end RegisterCode

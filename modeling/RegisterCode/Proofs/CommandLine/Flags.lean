import RegisterCode.CommandLine.Options

/-!
The two readings of a command line. The number of a flag is looked for behind the first occurrence
of the flag among the words (`numberIndex?`). The image is looked for by going through the arguments
from left to right, where the word behind a flag is passed over (`imagePlace?`). They differ on a
flag that is itself passed over, since it stands behind another one. A flag without its number is
refused, so that other flag was given before and has its number from there. Only then, or when the
program is called like a flag, can a word be a number and the image (`readsApart_of_accepted`).
-/

namespace RegisterCode.CommandLine

variable {words : List String} {bounds : Limits}

/-! ### The number of a flag -/

theorem numberIndex?_eq_some_iff {flag : String} {i : Nat} :
    numberIndex? words flag = some i ↔
      ∃ k, i = k + 1 ∧ words[k]? = some flag ∧ flag ∉ words.take k := by
  simp only [numberIndex?, Option.map_eq_some_iff]
  constructor
  · rintro ⟨k, first, rfl⟩
    obtain ⟨lt, at_, before⟩ := List.idxOf?_eq_some_iff.1 first
    refine ⟨k, rfl, List.getElem?_eq_some_iff.2 ⟨lt, at_⟩, fun mem => ?_⟩
    obtain ⟨j, small, same⟩ := List.mem_take_iff_getElem.1 mem
    exact before j (by omega) same
  · rintro ⟨k, rfl, at_, before⟩
    obtain ⟨lt, at_⟩ := List.getElem?_eq_some_iff.1 at_
    refine ⟨k, List.idxOf?_eq_some_iff.2 ⟨lt, at_, fun j small same => before ?_⟩, rfl⟩
    exact List.mem_take_iff_getElem.2 ⟨j, by omega, same⟩

/-- A flag is not a number. -/
theorem readWord?_of_flag {flag : String} (mem : flag ∈ valueFlags) :
    Text.readWord? flag = none := by
  simp only [valueFlags, List.mem_cons, List.not_mem_nil, or_false] at mem
  rcases mem with rfl | rfl | rfl | rfl <;> decide

/-- Two readings in a row succeed only if both of them do. -/
theorem ok_of_bind {α β : Type} {first : Except FlagError α} {next : α → Except FlagError β} {b : β}
    (ok : first >>= next = .ok b) : ∃ a, first = .ok a ∧ next a = .ok b := by
  cases first with
  | error e => cases ok
  | ok a => exact ⟨a, rfl, ok⟩

theorem number?_of_accepted (accepted : limits words = .ok bounds) {flag : String}
    (mem : flag ∈ valueFlags) : ∃ n, number? words flag = .ok n := by
  rw [limits] at accepted
  obtain ⟨registers, readRegisters, accepted⟩ := ok_of_bind accepted
  obtain ⟨operands, readOperands, accepted⟩ := ok_of_bind accepted
  obtain ⟨depth, readDepth, accepted⟩ := ok_of_bind accepted
  obtain ⟨steps, readSteps, -⟩ := ok_of_bind accepted
  simp only [valueFlags, List.mem_cons, List.not_mem_nil, or_false] at mem
  rcases mem with rfl | rfl | rfl | rfl
  · exact ⟨registers, readRegisters⟩
  · exact ⟨operands, readOperands⟩
  · exact ⟨depth, readDepth⟩
  · exact ⟨steps, readSteps⟩

/-- Where nothing is refused, a flag with another flag behind it was given before: its first
occurrence has a number behind it. -/
theorem repeated_of_accepted (accepted : limits words = .ok bounds) {flag next : String} {k : Nat}
    (at_ : words[k]? = some flag) (mem : flag ∈ valueFlags) (behind : words[k + 1]? = some next)
    (mem' : next ∈ valueFlags) : flag ∈ words.take k := by
  refine Decidable.byContradiction fun first => ?_
  have place : numberIndex? words flag = some (k + 1) :=
    numberIndex?_eq_some_iff.2 ⟨k, rfl, at_, first⟩
  obtain ⟨n, read⟩ := number?_of_accepted accepted mem
  simp only [number?, place, behind, readWord?_of_flag mem'] at read
  cases read

/-! ### The place of the image -/

/-- A flag right in front of the image was passed over, so there is another one in front of it. -/
theorem flag_before_image {args : List String} {k : Nat} {flag : String}
    (found : imageIndex? args = some (k + 1)) (at_ : args[k]? = some flag)
    (mem : flag ∈ valueFlags) :
    ∃ j other, k = j + 1 ∧ args[j]? = some other ∧ other ∈ valueFlags := by
  fun_induction imageIndex? args generalizing k with
  | case1 => cases found
  | case2 => cases found
  | case3 => cases found
  | case4 arg next rest takes ih =>
    -- Behind a flag the reading goes on two words further; the image may be the first of them.
    obtain ⟨k', found', same⟩ := Option.map_eq_some_iff.1 found
    obtain rfl : k = k' + 1 := by omega
    cases k' with
    | zero => exact ⟨0, arg, rfl, rfl, takes⟩
    | succ k' =>
      obtain ⟨j, other, rfl, there, mem'⟩ := ih found' at_
      exact ⟨j + 2, other, rfl, there, mem'⟩
  | case5 arg next rest takesNone dash ih =>
    obtain ⟨k', found', same⟩ := Option.map_eq_some_iff.1 found
    obtain rfl : k = k' := by omega
    cases k with
    | zero =>
      cases at_
      exact absurd mem takesNone
    | succ k =>
      obtain ⟨j, other, rfl, there, mem'⟩ := ih found' at_
      exact ⟨j + 1, other, rfl, there, mem'⟩
  | case6 => cases found

/-- The flag at this place has its number behind it, being the first of its kind, and yet can be
passed over on the way to the image: it is the name of the program, or it stands behind a flag that
was given before. -/
def PassedOver (words : List String) (k : Nat) : Prop :=
  (∃ flag ∈ valueFlags, words[k]? = some flag ∧ flag ∉ words.take k) ∧
    (k = 0 ∨ ∃ other ∈ valueFlags, words[k - 1]? = some other ∧ other ∈ words.take (k - 1))

instance (words : List String) (k : Nat) : Decidable (PassedOver words k) :=
  inferInstanceAs (Decidable (_ ∧ _))

/-- No flag is passed over where each is given at most once and none is the name of the program. -/
theorem not_passedOver {k : Nat}
    (once : ∀ flag ∈ valueFlags, words.head? ≠ some flag ∧ words.count flag ≤ 1) :
    ¬PassedOver words k := by
  rintro ⟨⟨flag, mem, at_, -⟩, rfl | ⟨other, mem', there, before⟩⟩
  · exact (once flag mem).1 (List.head?_eq_getElem?.trans at_)
  · have behind : other ∈ words.drop (k - 1) :=
      List.mem_of_getElem? (i := 0) (by rw [List.getElem?_drop, Nat.add_zero, there])
    have twice : words.count other =
        (words.take (k - 1)).count other + (words.drop (k - 1)).count other := by
      rw [← List.count_append, List.take_append_drop]
    have := List.count_pos_iff.2 before
    have := List.count_pos_iff.2 behind
    have := (once other mem').2
    omega

/-- A word is the number of a flag and the image only behind a flag that is passed over. -/
theorem passedOver_of_image (accepted : limits words = .ok bounds) {flag : String} {i : Nat}
    (mem : flag ∈ valueFlags) (number : numberIndex? words flag = some i)
    (image : imagePlace? words = some i) : ∃ k, i = k + 1 ∧ PassedOver words k := by
  obtain ⟨k, rfl, at_, first⟩ := numberIndex?_eq_some_iff.1 number
  refine ⟨k, rfl, ⟨flag, mem, at_, first⟩, ?_⟩
  cases words with
  | nil => cases at_
  | cons name args =>
    cases k with
    | zero => exact .inl rfl
    | succ k =>
      obtain ⟨k', found, same⟩ := Option.map_eq_some_iff.1 image
      obtain rfl : k' = k + 1 := by omega
      obtain ⟨j, other, rfl, there, mem'⟩ := flag_before_image found at_ mem
      exact .inr ⟨other, mem', there, repeated_of_accepted accepted there mem' at_ mem⟩

/-- No word is taken both for the number of a flag and for the image. -/
def ReadsApart (words : List String) : Prop :=
  ∀ flag ∈ valueFlags, ∀ i, numberIndex? words flag = some i → imagePlace? words ≠ some i

/-- In words that are accepted, the number of a flag is never taken for the image as well, unless
the image stands behind a flag that is passed over. So the readings are apart when no flag is given
twice or is the name of the program. -/
theorem readsApart_of_accepted (accepted : limits words = .ok bounds) :
    (ReadsApart words ↔ ∀ k, PassedOver words k → imagePlace? words ≠ some (k + 1)) ∧
      ((∀ flag ∈ valueFlags, words.head? ≠ some flag ∧ words.count flag ≤ 1) →
        ReadsApart words) := by
  refine ⟨⟨?_, ?_⟩, ?_⟩
  · rintro apart k ⟨⟨flag, mem, at_, first⟩, -⟩
    exact apart flag mem (k + 1) (numberIndex?_eq_some_iff.2 ⟨k, rfl, at_, first⟩)
  · intro apart flag mem i number image
    obtain ⟨k, rfl, passed⟩ := passedOver_of_image accepted mem number image
    exact apart k passed image
  · intro once flag mem i number image
    obtain ⟨k, -, passed⟩ := passedOver_of_image accepted mem number image
    exact not_passedOver once passed

/-- A flag may be given twice, if a number stands behind it each time. -/
theorem readsApart_of_repeated :
    limits ["minuet", "--depth", "2", "--depth", "3", "--steps", "9", "a.mnb"] =
        .ok { Limits.standard with depth := 2, steps := some 9 } ∧
      imagePlace? ["minuet", "--depth", "2", "--depth", "3", "--steps", "9", "a.mnb"] = some 7 ∧
      ReadsApart ["minuet", "--depth", "2", "--depth", "3", "--steps", "9", "a.mnb"] ∧
      limits ["minuet", "--steps", "9", "a.mnb"] = .ok { Limits.standard with steps := some 9 } ∧
      ReadsApart ["minuet", "--steps", "9", "a.mnb"] := by
  have accepted : limits ["minuet", "--depth", "2", "--depth", "3", "--steps", "9", "a.mnb"] =
      .ok { Limits.standard with depth := 2, steps := some 9 } := rfl
  have image : imagePlace? ["minuet", "--depth", "2", "--depth", "3", "--steps", "9", "a.mnb"] =
      some 7 := by
    simp [imagePlace?, imageIndex?, valueFlags]
  have accepted' : limits ["minuet", "--steps", "9", "a.mnb"] =
      .ok { Limits.standard with steps := some 9 } := rfl
  refine ⟨accepted, image, (readsApart_of_accepted accepted).1.2 fun k passed image' => ?_,
    accepted', (readsApart_of_accepted accepted').2 (by decide)⟩
  rw [image] at image'
  obtain rfl : k = 6 := by
    injection image' with same
    omega
  revert passed
  decide

/-- The second `--depth` has its number from the first, and `--registers` is passed over. -/
theorem number_is_image :
    limits ["minuet", "--depth", "1", "--depth", "--registers", "5"] =
        .ok { Limits.standard with registers := 5, depth := 1 } ∧
      numberIndex? ["minuet", "--depth", "1", "--depth", "--registers", "5"] "--registers" =
        some 5 ∧
      imagePlace? ["minuet", "--depth", "1", "--depth", "--registers", "5"] = some 5 := by
  refine ⟨rfl, by decide, ?_⟩
  simp [imagePlace?, imageIndex?, valueFlags]

end RegisterCode.CommandLine

import Mathlib.Combinatorics.Enumerative.DoubleCounting
import Mathlib.Data.Nat.Find
import RegisterCode.Proofs.Flow.Condensing

/-!
A condensed listing takes no more room than the listing before: no step has more
instructions (`Shrinks.width_le`), and no step writes a temporary of a higher slot
(`Shrinks.slot_le`).

A single merge may well use one slot more, since a parameter that is bypassed keeps its
slot. So it is the first listing and the last that are compared: what a merge moves forward
takes the place of a temporary that the first listing had for itself (`Listing.Fresh`).
-/

namespace RegisterCode

namespace Listing

/-- What has become of a step in the listing `l'`. -/
inductive Became (l' : Listing) : Step → Step → Prop where
  | same (step : Step) : Became l' step step
  | gone {step : Step} {a : Address} (dest : step.dest? = some a) : Became l' step .neutral
  | copied (t : Int16) (a a' : Address) : Became l' (.copy (.temp t) a) (.copy (.temp t) a')
  | moved {step : Step} {m : Int16} (t : Int16) (computes : step.computes = true)
    (dest : step.dest? = some (.temp m)) (never : ∀ q, l'.writes? q ≠ some m) :
    Became l' step (step.withDest (.temp t))

/-- What condensing keeps of a listing. -/
structure Shrinks (l l' : Listing) : Prop where
  params : l'.params = l.params
  markers : l'.markers = l.markers
  became : ∀ (k : Nat) (step' : Step), l'.steps[k]? = some step' →
    ∃ step, l.steps[k]? = some step ∧ Became l' step step'
  named : ∀ (k q : Nat) (t : Int16), t ∈ l.names k → l'.writes? q = some t → t ∈ l'.names k

variable {l l' : Listing} {k : Nat} {step step' : Step} {t t' : Int16}

theorem Became.computes (h : Became l' step step') (computes : step'.computes = true) :
    step.computes = true := by
  cases h with
  | same => exact computes
  | gone => cases computes
  | copied => cases computes
  | moved => assumption

theorem Shrinks.refl (l : Listing) : l.Shrinks l where
  params := rfl
  markers := rfl
  became _ step' found := ⟨step', found, .same step'⟩
  named _ _ _ mem _ := mem

theorem Shrinks.tail {l'' : Listing} (h : l.Shrinks l') (merges : Merges l' l'') :
    l.Shrinks l'' := by
  obtain ⟨bypass, rewrites⟩ := merges
  rename_i origin position middle dest writer w c
  have never {m : Int16} (never : ∀ q, l'.writes? q ≠ some m) (q : Nat) :
      (l'.replaced origin position w c).writes? q ≠ some m := fun writes => by
    obtain ⟨-, q', writes'⟩ := writes_of_replaced bypass rewrites writes
    exact never q' writes'
  have gone (q : Nat) : (l'.replaced origin position w c).writes? q ≠ some middle := fun writes =>
    (writes_of_replaced bypass rewrites writes).1 rfl
  have keeps {step step' : Step} (became : Became l' step step') :
      Became (l'.replaced origin position w c) step step' := by
    cases became with
    | same => exact .same _
    | gone dest => exact .gone dest
    | copied => exact .copied _ _ _
    | moved t computes dest never' => exact .moved t computes dest (never never')
  -- A copy has been a copy from the start.
  have copy {step : Step} {t : Int16} {a : Address} (became : Became l' step (.copy (.temp t) a)) :
      ∃ a', step = .copy (.temp t) a' := by
    generalize is : Step.copy (.temp t) a = step' at became
    cases became with
    | same => exact ⟨a, is.symm⟩
    | gone => cases is
    | copied t' a' =>
        cases is
        exact ⟨a', rfl⟩
    | @moved step m t' computes =>
        cases step with
        | unary d op a =>
            cases op with
            | nop => cases computes
            | _ => cases is
        | binary => cases is
        | _ => cases computes
  refine ⟨h.params, (markers_replaced bypass rewrites).trans h.markers, fun k step'' found => ?_,
    fun k q t mem writes => ?_⟩
  · rcases bypass.step_cases found with ⟨rfl, rfl⟩ | ⟨rfl, rfl⟩ | ⟨-, -, found⟩
    · obtain ⟨step, found, became⟩ := h.became _ writer bypass.here
      refine ⟨step, found, ?_⟩
      cases rewrites with
      | forward is =>
          subst is
          obtain ⟨a, rfl⟩ := copy became
          exact .gone rfl
      | retarget computes =>
          have computes' := became.computes computes
          cases became with
          | same => exact .moved dest computes bypass.gives gone
          | gone => cases computes
          | copied => cases computes
          | @moved _ m t' _ dest' never' =>
              have twice : (step.withDest (.temp t')).withDest (.temp dest) =
                  step.withDest (.temp dest) := by
                cases step <;> rfl
              rw [twice] at never ⊢
              exact .moved dest computes' dest' (never never')
    · obtain ⟨step, found, became⟩ := h.became _ _ bypass.copy
      refine ⟨step, found, ?_⟩
      obtain ⟨a, rfl⟩ := copy became
      cases rewrites with
      | forward => exact .copied _ _ _
      | retarget => exact .gone rfl
    · obtain ⟨step, found, became⟩ := h.became k step'' found
      exact ⟨step, found, keeps became⟩
  · obtain ⟨other, q', writes'⟩ := writes_of_replaced bypass rewrites writes
    exact mem_names_replaced bypass rewrites (h.named k q' t mem writes') other

theorem shrinks_of_merges (merges : Relation.ReflTransGen Merges l l') : l.Shrinks l' := by
  induction merges with
  | refl => exact .refl l
  | tail _ merge ih => exact ih.tail merge

namespace Shrinks

variable {pool functions procedures : Nat}

theorem length_eq (h : l.Shrinks l') : l'.steps.length = l.steps.length := by
  simpa [Listing.markers] using congrArg List.length h.markers

/-- What a step writes it wrote before, or it was computed to a temporary that is not used
any more. -/
theorem writes (h : l.Shrinks l') (writes : l'.writes? k = some t') :
    l.writes? k = some t' ∨ ∃ step m, l.steps[k]? = some step ∧ step.computes = true ∧
      step.dest?.map Address.id = some m ∧ ∀ q, l'.writes? q ≠ some m := by
  obtain ⟨step', found', dest'⟩ := writes?_eq_some writes
  obtain ⟨step, found, became⟩ := h.became k step' found'
  cases became with
  | same =>
      refine .inl ?_
      rw [writes?, found]
      exact dest'
  | gone => cases dest'
  | copied t a a' =>
      cases dest'
      exact .inl (writes?_of_dest found rfl)
  | @moved _ m t computes dest never =>
      exact .inr ⟨step, m, found, computes, by rw [dest]; rfl, never⟩

/-- No more slots are taken. -/
theorem room_le (h : l.Shrinks l') (fresh : l.Fresh) (k : Nat) : l'.room k ≤ l.room k := by
  -- What the first listing does not name here takes the place of what was written instead.
  let replaces (t' t : Int16) : Prop := t = t' ∨ ∃ q step, q < k ∧ l'.writes? q = some t' ∧
    l.steps[q]? = some step ∧ step.computes = true ∧ step.dest?.map Address.id = some t ∧
    ∀ q, l'.writes? q ≠ some t
  have card : (l'.names k).toFinset.card ≤ (l.names k).toFinset.card := by
    refine Finset.card_le_card_of_forall_subsingleton replaces (fun t' mem => ?_)
      fun t _ t1 mem1 t2 mem2 => ?_
    · have mem' := List.mem_toFinset.1 mem
      obtain ⟨param, q, lt, writes⟩ := mem_names_iff.1 mem'
      rw [h.params] at param
      rcases h.writes writes with before | ⟨step, m, found, computes, dest, never⟩
      · exact ⟨t', List.mem_toFinset.2 (mem_names_iff.2 ⟨param, q, lt, before⟩), .inl rfl⟩
      · refine ⟨m, List.mem_toFinset.2 (mem_names_iff.2 ⟨(fresh q step m found computes dest).1, q,
          lt, ?_⟩), .inr ⟨q, step, lt, writes, found, computes, dest, never⟩⟩
        rw [writes?, found]
        exact dest
    · have written {t' : Int16} (mem : t' ∈ (l'.names k).toFinset) : ∃ q, l'.writes? q = some t' :=
        (mem_names_iff.1 (List.mem_toFinset.1 mem)).2.imp fun _ h => h.2
      obtain ⟨mem1, replaces1⟩ := mem1
      obtain ⟨mem2, replaces2⟩ := mem2
      rcases replaces1 with rfl | ⟨q1, step1, lt1, writes1, found1, computes1, dest1, never1⟩
      · rcases replaces2 with same | ⟨-, -, -, -, -, -, -, never2⟩
        · exact same
        · obtain ⟨q, writes⟩ := written mem1
          exact absurd writes (never2 q)
      · rcases replaces2 with rfl | ⟨q2, step2, lt2, writes2, found2, computes2, dest2, -⟩
        · obtain ⟨q, writes⟩ := written mem2
          exact absurd writes (never1 q)
        · have early {q q' : Nat} {step step' : Step} (found : l.steps[q]? = some step)
              (dest : step.dest?.map Address.id = some t) (found' : l.steps[q']? = some step')
              (computes' : step'.computes = true)
              (dest' : step'.dest?.map Address.id = some t) : ¬ q < q' := fun lt => by
            obtain ⟨param, unnamed⟩ := fresh q' step' t found' computes' dest'
            refine unnamed (mem_names_iff.2 ⟨param, q, lt, ?_⟩)
            rw [writes?, found]
            exact dest
          have not_lt := early found1 dest1 found2 computes2 dest2
          have not_gt := early found2 dest2 found1 computes1 dest1
          obtain rfl : q1 = q2 := by omega
          rw [writes1] at writes2
          exact Option.some.inj writes2
  rw [List.toFinset_card_of_nodup (nodup_names l' k), List.toFinset_card_of_nodup (nodup_names l k)]
    at card
  rw [room, room, h.params]
  exact Nat.add_le_add_left card _

/-- A step writes no higher slot than before. -/
theorem slot_le (h : l.Shrinks l') (fresh : l.Fresh) (writes' : l'.writes? k = some t') :
    ∃ t, l.writes? k = some t ∧ l'.slot t' ≤ l.slot t := by
  rcases h.writes writes' with writes | ⟨step, m, found, computes, dest, never⟩
  · refine ⟨t', writes, ?_⟩
    by_cases param : IsParam l.params t'
    · rw [slot_of_isParam param]
      exact Nat.le_of_eq (slot_of_isParam (h.params ▸ param))
    · -- It has a name as early as before.
      have written : ∃ q, l.writes? q = some t' := ⟨k, writes⟩
      obtain ⟨step, found, dest⟩ := writes?_eq_some (Nat.find_spec written)
      have unnamed : t' ∉ l.names (Nat.find written) := fun mem => by
        obtain ⟨-, q, lt, writes⟩ := mem_names_iff.1 mem
        exact Nat.find_min written lt writes
      have named : t' ∈ l.names (Nat.find written + 1) :=
        mem_names_iff.2 ⟨param, _, Nat.lt_succ_self _, Nat.find_spec written⟩
      have below := slot_lt_room (.inr (h.named _ k t' named writes'))
      have room := h.room_le fresh (Nat.find written + 1)
      rw [room_succ_of_fresh found dest param unnamed, ← slot_of_fresh found dest param unnamed]
        at room
      omega
  · obtain ⟨param, unnamed⟩ := fresh k step m found computes dest
    refine ⟨m, by rw [writes?, found]; exact dest, ?_⟩
    have below := slot_lt_room (named_of_writes writes')
    have room := h.room_le fresh (k + 1)
    rw [room_succ_of_fresh found dest param unnamed, ← slot_of_fresh found dest param unnamed]
      at room
    omega

/-- A value that is negated to a temporary of its own is copied there first. -/
theorem neg_apart (fresh : l.Fresh) (orderly : l.Orderly pool functions procedures) {m : Int16}
    {a : Address} (found : l.steps[k]? = some (.unary (.temp m) .neg a)) :
    Address.temp m ≠ a := by
  rintro rfl
  obtain ⟨param, unnamed⟩ := fresh k _ m found rfl rfl
  rcases orderly.read k m (mem_reads found rfl List.mem_cons_self m rfl) with read | read
  · exact param read
  · exact unnamed read

/-- A step has no more instructions. -/
theorem width_le (h : l.Shrinks l') (fresh : l.Fresh)
    (orderly : l.Orderly pool functions procedures) (found : l.steps[k]? = some step)
    (found' : l'.steps[k]? = some step') : step'.width ≤ step.width := by
  obtain ⟨step₁, found₁, became⟩ := h.became k step' found'
  obtain rfl : step = step₁ := Option.some.inj (found.symm.trans found₁)
  cases became with
  | same => exact Nat.le_refl _
  | gone => exact Nat.zero_le _
  | copied => exact Nat.le_refl _
  | @moved _ m t computes dest never =>
      cases step with
      | unary d op a =>
          cases op with
          | neg =>
              obtain rfl : d = .temp m := Option.some.inj dest
              simp only [Step.withDest, Step.width, if_neg (neg_apart fresh orderly found)]
              split <;> omega
          | _ => cases computes
      | binary => exact Nat.le_refl _
      | _ => cases computes

/-- No place is further behind. -/
theorem place_le (h : l.Shrinks l') (fresh : l.Fresh)
    (orderly : l.Orderly pool functions procedures) (k : Nat) : l'.place k ≤ l.place k := by
  induction k with
  | zero => exact Nat.le_refl _
  | succ k ih =>
      have length := h.length_eq
      cases found : l.steps[k]? with
      | none =>
          have le := List.getElem?_eq_none_iff.1 found
          have le' : l'.steps.length ≤ k := by omega
          rw [place_of_le (Nat.le_succ_of_le le), place_of_le (Nat.le_succ_of_le le'),
            ← place_of_le le, ← place_of_le le']
          exact ih
      | some step =>
          have lt := (List.getElem?_eq_some_iff.1 found).1
          have found' := List.getElem?_eq_getElem (l := l'.steps) (i := k) (by omega)
          rw [place_succ found, place_succ found']
          exact Nat.add_le_add ih (h.width_le fresh orderly found found')

end Shrinks

end Listing

end RegisterCode

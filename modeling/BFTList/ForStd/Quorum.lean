import Mathlib.Algebra.GroupWithZero.Nat
import Mathlib.Data.Finset.Card
import Mathlib.Data.Fintype.Card

/-!
# Quorums among processors of which some are faulty

Counting lemmas for sets of processors. The set `faulty` is fixed; everything
else is about how many correct members a large set has, and about two large
sets sharing one.

## Key results

- `card_univ_le_add`: all correct processors are all but the faulty ones
- `exists_correct`: a set larger than `faulty` has a correct member
- `exists_correct_inter`: two large sets share a correct member
- `agree_of_unique`: two values with large vote sets are equal when correct
  processors vote at most once
-/

namespace Quorum

/-- Six processors are the fewest among which one may be faulty. -/
instance neZero_six : NeZero 6 := ⟨Nat.succ_ne_zero 5⟩

variable {ι : Type*} [DecidableEq ι] {faulty A B : Finset ι}

/-- Removing the faulty members costs at most `faulty.card`. -/
theorem card_le_card_sdiff_add (A faulty : Finset ι) :
    A.card ≤ (A \ faulty).card + faulty.card := by
  have h := Finset.card_sdiff_add_card_inter A faulty
  have hle := Finset.card_le_card (Finset.inter_subset_right : A ∩ faulty ⊆ faulty)
  omega

/-- A set that contains all correct processors misses at most the faulty ones. -/
theorem card_univ_le_add [Fintype ι] (h : ∀ i, i ∉ faulty → i ∈ A) :
    Fintype.card ι ≤ A.card + faulty.card := by
  have hle : (Finset.univ \ faulty).card ≤ A.card := by
    apply Finset.card_le_card
    intro i hi
    exact h i (Finset.mem_sdiff.mp hi).2
  have hcard := card_le_card_sdiff_add Finset.univ faulty
  rw [Finset.card_univ] at hcard
  omega

/-- A set larger than the faulty one has a correct member. -/
theorem exists_correct (h : faulty.card < A.card) : ∃ i ∈ A, i ∉ faulty := by
  have hle := card_le_card_sdiff_add A faulty
  have hpos : 0 < (A \ faulty).card := by omega
  obtain ⟨i, hi⟩ := Finset.card_pos.mp hpos
  exact ⟨i, Finset.mem_sdiff.mp hi⟩

/-- Two sets that together outnumber all processors and the faulty ones once
    more share a correct member. -/
theorem exists_correct_inter [Fintype ι]
    (h : Fintype.card ι + faulty.card < A.card + B.card) :
    ∃ i, i ∈ A ∧ i ∈ B ∧ i ∉ faulty := by
  have hunion : (A ∪ B).card ≤ Fintype.card ι := Finset.card_le_univ _
  have hinter := Finset.card_union_add_card_inter A B
  have hcard : faulty.card < (A ∩ B).card := by omega
  obtain ⟨i, hi, hc⟩ := exists_correct hcard
  obtain ⟨hA, hB⟩ := Finset.mem_inter.mp hi
  exact ⟨i, hA, hB, hc⟩

/-- Two values with large vote sets are equal when no correct processor votes
    for two of them. -/
theorem agree_of_unique [Fintype ι] {V : Type*} (vote : ι → V → Prop) {v w : V}
    (hA : ∀ i ∈ A, i ∉ faulty → vote i v) (hB : ∀ i ∈ B, i ∉ faulty → vote i w)
    (huniq : ∀ i, i ∉ faulty → vote i v → vote i w → v = w)
    (hcard : Fintype.card ι + faulty.card < A.card + B.card) : v = w := by
  obtain ⟨i, hiA, hiB, hi⟩ := exists_correct_inter hcard
  exact huniq i hi (hA i hiA hi) (hB i hiB hi)

end Quorum

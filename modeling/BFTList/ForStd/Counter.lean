import Mathlib.Algebra.BigOperators.Fin
import Mathlib.Algebra.Order.BigOperators.Group.Finset
import Mathlib.Data.List.Count

/-!
# Dictionaries used as counters

A Python dictionary that counts occurrences, `d[x] = d.get(x, 0) + 1`, as an
association list in insertion order, and the keys whose count reaches a
threshold.

## Key results

- `mem_counts`: the entries of `counts xs` are the elements of `xs` with their
  number of occurrences
- `mem_keysAtLeast`: `x` reaches the threshold iff it occurs often enough
- `length_mul_le`: distinct elements that occur often make a long list
- `count_flatMap_le`: with at most one occurrence in each of several lists, the
  occurrences are counted by lists
- `GenuineBeside.le_card`: the same for copies that stay below the threshold
-/

namespace Counter

variable {α : Type*} [DecidableEq α]

/-- Count one more occurrence of `x`; a new key goes to the end. -/
def tally : List (α × Nat) → α → List (α × Nat)
  | [], x => [(x, 1)]
  | (y, k) :: d, x => if y = x then (y, k + 1) :: d else (y, k) :: tally d x

/-- Number of occurrences of every element of `xs`, in order of first occurrence. -/
def counts (xs : List α) : List (α × Nat) := xs.foldl tally []

/-- Keys whose count is at least `t`. -/
def keysAtLeast (t : Int) (d : List (α × Nat)) : List α :=
  (d.filter (fun p => t ≤ p.2)).map Prod.fst

/-- The count stored for `x`, zero when `x` is no key. -/
def get (d : List (α × Nat)) (x : α) : Nat :=
  match d with
  | [] => 0
  | (y, k) :: d => if y = x then k else get d x

theorem get_tally (d : List (α × Nat)) (x y : α) :
    get (tally d x) y = get d y + if x = y then 1 else 0 := by
  induction d with
  | nil => simp [tally, get]
  | cons p d ih =>
    obtain ⟨z, k⟩ := p
    simp only [tally]
    split
    · rename_i hzx
      subst hzx
      simp only [get]
      split <;> simp_all
    · simp only [get]
      split
      · rename_i hzx hzy
        subst hzy
        rw [if_neg (Ne.symm hzx), Nat.add_zero]
      · exact ih

/-- Keys of `tally d x` are those of `d`, and `x`. -/
theorem mem_tally_keys (d : List (α × Nat)) (x y : α) :
    y ∈ (tally d x).map Prod.fst ↔ y ∈ d.map Prod.fst ∨ y = x := by
  induction d with
  | nil => simp [tally]
  | cons p d ih =>
    obtain ⟨z, k⟩ := p
    simp only [tally]
    split
    · rename_i hzx
      subst hzx
      simp only [List.map_cons, List.mem_cons]
      tauto
    · simp only [List.map_cons, List.mem_cons, ih]
      tauto

theorem tally_keys_nodup {d : List (α × Nat)} (h : (d.map Prod.fst).Nodup) (x : α) :
    ((tally d x).map Prod.fst).Nodup := by
  induction d with
  | nil => simp [tally]
  | cons p d ih =>
    obtain ⟨z, k⟩ := p
    simp only [List.map_cons, List.nodup_cons] at h
    simp only [tally]
    split
    · simpa using h
    · rename_i hzx
      simp only [List.map_cons, List.nodup_cons, mem_tally_keys, not_or]
      exact ⟨⟨h.1, hzx⟩, ih h.2⟩

private theorem foldl_tally (xs : List α) (d : List (α × Nat))
    (hd : (d.map Prod.fst).Nodup) (y : α) :
    get (xs.foldl tally d) y = get d y + xs.count y ∧
    (y ∈ (xs.foldl tally d).map Prod.fst ↔ y ∈ d.map Prod.fst ∨ y ∈ xs) ∧
    ((xs.foldl tally d).map Prod.fst).Nodup := by
  induction xs generalizing d with
  | nil => simp [hd]
  | cons x xs ih =>
    obtain ⟨hget, hmem, hnd⟩ := ih (tally d x) (tally_keys_nodup hd x)
    refine ⟨?_, ?_, hnd⟩
    · rw [List.foldl_cons, hget, get_tally, List.count_cons]
      simp only [beq_iff_eq]
      omega
    · rw [List.foldl_cons, hmem, mem_tally_keys, List.mem_cons]
      tauto

/-- Keys of a counter occur once. -/
theorem nodup_keys_counts (xs : List α) : ((counts xs).map Prod.fst).Nodup := by
  cases xs with
  | nil => simp [counts]
  | cons x xs => exact (foldl_tally (x :: xs) [] List.nodup_nil x).2.2

/-- With distinct keys, an entry is a key with its count. -/
private theorem mem_iff_get {d : List (α × Nat)} (h : (d.map Prod.fst).Nodup) (x : α) (k : Nat) :
    (x, k) ∈ d ↔ x ∈ d.map Prod.fst ∧ k = get d x := by
  induction d with
  | nil => simp
  | cons p d ih =>
    obtain ⟨z, j⟩ := p
    simp only [List.map_cons, List.nodup_cons] at h
    by_cases hzx : z = x
    · subst hzx
      have hnot : (z, k) ∉ d := fun hm => h.1 (List.mem_map_of_mem (f := Prod.fst) hm)
      simp [get, hnot]
    · simp only [List.mem_cons, Prod.mk.injEq, Ne.symm hzx, false_and, false_or, ih h.2,
        List.map_cons, get, hzx, if_false]

/-- The entries of a counter are the elements of the list with their number of occurrences. -/
theorem mem_counts {xs : List α} {x : α} {k : Nat} :
    (x, k) ∈ counts xs ↔ x ∈ xs ∧ k = xs.count x := by
  rw [mem_iff_get (nodup_keys_counts xs)]
  obtain ⟨hget, hmem, -⟩ := foldl_tally xs [] List.nodup_nil x
  have h1 : get (counts xs) x = xs.count x := by
    rw [counts, hget]
    simp [get]
  have h2 : x ∈ (counts xs).map Prod.fst ↔ x ∈ xs := by
    rw [counts, hmem]
    simp
  rw [h1, h2]

/-- A key reaches the threshold iff it occurs, and often enough. -/
theorem mem_keysAtLeast {t : Int} {xs : List α} {x : α} :
    x ∈ keysAtLeast t (counts xs) ↔ x ∈ xs ∧ t ≤ xs.count x := by
  simp only [keysAtLeast, List.mem_map, List.mem_filter, decide_eq_true_eq, Prod.exists,
    exists_and_right, exists_eq_right]
  constructor
  · rintro ⟨k, hk, ht⟩
    obtain ⟨hx, rfl⟩ := mem_counts.mp hk
    exact ⟨hx, ht⟩
  · rintro ⟨hx, ht⟩
    exact ⟨_, mem_counts.mpr ⟨hx, rfl⟩, ht⟩

theorem nodup_keysAtLeast (t : Int) (xs : List α) : (keysAtLeast t (counts xs)).Nodup :=
  (nodup_keys_counts xs).sublist (List.filter_sublist.map _)

/-- When every list holds `x` at most once, the occurrences in all lists are at
    most the lists that hold it. -/
theorem count_flatMap_le {n : Nat} {g : Fin n → List α} {x : α} (h : ∀ j, (g j).count x ≤ 1) :
    ((List.finRange n).flatMap g).count x ≤ (Finset.univ.filter fun j => x ∈ g j).card := by
  rw [List.count_flatMap, ← Fin.sum_univ_def, Finset.card_filter]
  apply Finset.sum_le_sum
  intro j _
  simp only [Function.comp_apply]
  split
  · exact h j
  · rename_i hnot
    rw [List.count_eq_zero_of_not_mem hnot]

/-- With at most as many occurrences in each list there are at most as many in all. -/
theorem count_flatMap_mono {n : Nat} {g g' : Fin n → List α} {x : α}
    (h : ∀ j, (g j).count x ≤ (g' j).count x) :
    ((List.finRange n).flatMap g).count x ≤ ((List.finRange n).flatMap g').count x := by
  rw [List.count_flatMap, List.count_flatMap, ← Fin.sum_univ_def, ← Fin.sum_univ_def]
  exact Finset.sum_le_sum fun j _ => h j

/-- Alone or with one occurrence more, `x` reaches the threshold in the lists other than the
    `i`-th only if as many of them hold it. -/
def GenuineBeside {n : Nat} (t : Int) (g : Fin n → List α) (i : Fin n) (x : α) : Prop :=
  ∀ a ≤ 1, t ≤ (a + ∑ j ∈ Finset.univ.erase i, (g j).count x : Nat) →
    t ≤ (a + ((Finset.univ.erase i).filter fun j => x ∈ g j).card : Nat)

instance {n : Nat} (t : Int) (g : Fin n → List α) (i : Fin n) (x : α) :
    Decidable (GenuineBeside t g i x) := inferInstanceAs (Decidable (∀ a ≤ 1, _))

/-- What only the `i`-th list may hold is counted genuinely. -/
theorem genuineBeside_of_not_mem {n : Nat} (t : Int) {g : Fin n → List α} {i : Fin n} {x : α}
    (h : ∀ j, j ≠ i → x ∉ g j) : GenuineBeside t g i x := by
  have hzero : ∑ j ∈ Finset.univ.erase i, (g j).count x = 0 := Finset.sum_eq_zero fun j hj =>
    List.count_eq_zero_of_not_mem (h j (Finset.ne_of_mem_erase hj))
  intro a _ hle
  omega

/-- The `i`-th list does not matter. -/
theorem GenuineBeside.congr {n : Nat} {t : Int} {g g' : Fin n → List α} {i : Fin n} {x : α}
    (h : GenuineBeside t g i x) (hsame : ∀ j, j ≠ i → g' j = g j) : GenuineBeside t g' i x := by
  have hsum : ∑ j ∈ Finset.univ.erase i, (g' j).count x =
      ∑ j ∈ Finset.univ.erase i, (g j).count x :=
    Finset.sum_congr rfl fun j hj => by rw [hsame j (Finset.ne_of_mem_erase hj)]
  have hcard : (Finset.univ.erase i).filter (fun j => x ∈ g' j) =
      (Finset.univ.erase i).filter fun j => x ∈ g j :=
    Finset.filter_congr fun j hj => by rw [hsame j (Finset.ne_of_mem_erase hj)]
  intro a ha
  rw [hsum, hcard]
  exact h a ha

/-- If the `i`-th list holds `x` at most once, as many lists hold `x` as its occurrences
    count. -/
theorem GenuineBeside.le_card {n : Nat} {t : Int} {g : Fin n → List α} {i : Fin n} {x : α}
    (h : GenuineBeside t g i x) (hone : (g i).count x ≤ 1)
    (hle : t ≤ ((List.finRange n).flatMap g).count x) :
    t ≤ (Finset.univ.filter fun j => x ∈ g j).card := by
  have hcount : ((List.finRange n).flatMap g).count x =
      (g i).count x + ∑ j ∈ Finset.univ.erase i, (g j).count x := by
    rw [List.count_flatMap, ← Fin.sum_univ_def,
      ← Finset.add_sum_erase Finset.univ _ (Finset.mem_univ i)]
    rfl
  have hheld : (g i).count x + ((Finset.univ.erase i).filter fun j => x ∈ g j).card ≤
      (Finset.univ.filter fun j => x ∈ g j).card := by
    rw [Finset.filter_erase]
    by_cases hx : x ∈ g i
    · have hmem : i ∈ Finset.univ.filter fun j => x ∈ g j :=
        Finset.mem_filter.mpr ⟨Finset.mem_univ i, hx⟩
      have hpos := Finset.card_pos.mpr ⟨i, hmem⟩
      rw [Finset.card_erase_of_mem hmem]
      omega
    · rw [List.count_eq_zero_of_not_mem hx, Nat.zero_add]
      exact Finset.card_erase_le
  have hgenuine := h ((g i).count x) hone (by rwa [hcount] at hle)
  omega

/-- More hits than faulty lists, each of which has at most one: some other list has one. -/
theorem exists_hit {n : Nat} {β : Type} {faulty : Finset (Fin n)} {g : Fin n → List β}
    {p : β → Bool} (honce : ∀ j ∈ faulty, (g j).countP p ≤ 1)
    (hmany : faulty.card < ((List.finRange n).flatMap g).countP p) :
    ∃ j, j ∉ faulty ∧ ∃ x ∈ g j, p x = true := by
  by_contra hnone
  have hzero : ∀ j, j ∉ faulty → (g j).countP p = 0 := by
    intro j hj
    apply List.countP_eq_zero.mpr
    exact fun x hx hp => hnone ⟨j, hj, x, hx, hp⟩
  have hle : ((List.finRange n).flatMap g).countP p ≤ faulty.card := by
    rw [List.countP_flatMap, ← Fin.sum_univ_def, Finset.card_eq_sum_ones]
    calc ∑ j, (List.countP p ∘ g) j = ∑ j ∈ faulty, (List.countP p ∘ g) j :=
          (Finset.sum_subset (Finset.subset_univ faulty) fun j _ hj => hzero j hj).symm
      _ ≤ ∑ j ∈ faulty, 1 := Finset.sum_le_sum honce
  omega

/-- Distinct elements that occur `k` times each make a list of at least that size. -/
theorem length_mul_le {l xs : List α} {k : Nat} (hnodup : l.Nodup)
    (h : ∀ x ∈ l, x ∈ xs ∧ k ≤ xs.count x) : l.length * k ≤ xs.length := by
  have hsub : l.toFinset ⊆ xs.toFinset := by
    intro x hx
    exact List.mem_toFinset.mpr (h x (List.mem_toFinset.mp hx)).1
  calc l.length * k = ∑ _x ∈ l.toFinset, k := by
        rw [Finset.sum_const, List.toFinset_card_of_nodup hnodup, smul_eq_mul]
    _ ≤ ∑ x ∈ l.toFinset, xs.count x :=
        Finset.sum_le_sum fun x hx => (h x (List.mem_toFinset.mp hx)).2
    _ ≤ ∑ x ∈ xs.toFinset, xs.count x := Finset.sum_le_sum_of_subset hsub
    _ = xs.length := List.sum_toFinset_count_eq_length xs

/-- A sum that changes in one place. -/
theorem sum_add_of_ne {ι : Type*} [Fintype ι] [DecidableEq ι] {f g : ι → Nat} {k : ι}
    (h : ∀ i, i ≠ k → g i = f i) : ∑ i, g i + f k = ∑ i, f i + g k := by
  have hrest : ∑ i ∈ Finset.univ.erase k, g i = ∑ i ∈ Finset.univ.erase k, f i :=
    Finset.sum_congr rfl fun i hi => h i (Finset.ne_of_mem_erase hi)
  rw [← Finset.add_sum_erase _ g (Finset.mem_univ k), ← Finset.add_sum_erase _ f
    (Finset.mem_univ k), hrest]
  omega

end Counter

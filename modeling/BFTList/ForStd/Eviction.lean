import BFTList.ForStd.List
import Mathlib.Data.Finset.Max

/-!
# What a bounded queue keeps

A queue that drops its lowest entries keeps the entries with the highest keys, as
many as the bound allows, whatever the order of insertions.

## Key results

- `mem_evict_iff`: an entry stays iff fewer entries than the bound have higher keys
- `mem_evict_of_higher`: one entry too many costs only the lowest one
- `keep_insert`: eviction before an insertion makes no difference after it
-/

namespace Eviction

/-! ## Sets of keys -/

/-- How many keys are higher. -/
def rank (keys : Finset Int) (k : Int) : Nat := (keys.filter (k < ·)).card

/-- The highest keys, `bound` of them. -/
def keep (bound : Nat) (keys : Finset Int) : Finset Int := keys.filter (rank keys · < bound)

theorem mem_keep {bound : Nat} {keys : Finset Int} {k : Int} :
    k ∈ keep bound keys ↔ k ∈ keys ∧ rank keys k < bound := Finset.mem_filter

theorem rank_insert {keys : Finset Int} {a : Int} (ha : a ∉ keys) (k : Int) :
    rank (insert a keys) k = rank keys k + if k < a then 1 else 0 := by
  rw [rank, Finset.filter_insert]
  split
  · rw [Finset.card_insert_of_notMem (by simp [ha]), rank]
  · rfl

/-- Of the higher keys as many are kept as the bound allows. -/
theorem rank_keep (bound : Nat) (keys : Finset Int) (k : Int) :
    rank (keep bound keys) k = min bound (rank keys k) := by
  induction keys using Finset.induction_on_max generalizing bound with
  | empty => simp [rank, keep]
  | insert a keys hmax ih =>
    have ha : a ∉ keys := fun hmem => Int.lt_irrefl a (hmax a hmem)
    cases bound with
    | zero => simp [rank, keep]
    | succ bound =>
      -- the highest key is kept, and leaves one place less for the others
      have hkeep : keep (bound + 1) (insert a keys) = insert a (keep bound keys) := by
        ext t
        have htop : rank keys a = 0 := by
          rw [rank, Finset.card_eq_zero, Finset.filter_eq_empty_iff]
          intro t ht
          exact Int.not_lt.mpr (Int.le_of_lt (hmax t ht))
        rw [mem_keep, Finset.mem_insert, Finset.mem_insert, mem_keep, rank_insert ha]
        constructor
        · rintro ⟨rfl | ht, hlt⟩
          · exact Or.inl rfl
          · rw [if_pos (hmax t ht)] at hlt
            exact Or.inr ⟨ht, by omega⟩
        · rintro (rfl | ⟨ht, hlt⟩)
          · refine ⟨Or.inl rfl, ?_⟩
            rw [htop, if_neg (Int.lt_irrefl t)]
            omega
          · refine ⟨Or.inr ht, ?_⟩
            rw [if_pos (hmax t ht)]
            omega
      have ha' : a ∉ keep bound keys := fun hmem => ha (mem_keep.mp hmem).1
      rw [hkeep, rank_insert ha', rank_insert ha, ih]
      split
      · omega
      · rename_i hge
        -- no key is higher than one above all of them
        have hzero : rank keys k = 0 := by
          rw [rank, Finset.card_eq_zero, Finset.filter_eq_empty_iff]
          intro t ht
          have hlt := hmax t ht
          omega
        omega

/-- Eviction before an insertion makes no difference after it. -/
theorem keep_insert (bound : Nat) (keys : Finset Int) (a : Int) :
    keep bound (insert a (keep bound keys)) = keep bound (insert a keys) := by
  have hle : ∀ k, rank keys k ≤ rank (insert a keys) k := by
    intro k
    exact Finset.card_le_card (Finset.filter_subset_filter _ (Finset.subset_insert a keys))
  have hrank : ∀ k, rank (insert a (keep bound keys)) k < bound ↔
      rank (insert a keys) k < bound := by
    intro k
    have hkept := rank_keep bound keys k
    by_cases hin : a ∈ keys
    · rw [Finset.insert_eq_of_mem hin]
      by_cases hin' : a ∈ keep bound keys
      · rw [Finset.insert_eq_of_mem hin', hkept]
        omega
      · -- the key is dropped again, and so is everything below it
        have hdropped : bound ≤ rank keys a := by
          by_contra hlt
          exact hin' (mem_keep.mpr ⟨hin, by omega⟩)
        rw [rank_insert hin', hkept]
        split
        · rename_i hlt
          have hmono : rank keys a ≤ rank keys k := by
            apply Finset.card_le_card
            intro t ht
            obtain ⟨ht, hat⟩ := Finset.mem_filter.mp ht
            exact Finset.mem_filter.mpr ⟨ht, hlt.trans hat⟩
          omega
        · omega
    · have hin' : a ∉ keep bound keys := fun hmem => hin (mem_keep.mp hmem).1
      rw [rank_insert hin', rank_insert hin, hkept]
      omega
  ext k
  rw [mem_keep, mem_keep, hrank, Finset.mem_insert, Finset.mem_insert, mem_keep]
  constructor
  · rintro ⟨hmem, hlt⟩
    exact ⟨hmem.imp_right And.left, hlt⟩
  · rintro ⟨hmem, hlt⟩
    exact ⟨hmem.imp_right fun hk => ⟨hk, (hle k).trans_lt hlt⟩, hlt⟩

end Eviction

/-! ## Lists -/

namespace List

variable {α : Type*}

/-- One round of the loop drops one entry. -/
theorem mem_filter_not_same {same : α → α → Bool} {l : List α} {z : α}
    (hsame : ∀ x ∈ l, ∀ y ∈ l, same x y = true ↔ x = y) (hz : z ∈ l) (y : α) :
    y ∈ l.filter (fun y => !same y z) ↔ y ∈ l ∧ y ≠ z := by
  rw [mem_filter, Bool.not_eq_true', Bool.eq_false_iff]
  apply and_congr_right
  intro hy
  exact not_congr (hsame y hy z hz)

/-- All entries but one have higher keys than the lowest one. -/
theorem length_le_countP_lowest {key : α → Int} {l : List α} {z : α} (hkeys : (l.map key).Nodup)
    (hz : l.lowest key = some z) : l.length ≤ (l.countP fun y => key z < key y) + 1 := by
  have hone : (l.countP fun y => ¬ key z < key y) ≤ 1 := by
    have hcount := nodup_iff_count_le_one.mp hkeys (key z)
    rw [count, countP_map] at hcount
    refine le_trans (countP_mono_left fun y hy hlow => ?_) hcount
    have hle := lowest_le hz y hy
    simp only [decide_not, Bool.not_eq_true', decide_eq_false_iff_not] at hlow
    simp only [Function.comp_apply, beq_iff_eq]
    omega
  have hlength := length_eq_countP_add_countP (fun y => decide (key z < key y)) (l := l)
  simp only [decide_eq_true_eq] at hlength
  omega

/-- Without its lowest entry a list has as many entries with higher keys. -/
theorem countP_higher_filter {key : α → Int} {same : α → α → Bool} {l : List α} {z x : α}
    (hsame : ∀ x ∈ l, ∀ y ∈ l, same x y = true ↔ x = y) (hz : l.lowest key = some z) (hx : x ∈ l) :
    ((l.filter fun y => !same y z).countP fun y => key x < key y) =
      l.countP fun y => key x < key y := by
  rw [countP_filter]
  apply countP_congr
  intro y hy
  have hle := lowest_le hz x hx
  simp only [Bool.and_eq_true, decide_eq_true_eq, and_iff_left_iff_imp]
  intro hlt
  have hyz : y ≠ z := by
    rintro rfl
    omega
  exact (mem_filter.mp ((mem_filter_not_same hsame (mem_of_lowest hz) y).mpr ⟨hy, hyz⟩)).2

/-- In a list with distinct keys an entry survives the eviction loop iff fewer entries
    than the bound have higher keys. -/
theorem mem_evict_iff {key : α → Int} {same : α → α → Bool} {bound fuel : Nat} {l : List α}
    (hsame : ∀ x ∈ l, ∀ y ∈ l, same x y = true ↔ x = y) (hkeys : (l.map key).Nodup)
    (hfuel : l.length ≤ fuel) {x : α} :
    x ∈ evict key same bound fuel l ↔ x ∈ l ∧ (l.countP fun y => key x < key y) < bound := by
  induction fuel generalizing l with
  | zero =>
    rw [length_eq_zero_iff.mp (Nat.le_zero.mp hfuel)]
    simp [evict]
  | succ fuel ih =>
    simp only [evict]
    split
    · rename_i hle
      refine ⟨fun hx => ⟨hx, ?_⟩, And.left⟩
      have hlt : (l.countP fun y => key x < key y) < l.length := by
        rw [countP_eq_length_filter]
        exact length_filter_lt_length_iff_exists.mpr ⟨x, hx, by simp⟩
      omega
    · rename_i hgt
      have hne : l ≠ [] := by
        rintro rfl
        simp at hgt
      obtain ⟨z, hz⟩ := lowest_isSome key hne
      have hzmem := mem_of_lowest hz
      have hrest := mem_filter_not_same hsame hzmem
      have hshort : (l.filter fun y => !same y z).length < l.length := by
        apply length_filter_lt_length_iff_exists.mpr
        exact ⟨z, hzmem, by simp [(hsame z hzmem z hzmem).mpr rfl]⟩
      simp only [hz]
      rw [ih (fun x hx y hy => hsame x ((hrest x).mp hx).1 y ((hrest y).mp hy).1)
        (hkeys.sublist (filter_sublist.map key)) (by omega), hrest]
      by_cases hxz : x = z
      · -- the lowest entry is dropped, and all others are higher
        have hlength := length_le_countP_lowest hkeys hz
        subst hxz
        refine iff_of_false (fun h => h.1.2 rfl) fun h => ?_
        omega
      · constructor
        · rintro ⟨⟨hx, -⟩, hlt⟩
          rw [countP_higher_filter hsame hz hx] at hlt
          exact ⟨hx, hlt⟩
        · rintro ⟨hx, hlt⟩
          rw [countP_higher_filter hsame hz hx]
          exact ⟨⟨hx, hxz⟩, hlt⟩

/-- Of one entry too many, what is higher than some other entry stays. -/
theorem mem_evict_of_higher {key : α → Int} {same : α → α → Bool} {bound fuel : Nat} {l : List α}
    (hrefl : ∀ x, same x x = true) (hsame : ∀ x y, same x y = true → key x = key y)
    (hlength : l.length ≤ bound + 1) {x y : α} (hx : x ∈ l) (hy : y ∈ l) (hlt : key y < key x) :
    x ∈ evict key same bound fuel l := by
  cases fuel with
  | zero => exact hx
  | succ fuel =>
    simp only [evict]
    split
    · exact hx
    · obtain ⟨z, hz⟩ := lowest_isSome key (ne_nil_of_mem hx)
      have hlow := lowest_le hz y hy
      have hshort : (l.filter fun w => !same w z).length < l.length := by
        apply length_filter_lt_length_iff_exists.mpr
        exact ⟨z, mem_of_lowest hz, by simp [hrefl z]⟩
      have hnot : ¬ same x z = true := by
        intro heq
        have hkey := hsame x z heq
        omega
      simp only [hz]
      rw [evict_of_length_le (by omega)]
      exact mem_filter.mpr ⟨hx, by simpa using hnot⟩

/-- The keys that survive the eviction loop. -/
theorem keys_evict {key : α → Int} {same : α → α → Bool} {bound fuel : Nat} {l : List α}
    (hsame : ∀ x ∈ l, ∀ y ∈ l, same x y = true ↔ x = y) (hkeys : (l.map key).Nodup)
    (hfuel : l.length ≤ fuel) :
    ((evict key same bound fuel l).map key).toFinset =
      Eviction.keep bound (l.map key).toFinset := by
  have hrank : ∀ k, Eviction.rank (l.map key).toFinset k = l.countP fun y => k < key y := by
    intro k
    have hset : (l.map key).toFinset.filter (k < ·) = ((l.map key).filter (k < ·)).toFinset := by
      ext t
      simp
    rw [Eviction.rank, hset, toFinset_card_of_nodup (hkeys.filter _), ← countP_eq_length_filter,
      countP_map]
    rfl
  ext k
  simp only [mem_toFinset, mem_map, Eviction.mem_keep, hrank, mem_evict_iff hsame hkeys hfuel]
  constructor
  · rintro ⟨x, ⟨hx, hlt⟩, rfl⟩
    exact ⟨⟨x, hx, rfl⟩, hlt⟩
  · rintro ⟨⟨x, hx, rfl⟩, hlt⟩
    exact ⟨x, ⟨hx, hlt⟩, rfl⟩

end List

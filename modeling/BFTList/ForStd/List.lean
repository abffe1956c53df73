import Mathlib.Data.List.Basic
import Mathlib.Data.List.Infix
import Mathlib.Data.List.Sublists
import Mathlib.Data.List.Nodup

/-!
# List lemmas for loops and bounded queues

Combinations in the order of `itertools.combinations`, invariants of folds, and
queues that evict their lowest entries once they are over a bound.

## Key results

- `mem_combinations`: the combinations of `k` elements are the sublists of length `k`
- `find?_combinations`: the first combination with a property takes the first elements with it
- `foldl_keepBest_of_find`: what a loop that keeps the best element ends with
- `foldl_invariant`, `foldlM_invariant`: what every iteration preserves, a loop preserves
- `length_evict_le`, `mem_of_mem_evict`: the eviction loop ends below the bound
  and only drops entries
- `evict_of_pairwise`: on an ascending list it drops the first ones
-/

namespace List

variable {α β ε : Type*}

/-! ## Combinations -/

/-- All ways to choose `k` elements, in lexicographic order of positions. -/
def combinations : Nat → List α → List (List α)
  | 0, _ => [[]]
  | _ + 1, [] => []
  | k + 1, x :: xs => (combinations k xs).map (x :: ·) ++ combinations (k + 1) xs

/-- All pairs of an earlier and a later element. -/
def pairs : List α → List (α × α)
  | [] => []
  | x :: xs => xs.map (x, ·) ++ pairs xs

theorem mem_combinations {k : Nat} {l s : List α} :
    s ∈ combinations k l ↔ s.Sublist l ∧ s.length = k := by
  induction l generalizing k s with
  | nil =>
    cases k with
    | zero => simp [combinations]
    | succ k =>
      simp only [combinations, not_mem_nil, sublist_nil, false_iff, not_and]
      rintro rfl
      simp
  | cons x xs ih =>
    cases k with
    | zero =>
      simp only [combinations, mem_singleton, length_eq_zero_iff]
      exact ⟨fun h => ⟨h ▸ nil_sublist _, h⟩, And.right⟩
    | succ k =>
      simp only [combinations, mem_append, mem_map, ih]
      constructor
      · rintro (⟨t, ⟨ht, hlen⟩, rfl⟩ | ⟨hs, hlen⟩)
        · exact ⟨ht.cons_cons x, by simp [hlen]⟩
        · exact ⟨hs.cons x, hlen⟩
      · rintro ⟨hs, hlen⟩
        cases hs with
        | cons _ hs => exact Or.inr ⟨hs, hlen⟩
        | cons_cons _ hs => exact Or.inl ⟨_, ⟨hs, by simpa using hlen⟩, rfl⟩

theorem mem_of_mem_pairs {l : List α} {p : α × α} (h : p ∈ pairs l) : p.1 ∈ l ∧ p.2 ∈ l := by
  induction l with
  | nil => exact absurd h not_mem_nil
  | cons x xs ih =>
    cases mem_append.mp h with
    | inl hfirst =>
      obtain ⟨y, hy, rfl⟩ := mem_map.mp hfirst
      exact ⟨mem_cons_self, mem_cons_of_mem x hy⟩
    | inr hrest => exact ⟨mem_cons_of_mem x (ih hrest).1, mem_cons_of_mem x (ih hrest).2⟩

/-- All pairs are related iff the list is pairwise related. -/
theorem forall_mem_pairs {R : α → α → Prop} {l : List α} :
    (∀ p ∈ pairs l, R p.1 p.2) ↔ l.Pairwise R := by
  induction l with
  | nil => simp [pairs]
  | cons x xs ih =>
    rw [pairwise_cons, ← ih, pairs]
    simp only [mem_append, mem_map]
    constructor
    · intro h
      exact ⟨fun y hy => h (x, y) (Or.inl ⟨y, hy, rfl⟩), fun p hp => h p (Or.inr hp)⟩
    · rintro ⟨hfirst, hrest⟩ p (⟨y, hy, rfl⟩ | hp)
      · exact hfirst y hy
      · exact hrest p hp

theorem combinations_map (g : α → β) (k : Nat) (l : List α) :
    combinations k (l.map g) = (combinations k l).map (List.map g) := by
  induction l generalizing k with
  | nil => cases k <;> rfl
  | cons x xs ih =>
    cases k with
    | zero => rfl
    | succ k =>
      rw [map_cons, combinations, combinations, ih, ih, map_append, map_map, map_map]
      rfl

/-- The first combination of elements with a property takes the first ones. -/
theorem find?_combinations (t : α → Bool) (k : Nat) (l : List α) :
    (combinations k l).find? (fun s => s.all t) =
      if k ≤ (l.filter t).length then some ((l.filter t).take k) else none := by
  induction l generalizing k with
  | nil => cases k <;> simp [combinations]
  | cons x xs ih =>
    cases k with
    | zero => simp [combinations]
    | succ k =>
      rw [combinations, find?_append, find?_map, filter_cons]
      cases hx : t x with
      | true =>
        have hcomp : ((fun s : List α => s.all t) ∘ (x :: ·)) = fun s => s.all t := by
          funext s
          simp [hx]
        rw [hcomp, ih k, ih (k + 1), if_pos rfl, length_cons]
        by_cases hk : k ≤ (xs.filter t).length
        · simp [hk]
        · have hk' : ¬ k + 1 ≤ (xs.filter t).length := by omega
          simp [hk, hk']
      | false =>
        -- no combination that starts with `x` has the property
        have hcomp : ((fun s : List α => s.all t) ∘ (x :: ·)) = fun _ => false := by
          funext s
          simp [hx]
        have hnone : (combinations k xs).find? (fun _ => false) = none :=
          find?_eq_none.mpr fun _ _ h => Bool.false_ne_true h
        rw [hcomp, hnone, ih (k + 1)]
        simp

/-! ## Initial parts -/

/-- The initial parts of a list other than the empty one. -/
theorem mem_tail_inits {part l : List α} : part ∈ l.inits.tail ↔ part <+: l ∧ part ≠ [] := by
  cases l with
  | nil => simp
  | cons x xs =>
    rw [inits_cons, tail_cons, mem_map]
    constructor
    · rintro ⟨rest, hrest, rfl⟩
      exact ⟨(prefix_cons_inj x).mpr ((mem_inits _ _).mp hrest), cons_ne_nil _ _⟩
    · rintro ⟨hpre, hne⟩
      cases part with
      | nil => exact absurd rfl hne
      | cons y rest =>
        obtain ⟨rfl, hrest⟩ := cons_prefix_cons.mp hpre
        exact ⟨rest, (mem_inits _ _).mpr hrest, rfl⟩

/-- Initial parts are listed from the shortest on. -/
theorem pairwise_inits (l : List α) : l.inits.Pairwise (· <+: ·) := by
  induction l with
  | nil => simp
  | cons x xs ih =>
    rw [inits_cons, pairwise_cons]
    refine ⟨fun part _ => nil_prefix, ih.map _ ?_⟩
    intro a b hab
    exact (prefix_cons_inj x).mpr hab

/-- What is added in front leaves the first elements from the end alone. -/
theorem take_reverse_append {l l' : List α} {k : Nat} (h : k ≤ l.length) :
    (l' ++ l).reverse.take k = l.reverse.take k := by
  rw [reverse_append, take_append_of_le_length (by rw [length_reverse]; exact h)]

theorem mem_take_succ {l : List α} {k : Nat} {x y : α} (h : l[k]? = some x) :
    y ∈ l.take (k + 1) ↔ y ∈ l.take k ∨ y = x := by
  rw [take_add_one, h, mem_append, Option.toList_some, mem_singleton]

/-- An element with fewer than `k` others in front of it is among the first `k`. -/
theorem mem_take_of_prefix {l early : List α} {x : α} {k : Nat} (h : early ++ [x] <+: l)
    (hlt : early.length < k) : x ∈ l.take k := by
  obtain ⟨late, rfl⟩ := h
  have hpos : k - early.length = k - early.length - 1 + 1 := by omega
  rw [append_assoc, take_append, hpos]
  exact mem_append_right _ mem_cons_self

/-! ## Loop invariants -/

/-- What every iteration preserves holds after the loop. -/
theorem foldl_invariant {P : β → Prop} {f : β → α → β} (l : List α) (b : β) (hb : P b)
    (hf : ∀ b, ∀ x ∈ l, P b → P (f b x)) : P (l.foldl f b) := by
  induction l generalizing b with
  | nil => exact hb
  | cons x xs ih =>
    exact ih _ (hf b x mem_cons_self hb) fun b y hy => hf b y (mem_cons_of_mem x hy)

/-- What every successful iteration preserves holds after a successful loop. -/
theorem foldlM_invariant {P : β → Prop} {f : β → α → Except ε β} {l : List α} {b b' : β}
    (h : l.foldlM f b = .ok b') (hb : P b)
    (hf : ∀ b b', ∀ x ∈ l, P b → f b x = .ok b' → P b') : P b' := by
  induction l generalizing b with
  | nil =>
    simp only [foldlM_nil, pure, Except.pure, Except.ok.injEq] at h
    exact h ▸ hb
  | cons x xs ih =>
    simp only [foldlM_cons, bind, Except.bind] at h
    cases hx : f b x with
    | error e => simp [hx] at h
    | ok c =>
      simp only [hx] at h
      exact ih h (hf b c x mem_cons_self hb hx) fun b b' y hy => hf b b' y (mem_cons_of_mem x hy)

/-! ## The first best element -/

/-- A loop that keeps the first element with the highest score. -/
def keepBest (score : α → Int) (best : Int × α) (x : α) : Int × α :=
  if best.1 < score x then (score x, x) else best

/-- The loop ends with its start or an element of the list. -/
theorem foldl_keepBest_mem (score : α → Int) (l : List α) (best : Int × α) :
    (l.foldl (keepBest score) best).2 = best.2 ∨ (l.foldl (keepBest score) best).2 ∈ l := by
  refine foldl_invariant (P := fun b : Int × α => b.2 = best.2 ∨ b.2 ∈ l) l best (Or.inl rfl) ?_
  intro b x hx hb
  rw [keepBest]
  split
  · exact Or.inr hx
  · exact hb

/-- The loop ends with the highest score of its start and all elements. -/
theorem foldl_keepBest_spec (score : α → Int) (l : List α) (best : Int × α) :
    (∀ x ∈ l, score x ≤ (l.foldl (keepBest score) best).1) ∧
      best.1 ≤ (l.foldl (keepBest score) best).1 ∧
      (l.foldl (keepBest score) best = best ∨ (l.foldl (keepBest score) best).2 ∈ l ∧
        (l.foldl (keepBest score) best).1 = score (l.foldl (keepBest score) best).2) := by
  induction l generalizing best with
  | nil => simp
  | cons x xs ih =>
    obtain ⟨hle, hstart, hend⟩ := ih (keepBest score best x)
    have hkeep : score x ≤ (keepBest score best x).1 ∧ best.1 ≤ (keepBest score best x).1 ∧
        (keepBest score best x = best ∨ keepBest score best x = (score x, x)) := by
      rw [keepBest]
      split
      · simp
        omega
      · simp
        omega
    rw [foldl_cons]
    refine ⟨?_, by omega, ?_⟩
    · intro y hy
      rcases mem_cons.mp hy with rfl | hy
      · omega
      · exact hle y hy
    · rcases hend with hsame | ⟨hmem, hscore⟩
      · rw [hsame]
        rcases hkeep.2.2 with heq | heq
        · exact Or.inl heq
        · rw [heq]
          exact Or.inr ⟨mem_cons_self, rfl⟩
      · exact Or.inr ⟨mem_cons_of_mem x hmem, hscore⟩

theorem foldl_keepBest_of_le {score : α → Int} {l : List α} {best : Int × α}
    (h : ∀ x ∈ l, score x ≤ best.1) : l.foldl (keepBest score) best = best := by
  induction l with
  | nil => rfl
  | cons x xs ih =>
    have hx := h x mem_cons_self
    rw [foldl_cons, keepBest, if_neg (by omega)]
    exact ih fun y hy => h y (mem_cons_of_mem x hy)

/-- When the elements with a property score `top` and all others less, the loop
    ends with the first one that has it. -/
theorem foldl_keepBest_of_find (score : α → Int) (t : α → Bool) (top : Int) (best : Int × α)
    {l : List α} {x : α} (hbest : best.1 < top) (ht : ∀ y ∈ l, t y = true → score y = top)
    (hnot : ∀ y ∈ l, t y = false → score y < top) (hfind : l.find? t = some x) :
    l.foldl (keepBest score) best = (top, x) := by
  induction l generalizing best with
  | nil => cases hfind
  | cons y ys ih =>
    rw [foldl_cons]
    cases hy : t y with
    | true =>
      rw [find?_cons_of_pos hy, Option.some.injEq] at hfind
      have hscore := ht y mem_cons_self hy
      rw [keepBest, hscore, if_pos hbest, hfind]
      -- no later element scores more
      apply foldl_keepBest_of_le
      intro z hz
      cases hz' : t z with
      | true => exact Int.le_of_eq (ht z (mem_cons_of_mem y hz) hz')
      | false => exact Int.le_of_lt (hnot z (mem_cons_of_mem y hz) hz')
    | false =>
      rw [find?_cons_of_neg (by simp [hy])] at hfind
      refine ih _ ?_ (fun z hz => ht z (mem_cons_of_mem y hz))
        (fun z hz => hnot z (mem_cons_of_mem y hz)) hfind
      rw [keepBest]
      split
      · exact hnot y mem_cons_self hy
      · exact hbest

/-! ## Bounded queues -/

/-- First element with the lowest key. -/
def lowest (key : α → Int) : List α → Option α
  | [] => none
  | x :: xs => some (xs.foldl (fun best y => if key y < key best then y else best) x)

/-- Drop the lowest entry, and all entries `same` as it, until at most `bound`
    are left; `fuel` bounds the number of rounds. -/
def evict (key : α → Int) (same : α → α → Bool) (bound : Nat) : Nat → List α → List α
  | 0, l => l
  | fuel + 1, l =>
    if l.length ≤ bound then l
    else match l.lowest key with
      | none => l
      | some x => evict key same bound fuel (l.filter fun y => !same y x)

private theorem foldl_lowest_mem (key : α → Int) (x : α) (xs : List α) :
    xs.foldl (fun best y => if key y < key best then y else best) x ∈ x :: xs := by
  induction xs generalizing x with
  | nil => exact mem_singleton_self x
  | cons y ys ih =>
    rw [foldl_cons]
    split
    · exact mem_cons_of_mem x (ih y)
    · cases mem_cons.mp (ih x) with
      | inl h =>
        rw [h]
        exact mem_cons_self
      | inr h => exact mem_cons_of_mem x (mem_cons_of_mem y h)

theorem mem_of_lowest {key : α → Int} {l : List α} {x : α} (h : l.lowest key = some x) :
    x ∈ l := by
  cases l with
  | nil => simp [lowest] at h
  | cons y ys =>
    simp only [lowest, Option.some.injEq] at h
    exact h ▸ foldl_lowest_mem key y ys

private theorem foldl_lowest_le (key : α → Int) (x : α) (xs : List α) :
    ∀ y ∈ x :: xs,
      key (xs.foldl (fun best y => if key y < key best then y else best) x) ≤ key y := by
  induction xs generalizing x with
  | nil =>
    intro y hy
    rw [mem_singleton.mp hy]
    exact Int.le_refl _
  | cons z zs ih =>
    intro y hy
    rw [foldl_cons]
    split
    · rename_i hlt
      have hz := ih z z mem_cons_self
      rcases mem_cons.mp hy with rfl | hy
      · omega
      · exact ih z y hy
    · rename_i hge
      have hx := ih x x mem_cons_self
      rcases mem_cons.mp hy with rfl | hy
      · exact hx
      · rcases mem_cons.mp hy with rfl | hy
        · omega
        · exact ih x y (mem_cons_of_mem x hy)

/-- The element `lowest` finds has the lowest key. -/
theorem lowest_le {key : α → Int} {l : List α} {x : α} (h : l.lowest key = some x) :
    ∀ y ∈ l, key x ≤ key y := by
  cases l with
  | nil => simp [lowest] at h
  | cons y ys =>
    simp only [lowest, Option.some.injEq] at h
    exact h ▸ foldl_lowest_le key y ys

theorem lowest_isSome (key : α → Int) {l : List α} (h : l ≠ []) : ∃ x, l.lowest key = some x := by
  cases l with
  | nil => exact absurd rfl h
  | cons y ys => exact ⟨_, rfl⟩

/-- Eviction only drops entries. -/
theorem evict_sublist (key : α → Int) (same : α → α → Bool) (bound fuel : Nat) (l : List α) :
    (evict key same bound fuel l).Sublist l := by
  induction fuel generalizing l with
  | zero => exact Sublist.refl l
  | succ fuel ih =>
    simp only [evict]
    split
    · exact Sublist.refl l
    · split
      · exact Sublist.refl l
      · exact (ih _).trans filter_sublist

theorem mem_of_mem_evict {key : α → Int} {same : α → α → Bool} {bound fuel : Nat} {l : List α}
    {x : α} (h : x ∈ evict key same bound fuel l) : x ∈ l :=
  (evict_sublist key same bound fuel l).subset h

/-- Below the bound nothing is dropped. -/
theorem evict_of_length_le {key : α → Int} {same : α → α → Bool} {bound fuel : Nat} {l : List α}
    (h : l.length ≤ bound) : evict key same bound fuel l = l := by
  cases fuel with
  | zero => rfl
  | succ fuel => simp [evict, h]

/-- In an ascending list the first element is the lowest. -/
theorem lowest_of_pairwise {key : α → Int} {x : α} {xs : List α}
    (h : (x :: xs).Pairwise fun a b => key a < key b) : (x :: xs).lowest key = some x := by
  have hle := (pairwise_cons.mp h).1
  simp only [lowest, Option.some.injEq]
  apply foldl_invariant (P := fun best => best = x) xs x rfl
  intro best y hy hbest
  rw [hbest, if_neg (by have := hle y hy; omega)]

/-- On an ascending list the eviction loop keeps the last `bound` entries. -/
theorem evict_of_pairwise {key : α → Int} {same : α → α → Bool} {bound fuel : Nat} {l : List α}
    (h : l.Pairwise fun a b => key a < key b) (hrefl : ∀ x, same x x = true)
    (hsame : ∀ x y, same x y = true → key x = key y) (hfuel : l.length ≤ fuel) :
    evict key same bound fuel l = l.drop (l.length - bound) := by
  induction fuel generalizing l with
  | zero =>
    rw [length_eq_zero_iff.mp (Nat.le_zero.mp hfuel), drop_nil, evict]
  | succ fuel ih =>
    simp only [evict]
    split
    · rename_i hle
      rw [Nat.sub_eq_zero_of_le hle, drop_zero]
    · rename_i hgt
      cases l with
      | nil => simp at hgt
      | cons x xs =>
        obtain ⟨hx, hxs⟩ := pairwise_cons.mp h
        -- the round drops the first entry and no other one
        have hfilter : (x :: xs).filter (fun y => !same y x) = xs := by
          rw [filter_cons_of_neg (by simp [hrefl])]
          apply filter_eq_self.mpr
          intro y hy
          cases hsy : same y x with
          | false => rfl
          | true =>
            have hlt := hx y hy
            have heq := hsame y x hsy
            omega
        simp only [lowest_of_pairwise h, hfilter]
        simp only [length_cons] at hgt hfuel ⊢
        have hsub : xs.length + 1 - bound = xs.length - bound + 1 := by omega
        rw [ih hxs (by omega), hsub, drop_succ_cons]

/-- With as many rounds as entries, the loop ends at or below the bound. -/
theorem length_evict_le {key : α → Int} {same : α → α → Bool} (hsame : ∀ x, same x x = true)
    {bound fuel : Nat} {l : List α} (hfuel : l.length ≤ fuel) :
    (evict key same bound fuel l).length ≤ bound := by
  induction fuel generalizing l with
  | zero => rw [evict]; omega
  | succ fuel ih =>
    simp only [evict]
    split
    · assumption
    · rename_i hlen
      have hne : l ≠ [] := by intro h; simp [h] at hlen
      obtain ⟨x, hx⟩ := lowest_isSome key hne
      rw [hx]
      -- the entry found is dropped, so one round costs at least one entry
      have hlt : (l.filter fun y => !same y x).length < l.length :=
        length_filter_lt_length_iff_exists.mpr ⟨x, mem_of_lowest hx, by simp [hsame]⟩
      exact ih (by omega)

end List

import BFTList.Spec.PrimaryStatus
import Mathlib.Data.Fin.VecNotation

/-!
# What `sup_change` decides

A change is supported by `x` processors that report one primary and whose `need_chg_set`s have
`n - 2f` names in common. The code intersects the sets of a group of at least `x` processors
without keeping the result, so it looks at the first set of the group that is not empty. The
two agree where any set of the group that is not empty would do, as the sets of enough members
contain one of them.

## Key results

- `supChange_first_iff`: the code asks for one record
- `supChange_iff_supported`: where this decides whether a change is supported
- `supChange_alone`: one record that names enough, and nobody else who names anyone
-/

namespace BFTList.PrimaryMonitoringModule

variable {n : Nat} {order : SetOrder (Fin n)} {m : PrimaryMonitoringModule n} {x : Int}

/-! ## Support -/

/-- At least `x` processors report one primary and name `n - 2f` processors in common. -/
structure Supporters (m : PrimaryMonitoringModule n) (x : Int) (X : Finset (Fin n)) : Prop where
  many : x ≤ X.card
  agree : ∃ p, ∀ k ∈ X, (m.vcm k).prim = p
  share : ∃ S : Finset Int, (n : Int) - 2 * m.numberOfByzantine ≤ S.card ∧
    ∀ k ∈ X, S ⊆ (m.vcm k).needChgSet

/-- Some processors support a change. -/
def Supported (m : PrimaryMonitoringModule n) (x : Int) : Prop := ∃ X, m.Supporters x X

/-- Processor `k` is the first, in the order the set of its group is iterated, that names
    anyone, and its group has `x` members. -/
def FirstNaming (order : SetOrder (Fin n)) (m : PrimaryMonitoringModule n) (x : Int)
    (k : Fin n) : Prop :=
  x ≤ (m.group (m.vcm k).prim).length ∧
    (order.iter (m.group (m.vcm k).prim)).find? (fun j => (m.vcm j).needChgSet ≠ ∅) = some k

instance (k : Fin n) : Decidable (FirstNaming order m x k) :=
  inferInstanceAs (Decidable (_ ∧ _))

/-- The record of processor `k` names `n - 2f` processors. -/
def Names (m : PrimaryMonitoringModule n) (k : Fin n) : Prop :=
  (n : Int) - 2 * m.numberOfByzantine ≤ (m.vcm k).needChgSet.card

instance (k : Fin n) : Decidable (m.Names k) := inferInstanceAs (Decidable (_ ≤ _))

/-- What the records have to be: with a positive threshold, in every group of `x` members nobody
    names `n - 2f` processors, or everybody who names anyone does and the processors that one of
    them names are named by `x` members; without a threshold some group has to be large. -/
structure RecordsAgree (m : PrimaryMonitoringModule n) (x : Int) : Prop where
  groups : 2 * m.numberOfByzantine < n → ∀ j, x ≤ (m.group (m.vcm j).prim).length →
    (∀ k ∈ m.group (m.vcm j).prim, ¬ m.Names k) ∨
      ((∀ k ∈ m.group (m.vcm j).prim, (m.vcm k).needChgSet ≠ ∅ → m.Names k) ∧
        ∃ i ∈ m.group (m.vcm j).prim, m.Names i ∧
          x ≤ (m.group (m.vcm j).prim).countP
            fun k => (m.vcm i).needChgSet ⊆ (m.vcm k).needChgSet)
  large : n ≤ 2 * m.numberOfByzantine → 0 < n → ∃ p, x ≤ (m.group p).length

/-! ## Groups -/

theorem mem_group {p : Int} {k : Fin n} : k ∈ m.group p ↔ (m.vcm k).prim = p := by
  simp [group]

theorem nodup_group (p : Int) : (m.group p).Nodup := (List.nodup_finRange n).filter _

/-- Processors with one primary are members of its group. -/
theorem card_le_length_group {p : Int} {X : Finset (Fin n)} (h : ∀ k ∈ X, (m.vcm k).prim = p) :
    X.card ≤ (m.group p).length := by
  have hsub : X ⊆ (m.group p).toFinset := by
    intro k hk
    rw [List.mem_toFinset, mem_group]
    exact h k hk
  calc X.card ≤ (m.group p).toFinset.card := Finset.card_le_card hsub
    _ ≤ (m.group p).length := List.toFinset_card_le _

/-- Without a positive threshold a large group is all that is needed. -/
theorem supported_iff_of_le (hn : n ≤ 2 * m.numberOfByzantine) :
    m.Supported x ↔ ∃ p, x ≤ (m.group p).length := by
  constructor
  · intro h
    obtain ⟨X, hmany, ⟨p, hagree⟩, -⟩ := h
    have hle := card_le_length_group hagree
    exact ⟨p, by omega⟩
  · intro h
    obtain ⟨p, hlarge⟩ := h
    refine ⟨(m.group p).toFinset, ?_, ⟨p, ?_⟩, ∅, ?_, fun k _ => Finset.empty_subset _⟩
    · rw [List.toFinset_card_of_nodup (nodup_group p)]
      exact hlarge
    · intro k hk
      exact mem_group.mp (List.mem_toFinset.mp hk)
    · simp only [Finset.card_empty]
      omega

/-! ## The code -/

/-- The code asks for one record that names enough, the first one of a large group that names
    anyone. -/
theorem supChange_first_iff (hpos : 2 * m.numberOfByzantine < n) :
    m.supChange order x = true ↔ ∃ k, m.FirstNaming order x k ∧ m.Names k := by
  rw [supChange_iff (by omega)]
  constructor
  · intro h
    obtain ⟨p, hlarge, henough⟩ := h
    rw [NamesEnough, needChgSetIntersection_eq] at henough
    cases hfind : (order.iter (m.group p)).find? fun k => (m.vcm k).needChgSet ≠ ∅ with
    | none =>
      rw [hfind, Finset.card_empty] at henough
      omega
    | some k =>
      rw [hfind] at henough
      have hprim : (m.vcm k).prim = p :=
        mem_group.mp ((order.mem_iter).mp (List.mem_of_find?_eq_some hfind))
      subst hprim
      exact ⟨k, ⟨hlarge, hfind⟩, henough⟩
  · intro h
    obtain ⟨k, hfirst, hnames⟩ := h
    refine ⟨(m.vcm k).prim, hfirst.1, ?_⟩
    rw [NamesEnough, needChgSetIntersection_eq, hfirst.2]
    exact hnames

/-- Without a positive threshold the code is satisfied with any processor. -/
theorem supChange_of_le (hn : n ≤ 2 * m.numberOfByzantine) :
    m.supChange order x = true ↔ 0 < n := by
  unfold supChange
  cases hdct : m.primDct with
  | nil =>
    -- the group of a processor would be in the dictionary
    have hzero : ¬ 0 < n := by
      intro hpos
      have hmem : (⟨0, hpos⟩ : Fin n) ∈ m.group (m.vcm ⟨0, hpos⟩).prim := mem_group.mpr rfl
      have hitem := mem_primDct.mpr ⟨rfl, List.ne_nil_of_mem hmem⟩
      rw [hdct] at hitem
      exact List.not_mem_nil hitem
    simp [supChangeLoop, hzero]
  | cons e dct =>
    have hmem : (e.1, e.2) ∈ m.primDct := by
      rw [hdct]
      exact List.mem_cons_self
    obtain ⟨-, hne⟩ := mem_primDct.mp hmem
    obtain ⟨k, -⟩ := List.exists_mem_of_ne_nil _ hne
    have hpos : 0 < n := k.pos
    have hfirst : (n : Int) - 2 * m.numberOfByzantine ≤ (m.needChgSetIntersection order
        (if x ≤ e.2.length then e.2 else [])).card := by omega
    simp only [supChangeLoop, hfirst, if_true, hpos]

/-- A record of a group that agrees, and names enough, has supporters. -/
theorem supported_of_names (h : m.RecordsAgree x) (hpos : 2 * m.numberOfByzantine < n)
    {k : Fin n} (hlarge : x ≤ (m.group (m.vcm k).prim).length) (hnames : m.Names k) :
    m.Supported x := by
  rcases h.groups hpos k hlarge with hnone | ⟨-, i, hi, hiNames, hmany⟩
  · exact absurd hnames (hnone k (mem_group.mpr rfl))
  -- those who name all that `i` names support the change
  refine ⟨((m.group (m.vcm k).prim).filter fun k =>
    (m.vcm i).needChgSet ⊆ (m.vcm k).needChgSet).toFinset, ?_, ⟨(m.vcm k).prim, ?_⟩,
    (m.vcm i).needChgSet, hiNames, ?_⟩
  · rw [List.toFinset_card_of_nodup ((nodup_group _).filter _), ← List.countP_eq_length_filter]
    exact hmany
  · exact fun j hj => mem_group.mp (List.mem_filter.mp (List.mem_toFinset.mp hj)).1
  · exact fun j hj => of_decide_eq_true (List.mem_filter.mp (List.mem_toFinset.mp hj)).2

/-- In a group that agrees whoever is found first names enough, if anybody does. -/
theorem firstNaming_of_names (h : m.RecordsAgree x) (hpos : 2 * m.numberOfByzantine < n)
    {j : Fin n} (hlarge : x ≤ (m.group (m.vcm j).prim).length) (hnames : m.Names j) :
    ∃ k, m.FirstNaming order x k ∧ m.Names k := by
  rcases h.groups hpos j hlarge with hnone | ⟨hall, -⟩
  · exact absurd hnames (hnone j (mem_group.mpr rfl))
  have hnaming : (m.vcm j).needChgSet ≠ ∅ := by
    intro hempty
    rw [Names, hempty, Finset.card_empty] at hnames
    omega
  have hfound : ((order.iter (m.group (m.vcm j).prim)).find?
      fun k => (m.vcm k).needChgSet ≠ ∅).isSome = true :=
    List.find?_isSome.mpr ⟨j, order.mem_iter.mpr (mem_group.mpr rfl), decide_eq_true hnaming⟩
  obtain ⟨k, hk⟩ := Option.isSome_iff_exists.mp hfound
  have hmem := order.mem_iter.mp (List.mem_of_find?_eq_some hk)
  have hsame := mem_group.mp hmem
  have hsome : (m.vcm k).needChgSet ≠ ∅ := by simpa using List.find?_some hk
  refine ⟨k, ⟨?_, ?_⟩, hall k hmem hsome⟩
  · rw [hsame]
    exact hlarge
  · rw [hsame]
    exact hk

/-- Where the records agree in such a way, the code decides whether a change is supported. -/
theorem supChange_iff_supported (hx : 1 ≤ x) (h : m.RecordsAgree x) :
    m.supChange order x = true ↔ m.Supported x := by
  by_cases hn : n ≤ 2 * m.numberOfByzantine
  · rw [supChange_of_le hn, supported_iff_of_le hn]
    refine ⟨h.large hn, fun hlarge => ?_⟩
    obtain ⟨p, hp⟩ := hlarge
    obtain ⟨k, -⟩ := List.exists_mem_of_length_pos (by omega : 0 < (m.group p).length)
    exact k.pos
  have hpos : 2 * m.numberOfByzantine < n := by omega
  rw [supChange_first_iff hpos]
  constructor
  · intro hcode
    obtain ⟨k, hfirst, hnames⟩ := hcode
    exact supported_of_names h hpos hfirst.1 hnames
  · intro hsupported
    obtain ⟨X, hmany, ⟨p, hagree⟩, S, hS, hshare⟩ := hsupported
    obtain ⟨j, hj⟩ := Finset.card_pos.mp (by omega : 0 < X.card)
    have hprim := hagree j hj
    subst hprim
    have hlarge := card_le_length_group hagree
    have hjNames : m.Names j := by
      have hle := Finset.card_le_card (hshare j hj)
      rw [Names]
      omega
    exact firstNaming_of_names h hpos (by omega) hjNames

/-! ## Six processors -/

/-- Six processors with primary 0 that name the given processors. -/
def naming (sets : Fin 6 → Finset Int) : PrimaryMonitoringModule 6 :=
  { init 0 1 true with vcm := fun k => ⟨.ok, 0, true, sets k⟩ }

/-- Records 0 to 3 name four processors, and one of them a fifth one. -/
theorem supChange_iff_supported_four :
    (naming ![{0, 1, 2, 3}, {0, 1, 2, 3, 4}, {0, 1, 2, 3}, {0, 1, 2, 3}, ∅, ∅]).Supported 4 := by
  have hagree : (naming
      ![{0, 1, 2, 3}, {0, 1, 2, 3, 4}, {0, 1, 2, 3}, {0, 1, 2, 3}, ∅, ∅]).RecordsAgree 4 :=
    ⟨fun _ => by decide, fun hle => absurd hle (by decide)⟩
  exact (@supChange_iff_supported _ .insertion _ _ (by decide) hagree).mp (by decide)

/-- Only processor 0 names anyone. -/
theorem supChange_alone :
    (naming fun k => if k = 0 then {0, 1, 2, 3} else ∅).supChange .insertion 4 = true ∧
      ¬ (naming fun k => if k = 0 then {0, 1, 2, 3} else ∅).Supported 4 := by
  refine ⟨by decide, ?_⟩
  intro h
  obtain ⟨X, hmany, -, S, hS, hshare⟩ := h
  obtain ⟨k, hk, hne⟩ := Finset.exists_mem_ne (by omega : 1 < X.card) 0
  have hempty : S ⊆ ∅ := by
    have hsub : S ⊆ if k = 0 then {0, 1, 2, 3} else ∅ := hshare k hk
    rwa [if_neg hne] at hsub
  rw [Finset.subset_empty.mp hempty] at hS
  exact absurd hS (by decide)

end BFTList.PrimaryMonitoringModule

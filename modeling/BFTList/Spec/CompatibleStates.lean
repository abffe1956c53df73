import BFTList.Spec.ConsecutiveLog
import BFTList.Spec.StateInStep

/-!
# The best compatible states

`com_pref_states` looks at all combinations of enough processors, keeps those
whose states are pairwise prefixes of each other, and of these the first one
whose shortest state is longest. A processor with default data only goes with
others that have default data.

## Key results

- `prefixes_iff`, `compatible_iff`: the tests of the source
- `shortest_of_compatible`: the common prefix of compatible states is the shortest one
- `comPrefStates_best`: what `com_pref_states` returns
- `consolidated_source`: where state and log of the consolidated pair come from
- `prefixes_consolidate`: consolidation keeps the states of correct processors comparable
-/

namespace BFTList.ReplicationModule

variable {n : Nat} {m m' : ReplicationModule n} {p : PrefStates} {x : ConsState}

/-! ## Compatible processors -/

/-- The prefix test succeeds iff one of the lists begins with the other. -/
theorem prefixes_iff {a b : List Value} : prefixes a b = true ↔ a <+: b ∨ b <+: a := by
  induction a generalizing b with
  | nil => simp [prefixes]
  | cons x a ih =>
    cases b with
    | nil => simp [prefixes]
    | cons y b =>
      simp only [prefixes, Bool.and_eq_true, decide_eq_true_eq, ih, List.cons_prefix_cons]
      constructor
      · rintro ⟨rfl, h⟩
        simpa using h
      · rintro (⟨rfl, h⟩ | ⟨rfl, h⟩)
        · exact ⟨rfl, Or.inl h⟩
        · exact ⟨rfl, Or.inr h⟩

theorem prefixes_comm (a b : List Value) : prefixes a b = prefixes b a := by
  rw [Bool.eq_iff_iff, prefixes_iff, prefixes_iff, or_comm]

/-- `are_prefixes` holds of two processors. -/
def Compatible (m : ReplicationModule n) (i j : Fin n) : Prop :=
  m.arePrefixes i.val j.val = .ok true

instance (m : ReplicationModule n) (i j : Fin n) : Decidable (m.Compatible i j) :=
  inferInstanceAs (Decidable (_ = _))

/-- All processors of a set are compatible with each other. -/
def CompatibleSet (m : ReplicationModule n) (s : Finset (Fin n)) : Prop :=
  ∀ i ∈ s, ∀ j ∈ s, i ≠ j → m.Compatible i j

instance (m : ReplicationModule n) (s : Finset (Fin n)) : Decidable (m.CompatibleSet s) :=
  inferInstanceAs (Decidable (∀ i ∈ s, _))

/-- Both have default data, or none has; the states of default data are empty. -/
theorem compatible_iff {i j : Fin n} :
    m.Compatible i j ↔ (m.rep i).isDefPrefix = (m.rep j).isDefPrefix ∧
      prefixes (m.rep i).repState (m.rep j).repState = true := by
  have hempty : ∀ j, (m.rep j).isDefPrefix = true → (m.rep j).repState = [] := by
    intro j hdef
    simp only [ReplicaStructure.isDefPrefix, decide_eq_true_eq] at hdef
    exact hdef.1
  simp only [Compatible, arePrefixes, repAt_val, bind, Except.bind, pure, Except.pure]
  cases hi : (m.rep i).isDefPrefix with
  | true =>
    rw [hempty i hi]
    cases hj : (m.rep j).isDefPrefix with
    | true => simp [prefixes]
    | false => simp
  | false =>
    cases hj : (m.rep j).isDefPrefix with
    | true => simp
    | false => simp

theorem Compatible.refl (m : ReplicationModule n) (i : Fin n) : m.Compatible i i :=
  compatible_iff.mpr ⟨rfl, prefixes_iff.mpr (Or.inl List.prefix_rfl)⟩

theorem Compatible.symm {i j : Fin n} (h : m.Compatible i j) : m.Compatible j i := by
  obtain ⟨hdef, hpre⟩ := compatible_iff.mp h
  exact compatible_iff.mpr ⟨hdef.symm, prefixes_comm _ _ ▸ hpre⟩

/-- The test of a combination asks for every pair in it. -/
theorem allPrefixes_iff {c : List (Fin n)} :
    m.allPrefixes (c.map fun j => (j.val : Int)) = .ok true ↔ c.Pairwise m.Compatible := by
  rw [allPrefixes, allM_eq_true,
    List.forall_mem_pairs (R := fun a b => m.arePrefixes a b = .ok true), List.pairwise_map]
  rfl

theorem compatible_of_pairwise {c : List (Fin n)} (h : c.Pairwise m.Compatible) :
    ∀ i ∈ c, ∀ j ∈ c, m.Compatible i j := by
  have hsymm : Std.Symm m.Compatible := ⟨fun _ _ hij => hij.symm⟩
  intro i hi j hj
  by_cases hij : i = j
  · exact hij ▸ Compatible.refl m i
  · exact h.forall hi hj hij

/-- The common prefix of compatible states is the shortest of them. -/
theorem shortest_of_compatible {c : List (Fin n)} (hne : c ≠ []) (hc : c.Pairwise m.Compatible) :
    ∃ l ∈ c, (∀ j ∈ c, (m.rep l).repState <+: (m.rep j).repState) ∧
      findPrefix (c.map fun j => (m.rep j).repState) = .ok (some (m.rep l).repState) ∧
      m.prefixLength c = (m.rep l).repState.length := by
  have hall := compatible_of_pairwise hc
  -- all states are beginnings of the longest one
  obtain ⟨i, hi, hmax⟩ := Finset.exists_max_image c.toFinset
    (fun j => (m.rep j).repState.length) (List.toFinset_nonempty_iff c |>.mpr hne)
  have hwhole : ∀ t ∈ c.map fun j => (m.rep j).repState, t <+: (m.rep i).repState := by
    intro t ht
    obtain ⟨j, hj, rfl⟩ := List.mem_map.mp ht
    have hle := hmax j (List.mem_toFinset.mpr hj)
    cases prefixes_iff.mp (compatible_iff.mp (hall j hj i (List.mem_toFinset.mp hi))).2 with
    | inl hpre => exact hpre
    | inr hpre => exact hpre.eq_of_length_le hle ▸ List.prefix_rfl
  obtain ⟨t, ht, hpre, hfind⟩ := findPrefix_of_prefixes _ _ (by simpa using hne) hwhole
  obtain ⟨l, hl, rfl⟩ := List.mem_map.mp ht
  refine ⟨l, hl, fun j hj => hpre _ (List.mem_map_of_mem hj), hfind, ?_⟩
  rw [prefixLength, hfind]

/-! ## The chosen processors -/

/-- `required` compatible processors whose shortest state is the longest possible. -/
structure Best (m : ReplicationModule n) (required : Nat) (c : List (Fin n)) : Prop where
  distinct : c.Nodup
  many : c.length = required
  compatible : ∀ i ∈ c, ∀ j ∈ c, m.Compatible i j
  shortest : ∃ l ∈ c, findPrefix (c.map fun j => (m.rep j).repState) =
      .ok (some (m.rep l).repState) ∧
    (∀ j ∈ c, (m.rep l).repState.length ≤ (m.rep j).repState.length) ∧
    ∀ s : Finset (Fin n), s.card = required → m.CompatibleSet s →
      ∃ j ∈ s, (m.rep j).repState.length ≤ (m.rep l).repState.length

/-- The candidates of `com_pref_states`. -/
private theorem mem_candidates {required : Nat} {c : List (Fin n)} :
    c ∈ (((List.finRange n).combinations required).filter fun c =>
        m.allPrefixes (c.map fun j => (j.val : Int)) = .ok true) ↔
      (c.Sublist (List.finRange n) ∧ c.length = required) ∧ c.Pairwise m.Compatible := by
  rw [List.mem_filter, List.mem_combinations, decide_eq_true_iff, allPrefixes_iff]

/-- The processors whose states `com_pref_states` chooses. -/
def chosen (m : ReplicationModule n) (required : Int) : List (Fin n) :=
  ((((List.finRange n).combinations required.toNat).filter fun c =>
      m.allPrefixes (c.map fun j => (j.val : Int)) = .ok true).foldl
    (List.keepBest m.prefixLength) (-1, [])).2

/-- Every compatible set of the right size is a candidate. -/
theorem exists_candidate {required : Nat} {s : Finset (Fin n)} (hcard : s.card = required)
    (hs : m.CompatibleSet s) : ∃ c : List (Fin n), c.toFinset = s ∧
      (c.Sublist (List.finRange n) ∧ c.length = required) ∧ c.Pairwise m.Compatible := by
  have hnodup := (List.nodup_finRange n).filter fun j => decide (j ∈ s)
  have hset : ((List.finRange n).filter fun j => decide (j ∈ s)).toFinset = s := by
    ext j
    simp
  refine ⟨(List.finRange n).filter fun j => decide (j ∈ s), hset,
    ⟨List.filter_sublist, ?_⟩, ?_⟩
  · rw [← List.toFinset_card_of_nodup hnodup, hset, hcard]
  · apply List.Pairwise.imp_of_mem ?_ hnodup
    intro i j hi hj hij
    exact hs i (by simpa using hi) j (by simpa using hj) hij

/-- The chosen processors are a candidate, and no candidate has a longer shortest state;
    without candidates none are chosen. -/
theorem chosen_spec {required : Nat} (hpos : 1 ≤ required) :
    (m.chosen required = [] ∧ ¬ ∃ s : Finset (Fin n), s.card = required ∧ m.CompatibleSet s) ∨
      m.Best required (m.chosen required) := by
  obtain ⟨hle, -, hend⟩ := List.foldl_keepBest_spec m.prefixLength
    (((List.finRange n).combinations required).filter fun c =>
      m.allPrefixes (c.map fun j => (j.val : Int)) = .ok true) (-1, [])
  have hnonempty : ∀ c : List (Fin n), c.length = required → c ≠ [] := by
    rintro c hc rfl
    simp at hc
    omega
  have hchosen : m.chosen required = ((((List.finRange n).combinations required).filter fun c =>
      m.allPrefixes (c.map fun j => (j.val : Int)) = .ok true).foldl
      (List.keepBest m.prefixLength) (-1, [])).2 := rfl
  rcases hend with hsame | ⟨hmem, hscore⟩
  · -- a candidate would have scored more than the start
    left
    refine ⟨by rw [hchosen, hsame], ?_⟩
    rintro ⟨s, hcard, hs⟩
    obtain ⟨c, -, hsub, hpair⟩ := exists_candidate hcard hs
    obtain ⟨l, -, -, -, hlength⟩ := shortest_of_compatible (hnonempty c hsub.2) hpair
    have hlow := hle c (mem_candidates.mpr ⟨hsub, hpair⟩)
    rw [hsame, hlength] at hlow
    simp only at hlow
    omega
  · right
    rw [← hchosen] at hmem hscore
    obtain ⟨⟨hsub, hmany⟩, hpair⟩ := mem_candidates.mp hmem
    obtain ⟨l, hl, hpre, hfind, hlength⟩ := shortest_of_compatible (hnonempty _ hmany) hpair
    refine ⟨hsub.nodup (List.nodup_finRange n), hmany, compatible_of_pairwise hpair, l, hl, hfind,
      fun j hj => (hpre j hj).length_le, ?_⟩
    intro s hcard hs
    obtain ⟨c, hset, hsub', hpair'⟩ := exists_candidate hcard hs
    obtain ⟨j, hj, -, -, hlength'⟩ := shortest_of_compatible (hnonempty c hsub'.2) hpair'
    have hlow := hle c (mem_candidates.mpr ⟨hsub', hpair'⟩)
    refine ⟨j, hset ▸ List.mem_toFinset.mpr hj, ?_⟩
    rw [hscore, hlength, hlength'] at hlow
    omega

/-- With ids that are positions, `com_pref_states` returns states and logs of a best
    compatible set, with the flag for default data iff all of it has them; without a
    compatible set of the size it returns nothing. -/
theorem comPrefStates_best (hids : ∀ j, (m.rep j).id = j.val) {required : Nat}
    (hpos : 1 ≤ required) :
    ((∃ s : Finset (Fin n), s.card = required ∧ m.CompatibleSet s) →
      ∃ c p, m.comPrefStates required = .ok p ∧ m.Best required c ∧
        p.states = c.map (fun j => (m.rep j).repState) ∧
        p.rLogs = c.map (fun j => (m.rep j).rLog) ∧
        (p.isDefaultPrefix = true ↔ ∀ j ∈ c, (m.rep j).isDefPrefix = true)) ∧
    ((¬ ∃ s : Finset (Fin n), s.card = required ∧ m.CompatibleSet s) →
      m.comPrefStates required = .ok ⟨[], [], false⟩) := by
  have hpos' : (0 : Int) < required := by omega
  have hok := comPrefStates_ok hids hpos'
  rw [← chosen] at hok
  rcases chosen_spec (m := m) hpos with ⟨hnil, hnone⟩ | hbest
  · exact ⟨fun hsome => absurd hsome hnone, fun _ => by rw [hok, hnil]; rfl⟩
  · constructor
    · intro _
      refine ⟨_, _, hok, hbest, rfl, rfl, ?_⟩
      simp only [List.any_eq_true]
      obtain ⟨l, hl, -⟩ := hbest.shortest
      constructor
      · -- one with default data is compatible with such only
        rintro ⟨i, hi, hdef⟩ j hj
        rw [← (compatible_iff.mp (hbest.compatible i hi j hj)).1, hdef]
      · exact fun hall => ⟨l, hl, hall l hl⟩
    · intro hnone
      refine absurd ⟨(m.chosen required).toFinset, ?_, ?_⟩ hnone
      · rw [List.toFinset_card_of_nodup hbest.distinct, hbest.many]
      · exact fun i hi j hj _ =>
          hbest.compatible i (List.mem_toFinset.mp hi) j (List.mem_toFinset.mp hj)

/-- Four replicas that executed two requests, and two with default data. -/
def mixedTable : ReplicationModule 6 :=
  { viewChangeTable 2 [] [] with
    rep := fun j => if j.val < 4 then (viewChangeTable 2 [] []).rep j
      else ReplicaStructure.init j.val 1 }

/-- Four of them are compatible, five are not. -/
theorem comPrefStates_best_mixed :
    (∃ c p, mixedTable.comPrefStates 4 = .ok p ∧ mixedTable.Best 4 c ∧
      p.states = c.map fun j => (mixedTable.rep j).repState) ∧
    mixedTable.comPrefStates 5 = .ok ⟨[], [], false⟩ := by
  have hids : ∀ j, (mixedTable.rep j).id = j.val := by decide
  constructor
  · obtain ⟨c, p, hok, hbest, hstates, -⟩ := (comPrefStates_best hids (by decide)).1
      ⟨{0, 1, 2, 3}, rfl, by decide⟩
    exact ⟨c, p, hok, hbest, hstates⟩
  · have hfive : 1 ≤ 5 := by decide
    exact (comPrefStates_best hids hfive).2 (by decide)

/-! ## The consolidated pair -/

/-- The state they have in common. -/
def agreedState (m : ReplicationModule n) (required : Int) : Option (List Value) :=
  (findPrefix ((m.chosen required).map fun j => (m.rep j).repState)).toOption.join

/-- The first of them whose log has a part that produces an end of the state, with
    the shortest such part. -/
def fittingLog (m : ReplicationModule n) (required : Int) (s : List Value) :
    Option (Fin n × List LogEntry) :=
  (m.chosen required).findSome? fun j =>
    (matchingPart s (m.rep j).rLog).map fun part => (j, part)

/-- State and log of a consolidated pair. -/
theorem findConsState_source (hids : ∀ j, (m.rep j).id = j.val) {required : Int}
    (hpos : 0 < required) (hp : m.comPrefStates required = .ok p) (hx : findConsState p = .ok x)
    {s : List Value} (hs : x.repState = some s) :
    m.agreedState required = some s ∧
      x.rLog = ((m.fittingLog required s).map (·.2)).getD [] := by
  obtain ⟨hstates, hrLogs⟩ := comPrefStates_eq hids hpos hp
  rw [← chosen] at hstates hrLogs
  rcases findConsState_cases hx with ⟨rfl, -⟩ | ⟨prefixState, -, hfound, ⟨rfl, -⟩ | ⟨rfl, -⟩⟩
  · cases hs
  · cases hs
  simp only [Option.some.injEq] at hs
  subst hs
  constructor
  · rw [agreedState, ← hstates, hfound]
    rfl
  -- searching the logs for a part, or the processors for one whose log has a part
  · have hparts : (Option.map (·.2) ∘ fun j : Fin n =>
        (matchingPart prefixState (m.rep j).rLog).map fun part => (j, part)) =
        matchingPart prefixState ∘ fun j => (m.rep j).rLog := by
      funext j
      simp
    rw [fittingLog, List.map_findSome?, hparts, ← List.findSome?_map, ← hrLogs]
    rfl

/-- The number of processors the consolidated pair needs: a state of `n - 2f` of them
    comes first. -/
def supporters (m : ReplicationModule n) : Int :=
  match m.comPrefStates (n - 2 * m.numberOfByzantine) >>= findConsState with
  | .ok x => if x.repState.isSome then n - 2 * m.numberOfByzantine
      else n - 3 * m.numberOfByzantine
  | .error _ => n - 2 * m.numberOfByzantine

theorem getDsState_source {s : List Value} (h : m.getDsState = .ok x) (hs : x.repState = some s) :
    ∃ p, m.comPrefStates (n - 3 * m.numberOfByzantine) = .ok p ∧ findConsState p = .ok x := by
  obtain ⟨p, hp, h⟩ := Py.of_bind h
  obtain ⟨y, hy, h⟩ := Py.of_bind h
  refine ⟨p, hp, ?_⟩
  split at h
  · cases h
    exact hy
  · obtain ⟨count, -, h⟩ := Py.of_bind h
    split at h
    · cases h
      exact hy
    · cases h
      cases hs

/-- The consolidated pair is the state some processors agree on, and the shortest
    fitting part of the first log of theirs that has one. -/
theorem consolidated_source (hids : ∀ j, (m.rep j).id = j.val)
    (hfew : 3 * m.numberOfByzantine < n) (h : m.consolidated = .ok x) {s : List Value}
    (hs : x.repState = some s) :
    m.agreedState m.supporters = some s ∧
      x.rLog = ((m.fittingLog m.supporters s).map (·.2)).getD [] := by
  simp only [consolidated] at h
  obtain ⟨p, hp, h⟩ := Py.of_bind h
  obtain ⟨y, hy, h⟩ := Py.of_bind h
  obtain ⟨z, hz, h⟩ := Py.of_bind h
  -- how many supporters are asked for depends on the first attempt
  have hsupporters : m.supporters = if y.repState.isSome then (n : Int) - 2 * m.numberOfByzantine
      else n - 3 * m.numberOfByzantine := by
    simp only [supporters, hp, bind, Except.bind, hy]
  simp only [pure, Except.pure, Except.ok.injEq] at h
  -- `n - 2f` processors share a state, which is taken
  cases hstate : y.repState with
  | some t =>
    rw [hstate] at h hsupporters
    simp only [Option.isNone_some, Bool.false_eq_true, false_and, if_false] at h
    rw [hsupporters, if_pos Option.isSome_some]
    exact findConsState_source hids (by omega) hp (h ▸ hy) hs
  | none =>
    rw [hstate] at h hsupporters
    rw [hsupporters, if_neg (by simp)]
    split at h
    · -- the state of `get_ds_state`
      subst h
      obtain ⟨p', hp', hz'⟩ := getDsState_source hz hs
      exact findConsState_source hids (by omega) hp' hz' hs
    · rw [← h, hstate] at hs
      cases hs

/-! ## Consolidation -/

/-- The beginning of a state is comparable with whatever the state is comparable with. -/
theorem prefixes_of_isPrefix {s t u : List Value} (hs : s <+: t) (ht : prefixes t u = true) :
    prefixes s u = true := by
  apply prefixes_iff.mpr
  cases prefixes_iff.mp ht with
  | inl htu => exact Or.inl (hs.trans htu)
  | inr hut => exact List.prefix_or_prefix_of_prefix hs hut

/-- A consolidated state is the beginning of the state of a correct processor. -/
theorem exists_correct_of_consolidated {faulty : Finset (Fin n)}
    (hn : 5 * m.numberOfByzantine + 1 ≤ n) (hfaulty : faulty.card ≤ m.numberOfByzantine)
    (hids : ∀ j, (m.rep j).id = j.val) {x : ConsState} (h : m.consolidated = .ok x)
    {s : List Value} (hs : x.repState = some s) : ∃ j, j ∉ faulty ∧ s <+: (m.rep j).repState := by
  obtain ⟨hagreed, -⟩ := consolidated_source hids (by omega) h hs
  -- `n - 2f` processors are chosen, or `n - 3f`
  have hmany : (n : Int) - 3 * m.numberOfByzantine ≤ m.supporters := by
    rw [supporters]
    split
    · split
      · omega
      · omega
    · omega
  obtain ⟨required, hrequired⟩ := Int.eq_ofNat_of_zero_le (a := m.supporters) (by omega)
  rw [hrequired] at hagreed hmany
  have hpos : 1 ≤ required := by omega
  rcases chosen_spec (m := m) hpos with ⟨hnil, -⟩ | hbest
  · rw [agreedState, hnil] at hagreed
    cases hagreed
  · obtain ⟨l, hl, hfind, hshort, -⟩ := hbest.shortest
    rw [agreedState, hfind] at hagreed
    cases hagreed
    -- one of the chosen processors is correct
    have hcard : faulty.card < (m.chosen required).toFinset.card := by
      rw [List.toFinset_card_of_nodup hbest.distinct, hbest.many]
      omega
    obtain ⟨j, hj, hcorrect⟩ := Quorum.exists_correct hcard
    have hj' := List.mem_toFinset.mp hj
    refine ⟨j, hcorrect, ?_⟩
    cases prefixes_iff.mp (compatible_iff.mp (hbest.compatible l hl j hj')).2 with
    | inl hpre => exact hpre
    | inr hpre => exact hpre.eq_of_length_le (hshort j hj') ▸ List.prefix_rfl

/-- With at most `f` faulty structures, whatever these contain, the consolidation step of
    a correct processor keeps the states of the correct ones pairwise comparable. -/
theorem prefixes_consolidate {faulty : Finset (Fin n)} (hn : 5 * m.numberOfByzantine + 1 ≤ n)
    (hfaulty : faulty.card ≤ m.numberOfByzantine) (hids : ∀ j, (m.rep j).id = j.val)
    (hself : m.id ∉ faulty)
    (horder : ∀ i, i ∉ faulty → ∀ j, j ∉ faulty →
      prefixes (m.rep i).repState (m.rep j).repState = true)
    (h : m.consolidate = .ok m') :
    ∀ i, i ∉ faulty → ∀ j, j ∉ faulty →
      prefixes (m'.rep i).repState (m'.rep j).repState = true := by
  obtain ⟨x, hx, hwritten⟩ := consolidate_cases h
  -- the state that is written is comparable with all that were there
  obtain ⟨rs, rfl, hnew⟩ : ∃ rs, m' = m.setOwn rs ∧
      ∀ j, j ∉ faulty → prefixes rs.repState (m.rep j).repState = true := by
    rcases hwritten with rfl | rfl
    · exact ⟨_, rfl, horder m.id hself⟩
    · refine ⟨_, rfl, fun j hj => ?_⟩
      cases hs : x.repState with
      | none => simp [prefixes]
      | some s =>
        obtain ⟨c, hc, hpre⟩ := exists_correct_of_consolidated hn hfaulty hids hx hs
        exact prefixes_of_isPrefix hpre (horder c hc j hj)
  intro i hi j hj
  by_cases hi' : i = m.id
  · by_cases hj' : j = m.id
    · rw [hi', hj']
      exact prefixes_iff.mpr (Or.inl List.prefix_rfl)
    · rw [hi', rep_setOwn_of_ne hj']
      show prefixes (own _).repState _ = true
      rw [own_setOwn]
      exact hnew j hj
  · rw [rep_setOwn_of_ne hi']
    by_cases hj' : j = m.id
    · rw [hj', prefixes_comm]
      show prefixes (own _).repState _ = true
      rw [own_setOwn]
      exact hnew i hi
    · rw [rep_setOwn_of_ne hj']
      exact horder i hi j hj

/-- Processor 0 has executed one request, the others twenty. -/
def delayedTable : ReplicationModule 6 :=
  { viewChangeTable 20 [] [] with
    rep := Function.update (viewChangeTable 20 [] []).rep 0 ((viewChangeTable 1 [] []).rep 0) }

/-- A replica that is nineteen requests behind adopts a state of the others. -/
theorem prefixes_consolidate_delayed : ∃ m', delayedTable.consolidate = .ok m' ∧
    m'.own.repState.length = 20 ∧ ∀ i, i ∉ ({5} : Finset (Fin 6)) →
      ∀ j, j ∉ ({5} : Finset (Fin 6)) →
        prefixes (m'.rep i).repState (m'.rep j).repState = true := by
  obtain ⟨m', hok, hlength⟩ := Py.exists_of_any (x := delayedTable.consolidate)
    (p := fun m' => m'.own.repState.length = 20) (by decide +kernel)
  refine ⟨m', hok, of_decide_eq_true hlength, ?_⟩
  exact prefixes_consolidate (by decide) (by decide) (by decide) (by decide)
    (by decide) hok

end BFTList.ReplicationModule

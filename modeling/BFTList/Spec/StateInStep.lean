import BFTList.Spec.NewView

/-!
# State and log in step

A consolidated state comes with the first part of some log that produces an end of
it. For the next execution that part should end with the request that completed
the state. Values that repeat, requests without operation and logs that were cut
make shorter or later parts fit, and the shortest one is taken.

## Key results

- `InStep`: state and log are those of a replica that executed some first requests
- `inStep_iff`: when the shortest fitting part of an honest log is in step
- `findConsState_inStep_iff`: when the consolidated pair is, for any number of processors
- `findConsState_behind`: with a repeated value it is not
-/

namespace BFTList

open ReplicationModule

/-- The state and the end of the log after some first requests of the history, so
    that the next request is the one after these. -/
def InStep (history : List Request) (s : List Value) (rLog : List LogEntry) : Prop :=
  ∃ e ≤ history.length, s = stateAfter history e ∧
    rLog.map (·.request) <:+ history.take e ∧ lastSeq rLog + 1 = e

/-- Number of values in the state when a first part of the log had been executed. -/
def valuesAfter (rs : ReplicaStructure) (part : List LogEntry) : Int :=
  rs.repState.length - (replay (rs.rLog.drop part.length)).length

/-- Some first part of the log ends when the state is complete, and none that ends
    earlier produces an end of it. -/
def PointFound (s : List Value) (rs : ReplicaStructure) : Prop :=
  (∃ part ∈ rs.rLog.inits, part ≠ [] ∧ valuesAfter rs part = s.length) ∧
    ∀ part ∈ rs.rLog.inits, part ≠ [] → replay part <:+ s → s.length ≤ valuesAfter rs part

instance (s : List Value) (rs : ReplicaStructure) : Decidable (PointFound s rs) :=
  inferInstanceAs (Decidable ((∃ part ∈ rs.rLog.inits, _) ∧ ∀ part ∈ rs.rLog.inits, _))

namespace Executed

variable {history : List Request} {k executed : Nat} {rs : ReplicaStructure}
  {part : List LogEntry}

/-- Number of requests executed when a first part of the log had been. -/
def upTo (k executed : Nat) (part : List LogEntry) : Nat :=
  executed - 3 * SIGMA * k + part.length

theorem upTo_le (h : Executed history k executed rs) (hpart : part <+: rs.rLog) :
    upTo k executed part ≤ executed := by
  have hlength := congrArg List.length h.logged
  rw [ReplicaStructure.logged, List.length_map, List.length_drop, List.length_take,
    Nat.min_eq_left h.le] at hlength
  have hle := hpart.length_le
  unfold upTo
  omega

/-- A first part of the log is what was executed between its start and its end. -/
theorem part_eq (h : Executed history k executed rs) (hpart : part <+: rs.rLog) :
    part.map (·.request) =
      (history.take (upTo k executed part)).drop (executed - 3 * SIGMA * k) := by
  have hle := h.upTo_le hpart
  have htake := List.prefix_iff_eq_take.mp (hpart.map (·.request))
  -- the log is what was executed after the part that was cut off
  rw [List.length_map, show rs.rLog.map (·.request) = rs.logged from rfl, h.logged] at htake
  rw [htake, List.take_drop, List.take_take, ← upTo, Nat.min_eq_left hle]

/-- The values in the state then are those the first requests produce. -/
theorem valuesAfter_eq (h : Executed history k executed rs) (hpart : part <+: rs.rLog) :
    valuesAfter rs part = (stateAfter history (upTo k executed part)).length := by
  have hle := h.upTo_le hpart
  have hrest : (rs.rLog.drop part.length).map (·.request) =
      (history.take executed).drop (upTo k executed part) := by
    rw [List.map_drop, show rs.rLog.map (·.request) = rs.logged from rfl, h.logged,
      List.drop_drop]
    rfl
  -- the state is what the requests up to there produce, and what the rest produces
  have hsplit := produce_append ((history.take executed).take (upTo k executed part))
    ((history.take executed).drop (upTo k executed part))
  rw [List.take_append_drop, List.take_take, Nat.min_eq_left hle, produce_take, produce_take]
    at hsplit
  rw [valuesAfter, replay_eq_produce, hrest, h.state, hsplit, List.length_append]
  omega

/-- A first part that is not empty ends with the request before the next one. -/
theorem lastSeq_part (h : Executed history k executed rs)
    (hnum : ∀ (i : Nat) (r : Request), history[i]? = some r → r.seqNum = i)
    (hpart : part <+: rs.rLog) (hne : part ≠ []) :
    lastSeq part + 1 = upTo k executed part := by
  have hpos : 0 < part.length := List.length_pos_iff.mpr hne
  -- its last request, by its place in the history
  have hlast : (part.map (·.request)).getLast? = history[upTo k executed part - 1]? := by
    rw [List.getLast?_eq_getElem?, List.length_map, h.part_eq hpart, List.getElem?_drop,
      List.getElem?_take_of_lt (by unfold upTo; omega)]
    congr 1
    unfold upTo
    omega
  rw [List.getLast?_map, List.getLast?_eq_getLast_of_ne_nil hne, Option.map_some] at hlast
  -- requests carry their place as number
  have hseq := hnum _ _ hlast.symm
  have hle : 0 < upTo k executed part := Nat.lt_of_lt_of_le hpos (Nat.le_add_left _ _)
  rw [lastSeq, List.getLast?_eq_getLast_of_ne_nil hne]
  dsimp only
  omega

/-- A first part produces the end of what was executed up to its end. -/
theorem replay_part_suffix (h : Executed history k executed rs) (hpart : part <+: rs.rLog) :
    replay part <:+ stateAfter history (upTo k executed part) := by
  have hsplit := produce_append
    ((history.take (upTo k executed part)).take (executed - 3 * SIGMA * k))
    ((history.take (upTo k executed part)).drop (executed - 3 * SIGMA * k))
  rw [List.take_append_drop, produce_take, ← h.part_eq hpart, ← replay_eq_produce] at hsplit
  rw [hsplit]
  exact List.suffix_append _ _

/-- A beginning of what the history produces is known by its length. -/
theorem eq_stateAfter {s : List Value} (hs : s <+: produce history) {e : Nat}
    (hlength : (stateAfter history e).length = s.length) : s = stateAfter history e := by
  have hwhole : stateAfter history e <+: produce history := by
    have hsplit := produce_append (history.take e) (history.drop e)
    rw [List.take_append_drop, produce_take] at hsplit
    rw [hsplit]
    exact List.prefix_append _ _
  -- two beginnings of one list are equal when they are equally long
  have hpre := List.prefix_of_prefix_length_le hs hwhole (by omega)
  exact hpre.eq_of_length hlength.symm

/-- A first part of the log is in step with a state iff it ends when the state is
    complete. -/
theorem inStep_part_iff (h : Executed history k executed rs)
    (hnum : ∀ (i : Nat) (r : Request), history[i]? = some r → r.seqNum = i)
    (hpart : part <+: rs.rLog) (hne : part ≠ []) {s : List Value} (hs : s <+: produce history) :
    InStep history s part ↔ valuesAfter rs part = s.length := by
  rw [h.valuesAfter_eq hpart]
  constructor
  · rintro ⟨e, -, hstate, -, hlast⟩
    rw [h.lastSeq_part hnum hpart hne] at hlast
    -- both count the requests up to the last one of the part
    have heq : upTo k executed part = e := by omega
    rw [heq, hstate]
  · intro hlength
    refine ⟨upTo k executed part, (h.upTo_le hpart).trans h.le,
      eq_stateAfter hs (by omega), ?_, h.lastSeq_part hnum hpart hne⟩
    rw [h.part_eq hpart]
    exact List.drop_suffix _ _

/-- Longer first parts end with at least as many values. -/
theorem valuesAfter_mono {part' : List LogEntry} (hle : part <+: part') :
    valuesAfter rs part ≤ valuesAfter rs part' := by
  obtain ⟨rest, rfl⟩ := hle
  -- what is still to come after the longer part comes after the shorter one
  have hdrop : rs.rLog.drop (part ++ rest).length <:+ rs.rLog.drop part.length := by
    rw [List.length_append, ← List.drop_drop]
    exact List.drop_suffix _ _
  obtain ⟨skipped, hskipped⟩ := hdrop
  have hreplay := congrArg (fun l => (replay l).length) hskipped
  simp only [replay_eq_produce, List.map_append, produce_append, List.length_append] at hreplay
  simp only [valuesAfter, replay_eq_produce, List.length_append] at hreplay ⊢
  omega

/-- The shortest fitting part of an honest log is in step with the state iff the log
    shows the point where the state was complete. -/
theorem inStep_iff (h : Executed history k executed rs)
    (hnum : ∀ (i : Nat) (r : Request), history[i]? = some r → r.seqNum = i)
    {s : List Value} (hs : s <+: rs.repState) (hfound : matchingPart s rs.rLog = some part) :
    InStep history s part ↔ PointFound s rs := by
  have hwhole := hs.trans h.state_prefix
  obtain ⟨hpart, hne, -, hshortest⟩ := matchingPart_spec hfound
  rw [h.inStep_part_iff hnum hpart hne hwhole]
  constructor
  -- the shortest fitting part ends there, and every other one later
  · intro hvalues
    refine ⟨⟨part, (List.mem_inits _ _).mpr hpart, hne, hvalues⟩, ?_⟩
    intro part' hpart' hne' hsuffix
    rw [← hvalues]
    exact valuesAfter_mono (hshortest part' ((List.mem_inits _ _).mp hpart') hne' hsuffix)
  · rintro ⟨⟨full, hfull, hfullNe, hcomplete⟩, hearly⟩
    have hfullPre := (List.mem_inits _ _).mp hfull
    -- the part that ends when the state is complete fits, too
    have hfits : replay full <:+ s := by
      have hlength := h.valuesAfter_eq hfullPre
      rw [eq_stateAfter hwhole (e := upTo k executed full) (by omega)]
      exact h.replay_part_suffix hfullPre
    have hle : valuesAfter rs part ≤ valuesAfter rs full :=
      valuesAfter_mono (hshortest full hfullPre hfullNe hfits)
    have hge := hearly part ((List.mem_inits _ _).mpr hpart) hne (matchingPart_spec hfound).2.2.1
    omega

end Executed

namespace ReplicationModule

variable {n : Nat} {m : ReplicationModule n}

/-- For the longest state that `required` states begin with, the log of the first
    processor that has the state and a fitting log shows the point where the state
    was complete. -/
def PointsFound (m : ReplicationModule n) (required : Int) : Prop :=
  ∀ l, m.MostHeld required l → (m.rep l).repState ≠ [] →
    ∀ j, isPrefixOf (m.rep l).repState (m.rep j).repState = true →
      Fits (m.rep l).repState (m.rep j).rLog →
      (∀ i < j, isPrefixOf (m.rep l).repState (m.rep i).repState = true →
        ¬ Fits (m.rep l).repState (m.rep i).rLog) →
      PointFound (m.rep l).repState (m.rep j)

instance (m : ReplicationModule n) (required : Int) : Decidable (m.PointsFound required) :=
  inferInstanceAs (Decidable (∀ _ : Fin n, _))

/-- In a table of honest replicas, what is found as consolidated state and log of any
    number of processors is in step iff the log shows where the state was complete. -/
theorem findConsState_inStep_iff {history : List Request} (h : m.Honest history)
    {required : Int} (hpos : 0 < required) {p : PrefStates} {x : ConsState}
    (hp : m.comPrefStates required = .ok p) (hx : findConsState p = .ok x) :
    (∀ s, x.repState = some s → s ≠ [] → InStep history s x.rLog) ↔ m.PointsFound required := by
  by_cases hcommon : ∃ l, m.MostHeld required l ∧ (m.rep l).repState ≠ []
  · obtain ⟨l, hl, hne⟩ := hcommon
    rcases h.adopted_common hpos hl hne hp hx with ⟨hclients, hnone, -⟩ |
      ⟨hsome, j, hj, hpart, hfirst⟩
    · -- without room in the logs nothing is found
      refine iff_of_true (fun s hs => ?_) (fun l' _ _ j' _ hfits => ?_)
      · rw [hnone] at hs
        cases hs
      · exact absurd hfits (h.not_fits_of_noClients hclients _ j')
    · have hfits : Fits (m.rep l).repState (m.rep j).rLog := by
        by_contra hnot
        rw [matchingPart_eq_none.mpr hnot] at hpart
        cases hpart
      obtain ⟨executed, hexec⟩ := h.executed j
      have hiff := hexec.inStep_iff h.numbered hj hpart
      constructor
      · intro hstep l' hl' _ j' hj' hfits' hfirst'
        rw [h.mostHeld_unique hl' hl] at hj' hfits' hfirst' ⊢
        rw [Honest.eq_of_firstFit (isPrefixOf_iff.mpr hj) hfits
          (fun i hlt hi => hfirst i hlt (isPrefixOf_iff.mp hi)) hj' hfits' hfirst']
        exact hiff.mp (hstep _ hsome hne)
      -- the log of `j` is the one that was taken
      · intro hfound s hs _
        rw [hsome, Option.some.injEq] at hs
        rw [← hs]
        apply hiff.mpr
        apply hfound l hl hne j (isPrefixOf_iff.mpr hj) hfits
        intro i hlt hi
        exact hfirst i hlt (isPrefixOf_iff.mp hi)
  -- no state but the empty one has enough support
  · have hnone : ∀ l, m.MostHeld required l → (m.rep l).repState = [] := by
      intro l hl
      by_contra hne
      exact hcommon ⟨l, hl, hne⟩
    obtain ⟨hstate, -⟩ := h.adopted_nil hpos hnone hp hx
    refine iff_of_true (fun s hs hne => ?_) (fun l hl hne => absurd (hnone l hl) hne)
    rw [hs, Option.getD_some] at hstate
    exact absurd hstate hne

/-! ## Two requests -/

/-- Six replicas that executed two requests with different values. -/
theorem findConsState_inStep_six :
    ∃ p x, (viewChangeTable 2 [] []).comPrefStates 4 = .ok p ∧ findConsState p = .ok x ∧
      x.repState = some [0, 1] ∧ InStep (appends 2) [0, 1] x.rLog := by
  obtain ⟨p, hp, hany⟩ := Py.exists_of_any (x := (viewChangeTable 2 [] []).comPrefStates 4)
    (p := fun p => (findConsState p).toOption.any fun x => x.repState = some [0, 1])
    (by decide)
  obtain ⟨x, hx, hstate⟩ := Py.exists_of_any hany
  have hsome := of_decide_eq_true hstate
  have hstep := (findConsState_inStep_iff (honest_viewChangeTable 2 [] []) (by decide) hp hx).mpr
    (by decide)
  exact ⟨p, x, hp, hx, hsome, hstep _ hsome (List.cons_ne_nil _ _)⟩

/-- Two requests that append the same value. -/
def repeated : List Request :=
  (List.range 2).map fun i : Nat => ⟨⟨0, some i, .append 7⟩, 0, i⟩

/-- Six replicas that executed both. -/
def repeatedTable : ReplicationModule 6 :=
  { init 0 1 1 true with
    rep := fun j =>
      { repeated.foldl (fun rs r => executedOwn rs r {0, 1, 2, 3} (.list [.unset]))
          (ReplicaStructure.init j.val 1) with
        id := j.val } }

theorem honest_repeatedTable : repeatedTable.Honest repeated := by
  have hnum : ∀ (i : Nat) (r : Request), repeated[i]? = some r → r.seqNum = i := by
    intro i r hr
    obtain ⟨hlt, rfl⟩ := List.getElem?_eq_some_iff.mp hr
    simp [repeated]
  refine ⟨hnum, by decide, fun j => rfl, fun j => ⟨repeated.length, ?_⟩⟩
  obtain ⟨hexec, -⟩ := Executed.of_foldl (k := 1) hnum j.val {0, 1, 2, 3} (.list [.unset])
    (Nat.le_refl _)
  rw [List.take_length] at hexec
  exact ⟨hexec.le, hexec.state, hexec.logged⟩

/-- The first request alone already produces an end of the state of both: the
    consolidated log ends with it, and the next request to execute is the second one,
    which is already contained in the state. -/
theorem findConsState_behind :
    repeatedTable.Honest repeated ∧
      ∃ p x, repeatedTable.comPrefStates 4 = .ok p ∧ findConsState p = .ok x ∧
        x.repState = some [7, 7] ∧ lastSeq x.rLog = 0 ∧ ¬ InStep repeated [7, 7] x.rLog := by
  obtain ⟨p, hp, hany⟩ := Py.exists_of_any (x := repeatedTable.comPrefStates 4)
    (p := fun p => (findConsState p).toOption.any fun x =>
      x.repState = some [7, 7] ∧ lastSeq x.rLog = 0) (by decide)
  obtain ⟨x, hx, hall⟩ := Py.exists_of_any hany
  obtain ⟨hsome, hlast⟩ := of_decide_eq_true hall
  refine ⟨honest_repeatedTable, p, x, hp, hx, hsome, hlast, ?_⟩
  rintro ⟨e, -, hstate, -, hnext⟩
  -- the log says that one request was executed
  have hone : e = 1 := by omega
  rw [hone] at hstate
  exact absurd hstate (by decide)

end ReplicationModule

end BFTList

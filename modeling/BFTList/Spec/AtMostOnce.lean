import BFTList.Spec.StableView

/-!
# At most once

In a stable view with all processors following the code, every request anywhere
was numbered by the primary, and a processor executes with growing sequence
numbers as long as its log does not lose its end. So a client request is
executed twice only if the primary numbers it twice or a log falls back.

Both happen. `unassigned_reqs` looks for the client request among the requests
under process only: once it is executed it counts as unassigned again, and a
client that sends it again, or stale copies in which it is still pending, bring
it back. And a consolidated state may be older than the own one.

## Key results

- `NumbersOnce`: the iteration of the primary numbers nothing again, and no log falls back
- `iterate_once`: one iteration of a processor
- `executed_once`: at-most-once execution in runs of such iterations
- `executed_twice`: a client that repeats its request
-/

namespace BFTList

open ReplicationModule

variable {n : Nat}

/-- An iteration in which the end of the own log does not fall back, and in which
    the primary does not renumber, does not fill gaps, and finds no client request
    unassigned that it has given a number before. -/
def NumbersOnce (p i : Fin n) (s : Node n) : Node.Action n → Prop
  | .iterate order => (s.module.reconcile s.resolver order).Returns fun m =>
      s.module.lastExec ≤ m.lastExec ∧
      (i = p →
        (s.module.own.viewChanged = true ∨ s.module.own.prim ≠ p.val → s.module.Settled) ∧
        (m.learnPendReqs.mayProcess s.resolver = true →
          m.learnPendReqs.unassignedReqs.Returns fun reqs =>
            ∀ c ∈ reqs, c ∉ s.accepted.map fun r => r.clientRequest))
  | .inject _ => True
  | .surroundings _ => True

instance (p i : Fin n) (s : Node n) (a : Node.Action n) : Decidable (NumbersOnce p i s a) :=
  match a with
  | .iterate _ => inferInstanceAs (Decidable (Py.Returns _ _))
  | .inject _ => .isTrue trivial
  | .surroundings _ => .isTrue trivial

/-! ## Executing -/

/-- All requests of a structure were numbered, and its log ascends. -/
structure Numbered (g : List Request) (rs : ReplicaStructure) : Prop
    extends Keeps (· ∈ g) rs where
  ascending : Ascending rs.rLog

theorem Numbered.mono {g g' : List Request} (hle : ∀ r ∈ g, r ∈ g') {rs : ReplicaStructure}
    (h : Numbered g rs) : Numbered g' rs := ⟨h.toKeeps.mono hle, h.ascending⟩

/-- An own structure and what was executed: everything was numbered, and the
    sequence numbers grow up to the end of the log. -/
structure Executing (g : List Request) (k : Nat) (executed : List Request)
    (rs : ReplicaStructure) : Prop where
  numbered : Numbered g rs
  clients : rs.numberOfClients = k
  mem : ∀ r ∈ executed, r ∈ g
  ascending : executed.Pairwise fun r r' => r.seqNum < r'.seqNum
  last : ∀ r ∈ executed, r.seqNum ≤ lastSeq rs.rLog

/-- The next request comes after all that were executed. -/
theorem Executing.concat {g : List Request} {k : Nat} {executed : List Request}
    {rs : ReplicaStructure} (h : Executing g k executed rs) {r : Request} (hr : r ∈ g)
    (hnext : r.seqNum = lastSeq rs.rLog + 1) :
    (∀ r' ∈ executed ++ [r], r' ∈ g) ∧
      (executed ++ [r]).Pairwise (fun r r' => r.seqNum < r'.seqNum) ∧
      ∀ r' ∈ executed ++ [r], r'.seqNum ≤ r.seqNum := by
  have hlt : ∀ r' ∈ executed, r'.seqNum < r.seqNum := by
    intro r' hr'
    have hle := h.last r' hr'
    omega
  refine ⟨fun r' hr' => ?_, ?_, fun r' hr' => ?_⟩
  · cases List.mem_append.mp hr' with
    | inl hold => exact h.mem r' hold
    | inr hnew => exact List.mem_singleton.mp hnew ▸ hr
  · apply List.pairwise_append.mpr
    refine ⟨h.ascending, List.pairwise_singleton _ _, fun a ha b hb => ?_⟩
    rw [List.mem_singleton.mp hb]
    exact hlt a ha
  · cases List.mem_append.mp hr' with
    | inl hold => exact Int.le_of_lt (hlt r' hold)
    | inr hnew => rw [List.mem_singleton.mp hnew]

/-- Committing and executing: what is handed to `commit()` was numbered, with
    growing sequence numbers. -/
theorem Executing.finish {g : List Request} {k : Nat} {executed committed : List Request}
    {m m' : ReplicationModule n} {raised : Option PyError} (hcopies : ∀ j, Numbered g (m.rep j))
    (h : Executing g k executed m.own) (hk : g ≠ [] → 0 < k)
    (hexec : (m', committed, raised) =
      executeReqs (m.commitReqs.supportedReqs {.prep, .commit}) m.commitReqs []) :
    ∃ rs, m' = m.setOwn rs ∧ Numbered g rs ∧ rs.numberOfClients = k ∧
      (m.own.pendReqs.Nodup → rs.pendReqs.Nodup) ∧
      (∀ r ∈ executed ++ committed, r ∈ g) ∧
      (executed ++ committed).Pairwise (fun r r' => r.seqNum < r'.seqNum) ∧
      (raised.isSome = false → ∀ r ∈ executed ++ committed, r.seqNum ≤ lastSeq rs.rLog) := by
  obtain ⟨rs₁, rs, done, hrs₁, hafter, ⟨hrs, hpend⟩, hraised⟩ := finish_invariant (m := m)
    (P := fun rs done => Executing g k (executed ++ done) rs ∧
      (m.own.pendReqs.Nodup → rs.pendReqs.Nodup)) hexec
    (by
      rw [List.append_nil]
      exact ⟨h, fun hn => hn⟩)
    (fun rs done repState hrs => ⟨{ hrs.1 with
      numbered := ⟨hrs.1.numbered.of_eq rfl rfl, hrs.1.numbered.ascending⟩ }, hrs.2⟩)
    (by
      intro rs r hrs hr
      obtain ⟨hrs, hpend⟩ := hrs
      have hkeeps := hrs.numbered.committed (keeps_of_supported (fun j => (hcopies j).toKeeps) hr)
      have hasc : Ascending (committedOwn rs r).rLog := by
        rw [committedOwn_rLog]
        exact hrs.numbered.ascending
      have hclients : (committedOwn rs r).numberOfClients = rs.numberOfClients := by
        unfold committedOwn
        split
        · rfl
        · rfl
      have hsub : (committedOwn rs r).pendReqs = rs.pendReqs.erase r.clientRequest := by
        unfold committedOwn
        split
        · rfl
        · rfl
      refine ⟨⟨⟨hkeeps, hasc⟩, hclients.trans hrs.clients, hrs.mem, hrs.ascending, ?_⟩,
        fun hn => ?_⟩
      · rw [committedOwn_rLog]
        exact hrs.last
      · rw [hsub]
        exact (hpend hn).sublist List.erase_sublist)
    (by
      intro rs₁ hrs₁ rs done r xSet lastReq hrs hr hnext
      obtain ⟨hrs, hpend⟩ := hrs
      have hin : r ∈ g :=
        keeps_of_supported (fun j => (rep_setOwn hcopies hrs₁.1.numbered j).toKeeps) hr
      have hpos : 0 < rs.numberOfClients := hrs.clients ▸ hk (List.ne_nil_of_mem hin)
      obtain ⟨hmem, hasc, hle⟩ := hrs.concat hin hnext
      rw [← List.append_assoc]
      refine ⟨⟨⟨hrs.numbered.executed hin xSet lastReq,
        ascending_executed hrs.numbered.ascending hnext xSet lastReq⟩, hrs.clients, hmem, hasc,
        ?_⟩, fun hn => (hpend hn).sublist List.erase_sublist⟩
      rw [lastSeq_executed hrs.numbered.ascending hpos hnext]
      exact hle)
  refine ⟨rs, hafter, hrs.numbered, hrs.clients, hpend, ?_⟩
  rcases hraised with rfl | ⟨r, hr, rfl, hnext, hsome⟩
  · exact ⟨hrs.mem, hrs.ascending, fun _ => hrs.last⟩
  · -- the last call of `commit()` raised
    have hin : r ∈ g :=
      keeps_of_supported (fun j => (rep_setOwn hcopies hrs₁.1.numbered j).toKeeps) hr
    obtain ⟨hmem, hasc, -⟩ := hrs.concat hin hnext
    rw [← List.append_assoc]
    refine ⟨hmem, hasc, fun hnone => ?_⟩
    rw [hsome] at hnone
    cases hnone

/-! ## One iteration -/

/-- What a processor keeps when `g` are the requests the primary has numbered:
    all it holds and all it executed is among them, and at the primary no two of
    them carry the same client request. -/
structure Once (p : Fin n) (f k : Nat) (g : List Request) (i : Fin n) (s : Node n) : Prop
    extends Settings p f i s where
  copies : ∀ j, Numbered g (s.module.rep j)
  clients : s.module.own.numberOfClients = k
  mem : ∀ r ∈ s.executed, r ∈ g
  ascending : s.executed.Pairwise fun r r' => r.seqNum < r'.seqNum
  last : s.stopped = false → ∀ r ∈ s.executed, r.seqNum ≤ lastSeq s.module.own.rLog
  unique : i = p → ∀ r ∈ s.accepted, ∀ r' ∈ s.accepted, r.clientRequest = r'.clientRequest → r = r'
  room : i = p → s.accepted ≠ [] → 0 < k
  pend : i = p → s.module.own.pendReqs.Nodup

theorem Once.mono {p : Fin n} {f k : Nat} {g g' : List Request} {i : Fin n} {s : Node n}
    (hle : ∀ r ∈ g, r ∈ g') (h : Once p f k g i s) : Once p f k g' i s :=
  { h with
    copies := fun j => (h.copies j).mono hle
    mem := fun r hr => hle r (h.mem r hr) }

/-- The own structure when requests have been prepared: the primary has new
    requests, and the others what the primary had. -/
theorem Once.prepared {p i : Fin n} {f k : Nat} {g created : List Request} {s : Node n}
    {order : SetOrder Int} {m₀ : ReplicationModule n} {rs₀ rs : ReplicaStructure}
    (h : Once p f k g i s) (hcare : NumbersOnce p i s (.iterate order))
    (hrec : s.module.reconcile s.resolver order = .ok m₀) (hm₀ : m₀ = s.module.setOwn rs₀)
    (hrec₀ : Reconciled p s.module rs₀) (hrs : Prepared p m₀.learnPendReqs created rs)
    (hnum : created = [] ∨ (p = m₀.id ∧ m₀.learnPendReqs.mayProcess s.resolver = true ∧
      Numbering m₀.learnPendReqs created)) :
    (∀ r ∈ rs.queued, r ∈ s.module.own.queued ∨ (i ≠ p ∧ r ∈ g) ∨
        (i = p ∧ r ∈ created ∧ 0 < k)) ∧
      (∀ r ∈ rs.logged, r ∈ g) ∧ Ascending rs.rLog ∧ rs.numberOfClients = k ∧
      s.module.lastExec ≤ lastSeq rs.rLog ∧ (i = p → rs.pendReqs.Nodup) ∧
      (i = p → (created.map fun r => r.clientRequest).Nodup ∧
        ∀ r ∈ created, ∀ r' ∈ s.accepted, r.clientRequest ≠ r'.clientRequest) := by
  have hid := h.id
  subst hid
  subst hm₀
  obtain ⟨hfall, hprim⟩ := hcare _ hrec
  rw [lastExec_eq (s.module.setOwn rs₀), own_setOwn] at hfall
  -- learning changes the pending requests only
  obtain ⟨learned, hlearn, hqueue, hlog, hclients, hpend⟩ : ∃ learned : ReplicaStructure,
      (s.module.setOwn rs₀).learnPendReqs = s.module.setOwn learned ∧
      learned.reqQ = rs₀.reqQ ∧ learned.rLog = rs₀.rLog ∧
      learned.numberOfClients = rs₀.numberOfClients ∧
      (rs₀.pendReqs.Nodup → learned.pendReqs.Nodup) := by
    refine ⟨rs₀.extendPendReqs (s.module.setOwn rs₀).knownPendReqs, ?_, rfl, rfl, rfl,
      fun hn => ReplicaStructure.nodup_pendReqs_extendPendReqs hn _⟩
    rw [learnPendReqs, own_setOwn, setOwn_setOwn]
  rw [hlearn] at hrs hnum hprim
  have hrLog : rs.rLog = rs₀.rLog := by rw [hrs.rLog, own_setOwn, hlog]
  -- without renumbering the queue was there before, here or at the primary
  have hold : ∀ r ∈ rs₀.queued, r ∈ s.module.own.queued ∨
      (p ≠ s.module.id ∧ r ∈ (s.module.rep p).queued) := by
    intro r hr
    obtain ⟨q, hq, rfl⟩ := ReplicaStructure.mem_queued.mp hr
    cases hrec₀.reqQ (fun hp => (hprim hp.symm).1) q hq with
    | inl hown => exact Or.inl (ReplicaStructure.mem_queued.mpr ⟨q, hown, rfl⟩)
    | inr hcopy => exact Or.inr ⟨hcopy.1, ReplicaStructure.mem_queued.mpr ⟨q, hcopy.2, rfl⟩⟩
  have holdg : ∀ r ∈ rs₀.queued, r ∈ s.module.own.queued ∨ (s.module.id ≠ p ∧ r ∈ g) := by
    intro r hr
    exact (hold r hr).imp (fun hown => hown)
      fun hcopy => ⟨hcopy.1.symm, (h.copies p).queued r hcopy.2⟩
  have hlearned : (s.module.setOwn learned).own.queued = rs₀.queued := by
    rw [own_setOwn, ReplicaStructure.queued, hqueue]
    rfl
  refine ⟨fun r hr => ?_, fun r hr => ?_, ?_, ?_, ?_, fun hi => ?_, fun hi => ?_⟩
  · rcases hrs.queued r hr with hown | ⟨hp, hcreated⟩ | ⟨hp, hoffer⟩
    · rw [hlearned] at hown
      exact (holdg r hown).imp (fun hown => hown) Or.inl
    · by_cases hk : k = 0
      · have hnone :=
          hrs.noClients (by rw [own_setOwn, hclients, hrec₀.clients, h.clients, hk]) r hr
        rw [hlearned] at hnone
        exact (holdg r hnone).imp (fun hown => hown) Or.inl
      · exact Or.inr (Or.inr ⟨hp.symm, hcreated, Nat.pos_of_ne_zero hk⟩)
    · have hcopy : r ∈ ((s.module.setOwn learned).rep p).queued := (mem_offers hoffer).1
      rw [rep_setOwn_of_ne (m := s.module) hp] at hcopy
      exact Or.inr (Or.inl ⟨hp.symm, (h.copies p).queued r hcopy⟩)
  · obtain ⟨e, he, rfl⟩ := ReplicaStructure.mem_logged.mp hr
    rw [hrLog] at he
    obtain ⟨j, hj⟩ := hrec₀.rLog.mem he
    exact (h.copies j).logged _ (ReplicaStructure.mem_logged.mpr ⟨e, hj, rfl⟩)
  · rw [hrLog]
    exact hrec₀.rLog.ascending fun j => (h.copies j).ascending
  · rw [hrs.clients, own_setOwn, hclients, hrec₀.clients, h.clients]
  · rw [hrLog]
    exact hfall
  · rw [hrs.pendReqs, own_setOwn]
    exact hpend (hrec₀.pendReqs hi.symm (h.pend hi))
  · rcases hnum with rfl | ⟨-, hmay, ⟨reqs, hreqs, hsub⟩, -, -⟩
    · exact ⟨List.nodup_nil, fun r hr => absurd hr List.not_mem_nil⟩
    · have hnodup : reqs.Nodup := by
        have hlearnedPend : (s.module.setOwn learned).own.pendReqs.Nodup := by
          rw [own_setOwn]
          exact hpend (hrec₀.pendReqs hi.symm (h.pend hi))
        exact hlearnedPend.sublist (filterPy_sublist hreqs)
      refine ⟨hnodup.sublist hsub, fun r hr r' hr' heq => ?_⟩
      have hmem : r.clientRequest ∈ reqs := hsub.subset (List.mem_map_of_mem hr)
      have hfresh := (hprim hi).2 hmay reqs hreqs r.clientRequest hmem
      rw [heq] at hfresh
      exact hfresh (List.mem_map_of_mem (f := fun r : Request => r.clientRequest) hr')

/-- One iteration: the primary numbers client requests it has not numbered
    before, and everybody executes what was numbered. -/
theorem iterate_once {p i : Fin n} {f k : Nat} {g : List Request} {s s' : Node n}
    {order : SetOrder Int} (h : Once p f k g i s) (hg : i = p → g = s.accepted)
    (hk : g ≠ [] → 0 < k) (hno : NoFlush s (.iterate order))
    (hcare : NumbersOnce p i s (.iterate order)) (hiter : s.iterate order = some s') :
    (∀ r ∈ g, r ∈ if i = p then s'.accepted else g) ∧
      Once p f k (if i = p then s'.accepted else g) i s' := by
  obtain ⟨m₀, created, rs, hrec, hreconciled, hrs, -, hnum, -, -, haccepted, hrest⟩ :=
    iterate_cases_inView h.toSettings hiter
  obtain ⟨rs₀, hm₀, hrec₀⟩ := hno.reconciled hrec hreconciled
  obtain ⟨hqueued, hlogged, hasc, hclients, hfall, hpend, hnew⟩ :=
    h.prepared hcare hrec hm₀ hrec₀ hrs hnum
  rw [hm₀, setOwn_setOwn] at hrest
  generalize hg' : (if i = p then s'.accepted else g) = g'
  have hle : ∀ r ∈ g, r ∈ g' := by
    intro r hr
    rw [← hg']
    split
    · rename_i hi
      rw [haccepted, ← hg hi]
      exact List.mem_append_left _ hr
    · exact hr
  have hkeeps : Numbered g' rs := by
    refine ⟨⟨fun r hr => ?_, fun r hr => hle r (hlogged r hr)⟩, hasc⟩
    by_cases hold : r ∈ s.module.own.queued
    · exact hle r ((h.copies s.module.id).queued r hold)
    · rcases hqueued r hr with hown | ⟨-, hmem⟩ | ⟨hi, -, -⟩
      · exact absurd hown hold
      · exact hle r hmem
      · rw [← hg', if_pos hi, haccepted]
        exact List.mem_append_right _ (List.mem_filter.mpr ⟨hr, by simpa using hold⟩)
  -- what the primary adds it has just created
  have hcreated : i = p → ∀ r ∈ rs.queued.filter (fun r => r ∉ s.module.own.queued),
      r ∈ created ∧ 0 < k := by
    intro hi r hr
    obtain ⟨hmem, hnot⟩ := List.mem_filter.mp hr
    rcases hqueued r hmem with hown | ⟨hne, -⟩ | ⟨-, hnew⟩
    · exact absurd hown (by simpa using hnot)
    · exact absurd hi hne
    · exact hnew
  have hunique : i = p → ∀ r ∈ s'.accepted, ∀ r' ∈ s'.accepted,
      r.clientRequest = r'.clientRequest → r = r' := by
    intro hi r hr r' hr' heq
    obtain ⟨hnodup, hfresh⟩ := hnew hi
    rw [haccepted] at hr hr'
    cases List.mem_append.mp hr with
    | inl hr =>
      cases List.mem_append.mp hr' with
      | inl hr' => exact h.unique hi r hr r' hr' heq
      | inr hr' => exact absurd heq.symm (hfresh r' (hcreated hi r' hr').1 r hr)
    | inr hr =>
      cases List.mem_append.mp hr' with
      | inl hr' => exact absurd heq (hfresh r (hcreated hi r hr).1 r' hr')
      | inr hr' =>
        exact List.inj_on_of_nodup_map hnodup (hcreated hi r hr).1 (hcreated hi r' hr').1 heq
  have hroom : i = p → s'.accepted ≠ [] → 0 < k := by
    intro hi hne
    obtain ⟨r, hr⟩ := List.exists_mem_of_ne_nil _ hne
    rw [haccepted] at hr
    cases List.mem_append.mp hr with
    | inl hr => exact h.room hi (List.ne_nil_of_mem hr)
    | inr hr => exact (hcreated hi r hr).2
  have hk' : g' ≠ [] → 0 < k := by
    rw [← hg']
    split
    · rename_i hi
      exact hroom hi
    · exact hk
  have hlast : ∀ r ∈ s.executed, r.seqNum ≤ lastSeq rs.rLog := fun r hr =>
    Int.le_trans (h.last ((Node.run_of_iterate hiter).1) r hr) hfall
  have hcopies : ∀ j, Numbered g' (s.module.rep j) := fun j => (h.copies j).mono hle
  -- what is left is to commit and execute, or nothing
  obtain ⟨rs', hafter, hkeeps', hclients', hpend', hmem', hasc', hlast'⟩ : ∃ rs',
      s'.module = s.module.setOwn rs' ∧ Numbered g' rs' ∧ rs'.numberOfClients = k ∧
      (rs.pendReqs.Nodup → rs'.pendReqs.Nodup) ∧ (∀ r ∈ s'.executed, r ∈ g') ∧
      s'.executed.Pairwise (fun r r' => r.seqNum < r'.seqNum) ∧
      (s'.stopped = false → ∀ r ∈ s'.executed, r.seqNum ≤ lastSeq rs'.rLog) := by
    rcases hrest with ⟨hafter, hexecuted, -⟩ | ⟨committed, raised, hexec, hexecuted, hstopped⟩
    · rw [hexecuted]
      exact ⟨rs, hafter, hkeeps, hclients, fun hn => hn, fun r hr => hle r (h.mem r hr),
        h.ascending, fun _ => hlast⟩
    · rw [hexecuted, hstopped]
      have hstart : Executing g' k s.executed (s.module.setOwn rs).own := by
        rw [own_setOwn]
        exact ⟨hkeeps, hclients, fun r hr => hle r (h.mem r hr), h.ascending, hlast⟩
      obtain ⟨rs', hafter, hfinish⟩ := hstart.finish (rep_setOwn hcopies hkeeps) hk' hexec
      rw [own_setOwn] at hfinish
      exact ⟨rs', by rw [hafter, setOwn_setOwn], hfinish⟩
  have hown : s'.module.own = rs' := by rw [hafter, own_setOwn]
  refine ⟨hle, h.toSettings.iterate hiter, ?_, ?_, hmem', hasc', ?_, hunique, hroom, fun hi => ?_⟩
  · rw [hafter]
    exact rep_setOwn hcopies hkeeps'
  · rw [hown]
    exact hclients'
  · rw [hown]
    exact hlast'
  · rw [hown]
    exact hpend' (hpend hi)

/-! ## Runs -/

/-- Runs without a flush in which nothing is numbered twice and no log falls back. -/
abbrev onceNetwork (p : Fin n) (f k : Nat) (net : Network (Fin n) (Node n) ReplicaStructure) :
    Prop :=
  (Node.network (Node.InView p) ∅ f k true).Run
    (Network.locally fun i s a => NoFlush s a ∧ NumbersOnce p i s a) net

/-- The requests the primary has numbered. -/
def numbered (p : Fin n) (nodes : Fin n → Node n) : List Request := (nodes p).accepted

theorem numbered_set (p : Fin n) (net : Network (Fin n) (Node n) ReplicaStructure) (i : Fin n)
    (s : Node n) : numbered p (net.set i s).nodes =
      if i = p then s.accepted else numbered p net.nodes := by
  unfold numbered
  split
  · rename_i hi
    rw [hi, Network.set_nodes_self]
  · rename_i hi
    rw [Network.set_nodes_of_ne _ _ (Ne.symm hi)]

/-- Only an iteration of the primary numbers requests. -/
theorem numbered_set_of_accepted {p : Fin n} (net : Network (Fin n) (Node n) ReplicaStructure)
    {i : Fin n} {s : Node n} (h : s.accepted = (net.nodes i).accepted) :
    numbered p (net.set i s).nodes = numbered p net.nodes := by
  rw [numbered_set]
  split
  · rename_i hi
    rw [h, hi]
    rfl
  · rfl

theorem once_init (p i : Fin n) (f k : Nat) {resolver : Resolver n}
    (h : Node.InView p resolver) : Once p f k [] i (Node.init i f k true resolver) where
  toSettings := Settings.init i f k h
  copies _ := ⟨Keeps.of_nil rfl rfl, List.Pairwise.nil⟩
  clients := rfl
  mem _ hr := absurd hr List.not_mem_nil
  ascending := List.Pairwise.nil
  last _ _ hr := absurd hr List.not_mem_nil
  unique _ _ hr := absurd hr List.not_mem_nil
  room _ hne := absurd rfl hne
  pend _ := List.nodup_nil

theorem Once.inject {p i : Fin n} {f k : Nat} {g : List Request} {s : Node n} (h : Once p f k g i s)
    (req : ClientRequest) : Once p f k g i (s.inject req) := by
  have hown : (s.inject req).module.own = s.module.own.extendPendReqs [req] := own_setOwn ..
  have hkeeps : Numbered g (s.module.own.extendPendReqs [req]) :=
    ⟨(h.copies s.module.id).of_eq rfl rfl, (h.copies s.module.id).ascending⟩
  refine { h with
    toSettings := h.toSettings.inject req
    copies := rep_setOwn h.copies hkeeps, clients := ?_, last := ?_, pend := ?_ }
  · rw [hown]
    exact h.clients
  · rw [hown]
    exact h.last
  · rw [hown]
    exact fun hi => ReplicaStructure.nodup_pendReqs_extendPendReqs (h.pend hi) _

theorem Once.receive {p i j : Fin n} {f k : Nat} {g : List Request} {s : Node n}
    (h : Once p f k g j s) (hne : i ≠ j) {rs : ReplicaStructure} (hrs : Numbered g rs) :
    Once p f k g j { s with module := s.module.receiveRepMsg s.resolver i rs } := by
  have hown : (s.module.receiveRepMsg s.resolver i rs).own = s.module.own :=
    own_receiveRepMsg (by rw [h.id]; exact hne)
  have hcopies := rep_receiveRepMsg h.copies hrs
    (fun _ _ hrs => ⟨hrs.of_eq rfl rfl, hrs.ascending⟩) s.resolver (i := i)
  refine { h with
    toSettings := h.toSettings.receive i rs
    copies := hcopies, clients := ?_, last := ?_, pend := ?_ }
  · rw [hown]
    exact h.clients
  · rw [hown]
    exact h.last
  · rw [hown]
    exact h.pend

/-- What every processor keeps, and every message in flight. -/
theorem once_network {p : Fin n} {f k : Nat} {net : Network (Fin n) (Node n) ReplicaStructure}
    (h : onceNetwork p f k net) :
    Network.Local (Node.protocol (Node.InView p)) ∅ (Once p f k (numbered p net.nodes))
      (fun i j rs => i ≠ j ∧ Numbered (numbered p net.nodes) rs) net := by
  refine Network.Run.of_shared (numbered p) (fun g g' => ∀ r ∈ g, r ∈ g')
    (I := fun g => Once p f k g) (M := fun g i j rs => i ≠ j ∧ Numbered g rs)
    (fun _ _ _ _ hle hs => hs.mono hle) (fun _ _ _ _ _ hle hm => ⟨hm.1, hm.2.mono hle⟩)
    ?_ ?_ ?_ ?_ h
  · intro net hnet
    have hnone : numbered p net.nodes = [] := by
      obtain ⟨resolver, -, hinit⟩ := hnet.1 p (Finset.notMem_empty p)
      rw [numbered, hinit]
      rfl
    rw [hnone]
    apply Network.Local.of_noFlight _ hnet.2
    intro i hi
    obtain ⟨resolver, hview, hinit⟩ := hnet.1 i hi
    rw [hinit]
    exact once_init p i f k hview
  · intro net i a s' hi hnet hok hact
    have hs := hnet.nodes i hi
    cases a with
    | iterate order =>
      have hprim := hnet.nodes p (Finset.notMem_empty p)
      rw [numbered_set]
      refine iterate_once hs (fun heq => ?_) (hprim.room rfl) hok.1 hok.2 hact
      rw [heq]
      rfl
    | inject req =>
      cases hact
      rw [numbered_set_of_accepted net (by rfl)]
      exact ⟨fun _ hr => hr, hs.inject req⟩
    | surroundings resolver =>
      have hsettings := hs.toSettings.act hact
      simp only [Node.protocol, Option.ite_none_right_eq_some, Option.some.injEq] at hact
      obtain ⟨-, rfl⟩ := hact
      rw [numbered_set_of_accepted net (by rfl)]
      exact ⟨fun _ hr => hr, { hs with toSettings := hsettings }⟩
  · intro g i s j rs _ hs hrs
    simp only [Node.protocol] at hrs
    split at hrs
    · exact absurd hrs List.not_mem_nil
    · rename_i hne
      rw [List.mem_singleton.mp hrs]
      exact ⟨fun heq => hne (Or.inl heq.symm), hs.copies s.module.id⟩
  · intro net j i rs _ hs hrs _
    obtain ⟨hne, hkeeps⟩ := hrs (Finset.notMem_empty i)
    exact ⟨numbered_set_of_accepted net (by rfl), hs.receive hne hkeeps⟩

/-- In a run in which the primary numbers no client request twice and no log
    falls back, no processor hands two requests with the same client request to
    `commit()`. -/
theorem executed_once {p : Fin n} {f k : Nat} {net : Network (Fin n) (Node n) ReplicaStructure}
    (h : onceNetwork p f k net) (i : Fin n) :
    ((net.nodes i).executed.map fun r => r.clientRequest).Nodup := by
  have hnet := once_network h
  have hi := hnet.nodes i (Finset.notMem_empty i)
  have hp := hnet.nodes p (Finset.notMem_empty p)
  -- sequence numbers grow, so requests are distinct, and so are their client requests
  have hnodup : (net.nodes i).executed.Nodup := hi.ascending.imp fun hlt heq => by
    rw [heq] at hlt
    exact Int.lt_irrefl _ hlt
  exact hnodup.map_on fun r hr r' hr' heq => hp.unique rfl r (hi.mem r hr) r' (hi.mem r' hr') heq

/-- A client sends two requests to processors 0 to 3, and processors 0 and 1 execute both. -/
theorem executed_once_six :
    ∃ net : Network (Fin 6) (Node 6) ReplicaStructure,
      (net.nodes 0).executed.length = 2 ∧ (net.nodes 1).executed.length = 2 ∧
      ∀ i, ((net.nodes i).executed.map fun r => r.clientRequest).Nodup := by
  have hexec : (System.exec (Network.play (Node.protocol (Node.InView (0 : Fin 6))) ∅
      (Network.locally fun i s a => NoFlush s a ∧ NumbersOnce 0 i s a)) (Node.start 0 1 1)
      (serving ⟨0, some 1, .append 7⟩ ++ serving ⟨0, some 2, .append 8⟩)).any
      (fun net => (net.nodes 0).executed.length = 2 ∧ (net.nodes 1).executed.length = 2) =
        true := by
    decide +kernel
  obtain ⟨net, hrun, hp⟩ := Network.Run.of_play (.init (Node.start_init 0 ∅ 1 1)) hexec
  obtain ⟨h₀, h₁⟩ := of_decide_eq_true hp
  exact ⟨net, h₀, h₁, executed_once hrun⟩

/-- The client sends one request again after it was executed, and it is executed
    again. -/
theorem executed_twice :
    ∃ net : Network (Fin 1) (Node 1) ReplicaStructure,
      (Node.network (Node.InView (0 : Fin 1)) ∅ 0 1 true).Reachable net ∧
      (net.nodes 0).module.needFlush = false ∧
      ¬ ((net.nodes 0).executed.map fun r => r.clientRequest).Nodup := by
  have hexec : (System.exec (Network.next (Node.protocol (Node.InView (0 : Fin 1))) ∅)
      (Node.start 0 0 1)
      [.act 0 (.inject ⟨0, some 1, .append 7⟩), .act 0 (.iterate .insertion),
        .act 0 (.inject ⟨0, some 1, .append 7⟩), .act 0 (.iterate .insertion)]).any
      (fun net => (net.nodes 0).module.needFlush = false ∧
        ¬ ((net.nodes 0).executed.map fun r => r.clientRequest).Nodup) = true := by
    decide +kernel
  obtain ⟨net, hreach, hp⟩ := Network.Reachable.of_exec (.init (Node.start_init 0 ∅ 0 1)) hexec
  exact ⟨net, hreach, of_decide_eq_true hp⟩

end BFTList

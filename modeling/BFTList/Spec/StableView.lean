import BFTList.Spec.Reconcile
import BFTList.Spec.ReplicationNetwork

/-!
# Iterations in a stable view

What one iteration of a processor does when the other modules answer as in a
stable view of `p`, with all cases put together, and what it counts on: support
is counted by occurrences in the table, which are processors only as long as no
structure lists anything twice.

## Key results

- `iterate_cases_inView`: reconcile, learn and prepare, and then commit and execute or stop
- `Settings`: what no step of a processor changes
- `ListedGenuinely.exists_lister`, `PendingGenuinely.exists_pending`: support includes a correct
  structure
-/

namespace BFTList

open ReplicationModule

variable {n : Nat} {p i : Fin n} {f : Nat} {s s' : Node n} {order : SetOrder Int}

/-! ## Settings -/

/-- What no step changes at processor `i`, in a stable view of `p`. -/
structure Settings (p : Fin n) (f : Nat) (i : Fin n) (s : Node n) : Prop where
  id : s.module.id = i
  byzantine : s.module.numberOfByzantine = f
  stab : s.module.selfStab = true
  flush : s.module.flush = false
  view : Node.InView p s.resolver

theorem Settings.init (i : Fin n) (f k : Nat) {resolver : Resolver n}
    (h : Node.InView p resolver) : Settings p f i (Node.init i f k true resolver) :=
  ⟨rfl, rfl, rfl, rfl, h⟩

theorem Settings.inject (h : Settings p f i s) (req : ClientRequest) :
    Settings p f i (s.inject req) := ⟨h.id, h.byzantine, h.stab, h.flush, h.view⟩

theorem Settings.receive (h : Settings p f i s) (j : Fin n) (rs : ReplicaStructure) :
    Settings p f i { s with module := s.module.receiveRepMsg s.resolver j rs } := by
  obtain ⟨copy, heq, -⟩ := receiveRepMsg_cases s.module s.resolver j rs
  rw [heq]
  exact ⟨h.id, h.byzantine, h.stab, h.flush, h.view⟩

/-- All processors after construction, in the view of `p`. -/
def Node.start (p : Fin n) (f k : Nat) : Network (Fin n) (Node n) ReplicaStructure :=
  ⟨fun i => Node.init i f k true ⟨true, true, fun _ => p.val⟩, []⟩

theorem Node.start_init (p : Fin n) (faulty : Finset (Fin n)) (f k : Nat) :
    (Node.network (Node.InView p) faulty f k true).init (Node.start p f k) :=
  ⟨fun _ _ => ⟨_, ⟨rfl, rfl, fun _ => rfl⟩, rfl⟩, rfl⟩

/-! ## One iteration -/

/-- An iteration reconciles, without a flush or with one, learns and prepares,
    and then commits and executes or stops. -/
theorem iterate_cases_inView (h : Settings p f i s) (hiter : s.iterate order = some s') :
    ∃ m₀ created rs, s.module.reconcile s.resolver order = .ok m₀ ∧
      ((∃ rs₀, m₀ = s.module.setOwn rs₀ ∧ Reconciled p s.module rs₀) ∨ Flushed s.module m₀) ∧
      Prepared p m₀.learnPendReqs created rs ∧
      (rs = m₀.learnPendReqs.own ∨ m₀.learnPendReqs.mayProcess s.resolver = true) ∧
      (created = [] ∨ (p = m₀.id ∧ m₀.learnPendReqs.mayProcess s.resolver = true ∧
        Numbering m₀.learnPendReqs created)) ∧
      s'.resolver = s.resolver ∧ s'.injected = s.injected ∧
      s'.accepted = s.accepted ++ rs.queued.filter (fun r => r ∉ s.module.own.queued) ∧
      ((s'.module = m₀.setOwn rs ∧ s'.executed = s.executed ∧ s'.stopped = false) ∨
        ∃ committed raised, (s'.module, committed, raised) =
            executeReqs ((m₀.setOwn rs).commitReqs.supportedReqs {.prep, .commit})
              (m₀.setOwn rs).commitReqs [] ∧
          s'.executed = s.executed ++ committed ∧ s'.stopped = raised.isSome) := by
  obtain ⟨m₁, created, processing, hprep, hresolver, hinjected, -, haccepted, hrest⟩ :=
    Node.iterate_cases hiter
  obtain ⟨m₀, rs, hrec, rfl, hrs, hmay, hnum⟩ := prepared_cases_inView h.view.1 h.view.2.2 h.stab
    h.flush hprep
  rw [own_setOwn] at haccepted
  refine ⟨m₀, created, rs, hrec, reconcile_cases h.view.1 h.view.2.2 h.stab h.flush hrec, hrs,
    hmay, hnum, hresolver, hinjected, haccepted, ?_⟩
  exact hrest.imp And.right And.right

/-- An iteration that does not flush. -/
def NoFlush (s : Node n) : Node.Action n → Prop
  | .iterate order => (s.module.reconcile s.resolver order).Returns fun m => m.needFlush = false
  | .inject _ => True
  | .surroundings _ => True

instance (s : Node n) (a : Node.Action n) : Decidable (NoFlush s a) :=
  match a with
  | .iterate _ => inferInstanceAs (Decidable (Py.Returns _ _))
  | .inject _ => .isTrue trivial
  | .surroundings _ => .isTrue trivial

theorem NoFlush.reconciled {m₀ : ReplicationModule n} (h : NoFlush s (.iterate order))
    (hrec : s.module.reconcile s.resolver order = .ok m₀)
    (hcase : (∃ rs₀, m₀ = s.module.setOwn rs₀ ∧ Reconciled p s.module rs₀) ∨
      Flushed s.module m₀) : ∃ rs₀, m₀ = s.module.setOwn rs₀ ∧ Reconciled p s.module rs₀ := by
  cases hcase with
  | inl hset => exact hset
  | inr hflushed =>
    have hneed : m₀.needFlush = false := h m₀ hrec
    rw [hflushed.needFlush] at hneed
    cases hneed

/-- An iteration keeps the settings. -/
theorem Settings.iterate (h : Settings p f i s) (hiter : s.iterate order = some s') :
    Settings p f i s' := by
  obtain ⟨m₀, created, rs, -, hrec, -, -, -, hresolver, -, -, hrest⟩ := iterate_cases_inView h hiter
  -- whatever is written in the end is the own structure
  obtain ⟨rs', hafter⟩ : ∃ rs', s'.module = m₀.setOwn rs' := by
    rcases hrest with ⟨hafter, -, -⟩ | ⟨committed, raised, hexec, -, -⟩
    · exact ⟨rs, hafter⟩
    · obtain ⟨-, rs', -, -, hafter, -, -⟩ := finish_invariant (P := fun _ _ => True) hexec trivial
        (fun _ _ _ _ => trivial) (fun _ _ _ _ => trivial) (fun _ _ _ _ _ _ _ _ _ _ => trivial)
      rw [setOwn_setOwn] at hafter
      exact ⟨rs', hafter⟩
  have hm₀ : m₀.id = i ∧ m₀.numberOfByzantine = f ∧ m₀.selfStab = true ∧ m₀.flush = false := by
    rcases hrec with ⟨rs₀, rfl, -⟩ | hflushed
    · exact ⟨h.id, h.byzantine, h.stab, h.flush⟩
    · exact ⟨hflushed.id.trans h.id, hflushed.numberOfByzantine.trans h.byzantine,
        hflushed.selfStab.trans h.stab, hflushed.flush⟩
  obtain ⟨hid, hbyz, hstab, hflush⟩ := hm₀
  exact ⟨hafter ▸ hid, hafter ▸ hbyz, hafter ▸ hstab, hafter ▸ hflush, hresolver ▸ h.view⟩

/-- Every action keeps the settings. -/
theorem Settings.act {a : Node.Action n} (h : Settings p f i s)
    (hact : (Node.protocol (Node.InView p)).act i a s = some s') : Settings p f i s' := by
  cases a with
  | iterate order => exact h.iterate hact
  | inject req =>
    cases hact
    exact h.inject req
  | surroundings resolver =>
    simp only [Node.protocol, Option.ite_none_right_eq_some, Option.some.injEq] at hact
    obtain ⟨hview, rfl⟩ := hact
    exact ⟨h.id, h.byzantine, h.stab, h.flush, hview⟩

/-! ## Counting -/

namespace ReplicationModule

variable {m : ReplicationModule n} {faulty : Finset (Fin n)}

/-- Requests are committed and executed that many structures list with these statuses. -/
def decisive : List Status := [{.prep}, {.prep, .commit}]

/-- The own queue lists no request twice, and what enough structures list, second occurrences
    in one structure do not count. -/
structure ListedGenuinely (m : ReplicationModule n) : Prop where
  own : m.own.queued.Nodup
  copies : ∀ j, j ≠ m.id → ∀ r ∈ (m.rep j).queued ++ (m.rep j).logged, ∀ status ∈ decisive,
    Counter.GenuineBeside (n - 2 * m.numberOfByzantine) (fun j => listed status (m.rep j)) m.id r

/-- The same for client requests that are pending. -/
structure PendingGenuinely (m : ReplicationModule n) : Prop where
  own : m.own.pendReqs.Nodup
  copies : ∀ j, j ≠ m.id → ∀ c ∈ (m.rep j).pendReqs,
    Counter.GenuineBeside (n - 2 * m.numberOfByzantine) (fun j => (m.rep j).pendReqs) m.id c

instance (m : ReplicationModule n) : Decidable m.ListedGenuinely :=
  decidable_of_iff (m.own.queued.Nodup ∧
    ∀ j, j ≠ m.id → ∀ r ∈ (m.rep j).queued ++ (m.rep j).logged, ∀ status ∈ decisive,
      Counter.GenuineBeside (n - 2 * m.numberOfByzantine) (fun j => listed status (m.rep j))
        m.id r)
    ⟨fun h => ⟨h.1, h.2⟩, fun h => ⟨h.own, h.copies⟩⟩

instance (m : ReplicationModule n) : Decidable m.PendingGenuinely :=
  decidable_of_iff (m.own.pendReqs.Nodup ∧
    ∀ j, j ≠ m.id → ∀ c ∈ (m.rep j).pendReqs, Counter.GenuineBeside
      (n - 2 * m.numberOfByzantine) (fun j => (m.rep j).pendReqs) m.id c)
    ⟨fun h => ⟨h.1, h.2⟩, fun h => ⟨h.own, h.copies⟩⟩

theorem ListedGenuinely.genuine (h : m.ListedGenuinely) {status : Status}
    (hstatus : status ∈ decisive) (r : Request) :
    Counter.GenuineBeside (n - 2 * m.numberOfByzantine) (fun j => listed status (m.rep j)) m.id
      r := by
  by_cases hr : ∃ j, j ≠ m.id ∧ r ∈ listed status (m.rep j)
  · obtain ⟨j, hj, hlisted⟩ := hr
    have hkept := List.mem_append.mpr (queued_or_logged_of_mem_listed hlisted)
    exact h.copies j hj r hkept status hstatus
  · exact Counter.genuineBeside_of_not_mem _ fun j hj hlisted => hr ⟨j, hj, hlisted⟩

theorem ListedGenuinely.setOwn (h : m.ListedGenuinely) {rs : ReplicaStructure}
    (hrs : rs.queued.Nodup) : (m.setOwn rs).ListedGenuinely := by
  refine ⟨by rwa [own_setOwn], fun j hj r hr status hstatus => ?_⟩
  rw [rep_setOwn_of_ne (m := m) hj] at hr
  exact (h.copies j hj r hr status hstatus).congr fun l hl => by
    rw [rep_setOwn_of_ne (m := m) hl]

theorem nodup_queued_committedOwn {rs : ReplicaStructure} (h : rs.queued.Nodup) (r : Request) :
    (committedOwn rs r).queued.Nodup := by
  unfold committedOwn
  split
  · rw [show ((rs.upgrade r {.prePrep, .prep} .commit).removeFromPendReqs r.clientRequest).queued =
      (rs.upgrade r {.prePrep, .prep} .commit).queued from rfl, ReplicaStructure.queued_upgrade]
    exact h
  · exact ReplicaStructure.nodup_queued_addToReqQ h _

/-- Support for committing or executing is support of processors. -/
theorem ListedGenuinely.card_listers_le (h : m.ListedGenuinely) {status : Status}
    (hstatus : status ∈ decisive) {r : Request} (hr : r ∈ m.supportedReqs status) :
    (n : Int) - 2 * m.numberOfByzantine ≤
      (Finset.univ.filter fun j => r ∈ listed status (m.rep j)).card := by
  obtain ⟨-, hcount, hnot⟩ := mem_supportedReqs.mp hr
  apply (h.genuine hstatus r).le_card _ hcount
  -- the own log does not list what is supported
  have hsub : (((m.rep m.id).reqQ.filter fun q => status ⊆ q.status).map (·.request)).Sublist
      (m.rep m.id).queued := List.filter_sublist.map _
  have hzero : ((m.rep m.id).rLog.map (·.request)).count r = 0 := List.count_eq_zero_of_not_mem hnot
  rw [listed, List.count_append, hzero, Nat.add_zero]
  exact List.nodup_iff_count_le_one.mp (h.own.sublist hsub) r

/-- Support includes a correct structure. -/
theorem ListedGenuinely.exists_lister (h : m.ListedGenuinely)
    (hfew : faulty.card + 2 * m.numberOfByzantine < n) {status : Status}
    (hstatus : status ∈ decisive) {r : Request} (hr : r ∈ m.supportedReqs status) :
    ∃ j, j ∉ faulty ∧ r ∈ listed status (m.rep j) := by
  have hcard := h.card_listers_le hstatus hr
  have hlt : faulty.card < (Finset.univ.filter fun j => r ∈ listed status (m.rep j)).card := by
    omega
  obtain ⟨j, hj, hcorrect⟩ := Quorum.exists_correct hlt
  exact ⟨j, hcorrect, (Finset.mem_filter.mp hj).2⟩

/-- Committing and executing, when everything that is supported has a property
    `R`, and an own structure keeps a property `S` with such requests. -/
theorem ListedGenuinely.finish {m' : ReplicationModule n} {committed : List Request}
    {raised : Option PyError} {S : ReplicaStructure → Prop} {R : Request → Prop}
    (h : m.ListedGenuinely) (hS : S m.own)
    (hstate : ∀ rs repState, S rs → S { rs with repState := repState })
    (hsupported : ∀ rs, S rs → (m.setOwn rs).ListedGenuinely →
      ∀ status ∈ decisive, ∀ r ∈ (m.setOwn rs).supportedReqs status, R r)
    (hcommit : ∀ rs r, S rs → R r → S (committedOwn rs r))
    (hexecute : ∀ rs r xSet lastReq, S rs → R r → S (executedOwn rs r xSet lastReq))
    (hexec : (m', committed, raised) =
      executeReqs (m.commitReqs.supportedReqs {.prep, .commit}) m.commitReqs []) :
    ∃ rs, m' = m.setOwn rs ∧ S rs ∧ ∀ r ∈ committed, R r := by
  have hsupported' : ∀ r ∈ m.supportedReqs {.prep}, R r := by
    have hown := hsupported m.own hS
    rw [setOwn_own] at hown
    intro r hr
    exact hown h _ List.mem_cons_self r hr
  -- what is added at the end has the property
  have hconcat : ∀ (done : List Request) (r : Request), (∀ r' ∈ done, R r') → R r →
      ∀ r' ∈ done ++ [r], R r' := by
    intro done r hdone hr r' hr'
    cases List.mem_append.mp hr' with
    | inl hold => exact hdone r' hold
    | inr hnew => exact List.mem_singleton.mp hnew ▸ hr
  -- until something is executed the queue lists nothing twice, as before
  obtain ⟨rs₁, rs, done, ⟨hrs₁, hnodup, -⟩, hafter, ⟨hrs, -, hdone⟩, hcase⟩ :=
    finish_invariant (m := m)
      (P := fun rs done => S rs ∧ (done = [] → rs.queued.Nodup) ∧ ∀ r ∈ done, R r)
      hexec ⟨hS, fun _ => h.own, fun r hr => absurd hr List.not_mem_nil⟩
      (fun rs done repState hrs => ⟨hstate rs repState hrs.1, hrs.2⟩)
      (fun rs r hrs hr => ⟨hcommit rs r hrs.1 (hsupported' r hr),
        fun _ => nodup_queued_committedOwn (hrs.2.1 rfl) r, hrs.2.2⟩)
      (by
        intro rs₁ hrs₁ rs done r xSet lastReq hrs hr _
        have hR : R r := hsupported rs₁ hrs₁.1 (h.setOwn (hrs₁.2.1 rfl)) _
          (List.mem_cons_of_mem _ List.mem_cons_self) r hr
        exact ⟨hexecute rs r xSet lastReq hrs.1 hR,
          fun hnil => absurd hnil (List.append_ne_nil_of_right_ne_nil _ (List.cons_ne_nil r [])),
          hconcat done r hrs.2.2 hR⟩)
  refine ⟨rs, hafter, hrs, ?_⟩
  rcases hcase with rfl | ⟨r, hr, rfl, -, -⟩
  · exact hdone
  -- the last request was handed to `commit()`, which raised
  · have hR : R r := hsupported rs₁ hrs₁ (h.setOwn (hnodup rfl)) _
      (List.mem_cons_of_mem _ List.mem_cons_self) r hr
    exact hconcat done r hdone hR

/-- What is pending often enough is pending in a correct structure. -/
theorem PendingGenuinely.exists_pending (h : m.PendingGenuinely)
    (hfew : faulty.card + 2 * m.numberOfByzantine < n) {c : ClientRequest}
    (hc : c ∈ m.knownPendReqs) : ∃ j, j ∉ faulty ∧ c ∈ (m.rep j).pendReqs := by
  have hgenuine : Counter.GenuineBeside (n - 2 * m.numberOfByzantine)
      (fun j => (m.rep j).pendReqs) m.id c := by
    by_cases hlisted : ∃ j, j ≠ m.id ∧ c ∈ (m.rep j).pendReqs
    · obtain ⟨j, hj, hmem⟩ := hlisted
      exact h.copies j hj c hmem
    · exact Counter.genuineBeside_of_not_mem _ fun j hj hmem => hlisted ⟨j, hj, hmem⟩
  have hcard := hgenuine.le_card (List.nodup_iff_count_le_one.mp h.own c)
    (mem_knownPendReqs.mp hc).2
  have hlt : faulty.card < (Finset.univ.filter fun j => c ∈ (m.rep j).pendReqs).card := by
    omega
  obtain ⟨j, hj, hcorrect⟩ := Quorum.exists_correct hlt
  exact ⟨j, hcorrect, (Finset.mem_filter.mp hj).2⟩

/-- Learning keeps that. -/
theorem PendingGenuinely.learnPendReqs (h : m.PendingGenuinely) :
    m.learnPendReqs.PendingGenuinely := by
  refine ⟨?_, fun j hj c hc => ?_⟩
  · rw [ReplicationModule.learnPendReqs, own_setOwn]
    exact ReplicaStructure.nodup_pendReqs_extendPendReqs h.own _
  · rw [ReplicationModule.learnPendReqs, rep_setOwn_of_ne (m := m) hj] at hc
    exact (h.copies j hj c hc).congr fun l hl => by
      rw [ReplicationModule.learnPendReqs, rep_setOwn_of_ne (m := m) hl]

end ReplicationModule

end BFTList

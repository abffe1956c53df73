import BFTList.ForStd.Channels
import BFTList.Spec.MonitoredView
import BFTList.Spec.SuspectedPrimary

/-!
# Processors that watch a silent primary

The failure detectors and the Primary Monitoring modules of all processors, in a view with
service whose primary is among the silent processors: those that send nothing, such as the
unresponsive ones of `modules/byzantine.py`. Tokens and records arrive in the order in which
they were sent, each of them once.

A suspicion that was raised stays, and so does a name that was collected: what a processor
holds of another one, what is on its way and what that one holds itself form a chain.

## Key results

- `Watcher.system`: the processors with their channels
- `uponTokenFromPj_inView`: what a token does in the view
- `Watcher.sound`: what holds in every reachable state
-/

namespace BFTList

/-- The failure detector and Primary Monitoring of one processor, and whether the latter has
    asked for a view change. -/
structure Watcher (n : Nat) where
  failDet : FailureDetectorThread n
  primMon : PrimaryMonitoringModule n
  asked : Bool

namespace Watcher

variable {n : Nat}

/-- Iterations of the two threads; the pending requests are those the Replication module
    answers with. -/
inductive Action (n : Nat) where
  | watch (pendReqs : Option (List ClientRequest))
  | monitor (order : SetOrder (Fin n))

/-- The threads. -/
inductive Kind where
  | watch
  | monitor
  deriving DecidableEq, Repr, Countable

/-- The thread that iterates. -/
def kind : Action n → Kind
  | .watch _ => .watch
  | .monitor _ => .monitor

/-- Tokens and records have senders of their own. -/
inductive Channel where
  | token
  | record
  deriving DecidableEq, Repr, Countable

/-- What the two modules send. -/
inductive Notice where
  | token (primSusp : Bool)
  | record (vcm : Vcm)
  deriving DecidableEq

/-- What the failure detector is answered in the view of `p`. -/
def fdEnv (p : Fin n) (pendReqs : Option (List ClientRequest)) (w : Watcher n) : FdEnv n where
  allowService := true
  noViewChange := w.primMon.noViewChange
  currentView := fun _ => p.val
  pendReqs := pendReqs

/-- The answer of the failure detector. -/
def suspected (p : Fin n) (w : Watcher n) : Bool := w.failDet.suspected (w.fdEnv p none)

/-- The failure detector iterates. -/
def watch (p : Fin n) (pendReqs : Option (List ClientRequest)) (w : Watcher n) : Watcher n :=
  { w with failDet := (w.failDet.run (w.fdEnv p pendReqs)).1 }

/-- Primary Monitoring iterates. -/
def monitor (p : Fin n) (order : SetOrder (Fin n)) (w : Watcher n) : Watcher n :=
  let r := w.primMon.run (PrimaryMonitoringModule.envIn p (w.suspected p)) order
  { w with primMon := r.1, asked := w.asked || r.2 }

/-- The protocol in the view of `p`. Primary Monitoring sends its record to everybody after
    each iteration. -/
def protocol (p : Fin n) : ChannelProtocol (Fin n) (Watcher n) (Action n) Channel Notice where
  act i a w :=
    match a with
    | .watch pendReqs => (w.watch p pendReqs,
        (w.failDet.run (w.fdEnv p pendReqs)).2.map fun x => (x.1, .token, .token x.2))
    | .monitor order => (w.monitor p order,
        ((List.finRange n).filter (· ≠ i)).map fun j =>
          (j, .record, .record (w.monitor p order).primMon.own))
  receive _ j _ notice w :=
    match notice with
    | .token b => { w with failDet := w.failDet.receiveMsg j b }
    | .record vcm => { w with primMon := w.primMon.receiveMsg j vcm }

/-- Large sets are iterated in ascending order. -/
def Allowed (f : Nat) : Action n → Prop
  | .watch _ => True
  | .monitor order => PrimaryMonitoringModule.Ascends f order

/-- A processor after construction. -/
def init (i : Fin n) (f : Nat) (nodes : Int) : Watcher n where
  failDet := .init i f nodes true
  primMon := .init i f true
  asked := false

/-- All runs from the constructor's states. -/
def system (p : Fin n) (f : Nat) (nodes : Int) (silent : Finset (Fin n)) :
    System (Channels (Fin n) (Watcher n) Channel Notice)
      (Channels.Label (Fin n) (Action n) Channel) :=
  Channels.system (protocol p) silent (Allowed f) fun net =>
    (∀ i, i ∉ silent → net.nodes i = init i f nodes) ∧ ∀ i j c, net.queue i j c = []

end Watcher

/-! ## A token in the view -/

namespace FailureDetectorModule

variable {n : Nat} {m : FailureDetectorModule n} {env : FdEnv n} {j p : Fin n} {b : Bool}

/-- What a token of `j` leaves in a view of `p`, who is neither its sender nor its receiver. -/
structure Told (p : Fin n) (env : FdEnv n) (j : Fin n) (b : Bool) (m m' : FailureDetectorModule n) :
    Prop where
  id : m'.id = m.id
  nodes : m'.nodes = m.nodes
  stab : m'.selfStab = true
  prim : m'.prim = p.val
  others : ∀ k, k ≠ j → k ≠ m.id → m'.primSusp k = m.primSusp k
  sender : m'.primSusp j = if env.noViewChange then b else m.primSusp j
  own : m.primSusp m.id = true → m'.primSusp m.id = true
  beat : m'.beat p = if m.prim = p.val then m.beat p + 1 else 0
  silent : env.noViewChange = true → m.prim = p.val → BEAT_THRESHOLD m.nodes ≤ m.beat p + 1 →
    m'.primSusp m.id = true

/-- A token in the view; before the first one nothing is held against the primary. -/
theorem uponTokenFromPj_inView (hstab : m.selfStab = true) (hjp : j ≠ p) (hji : j ≠ m.id)
    (hp : p ≠ m.id) (hservice : env.allowService = true) (hview : ∀ k, env.currentView k = p.val)
    (hclear : m.prim ≠ p.val → ∀ k, m.primSusp k = false) :
    Told p env j b m (m.uponTokenFromPj env j b) := by
  have hserve : m.allowService env = true := by
    rw [allowService, hstab, hservice]
    rfl
  have hcur : ∀ s : FailureDetectorModule n, s.selfStab = true → ∀ k,
      s.getCurrentView env k = p.val := by
    intro s hs k
    rw [getCurrentView, hs, hview]
    rfl
  have hnote : (m.noteView env j).id = m.id ∧ (m.noteView env j).nodes = m.nodes ∧
      (m.noteView env j).selfStab = true ∧ (m.noteView env j).prim = p.val ∧
      (∀ k, (m.noteView env j).primSusp k = m.primSusp k) ∧
      (m.noteView env j).fdSet = (m.updateBeat j).fdSet ∧
      (m.noteView env j).beat p = if m.prim = p.val then m.beat p + 1 else 0 := by
    have hbeat : (m.updateBeat j).beat p = m.beat p + 1 := by
      show (if p = j ∨ p = m.id then 0 else m.beat p + 1) = _
      rw [if_neg (by simp [Ne.symm hjp, hp])]
    rw [noteView, hcur m hstab]
    split
    · rename_i hprim
      exact ⟨rfl, rfl, hstab, hprim, fun _ => rfl, rfl, hbeat⟩
    · rename_i hprim
      exact ⟨rfl, rfl, hstab, rfl, fun k => (hclear hprim k).symm, rfl, rfl⟩
  have hheard : (p.val : Int) ∉ (m.updateBeat j).fdSet ↔
      BEAT_THRESHOLD m.nodes ≤ m.beat p + 1 := by
    rw [mem_fdSet, heardOf_iff hp, if_neg hjp]
    omega
  rw [uponTokenFromPj_eq, hserve, if_neg (by decide)]
  generalize hs : m.noteView env j = s at hnote
  obtain ⟨hid, hnodes, hsstab, hprim, hsusp, hfdSet, hbeat⟩ := hnote
  cases hno : env.noViewChange with
  | false =>
    rw [if_neg Bool.false_ne_true]
    exact {
      id := hid
      nodes := hnodes
      stab := hsstab
      prim := hprim
      others := fun k _ _ => hsusp k
      sender := by
        rw [hno]
        exact hsusp j
      own := fun h => (hsusp m.id).trans h
      beat := hbeat
      silent := fun h => absurd (hno.symm.trans h) (by decide) }
  | true =>
    have hcheck : (s.checkToken env j b).primSusp = Function.update s.primSusp j b := by
      have hother : s.prim ≠ j.val ∧ s.prim = s.getCurrentView env j := by
        rw [hprim, hcur s hsstab]
        refine ⟨fun heq => hjp ?_, rfl⟩
        exact Fin.ext (by omega)
      rw [checkToken_eq]
      exact if_pos hother
    have hconfig : (s.checkToken env j b).id = m.id ∧ (s.checkToken env j b).nodes = m.nodes ∧
        (s.checkToken env j b).selfStab = true ∧ (s.checkToken env j b).prim = p.val ∧
        (s.checkToken env j b).fdSet = (m.updateBeat j).fdSet ∧
        (s.checkToken env j b).beat p = if m.prim = p.val then m.beat p + 1 else 0 := by
      rw [checkToken_eq]
      exact ⟨hid, hnodes, hsstab, hprim, hfdSet, hbeat⟩
    rw [if_pos rfl, suspectPrim_eq]
    generalize s.checkToken env j b = u at hcheck hconfig
    obtain ⟨huid, hunodes, hustab, huprim, hufdSet, hubeat⟩ := hconfig
    have hownu : u.primSusp u.id = m.primSusp m.id := by
      rw [hcheck, huid, Function.update_of_ne (Ne.symm hji), hsusp]
    exact {
      id := huid
      nodes := hunodes
      stab := hustab
      prim := huprim
      others := by
        intro k hkj hki
        rw [setPrimSusp_primSusp, Function.update_of_ne (huid.symm ▸ hki), hcheck,
          Function.update_of_ne hkj, hsusp]
      sender := by
        rw [setPrimSusp_primSusp, Function.update_of_ne (huid.symm ▸ hji), hcheck,
          Function.update_self, hno]
        rfl
      own := by
        intro h
        rw [setPrimSusp_primSusp, huid, Function.update_self, ← huid, hownu, h, Bool.true_or]
      beat := hubeat
      silent := by
        intro _ _ hlong
        have hnot : u.prim ∉ u.fdSet := by
          rw [huprim, hufdSet]
          exact hheard.mpr hlong
        rw [setPrimSusp_primSusp, huid, Function.update_self]
        simp [hnot] }

end FailureDetectorModule

/-! ## Iterations -/

namespace FailureDetectorThread

variable {n : Nat} {t : FailureDetectorThread n} {env : FdEnv n}

/-- The module after the next token, if there is one. -/
def handled (t : FailureDetectorThread n) (env : FdEnv n) : FailureDetectorModule n :=
  t.msgQueue.head?.elim t.module fun x => t.module.uponTokenFromPj env x.1 x.2

/-- What an iteration leaves. -/
theorem run_fst (t : FailureDetectorThread n) (env : FdEnv n) : (t.run env).1 =
    ⟨t.handled env, t.numberOfByzantine, t.msgQueue.tail, false⟩ := by
  obtain ⟨module, byzantine, queue, firstRun⟩ := t
  cases queue with
  | nil =>
    cases firstRun with
    | true => rfl
    | false => rfl
  | cons x rest =>
    cases firstRun with
    | true => rfl
    | false => rfl

/-- What it sends: the own suspicion, to the sender of the token, and first to everybody. -/
theorem run_snd (t : FailureDetectorThread n) (env : FdEnv n) : (t.run env).2 =
    (t.msgQueue.head?.map fun x => (x.1, (t.run env).1.primSusp)).toList ++
      if t.firstRun then ((List.finRange n).filter (· ≠ (t.handled env).id)).map
        fun j => (j, (t.run env).1.primSusp) else [] := by
  obtain ⟨module, byzantine, queue, firstRun⟩ := t
  cases queue with
  | nil =>
    cases firstRun with
    | true => rfl
    | false => rfl
  | cons x rest =>
    cases firstRun with
    | true => rfl
    | false => rfl

theorem mem_sent {k : Fin n} {b : Bool} : (k, b) ∈ (t.run env).2 ↔
    b = (t.run env).1.primSusp ∧ ((∃ b', t.msgQueue.head? = some (k, b')) ∨
      (t.firstRun = true ∧ k ≠ (t.handled env).id)) := by
  rw [run_snd, List.mem_append, Option.mem_toList, Option.map_eq_some_iff]
  constructor
  · rintro (⟨⟨k', b'⟩, hfirst, heq⟩ | hmem)
    · cases heq
      exact ⟨rfl, Or.inl ⟨b', hfirst⟩⟩
    · split at hmem
      · rename_i hfirst
        obtain ⟨k', hk', heq⟩ := List.mem_map.mp hmem
        cases heq
        exact ⟨rfl, Or.inr ⟨hfirst, of_decide_eq_true (List.mem_filter.mp hk').2⟩⟩
      · cases hmem
  · rintro ⟨rfl, ⟨b', hfirst⟩ | ⟨hfirst, hne⟩⟩
    · exact Or.inl ⟨(k, b'), hfirst, rfl⟩
    · rw [if_pos hfirst]
      exact Or.inr (List.mem_map.mpr
        ⟨k, List.mem_filter.mpr ⟨List.mem_finRange k, decide_eq_true hne⟩, rfl⟩)

end FailureDetectorThread

/-! ## What every processor keeps -/

namespace Watcher

open FailureDetectorModule PrimaryMonitoringModule

variable {n : Nat} {p i j : Fin n} {f : Nat} {nodes : Int} {silent : Finset (Fin n)}
  {w : Watcher n} {pendReqs : Option (List ClientRequest)} {order : SetOrder (Fin n)}

/-- What holds of processor `i` in the view of a silent `p`, whatever the others do. -/
structure Sound (p : Fin n) (f : Nat) (nodes : Int) (silent : Finset (Fin n)) (i : Fin n)
    (w : Watcher n) : Prop where
  fdId : w.failDet.module.id = i
  fdNodes : w.failDet.module.nodes = nodes
  fdStab : w.failDet.module.selfStab = true
  fdByzantine : w.failDet.numberOfByzantine = f
  senders : ∀ x ∈ w.failDet.msgQueue, x.1 ∉ silent ∧ x.1 ≠ i
  clear : w.failDet.module.prim ≠ p.val → ∀ k, w.failDet.module.primSusp k = false
  unheard : ∀ k ∈ silent, w.failDet.module.primSusp k = false
  counting : w.failDet.module.prim = p.val → 0 ≤ w.failDet.module.beat p
  pmId : w.primMon.id = i
  pmByzantine : w.primMon.numberOfByzantine = f
  pmStab : w.primMon.selfStab = true
  reporting : w.primMon.Reporting p
  fresh : w.primMon.own.prim ≠ p.val → w.primMon.own.vStatus = .ok ∧
    w.primMon.own.needChange = false ∧ w.primMon.own.needChgSet = ∅
  unnamed : ∀ k ∈ silent,
    (w.primMon.vcm k).needChange = false ∧ (w.primMon.vcm k).needChgSet = ∅
  asked : w.asked = true ↔ w.primMon.own.vStatus = .vChange

/-- What is on its way to `j`: tokens and records of the view, of others that are not silent. -/
def Genuine (p : Fin n) (silent : Finset (Fin n)) (i j : Fin n) : Channel → Notice → Prop
  | .token, .token _ => i ∉ silent ∧ i ≠ j
  | .record, .record vcm => i ∉ silent ∧ i ≠ j ∧ vcm.prim = p.val
  | _, _ => False

theorem sound_init (i : Fin n) : Sound p f nodes silent i (init i f nodes) where
  fdId := rfl
  fdNodes := rfl
  fdStab := rfl
  fdByzantine := rfl
  senders := fun _ hx => absurd hx List.not_mem_nil
  clear := fun _ _ => rfl
  unheard := fun _ _ => rfl
  counting := fun _ => Int.le_refl 0
  pmId := rfl
  pmByzantine := rfl
  pmStab := rfl
  reporting := by
    intro hprim
    have hneg : (-1 : Int) = p.val := hprim
    omega
  fresh := fun _ => ⟨rfl, rfl, rfl⟩
  unnamed := fun _ _ => ⟨rfl, rfl⟩
  asked := iff_of_false Bool.false_ne_true nofun

section Steps

variable (hi : i ∉ silent) (hp : p ∈ silent) (h : Sound p f nodes silent i w)

include hi hp h

/-- An iteration of the failure detector handles a token of a processor that is not silent, or
    none. -/
theorem handled_cases (env : FdEnv n) (hservice : env.allowService = true)
    (hview : ∀ k, env.currentView k = p.val) :
    (w.failDet.msgQueue = [] ∧ w.failDet.handled env = w.failDet.module) ∨
      ∃ j b rest, w.failDet.msgQueue = (j, b) :: rest ∧ j ∉ silent ∧ j ≠ i ∧
        Told p env j b w.failDet.module (w.failDet.handled env) := by
  cases hqueue : w.failDet.msgQueue with
  | nil =>
    refine Or.inl ⟨rfl, ?_⟩
    rw [FailureDetectorThread.handled, hqueue]
    rfl
  | cons x rest =>
    obtain ⟨j, b⟩ := x
    obtain ⟨hj, hji⟩ := h.senders (j, b) (hqueue ▸ List.mem_cons_self)
    refine Or.inr ⟨j, b, rest, rfl, hj, hji, ?_⟩
    rw [FailureDetectorThread.handled, hqueue]
    refine uponTokenFromPj_inView h.fdStab (fun heq => hj (heq ▸ hp)) (h.fdId.symm ▸ hji)
      (fun heq => hi ?_) hservice hview h.clear
    rw [← h.fdId, ← heq]
    exact hp

theorem sound_watch : Sound p f nodes silent i (w.watch p pendReqs) := by
  have hcases := handled_cases hi hp h (w.fdEnv p pendReqs) rfl fun _ => rfl
  have hrun : (w.watch p pendReqs).failDet = ⟨w.failDet.handled (w.fdEnv p pendReqs),
      w.failDet.numberOfByzantine, w.failDet.msgQueue.tail, false⟩ :=
    FailureDetectorThread.run_fst _ _
  have hmodule : (w.watch p pendReqs).failDet.module = w.failDet.handled (w.fdEnv p pendReqs) := by
    rw [hrun]
  obtain ⟨hid, hnodes, hstab, hclear, hcounting, hunheard⟩ :
      (w.failDet.handled (w.fdEnv p pendReqs)).id = i ∧
      (w.failDet.handled (w.fdEnv p pendReqs)).nodes = nodes ∧
      (w.failDet.handled (w.fdEnv p pendReqs)).selfStab = true ∧
      ((w.failDet.handled (w.fdEnv p pendReqs)).prim ≠ p.val →
        ∀ k, (w.failDet.handled (w.fdEnv p pendReqs)).primSusp k = false) ∧
      ((w.failDet.handled (w.fdEnv p pendReqs)).prim = p.val →
        0 ≤ (w.failDet.handled (w.fdEnv p pendReqs)).beat p) ∧
      ∀ k ∈ silent, (w.failDet.handled (w.fdEnv p pendReqs)).primSusp k = false := by
    rcases hcases with ⟨-, hsame⟩ | ⟨j, b, rest, -, hj, -, htold⟩
    · rw [hsame]
      exact ⟨h.fdId, h.fdNodes, h.fdStab, h.clear, h.counting, h.unheard⟩
    · refine ⟨htold.id.trans h.fdId, htold.nodes.trans h.fdNodes, htold.stab,
        fun hprim => absurd htold.prim hprim, fun _ => ?_, fun k hk => ?_⟩
      · rw [htold.beat]
        split
        · rename_i hprim
          have hnonneg := h.counting hprim
          omega
        · exact Int.le_refl 0
      · have hkj : k ≠ j := fun heq => hj (heq ▸ hk)
        have hki : k ≠ w.failDet.module.id := fun heq => hi (h.fdId ▸ heq ▸ hk)
        rw [htold.others k hkj hki]
        exact h.unheard k hk
  exact {
    fdId := by rw [hmodule, hid]
    fdNodes := by rw [hmodule, hnodes]
    fdStab := by rw [hmodule, hstab]
    fdByzantine := by
      rw [hrun]
      exact h.fdByzantine
    senders := by
      rw [hrun]
      exact fun x hx => h.senders x (List.mem_of_mem_tail hx)
    clear := by
      rw [hmodule]
      exact hclear
    unheard := by
      rw [hmodule]
      exact hunheard
    counting := by
      rw [hmodule]
      exact hcounting
    pmId := h.pmId
    pmByzantine := h.pmByzantine
    pmStab := h.pmStab
    reporting := h.reporting
    fresh := h.fresh
    unnamed := h.unnamed
    asked := h.asked }

theorem handled_id (pendReqs : Option (List ClientRequest)) :
    (w.failDet.handled (w.fdEnv p pendReqs)).id = i := by
  have hid : (w.watch p pendReqs).failDet.module.id = i := (sound_watch hi hp h).fdId
  rwa [watch, FailureDetectorThread.run_fst] at hid

omit hi hp in
/-- The own record when an iteration starts has the status and the names it had before. -/
theorem started_inView (b : Bool) : (w.primMon.started (envIn p b)).own =
    ⟨w.primMon.own.vStatus, p.val, b, w.primMon.own.needChgSet⟩ := by
  have hview : w.primMon.getCurrentView (envIn p b) w.primMon.id = p.val := by
    rw [PrimaryMonitoringModule.getCurrentView, h.pmStab]
    rfl
  rw [started_own, hview]
  by_cases hprim : w.primMon.own.prim = p.val
  · rw [if_pos hprim]
  · obtain ⟨hstatus, -, hset⟩ := h.fresh hprim
    rw [if_neg hprim, hstatus, hset]

omit hp in
/-- The record of a silent processor names nobody. -/
theorem started_unnamed (b : Bool) {k : Fin n} (hk : k ∈ silent) :
    ((w.primMon.started (envIn p b)).vcm k).needChange = false ∧
      ((w.primMon.started (envIn p b)).vcm k).needChgSet = ∅ := by
  have hki : k ≠ w.primMon.id := fun heq => hi (h.pmId ▸ heq ▸ hk)
  rw [started_vcm _ hki]
  split
  · exact h.unnamed k hk
  · exact ⟨rfl, rfl⟩

omit hp in
theorem sound_monitor (hpos : 2 * f < n) (horder : Ascends f order) :
    Sound p f nodes silent i (w.monitor p order) := by
  have hrun := run_inView (b := w.suspected p) (by rw [h.pmByzantine]; exact hpos)
    (by rw [h.pmByzantine]; exact horder) h.pmStab h.reporting
  have hown := started_inView h (w.suspected p)
  have hid : (w.monitor p order).primMon.id = i := hrun.id.trans h.pmId
  exact {
    fdId := h.fdId
    fdNodes := h.fdNodes
    fdStab := h.fdStab
    fdByzantine := h.fdByzantine
    senders := h.senders
    clear := h.clear
    unheard := h.unheard
    counting := h.counting
    pmId := hid
    pmByzantine := hrun.byzantine.trans h.pmByzantine
    pmStab := hrun.stab
    reporting := by
      intro hprim k
      by_cases hk : k = (w.monitor p order).primMon.id
      · rw [hk]
        exact hprim
      · have hk' : k ≠ w.primMon.id := fun heq => hk (heq.trans (h.pmId.trans hid.symm))
        exact (congrArg Vcm.prim (hrun.others k hk')).trans
          (started_reports h.pmStab h.reporting k)
    fresh := fun hprim => absurd hrun.prim hprim
    unnamed := by
      intro k hk
      have hk' : k ≠ w.primMon.id := fun heq => hi (h.pmId ▸ heq ▸ hk)
      have hsame : (w.monitor p order).primMon.vcm k =
          (w.primMon.started (envIn p (w.suspected p))).vcm k := hrun.others k hk'
      rw [hsame]
      exact started_unnamed hi h _ hk
    asked := by
      show (w.asked || (w.primMon.run (envIn p (w.suspected p)) order).2) = true ↔ _
      rw [Bool.or_eq_true, hrun.asks, h.asked]
      refine ⟨fun hor => hor.elim (fun hstatus => hrun.stays ?_) id, Or.inr⟩
      rw [hown]
      exact hstatus }

omit hi hp in
theorem sound_receive {c : Channel} {m : Notice} (hm : Genuine p silent j i c m) :
    Sound p f nodes silent i ((protocol p).receive i j c m w) := by
  cases m with
  | token b =>
    cases c with
    | record => exact hm.elim
    | token =>
      obtain ⟨hj, hji⟩ := hm
      exact {
        fdId := h.fdId
        fdNodes := h.fdNodes
        fdStab := h.fdStab
        fdByzantine := h.fdByzantine
        senders := by
          intro x hx
          rcases List.mem_append.mp hx with hx | hx
          · exact h.senders x hx
          · rw [List.mem_singleton.mp hx]
            exact ⟨hj, hji⟩
        clear := h.clear
        unheard := h.unheard
        counting := h.counting
        pmId := h.pmId
        pmByzantine := h.pmByzantine
        pmStab := h.pmStab
        reporting := h.reporting
        fresh := h.fresh
        unnamed := h.unnamed
        asked := h.asked }
  | record vcm =>
    cases c with
    | token => exact hm.elim
    | record =>
      obtain ⟨hj, hji, hprim⟩ := hm
      have hjid : j ≠ w.primMon.id := h.pmId.symm ▸ hji
      have hown := own_receiveMsg w.primMon j vcm
      have hget : (w.primMon.receiveMsg j vcm) =
          { w.primMon with vcm := Function.update w.primMon.vcm j vcm } := if_pos hjid
      have hvcm : ∀ k, k ≠ j → (w.primMon.receiveMsg j vcm).vcm k = w.primMon.vcm k := by
        intro k hk
        rw [hget]
        exact Function.update_of_ne hk _ _
      exact {
        fdId := h.fdId
        fdNodes := h.fdNodes
        fdStab := h.fdStab
        fdByzantine := h.fdByzantine
        senders := h.senders
        clear := h.clear
        unheard := h.unheard
        counting := h.counting
        pmId := by
          show (w.primMon.receiveMsg j vcm).id = i
          rw [hget]
          exact h.pmId
        pmByzantine := by
          show (w.primMon.receiveMsg j vcm).numberOfByzantine = f
          rw [hget]
          exact h.pmByzantine
        pmStab := by
          show (w.primMon.receiveMsg j vcm).selfStab = true
          rw [hget]
          exact h.pmStab
        reporting := by
          intro hview k
          show ((w.primMon.receiveMsg j vcm).vcm k).prim = p.val
          by_cases hk : k = j
          · subst hk
            rw [hget]
            show (Function.update w.primMon.vcm k vcm k).prim = p.val
            rw [Function.update_self]
            exact hprim
          · rw [hvcm k hk]
            exact h.reporting ((congrArg Vcm.prim hown).symm.trans hview) k
        fresh := by
          show (w.primMon.receiveMsg j vcm).own.prim ≠ p.val → _
          show _ → (w.primMon.receiveMsg j vcm).own.vStatus = .ok ∧
            (w.primMon.receiveMsg j vcm).own.needChange = false ∧
            (w.primMon.receiveMsg j vcm).own.needChgSet = ∅
          rw [hown]
          exact h.fresh
        unnamed := by
          intro k hk
          show ((w.primMon.receiveMsg j vcm).vcm k).needChange = false ∧
            ((w.primMon.receiveMsg j vcm).vcm k).needChgSet = ∅
          rw [hvcm k fun heq => hj (heq ▸ hk)]
          exact h.unnamed k hk
        asked := by
          show w.asked = true ↔ (w.primMon.receiveMsg j vcm).own.vStatus = .vChange
          rw [hown]
          exact h.asked }

end Steps

/-- What is sent is genuine. -/
theorem genuine_sent {a : Action n} {c : Channel} {m : Notice} (hi : i ∉ silent) (hp : p ∈ silent)
    (hpos : 2 * f < n) (ha : Allowed f a) (h : Sound p f nodes silent i w)
    (hm : (j, c, m) ∈ ((protocol p).act i a w).2) : Genuine p silent i j c m := by
  cases a with
  | watch pendReqs =>
    obtain ⟨⟨k, b⟩, hx, heq⟩ := List.mem_map.mp hm
    cases heq
    refine ⟨hi, ?_⟩
    obtain ⟨-, ⟨b', hfirst⟩ | ⟨-, hne⟩⟩ := FailureDetectorThread.mem_sent.mp hx
    · exact (h.senders _ (List.mem_of_mem_head? hfirst)).2.symm
    · exact fun heq => hne (heq.symm.trans (handled_id hi hp h pendReqs).symm)
  | monitor order =>
    obtain ⟨k, hk, heq⟩ := List.mem_map.mp hm
    cases heq
    have hrun := run_inView (b := w.suspected p) (by rw [h.pmByzantine]; exact hpos)
      (by rw [h.pmByzantine]; exact ha) h.pmStab h.reporting
    exact ⟨hi, Ne.symm (of_decide_eq_true (List.mem_filter.mp hk).2), hrun.prim⟩

/-- In every reachable state the processors are sound, and what is on its way is genuine. -/
theorem sound (hp : p ∈ silent) (hpos : 2 * f < n)
    {net : Channels (Fin n) (Watcher n) Channel Notice}
    (h : (system p f nodes silent).Reachable net) :
    (∀ i, i ∉ silent → Sound p f nodes silent i (net.nodes i)) ∧
      ∀ i j c, ∀ m ∈ net.queue i j c, Genuine p silent i j c m := by
  refine Channels.Reachable.of_local (fun net hinit => ⟨fun i hi => ?_, fun i j c m hm => ?_⟩)
    (fun i hi a w ha hw => ⟨?_, fun j c m hm => genuine_sent hi hp hpos ha hw hm⟩)
    (fun j hj i c m w hw hm => sound_receive hw hm) h
  · rw [hinit.1 i hi]
    exact sound_init i
  · rw [hinit.2 i j c] at hm
    cases hm
  · cases a with
    | watch pendReqs => exact sound_watch hi hp hw
    | monitor order => exact sound_monitor hi hw hpos ha

end Watcher

end BFTList

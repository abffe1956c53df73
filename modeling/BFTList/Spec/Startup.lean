import BFTList.ForStd.Fairness
import BFTList.Native.Startup
import Mathlib.Tactic.DeriveCountable

/-!
# When the system runs

A processor runs only when no processor is booting any more, and the main thread, which sets the
status without looking at it, never takes it back. Every processor comes to run if all are
started; a single one that is not keeps all others from running, and a processor without others
never runs.

## Key results

- `Host.Sound`: what holds of a processor while it asks the others
- `running_iff`: which processors run in the end
-/

namespace BFTList

namespace Hosts

variable {n : Nat} {hosts hosts' : Hosts n} {i j : Fin n} {a : StartLabel n}

/-- The kinds of steps that sooner or later are taken. -/
inductive Duty (n : Nat) where
  | setupCommunication (i : Fin n)
  | waitForOtherNodes (i : Fin n)
  deriving Countable

/-- Nobody has to be started, and no request has to fail. -/
def kind : StartLabel n → Option (Duty n)
  | .start _ | .waitForOtherNodes _ false => none
  | .setupCommunication i => some (.setupCommunication i)
  | .waitForOtherNodes i true => some (.waitForOtherNodes i)

/-- The runs of all processors. -/
def system (n : Nat) : System (Hosts n) (StartLabel n) where
  init hosts := hosts = fun _ => .init
  step hosts a hosts' := hosts.next a = some hosts'

/-! ## One step -/

/-- What a step does to processor `i`. -/
inductive HostStep (hosts hosts' : Hosts n) (i : Fin n) : StartLabel n → Prop
  | start (hstarted : (hosts i).started = false)
      (hhost : hosts' i = { hosts i with started := true }) : HostStep hosts hosts' i (.start i)
  | setUp (hstarted : (hosts i).started) (hsetUp : (hosts i).setUp = false)
      (hhost : hosts' i = { hosts i with setUp := true, systemStatus := .ready }) :
      HostStep hosts hosts' i (.setupCommunication i)
  | ask (answered : Bool) (j : Fin n) (rest : List (Fin n)) (nodesReady : List Bool)
      (hstarted : (hosts i).started) (hwait : (hosts i).wait = .asking (j :: rest) nodesReady)
      (hhost : hosts' i = { hosts i with
        wait := .asking rest (nodesReady ++ [answered && (hosts j).isReady]) }) :
      HostStep hosts hosts' i (.waitForOtherNodes i answered)
  | run (answered : Bool) (nodesReady : List Bool) (hstarted : (hosts i).started)
      (hwait : (hosts i).wait = .asking [] nodesReady) (hall : nodesReady.all id = true)
      (hhost : hosts' i = { hosts i with systemStatus := .running, wait := .returned }) :
      HostStep hosts hosts' i (.waitForOtherNodes i answered)
  | again (answered : Bool) (nodesReady : List Bool) (hstarted : (hosts i).started)
      (hwait : (hosts i).wait = .asking [] nodesReady) (hall : nodesReady.all id = false)
      (hhost : hosts' i = { hosts i with wait := .asking (List.finRange n) [] }) :
      HostStep hosts hosts' i (.waitForOtherNodes i answered)
  | none (a : StartLabel n) (hother : ∀ k, kind a = some k → k ≠ .setupCommunication i ∧
        k ≠ .waitForOtherNodes i) (hhost : hosts' i = hosts i) : HostStep hosts hosts' i a

theorem hostStep_of_next (h : hosts.next a = some hosts') (i : Fin n) :
    HostStep hosts hosts' i a := by
  cases a with
  | start k =>
    simp only [Hosts.next, Option.ite_none_left_eq_some, Option.some.injEq] at h
    obtain ⟨hstarted, rfl⟩ := h
    by_cases hik : i = k
    · subst hik
      exact .start (by simpa using hstarted) (Function.update_self ..)
    · exact .none _ (fun _ hk => by cases hk) (Function.update_of_ne hik ..)
  | setupCommunication k =>
    simp only [Hosts.next, Option.map_eq_some_iff, Host.setupCommunication,
      Option.ite_none_right_eq_some, Option.some.injEq] at h
    obtain ⟨_, ⟨⟨hstarted, hsetUp⟩, rfl⟩, rfl⟩ := h
    by_cases hik : i = k
    · subst hik
      exact .setUp hstarted (by simpa using hsetUp) (Function.update_self ..)
    · refine .none _ (fun _ hk => ?_) (Function.update_of_ne hik ..)
      cases hk
      exact ⟨fun heq => hik (by cases heq; rfl), fun heq => (by cases heq)⟩
  | waitForOtherNodes k answered =>
    simp only [Hosts.next, Option.map_eq_some_iff] at h
    obtain ⟨host, hhost, rfl⟩ := h
    by_cases hik : i = k
    · subst hik
      simp only [Host.waitForOtherNodes] at hhost
      split at hhost
      · rename_i j rest nodesReady hstarted hwait
        cases hhost
        exact .ask answered j rest nodesReady hstarted hwait (Function.update_self ..)
      · rename_i nodesReady hstarted hwait
        split at hhost
        · rename_i hall
          cases hhost
          exact .run answered nodesReady hstarted hwait hall (Function.update_self ..)
        · rename_i hall
          cases hhost
          exact .again answered nodesReady hstarted hwait (by simpa using hall)
            (Function.update_self ..)
      · cases hhost
    · refine .none _ (fun _ hk => ?_) (Function.update_of_ne hik ..)
      cases answered with
      | false => cases hk
      | true =>
        cases hk
        exact ⟨fun heq => (by cases heq), fun heq => hik (by cases heq; rfl)⟩

/-- What is known of a processor while and after it asks the others. -/
structure Sound (hosts : Hosts n) (i : Fin n) : Prop where
  started : (hosts i).systemStatus ≠ .booting → (hosts i).started
  setUp : (hosts i).setUp = false ↔ (hosts i).systemStatus = .booting
  asking : ∀ rest nodesReady, (hosts i).wait = .asking rest nodesReady →
    rest <:+ List.finRange n ∧ (hosts i).systemStatus ≠ .running ∧ n ≠ 1 ∧
      (nodesReady.all id = true → ∀ j, j ∉ rest → (hosts j).systemStatus ≠ .booting)
  returned : (hosts i).wait = .returned → (hosts i).systemStatus = .running ∨ n = 1
  running : (hosts i).systemStatus = .running →
    n ≠ 1 ∧ ∀ j, (hosts j).systemStatus ≠ .booting

/-- No processor takes its status back. -/
theorem status_next (hsound : ∀ i, Sound hosts i) (h : hosts.next a = some hosts') (i : Fin n) :
    (hosts i).systemStatus.val ≤ (hosts' i).systemStatus.val := by
  cases hostStep_of_next h i with
  | start _ hhost | ask _ _ _ _ _ _ hhost | again _ _ _ _ _ hhost | none _ _ hhost => rw [hhost]
  | setUp _ hsetUp hhost =>
    -- the main thread comes to this before the processor can run
    rw [hhost, (hsound i).setUp.mp hsetUp]
    show 1 ≤ 2
    omega
  | run _ _ _ _ _ hhost =>
    rw [hhost]
    cases (hosts i).systemStatus <;> simp [SystemStatus.val]

theorem notBooting_next (hsound : ∀ i, Sound hosts i) (h : hosts.next a = some hosts')
    (hj : (hosts j).systemStatus ≠ .booting) : (hosts' j).systemStatus ≠ .booting := by
  intro hbooting
  have hle := status_next hsound h j
  rw [hbooting] at hle
  cases hstatus : (hosts j).systemStatus with
  | booting => exact hj hstatus
  | ready | running =>
    rw [hstatus] at hle
    simp [SystemStatus.val] at hle

theorem sound_init (i : Fin n) : Sound (fun _ => .init : Hosts n) i where
  started h := absurd rfl h
  setUp := ⟨fun _ => rfl, fun _ => rfl⟩
  asking rest nodesReady h := by
    simp only [Host.init] at h
    split at h
    · cases h
    · rename_i hn
      cases h
      exact ⟨List.suffix_refl _, by simp [Host.init], hn,
        fun _ j hj => absurd (List.mem_finRange j) hj⟩
  returned h := by
    simp only [Host.init] at h
    split at h
    · rename_i hn
      exact Or.inr hn
    · cases h
  running h := by simp [Host.init] at h

theorem sound_next (hsound : ∀ i, Sound hosts i) (h : hosts.next a = some hosts') (i : Fin n) :
    Sound hosts' i := by
  have hkeep : ∀ j, (hosts j).systemStatus ≠ .booting → (hosts' j).systemStatus ≠ .booting :=
    fun j hj => notBooting_next hsound h hj
  obtain ⟨hstarted, hsetUp, hasking, hreturned, hrunning⟩ := hsound i
  -- whoever was found ready stays so
  have hasking' : ∀ rest nodesReady, (hosts i).wait = .asking rest nodesReady →
      nodesReady.all id = true → ∀ j, j ∉ rest → (hosts' j).systemStatus ≠ .booting :=
    fun rest nodesReady hwait hall j hj => hkeep j ((hasking rest nodesReady hwait).2.2.2 hall j hj)
  cases hostStep_of_next h i with
  | start _ hhost =>
    constructor <;> rw [hhost]
    · exact fun _ => rfl
    · exact hsetUp
    · exact fun rest nodesReady hwait =>
        ⟨(hasking rest nodesReady hwait).1, (hasking rest nodesReady hwait).2.1,
          (hasking rest nodesReady hwait).2.2.1, hasking' rest nodesReady hwait⟩
    · exact hreturned
    · exact fun hrun => ⟨(hrunning hrun).1, fun j => hkeep j ((hrunning hrun).2 j)⟩
  | setUp hstart hnot hhost =>
    constructor <;> rw [hhost]
    · exact fun _ => hstart
    · simp
    · exact fun rest nodesReady hwait =>
        ⟨(hasking rest nodesReady hwait).1, by simp, (hasking rest nodesReady hwait).2.2.1,
          hasking' rest nodesReady hwait⟩
    · intro hwait
      cases hreturned hwait with
      | inl hrun =>
        rw [hsetUp.mp hnot] at hrun
        cases hrun
      | inr hn => exact Or.inr hn
    · simp
  | ask answered j rest nodesReady hstart hwait hhost =>
    obtain ⟨hsuffix, hnotRunning, hn, hfound⟩ := hasking _ _ hwait
    constructor <;> rw [hhost]
    · exact fun _ => hstart
    · exact hsetUp
    · intro rest' nodesReady' hwait'
      cases hwait'
      refine ⟨(List.suffix_cons j rest).trans hsuffix, hnotRunning, hn, fun hall k hk => ?_⟩
      simp only [List.all_append, Bool.and_eq_true, List.all_cons, List.all_nil, Bool.and_true, id,
        Host.isReady, decide_eq_true_eq] at hall
      by_cases hkj : k = j
      · exact hkj ▸ hkeep j hall.2.2.2
      · exact hkeep k (hfound hall.1 k (by simp [hkj, hk]))
    · exact fun hwait' => by cases hwait'
    · exact fun hrun => absurd hrun hnotRunning
  | run answered nodesReady hstart hwait hall hhost =>
    obtain ⟨-, -, hn, hfound⟩ := hasking _ _ hwait
    constructor <;> rw [hhost]
    · exact fun _ => hstart
    · have hready := hfound hall i (by simp)
      simp only [reduceCtorEq, iff_false]
      exact fun hnot => hready (hsetUp.mp hnot)
    · exact fun _ _ hwait' => by cases hwait'
    · exact fun _ => Or.inl rfl
    · exact fun _ => ⟨hn, fun j => hkeep j (hfound hall j (by simp))⟩
  | again answered nodesReady hstart hwait hall hhost =>
    obtain ⟨-, hnotRunning, hn, -⟩ := hasking _ _ hwait
    constructor <;> rw [hhost]
    · exact fun _ => hstart
    · exact hsetUp
    · intro rest nodesReady' hwait'
      cases hwait'
      exact ⟨List.suffix_refl _, hnotRunning, hn,
        fun _ j hj => absurd (List.mem_finRange j) hj⟩
    · exact fun hwait' => by cases hwait'
    · exact fun hrun => absurd hrun hnotRunning
  | none _ _ hhost =>
    constructor <;> rw [hhost]
    · exact hstarted
    · exact hsetUp
    · exact fun rest nodesReady hwait =>
        ⟨(hasking rest nodesReady hwait).1, (hasking rest nodesReady hwait).2.1,
          (hasking rest nodesReady hwait).2.2.1, hasking' rest nodesReady hwait⟩
    · exact hreturned
    · exact fun hrun => ⟨(hrunning hrun).1, fun j => hkeep j ((hrunning hrun).2 j)⟩

theorem sound (h : (system n).Reachable hosts) (i : Fin n) : Sound hosts i := by
  refine System.Run.invariant (I := fun hosts => ∀ i, Sound hosts i) ?_ ?_ h i
  · intro hosts hinit
    simp only [system] at hinit
    subst hinit
    exact sound_init
  · exact fun hosts a hosts' hsound _ hstep => sound_next hsound hstep

/-! ## Fair runs -/

/-- How many requests a processor still makes if all are answered and no one is booting. -/
def requests (host : Host n) : Nat :=
  match host.wait with
  | .asking rest nodesReady =>
    if nodesReady.all id then rest.length + 1 else rest.length + n + 2
  | .returned => 0

/-- Once all are ready, every answer brings a processor closer to the end. -/
theorem requests_next (hready : ∀ j, (hosts j).isReady) (hfails : a ≠ .waitForOtherNodes i false)
    (h : hosts.next a = some hosts') : requests (hosts' i) ≤ requests (hosts i) ∧
      (kind a = some (.waitForOtherNodes i) → requests (hosts' i) < requests (hosts i)) := by
  cases hostStep_of_next h i with
  | start _ hhost | setUp _ _ hhost =>
    rw [hhost]
    exact ⟨Nat.le_refl _, fun hk => by cases hk⟩
  | ask answered j rest nodesReady _ hwait hhost =>
    cases answered with
    | false => exact absurd rfl hfails
    | true =>
      have hlt : requests (hosts' i) < requests (hosts i) := by
        simp only [requests, hhost, hwait, hready j, Bool.and_true, List.all_append, List.all_cons,
          List.all_nil, id, List.length_cons]
        split <;> omega
      exact ⟨Nat.le_of_lt hlt, fun _ => hlt⟩
  | run answered nodesReady _ hwait hall hhost =>
    have hlt : requests (hosts' i) < requests (hosts i) := by
      simp only [requests, hhost, hwait, hall, if_true]
      omega
    exact ⟨Nat.le_of_lt hlt, fun _ => hlt⟩
  | again answered nodesReady _ hwait hall hhost =>
    have hlt : requests (hosts' i) < requests (hosts i) := by
      simp only [requests, hhost, hwait, hall, List.all_nil, if_true, List.length_finRange,
        Bool.false_eq_true, if_false, List.length_nil]
      omega
    exact ⟨Nat.le_of_lt hlt, fun _ => hlt⟩
  | none _ hother hhost =>
    rw [hhost]
    exact ⟨Nat.le_refl _, fun hk => absurd rfl (hother _ hk).2⟩

/-- A processor that is started stays so. -/
theorem started_next (h : hosts.next a = some hosts') (hj : (hosts j).started) :
    (hosts' j).started := by
  cases hostStep_of_next h j with
  | start _ hhost => rw [hhost]
  | setUp _ _ hhost | ask _ _ _ _ _ _ hhost | run _ _ _ _ _ hhost | again _ _ _ _ _ hhost
  | none _ _ hhost =>
    rw [hhost]
    exact hj

/-- A processor that has not come to an end may ask. -/
theorem enabled_wait (hready : (hosts i).isReady) (hrequests : requests (hosts i) ≠ 0) :
    (system n).Enabled kind (.waitForOtherNodes i) hosts := by
  simp only [Host.isReady, Bool.and_eq_true] at hready
  have hsome : ((hosts i).waitForOtherNodes fun j => true && (hosts j).isReady).isSome := by
    cases hwait : (hosts i).wait with
    | returned => exact absurd (by simp [requests, hwait]) hrequests
    | asking rest nodesReady =>
      cases rest with
      | nil =>
        simp only [Host.waitForOtherNodes, hready.1, hwait]
        split <;> rfl
      | cons j rest => simp [Host.waitForOtherNodes, hready.1, hwait]
  obtain ⟨host, hhost⟩ := Option.isSome_iff_exists.mp hsome
  refine ⟨.waitForOtherNodes i true, Function.update hosts i host, rfl, ?_⟩
  show hosts.next _ = _
  rw [Hosts.next, hhost, Option.map_some]

section Fair

variable {s : Nat → Hosts n} {e : Nat → Option (StartLabel n)} (h : (system n).FairRun kind s e)

include h

/-- A processor that is started comes to be ready, and stays so. -/
theorem isReady_settles (hj : ∃ t, (s t j).started) :
    System.Settles s fun hosts => (hosts j).isReady := by
  have hready : System.LeadsTo s (fun hosts => (hosts j).started)
      fun hosts => (hosts j).isReady := by
    apply h.ensures (.setupCommunication j)
    · intro t hstarted hnot
      have hbooting : (s t j).systemStatus = .booting := by
        by_contra hstatus
        exact hnot (by simp [Host.isReady, hstarted, hstatus])
      have hsetUp : (s t j).started ∧ !(s t j).setUp := by
        rw [(sound (h.reachable t) j).setUp.mpr hbooting]
        exact ⟨hstarted, rfl⟩
      refine ⟨.setupCommunication j, Function.update (s t) j
        { s t j with setUp := true, systemStatus := .ready }, rfl, ?_⟩
      show (s t).next _ = _
      rw [Hosts.next, Host.setupCommunication, if_pos hsetUp, Option.map_some]
    · intro t a hstarted _ _ hstep
      cases hostStep_of_next hstep j with
      | setUp _ _ hhost => exact Or.inl (by simp [Host.isReady, hhost, hstarted])
      | start => exact Or.inr ⟨by simp [kind], started_next hstep hstarted⟩
      | run answered | again answered | ask answered =>
        exact Or.inr ⟨by cases answered <;> simp [kind], started_next hstep hstarted⟩
      | none _ hother _ =>
        exact Or.inr ⟨fun hk => absurd rfl (hother _ hk).1, started_next hstep hstarted⟩
  obtain ⟨t₀, ht₀⟩ := hj
  apply System.Settles.of_kept (i := t₀)
  · intro t _ hbefore
    apply h.kept_next (P := fun hosts => (hosts j).isReady) hbefore
    intro a _ hstep
    simp only [Host.isReady, Bool.and_eq_true, decide_eq_true_eq] at hbefore ⊢
    exact ⟨started_next hstep hbefore.1,
      notBooting_next (fun i => sound (h.reachable t) i) hstep hbefore.2⟩
  · exact hready t₀ ht₀

/-- A processor comes to run if all are started and requests do not fail for ever. -/
theorem exists_running (hanswers : ∃ t₀, ∀ t, t₀ ≤ t → ∀ i, e t ≠ some (.waitForOtherNodes i false))
    (hn : n ≠ 1) (hall : ∀ j, ∃ t, (s t j).started) (i : Fin n) : ∃ t, (s t i).systemRunning := by
  obtain ⟨t₁, ht₁⟩ := hanswers
  obtain ⟨t₂, ht₂⟩ := System.Settles.all fun j => isReady_settles h (hall j)
  have hzero : System.Settles s fun hosts => requests (hosts i) = 0 := by
    apply System.Settles.of_measure (i := max t₁ t₂)
    · intro t ht
      apply h.kept_next (P := fun hosts => requests (hosts i) ≤ requests (s t i)) (Nat.le_refl _)
      intro a he hstep
      exact (requests_next (ht₂ t (by omega)) (fun heq => ht₁ t (by omega) i (heq ▸ he)) hstep).1
    · intro t ht
      by_contra hnever
      have hnonzero : ∀ t', t ≤ t' → requests (s t' i) ≠ 0 := fun t' ht' hzero =>
        hnever ⟨t', ht', Or.inl hzero⟩
      obtain ⟨t', ht', a, ha, hkind⟩ := h.fair t (.waitForOtherNodes i) fun t' ht' =>
        enabled_wait ((ht₂ t' (by omega) i)) (hnonzero t' ht')
      have hstep := requests_next (ht₂ t' (by omega)) (fun heq => ht₁ t' (by omega) i (heq ▸ ha))
        (h.step t' a ha)
      exact hnever ⟨t', ht', Or.inr (hstep.2 hkind)⟩
  obtain ⟨t, ht⟩ := hzero
  refine ⟨t, ?_⟩
  have hnone := ht t (Nat.le_refl t)
  cases hwait : (s t i).wait with
  | asking rest nodesReady =>
    simp only [requests, hwait] at hnone
    split at hnone <;> omega
  | returned =>
    have hrun := ((sound (h.reachable t) i).returned hwait).resolve_right hn
    simp [Host.systemRunning, hrun]

end Fair

/-- While a processor runs, no processor is booting, and no status is ever taken back. With
    requests that do not fail for ever, a processor comes to run if and only if it is not the only
    one and all are started. -/
theorem running_iff {s : Nat → Hosts n} {e : Nat → Option (StartLabel n)}
    (h : (system n).FairRun kind s e)
    (hanswers : ∃ t₀, ∀ t, t₀ ≤ t → ∀ i, e t ≠ some (.waitForOtherNodes i false)) (i : Fin n) :
    (∀ t, (s t i).systemRunning → ∀ j, (s t j).systemStatus ≠ .booting) ∧
    (∀ t t', t ≤ t' → (s t i).systemStatus.val ≤ (s t' i).systemStatus.val) ∧
    ((∃ t, (s t i).systemRunning) ↔ n ≠ 1 ∧ ∀ j, ∃ t, (s t j).started) := by
  have hrunning : ∀ t, (s t i).systemRunning →
      n ≠ 1 ∧ ∀ j, (s t j).systemStatus ≠ .booting := fun t ht =>
    (sound (h.reachable t) i).running (of_decide_eq_true ht)
  refine ⟨fun t ht => (hrunning t ht).2, fun t t' htt' => ?_, fun ⟨t, ht⟩ => ?_,
    fun ⟨hn, hall⟩ => exists_running h hanswers hn hall i⟩
  · apply h.of_le (I := fun hosts hosts' =>
      (hosts i).systemStatus.val ≤ (hosts' i).systemStatus.val)
      (fun _ => Nat.le_refl _) (fun _ _ _ => Nat.le_trans) _ htt'
    exact fun t a _ hstep => status_next (fun i => sound (h.reachable t) i) hstep i
  · obtain ⟨hn, hall⟩ := hrunning t ht
    exact ⟨hn, fun j => ⟨t, (sound (h.reachable t) j).started (hall j)⟩⟩

/-- Two processors that both run. -/
def bothRunning : Hosts 2 := fun _ => ⟨true, true, .running, .returned⟩

/-- How they get there. -/
def bothStart (i j : Fin n) : List (StartLabel n) :=
  [.start i, .setupCommunication i, .waitForOtherNodes i true, .start j,
    .waitForOtherNodes i true, .waitForOtherNodes i true, .setupCommunication j] ++
  List.replicate 3 (.waitForOtherNodes i true) ++ List.replicate 3 (.waitForOtherNodes j true)

/-- Two processors come to run, the first one in the second attempt. -/
theorem running_iff_two : ∃ (s : Nat → Hosts 2) (e : Nat → Option (StartLabel 2)),
    (system 2).FairRun kind s e ∧ ∀ j, ∃ t, (s t j).started := by
  have hexec : System.exec Hosts.next (fun _ => .init) (bothStart 0 1) = some bothRunning := by
    decide
  have hstuck : ∀ a hosts', bothRunning.next a = some hosts' → False := by
    intro a hosts' h
    cases a with
    | start => cases h
    | setupCommunication => cases h
    | waitForOtherNodes => cases h
  have hinit : (system 2).init fun _ => .init := rfl
  have hend : ∀ k, ¬ (system 2).Enabled kind k bothRunning :=
    fun _ ⟨a, hosts', _, h⟩ => hstuck a hosts' h
  obtain ⟨s, e, hrun, -, hlast⟩ :=
    System.FairRun.exists_of_exec (fun _ _ _ h => h) hinit hexec hend
  have hanswers : ∀ t, (bothStart (0 : Fin 2) 1).length ≤ t → ∀ i,
      e t ≠ some (.waitForOtherNodes i false) := by
    intro t ht i he
    have hstep := hrun.step t _ he
    rw [hlast t ht] at hstep
    exact hstuck _ _ hstep
  have hruns : (s (bothStart (0 : Fin 2) 1).length 0).systemRunning := by
    rw [hlast _ (Nat.le_refl _)]
    rfl
  exact ⟨s, e, hrun, ((running_iff hrun ⟨_, hanswers⟩ 0).2.2.mp ⟨_, hruns⟩).2⟩

end Hosts

end BFTList

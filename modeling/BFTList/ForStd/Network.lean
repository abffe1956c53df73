import BFTList.ForStd.Transition
import Mathlib.Data.Finset.Basic
import Mathlib.Logic.Function.Basic

/-!
# Processors that exchange messages, of which some are faulty

A protocol says what one processor does: its own actions, the messages it may
send in a state, and what it does with a message. The network runs it at every
correct processor, in any order. A message that was sent stays in flight, so it
may be delivered late, out of order, more than once or never. A faulty
processor delivers whatever it likes to whom it likes, under its own name.

## Key results

- `Run.of_shared`: what correct processors keep about something they share
- `Run.of_local`, `Reachable.of_local`: what every correct processor keeps on its own, given what
  correct processors send, holds at every correct processor in every run
- `Run.of_exec`, `Reachable.of_exec`: executing a list of labels is a run
- `Run.of_play`: so is a list of moves, such as the relay of all current messages
-/

/-- One processor's side of a protocol. Actions may be impossible in a state. -/
structure Protocol (ι σ α μ : Type*) where
  act : ι → α → σ → Option σ
  emit : ι → σ → ι → List μ
  receive : ι → ι → μ → σ → σ
  forgeable : ι → μ → Prop

/-- The states of all processors and the messages sent so far: sender,
    receiver and content. -/
structure Network (ι σ μ : Type*) where
  nodes : ι → σ
  flight : List (ι × ι × μ)

namespace Network

variable {ι σ α μ : Type*} [DecidableEq ι]

/-- Replace the state of one processor. -/
def set (net : Network ι σ μ) (i : ι) (s : σ) : Network ι σ μ :=
  { net with nodes := Function.update net.nodes i s }

@[simp] theorem set_flight (net : Network ι σ μ) (i : ι) (s : σ) :
    (net.set i s).flight = net.flight := rfl

@[simp] theorem set_nodes_self (net : Network ι σ μ) (i : ι) (s : σ) :
    (net.set i s).nodes i = s := Function.update_self ..

@[simp] theorem set_nodes_of_ne (net : Network ι σ μ) {i k : ι} (s : σ) (h : k ≠ i) :
    (net.set i s).nodes k = net.nodes k := Function.update_of_ne h ..

/-- What does not differ between the old and the new state of one processor is
    the same at all processors. -/
theorem proj_set {β : Type*} (f : σ → β) {net : Network ι σ μ} {i : ι} {s : σ}
    (h : f s = f (net.nodes i)) (k : ι) : f ((net.set i s).nodes k) = f (net.nodes k) := by
  by_cases hk : k = i
  · rw [hk, set_nodes_self, h]
  · rw [set_nodes_of_ne _ _ hk]

/-- What happens next in the network. -/
inductive Label (ι α μ : Type*) where
  | act (i : ι) (a : α)
  | send (i j : ι) (m : μ)
  | deliver (i j : ι) (m : μ)
  | forge (i j : ι) (m : μ)

/-- The network after a step, which takes place only when the label is possible. -/
def Step (P : Protocol ι σ α μ) (faulty : Finset ι) (net : Network ι σ μ) :
    Label ι α μ → Network ι σ μ → Prop
  | .act i a, net' => i ∉ faulty ∧ ∃ s, P.act i a (net.nodes i) = some s ∧ net' = net.set i s
  | .send i j m, net' => i ∉ faulty ∧ m ∈ P.emit i (net.nodes i) j ∧
      net' = { net with flight := (i, j, m) :: net.flight }
  | .deliver i j m, net' => j ∉ faulty ∧ (i, j, m) ∈ net.flight ∧
      net' = net.set j (P.receive j i m (net.nodes j))
  | .forge i j m, net' => i ∈ faulty ∧ j ∉ faulty ∧ P.forgeable i m ∧
      net' = net.set j (P.receive j i m (net.nodes j))

/-- The network as a transition system. -/
def system (P : Protocol ι σ α μ) (faulty : Finset ι) (start : Network ι σ μ → Prop) :
    System (Network ι σ μ) (Label ι α μ) where
  init := start
  step := Step P faulty

/-- A condition on the own actions only. -/
def locally (ok : ι → σ → α → Prop) (net : Network ι σ μ) : Label ι α μ → Prop
  | .act i a => ok i (net.nodes i) a
  | _ => True

/-- What correct processors keep: `I` of their states and `M` of what they send. -/
structure Local (P : Protocol ι σ α μ) (faulty : Finset ι) (I : ι → σ → Prop)
    (M : ι → ι → μ → Prop) (net : Network ι σ μ) : Prop where
  nodes : ∀ i, i ∉ faulty → I i (net.nodes i)
  sent : ∀ i j m, (i, j, m) ∈ net.flight → i ∉ faulty → M i j m
  forged : ∀ i j m, (i, j, m) ∈ net.flight → i ∈ faulty → P.forgeable i m

variable {P : Protocol ι σ α μ} {faulty : Finset ι} {I : ι → σ → Prop} {M : ι → ι → μ → Prop}
  {net net' : Network ι σ μ}

theorem Local.set (h : Local P faulty I M net) {i : ι} {s : σ} (hi : I i s) :
    Local P faulty I M (net.set i s) := by
  refine ⟨fun k hk => ?_, h.sent, h.forged⟩
  by_cases hki : k = i
  · subst hki
    rwa [set_nodes_self]
  · rw [set_nodes_of_ne _ _ hki]
    exact h.nodes k hk

omit [DecidableEq ι] in
/-- With no message on its way only the states count. -/
theorem Local.of_noFlight (hnodes : ∀ i, i ∉ faulty → I i (net.nodes i)) (h : net.flight = []) :
    Local P faulty I M net := by
  refine ⟨hnodes, fun i j m hm => ?_, fun i j m hm => ?_⟩
  · rw [h] at hm
    exact absurd hm List.not_mem_nil
  · rw [h] at hm
    exact absurd hm List.not_mem_nil

omit [DecidableEq ι] in
theorem Local.mono {I' : ι → σ → Prop} {M' : ι → ι → μ → Prop} (h : Local P faulty I M net)
    (hI : ∀ i s, I i s → I' i s) (hM : ∀ i j m, M i j m → M' i j m) : Local P faulty I' M' net :=
  ⟨fun i hi => hI i _ (h.nodes i hi), fun i j m hm hi => hM i j m (h.sent i j m hm hi), h.forged⟩

omit [DecidableEq ι] in
/-- A message in flight joins the others. -/
theorem Local.sending (h : Local P faulty I M net) {i j : ι} {m : μ} (hi : i ∉ faulty)
    (hm : M i j m) : Local P faulty I M { net with flight := (i, j, m) :: net.flight } := by
  refine ⟨h.nodes, fun i' j' m' hmem => ?_, fun i' j' m' hmem => ?_⟩
  · cases List.mem_cons.mp hmem with
    | inl heq =>
      cases heq
      exact fun _ => hm
    | inr hmem => exact h.sent i' j' m' hmem
  · cases List.mem_cons.mp hmem with
    | inl heq =>
      cases heq
      exact fun hf => absurd hf hi
    | inr hmem => exact h.forged i' j' m' hmem

/-- What every correct processor keeps, given something they share that only
    grows: own actions may extend it, messages do not. -/
theorem Run.of_shared {γ : Type*} (g : (ι → σ) → γ) (le : γ → γ → Prop)
    {I : γ → ι → σ → Prop} {M : γ → ι → ι → μ → Prop} {start : Network ι σ μ → Prop}
    {ok : Network ι σ μ → Label ι α μ → Prop}
    (hI : ∀ c c' i s, le c c' → I c i s → I c' i s)
    (hM : ∀ c c' i j m, le c c' → M c i j m → M c' i j m)
    (hinit : ∀ net, start net → Local P faulty (I (g net.nodes)) (M (g net.nodes)) net)
    (hact : ∀ (net : Network ι σ μ) i a s', i ∉ faulty →
      Local P faulty (I (g net.nodes)) (M (g net.nodes)) net → ok net (.act i a) →
      P.act i a (net.nodes i) = some s' →
      le (g net.nodes) (g (net.set i s').nodes) ∧ I (g (net.set i s').nodes) i s')
    (hemit : ∀ c i s j m, i ∉ faulty → I c i s → m ∈ P.emit i s j → M c i j m)
    (hreceive : ∀ (net : Network ι σ μ) j i m, j ∉ faulty → I (g net.nodes) j (net.nodes j) →
      (i ∉ faulty → M (g net.nodes) i j m) → (i ∈ faulty → P.forgeable i m) →
      g (net.set j (P.receive j i m (net.nodes j))).nodes = g net.nodes ∧
        I (g net.nodes) j (P.receive j i m (net.nodes j)))
    (h : (system P faulty start).Run ok net) :
    Local P faulty (I (g net.nodes)) (M (g net.nodes)) net := by
  refine h.invariant (I := fun net => Local P faulty (I (g net.nodes)) (M (g net.nodes)) net)
    hinit ?_
  intro net l net' hnet hok hstep
  cases l with
  | act i a =>
    obtain ⟨hi, s, hs, rfl⟩ := hstep
    obtain ⟨hle, hs'⟩ := hact net i a s hi hnet hok hs
    exact (hnet.mono (hI _ _ · · hle) (hM _ _ · · · hle)).set hs'
  | send i j m =>
    obtain ⟨hi, hm, rfl⟩ := hstep
    exact hnet.sending hi (hemit _ i _ j m hi (hnet.nodes i hi) hm)
  | deliver i j m =>
    obtain ⟨hj, hm, rfl⟩ := hstep
    obtain ⟨hg, hs⟩ := hreceive net j i m hj (hnet.nodes j hj) (hnet.sent i j m hm)
      (hnet.forged i j m hm)
    rw [hg]
    exact hnet.set hs
  | forge i j m =>
    obtain ⟨hi, hj, hm, rfl⟩ := hstep
    obtain ⟨hg, hs⟩ := hreceive net j i m hj (hnet.nodes j hj) (fun hn => absurd hi hn)
      (fun _ => hm)
    rw [hg]
    exact hnet.set hs

/-- What every correct processor keeps on its own holds at every correct
    processor in every run. -/
theorem Run.of_local {ok : ι → σ → α → Prop} {start : Network ι σ μ → Prop}
    (hinit : ∀ net, start net → Local P faulty I M net)
    (hact : ∀ i, i ∉ faulty → ∀ a s s', I i s → ok i s a → P.act i a s = some s' → I i s')
    (hemit : ∀ i, i ∉ faulty → ∀ s j m, I i s → m ∈ P.emit i s j → M i j m)
    (hreceive : ∀ j, j ∉ faulty → ∀ s i m, I j s → (i ∉ faulty → M i j m) →
      (i ∈ faulty → P.forgeable i m) → I j (P.receive j i m s))
    (h : (system P faulty start).Run (locally ok) net) : Local P faulty I M net :=
  Run.of_shared (fun _ => ()) (fun _ _ => True) (I := fun _ => I) (M := fun _ => M)
    (fun _ _ _ _ _ hs => hs) (fun _ _ _ _ _ _ hm => hm) hinit
    (fun _ i a s' hi hnet hok hs => ⟨trivial, hact i hi a _ s' (hnet.nodes i hi) hok hs⟩)
    (fun _ i s j m hi hs hm => hemit i hi s j m hs hm)
    (fun _ j i m hj hs hm hf => ⟨rfl, hreceive j hj _ i m hs hm hf⟩) h

/-- The same for runs without a condition. -/
theorem Reachable.of_local {start : Network ι σ μ → Prop}
    (hinit : ∀ net, start net → Local P faulty I M net)
    (hact : ∀ i, i ∉ faulty → ∀ a s s', I i s → P.act i a s = some s' → I i s')
    (hemit : ∀ i, i ∉ faulty → ∀ s j m, I i s → m ∈ P.emit i s j → M i j m)
    (hreceive : ∀ j, j ∉ faulty → ∀ s i m, I j s → (i ∉ faulty → M i j m) →
      (i ∈ faulty → P.forgeable i m) → I j (P.receive j i m s))
    (h : (system P faulty start).Reachable net) : Local P faulty I M net := by
  have hok : ∀ (net : Network ι σ μ) (l : Label ι α μ), locally (fun _ _ _ => True) net l := by
    intro net l
    cases l with
    | act i a => trivial
    | send i j m => trivial
    | deliver i j m => trivial
    | forge i j m => trivial
  exact Run.of_local hinit (fun i hi a s s' hs _ => hact i hi a s s' hs) hemit hreceive
    (h.mono fun net l _ => hok net l)

/-! ## Executing labels -/

section Exec

variable [DecidableEq μ] [∀ i, DecidablePred (P.forgeable i)]

/-- The step as a function. -/
def next (P : Protocol ι σ α μ) [∀ i, DecidablePred (P.forgeable i)] (faulty : Finset ι)
    (net : Network ι σ μ) : Label ι α μ → Option (Network ι σ μ)
  | .act i a => if i ∉ faulty then (P.act i a (net.nodes i)).map (net.set i) else none
  | .send i j m =>
    if i ∉ faulty ∧ m ∈ P.emit i (net.nodes i) j then
      some { net with flight := (i, j, m) :: net.flight }
    else none
  | .deliver i j m =>
    if j ∉ faulty ∧ (i, j, m) ∈ net.flight then
      some (net.set j (P.receive j i m (net.nodes j)))
    else none
  | .forge i j m =>
    if i ∈ faulty ∧ j ∉ faulty ∧ P.forgeable i m then
      some (net.set j (P.receive j i m (net.nodes j)))
    else none

theorem step_of_next {l : Label ι α μ} (h : next P faulty net l = some net') :
    Step P faulty net l net' := by
  cases l with
  | act i a =>
    simp only [next, ite_not, Option.ite_none_left_eq_some, Option.map_eq_some_iff] at h
    obtain ⟨hi, s, hs, rfl⟩ := h
    exact ⟨hi, s, hs, rfl⟩
  | send i j m =>
    simp only [next, Option.ite_none_right_eq_some, Option.some.injEq] at h
    exact ⟨h.1.1, h.1.2, h.2.symm⟩
  | deliver i j m =>
    simp only [next, Option.ite_none_right_eq_some, Option.some.injEq] at h
    exact ⟨h.1.1, h.1.2, h.2.symm⟩
  | forge i j m =>
    simp only [next, Option.ite_none_right_eq_some, Option.some.injEq] at h
    exact ⟨h.1.1, h.1.2.1, h.1.2.2, h.2.symm⟩

/-- The step as a function, when it meets a condition. -/
def nextIf (P : Protocol ι σ α μ) [∀ i, DecidablePred (P.forgeable i)] (faulty : Finset ι)
    (ok : Network ι σ μ → Label ι α μ → Prop) [∀ net l, Decidable (ok net l)]
    (net : Network ι σ μ) (l : Label ι α μ) : Option (Network ι σ μ) :=
  if ok net l then next P faulty net l else none

instance {ok : ι → σ → α → Prop} [∀ i s a, Decidable (ok i s a)] (net : Network ι σ μ)
    (l : Label ι α μ) : Decidable (locally ok net l) :=
  match l with
  | .act i a => inferInstanceAs (Decidable (ok i (net.nodes i) a))
  | .send .. | .deliver .. | .forge .. => .isTrue trivial

/-- What holds after executing labels that meet a condition holds after such a run. -/
theorem Run.of_exec {start : Network ι σ μ → Prop} {ls : List (Label ι α μ)}
    {ok : Network ι σ μ → Label ι α μ → Prop} [∀ net l, Decidable (ok net l)]
    {p : Network ι σ μ → Bool} (hr : (system P faulty start).Run ok net)
    (h : (System.exec (nextIf P faulty ok) net ls).any p = true) :
    ∃ net', (system P faulty start).Run ok net' ∧ p net' = true := by
  refine System.Run.exists_of_exec (fun _ _ _ hn => ?_) hr h
  obtain ⟨hok, hnext⟩ := Option.ite_none_right_eq_some.mp hn
  exact ⟨hok, step_of_next hnext⟩

/-- What holds after executing labels from a reachable state holds in a reachable state. -/
theorem Reachable.of_exec {start : Network ι σ μ → Prop} {ls : List (Label ι α μ)}
    {p : Network ι σ μ → Bool} (hr : (system P faulty start).Reachable net)
    (h : (System.exec (next P faulty) net ls).any p = true) :
    ∃ net', (system P faulty start).Reachable net' ∧ p net' = true :=
  System.Run.exists_of_exec (fun _ _ _ hn => ⟨trivial, step_of_next hn⟩) hr h

/-- An own action, the current messages of one processor for another sent and delivered, or a
    message of a faulty processor. -/
inductive Move (ι α μ : Type*) where
  | act (i : ι) (a : α)
  | relay (i j : ι)
  | forge (i j : ι) (m : μ)

/-- The labels of a move in a state. -/
def Move.labels (P : Protocol ι σ α μ) (net : Network ι σ μ) : Move ι α μ → List (Label ι α μ)
  | .act i a => [.act i a]
  | .relay i j => (P.emit i (net.nodes i) j).flatMap fun m => [.send i j m, .deliver i j m]
  | .forge i j m => [.forge i j m]

/-- Make a move, when its labels meet a condition. -/
def play (P : Protocol ι σ α μ) [∀ i, DecidablePred (P.forgeable i)] (faulty : Finset ι)
    (ok : Network ι σ μ → Label ι α μ → Prop) [∀ net l, Decidable (ok net l)]
    (net : Network ι σ μ) (move : Move ι α μ) : Option (Network ι σ μ) :=
  System.exec (nextIf P faulty ok) net (move.labels P net)

/-- What holds after some moves that meet a condition holds after such a run. -/
theorem Run.of_play {start : Network ι σ μ → Prop} {moves : List (Move ι α μ)}
    {ok : Network ι σ μ → Label ι α μ → Prop} [∀ net l, Decidable (ok net l)]
    {p : Network ι σ μ → Bool} (hr : (system P faulty start).Run ok net)
    (h : (System.exec (play P faulty ok) net moves).any p = true) :
    ∃ net', (system P faulty start).Run ok net' ∧ p net' = true := by
  have hnext : ∀ s l s', nextIf P faulty ok s l = some s' →
      ok s l ∧ (system P faulty start).step s l s' := fun s l s' hn => by
    obtain ⟨hok, hn⟩ := Option.ite_none_right_eq_some.mp hn
    exact ⟨hok, step_of_next hn⟩
  obtain ⟨net', hexec, hp⟩ := (Option.any_eq_true ..).mp h
  refine ⟨net', ?_, hp⟩
  clear h hp
  induction moves generalizing net with
  | nil =>
    simp only [System.exec, Option.some.injEq] at hexec
    exact hexec ▸ hr
  | cons move moves ih =>
    simp only [System.exec, Option.bind_eq_some_iff] at hexec
    obtain ⟨mid, hmid, hrest⟩ := hexec
    exact ih (System.Run.exec hnext hr hmid) hrest

/-- Moves without a condition. -/
theorem Reachable.of_play {start : Network ι σ μ → Prop} {moves : List (Move ι α μ)}
    {p : Network ι σ μ → Bool} (hr : (system P faulty start).Reachable net)
    (h : (System.exec (play P faulty fun _ _ => True) net moves).any p = true) :
    ∃ net', (system P faulty start).Reachable net' ∧ p net' = true := Run.of_play hr h

end Exec

end Network

import BFTList.ForStd.Fairness
import Mathlib.Data.Finset.Basic
import Mathlib.Data.List.DropRight
import Mathlib.Logic.Function.Basic
import Mathlib.Tactic.DeriveCountable

/-!
# Processors that exchange messages over channels

Between any two processors there are channels that lose, duplicate and reorder nothing. An own
action of a processor sends messages; the first message of a channel may be delivered. Silent
processors do nothing. In a fair run every other processor takes each kind of action again and
again, and every message is delivered.

## Key results

- `Channels.Reachable.of_local`: what every processor keeps on its own
- `Channels.Reachable.chain`: values that only rise, at the sender, on the way and at the receiver
- `Channels.acts`, `Channels.delivers`: what happens again and again in a fair run
- `Channels.settles_queue`: what a processor sends from some moment on is soon all there is on
  the way
- `Channels.settles_received`: and all that the receiver goes by
-/

/-- One processor's side of a protocol: each message sent has a receiver and a channel. -/
structure ChannelProtocol (ι σ α κ μ : Type*) where
  act : ι → α → σ → σ × List (ι × κ × μ)
  receive : ι → ι → κ → μ → σ → σ

/-- The states of all processors and the messages on each channel, the oldest first. -/
structure Channels (ι σ κ μ : Type*) where
  nodes : ι → σ
  queue : ι → ι → κ → List μ

namespace Channels

variable {ι σ α κ μ τ : Type*} [DecidableEq ι] [DecidableEq κ]

/-- What happens next. -/
inductive Label (ι α κ : Type*) where
  | act (i : ι) (a : α)
  | deliver (i j : ι) (c : κ)

/-- The messages for processor `j` over channel `c`. -/
def addressed (sent : List (ι × κ × μ)) (j : ι) (c : κ) : List μ :=
  (sent.filter fun x => x.1 = j ∧ x.2.1 = c).map (·.2.2)

/-- Processor `i` takes an action. -/
def acted (P : ChannelProtocol ι σ α κ μ) (net : Channels ι σ κ μ) (i : ι) (a : α) :
    Channels ι σ κ μ where
  nodes := Function.update net.nodes i (P.act i a (net.nodes i)).1
  queue := Function.update net.queue i fun j c =>
    net.queue i j c ++ addressed (P.act i a (net.nodes i)).2 j c

/-- Processor `j` receives a message of processor `i`, and others remain. -/
def delivered (P : ChannelProtocol ι σ α κ μ) (net : Channels ι σ κ μ) (i j : ι) (c : κ) (m : μ)
    (rest : List μ) : Channels ι σ κ μ where
  nodes := Function.update net.nodes j (P.receive j i c m (net.nodes j))
  queue i' j' c' := if i' = i ∧ j' = j ∧ c' = c then rest else net.queue i' j' c'

/-- The step relation; only some actions may be allowed. -/
def Step (P : ChannelProtocol ι σ α κ μ) (silent : Finset ι) (allowed : α → Prop)
    (net : Channels ι σ κ μ) : Label ι α κ → Channels ι σ κ μ → Prop
  | .act i a, net' => i ∉ silent ∧ allowed a ∧ net' = net.acted P i a
  | .deliver i j c, net' => j ∉ silent ∧ ∃ m rest, net.queue i j c = m :: rest ∧
      net' = net.delivered P i j c m rest

/-- The processors with their channels as a transition system. -/
def system (P : ChannelProtocol ι σ α κ μ) (silent : Finset ι) (allowed : α → Prop)
    (start : Channels ι σ κ μ → Prop) : System (Channels ι σ κ μ) (Label ι α κ) where
  init := start
  step := Step P silent allowed

/-- What has to happen again and again: each kind of action, and the delivery of messages. -/
inductive Duty (ι τ κ : Type*) where
  | act (i : ι) (t : τ)
  | deliver (i j : ι) (c : κ)
  deriving Countable

/-- The duty a label fulfils, when `kind` tells the kinds of actions. -/
def duty (kind : α → τ) : Label ι α κ → Option (Duty ι τ κ)
  | .act i a => some (.act i (kind a))
  | .deliver i j c => some (.deliver i j c)

/-- What a label adds to the channel from `i` to `j`. -/
def sent (P : ChannelProtocol ι σ α κ μ) (net : Channels ι σ κ μ) (i j : ι) (c : κ) :
    Option (Label ι α κ) → List μ
  | some (.act i' a) => if i' = i then addressed (P.act i a (net.nodes i)).2 j c else []
  | _ => []

variable {P : ChannelProtocol ι σ α κ μ} {silent : Finset ι} {allowed : α → Prop}
  {start : Channels ι σ κ μ → Prop} {kind : α → τ} {s : Nat → Channels ι σ κ μ}
  {e : Nat → Option (Label ι α κ)} {i j : ι} {c : κ}

/-! ## What a step changes -/

variable {net : Channels ι σ κ μ} {k : ι} {a : α} {m : μ} {rest : List μ}

theorem acted_nodes_self : (net.acted P i a).nodes i = (P.act i a (net.nodes i)).1 :=
  Function.update_self ..

theorem acted_nodes_of_ne (h : k ≠ i) : (net.acted P i a).nodes k = net.nodes k :=
  Function.update_of_ne h _ _

theorem acted_queue_self : (net.acted P i a).queue i j c =
    net.queue i j c ++ addressed (P.act i a (net.nodes i)).2 j c := by
  simp only [acted, Function.update_self]

theorem acted_queue_of_ne (h : k ≠ i) : (net.acted P i a).queue k j c = net.queue k j c := by
  simp only [acted, Function.update_of_ne h]

theorem delivered_nodes_self : (net.delivered P i j c m rest).nodes j =
    P.receive j i c m (net.nodes j) := Function.update_self ..

theorem delivered_nodes_of_ne (h : k ≠ j) :
    (net.delivered P i j c m rest).nodes k = net.nodes k := Function.update_of_ne h _ _

theorem delivered_queue_self : (net.delivered P i j c m rest).queue i j c = rest := by
  simp only [delivered, and_self, if_true]

theorem delivered_queue_of_ne {i' j' : ι} {c' : κ} (h : ¬ (i' = i ∧ j' = j ∧ c' = c)) :
    (net.delivered P i j c m rest).queue i' j' c' = net.queue i' j' c' := by
  simp only [delivered, h, if_false]

/-! ## What processors keep on their own -/

omit [DecidableEq ι] in
theorem mem_addressed {l : List (ι × κ × μ)} [DecidableEq ι] {m : μ} :
    m ∈ addressed l j c ↔ (j, c, m) ∈ l := by
  simp only [addressed, List.mem_map, List.mem_filter, decide_eq_true_eq]
  constructor
  · rintro ⟨⟨j', c', m'⟩, ⟨hmem, rfl, rfl⟩, rfl⟩
    exact hmem
  · intro hmem
    exact ⟨(j, c, m), ⟨hmem, rfl, rfl⟩, rfl⟩

/-- What every processor that is not silent keeps, given `M` of all messages it receives, holds
    in every reachable state. -/
theorem Reachable.of_local {I : ι → σ → Prop} {M : ι → ι → κ → μ → Prop}
    (hinit : ∀ net, start net → (∀ i, i ∉ silent → I i (net.nodes i)) ∧
      ∀ i j c, ∀ m ∈ net.queue i j c, M i j c m)
    (hact : ∀ i, i ∉ silent → ∀ a w, allowed a → I i w →
      I i (P.act i a w).1 ∧ ∀ j c m, (j, c, m) ∈ (P.act i a w).2 → M i j c m)
    (hreceive : ∀ j, j ∉ silent → ∀ i c m w, I j w → M i j c m → I j (P.receive j i c m w))
    {net : Channels ι σ κ μ} (h : (system P silent allowed start).Reachable net) :
    (∀ i, i ∉ silent → I i (net.nodes i)) ∧ ∀ i j c, ∀ m ∈ net.queue i j c, M i j c m := by
  refine h.invariant (I := fun net => (∀ i, i ∉ silent → I i (net.nodes i)) ∧
    ∀ i j c, ∀ m ∈ net.queue i j c, M i j c m) hinit ?_
  intro net l net' ⟨hnodes, hqueue⟩ _ hstep
  cases l with
  | act i a =>
    obtain ⟨hi, ha, rfl⟩ := hstep
    obtain ⟨hnode, hsent⟩ := hact i hi a _ ha (hnodes i hi)
    refine ⟨fun k hk => ?_, fun i' j c m hm => ?_⟩
    · by_cases hki : k = i
      · subst hki
        simpa only [acted, Function.update_self] using hnode
      · simpa only [acted, Function.update_of_ne hki] using hnodes k hk
    · by_cases hi' : i' = i
      · subst hi'
        simp only [acted, Function.update_self, List.mem_append] at hm
        exact hm.elim (hqueue i' j c m) fun hm => hsent j c m (mem_addressed.mp hm)
      · simp only [acted, Function.update_of_ne hi'] at hm
        exact hqueue i' j c m hm
  | deliver i j c =>
    obtain ⟨hj, m, rest, hfirst, rfl⟩ := hstep
    refine ⟨fun k hk => ?_, fun i' j' c' m' hm' => ?_⟩
    · by_cases hkj : k = j
      · subst hkj
        simp only [delivered, Function.update_self]
        exact hreceive k hk i c m _ (hnodes k hk)
          (hqueue i k c m (hfirst ▸ List.mem_cons_self))
      · simpa only [delivered, Function.update_of_ne hkj] using hnodes k hk
    · simp only [delivered] at hm'
      split at hm'
      · rename_i hsame
        obtain ⟨rfl, rfl, rfl⟩ := hsame
        exact hqueue i' j' c' m' (hfirst ▸ List.mem_cons_of_mem _ hm')
      · exact hqueue i' j' c' m' hm'

/-- What happens to one processor in a step: nothing, one of its actions, or a message. -/
theorem Step.of_local {R : σ → σ → Prop} {l : Label ι α κ} {net' : Channels ι σ κ μ}
    (h : Step P silent allowed net l net') (hrefl : ∀ w, R w w)
    (hact : ∀ a, i ∉ silent → allowed a → R (net.nodes i) (P.act i a (net.nodes i)).1)
    (hreceive : ∀ j c m, i ∉ silent → m ∈ net.queue j i c →
      R (net.nodes i) (P.receive i j c m (net.nodes i))) : R (net.nodes i) (net'.nodes i) := by
  cases l with
  | act k a =>
    obtain ⟨hk, ha, rfl⟩ := h
    by_cases hik : i = k
    · subst hik
      rw [acted_nodes_self]
      exact hact a hk ha
    · rw [acted_nodes_of_ne hik]
      exact hrefl _
  | deliver j k c =>
    obtain ⟨hk, m, rest, hfirst, rfl⟩ := h
    by_cases hik : i = k
    · subst hik
      rw [delivered_nodes_self]
      exact hreceive j c m hk (hfirst ▸ List.mem_cons_self)
    · rw [delivered_nodes_of_ne hik]
      exact hrefl _

/-! ## Values that only rise -/

section Chain

variable {β : Type*} [Preorder β]

/-- Whatever continues `l` upwards also continues `l'`. -/
def Lowers (l l' : List β) : Prop :=
  ∀ r, (l ++ r).Pairwise (· ≤ ·) → (l' ++ r).Pairwise (· ≤ ·)

theorem Lowers.refl (l : List β) : Lowers l l := fun _ h => h

theorem Lowers.of_sublist {l l' : List β} (h : l'.Sublist l) : Lowers l l' :=
  fun r hr => hr.sublist (h.append_right r)

theorem Lowers.of_le {a b : β} (h : b ≤ a) : Lowers [a] [b] := by
  intro r hr
  rw [List.singleton_append, List.pairwise_cons] at hr ⊢
  exact ⟨fun x hx => h.trans (hr.1 x hx), hr.2⟩

/-- The last value may rise, and be repeated before. -/
theorem pairwise_push {l new : List β} {a b : β} (h : (l ++ [a]).Pairwise (· ≤ ·)) (hab : a ≤ b)
    (hnew : ∀ x ∈ new, x = b) : (l ++ new ++ [b]).Pairwise (· ≤ ·) := by
  rw [List.pairwise_append] at h
  obtain ⟨hl, -, hla⟩ := h
  have hsame : (new ++ [b]).Pairwise (· ≤ ·) := by
    refine List.pairwise_of_forall_mem_list fun x hx y hy => ?_
    have hall : ∀ z ∈ new ++ [b], z = b := by
      intro z hz
      rcases List.mem_append.mp hz with hz | hz
      · exact hnew z hz
      · exact List.mem_singleton.mp hz
    rw [hall x hx, hall y hy]
  rw [List.append_assoc, List.pairwise_append]
  refine ⟨hl, hsame, fun x hx y hy => ?_⟩
  have hxb : x ≤ b := (hla x hx a (List.mem_singleton.mpr rfl)).trans hab
  rcases List.mem_append.mp hy with hy | hy
  · rw [hnew y hy]
    exact hxb
  · rw [List.mem_singleton.mp hy]
    exact hxb

/-- What processor `i` holds of processor `j`, what is on its way and what `j` holds ascend, when
    the latter only rises, `j` sends what it holds, and `i` forgets no more than it is told. -/
theorem Reachable.chain (val : μ → β) (held : σ → List β) (own : σ → β) (hij : i ≠ j)
    (hinit : ∀ net, start net →
      net.queue j i c = [] ∧ (held (net.nodes i) ++ [own (net.nodes j)]).Pairwise (· ≤ ·))
    (hown : ∀ net l net', (system P silent allowed start).Reachable net →
      Step P silent allowed net l net' → own (net.nodes j) ≤ own (net'.nodes j))
    (hsent : ∀ net a, (system P silent allowed start).Reachable net → j ∉ silent → allowed a →
      ∀ m, (i, c, m) ∈ (P.act j a (net.nodes j)).2 → val m = own (P.act j a (net.nodes j)).1)
    (hact : ∀ net a, (system P silent allowed start).Reachable net → i ∉ silent → allowed a →
      Lowers (held (net.nodes i)) (held (P.act i a (net.nodes i)).1))
    (hother : ∀ net k c' m, (system P silent allowed start).Reachable net → i ∉ silent →
      m ∈ net.queue k i c' → ¬ (k = j ∧ c' = c) →
      Lowers (held (net.nodes i)) (held (P.receive i k c' m (net.nodes i))))
    (hreceive : ∀ net m, (system P silent allowed start).Reachable net → i ∉ silent →
      m ∈ net.queue j i c →
      Lowers (held (net.nodes i) ++ [val m]) (held (P.receive i j c m (net.nodes i))))
    {net : Channels ι σ κ μ} (h : (system P silent allowed start).Reachable net) :
    (held (net.nodes i) ++ (net.queue j i c).map val ++ [own (net.nodes j)]).Pairwise
      (· ≤ ·) := by
  induction h with
  | init h =>
    obtain ⟨hqueue, hfirst⟩ := hinit _ h
    rw [hqueue, List.map_nil, List.append_nil]
    exact hfirst
  | @step net net' l hnet _ hstep ih =>
    have hrise := hown net l net' hnet hstep
    have hji : j ≠ i := Ne.symm hij
    -- nothing happens to the receiver and the channel
    have hsender : net'.nodes i = net.nodes i → net'.queue j i c = net.queue j i c →
        (held (net'.nodes i) ++ (net'.queue j i c).map val ++ [own (net'.nodes j)]).Pairwise
          (· ≤ ·) := by
      intro hnode hqueue
      have hnone : ∀ x ∈ ([] : List β), x = own (net'.nodes j) :=
        fun _ hx => absurd hx List.not_mem_nil
      have hpush := pairwise_push ih hrise hnone
      rw [hnode, hqueue]
      simpa only [List.append_nil] using hpush
    cases l with
    | act k a =>
      obtain ⟨hk, ha, hnext⟩ := hstep
      subst hnext
      by_cases hki : k = i
      · subst hki
        rw [acted_nodes_self, acted_nodes_of_ne hji, acted_queue_of_ne hji, List.append_assoc]
        rw [List.append_assoc] at ih
        exact hact net a hnet hk ha _ ih
      · by_cases hkj : k = j
        · subst hkj
          rw [acted_nodes_self] at hrise
          rw [acted_nodes_of_ne hij, acted_nodes_self, acted_queue_self, List.map_append,
            ← List.append_assoc]
          refine pairwise_push ih hrise fun x hx => ?_
          obtain ⟨m, hm, rfl⟩ := List.mem_map.mp hx
          exact hsent net a hnet hk ha m (mem_addressed.mp hm)
        · exact hsender (acted_nodes_of_ne (Ne.symm hki)) (acted_queue_of_ne (Ne.symm hkj))
    | deliver k i' c' =>
      obtain ⟨hi', m, rest, hfirst, hnext⟩ := hstep
      subst hnext
      have hm : m ∈ net.queue k i' c' := hfirst ▸ List.mem_cons_self
      by_cases hi : i' = i
      · subst hi
        rw [delivered_nodes_self, delivered_nodes_of_ne hji, List.append_assoc]
        by_cases hsame : k = j ∧ c' = c
        · obtain ⟨rfl, rfl⟩ := hsame
          rw [delivered_queue_self]
          refine hreceive net m hnet hi' hm _ ?_
          rw [hfirst, List.map_cons] at ih
          simpa only [List.append_assoc, List.cons_append, List.nil_append] using ih
        · rw [delivered_queue_of_ne fun heq => hsame ⟨heq.1.symm, heq.2.2.symm⟩]
          rw [List.append_assoc] at ih
          exact hother net k c' m hnet hi' hm hsame _ ih
      · exact hsender (delivered_nodes_of_ne (Ne.symm hi))
          (delivered_queue_of_ne fun heq => hi heq.2.1.symm)

end Chain

/-! ## What a moment changes -/

section Moment

variable (h : (system P silent allowed start).FairRun (duty kind) s e)

include h

/-- A channel whose first message is not delivered only grows. -/
theorem queue_next {t : Nat} (hnot : e t ≠ some (.deliver i j c)) :
    (s (t + 1)).queue i j c = (s t).queue i j c ++ sent P (s t) i j c (e t) := by
  cases he : e t with
  | none =>
    rw [h.idle t he]
    simp only [sent, List.append_nil]
  | some l =>
    have hstep := h.step t l he
    cases l with
    | act i' a =>
      obtain ⟨-, -, hnext⟩ := hstep
      rw [hnext]
      by_cases hi : i' = i
      · subst hi
        simp only [acted, Function.update_self, sent, if_true]
      · simp only [acted, Function.update_of_ne (Ne.symm hi), sent, hi, if_false, List.append_nil]
    | deliver i' j' c' =>
      obtain ⟨-, m, rest, -, hnext⟩ := hstep
      rw [hnext]
      have hother : ¬ (i = i' ∧ j = j' ∧ c = c') := by
        rintro ⟨rfl, rfl, rfl⟩
        exact hnot he
      simp only [delivered, hother, if_false, sent, List.append_nil]

/-- The message delivered is the first one. -/
theorem deliver_next {t : Nat} (he : e t = some (.deliver i j c)) :
    ∃ m, (s t).queue i j c = m :: (s (t + 1)).queue i j c ∧
      (s (t + 1)).nodes j = P.receive j i c m ((s t).nodes j) := by
  obtain ⟨-, m, rest, hqueue, hnext⟩ := h.step t _ he
  refine ⟨m, ?_, ?_⟩
  · rw [hnext, hqueue]
    simp only [delivered, and_self, if_true]
  · rw [hnext]
    simp only [delivered, Function.update_self]

theorem act_next {t : Nat} {a : α} (he : e t = some (.act j a)) :
    (s (t + 1)).nodes j = (P.act j a ((s t).nodes j)).1 := by
  obtain ⟨-, -, hnext⟩ := h.step t _ he
  rw [hnext]
  exact Function.update_self ..

/-! ## What happens again and again -/

/-- Every kind of action is taken again and again. -/
theorem acts (hi : i ∉ silent) {a : α} (ha : allowed a) (t : Nat) :
    ∃ t', t ≤ t' ∧ ∃ b, e t' = some (.act i b) ∧ kind b = kind a := by
  obtain ⟨t', ht', l, he, hduty⟩ := h.fair t (.act i (kind a))
    fun t' _ => ⟨.act i a, _, rfl, hi, ha, rfl⟩
  cases l with
  | act i' b =>
    simp only [duty, Option.some.injEq, Duty.act.injEq] at hduty
    obtain ⟨rfl, hkind⟩ := hduty
    exact ⟨t', ht', b, he, hkind⟩
  | deliver i' j c => cases hduty

/-- A message on its way is followed by a delivery on its channel. -/
theorem delivers (hj : j ∉ silent) {t : Nat} (hne : (s t).queue i j c ≠ []) :
    ∃ t', t ≤ t' ∧ e t' = some (.deliver i j c) := by
  by_contra hnever
  have hnot : ∀ t', t ≤ t' → e t' ≠ some (.deliver i j c) :=
    fun t' ht' he => hnever ⟨t', ht', he⟩
  -- the channel is never empty, so the delivery stays enabled
  have hstays : ∀ t', t ≤ t' → (s t').queue i j c ≠ [] := by
    intro t' ht'
    induction ht' with
    | refl => exact hne
    | @step t' ht' ih =>
      rw [queue_next h (hnot t' ht')]
      exact List.append_ne_nil_of_left_ne_nil ih _
  obtain ⟨t', ht', l, he, hduty⟩ := h.fair t (.deliver i j c) fun t' ht' => by
    obtain ⟨m, rest, hqueue⟩ := List.exists_cons_of_ne_nil (hstays t' ht')
    exact ⟨.deliver i j c, _, rfl, hj, m, rest, hqueue, rfl⟩
  cases l with
  | act i' b => cases hduty
  | deliver i' j' c' =>
    simp only [duty, Option.some.injEq, Duty.deliver.injEq] at hduty
    obtain ⟨rfl, rfl, rfl⟩ := hduty
    exact hnot t' ht' he

/-- Until the next delivery on a channel messages are only added. -/
theorem next_delivery (hj : j ∉ silent) {t : Nat} (hne : (s t).queue i j c ≠ []) :
    ∃ t', t ≤ t' ∧ e t' = some (.deliver i j c) ∧
      ∃ new, (s t').queue i j c = (s t).queue i j c ++ new := by
  classical
  have hsome : ∃ d, e (t + d) = some (.deliver i j c) := by
    obtain ⟨t', ht', he⟩ := delivers h hj hne
    exact ⟨t' - t, by rw [Nat.add_sub_cancel' ht']; exact he⟩
  refine ⟨t + Nat.find hsome, Nat.le_add_right _ _, Nat.find_spec hsome, ?_⟩
  have hgrows : ∀ d, d ≤ Nat.find hsome →
      ∃ new, (s (t + d)).queue i j c = (s t).queue i j c ++ new := by
    intro d hd
    induction d with
    | zero => exact ⟨[], (List.append_nil _).symm⟩
    | succ d ih =>
      obtain ⟨new, hnew⟩ := ih (by omega)
      refine ⟨new ++ sent P (s (t + d)) i j c (e (t + d)), ?_⟩
      rw [← Nat.add_assoc, queue_next h (Nat.find_min hsome (by omega)), hnew, List.append_assoc]
  exact hgrows _ (Nat.le_refl _)

/-- Every message on its way is delivered. -/
theorem delivers_mem (hj : j ∉ silent) {t : Nat} {m : μ} (hm : m ∈ (s t).queue i j c) :
    ∃ t', t ≤ t' ∧ e t' = some (.deliver i j c) ∧
      (s t').queue i j c = m :: (s (t' + 1)).queue i j c := by
  obtain ⟨before, later, hqueue⟩ := List.append_of_mem hm
  clear hm
  induction before generalizing t later with
  | nil =>
    obtain ⟨t', ht', he, new, hnew⟩ := next_delivery h hj (t := t) (by rw [hqueue]; exact nofun)
    obtain ⟨m', hfirst, -⟩ := deliver_next h he
    rw [hqueue, hfirst, List.nil_append, List.cons_append, List.cons.injEq] at hnew
    exact ⟨t', ht', he, by rw [hfirst, hnew.1]⟩
  | cons x before ih =>
    obtain ⟨t₁, ht₁, he₁, new, hnew⟩ := next_delivery h hj (t := t) (by rw [hqueue]; exact nofun)
    obtain ⟨m', hfirst, -⟩ := deliver_next h he₁
    rw [hqueue, hfirst, List.cons_append, List.cons_append, List.cons.injEq, List.append_assoc,
      List.cons_append] at hnew
    obtain ⟨t', ht', hresult⟩ := ih (later ++ new) hnew.2
    exact ⟨t', by omega, hresult⟩

end Moment

/-! ## What settles -/

/-- Number of messages up to the last one that does not meet `Q`. -/
def upToLast (Q : μ → Prop) [DecidablePred Q] (l : List μ) : Nat := (l.rdropWhile (Q ·)).length

section UpToLast

variable {Q : μ → Prop} [DecidablePred Q] {l : List μ}

theorem upToLast_eq_zero : upToLast Q l = 0 ↔ ∀ m ∈ l, Q m := by
  simp only [upToLast, List.length_eq_zero_iff, List.rdropWhile_eq_nil_iff, decide_eq_true_eq]

/-- Messages that meet `Q` may follow. -/
theorem upToLast_append {new : List μ} (hnew : ∀ m ∈ new, Q m) :
    upToLast Q (l ++ new) = upToLast Q l := by
  induction new using List.reverseRecOn with
  | nil => rw [List.append_nil]
  | append_singleton new m ih =>
    rw [List.forall_mem_append] at hnew
    rw [← ih hnew.1, ← List.append_assoc, upToLast, upToLast,
      List.rdropWhile_concat_pos _ _ _ (by simpa using hnew.2)]

/-- The first message is not after the last one. -/
theorem upToLast_tail (m : μ) : upToLast Q l = upToLast Q (m :: l) - 1 := by
  simp only [upToLast, List.rdropWhile, List.length_reverse, List.reverse_cons,
    List.dropWhile_append]
  split
  · rename_i hempty
    rw [List.isEmpty_iff.mp hempty]
    simp only [List.dropWhile_cons, List.dropWhile_nil]
    split
    · rfl
    · rfl
  · rw [List.length_append, List.length_singleton, Nat.add_sub_cancel]

end UpToLast

section Settles

variable (h : (system P silent allowed start).FairRun (duty kind) s e)

include h

/-- When everything that is sent from some moment on meets `Q`, so does soon everything on its
    way. -/
theorem settles_queue (hj : j ∉ silent) {Q : μ → Prop} (t₀ : Nat)
    (hsent : ∀ t, t₀ ≤ t → ∀ m ∈ sent P (s t) i j c (e t), Q m) :
    System.Settles s fun net => ∀ m ∈ net.queue i j c, Q m := by
  classical
  have hstays : ∀ t, t₀ ≤ t → e t ≠ some (.deliver i j c) →
      upToLast Q ((s (t + 1)).queue i j c) = upToLast Q ((s t).queue i j c) := by
    intro t ht hnot
    rw [queue_next h hnot, upToLast_append (hsent t ht)]
  have hfalls : ∀ t, e t = some (.deliver i j c) →
      upToLast Q ((s (t + 1)).queue i j c) = upToLast Q ((s t).queue i j c) - 1 := by
    intro t he
    obtain ⟨m, hqueue, -⟩ := deliver_next h he
    rw [hqueue, upToLast_tail m]
  refine (System.Settles.of_measure (fun net => upToLast Q (net.queue i j c)) (i := t₀)
    (fun t ht => ?_) fun t _ => ?_).mono fun net hnet => upToLast_eq_zero.mp hnet
  · by_cases he : e t = some (.deliver i j c)
    · rw [hfalls t he]
      exact Nat.sub_le _ _
    · exact Nat.le_of_eq (hstays t ht he)
  · by_cases hne : (s t).queue i j c = []
    · exact ⟨t, Nat.le_refl t, Or.inl (upToLast_eq_zero.mpr (by simp [hne]))⟩
    · obtain ⟨t', ht', he⟩ := delivers h hj hne
      refine ⟨t', ht', ?_⟩
      rw [hfalls t' he]
      omega

/-- When everything that is sent from some moment on meets `Q`, a receiver that is sent
    something again and again soon holds what the last message says, if nothing else changes
    that. -/
theorem settles_received (hj : j ∉ silent) {Q : μ → Prop} {R : σ → Prop} (t₀ : Nat)
    (hsent : ∀ t, t₀ ≤ t → ∀ m ∈ sent P (s t) i j c (e t), Q m)
    (hagain : ∀ t, ∃ t', t ≤ t' ∧ sent P (s t') i j c (e t') ≠ [])
    (hget : ∀ t m, t₀ ≤ t → Q m → R (P.receive j i c m ((s t).nodes j)))
    (hkeep : ∀ t, t₀ ≤ t → e t ≠ some (.deliver i j c) → R ((s t).nodes j) →
      R ((s (t + 1)).nodes j)) : System.Settles s fun net => R (net.nodes j) := by
  obtain ⟨t₁, ht₁⟩ := settles_queue h hj t₀ hsent
  have hdelivered : ∀ t, t₀ ≤ t → t₁ ≤ t → e t = some (.deliver i j c) →
      R ((s (t + 1)).nodes j) := by
    intro t h₀ h₁ he
    obtain ⟨m, hqueue, hnext⟩ := deliver_next h he
    rw [hnext]
    exact hget t m h₀ (ht₁ t h₁ m (hqueue ▸ List.mem_cons_self))
  refine System.Settles.of_kept (i := max t₀ t₁) (fun t ht hR => ?_) ?_
  · by_cases he : e t = some (.deliver i j c)
    · exact hdelivered t (by omega) (by omega) he
    · exact hkeep t (by omega) he hR
  · obtain ⟨t₂, ht₂, hsends⟩ := hagain (max t₀ t₁)
    -- what is sent then is delivered at some time, or something is delivered at once
    by_cases he : e t₂ = some (.deliver i j c)
    · exact ⟨t₂ + 1, by omega, hdelivered t₂ (by omega) (by omega) he⟩
    · have hne : (s (t₂ + 1)).queue i j c ≠ [] := by
        rw [queue_next h he]
        exact List.append_ne_nil_of_right_ne_nil _ hsends
      obtain ⟨t₃, ht₃, he₃⟩ := delivers h hj hne
      exact ⟨t₃ + 1, by omega, hdelivered t₃ (by omega) (by omega) he₃⟩

end Settles

end Channels

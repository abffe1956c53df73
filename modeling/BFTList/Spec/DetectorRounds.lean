import BFTList.ForStd.Channels
import BFTList.ForStd.Quorum
import BFTList.Native.EventDrivenFD
import Mathlib.Data.Fintype.Card

/-!
# Rounds of the event-driven failure detector

The detectors of all processors, whose messages wait in the queues of their senders and then go
over channels that lose, duplicate and reorder nothing. Silent processors do nothing.

While a processor waits, there is exactly the current token between it and every other one that
is not silent, and it is counted again and again. Other processors are `n - 1` at most, so the
number of replies that is waited for can only be reached with `f > 0`.

## Key results

- `DetectorNode.sound`: what every detector keeps
- `DetectorNode.counted`: the token comes back
- `DetectorNode.rounds_iff`: when rounds follow each other for ever
-/

namespace BFTList

/-- The detector of a processor, and the messages its senders have not sent yet. -/
structure DetectorNode (n : Nat) where
  module : EventDrivenFDModule n
  unsent : List (Fin n × OwnedToken n)

namespace DetectorNode

open EventDrivenFDModule

variable {n : Nat}

/-- The loop executes a statement, or the senders send. -/
inductive Action where
  | loop
  | send
  deriving DecidableEq, Repr, Countable

/-- Both have to happen again and again. -/
def kind (a : Action) : Action := a

/-- The protocol. -/
def protocol (n : Nat) : ChannelProtocol (Fin n) (DetectorNode n) Action Unit (OwnedToken n) where
  act _ a w :=
    match a with
    | .loop => (⟨w.module.run.1, w.unsent ++ w.module.run.2⟩, [])
    | .send => (⟨w.module, []⟩, w.unsent.map fun x => (x.1, (), x.2))
  receive _ j _ msg w := ⟨(w.module.onMsgRecv j msg).1, w.unsent ++ (w.module.onMsgRecv j msg).2⟩

/-- A processor after construction. -/
def init (i : Fin n) (f : Nat) : DetectorNode n := ⟨.init i f, []⟩

/-- All runs from the constructor's states. -/
def system (f : Nat) (silent : Finset (Fin n)) :
    System (Channels (Fin n) (DetectorNode n) Unit (OwnedToken n))
      (Channels.Label (Fin n) Action Unit) :=
  Channels.system (protocol n) silent (fun _ => True) fun net =>
    (∀ i, i ∉ silent → net.nodes i = init i f) ∧ ∀ i j c, net.queue i j c = []

variable {f : Nat} {silent : Finset (Fin n)} {i j k : Fin n} {w : DetectorNode n}
  {net net' : Channels (Fin n) (DetectorNode n) Unit (OwnedToken n)}
  {l : Channels.Label (Fin n) Action Unit}

/-! ## What every detector keeps -/

/-- What is stored of a round names enough others that are not silent, each once. -/
structure Sound (f : Nat) (silent : Finset (Fin n)) (i : Fin n) (w : DetectorNode n) : Prop where
  id : w.module.id = i
  byzantine : w.module.numberOfByzantine = f
  unsent : ∀ x ∈ w.unsent, x.1 ≠ i
  uncounted : ∀ k, k ∈ silent ∨ k = i → w.module.counters k = 0
  stored : ∀ r ids, w.module.lastCorrectProcessors = some (r, ids) →
    (n : Int) - 2 * f ≤ ids.length ∧ ids.Nodup ∧ ∀ k ∈ ids, k ∉ silent ∧ k ≠ i

theorem mem_others {m : EventDrivenFDModule n} : k ∈ m.others ↔ k ≠ m.id := by
  simp [others]

theorem mem_getCorrectProcessors {m : EventDrivenFDModule n} :
    k ∈ m.getCorrectProcessors ↔ k ≠ m.id ∧ K_ADMISSIBILITY_THRESHOLD ≤ m.counters k := by
  rw [getCorrectProcessors, List.mem_filter, mem_others, decide_eq_true_eq]

theorem nodup_getCorrectProcessors (m : EventDrivenFDModule n) : m.getCorrectProcessors.Nodup :=
  ((List.nodup_finRange n).filter _).filter _

theorem sound_loop (h : Sound f silent i w) : Sound f silent i ((protocol n).act i .loop w).1 := by
  show Sound f silent i ⟨w.module.run.1, w.unsent ++ w.module.run.2⟩
  cases hstatement : w.module.statement with
  | broadcast =>
    have hrun : w.module.run = ({ w.module with statement := .wait }, w.module.broadcast) := by
      rw [run, hstatement]
    rw [hrun]
    refine ⟨h.id, h.byzantine, fun x hx => ?_, h.uncounted, h.stored⟩
    rcases List.mem_append.mp hx with hx | hx
    · exact h.unsent x hx
    · obtain ⟨k, hk, rfl⟩ := List.mem_map.mp hx
      exact h.id ▸ mem_others.mp hk
  | wait =>
    by_cases hreplied : w.module.correctProcessorsHaveReplied = true
    · have hrun : w.module.run = ({ w.module with
          lastCorrectProcessors := some (w.module.token, w.module.getCorrectProcessors)
          statement := .resetCounters }, []) := by
        rw [run, hstatement]
        exact if_pos hreplied
      rw [hrun, List.append_nil]
      refine ⟨h.id, h.byzantine, h.unsent, h.uncounted, fun r ids hids => ?_⟩
      cases hids
      refine ⟨?_, nodup_getCorrectProcessors _, fun k hk => ?_⟩
      · have hmany := of_decide_eq_true hreplied
        rw [h.byzantine] at hmany
        exact hmany
      · obtain ⟨hki, hcounted⟩ := mem_getCorrectProcessors.mp hk
        refine ⟨fun hsilent => ?_, h.id ▸ hki⟩
        rw [h.uncounted k (Or.inl hsilent)] at hcounted
        exact absurd hcounted (by decide)
    · have hrun : w.module.run = (w.module, []) := by
        rw [run, hstatement]
        exact if_neg hreplied
      rw [hrun, List.append_nil]
      exact h
  | resetCounters =>
    have hrun : w.module.run =
        ({ w.module with counters := fun _ => 0, statement := .incrementToken }, []) := by
      rw [run, hstatement]
    rw [hrun, List.append_nil]
    exact ⟨h.id, h.byzantine, h.unsent, fun _ _ => rfl, h.stored⟩
  | incrementToken =>
    have hrun : w.module.run =
        ({ w.module with token := w.module.token + 1, statement := .broadcast }, []) := by
      rw [run, hstatement]
    rw [hrun, List.append_nil]
    exact ⟨h.id, h.byzantine, h.unsent, h.uncounted, h.stored⟩

theorem sound_receive (hj : j ∉ silent) (hji : j ≠ i) (msg : OwnedToken n)
    (h : Sound f silent i w) : Sound f silent i ((protocol n).receive i j () msg w) := by
  have hback : ∀ x ∈ w.unsent ++ [(j, msg)], x.1 ≠ i := by
    intro x hx
    rcases List.mem_append.mp hx with hx | hx
    · exact h.unsent x hx
    · rw [List.mem_singleton.mp hx]
      exact hji
  show Sound f silent i ⟨(w.module.onMsgRecv j msg).1, w.unsent ++ (w.module.onMsgRecv j msg).2⟩
  unfold onMsgRecv
  split
  · split
    · refine ⟨h.id, h.byzantine, hback, fun k hk => ?_, h.stored⟩
      have hkj : k ≠ j := by
        rintro rfl
        exact hk.elim hj hji
      show Function.update w.module.counters j _ k = 0
      rw [Function.update_of_ne hkj]
      exact h.uncounted k hk
    · rw [List.append_nil]
      exact h
  · exact ⟨h.id, h.byzantine, hback, h.uncounted, h.stored⟩

theorem sound (h : (system f silent).Reachable net) :
    (∀ i, i ∉ silent → Sound f silent i (net.nodes i)) ∧
      ∀ i j c, ∀ _m ∈ net.queue i j c, i ∉ silent ∧ i ≠ j := by
  refine Channels.Reachable.of_local (fun net hinit => ⟨fun i hi => ?_, fun i j c m hm => ?_⟩)
    (fun i hi a w _ hw => ⟨?_, fun j c m hm => ?_⟩)
    (fun i hi j c m w hw hm => sound_receive hm.1 hm.2 m hw) h
  · rw [hinit.1 i hi]
    exact ⟨rfl, rfl, fun _ hx => absurd hx List.not_mem_nil, fun _ _ => rfl, fun _ _ hids => by
      cases hids⟩
  · rw [hinit.2 i j c] at hm
    cases hm
  · cases a with
    | loop => exact sound_loop hw
    | send => exact ⟨hw.id, hw.byzantine, fun _ hx => absurd hx List.not_mem_nil, hw.uncounted,
        hw.stored⟩
  · cases a with
    | loop => cases hm
    | send =>
      obtain ⟨x, hx, heq⟩ := List.mem_map.mp hm
      cases heq
      exact ⟨hi, Ne.symm (hw.unsent x hx)⟩

/-! ## The token between two processors -/

/-- A message from `i` to `k` with the given token is waiting, or on its way. -/
def Sent (i k : Fin n) (msg : OwnedToken n)
    (net : Channels (Fin n) (DetectorNode n) Unit (OwnedToken n)) : Prop :=
  (k, msg) ∈ (net.nodes i).unsent ∨ msg ∈ net.queue i k ()

/-- Message `msg` of `i` arrives at `k`. -/
def Arrives (i k : Fin n) (msg : OwnedToken n)
    (net net' : Channels (Fin n) (DetectorNode n) Unit (OwnedToken n))
    (l : Channels.Label (Fin n) Action Unit) : Prop :=
  l = .deliver i k () ∧ net.queue i k () = msg :: net'.queue i k ()

/-- A message stays until it arrives. -/
theorem sent_step {msg : OwnedToken n} (hstep : (system f silent).step net l net')
    (hnot : ¬ Arrives i k msg net net' l) (h : Sent i k msg net) : Sent i k msg net' := by
  cases l with
  | act j a =>
    obtain ⟨-, -, rfl⟩ := hstep
    by_cases hij : i = j
    · subst hij
      cases a with
      | loop =>
        refine h.imp (fun hunsent => ?_) fun hqueue => ?_
        · rw [Channels.acted_nodes_self]
          exact List.mem_append_left _ hunsent
        · rw [Channels.acted_queue_self]
          exact List.mem_append_left _ hqueue
      | send =>
        refine Or.inr ?_
        rw [Channels.acted_queue_self]
        rcases h with hunsent | hqueue
        · exact List.mem_append_right _
            (Channels.mem_addressed.mpr (List.mem_map.mpr ⟨(k, msg), hunsent, rfl⟩))
        · exact List.mem_append_left _ hqueue
    · refine h.imp (fun hunsent => ?_) fun hqueue => ?_
      · rw [Channels.acted_nodes_of_ne hij]
        exact hunsent
      · rw [Channels.acted_queue_of_ne hij]
        exact hqueue
  | deliver i' k' c =>
    obtain ⟨-, m, rest, hfirst, rfl⟩ := hstep
    rcases h with hunsent | hqueue
    · refine Or.inl ?_
      by_cases hik : i = k'
      · subst hik
        rw [Channels.delivered_nodes_self]
        exact List.mem_append_left _ hunsent
      · rw [Channels.delivered_nodes_of_ne hik]
        exact hunsent
    · refine Or.inr ?_
      by_cases hsame : i = i' ∧ k = k' ∧ () = c
      · obtain ⟨rfl, rfl, -⟩ := hsame
        have hrest : (net.delivered (protocol n) i k () m rest).queue i k () = rest :=
          Channels.delivered_queue_self
        rw [hrest]
        rw [hfirst] at hqueue
        refine (List.mem_cons.mp hqueue).resolve_left fun heq => hnot ⟨rfl, ?_⟩
        rw [hrest, heq]
        exact hfirst
      · rw [Channels.delivered_queue_of_ne hsame]
        exact hqueue

/-- Whoever does not own a token sends it back. -/
theorem sent_of_arrives {msg : OwnedToken n} (hstep : (system f silent).step net l net')
    (h : Arrives i k msg net net' l)
    (howner : msg.ownerId ≠ (net.nodes k).module.id ∨ msg.token = (net.nodes k).module.token) :
    Sent k i msg net' := by
  obtain ⟨rfl, hqueue⟩ := h
  obtain ⟨-, m, rest, hfirst, rfl⟩ := hstep
  rw [hfirst, Channels.delivered_queue_self] at hqueue
  cases hqueue
  refine Or.inl ?_
  rw [Channels.delivered_nodes_self]
  refine List.mem_append_right _ ?_
  unfold onMsgRecv
  split
  · rename_i hown
    rw [if_pos (howner.resolve_left fun hne => hne hown)]
    exact List.mem_singleton.mpr rfl
  · exact List.mem_singleton.mpr rfl

/-- Only its own loop changes the token of a processor and the statement it is at. -/
theorem loop_step (hstep : (system f silent).step net l net') (i : Fin n) :
    (l = .act i .loop ∧ i ∉ silent ∧ (net'.nodes i).module = (net.nodes i).module.run.1 ∧
      (net'.nodes i).unsent = (net.nodes i).unsent ++ (net.nodes i).module.run.2) ∨
    (l ≠ .act i .loop ∧ (net'.nodes i).module.token = (net.nodes i).module.token ∧
      (net'.nodes i).module.statement = (net.nodes i).module.statement ∧
      ∀ k, (net.nodes i).module.counters k ≤ (net'.nodes i).module.counters k) := by
  cases l with
  | act j a =>
    obtain ⟨hj, -, rfl⟩ := hstep
    by_cases hij : i = j
    · subst hij
      rw [Channels.acted_nodes_self]
      cases a with
      | loop => exact Or.inl ⟨rfl, hj, rfl, rfl⟩
      | send => exact Or.inr ⟨nofun, rfl, rfl, fun _ => Nat.le_refl _⟩
    · rw [Channels.acted_nodes_of_ne hij]
      exact Or.inr ⟨fun heq => hij (by cases heq; rfl), rfl, rfl, fun _ => Nat.le_refl _⟩
  | deliver j k c =>
    obtain ⟨-, m, rest, -, rfl⟩ := hstep
    refine Or.inr ⟨nofun, ?_⟩
    by_cases hik : i = k
    · subst hik
      rw [Channels.delivered_nodes_self]
      show ((net.nodes i).module.onMsgRecv j m).1.token = _ ∧
        ((net.nodes i).module.onMsgRecv j m).1.statement = _ ∧
        ∀ k, _ ≤ ((net.nodes i).module.onMsgRecv j m).1.counters k
      unfold onMsgRecv
      split
      · split
        · refine ⟨rfl, rfl, fun k => ?_⟩
          show _ ≤ Function.update (net.nodes i).module.counters j _ k
          by_cases hkj : k = j
          · subst hkj
            rw [Function.update_self]
            exact Nat.le_succ _
          · rw [Function.update_of_ne hkj]
        · exact ⟨rfl, rfl, fun _ => Nat.le_refl _⟩
      · exact ⟨rfl, rfl, fun _ => Nat.le_refl _⟩
    · rw [Channels.delivered_nodes_of_ne hik]
      exact ⟨rfl, rfl, fun _ => Nat.le_refl _⟩

/-- The statements of the loop. -/
theorem run_broadcast {m : EventDrivenFDModule n} (h : m.statement = .broadcast) :
    m.run = ({ m with statement := .wait }, m.broadcast) := by
  rw [run, h]

theorem run_wait {m : EventDrivenFDModule n} (h : m.statement = .wait) :
    m.run = if m.correctProcessorsHaveReplied then
      ({ m with
          lastCorrectProcessors := some (m.token, m.getCorrectProcessors)
          statement := .resetCounters }, [])
    else (m, []) := by
  rw [run, h]

theorem run_resetCounters {m : EventDrivenFDModule n} (h : m.statement = .resetCounters) :
    m.run = ({ m with counters := fun _ => 0, statement := .incrementToken }, []) := by
  rw [run, h]

theorem run_incrementToken {m : EventDrivenFDModule n} (h : m.statement = .incrementToken) :
    m.run = ({ m with token := m.token + 1, statement := .broadcast }, []) := by
  rw [run, h]

/-- The current token of `i` is between `i` and `k`. -/
def Between (i k : Fin n) (net : Channels (Fin n) (DetectorNode n) Unit (OwnedToken n)) : Prop :=
  Sent i k ⟨(net.nodes i).module.token, i⟩ net ∨ Sent k i ⟨(net.nodes i).module.token, i⟩ net

/-- As long as a processor waits, its token is between it and every other one. -/
theorem between (h : (system f silent).Reachable net) (hi : i ∉ silent) (hk : k ∉ silent)
    (hik : i ≠ k) (hwait : (net.nodes i).module.statement = .wait) : Between i k net := by
  induction h with
  | init hinit =>
    rw [hinit.1 i hi] at hwait
    cases hwait
  | @step net net' l hnet _ hstep ih =>
    have hsound := (sound hnet).1
    have hkeep : Between i k net →
        (net'.nodes i).module.token = (net.nodes i).module.token → Between i k net' := by
      intro hbetween htoken
      rw [Between, htoken]
      by_cases harrives : Arrives i k ⟨(net.nodes i).module.token, i⟩ net net' l
      · refine Or.inr (sent_of_arrives hstep harrives (Or.inl ?_))
        rw [(hsound k hk).id]
        exact hik
      · by_cases harrives' : Arrives k i ⟨(net.nodes i).module.token, i⟩ net net' l
        · exact Or.inl (sent_of_arrives hstep harrives' (Or.inr rfl))
        · exact hbetween.imp (sent_step hstep harrives) (sent_step hstep harrives')
    rcases loop_step hstep i with ⟨-, -, hmodule, hunsent⟩ | ⟨-, htoken, hstatement, -⟩
    · cases hbefore : (net.nodes i).module.statement with
      | broadcast =>
        rw [run_broadcast hbefore] at hmodule hunsent
        refine Or.inl (Or.inl ?_)
        rw [hmodule, hunsent]
        refine List.mem_append_right _ (List.mem_map.mpr ⟨k, ?_, ?_⟩)
        · rw [mem_others, (hsound i hi).id]
          exact Ne.symm hik
        · rw [(hsound i hi).id]
      | wait =>
        refine hkeep (ih hbefore) ?_
        rw [hmodule, run_wait hbefore]
        split
        · rfl
        · rfl
      | resetCounters =>
        rw [hmodule, run_resetCounters hbefore] at hwait
        cases hwait
      | incrementToken =>
        rw [hmodule, run_incrementToken hbefore] at hwait
        cases hwait
    · exact hkeep (ih (hstatement ▸ hwait)) htoken

/-! ## How many reply -/

/-- Whoever is not silent may reply. -/
theorem replied_of_counted {m : EventDrivenFDModule n} (hid : m.id = i)
    (hbyz : m.numberOfByzantine = f) (hf : 0 < f) (hcard : silent.card ≤ f)
    (h : ∀ k, k ∉ silent → k ≠ i → K_ADMISSIBILITY_THRESHOLD ≤ m.counters k) :
    m.correctProcessorsHaveReplied = true := by
  have hle : Fintype.card (Fin n) ≤
      m.getCorrectProcessors.toFinset.card + (insert i silent).card := by
    apply Quorum.card_univ_le_add
    intro k hk
    rw [Finset.mem_insert, not_or] at hk
    rw [List.mem_toFinset, mem_getCorrectProcessors, hid]
    exact ⟨hk.1, h k hk.2 hk.1⟩
  rw [List.toFinset_card_of_nodup (nodup_getCorrectProcessors m), Fintype.card_fin] at hle
  have hinsert := Finset.card_insert_le i silent
  refine decide_eq_true ?_
  rw [hbyz]
  omega

/-- Without faulty processors to tolerate, one reply is always missing. -/
theorem not_replied {m : EventDrivenFDModule n} (hbyz : m.numberOfByzantine = 0) :
    m.correctProcessorsHaveReplied = false := by
  have hsub : m.getCorrectProcessors.toFinset ⊆ Finset.univ.erase m.id := by
    intro k hk
    rw [List.mem_toFinset, mem_getCorrectProcessors] at hk
    exact Finset.mem_erase.mpr ⟨hk.1, Finset.mem_univ k⟩
  have hle := Finset.card_le_card hsub
  rw [List.toFinset_card_of_nodup (nodup_getCorrectProcessors m),
    Finset.card_erase_of_mem (Finset.mem_univ _), Finset.card_univ, Fintype.card_fin] at hle
  have hpos := m.id.pos
  refine decide_eq_false ?_
  rw [hbyz]
  omega

/-- So nobody ever leaves the first round. -/
theorem stays_in_first (hreach : (system 0 silent).Reachable net) (hi : i ∉ silent) :
    (net.nodes i).module.token = 0 ∧ ((net.nodes i).module.statement = .broadcast ∨
      (net.nodes i).module.statement = .wait) := by
  induction hreach with
  | init hinit =>
    rw [hinit.1 i hi]
    exact ⟨rfl, Or.inl rfl⟩
  | @step net net' l hnet _ hstep ih =>
    rcases loop_step hstep i with ⟨-, -, hmodule, -⟩ | ⟨-, htoken, hstatement, -⟩
    · rcases ih.2 with hbefore | hbefore
      · rw [hmodule, run_broadcast hbefore]
        exact ⟨ih.1, Or.inr rfl⟩
      · rw [hmodule, run_wait hbefore, not_replied ((sound hnet).1 i hi).byzantine,
          if_neg Bool.false_ne_true]
        exact ⟨ih.1, Or.inr hbefore⟩
    · rw [htoken, hstatement]
      exact ih

/-- The place of a statement in its round. -/
def place : EventFdStatement → Int
  | .broadcast => 0
  | .wait => 1
  | .resetCounters => 2
  | .incrementToken => 3

theorem place_range (statement : EventFdStatement) : 0 ≤ place statement ∧ place statement ≤ 3 := by
  cases statement with
  | broadcast => decide
  | wait => decide
  | resetCounters => decide
  | incrementToken => decide

theorem place_inj {statement statement' : EventFdStatement}
    (h : place statement = place statement') : statement = statement' := by
  cases statement with
  | broadcast => cases statement' with
    | broadcast => rfl
    | _ => cases h
  | wait => cases statement' with
    | wait => rfl
    | _ => cases h
  | resetCounters => cases statement' with
    | resetCounters => rfl
    | _ => cases h
  | incrementToken => cases statement' with
    | incrementToken => rfl
    | _ => cases h

/-- How far a processor has come: four statements a round. -/
def progress (w : DetectorNode n) : Int := 4 * w.module.token + place w.module.statement

/-- The loop goes on by one statement, unless it has to wait. -/
theorem progress_loop (hstep : (system f silent).step net l net') (i : Fin n) :
    (net'.nodes i).progress = (net.nodes i).progress ∨
      (net'.nodes i).progress = (net.nodes i).progress + 1 := by
  rcases loop_step hstep i with ⟨-, -, hmodule, -⟩ | ⟨-, htoken, hstatement, -⟩
  · simp only [progress, hmodule]
    cases hbefore : (net.nodes i).module.statement with
    | broadcast =>
      rw [run_broadcast hbefore]
      simp only [place]
      omega
    | wait =>
      rw [run_wait hbefore]
      split
      · simp only [place]
        omega
      · rw [hbefore]
        exact Or.inl rfl
    | resetCounters =>
      rw [run_resetCounters hbefore]
      simp only [place]
      omega
    | incrementToken =>
      rw [run_incrementToken hbefore]
      simp only [place]
      omega
  · refine Or.inl ?_
    rw [progress, progress, htoken, hstatement]

/-- With as much progress, a processor is at the same statement of the same round. -/
theorem progress_inj {w w' : DetectorNode n} (h : w'.progress = w.progress) :
    w'.module.token = w.module.token ∧ w'.module.statement = w.module.statement := by
  have hrange := place_range w.module.statement
  have hrange' := place_range w'.module.statement
  rw [progress, progress] at h
  exact ⟨by omega, place_inj (by omega)⟩

/-! ## Fair runs -/

section Fair

variable {s : Nat → Channels (Fin n) (DetectorNode n) Unit (OwnedToken n)}
  {e : Nat → Option (Channels.Label (Fin n) Action Unit)}
  (h : (system f silent).FairRun (Channels.duty kind) s e)

include h

theorem acts (hi : i ∉ silent) (a : Action) (t : Nat) :
    ∃ t', t ≤ t' ∧ e t' = some (.act i a) := by
  obtain ⟨t', ht', b, he, hb⟩ := Channels.acts h hi (a := a) trivial t
  have hba : b = a := hb
  exact ⟨t', ht', hba ▸ he⟩

/-- Every message arrives. -/
theorem sent_arrives {msg : OwnedToken n} (hi : i ∉ silent) (hk : k ∉ silent) {t : Nat}
    (hsent : Sent i k msg (s t)) :
    ∃ t', t ≤ t' ∧ ∃ l, e t' = some l ∧ Arrives i k msg (s t') (s (t' + 1)) l := by
  by_contra hnever
  have hstays : ∀ t', t ≤ t' → Sent i k msg (s t') := by
    intro t' ht'
    induction ht' with
    | refl => exact hsent
    | @step t' ht' ih =>
      exact h.kept_next ih fun l he hstep =>
        sent_step hstep (fun harrives => hnever ⟨t', ht', l, he, harrives⟩) ih
  -- once the senders have sent it, it is on its way
  obtain ⟨t₁, ht₁, he⟩ := acts h hi .send t
  have hqueue : msg ∈ (s (t₁ + 1)).queue i k () := by
    rcases hstays (t₁ + 1) (by omega) with hunsent | hqueue
    · rw [Channels.act_next h he] at hunsent
      exact absurd hunsent List.not_mem_nil
    · exact hqueue
  obtain ⟨t₂, ht₂, he₂, hfirst⟩ := Channels.delivers_mem h hk hqueue
  exact hnever ⟨t₂, by omega, _, he₂, rfl, hfirst⟩

/-- While a processor waits, it does not reset its counters. -/
theorem counters_le {t₀ t t' : Nat}
    (hwait : ∀ t, t₀ ≤ t → ((s t).nodes i).module.statement = .wait) (ht : t₀ ≤ t)
    (htt' : t ≤ t') :
    ((s t).nodes i).module.counters k ≤ ((s t').nodes i).module.counters k := by
  induction htt' with
  | refl => exact Nat.le_refl _
  | @step t' htt' ih =>
    refine h.kept_next (P := fun net => ((s t).nodes i).module.counters k ≤
      (net.nodes i).module.counters k) ih fun l he hstep => Nat.le_trans ih ?_
    rcases loop_step hstep i with ⟨-, -, hmodule, -⟩ | ⟨-, -, -, hle⟩
    · rw [hmodule, run_wait (hwait t' (Nat.le_trans ht htt'))]
      split
      · exact Nat.le_refl _
      · exact Nat.le_refl _
    · exact hle k

/-- While a processor waits, its token is counted again and again. -/
theorem counted (hi : i ∉ silent) (hk : k ∉ silent) (hik : i ≠ k) {t₀ : Nat}
    (hwait : ∀ t, t₀ ≤ t → ((s t).nodes i).module.statement = .wait)
    (htoken : ∀ t, t₀ ≤ t → ((s t).nodes i).module.token = ((s t₀).nodes i).module.token)
    (d : Nat) : ∃ t, t₀ ≤ t ∧ d ≤ ((s t).nodes i).module.counters k := by
  induction d with
  | zero => exact ⟨t₀, Nat.le_refl _, Nat.zero_le _⟩
  | succ d ih =>
    obtain ⟨t, ht, hd⟩ := ih
    -- the token goes round once more
    obtain ⟨t₁, ht₁, hback⟩ : ∃ t₁, t ≤ t₁ ∧
        Sent k i ⟨((s t₀).nodes i).module.token, i⟩ (s t₁) := by
      have hbetween := between (h.reachable t) hi hk hik (hwait t ht)
      rw [Between, htoken t ht] at hbetween
      rcases hbetween with hsent | hsent
      · obtain ⟨t₁, ht₁, l, he, harrives⟩ := sent_arrives h hi hk hsent
        refine ⟨t₁ + 1, by omega, sent_of_arrives (h.step t₁ l he) harrives (Or.inl ?_)⟩
        rw [((sound (h.reachable t₁)).1 k hk).id]
        exact hik
      · exact ⟨t, Nat.le_refl t, hsent⟩
    obtain ⟨t₂, ht₂, l, he, rfl, hqueue⟩ := sent_arrives h hk hi hback
    refine ⟨t₂ + 1, by omega, ?_⟩
    obtain ⟨m, hfirst, hnext⟩ := Channels.deliver_next h he
    rw [hqueue] at hfirst
    cases hfirst
    have hid := ((sound (h.reachable t₂)).1 i hi).id
    have hcount : ((s (t₂ + 1)).nodes i).module.counters k =
        ((s t₂).nodes i).module.counters k + 1 := by
      rw [hnext]
      show (((s t₂).nodes i).module.onMsgRecv k _).1.counters k = _
      rw [onMsgRecv, if_pos hid.symm, if_pos (htoken t₂ (by omega)).symm]
      exact Function.update_self ..
    have hle := counters_le h hwait ht (by omega : t ≤ t₂) (k := k)
    omega

theorem progress_le (i : Fin n) {t t' : Nat} (ht : t ≤ t') :
    ((s t).nodes i).progress ≤ ((s t').nodes i).progress := by
  refine h.kept_of_le (P := fun net => ((s t).nodes i).progress ≤ (net.nodes i).progress)
    (fun t' l hstep hle => ?_) ht (Int.le_refl _)
  rcases progress_loop hstep i with hsame | hmore
  · rw [hsame]
    exact hle
  · rw [hmore]
    omega

/-- Nobody stays at a statement. -/
theorem goes_on (hf : 0 < f) (hcard : silent.card ≤ f) (hi : i ∉ silent) (t₀ : Nat) :
    ∃ t, t₀ ≤ t ∧ ((s t₀).nodes i).progress < ((s t).nodes i).progress := by
  by_contra hnever
  have hsame : ∀ t, t₀ ≤ t → ((s t).nodes i).progress = ((s t₀).nodes i).progress := by
    intro t ht
    have hle := progress_le h i ht
    have hnot : ¬ ((s t₀).nodes i).progress < ((s t).nodes i).progress :=
      fun hlt => hnever ⟨t, ht, hlt⟩
    omega
  have hstays : ∀ t, t₀ ≤ t → ((s t).nodes i).module.token = ((s t₀).nodes i).module.token ∧
      ((s t).nodes i).module.statement = ((s t₀).nodes i).module.statement :=
    fun t ht => progress_inj (hsame t ht)
  -- every other statement is followed by the next one
  have hloop : ∀ t, t₀ ≤ t → e t = some (.act i .loop) →
      ((s t).nodes i).module.run.1.statement = ((s t₀).nodes i).module.statement := by
    intro t ht he
    have hnext := (hstays (t + 1) (by omega)).2
    rw [Channels.act_next h he] at hnext
    exact hnext
  have hwait : ((s t₀).nodes i).module.statement = .wait := by
    obtain ⟨t, ht, he⟩ := acts h hi .loop t₀
    have hnext := hloop t ht he
    have hnow := (hstays t ht).2
    cases hstatement : ((s t₀).nodes i).module.statement with
    | wait => rfl
    | broadcast =>
      rw [hstatement] at hnow hnext
      rw [run_broadcast hnow] at hnext
      cases hnext
    | resetCounters =>
      rw [hstatement] at hnow hnext
      rw [run_resetCounters hnow] at hnext
      cases hnext
    | incrementToken =>
      rw [hstatement] at hnow hnext
      rw [run_incrementToken hnow] at hnext
      cases hnext
  have hwaits : ∀ t, t₀ ≤ t → ((s t).nodes i).module.statement = .wait :=
    fun t ht => ((hstays t ht).2).trans hwait
  have hcounted : System.Settles s fun net => ∀ k, k ∉ silent → k ≠ i →
      K_ADMISSIBILITY_THRESHOLD ≤ (net.nodes i).module.counters k := by
    refine System.Settles.all fun k => ?_
    by_cases hk : k ∉ silent ∧ k ≠ i
    · obtain ⟨t, ht, hmany⟩ := counted h hi hk.1 (Ne.symm hk.2) hwaits
        (fun t ht => (hstays t ht).1) K_ADMISSIBILITY_THRESHOLD
      exact ⟨t, fun t' ht' _ _ => Nat.le_trans hmany
        (counters_le h hwaits ht ht')⟩
    · exact .of_forall fun t hsilent hki => absurd ⟨hsilent, hki⟩ hk
  obtain ⟨t₁, ht₁⟩ := hcounted
  obtain ⟨t, ht, he⟩ := acts h hi .loop (max t₀ t₁)
  have hsound := (sound (h.reachable t)).1 i hi
  have hreplied := replied_of_counted hsound.id hsound.byzantine hf hcard (ht₁ t (by omega))
  have hnext := hloop t (by omega) he
  rw [run_wait (hwaits t (by omega)), if_pos hreplied, hwait] at hnext
  cases hnext

/-- Round follows round. -/
theorem token_settles (hf : 0 < f) (hcard : silent.card ≤ f) (hi : i ∉ silent) (r : Nat) :
    System.Settles s fun net => (r : Int) ≤ (net.nodes i).module.token := by
  have hmany : ∀ d : Nat, ∃ t, (d : Int) ≤ ((s t).nodes i).progress := by
    intro d
    induction d with
    | zero =>
      refine ⟨0, ?_⟩
      rw [h.init.1 i hi]
      exact Int.le_refl 0
    | succ d ih =>
      obtain ⟨t, ht⟩ := ih
      obtain ⟨t', -, hlt⟩ := goes_on h hf hcard hi t
      exact ⟨t', by push_cast; omega⟩
  obtain ⟨t, ht⟩ := hmany (4 * r + 3)
  refine ⟨t, fun t' ht' => ?_⟩
  have hle := progress_le h i ht'
  have hrange := place_range ((s t').nodes i).module.statement
  rw [progress, progress] at hle
  rw [progress] at ht
  push_cast at ht
  show (r : Int) ≤ ((s t').nodes i).module.token
  omega

end Fair

/-- With at most `f` silent processors, in every fair run what is stored of a round names at
    least `n - 2f` others that are not silent; and rounds follow each other for ever just if
    `f > 0`. -/
theorem rounds_iff {s : Nat → Channels (Fin n) (DetectorNode n) Unit (OwnedToken n)}
    {e : Nat → Option (Channels.Label (Fin n) Action Unit)}
    (h : (system f silent).FairRun (Channels.duty kind) s e) (hcard : silent.card ≤ f)
    (hn : 0 < n) :
    (∀ t i, i ∉ silent → ∀ r ids,
      ((s t).nodes i).module.lastCorrectProcessors = some (r, ids) →
        (n : Int) - 2 * f ≤ ids.length ∧ ids.Nodup ∧ ∀ k ∈ ids, k ∉ silent ∧ k ≠ i) ∧
    ((∀ i, i ∉ silent → ∀ r : Nat,
      System.Settles s fun net => (r : Int) ≤ (net.nodes i).module.token) ↔ 0 < f) := by
  refine ⟨fun t i hi => ((sound (h.reachable t)).1 i hi).stored, fun hall => ?_,
    fun hf i hi r => token_settles h hf hcard hi r⟩
  by_contra hzero
  have hf : f = 0 := Nat.eq_zero_of_not_pos hzero
  subst hf
  have hnone : (⟨0, hn⟩ : Fin n) ∉ silent := by
    rw [Finset.card_eq_zero.mp (Nat.le_zero.mp hcard)]
    exact Finset.notMem_empty _
  obtain ⟨t, ht⟩ := hall ⟨0, hn⟩ hnone 1
  have hfirst := (stays_in_first (h.reachable t) hnone).1
  have hone : ((1 : Nat) : Int) ≤ ((s t).nodes ⟨0, hn⟩).module.token := ht t (Nat.le_refl t)
  rw [hfirst] at hone
  omega

/-- Six new processors, of which the last one is silent, have a fair run, and all others come to
    the hundredth round. -/
theorem rounds_iff_six : ∃ s e, (system 1 {(5 : Fin 6)}).FairRun (Channels.duty kind) s e ∧
    System.Settles s fun net => 100 ≤ (net.nodes 0).module.token := by
  have hinit : (system 1 {(5 : Fin 6)}).init ⟨fun i => init i 1, fun _ _ _ => []⟩ :=
    ⟨fun _ _ => rfl, fun _ _ _ => rfl⟩
  obtain ⟨s, e, hrun, -⟩ := @System.FairRun.exists_of_init _ _ _ _ (Channels.duty kind) _ _ hinit
  exact ⟨s, e, hrun, ((rounds_iff hrun (by decide) (by decide)).2.mpr (by decide)) 0 (by decide)
    100⟩

end DetectorNode

end BFTList

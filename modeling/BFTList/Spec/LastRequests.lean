import BFTList.Spec.ReplicationSteps

/-!
# The last request of each client

A processor keeps for every client the last request it executed and the reply, in a list
that is indexed by client and grows on demand, or in a dictionary after a flush. Requests
without operation come from client `-1`, and index `-1` of a list is its last place: there
such a request takes the place of another client's, which holds what it should only if that
client sends another request afterwards.

## Key results

- `update_list_client`, `update_list_dummy`: what one execution writes
- `mendRule`: what a sequence of requests has to mend
- `lastReq_right_iff`: when every client finds its own last request
- `lastReq_overwritten`: a request of a client that is replaced by one without operation
-/

namespace BFTList

/-! ## The table -/

/-- What the table holds for a client; a place that was added for a higher client, or is not
    there yet, holds nothing. -/
def LastReqTable.entry (t : LastReqTable) (c : Nat) : LastReq :=
  match t with
  | .list l => l.getD c .missing
  | .dict d =>
    match dictGet d c with
    | .ok e => e
    | .error _ => .missing

/-- The table after `update_last_req`. -/
def LastReqTable.update (t : LastReqTable) (clientId : Int) (e : LastReq) : Py LastReqTable :=
  match t with
  | .dict d => .ok (.dict (dictSet d clientId e))
  | .list l =>
    match pyIndex l.length clientId with
    | .ok i => .ok (.list (l.set i e))
    | .error _ =>
      let grown := l ++ List.replicate (clientId + 1 - l.length).toNat .missing
      match pyIndex grown.length clientId with
      | .ok i => .ok (.list (grown.set i e))
      | .error err => .error err

theorem ReplicaStructure.updateLastReq_eq (rs : ReplicaStructure) (clientId : Int) (r : Request)
    (reply : List Value) : rs.updateLastReq clientId r reply =
      (rs.lastReq.update clientId (.executed r reply)).map fun t => { rs with lastReq := t } := by
  unfold updateLastReq LastReqTable.update
  cases rs.lastReq with
  | dict d => rfl
  | list l =>
    dsimp only
    cases pyIndex l.length clientId with
    | ok i => rfl
    | error err =>
      dsimp only
      cases pyIndex (l ++ List.replicate (clientId + 1 - l.length).toNat LastReq.missing).length
        clientId with
      | ok i => rfl
      | error err => rfl

namespace LastReqTable

/-- An assignment to a place of a list. -/
theorem set_place {l : List LastReq} {k : Nat} (hk : k < l.length) (e : LastReq) :
    (match pyIndex l.length k with
      | .ok i => .ok (.list (l.set i e))
      | .error err => .error err : Py LastReqTable) = .ok (.list (l.set k e)) := by
  have hindex : pyIndex l.length k = .ok ⟨k, hk⟩ := pyIndex_val ⟨k, hk⟩
  simp only [hindex]

/-- A client's request goes to its own place; the list grows up to it. -/
theorem update_list_client_eq (l : List LastReq) (k : Nat) (e : LastReq) : update (.list l) k e =
    .ok (.list ((l ++ List.replicate (k + 1 - l.length) LastReq.missing).set k e)) := by
  unfold update
  by_cases hlt : k < l.length
  · have hindex : pyIndex l.length k = .ok ⟨k, hlt⟩ := pyIndex_val ⟨k, hlt⟩
    have hnone : k + 1 - l.length = 0 := by omega
    simp only [hindex, hnone, List.replicate_zero, List.append_nil]
  · have hraise : pyIndex l.length k = .error .indexError := by
      rw [pyIndex, dif_neg (by omega), dif_neg (by omega)]
    have hgrow : k + 1 - l.length = ((k : Int) + 1 - l.length).toNat := by omega
    simp only [hraise]
    rw [hgrow]
    apply set_place
    simp only [List.length_append, List.length_replicate]
    omega

/-- A request of client `-1` goes to the last place of a list. -/
theorem update_list_dummy_eq {l : List LastReq} (hl : l ≠ []) (e : LastReq) :
    update (.list l) (-1) e = .ok (.list (l.set (l.length - 1) e)) := by
  have hpos : 0 < l.length := List.length_pos_iff.mpr hl
  have hindex : pyIndex l.length (-1) = .ok ⟨l.length - 1, by omega⟩ := by
    rw [pyIndex, dif_neg (by omega), dif_pos ⟨by omega, by omega⟩]
    congr 2
    omega
  unfold update
  simp only [hindex]

/-- An empty list has no last place. -/
theorem update_nil_dummy (e : LastReq) : update (.list []) (-1) e = .error .indexError := rfl

theorem entry_list_set (l : List LastReq) {i : Nat} (hi : i < l.length) (e : LastReq) (c : Nat) :
    entry (.list (l.set i e)) c = if c = i then e else entry (.list l) c := by
  simp only [entry, List.getD_eq_getElem?_getD, List.getElem?_set]
  by_cases hc : c = i
  · simp [hc, hi]
  · simp [hc, Ne.symm hc]

theorem entry_list_grow (l : List LastReq) (count c : Nat) :
    entry (.list (l ++ List.replicate count .missing)) c = entry (.list l) c := by
  simp only [entry, List.getD_eq_getElem?_getD, List.getElem?_append]
  split
  · rfl
  · rename_i hge
    rw [List.getElem?_eq_none (l := l) (by omega), List.getElem?_replicate]
    split
    · rfl
    · rfl

/-- In a list a client's request changes the client's own place, which may have to be added. -/
theorem update_list_client (l : List LastReq) (k : Nat) (e : LastReq) :
    ∃ l', update (.list l) k e = .ok (.list l') ∧ l'.length = max l.length (k + 1) ∧
      ∀ c : Nat, entry (.list l') c = if c = k then e else entry (.list l) c := by
  have hlen : (l ++ List.replicate (k + 1 - l.length) LastReq.missing).length =
      max l.length (k + 1) := by
    simp only [List.length_append, List.length_replicate]
    omega
  refine ⟨_, update_list_client_eq l k e, by rw [List.length_set, hlen], fun c => ?_⟩
  rw [entry_list_set _ (by omega), entry_list_grow]

/-- A request of client `-1` changes the last place, which has to be there. -/
theorem update_list_dummy {l : List LastReq} (hl : 0 < l.length) (e : LastReq) :
    ∃ l', update (.list l) (-1) e = .ok (.list l') ∧ l'.length = l.length ∧
      ∀ c : Nat, entry (.list l') c = if c = l.length - 1 then e else entry (.list l) c :=
  ⟨_, update_list_dummy_eq (List.length_pos_iff.mp hl) e, List.length_set,
    fun c => entry_list_set l (by omega) e c⟩

/-- A dictionary has a place of its own for every client. -/
theorem update_dict (d : List (Int × LastReq)) (clientId : Int) (e : LastReq) :
    ∃ d', update (.dict d) clientId e = .ok (.dict d') ∧
      ∀ c : Nat, entry (.dict d') c = if (c : Int) = clientId then e else entry (.dict d) c := by
  refine ⟨_, rfl, fun c => ?_⟩
  simp only [entry, dictGet_dictSet]
  by_cases hc : (c : Int) = clientId
  · simp only [hc, if_true]
  · simp only [hc, if_false]

end LastReqTable

/-! ## Sequences of executions -/

/-- The latest of the requests that is of client `c`, with the state after its execution;
    without one, what was there before. -/
def latest (c : Nat) (before : LastReq) : List Value → List Request → LastReq
  | _, [] => before
  | state, r :: rs =>
    let reply := r.clientRequest.operation.execute state
    latest c (if r.clientRequest.clientId = c then .executed r reply else before) reply rs

/-- The table after requests are executed. -/
def LastReqTable.updates : LastReqTable → List Value → List Request → Py LastReqTable
  | t, _, [] => .ok t
  | t, state, r :: rs => do
    let reply := r.clientRequest.operation.execute state
    (← t.update r.clientRequest.clientId (.executed r reply)).updates reply rs

/-! ## Right tables -/

/-- The entry is what a request without operation left. -/
def LastReq.Spoiled : LastReq → Prop
  | .executed r _ => r.clientRequest.isDummy = true
  | _ => False

theorem clientId_of_isDummy {c : ClientRequest} (h : c.isDummy = true) : c.clientId = -1 := by
  simp only [ClientRequest.isDummy, decide_eq_true_eq] at h
  exact h.1

/-- Of a list of `length` places, a request without operation finds a last place, and the
    client of that place sends another request afterwards. -/
def Overwritten : Nat → List Request → Prop
  | _, [] => True
  | length, r :: rs =>
    (r.clientRequest.isDummy = true →
      0 < length ∧ ∃ r' ∈ rs, r'.clientRequest.clientId = (length : Int) - 1) ∧
    Overwritten (max length (r.clientRequest.clientId + 1).toNat) rs

/-- The requests of a sequence decide one after the other. -/
def decOverwritten : ∀ (length : Nat) (rs : List Request), Decidable (Overwritten length rs)
  | _, [] => .isTrue trivial
  | length, r :: rs =>
    @instDecidableAnd _ _ _ (decOverwritten (max length (r.clientRequest.clientId + 1).toNat) rs)

instance (length : Nat) (rs : List Request) : Decidable (Overwritten length rs) :=
  decOverwritten length rs

theorem overwritten_client {length k : Nat} {r : Request} {rs : List Request}
    (hk : r.clientRequest.clientId = k) :
    Overwritten length (r :: rs) ↔ Overwritten (max length (k + 1)) rs := by
  have hno : r.clientRequest.isDummy ≠ true := by
    intro hdummy
    have := clientId_of_isDummy hdummy
    omega
  have hgrown : (r.clientRequest.clientId + 1).toNat = k + 1 := by omega
  rw [Overwritten, hgrown]
  exact ⟨fun h => h.2, fun h => ⟨fun hdummy => absurd hdummy hno, h⟩⟩

theorem overwritten_dummy {length : Nat} {r : Request} {rs : List Request}
    (hr : r.clientRequest.isDummy = true) : Overwritten length (r :: rs) ↔
      (0 < length ∧ ∃ r' ∈ rs, r'.clientRequest.clientId = (length : Int) - 1) ∧
        Overwritten length rs := by
  have hkept : max length (r.clientRequest.clientId + 1).toNat = length := by
    rw [clientId_of_isDummy hr]
    omega
  rw [Overwritten, hkept]
  exact ⟨fun h => ⟨h.1 hr, h.2⟩, fun h => ⟨fun _ => h.1, h.2⟩⟩

/-- A dictionary is not concerned. -/
def DummiesOverwritten (t : LastReqTable) (rs : List Request) : Prop :=
  match t with
  | .list l => Overwritten l.length rs
  | .dict _ => True

instance (t : LastReqTable) (rs : List Request) : Decidable (DummiesOverwritten t rs) :=
  match t with
  | .list l => decOverwritten l.length rs
  | .dict _ => .isTrue trivial

/-- The executions go through and end in the table that is wanted. -/
def LastReqTable.EndsRight (t : LastReqTable) (want : Nat → LastReq) (state : List Value)
    (rs : List Request) : Prop :=
  ∃ t', t.updates state rs = .ok t' ∧ ∀ c, t'.entry c = latest c (want c) state rs

/-- The places that are not as wanted belong to clients that send requests afterwards. -/
def LastReqTable.Mended (t : LastReqTable) (want : Nat → LastReq) (rs : List Request) : Prop :=
  ∀ c : Nat, t.entry c ≠ want c → ∃ r ∈ rs, r.clientRequest.clientId = c

namespace LastReqTable

variable {want : Nat → LastReq} {state : List Value} {r : Request} {rs : List Request}

theorem endsRight_nil {t : LastReqTable} : t.EndsRight want state [] ↔ t.Mended want [] := by
  constructor
  · intro h c hne
    obtain ⟨t', ht', hright⟩ := h
    cases ht'
    exact absurd (hright c) hne
  · intro h
    refine ⟨t, rfl, fun c => ?_⟩
    apply Decidable.byContradiction
    intro hne
    obtain ⟨r, hr, -⟩ := h c hne
    exact List.not_mem_nil hr

/-- The first execution writes a table, the others start from it. -/
theorem endsRight_cons {t t' : LastReqTable}
    (hupdate : t.update r.clientRequest.clientId
      (.executed r (r.clientRequest.operation.execute state)) = .ok t') :
    t.EndsRight want state (r :: rs) ↔
      t'.EndsRight (fun c => if r.clientRequest.clientId = c then
          .executed r (r.clientRequest.operation.execute state) else want c)
        (r.clientRequest.operation.execute state) rs := by
  unfold EndsRight
  simp only [updates, latest, hupdate]
  rfl

/-- A client's own request mends the client's place. -/
theorem mended_client {t t' : LastReqTable} {k : Nat} {e : LastReq}
    (hk : r.clientRequest.clientId = k)
    (hentry : ∀ c : Nat, t'.entry c = if c = k then e else t.entry c) :
    t.Mended want (r :: rs) ↔
      t'.Mended (fun c => if r.clientRequest.clientId = c then e else want c) rs := by
  unfold Mended
  simp only [hentry, hk, Int.natCast_inj]
  constructor
  · intro h c hne
    by_cases hc : c = k
    · simp only [hc, if_true, ne_eq, not_true_eq_false] at hne
    · rw [if_neg hc, if_neg (Ne.symm hc)] at hne
      obtain ⟨r', hr', hid⟩ := h c hne
      cases List.mem_cons.mp hr' with
      | inl heq => rw [heq, hk, Int.natCast_inj] at hid; exact absurd hid.symm hc
      | inr hmem => exact ⟨r', hmem, hid⟩
  · intro h c hne
    by_cases hc : c = k
    · exact ⟨r, List.mem_cons_self, by rw [hk, hc]⟩
    · obtain ⟨r', hr', hid⟩ := h c (by rw [if_neg hc, if_neg (Ne.symm hc)]; exact hne)
      exact ⟨r', List.mem_cons_of_mem r hr', hid⟩

/-- A request without operation at the place of a client that sends another one. -/
theorem mended_dummy_of {t t' : LastReqTable} {p : Nat} {e : LastReq}
    (hentry : ∀ c : Nat, t'.entry c = if c = p then e else t.entry c)
    (hr : r.clientRequest.clientId < 0) (h : t.Mended want (r :: rs))
    (hlater : ∃ r' ∈ rs, r'.clientRequest.clientId = p) : t'.Mended want rs := by
  intro c hne
  rw [hentry] at hne
  by_cases hc : c = p
  · rw [hc]
    exact hlater
  · rw [if_neg hc] at hne
    obtain ⟨r', hr', hid⟩ := h c hne
    cases List.mem_cons.mp hr' with
    | inl heq => subst heq; omega
    | inr hmem => exact ⟨r', hmem, hid⟩

/-- A place at which a request without operation is wrong has to be mended. -/
theorem mended_of_dummy {t t' : LastReqTable} {p : Nat} {e : LastReq}
    (hentry : ∀ c : Nat, t'.entry c = if c = p then e else t.entry c) (he : e ≠ want p)
    (h : t'.Mended want rs) :
    t.Mended want (r :: rs) ∧ ∃ r' ∈ rs, r'.clientRequest.clientId = p := by
  have hlater : ∃ r' ∈ rs, r'.clientRequest.clientId = p := by
    apply h p
    rw [hentry, if_pos rfl]
    exact he
  refine ⟨fun c hne => ?_, hlater⟩
  by_cases hc : c = p
  · obtain ⟨r', hr', hid⟩ := hlater
    exact ⟨r', List.mem_cons_of_mem r hr', by rw [hc, hid]⟩
  · obtain ⟨r', hr', hid⟩ := h c (by rw [hentry, if_neg hc]; exact hne)
    exact ⟨r', List.mem_cons_of_mem r hr', hid⟩

/-- What the requests of a list's clients have to mend for the list to end as wanted: the places
    that are wrong to begin with, and those that requests without operation take. The second
    half needs that no request without operation is wanted. -/
structure MendRule (l : List LastReq) (want : Nat → LastReq) (state : List Value)
    (rs : List Request) : Prop where
  enough : (list l).Mended want rs → Overwritten l.length rs → (list l).EndsRight want state rs
  needed : (∀ c, ¬ (want c).Spoiled) → (list l).EndsRight want state rs →
    (list l).Mended want rs ∧ Overwritten l.length rs

/-- A client's request comes before requests that obey the rule. -/
theorem mendRule_client (hrest : ∀ l want state, MendRule l want state rs)
    (hclient : 0 ≤ r.clientRequest.clientId) (l : List LastReq) (want : Nat → LastReq)
    (state : List Value) : MendRule l want state (r :: rs) := by
  obtain ⟨k, hk⟩ := Int.eq_ofNat_of_zero_le hclient
  obtain ⟨l', hupdate, hlength, hentry⟩ := update_list_client l k
    (.executed r (r.clientRequest.operation.execute state))
  rw [← hk] at hupdate
  have hrule := hrest l' (fun c => if r.clientRequest.clientId = c then
    .executed r (r.clientRequest.operation.execute state) else want c)
    (r.clientRequest.operation.execute state)
  constructor
  · rw [overwritten_client hk, endsRight_cons hupdate, mended_client hk hentry, ← hlength]
    exact hrule.enough
  · intro hwant
    rw [overwritten_client hk, endsRight_cons hupdate, mended_client hk hentry, ← hlength]
    apply hrule.needed
    intro c
    split
    · intro hdummy
      have := clientId_of_isDummy hdummy
      omega
    · exact hwant c

/-- A request without operation comes before requests that obey the rule. -/
theorem mendRule_dummy (hrest : ∀ l want state, MendRule l want state rs)
    (hdummy : r.clientRequest.isDummy = true) (l : List LastReq) (want : Nat → LastReq)
    (state : List Value) : MendRule l want state (r :: rs) := by
  have hid : r.clientRequest.clientId = -1 := clientId_of_isDummy hdummy
  by_cases hl : 0 < l.length
  · obtain ⟨l', hupdate, hlength, hentry⟩ := update_list_dummy hl
      (.executed r (r.clientRequest.operation.execute state))
    rw [← hid] at hupdate
    have hlast : (l.length : Int) - 1 = (l.length - 1 : Nat) := by omega
    -- the places of clients are wanted as before
    have hcons : (list l).EndsRight want state (r :: rs) ↔
        (list l').EndsRight want (r.clientRequest.operation.execute state) rs := by
      have hnone (c : Nat) (e : LastReq) :
          (if r.clientRequest.clientId = (c : Int) then e else want c) = want c :=
        if_neg (by omega)
      simp only [endsRight_cons hupdate, hnone]
    have hrule := hrest l' want (r.clientRequest.operation.execute state)
    constructor
    · intro hmended hover
      rw [overwritten_dummy hdummy, hlast] at hover
      rw [hcons]
      apply hrule.enough (mended_dummy_of hentry (by omega) hmended hover.1.2)
      rw [hlength]
      exact hover.2
    · intro hwant hright
      obtain ⟨hmended, hover⟩ := hrule.needed hwant (hcons.mp hright)
      have hwrong : LastReq.executed r (r.clientRequest.operation.execute state) ≠
          want (l.length - 1) := by
        intro heq
        apply hwant (l.length - 1)
        rw [← heq]
        exact hdummy
      obtain ⟨hbefore, hlater⟩ := mended_of_dummy hentry hwrong hmended
      rw [hlength] at hover
      rw [overwritten_dummy hdummy, hlast]
      exact ⟨hbefore, ⟨hl, hlater⟩, hover⟩
  · have hnil : l = [] := List.eq_nil_of_length_eq_zero (by omega)
    constructor
    · intro _ hover
      exact absurd ((overwritten_dummy hdummy).mp hover).1.1 hl
    · intro _ hright
      obtain ⟨t', ht', -⟩ := hright
      rw [updates, hid, hnil, update_nil_dummy] at ht'
      cases ht'

/-- Any sequence of requests of clients and without operation obeys the rule. -/
theorem mendRule
    (hids : ∀ r ∈ rs, 0 ≤ r.clientRequest.clientId ∨ r.clientRequest.isDummy = true) :
    ∀ l want state, MendRule l want state rs := by
  induction rs with
  | nil =>
    intro l want state
    exact ⟨fun h _ => endsRight_nil.mpr h, fun _ h => ⟨endsRight_nil.mp h, trivial⟩⟩
  | cons r rs ih =>
    have hrest := ih fun r' hr' => hids r' (List.mem_cons_of_mem r hr')
    cases hids r List.mem_cons_self with
    | inl hclient => exact mendRule_client hrest hclient
    | inr hdummy => exact mendRule_dummy hrest hdummy

/-- In a dictionary every client has a place of its own. -/
theorem endsRight_dict
    (hids : ∀ r ∈ rs, 0 ≤ r.clientRequest.clientId ∨ r.clientRequest.isDummy = true) :
    ∀ {d : List (Int × LastReq)} {want : Nat → LastReq} {state : List Value},
      (∀ c, (dict d).entry c = want c) → (dict d).EndsRight want state rs := by
  induction rs with
  | nil => exact fun hd => ⟨_, rfl, hd⟩
  | cons r rs ih =>
    intro d want state hd
    obtain ⟨d', hupdate, hentry⟩ := update_dict d r.clientRequest.clientId
      (.executed r (r.clientRequest.operation.execute state))
    rw [endsRight_cons hupdate]
    apply ih (fun r' hr' => hids r' (List.mem_cons_of_mem r hr'))
    intro c
    rw [hentry, hd]
    simp only [eq_comm]

end LastReqTable

namespace ReplicationModule

variable {n : Nat} {m : ReplicationModule n} {rs : List (Request × Finset Int)}

/-- The call `commit(...)`, which returns or raises. -/
def callCommit (m : ReplicationModule n) (r : Request) (xSet : Finset Int) :
    Py (ReplicationModule n) :=
  match m.commit r xSet with
  | (m', none) => .ok m'
  | (_, some e) => .error e

/-- `commit()` of one request after the other, each with its set of processors. -/
def commitAll (m : ReplicationModule n) (rs : List (Request × Finset Int)) :
    Py (ReplicationModule n) :=
  rs.foldlM (fun m r => m.callCommit r.1 r.2) m

/-- `commit()` raises where the table does, and where the operation cannot be executed. -/
theorem callCommit_eq (m : ReplicationModule n) (r : Request) (xSet : Finset Int) :
    m.callCommit r xSet =
      if r.clientRequest.operation.Executable then
        (m.own.lastReq.update r.clientRequest.clientId
          (.executed r (r.clientRequest.operation.execute m.own.repState))).map
            fun t => m.setOwn (executedOwn m.own r xSet t)
      else .error (if r.clientRequest.operation = .other then .attributeError
        else .indexError) := by
  by_cases hop : r.clientRequest.operation.Executable
  swap
  · simp only [callCommit, commit, Operation.callExecute, if_neg hop]
  simp only [callCommit, commit, Operation.callExecute, if_pos hop, own_setOwn, setOwn_setOwn,
    ReplicaStructure.updateLastReq_eq]
  cases m.own.lastReq.update r.clientRequest.clientId
    (.executed r (r.clientRequest.operation.execute m.own.repState)) with
  | error e => rfl
  | ok t => rfl

/-- Every request carries an operation that can be executed. -/
def CarryOperations (rs : List (Request × Finset Int)) : Prop :=
  ∀ r ∈ rs, r.1.clientRequest.operation.Executable

instance (rs : List (Request × Finset Int)) : Decidable (CarryOperations rs) :=
  inferInstanceAs (Decidable (∀ r ∈ rs, r.1.clientRequest.operation.Executable))

/-- The table after executions depends on the table and the state before. -/
theorem commitAll_lastReq (rs : List (Request × Finset Int)) (hops : CarryOperations rs) :
    ∀ m : ReplicationModule n, (m.commitAll rs).map (·.own.lastReq) =
      m.own.lastReq.updates m.own.repState (rs.map Prod.fst) := by
  induction rs with
  | nil => exact fun _ => rfl
  | cons r rs ih =>
    intro m
    have hop := hops r List.mem_cons_self
    rw [commitAll, List.foldlM_cons, callCommit_eq, if_pos hop, List.map_cons,
      LastReqTable.updates]
    cases m.own.lastReq.update r.1.clientRequest.clientId
      (.executed r.1 (r.1.clientRequest.operation.execute m.own.repState)) with
    | error e => rfl
    | ok t =>
      have hrest := ih (fun r' hr' => hops r' (List.mem_cons_of_mem r hr'))
        (m.setOwn (executedOwn m.own r.1 r.2 t))
      rw [own_setOwn] at hrest
      exact hrest

/-- Where an operation cannot be executed `commit()` raises. -/
theorem carryOperations_of_commitAll {m' : ReplicationModule n} {rs : List (Request × Finset Int)}
    (h : m.commitAll rs = .ok m') : CarryOperations rs := by
  intro r hr
  by_contra hop
  obtain ⟨c, c', hstep⟩ := exists_of_foldlM h hr
  rw [callCommit_eq, if_neg hop] at hstep
  cases hstep

/-- Every client finds its latest committed request with the reply to it, or what was there
    before. -/
def LastRequestsRight (m : ReplicationModule n) (rs : List (Request × Finset Int)) : Prop :=
  ∃ m', m.commitAll rs = .ok m' ∧ ∀ c : Nat, m'.own.lastReq.entry c =
    latest c (m.own.lastReq.entry c) m.own.repState (rs.map Prod.fst)

theorem lastRequestsRight_eq (m : ReplicationModule n) (rs : List (Request × Finset Int)) :
    m.LastRequestsRight rs ↔ CarryOperations rs ∧
      m.own.lastReq.EndsRight m.own.lastReq.entry m.own.repState (rs.map Prod.fst) := by
  unfold LastRequestsRight LastReqTable.EndsRight
  constructor
  · intro h
    obtain ⟨m', hm', hright⟩ := h
    have hops := carryOperations_of_commitAll hm'
    rw [← commitAll_lastReq rs hops, hm']
    exact ⟨hops, _, rfl, hright⟩
  · intro h
    obtain ⟨hops, t', ht', hright⟩ := h
    rw [← commitAll_lastReq rs hops] at ht'
    cases hall : m.commitAll rs with
    | error e =>
      rw [hall] at ht'
      cases ht'
    | ok m' =>
      rw [hall] at ht'
      cases ht'
      exact ⟨m', rfl, hright⟩

/-- The clients find their last requests if, and in a table that holds no dummy request only if,
    all requests carry operations and the dummy ones are overwritten. -/
theorem lastReq_right_iff
    (hids : ∀ r ∈ rs, 0 ≤ r.1.clientRequest.clientId ∨ r.1.clientRequest.isDummy = true) :
    (CarryOperations rs ∧ DummiesOverwritten m.own.lastReq (rs.map Prod.fst) →
        m.LastRequestsRight rs) ∧
      ((∀ c, ¬ (m.own.lastReq.entry c).Spoiled) →
        (m.LastRequestsRight rs ↔
          CarryOperations rs ∧ DummiesOverwritten m.own.lastReq (rs.map Prod.fst))) := by
  have hrequests : ∀ r ∈ rs.map Prod.fst,
      0 ≤ r.clientRequest.clientId ∨ r.clientRequest.isDummy = true := by
    intro r hr
    obtain ⟨p, hp, heq⟩ := List.mem_map.mp hr
    rw [← heq]
    exact hids p hp
  rw [lastRequestsRight_eq]
  cases m.own.lastReq with
  | dict d =>
    have hright := @LastReqTable.endsRight_dict _ hrequests _ (LastReqTable.dict d).entry
      m.own.repState
      (fun c => rfl : ∀ c, (LastReqTable.dict d).entry c = (LastReqTable.dict d).entry c)
    exact ⟨fun h => ⟨h.1, hright⟩, fun _ => ⟨fun h => ⟨h.1, trivial⟩, fun h => ⟨h.1, hright⟩⟩⟩
  | list l =>
    obtain ⟨hof, honly⟩ := LastReqTable.mendRule hrequests l (LastReqTable.list l).entry
      m.own.repState
    have hmended : (LastReqTable.list l).Mended (LastReqTable.list l).entry
        (rs.map Prod.fst) := fun c hne => absurd rfl hne
    exact ⟨fun h => ⟨h.1, hof hmended h.2⟩, fun hclean =>
      ⟨fun h => ⟨h.1, (honly hclean h.2).2⟩, fun h => ⟨h.1, hof hmended h.2⟩⟩⟩

/-- A new processor has executed nothing. -/
theorem clean_init (id : Fin n) (f k : Nat) (selfStab : Bool) (c : Nat) :
    ¬ ((init id f k selfStab).own.lastReq.entry c).Spoiled := by
  show ¬ ((List.replicate k LastReq.unset).getD c .missing).Spoiled
  rw [List.getD_eq_getElem?_getD, List.getElem?_replicate]
  split
  · exact not_false
  · exact not_false

/-- A processor with places for two clients. -/
def twoClients : ReplicationModule 6 := init 0 1 2 false

/-- The request that `produce_dummy_req` makes for a number. -/
def committedDummy (seqNum : Int) : Request × Finset Int :=
  ((twoClients.produceDummyReq seqNum).request, {0, 1, 2, 3, 4})

/-- A committed request of a client. -/
def committedAppend (clientId seqNum : Int) : Request × Finset Int :=
  (⟨⟨clientId, some seqNum, .append seqNum⟩, 0, seqNum⟩, {0, 1, 2, 3, 4})

/-- A request without operation that client 1's next request overwrites. -/
theorem lastReq_right_two : twoClients.LastRequestsRight
    [committedAppend 0 0, committedDummy 1, committedAppend 1 2] :=
  ((lastReq_right_iff (by decide)).2 (clean_init 0 1 2 false)).mpr (by decide)

/-- Client 1's request is replaced by one without operation. -/
theorem lastReq_overwritten : (∀ c, ¬ (twoClients.own.lastReq.entry c).Spoiled) ∧
    ¬ twoClients.LastRequestsRight [committedAppend 1 0, committedDummy 1] ∧
    ∃ m', twoClients.commitAll [committedAppend 1 0, committedDummy 1] = .ok m' ∧
      m'.own.lastReq.entry 1 = .executed (committedDummy 1).1 [0] := by
  obtain ⟨m', hok, hp⟩ := Py.exists_of_any
    (x := twoClients.commitAll [committedAppend 1 0, committedDummy 1])
    (p := fun m' => m'.own.lastReq.entry 1 = .executed (committedDummy 1).1 [0])
    (by decide)
  have hentry := of_decide_eq_true hp
  refine ⟨clean_init 0 1 2 false, ?_, m', hok, hentry⟩
  intro h
  obtain ⟨m'', hok', hright⟩ := h
  cases hok.symm.trans hok'
  have hlatest := hright 1
  rw [hentry] at hlatest
  revert hlatest
  decide

end ReplicationModule

end BFTList

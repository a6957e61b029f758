import LaneCove.Events
import LaneCove.OnePeer
import LaneCove.KeyRelease

/-!
# What a reaction does to the pending handshakes

An entry of `pending_hs` is taken when an initiation has left, and it ends by its timeout or
by the datagram that is taken for its response. Every reaction is a sequence of such changes;
the invariants of the table are proved from them.

## Main definitions

- `PendingEvent` — what happens to an entry
- `PendingStep` — one change of the table
- `Turns` — a part of the loop, as changes of the table
- `PendingTraced` — the active entries belong to initiations that were sent

## Main results

- `step_turns` — every reaction is a sequence of changes
- `pendingTraced_run` — an active entry holds what its initiation was made with
-/

namespace LaneCove

variable {Priv Key : Type}

/-- What happens to an entry of `pending_hs`. -/
inductive PendingEvent (Priv Key : Type)
  /-- an initiation was sent, and the entry taken for it -/
  | started (packet : Bytes) (p : PendingHs Priv)
  /-- the entry was given up -/
  | cancelled (p : PendingHs Priv)
  /-- `handshake_client_recv` was called for the entry, with this result -/
  | answered (p : PendingHs Priv) (packet : Bytes) (key : Option Key)

/-- The initiation of an entry that was taken. -/
def PendingEvent.initiation : PendingEvent Priv Key → Option Bytes
  | .started packet _ => some packet
  | .cancelled _ | .answered .. => none

/-- The entry and the response of a call of `handshake_client_recv`, with its result. -/
def PendingEvent.answer : PendingEvent Priv Key → Option (PendingHs Priv × Bytes × Option Key)
  | .answered p packet key => some (p, packet, key)
  | .started .. | .cancelled _ => none

/-- One change of the table of pending handshakes. -/
inductive PendingStep (C : Crypto Priv Key) (P : PeerParams Priv Key) (configs : List PeerConfig) :
    List (PendingHs Priv) → List (PendingEvent Priv Key) → List (PendingHs Priv) → Prop
  | start {pending : List (PendingHs Priv)} {slot : ℕ} {old p : PendingHs Priv} {packet : Bytes}
      (hold : pending[slot]? = some old) (hfree : old.active = false) (ha : p.active = true)
      (hsend : handshakeClientSend C P.psk P.staticPub (configPub configs p.cfgIdx)
        p.hsState.ephKey true = some (packet, p.hsState)) :
      PendingStep C P configs pending [.started packet p] (pending.set slot p)
  | cancel {pending : List (PendingHs Priv)} {j : ℕ} {p : PendingHs Priv}
      (hp : pending[j]? = some p) (ha : p.active = true) :
      PendingStep C P configs pending [.cancelled p] (pending.set j p.cancel)
  | answer {pending : List (PendingHs Priv)} {j : ℕ} {p : PendingHs Priv} {packet : Bytes}
      {key : Option Key} {hsState : HsClientState Priv Bytes Bytes}
      (hp : pending[j]? = some p) (ha : p.active = true)
      (hrecv : handshakeClientRecv C P.psk P.staticKey P.staticPub (configPub configs p.cfgIdx)
        p.hsState packet = (key, hsState)) :
      PendingStep C P configs pending [.answered p packet key]
        (pending.set j { p with active := false, hsState })

/-- From `st` to the result `r` the table of pending handshakes goes through changes that
start the initiations of `r` and end with `answers`. -/
def Turns (C : Crypto Priv Key) (P : PeerParams Priv Key) (configs : List PeerConfig)
    (st : PeerState Priv Key) (answers : List (PendingHs Priv × Bytes × Option Key))
    (r : PeerState Priv Key × List (Event Key)) : Prop :=
  ∃ log, Machine.Steps (PendingStep C P configs) st.pending log r.1.pending ∧
    log.filterMap PendingEvent.initiation = initiations r.2 ∧
    log.filterMap PendingEvent.answer = answers

/-- The call of `handshake_client_recv` a reaction makes. -/
def answerOf (C : Crypto Priv Key) (P : PeerParams Priv Key) (st : PeerState Priv Key) :
    Input Priv → Option (PendingHs Priv × Bytes × Option Key)
  | .udpRecv src packet _ _ =>
    if isHandshake P.psk packet then
      ((findPending st.pending src).bind fun j => st.pending[j]?).map fun p =>
        (p, packet, responseKey C P st p packet)
    else none
  | .tick .. | .tunRead .. => none

variable {C : Crypto Priv Key} {P : PeerParams Priv Key} {configs : List PeerConfig}
  {st : PeerState Priv Key}

/-- A part of the loop that leaves the table alone and sends no initiation. -/
theorem Turns.of_eq {r : PeerState Priv Key × List (Event Key)} (hp : r.1.pending = st.pending)
    (hi : initiations r.2 = []) : Turns C P configs st [] r :=
  ⟨[], hp ▸ .refl _, hi.symm, rfl⟩

theorem Turns.trans {r r' : PeerState Priv Key × List (Event Key)}
    {as as' : List (PendingHs Priv × Bytes × Option Key)} (h : Turns C P configs st as r)
    (h' : Turns C P configs r.1 as' r') : Turns C P configs st (as ++ as') (r'.1, r.2 ++ r'.2) := by
  obtain ⟨log, hsteps, hi, ha⟩ := h
  obtain ⟨log', hsteps', hi', ha'⟩ := h'
  refine ⟨log ++ log', hsteps.trans hsteps', ?_, ?_⟩
  · rw [List.filterMap_append, hi, hi', initiations_append]
  · rw [List.filterMap_append, ha, ha']

/-- A loop over indices, with a condition on the state that it keeps. -/
theorem Turns.run {I : PeerState Priv Key → Prop}
    {f : PeerState Priv Key → ℕ → PeerState Priv Key × List (Event Key)} (is : List ℕ)
    (hf : ∀ st, ∀ i ∈ is, I st → Turns C P configs st [] (f st i) ∧ I (f st i).1) (hst : I st) :
    Turns C P configs st [] (Machine.run f st is) := by
  induction is generalizing st with
  | nil => exact .of_eq rfl rfl
  | cons i is ih =>
    obtain ⟨hhead, hnext⟩ := hf st i (by simp) hst
    exact hhead.trans (ih (fun st j hj => hf st j (by simp [hj])) hnext)

/-- The first timer loop takes a free entry for each initiation. -/
theorem connectStep_turns (h : SetupOk configs st) (now : Time) (env : ℕ → ConnectEnv Priv)
    (i : ℕ) :
    Turns C P configs st [] (connectStep C P now env st i) := by
  unfold connectStep
  dsimp only
  split
  · generalize hst₁ : ({ st with configs := _, sessions := _ } : PeerState Priv Key) = st₁
    have hpending : st₁.pending = st.pending := by rw [← hst₁]
    have hsetup : SetupOk configs st₁ := by
      rw [← hst₁]
      exact h.modify rfl rfl fun _ => rfl
    rcases initiateOutboundHandshake_cases C P st₁ i (env i) with
      hinit | ⟨slot, packet, hsState, hslot, hsend, hinit⟩
    · rw [hinit]
      exact .of_eq hpending rfl
    · obtain ⟨hlt, hfree, -⟩ := List.findIdx?_eq_some_iff_getElem.mp hslot
      rw [hsetup.config_pub] at hsend
      rw [hinit]
      let p : PendingHs Priv := {
        active := true, cfgIdx := i, sentAt := (env i).sentClk, hsState
        serverAddr := (st₁.config i).endpoint }
      refine ⟨[.started packet p], .single ?_, rfl, rfl⟩
      rw [← hpending]
      exact .start (List.getElem?_eq_getElem hlt) (by simpa using hfree) rfl
        (handshakeClientSend_again hsend)
  · exact .of_eq rfl rfl

/-- The second timer loop gives entries up. -/
theorem expirePendingStep_turns (now : Time) (j : ℕ) :
    Turns C P configs st [] (expirePendingStep P now st j) := by
  unfold expirePendingStep
  split
  · exact .of_eq rfl rfl
  · next p hp =>
    split
    · exact .of_eq rfl rfl
    · next hcond =>
      simp only [Bool.or_eq_true, Bool.not_eq_true', not_or, Bool.not_eq_false] at hcond
      exact ⟨[.cancelled p], .single (.cancel hp hcond.1), rfl, rfl⟩

theorem initiations_eq_nil {es : List (Event Key)} (h : ∀ e ∈ es, e.initiation = none) :
    initiations es = [] := List.filterMap_eq_nil_iff.mpr h

theorem expireSessionStep_turns (now : Time) (j : ℕ) :
    Turns C P configs st [] (expireSessionStep P now st j) := by
  unfold expireSessionStep
  split
  · exact .of_eq rfl rfl
  · split <;> exact .of_eq rfl rfl

theorem forwardOn_turns (j : ℕ) (payload : Bytes) (env : SendEnv) :
    Turns C P configs st [] (forwardOn C st j payload env) := by
  refine .of_eq (forwardOn_pending C st j payload env) (initiations_eq_nil fun e he => ?_)
  obtain ⟨_, _, rfl, -⟩ := mem_forwardOn he
  rfl

theorem keepaliveStep_turns (now : Time) (env : ℕ → SendEnv) (j : ℕ) :
    Turns C P configs st [] (keepaliveStep C P now env st j) := by
  unfold keepaliveStep
  split
  · exact .of_eq rfl rfl
  · split
    · exact .of_eq rfl rfl
    · exact forwardOn_turns j [] (env j)

theorem timers_turns (h : SetupOk configs st) (now : Time) (connect : ℕ → ConnectEnv Priv)
    (keepalive : ℕ → SendEnv) :
    Turns C P configs st [] (timers C P now connect keepalive st) := by
  have h1 := Turns.run (C := C) (P := P) (I := SetupOk configs)
    (f := connectStep C P now connect) (List.range st.configs.length)
    (fun st' i hi hst' => ⟨connectStep_turns hst' now connect i,
      hst'.connectStep C P now connect (by
        rw [← h.length_eq]
        exact List.mem_range.mp hi)⟩) h
  unfold timers
  dsimp only
  generalize Machine.run (connectStep C P now connect) st _ = r1 at h1 ⊢
  have h2 := h1.trans (Turns.run (I := fun _ => True) (List.range maxPeers)
    (fun _ j _ _ => ⟨expirePendingStep_turns now j, trivial⟩) trivial)
  generalize Machine.run (expirePendingStep P now) r1.1 _ = r2 at h2 ⊢
  have h3 := h2.trans (Turns.run (I := fun _ => True) (List.range r2.1.sessions.length)
    (fun _ j _ _ => ⟨expireSessionStep_turns now j, trivial⟩) trivial)
  generalize Machine.run (expireSessionStep P now) r2.1 _ = r3 at h3 ⊢
  exact h3.trans (Turns.run (I := fun _ => True) (List.range r3.1.sessions.length)
    (fun _ j _ _ => ⟨keepaliveStep_turns now keepalive j, trivial⟩) trivial)

variable [Inhabited Key]

/-- **Every reaction** is a sequence of changes of the table: it takes an entry for each
initiation it sends, and ends one with the datagram that is taken for a response. -/
theorem step_turns (h : SetupOk configs st) (inp : Input Priv) :
    Turns C P configs st (answerOf C P st inp).toList (step C P st inp) := by
  cases inp with
  | tick now connect keepalive =>
    simp only [step, tick]
    split
    · exact .of_eq rfl rfl
    · have hclock : SetupOk configs { st with lastRekeyCheck := now } := h.congr rfl rfl
      obtain ⟨log, hlog⟩ := timers_turns (C := C) (P := P) hclock now connect keepalive
      exact ⟨log, hlog⟩
  | tunRead buffer env =>
    refine .of_eq (tunRead_pending C st buffer env) (initiations_eq_nil fun e he => ?_)
    cases e with
    | sentInit dst packet =>
      obtain ⟨_, _, _, hinp⟩ := sentInit_cause (P := P) he
      exact absurd hinp (by simp)
    | _ => rfl
  | udpRecv src packet now env =>
    have hinits : initiations (step C P st (.udpRecv src packet now env)).2 = [] := by
      refine initiations_eq_nil fun e he => ?_
      cases e with
      | sentInit dst packet =>
        obtain ⟨_, _, _, hinp⟩ := sentInit_cause he
        exact absurd hinp (by simp)
      | _ => rfl
    by_cases hhs : isHandshake P.psk packet = true
    · cases hfind : findPending st.pending src with
      | none =>
        rw [answerOf, if_pos hhs, hfind]
        refine .of_eq ?_ hinits
        simp only [step, udpRecv, hhs, if_true, hfind]
        exact recvInit_pending C P st hfind packet now env
      | some j =>
        obtain ⟨p, hp, ha, -⟩ := findPending_eq_some hfind
        have hans : answerOf C P st (.udpRecv src packet now env) =
            some (p, packet, responseKey C P st p packet) := by
          simp [answerOf, hhs, hfind, hp]
        rw [hans]
        refine ⟨[.answered p packet (responseKey C P st p packet)], .single ?_, hinits.symm, rfl⟩
        simp only [step, udpRecv, hhs, if_true, hfind]
        rw [recvResponse_set C P hp, responseKey, h.config_pub]
        exact .answer hp ha rfl
    · rw [answerOf, if_neg hhs]
      refine .of_eq ?_ hinits
      simp only [step, udpRecv, if_neg hhs]
      split
      · rfl
      · split
        · rfl
        · exact recvData_pending C st _ _ packet now env

-- ════════════════════════════════════════════════════════════════════════
-- What an entry holds
-- ════════════════════════════════════════════════════════════════════════

omit [Inhabited Key] in
/-- Every active entry belongs to one of the initiations, and holds what this was made with. -/
def PendingTraced (C : Crypto Priv Key) (P : PeerParams Priv Key) (configs : List PeerConfig)
    (pending : List (PendingHs Priv)) (inits : List Bytes) : Prop :=
  ∀ (j : ℕ) (p : PendingHs Priv), pending[j]? = some p → p.active = true →
    ∃ init ∈ inits, handshakeClientSend C P.psk P.staticPub (configPub configs p.cfgIdx)
      p.hsState.ephKey true = some (init, p.hsState)

omit [Inhabited Key] in
theorem PendingTraced.initial (configs configs' : List PeerConfig) (eph : Option Priv) :
    PendingTraced C P configs (PeerState.initial configs' eph : PeerState Priv Key).pending [] := by
  intro j p hp ha
  obtain rfl := List.eq_of_mem_replicate (List.mem_of_getElem? hp)
  exact absurd ha (by simp [PendingHs.zero])

omit [Inhabited Key] in
theorem PendingTraced.mono {pending : List (PendingHs Priv)} {inits inits' : List Bytes}
    (h : PendingTraced C P configs pending inits) (hsub : inits ⊆ inits') :
    PendingTraced C P configs pending inits' := by
  intro j p hp ha
  obtain ⟨init, hinit, hsend⟩ := h j p hp ha
  exact ⟨init, hsub hinit, hsend⟩

omit [Inhabited Key] in
theorem PendingStep.traced {pending pending' : List (PendingHs Priv)}
    {log : List (PendingEvent Priv Key)} (h : PendingStep C P configs pending log pending')
    {inits : List Bytes} (ht : PendingTraced C P configs pending inits) :
    PendingTraced C P configs pending' (inits ++ log.filterMap PendingEvent.initiation) := by
  have hold := ht.mono (List.subset_append_left inits (log.filterMap PendingEvent.initiation))
  intro j p hp ha
  cases h with
  | start hfree _ _ hsend =>
    rcases (SlotTable.updated_set hfree _).cases hp with ⟨-, rfl⟩ | ⟨-, hp⟩
    · exact ⟨_, by simp [PendingEvent.initiation], hsend⟩
    · exact hold j p hp ha
  | cancel hq _ =>
    rcases (SlotTable.updated_set hq _).cases hp with ⟨-, rfl⟩ | ⟨-, hp⟩
    · exact absurd ha (by simp [PendingHs.cancel])
    · exact hold j p hp ha
  | answer hq _ _ =>
    rcases (SlotTable.updated_set hq _).cases hp with ⟨-, rfl⟩ | ⟨-, hp⟩
    · exact absurd ha (by simp)
    · exact hold j p hp ha

/-- **Step**: every reaction reports the initiations of the entries it takes. -/
theorem PendingTraced.step {tr : List (Event Key)}
    (ht : PendingTraced C P configs st.pending (initiations tr)) (h : SetupOk configs st)
    (inp : Input Priv) : PendingTraced C P configs (LaneCove.step C P st inp).1.pending
      (initiations (tr ++ (LaneCove.step C P st inp).2)) := by
  obtain ⟨log, hsteps, hinits, -⟩ := step_turns (C := C) (P := P) h inp
  rw [initiations_append, ← hinits]
  refine hsteps.invariant_nil (I := fun pending log => PendingTraced C P configs pending
    (initiations tr ++ log.filterMap PendingEvent.initiation)) (fun log h hstep => ?_)
    (by simpa using ht)
  rw [List.filterMap_append, ← List.append_assoc]
  exact hstep.traced h

/-- **Run**: the initiation of every pending handshake was sent, and the entry holds the state
that `handshake_client_send` has returned with it. -/
theorem pendingTraced_run (C : Crypto Priv Key) (P : PeerParams Priv Key)
    (configs : List PeerConfig) (eph : Option Priv) (is : List (Input Priv)) :
    let r := Machine.run (LaneCove.step C P) (PeerState.initial configs eph) is
    PendingTraced C P configs r.1.pending (initiations r.2) := by
  have hrun := Machine.run_invariant (I := fun (st : PeerState Priv Key) tr =>
      SetupOk configs st ∧ PendingTraced C P configs st.pending (initiations tr))
    (fun st tr inp h => ⟨h.1.step C P inp, h.2.step h.1 inp⟩)
    ⟨.initial configs eph, .initial configs configs eph⟩ is
  exact hrun.2

end LaneCove

import LaneCove.SessionTrace

/-!
# What a reaction reports

Which events the parts of the loop cause, and where the payloads of data packets come from.

## Main definitions

- `Event.FromTimers`, `Event.FromHandshake` — the events of the timers and of handshake packets

## Main results

- `sentData_cause` — a data packet is a keepalive, or carries what was just read or accepted
- `sentInit_cause` — only the timers send initiations
-/

namespace LaneCove

variable {Priv Key : Type} {C : Crypto Priv Key} {P : PeerParams Priv Key}
  {st : PeerState Priv Key} {s : PeerSession Key} {payload packet : Bytes}

theorem mem_forwardOn {j : ℕ} {payload' : Bytes} {env : SendEnv} {e : Event Key}
    (he : e ∈ (forwardOn C st j payload' env).2) :
    ∃ s packet, e = .sentData s payload' packet ∧ st.sessions[j]? = some s := by
  unfold forwardOn at he
  split at he
  · exact absurd he (by simp)
  · next s hs =>
    obtain ⟨packet, -, rfl⟩ := mem_sendEvents.mp he
    exact ⟨s, packet, rfl, hs⟩

/-- What the timers may report: initiations and keepalives. -/
def Event.FromTimers : Event Key → Prop
  | .sentInit .. => True
  | .sentData _ payload _ => payload = []
  | .sentResponse .. | .negotiated .. | .installed .. | .accepted .. | .delivered .. => False

theorem tick_fromTimers (now : Time) (connect : ℕ → ConnectEnv Priv) (keepalive : ℕ → SendEnv) :
    ∀ e ∈ (tick C P st now connect keepalive).2, e.FromTimers := by
  intro e he
  unfold tick at he
  split at he
  · exact absurd he (by simp)
  · obtain ⟨st', hes⟩ := timers_events C P now connect keepalive { st with lastRekeyCheck := now }
    rw [hes] at he
    rcases List.mem_append.mp he with he | he
    · refine Machine.forall_mem_run (p := Event.FromTimers) (fun st i e he => ?_) _ _ e he
      unfold connectStep at he
      dsimp only at he
      split at he
      · split at he
        · exact absurd he (by simp)
        · obtain rfl := List.mem_singleton.mp he
          trivial
      · exact absurd he (by simp)
    · refine Machine.forall_mem_run (p := Event.FromTimers) (fun st j e he => ?_) _ _ e he
      obtain ⟨s, packet, rfl, -⟩ := mem_forwardOn (mem_keepaliveStep he)
      rfl

/-- The data path accepts the datagram, hands its payload on, and relays what it hands to
another session. -/
theorem mem_recvData {j : ℕ} {s' : PeerSession Key} {now : Time} {env : RecvEnv Priv}
    {e : Event Key} (he : e ∈ (recvData C st j s' packet now env).2) :
    (∃ key usedPrevKey seq payload, e = .accepted j key usedPrevKey packet seq payload) ∨
    (∃ usedPrevKey payload relay, e = .delivered packet usedPrevKey payload relay) ∨
    ∃ usedPrevKey payload fwd s packet', e = .sentData s payload packet' ∧
      .delivered packet usedPrevKey payload (some fwd) ∈ (recvData C st j s' packet now env).2 := by
  unfold recvData at he ⊢
  split at he
  · exact absurd he (by simp)
  · next key usedPrevKey seq payload recv hopen =>
    dsimp only
    rcases List.mem_append.mp he with he | he
    · rcases List.mem_cons.mp he with rfl | he
      · exact Or.inl ⟨key, usedPrevKey, seq, payload, rfl⟩
      · obtain ⟨relay, -, rfl⟩ := mem_handOn.mp he
        exact Or.inr (Or.inl ⟨usedPrevKey, payload, relay, rfl⟩)
    · generalize nextHop _ j _ payload = hop at he ⊢
      unfold relayTo at he
      split at he
      · next fwd =>
        obtain ⟨s, packet', rfl, -⟩ := mem_forwardOn he
        exact Or.inr (Or.inr ⟨usedPrevKey, payload, fwd, s, packet', rfl, by simp [handOn]⟩)
      · exact absurd he (by simp)
      · exact absurd he (by simp)

variable [Inhabited Key]

/-- What the handlers of handshake packets may report. -/
def Event.FromHandshake : Event Key → Prop
  | .sentResponse .. | .negotiated .. | .installed .. => True
  | .sentInit .. | .sentData .. | .accepted .. | .delivered .. => False

theorem install_fromHandshake (c : Commit Key) : ∀ e ∈ (install P st c).2, e.FromHandshake := by
  intro e he
  rw [install_events] at he
  obtain ⟨_, -, rfl⟩ := mem_installEvents.mp he
  trivial

theorem recvResponse_fromHandshake (j : ℕ) (src : SockAddr) (env : RecvEnv Priv) :
    ∀ e ∈ (recvResponse C P st j src packet env).2, e.FromHandshake := by
  intro e he
  unfold recvResponse at he
  split at he
  · exact absurd he (by simp)
  · dsimp only at he
    split at he
    · exact absurd he (by simp)
    · rcases List.mem_cons.mp he with rfl | he
      · trivial
      · exact install_fromHandshake _ e he

theorem recvInit_fromHandshake (src : SockAddr) (now : Time) (env : RecvEnv Priv) :
    ∀ e ∈ (recvInit C P st src packet now env).2, e.FromHandshake := by
  have hresp : ∀ reply, ∀ e ∈ (responseEvents src packet reply : List (Event Key)),
      e.FromHandshake := by
    intro reply e he
    cases reply with
    | none => exact absurd he (by simp [responseEvents])
    | some resp =>
      obtain rfl := List.mem_singleton.mp he
      trivial
  intro e he
  unfold recvInit at he
  split at he
  · exact absurd he (by simp)
  · dsimp only at he
    split at he
    · exact absurd he (by simp)
    · split at he
      · exact hresp _ e he
      · rcases List.mem_append.mp he with he | he
        · exact hresp _ e he
        · rcases List.mem_cons.mp he with rfl | he
          · trivial
          · unfold commitInbound at he
            split at he
            · exact absurd he (by simp)
            · split at he
              · exact absurd he (by simp)
              · exact install_fromHandshake _ e he

/-- Why `forward_to_peer` is called: for a keepalive, for a packet just read from the TUN
device, or for a payload that was just accepted and goes to another session. -/
theorem sentData_cause {inp : Input Priv} (he : .sentData s payload packet ∈ (step C P st inp).2) :
    payload = [] ∨ (∃ env, inp = .tunRead payload env) ∨
    ∃ packet' usedPrevKey fwd,
      .delivered packet' usedPrevKey payload (some fwd) ∈ (step C P st inp).2 := by
  cases inp with
  | tick now connect keepalive => exact Or.inl (tick_fromTimers now connect keepalive _ he)
  | tunRead buffer env =>
    refine Or.inr (Or.inl ?_)
    simp only [step, tunRead] at he
    split at he
    · split at he
      · exact absurd he (by simp)
      · obtain ⟨_, _, heq, -⟩ := mem_forwardOn he
        obtain ⟨-, rfl, -⟩ := Event.sentData.inj heq
        exact ⟨env, rfl⟩
    · exact absurd he (by simp)
  | udpRecv src packet' now env =>
    simp only [step, udpRecv] at he ⊢
    split at he
    · split at he
      · exact (recvResponse_fromHandshake _ src env _ he).elim
      · exact (recvInit_fromHandshake src now env _ he).elim
    · next hhs =>
      rw [if_neg hhs]
      split at he
      · exact absurd he (by simp)
      · split at he
        · exact absurd he (by simp)
        · rcases mem_recvData he with ⟨_, _, _, _, heq⟩ | ⟨_, _, _, heq⟩ |
            ⟨usedPrevKey, _, fwd, _, _, heq, hdel⟩
          · exact absurd heq (by simp)
          · exact absurd heq (by simp)
          · obtain ⟨-, rfl, -⟩ := Event.sentData.inj heq
            exact Or.inr (Or.inr ⟨packet', usedPrevKey, fwd, hdel⟩)

/-- Initiations are sent by the timers. -/
theorem sentInit_cause {inp : Input Priv} {dst : SockAddr}
    (he : .sentInit dst packet ∈ (step C P st inp).2) :
    ∃ now connect keepalive, inp = .tick now connect keepalive := by
  cases inp with
  | tick now connect keepalive => exact ⟨now, connect, keepalive, rfl⟩
  | tunRead buffer env =>
    simp only [step, tunRead] at he
    split at he
    · split at he
      · exact absurd he (by simp)
      · obtain ⟨_, _, heq, -⟩ := mem_forwardOn he
        exact absurd heq (by simp)
    · exact absurd he (by simp)
  | udpRecv src packet' now env =>
    simp only [step, udpRecv] at he
    split at he
    · split at he
      · exact (recvResponse_fromHandshake _ src env _ he).elim
      · exact (recvInit_fromHandshake src now env _ he).elim
    · split at he
      · exact absurd he (by simp)
      · split at he
        · exact absurd he (by simp)
        · rcases mem_recvData he with ⟨_, _, _, _, heq⟩ | ⟨_, _, _, heq⟩ | ⟨_, _, _, _, _, heq, -⟩ <;>
            exact absurd heq (by simp)

end LaneCove

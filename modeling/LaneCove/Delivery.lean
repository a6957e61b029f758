import LaneCove.Genuine
import LaneCove.Sample
import Mathlib.Data.List.Nodup

/-!
# How often a datagram is delivered

The replay window of a session is reset with every key. A trace is accounted for
by the keys it installed and, for each key, the sequence numbers accepted while
that key was current. As long as installed keys are pairwise distinct, the window
of a session represents the numbers accepted under its key, and no number is
accepted twice. Packets under the previous key are not checked.

## Main definitions

- `installedKeys`, `currentSeqs`, `deliveries` — what a trace says
- `Accounted` — the session table agrees with the trace

## Main results

- `Accounted.step` — every reaction with a new key keeps the table accounted for
- `delivered_at_most_once` — at most one delivery under the session key, and any
  other one under the previous key within its grace period
-/

namespace LaneCove

variable {Priv Key : Type}

/-- The key of an install. -/
def Event.installedKey : Event Key → Option Key
  | .installed _ _ _ key _ _ => some key
  | _ => none

/-- The sequence number of a packet accepted under `key` as the current key. -/
def Event.currentSeq [DecidableEq Key] (key : Key) : Event Key → Option (BitVec 64)
  | .accepted _ key' false _ seq _ => if key' = key then some seq else none
  | _ => none

/-- Is this a delivery of the packet, decrypted with the session key? -/
def Event.isDelivery (packet : Bytes) : Event Key → Bool
  | .delivered packet' false _ _ => packet' = packet
  | _ => false

/-- The keys a trace installed. -/
def installedKeys (tr : List (Event Key)) : List Key := tr.filterMap Event.installedKey

/-- The sequence numbers accepted under `key` as the current key, latest first. -/
def currentSeqs [DecidableEq Key] (key : Key) (tr : List (Event Key)) : List (BitVec 64) :=
  (tr.filterMap (Event.currentSeq key)).reverse

/-- How often a packet was delivered after decryption with the session key. -/
def deliveries (packet : Bytes) (tr : List (Event Key)) : ℕ := tr.countP (Event.isDelivery packet)

@[simp] theorem installedKeys_append (tr es : List (Event Key)) :
    installedKeys (tr ++ es) = installedKeys tr ++ installedKeys es := List.filterMap_append

@[simp] theorem currentSeqs_append [DecidableEq Key] (key : Key) (tr es : List (Event Key)) :
    currentSeqs key (tr ++ es) = currentSeqs key es ++ currentSeqs key tr := by
  simp [currentSeqs]

@[simp] theorem deliveries_append (packet : Bytes) (tr es : List (Event Key)) :
    deliveries packet (tr ++ es) = deliveries packet tr + deliveries packet es := List.countP_append

variable {C : Crypto Priv Key} {rx : Option (Bytes × Time)} {ss ss' : List (PeerSession Key)}
  {es tr : List (Event Key)}

/-- Quiet events say nothing about installs, windows or deliveries. -/
theorem installedKeys_quiet (h : ∀ e ∈ es, e.isQuiet = true) : installedKeys es = [] := by
  refine List.filterMap_eq_nil_iff.mpr fun e he => ?_
  have := h e he
  cases e <;> simp_all [Event.isQuiet, Event.installedKey]

theorem currentSeqs_quiet [DecidableEq Key] (key : Key) (h : ∀ e ∈ es, e.isQuiet = true) :
    currentSeqs key es = [] := by
  rw [currentSeqs, List.reverse_eq_nil_iff]
  refine List.filterMap_eq_nil_iff.mpr fun e he => ?_
  have := h e he
  cases e <;> simp_all [Event.isQuiet, Event.currentSeq]

theorem currentSeqs_handOn [DecidableEq Key] (key : Key) (packet : Bytes) (usedPrevKey : Bool)
    (payload : Bytes) (hop : Option (Option ℕ)) :
    currentSeqs key (handOn packet usedPrevKey payload hop) = [] := by
  cases hop <;> rfl

@[simp] theorem forwardToPeer_recvSeq (C : Crypto Priv Key) (s : PeerSession Key) (payload : Bytes)
    (env : SendEnv) : (forwardToPeer C s payload env).1.recvSeq = s.recvSeq := by
  unfold forwardToPeer
  split
  · rfl
  · split <;> rfl

theorem SlotStep.installedKeys {i : ℕ} {s s' : PeerSession Key} (h : SlotStep C rx i s es s') :
    installedKeys es = [] := by
  refine List.filterMap_eq_nil_iff.mpr fun e he => ?_
  have hinst := h.isInstall he
  cases e with
  | installed => exact absurd hinst (by simp [Event.isInstall])
  | _ => rfl

/-- An update of a session leaves its window alone, or is the acceptance of one
packet under its current key. -/
theorem SlotStep.window [DecidableEq Key] {i : ℕ} {s s' : PeerSession Key}
    (h : SlotStep C rx i s es s') :
    (s'.recvSeq = s.recvSeq ∧ ∀ key, currentSeqs key es = []) ∨
    (s.active = true ∧ ∃ seq, checkReplay seq s.recvSeq = (0, s'.recvSeq) ∧
      ∀ key, currentSeqs key es = if s.sessionKey = key then [seq] else []) := by
  cases h with
  | rekeying flag => exact Or.inl ⟨rfl, fun _ => rfl⟩
  | expire => exact Or.inl ⟨rfl, fun _ => rfl⟩
  | send payload env =>
    refine Or.inl ⟨by simp, fun key => ?_⟩
    unfold sendEvents
    split <;> rfl
  | reject _ _ => exact Or.inl ⟨rfl, fun _ => rfl⟩
  | @acceptCur ha packet _ payload seq _ _ _ _ _ hr hop _ =>
    refine Or.inr ⟨ha, seq, hr, fun key => ?_⟩
    have hsplit := currentSeqs_append key [.accepted i s.sessionKey false packet seq payload]
      (handOn packet false payload hop)
    rw [List.singleton_append, currentSeqs_handOn, List.nil_append] at hsplit
    rw [hsplit]
    by_cases hk : s.sessionKey = key <;> simp [currentSeqs, Event.currentSeq, hk]
  | @acceptPrev _ packet _ payload seq _ _ _ _ _ _ _ hop _ =>
    refine Or.inl ⟨rfl, fun key => ?_⟩
    have hsplit := currentSeqs_append key [.accepted i s.prevSessionKey true packet seq payload]
      (handOn packet true payload hop)
    rw [List.singleton_append, currentSeqs_handOn, List.nil_append] at hsplit
    rw [hsplit]
    rfl

/-- The session table agrees with the trace: the current keys of active sessions
are different installed keys, and each window represents the numbers accepted
under the key. -/
structure Accounted [DecidableEq Key] (ss : List (PeerSession Key)) (tr : List (Event Key)) :
    Prop where
  installed : ∀ (i : ℕ) (s : PeerSession Key), ss[i]? = some s → s.active = true →
    s.sessionKey ∈ installedKeys tr
  distinct : SlotTable.Unique PeerSession.active PeerSession.sessionKey ss
  window : ∀ (i : ℕ) (s : PeerSession Key), ss[i]? = some s → s.active = true →
    s.recvSeq.Represents (currentSeqs s.sessionKey tr)
  known : ∀ key, currentSeqs key tr ≠ [] → key ∈ installedKeys tr
  nodup : ∀ key, (currentSeqs key tr).Nodup

variable [DecidableEq Key]

theorem Accounted.initial (configs : List PeerConfig) (eph : Option Priv) :
    Accounted (PeerState.initial configs eph : PeerState Priv Key).sessions [] where
  installed i s hs := by simp [PeerState.initial] at hs
  distinct i j a b ha := by simp [PeerState.initial] at ha
  window i s hs := by simp [PeerState.initial] at hs
  known key h := absurd rfl h
  nodup key := List.nodup_nil

/-- Only the installs and acceptances of a trace matter. -/
theorem Accounted.append (h : Accounted ss tr) (hinst : installedKeys es = [])
    (hseqs : ∀ key, currentSeqs key es = []) : Accounted ss (tr ++ es) := by
  have hinst' : installedKeys (tr ++ es) = installedKeys tr := by
    rw [installedKeys_append, hinst, List.append_nil]
  have hseqs' : ∀ key, currentSeqs key (tr ++ es) = currentSeqs key tr := fun key => by
    rw [currentSeqs_append, hseqs, List.nil_append]
  refine ⟨?_, h.distinct, ?_, ?_, ?_⟩
  · simpa only [hinst'] using h.installed
  · simpa only [hseqs'] using h.window
  · simpa only [hinst', hseqs'] using h.known
  · simpa only [hseqs'] using h.nodup

/-- An update of a session that leaves its window alone. -/
theorem Accounted.set {i : ℕ} {s s' : PeerSession Key} (h : Accounted ss tr)
    (hs : ss[i]? = some s) (hf : s.Follows s') (hrecv : s'.recvSeq = s.recvSeq) :
    Accounted (ss.set i s') tr := by
  have hupd := SlotTable.updated_set hs s'
  refine ⟨fun j b hb ha => ?_, ?_, fun j b hb ha => ?_, h.known, h.nodup⟩
  · rcases hupd.cases hb with ⟨rfl, rfl⟩ | ⟨-, hb⟩
    · rw [hf.sessionKey]
      exact h.installed j s hs (hf.active ha)
    · exact h.installed j b hb ha
  · refine h.distinct.update hupd fun ha j b hj hb hact hk => ?_
    rw [hf.sessionKey] at hk
    exact hj (h.distinct j i b s hb hs hact (hf.active ha) hk)
  · rcases hupd.cases hb with ⟨rfl, rfl⟩ | ⟨-, hb⟩
    · rw [hrecv, hf.sessionKey]
      exact h.window j s hs (hf.active ha)
    · exact h.window j b hb ha

/-- An update that accepts a packet under the current key of its session. -/
theorem Accounted.read {i : ℕ} {s s' : PeerSession Key} {seq : BitVec 64} (h : Accounted ss tr)
    (hs : ss[i]? = some s) (hf : s.Follows s') (ha : s.active = true)
    (hcheck : checkReplay seq s.recvSeq = (0, s'.recvSeq)) (hinst : installedKeys es = [])
    (hseqs : ∀ key, currentSeqs key es = if s.sessionKey = key then [seq] else []) :
    Accounted (ss.set i s') (tr ++ es) := by
  have hupd := SlotTable.updated_set hs s'
  -- the window of this session tells that the number is new under its key
  have hnew : seq ∉ currentSeqs s.sessionKey tr ∧
      s'.recvSeq.Represents (seq :: currentSeqs s.sessionKey tr) := by
    rcases (h.window i s hs ha).checkReplay seq with ⟨-, hnew, -, hrep⟩ | ⟨hret, -⟩
    · rw [hcheck] at hrep
      exact ⟨hnew, hrep⟩
    · rw [hcheck] at hret
      exact absurd (congrArg Prod.fst hret) (by simp)
  refine ⟨fun j b hb hact => ?_, ?_, fun j b hb hact => ?_, fun key hne => ?_, fun key => ?_⟩
  · rw [installedKeys_append, hinst, List.append_nil]
    rcases hupd.cases hb with ⟨rfl, rfl⟩ | ⟨-, hb⟩
    · rw [hf.sessionKey]
      exact h.installed j s hs ha
    · exact h.installed j b hb hact
  · refine h.distinct.update hupd fun _ j b hj hb hact hk => ?_
    rw [hf.sessionKey] at hk
    exact hj (h.distinct j i b s hb hs hact ha hk)
  · rw [currentSeqs_append, hseqs]
    rcases hupd.cases hb with ⟨rfl, rfl⟩ | ⟨hj, hb⟩
    · rw [hf.sessionKey, if_pos rfl, List.singleton_append]
      exact hnew.2
    · rw [if_neg fun hk => hj (h.distinct j i b s hb hs hact ha hk.symm), List.nil_append]
      exact h.window j b hb hact
  · rw [installedKeys_append, hinst, List.append_nil]
    by_cases hk : s.sessionKey = key
    · exact hk ▸ h.installed i s hs ha
    · rw [currentSeqs_append, hseqs, if_neg hk, List.nil_append] at hne
      exact h.known key hne
  · rw [currentSeqs_append, hseqs]
    by_cases hk : s.sessionKey = key
    · subst hk
      rw [if_pos rfl, List.singleton_append]
      exact List.nodup_cons.mpr ⟨hnew.1, h.nodup _⟩
    · rw [if_neg hk, List.nil_append]
      exact h.nodup key

theorem Accounted.touches (h : Accounted ss tr) (ht : Touches C rx ss es ss') :
    Accounted ss' (tr ++ es) := by
  refine ht.invariant (fun tr h hstep => ?_) h
  cases hstep with
  | @quiet e hq =>
    have hquiet : ∀ e' ∈ [e], e'.isQuiet = true := fun e' he => List.mem_singleton.mp he ▸ hq
    exact h.append (installedKeys_quiet hquiet) fun key => currentSeqs_quiet key hquiet
  | slot hs hslot =>
    rcases hslot.window with ⟨hrecv, hseqs⟩ | ⟨ha, seq, hcheck, hseqs⟩
    · exact (h.set hs hslot.follows hrecv).append hslot.installedKeys hseqs
    · exact h.read hs hslot.follows ha hcheck hslot.installedKeys hseqs

variable [Inhabited Key]

/-- An install of a key that is new in the trace. -/
theorem Accounted.install (h : Accounted ss tr) (settings : Settings) (c : Commit Key)
    (hseqs : ∀ key, currentSeqs key es = [])
    (hinst : installedKeys es = ((allocSession ss c.pub c.src).map fun _ => c.key).toList)
    (hfresh : (installedKeys (tr ++ es)).Nodup) :
    Accounted (installTable settings c ss) (tr ++ es) := by
  have hseqs' : ∀ key, currentSeqs key (tr ++ es) = currentSeqs key tr := fun key => by
    rw [currentSeqs_append, hseqs, List.nil_append]
  rcases installTable_cases settings c ss with ⟨hfull, he⟩ | ⟨slot, s, hslot, -, hupd⟩
  · rw [he]
    rw [hfull] at hinst
    exact h.append hinst hseqs
  · obtain ⟨r, hr, -⟩ := Option.map_eq_some_iff.mp hslot
    rw [hr] at hinst
    have hkeys : installedKeys (tr ++ es) = installedKeys tr ++ [c.key] := by
      rw [installedKeys_append, hinst]
      rfl
    have hnew : c.key ∉ installedKeys tr := by
      rw [hkeys] at hfresh
      exact fun hmem => (List.nodup_append.mp hfresh).2.2 _ hmem _ (by simp) rfl
    refine ⟨fun j b hb ha => ?_, ?_, fun j b hb ha => ?_, fun key hne => ?_, fun key => ?_⟩
    · rw [hkeys]
      rcases hupd.cases hb with ⟨rfl, rfl⟩ | ⟨-, hb⟩
      · exact List.mem_append_right _ (List.mem_singleton.mpr rfl)
      · exact List.mem_append_left _ (h.installed j b hb ha)
    · refine h.distinct.update hupd fun _ j b hj hb hact hk => ?_
      have hold := h.installed j b hb hact
      rw [hk] at hold
      exact hnew hold
    · rw [hseqs']
      rcases hupd.cases hb with ⟨rfl, rfl⟩ | ⟨-, hb⟩
      · have hnone : currentSeqs c.key tr = [] := by
          by_contra hne
          exact hnew (h.known c.key hne)
        show ReplayState.zero.Represents (currentSeqs c.key tr)
        rw [hnone]
        exact represents_zero
      · exact h.window j b hb ha
    · rw [hseqs'] at hne
      rw [hkeys]
      exact List.mem_append_left _ (h.known key hne)
    · rw [hseqs']
      exact h.nodup key

/-- Every reaction that installs no key twice keeps the table accounted for. -/
theorem Accounted.step {P : PeerParams Priv Key} {st : PeerState Priv Key}
    (h : Accounted st.sessions tr) (inp : Input Priv)
    (hfresh : (installedKeys (tr ++ (step C P st inp).2)).Nodup) :
    Accounted (step C P st inp).1.sessions (tr ++ (step C P st inp).2) := by
  rcases step_cases C P st inp with ⟨-, ht⟩ | ⟨c, pre, -, hpre, hss, hes⟩
  · exact h.touches ht
  · have hquiet : ∀ e ∈ pre ++ [.negotiated c.pub c.key], e.isQuiet = true := by
      simp only [List.mem_append, List.mem_singleton]
      rintro e (he | rfl)
      · exact hpre e he
      · rfl
    have hes' : (LaneCove.step C P st inp).2 =
        (pre ++ [.negotiated c.pub c.key]) ++ installEvents c st.sessions := by
      rw [hes, List.append_assoc]
      rfl
    rw [hes'] at hfresh ⊢
    rw [hss]
    refine h.install P.settings c (fun key => ?_) ?_ hfresh
    · rw [currentSeqs_append, currentSeqs_quiet key hquiet, List.append_nil]
      unfold installEvents
      split <;> rfl
    · rw [installedKeys_append, installedKeys_quiet hquiet, List.nil_append]
      unfold installEvents
      cases allocSession st.sessions c.pub c.src <;> rfl

omit [Inhabited Key] in
/-- Every delivery of a packet under the session key goes with one acceptance of
its sequence number. -/
theorem SlotStep.deliveries_le (hC : C.GcmCorrect) {keys : List Key} {key : Key}
    {packet : Bytes} (hK : OpensOnly C keys key packet) {iv : Option Iv} {seq : BitVec 64}
    {payload : Bytes} (henc : encryptPacket C key iv (frame seq payload) = some packet) {i : ℕ}
    {s s' : PeerSession Key} (h : SlotStep C rx i s es s') (hmem : s.sessionKey ∈ keys) :
    deliveries packet es ≤ (currentSeqs key es).count seq := by
  cases h with
  | rekeying flag => exact Nat.zero_le _
  | expire => exact Nat.zero_le _
  | send payload' env =>
    refine (List.countP_eq_zero.mpr fun e he => ?_).le.trans (Nat.zero_le _)
    obtain ⟨_, -, rfl⟩ := mem_sendEvents.mp he
    simp [Event.isDelivery]
  | reject _ _ => exact Nat.zero_le _
  | @acceptCur _ packet' plain payload' seq' _ _ _ hd hu _ hop _ =>
    have hone : deliveries packet (handOn packet' false payload' hop : List (Event Key)) ≤
        if packet' = packet then 1 else 0 := by
      cases hop <;> by_cases hp : packet' = packet <;>
        simp [handOn, deliveries, Event.isDelivery, hp]
    by_cases hp : packet' = packet
    · subst hp
      obtain ⟨hkey, hplain⟩ := hK.eq_of_decryptPacket hC henc hmem hd
      rw [hplain, unframe_frame] at hu
      obtain ⟨rfl, rfl⟩ := Prod.mk.injEq .. ▸ Option.some.inj hu
      simp only [currentSeqs, List.filterMap_cons, Event.currentSeq, hkey, if_true,
        List.reverse_cons, List.count_append, List.count_singleton_self]
      rw [if_pos rfl] at hone
      exact hone.trans (Nat.le_add_left 1 _)
    · rw [if_neg hp] at hone
      exact hone.trans (Nat.zero_le _)
  | @acceptPrev _ packet' _ payload' _ _ _ _ _ _ _ _ hop _ =>
    have hzero : deliveries packet (handOn packet' true payload' hop : List (Event Key)) = 0 := by
      cases hop <;> rfl
    exact hzero.le.trans (Nat.zero_le _)

/-- The same for a whole reaction. -/
theorem deliveries_step_le (hC : C.GcmCorrect) {key : Key} {packet : Bytes}
    (hK : OpensOnly C (negotiatedKeys tr) key packet) {iv : Option Iv} {seq : BitVec 64}
    {payload : Bytes} (henc : encryptPacket C key iv (frame seq payload) = some packet)
    (P : PeerParams Priv Key) {st : PeerState Priv Key} (hknown : KeysKnown st tr)
    (inp : Input Priv) :
    deliveries packet (step C P st inp).2 ≤ (currentSeqs key (step C P st inp).2).count seq := by
  rcases step_cases C P st inp with ⟨-, ht⟩ | ⟨c, pre, -, hpre, -, hes⟩
  · have hkeys : ∀ s ∈ st.sessions, s.sessionKey ∈ negotiatedKeys tr := fun s hs => by
      obtain ⟨i, hi⟩ := List.getElem?_of_mem hs
      exact mem_negotiatedKeys (hknown i s hi).sessionKey
    have hnil : deliveries packet ([] : List (Event Key)) ≤ (currentSeqs key []).count seq :=
      Nat.zero_le _
    -- the slots keep their keys, so each of them opens the packet only if it is its own
    have hle := ht.invariant (I := fun ss es => (∀ s ∈ ss, s.sessionKey ∈ negotiatedKeys tr) ∧
      deliveries packet es ≤ (currentSeqs key es).count seq) (fun es h hstep => ?_) ⟨hkeys, hnil⟩
    · exact hle.2
    · rw [deliveries_append, currentSeqs_append, List.count_append, Nat.add_comm]
      cases hstep with
      | @quiet e hq =>
        have hzero : deliveries packet [e] = 0 := by
          cases e <;> simp_all [Event.isQuiet, deliveries, Event.isDelivery]
        exact ⟨h.1, Nat.add_le_add (hzero.le.trans (Nat.zero_le _)) h.2⟩
      | slot hs hslot =>
        have hmem := h.1 _ (List.mem_of_getElem? hs)
        refine ⟨fun t ht => ?_, Nat.add_le_add (hslot.deliveries_le hC hK henc hmem) h.2⟩
        rcases List.mem_or_eq_of_mem_set ht with ht | rfl
        · exact h.1 t ht
        · rw [hslot.follows.sessionKey]
          exact hmem
  · refine (List.countP_eq_zero.mpr fun e he => ?_).le.trans (Nat.zero_le _)
    rw [hes] at he
    rcases List.mem_append.mp he with he | he
    · have hq := hpre e he
      cases e <;> simp_all [Event.isQuiet, Event.isDelivery]
    · rcases List.mem_cons.mp he with rfl | he
      · simp [Event.isDelivery]
      · obtain ⟨slot, -, rfl⟩ := mem_installEvents.mp he
        simp [Event.isDelivery]

/-- In every run whose installed keys are pairwise distinct, a datagram of any
`forward_to_peer`, which decrypts under no other key of the run, is delivered at most
once after decryption with the session key; any other delivery of it is made with the
previous key, of the key it was sent under, while that key is active and not expired. -/
theorem delivered_at_most_once (hC : C.GcmCorrect) (P : PeerParams Priv Key)
    (configs : List PeerConfig) (eph : Option Priv) (is : List (Input Priv))
    (hkeys : (installedKeys
      (Machine.run (step C P) (PeerState.initial configs eph) is).2).Nodup)
    (remote : PeerSession Key) (payload : Bytes) (env : SendEnv) {packet : Bytes}
    (hsent : (forwardToPeer C remote payload env).2 = some packet)
    (hK : OpensOnly C
      (negotiatedKeys (Machine.run (step C P) (PeerState.initial configs eph) is).2)
      remote.sessionKey packet) :
    let r := Machine.run (step C P) (PeerState.initial configs eph) is
    deliveries packet r.2 ≤ 1 ∧
    ∀ inp payload' relay, .delivered packet true payload' relay ∈ (step C P r.1 inp).2 →
      payload' = payload ∧ ∃ src now renv, ∃ (slot : ℕ) (s : PeerSession Key),
        inp = .udpRecv src packet now renv ∧ r.1.sessions[slot]? = some s ∧
        s.prevSessionKey = remote.sessionKey ∧ s.prevKeyActive = true ∧
        now ≤ s.prevKeyExpires := by
  intro r
  have henc := encryptPacket_of_forwardToPeer hsent
  have hrun : KeysKnown r.1 r.2 ∧ ((installedKeys r.2).Nodup → Accounted r.1.sessions r.2) ∧
      (OpensOnly C (negotiatedKeys r.2) remote.sessionKey packet →
        deliveries packet r.2 ≤ (currentSeqs remote.sessionKey r.2).count remote.sendSeq) := by
    refine Machine.run_invariant (I := fun (st : PeerState Priv Key) tr => KeysKnown st tr ∧
      ((installedKeys tr).Nodup → Accounted st.sessions tr) ∧
      (OpensOnly C (negotiatedKeys tr) remote.sessionKey packet →
        deliveries packet tr ≤ (currentSeqs remote.sessionKey tr).count remote.sendSeq))
      (fun st tr inp h => ⟨h.1.step C P inp, fun hnodup => ?_, fun hK => ?_⟩)
      ⟨keysKnown_initial configs eph, fun _ => .initial configs eph, fun _ => le_rfl⟩ is
    · refine (h.2.1 ?_).step inp hnodup
      rw [installedKeys_append] at hnodup
      exact hnodup.of_append_left
    · have hK' : OpensOnly C (negotiatedKeys tr) remote.sessionKey packet :=
        fun key hkey => hK key (negotiatedKeys_mono (List.subset_append_left _ _) hkey)
      rw [deliveries_append, currentSeqs_append, List.count_append, Nat.add_comm]
      exact Nat.add_le_add (deliveries_step_le hC hK' henc P h.1 inp) (h.2.2 hK')
  obtain ⟨hknown, haccounted, hdeliveries⟩ := hrun
  refine ⟨?_, fun inp payload' relay hdel => ?_⟩
  · exact (hdeliveries hK).trans
      (List.nodup_iff_count_le_one.mp ((haccounted hkeys).nodup _) _)
  · have ht := touches_of_mem hdel rfl (by simp)
    obtain ⟨slot, s, key, seq, -, -, hacc⟩ := ht.delivered hdel
    obtain ⟨s', hs', -, ⟨plain, hd, hu⟩, now, hrx, hkey⟩ := ht.accepted hacc
    obtain ⟨pub, hneg⟩ := hknown.accepted hacc
    obtain ⟨rfl, rfl⟩ := hK.eq_of_decryptPacket hC henc (mem_negotiatedKeys hneg) hd
    rw [unframe_frame] at hu
    obtain ⟨-, rfl⟩ := Prod.mk.injEq .. ▸ Option.some.inj hu
    refine ⟨rfl, ?_⟩
    rcases hkey with ⟨hfalse, -⟩ | ⟨-, hkey, hp, hnow⟩
    · exact absurd hfalse (by simp)
    · obtain ⟨-, src, renv, rfl⟩ := Input.dataPacket_eq_some hrx
      exact ⟨src, now, renv, slot, s', rfl, hs', hkey.symm, hp, hnow⟩

/-- Peer 2 connects, a data packet arrives twice, and again after a rekey. -/
def Sample.replayed : List (Input UInt8) := [
  .udpRecv (addr 2) (initiation 2 1 10) 100 (recvEnv 100 20),
  .udpRecv (addr 2) dataPacket 102 (recvEnv 102 21),
  .udpRecv (addr 2) dataPacket 103 (recvEnv 103 21),
  .udpRecv (addr 2) (initiation 2 1 12) 200 (recvEnv 200 22),
  .udpRecv (addr 2) dataPacket 201 (recvEnv 201 23)]

open Sample in
theorem delivered_at_most_once_replayed :
    0 < deliveries dataPacket (serverRun replayed).2 ∧
      deliveries dataPacket (serverRun replayed).2 ≤ 1 :=
  ⟨by decide +kernel, (delivered_at_most_once crypto_gcmCorrect (params 1)
    [peerConfig 2 false, peerConfig 3 false] (some 4) replayed (by decide +kernel)
    ((clientRun (clientInputs.take 2)).1.sessions.headD PeerSession.zero) ipPacket (sendEnv 101)
    (by decide +kernel) (by decide +kernel)).1⟩

/-- Peer 2 connects and rekeys, and a data packet under its first key arrives
twice within the grace period. -/
def Sample.duplicated : List (Input UInt8) := [
  .udpRecv (addr 2) (initiation 2 1 10) 100 (recvEnv 100 20),
  .udpRecv (addr 2) (initiation 2 1 12) 200 (recvEnv 200 22),
  .udpRecv (addr 2) dataPacket 201 (recvEnv 201 23),
  .udpRecv (addr 2) dataPacket 202 (recvEnv 202 24)]

open Sample in
/-- The sender's trace has one data packet, the receiver's installed keys are
distinct, and yet the packet is delivered twice. -/
theorem duplicated_delivered_twice :
    (clientRun clientInputs).2.filterMap
        (fun e => match e with | .sentData _ payload packet => some (payload, packet) | _ => none) =
      [(ipPacket, dataPacket)] ∧
    (installedKeys (serverRun duplicated).2).Nodup ∧
    (serverRun duplicated).2.filterMap
        (fun e => match e with
          | .delivered packet usedPrevKey payload relay => some (packet, usedPrevKey, payload, relay)
          | _ => none) =
      [(dataPacket, true, ipPacket, none), (dataPacket, true, ipPacket, none)] := by
  decide +kernel

end LaneCove

import LaneCove.KeyFresh

/-!
# Sequence numbers are used once

A session counts its frames from zero, and the counter belongs to the session key. Within one
reaction `forward_to_peer` is called at most once for each session. So in fewer than 2^64
reactions no counter comes round, and as long as no key is installed twice no peer encrypts two
frames with the same key and sequence number.

## Main definitions

- `framesSent` — key and sequence number of the frames a trace has sent
- `Numbers` — a part of the loop that takes one number on each of some slots

## Main results

- `step_numbers` — every reaction takes at most one number on each slot
- `frames_sent_once` — no two frames with the same key and number
-/

namespace LaneCove

variable {Priv Key : Type}

/-- Key and sequence number of a frame that is sent. -/
def Event.frameId : Event Key → Option (Key × BitVec 64)
  | .sentData s _ _ => some (s.sessionKey, s.sendSeq)
  | _ => none

/-- Keys and sequence numbers of the frames a trace has sent. -/
def framesSent (tr : List (Event Key)) : List (Key × BitVec 64) := tr.filterMap Event.frameId

@[simp] theorem framesSent_append (tr es : List (Event Key)) :
    framesSent (tr ++ es) = framesSent tr ++ framesSent es := List.filterMap_append

/-- Key and number of the next frame on slot `i`. -/
def nextFrame (ss : List (PeerSession Key)) (i : ℕ) : Option (Key × BitVec 64) :=
  ss[i]?.map fun s => (s.sessionKey, s.sendSeq)

/-- One number is taken on each of the slots `slots` and none on the others; the frames sent
have these numbers. -/
structure Numbers (ss : List (PeerSession Key)) (es : List (Event Key))
    (ss' : List (PeerSession Key)) (slots : List ℕ) : Prop where
  nodup : slots.Nodup
  next : ∀ i, nextFrame ss' i = (nextFrame ss i).map fun f =>
    (f.1, if i ∈ slots then f.2 + 1 else f.2)
  sent : (framesSent es).Sublist (slots.filterMap (nextFrame ss))

variable {ss ss' : List (PeerSession Key)} {es : List (Event Key)} {j : ℕ} {s s' : PeerSession Key}

/-- Changes of other fields, without a frame. -/
theorem Numbers.quiet (hnext : ∀ i, nextFrame ss' i = nextFrame ss i) (hes : framesSent es = []) :
    Numbers ss es ss' [] := by
  refine ⟨List.nodup_nil, fun i => ?_, by simp [hes]⟩
  simp [hnext i]

theorem Numbers.trans {ss'' : List (PeerSession Key)} {es' : List (Event Key)}
    {slots slots' : List ℕ}
    (h : Numbers ss es ss' slots) (h' : Numbers ss' es' ss'' slots')
    (hdis : slots.Disjoint slots') : Numbers ss (es ++ es') ss'' (slots ++ slots') := by
  have hout : ∀ i ∈ slots', nextFrame ss' i = nextFrame ss i := by
    intro i hi
    have hnot : i ∉ slots := fun hmem => hdis hmem hi
    simp [h.next i, hnot]
  refine ⟨List.Nodup.append h.nodup h'.nodup hdis, fun i => ?_, ?_⟩
  · rw [h'.next i, h.next i, Option.map_map]
    congr 1
    funext f
    by_cases hi : i ∈ slots
    · have hnot : i ∉ slots' := fun hmem => hdis hi hmem
      simp [hi, hnot]
    · simp [hi]
  · rw [framesSent_append, List.filterMap_append]
    have hsame : slots'.filterMap (nextFrame ss') = slots'.filterMap (nextFrame ss) :=
      List.filterMap_congr hout
    exact h.sent.append (hsame ▸ h'.sent)

theorem nextFrame_set (s' : PeerSession Key) (hs : ss[j]? = some s)
    (hkey : s'.sessionKey = s.sessionKey) (hseq : s'.sendSeq = s.sendSeq) (i : ℕ) :
    nextFrame (ss.set j s') i = nextFrame ss i := by
  unfold nextFrame
  rw [SlotTable.updated_set hs s' i]
  split
  · next hi =>
    subst hi
    simp [hs, hkey, hseq]
  · rfl

theorem nextFrame_setRekeying (ss : List (PeerSession Key)) (pub : Bytes) (flag : Bool) (i : ℕ) :
    nextFrame (setRekeying ss pub flag) i = nextFrame ss i := by
  unfold setRekeying
  split
  · rfl
  · unfold nextFrame
    rw [List.getElem?_modify]
    cases ss[i]? with
    | none => rfl
    | some s =>
      split <;> rfl

-- ════════════════════════════════════════════════════════════════════════
-- The parts of the loop
-- ════════════════════════════════════════════════════════════════════════

variable {C : Crypto Priv Key} {P : PeerParams Priv Key} {st : PeerState Priv Key}

theorem forwardToPeer_numbers (C : Crypto Priv Key) (s : PeerSession Key) (payload : Bytes)
    (env : SendEnv) : (forwardToPeer C s payload env).1.sessionKey = s.sessionKey ∧
      (forwardToPeer C s payload env).1.sendSeq = s.sendSeq + 1 := by
  unfold forwardToPeer
  split
  · exact ⟨rfl, rfl⟩
  · split <;> exact ⟨rfl, rfl⟩

/-- `forward_to_peer` takes a number on its slot, whether the frame leaves or not. -/
theorem forwardOn_numbers (st : PeerState Priv Key) (j : ℕ) (payload : Bytes) (env : SendEnv) :
    Numbers st.sessions (forwardOn C st j payload env).2 (forwardOn C st j payload env).1.sessions
      [j] := by
  unfold forwardOn
  split
  · next hnone =>
    refine ⟨List.nodup_singleton j, fun i => ?_, by simp [framesSent]⟩
    by_cases hi : i = j
    · simp [hi, nextFrame, hnone]
    · simp [hi]
  · next s hs =>
    obtain ⟨hkey, hseq⟩ := forwardToPeer_numbers C s payload env
    refine ⟨List.nodup_singleton j, fun i => ?_, ?_⟩
    · unfold nextFrame
      dsimp only
      rw [SlotTable.updated_set hs _ i]
      by_cases hi : i = j
      · simp [hi, hs, hkey, hseq]
      · simp [hi, Function.comp_def]
    · have hone : [j].filterMap (nextFrame st.sessions) = [(s.sessionKey, s.sendSeq)] := by
        simp [nextFrame, hs]
      rw [hone]
      dsimp only
      split
      · exact List.nil_sublist _
      · exact List.Sublist.refl _

/-- A loop over slots that takes at most one number on each slot it comes to. -/
theorem Numbers.run {f : PeerState Priv Key → ℕ → PeerState Priv Key × List (Event Key)}
    {is : List ℕ} (hnodup : is.Nodup) (hf : ∀ st i, ∃ slots, slots ⊆ [i] ∧
      Numbers st.sessions (f st i).2 (f st i).1.sessions slots) (st : PeerState Priv Key) :
    ∃ slots, slots ⊆ is ∧
      Numbers st.sessions (Machine.run f st is).2 (Machine.run f st is).1.sessions slots := by
  induction is generalizing st with
  | nil => exact ⟨[], List.Subset.refl _, .quiet (fun _ => rfl) rfl⟩
  | cons i is ih =>
    obtain ⟨hi, hnodup⟩ := List.nodup_cons.mp hnodup
    obtain ⟨slots, hsub, hhead⟩ := hf st i
    obtain ⟨slots', hsub', htail⟩ := ih hnodup (f st i).1
    refine ⟨slots ++ slots', ?_, hhead.trans htail ?_⟩
    · intro k hk
      rcases List.mem_append.mp hk with hk | hk
      · exact List.mem_cons.mpr (Or.inl (List.mem_singleton.mp (hsub hk)))
      · exact List.mem_cons_of_mem i (hsub' hk)
    · intro k hk hk'
      obtain rfl := List.mem_singleton.mp (hsub hk)
      exact hi (hsub' hk')

/-- A loop that takes no numbers. -/
theorem Numbers.run_quiet {f : PeerState Priv Key → ℕ → PeerState Priv Key × List (Event Key)}
    (hf : ∀ st i, Numbers st.sessions (f st i).2 (f st i).1.sessions []) (st : PeerState Priv Key)
    (is : List ℕ) :
    Numbers st.sessions (Machine.run f st is).2 (Machine.run f st is).1.sessions [] := by
  induction is generalizing st with
  | nil => exact .quiet (fun _ => rfl) rfl
  | cons i is ih => exact (hf st i).trans (ih _) (List.disjoint_nil_left _)

theorem connectStep_numbers (now : Time) (env : ℕ → ConnectEnv Priv) (st : PeerState Priv Key)
    (i : ℕ) : Numbers st.sessions (connectStep C P now env st i).2
      (connectStep C P now env st i).1.sessions [] := by
  unfold connectStep
  dsimp only
  split
  · generalize hst₁ : ({ st with configs := _, sessions := _ } : PeerState Priv Key) = st₁
    have hss : st₁.sessions = setRekeying st.sessions (st.config i).pub true := by rw [← hst₁]
    rcases initiateOutboundHandshake_cases C P st₁ i (env i) with hinit | ⟨_, _, _, -, -, hinit⟩
    · rw [hinit]
      refine .quiet (fun k => ?_) rfl
      dsimp only
      rw [hss, nextFrame_setRekeying, nextFrame_setRekeying]
    · rw [hinit]
      refine .quiet (fun k => ?_) rfl
      dsimp only
      rw [hss, nextFrame_setRekeying]
  · exact .quiet (fun _ => rfl) rfl

theorem expirePendingStep_numbers (now : Time) (st : PeerState Priv Key) (j : ℕ) :
    Numbers st.sessions (expirePendingStep P now st j).2
      (expirePendingStep P now st j).1.sessions [] := by
  unfold expirePendingStep
  split
  · exact .quiet (fun _ => rfl) rfl
  · split
    · exact .quiet (fun _ => rfl) rfl
    · exact .quiet (nextFrame_setRekeying _ _ _) rfl

theorem expireSessionStep_numbers (now : Time) (st : PeerState Priv Key) (j : ℕ) :
    Numbers st.sessions (expireSessionStep P now st j).2
      (expireSessionStep P now st j).1.sessions [] := by
  unfold expireSessionStep
  split
  · exact .quiet (fun _ => rfl) rfl
  · next s hs =>
    split
    · exact .quiet (nextFrame_set { s with active := false } hs rfl rfl) rfl
    · exact .quiet (fun _ => rfl) rfl

theorem keepaliveStep_numbers (now : Time) (env : ℕ → SendEnv) (st : PeerState Priv Key) (j : ℕ) :
    ∃ slots, slots ⊆ [j] ∧ Numbers st.sessions (keepaliveStep C P now env st j).2
      (keepaliveStep C P now env st j).1.sessions slots := by
  unfold keepaliveStep
  split
  · exact ⟨[], List.nil_subset _, .quiet (fun _ => rfl) rfl⟩
  · split
    · exact ⟨[], List.nil_subset _, .quiet (fun _ => rfl) rfl⟩
    · exact ⟨[j], List.Subset.refl _, forwardOn_numbers _ j [] (env j)⟩

/-- A pass over the timers sends at most one keepalive on each slot. -/
theorem timers_numbers (now : Time) (connect : ℕ → ConnectEnv Priv) (keepalive : ℕ → SendEnv)
    (st : PeerState Priv Key) : ∃ slots, Numbers st.sessions (timers C P now connect keepalive st).2
      (timers C P now connect keepalive st).1.sessions slots := by
  have h1 := Numbers.run_quiet (connectStep_numbers (C := C) (P := P) now connect) st
    (List.range st.configs.length)
  unfold timers
  dsimp only
  generalize Machine.run (connectStep C P now connect) st _ = r1 at h1 ⊢
  have h2 := h1.trans (Numbers.run_quiet (expirePendingStep_numbers (P := P) now) r1.1
    (List.range maxPeers)) (List.disjoint_nil_left _)
  generalize Machine.run (expirePendingStep P now) r1.1 _ = r2 at h2 ⊢
  have h3 := h2.trans (Numbers.run_quiet (expireSessionStep_numbers (P := P) now) r2.1
    (List.range r2.1.sessions.length)) (List.disjoint_nil_left _)
  generalize Machine.run (expireSessionStep P now) r2.1 _ = r3 at h3 ⊢
  obtain ⟨slots, -, h4⟩ := Numbers.run (List.nodup_range (n := r3.1.sessions.length))
    (keepaliveStep_numbers (C := C) (P := P) now keepalive) r3.1
  exact ⟨_, h3.trans h4 (List.disjoint_nil_left _)⟩

/-- The data path takes a number on the slot it relays to. -/
theorem recvData_numbers (hs : st.sessions[j]? = some s) (packet : Bytes) (now : Time)
    (env : RecvEnv Priv) : ∃ slots, Numbers st.sessions (recvData C st j s packet now env).2
      (recvData C st j s packet now env).1.sessions slots := by
  unfold recvData
  split
  · exact ⟨[], .quiet (nextFrame_set (afterDecrypt C s packet now) hs rfl rfl) rfl⟩
  · next key usedPrevKey seq payload recv hopen =>
    dsimp only
    generalize nextHop _ j (afterAccept C s packet now recv) payload = hop
    have hset : Numbers st.sessions (.accepted j key usedPrevKey packet seq payload ::
        handOn packet usedPrevKey payload hop)
        (st.sessions.set j (afterAccept C s packet now recv)) [] := by
      refine .quiet (nextFrame_set _ hs rfl rfl) ?_
      cases hop <;> rfl
    unfold relayTo
    split
    · next fwd =>
      exact ⟨_, hset.trans (forwardOn_numbers { st with sessions := st.sessions.set j _ } fwd payload
        env.relay) (List.disjoint_nil_left _)⟩
    · exact ⟨[], by simpa using hset⟩
    · exact ⟨[], by simpa using hset⟩

variable [Inhabited Key]

omit [Inhabited Key] in
theorem framesSent_fromHandshake (h : ∀ e ∈ es, e.FromHandshake) : framesSent es = [] := by
  refine List.filterMap_eq_nil_iff.mpr fun e he => ?_
  cases e with
  | sentData => exact (h _ he).elim
  | _ => rfl

/-- A handshake packet that completes no handshake leaves the counters alone. -/
theorem nextFrame_handshake {src : SockAddr} {packet : Bytes} {now : Time} {env : RecvEnv Priv}
    (hhs : isHandshake P.psk packet = true)
    (hcommit : commitOf C P st (.udpRecv src packet now env) = none) (i : ℕ) :
    nextFrame (step C P st (.udpRecv src packet now env)).1.sessions i =
      nextFrame st.sessions i := by
  simp only [commitOf, hhs, if_true] at hcommit
  cases hfind : findPending st.pending src with
  | some j =>
    obtain ⟨p, hp, -, -⟩ := findPending_eq_some hfind
    simp only [hfind, hp, Option.bind_some, commitResponse, Option.map_eq_none_iff] at hcommit
    simp only [step, udpRecv, hhs, if_true, hfind, recvResponse, hp, hcommit]
    exact nextFrame_setRekeying _ _ _ i
  | none =>
    simp only [hfind, commitInit] at hcommit
    rw [step_inbound C P hhs hfind]
    split
    · rfl
    · next hcool =>
      rw [if_neg hcool] at hcommit
      split
      · rfl
      · next pub key hresp =>
        simp only [hresp, commitKnown] at hcommit
        simp only [commitInbound, refreshPrecompEph_configs, refreshPrecompEph_sessions]
        split
        · simp
        · next hcfg =>
          simp only [hcfg] at hcommit
          split
          · simp
          · next hpub =>
            rw [if_neg hpub] at hcommit
            exact absurd hcommit (by simp)

/-- **Step**: a reaction that completes no handshake takes at most one number on each slot, and
the frames it sends have these numbers. -/
theorem step_numbers {inp : Input Priv} (hcommit : commitOf C P st inp = none) :
    ∃ slots, Numbers st.sessions (step C P st inp).2 (step C P st inp).1.sessions slots := by
  cases inp with
  | tick now connect keepalive =>
    simp only [step, tick]
    split
    · exact ⟨[], .quiet (fun _ => rfl) rfl⟩
    · exact timers_numbers now connect keepalive { st with lastRekeyCheck := now }
  | tunRead buffer env =>
    simp only [step, tunRead]
    split
    · split
      · exact ⟨[], .quiet (fun _ => rfl) rfl⟩
      · exact ⟨_, forwardOn_numbers _ _ buffer env⟩
    · exact ⟨[], .quiet (fun _ => rfl) rfl⟩
  | udpRecv src packet now env =>
    by_cases hhs : isHandshake P.psk packet = true
    · refine ⟨[], .quiet (nextFrame_handshake hhs hcommit) (framesSent_fromHandshake ?_)⟩
      simp only [step, udpRecv, hhs, if_true]
      split
      · exact recvResponse_fromHandshake _ src env
      · exact recvInit_fromHandshake src now env
    · simp only [step, udpRecv, if_neg hhs]
      split
      · exact ⟨[], .quiet (fun _ => rfl) rfl⟩
      · split
        · exact ⟨[], .quiet (fun _ => rfl) rfl⟩
        · next s hs => exact recvData_numbers hs packet now env

-- ════════════════════════════════════════════════════════════════════════
-- Runs
-- ════════════════════════════════════════════════════════════════════════

/-- The session table agrees with the frames sent in at most `n` reactions: the keys of the slots
are different installed keys, and the frames sent under the key of a slot have numbers below its
counter. -/
structure SendCounted (n : ℕ) (ss : List (PeerSession Key)) (tr : List (Event Key)) : Prop where
  installed : ∀ i f, nextFrame ss i = some f → f.1 ∈ installedKeys tr
  distinct : ∀ i k f g, nextFrame ss i = some f → nextFrame ss k = some g → f.1 = g.1 → i = k
  known : ∀ f ∈ framesSent tr, f.1 ∈ installedKeys tr
  below : ∀ i f, nextFrame ss i = some f → ∀ seq, (f.1, seq) ∈ framesSent tr →
    seq.toNat < f.2.toNat
  bound : ∀ i f, nextFrame ss i = some f → f.2.toNat ≤ n
  nodup : (framesSent tr).Nodup

variable {tr : List (Event Key)} {n : ℕ}

omit [Inhabited Key] in
theorem SendCounted.initial : SendCounted 0 ([] : List (PeerSession Key)) [] where
  installed i f hf := absurd hf (by simp [nextFrame])
  distinct i k f g hf := absurd hf (by simp [nextFrame])
  known := by simp [framesSent]
  below i f hf := absurd hf (by simp [nextFrame])
  bound i f hf := absurd hf (by simp [nextFrame])
  nodup := List.nodup_nil

omit [Inhabited Key] in
/-- Numbers that are taken once on each slot are new. -/
theorem SendCounted.numbers {slots : List ℕ} (h : SendCounted n ss tr)
    (hnum : Numbers ss es ss' slots) (hlt : n + 1 < 2 ^ 64) :
    SendCounted (n + 1) ss' (tr ++ es) := by
  have hold : ∀ {i f'}, nextFrame ss' i = some f' → ∃ f, nextFrame ss i = some f ∧ f.1 = f'.1 ∧
      f'.2 = if i ∈ slots then f.2 + 1 else f.2 := by
    intro i f' hf'
    rw [hnum.next i] at hf'
    obtain ⟨f, hf, rfl⟩ := Option.map_eq_some_iff.mp hf'
    exact ⟨f, hf, rfl, rfl⟩
  have hsucc : ∀ {i f}, nextFrame ss i = some f → (f.2 + 1).toNat = f.2.toNat + 1 := by
    intro i f hf
    have := h.bound i f hf
    rw [BitVec.toNat_add]
    exact Nat.mod_eq_of_lt (by simp; omega)
  have hnew : ∀ {f}, f ∈ framesSent es → ∃ i ∈ slots, nextFrame ss i = some f := by
    intro f hf
    exact List.mem_filterMap.mp (hnum.sent.subset hf)
  have hkeys : ∀ {key}, key ∈ installedKeys tr → key ∈ installedKeys (tr ++ es) := by
    intro key hkey
    rw [installedKeys_append]
    exact List.mem_append_left _ hkey
  refine ⟨fun i f' hf' => ?_, fun i k f' g' hf' hg' heq => ?_, fun f hf => ?_,
    fun i f' hf' seq hseq => ?_, fun i f' hf' => ?_, ?_⟩
  · obtain ⟨f, hf, hkey, -⟩ := hold hf'
    exact hkeys (hkey ▸ h.installed i f hf)
  · obtain ⟨f, hf, hkey, -⟩ := hold hf'
    obtain ⟨g, hg, hkey', -⟩ := hold hg'
    exact h.distinct i k f g hf hg (by rw [hkey, hkey', heq])
  · rw [framesSent_append] at hf
    rcases List.mem_append.mp hf with hf | hf
    · exact hkeys (h.known f hf)
    · obtain ⟨i, -, hf⟩ := hnew hf
      exact hkeys (h.installed i f hf)
  · obtain ⟨f, hf, hkey, hnext⟩ := hold hf'
    rw [framesSent_append] at hseq
    have hmono : f.2.toNat ≤ f'.2.toNat := by
      rw [hnext]
      split
      · rw [hsucc hf]
        omega
      · exact le_rfl
    rcases List.mem_append.mp hseq with hseq | hseq
    · exact lt_of_lt_of_le (h.below i f hf seq (hkey ▸ hseq)) hmono
    · -- a new frame under this key took the number of this very slot
      obtain ⟨k, hk, hframe⟩ := hnew hseq
      obtain rfl := h.distinct i k f _ hf hframe hkey
      obtain rfl := Option.some.inj (hf.symm.trans hframe)
      rw [hnext, if_pos hk, hsucc hf]
      exact Nat.lt_succ_self _
  · obtain ⟨f, hf, -, hnext⟩ := hold hf'
    have := h.bound i f hf
    rw [hnext]
    split
    · rw [hsucc hf]
      omega
    · omega
  · rw [framesSent_append]
    refine List.Nodup.append h.nodup (hnum.sent.nodup ?_) fun f hf hf' => ?_
    · refine hnum.nodup.filterMap fun i k f hi hk => ?_
      exact h.distinct i k f f hi hk rfl
    · obtain ⟨i, -, hframe⟩ := hnew hf'
      exact absurd (h.below i f hframe f.2 hf) (lt_irrefl _)

/-- A key that is new in the trace starts from zero. -/
theorem SendCounted.install (h : SendCounted n ss tr) (settings : Settings) (c : Commit Key)
    (hframes : framesSent es = [])
    (hinst : installedKeys es = ((allocSession ss c.pub c.src).map fun _ => c.key).toList)
    (hfresh : (installedKeys (tr ++ es)).Nodup) :
    SendCounted n (installTable settings c ss) (tr ++ es) := by
  have hsent : framesSent (tr ++ es) = framesSent tr := by
    rw [framesSent_append, hframes, List.append_nil]
  have hkeys : ∀ {key}, key ∈ installedKeys tr → key ∈ installedKeys (tr ++ es) := by
    intro key hkey
    rw [installedKeys_append]
    exact List.mem_append_left _ hkey
  rcases installTable_cases settings c ss with ⟨-, heq⟩ | ⟨slot, s, halloc, -, hupd⟩
  · rw [heq]
    exact ⟨fun i f hf => hkeys (h.installed i f hf), h.distinct,
      fun f hf => hkeys (h.known f (hsent ▸ hf)),
      fun i f hf seq hseq => h.below i f hf seq (hsent ▸ hseq),
      h.bound, hsent ▸ h.nodup⟩
  · obtain ⟨_, halloc, -⟩ := Option.map_eq_some_iff.mp halloc
    rw [halloc] at hinst
    have hnew : c.key ∉ installedKeys tr := by
      intro hmem
      rw [installedKeys_append, hinst] at hfresh
      exact List.disjoint_of_nodup_append hfresh hmem (by simp)
    have hmem : c.key ∈ installedKeys (tr ++ es) := by
      rw [installedKeys_append, hinst]
      simp
    have hold : ∀ {i f}, nextFrame (installTable settings c ss) i = some f →
        (i = slot ∧ f = (c.key, 0)) ∨ (i ≠ slot ∧ nextFrame ss i = some f) := by
      intro i f hf
      obtain ⟨s', hs', rfl⟩ := Option.map_eq_some_iff.mp hf
      rcases hupd.cases hs' with ⟨hi, rfl⟩ | ⟨hi, hs'⟩
      · exact Or.inl ⟨hi, rfl⟩
      · exact Or.inr ⟨hi, by simp [nextFrame, hs']⟩
    refine ⟨fun i f hf => ?_, fun i k f g hf hg heq => ?_,
      fun f hf => hkeys (h.known f (hsent ▸ hf)),
      fun i f hf seq hseq => ?_, fun i f hf => ?_, hsent ▸ h.nodup⟩
    · rcases hold hf with ⟨-, rfl⟩ | ⟨-, hf⟩
      · exact hmem
      · exact hkeys (h.installed i f hf)
    · rcases hold hf with ⟨rfl, rfl⟩ | ⟨-, hf⟩
      · rcases hold hg with ⟨rfl, -⟩ | ⟨-, hg⟩
        · rfl
        · have hkey : c.key = g.1 := heq
          exact absurd (hkey ▸ h.installed k g hg) hnew
      · rcases hold hg with ⟨rfl, rfl⟩ | ⟨-, hg⟩
        · have hkey : f.1 = c.key := heq
          exact absurd (hkey ▸ h.installed i f hf) hnew
        · exact h.distinct i k f g hf hg heq
    · rw [hsent] at hseq
      rcases hold hf with ⟨-, rfl⟩ | ⟨-, hf⟩
      · exact absurd (h.known _ hseq) hnew
      · exact h.below i f hf seq hseq
    · rcases hold hf with ⟨-, rfl⟩ | ⟨-, hf⟩
      · exact Nat.zero_le _
      · exact h.bound i f hf

theorem installedKeys_installEvents (c : Commit Key) (ss : List (PeerSession Key)) :
    installedKeys (installEvents c ss) =
      ((allocSession ss c.pub c.src).map fun _ => c.key).toList := by
  unfold installEvents
  cases allocSession ss c.pub c.src <;> rfl

theorem framesSent_installEvents (c : Commit Key) (ss : List (PeerSession Key)) :
    framesSent (installEvents c ss) = [] := by
  unfold installEvents
  cases allocSession ss c.pub c.src <;> rfl

omit [Inhabited Key] in
theorem framesSent_quiet (h : ∀ e ∈ es, e.isQuiet = true) : framesSent es = [] := by
  refine List.filterMap_eq_nil_iff.mpr fun e he => ?_
  cases e with
  | sentData => exact absurd (h _ he) (by simp [Event.isQuiet])
  | _ => rfl

/-- Every reaction that installs no key twice keeps the frames counted. -/
theorem SendCounted.step (h : SendCounted n st.sessions tr) (inp : Input Priv) (hlt : n + 1 < 2 ^ 64)
    (hfresh : (installedKeys (tr ++ (step C P st inp).2)).Nodup) :
    SendCounted (n + 1) (step C P st inp).1.sessions (tr ++ (step C P st inp).2) := by
  cases hcommit : commitOf C P st inp with
  | none =>
    obtain ⟨slots, hnum⟩ := step_numbers hcommit
    exact h.numbers hnum hlt
  | some c =>
    rcases step_cases C P st inp with ⟨hnone, -⟩ | ⟨c', pre, hc, hpre, hss, hes⟩
    · exact absurd hcommit (by simp [hnone])
    · have hquiet : ∀ e ∈ pre ++ [.negotiated c'.pub c'.key], e.isQuiet = true := by
        simp only [List.mem_append, List.mem_singleton]
        rintro e (he | rfl)
        · exact hpre e he
        · rfl
      have hes' : (LaneCove.step C P st inp).2 =
          (pre ++ [.negotiated c'.pub c'.key]) ++ installEvents c' st.sessions := by
        rw [hes, List.append_assoc]
        rfl
      rw [hes'] at hfresh ⊢
      rw [hss]
      have hcounted := h.install P.settings c' (by
        rw [framesSent_append, framesSent_quiet hquiet, framesSent_installEvents]
        rfl) (by
        rw [installedKeys_append, installedKeys_quiet hquiet, installedKeys_installEvents]
        rfl) hfresh
      exact { hcounted with bound := fun i f hf => (hcounted.bound i f hf).trans (Nat.le_succ n) }

/-- **Run**: in fewer than 2^64 reactions, with distinct keys, no frame is numbered twice. -/
theorem framesSent_nodup (C : Crypto Priv Key) (P : PeerParams Priv Key) (configs : List PeerConfig)
    (eph : Option Priv) (is : List (Input Priv)) (hlen : is.length < 2 ^ 64)
    (hkeys : (installedKeys
      (Machine.run (LaneCove.step C P) (PeerState.initial configs eph) is).2).Nodup) :
    (framesSent (Machine.run (LaneCove.step C P) (PeerState.initial configs eph) is).2).Nodup := by
  have hrun := Machine.observe_invariant (LaneCove.step C P) (fun _ inp => [inp])
    (s := PeerState.initial configs eph)
    (I := fun st tr log => log.length < 2 ^ 64 → (installedKeys tr).Nodup →
      SendCounted log.length st.sessions tr)
    (fun st tr log inp h hlen hnodup => by
      rw [List.length_append, List.length_singleton] at hlen ⊢
      have hprev : (installedKeys tr).Nodup := by
        rw [installedKeys_append] at hnodup
        exact hnodup.of_append_left
      exact (h (by omega) hprev).step inp hlen hnodup)
    (fun _ _ => .initial) is
  rw [Machine.run_observe_inputs] at hrun
  exact (hrun hlen hkeys).nodup

/-- Only negotiated keys are installed. -/
theorem installedKeys_step_sublist (C : Crypto Priv Key) (P : PeerParams Priv Key)
    (st : PeerState Priv Key) (inp : Input Priv) :
    (installedKeys (step C P st inp).2).Sublist
      ((negotiations (step C P st inp).2).map Prod.snd) := by
  rcases step_cases C P st inp with ⟨-, ht⟩ | ⟨c, pre, -, hpre, -, hes⟩
  · have hnil : installedKeys (step C P st inp).2 = [] := by
      refine List.filterMap_eq_nil_iff.mpr fun e he => ?_
      cases e with
      | installed => exact absurd (ht.isInstall _ he) (by simp [Event.isInstall])
      | _ => rfl
    rw [hnil]
    exact List.nil_sublist _
  · rw [hes, installedKeys_append, installedKeys_quiet hpre, negotiations_append, List.map_append,
      negotiations_cons]
    refine List.Sublist.trans ?_ (List.sublist_append_right _ _)
    have hinst : installedKeys (.negotiated c.pub c.key :: installEvents c st.sessions) =
      ((allocSession st.sessions c.pub c.src).map fun _ => c.key).toList :=
      installedKeys_installEvents c st.sessions
    rw [List.nil_append, hinst, List.map_cons]
    cases allocSession st.sessions c.pub c.src with
    | none => exact List.nil_sublist _
    | some _ => exact List.Sublist.cons_cons _ (List.nil_sublist _)

theorem installedKeys_run_sublist (C : Crypto Priv Key) (P : PeerParams Priv Key)
    (st : PeerState Priv Key) (is : List (Input Priv)) :
    (installedKeys (Machine.run (step C P) st is).2).Sublist
      ((negotiations (Machine.run (step C P) st is).2).map Prod.snd) :=
  Machine.run_invariant
    (I := fun _ tr => (installedKeys tr).Sublist ((negotiations tr).map Prod.snd))
    (fun st tr inp h => by
      rw [installedKeys_append, negotiations_append, List.map_append]
      exact h.append (installedKeys_step_sublist C P st inp)) (List.Sublist.refl []) is

/-- **Every frame has its own number.** In every run of fewer than 2^64 reactions with fresh
ephemeral keys, a peer never encrypts two frames with the same session key and the same sequence
number, over all sessions and rekeys. -/
theorem frames_sent_once {configs : List PeerConfig} {eph : Option Priv} {is : List (Input Priv)}
    (hS : C.Sized) (hO : C.OutputSized) (h : FreshKeys C P configs eph is)
    (hlen : is.length < 2 ^ 64) :
    (framesSent (Machine.run (LaneCove.step C P) (PeerState.initial configs eph) is).2).Nodup := by
  have hkeys := h.key_nodup hS hO
  refine framesSent_nodup C P configs eph is hlen ((installedKeys_run_sublist C P _ is).nodup ?_)
  rw [negotiations_run, List.map_map]
  exact hkeys

open Sample in
/-- Peer 1 with two sessions sends a packet and, when the next timers run, two keepalives. -/
theorem frames_sent_once_bothRoles :
    let is := bothRoles ++ [.tunRead ipPacket (sendEnv 102), tickAt 130 14]
    let tr := (Machine.run (LaneCove.step crypto (params 1))
      (PeerState.initial [peerConfig 2 false, peerConfig 3 true] (some 4)) is).2
    (framesSent tr).length = 3 ∧ (framesSent tr).Nodup :=
  ⟨by decide +kernel, frames_sent_once crypto_sized crypto_outputSized
    ⟨rfl, by decide +kernel, by decide +kernel, by decide +kernel, by decide +kernel⟩
    (by decide +kernel)⟩

end LaneCove

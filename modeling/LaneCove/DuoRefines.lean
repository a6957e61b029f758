import LaneCove.OnePeer

/-!
# Two peers refine a key switch

Every step of the two peers, as long as it keeps to what `Duo.Live` and `Act.Regular` say
and no counter wraps around, is a sequence of steps of the abstract link. The invariant of
the link then tells that what arrives can be read.

## Main definitions

- `Carries` — the message of the link that a datagram in flight stands for
- `Numbered` — the next number of an end follows one that it has sent
- `Sim` — the simulation relation

## Main results

- `Sim.step` — every step is simulated
- `Sim.deliver_data` — a data packet that arrives is under a key of the receiver
-/

namespace LaneCove

open KeySwitch

variable {Priv Key : Type}

abbrev DuoLink (Key : Type) := KeySwitch.Link Bytes Key Bytes

/-- The end of the link a side stands for. -/
def linkEnd (s : DuoLink Key) : Side → Party Key
  | .a => s.i
  | .b => s.r

/-- The channel of the link towards a side. -/
def linkChan (s : DuoLink Key) : Side → List (Msg Bytes Key Bytes)
  | .a => s.toI
  | .b => s.toR

/-- The message a datagram in flight stands for. -/
inductive Carries (C : Crypto Priv Key) (P : Side → PeerParams Priv Key) :
    Event Key → Msg Bytes Key Bytes → Prop
  | init (dst : SockAddr) {init : Bytes} {state : HsClientState Priv Bytes Bytes}
      (h : Initiates C P init state) : Carries C P (.sentInit dst init) (.init init)
  | resp (dst : SockAddr) {init resp : Bytes} {key : Key}
      (hhs : isHandshake (P .a).psk resp = true) (h : Derives C P init resp key) :
      Carries C P (.sentResponse dst init resp) (.resp init key)
  | data {s : PeerSession Key} {payload packet : Bytes} {iv : Option Iv}
      (h : encryptPacket C s.sessionKey iv (frame s.sendSeq payload) = some packet) :
      Carries C P (.sentData s payload packet) (.data s.sessionKey s.sendSeq.toNat payload)

/-- Every message on its way in the link is in flight as a datagram. -/
theorem exists_carries {C : Crypto Priv Key} {P : Side → PeerParams Priv Key}
    {es : List (Event Key)} {msgs : List (Msg Bytes Key Bytes)}
    (h : List.Forall₂ (Carries C P) es msgs) {msg : Msg Bytes Key Bytes} (hmsg : msg ∈ msgs) :
    ∃ e ∈ es, Carries C P e msg := by
  induction h with
  | nil => exact absurd hmsg List.not_mem_nil
  | cons hcarries _ ih =>
    rcases List.mem_cons.mp hmsg with rfl | hmsg
    · exact ⟨_, List.mem_cons_self, hcarries⟩
    · obtain ⟨e, he, hc⟩ := ih hmsg
      exact ⟨e, List.mem_cons_of_mem _ he, hc⟩

/-- The end has sent nothing under its current key yet, or its next number is the one after a
number that it has sent under this key. -/
def Numbered (tr : List (Event Key)) (party : Party Key) : Prop :=
  party.next = 0 ∨ ∃ s payload packet, .sentData s payload packet ∈ tr ∧
    party.cur = some s.sessionKey ∧ party.next = s.sendSeq.toNat + 1

theorem Numbered.append {tr : List (Event Key)} {party : Party Key} (h : Numbered tr party)
    (es : List (Event Key)) : Numbered (tr ++ es) party := by
  refine h.imp id ?_
  rintro ⟨s, payload, packet, he, hnext⟩
  exact ⟨s, payload, packet, List.mem_append_left _ he, hnext⟩

theorem Numbered.congr {tr : List (Event Key)} {party party' : Party Key} (h : Numbered tr party)
    (hcur : party'.cur = party.cur) (hnext : party'.next = party.next) : Numbered tr party' := by
  rw [Numbered, hcur, hnext]
  exact h

/-- As long as the counters do not wrap around, the next number is not below `next`. -/
theorem Numbered.next_le {side : Side} {tr es : List (Side × Event Key)} {party : Party Key}
    (h : Numbered (ofPeer side tr) party) (hrising : Rising (tr ++ es)) {s : PeerSession Key}
    {payload packet : Bytes} (he : (side, .sentData s payload packet) ∈ es)
    (hcur : party.cur = some s.sessionKey) : party.next ≤ s.sendSeq.toNat := by
  rcases h with hzero | ⟨s', payload', packet', he', hcur', hnext⟩
  · rw [hzero]
    exact Nat.zero_le _
  · have hpairs := hrising side
    rw [ofPeer_append, numbersSent, List.filterMap_append, List.pairwise_append] at hpairs
    have hkey : s'.sessionKey = s.sessionKey := Option.some.inj (hcur'.symm.trans hcur)
    rw [hnext]
    exact hpairs.2.2 (s'.sessionKey, s'.sendSeq) (List.mem_filterMap.mpr ⟨_, he', rfl⟩)
      (s.sessionKey, s.sendSeq) (List.mem_filterMap.mpr ⟨_, mem_ofPeer.mpr he, rfl⟩) hkey

/-- The two peers, after the trace `tr`, behave like the link `s`. -/
structure Sim (C : Crypto Priv Key) (P : Side → PeerParams Priv Key) (addr : Side → SockAddr)
    (d : Duo Priv Key) (tr : List (Side × Event Key)) (s : DuoLink Key) : Prop where
  inv : Inv s
  peer : ∀ side, PeerRel C P addr side (d.peer side) (linkEnd s side) s.active
  chan : ∀ side, List.Forall₂ (Carries C P) (d.chan side) (linkChan s side)
  opened : ∀ m ∈ s.opened, m ∈ initiations (ofPeer .a tr)
  keys : ∀ k ∈ s.keys, k ∈ installedKeys (ofPeer .b tr)
  numbered : ∀ side, Numbered (ofPeer side tr) (linkEnd s side)

theorem Sim.initial {C : Crypto Priv Key} {P : Side → PeerParams Priv Key}
    {addr : Side → SockAddr} {cfg : Side → PeerConfig} (hj : Joined C P addr cfg)
    (eph : Side → Option Priv) : Sim C P addr (Duo.initial cfg eph) [] Link.idle where
  inv := inv_idle
  peer side := by
    refine ⟨by cases side <;> exact .empty, ⟨cfg side, rfl, hj.pub side, fun hend => ?_⟩,
      fun p hp ha => ?_⟩
    · cases side with
      | a => exact ⟨rfl, hj.endpoint.2⟩
      | b => exact absurd hend (by simp [hj.noEndpoint])
    · obtain ⟨-, rfl⟩ := List.mem_replicate.mp hp
      exact absurd ha (by simp [PendingHs.zero])
  chan side := by cases side <;> exact .nil
  opened m hm := absurd hm (Set.notMem_empty m)
  keys k hk := absurd hk (Set.notMem_empty k)
  numbered side := Or.inl (by cases side <;> rfl)

/-- The link takes steps from `s` to `s'` in which only `side` moves, sends what the
events `es` send, and opens their initiations. -/
structure LinkMove (C : Crypto Priv Key) (P : Side → PeerParams Priv Key) (side : Side)
    (s s' : DuoLink Key) (es : List (Event Key)) : Prop where
  steps : Relation.ReflTransGen Step s s'
  other : linkEnd s' side.other = linkEnd s side.other
  chan : linkChan s' side = linkChan s side
  sent : ∃ msgs, linkChan s' side.other = linkChan s side.other ++ msgs ∧
    List.Forall₂ (Carries C P) (outgoing es) msgs
  active : s'.active = s.active ∪ { m | m ∈ initiations es }
  opened : s'.opened = s.opened ∪ { m | m ∈ initiations es }
  keys : s'.keys = s.keys

variable {C : Crypto Priv Key} {P : Side → PeerParams Priv Key} {addr : Side → SockAddr}
  {side : Side} {s : DuoLink Key}

theorem linkMove_of_step {s' : DuoLink Key} {es : List (Event Key)} (hstep : Step s s')
    (hother : linkEnd s' side.other = linkEnd s side.other)
    (hchan : linkChan s' side = linkChan s side)
    (hsent : ∃ msgs, linkChan s' side.other = linkChan s side.other ++ msgs ∧
      List.Forall₂ (Carries C P) (outgoing es) msgs) (hinit : initiations es = [])
    (hactive : s'.active = s.active) (hopened : s'.opened = s.opened) (hkeys : s'.keys = s.keys) :
    LinkMove C P side s s' es where
  steps := .single hstep
  other := hother
  chan := hchan
  sent := hsent
  active := by simp [hactive, hinit]
  opened := by simp [hopened, hinit]
  keys := hkeys

/-- **A local move is simulated.** -/
theorem LocalMove.linkMove {party party' : Party Key} {es : List (Event Key)} {psk : Option Key}
    (h : LocalMove C P side party es party') (hparty : linkEnd s side = party)
    (hgen : ∀ e ∈ es, e.Genuine C psk) (hnodup : (initiations es).Nodup)
    (hnew : ∀ m ∈ initiations es, m ∉ s.opened)
    (hnext : ∀ sess payload packet, .sentData sess payload packet ∈ es →
      party.next ≤ sess.sendSeq.toNat) :
    ∃ s', LinkMove C P side s s' es ∧ linkEnd s' side = party' := by
  induction h generalizing s with
  | idle =>
    exact ⟨s, ⟨.refl, rfl, rfl, ⟨[], by simp, .nil⟩, by simp [initiations],
      by simp [initiations], rfl⟩, hparty⟩
  | @send sess payload packet hcur =>
    subst hparty
    obtain ⟨iv, henc⟩ := hgen _ (List.mem_singleton_self _)
    have hle := hnext sess payload packet (List.mem_singleton_self _)
    have hcarries : List.Forall₂ (Carries C P) (outgoing [.sentData sess payload packet])
        [.data sess.sessionKey sess.sendSeq.toNat payload] := .cons (.data henc) .nil
    cases side with
    | a => exact ⟨_, linkMove_of_step (.sendI hcur hle payload) rfl rfl ⟨_, rfl, hcarries⟩ rfl rfl
        rfl rfl, rfl⟩
    | b => exact ⟨_, linkMove_of_step (.sendR hcur hle payload) rfl rfl ⟨_, rfl, hcarries⟩ rfl rfl
        rfl rfl, rfl⟩
  | @start party' es hside dst init state hinit _ ih =>
    subst hside
    have hnodup' : (init :: initiations es).Nodup := hnodup
    obtain ⟨s', hmove, hend⟩ := ih (s := { s with
        toR := s.toR ++ [.init init], active := insert init s.active,
        opened := insert init s.opened }) hparty
      (fun e he => hgen e (List.mem_cons_of_mem _ he)) (List.nodup_cons.mp hnodup').2
      (fun m hm => by
        rintro (rfl | hopened)
        · exact (List.nodup_cons.mp hnodup').1 hm
        · exact hnew m (List.mem_cons_of_mem _ hm) hopened)
      (fun sess payload packet he => hnext sess payload packet (List.mem_cons_of_mem _ he))
    obtain ⟨msgs, hmsgs, hcarries⟩ := hmove.sent
    refine ⟨s', ⟨hmove.steps.head (.start init (hnew init List.mem_cons_self)), hmove.other,
      hmove.chan, ⟨.init init :: msgs, ?_, .cons (.init dst hinit) hcarries⟩, ?_, ?_, hmove.keys⟩,
      hend⟩
    · rw [hmsgs]
      simp [linkChan, Side.other]
    · rw [hmove.active]
      ext m
      simp [initiations, Event.initiation, or_left_comm, or_assoc]
    · rw [hmove.opened]
      ext m
      simp [initiations, Event.initiation, or_left_comm, or_assoc]

/-- What steps of the peers with the events `es` leave of the link: only initiations that
are sent become active, and if there are none, the keys stay and data is sent under them. -/
structure LinkFollows (s s' : DuoLink Key) (es : List (Side × Event Key)) : Prop where
  active : ∀ m ∈ s'.active, m ∈ s.active ∨ m ∈ initiations (ofPeer .a es)
  cur : s.active = ∅ → initiations (ofPeer .a es) = [] →
    ∀ side, (linkEnd s' side).cur = (linkEnd s side).cur
  sent_under : s.active = ∅ → initiations (ofPeer .a es) = [] → ∀ side sess payload packet,
    (side, .sentData sess payload packet) ∈ es → (linkEnd s side).cur = some sess.sessionKey

theorem LinkFollows.refl (s : DuoLink Key) : LinkFollows s s [] where
  active _ hm := Or.inl hm
  cur _ _ _ := rfl
  sent_under _ _ _ _ _ _ he := absurd he List.not_mem_nil

theorem LinkFollows.active_eq_empty {s' : DuoLink Key} {es : List (Side × Event Key)}
    (h : LinkFollows s s' es) (hactive : s.active = ∅) (hinits : initiations (ofPeer .a es) = []) :
    s'.active = ∅ := by
  refine Set.eq_empty_iff_forall_notMem.mpr fun m hm => ?_
  rcases h.active m hm with hm | hm
  · rw [hactive] at hm
    exact hm
  · rw [hinits] at hm
    exact absurd hm List.not_mem_nil

theorem LinkFollows.trans {s' s'' : DuoLink Key} {es es' : List (Side × Event Key)}
    (h : LinkFollows s s' es) (h' : LinkFollows s' s'' es') : LinkFollows s s'' (es ++ es') := by
  have hsplit : initiations (ofPeer .a (es ++ es')) = [] →
      initiations (ofPeer .a es) = [] ∧ initiations (ofPeer .a es') = [] := by
    rw [ofPeer_append, initiations_append]
    exact List.append_eq_nil_iff.mp
  refine ⟨fun m hm => ?_, fun hactive hinits side => ?_, fun hactive hinits side _ _ _ he => ?_⟩
  · rw [ofPeer_append, initiations_append, List.mem_append]
    rcases h'.active m hm with hm | hm
    · exact (h.active m hm).imp id Or.inl
    · exact Or.inr (Or.inr hm)
  · obtain ⟨hinits, hinits'⟩ := hsplit hinits
    have hcur' := h'.cur (h.active_eq_empty hactive hinits) hinits' side
    exact hcur'.trans (h.cur hactive hinits side)
  · obtain ⟨hinits, hinits'⟩ := hsplit hinits
    rcases List.mem_append.mp he with he | he
    · exact h.sent_under hactive hinits side _ _ _ he
    · rw [← h.cur hactive hinits side]
      exact h'.sent_under (h.active_eq_empty hactive hinits) hinits' side _ _ _ he

/-- Side `b` has no pending handshake whatever is active. -/
theorem PeerRel.responder {st : PeerState Priv Key} {party : Party Key} {active : Set Bytes}
    (h : PeerRel C P addr .b st party active) (active' : Set Bytes) :
    PeerRel C P addr .b st party active' :=
  { h with pending := fun p hp ha => absurd (h.pending p hp ha).1 (by simp) }

variable [Inhabited Key] {d : Duo Priv Key} {tr : List (Side × Event Key)}

/-- A reaction of one side, put together. -/
theorem Sim.of_react {inp : Input Priv} (hinv : Inv s)
    (hself : PeerRel C P addr side (step C (P side) (d.peer side) inp).1 (linkEnd s side) s.active)
    (hother : PeerRel C P addr side.other (d.peer side.other) (linkEnd s side.other) s.active)
    (hchan : List.Forall₂ (Carries C P) (d.chan side) (linkChan s side))
    (hsent : List.Forall₂ (Carries C P)
      (d.chan side.other ++ outgoing (step C (P side) (d.peer side) inp).2)
      (linkChan s side.other))
    (hopened : ∀ m ∈ s.opened,
      m ∈ initiations (ofPeer .a (tr ++ (d.react C P side inp).2)))
    (hkeys : ∀ k ∈ s.keys, k ∈ installedKeys (ofPeer .b (tr ++ (d.react C P side inp).2)))
    (hnumbered : Numbered (ofPeer side tr ++ (step C (P side) (d.peer side) inp).2)
      (linkEnd s side))
    (hnumbered' : Numbered (ofPeer side.other tr) (linkEnd s side.other)) :
    Sim C P addr (d.react C P side inp).1 (tr ++ (d.react C P side inp).2) s := by
  refine ⟨hinv, fun side' => ?_, fun side' => ?_, hopened, hkeys, fun side' => ?_⟩
  · rcases side.eq_or_eq_other side' with rfl | rfl
    · simpa [Duo.react] using hself
    · simpa [Duo.react, side.other_ne] using hother
  · rcases side.eq_or_eq_other side' with rfl | rfl
    · simpa [Duo.react, side'.other_ne.symm] using hchan
    · simpa [Duo.react] using hsent
  · rcases side.eq_or_eq_other side' with rfl | rfl
    · simpa [Duo.react] using hnumbered
    · simpa [Duo.react, ofPeer_map_of_ne side.other_ne.symm] using hnumbered'

omit [Inhabited Key] in
theorem mem_initiations_append {m : Bytes} {es : List (Side × Event Key)}
    (h : m ∈ initiations (ofPeer .a tr)) : m ∈ initiations (ofPeer .a (tr ++ es)) := by
  rw [ofPeer_append, initiations_append]
  exact List.mem_append_left _ h

omit [Inhabited Key] in
theorem mem_installedKeys_append {k : Key} {es : List (Side × Event Key)}
    (h : k ∈ installedKeys (ofPeer .b tr)) : k ∈ installedKeys (ofPeer .b (tr ++ es)) := by
  rw [ofPeer_append, installedKeys_append]
  exact List.mem_append_left _ h

/-- **Local reactions** are simulated. -/
theorem Sim.react_local (hC : C.GcmCorrect) (hS : C.Sized) (hkeyed : ∀ side, (P side).WellKeyed C)
    (h : Sim C P addr d tr s) {inp : Input Priv} (hinp : inp.Local addr)
    (halive : ∀ t ∈ (step C (P side) (d.peer side) inp).1.sessions, t.active = true)
    (hfresh : Fresh (tr ++ (d.react C P side inp).2))
    (hrising : Rising (tr ++ (d.react C P side inp).2)) :
    ∃ s', Sim C P addr (d.react C P side inp).1 (tr ++ (d.react C P side inp).2) s' ∧
      LinkFollows s s' (d.react C P side inp).2 := by
  obtain ⟨party', hmove, hrel⟩ := (h.peer side).react_local hinp halive
  have hinits : initiations (ofPeer .a (d.react C P side inp).2) =
      initiations (step C (P side) (d.peer side) inp).2 := by
    cases side with
    | a => simp [Duo.react]
    | b =>
      rw [hmove.initiations_eq_nil, Duo.react, ofPeer_map_of_ne (by simp)]
      rfl
  have hnodup := hfresh.initiations
  rw [ofPeer_append, initiations_append, hinits, List.nodup_append] at hnodup
  obtain ⟨s', hlink, hend⟩ := hmove.linkMove rfl (step_genuine hC hS (hkeyed side) _ _) hnodup.2.1
    (fun m hm hopened => hnodup.2.2 m (h.opened m hopened) m hm rfl)
    (fun sess payload packet he => (h.numbered side).next_le hrising (List.mem_map_of_mem he)
      (hmove.sent_under he))
  obtain ⟨msgs, hmsgs, hcarries⟩ := hlink.sent
  refine ⟨s', Sim.of_react (h.inv.steps hlink.steps) ?_ ?_ ?_ ?_ ?_ ?_ ?_ ?_, ?_, ?_, ?_⟩
  · rw [hend, hlink.active]
    exact hrel
  · rw [hlink.other, hlink.active]
    exact (h.peer side.other).mono Set.subset_union_left
  · rw [hlink.chan]
    exact h.chan side
  · rw [hmsgs]
    exact List.rel_append (h.chan side.other) hcarries
  · intro m hm
    rw [hlink.opened] at hm
    rcases hm with hm | hm
    · exact mem_initiations_append (h.opened m hm)
    · rw [ofPeer_append, initiations_append, hinits]
      exact List.mem_append_right _ hm
  · intro k hk
    rw [hlink.keys] at hk
    exact mem_installedKeys_append (h.keys k hk)
  · rw [hend]
    rcases hmove.next_eq with hnext | ⟨sess, payload, packet, he, hcur, hnext⟩
    · exact ((h.numbered side).congr hmove.cur_eq hnext).append _
    · exact Or.inr ⟨sess, payload, packet, List.mem_append_right _ he, hcur, hnext⟩
  · rw [hlink.other]
    exact h.numbered side.other
  · intro m hm
    rw [hlink.active] at hm
    rw [hinits]
    exact hm
  · intro _ _ side'
    rcases side.eq_or_eq_other side' with rfl | rfl
    · rw [hend, hmove.cur_eq]
    · rw [hlink.other]
  · intro _ _ side' sess payload packet he
    obtain ⟨e, he, heq⟩ := List.mem_map.mp he
    obtain ⟨rfl, rfl⟩ := Prod.mk.inj heq
    exact hmove.sent_under he

/-- The link takes one step in which the next message for `side` is used up, and nothing
is sent. -/
structure LinkRecv (side : Side) (s s' : DuoLink Key) : Prop where
  step : Step s s'
  other : linkEnd s' side.other = linkEnd s side.other
  cur : (linkEnd s' side).cur = (linkEnd s side).cur
  next : (linkEnd s' side).next = (linkEnd s side).next
  chan : linkChan s' side = (linkChan s side).tail
  chan_other : linkChan s' side.other = linkChan s side.other
  active : s'.active = s.active
  opened : s'.opened = s.opened
  keys : s'.keys = s.keys

omit [Inhabited Key] in
/-- Messages for side `b`, and data for side `a`, may be lost. -/
theorem linkRecv_lose {msg : Msg Bytes Key Bytes} {rest : List (Msg Bytes Key Bytes)}
    (hchan : linkChan s side = msg :: rest) (hdata : side = .a → ∃ k n x, msg = .data k n x) :
    ∃ s', LinkRecv side s s' ∧ linkEnd s' side = linkEnd s side := by
  cases side with
  | a =>
    obtain ⟨k, n, x, rfl⟩ := hdata rfl
    have hI : s.toI = _ := hchan
    exact ⟨_, ⟨.loseI hI, rfl, rfl, rfl, by rw [hchan]; rfl, rfl, rfl, rfl, rfl⟩, rfl⟩
  | b =>
    have hR : s.toR = _ := hchan
    exact ⟨_, ⟨.loseR hR, rfl, rfl, rfl, by rw [hchan]; rfl, rfl, rfl, rfl, rfl⟩, rfl⟩

omit [Inhabited Key] in
theorem linkRecv_accept {k : Key} {n : ℕ} {x : Bytes} {rest : List (Msg Bytes Key Bytes)}
    (hchan : linkChan s side = .data k n x :: rest) (hcur : (linkEnd s side).cur = some k) :
    ∃ s', LinkRecv side s s' ∧ linkEnd s' side =
      { linkEnd s side with prev := none, seen := (linkEnd s side).seen ++ [n] } := by
  cases side with
  | a =>
    have hI : s.toI = _ := hchan
    exact ⟨_, ⟨.acceptI hI hcur, rfl, rfl, rfl, by rw [hchan]; rfl, rfl, rfl, rfl, rfl⟩, rfl⟩
  | b =>
    have hR : s.toR = _ := hchan
    exact ⟨_, ⟨.acceptR hR hcur, rfl, rfl, rfl, by rw [hchan]; rfl, rfl, rfl, rfl, rfl⟩, rfl⟩

/-- A reaction that uses up a datagram and sends nothing, put together. -/
theorem Sim.of_recv {s' : DuoLink Key} {inp : Input Priv} {e : Event Key} {rest : List (Event Key)}
    (h : Sim C P addr d tr s) (hrecv : LinkRecv side s s') (hchan : d.chan side = e :: rest)
    (hrel : PeerRel C P addr side (LaneCove.step C (P side) (d.peer side) inp).1 (linkEnd s' side)
      s'.active)
    (hout : outgoing (LaneCove.step C (P side) (d.peer side) inp).2 = []) :
    let r := Duo.react C P { d with chan := Function.update d.chan side rest } side inp
    Sim C P addr r.1 (tr ++ r.2) s' ∧ LinkFollows s s' r.2 := by
  intro r
  have htail := h.chan side
  rw [hchan] at htail
  refine ⟨Sim.of_react (h.inv.step hrecv.step) hrel ?_ ?_ ?_ ?_ ?_ ?_ ?_, ?_, ?_, ?_⟩
  · rw [hrecv.other, hrecv.active]
    exact h.peer side.other
  · rw [hrecv.chan]
    cases hlink : linkChan s side with
    | nil => exact absurd htail (by simp [hlink])
    | cons msg msgs =>
      rw [hlink] at htail
      simpa using (List.forall₂_cons.mp htail).2
  · rw [hrecv.chan_other]
    simpa [hout, side.other_ne] using h.chan side.other
  · rw [hrecv.opened]
    exact fun m hm => mem_initiations_append (h.opened m hm)
  · rw [hrecv.keys]
    exact fun k hk => mem_installedKeys_append (h.keys k hk)
  · exact ((h.numbered side).congr hrecv.cur hrecv.next).append _
  · rw [hrecv.other]
    exact h.numbered side.other
  · rw [hrecv.active]
    exact fun m hm => Or.inl hm
  · intro _ _ side'
    rcases side.eq_or_eq_other side' with rfl | rfl
    · exact hrecv.cur
    · rw [hrecv.other]
  · intro _ _ side' sess payload packet he
    obtain ⟨e', he', heq⟩ := List.mem_map.mp he
    obtain ⟨-, rfl⟩ := Prod.mk.inj heq
    have hmem : .sentData sess payload packet ∈
        outgoing (LaneCove.step C (P side) (d.peer side) inp).2 :=
      List.mem_filter.mpr ⟨he', rfl⟩
    rw [hout] at hmem
    exact absurd hmem List.not_mem_nil

omit [Inhabited Key] in
/-- What arrives is under a key of the receiver, and newer than all it accepted under
the current one. -/
theorem Sim.readable (h : Sim C P addr d tr s) {k : Key} {n : ℕ} {x : Bytes}
    {rest : List (Msg Bytes Key Bytes)} (hchan : linkChan s side = .data k n x :: rest) :
    ((linkEnd s side).cur = some k ∧ ∀ j ∈ (linkEnd s side).seen, j < n) ∨
      ((linkEnd s side).cur ≠ some k ∧ (linkEnd s side).prev = some k) := by
  cases side with
  | a => exact Or.inl (h.inv.readable_toI hchan)
  | b => exact h.inv.readable_toR hchan

/-- **A data packet arrives**: if it is under the current key of the receiver, or in time,
it is accepted. -/
theorem Sim.deliver_data (hC : C.GcmCorrect) (h : Sim C P addr d tr s) (ht : DuoTraced d tr)
    (hK : C.GcmKeyed (tr.map Prod.snd)) {sess : PeerSession Key} {payload packet : Bytes}
    {rest : List (Event Key)}
    (hchan : d.chan side = .sentData sess payload packet :: rest)
    (hiv : packet.take 8 ≠ pktHeader) (now : Time) (env : RecvEnv Priv) :
    ∃ s', LinkRecv side s s' ∧
      PeerRel C P addr side
        (LaneCove.step C (P side) (d.peer side) (.udpRecv (addr side.other) packet now env)).1
        (linkEnd s' side) s'.active ∧
      outgoing
        (LaneCove.step C (P side) (d.peer side)
          (.udpRecv (addr side.other) packet now env)).2 = [] ∧
      ((linkEnd s side).cur = some sess.sessionKey ∨
        (∀ t ∈ (d.peer side).sessions, t.sessionKey = sess.sessionKey ∨ now ≤ t.prevKeyExpires) →
        ∃ usedPrevKey hop,
          (LaneCove.step C (P side) (d.peer side) (.udpRecv (addr side.other) packet now env)).2 =
            .accepted 0 sess.sessionKey usedPrevKey packet sess.sendSeq payload ::
              handOn packet usedPrevKey payload hop) := by
  have hhs : isHandshake (P side).psk packet = false := by
    simp [isHandshake, hiv]
  have hcarries := h.chan side
  rw [hchan] at hcarries
  obtain ⟨msg, msgs, hhead, -, hlink⟩ := List.forall₂_cons_left_iff.mp hcarries
  cases hhead with
  | @data _ _ _ iv henc =>
    rcases h.readable hlink with ⟨hcur, hnew⟩ | ⟨hcur, hprev⟩
    · obtain ⟨hop, st', hstep, hrel⟩ := (h.peer side).recv_current hC henc hhs hcur hnew now env
      obtain ⟨s', hrecv, hend⟩ := linkRecv_accept hlink hcur
      refine ⟨s', hrecv, ?_, ?_, fun _ => ⟨false, hop, ?_⟩⟩
      · rw [hstep, hend, hrecv.active]
        exact hrel
      · rw [hstep]
        cases hop <;> rfl
      · rw [hstep]
    · have hopens := hK.opensOnly
        (mem_events (ht.sent side _ (by rw [hchan]; exact List.mem_cons_self)))
      have hkeys : ∀ t ∈ (d.peer side).sessions,
          t.sessionKey ∈ negotiatedKeys (tr.map Prod.snd) := fun t hmem => by
        obtain ⟨i, hi⟩ := List.getElem?_of_mem hmem
        exact mem_negotiatedKeys (mem_events (mem_ofPeer.mp (ht.known side i t hi).sessionKey))
      obtain ⟨hrel, hout, hacc⟩ :=
        (h.peer side).recv_previous hC hopens hkeys henc hhs hcur hprev now env
      obtain ⟨s', hrecv, hend⟩ := linkRecv_lose hlink fun _ => ⟨_, _, _, rfl⟩
      refine ⟨s', hrecv, ?_, hout, fun hor => ?_⟩
      · rw [hend, hrecv.active]
        exact hrel
      · obtain ⟨hop, heq⟩ := hacc (hor.resolve_left hcur)
        exact ⟨true, hop, heq⟩

omit [Inhabited Key] in
/-- The initiation of an active pending entry is an active switch of the link. -/
theorem Sim.mem_active (h : Sim C P addr d tr s) {p : PendingHs Priv} {init : Bytes}
    (hp : p ∈ (d.peer .a).pending) (ha : p.active = true)
    (hinit : p.initiation C (P .a) (P .b).staticPub = some init) : init ∈ s.active := by
  obtain ⟨-, -, -, m, hm, hsend⟩ := (h.peer .a).pending p hp ha
  obtain rfl : m = init := by
    rw [Initiates] at hsend
    simpa [PendingHs.initiation, hsend] using hinit
  exact hm

omit [Inhabited Key] in
/-- All responses in flight answer the same initiation. -/
theorem Duo.Live.answered_eq (h : d.Live C P) {e e' : Event Key} (he : e ∈ d.chan .a)
    (he' : e' ∈ d.chan .a) {init init' : Bytes} (hinit : e.answered = some init)
    (hinit' : e'.answered = some init') : init = init' := by
  obtain ⟨p, hp, ha, hpi⟩ := h.answered e he init hinit
  obtain ⟨q, hq, hqa, hqi⟩ := h.answered e' he' init' hinit'
  obtain ⟨i, hi⟩ := List.getElem?_of_mem hp
  obtain ⟨j, hj⟩ := List.getElem?_of_mem hq
  obtain rfl := index_eq_of_countP_le_one h.onePending hi hj ha hqa
  obtain rfl := Option.some.inj (hi.symm.trans hj)
  exact Option.some.inj (hpi.symm.trans hqi)

omit [Inhabited Key] in
/-- A response on its way in the link is in flight. -/
theorem Sim.exists_answered (h : Sim C P addr d tr s) {m : Bytes} {k : Key}
    (hmem : .resp m k ∈ s.toI) : ∃ e ∈ d.chan .a, e.answered = some m := by
  obtain ⟨e, he, hcarries⟩ := exists_carries (h.chan .a) hmem
  cases hcarries with
  | resp dst _ _ => exact ⟨_, he, rfl⟩

/-- **An initiation arrives** and is ignored or answered. -/
theorem Sim.deliver_init (hC : C.GcmCorrect) (hS : C.Sized) (hD : C.DhCorrect)
    (hkeyed : ∀ side, (P side).WellKeyed C) (hpsk : ∀ side, (P side).psk = (P .a).psk)
    (h : Sim C P addr d tr s) {dst : SockAddr} {init : Bytes} {rest : List (Event Key)}
    (hchan : d.chan .b = .sentInit dst init :: rest) (now : Time) (env : RecvEnv Priv) :
    let r := Duo.react C P { d with chan := Function.update d.chan .b rest } .b
      (.udpRecv (addr .a) init now env)
    r.1.Live C P → Fresh (tr ++ r.2) →
      ∃ s', Sim C P addr r.1 (tr ++ r.2) s' ∧ LinkFollows s s' r.2 := by
  intro r hlive hfresh
  have hcarries := h.chan .b
  rw [hchan] at hcarries
  obtain ⟨msg, msgs, hhead, hmsgs, hlink⟩ := List.forall₂_cons_left_iff.mp hcarries
  cases hhead with
  | @init _ _ state hinit =>
    rcases (h.peer .b).recv_init hC hS hD hkeyed hpsk hinit now env with
      hignore | ⟨st', resp, key, hstep, hrel, hderive⟩
    · obtain ⟨s', hrecv, hend⟩ := linkRecv_lose hlink (by simp)
      refine ⟨s', h.of_recv hrecv hchan ?_ ?_⟩
      · rw [hignore, hend, hrecv.active]
        exact h.peer .b
      · rw [hignore]
        rfl
    · have hes : r.2 = [(.b, .sentResponse (addr .a) init resp),
          (.b, .negotiated (P .a).staticPub key),
          (.b, .installed 0 (addr .a) (P .a).staticPub key false init)] := by
        simp only [r, Duo.react, hstep, List.map_cons, List.map_nil]
      have hchanA : r.1.chan .a = d.chan .a ++ [.sentResponse (addr .a) init resp] := by
        simp [r, Duo.react, hstep, Side.other, outgoing, Event.datagram]
      have hpending : r.1.peer .a = d.peer .a := by
        simp [r, Duo.react]
      -- the rules of the link: the initiation is active and no other answer is on its way
      have hact : init ∈ s.active := by
        obtain ⟨p, hp, ha, hpi⟩ := hlive.answered (.sentResponse (addr .a) init resp)
          (by simp [hchanA]) init rfl
        rw [hpending] at hp
        exact h.mem_active hp ha hpi
      have hone : ∀ m k, .resp m k ∉ s.toI := by
        intro m k hmem
        obtain ⟨e, he, hans⟩ := h.exists_answered hmem
        have heq : m = init := hlive.answered_eq (by simp [hchanA, he])
          (by simp [hchanA] : .sentResponse (addr .a) init resp ∈ r.1.chan .a) hans rfl
        exact h.inv.not_answered hlink hmem heq
      have hkey : key ∉ s.keys := by
        intro hmem
        have hnodup := hfresh.keys
        rw [ofPeer_append, installedKeys_append, hes, List.nodup_append] at hnodup
        exact hnodup.2.2 key (h.keys key hmem) key
          (by simp [ofPeer, installedKeys, Event.installedKey])
          rfl
      have hanswer := Step.answer hlink hact hone key hkey
      refine ⟨_, Sim.of_react (h.inv.step hanswer) ?_ (h.peer .a) ?_ ?_ ?_ ?_ (Or.inl rfl)
        (h.numbered .a), ?_, ?_, ?_⟩
      · exact hstep ▸ hrel
      · simpa [linkChan] using hmsgs
      · have hhs : isHandshake (P .a).psk resp = true := by
          have hgen := step_genuine hC hS (hkeyed .b) (d.peer .b) (.udpRecv (addr .a) init now env)
            (.sentResponse (addr .a) init resp) (by simp [hstep])
          rw [← hpsk .b]
          exact hgen
        have hsent := List.rel_append (h.chan .a)
          (List.Forall₂.cons (Carries.resp (addr .a) hhs hderive) .nil)
        simpa [hstep, Side.other, outgoing, Event.datagram, linkChan] using hsent
      · exact fun m hm => mem_initiations_append (h.opened m hm)
      · rintro k (rfl | hk)
        · have hmem : k ∈ installedKeys (ofPeer .b r.2) := by
            simp [hes, ofPeer, installedKeys, Event.installedKey]
          rw [ofPeer_append, installedKeys_append]
          exact List.mem_append_right _ hmem
        · exact mem_installedKeys_append (h.keys k hk)
      · exact fun m hm => Or.inl hm
      · intro hempty _
        exact absurd hact (by simp [hempty])
      · intro _ _ side' sess payload packet he
        have he' : (side', Event.sentData sess payload packet) ∈ r.2 := he
        simp [hes] at he'

/-- **A response arrives** and completes the handshake. -/
theorem Sim.deliver_response (h : Sim C P addr d tr s) (hlive : d.Live C P) {dst : SockAddr}
    {init resp : Bytes} {rest : List (Event Key)}
    (hchan : d.chan .a = .sentResponse dst init resp :: rest) (now : Time) (env : RecvEnv Priv) :
    let r := Duo.react C P { d with chan := Function.update d.chan .a rest } .a
      (.udpRecv (addr .b) resp now env)
    ∃ s', Sim C P addr r.1 (tr ++ r.2) s' ∧ LinkFollows s s' r.2 := by
  intro r
  have hcarries := h.chan .a
  rw [hchan] at hcarries
  obtain ⟨msg, msgs, hhead, hmsgs, hlink⟩ := List.forall₂_cons_left_iff.mp hcarries
  cases hhead with
  | @resp _ _ _ key hhs hderive =>
    obtain ⟨p, hp, ha, hpi⟩ := hlive.answered (.sentResponse dst init resp)
      (by rw [hchan]; exact List.mem_cons_self) init rfl
    obtain ⟨st', hstep, hrel, hact⟩ :=
      (h.peer .a).recv_response hlive.onePending hp ha hpi hhs hderive now env
    have hes : r.2 = [(.a, .negotiated (P .b).staticPub key),
        (.a, .installed 0 (addr .b) (P .b).staticPub key true resp)] := by
      simp only [r, Duo.react, hstep, List.map_cons, List.map_nil]
    -- of all active switches only this one is left
    have hgiveUp : Step s { s with active := {init} } :=
      .giveUp (Set.singleton_subset_iff.mpr hact)
    have hcomplete := Step.complete (s := { s with active := {init} }) hlink (Set.Subset.refl _)
    refine ⟨_, Sim.of_react ((h.inv.step hgiveUp).step hcomplete) ?_ ((h.peer .b).responder ∅) ?_ ?_
      ?_ ?_ (Or.inl rfl) (h.numbered .b), ?_, ?_, ?_⟩
    · exact hstep ▸ hrel
    · simpa [linkChan] using hmsgs
    · simpa [hstep, Side.other, outgoing, Event.datagram, linkChan] using h.chan .b
    · exact fun m hm => mem_initiations_append (h.opened m hm)
    · exact fun k hk => mem_installedKeys_append (h.keys k hk)
    · exact fun m hm => absurd hm (Set.notMem_empty m)
    · intro hempty _
      exact absurd hact (by simp [hempty])
    · intro _ _ side' sess payload packet he
      have he' : (side', Event.sentData sess payload packet) ∈ r.2 := he
      simp [hes] at he'

omit [Inhabited Key] in
/-- **A datagram is lost**, but no response. -/
theorem Sim.drop (h : Sim C P addr d tr s)
    (hdrop : ∀ e ∈ (d.chan side).head?, e.answered = none) :
    ∃ s', Sim C P addr { d with chan := Function.update d.chan side (d.chan side).tail } tr s' ∧
      LinkFollows s s' [] := by
  cases hchan : d.chan side with
  | nil =>
    refine ⟨s, ?_, .refl s⟩
    have hsame : Function.update d.chan side [] = d.chan := by
      rw [← hchan]
      exact Function.update_eq_self side d.chan
    rw [List.tail_nil, hsame]
    exact h
  | cons e rest =>
    have hcarries := h.chan side
    rw [hchan] at hcarries
    obtain ⟨msg, msgs, hhead, hmsgs, hlink⟩ := List.forall₂_cons_left_iff.mp hcarries
    obtain ⟨s', hrecv, hend⟩ := linkRecv_lose hlink (by
      rintro rfl
      cases hhead with
      | init => exact absurd (hlink ▸ List.mem_cons_self) h.inv.not_init_toI
      | resp => exact absurd (hdrop _ (by rw [hchan]; rfl)) (by simp [Event.answered])
      | data => exact ⟨_, _, _, rfl⟩)
    refine ⟨s', ⟨h.inv.step hrecv.step, fun side' => ?_, fun side' => ?_, ?_, ?_, fun side' => ?_⟩,
      fun m hm => Or.inl (hrecv.active ▸ hm), fun _ _ side' => ?_,
      fun _ _ _ _ _ _ he => absurd he List.not_mem_nil⟩
    · rw [hrecv.active]
      rcases side.eq_or_eq_other side' with rfl | rfl
      · rw [hend]
        exact h.peer side'
      · rw [hrecv.other]
        exact h.peer side.other
    · rcases side.eq_or_eq_other side' with rfl | rfl
      · rw [hrecv.chan, hlink]
        simpa using hmsgs
      · rw [hrecv.chan_other]
        simpa [side.other_ne] using h.chan side.other
    · rw [hrecv.opened]
      exact h.opened
    · rw [hrecv.keys]
      exact h.keys
    · rcases side.eq_or_eq_other side' with rfl | rfl
      · exact (h.numbered side').congr hrecv.cur hrecv.next
      · rw [hrecv.other]
        exact h.numbered side.other
    · rcases side.eq_or_eq_other side' with rfl | rfl
      · exact hrecv.cur
      · rw [hrecv.other]

/-- **Every step is simulated.** -/
theorem Sim.step (hC : C.GcmCorrect) (hS : C.Sized) (hD : C.DhCorrect)
    (hkeyed : ∀ side, (P side).WellKeyed C) (hpsk : ∀ side, (P side).psk = (P .a).psk)
    (h : Sim C P addr d tr s) (ht : DuoTraced d tr) (hlive : d.Live C P) {x : Act Priv}
    (hreg : x.Regular addr d) (hlive' : (duoStep C P addr d x).1.Live C P)
    (hK : C.GcmKeyed (tr.map Prod.snd)) (hfresh : Fresh (tr ++ (duoStep C P addr d x).2))
    (hrising : Rising (tr ++ (duoStep C P addr d x).2)) :
    ∃ s', Sim C P addr (duoStep C P addr d x).1 (tr ++ (duoStep C P addr d x).2) s' ∧
      LinkFollows s s' (duoStep C P addr d x).2 := by
  cases x with
  | react side inp =>
    refine h.react_local hC hS hkeyed hreg (fun t ht => hlive'.alive side t ?_) hfresh hrising
    simpa [duoStep, Duo.react] using ht
  | drop side =>
    obtain ⟨s', hsim, hfollows⟩ := h.drop hreg
    refine ⟨s', ?_, hfollows⟩
    rw [duoStep, List.append_nil]
    exact hsim
  | deliver side now env =>
    simp only [duoStep] at hlive' hfresh ⊢
    cases hchan : d.chan side with
    | nil =>
      rw [List.append_nil]
      exact ⟨s, h, .refl s⟩
    | cons e rest =>
      rw [hchan] at hlive' hfresh
      have hcarries := h.chan side
      rw [hchan] at hcarries
      obtain ⟨msg, msgs, hhead, -, hlink⟩ := List.forall₂_cons_left_iff.mp hcarries
      cases hhead with
      | init dst hinit =>
        cases side with
        | a => exact absurd (hlink ▸ List.mem_cons_self) h.inv.not_init_toI
        | b => exact h.deliver_init hC hS hD hkeyed hpsk hchan now env hlive' hfresh
      | resp dst hhs hderive =>
        cases side with
        | a => exact h.deliver_response hlive hchan now env
        | b => exact absurd (hlink ▸ List.mem_cons_self) h.inv.not_resp_toR
      | data henc =>
        have hiv := hreg _ (by rw [hchan]; rfl) _ rfl
        obtain ⟨s', hrecv, hrel, hout, -⟩ := h.deliver_data hC ht hK hchan hiv now env
        exact ⟨s', h.of_recv hrecv hchan hrel hout⟩

end LaneCove

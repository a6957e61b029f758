import LaneCove.Delivery
import LaneCove.Mesh
import Mathlib.Data.Fintype.Basic

/-!
# Two peers on ordered channels

An initiator, side `a`, which knows the endpoint of the responder, side `b`, and
nobody else. Each direction is a channel that keeps the order of datagrams; the
network may lose them but adds nothing. What is in flight is kept as the event that
sent it, so that a property can speak about the session it was sent on.

## Main definitions

- `Duo`, `Act`, `duoStep` — the system and its steps
- `Joined` — how the two peers are set up
- `Duo.Live`, `Act.Regular` — what a run is assumed to keep to
- `Fresh` — initiations and installed keys do not repeat
- `Rising` — the numbers sent under one key increase
- `DuoTraced` — what is in flight was sent, and the keys of the sessions were negotiated
- `Logged` — what a side sent is what the other accepted, and what is in flight

## Main results

- `DuoTraced.step` — every step keeps the trace
- `Logged.react` — a reaction that accepts the data it uses up keeps the log
-/

namespace LaneCove

variable {Priv Key : Type}

inductive Side
  | a
  | b
deriving DecidableEq

instance : Fintype Side := ⟨{.a, .b}, fun side => by cases side <;> simp⟩

def Side.other : Side → Side
  | .a => .b
  | .b => .a

theorem Side.other_ne (side : Side) : side.other ≠ side := by
  cases side <;> simp [Side.other]

@[simp] theorem Side.other_other (side : Side) : side.other.other = side := by
  cases side <;> rfl

theorem Side.eq_or_eq_other (side side' : Side) : side' = side ∨ side' = side.other := by
  cases side <;> cases side' <;> simp [Side.other]

/-- Two peers, and the datagrams in flight towards each of them. -/
structure Duo (Priv Key : Type) where
  peer : Side → PeerState Priv Key
  chan : Side → List (Event Key)

/-- A step of the system. -/
inductive Act (Priv : Type)
  /-- a reaction to anything but a datagram -/
  | react (side : Side) (inp : Input Priv)
  /-- the next datagram towards a side arrives -/
  | deliver (side : Side) (now : Time) (env : RecvEnv Priv)
  /-- the next datagram towards a side is lost -/
  | drop (side : Side)

/-- Both peers start without sessions, each with one peer configured. -/
def Duo.initial (cfg : Side → PeerConfig) (eph : Side → Option Priv) : Duo Priv Key where
  peer side := PeerState.initial [cfg side] (eph side)
  chan _ := []

/-- The events that put a datagram on the wire. -/
def outgoing (es : List (Event Key)) : List (Event Key) := es.filter fun e => e.datagram.isSome

section

variable [Inhabited Key]

/-- A reaction of one side; its datagrams enter the channel to the other. -/
def Duo.react (C : Crypto Priv Key) (P : Side → PeerParams Priv Key) (d : Duo Priv Key)
    (side : Side) (inp : Input Priv) : Duo Priv Key × List (Side × Event Key) :=
  let r := step C (P side) (d.peer side) inp
  ({ peer := Function.update d.peer side r.1
     chan := Function.update d.chan side.other (d.chan side.other ++ outgoing r.2) },
    r.2.map fun e => (side, e))

/-- One step; `addr` are the addresses the two peers send from. -/
def duoStep (C : Crypto Priv Key) (P : Side → PeerParams Priv Key) (addr : Side → SockAddr)
    (d : Duo Priv Key) : Act Priv → Duo Priv Key × List (Side × Event Key)
  | .react side inp => d.react C P side inp
  | .deliver side now env =>
    match d.chan side with
    | [] => (d, [])
    | e :: rest =>
      Duo.react C P { d with chan := Function.update d.chan side rest } side
        (.udpRecv (addr side.other) (e.datagram.getD []) now env)
  | .drop side => ({ d with chan := Function.update d.chan side (d.chan side).tail }, [])

end

/-- Each peer is configured with the other one only, and only side `a` has an endpoint. -/
structure Joined (C : Crypto Priv Key) (P : Side → PeerParams Priv Key) (addr : Side → SockAddr)
    (cfg : Side → PeerConfig) : Prop where
  wellKeyed : ∀ side, (P side).WellKeyed C
  psk : ∀ side, (P side).psk = (P .a).psk
  pub : ∀ side, (cfg side).pub = (P side.other).staticPub
  endpoint : (cfg .a).hasEndpoint = true ∧ (cfg .a).endpoint = addr .b
  noEndpoint : (cfg .b).hasEndpoint = false

/-- The initiation a pending handshake with the peer `pub` has sent. -/
def PendingHs.initiation (C : Crypto Priv Key) (P : PeerParams Priv Key) (pub : Bytes)
    (p : PendingHs Priv) : Option Bytes :=
  (handshakeClientSend C P.psk P.staticPub pub p.hsState.ephKey true).map Prod.fst

/-- The initiation a response belongs to. -/
def Event.answered : Event Key → Option Bytes
  | .sentResponse _ init _ => some init
  | _ => none

/-- The packet of an initiation. -/
def Event.initiation : Event Key → Option Bytes
  | .sentInit _ packet => some packet
  | _ => none

/-- The initiations among the events. -/
def initiations (es : List (Event Key)) : List Bytes := es.filterMap Event.initiation

/-- The payloads of the data packets sent. -/
def sentPayloads (es : List (Event Key)) : List Bytes :=
  es.filterMap fun
    | .sentData _ payload _ => some payload
    | _ => none

/-- The payloads of the data packets accepted. -/
def acceptedPayloads (es : List (Event Key)) : List Bytes :=
  es.filterMap fun
    | .accepted _ _ _ _ _ payload => some payload
    | _ => none

@[simp] theorem initiations_append (tr es : List (Event Key)) :
    initiations (tr ++ es) = initiations tr ++ initiations es := List.filterMap_append

/-- The initiator has at most one active pending entry, every response in flight still
has its entry, and no session has expired. -/
structure Duo.Live (C : Crypto Priv Key) (P : Side → PeerParams Priv Key) (d : Duo Priv Key) :
    Prop where
  onePending : (d.peer .a).pending.countP (fun p => p.active) ≤ 1
  answered : ∀ e ∈ d.chan .a, ∀ init ∈ e.answered, ∃ p ∈ (d.peer .a).pending, p.active = true ∧
    p.initiation C (P .a) (P .b).staticPub = some init
  alive : ∀ side, ∀ s ∈ (d.peer side).sessions, s.active = true

/-- Not a datagram, and the endpoint of the responder resolves to its address. -/
def Input.Local (addr : Side → SockAddr) : Input Priv → Prop
  | .tick _ connect _ => (connect 0).resolved = none ∨ (connect 0).resolved = some (addr .b)
  | .tunRead .. => True
  | .udpRecv .. => False

/-- A data packet with the session it was sent on. -/
def Event.data : Event Key → Option (PeerSession Key × Bytes)
  | .sentData s _ packet => some (s, packet)
  | _ => none

/-- A reaction is local, no data packet that arrives has an IV that starts with the
magic, and no response is lost. -/
def Act.Regular (addr : Side → SockAddr) (d : Duo Priv Key) : Act Priv → Prop
  | .react _ inp => inp.Local addr
  | .deliver side _ _ => ∀ e ∈ (d.chan side).head?, ∀ x ∈ e.data, x.2.take 8 ≠ pktHeader
  | .drop side => ∀ e ∈ (d.chan side).head?, e.answered = none

/-- The channels are lossless, and a data packet under a replaced key arrives while
that key is accepted. -/
def Act.InTime (d : Duo Priv Key) : Act Priv → Prop
  | .react .. => True
  | .deliver side now _ => ∀ e ∈ (d.chan side).head?, ∀ x ∈ e.data,
      ∀ s ∈ (d.peer side).sessions, s.sessionKey = x.1.sessionKey ∨ now ≤ s.prevKeyExpires
  | .drop _ => False

/-- No initiation and no installed key repeats. -/
structure Fresh (tr : List (Side × Event Key)) : Prop where
  initiations : (initiations (ofPeer .a tr)).Nodup
  keys : (installedKeys (ofPeer .b tr)).Nodup

/-- The numbers of the data packets sent, each with its key. -/
def numbersSent (es : List (Event Key)) : List (Key × BitVec 64) :=
  es.filterMap fun
    | .sentData s _ _ => some (s.sessionKey, s.sendSeq)
    | _ => none

/-- The numbers that a side sends under one key increase: its `send_seq` does not wrap around. -/
def Rising (tr : List (Side × Event Key)) : Prop :=
  ∀ side, (numbersSent (ofPeer side tr)).Pairwise fun x y => x.1 = y.1 → x.2 < y.2

section Decidable

instance Duo.Live.decidable (C : Crypto Priv Key) (P : Side → PeerParams Priv Key)
    (d : Duo Priv Key) : Decidable (d.Live C P) :=
  decidable_of_iff
    ((d.peer .a).pending.countP (fun p => p.active) ≤ 1 ∧
      (∀ e ∈ d.chan .a, ∀ init ∈ e.answered, ∃ p ∈ (d.peer .a).pending, p.active = true ∧
        p.initiation C (P .a) (P .b).staticPub = some init) ∧
      ∀ side, ∀ s ∈ (d.peer side).sessions, s.active = true)
    ⟨fun h => ⟨h.1, h.2.1, h.2.2⟩, fun h => ⟨h.onePending, h.answered, h.alive⟩⟩

instance Input.Local.decidable (addr : Side → SockAddr) :
    ∀ inp : Input Priv, Decidable (inp.Local addr)
  | .tick _ connect _ => inferInstanceAs (Decidable
      ((connect 0).resolved = none ∨ (connect 0).resolved = some (addr .b)))
  | .tunRead .. => .isTrue trivial
  | .udpRecv .. => .isFalse id

instance Act.Regular.decidable (addr : Side → SockAddr) (d : Duo Priv Key) :
    ∀ x : Act Priv, Decidable (x.Regular addr d)
  | .react _ inp => inferInstanceAs (Decidable (inp.Local addr))
  | .deliver side _ _ => inferInstanceAs (Decidable
      (∀ e ∈ (d.chan side).head?, ∀ x ∈ e.data, x.2.take 8 ≠ pktHeader))
  | .drop side => inferInstanceAs (Decidable (∀ e ∈ (d.chan side).head?, e.answered = none))

instance Act.InTime.decidable [DecidableEq Key] (d : Duo Priv Key) :
    ∀ x : Act Priv, Decidable (x.InTime d)
  | .react .. => .isTrue trivial
  | .deliver side now _ => inferInstanceAs (Decidable (∀ e ∈ (d.chan side).head?, ∀ x ∈ e.data,
      ∀ s ∈ (d.peer side).sessions, s.sessionKey = x.1.sessionKey ∨ now ≤ s.prevKeyExpires))
  | .drop _ => .isFalse id

instance decidableFresh [DecidableEq Key] (tr : List (Side × Event Key)) : Decidable (Fresh tr) :=
  decidable_of_iff ((initiations (ofPeer .a tr)).Nodup ∧ (installedKeys (ofPeer .b tr)).Nodup)
    ⟨fun h => ⟨h.1, h.2⟩, fun h => ⟨h.initiations, h.keys⟩⟩

instance decidableRising [DecidableEq Key] (tr : List (Side × Event Key)) : Decidable (Rising tr) :=
  inferInstanceAs (Decidable (∀ side, (numbersSent (ofPeer side tr)).Pairwise _))

end Decidable

/-- What is in flight was sent, and the keys of all sessions were negotiated. -/
structure DuoTraced (d : Duo Priv Key) (tr : List (Side × Event Key)) : Prop where
  sent : ∀ side, ∀ e ∈ d.chan side, (side.other, e) ∈ tr
  known : ∀ side, KeysKnown (d.peer side) (ofPeer side tr)

theorem duoTraced_initial (cfg : Side → PeerConfig) (eph : Side → Option Priv) :
    DuoTraced (Duo.initial cfg eph : Duo Priv Key) [] :=
  ⟨fun _ _ he => absurd he List.not_mem_nil, fun side => keysKnown_initial [cfg side] (eph side)⟩

section

variable [Inhabited Key] {C : Crypto Priv Key} {P : Side → PeerParams Priv Key} {d : Duo Priv Key}
  {tr : List (Side × Event Key)}

theorem DuoTraced.react (h : DuoTraced d tr) (side : Side) (inp : Input Priv) :
    DuoTraced (d.react C P side inp).1 (tr ++ (d.react C P side inp).2) := by
  constructor
  · intro side' e he
    rcases side.eq_or_eq_other side' with rfl | rfl
    · have he' : e ∈ d.chan side' := by simpa [Duo.react, side'.other_ne.symm] using he
      exact List.mem_append_left _ (h.sent side' e he')
    · have he' : e ∈ d.chan side.other ∨ e ∈ outgoing (step C (P side) (d.peer side) inp).2 := by
        simpa [Duo.react] using he
      rcases he' with he' | he'
      · exact List.mem_append_left _ (h.sent side.other e he')
      · rw [side.other_other]
        exact List.mem_append_right _ (List.mem_map_of_mem (List.mem_filter.mp he').1)
  · intro side'
    rcases side.eq_or_eq_other side' with rfl | rfl
    · simpa [Duo.react] using (h.known side').step C (P side') inp
    · simpa [Duo.react, side.other_ne, ofPeer_map_of_ne side.other_ne.symm] using h.known side.other

theorem duoStep_genuine (hC : C.GcmCorrect) (hS : C.Sized) (hP : ∀ side, (P side).WellKeyed C)
    (addr : Side → SockAddr) (d : Duo Priv Key) (x : Act Priv) :
    ∀ y ∈ (duoStep C P addr d x).2, y.2.Genuine C (P y.1).psk := by
  have hreact : ∀ (d : Duo Priv Key) side inp, ∀ y ∈ (d.react C P side inp).2,
      y.2.Genuine C (P y.1).psk := by
    intro d side inp y hy
    obtain ⟨e, he, rfl⟩ := List.mem_map.mp hy
    exact step_genuine hC hS (hP side) _ _ e he
  cases x with
  | react side inp => exact hreact d side inp
  | drop side => exact fun y hy => absurd hy List.not_mem_nil
  | deliver side now env =>
    simp only [duoStep]
    cases d.chan side with
    | nil => exact fun y hy => absurd hy List.not_mem_nil
    | cons e rest => exact hreact _ side _

/-- **Step**: every step keeps the trace. -/
theorem DuoTraced.step (h : DuoTraced d tr) (addr : Side → SockAddr) (x : Act Priv) :
    DuoTraced (duoStep C P addr d x).1 (tr ++ (duoStep C P addr d x).2) := by
  -- a channel that loses its head has still only what was sent
  have htail : ∀ side rest, (∀ e ∈ rest, e ∈ d.chan side) →
      DuoTraced { d with chan := Function.update d.chan side rest } tr := by
    intro side rest hrest
    refine ⟨fun side' e he => ?_, h.known⟩
    rcases side.eq_or_eq_other side' with rfl | rfl
    · exact h.sent side' e (hrest e (by simpa using he))
    · exact h.sent side.other e (by simpa [side.other_ne] using he)
  cases x with
  | react side inp => exact h.react side inp
  | drop side =>
    rw [duoStep, List.append_nil]
    exact htail side _ fun e he => List.mem_of_mem_tail he
  | deliver side now env =>
    simp only [duoStep]
    cases hchan : d.chan side with
    | nil =>
      rw [List.append_nil]
      exact h
    | cons e rest =>
      exact (htail side rest fun e' he' => hchan ▸ List.mem_cons_of_mem _ he').react side _

end

/-- What a side sent is what the other side accepted, in this order, and then what is in
flight. -/
def Logged (d : Duo Priv Key) (tr : List (Side × Event Key)) : Prop :=
  ∀ side, sentPayloads (ofPeer side tr) =
    acceptedPayloads (ofPeer side.other tr) ++ sentPayloads (d.chan side.other)

theorem logged_initial (cfg : Side → PeerConfig) (eph : Side → Option Priv) :
    Logged (Duo.initial cfg eph : Duo Priv Key) [] := fun _ => rfl

@[simp] theorem sentPayloads_append (es es' : List (Event Key)) :
    sentPayloads (es ++ es') = sentPayloads es ++ sentPayloads es' := List.filterMap_append

@[simp] theorem acceptedPayloads_append (es es' : List (Event Key)) :
    acceptedPayloads (es ++ es') = acceptedPayloads es ++ acceptedPayloads es' :=
  List.filterMap_append

@[simp] theorem sentPayloads_outgoing (es : List (Event Key)) :
    sentPayloads (outgoing es) = sentPayloads es := by
  -- what carries a payload is a datagram
  rw [sentPayloads, outgoing, List.filterMap_filter]
  congr 1
  funext e
  cases e <;> rfl

/-- A reaction that accepts just the data it uses up keeps the log. -/
theorem Logged.react [Inhabited Key] {C : Crypto Priv Key} {P : Side → PeerParams Priv Key}
    {d : Duo Priv Key} {tr : List (Side × Event Key)} (h : Logged d tr) {side : Side}
    {used rest : List (Event Key)} (hchan : d.chan side = used ++ rest) {inp : Input Priv}
    (hacc : acceptedPayloads (step C (P side) (d.peer side) inp).2 = sentPayloads used) :
    let r := Duo.react C P { d with chan := Function.update d.chan side rest } side inp
    Logged r.1 (tr ++ r.2) := by
  intro r side'
  rcases side.eq_or_eq_other side' with rfl | rfl
  · have hself := h side'
    simp only [r, Duo.react, ofPeer_append, ofPeer_map_self, ofPeer_map_of_ne side'.other_ne.symm,
      Function.update_self, Function.update_of_ne side'.other_ne, List.append_nil,
      sentPayloads_append, sentPayloads_outgoing]
    rw [hself, List.append_assoc]
  · have hother := h side.other
    rw [side.other_other, hchan, sentPayloads_append, ← hacc] at hother
    simp only [r, Duo.react, ofPeer_append, ofPeer_map_self, ofPeer_map_of_ne side.other_ne.symm,
      side.other_other, Function.update_self, Function.update_of_ne side.other_ne.symm,
      List.append_nil, acceptedPayloads_append]
    rw [hother, List.append_assoc]

namespace Sample

/-- Peer 2 is side `a` and connects to peer 1, side `b`. -/
def pairParams : Side → PeerParams UInt8 SKey
  | .a => params 2
  | .b => params 1

def pairEph : Side → Option UInt8
  | .a => some 5
  | .b => some 4

theorem pairParams_wellKeyed (side : Side) : (pairParams side).WellKeyed crypto := by
  cases side <;> rfl

theorem pairParams_psk (side : Side) : (pairParams side).psk = none := by
  cases side <;> rfl

end Sample

end LaneCove

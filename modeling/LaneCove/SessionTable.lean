import LaneCove.Session
import LaneCove.Foundations.SlotTable

/-!
# The session table

The lookups of `peer.c` are lookups of a slot table, by address and by public
key. `Alloc` lists the ways in which `alloc_session` finds a slot.

## Main definitions

- `DistinctAddrs`, `DistinctPubs` — no two active sessions share an address, a key
- `Alloc` — the slot `alloc_session` returns and what it held
- `Commit`, `installTable` — a completed handshake and the table after it

## Main results

- `distinctAddrs_iff` — addresses are distinct exactly when every active session
  is found under its own
- `installTable_cases` — an install changes one slot, the one `Alloc` describes
- `DistinctPubs.install` — keys stay distinct
-/

namespace LaneCove

variable {Key : Type}

/-- No two active sessions have the same address. -/
def DistinctAddrs (ss : List (PeerSession Key)) : Prop :=
  SlotTable.Unique PeerSession.active PeerSession.addr ss

/-- No two active sessions have the same static public key. -/
def DistinctPubs (ss : List (PeerSession Key)) : Prop :=
  SlotTable.Unique PeerSession.active PeerSession.staticPub ss

variable {ss : List (PeerSession Key)} {i : ℕ} {addr : SockAddr} {pub : Bytes}

theorem findSessionByAddr_eq_some (h : findSessionByAddr ss addr = some i) :
    ∃ s, ss[i]? = some s ∧ s.active = true ∧ s.addr = addr :=
  SlotTable.lookup_eq_some h

theorem findSessionByAddr_eq_none :
    findSessionByAddr ss addr = none ↔
      ∀ (i : ℕ) (s : PeerSession Key), ss[i]? = some s → s.active = true → s.addr ≠ addr :=
  SlotTable.lookup_eq_none

theorem findSessionByPub_eq_some (h : findSessionByPub ss pub = some i) :
    ∃ s, ss[i]? = some s ∧ s.active = true ∧ s.staticPub = pub :=
  SlotTable.lookup_eq_some h

theorem findSessionByPub_eq_none :
    findSessionByPub ss pub = none ↔
      ∀ (i : ℕ) (s : PeerSession Key), ss[i]? = some s → s.active = true → s.staticPub ≠ pub :=
  SlotTable.lookup_eq_none

/-- Addresses are distinct exactly when `find_session_by_addr` returns every
active session for its own address. -/
theorem distinctAddrs_iff :
    DistinctAddrs ss ↔ ∀ (i : ℕ) (s : PeerSession Key), ss[i]? = some s → s.active = true →
      findSessionByAddr ss s.addr = some i :=
  SlotTable.unique_iff_lookup

theorem DistinctPubs.findSessionByPub (h : DistinctPubs ss) {s : PeerSession Key}
    (hs : ss[i]? = some s) (ha : s.active = true) : findSessionByPub ss s.staticPub = some i :=
  SlotTable.Unique.lookup_self h hs ha

variable [Inhabited Key]

/-- The slot `alloc_session` returns for a key and an address, with the session
the slot holds. -/
inductive Alloc (ss : List (PeerSession Key)) (pub : Bytes) (addr : SockAddr) :
    ℕ → PeerSession Key → Prop
  /-- the active session of this key -/
  | byPub {i : ℕ} {s : PeerSession Key} (hs : ss[i]? = some s) (ha : s.active = true)
      (hpub : s.staticPub = pub) (hfind : findSessionByPub ss pub = some i) : Alloc ss pub addr i s
  /-- an active session at this address, of another key -/
  | byAddr {i : ℕ} {s : PeerSession Key} (hnone : findSessionByPub ss pub = none)
      (hs : ss[i]? = some s) (ha : s.active = true) (haddr : s.addr = addr)
      (hfind : findSessionByAddr ss addr = some i) : Alloc ss pub addr i s
  /-- an inactive slot -/
  | free {i : ℕ} {s : PeerSession Key} (hpub : findSessionByPub ss pub = none)
      (haddr : findSessionByAddr ss addr = none) (hs : ss[i]? = some s) (ha : s.active = false) :
      Alloc ss pub addr i s
  /-- a new slot -/
  | fresh (hpub : findSessionByPub ss pub = none) (haddr : findSessionByAddr ss addr = none)
      (hlen : ss.length < maxPeers) : Alloc ss pub addr ss.length PeerSession.zero

theorem allocSession_eq_some {ss' : List (PeerSession Key)}
    (h : allocSession ss pub addr = some (i, ss')) :
    ∃ s, Alloc ss pub addr i s ∧ ∀ f, SlotTable.Updated ss i (f s) (ss'.modify i f) := by
  unfold allocSession at h
  split at h
  · next j hpub =>
    obtain ⟨rfl, rfl⟩ := Prod.mk.injEq .. ▸ Option.some.inj h
    obtain ⟨s, hs, ha, hp⟩ := findSessionByPub_eq_some hpub
    exact ⟨s, .byPub hs ha hp hpub, SlotTable.updated_modify hs⟩
  · next hpub =>
    split at h
    · next j haddr =>
      obtain ⟨rfl, rfl⟩ := Prod.mk.injEq .. ▸ Option.some.inj h
      obtain ⟨s, hs, ha, hp⟩ := findSessionByAddr_eq_some haddr
      exact ⟨s, .byAddr hpub hs ha hp haddr, SlotTable.updated_modify hs⟩
    · next haddr =>
      split at h
      · next j hfree =>
        obtain ⟨rfl, rfl⟩ := Prod.mk.injEq .. ▸ Option.some.inj h
        obtain ⟨hj, hinact, -⟩ := List.findIdx?_eq_some_iff_getElem.mp hfree
        have hs := List.getElem?_eq_getElem hj
        exact ⟨ss[j], .free hpub haddr hs (by simpa using hinact), SlotTable.updated_modify hs⟩
      · split at h
        · exact absurd h (by simp)
        · next hlen =>
          obtain ⟨rfl, rfl⟩ := Prod.mk.injEq .. ▸ Option.some.inj h
          refine ⟨_, .fresh hpub haddr (by omega), fun f => ?_⟩
          exact SlotTable.updated_append_modify ss PeerSession.zero f

/-- A handshake that is complete and goes to `alloc_session` and `session_init`. -/
structure Commit (Key : Type) where
  src : SockAddr
  pub : Bytes
  key : Key
  cfg : PeerConfig
  isOutbound : Bool
  /-- the datagram that completed it -/
  cause : Bytes
  clk : InitClock

/-- The session `session_init` leaves in a slot that held `s`. -/
def Commit.session (c : Commit Key) (settings : Settings) (s : PeerSession Key) :
    PeerSession Key :=
  sessionInit settings c.clk s c.src c.pub c.key (some c.cfg) c.isOutbound

/-- The session table after a completed handshake. -/
def installTable (settings : Settings) (c : Commit Key) (ss : List (PeerSession Key)) :
    List (PeerSession Key) :=
  match allocSession ss c.pub c.src with
  | none => ss
  | some (slot, ss') => ss'.modify slot (c.session settings)

/-- An install does nothing if the table is full, or rewrites one slot. -/
theorem installTable_cases (settings : Settings) (c : Commit Key) (ss : List (PeerSession Key)) :
    (allocSession ss c.pub c.src = none ∧ installTable settings c ss = ss) ∨
    ∃ slot s, (allocSession ss c.pub c.src).map Prod.fst = some slot ∧
      Alloc ss c.pub c.src slot s ∧
      SlotTable.Updated ss slot (c.session settings s) (installTable settings c ss) := by
  unfold installTable
  cases h : allocSession ss c.pub c.src with
  | none => exact Or.inl ⟨rfl, rfl⟩
  | some r =>
    obtain ⟨slot, ss'⟩ := r
    obtain ⟨s, halloc, hupd⟩ := allocSession_eq_some h
    exact Or.inr ⟨slot, s, rfl, halloc, hupd _⟩

/-- No active session other than the one in the slot found has the key. -/
theorem Alloc.pub_free {slot : ℕ} {s : PeerSession Key} (h : Alloc ss pub addr slot s)
    (hd : DistinctPubs ss) {j : ℕ} {b : PeerSession Key} (hj : j ≠ slot) (hb : ss[j]? = some b)
    (ha : b.active = true) : b.staticPub ≠ pub := by
  cases h with
  | byPub hs hact hpub _ =>
    rintro rfl
    exact hj (hd j slot b s hb hs ha hact hpub.symm)
  | byAddr hnone _ _ _ _ => exact findSessionByPub_eq_none.mp hnone j b hb ha
  | free hnone _ _ _ => exact findSessionByPub_eq_none.mp hnone j b hb ha
  | fresh hnone _ _ => exact findSessionByPub_eq_none.mp hnone j b hb ha

theorem DistinctPubs.install (h : DistinctPubs ss) (settings : Settings) (c : Commit Key) :
    DistinctPubs (installTable settings c ss) := by
  rcases installTable_cases settings c ss with ⟨-, he⟩ | ⟨slot, s, -, halloc, hupd⟩
  · rw [he]
    exact h
  · exact SlotTable.Unique.update h hupd fun _ j b hj hb ha => halloc.pub_free h hj hb ha

end LaneCove

import Mathlib.Data.List.Pairwise
import Mathlib.Data.List.Perm.Basic
import Mathlib.Data.Set.Insert
import Mathlib.Logic.Relation
import Mathlib.Tactic.Common

/-!
# Switching keys over two ordered channels

Two parties exchange numbered data under a shared key over two channels that keep
the order of messages and may lose them. The initiator opens a switch to a new
key; the responder moves to the new key when it answers and remembers the previous
one; the initiator moves when the answer arrives. The initiator may give up a
switch it has opened at any time.

The rules under which this is safe are part of the step relation: the responder
answers only a switch that is not given up and only if no other answer is on its
way, and no answer is lost. Everything else may happen in any order.

## Main definitions

- `KeySwitch.Link` — the two parties and what is on its way
- `KeySwitch.Step` — one step
- `KeySwitch.Sync`, `KeySwitch.Ahead` — the two phases of a link
- `KeySwitch.Inv` — the invariant

## Main results

- `KeySwitch.Inv.step`, `KeySwitch.Inv.steps` — every sequence of steps keeps it
- `KeySwitch.Inv.readable_toR`, `KeySwitch.Inv.readable_toI` — what arrives is under
  a key the receiver has, and newer than all it has accepted under its current key
-/

namespace KeySwitch

variable {M K α : Type*}

/-- A message: a switch is opened, it is answered with a key, or data. -/
inductive Msg (M K α : Type*)
  | init (m : M)
  | resp (m : M) (k : K)
  | data (k : K) (n : ℕ) (x : α)

/-- One end: its current and its previous key, the least number its next message may have,
and the numbers it has accepted under the current key. -/
structure Party (K : Type*) where
  cur : Option K
  prev : Option K
  next : ℕ
  seen : List ℕ

/-- Has the party this key? -/
def Party.Knows (p : Party K) (k : K) : Prop := p.cur = some k ∨ p.prev = some k

/-- The state of a link. -/
structure Link (M K α : Type*) where
  i : Party K
  r : Party K
  toR : List (Msg M K α)
  toI : List (Msg M K α)
  /-- the switches that are not given up -/
  active : Set M
  /-- all switches that were ever opened -/
  opened : Set M
  /-- all keys that were ever used -/
  keys : Set K

/-- One step of a link. -/
inductive Step : Link M K α → Link M K α → Prop
  /-- the initiator opens a switch -/
  | start {s : Link M K α} (m : M) (hm : m ∉ s.opened) :
      Step s { s with
        toR := s.toR ++ [.init m], active := insert m s.active, opened := insert m s.opened }
  /-- the initiator gives up switches -/
  | giveUp {s : Link M K α} {active : Set M} (h : active ⊆ s.active) : Step s { s with active }
  /-- data is sent; numbers may be left out -/
  | sendI {s : Link M K α} {k : K} {n : ℕ} (hk : s.i.cur = some k) (hn : s.i.next ≤ n) (x : α) :
      Step s { s with i.next := n + 1, toR := s.toR ++ [.data k n x] }
  | sendR {s : Link M K α} {k : K} {n : ℕ} (hk : s.r.cur = some k) (hn : s.r.next ≤ n) (x : α) :
      Step s { s with r.next := n + 1, toI := s.toI ++ [.data k n x] }
  /-- the responder answers, and moves to the new key -/
  | answer {s : Link M K α} {m : M} {rest : List (Msg M K α)} (h : s.toR = .init m :: rest)
      (hact : m ∈ s.active) (hone : ∀ m' k', .resp m' k' ∉ s.toI) (k : K) (hk : k ∉ s.keys) :
      Step s { s with
        r := ⟨some k, s.r.cur, 0, []⟩, toR := rest, toI := s.toI ++ [.resp m k],
        keys := insert k s.keys }
  /-- the answer arrives, and the initiator moves to the new key -/
  | complete {s : Link M K α} {m : M} {k : K} {rest : List (Msg M K α)}
      (h : s.toI = .resp m k :: rest) (hact : s.active ⊆ {m}) :
      Step s { s with i := ⟨some k, s.i.cur, 0, []⟩, toI := rest, active := ∅ }
  /-- a message is lost, or arrives without an effect on the receiver -/
  | loseR {s : Link M K α} {msg : Msg M K α} {rest : List (Msg M K α)} (h : s.toR = msg :: rest) :
      Step s { s with toR := rest }
  | loseI {s : Link M K α} {k : K} {n : ℕ} {x : α} {rest : List (Msg M K α)}
      (h : s.toI = .data k n x :: rest) : Step s { s with toI := rest }
  /-- data is accepted under the current key -/
  | acceptR {s : Link M K α} {k : K} {n : ℕ} {x : α} {rest : List (Msg M K α)}
      (h : s.toR = .data k n x :: rest) (hk : s.r.cur = some k) :
      Step s { s with r.prev := none, r.seen := s.r.seen ++ [n], toR := rest }
  | acceptI {s : Link M K α} {k : K} {n : ℕ} {x : α} {rest : List (Msg M K α)}
      (h : s.toI = .data k n x :: rest) (hk : s.i.cur = some k) :
      Step s { s with i.prev := none, i.seen := s.i.seen ++ [n], toI := rest }

/-- Data under the key `c`. -/
def Msg.Under (c : Option K) : Msg M K α → Prop
  | .data k _ _ => c = some k
  | .init _ | .resp .. => False

def Msg.IsInit : Msg M K α → Prop
  | .init _ => True
  | .data .. | .resp .. => False

/-- Nothing that changes the responder: data under another key than `c`, or a switch
that was given up. -/
def Msg.Stale (c : Option K) (active : Set M) : Msg M K α → Prop
  | .data k _ _ => c ≠ some k
  | .init m => m ∉ active
  | .resp .. => False

/-- The number of a data message. -/
def Msg.num : Msg M K α → Option ℕ
  | .data _ n _ => some n
  | .init _ | .resp .. => none

/-- The switch a message belongs to. -/
def Msg.switch : Msg M K α → Option M
  | .init m | .resp m _ => some m
  | .data .. => none

/-- The numbers of the data messages in a channel, in order. -/
def nums (msgs : List (Msg M K α)) : List ℕ := msgs.filterMap Msg.num

/-- The switches on their way, in either direction. -/
def Link.switches (s : Link M K α) : List M :=
  s.toR.filterMap Msg.switch ++ s.toI.filterMap Msg.switch

/-- Both parties use the same key. What the responder will still see of earlier keys
comes first in its channel. -/
structure Sync (s : Link M K α) (old new : List (Msg M K α)) : Prop where
  toR : s.toR = old ++ new
  cur : s.r.cur = s.i.cur
  old_stale : ∀ msg ∈ old, msg.Stale s.r.cur s.active
  new_live : ∀ msg ∈ new, msg.IsInit ∨ msg.Under s.i.cur
  toI_under : ∀ msg ∈ s.toI, msg.Under s.i.cur
  order_toR : (s.r.seen ++ nums new ++ [s.i.next]).Pairwise (· < ·)
  order_toI : (s.i.seen ++ nums s.toI ++ [s.r.next]).Pairwise (· < ·)

/-- The responder has moved to the key `k`, and its answer is on its way. -/
structure Ahead (s : Link M K α) (m : M) (k : K) (pre post : List (Msg M K α)) : Prop where
  toI : s.toI = pre ++ .resp m k :: post
  cur : s.r.cur = some k
  ne : s.i.cur ≠ some k
  toR_live : ∀ msg ∈ s.toR, msg.IsInit ∨ msg.Under s.i.cur
  pre_under : ∀ msg ∈ pre, msg.Under s.i.cur
  post_under : ∀ msg ∈ post, msg.Under (some k)
  seen : s.r.seen = []
  order_pre : (s.i.seen ++ nums pre).Pairwise (· < ·)
  order_post : (nums post ++ [s.r.next]).Pairwise (· < ·)

/-- The phase of a link. -/
inductive Phase (s : Link M K α) : Prop
  | sync (old new : List (Msg M K α)) (h : Sync s old new)
  | ahead (m : M) (k : K) (pre post : List (Msg M K α)) (h : Ahead s m k pre post)

/-- The invariant of a link. -/
structure Inv (s : Link M K α) : Prop where
  phase : Phase s
  /-- the responder has the keys of all data that is sent to it or will be next -/
  data_known : ∀ msg ∈ s.toR, ∀ k, msg.Under (some k) → s.r.Knows k
  cur_known : ∀ k, s.i.cur = some k → s.r.Knows k
  known : ∀ k, s.r.Knows k → k ∈ s.keys
  nodup : s.switches.Nodup
  switches_opened : ∀ m ∈ s.switches, m ∈ s.opened

@[simp] theorem nums_append (l l' : List (Msg M K α)) : nums (l ++ l') = nums l ++ nums l' :=
  List.filterMap_append

@[simp] theorem nums_nil : nums ([] : List (Msg M K α)) = [] := rfl

@[simp] theorem nums_data (k : K) (n : ℕ) (x : α) (l : List (Msg M K α)) :
    nums (.data k n x :: l) = n :: nums l := rfl

@[simp] theorem nums_init (m : M) (l : List (Msg M K α)) : nums (.init m :: l) = nums l := rfl

theorem Msg.Under.data_eq {c : Option K} {k : K} {n : ℕ} {x : α}
    (h : (Msg.data k n x : Msg M K α).Under c) : c = some k := h

theorem order_send {l : List ℕ} {next n : ℕ} (h : (l ++ [next]).Pairwise (· < ·))
    (hn : next ≤ n) : (l ++ [n] ++ [n + 1]).Pairwise (· < ·) := by
  have hlt : ∀ a ∈ l, a < n := fun a ha =>
    ((List.pairwise_append.mp h).2.2 a ha next (List.mem_singleton_self next)).trans_le hn
  simp only [List.pairwise_append, List.mem_append, List.mem_singleton, forall_eq,
    List.pairwise_singleton, true_and]
  refine ⟨⟨(List.pairwise_append.mp h).1, hlt⟩, ?_⟩
  rintro a (ha | rfl)
  · exact (hlt a ha).trans (Nat.lt_succ_self n)
  · exact Nat.lt_succ_self a

theorem Msg.Stale.mono {c : Option K} {active active' : Set M} {msg : Msg M K α}
    (h : msg.Stale c active) (hsub : active' ⊆ active) : msg.Stale c active' := by
  cases msg with
  | init m => exact fun hm => h (hsub hm)
  | resp => exact h
  | data => exact h

theorem Msg.Stale.insert {c : Option K} {active : Set M} {msg : Msg M K α} {m : M}
    (h : msg.Stale c active) (hne : msg.switch ≠ some m) :
    msg.Stale c (Insert.insert m active) := by
  cases msg with
  | init m' =>
    rintro (rfl | hm)
    · exact hne rfl
    · exact h hm
  | resp => exact h
  | data => exact h

variable {s : Link M K α} {m : M} {k : K} {n : ℕ} {x : α} {rest : List (Msg M K α)}

theorem Link.mem_switches {msg : Msg M K α} (hmsg : msg ∈ s.toR ∨ msg ∈ s.toI)
    (hm : msg.switch = some m) : m ∈ s.switches := by
  rcases hmsg with hmsg | hmsg
  · exact List.mem_append_left _ (List.mem_filterMap.mpr ⟨msg, hmsg, hm⟩)
  · exact List.mem_append_right _ (List.mem_filterMap.mpr ⟨msg, hmsg, hm⟩)

theorem Phase.start (h : Phase s) (hs : ∀ m ∈ s.switches, m ∈ s.opened) (hm : m ∉ s.opened) :
    Phase { s with
      toR := s.toR ++ [.init m], active := insert m s.active, opened := insert m s.opened } := by
  cases h with
  | sync old new h =>
    refine .sync old (new ++ [Msg.init m]) { h with
      toR := by simp [h.toR]
      old_stale := fun msg hmsg => (h.old_stale msg hmsg).insert fun heq => hm (hs m ?_)
      new_live := fun msg hmsg => ?_
      order_toR := by simpa using h.order_toR }
    · exact Link.mem_switches (Or.inl (h.toR ▸ List.mem_append_left _ hmsg)) heq
    · rcases List.mem_append.mp hmsg with hmsg | hmsg
      · exact h.new_live msg hmsg
      · rw [List.mem_singleton.mp hmsg]
        exact Or.inl trivial
  | ahead m' k' pre post h =>
    refine .ahead m' k' pre post { h with toR_live := fun msg hmsg => ?_ }
    rcases List.mem_append.mp hmsg with hmsg | hmsg
    · exact h.toR_live msg hmsg
    · rw [List.mem_singleton.mp hmsg]
      exact Or.inl trivial

theorem Phase.giveUp {active : Set M} (h : Phase s) (hsub : active ⊆ s.active) :
    Phase { s with active } := by
  cases h with
  | sync old new h =>
    exact .sync old new { h with old_stale := fun msg hmsg => (h.old_stale msg hmsg).mono hsub }
  | ahead m' k' pre post h => exact .ahead m' k' pre post { h with }

theorem Phase.sendI (h : Phase s) (hk : s.i.cur = some k) (hn : s.i.next ≤ n) :
    Phase { s with i.next := n + 1, toR := s.toR ++ [.data k n x] } := by
  cases h with
  | sync old new h =>
    refine .sync old (new ++ [Msg.data k n x]) { h with
      toR := by simp [h.toR]
      new_live := fun msg hmsg => ?_
      order_toR := ?_ }
    · rcases List.mem_append.mp hmsg with hmsg | hmsg
      · exact h.new_live msg hmsg
      · rw [List.mem_singleton.mp hmsg]
        exact Or.inr hk
    · simpa using order_send h.order_toR hn
  | ahead m' k' pre post h =>
    refine .ahead m' k' pre post { h with toR_live := fun msg hmsg => ?_ }
    rcases List.mem_append.mp hmsg with hmsg | hmsg
    · exact h.toR_live msg hmsg
    · rw [List.mem_singleton.mp hmsg]
      exact Or.inr hk

theorem Phase.sendR (h : Phase s) (hk : s.r.cur = some k) (hn : s.r.next ≤ n) :
    Phase { s with r.next := n + 1, toI := s.toI ++ [.data k n x] } := by
  cases h with
  | sync old new h =>
    refine .sync old new { h with toI_under := fun msg hmsg => ?_, order_toI := ?_ }
    · rcases List.mem_append.mp hmsg with hmsg | hmsg
      · exact h.toI_under msg hmsg
      · rw [List.mem_singleton.mp hmsg]
        exact h.cur.symm.trans hk
    · simpa using order_send h.order_toI hn
  | ahead m' k' pre post h =>
    obtain rfl : k' = k := Option.some.inj (h.cur.symm.trans hk)
    refine .ahead m' k' pre (post ++ [Msg.data k' n x]) { h with
      toI := by simp [h.toI]
      post_under := fun msg hmsg => ?_
      order_post := by simpa using order_send h.order_post hn }
    rcases List.mem_append.mp hmsg with hmsg | hmsg
    · exact h.post_under msg hmsg
    · rw [List.mem_singleton.mp hmsg]
      rfl

/-- An answer that meets the rules finds both parties at the same key. -/
theorem Phase.answer (h : Phase s) (hR : s.toR = .init m :: rest) (hact : m ∈ s.active)
    (hone : ∀ m' k', .resp m' k' ∉ s.toI) (hk : s.i.cur ≠ some k) :
    s.r.cur = s.i.cur ∧ Ahead { s with
      r := ⟨some k, s.r.cur, 0, []⟩, toR := rest, toI := s.toI ++ [.resp m k],
      keys := insert k s.keys } m k s.toI [] := by
  cases h with
  | sync old new h =>
    cases old with
    | cons msg old =>
      obtain ⟨rfl, -⟩ := List.cons.inj (hR.symm.trans h.toR)
      exact absurd hact (h.old_stale _ List.mem_cons_self)
    | nil =>
      obtain rfl : .init m :: rest = new := hR.symm.trans h.toR
      exact ⟨h.cur, {
        toI := rfl
        cur := rfl
        ne := hk
        toR_live := fun msg hmsg => h.new_live msg (List.mem_cons_of_mem _ hmsg)
        pre_under := h.toI_under
        post_under := fun msg hmsg => absurd hmsg List.not_mem_nil
        seen := rfl
        order_pre := (List.pairwise_append.mp h.order_toI).1
        order_post := List.pairwise_singleton _ _ }⟩
  | ahead m' k' pre post h =>
    refine absurd ?_ (hone m' k')
    rw [h.toI]
    exact List.mem_append_right _ List.mem_cons_self

/-- The answer that arrives is the one on its way, and all that the responder will
still see is under an earlier key. -/
theorem Phase.complete (h : Phase s) (hI : s.toI = .resp m k :: rest) :
    s.r.cur = some k ∧
      Sync { s with i := ⟨some k, s.i.cur, 0, []⟩, toI := rest, active := ∅ } s.toR [] := by
  cases h with
  | sync old new h => exact (h.toI_under (.resp m k) (hI ▸ List.mem_cons_self)).elim
  | ahead m' k' pre post h =>
    cases pre with
    | cons msg pre =>
      obtain ⟨rfl, -⟩ := List.cons.inj (hI.symm.trans h.toI)
      exact (h.pre_under _ List.mem_cons_self).elim
    | nil =>
      obtain ⟨heq, rfl⟩ := List.cons.inj (hI.symm.trans h.toI)
      obtain ⟨rfl, rfl⟩ := Msg.resp.inj heq
      refine ⟨h.cur, {
        toR := (List.append_nil _).symm
        cur := h.cur
        old_stale := fun msg hmsg => ?_
        new_live := fun msg hmsg => absurd hmsg List.not_mem_nil
        toI_under := h.post_under
        order_toR := by simp [h.seen]
        order_toI := by simpa using h.order_post }⟩
      rcases h.toR_live msg hmsg with hinit | hunder
      · cases msg with
        | init m' => exact Set.notMem_empty m'
        | resp => exact hinit.elim
        | data => exact hinit.elim
      · cases msg with
        | init => exact hunder.elim
        | resp => exact hunder.elim
        | data k' n x => exact fun hcur => h.ne (hunder.trans (hcur.symm.trans h.cur))

theorem Phase.loseR {msg : Msg M K α} (h : Phase s) (hR : s.toR = msg :: rest) :
    Phase { s with toR := rest } := by
  cases h with
  | sync old new h =>
    cases old with
    | cons msg' old =>
      obtain ⟨rfl, rfl⟩ := List.cons.inj (hR.symm.trans h.toR)
      exact .sync old new { h with
        toR := rfl
        old_stale := fun msg' hmsg => h.old_stale msg' (List.mem_cons_of_mem _ hmsg) }
    | nil =>
      obtain rfl : msg :: rest = new := hR.symm.trans h.toR
      refine .sync [] rest { h with
        toR := rfl
        new_live := fun msg' hmsg => h.new_live msg' (List.mem_cons_of_mem _ hmsg)
        order_toR := h.order_toR.sublist ?_ }
      exact ((List.sublist_cons_self msg rest).filterMap _).append_left _ |>.append_right _
  | ahead m' k' pre post h =>
    exact .ahead m' k' pre post { h with
      toR_live := fun msg' hmsg => h.toR_live msg' (hR ▸ List.mem_cons_of_mem _ hmsg) }

theorem Phase.loseI (h : Phase s) (hI : s.toI = .data k n x :: rest) :
    Phase { s with toI := rest } := by
  cases h with
  | sync old new h =>
    refine .sync old new { h with
      toI_under := fun msg hmsg => h.toI_under msg (hI ▸ List.mem_cons_of_mem _ hmsg)
      order_toI := h.order_toI.sublist ?_ }
    rw [hI]
    exact ((List.sublist_cons_self _ rest).filterMap _).append_left _ |>.append_right _
  | ahead m' k' pre post h =>
    cases pre with
    | nil => exact absurd (List.cons.inj (hI.symm.trans h.toI)).1 (by simp)
    | cons msg pre =>
      obtain ⟨rfl, rfl⟩ := List.cons.inj (hI.symm.trans h.toI)
      refine .ahead m' k' pre post { h with
        toI := rfl
        pre_under := fun msg hmsg => h.pre_under msg (List.mem_cons_of_mem _ hmsg)
        order_pre := h.order_pre.sublist ?_ }
      exact ((List.sublist_cons_self _ pre).filterMap _).append_left _

/-- Data under the responder's current key comes after all that is under earlier keys. -/
theorem Phase.acceptR (h : Phase s) (hR : s.toR = .data k n x :: rest) (hk : s.r.cur = some k) :
    (∀ j ∈ s.r.seen, j < n) ∧
      Sync { s with r.prev := none, r.seen := s.r.seen ++ [n], toR := rest } [] rest := by
  cases h with
  | sync old new h =>
    cases old with
    | cons msg old =>
      obtain ⟨rfl, -⟩ := List.cons.inj (hR.symm.trans h.toR)
      exact absurd hk (h.old_stale _ List.mem_cons_self)
    | nil =>
      obtain rfl : .data k n x :: rest = new := hR.symm.trans h.toR
      have horder : (s.r.seen ++ (n :: nums rest ++ [s.i.next])).Pairwise (· < ·) := by
        simpa using h.order_toR
      refine ⟨fun j hj => (List.pairwise_append.mp horder).2.2 j hj n List.mem_cons_self, { h with
        toR := rfl
        old_stale := fun msg hmsg => absurd hmsg List.not_mem_nil
        new_live := fun msg hmsg => h.new_live msg (List.mem_cons_of_mem _ hmsg)
        order_toR := by simpa using horder }⟩
  | ahead m' k' pre post h =>
    rcases h.toR_live _ (hR ▸ List.mem_cons_self) with hinit | hunder
    · exact hinit.elim
    · exact absurd (hunder.data_eq.trans (hk.symm.trans h.cur)) h.ne

/-- Data for the initiator is under its current key. -/
theorem Phase.acceptI (h : Phase s) (hI : s.toI = .data k n x :: rest) :
    s.i.cur = some k ∧ (∀ j ∈ s.i.seen, j < n) ∧
      Phase { s with i.prev := none, i.seen := s.i.seen ++ [n], toI := rest } := by
  cases h with
  | sync old new h =>
    have horder : (s.i.seen ++ (n :: nums rest ++ [s.r.next])).Pairwise (· < ·) := by
      simpa [hI] using h.order_toI
    exact ⟨(h.toI_under _ (hI ▸ List.mem_cons_self)).data_eq,
      fun j hj => (List.pairwise_append.mp horder).2.2 j hj n List.mem_cons_self,
      .sync old new { h with
        toI_under := fun msg hmsg => h.toI_under msg (hI ▸ List.mem_cons_of_mem _ hmsg)
        order_toI := by simpa using horder }⟩
  | ahead m' k' pre post h =>
    cases pre with
    | nil => exact absurd (List.cons.inj (hI.symm.trans h.toI)).1 (by simp)
    | cons msg pre =>
      obtain ⟨rfl, rfl⟩ := List.cons.inj (hI.symm.trans h.toI)
      have horder : (s.i.seen ++ n :: nums pre).Pairwise (· < ·) := by
        simpa using h.order_pre
      exact ⟨(h.pre_under _ List.mem_cons_self).data_eq,
        fun j hj => (List.pairwise_append.mp horder).2.2 j hj n List.mem_cons_self,
        .ahead m' k' pre post { h with
          toI := rfl
          pre_under := fun msg hmsg => h.pre_under msg (List.mem_cons_of_mem _ hmsg)
          order_pre := by simpa using horder }⟩

/-- No key yet, and nothing on its way. -/
def Link.idle : Link M K α where
  i := ⟨none, none, 0, []⟩
  r := ⟨none, none, 0, []⟩
  toR := []
  toI := []
  active := ∅
  opened := ∅
  keys := ∅

theorem inv_idle : Inv (Link.idle : Link M K α) where
  phase := .sync [] [] ⟨rfl, rfl, by simp, by simp, by simp [Link.idle], by simp [Link.idle],
    by simp [Link.idle]⟩
  data_known := by simp [Link.idle]
  cur_known := by simp [Link.idle]
  known := by simp [Link.idle, Party.Knows]
  nodup := List.nodup_nil
  switches_opened := by simp [Link.idle, Link.switches]

theorem Msg.Under.of_live {c : Option K} {msg : Msg M K α} (hlive : msg.IsInit ∨ msg.Under c)
    (hunder : msg.Under (some k)) : c = some k := by
  cases msg with
  | init => exact hunder.elim
  | resp => exact hunder.elim
  | data k' n x =>
    rcases hlive with h | h
    · exact h.elim
    · exact h.trans hunder.data_eq.symm

/-- Losing messages leaves fewer switches on their way. -/
theorem Inv.sublist {toR toI : List (Msg M K α)} (h : Inv s) (hR : toR.Sublist s.toR)
    (hI : toI.Sublist s.toI) (hphase : Phase { s with toR, toI }) : Inv { s with toR, toI } := by
  have hsub : (toR.filterMap Msg.switch ++ toI.filterMap Msg.switch).Sublist s.switches :=
    (hR.filterMap _).append (hI.filterMap _)
  exact ⟨hphase, fun msg hmsg => h.data_known msg (hR.subset hmsg), h.cur_known, h.known,
    h.nodup.sublist hsub, fun m hm => h.switches_opened m (hsub.subset hm)⟩

/-- More data on its way leaves the switches as they are. -/
theorem filterMap_switch_data (msgs : List (Msg M K α)) (k : K) (n : ℕ) (x : α) :
    (msgs ++ [Msg.data k n x]).filterMap Msg.switch = msgs.filterMap Msg.switch := by
  rw [List.filterMap_append]
  exact List.append_nil _

/-- **Every step keeps the invariant.** -/
theorem Inv.step {s' : Link M K α} (h : Inv s) (hstep : Step s s') : Inv s' := by
  cases hstep with
  | start m hm =>
    have hperm : (m :: s.switches).Perm (Link.switches { s with
        toR := s.toR ++ [.init m], active := insert m s.active, opened := insert m s.opened }) := by
      simp only [Link.switches, List.filterMap_append, List.append_assoc]
      exact List.perm_middle.symm
    refine { h with
      phase := h.phase.start h.switches_opened hm
      data_known := fun msg hmsg k hk => ?_
      nodup := ?_
      switches_opened := fun m' hm' => ?_ }
    · rcases List.mem_append.mp hmsg with hmsg | hmsg
      · exact h.data_known msg hmsg k hk
      · rw [List.mem_singleton.mp hmsg] at hk
        exact hk.elim
    · exact hperm.nodup (List.nodup_cons.mpr ⟨fun hmem => hm (h.switches_opened m hmem), h.nodup⟩)
    · rcases List.mem_cons.mp (hperm.mem_iff.mpr hm') with rfl | hmem
      · exact Set.mem_insert _ _
      · exact Set.mem_insert_of_mem _ (h.switches_opened m' hmem)
  | giveUp hsub => exact { h with phase := h.phase.giveUp hsub }
  | sendI hk hn x =>
    refine { h with
      phase := h.phase.sendI hk hn
      data_known := fun msg hmsg k' hk' => ?_
      nodup := by simpa only [Link.switches, filterMap_switch_data] using h.nodup
      switches_opened := by
        simpa only [Link.switches, filterMap_switch_data] using h.switches_opened }
    rcases List.mem_append.mp hmsg with hmsg | hmsg
    · exact h.data_known msg hmsg k' hk'
    · rw [List.mem_singleton.mp hmsg] at hk'
      exact h.cur_known k' (hk.trans hk'.data_eq.symm)
  | sendR hk hn x =>
    exact { h with
      phase := h.phase.sendR hk hn
      nodup := by simpa only [Link.switches, filterMap_switch_data] using h.nodup
      switches_opened := by
        simpa only [Link.switches, filterMap_switch_data] using h.switches_opened }
  | @answer m rest hR hact hone k hk =>
    have hne : s.i.cur ≠ some k := fun heq => hk (h.known k (h.cur_known k heq))
    obtain ⟨hcur, hahead⟩ := h.phase.answer hR hact hone hne
    have hperm : s.switches.Perm (Link.switches { s with
        r := ⟨some k, s.r.cur, 0, []⟩, toR := rest, toI := s.toI ++ [.resp m k],
        keys := insert k s.keys }) := by
      simp only [Link.switches, hR, List.filterMap_append, List.filterMap_cons, Msg.switch,
        List.filterMap_nil, List.cons_append]
      exact List.perm_middle.symm.trans
        (List.Perm.append_left _ (List.perm_append_singleton _ _).symm)
    refine ⟨.ahead m k s.toI [] hahead, fun msg hmsg k' hk' => ?_, fun k' hk' => ?_,
      fun k' hk' => ?_, hperm.nodup h.nodup,
      fun m' hm' => h.switches_opened m' (hperm.mem_iff.mpr hm')⟩
    · exact Or.inr (hcur.trans (Msg.Under.of_live (hahead.toR_live msg hmsg) hk'))
    · exact Or.inr (hcur.trans hk')
    · rcases hk' with heq | heq
      · obtain rfl : k = k' := Option.some.inj heq
        exact Set.mem_insert _ _
      · exact Set.mem_insert_of_mem _ (h.known k' (Or.inl heq))
  | @complete m k rest hI hact =>
    obtain ⟨hcur, hsync⟩ := h.phase.complete hI
    have hsub : (s.toR.filterMap Msg.switch ++ rest.filterMap Msg.switch).Sublist s.switches := by
      rw [Link.switches, hI]
      exact ((List.sublist_cons_self _ rest).filterMap _).append_left _
    exact { h with
      phase := .sync s.toR [] hsync
      cur_known := fun k' hk' => Or.inl (hcur.trans hk')
      nodup := h.nodup.sublist hsub
      switches_opened := fun m' hm' => h.switches_opened m' (hsub.subset hm') }
  | @loseR msg rest hR =>
    exact h.sublist (hR ▸ List.sublist_cons_self _ _) (List.Sublist.refl _) (h.phase.loseR hR)
  | @loseI k n x rest hI =>
    exact h.sublist (List.Sublist.refl _) (hI ▸ List.sublist_cons_self _ _) (h.phase.loseI hI)
  | @acceptR k n x rest hR hk =>
    obtain ⟨-, hsync⟩ := h.phase.acceptR hR hk
    have hlose := h.sublist (hR ▸ List.sublist_cons_self _ _) (List.Sublist.refl _)
      (h.phase.loseR hR)
    exact ⟨.sync [] rest hsync,
      fun msg hmsg k' hk' =>
        Or.inl (hsync.cur.trans (Msg.Under.of_live (hsync.new_live msg hmsg) hk')),
      fun k' hk' => Or.inl (hsync.cur.trans hk'),
      fun k' hk' => h.known k' (hk'.elim Or.inl (by simp)), hlose.nodup, hlose.switches_opened⟩
  | @acceptI k n x rest hI hk =>
    have hlose := h.sublist (List.Sublist.refl _) (hI ▸ List.sublist_cons_self _ _)
      (h.phase.loseI hI)
    exact { hlose with
      phase := (h.phase.acceptI hI).2.2
      cur_known := h.cur_known }

theorem Inv.steps {s' : Link M K α} (h : Inv s) (hsteps : Relation.ReflTransGen Step s s') :
    Inv s' := by
  induction hsteps with
  | refl => exact h
  | tail _ hstep ih => exact ih.step hstep

/-- What arrives at the responder is under its current key and newer than all it has
accepted, or under its previous key. -/
theorem Inv.readable_toR (h : Inv s) (hR : s.toR = .data k n x :: rest) :
    (s.r.cur = some k ∧ ∀ j ∈ s.r.seen, j < n) ∨ (s.r.cur ≠ some k ∧ s.r.prev = some k) := by
  by_cases hk : s.r.cur = some k
  · exact Or.inl ⟨hk, (h.phase.acceptR hR hk).1⟩
  · refine Or.inr ⟨hk, ?_⟩
    exact (h.data_known (.data k n x) (hR ▸ List.mem_cons_self) k rfl).resolve_left hk

/-- What arrives at the initiator is under its current key and newer than all it has
accepted. -/
theorem Inv.readable_toI (h : Inv s) (hI : s.toI = .data k n x :: rest) :
    s.i.cur = some k ∧ ∀ j ∈ s.i.seen, j < n :=
  ⟨(h.phase.acceptI hI).1, (h.phase.acceptI hI).2.1⟩

/-- A switch for which an answer is on its way is not on its way to the responder. -/
theorem Inv.not_answered (h : Inv s) {m' : M} (hR : s.toR = .init m :: rest)
    (hI : .resp m' k ∈ s.toI) : m' ≠ m := by
  rintro rfl
  refine (List.nodup_append.mp h.nodup).2.2 m' ?_ m' ?_ rfl
  · rw [hR]
    exact List.mem_cons_self
  · exact List.mem_filterMap.mpr ⟨_, hI, rfl⟩

theorem Inv.not_init_toI (h : Inv s) : .init m ∉ s.toI := by
  intro hmem
  cases h.phase with
  | sync old new h => exact h.toI_under _ hmem
  | ahead m' k' pre post h =>
    rw [h.toI] at hmem
    rcases List.mem_append.mp hmem with hmem | hmem
    · exact h.pre_under _ hmem
    · exact h.post_under _ (List.mem_of_ne_of_mem (by simp) hmem)

theorem Inv.not_resp_toR (h : Inv s) : .resp m k ∉ s.toR := by
  intro hmem
  cases h.phase with
  | sync old new h =>
    rw [h.toR] at hmem
    rcases List.mem_append.mp hmem with hmem | hmem
    · exact h.old_stale _ hmem
    · exact (h.new_live _ hmem).elim id id
  | ahead m' k' pre post h => exact (h.toR_live _ hmem).elim id id

/-- If no answer is on its way, both parties use the same key. -/
theorem Inv.cur_eq (h : Inv s) (hI : ∀ m k, .resp m k ∉ s.toI) : s.r.cur = s.i.cur := by
  cases h.phase with
  | sync old new h => exact h.cur
  | ahead m' k' pre post h =>
    refine absurd ?_ (hI m' k')
    rw [h.toI]
    exact List.mem_append_right _ List.mem_cons_self

end KeySwitch

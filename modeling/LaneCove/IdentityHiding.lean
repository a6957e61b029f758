import LaneCove.Foundations.StaticEquiv
import LaneCove.Secrecy

/-!
# Identity hiding

Static public keys cross the network only under keys of the handshake. An observer that
knows all static public keys, the PSK and the static private keys of some peers sees peers run
handshakes with each other: messages arrive unchanged at the peer they are for, in any order,
any number of times, or not at all. Whoever the clients and the servers are, the observer
sees the same, as long as it has no server's static key. It computes what it likes from the
messages, and compares.

What it is not hidden from are the addresses of the packets and who answers at all, which the
two runs compared here have in common.

## Main definitions

- `Symbolic.Turn`, `Symbolic.schedule` — handshakes that nobody interferes with, as actions of
  the peers
- `Symbolic.view` — what the observer has

## Main results

- `Symbolic.logged_schedule` — the messages of such a run
- `Symbolic.identities_hidden` — runs that differ in who takes part look the same
-/

namespace LaneCove.Symbolic

open DolevYao

variable {P A : Type}

/-- What happens when the network only delivers; messages are numbered as they are sent. -/
inductive Turn (P : Type) where
  /-- `client` starts a handshake with `server` -/
  | start (client server : P)
  /-- message `j` reaches its server, which has precomputed a key -/
  | answer (j : ℕ)
  /-- message `j` reaches the client of the `i`-th pending handshake -/
  | finish (i j : ℕ)

/-- Who has sent a message, to which server or in answer to which message. -/
inductive Sent (P : Type) where
  | init (client server : P)
  | resp (server : P) (j : ℕ)

namespace Sent

/-- Whose static key the message names. -/
def sender : Sent P → P
  | init client _ => client
  | resp server _ => server

/-- The private keys behind the key that it is named under. Message `n` carries the `n`-th
ephemeral key. -/
def scalars (n : ℕ) : Sent P → Multiset (SecretKey P)
  | init _ server => {.ephemeral n, .static server}
  | resp _ j => {.ephemeral n, .ephemeral j}

def toMessage (psk : Option A) (n : ℕ) (x : Sent P) : Message P A :=
  message psk (ephPub n) (.power (x.scalars n)) (staticPub x.sender)

/-- A server is named whose static key the observer does not have. -/
def Hidden (compromised : Set P) : Sent P → Prop
  | init _ server => server ∉ compromised
  | resp .. => True

/-- The same message up to who is named. -/
inductive SameShape : Sent P → Sent P → Prop
  | init (client server client' server' : P) :
      SameShape (init client server) (init client' server')
  | resp (server server' : P) (j : ℕ) : SameShape (resp server j) (resp server' j)

end Sent

/-- The messages sent, in their order. -/
def messages (psk : Option A) (log : List (Sent P)) : List (Message P A) :=
  log.mapIdx (Sent.toMessage psk)

namespace Turn

/-- The message that a turn adds to those sent before. -/
def sent (log : List (Sent P)) : Turn P → List (Sent P)
  | start client server => [.init client server]
  | answer j =>
    match log[j]? with
    | some (.init _ server) => [.resp server j]
    | _ => []
  | finish .. => []

/-- What the peers do in a turn. -/
def actions (psk : Option A) (log : List (Sent P)) : Turn P → List (Action P A)
  | start client server => [.initiate client server]
  | answer j =>
    match log[j]? with
    | some (.init client server) =>
      [.precompute server, .deliverInit server (initiation psk client server j)]
    | _ => []
  | finish i j =>
    match (messages psk log)[j]? with
    | some m => [.deliverResp i m]
    | none => []

/-- The same turn up to who takes part. -/
inductive SameShape : Turn P → Turn P → Prop
  | start (client server client' server' : P) :
      SameShape (start client server) (start client' server')
  | answer (j : ℕ) : SameShape (answer j) (answer j)
  | finish (i j : ℕ) : SameShape (finish i j) (finish i j)

/-- The handshake is with a server whose static key the observer does not have. -/
def Hidden (compromised : Set P) : Turn P → Prop
  | start _ server => server ∉ compromised
  | _ => True

end Turn

/-- What the peers do in a run of turns. -/
def schedule (psk : Option A) (log : List (Sent P)) : List (Turn P) → List (Action P A)
  | [] => []
  | turn :: turns => turn.actions psk log ++ schedule psk (log ++ turn.sent log) turns

/-- The messages sent in it. -/
def sentBy (log : List (Sent P)) : List (Turn P) → List (Sent P)
  | [] => log
  | turn :: turns => sentBy (log ++ turn.sent log) turns

/-- The observer's names for what it has. -/
inductive Handle (P A : Type) where
  | staticPub (p : P)
  | staticKey (p : P)
  | atom (a : A)
  | ephPub (n : ℕ)
  | encStatic (n : ℕ)
  | hmac (n : ℕ)

section View

variable (compromised : Set P) [DecidablePred (· ∈ compromised)]

/-- What the observer has: all static public keys, some static private keys, the atomic keys,
and the fields of the messages, the newest of which is at the head of `network`. -/
def view (network : List (Message P A)) : Handle P A → Option (Term (SecretKey P) A)
  | .staticPub p => some (staticPub p)
  | .staticKey p => if p ∈ compromised then some (.priv (.static p)) else none
  | .atom a => some (.atom a)
  | .ephPub n => network.reverse[n]?.map (·.ephPub)
  | .encStatic n => network.reverse[n]?.map (·.encStatic)
  | .hmac n => network.reverse[n]?.bind (·.hmac)

theorem known_iff_view (network : List (Message P A)) (t : Term (SecretKey P) A) :
    Known compromised Set.univ network t ↔ ∃ h, view compromised network h = some t := by
  have hmem : ∀ m : Message P A, m ∈ network → ∃ n : ℕ, network.reverse[n]? = some m := by
    intro m hm
    exact List.mem_iff_getElem?.mp (List.mem_reverse.mpr hm)
  have hof : ∀ {n : ℕ} {m : Message P A}, network.reverse[n]? = some m → m ∈ network :=
    fun h => List.mem_reverse.mp (List.mem_of_getElem? h)
  constructor
  · intro ht
    cases ht with
    | staticPub p => exact ⟨.staticPub p, rfl⟩
    | @staticKey p hp => exact ⟨.staticKey p, if_pos hp⟩
    | @atom a _ => exact ⟨.atom a, rfl⟩
    | ephPub hm =>
      obtain ⟨n, hn⟩ := hmem _ hm
      exact ⟨.ephPub n, by simp [view, hn]⟩
    | encStatic hm =>
      obtain ⟨n, hn⟩ := hmem _ hm
      exact ⟨.encStatic n, by simp [view, hn]⟩
    | hmac hm ht =>
      obtain ⟨n, hn⟩ := hmem _ hm
      exact ⟨.hmac n, by simp [view, hn, ht]⟩
  · rintro ⟨h, hv⟩
    cases h with
    | staticPub p => exact Option.some.inj hv ▸ .staticPub p
    | staticKey p =>
      obtain ⟨hp, ht⟩ := Option.ite_none_right_eq_some.mp hv
      exact Option.some.inj ht ▸ .staticKey hp
    | atom a => exact Option.some.inj hv ▸ .atom (Set.mem_univ a)
    | ephPub n =>
      obtain ⟨m, hm, rfl⟩ := Option.map_eq_some_iff.mp hv
      exact .ephPub (hof hm)
    | encStatic n =>
      obtain ⟨m, hm, rfl⟩ := Option.map_eq_some_iff.mp hv
      exact .encStatic (hof hm)
    | hmac n =>
      obtain ⟨m, hm, ht⟩ := Option.bind_eq_some_iff.mp hv
      exact .hmac (hof hm) ht

/-- The observer computes what the attacker derives. -/
theorem derivable_iff_yields (network : List (Message P A)) (t : Term (SecretKey P) A) :
    Derivable compromised Set.univ network t ↔ ∃ r, Yields (view compromised network) r t := by
  rw [← derives_iff_yields, Derivable]
  simp only [known_iff_view]

end View

section Log

variable {log log' : List (Sent P)}

theorem messages_concat (psk : Option A) (log : List (Sent P)) (x : Sent P) :
    messages psk (log ++ [x]) = messages psk log ++ [x.toMessage psk log.length] := by
  simp [messages]

theorem getElem?_messages (psk : Option A) (log : List (Sent P)) (n : ℕ) :
    (messages psk log)[n]? = log[n]?.map (Sent.toMessage psk n) := by
  simp [messages]

/-- Answers come after what they answer. -/
def Ordered (log : List (Sent P)) : Prop :=
  ∀ (n : ℕ) (server : P) (j : ℕ), log[n]? = some (.resp server j) → j < n

theorem Ordered.append (h : Ordered log) (turn : Turn P) : Ordered (log ++ turn.sent log) := by
  intro n server j hn
  rcases Nat.lt_or_ge n log.length with hlt | hge
  · rw [List.getElem?_append_left hlt] at hn
    exact h n server j hn
  -- a message that this turn has added
  rw [List.getElem?_append_right hge] at hn
  have hmem := List.mem_of_getElem? hn
  cases turn with
  | start => simp [Turn.sent] at hmem
  | finish => simp [Turn.sent] at hmem
  | answer i =>
    simp only [Turn.sent] at hmem
    split at hmem
    · next c s hi =>
      obtain ⟨rfl, rfl⟩ : server = s ∧ j = i := by simpa using hmem
      have := (List.getElem?_eq_some_iff.mp hi).1
      omega
    · simp at hmem

theorem Ordered.sentBy (h : Ordered log) (turns : List (Turn P)) :
    Ordered (sentBy log turns) := by
  induction turns generalizing log with
  | nil => exact h
  | cons turn turns ih => exact ih (h.append turn)

/-- The keys that a message is sealed with tell its number: no key in them is newer. -/
theorem Ordered.le_of_mem_scalars (h : Ordered log) {n i : ℕ} {x : Sent P}
    (hn : log[n]? = some x) (hi : .ephemeral i ∈ x.scalars n) : i ≤ n := by
  cases x with
  | init client server =>
    obtain rfl : i = n := by simpa [Sent.scalars] using hi
    exact le_rfl
  | resp server j =>
    have hj := h n server j hn
    obtain rfl | rfl : i = n ∨ i = j := by simpa [Sent.scalars] using hi
    · exact le_rfl
    · exact hj.le

theorem mem_scalars (n : ℕ) (x : Sent P) : .ephemeral n ∈ x.scalars n := by
  cases x <;> simp [Sent.scalars]

/-- No two messages of a run hold the same ciphertext. -/
theorem Ordered.eq_of_encStatic (h : Ordered log) (psk : Option A) {n m : ℕ} {x y : Sent P}
    (hx : log[n]? = some x) (hy : log[m]? = some y)
    (heq : (x.toMessage psk n).encStatic = (y.toMessage psk m).encStatic) : n = m := by
  have hscalars : x.scalars n = y.scalars m := by
    simp only [Sent.toMessage, message] at heq
    injection heq with hkey _
    injection hkey with hpower
    injection hpower
  refine le_antisymm (h.le_of_mem_scalars hy ?_) (h.le_of_mem_scalars hx ?_)
  · exact hscalars ▸ mem_scalars n x
  · exact hscalars ▸ mem_scalars m y

theorem sameShape_getElem? (h : List.Forall₂ Sent.SameShape log log') (n : ℕ) :
    Option.Rel Sent.SameShape log[n]? log'[n]? := by
  induction h generalizing n with
  | nil => exact .none
  | cons hx _ ih =>
    cases n with
    | zero => exact .some hx
    | succ n => exact ih n

theorem sent_sameShape (h : List.Forall₂ Sent.SameShape log log') {turn turn' : Turn P}
    (hturn : turn.SameShape turn') :
    List.Forall₂ Sent.SameShape (turn.sent log) (turn'.sent log') := by
  cases hturn with
  | start => exact .cons (.init ..) .nil
  | finish => exact .nil
  | answer j =>
    have hj := sameShape_getElem? h j
    simp only [Turn.sent]
    generalize log[j]? = x at hj
    generalize log'[j]? = x' at hj
    cases hj with
    | none => exact .nil
    | some hx =>
      cases hx with
      | init => exact .cons (.resp ..) .nil
      | resp => exact .nil

/-- Runs of the same turns send the same messages up to who is named. -/
theorem sentBy_sameShape (h : List.Forall₂ Sent.SameShape log log') {turns turns' : List (Turn P)}
    (hturns : List.Forall₂ Turn.SameShape turns turns') :
    List.Forall₂ Sent.SameShape (sentBy log turns) (sentBy log' turns') := by
  induction hturns generalizing log log' with
  | nil => exact h
  | cons hturn _ ih => exact ih (List.rel_append h (sent_sameShape h hturn))

theorem sent_hidden {compromised : Set P} {turn : Turn P} (h : turn.Hidden compromised)
    {x : Sent P} (hx : x ∈ turn.sent log) : x.Hidden compromised := by
  cases turn with
  | start client server =>
    obtain rfl := List.mem_singleton.mp hx
    exact h
  | finish => simp [Turn.sent] at hx
  | answer j =>
    simp only [Turn.sent] at hx
    split at hx
    · obtain rfl := List.mem_singleton.mp hx
      trivial
    · simp at hx

theorem sentBy_hidden {compromised : Set P} (hlog : ∀ x ∈ log, x.Hidden compromised)
    {turns : List (Turn P)} (hturns : ∀ turn ∈ turns, turn.Hidden compromised) :
    ∀ x ∈ sentBy log turns, x.Hidden compromised := by
  induction turns generalizing log with
  | nil => exact hlog
  | cons turn turns ih =>
    rw [List.forall_mem_cons] at hturns
    refine ih ?_ hturns.2
    intro x hx
    rcases List.mem_append.mp hx with hx | hx
    · exact hlog x hx
    · exact sent_hidden hturns.1 hx

/-- The key that a peer is named under is the secret of two keys neither of which the observer
has. -/
theorem not_safe_scalars {compromised : Set P} [DecidablePred (Secret compromised)] {x : Sent P}
    (h : x.Hidden compromised) (n : ℕ) :
    ¬ (.hash (.power (x.scalars n)) : Term (SecretKey P) A).Safe (Secret compromised) := by
  cases x with
  | init client server =>
    have hs : Secret compromised (.static server) := h
    exact not_safe_ephemeral (A := A) hs
  | resp server j =>
    have hj : Secret compromised (.ephemeral j) := trivial
    exact not_safe_ephemeral (A := A) hj

end Log

section Run

variable [DecidableEq P] [DecidableEq A]

/-- What has been sent is in the log, and every message has used up one ephemeral key. -/
structure Logged (psk : Option A) (w : World P A) (log : List (Sent P)) : Prop where
  generated : w.generated = log.length
  network : w.network.reverse = messages psk log

variable {psk : Option A} {w : World P A} {log log' : List (Sent P)}

/-- A server that has precomputed a key answers an initiation that is for it. -/
theorem step_precompute_deliverInit (psk : Option A) (w : World P A) (client server : P) (n : ℕ) :
    let w' := (Machine.run (step psk) w
      [.precompute server, .deliverInit server (initiation psk client server n)]).1
    w'.generated = w.generated + 1 ∧
      w'.network = (Sent.resp server n).toMessage psk w.generated :: w.network := by
  obtain ⟨reply, -, hreply, -⟩ := respond_initiation psk client server n w.generated
  obtain ⟨-, -, hresp, -⟩ := respond_eq_some hreply
  simp only [Machine.run_cons, Machine.run_nil, step, Function.update_self, hreply, hresp]
  exact ⟨trivial, rfl⟩

theorem Logged.turn (h : Logged psk w log) (turn : Turn P) :
    Logged psk (Machine.run (step psk) w (turn.actions psk log)).1 (log ++ turn.sent log) := by
  obtain ⟨hgen, hnet⟩ := h
  cases turn with
  | start client server =>
    simp only [Turn.actions, Turn.sent, Machine.run_cons, Machine.run_nil, step, sendInit_eq]
    refine ⟨by simp [hgen], ?_⟩
    rw [messages_concat, List.reverse_cons, hnet, hgen]
    rfl
  | answer j =>
    simp only [Turn.actions, Turn.sent]
    split
    · next client server hj =>
      obtain ⟨hgen', hnet'⟩ := step_precompute_deliverInit psk w client server j
      refine ⟨by rw [hgen', hgen, List.length_append, List.length_singleton], ?_⟩
      rw [hnet', messages_concat, List.reverse_cons, hnet, hgen]
    · exact ⟨by simpa using hgen, by simpa using hnet⟩
  | finish i j =>
    simp only [Turn.actions, Turn.sent, List.append_nil]
    split
    · next m hm =>
      have hout := step_outcome psk w (.deliverResp i m)
      simp only [Machine.run_cons, Machine.run_nil]
      generalize (step psk w (.deliverResp i m)).1 = w', (step psk w (.deliverResp i m)).2 = es
        at hout
      cases hout with
      | failed => exact ⟨hgen, hnet⟩
      | complete => exact ⟨hgen, hnet⟩
    · exact ⟨hgen, hnet⟩

/-- The messages that peers send when nobody interferes. -/
theorem logged_schedule (h : Logged psk w log) (turns : List (Turn P)) :
    Logged psk (Machine.run (step psk) w (schedule psk log turns)).1 (sentBy log turns) := by
  induction turns generalizing w log with
  | nil => exact h
  | cons turn turns ih =>
    simp only [schedule, Machine.run_append]
    exact ih (h.turn turn)

/-- Exchange the ciphertexts of one run for those of another. -/
def swapSealed (psk : Option A) (log log' : List (Sent P)) (t : Term (SecretKey P) A) :
    Option (Term (SecretKey P) A) :=
  ((messages psk log).findIdx? fun m => m.encStatic = t).bind fun n =>
    log'[n]?.map fun x => (x.toMessage psk n).encStatic

omit [DecidableEq P] [DecidableEq A] in
/-- A message found by its ciphertext is one of the log. -/
theorem exists_of_findIdx?_messages {q : Message P A → Bool} {n : ℕ}
    (h : (messages psk log).findIdx? q = some n) :
    ∃ x, log[n]? = some x ∧ q (x.toMessage psk n) = true := by
  obtain ⟨hlt, hq, -⟩ := List.findIdx?_eq_some_iff_getElem.mp h
  have hm := List.getElem?_eq_getElem hlt
  rw [getElem?_messages] at hm
  obtain ⟨x, hx, hxm⟩ := Option.map_eq_some_iff.mp hm
  exact ⟨x, hx, hxm ▸ hq⟩

theorem swapSealed_eq_some {t t' : Term (SecretKey P) A} (h : swapSealed psk log log' t = some t') :
    ∃ (n : ℕ) (x x' : Sent P), log[n]? = some x ∧ log'[n]? = some x' ∧
      (x.toMessage psk n).encStatic = t ∧ (x'.toMessage psk n).encStatic = t' := by
  obtain ⟨n, hn, ht'⟩ := Option.bind_eq_some_iff.mp h
  obtain ⟨x', hx', rfl⟩ := Option.map_eq_some_iff.mp ht'
  obtain ⟨x, hx, ht⟩ := exists_of_findIdx?_messages hn
  exact ⟨n, x, x', hx, hx', of_decide_eq_true ht, rfl⟩

theorem swapSealed_encStatic (psk : Option A) (h : Ordered log) {n : ℕ} {x x' : Sent P}
    (hx : log[n]? = some x) (hx' : log'[n]? = some x') :
    swapSealed psk log log' (x.toMessage psk n).encStatic =
      some (x'.toMessage psk n).encStatic := by
  have hmem : x.toMessage psk n ∈ messages psk log := by
    refine List.mem_of_getElem? (i := n) ?_
    rw [getElem?_messages, hx, Option.map_some]
  cases hfind : (messages psk log).findIdx? fun m => m.encStatic =
      (x.toMessage psk n).encStatic with
  | none => exact absurd (List.findIdx?_eq_none_iff.mp hfind _ hmem) (by simp)
  | some m =>
    -- the first message with this ciphertext is the only one
    obtain ⟨y, hy, heq⟩ := exists_of_findIdx?_messages hfind
    obtain rfl := h.eq_of_encStatic psk hy hx (of_decide_eq_true heq)
    simp [swapSealed, hfind, hx']

theorem exchanges_swapSealed {compromised : Set P} [DecidablePred (Secret compromised)]
    (hhidden : ∀ x ∈ log, x.Hidden compromised) :
    Exchanges (Secret compromised) (swapSealed psk log log') where
  enc t t' ht := by
    obtain ⟨n, x, x', -, -, -, rfl⟩ := swapSealed_eq_some ht
    exact ⟨_, _, rfl⟩
  locked key u t' ht := by
    obtain ⟨n, x, x', hx, -, heq, -⟩ := swapSealed_eq_some ht
    obtain ⟨rfl, -⟩ := Term.enc.inj heq
    exact not_safe_scalars (hhidden x (List.mem_of_getElem? hx)) n

section Compare

variable (compromised : Set P) [DecidablePred (· ∈ compromised)]

/-- With its ciphertexts exchanged, one run looks like the other. -/
theorem view_mask (h : Ordered log) (hlen : log.length = log'.length)
    {network network' : List (Message P A)} (hnet : network.reverse = messages psk log)
    (hnet' : network'.reverse = messages psk log') (i : Handle P A) :
    (view compromised network i).map (Term.mask (swapSealed psk log log')) =
      view compromised network' i := by
  -- message `n` of the one run has its counterpart in the other
  have hmatch : ∀ n : ℕ, (log[n]? = none ∧ log'[n]? = none) ∨
      ∃ x x', log[n]? = some x ∧ log'[n]? = some x' := by
    intro n
    rcases Nat.lt_or_ge n log.length with hlt | hge
    · exact .inr ⟨_, _, List.getElem?_eq_getElem hlt, List.getElem?_eq_getElem (hlen ▸ hlt)⟩
    · exact .inl ⟨List.getElem?_eq_none hge, List.getElem?_eq_none (hlen ▸ hge)⟩
  have henc : ∀ {n : ℕ} {x x' : Sent P}, log[n]? = some x → log'[n]? = some x' →
      Term.mask (swapSealed psk log log') (x.toMessage psk n).encStatic =
        (x'.toMessage psk n).encStatic := by
    intro n x x' hx hx'
    have hex := swapSealed_encStatic psk h hx hx'
    simp only [Sent.toMessage, message] at hex ⊢
    rw [Term.mask, hex, Option.getD_some]
  cases i with
  | staticPub p => rfl
  | staticKey p =>
    simp only [view]
    split <;> rfl
  | atom a => rfl
  | ephPub n =>
    simp only [view, hnet, hnet', getElem?_messages]
    rcases hmatch n with ⟨hx, hx'⟩ | ⟨x, x', hx, hx'⟩ <;> rw [hx, hx'] <;> rfl
  | encStatic n =>
    simp only [view, hnet, hnet', getElem?_messages]
    rcases hmatch n with ⟨hx, hx'⟩ | ⟨x, x', hx, hx'⟩ <;> rw [hx, hx']
    · rfl
    · exact congrArg some (henc hx hx')
  | hmac n =>
    simp only [view, hnet, hnet', getElem?_messages]
    rcases hmatch n with ⟨hx, hx'⟩ | ⟨x, x', hx, hx'⟩ <;> rw [hx, hx']
    · rfl
    · -- the MAC is over the ciphertext
      cases psk with
      | none => rfl
      | some a =>
        have hmac := congrArg (fun t => some (Term.mac (.atom a) (.pair (ephPub n) t)))
          (henc hx hx')
        exact hmac

theorem view_safe [DecidablePred (Secret compromised)] (psk : Option A)
    (acts : List (Action P A)) (i : Handle P A) (t : Term (SecretKey P) A)
    (hi : view compromised (Machine.run (step psk) World.initial acts).1.network i = some t) :
    t.Safe (Secret compromised) := by
  have hknown := (known_iff_view compromised _ t).mpr ⟨i, hi⟩
  exact (traced_run psk acts).safe_of_derivable (.known hknown)

/-- **Identity hiding.** In two runs the same turns are taken, by peers that may be others: who
starts handshakes, and with whom. An observer that knows all static public keys, the PSK and
the static private keys of the peers in `compromised`, no server among them, cannot tell the
runs apart. -/
theorem identities_hidden (psk : Option A) {turns turns' : List (Turn P)}
    (hshape : List.Forall₂ Turn.SameShape turns turns')
    (hhidden : ∀ turn ∈ turns, turn.Hidden compromised)
    (hhidden' : ∀ turn ∈ turns', turn.Hidden compromised) :
    StaticEquiv
      (view compromised
        (Machine.run (step psk) World.initial (schedule psk [] turns)).1.network)
      (view compromised
        (Machine.run (step psk) World.initial (schedule psk [] turns')).1.network) := by
  classical
  have hinitial : Logged psk (World.initial : World P A) [] := ⟨rfl, rfl⟩
  have hordered : Ordered ([] : List (Sent P)) := fun n server j h => absurd h (by simp)
  have hnet := (logged_schedule hinitial turns).network
  have hnet' := (logged_schedule hinitial turns').network
  have hlen := (sentBy_sameShape .nil hshape).length_eq
  exact staticEquiv_of_mask
    (exchanges_swapSealed (sentBy_hidden (by simp) hhidden))
    (exchanges_swapSealed (sentBy_hidden (by simp) hhidden'))
    (view_safe compromised psk _) (view_safe compromised psk _)
    (view_mask compromised (hordered.sentBy turns) hlen hnet hnet')
    (view_mask compromised (hordered.sentBy turns') hlen.symm hnet' hnet)

end Compare

/-- Client 0 with server 2, and client 1 with server 3, while the static keys of both clients
are known: both exchanges look alike. -/
theorem identities_hidden_exchange :
    StaticEquiv
      (view {p : Fin 4 | p < 2}
        (Machine.run (step (some ())) World.initial
          (schedule (some ()) [] [.start 0 2, .answer 0, .finish 0 1])).1.network)
      (view {p : Fin 4 | p < 2}
        (Machine.run (step (some ())) World.initial
          (schedule (some ()) [] [.start 1 3, .answer 0, .finish 0 1])).1.network) := by
  refine identities_hidden {p : Fin 4 | p < 2} (some ()) ?_ ?_ ?_
  · exact .cons (.start ..) (.cons (.answer _) (.cons (.finish ..) .nil))
  · simp [Turn.Hidden]
  · simp [Turn.Hidden]

end Run

end LaneCove.Symbolic

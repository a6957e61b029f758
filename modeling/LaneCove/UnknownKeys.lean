import LaneCove.Document

/-!
# Unknown keys

An entry with an unknown key is meant to be skipped. `load_config` skips the key and
then one scalar, wherever in the value that scalar stands; the brackets of the value
it does not see at all. So it goes on reading the rest of the value as entries of the
mapping, and after a value without scalars it reads the next key as the value.

This module says for which values the document keeps its meaning, whatever follows.

## Main definitions

- `IsNode`, `IsEntries` — the events of arbitrary YAML nodes
- `Level.Entries` — events that `load_config` reads as entries of a mapping
- `Level.Skips` — values that are a scalar and such entries
- `Harmless` — inserting events does not change what an accepted file means

## Main results

- `root_harmless_iff`, `peer_harmless_iff` — the two kinds of mappings
- `insertion_harmless_iff` — both together
-/

namespace LaneCove

open CString

-- ════════════════════════════════════════════════════════════════════════
-- YAML
-- ════════════════════════════════════════════════════════════════════════

/-- The events of a node. -/
inductive IsNode : List (YamlEvent × LoadEnv) → Prop
  | reference : IsNode [mark .alias]
  | scalar (s : Scalar) : IsNode [s.event]
  | sequence {nodes : List (List (YamlEvent × LoadEnv))} (h : ∀ node ∈ nodes, IsNode node) :
      IsNode (mark .sequenceStart :: (nodes.flatten ++ [mark .sequenceEnd]))
  | mapping {nodes : List (List (YamlEvent × LoadEnv) × List (YamlEvent × LoadEnv))}
      (hkey : ∀ node ∈ nodes, IsNode node.1) (hvalue : ∀ node ∈ nodes, IsNode node.2) :
      IsNode (mark .mappingStart :: (nodes.flatMap (fun node => node.1 ++ node.2) ++
        [mark .mappingEnd]))

/-- The events of the entries of a mapping. -/
inductive IsEntries : List (YamlEvent × LoadEnv) → Prop
  | nil : IsEntries []
  | cons {key value rest : List (YamlEvent × LoadEnv)} (hkey : IsNode key) (hvalue : IsNode value)
      (hrest : IsEntries rest) : IsEntries (key ++ value ++ rest)

/-- The events of the items of a sequence. -/
inductive IsItems : List (YamlEvent × LoadEnv) → Prop
  | nil : IsItems []
  | cons {item rest : List (YamlEvent × LoadEnv)} (hitem : IsNode item) (hrest : IsItems rest) :
      IsItems (item ++ rest)

/-- What comes before a position in the mapping of a peer. -/
inductive BeforeInPeer : List (YamlEvent × LoadEnv) → Prop
  | intro {entries items fields : List (YamlEvent × LoadEnv)} {peers : Scalar}
      (hentries : IsEntries entries) (hpeers : peers.text = ascii "peers") (hitems : IsItems items)
      (hfields : IsEntries fields) : BeforeInPeer (entries ++ peers.event :: mark .sequenceStart ::
        (items ++ mark .mappingStart :: fields))

/-- What comes after it, up to the end of the root mapping. -/
inductive AfterInPeer : List (YamlEvent × LoadEnv) → Prop
  | intro {entries items fields : List (YamlEvent × LoadEnv)} (hfields : IsEntries fields)
      (hitems : IsItems items) (hentries : IsEntries entries) :
      AfterInPeer (fields ++ mark .mappingEnd :: (items ++ mark .sequenceEnd :: entries))

/-- Not the end of the stream. -/
def Inside (es : List (YamlEvent × LoadEnv)) : Prop := ∀ e ∈ es, e.1 ≠ .streamEnd

theorem Inside.append {es fs : List (YamlEvent × LoadEnv)} (hes : Inside es) (hfs : Inside fs) :
    Inside (es ++ fs) :=
  List.forall_mem_append.mpr ⟨hes, hfs⟩

theorem Inside.cons {e : YamlEvent × LoadEnv} {es : List (YamlEvent × LoadEnv)}
    (he : e.1 ≠ .streamEnd) (hes : Inside es) : Inside (e :: es) :=
  List.forall_mem_cons.mpr ⟨he, hes⟩

theorem IsNode.inside {es : List (YamlEvent × LoadEnv)} (h : IsNode es) : Inside es := by
  have hnil : Inside [] := fun e he => absurd he (by simp)
  induction h with
  | reference => exact .cons (by simp [mark]) hnil
  | scalar s => exact .cons (by simp [Scalar.event]) hnil
  | sequence _ ih =>
    refine .cons (by simp [mark]) (.append ?_ (.cons (by simp [mark]) hnil))
    intro e he
    obtain ⟨node, hnode, he⟩ := List.mem_flatten.mp he
    exact ih node hnode e he
  | mapping _ _ ihkey ihvalue =>
    refine .cons (by simp [mark]) (.append ?_ (.cons (by simp [mark]) hnil))
    intro e he
    obtain ⟨node, hnode, he⟩ := List.mem_flatMap.mp he
    exact (ihkey node hnode).append (ihvalue node hnode) e he

theorem IsEntries.inside {es : List (YamlEvent × LoadEnv)} (h : IsEntries es) : Inside es := by
  induction h with
  | nil => exact fun e he => absurd he (by simp)
  | cons hkey hvalue _ ih => exact (hkey.inside.append hvalue.inside).append ih

theorem IsItems.inside {es : List (YamlEvent × LoadEnv)} (h : IsItems es) : Inside es := by
  induction h with
  | nil => exact fun e he => absurd he (by simp)
  | cons hitem _ ih => exact hitem.inside.append ih

theorem BeforeInPeer.inside {es : List (YamlEvent × LoadEnv)} (h : BeforeInPeer es) :
    Inside es := by
  obtain ⟨hentries, -, hitems, hfields⟩ := h
  exact hentries.inside.append (.cons (by simp [Scalar.event]) (.cons (by simp [mark])
    (hitems.inside.append (.cons (by simp [mark]) hfields.inside))))

theorem AfterInPeer.inside {es : List (YamlEvent × LoadEnv)} (h : AfterInPeer es) :
    Inside es := by
  obtain ⟨hfields, hitems, hentries⟩ := h
  exact hfields.inside.append (.cons (by simp [mark])
    (hitems.inside.append (.cons (by simp [mark]) hentries.inside)))

-- ════════════════════════════════════════════════════════════════════════
-- What counts as entries
-- ════════════════════════════════════════════════════════════════════════

def YamlEvent.isScalar : YamlEvent → Bool
  | .scalar _ => true
  | _ => false

theorem YamlEvent.eq_scalar {ev : YamlEvent} (h : ¬ ev.isScalar = false) :
    ∃ value, ev = .scalar value := by
  cases ev with
  | scalar value => exact ⟨value, rfl⟩
  | _ => exact absurd rfl h

/-- What `load_config` looks out for inside a mapping. -/
structure Level where
  /-- the key whose value is a list -/
  listKey : Bytes
  /-- events that end the mapping where a key could follow -/
  closes : YamlEvent → Bool
  /-- events in the list that configure something -/
  takes : YamlEvent → Bool

/-- The root mapping is not ended by anything. -/
def rootLevel : Level where
  listKey := ascii "peers"
  closes _ := false
  takes ev := ev = .mappingStart

def peerLevel : Level where
  listKey := ascii "allowed_ips"
  closes ev := ev = .mappingEnd
  takes ev := ev.isScalar

namespace Level

variable (L : Level)

/-- Nothing happens between entries. -/
def Between (gap : List (YamlEvent × LoadEnv)) : Prop :=
  ∀ e ∈ gap, e.1.isScalar = false ∧ L.closes e.1 = false

/-- Nothing happens between a key and its value. -/
def Waits (key : Bytes) (gap : List (YamlEvent × LoadEnv)) : Prop :=
  ∀ e ∈ gap, e.1.isScalar = false ∧ (key = L.listKey → e.1 ≠ .sequenceStart)

/-- The list holds nothing that counts. -/
def Vacant (gap : List (YamlEvent × LoadEnv)) : Prop :=
  ∀ e ∈ gap, e.1 ≠ .sequenceEnd ∧ L.takes e.1 = false

/-- Events that are read as these entries of the mapping: of its nested structure only
the scalars count, and the key of the list with the next pair of brackets. -/
inductive Entries : List (YamlEvent × LoadEnv) → List (Bytes × Scalar) → Prop
  | nil {gap : List (YamlEvent × LoadEnv)} (hgap : L.Between gap) : Entries gap []
  | entry {gap gap' rest : List (YamlEvent × LoadEnv)} {key value : Scalar}
      {ps : List (Bytes × Scalar)} (hgap : L.Between gap) (hgap' : L.Waits (key.text.take 63) gap')
      (hrest : Entries rest ps) :
      Entries (gap ++ key.event :: (gap' ++ value.event :: rest)) ((key.text.take 63, value) :: ps)
  | list {gap gap' inner rest : List (YamlEvent × LoadEnv)} {key : Scalar} {env env' : LoadEnv}
      {ps : List (Bytes × Scalar)} (hkey : key.text.take 63 = L.listKey) (hgap : L.Between gap)
      (hgap' : L.Waits L.listKey gap') (hinner : L.Vacant inner) (hrest : Entries rest ps) :
      Entries (gap ++ key.event :: (gap' ++ (.sequenceStart, env) ::
        (inner ++ (.sequenceEnd, env') :: rest))) ps

/-- The value is read as a scalar, and what follows it as entries of the mapping. -/
def Skips (value : List (YamlEvent × LoadEnv)) (ps : List (Bytes × Scalar)) : Prop :=
  ∃ gap first rest, value = gap ++ Scalar.event first :: rest ∧
    (∀ e ∈ gap, e.1.isScalar = false) ∧ L.Entries rest ps

end Level

/-- The settings after these entries. -/
def applyRoot (root : RootConfig) (ps : List (Bytes × Scalar)) : RootConfig :=
  ps.foldl (fun root p => setRoot root p.1 p.2.text) root

/-- The peer after these entries. -/
def applyPeer (peer : PeerEntry) (ps : List (Bytes × Scalar)) : Except LoadError PeerEntry :=
  ps.foldlM (fun peer p => setPeer p.1 p.2.text p.2.env peer) peer

/-- Not a key of the root mapping. -/
def UnknownRoot (key : Bytes) : Prop :=
  (∀ s : Setting, key ≠ ascii s.key) ∧ key ≠ ascii "verbose" ∧ key ≠ ascii "peers"

/-- Not a key of the mapping of a peer. -/
def UnknownPeer (key : Bytes) : Prop :=
  key ≠ ascii "public_key" ∧ key ≠ ascii "endpoint" ∧ key ≠ ascii "allowed_ips"

/-- If the file without the inserted events is accepted then so is the file with them,
with the same settings and peers. -/
def Harmless (inetPton : Bytes → Option (BitVec 32))
    (before inserted after : List (YamlEvent × LoadEnv)) : Prop :=
  ∀ r, loadConfig inetPton (fileEvents (before ++ after)) = .ok r →
    ∃ r', loadConfig inetPton (fileEvents (before ++ (inserted ++ after))) = .ok r' ∧
      r'.root = r.root ∧ r'.peers = r.peers

-- ════════════════════════════════════════════════════════════════════════
-- Reading entries
-- ════════════════════════════════════════════════════════════════════════

namespace Level

variable {L : Level} {e : YamlEvent × LoadEnv} {es : List (YamlEvent × LoadEnv)} {key : Bytes}
  {ps : List (Bytes × Scalar)}

/-- What must follow a key: its value, or the list. -/
def AfterKey (L : Level) (key : Bytes) (es : List (YamlEvent × LoadEnv))
    (ps : List (Bytes × Scalar)) : Prop :=
  ∃ gap, L.Waits key gap ∧
    ((∃ value rest ps', es = gap ++ Scalar.event value :: rest ∧ L.Entries rest ps' ∧
      ps = (key, value) :: ps') ∨
    (key = L.listKey ∧ ∃ env inner env' rest, es = gap ++ (.sequenceStart, env) ::
      (inner ++ (.sequenceEnd, env') :: rest) ∧ L.Vacant inner ∧ L.Entries rest ps))

/-- What must follow inside the list: its end. -/
def InList (L : Level) (es : List (YamlEvent × LoadEnv)) (ps : List (Bytes × Scalar)) : Prop :=
  ∃ inner env rest, es = inner ++ (.sequenceEnd, env) :: rest ∧ L.Vacant inner ∧ L.Entries rest ps

theorem Entries.skip (h : L.Entries es ps) (hscalar : e.1.isScalar = false)
    (hcloses : L.closes e.1 = false) : L.Entries (e :: es) ps := by
  have hcons : ∀ {gap}, L.Between gap → L.Between (e :: gap) := fun hgap =>
    List.forall_mem_cons.mpr ⟨⟨hscalar, hcloses⟩, hgap⟩
  cases h with
  | nil hgap => exact .nil (hcons hgap)
  | entry hgap hgap' hrest => exact .entry (hcons hgap) hgap' hrest
  | list hkey hgap hgap' hinner hrest => exact .list hkey (hcons hgap) hgap' hinner hrest

theorem AfterKey.entries {s : Scalar} (h : L.AfterKey (s.text.take 63) es ps) :
    L.Entries (s.event :: es) ps := by
  have hnil : L.Between [] := fun e he => absurd he (by simp)
  obtain ⟨gap, hgap, ⟨value, rest, ps', rfl, hrest, rfl⟩ | ⟨hkey, env, inner, env', rest, rfl, hinner,
    hrest⟩⟩ := h
  · exact .entry hnil hgap hrest
  · exact .list hkey hnil (hkey ▸ hgap) hinner hrest

theorem AfterKey.skip (h : L.AfterKey key es ps) (hscalar : e.1.isScalar = false)
    (hlist : key = L.listKey → e.1 ≠ .sequenceStart) : L.AfterKey key (e :: es) ps := by
  obtain ⟨gap, hgap, h⟩ := h
  refine ⟨e :: gap, List.forall_mem_cons.mpr ⟨⟨hscalar, hlist⟩, hgap⟩, ?_⟩
  rcases h with ⟨value, rest, ps', rfl, hrest⟩ | ⟨hkey, env, inner, env', rest, rfl, hrest⟩
  · exact Or.inl ⟨value, rest, ps', rfl, hrest⟩
  · exact Or.inr ⟨hkey, env, inner, env', rest, rfl, hrest⟩

theorem Entries.value (h : L.Entries es ps) (s : Scalar) :
    L.AfterKey key (s.event :: es) ((key, s) :: ps) :=
  ⟨[], fun e he => absurd he (by simp), Or.inl ⟨s, es, ps, rfl, h, rfl⟩⟩

theorem InList.opens (h : L.InList es ps) (env : LoadEnv) :
    L.AfterKey L.listKey ((.sequenceStart, env) :: es) ps := by
  obtain ⟨inner, env', rest, rfl, hinner, hrest⟩ := h
  exact ⟨[], fun e he => absurd he (by simp),
    Or.inr ⟨rfl, env, inner, env', rest, rfl, hinner, hrest⟩⟩

theorem InList.skip (h : L.InList es ps) (hend : e.1 ≠ .sequenceEnd) (htakes : L.takes e.1 = false) :
    L.InList (e :: es) ps := by
  obtain ⟨inner, env, rest, rfl, hinner, hrest⟩ := h
  exact ⟨e :: inner, env, rest, rfl, List.forall_mem_cons.mpr ⟨⟨hend, htakes⟩, hinner⟩, hrest⟩

theorem Entries.inList (h : L.Entries es ps) (env : LoadEnv) :
    L.InList ((.sequenceEnd, env) :: es) ps :=
  ⟨[], env, es, rfl, fun e he => absurd he (by simp), h⟩

/-- After an unknown key there is no list. -/
theorem AfterKey.skips (h : L.AfterKey key es ps) (hkey : key ≠ L.listKey) :
    ∃ first ps', ps = (key, first) :: ps' ∧ L.Skips es ps' := by
  obtain ⟨gap, hgap, ⟨first, rest, ps', rfl, hrest, hps⟩ | ⟨hlist, -⟩⟩ := h
  · exact ⟨first, ps', hps, gap, first, rest, rfl, fun e he => (hgap e he).1, hrest⟩
  · exact absurd hlist hkey

end Level

section Loader

variable {inetPton : Bytes → Option (BitVec 32)} {k pk : Bytes} {root : RootConfig}
  {peers init : List PeerEntry}

/-- Events that the loader ignores where it stands can be left out. -/
theorem loadAll_ignored {l : Loader} {gap : List (YamlEvent × LoadEnv)}
    (h : ∀ e ∈ gap, loadStep inetPton l e.1 e.2 = .ok l) (rest : List (YamlEvent × LoadEnv)) :
    loadAll inetPton l (gap ++ rest) = loadAll inetPton l rest := by
  induction gap with
  | nil => rfl
  | cons e gap ih =>
    obtain ⟨he, hgap⟩ := List.forall_mem_cons.mp h
    rw [List.cons_append, loadAll, he]
    exact ih hgap

theorem exists_of_bind_eq_ok {ε α β : Type} {x : Except ε α} {f : α → Except ε β} {b : β}
    (h : x.bind f = .ok b) : ∃ a, x = .ok a ∧ f a = .ok b := by
  cases x with
  | error e => exact absurd h (by simp [Except.bind])
  | ok a => exact ⟨a, rfl, h⟩

theorem loadAll_cons_ok {l l' : Loader} {e : YamlEvent × LoadEnv}
    {es : List (YamlEvent × LoadEnv)} (h : loadAll inetPton l (e :: es) = .ok l') :
    ∃ l₁, loadStep inetPton l e.1 e.2 = .ok l₁ ∧ loadAll inetPton l₁ es = .ok l' :=
  exists_of_bind_eq_ok h

theorem loadAll_append_ok {l r : Loader} {es fs : List (YamlEvent × LoadEnv)}
    (h : loadAll inetPton l (es ++ fs) = .ok r) :
    ∃ l₁, loadAll inetPton l es = .ok l₁ ∧ loadAll inetPton l₁ fs = .ok r := by
  rw [loadAll_append] at h
  exact exists_of_bind_eq_ok h

/-- Peers and routes are only ever added. -/
def weight (peers : List PeerEntry) : ℕ := (peers.map fun peer => peer.routes.length + 1).sum

theorem weight_concat (init : List PeerEntry) (peer : PeerEntry) :
    weight (init ++ [peer]) = weight init + (peer.routes.length + 1) := by
  simp [weight]

theorem updateLast_weight {peers' : List PeerEntry} {f : PeerEntry → Except LoadError PeerEntry}
    (hf : ∀ peer peer', f peer = .ok peer' → peer.routes.length ≤ peer'.routes.length)
    (h : updateLast peers f = .ok peers') : weight peers ≤ weight peers' := by
  rcases List.eq_nil_or_concat peers with rfl | ⟨init, peer, rfl⟩
  · exact Nat.zero_le _
  · rw [List.concat_eq_append, updateLast_concat] at h
    obtain ⟨peer', hpeer, rfl⟩ := exists_of_map_eq_ok h
    have hle := hf peer peer' hpeer
    rw [List.concat_eq_append, weight_concat, weight_concat]
    omega

theorem loadStep_weight {l l' : Loader} {ev : YamlEvent} {env : LoadEnv}
    (h : loadStep inetPton l ev env = .ok l') : weight l.peers ≤ weight l'.peers := by
  have hpeers := loadStep_peers h
  generalize l'.peers = peers' at hpeers ⊢
  cases hpeers with
  | keep => exact le_rfl
  | new =>
    rw [weight_concat]
    exact Nat.le_add_right _ _
  | set hset => exact updateLast_weight (fun _ _ hp => (congrArg _ (setPeer_routes hp)).ge) hset
  | route _ hroute =>
    refine updateLast_weight (fun _ _ hp => ?_) hroute
    obtain ⟨route, -, hroutes⟩ := addRoute_routes hp
    rw [hroutes, List.length_append]
    exact Nat.le_add_right _ _

theorem loadAll_weight {l l' : Loader} {es : List (YamlEvent × LoadEnv)}
    (h : loadAll inetPton l es = .ok l') : weight l.peers ≤ weight l'.peers := by
  induction es generalizing l with
  | nil =>
    obtain rfl := Except.ok.inj h
    exact le_rfl
  | cons e es ih =>
    obtain ⟨l₁, hstep, hes⟩ := loadAll_cons_ok h
    exact (loadStep_weight hstep).trans (ih hes)

-- ════════════════════════════════════════════════════════════════════════
-- The root mapping
-- ════════════════════════════════════════════════════════════════════════

theorem loadStep_root_ignored {ev : YamlEvent} (env : LoadEnv) (hscalar : ev.isScalar = false) :
    loadStep inetPton ⟨.root, k, pk, root, peers⟩ ev env = .ok ⟨.root, k, pk, root, peers⟩ := by
  cases ev with
  | scalar value => exact absurd hscalar (by simp [YamlEvent.isScalar])
  | _ => rfl

theorem loadStep_rootVal_ignored {ev : YamlEvent} (env : LoadEnv) (hscalar : ev.isScalar = false)
    (hlist : k = ascii "peers" → ev ≠ .sequenceStart) :
    loadStep inetPton ⟨.rootVal, k, pk, root, peers⟩ ev env =
      .ok ⟨.rootVal, k, pk, root, peers⟩ := by
  cases ev with
  | scalar value => exact absurd hscalar (by simp [YamlEvent.isScalar])
  | sequenceStart => exact if_neg fun h => hlist h rfl
  | _ => rfl

theorem loadStep_peersSeq_ignored {ev : YamlEvent} (env : LoadEnv) (hend : ev ≠ .sequenceEnd)
    (htakes : ev ≠ .mappingStart) :
    loadStep inetPton ⟨.peersSeq, k, pk, root, peers⟩ ev env =
      .ok ⟨.peersSeq, k, pk, root, peers⟩ := by
  cases ev with
  | sequenceEnd => exact absurd rfl hend
  | mappingStart => exact absurd rfl htakes
  | _ => rfl

variable (inetPton k pk root peers) in
/-- Entries of the root mapping are read as such. -/
theorem loadAll_rootEntries {es : List (YamlEvent × LoadEnv)} {ps : List (Bytes × Scalar)}
    (h : rootLevel.Entries es ps) :
    ∃ k', loadAll inetPton ⟨.root, k, pk, root, peers⟩ es =
      .ok ⟨.root, k', pk, applyRoot root ps, peers⟩ := by
  induction h generalizing k root with
  | @nil gap hgap =>
    refine ⟨k, ?_⟩
    rw [← List.append_nil gap,
      loadAll_ignored fun e he => loadStep_root_ignored e.2 (hgap e he).1]
    rfl
  | @entry gap gap' rest key value ps hgap hgap' hrest ih =>
    obtain ⟨k', hk'⟩ := ih (key.text.take 63) (setRoot root (key.text.take 63) value.text)
    refine ⟨k', ?_⟩
    rw [loadAll_ignored fun e he => loadStep_root_ignored e.2 (hgap e he).1]
    change loadAll inetPton ⟨.rootVal, key.text.take 63, pk, root, peers⟩ _ = _
    rw [loadAll_ignored fun e he => loadStep_rootVal_ignored e.2 (hgap' e he).1 (hgap' e he).2]
    exact hk'
  | @list gap gap' inner rest key env env' ps hkey hgap hgap' hinner hrest ih =>
    obtain ⟨k', hk'⟩ := ih (ascii "peers") root
    refine ⟨k', ?_⟩
    rw [loadAll_ignored fun e he => loadStep_root_ignored e.2 (hgap e he).1]
    change loadAll inetPton ⟨.rootVal, key.text.take 63, pk, root, peers⟩ _ = _
    rw [hkey, loadAll_ignored fun e he =>
      loadStep_rootVal_ignored e.2 (hgap' e he).1 (hgap' e he).2]
    change loadAll inetPton ⟨.peersSeq, ascii "peers", pk, root, peers⟩ _ = _
    rw [loadAll_ignored fun e he => loadStep_peersSeq_ignored e.2 (hinner e he).1
      (by simpa [rootLevel] using (hinner e he).2)]
    exact hk'

/-- A loader that ends up between two entries of the root mapping without adding anything
to the peers has read entries. -/
theorem rootEntries_of_loadAll {l l' : Loader} {es : List (YamlEvent × LoadEnv)}
    (h : loadAll inetPton l es = .ok l') (hstate : l'.state = .root)
    (hweight : weight l'.peers ≤ weight l.peers) :
    (l.state = .root → ∃ ps, rootLevel.Entries es ps ∧ l'.root = applyRoot l.root ps) ∧
    (l.state = .rootVal → ∃ ps, rootLevel.AfterKey l.key es ps ∧ l'.root = applyRoot l.root ps) ∧
    (l.state = .peersSeq → ∃ ps, rootLevel.InList es ps ∧ l'.root = applyRoot l.root ps) := by
  induction es generalizing l with
  | nil =>
    obtain rfl := Except.ok.inj h
    refine ⟨fun _ => ⟨[], .nil fun e he => absurd he (by simp), rfl⟩, fun hl => ?_, fun hl => ?_⟩
    · exact absurd (hstate.symm.trans hl) (by decide)
    · exact absurd (hstate.symm.trans hl) (by decide)
  | cons e es ih =>
    obtain ⟨l₁, hstep, hes⟩ := loadAll_cons_ok h
    have ih₁ := ih hes (hweight.trans (loadStep_weight hstep))
    obtain ⟨ev, env⟩ := e
    obtain ⟨state, k, pk, root, peers⟩ := l
    refine ⟨?_, ?_, ?_⟩
    · rintro rfl
      by_cases hev : ev.isScalar = false
      · rw [loadStep_root_ignored env hev] at hstep
        obtain rfl := Except.ok.inj hstep
        obtain ⟨ps, hps, hroot⟩ := ih₁.1 rfl
        exact ⟨ps, hps.skip hev rfl, hroot⟩
      · obtain ⟨value, rfl⟩ := YamlEvent.eq_scalar hev
        obtain rfl := Except.ok.inj hstep
        obtain ⟨ps, hps, hroot⟩ := ih₁.2.1 rfl
        exact ⟨ps, Level.AfterKey.entries (s := ⟨value, env⟩) hps, hroot⟩
    · rintro rfl
      by_cases hev : ev.isScalar = false
      · by_cases hlist : k = ascii "peers" ∧ ev = .sequenceStart
        · obtain ⟨rfl, rfl⟩ := hlist
          simp only [loadStep, if_true] at hstep
          obtain rfl := Except.ok.inj hstep
          obtain ⟨ps, hps, hroot⟩ := ih₁.2.2 rfl
          exact ⟨ps, hps.opens env, hroot⟩
        · rw [loadStep_rootVal_ignored env hev (not_and.mp hlist)] at hstep
          obtain rfl := Except.ok.inj hstep
          obtain ⟨ps, hps, hroot⟩ := ih₁.2.1 rfl
          exact ⟨ps, hps.skip hev (not_and.mp hlist), hroot⟩
      · obtain ⟨value, rfl⟩ := YamlEvent.eq_scalar hev
        obtain rfl := Except.ok.inj hstep
        obtain ⟨ps, hps, hroot⟩ := ih₁.1 rfl
        exact ⟨_, hps.value ⟨value, env⟩, hroot⟩
    · rintro rfl
      by_cases hend : ev = .sequenceEnd
      · subst hend
        obtain rfl := Except.ok.inj hstep
        obtain ⟨ps, hps, hroot⟩ := ih₁.1 rfl
        exact ⟨ps, hps.inList env, hroot⟩
      · by_cases hmap : ev = .mappingStart
        · -- the new peer stays
          subst hmap
          have hgrown : weight peers < weight l₁.peers := by
            simp only [loadStep] at hstep
            split at hstep
            · exact absurd hstep (by simp)
            · obtain rfl := Except.ok.inj hstep
              rw [weight_concat]
              omega
          exact absurd (hgrown.trans_le (loadAll_weight hes)) (not_lt.mpr hweight)
        · rw [loadStep_peersSeq_ignored env hend hmap] at hstep
          obtain rfl := Except.ok.inj hstep
          obtain ⟨ps, hps, hroot⟩ := ih₁.2.2 rfl
          exact ⟨ps, hps.skip hend (by simpa [rootLevel] using hmap), hroot⟩

-- ════════════════════════════════════════════════════════════════════════
-- The rest of the file
-- ════════════════════════════════════════════════════════════════════════

/-- Loaders that differ at most in a key that will not be looked at any more. -/
structure Alike (l l' : Loader) : Prop where
  state : l.state = l'.state
  key : l.state = .rootVal → l.key = l'.key
  peerKey : l.state = .peerVal → l.peerKey = l'.peerKey
  root : l.root = l'.root
  peers : l.peers = l'.peers

/-- Alike loaders handle an event in the same way. -/
theorem Alike.step {l l' l₁ : Loader} (h : Alike l l') {ev : YamlEvent} {env : LoadEnv}
    (hstep : loadStep inetPton l ev env = .ok l₁) :
    ∃ l₁', loadStep inetPton l' ev env = .ok l₁' ∧ Alike l₁ l₁' := by
  obtain ⟨state, k, pk, root, peers⟩ := l
  obtain ⟨state', k', pk', root', peers'⟩ := l'
  obtain ⟨rfl, hk, hpk, rfl, rfl⟩ := h
  -- the loaders go on alike if the new keys are alike
  have hok : ∀ {state k k' pk pk' root peers},
      (Except.ok ⟨state, k, pk, root, peers⟩ : Except LoadError Loader) = .ok l₁ →
      (state = .rootVal → k = k') → (state = .peerVal → pk = pk') →
      ∃ l₁', (Except.ok ⟨state, k', pk', root, peers⟩ : Except LoadError Loader) = .ok l₁' ∧
        Alike l₁ l₁' := by
    intro state k k' pk pk' root peers heq hk hpk
    obtain rfl := Except.ok.inj heq
    exact ⟨_, rfl, rfl, hk, hpk, rfl, rfl⟩
  cases state with
  | root | peerMap => cases ev <;> exact hok hstep (by simp) (by simp)
  | rootVal =>
    obtain rfl := hk rfl
    cases ev with
    | sequenceStart =>
      by_cases hlist : k = ascii "peers"
      · simp only [loadStep, if_pos hlist] at hstep ⊢
        exact hok hstep (by simp) (by simp)
      · simp only [loadStep, if_neg hlist] at hstep ⊢
        exact hok hstep (by simp) (by simp)
    | _ => exact hok hstep (by simp) (by simp)
  | peersSeq =>
    cases ev with
    | mappingStart =>
      by_cases hfull : maxPeers ≤ peers.length
      · simp only [loadStep, if_pos hfull] at hstep
        exact absurd hstep (by simp)
      · simp only [loadStep, if_neg hfull] at hstep ⊢
        exact hok hstep (by simp) (by simp)
    | _ => exact hok hstep (by simp) (by simp)
  | peerVal =>
    obtain rfl := hpk rfl
    cases ev with
    | scalar value =>
      obtain ⟨peers', hupd, heq⟩ := exists_of_map_eq_ok hstep
      simp only [loadStep, hupd]
      exact hok (congrArg Except.ok heq) (by simp) (by simp)
    | sequenceStart =>
      by_cases hlist : pk = ascii "allowed_ips"
      · simp only [loadStep, if_pos hlist] at hstep ⊢
        exact hok hstep (by simp) (by simp)
      · simp only [loadStep, if_neg hlist] at hstep ⊢
        exact hok hstep (by simp) (by simp)
    | _ => exact hok hstep (by simp) (by simp)
  | allowedIpsSeq =>
    cases ev with
    | scalar value =>
      obtain ⟨peers', hupd, heq⟩ := exists_of_map_eq_ok hstep
      simp only [loadStep, hupd]
      exact hok (congrArg Except.ok heq) (by simp) (by simp)
    | _ => exact hok hstep (by simp) (by simp)

theorem Alike.loadAll {l l' r : Loader} (h : Alike l l') {es : List (YamlEvent × LoadEnv)}
    (hload : loadAll inetPton l es = .ok r) :
    ∃ r', LaneCove.loadAll inetPton l' es = .ok r' ∧ Alike r r' := by
  induction es generalizing l l' with
  | nil =>
    obtain rfl := Except.ok.inj hload
    exact ⟨l', rfl, h⟩
  | cons e es ih =>
    obtain ⟨l₁, hstep, hes⟩ := loadAll_cons_ok hload
    obtain ⟨l₁', hstep', halike⟩ := h.step hstep
    obtain ⟨r', hr', hrest⟩ := ih halike hes
    refine ⟨r', ?_, hrest⟩
    rw [LaneCove.loadAll, hstep']
    exact hr'

variable (inetPton) in
/-- The end of the file changes neither the settings nor the peers. -/
theorem loadEvents_end (l : Loader) :
    ∃ state, loadEvents inetPton l [mark .mappingEnd, mark .documentEnd, mark .streamEnd] =
      .ok { l with state } := by
  obtain ⟨state, k, pk, root, peers⟩ := l
  cases state <;> exact ⟨_, rfl⟩

/-- What a file means depends only on the loader before its end. -/
theorem loadConfig_ok_iff {body : List (YamlEvent × LoadEnv)} (hbody : Inside body)
    {root : RootConfig} {peers : List PeerEntry} :
    (∃ r, loadConfig inetPton (fileEvents body) = .ok r ∧ r.root = root ∧ r.peers = peers) ↔
      ∃ l, loadAll inetPton {} body = .ok l ∧ l.root = root ∧ l.peers = peers := by
  rw [loadConfig_fileEvents hbody]
  cases hload : loadAll inetPton {} body with
  | error e => simp [Except.bind]
  | ok l =>
    obtain ⟨state, hend⟩ := loadEvents_end inetPton l
    simp [Except.bind, hend]

/-- Where the loader stands before the position is all that counts of the file so far. -/
theorem harmless_iff {l : Loader} {before inserted after : List (YamlEvent × LoadEnv)}
    (hl : loadAll inetPton {} before = .ok l) (hbefore : Inside before) (hinserted : Inside inserted)
    (hafter : Inside after) :
    Harmless inetPton before inserted after ↔ ∀ r, loadAll inetPton l after = .ok r →
      ∃ r', loadAll inetPton l (inserted ++ after) = .ok r' ∧
        r'.root = r.root ∧ r'.peers = r.peers := by
  have hfile : ∀ {es} (r : Loader), Inside es →
      ((∃ r', loadConfig inetPton (fileEvents (before ++ es)) = .ok r' ∧ r'.root = r.root ∧
        r'.peers = r.peers) ↔
      ∃ r', loadAll inetPton l es = .ok r' ∧ r'.root = r.root ∧ r'.peers = r.peers) := by
    intro es r hes
    rw [loadConfig_ok_iff (hbefore.append hes), loadAll_append, hl]
    rfl
  constructor
  · intro h r hr
    obtain ⟨r₁, hr₁, hroot, hpeers⟩ := (hfile r hafter).mpr ⟨r, hr, rfl, rfl⟩
    obtain ⟨r₂, hr₂⟩ := h r₁ hr₁
    rw [hroot, hpeers] at hr₂
    exact (hfile r (hinserted.append hafter)).mp ⟨r₂, hr₂⟩
  · intro h r hr
    obtain ⟨r₁, hr₁, hroot, hpeers⟩ := (hfile r hafter).mp ⟨r, hr, rfl, rfl⟩
    obtain ⟨r₂, hr₂⟩ := h r₁ hr₁
    rw [hroot, hpeers] at hr₂
    exact (hfile r (hinserted.append hafter)).mpr ⟨r₂, hr₂⟩

-- ════════════════════════════════════════════════════════════════════════
-- Insertion into the root mapping
-- ════════════════════════════════════════════════════════════════════════

theorem UnknownRoot.cut {key : Bytes} (h : UnknownRoot key) : UnknownRoot (key.take 63) :=
  ⟨fun s hs => h.1 s ((take_key_eq_iff s.key_length).mp hs),
    fun hs => h.2.1 ((take_key_eq_iff (by decide)).mp hs),
    fun hs => h.2.2 ((take_key_eq_iff (by decide)).mp hs)⟩

variable (inetPton k pk root peers) in
/-- A value that is skipped leaves the loader between two entries. -/
theorem loadAll_root_skips {key : Scalar} {value : List (YamlEvent × LoadEnv)}
    {ps : List (Bytes × Scalar)} (hkey : UnknownRoot key.text) (h : rootLevel.Skips value ps) :
    ∃ k', loadAll inetPton ⟨.root, k, pk, root, peers⟩ (key.event :: value) =
      .ok ⟨.root, k', pk, applyRoot root ps, peers⟩ := by
  obtain ⟨gap, first, rest, rfl, hgap, hrest⟩ := h
  obtain ⟨k', hk'⟩ := loadAll_rootEntries inetPton (key.text.take 63) pk root peers hrest
  refine ⟨k', ?_⟩
  change loadAll inetPton ⟨.rootVal, key.text.take 63, pk, root, peers⟩ _ = _
  rw [loadAll_ignored fun e he => loadStep_rootVal_ignored e.2 (hgap e he)
    fun h => absurd h hkey.cut.2.2]
  change loadAll inetPton ⟨.root, _, pk, setRoot root (key.text.take 63) first.text, peers⟩ _ = _
  rw [setRoot_of_unknown hkey.cut.1 fun h => absurd h hkey.cut.2.1]
  exact hk'

theorem loadStep_scalar_root {l l' : Loader} {value : Bytes} {env : LoadEnv}
    (h : loadStep inetPton l (.scalar value) env = .ok l') (hroot : l.state ≠ .root)
    (hval : l.state ≠ .rootVal) :
    l'.root = l.root ∧ l'.state ≠ .root ∧ l'.state ≠ .rootVal := by
  obtain ⟨state, k, pk, root, peers⟩ := l
  cases state with
  | root => exact absurd rfl hroot
  | rootVal => exact absurd rfl hval
  | peersSeq | peerMap =>
    obtain rfl := Except.ok.inj h
    exact ⟨rfl, by simp, by simp⟩
  | peerVal | allowedIpsSeq =>
    obtain ⟨peers', -, rfl⟩ := exists_of_map_eq_ok h
    exact ⟨rfl, by simp, by simp⟩

/-- The entry for the port. -/
def portEntry (n : String) : List (YamlEvent × LoadEnv) :=
  [Scalar.event ⟨ascii "port", ⟨[], none⟩⟩, Scalar.event ⟨ascii n, ⟨[], none⟩⟩]

theorem isEntries_pair (key value : Scalar) : IsEntries [key.event, value.event] :=
  .cons (.scalar key) (.scalar value) .nil

/-- Unless a key is expected, an entry for the port is not read as one. -/
theorem portEntry_elsewhere {l l' : Loader} {n : String} (hstate : l.state ≠ .root)
    (h : loadAll inetPton l (portEntry n) = .ok l') :
    l'.root.port = l.root.port ∨ l'.root.port = 0 := by
  by_cases hval : l.state = .rootVal
  · obtain ⟨state, k, pk, root, peers⟩ := l
    obtain rfl : state = .rootVal := hval
    obtain rfl := Except.ok.inj h
    have hget := Setting.port.get_setRoot root k (ofBuffer (ascii "port"))
    split at hget
    · exact Or.inr (Sum.inr.inj hget)
    · exact Or.inl (Sum.inr.inj hget)
  · obtain ⟨l₁, hstep, hrest⟩ := loadAll_cons_ok h
    obtain ⟨l₂, hstep', hnil⟩ := loadAll_cons_ok hrest
    obtain rfl := Except.ok.inj hnil
    obtain ⟨hroot, hne, hval'⟩ := loadStep_scalar_root hstep hstate hval
    exact Or.inl (by rw [(loadStep_scalar_root hstep' hne hval').1, hroot])

variable (inetPton) in
/-- The entry with the unknown key does no harm exactly if its value is skipped and the
rest of it sets what is set already. -/
theorem root_harmless_iff {l : Loader} (hstate : l.state = .root) {key : Scalar}
    (hkey : UnknownRoot key.text) {value : List (YamlEvent × LoadEnv)} :
    (∀ after, IsEntries after → ∀ r, loadAll inetPton l after = .ok r →
      ∃ r', loadAll inetPton l (key.event :: value ++ after) = .ok r' ∧
        r'.root = r.root ∧ r'.peers = r.peers) ↔
      ∃ ps, rootLevel.Skips value ps ∧ applyRoot l.root ps = l.root := by
  obtain ⟨state, k, pk, root, peers⟩ := l
  obtain rfl : state = .root := hstate
  constructor
  · intro h
    obtain ⟨l₁, hl₁, hroot, hpeers⟩ := h [] .nil _ rfl
    rw [List.append_nil] at hl₁
    -- the next entry for the port must be read as one
    have hport : l₁.state = .root := by
      by_contra hne
      have hread : ∀ n : String, atoi (ofBuffer (ascii n)) = root.port ∨
          atoi (ofBuffer (ascii n)) = 0 := by
        intro n
        obtain ⟨r', hr', hroot', -⟩ := h (portEntry n) (isEntries_pair _ _) _ rfl
        rw [loadAll_append, hl₁] at hr'
        have := portEntry_elsewhere hne hr'
        rw [hroot', hroot] at this
        exact this
      have h1 := hread "1"
      have h2 := hread "2"
      rw [show atoi (ofBuffer (ascii "1")) = 1 by decide] at h1
      rw [show atoi (ofBuffer (ascii "2")) = 2 by decide] at h2
      omega
    obtain ⟨ps, hps, happly⟩ :=
      (rootEntries_of_loadAll (l := ⟨.rootVal, key.text.take 63, pk, root, peers⟩) hl₁ hport
        (congrArg weight hpeers).le).2.1 rfl
    obtain ⟨first, ps', rfl, hskips⟩ := hps.skips hkey.cut.2.2
    have hfirst : applyRoot root ((key.text.take 63, first) :: ps') = applyRoot root ps' := by
      rw [applyRoot, List.foldl_cons,
        setRoot_of_unknown hkey.cut.1 fun h => absurd h hkey.cut.2.1]
      rfl
    exact ⟨ps', hskips, hfirst.symm.trans (happly.symm.trans hroot)⟩
  · rintro ⟨ps, hps, happly⟩ after - r hr
    obtain ⟨k', hk'⟩ := loadAll_root_skips inetPton k pk root peers hkey hps
    have halike : Alike ⟨.root, k, pk, root, peers⟩ ⟨.root, k', pk, applyRoot root ps, peers⟩ :=
      ⟨rfl, by simp, by simp, happly.symm, rfl⟩
    obtain ⟨r', hr', hsame⟩ := halike.loadAll hr
    refine ⟨r', ?_, hsame.root.symm, hsame.peers.symm⟩
    rw [loadAll_append, hk']
    exact hr'

-- ════════════════════════════════════════════════════════════════════════
-- The mapping of a peer
-- ════════════════════════════════════════════════════════════════════════

theorem loadStep_peerMap_ignored {ev : YamlEvent} (env : LoadEnv) (hscalar : ev.isScalar = false)
    (hcloses : ev ≠ .mappingEnd) :
    loadStep inetPton ⟨.peerMap, k, pk, root, peers⟩ ev env =
      .ok ⟨.peerMap, k, pk, root, peers⟩ := by
  cases ev with
  | scalar value => exact absurd hscalar (by simp [YamlEvent.isScalar])
  | mappingEnd => exact absurd rfl hcloses
  | _ => rfl

theorem loadStep_peerVal_ignored {ev : YamlEvent} (env : LoadEnv) (hscalar : ev.isScalar = false)
    (hlist : pk = ascii "allowed_ips" → ev ≠ .sequenceStart) :
    loadStep inetPton ⟨.peerVal, k, pk, root, peers⟩ ev env =
      .ok ⟨.peerVal, k, pk, root, peers⟩ := by
  cases ev with
  | scalar value => exact absurd hscalar (by simp [YamlEvent.isScalar])
  | sequenceStart => exact if_neg fun h => hlist h rfl
  | _ => rfl

theorem loadStep_allowedIps_ignored {ev : YamlEvent} (env : LoadEnv) (hend : ev ≠ .sequenceEnd)
    (hscalar : ev.isScalar = false) :
    loadStep inetPton ⟨.allowedIpsSeq, k, pk, root, peers⟩ ev env =
      .ok ⟨.allowedIpsSeq, k, pk, root, peers⟩ := by
  cases ev with
  | scalar value => exact absurd hscalar (by simp [YamlEvent.isScalar])
  | sequenceEnd => exact absurd rfl hend
  | _ => rfl

theorem applyPeer_cons (peer : PeerEntry) (key : Bytes) (s : Scalar) (ps : List (Bytes × Scalar)) :
    applyPeer peer ((key, s) :: ps) =
      (setPeer key s.text s.env peer).bind fun peer => applyPeer peer ps := rfl

variable (inetPton k pk root init) in
/-- Entries of the mapping of a peer are read as such. -/
theorem loadAll_peerEntries {es : List (YamlEvent × LoadEnv)} {ps : List (Bytes × Scalar)}
    (h : peerLevel.Entries es ps) {peer peer' : PeerEntry} (happly : applyPeer peer ps = .ok peer') :
    ∃ pk', loadAll inetPton ⟨.peerMap, k, pk, root, init ++ [peer]⟩ es =
      .ok ⟨.peerMap, k, pk', root, init ++ [peer']⟩ := by
  have hbetween : ∀ {pk peer gap}, peerLevel.Between gap → ∀ e ∈ gap,
      loadStep inetPton ⟨.peerMap, k, pk, root, init ++ [peer]⟩ e.1 e.2 =
        .ok ⟨.peerMap, k, pk, root, init ++ [peer]⟩ := fun hgap e he =>
    loadStep_peerMap_ignored e.2 (hgap e he).1 (by simpa [peerLevel] using (hgap e he).2)
  induction h generalizing pk peer with
  | @nil gap hgap =>
    refine ⟨pk, ?_⟩
    obtain rfl := Except.ok.inj happly
    rw [← List.append_nil gap, loadAll_ignored (hbetween hgap)]
    rfl
  | @entry gap gap' rest key value ps hgap hgap' hrest ih =>
    rw [applyPeer_cons] at happly
    obtain ⟨peer₁, hset, happly⟩ := exists_of_bind_eq_ok happly
    obtain ⟨pk', hpk'⟩ := ih (key.text.take 63) happly
    refine ⟨pk', ?_⟩
    rw [loadAll_ignored (hbetween hgap)]
    change loadAll inetPton ⟨.peerVal, k, key.text.take 63, root, init ++ [peer]⟩ _ = _
    rw [loadAll_ignored fun e he => loadStep_peerVal_ignored e.2 (hgap' e he).1 (hgap' e he).2,
      loadAll]
    change (loadStep inetPton _ (.scalar value.value) value.env).bind _ = _
    rw [loadStep_peerVal_scalar, hset]
    exact hpk'
  | @list gap gap' inner rest key env env' ps hkey hgap hgap' hinner hrest ih =>
    obtain ⟨pk', hpk'⟩ := ih (ascii "allowed_ips") happly
    refine ⟨pk', ?_⟩
    rw [loadAll_ignored (hbetween hgap)]
    change loadAll inetPton ⟨.peerVal, k, key.text.take 63, root, init ++ [peer]⟩ _ = _
    rw [hkey, loadAll_ignored fun e he =>
      loadStep_peerVal_ignored e.2 (hgap' e he).1 (hgap' e he).2]
    change loadAll inetPton ⟨.allowedIpsSeq, k, ascii "allowed_ips", root, init ++ [peer]⟩ _ = _
    rw [loadAll_ignored fun e he => loadStep_allowedIps_ignored e.2 (hinner e he).1 (hinner e he).2]
    exact hpk'

/-- The states inside the mapping of a peer. -/
def LoadState.inPeer : LoadState → Bool
  | .peerMap | .peerVal | .allowedIpsSeq => true
  | _ => false

theorem loadStep_enters {l l' : Loader} {ev : YamlEvent} {env : LoadEnv}
    (h : loadStep inetPton l ev env = .ok l') (hl : l.state.inPeer = false) :
    l'.state.inPeer = false ∨ weight l.peers < weight l'.peers := by
  obtain ⟨state, k, pk, root, peers⟩ := l
  cases state with
  | root => cases ev <;> obtain rfl := Except.ok.inj h <;> exact Or.inl rfl
  | rootVal =>
    cases ev with
    | sequenceStart =>
      simp only [loadStep] at h
      split at h <;> obtain rfl := Except.ok.inj h <;> exact Or.inl rfl
    | _ => obtain rfl := Except.ok.inj h; exact Or.inl rfl
  | peersSeq =>
    cases ev with
    | mappingStart =>
      simp only [loadStep] at h
      split at h
      · exact absurd h (by simp)
      · obtain rfl := Except.ok.inj h
        rw [weight_concat]
        exact Or.inr (Nat.lt_add_of_pos_right (Nat.succ_pos _))
    | _ => obtain rfl := Except.ok.inj h; exact Or.inl rfl
  | peerMap | peerVal | allowedIpsSeq => exact absurd hl (by simp [LoadState.inPeer])

/-- A mapping can only be entered with a new peer. -/
theorem loadAll_enters {l l' : Loader} {es : List (YamlEvent × LoadEnv)}
    (h : loadAll inetPton l es = .ok l') (hl : l.state.inPeer = false)
    (hl' : l'.state.inPeer = true) : weight l.peers < weight l'.peers := by
  induction es generalizing l with
  | nil =>
    obtain rfl := Except.ok.inj h
    exact absurd hl' (by simp [hl])
  | cons e es ih =>
    obtain ⟨l₁, hstep, hes⟩ := loadAll_cons_ok h
    rcases loadStep_enters hstep hl with hl₁ | hlt
    · exact (loadStep_weight hstep).trans_lt (ih hes hl₁)
    · exact hlt.trans_le (loadAll_weight hes)

/-- A loader that ends up between two entries of the same mapping without adding anything
has read entries. -/
theorem peerEntries_of_loadAll {l l' : Loader} {es : List (YamlEvent × LoadEnv)} {peer : PeerEntry}
    (h : loadAll inetPton l es = .ok l') (hpeers : l.peers = init ++ [peer])
    (hstate : l'.state = .peerMap) (hweight : weight l'.peers ≤ weight l.peers) :
    (l.state = .peerMap → ∃ ps peer', peerLevel.Entries es ps ∧ applyPeer peer ps = .ok peer' ∧
      l'.peers = init ++ [peer']) ∧
    (l.state = .peerVal → ∃ ps peer', peerLevel.AfterKey l.peerKey es ps ∧
      applyPeer peer ps = .ok peer' ∧ l'.peers = init ++ [peer']) ∧
    (l.state = .allowedIpsSeq → ∃ ps peer', peerLevel.InList es ps ∧
      applyPeer peer ps = .ok peer' ∧ l'.peers = init ++ [peer']) := by
  induction es generalizing l peer with
  | nil =>
    obtain rfl := Except.ok.inj h
    refine ⟨fun _ => ⟨[], peer, .nil fun e he => absurd he (by simp), rfl, hpeers⟩,
      fun hl => ?_, fun hl => ?_⟩
    · exact absurd (hstate.symm.trans hl) (by decide)
    · exact absurd (hstate.symm.trans hl) (by decide)
  | cons e es ih =>
    obtain ⟨l₁, hstep, hes⟩ := loadAll_cons_ok h
    have hweight₁ := hweight.trans (loadStep_weight hstep)
    obtain ⟨ev, env⟩ := e
    obtain ⟨state, k, pk, root, peers⟩ := l
    obtain rfl : peers = init ++ [peer] := hpeers
    refine ⟨?_, ?_, ?_⟩
    · rintro rfl
      by_cases hev : ev.isScalar = false
      · by_cases hend : ev = .mappingEnd
        · -- the mapping is left for good
          subst hend
          obtain rfl := Except.ok.inj hstep
          have hgrown := loadAll_enters hes rfl (by rw [hstate]; rfl)
          exact absurd hgrown (not_lt.mpr hweight)
        · rw [loadStep_peerMap_ignored env hev hend] at hstep
          obtain rfl := Except.ok.inj hstep
          obtain ⟨ps, peer', hps, hrest⟩ := (ih hes rfl hweight₁).1 rfl
          exact ⟨ps, peer', hps.skip hev (by simpa [peerLevel] using hend), hrest⟩
      · obtain ⟨value, rfl⟩ := YamlEvent.eq_scalar hev
        obtain rfl := Except.ok.inj hstep
        obtain ⟨ps, peer', hps, hrest⟩ := (ih hes rfl hweight₁).2.1 rfl
        exact ⟨ps, peer', Level.AfterKey.entries (s := ⟨value, env⟩) hps, hrest⟩
    · rintro rfl
      by_cases hev : ev.isScalar = false
      · by_cases hlist : pk = ascii "allowed_ips" ∧ ev = .sequenceStart
        · obtain ⟨rfl, rfl⟩ := hlist
          simp only [loadStep, if_true] at hstep
          obtain rfl := Except.ok.inj hstep
          obtain ⟨ps, peer', hps, hrest⟩ := (ih hes rfl hweight₁).2.2 rfl
          exact ⟨ps, peer', hps.opens env, hrest⟩
        · rw [loadStep_peerVal_ignored env hev (not_and.mp hlist)] at hstep
          obtain rfl := Except.ok.inj hstep
          obtain ⟨ps, peer', hps, hrest⟩ := (ih hes rfl hweight₁).2.1 rfl
          exact ⟨ps, peer', hps.skip hev (not_and.mp hlist), hrest⟩
      · obtain ⟨value, rfl⟩ := YamlEvent.eq_scalar hev
        obtain ⟨peer₁, hset, rfl⟩ := exists_of_map_eq_ok
          ((loadStep_peerVal_scalar peer ⟨value, env⟩).symm.trans hstep)
        obtain ⟨ps, peer', hps, happly, hlast⟩ := (ih hes rfl hweight₁).1 rfl
        refine ⟨_, peer', hps.value ⟨value, env⟩, ?_, hlast⟩
        rw [applyPeer_cons, hset]
        exact happly
    · rintro rfl
      by_cases hend : ev = .sequenceEnd
      · subst hend
        obtain rfl := Except.ok.inj hstep
        obtain ⟨ps, peer', hps, hrest⟩ := (ih hes rfl hweight₁).1 rfl
        exact ⟨ps, peer', hps.inList env, hrest⟩
      · by_cases hev : ev.isScalar = false
        · rw [loadStep_allowedIps_ignored env hend hev] at hstep
          obtain rfl := Except.ok.inj hstep
          obtain ⟨ps, peer', hps, hrest⟩ := (ih hes rfl hweight₁).2.2 rfl
          exact ⟨ps, peer', hps.skip hend hev, hrest⟩
        · -- the new route stays
          obtain ⟨value, rfl⟩ := YamlEvent.eq_scalar hev
          obtain ⟨peer₁, hadd, rfl⟩ := exists_of_map_eq_ok
            ((loadStep_allowedIps_scalar peer ⟨value, env⟩).symm.trans hstep)
          obtain ⟨route, -, hroutes⟩ := addRoute_routes hadd
          have hgrown := (loadAll_weight hes).trans hweight
          simp only [weight_concat, hroutes, List.length_append, List.length_singleton] at hgrown
          omega

-- ════════════════════════════════════════════════════════════════════════
-- Insertion into the mapping of a peer
-- ════════════════════════════════════════════════════════════════════════

theorem UnknownPeer.cut {key : Bytes} (h : UnknownPeer key) : UnknownPeer (key.take 63) :=
  ⟨fun hs => h.1 ((take_key_eq_iff (by decide)).mp hs),
    fun hs => h.2.1 ((take_key_eq_iff (by decide)).mp hs),
    fun hs => h.2.2 ((take_key_eq_iff (by decide)).mp hs)⟩

theorem setPeer_of_unknown {key value : Bytes} (hkey : UnknownPeer key) (env : LoadEnv)
    (peer : PeerEntry) : setPeer key value env peer = .ok peer := by
  rw [setPeer, if_neg hkey.1, if_neg hkey.2.1]

variable (inetPton k pk root init) in
theorem loadAll_peer_skips {key : Scalar} {value : List (YamlEvent × LoadEnv)}
    {ps : List (Bytes × Scalar)} {peer peer' : PeerEntry} (hkey : UnknownPeer key.text)
    (h : peerLevel.Skips value ps) (happly : applyPeer peer ps = .ok peer') :
    ∃ pk', loadAll inetPton ⟨.peerMap, k, pk, root, init ++ [peer]⟩ (key.event :: value) =
      .ok ⟨.peerMap, k, pk', root, init ++ [peer']⟩ := by
  obtain ⟨gap, first, rest, rfl, hgap, hrest⟩ := h
  obtain ⟨pk', hpk'⟩ :=
    loadAll_peerEntries inetPton k (key.text.take 63) root init hrest happly
  refine ⟨pk', ?_⟩
  change loadAll inetPton ⟨.peerVal, k, key.text.take 63, root, init ++ [peer]⟩ _ = _
  rw [loadAll_ignored fun e he => loadStep_peerVal_ignored e.2 (hgap e he)
    fun h => absurd h hkey.cut.2.2]
  change (loadStep inetPton _ (.scalar first.value) first.env).bind _ = _
  rw [loadStep_peerVal_scalar, setPeer_of_unknown hkey.cut]
  exact hpk'

/-- The end of the mapping and of the sequence `peers`. -/
def peerEnd : List (YamlEvent × LoadEnv) := [mark .mappingEnd, mark .sequenceEnd]

variable (inetPton) in
theorem loadAll_peerEnd (l : Loader) :
    ∃ state, loadAll inetPton l peerEnd = .ok { l with state } := by
  obtain ⟨state, k, pk, root, peers⟩ := l
  cases state <;> exact ⟨_, rfl⟩

/-- The entry for a public key that repeats one byte. -/
def pubEntry (byte : String) : List (YamlEvent × LoadEnv) :=
  [Scalar.event ⟨ascii "public_key", ⟨[], none⟩⟩,
    Scalar.event ⟨(List.replicate 32 (ascii byte)).flatten, ⟨[], none⟩⟩]

theorem loadAll_pubEntry {peer : PeerEntry} {byte : String} {bytes : Bytes}
    (h : hexToBytes (ofBuffer (List.replicate 32 (ascii byte)).flatten) dhPubkeyLen = some bytes) :
    loadAll inetPton ⟨.peerMap, k, pk, root, init ++ [peer]⟩ (pubEntry byte) =
      .ok ⟨.peerMap, k, ascii "public_key", root, init ++ [{ peer with pub := bytes }]⟩ := by
  have hname : (ofBuffer (ascii "public_key")).take 63 = ascii "public_key" := by decide
  simp only [pubEntry, Scalar.event, loadAll, loadStep, Except.bind, hname, updateLast_concat,
    setPeer, if_true, h, Except.map]

theorem updateLast_pub {peers' : List PeerEntry} {f : PeerEntry → Except LoadError PeerEntry}
    (hf : ∀ peer peer', f peer = .ok peer' → peer'.pub = peer.pub)
    (h : updateLast peers f = .ok peers') :
    peers'.map (fun peer => peer.pub) = peers.map fun peer => peer.pub := by
  rcases List.eq_nil_or_concat peers with rfl | ⟨init, peer, rfl⟩
  · obtain rfl := Except.ok.inj h
    rfl
  · rw [List.concat_eq_append, updateLast_concat] at h
    obtain ⟨peer', hpeer, rfl⟩ := exists_of_map_eq_ok h
    simp [List.concat_eq_append, hf peer peer' hpeer]

/-- The name of the key is no public key. -/
theorem setPeer_pub_name {key : Bytes} {env : LoadEnv} {peer peer' : PeerEntry}
    (h : setPeer key (ascii "public_key") env peer = .ok peer') : peer'.pub = peer.pub := by
  refine (setPeer_pub h).2 fun hkey => ?_
  have hpub := (setPeer_pub h).1 hkey
  rw [show hexToBytes (ascii "public_key") dhPubkeyLen = none by decide] at hpub
  exact absurd hpub (by simp)

/-- Unless a key is expected, an entry for the public key is not read as one. -/
theorem pubEntry_elsewhere {l l' : Loader} {byte : String} (hstate : l.state ≠ .peerMap)
    (h : loadAll inetPton l (pubEntry byte) = .ok l') :
    l'.peers.map (fun peer => peer.pub) = l.peers.map fun peer => peer.pub := by
  obtain ⟨state, k, pk, root, peers⟩ := l
  cases state with
  | peerMap => exact absurd rfl hstate
  | root | rootVal | peersSeq =>
    obtain rfl := Except.ok.inj h
    rfl
  | peerVal =>
    obtain ⟨l₁, hstep, hrest⟩ := loadAll_cons_ok h
    obtain ⟨peers', hupd, rfl⟩ := exists_of_map_eq_ok hstep
    obtain rfl := Except.ok.inj hrest
    exact updateLast_pub (fun _ _ hset => setPeer_pub_name hset) hupd
  | allowedIpsSeq =>
    obtain ⟨l₁, hstep, hrest⟩ := loadAll_cons_ok h
    obtain ⟨peers₁, hupd, rfl⟩ := exists_of_map_eq_ok hstep
    obtain ⟨l₂, hstep', hnil⟩ := loadAll_cons_ok hrest
    obtain ⟨peers₂, hupd', rfl⟩ := exists_of_map_eq_ok hstep'
    obtain rfl := Except.ok.inj hnil
    exact (updateLast_pub (fun _ _ => addRoute_pub) hupd').trans
      (updateLast_pub (fun _ _ => addRoute_pub) hupd)

variable (inetPton) in
/-- The same in the mapping of a peer. -/
theorem peer_harmless_iff {l : Loader} {peer : PeerEntry} (hstate : l.state = .peerMap)
    (hpeers : l.peers = init ++ [peer]) {key : Scalar} (hkey : UnknownPeer key.text)
    {value : List (YamlEvent × LoadEnv)} :
    (∀ after, AfterInPeer after → ∀ r, loadAll inetPton l after = .ok r →
      ∃ r', loadAll inetPton l (key.event :: value ++ after) = .ok r' ∧
        r'.root = r.root ∧ r'.peers = r.peers) ↔
      ∃ ps, peerLevel.Skips value ps ∧ applyPeer peer ps = .ok peer := by
  obtain ⟨state, k, pk, root, peers⟩ := l
  obtain rfl : state = .peerMap := hstate
  obtain rfl : peers = init ++ [peer] := hpeers
  constructor
  · intro h
    -- what the loader holds after the value, and how it reads the entries behind it
    have hread : ∀ fields l₂, IsEntries fields →
        loadAll inetPton ⟨.peerMap, k, pk, root, init ++ [peer]⟩ fields = .ok l₂ →
        ∃ l₁ l₂', loadAll inetPton ⟨.peerMap, k, pk, root, init ++ [peer]⟩ (key.event :: value) =
          .ok l₁ ∧ loadAll inetPton l₁ fields = .ok l₂' ∧ l₂'.peers = l₂.peers := by
      intro fields l₂ hfields hl₂
      obtain ⟨state, hend⟩ := loadAll_peerEnd inetPton l₂
      have hwhole : loadAll inetPton ⟨.peerMap, k, pk, root, init ++ [peer]⟩ (fields ++ peerEnd) =
          .ok { l₂ with state } := by
        rw [loadAll_append, hl₂]
        exact hend
      obtain ⟨r', hr', -, hpeers'⟩ := h _ (.intro hfields .nil .nil) _ hwhole
      obtain ⟨l₁, hl₁, hrest⟩ := loadAll_append_ok hr'
      obtain ⟨l₂', hl₂', hend'⟩ := loadAll_append_ok hrest
      obtain ⟨state', hend''⟩ := loadAll_peerEnd inetPton l₂'
      obtain rfl := Except.ok.inj (hend''.symm.trans hend')
      exact ⟨l₁, l₂', hl₁, hl₂', hpeers'⟩
    obtain ⟨l₁, l₁', hl₁, hnil, hpeers⟩ := hread [] _ .nil rfl
    obtain rfl := Except.ok.inj hnil
    have hmap : l₁.state = .peerMap := by
      by_contra hne
      have hpub : ∀ byte bytes,
          hexToBytes (ofBuffer (List.replicate 32 (ascii byte)).flatten) dhPubkeyLen = some bytes →
          bytes = peer.pub := by
        intro byte bytes hhex
        obtain ⟨l₁', l₂', hl₁', hl₂', hpeers'⟩ :=
          hread _ _ (isEntries_pair _ _) (loadAll_pubEntry hhex)
        obtain rfl := Except.ok.inj (hl₁.symm.trans hl₁')
        have hsame := pubEntry_elsewhere hne hl₂'
        rw [hpeers', hpeers] at hsame
        simpa using hsame
      have h0 := hpub "00" _ (show _ = some (List.replicate 32 0) by decide)
      have h1 := hpub "01" _ (show _ = some (List.replicate 32 1) by decide)
      exact absurd (h0.trans h1.symm) (by decide)
    obtain ⟨ps, peer', hps, happly, hlast⟩ :=
      (peerEntries_of_loadAll (l := ⟨.peerVal, k, key.text.take 63, root, init ++ [peer]⟩) hl₁ rfl
        hmap (congrArg weight hpeers).le).2.1 rfl
    obtain ⟨first, ps', rfl, hskips⟩ := hps.skips hkey.cut.2.2
    obtain rfl : peer' = peer := by
      have := hlast.symm.trans hpeers
      simpa using this
    refine ⟨ps', hskips, ?_⟩
    rw [applyPeer_cons, setPeer_of_unknown hkey.cut] at happly
    exact happly
  · rintro ⟨ps, hps, happly⟩ after - r hr
    obtain ⟨pk', hpk'⟩ := loadAll_peer_skips inetPton k pk root init hkey hps happly
    have halike : Alike ⟨.peerMap, k, pk, root, init ++ [peer]⟩
        ⟨.peerMap, k, pk', root, init ++ [peer]⟩ := ⟨rfl, by simp, by simp, rfl, rfl⟩
    obtain ⟨r', hr', hsame⟩ := halike.loadAll hr
    refine ⟨r', ?_, hsame.root.symm, hsame.peers.symm⟩
    rw [loadAll_append, hpk']
    exact hr'

/-- Inserting an entry with an unknown key where `load_config` stands between two entries
does not change what the file means, whatever follows, exactly if the value is read as one
scalar and entries that set what is set already. -/
theorem insertion_harmless_iff {l : Loader} {before value : List (YamlEvent × LoadEnv)}
    {key : Scalar} (hl : loadAll inetPton {} before = .ok l) (hvalue : IsNode value) :
    (IsEntries before → l.state = .root → UnknownRoot key.text →
      ((∀ after, IsEntries after → Harmless inetPton before (key.event :: value) after) ↔
        ∃ ps, rootLevel.Skips value ps ∧ applyRoot l.root ps = l.root)) ∧
    (BeforeInPeer before → l.state = .peerMap → UnknownPeer key.text →
      ∃ peer, l.peers.getLast? = some peer ∧
        ((∀ after, AfterInPeer after → Harmless inetPton before (key.event :: value) after) ↔
          ∃ ps, peerLevel.Skips value ps ∧ applyPeer peer ps = .ok peer)) := by
  have hinserted : Inside (key.event :: value) := .cons (by simp [Scalar.event]) hvalue.inside
  constructor
  · intro hbefore hstate hkey
    rw [← root_harmless_iff inetPton hstate hkey]
    exact forall_congr' fun after => forall_congr' fun hafter =>
      harmless_iff hl hbefore.inside hinserted hafter.inside
  · intro hbefore hstate hkey
    -- a loader inside the mapping of a peer has a peer
    have hpos := loadAll_enters hl rfl (by rw [hstate]; rfl)
    rcases List.eq_nil_or_concat l.peers with hnil | ⟨init, peer, hpeers⟩
    · rw [hnil] at hpos
      exact absurd hpos (Nat.lt_irrefl 0)
    · rw [List.concat_eq_append] at hpeers
      refine ⟨peer, by rw [hpeers, List.getLast?_concat], ?_⟩
      rw [← peer_harmless_iff inetPton hstate hpeers hkey]
      exact forall_congr' fun after => forall_congr' fun hafter =>
        harmless_iff hl hbefore.inside hinserted hafter.inside

end Loader

namespace Document

theorem unknownRoot_foo : UnknownRoot (text "foo").text :=
  ⟨fun s => by cases s <;> decide, by decide, by decide⟩

theorem unknownPeer_foo : UnknownPeer (text "foo").text := ⟨by decide, by decide, by decide⟩

/-- The value `[a, b, c]`. -/
def threeScalars : List (YamlEvent × LoadEnv) :=
  [mark .sequenceStart, (text "a").event, (text "b").event, (text "c").event, mark .sequenceEnd]

/-- The file up to the first entry of the first peer. -/
def firstPeer : List (YamlEvent × LoadEnv) :=
  [(text "peers").event, mark .sequenceStart, mark .mappingStart]

end Document

open Document in
theorem insertion_harmless_iff_foo :
    (∀ after, IsEntries after → Harmless Ipv4.pton [] ((text "foo").event :: threeScalars) after) ∧
    ∀ after, AfterInPeer after →
      Harmless Ipv4.pton firstPeer [(text "foo").event, (text "a").event] after := by
  have hnodes : ∀ node ∈ [[(text "a").event], [(text "b").event], [(text "c").event]],
      IsNode node := by
    simp only [List.forall_mem_cons]
    exact ⟨.scalar _, .scalar _, .scalar _, by simp⟩
  have hthree : IsNode threeScalars := .sequence hnodes
  have hpeers : BeforeInPeer firstPeer :=
    BeforeInPeer.intro .nil (show (text "peers").text = _ from rfl) .nil .nil
  constructor
  · refine ((insertion_harmless_iff (l := {}) rfl hthree).1 .nil rfl unknownRoot_foo).mpr ?_
    refine ⟨[(ascii "b", text "c")], ⟨[mark .sequenceStart], text "a", _, rfl, by decide, ?_⟩,
      by decide +kernel⟩
    have hnil : rootLevel.Between [] := by simp [Level.Between]
    have hend : rootLevel.Between [mark .sequenceEnd] := by
      simp [Level.Between, mark, YamlEvent.isScalar, rootLevel]
    exact .entry hnil (show rootLevel.Waits _ [] by simp [Level.Waits]) (.nil hend)
  · have hl : loadAll Ipv4.pton {} firstPeer =
        .ok ⟨.peerMap, ascii "peers", [], {}, [PeerEntry.zero]⟩ := rfl
    obtain ⟨peer, -, hiff⟩ :=
      (insertion_harmless_iff hl (.scalar (text "a"))).2 hpeers rfl unknownPeer_foo
    exact hiff.mpr ⟨[], ⟨[], text "a", [], rfl, by simp, .nil (by simp [Level.Between])⟩, rfl⟩

open Document in
/-- After `foo: []` the port is read as the value of `foo`. -/
theorem unknown_key_shifts :
    IsNode [mark .sequenceStart, mark .sequenceEnd] ∧ UnknownRoot (text "foo").text ∧
    IsEntries (portEntry "7000") ∧
    (loadConfig Ipv4.pton (fileEvents (portEntry "7000"))).map (fun l => l.root.port) = .ok 7000 ∧
    (loadConfig Ipv4.pton (fileEvents ([(text "foo").event, mark .sequenceStart,
      mark .sequenceEnd] ++ portEntry "7000"))).map (fun l => l.root.port) = .ok 5040 :=
  ⟨.sequence (show ∀ node ∈ [], IsNode node by simp), unknownRoot_foo, isEntries_pair _ _,
    by decide +kernel, by decide +kernel⟩

end LaneCove

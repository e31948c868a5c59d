import Quilibrium.Forest.VertexTrees
import Quilibrium.Schemes.PathFold

/-! Proofs that a vertex with given fields is committed (`quil-forest/src/membership_proof.rs`). The vertex's byte
    string is carried along; its commitment is recomputed and shown, by a sparse Merkle proof, to stand at the
    vertex's address in a shard's tree, and the shard's root to fold with its co-path to the root of the application.
    The expected fields are then read off the carried string. They need not be fields of the committed vertex: the
    commitment leaves the cut between key and content, and the root's nibbles, open. -/

namespace Quil.Membership
open Schemes VertexTrees List
open ShardFilters (Bytes)

/-- The sparse Merkle tree library: roots of address-keyed trees, and existence proofs. -/
structure Jmt where
  Proof : Type
  root : (Digest 32 → Option Bytes) → Digest 32
  verifyExistence : Proof → Digest 32 → Digest 32 → Bytes → Except String Unit

structure ShardAggregation where
  shardPhaseRoot : Digest 32
  prefixBits : List Bool
  copath : List (Digest 32)

structure VertexMembershipProof (Proof : Type) where
  vertexAddress : Bytes
  vertexBlob : Bytes
  shardProof : Proof
  shardAggregation : Option ShardAggregation

/-! ### Folding shards -/

section

variable (H : Hashing)

def hashPair (l r : Digest 32) : Digest 32 := H.sha256 (l.1 ++ r.1)

/-- The application's root over its shards' roots. -/
def appRootFromShardPaths (shards : List (List Bool × Digest 32)) : Digest 32 :=
  foldPaths (hashPair H) (zeroDigest 32) ((shards.map fun shard => shard.1.length).foldr max 0) shards

/-- The application's root from one shard's root and its co-path. -/
def appRootFromShardPath (target : List Bool) (shardRoot : Digest 32) (siblings : List (Digest 32)) :
    Digest 32 := climbPath (hashPair H) target siblings shardRoot

/-! ### Verification -/

/-- The half of a vertex id that keys its leaf. -/
def dataAddressOf (vertexAddress : Bytes) : Bytes :=
  if 64 ≤ vertexAddress.length then (vertexAddress.drop 32).take 32 else vertexAddress

/-- A leaf's place in its shard's tree: its key, cut or zero-filled to 32 bytes. -/
def shardPathKeyHash (key : Bytes) : Digest 32 :=
  ⟨key.take 32 ++ List.replicate (32 - min key.length 32) 0, by simp; omega⟩

/-- Every expected field is in the tree with its value, and bound when that is asked for. -/
def checkFields (tree : Node) (bindValues : Bool) : List (Bytes × Bytes) → Except String Unit
  | [] => .ok ()
  | (key, value) :: expected =>
    match tree.getLeaf key with
    | none => .error "forest membership: expected field absent from vertex"
    | some leaf =>
      if bindValues ∧ leaf.valueIsBound = false then
        .error "forest membership: expected field's value is not bound by the vertex commitment"
      else if leaf.value = value then checkFields tree bindValues expected
      else .error ("forest membership: field value does not match this input's data " ++
        "(input not bound to the on-chain vertex)")

/-- The sub-shard's root folds to the application's. -/
def checkAggregation (phaseRoot : Digest 32) : Option ShardAggregation → Except String Unit
  | none => .ok ()
  | some a =>
    if a.copath.length ≠ a.prefixBits.length then
      .error "forest membership: shard-aggregation copath/prefix length mismatch"
    else if appRootFromShardPath H a.prefixBits a.shardPhaseRoot a.copath ≠ phaseRoot then
      .error "forest membership: sub-shard root does not aggregate to the app phase root"
    else .ok ()

variable (jmt : Jmt)

def verifyVertexMembershipWith (phaseRoot : Digest 32) (vertex : VertexMembershipProof jmt.Proof)
    (expected : List (Bytes × Bytes)) (bindValues : Bool) : Except String Unit :=
  if vertex.vertexBlob = [] then .error "forest membership: absent vertex (empty blob)"
  else
    let shardRoot := match vertex.shardAggregation with
      | some a => a.shardPhaseRoot
      | none => phaseRoot
    let key := shardPathKeyHash (dataAddressOf vertex.vertexAddress)
    match jmt.verifyExistence vertex.shardProof shardRoot key (vertexLeafValue H vertex.vertexBlob) with
    | .error e => .error s!"forest membership: Level-1 shard inclusion proof failed: {e}"
    | .ok () =>
      match deserializeGoTree vertex.vertexBlob with
      | .error e => .error s!"forest membership: decode vertex blob: {e.display}"
      | .ok tree => do
        checkFields tree bindValues expected
        checkAggregation H phaseRoot vertex.shardAggregation

def verifyVertexMembership (phaseRoot : Digest 32) (vertex : VertexMembershipProof jmt.Proof)
    (expected : List (Bytes × Bytes)) : Except String Unit :=
  verifyVertexMembershipWith H jmt phaseRoot vertex expected true

end

/-! ### What is committed -/

/-- A shard's vertices by their place in its tree. -/
abbrev Vertices := Digest 32 → Option Bytes

variable (H : Hashing) (jmt : Jmt)

/-- The root of a shard's tree. -/
def shardRoot (vertices : Vertices) : Digest 32 := jmt.root fun key => (vertices key).map (vertexLeafValue H)

/-- The root an application commits: its shards' roots folded. One shard at the empty path is a single tree's root. -/
def committedRoot (shards : List (List Bool × Vertices)) : Digest 32 :=
  appRootFromShardPaths H (shards.map fun shard => (shard.1, shardRoot H jmt shard.2))

/-- The path of the shard a proof names: a single tree's is empty. -/
def VertexMembershipProof.shardPath {Proof : Type} (vertex : VertexMembershipProof Proof) : List Bool :=
  (vertex.shardAggregation.map ShardAggregation.prefixBits).getD []

/-- The strings hashed for a vertex's commitment are among `U`. -/
def BlobCovered (U : Set Bytes) (blob : Bytes) : Prop :=
  ∀ tree, deserializeGoTree blob = .ok tree → tree.Covered H U ∧ tree.commit H ∈ U

/-- The vertex has the field. -/
def HasField (blob key value : Bytes) : Prop :=
  ∃ tree leaf, deserializeGoTree blob = .ok tree ∧ tree.getLeaf key = some leaf ∧ leaf.value = value

/-- The vertex has a field under the key whose key and value are, in sequence, the bytes of its leaf at the
    position where the presented tree leads the key. -/
def ReadsAlike (blob presented key : Bytes) : Prop :=
  ∃ tree leaf tree' position leaf', deserializeGoTree blob = .ok tree ∧ tree.getLeaf key = some leaf ∧
    deserializeGoTree presented = .ok tree' ∧ tree'.locate key 0 = some position ∧
    tree.leafAt position = some leaf' ∧ leaf.key ++ leaf.value = leaf'.key ++ leaf'.content

/-- Two digests are hashed as a pair. -/
def PairIn (U : Set Bytes) (l r : Digest 32) : Prop := l.1 ++ r.1 ∈ U

/-- What is assumed of one verification, `U` being the strings it and the committed state hash: SHA-2 is free of
    collisions on them, and the tree library's proofs are sound. A proof is accepted for the digest of one of the
    tree's nodes only, which is not hashed from 64 bytes, and no shard's root is the digest of a pair. -/
structure Assumed (U : Set Bytes) (shards : List (List Bool × Vertices))
    (vertex : VertexMembershipProof jmt.Proof) : Prop where
  collisionFree : CollisionFree H U
  sound : ∀ shard ∈ shards, ∀ key value,
    jmt.verifyExistence vertex.shardProof (shardRoot H jmt shard.2) key value = .ok () →
      (shard.2 key).map (vertexLeafValue H) = some value
  node : ∀ root key value, jmt.verifyExistence vertex.shardProof root key value = .ok () →
    ∃ x ∈ U, x.length ≠ 64 ∧ root = H.sha256 x
  apart : ∀ shard ∈ shards, ∀ x ∈ U, x.length = 64 → shardRoot H jmt shard.2 ≠ H.sha256 x
  vertices : ∀ shard ∈ shards, ∀ key blob, shard.2 key = some blob → BlobCovered H U blob
  presented : BlobCovered H U vertex.vertexBlob
  fold : FoldGood (hashPair H) (zeroDigest 32) (PairIn U)
    (((shards.map fun shard => (shard.1, shardRoot H jmt shard.2)).map fun shard => shard.1.length).foldr
      max 0) (shards.map fun shard => (shard.1, shardRoot H jmt shard.2))
  climb : ∀ a, vertex.shardAggregation = some a →
    ClimbGood (hashPair H) (PairIn U) a.prefixBits a.copath a.shardPhaseRoot

variable {H} {jmt} {U : Set Bytes} {shards : List (List Bool × Vertices)}
  {vertex : VertexMembershipProof jmt.Proof}

/-! ### The shard -/

theorem length_pair (l r : Digest 32) : (l.1 ++ r.1).length = 64 := by
  rw [length_append, length_digest, length_digest]

theorem hashPair_inj (hU : Set.InjOn H.sha256 U) {a b c d : Digest 32} (hab : PairIn U a b)
    (hcd : PairIn U c d) (h : hashPair H a b = hashPair H c d) : a = c ∧ b = d := by
  obtain ⟨hl, hr⟩ := List.append_inj (hU hab hcd h) (by rw [length_digest, length_digest])
  exact ⟨Subtype.ext hl, Subtype.ext hr⟩

/-- A root for which a proof is accepted, and that climbs to the application's root, is a shard's. -/
theorem exists_shard (h : Assumed H jmt U shards vertex) {root key : Digest 32} {value : Bytes}
    (haccept : jmt.verifyExistence vertex.shardProof root key value = .ok ()) (path : List Bool)
    (copath : List (Digest 32)) (hlen : copath.length = path.length)
    (hclimb : ClimbGood (hashPair H) (PairIn U) path copath root)
    (hroot : appRootFromShardPath H path root copath = committedRoot H jmt shards) :
    ∃ shard ∈ shards, shard.1 = path ∧ root = shardRoot H jmt shard.2 := by
  obtain ⟨x, hx, hxlen, rfl⟩ := h.node root key value haccept
  have hpair : ∀ a b : Digest 32, PairIn U a b → H.sha256 x ≠ hashPair H a b := by
    intro a b hab he
    have := h.collisionFree.sha256_inj hx hab he
    rw [this, length_pair] at hxlen
    exact hxlen rfl
  have hmem := mem_of_climbPath (hashPair H) (zeroDigest 32) (fun _ _ _ _ => hashPair_inj h.collisionFree.sha256_inj)
    (fun _ _ hab => h.collisionFree.sha256_ne_zero _ hab) hpair
    (h.collisionFree.sha256_ne_zero x hx) hlen hclimb ?_ h.fold hroot
  · obtain ⟨shard, hshard, heq⟩ := mem_map.1 hmem
    obtain ⟨hpath, hshardRoot⟩ := Prod.mk.inj heq
    exact ⟨shard, hshard, hpath, hshardRoot.symm⟩
  intro leaf hleaf a b hab
  obtain ⟨shard, hshard, rfl⟩ := mem_map.1 hleaf
  exact h.apart shard hshard _ hab (length_pair a b)

/-- An accepted proof is one of some shard's tree. -/
theorem exists_vertex (h : Assumed H jmt U shards vertex) {expected : List (Bytes × Bytes)}
    (haccept : verifyVertexMembership H jmt (committedRoot H jmt shards) vertex expected = .ok ()) :
    ∃ tree, deserializeGoTree vertex.vertexBlob = .ok tree ∧ vertex.vertexBlob ≠ [] ∧
      checkFields tree true expected = .ok () ∧
      ∃ shard ∈ shards, shard.1 = vertex.shardPath ∧
        ∃ blob, shard.2 (shardPathKeyHash (dataAddressOf vertex.vertexAddress)) = some blob ∧
          vertexLeafValue H blob = vertexLeafValue H vertex.vertexBlob := by
  rw [verifyVertexMembership, verifyVertexMembershipWith] at haccept
  split_ifs at haccept with hempty
  dsimp only at haccept
  split at haccept
  · cases haccept
  next hproof =>
    split at haccept
    · cases haccept
    next tree htree =>
      obtain ⟨⟨⟩, hfields, hagg⟩ := bind_ok haccept
      refine ⟨tree, htree, hempty, hfields, ?_⟩
      -- the tree proof's root is a shard's, directly or by its co-path
      have hshard : ∃ shard ∈ shards, shard.1 = vertex.shardPath ∧
          jmt.verifyExistence vertex.shardProof (shardRoot H jmt shard.2)
            (shardPathKeyHash (dataAddressOf vertex.vertexAddress))
            (vertexLeafValue H vertex.vertexBlob) = .ok () := by
        rw [VertexMembershipProof.shardPath]
        rcases hcase : vertex.shardAggregation with _ | a
        · rw [hcase] at hproof
          obtain ⟨shard, hshard, hpath, hroot⟩ := exists_shard h hproof [] [] rfl trivial rfl
          exact ⟨shard, hshard, hpath, hroot ▸ hproof⟩
        rw [hcase] at hproof hagg
        rw [checkAggregation] at hagg
        split_ifs at hagg with hlen hroot
        obtain ⟨shard, hshard, hpath, hroot⟩ := exists_shard h hproof _ _ (not_not.1 hlen)
          (h.climb a hcase) (not_not.1 hroot)
        exact ⟨shard, hshard, hpath, hroot ▸ hproof⟩
      obtain ⟨shard, hshard, hpath, hproof⟩ := hshard
      have hleaf := h.sound shard hshard _ _ hproof
      obtain ⟨blob, hblob, hvalue⟩ := Option.map_eq_some_iff.1 hleaf
      exact ⟨shard, hshard, hpath, blob, hblob, hvalue⟩

/-! ### The vertex -/

/-- An accepted field is in the presented tree, bound, where its key leads. -/
theorem checkFields_ok {tree : Node} {expected : List (Bytes × Bytes)} (h : checkFields tree true expected = .ok ()) :
    ∀ field ∈ expected, ∃ leaf position, tree.locate field.1 0 = some position ∧
      tree.leafAt position = some leaf ∧ leaf.key = field.1 ∧ leaf.content = field.2 := by
  induction expected with
  | nil => simp
  | cons field expected ih =>
    rw [checkFields] at h
    split at h
    · cases h
    next leaf hleaf =>
      split_ifs at h with hbound hvalue
      obtain ⟨hkey, position, hlocate, hat⟩ := getRecursive_some hleaf
      refine forall_mem_cons.2 ⟨⟨leaf, position, hlocate, hat, hkey, ?_⟩, ih h⟩
      have hempty : leaf.hashTarget = [] := by simpa [LeafNode.valueIsBound] using hbound
      rw [LeafNode.content, if_neg (by rw [hempty]; simp), hvalue]

/-- Vertices with one leaf value have trees that are the same below their roots. -/
theorem sameBelow_of_leafValue (hU : CollisionFree H U) {blob blob' : Bytes} (hblob : BlobCovered H U blob)
    (hblob' : BlobCovered H U blob') {tree tree' : Node} (htree : deserializeGoTree blob = .ok tree)
    (htree' : deserializeGoTree blob' = .ok tree') (hnil : tree ≠ .nil) (hnil' : tree' ≠ .nil) (hne : blob ≠ [])
    (hne' : blob' ≠ []) (h : vertexLeafValue H blob = vertexLeafValue H blob') : tree.SameBelow tree' := by
  have hcommitment : ∀ {b : Bytes} {t : Node}, b ≠ [] → deserializeGoTree b = .ok t → t ≠ .nil →
      vertexCommitment H b = H.sha256 (t.commit H) := by
    intro b t hb ht htnil
    rw [vertexCommitment, if_neg hb, ht]
    cases t with
    | nil => exact absurd rfl htnil
    | leaf => rfl
    | branch => rfl
  obtain ⟨hvalue, -⟩ := List.append_inj h (by rw [length_digest, length_digest])
  have hdigest : H.sha256 (tree.commit H) = H.sha256 (tree'.commit H) := by
    rw [← hcommitment hne htree hnil, ← hcommitment hne' htree' hnil']
    exact Subtype.ext hvalue
  obtain ⟨hcovered, hmem⟩ := hblob tree htree
  obtain ⟨hcovered', hmem'⟩ := hblob' tree' htree'
  exact sameBelow_of_commit hU hcovered hcovered' hnil hnil' (hU.sha256_inj hmem hmem' hdigest)

/-- An accepted proof belongs to a vertex committed at its address in the shard it names, and the expected fields are fields of
    that vertex exactly when, for each of them, the vertex has a field under the key that reads like its own
    leaf at the position the presented string leads the key to. -/
theorem accepted_fields_iff (shards : List (List Bool × Vertices))
    (vertex : VertexMembershipProof jmt.Proof) (h : Assumed H jmt U shards vertex)
    (expected : List (Bytes × Bytes))
    (haccept : verifyVertexMembership H jmt (committedRoot H jmt shards) vertex expected = .ok ()) :
    ∃ shard ∈ shards, shard.1 = vertex.shardPath ∧ ∃ blob,
      shard.2 (shardPathKeyHash (dataAddressOf vertex.vertexAddress)) = some blob ∧
      ((∀ field ∈ expected, HasField blob field.1 field.2) ↔
        ∀ field ∈ expected, ReadsAlike blob vertex.vertexBlob field.1) := by
  obtain ⟨tree', htree', hne', hfields, shard, hshard, hpath, blob, hblob, hvalue⟩ := exists_vertex h haccept
  refine ⟨shard, hshard, hpath, blob, hblob, forall₂_congr fun field hfield => ?_⟩
  obtain ⟨leaf', position, hlocate, hat, hkey, hcontent⟩ := checkFields_ok hfields field hfield
  have hnil' : tree' ≠ .nil := by
    rintro rfl
    cases hlocate
  have hsame : ∀ {tree : Node} {leaf : LeafNode}, deserializeGoTree blob = .ok tree →
      tree.getLeaf field.1 = some leaf → ∃ l, tree.leafAt position = some l ∧
        l.key ++ l.content = field.1 ++ field.2 := by
    intro tree leaf htree hleaf
    have hnil : tree ≠ .nil := by
      rintro rfl
      cases hleaf
    have hne : blob ≠ [] := by
      rintro rfl
      cases htree
    have hbelow := sameBelow_of_leafValue h.collisionFree (h.vertices shard hshard _ blob hblob)
      h.presented htree htree' hnil hnil' hne hne' hvalue
    obtain ⟨l, hl, hbytes⟩ := hbelow.leafAt hat
    exact ⟨l, hl, by rw [hbytes, hkey, hcontent]⟩
  constructor
  · rintro ⟨tree, leaf, htree, hleaf, hval⟩
    obtain ⟨l, hl, hbytes⟩ := hsame htree hleaf
    refine ⟨tree, leaf, tree', position, l, htree, hleaf, htree', hlocate, hl, ?_⟩
    rw [hbytes, (getRecursive_some hleaf).1, hval]
  · rintro ⟨tree, leaf, tree'', position', l, htree, hleaf, htree'', hlocate', hl, hbytes⟩
    obtain rfl := Except.ok.inj (htree'.symm.trans htree'')
    obtain rfl := Option.some.inj (hlocate.symm.trans hlocate')
    obtain ⟨l', hl', hbytes'⟩ := hsame htree hleaf
    obtain rfl := Option.some.inj (hl.symm.trans hl')
    rw [hbytes', (getRecursive_some hleaf).1] at hbytes
    exact ⟨tree, leaf, htree, hleaf, append_cancel_left hbytes⟩

/-! ### A vertex with one field -/

/-- A digest of the length and the first bytes. -/
def sampleDigest (n : ℕ) (x : Bytes) : Digest n :=
  ⟨(UInt8.ofNat (x.length + 1) :: x ++ List.replicate n 0).take n, by simp; omega⟩

def sampleHashing : Hashing := ⟨sampleDigest 32, sampleDigest 64⟩

/-- A leaf as a byte string. -/
def leafBlob (key value : Bytes) : Bytes :=
  1 :: [key, value, [], [], []].flatMap fun field => beBytes 8 field.length ++ field

/-- Where the sample vertex is committed. -/
def samplePlace : Digest 32 := shardPathKeyHash []

def sampleVertices : Vertices := fun key => if key = samplePlace then some (leafBlob [4] [170, 187]) else none

/-- One tree with one node, and its one proof. -/
def sampleJmt : Jmt where
  Proof := Unit
  root _ := sampleDigest 32 [9]
  verifyExistence _ root key value :=
    if root = sampleDigest 32 [9] ∧ (sampleVertices key).map (vertexLeafValue sampleHashing) = some value then
      .ok ()
    else .error "no proof"

def sampleShards : List (List Bool × Vertices) := [([], sampleVertices)]

def samplePresented (blob : Bytes) : VertexMembershipProof sampleJmt.Proof := ⟨[], blob, (), none⟩

/-- The strings that are hashed: the leaf's bytes, their digest, the tree's node. -/
def sampleStrings : List Bytes :=
  [[0, 4, 170, 187], (sampleDigest 64 [0, 4, 170, 187]).1, [9]]

theorem sample_collisionFree : CollisionFree sampleHashing {x | x ∈ sampleStrings} where
  sha256_inj x hx y hy :=
    (by decide +kernel : ∀ x ∈ sampleStrings, ∀ y ∈ sampleStrings,
      sampleHashing.sha256 x = sampleHashing.sha256 y → x = y) x hx y hy
  sha512_inj x hx y hy :=
    (by decide +kernel : ∀ x ∈ sampleStrings, ∀ y ∈ sampleStrings,
      sampleHashing.sha512 x = sampleHashing.sha512 y → x = y) x hx y hy
  sha256_ne_zero x hx :=
    (by decide +kernel : ∀ x ∈ sampleStrings, sampleHashing.sha256 x ≠ zeroDigest 32) x hx
  sha512_ne_zero x hx :=
    (by decide +kernel : ∀ x ∈ sampleStrings, sampleHashing.sha512 x ≠ zeroDigest 64) x hx

theorem deserialize_whole : deserializeGoTree (leafBlob [4] [170, 187]) =
    .ok (.leaf ⟨[4], [170, 187], [], [], 0⟩) := by rfl

theorem deserialize_recut : deserializeGoTree (leafBlob [4, 170] [187]) =
    .ok (.leaf ⟨[4, 170], [187], [], [], 0⟩) := by rfl

theorem blobCovered_sample {blob key value : Bytes}
    (hblob : deserializeGoTree blob = .ok (.leaf ⟨key, value, [], [], 0⟩)) (hbytes : key ++ value = [4, 170, 187]) :
    BlobCovered sampleHashing {x | x ∈ sampleStrings} blob := by
  have hinput : LeafNode.input ⟨key, value, [], [], 0⟩ = [0, 4, 170, 187] := by rw [LeafNode.input, ← hbytes]; rfl
  intro tree htree
  rw [hblob] at htree
  cases htree
  refine ⟨?_, ?_⟩
  · change LeafNode.input _ ∈ sampleStrings
    rw [hinput]
    decide
  change (sampleDigest 64 (LeafNode.input _)).1 ∈ sampleStrings
  rw [hinput]
  decide

theorem sample_assumed {blob : Bytes} (hblob : BlobCovered sampleHashing {x | x ∈ sampleStrings} blob) :
    Assumed sampleHashing sampleJmt {x | x ∈ sampleStrings} sampleShards (samplePresented blob) where
  collisionFree := sample_collisionFree
  sound := by
    rintro shard hshard key value haccept
    rw [mem_singleton.mp hshard]
    change (if _ then _ else _) = _ at haccept
    split_ifs at haccept with h
    exact h.2
  node := by
    intro root key value haccept
    change (if _ then _ else _) = _ at haccept
    split_ifs at haccept with h
    exact ⟨[9], by decide, by decide, h.1⟩
  apart := by
    rintro shard hshard x hx hlength
    rw [mem_singleton.mp hshard]
    exact (by decide +kernel : ∀ x ∈ sampleStrings, x.length = 64 →
      sampleDigest 32 [9] ≠ sampleHashing.sha256 x) x hx hlength
  vertices := by
    rintro shard hshard key blob hat
    rw [mem_singleton.mp hshard] at hat
    change (if _ then _ else _) = _ at hat
    split_ifs at hat
    rw [← Option.some.inj hat]
    exact blobCovered_sample deserialize_whole rfl
  presented := hblob
  fold := trivial
  climb := by rintro a ⟨⟩

/-- The vertex as it was committed is accepted with its field. -/
theorem accepted_fields_whole :
    ∃ shard ∈ sampleShards, shard.1 = [] ∧ ∃ blob, shard.2 (shardPathKeyHash (dataAddressOf [])) = some blob ∧
      ((∀ field ∈ [(([4] : Bytes), ([170, 187] : Bytes))], HasField blob field.1 field.2) ↔
        ∀ field ∈ [(([4] : Bytes), ([170, 187] : Bytes))],
          ReadsAlike blob (leafBlob [4] [170, 187]) field.1) :=
  accepted_fields_iff sampleShards (samplePresented (leafBlob [4] [170, 187]))
    (sample_assumed (blobCovered_sample deserialize_whole rfl)) [([4], [170, 187])] (by decide +kernel)

/-- The boundary between a leaf's key and its value is not hashed: with the first byte of the value moved
    to the key the vertex is accepted, with a field it never had. -/
theorem recut_field_accepted :
    Assumed sampleHashing sampleJmt {x | x ∈ sampleStrings} sampleShards
      (samplePresented (leafBlob [4, 170] [187])) ∧
    verifyVertexMembership sampleHashing sampleJmt (committedRoot sampleHashing sampleJmt sampleShards)
      (samplePresented (leafBlob [4, 170] [187])) [([4, 170], [187])] = .ok () ∧
    ∀ shard ∈ sampleShards, ∀ key blob, shard.2 key = some blob → ¬ HasField blob [4, 170] [187] := by
  refine ⟨sample_assumed (blobCovered_sample deserialize_recut rfl), by decide +kernel, ?_⟩
  rintro shard hshard key blob hat ⟨tree, leaf, htree, hleaf, -⟩
  rw [mem_singleton.mp hshard] at hat
  change (if _ then _ else _) = _ at hat
  split_ifs at hat
  rw [← Option.some.inj hat, deserialize_whole] at htree
  cases htree
  cases hleaf

end Quil.Membership

import Quilibrium.Handoff.Sessions

/-! Mint entitlements (`token_intrinsic/entitlement.rs`): the Merkle tree a token commits to, whose leaves each let
    one key mint one amount. A level with an odd count CARRIES its last node up unchanged, so the tree is unbalanced
    and a proof has a level only where its node had a sibling. The root determines the list, unless two of the strings
    hashed collide. -/

namespace Quil.Entitlements
open Schemes List
open Handoff (ascii)
open ShardFilters (Bytes)

/-- Bytes of one proof level: direction byte, then the sibling. -/
def LEVEL_BYTES : ℕ := 1 + 32
def MAX_DEPTH : ℕ := 32

def invalid (message : String) : QuilError := .invalidArgument s!"mint entitlement: {message}"

structure Entitlement where
  network : Bytes32
  keyType : ℕ
  publicKey : Bytes
  amount : ℕ

/-- The string a leaf hashes. -/
def leafInput (e : Entitlement) : Bytes :=
  ascii "quil/token/mint-entitlement/v1\x00" ++ (bytes32 e.network ++ (toBeBytes 4 e.keyType ++
    (toBeBytes 4 e.publicKey.length ++ (e.publicKey ++ toBeBytes 16 e.amount))))

/-- The string an interior node hashes. -/
def nodeInput (left right : Bytes32) : Bytes :=
  ascii "quil/token/mint-entitlement/node/v1\x00" ++ (bytes32 left ++ bytes32 right)

/-- The string one level of a proof hashes: direction 1 says that the sibling is on the left. -/
def levelInput (current : Bytes32) (level : Bytes) : Except QuilError Bytes :=
  let sibling := array32 (level.drop 1)
  if level.head? = some 0 then .ok (nodeInput current sibling)
  else if level.head? = some 1 then .ok (nodeInput sibling current)
  else .error (invalid "proof direction is not 0 or 1")

section
variable (sha3 : Bytes → Bytes32)

def leaf (e : Entitlement) : Bytes32 := sha3 (leafInput e)

def node (left right : Bytes32) : Bytes32 := sha3 (nodeInput left right)

/-- The levels of a proof walked from a leaf. -/
def walk (leaf : Bytes32) (levels : List Bytes) : Except QuilError Bytes32 :=
  levels.foldlM (fun current level => sha3 <$> levelInput current level) leaf

def verify (leaf : Bytes32) (proof root : Bytes) : Except QuilError Unit :=
  if root.length ≠ 32 then .error (invalid "configured entitlement root is not 32 bytes")
  else if proof.length % LEVEL_BYTES ≠ 0 ∨ MAX_DEPTH < proof.length / LEVEL_BYTES then
    .error (invalid "malformed proof")
  else do
    let current ← walk sha3 leaf (chunksExact LEVEL_BYTES proof)
    if bytes32 current ≠ root then .error (invalid "entitlement is not in the token's entitlement root")
    else .ok ()

/-- The level above, an odd last node carried. -/
def nextLevel : List Bytes32 → List Bytes32
  | a :: b :: rest => node sha3 a b :: nextLevel rest
  | [a] => [a]
  | [] => []

/-- A leaf's position and proof, one level up. -/
def climb (level : List Bytes32) (path : ℕ × Bytes) : ℕ × Bytes :=
  let sibling := path.1 ^^^ 1
  (path.1 / 2,
    match level[sibling]? with
    | some hash => path.2 ++ (if sibling < path.1 then 1 else 0) :: bytes32 hash
    | none => path.2)

/-- The levels above `level`, of which `depth` may still be built. -/
def buildLevels (depth : ℕ) (level : List Bytes32) (paths : List (ℕ × Bytes)) :
    Except QuilError (Bytes32 × List Bytes) :=
  if 1 < level.length then
    match depth with
    | 0 => .error (invalid "too many entitlements")
    | depth + 1 => buildLevels depth (nextLevel sha3 level) (paths.map (climb level))
  else .ok (level.headD 0, paths.map Prod.snd)

def build (leaves : List Bytes32) : Except QuilError (Bytes32 × List Bytes) :=
  if leaves = [] then .error (invalid "no entitlements")
  else buildLevels sha3 MAX_DEPTH leaves ((range leaves.length).map (·, []))

/-! ### The strings hashed -/

def pairInputs : List Bytes32 → List Bytes
  | a :: b :: rest => nodeInput a b :: pairInputs rest
  | _ => []

/-- What `buildLevels` hashes. -/
def treeInputs : ℕ → List Bytes32 → List Bytes
  | 0, _ => []
  | depth + 1, level => pairInputs level ++ treeInputs depth (nextLevel sha3 level)

/-- What `walk` hashes. -/
def walkInputs : Bytes32 → List Bytes → List Bytes
  | _, [] => []
  | current, level :: rest =>
    match levelInput current level with
    | .ok input => input :: walkInputs (sha3 input) rest
    | .error _ => []

/-- Everything hashed for the tree of the entitlements and for the check of a proof of `e`. -/
def hashed (entitlements : List Entitlement) (e : Entitlement) (proof : Bytes) : List Bytes :=
  entitlements.map leafInput ++ treeInputs sha3 MAX_DEPTH (entitlements.map (leaf sha3)) ++
    leafInput e :: walkInputs sha3 (leaf sha3 e) (chunksExact LEVEL_BYTES proof)

end

/-! ### What the strings are -/

theorem leafInput_ne_nodeInput (e : Entitlement) (a b : Bytes32) : leafInput e ≠ nodeInput a b := by
  intro h
  have hbyte := congrArg (·[28]?) h
  simp [leafInput, nodeInput, ascii] at hbyte

theorem nodeInput_inj {a b c d : Bytes32} (h : nodeInput a b = nodeInput c d) : a = c ∧ b = d := by
  obtain ⟨hleft, hright⟩ := append_inj (append_cancel_left h) (by simp)
  rw [← array32_bytes32 a, ← array32_bytes32 b, hleft, hright]
  exact ⟨array32_bytes32 c, array32_bytes32 d⟩

variable {sha3 : Bytes → Bytes32} {level leaves : List Bytes32} {x y root : Bytes32} {depth : ℕ}
  {proof : Bytes} {proofs : List Bytes} {paths : List (ℕ × Bytes)}

theorem nextLevel_ne_nil (h : level ≠ []) : nextLevel sha3 level ≠ [] := by
  rcases level with _ | ⟨a, _ | ⟨b, rest⟩⟩ <;> simp [nextLevel] at h ⊢

/-! ### Proofs built -/

/-- The node above position `i`. -/
theorem getElem?_nextLevel (level : List Bytes32) (i : ℕ) : (nextLevel sha3 level)[i]? =
    level[2 * i]?.map fun a => (level[2 * i + 1]?).elim a (node sha3 a) := by
  fun_induction nextLevel sha3 level generalizing i with
  | case1 a b rest ih =>
    cases i with
    | zero => rfl
    | succ i => simpa [Nat.mul_succ] using ih i
  | case2 => cases i <;> simp [Nat.mul_succ]
  | case3 => simp

/-- At most `depth` whole levels, which lead from `x` to `y`. -/
structure Leads (sha3 : Bytes → Bytes32) (x y : Bytes32) (depth : ℕ) (proof : Bytes) : Prop where
  length : ∃ k ≤ depth, proof.length = k * LEVEL_BYTES
  walk : walk sha3 x (chunksExact LEVEL_BYTES proof) = .ok y

theorem Leads.cons {sibling : Bytes32} (left : Bool)
    (h : Leads sha3 (if left then node sha3 sibling x else node sha3 x sibling) y depth proof) :
    Leads sha3 x y (depth + 1) ((if left then 1 else 0) :: bytes32 sibling ++ proof) := by
  obtain ⟨⟨k, hk, hlength⟩, hwalk⟩ := h
  set first : Bytes := (if left then 1 else 0) :: bytes32 sibling with hfirst
  have hall : (first ++ proof).length = LEVEL_BYTES + proof.length := by simp [hfirst, LEVEL_BYTES]; omega
  have hchunks : chunksExact LEVEL_BYTES (first ++ proof) = first :: chunksExact LEVEL_BYTES proof := by
    rw [chunksExact, hall, Nat.add_div_left _ (by decide), chunks, take_left' (by simp [hfirst, LEVEL_BYTES]),
      drop_left' (by simp [hfirst, LEVEL_BYTES]), chunksExact]
  refine ⟨⟨k + 1, by omega, by rw [hall, hlength, Nat.succ_mul, add_comm]⟩, ?_⟩
  rw [hchunks, ← hwalk]
  cases left <;> simp [Entitlements.walk, hfirst, levelInput, array32_bytes32, node]

theorem verify_of_leads (h : Leads sha3 x root MAX_DEPTH proof) : verify sha3 x proof (bytes32 root) = .ok () := by
  obtain ⟨⟨k, hk, hlength⟩, hwalk⟩ := h
  rw [verify, if_neg (by simp), if_neg, hwalk, ok_bind, if_neg (by simp)]
  rw [hlength, Nat.mul_mod_left, Nat.mul_div_cancel _ (by decide)]
  omega

/-- One level: the node above a position, and what the proof gains on the way to it. -/
theorem climb_spec {path : ℕ × Bytes} (hy : level[path.1]? = some y) :
    ∃ z gained, (nextLevel sha3 level)[(climb level path).1]? = some z ∧ (climb level path).2 = path.2 ++ gained ∧
      ∀ rest, Leads sha3 z root depth rest → Leads sha3 y root (depth + 1) (gained ++ rest) := by
  obtain ⟨i, proof⟩ := path
  rcases Nat.mod_two_eq_zero_or_one i with hi | hi
  · have hsibling : i ^^^ 1 = i + 1 := Nat.xor_one_of_even (Nat.even_iff.2 hi)
    simp only [climb, getElem?_nextLevel, show 2 * (i / 2) = i by omega, hsibling] at hy ⊢
    rw [hy]
    rcases level[i + 1]? with _ | s
    · refine ⟨y, [], rfl, (append_nil _).symm, ?_⟩
      rintro rest ⟨⟨k, hk, hlength⟩, hwalk⟩
      exact ⟨⟨k, by omega, hlength⟩, hwalk⟩
    refine ⟨node sha3 y s, _, rfl, rfl, fun rest h => ?_⟩
    rw [if_neg (by omega)]
    exact Leads.cons false h
  have hsibling : i ^^^ 1 = i - 1 := Nat.xor_one_of_odd (Nat.odd_iff.2 hi)
  have hlt : i < level.length := (List.getElem?_eq_some_iff.1 hy).1
  obtain ⟨s, hs⟩ : ∃ s, level[i - 1]? = some s := ⟨_, getElem?_eq_getElem (by omega)⟩
  simp only [climb, getElem?_nextLevel, show 2 * (i / 2) = i - 1 by omega, hsibling,
    show i - 1 + 1 = i by omega] at hy ⊢
  rw [hs, hy]
  refine ⟨node sha3 s y, _, rfl, rfl, fun rest h => ?_⟩
  rw [if_pos (by omega)]
  exact Leads.cons true h

/-- The run over the levels: what a proof still gains leads from its node to the root. -/
theorem buildLevels_leads (hlevel : level ≠ []) (h : buildLevels sha3 depth level paths = .ok (root, proofs)) :
    Forall₂ (fun path proof => ∀ y, level[path.1]? = some y →
      ∃ rest, proof = path.2 ++ rest ∧ Leads sha3 y root depth rest) paths proofs := by
  fun_induction buildLevels sha3 depth level paths with
  | case1 => cases h
  | case2 level paths hlt depth ih =>
    refine (forall₂_map_left_iff.1 (ih (nextLevel_ne_nil hlevel) h)).imp ?_
    intro path proof ih y hy
    obtain ⟨z, gained, hz, hgained, hleads⟩ := climb_spec hy
    obtain ⟨rest, rfl, hrest⟩ := ih z hz
    exact ⟨gained ++ rest, by rw [hgained, append_assoc], hleads rest hrest⟩
  | case3 depth level paths hlt =>
    obtain ⟨rfl, rfl⟩ := Prod.mk.inj (Except.ok.inj h)
    obtain ⟨a, rfl⟩ : ∃ a, level = [a] := length_eq_one_iff.1 (by have := length_pos_iff.2 hlevel; omega)
    refine forall₂_map_right_iff.2 (forall₂_same.2 fun path _ y hy => ⟨[], (append_nil _).symm, ⟨0, by simp⟩, ?_⟩)
    obtain ⟨-, rfl⟩ : path.1 = 0 ∧ a = y := by simpa [getElem?_singleton] using hy
    rfl

/-! ### Proofs accepted -/

/-- A leaf, or a node over two such whose string is among `inputs`. -/
inductive Built (sha3 : Bytes → Bytes32) (inputs : List Bytes) (leaves : List Bytes32) : Bytes32 → Prop
  | leaf {x : Bytes32} (h : x ∈ leaves) : Built sha3 inputs leaves x
  | node {a b : Bytes32} (ha : Built sha3 inputs leaves a) (hb : Built sha3 inputs leaves b)
      (h : nodeInput a b ∈ inputs) : Built sha3 inputs leaves (node sha3 a b)

variable {inputs : List Bytes}

theorem nextLevel_built (hpairs : pairInputs level ⊆ inputs) (h : ∀ z ∈ level, Built sha3 inputs leaves z) :
    ∀ z ∈ nextLevel sha3 level, Built sha3 inputs leaves z := by
  fun_induction nextLevel sha3 level with
  | case1 a b rest ih =>
    simp only [pairInputs, cons_subset] at hpairs
    simp only [forall_mem_cons] at h ⊢
    exact ⟨.node h.1 h.2.1 hpairs.1, ih hpairs.2 h.2.2⟩
  | case2 => exact h
  | case3 => exact h

theorem root_built (hlevel : level ≠ []) (htree : treeInputs sha3 depth level ⊆ inputs)
    (h : buildLevels sha3 depth level paths = .ok (root, proofs)) (hbuilt : ∀ z ∈ level, Built sha3 inputs leaves z) :
    Built sha3 inputs leaves root := by
  fun_induction buildLevels sha3 depth level paths with
  | case1 => cases h
  | case2 level paths hlt depth ih =>
    rw [treeInputs, append_subset] at htree
    exact ih (nextLevel_ne_nil hlevel) htree.2 h (nextLevel_built htree.1 hbuilt)
  | case3 depth level paths hlt =>
    obtain ⟨rfl, rfl⟩ := Prod.mk.inj (Except.ok.inj h)
    rcases level with _ | ⟨a, rest⟩
    · exact absurd rfl hlevel
    · exact hbuilt a mem_cons_self

section
variable {entitlements : List Entitlement} (hfree : Set.InjOn sha3 {s | s ∈ inputs})
  (hleaves : entitlements.map leafInput ⊆ inputs)
include hfree hleaves

/-- What a level of a proof hashes, when built, is built over what it came from. -/
theorem built_of_levelInput {bytes input : Bytes} (hinput : levelInput x bytes = .ok input) (hmem : input ∈ inputs)
    (h : Built sha3 inputs (entitlements.map (leaf sha3)) (sha3 input)) :
    Built sha3 inputs (entitlements.map (leaf sha3)) x := by
  obtain ⟨a, b, rfl, hside⟩ : ∃ a b, input = nodeInput a b ∧ (x = a ∨ x = b) := by
    simp only [levelInput] at hinput
    split_ifs at hinput <;> cases hinput
    · exact ⟨_, _, rfl, .inl rfl⟩
    · exact ⟨_, _, rfl, .inr rfl⟩
  generalize hz : sha3 (nodeInput a b) = z at h
  cases h with
  | leaf h =>
    obtain ⟨e, he, rfl⟩ := mem_map.1 h
    exact absurd (hfree (hleaves (mem_map_of_mem he)) hmem hz.symm) (leafInput_ne_nodeInput e a b)
  | node ha hb hinput =>
    obtain ⟨rfl, rfl⟩ := nodeInput_inj (hfree hmem hinput hz)
    rcases hside with rfl | rfl
    · exact ha
    · exact hb

/-- The run down a proof, from the root to the leaf. -/
theorem built_of_walk {levels : List Bytes} (hmem : walkInputs sha3 x levels ⊆ inputs)
    (hwalk : walk sha3 x levels = .ok y) (h : Built sha3 inputs (entitlements.map (leaf sha3)) y) :
    Built sha3 inputs (entitlements.map (leaf sha3)) x := by
  induction levels generalizing x with
  | nil => rwa [Except.ok.inj hwalk]
  | cons bytes levels ih =>
    rcases hinput : levelInput x bytes with e | input
    · simp [walk, hinput] at hwalk
    simp only [walkInputs, hinput, cons_subset] at hmem
    have hrest : walk sha3 (sha3 input) levels = .ok y := by simpa [walk, hinput] using hwalk
    exact built_of_levelInput hfree hleaves hinput hmem.1 (ih hmem.2 hrest)

end

theorem walk_of_verify (h : verify sha3 x proof (bytes32 root) = .ok ()) :
    walk sha3 x (chunksExact LEVEL_BYTES proof) = .ok root := by
  rw [verify, if_neg (by simp)] at h
  split_ifs at h
  obtain ⟨current, hwalk, h⟩ := bind_ok h
  split_ifs at h with hroot
  rw [hwalk, ← array32_bytes32 current, not_not.1 hroot, array32_bytes32]

/-! ### Exactly the listed entitlements -/

/-- Every proof a build returns verifies for its leaf, within the depth bound; and whatever bytes a proof is, a leaf
    it takes to the root is a listed one. -/
theorem build_entitles_listed (sha3 : Bytes → Bytes32) (leaves : List Bytes32) (root : Bytes32) (proofs : List Bytes)
    (h : build sha3 leaves = .ok (root, proofs)) :
    Forall₂ (fun x proof => verify sha3 x proof (bytes32 root) = .ok () ∧ proof.length ≤ MAX_DEPTH * LEVEL_BYTES)
      leaves proofs ∧
    ∀ (entitlements : List Entitlement) (e : Entitlement) (proof : Bytes), leaves = entitlements.map (leaf sha3) →
      Set.InjOn sha3 {s | s ∈ hashed sha3 entitlements e proof} →
      verify sha3 (leaf sha3 e) proof (bytes32 root) = .ok () → leaf sha3 e ∈ leaves := by
  rw [build] at h
  split_ifs at h with hnil
  refine ⟨?_, ?_⟩
  · have hpaths := forall₂_map_left_iff.1 (buildLevels_leads hnil h)
    rw [forall₂_iff_get] at hpaths ⊢
    obtain ⟨hlength, hpaths⟩ := hpaths
    refine ⟨by simpa using hlength, fun i hi hi' => ?_⟩
    obtain ⟨rest, hproof, hleads⟩ := hpaths i (by simpa using hi) hi' (leaves.get ⟨i, hi⟩) (by simp)
    obtain ⟨⟨k, hk, hlength⟩, -⟩ := id hleads
    rw [hproof, nil_append]
    exact ⟨verify_of_leads hleads, hlength.trans_le (Nat.mul_le_mul_right _ hk)⟩
  rintro entitlements e proof rfl hfree hverify
  simp only [hashed] at hfree
  set inputs := entitlements.map leafInput ++ treeInputs sha3 MAX_DEPTH (entitlements.map (leaf sha3)) ++
    leafInput e :: walkInputs sha3 (leaf sha3 e) (chunksExact LEVEL_BYTES proof) with hinputs
  have hleaves : entitlements.map leafInput ⊆ inputs := fun s hs => by simp [hinputs, hs]
  have hroot : Built sha3 inputs _ root := root_built hnil (fun s hs => by simp [hinputs, hs]) h fun z hz => .leaf hz
  have hbuilt := built_of_walk hfree hleaves (fun s hs => by simp [hinputs, hs]) (walk_of_verify hverify) hroot
  -- A leaf hash is built only by being listed: a node hashes another string.
  generalize hz : leaf sha3 e = z at hbuilt
  cases hbuilt with
  | leaf h => exact h
  | node _ _ hinput => exact absurd (hfree (by simp [hinputs]) hinput hz) (leafInput_ne_nodeInput e _ _)

/-- A hash that does not collide on the strings of the tree below. -/
def sampleSha3 (bytes : Bytes) : Bytes32 := BitVec.ofNat 256 (ofBeBytes bytes % (2 ^ 255 - 19))

/-- Three entitlements: the third is carried up a level. -/
def sampleEntitlements : List Entitlement := [⟨1, 3, [4], 10⟩, ⟨1, 3, [5], 11⟩, ⟨1, 3, [6], 12⟩]

def sampleBuilt : Bytes32 × List Bytes :=
  (build sampleSha3 (sampleEntitlements.map (leaf sampleSha3))).toOption.getD (0, [])

theorem sample_entitles_listed : leaf sampleSha3 ⟨1, 3, [6], 12⟩ ∈ sampleEntitlements.map (leaf sampleSha3) := by
  have hfree : ∀ s ∈ hashed sampleSha3 sampleEntitlements ⟨1, 3, [6], 12⟩ (sampleBuilt.2.getD 2 []),
      ∀ t ∈ hashed sampleSha3 sampleEntitlements ⟨1, 3, [6], 12⟩ (sampleBuilt.2.getD 2 []),
      sampleSha3 s = sampleSha3 t → s = t := by decide +kernel
  exact (build_entitles_listed sampleSha3 _ sampleBuilt.1 sampleBuilt.2 (by decide +kernel)).2 sampleEntitlements
    ⟨1, 3, [6], 12⟩ (sampleBuilt.2.getD 2 []) rfl (fun s hs t ht => hfree s hs t ht) (by decide +kernel)

end Quil.Entitlements

import Quilibrium.Shards.ShardFilters
import Quilibrium.Types

/-! A vertex's fields and their commitment (`quil-tries`). The fields are leaves of a 64-way tree addressed
    by the six-bit NIBBLES of their keys; the tree travels as a byte string (`go_format.rs`) and is committed
    by hashing: a leaf as `SHA-512(0x00 ‖ key ‖ content)`, a branch as the SHA-256 of its 64 slots, a branch
    in a slot together with its compressed nibbles. Proved here: what the commitment BINDS. Two trees with
    one commitment have the same shape below the root and, leaf by leaf, the same bytes of key and content
    in sequence — not the same cut between them, and nothing of the root's own nibbles. -/

namespace Quil.VertexTrees
open Schemes List
open ShardFilters (Bytes)

/-- A byte string of fixed length. -/
abbrev Digest (n : ℕ) := { b : Bytes // b.length = n }

theorem length_digest {n : ℕ} (d : Digest n) : d.1.length = n := d.2

def zeroDigest (n : ℕ) : Digest n := ⟨List.replicate n 0, List.length_replicate⟩

/-- The hash functions. -/
structure Hashing where
  sha256 : Bytes → Digest 32
  sha512 : Bytes → Digest 64

/-- A number in `width` bytes, big-endian. -/
def beBytes (width n : ℕ) : Bytes := (List.range width).map fun i => UInt8.ofNat (n / 256 ^ (width - 1 - i))

/-! ### Nodes -/

structure LeafNode where
  key : Bytes
  value : Bytes
  hashTarget : Bytes
  commitment : Bytes
  size : ℕ
deriving DecidableEq, Repr

/-- A tree: nothing, a leaf, or a branch with its compressed nibbles and 64 children. -/
inductive Node where
  | nil
  | leaf (leaf : LeafNode)
  | branch (nibbles : List Int32) (children : Fin 64 → Node) (commitment : Bytes) (size leafCount
      longestBranch : ℕ)

/-- What a leaf's commitment is made over: the hash target, when there is one, in the value's place. -/
def LeafNode.content (leaf : LeafNode) : Bytes :=
  if leaf.hashTarget ≠ [] then leaf.hashTarget else leaf.value

def LeafNode.valueIsBound (leaf : LeafNode) : Bool := leaf.hashTarget.isEmpty

/-! ### Lookup -/

def BRANCH_BITS : ℕ := 6

/-- The six bits of a key at a bit position; -1 past its end, zero bits for what is missing of the last. -/
def getNextNibble (key : Bytes) (pos : ℕ) : ℤ :=
  match key[pos / 8]? with
  | none => -1
  | some byte =>
    let bitsFromCurrentByte := 8 - pos % 8
    let result := byte.toNat % 2 ^ bitsFromCurrentByte
    if BRANCH_BITS ≤ bitsFromCurrentByte then
      ((result >>> (bitsFromCurrentByte - BRANCH_BITS)) % 64 : ℕ)
    else
      let remainingBits := BRANCH_BITS - bitsFromCurrentByte
      let next := match key[pos / 8 + 1]? with
        | some next => next.toNat >>> (8 - remainingBits)
        | none => 0
      ((result <<< remainingBits ||| next) % 64 : ℕ)

/-- The bit position after a branch's compressed nibbles, when the key has them. -/
def skipNibbles (key : Bytes) : List Int32 → ℕ → Option ℕ
  | [], depth => some depth
  | p :: nibbles, depth =>
    if getNextNibble key depth ≠ p.toInt then none else skipNibbles key nibbles (depth + BRANCH_BITS)

/-- The child a key goes to at a bit position. -/
def childIndex (key : Bytes) (depth : ℕ) : Option (Fin 64) :=
  if getNextNibble key depth < 0 then none else some (Fin.ofNat 64 (getNextNibble key depth).toNat)

def Node.getRecursive (key : Bytes) : Node → ℕ → Option LeafNode
  | .nil, _ => none
  | .leaf l, _ => if l.key = key then some l else none
  | .branch nibbles children _ _ _ _, depth =>
    match skipNibbles key nibbles depth with
    | none => none
    | some depth =>
      match childIndex key depth with
      | none => none
      | some i => (children i).getRecursive key (depth + BRANCH_BITS)

/-- The leaf stored at a key. -/
def Node.getLeaf (root : Node) (key : Bytes) : Option LeafNode := root.getRecursive key 0

/-! ### The byte format -/

structure GoCursor where
  buf : Bytes
  pos : ℕ

/-- A reader. -/
abbrev Read := StateT GoCursor (Except QuilError)

def takeBytes (n : ℕ) : Read Bytes := fun c =>
  if c.buf.length < c.pos + n then
    .error (.serialization
      s!"go_format: short read at {c.pos} (need {n}, have {c.buf.length - c.pos})")
  else .ok ((c.buf.drop c.pos).take n, { c with pos := c.pos + n })

/-- A big-endian number of so many bytes. -/
def readBe (n : ℕ) : Read ℕ := do
  return (← takeBytes n).foldl (fun acc b => acc * 256 + b.toNat) 0

def readLenPrefixed : Read Bytes := do
  let len ← readBe 8
  if 1024 * 1024 * 1024 < len then
    throw (.serialization s!"go_format: length {len} exceeds 1 GiB cap")
  else takeBytes len

def readBigint : Read ℕ := do
  return (← readLenPrefixed).foldl (fun acc b => acc * 256 + b.toNat) 0

def MAX_GO_PREFIX_LEN : ℕ := 256
def MAX_GO_DEPTH : ℕ := 128

def readIntSlice : Read (List Int32) := do
  let len ← readBe 4
  if MAX_GO_PREFIX_LEN < len then
    throw (.serialization s!"go_format: prefix length {len} exceeds max {MAX_GO_PREFIX_LEN}")
  else (List.range len).mapM fun _ => do return Int32.ofNat (← readBe 4)

def readLeaf : Read LeafNode := do
  let key ← readLenPrefixed
  let value ← readLenPrefixed
  let hashTarget ← readLenPrefixed
  let commitment ← readLenPrefixed
  let size ← readBigint
  return { key, value, hashTarget, commitment, size }

/-- One node with all below it; the number is how many levels may still be nested. -/
def readNode : ℕ → Read Node
  | 0 => throw (.serialization s!"go_format: nesting depth exceeds max {MAX_GO_DEPTH}")
  | levels + 1 => do
    let tag ← readBe 1
    match tag with
    | 0 => return .nil
    | 1 => return .leaf (← readLeaf)
    | 2 =>
      let nibbles ← readIntSlice
      let children ← (List.range 64).mapM fun _ => readNode levels
      let commitment ← readLenPrefixed
      let size ← readBigint
      let leafCount ← readBe 8
      let longestBranch ← readBe 4
      return .branch nibbles (fun i => children.getD i .nil) commitment size leafCount longestBranch
    | other => throw (.serialization s!"go_format: unknown node tag {other}")

/-- The tree of a byte string; trailing bytes are not looked at. -/
def deserializeGoTree (data : Bytes) : Except QuilError Node := do
  let (root, _) ← readNode (MAX_GO_DEPTH + 1) ⟨data, 0⟩
  return root

/-! ### Commitments -/

variable (H : Hashing)

/-- The string a leaf hashes. -/
def LeafNode.input (leaf : LeafNode) : Bytes := 0 :: (leaf.key ++ leaf.content)

/-- The string a branch hashes in its parent's slot. -/
def slotInput (nibbles : List Int32) (commitment : Bytes) : Bytes :=
  1 :: (nibbles.flatMap (fun p => beBytes 4 p.toUInt32.toNat) ++ commitment)

/-- A child's 64 bytes in its parent, from its own commitment. -/
def Node.slot (commitment : Bytes) : Node → Digest 64
  | .nil => zeroDigest 64
  | .leaf l => H.sha512 l.input
  | .branch nibbles _ _ _ _ _ => H.sha512 (slotInput nibbles commitment)

/-- The commitment, recomputed throughout. -/
def Node.commit : Node → Bytes
  | .nil => (zeroDigest 64).1
  | .leaf l => (H.sha512 l.input).1
  | .branch _ children _ _ _ _ =>
    (H.sha256 ((List.finRange 64).flatMap fun i => ((children i).slot H (children i).commit).1)).1

/-- The commitment of a vertex's byte string; one that holds no tree is committed as it is. -/
def vertexCommitment (blob : Bytes) : Digest 32 :=
  if blob = [] then zeroDigest 32
  else
    match deserializeGoTree blob with
    | .ok .nil => H.sha256 blob
    | .ok root => H.sha256 (root.commit H)
    | .error _ => H.sha256 blob

/-- A vertex's leaf in its shard's tree: commitment and size. -/
def vertexLeafValue (blob : Bytes) : Bytes := (vertexCommitment H blob).1 ++ beBytes 8 blob.length

/-! ### Fixed-width encodings -/

@[simp] theorem length_beBytes (width n : ℕ) : (beBytes width n).length = width := by simp [beBytes]

theorem beBytes_succ (width n : ℕ) : beBytes (width + 1) n = beBytes width (n / 256) ++ [.ofNat n] := by
  rw [beBytes, range_succ, map_append, beBytes]
  congr 1
  · refine map_congr_left fun i hi => ?_
    have hi := mem_range.1 hi
    rw [Nat.div_div_eq_div_mul, ← pow_succ', show width + 1 - 1 - i = width - 1 - i + 1 by omega]
  · simp

theorem beBytes_inj {width m n : ℕ} (hm : m < 256 ^ width) (hn : n < 256 ^ width)
    (h : beBytes width m = beBytes width n) : m = n := by
  induction width generalizing m n with
  | zero => omega
  | succ width ih =>
    rw [beBytes_succ, beBytes_succ] at h
    obtain ⟨hhigh, hlow⟩ := append_inj' h rfl
    have hlow : m % 256 = n % 256 := by
      have := congrArg UInt8.toNat (singleton_inj.1 hlow)
      simpa using this
    have hhigh := ih (by rw [pow_succ] at hm; omega) (by rw [pow_succ] at hn; omega) hhigh
    omega

/-- Blocks of one width are told apart in a concatenation. -/
theorem flatMap_inj {ι : Type} {α : Type} {f : ι → List α} {width : ℕ} (hpos : 0 < width)
    (hlen : ∀ a, (f a).length = width) (hinj : Function.Injective f) {l l' : List ι}
    (h : l.flatMap f = l'.flatMap f) : l = l' := by
  induction l generalizing l' with
  | nil =>
    rcases l' with _ | ⟨a, l'⟩
    · rfl
    have := congrArg length h
    simp [hlen] at this
    omega
  | cons a l ih =>
    rcases l' with _ | ⟨b, l'⟩
    · have := congrArg length h
      simp [hlen] at this
      omega
    rw [flatMap_cons, flatMap_cons] at h
    obtain ⟨hhead, htail⟩ := append_inj h (by rw [hlen, hlen])
    rw [hinj hhead, ih htail]

theorem flatMap_eq_iff {ι : Type} {α : Type} {f g : ι → List α} (hlen : ∀ i, (f i).length = (g i).length)
    {l : List ι} (h : l.flatMap f = l.flatMap g) : ∀ i ∈ l, f i = g i := by
  induction l with
  | nil => simp
  | cons a l ih =>
    rw [flatMap_cons, flatMap_cons] at h
    obtain ⟨hhead, htail⟩ := append_inj h (hlen a)
    exact forall_mem_cons.2 ⟨hhead, ih htail⟩

theorem slotInput_inj {nibbles nibbles' : List Int32} {c c' : Bytes} (hc : c.length = c'.length)
    (h : slotInput nibbles c = slotInput nibbles' c') : nibbles = nibbles' ∧ c = c' := by
  have hbytes : (nibbles.flatMap fun p => beBytes 4 p.toUInt32.toNat) ++ c =
      (nibbles'.flatMap fun p => beBytes 4 p.toUInt32.toNat) ++ c' := (cons.inj h).2
  obtain ⟨hnibbles, hcommit⟩ := append_inj' hbytes hc
  refine ⟨flatMap_inj (by norm_num) (fun _ => length_beBytes 4 _) (fun p q hpq => ?_) hnibbles, hcommit⟩
  have hnat := beBytes_inj (by simpa using p.toUInt32.toNat_lt) (by simpa using q.toUInt32.toNat_lt) hpq
  exact congrArg Int32.ofUInt32 (UInt32.toNat_inj.1 hnat)

/-! ### What a commitment binds -/

/-- No two of the strings have one digest, and none has the all-zero one. -/
structure CollisionFree (U : Set Bytes) : Prop where
  sha256_inj : Set.InjOn H.sha256 U
  sha512_inj : Set.InjOn H.sha512 U
  sha256_ne_zero : ∀ x ∈ U, H.sha256 x ≠ zeroDigest 32
  sha512_ne_zero : ∀ x ∈ U, H.sha512 x ≠ zeroDigest 64

/-- The string a branch hashes. -/
def branchInput (children : Fin 64 → Node) : Bytes :=
  (List.finRange 64).flatMap fun i => ((children i).slot H ((children i).commit H)).1

/-- The strings a node's own slot hashes are among `U`. -/
def Node.SlotCovered (U : Set Bytes) : Node → Prop
  | .branch nibbles children _ _ _ _ => slotInput nibbles (H.sha256 (branchInput H children)).1 ∈ U
  | _ => True

/-- All strings hashed for a node's commitment are among `U`. -/
def Node.Covered (U : Set Bytes) : Node → Prop
  | .nil => True
  | .leaf l => l.input ∈ U
  | .branch _ children _ _ _ _ => branchInput H children ∈ U ∧
      ∀ i, (children i).SlotCovered H U ∧ (children i).Covered U

/-- Trees of one shape whose leaves hold, each, the same bytes of key and content. -/
def Node.Same : Node → Node → Prop
  | .nil, .nil => True
  | .leaf l, .leaf l' => l.key ++ l.content = l'.key ++ l'.content
  | .branch nibbles children _ _ _ _, .branch nibbles' children' _ _ _ _ =>
    nibbles = nibbles' ∧ ∀ i, (children i).Same (children' i)
  | _, _ => False

/-- The same, whatever the nibbles of the two roots. -/
def Node.SameBelow : Node → Node → Prop
  | .branch _ children _ _ _ _, .branch _ children' _ _ _ _ => ∀ i, (children i).Same (children' i)
  | n, n' => n.Same n'

variable {H} {U : Set Bytes}

theorem branchInput_inj {children children' : Fin 64 → Node} (h : branchInput H children = branchInput H children')
    (i : Fin 64) : (children i).slot H ((children i).commit H) = (children' i).slot H ((children' i).commit H) := by
  refine Subtype.ext (flatMap_eq_iff (fun i => ?_) h i (mem_finRange i))
  rw [length_digest, length_digest]

variable {l' : LeafNode}

theorem input_inj {l : LeafNode} (h : l.input = l'.input) :
    l.key ++ l.content = l'.key ++ l'.content := (cons.inj h).2

variable {n n' : Node}

/-- Nodes with one slot are the same. -/
theorem same_of_slot (hU : CollisionFree H U) (hslot : n.SlotCovered H U)
    (hslot' : n'.SlotCovered H U) (hn : n.Covered H U) (hn' : n'.Covered H U)
    (h : n.slot H (n.commit H) = n'.slot H (n'.commit H)) : n.Same n' := by
  induction n generalizing n' with
  | nil =>
    cases n' with
    | nil => trivial
    | leaf l' => exact absurd h.symm (hU.sha512_ne_zero _ hn')
    | branch => exact absurd h.symm (hU.sha512_ne_zero _ hslot')
  | leaf l =>
    cases n' with
    | nil => exact absurd h (hU.sha512_ne_zero _ hn)
    | leaf l' => exact input_inj (hU.sha512_inj hn hn' h)
    | branch => cases hU.sha512_inj hn hslot' h
  | branch nibbles children _ _ _ _ ih =>
    cases n' with
    | nil => exact absurd h (hU.sha512_ne_zero _ hslot)
    | leaf l' => cases hU.sha512_inj hslot hn' h
    | branch nibbles' children' _ _ _ _ =>
      have hinput := hU.sha512_inj hslot hslot' h
      obtain ⟨hnibbles, hcommit⟩ := slotInput_inj (by rw [length_digest, length_digest]) hinput
      have hvector := hU.sha256_inj hn.1 hn'.1 (Subtype.ext hcommit)
      refine ⟨hnibbles, fun i => ?_⟩
      exact ih i (hn.2 i).1 (hn'.2 i).1 (hn.2 i).2 (hn'.2 i).2 (branchInput_inj hvector i)

/-- Trees with one commitment are the same below their roots. -/
theorem sameBelow_of_commit (hU : CollisionFree H U) (hn : n.Covered H U) (hn' : n'.Covered H U) (hnil : n ≠ .nil)
    (hnil' : n' ≠ .nil) (h : n.commit H = n'.commit H) : n.SameBelow n' := by
  have hlen : ∀ (x : Bytes) (y : Bytes), (H.sha512 x).1 ≠ (H.sha256 y).1 := by
    intro x y he
    have := congrArg length he
    rw [length_digest, length_digest] at this
    omega
  cases n with
  | nil => exact absurd rfl hnil
  | leaf l =>
    cases n' with
    | nil => exact absurd rfl hnil'
    | leaf l' => exact input_inj (hU.sha512_inj hn hn' (Subtype.ext h))
    | branch => exact absurd h (hlen _ _)
  | branch nibbles children _ _ _ _ =>
    cases n' with
    | nil => exact absurd rfl hnil'
    | leaf l' => exact absurd h.symm (hlen _ _)
    | branch nibbles' children' _ _ _ _ =>
      have hvector := hU.sha256_inj hn.1 hn'.1 (Subtype.ext h)
      intro i
      exact same_of_slot hU (hn.2 i).1 (hn'.2 i).1 (hn.2 i).2 (hn'.2 i).2 (branchInput_inj hvector i)

/-! ### Positions -/

/-- Where a key leads: the children taken from the root. -/
def Node.locate (key : Bytes) : Node → ℕ → Option (List (Fin 64))
  | .nil, _ => none
  | .leaf _, _ => some []
  | .branch nibbles children _ _ _ _, depth =>
    match skipNibbles key nibbles depth with
    | none => none
    | some depth =>
      match childIndex key depth with
      | none => none
      | some i => ((children i).locate key (depth + BRANCH_BITS)).map (i :: ·)

/-- The leaf at a position. -/
def Node.leafAt : Node → List (Fin 64) → Option LeafNode
  | .leaf l, [] => some l
  | .branch _ children _ _ _ _, i :: position => (children i).leafAt position
  | _, _ => none

/-- A key's leaf stands where the key leads, and has that key. -/
theorem getRecursive_some {key : Bytes} {depth : ℕ} {l : LeafNode} (h : n.getRecursive key depth = some l) :
    l.key = key ∧ ∃ position, n.locate key depth = some position ∧ n.leafAt position = some l := by
  induction n generalizing depth with
  | nil => cases h
  | leaf l' =>
    rw [Node.getRecursive] at h
    split_ifs at h with hkey
    cases h
    exact ⟨hkey, [], rfl, rfl⟩
  | branch nibbles children _ _ _ _ ih =>
    rw [Node.getRecursive] at h
    split at h
    · cases h
    next depth' hskip =>
      split at h
      · cases h
      next i hindex =>
        obtain ⟨hkey, position, hlocate, hleaf⟩ := ih i h
        refine ⟨hkey, i :: position, ?_, hleaf⟩
        simp only [Node.locate, hskip, hindex, hlocate, Option.map_some]

/-- Same trees hold the same bytes at every position. -/
theorem Node.Same.leafAt (h : n.Same n') {position : List (Fin 64)} (hl : n'.leafAt position = some l') :
    ∃ l, n.leafAt position = some l ∧ l.key ++ l.content = l'.key ++ l'.content := by
  induction n generalizing n' position with
  | nil =>
    cases n' with
    | nil => cases position <;> cases hl
    | leaf => cases h
    | branch => cases h
  | leaf l =>
    cases n' with
    | nil => cases h
    | leaf =>
      cases position with
      | nil =>
        cases hl
        exact ⟨l, rfl, h⟩
      | cons => cases hl
    | branch => cases h
  | branch nibbles children _ _ _ _ ih =>
    cases n' with
    | nil => cases h
    | leaf => cases h
    | branch nibbles' children' _ _ _ _ =>
      rcases position with _ | ⟨i, position⟩
      · cases hl
      exact ih i (h.2 i) hl

theorem Node.SameBelow.leafAt (h : n.SameBelow n') {position : List (Fin 64)} (hl : n'.leafAt position = some l') :
    ∃ l, n.leafAt position = some l ∧ l.key ++ l.content = l'.key ++ l'.content := by
  cases n with
  | nil | leaf l => exact Node.Same.leafAt h hl
  | branch nibbles children _ _ _ _ =>
    cases n' with
    | nil | leaf l => exact Node.Same.leafAt h hl
    | branch nibbles' children' _ _ _ _ =>
      rcases position with _ | ⟨i, position⟩
      · cases hl
      exact Node.Same.leafAt (h i) hl

end Quil.VertexTrees

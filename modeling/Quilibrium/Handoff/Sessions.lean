import Quilibrium.Forest.VertexTrees

/-! What a committee handoff is made of (`quil-cw-consensus/src/handoff.rs`,
    `global_intrinsic/handoff.rs`): a SESSION is one committee on one shard filter from a base frame on, and a
    REQUEST a set of sessions that close together with the committees that follow. A request is valid only when the
    filters it closes and the filters it opens cover the same addresses; that is decided by merging siblings until
    none are left. -/

namespace Quil.Handoff
open Schemes ShardFilters VertexTrees List

def MAX_MEMBERS : ℕ := 4096
def MAX_FILTER_BYTES : ℕ := 66
def MAX_TRANSITION_SHARDS : ℕ := 512

/-- The decoding of public keys. -/
structure Crypto where
  isFalconKey : Bytes → Bool

variable (c : Crypto)

def invalidHandoff (message : String) : QuilError := .invalidArgument s!"committee handoff: {message}"

def ascii (text : String) : Bytes := text.toList.map fun char => UInt8.ofNat char.toNat

/-- Each entry is below the next. -/
def strictlyAscending : List Bytes → Bool
  | a :: b :: rest => decide (a < b) && strictlyAscending (b :: rest)
  | _ => true

/-! ### Sessions -/

structure Session where
  chainId : Digest 32
  filter : Bytes
  generation : ℕ
  genesis : Digest 32
  baseFrame : ℕ
  authorization : Digest 32
  /-- Falcon public keys, ascending. -/
  members : List Bytes
deriving DecidableEq, Repr

def Session.validate (session : Session) : Except QuilError Unit :=
  if session.filter.length < 32 ∨ MAX_FILTER_BYTES < session.filter.length then
    .error (invalidHandoff "invalid full shard filter length")
  else if session.members = [] ∨ MAX_MEMBERS < session.members.length ∨
      strictlyAscending session.members = false ∨ session.members.any (fun key => !c.isFalconKey key) then
    .error (invalidHandoff "members must be bounded, unique, sorted Falcon keys")
  else .ok ()

def invalidGlobal (message : String) : QuilError :=
  .invalidArgument s!"global committee handoff: {message}"

/-! ### Ranges -/

/-- Paths are kept in lexicographic order, without duplicates. -/
def insertPath (path : List Bool) (paths : List (List Bool)) : List (List Bool) :=
  if path ∈ paths then paths else paths.orderedInsert (· ≤ ·) path

/-- Add a filter's path to those of its application. -/
def addFilter (app : Bytes) (paths : List (List Bool)) (filter : Bytes) :
    Except QuilError (List (List Bool)) :=
  if filter.length < 32 ∨ filter.take 32 ≠ app then .error (invalidGlobal "transition spans applications")
  else if filter.length = 33 ∧ 64 ≤ (filter.getD 32 0).toNat then
    .error (invalidGlobal "legacy shard index exceeds the 64-way grid")
  else
    match decodeShardFilterOrRoot filter 32 with
    | none => .error (invalidGlobal "invalid shard filter")
    | some (_, path) =>
      if 256 < path.length ∨ path ∈ paths then .error (invalidGlobal "duplicate shard range")
      else .ok (insertPath path paths)

/-- A path of the list is a prefix of the next. -/
def hasNested : List (List Bool) → Bool
  | p :: q :: rest => p.isPrefixOf q || hasNested (q :: rest)
  | _ => false

/-- The parent of the first two siblings. -/
def siblingParent (paths : List (List Bool)) : Option (List Bool) :=
  paths.findSome? fun path =>
    if path.getLast? = some false ∧ path.dropLast ++ [true] ∈ paths then some path.dropLast else none

/-- Merge siblings while there are any; each merge takes one path away. -/
def mergeSiblings : ℕ → List (List Bool) → List (List Bool)
  | 0, paths => paths
  | fuel + 1, paths =>
    match siblingParent paths with
    | none => paths
    | some parent =>
      mergeSiblings fuel
        (insertPath parent ((paths.erase (parent ++ [false])).erase (parent ++ [true])))

/-- The application and the range that filters cover. -/
def partition (filters : List Bytes) : Except QuilError (Bytes × List (List Bool)) :=
  match filters with
  | [] => .error (invalidGlobal "empty partition")
  | first :: _ =>
    if first.length < 32 then .error (invalidGlobal "empty partition")
    else do
      let paths ← filters.foldlM (addFilter (first.take 32)) []
      if hasNested paths then .error (invalidGlobal "overlapping shard ranges")
      else .ok (first.take 32, mergeSiblings paths.length paths)

/-! ### Requests -/

structure DesiredCommittee where
  filter : Bytes
  members : List Bytes
deriving DecidableEq, Repr

structure Target where
  committee : DesiredCommittee
  generation : ℕ
  /-- The last session of this filter. -/
  previous : Option (Digest 32)
deriving DecidableEq, Repr

structure Request where
  frame : ℕ
  sources : List Session
  /-- Closing ranges on which no committee ever formed. -/
  vacant : List Bytes
  /-- A target without members is a range only. -/
  targets : List Target
deriving DecidableEq, Repr

/-- A session as a target's committee would form it, for the checks of its form. -/
def Target.form (target : Target) (chain : Digest 32) (members : List Bytes) : Session where
  chainId := chain
  filter := target.committee.filter
  generation := target.generation
  genesis := zeroDigest 32
  baseFrame := 0
  authorization := zeroDigest 32
  members := members

def Target.validate (chain : Digest 32) (target : Target) : Except QuilError Unit :=
  if target.generation = 0 then .error (invalidGlobal "successor generation cannot be zero")
  else if target.committee.members = [] then
    if target.committee.filter.length < 32 ∨ MAX_FILTER_BYTES < target.committee.filter.length then
      .error (invalidGlobal "invalid vacant target filter")
    else .ok ()
  else (target.form chain target.committee.members).validate c

def Request.validateSource (chain : Digest 32) (source : Session) : Except QuilError Unit := do
  source.validate c
  if source.chainId ≠ chain then .error (invalidGlobal "sources belong to different chains") else .ok ()

/-- The filters a request closes. -/
def Request.old (request : Request) : List Bytes := request.sources.map (·.filter) ++ request.vacant

/-- The filters a request opens. -/
def Request.new (request : Request) : List Bytes := request.targets.map (·.committee.filter)

def Request.validate (request : Request) : Except QuilError Unit :=
  if request.frame = 0 ∨ request.targets = [] ∨ MAX_TRANSITION_SHARDS < request.sources.length ∨
      MAX_TRANSITION_SHARDS < request.targets.length ∨ MAX_TRANSITION_SHARDS < request.vacant.length ∨
      strictlyAscending request.vacant = false ∨
      request.targets.all (fun target => target.committee.members.isEmpty) ∨
      strictlyAscending (request.sources.map (·.filter)) = false ∨
      strictlyAscending request.new = false then
    .error (invalidGlobal "noncanonical transition")
  else
    match request.sources with
    | [] => .error (invalidGlobal "noncanonical transition")
    | first :: _ => do
      request.sources.forM (Request.validateSource c first.chainId)
      request.targets.forM (Target.validate c first.chainId)
      let old ← partition request.old
      let new ← partition request.new
      if old ≠ new then .error (invalidGlobal "transition changes its covered address range") else .ok ()

/-! ### What a valid request is -/

theorem pairwise_of_strictlyAscending {l : List Bytes} (h : strictlyAscending l = true) : l.Pairwise (· < ·) := by
  induction l with
  | nil => exact .nil
  | cons a l ih =>
    rcases l with _ | ⟨b, l⟩
    · exact pairwise_singleton _ a
    rw [strictlyAscending, Bool.and_eq_true, decide_eq_true_eq] at h
    have hrest := ih h.2
    refine pairwise_cons.2 ⟨?_, hrest⟩
    intro x hx
    rcases mem_cons.1 hx with rfl | hx
    · exact h.1
    · exact List.lt_trans h.1 (List.rel_of_pairwise_cons hrest hx)

theorem nodup_of_strictlyAscending {l : List Bytes} (h : strictlyAscending l = true) : l.Nodup := by
  refine (pairwise_of_strictlyAscending h).imp ?_
  rintro a _ hlt rfl
  exact List.lt_irrefl a hlt

/-- A valid request: distinct filters on each side, and the same range on both. -/
structure Request.Valid (request : Request) : Prop where
  sources_nodup : (request.sources.map (·.filter)).Nodup
  targets_nodup : request.new.Nodup
  same_range : ∃ range, partition request.old = .ok range ∧ partition request.new = .ok range

theorem Request.valid_of_validate {request : Request} (h : request.validate c = .ok ()) : request.Valid := by
  rw [Request.validate] at h
  split_ifs at h with hform
  push Not at hform
  split at h
  · cases h
  obtain ⟨⟨⟩, -, h⟩ := bind_ok h
  obtain ⟨⟨⟩, -, h⟩ := bind_ok h
  obtain ⟨old, hold, h⟩ := bind_ok h
  obtain ⟨new, hnew, h⟩ := bind_ok h
  split_ifs at h with hne
  obtain ⟨-, -, -, -, -, -, -, hsources, htargets⟩ := hform
  exact ⟨nodup_of_strictlyAscending (by simpa using hsources),
    nodup_of_strictlyAscending (by simpa using htargets), new, (not_not.1 hne) ▸ hold, hnew⟩

end Quil.Handoff

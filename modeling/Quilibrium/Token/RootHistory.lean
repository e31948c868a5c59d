import Quilibrium.Schemes.Recency
import Quilibrium.Token.FrontierEncoding
import Quilibrium.Token.GlobalAccumulator

/-! The stored root history (`token_intrinsic/roots.rs`, `History`, with the root record of `coin_tree.rs`). A history
    is decoded, published into and encoded again at every publication, and encoding decodes what it is about to store;
    the earlier encoding, which held whole ids, is still read. -/

namespace Quil.RootHistory
open Schemes GlobalRecords GlobalCommit GlobalAccumulator List
open ShardedTree (NodeCodec TreeError byteCodec)

def ROOT_VERSION : List UInt8 := [0x51, 0x43, 0x54, 0x33, 0x52, 0x54, 0x00, 0x02]
def VERSION : List UInt8 := [0x51, 0x43, 0x54, 0x33, 0x52, 0x48, 0x00, 0x03]
/-- The earlier encoding, holding the ids: read, never written. -/
def VERSION_IDS : List UInt8 := [0x51, 0x43, 0x54, 0x33, 0x52, 0x48, 0x00, 0x02]
def ID_BYTES : ℕ := 3648

section
variable {Node : Type} (codec : NodeCodec Node)

/-! ### Root records -/

def ROOT_RECORD_BYTES : ℕ := 8 + 32 + 1 + 8 + codec.nodeBytes

def recordBytes (record : RootRecord Node) : List UInt8 :=
  ROOT_VERSION ++ (bytes32 record.context ++ (toBeBytes 1 record.depth ++ (leBytes 8 record.coins ++
    codec.toBytes record.root)))

def encodeRecord (record : RootRecord Node) : Except TreeError (List UInt8) :=
  if ¬ validRootRecord record then .error .depth else .ok (recordBytes codec record)

def decodeRecord (bytes : List UInt8) (context : Bytes32) : Except TreeError (RootRecord Node) :=
  if bytes.length ≠ ROOT_RECORD_BYTES codec ∨ bytes.extract 0 8 ≠ ROOT_VERSION then .error .encoding
  else if bytes.extract 8 40 ≠ bytes32 context then .error .context
  else
    match codec.fromBytes (bytes.drop 49) with
    | none => .error .encoding
    | some root =>
      let record : RootRecord Node :=
        ⟨context, ofBeBytes (bytes.extract 40 41), ofLeBytes (bytes.extract 41 49), root⟩
      if ¬ validRootRecord record then .error .depth else .ok record

/-! ### Histories -/

variable (env : Env Node) (idDigest : List UInt8 → Bytes32)

/-- Bytes of one retained root, by the version of a history. -/
def entrySize (bytes : List UInt8) : Option ℕ :=
  if bytes.extract 0 8 = VERSION then some 32
  else if bytes.extract 0 8 = VERSION_IDS then some ID_BYTES
  else none

/-- The digest of one retained root, of the size it is stored with. -/
def entryDigest (entry : ℕ) (chunk : List UInt8) : Bytes32 := if entry = 32 then array32 chunk else idDigest chunk

/-- A computation of the tree's whose errors are all the history's. -/
def orInvalid {α : Type} : Except TreeError α → Except QuilError α
  | .ok a => .ok a
  | .error _ => .error invalidHistory

def decode (bytes : List UInt8) (context : Bytes32) : Except QuilError (History Node) :=
  let last := 8 + ROOT_RECORD_BYTES codec
  match entrySize bytes with
  | none => .error invalidHistory
  | some entry =>
    if bytes.length < last + 2 then .error invalidHistory
    else
      let count := ofLeBytes (bytes.extract last (last + 2))
      if count = 0 ∨ count > HISTORY_LIMIT ∨ bytes.length ≠ last + 2 + count * entry then .error invalidHistory
      else do
        let current ← orInvalid (decodeRecord codec (bytes.extract 8 last) context)
        let digests := (chunksExact entry (bytes.drop (last + 2))).map (entryDigest idDigest entry)
        if ¬ digests.Nodup ∨ digests.getLast? ≠ some (env.rootDigest context current.depth current.root) then
          .error invalidHistory
        else return ⟨current, digests⟩

/-- The bytes of a history. -/
def historyBytes (history : History Node) : List UInt8 :=
  VERSION ++ (recordBytes codec history.current ++ (leBytes 2 history.digests.length ++
    history.digests.flatMap bytes32))

def encode (history : History Node) : Except QuilError (List UInt8) := do
  let record ← orInvalid (encodeRecord codec history.current)
  let bytes := VERSION ++ (record ++ (leBytes 2 history.digests.length ++ history.digests.flatMap bytes32))
  let _ ← decode codec env idDigest bytes history.current.context
  return bytes

/-- Publish `current` into a stored history, creating it when there is none. -/
def publishStored (existing : Option (List UInt8)) (current : RootRecord Node) : Except QuilError (List UInt8) := do
  let history ← match existing with
    | some bytes => decode codec env idDigest bytes current.context
    | none => .ok ⟨current, []⟩
  encode codec env idDigest (← publish env history current)

/-- Publish one root after another, from an empty history. -/
def publishAll (roots : List (RootRecord Node)) : Except QuilError (Option (List UInt8)) :=
  roots.foldlM (fun existing root => some <$> publishStored codec env idDigest existing root) none

/-! ### What is stored and what is read -/

theorem length_recordBytes (record : RootRecord Node) : (recordBytes codec record).length = ROOT_RECORD_BYTES codec := by
  simp [recordBytes, ROOT_VERSION, ROOT_RECORD_BYTES, codec.length_toBytes]
  omega

theorem validRootRecord_iff {record : RootRecord Node} : validRootRecord record = true ↔
    record.depth ≠ 0 ∧ record.depth ≤ MAX_DEPTH ∧ record.coins ≤ 2 ^ record.depth := by
  simp only [validRootRecord, Bool.and_eq_true, decide_eq_true_eq, and_assoc]

theorem bytes32_injective : Function.Injective bytes32 := fun a b h => by
  rw [← array32_bytes32 a, h, array32_bytes32]

variable {context : Bytes32}

/-- A valid record is read back for its own context and for no other. -/
theorem decodeRecord_recordBytes {record record' : RootRecord Node}
    (hvalid : validRootRecord record = true) : decodeRecord codec (recordBytes codec record) context = .ok record' ↔
      record.context = context ∧ record' = record := by
  obtain ⟨-, hdepth, hcoins⟩ := validRootRecord_iff.1 hvalid
  have hlength := length_recordBytes codec record
  generalize hbytes : recordBytes codec record = bytes at hlength ⊢
  obtain ⟨hversion, hafter⟩ := extract_of_drop (i := 0) hbytes.symm
  obtain ⟨hcontext, hafter⟩ := extract_of_drop hafter
  obtain ⟨hdepthAt, hafter⟩ := extract_of_drop hafter
  obtain ⟨hcoinsAt, hroot⟩ := extract_of_drop hafter
  simp only [ROOT_VERSION, length_cons, length_nil, length_bytes32, length_toBeBytes, length_leBytes,
    Nat.reduceAdd] at hversion hcontext hdepthAt hcoinsAt hroot
  have hdepthLt : record.depth < 256 ^ 1 := hdepth.trans_lt (by decide)
  have hcoinsLt : record.coins < 256 ^ 8 :=
    hcoins.trans_lt ((Nat.pow_le_pow_right (by decide) hdepth).trans_lt (by decide))
  rw [decodeRecord, if_neg (by rw [not_or, not_not, not_not]; exact ⟨hlength, hversion⟩), hcontext, hroot,
    codec.fromBytes_toBytes, hdepthAt, ofBeBytes_toBeBytes hdepthLt, hcoinsAt, ofLeBytes_leBytes hcoinsLt]
  rw [guard_eq_ok, not_not, bytes32_injective.eq_iff]
  refine and_congr_right ?_
  rintro rfl
  dsimp only
  rw [if_neg (not_not.2 hvalid), Except.ok.injEq, eq_comm]

theorem orInvalid_eq_ok {α : Type} {x : Except TreeError α} {a : α} : orInvalid x = .ok a ↔ x = .ok a := by
  cases x <;> simp [orInvalid]

theorem map_entryDigest (digests : List Bytes32) :
    (chunksExact 32 (digests.flatMap bytes32)).map (entryDigest idDigest 32) = digests := by
  have hread : ∀ c rest : List UInt8, c.length = 32 →
      readArray32 () (c ++ rest) = .ok (entryDigest idDigest 32 c, rest) := by
    intro c rest hc
    have hread := array32_drop_append () (l := c) (m := rest) (i := 0) hc.ge
    have hall : c.extract 0 (0 + 32) = c := by rw [extract_eq_take_drop, drop_zero, take_of_length_le (by omega)]
    rwa [drop_zero, hall, drop_eq_nil_of_le (by omega), nil_append] at hread
  exact ((reads_array32 ()).chunksExact_iff (by decide) (fun a _ => length_bytes32 a) hread _ _).2
    ⟨fun _ _ => trivial, rfl⟩ |>.2

/-- What the checks of a history ask. -/
theorem decodeHistory_eq_ok {history history' : History Node} :
    decodeHistory env history context = .ok history' ↔ history' = history ∧ history.digests.length ≠ 0 ∧
      history.digests.length ≤ HISTORY_LIMIT ∧ history.current.context = context ∧
      validRootRecord history.current = true ∧ history.digests.Nodup ∧
      history.digests.getLast? = some (env.rootDigest context history.current.depth history.current.root) := by
  rw [decodeHistory, guard_eq_ok, Except.ok.injEq]
  simp only [not_or, not_not, not_lt]
  exact ⟨fun h => ⟨h.2.symm, h.1⟩, fun h => ⟨h.2, h.1.symm⟩⟩

/-- A history with a valid record is read back exactly when it passes the checks. -/
theorem decode_historyBytes (history : History Node) {history' : History Node}
    (hvalid : validRootRecord history.current = true) (hcount : history.digests.length ≤ HISTORY_LIMIT) :
    decode codec env idDigest (historyBytes codec history) context = .ok history' ↔
      history' = history ∧ decodeHistory env history context = .ok history := by
  have hlength : (historyBytes codec history).length =
      8 + ROOT_RECORD_BYTES codec + 2 + history.digests.length * 32 := by
    simp [historyBytes, VERSION, length_recordBytes]
    omega
  generalize hbytes : historyBytes codec history = bytes at hlength ⊢
  obtain ⟨hversion, hafter⟩ := extract_of_drop (i := 0) hbytes.symm
  obtain ⟨hrecord, hafter⟩ := extract_of_drop hafter
  obtain ⟨hcountAt, hdigests⟩ := extract_of_drop hafter
  simp only [length_recordBytes, length_leBytes, zero_add] at hversion hrecord hcountAt hdigests
  have hsize : entrySize bytes = some 32 := if_pos hversion
  rw [decode, hsize]
  dsimp only
  rw [show VERSION.length = 8 from rfl] at hrecord hcountAt hdigests
  rw [if_neg (by omega), hcountAt, ofLeBytes_leBytes (hcount.trans_lt (by decide)), hrecord, hdigests,
    map_entryDigest, decodeHistory_eq_ok]
  split
  · next h =>
    refine iff_of_false (by simp) ?_
    rintro ⟨-, -, hnonzero, -⟩
    omega
  next hcounts =>
  rw [bind_eq_ok]
  simp only [orInvalid_eq_ok, decodeRecord_recordBytes codec hvalid]
  constructor
  · rintro ⟨current, ⟨hcontext, rfl⟩, h⟩
    split at h
    · cases h
    next hchecks =>
    simp only [not_or, not_not] at hchecks
    cases h
    exact ⟨rfl, trivial, by omega, hcount, hcontext, hvalid, hchecks⟩
  · rintro ⟨rfl, -, -, -, hcontext, -, hchecks⟩
    refine ⟨_, ⟨hcontext, rfl⟩, if_neg ?_⟩
    simp only [not_or, not_not]
    exact hchecks

variable {bytes : List UInt8}

/-- A history is stored exactly when it passes the checks. -/
theorem encode_eq_ok {history : History Node} (hcount : history.digests.length ≤ HISTORY_LIMIT) :
    encode codec env idDigest history = .ok bytes ↔
      decodeHistory env history history.current.context = .ok history ∧ bytes = historyBytes codec history := by
  rw [encode, bind_eq_ok]
  simp only [orInvalid_eq_ok, encodeRecord]
  constructor
  · rintro ⟨record, hrecord, h⟩
    split at hrecord
    · cases hrecord
    next hvalid =>
    cases hrecord
    obtain ⟨read, hread, h⟩ := bind_ok h
    cases h
    exact ⟨((decode_historyBytes codec env idDigest _ (not_not.1 hvalid) hcount).1 hread).2, rfl⟩
  · rintro ⟨hdecode, rfl⟩
    have hvalid := (decodeHistory_eq_ok env).1 hdecode |>.2.2.2.2.1
    refine ⟨_, if_neg (not_not.2 hvalid), bind_eq_ok.2 ⟨history, ?_, rfl⟩⟩
    exact (decode_historyBytes codec env idDigest _ hvalid hcount).2 ⟨rfl, hdecode⟩

/-! ### Publication -/

/-- The digest a root is retained by. -/
def digestOf (root : RootRecord Node) : Bytes32 := env.rootDigest root.context root.depth root.root

/-- Retaining a digest moves it to the end of a bounded list. -/
theorem retain_eq_moveToEnd {digests : List Bytes32} (hnodup : digests.Nodup)
    (hlength : digests.length ≤ HISTORY_LIMIT) (digest : Bytes32) :
    retain digests digest = moveToEnd HISTORY_LIMIT digests digest := by
  rw [retain, moveToEnd]
  split
  · next hlast =>
    obtain ⟨init, rfl⟩ := getLast?_eq_some_iff.1 hlast
    have hfresh : ∀ d ∈ init, d ≠ digest := fun d hd => (nodup_append.1 hnodup).2.2 d hd digest mem_cons_self
    have hfilter : (init ++ [digest]).filter (· ≠ digest) = init := by
      rw [filter_append, filter_eq_self.2 fun d hd => decide_eq_true (hfresh d hd)]
      simp
    rw [hfilter, rtake_of_length_le hlength]
  have hone : (digests.filter (· ≠ digest) ++ [digest]).length ≤ HISTORY_LIMIT + 1 := by
    have := length_filter_le (· ≠ digest) digests
    rw [length_append, length_singleton]
    omega
  dsimp only
  generalize digests.filter (· ≠ digest) ++ [digest] = kept at hone ⊢
  split
  · next hover => rw [rtake, show kept.length - HISTORY_LIMIT = 1 by omega, drop_one]
  · next hfits => rw [rtake_of_length_le (not_lt.1 hfits)]

theorem retain_lastUsed (uses : List Bytes32) (digest : Bytes32) :
    retain (lastUsed HISTORY_LIMIT uses) digest = lastUsed HISTORY_LIMIT (uses ++ [digest]) := by
  rw [retain_eq_moveToEnd (nodup_lastUsed _ _) (length_lastUsed_le _ _), moveToEnd_lastUsed (by decide)]

/-- The history that `roots` leave, `root` published last. -/
def historyOf (roots : List (RootRecord Node)) (root : RootRecord Node) : History Node :=
  ⟨root, lastUsed HISTORY_LIMIT (roots.map (digestOf env) ++ [digestOf env root])⟩

section
variable (roots : List (RootRecord Node))

section
variable (root : RootRecord Node)

theorem digests_historyOf : (historyOf env roots root).digests =
      lastUsed HISTORY_LIMIT (roots.map (digestOf env) ++ [digestOf env root]) := rfl

theorem length_historyOf : (historyOf env roots root).digests.length ≤ HISTORY_LIMIT := by
  rw [digests_historyOf]
  exact length_lastUsed_le _ _

theorem nodup_historyOf : (historyOf env roots root).digests.Nodup := by
  rw [digests_historyOf]
  exact nodup_lastUsed _ _

theorem getLast?_historyOf : (historyOf env roots root).digests.getLast? = some (digestOf env root) := by
  rw [digests_historyOf]
  exact getLast?_lastUsed (by decide) _ _

end

/-- One publication more. -/
theorem retain_historyOf (last root : RootRecord Node) :
    retain (historyOf env roots last).digests (digestOf env root) =
      (historyOf env (roots ++ [last]) root).digests := by
  rw [digests_historyOf, digests_historyOf, retain_lastUsed, map_append, map_singleton]

end

variable {roots : List (RootRecord Node)} {root : RootRecord Node}

theorem decodeHistory_historyOf :
    decodeHistory env (historyOf env roots root) context = .ok (historyOf env roots root) ↔
      root.context = context ∧ validRootRecord root = true := by
  have hlast := getLast?_historyOf env roots root
  rw [decodeHistory_eq_ok]
  constructor
  · rintro ⟨-, -, -, hcontext, hvalid, -⟩
    exact ⟨hcontext, hvalid⟩
  · rintro ⟨rfl, hvalid⟩
    refine ⟨rfl, fun hnone => ?_, length_historyOf env _ _, rfl, hvalid, nodup_historyOf env _ _, hlast⟩
    rw [eq_nil_of_length_eq_zero hnone] at hlast
    cases hlast

theorem encode_historyOf : encode codec env idDigest (historyOf env roots root) = .ok bytes ↔
      validRootRecord root = true ∧ bytes = historyBytes codec (historyOf env roots root) := by
  rw [encode_eq_ok codec env idDigest (length_historyOf env _ _), decodeHistory_historyOf]
  exact and_congr_left' (and_iff_right rfl)

/-- A first publication stores any valid root. -/
theorem publishStored_none : publishStored codec env idDigest none root = .ok bytes ↔
      validRootRecord root = true ∧ bytes = historyBytes codec (historyOf env [] root) := by
  have hpublish : publish env ⟨root, []⟩ root = .ok (historyOf env [] root) := by
    have hfirst : retain [] (digestOf env root) = (historyOf env [] root).digests := by
      rw [digests_historyOf, map_nil, ← retain_lastUsed, lastUsed_nil]
    rw [publish, if_neg (not_not.2 rfl)]
    exact congrArg (fun digests => Except.ok (⟨root, digests⟩ : History Node)) hfirst
  rw [publishStored, ok_bind]
  dsimp only
  rw [hpublish, ok_bind, encode_historyOf]

/-- A later one stores a valid root of the same context. -/
theorem publishStored_some {last : RootRecord Node} (hlast : validRootRecord last = true) :
    publishStored codec env idDigest (some (historyBytes codec (historyOf env roots last))) root = .ok bytes ↔
      last.context = root.context ∧ validRootRecord root = true ∧
        bytes = historyBytes codec (historyOf env (roots ++ [last]) root) := by
  have hpublish : last.context = root.context →
      publish env (historyOf env roots last) root = .ok (historyOf env (roots ++ [last]) root) := by
    intro hcontext
    rw [publish, if_neg (not_not.2 (show root.context = (historyOf env roots last).current.context from hcontext.symm))]
    exact congrArg (fun digests => Except.ok (⟨root, digests⟩ : History Node)) (retain_historyOf env roots last root)
  rw [publishStored, bind_eq_ok]
  simp only [decode_historyBytes codec env idDigest (historyOf env roots last) hlast
    (length_historyOf env _ _), decodeHistory_historyOf, hlast, and_true]
  constructor
  · rintro ⟨history, ⟨rfl, hcontext⟩, h⟩
    rw [hpublish hcontext, ok_bind, encode_historyOf] at h
    exact ⟨hcontext, h⟩
  · rintro ⟨hcontext, h⟩
    refine ⟨_, ⟨rfl, hcontext⟩, ?_⟩
    rwa [hpublish hcontext, ok_bind, encode_historyOf]

theorem publishAll_concat (roots : List (RootRecord Node)) (root : RootRecord Node) :
    publishAll codec env idDigest (roots ++ [root]) = publishAll codec env idDigest roots >>= fun existing =>
      some <$> publishStored codec env idDigest existing root := by
  rw [publishAll, foldlM_append]
  simp only [foldlM_cons, foldlM_nil, bind_pure]
  rfl

theorem map_some_eq_ok {x : Except QuilError (List UInt8)} {stored : Option (List UInt8)} :
    some <$> x = .ok stored ↔ ∃ bytes, x = .ok bytes ∧ stored = some bytes := by
  cases x with
  | error e => exact iff_of_false (fun h => by cases h) (by simp)
  | ok bytes => simp [eq_comm, Functor.map, Except.map]

/-- What a run of publications stores: nothing yet, or the history its roots leave. Roots are accepted exactly when
    they are valid and of one context. -/
theorem publishAll_eq_ok {stored : Option (List UInt8)} :
    publishAll codec env idDigest (roots ++ [root]) = .ok stored ↔
      (∀ r ∈ roots ++ [root], r.context = root.context ∧ validRootRecord r = true) ∧
        stored = some (historyBytes codec (historyOf env roots root)) := by
  induction roots using reverseRecOn generalizing root stored with
  | nil =>
    rw [publishAll_concat, publishAll, foldlM_nil, pure_eq_ok, ok_bind, map_some_eq_ok]
    simp only [publishStored_none, nil_append, forall_mem_singleton, true_and]
    constructor
    · rintro ⟨bytes, ⟨hvalid, rfl⟩, rfl⟩
      exact ⟨hvalid, rfl⟩
    · rintro ⟨hvalid, rfl⟩
      exact ⟨_, ⟨hvalid, rfl⟩, rfl⟩
  | append_singleton roots last ih =>
    rw [publishAll_concat, bind_eq_ok]
    simp only [ih, map_some_eq_ok, forall_mem_append, forall_mem_singleton]
    constructor
    · rintro ⟨existing, ⟨⟨hroots, hlast⟩, rfl⟩, bytes, hbytes, rfl⟩
      obtain ⟨hcontext, hvalid, rfl⟩ := (publishStored_some codec env idDigest hlast.2).1 hbytes
      refine ⟨⟨⟨fun r hr => ?_, hcontext, hlast.2⟩, trivial, hvalid⟩, rfl⟩
      exact ⟨(hroots r hr).1.trans hcontext, (hroots r hr).2⟩
    · rintro ⟨⟨⟨hroots, hcontext, hlast⟩, -, hvalid⟩, rfl⟩
      refine ⟨_, ⟨⟨fun r hr => ⟨(hroots r hr).1.trans hcontext.symm, (hroots r hr).2⟩, trivial, hlast⟩, rfl⟩, _, ?_, rfl⟩
      exact (publishStored_some codec env idDigest hlast).2 ⟨hcontext, hvalid, rfl⟩

/-- Over every run of publications from an empty history: valid roots of one context are all accepted and, if there are
    any, stored, and what is then stored reads as distinct digests, the last published one last, of exactly the roots after which fewer than
    `HISTORY_LIMIT` others were published; publishing one of them again moves it to the end and nothing else. -/
theorem history_holds_last_published :
    (∀ (context : Bytes32) (roots : List (RootRecord Node)),
      (∀ r ∈ roots, r.context = context ∧ validRootRecord r = true) →
      ∃ stored, publishAll codec env idDigest roots = .ok stored ∧ (stored.isSome ↔ roots ≠ [])) ∧
    ∀ (roots : List (RootRecord Node)) (bytes : List UInt8),
      publishAll codec env idDigest roots = .ok (some bytes) →
      ∃ root history, roots.getLast? = some root ∧
        decode codec env idDigest bytes root.context = .ok history ∧ history.current = root ∧
        history.digests.Nodup ∧ history.digests.getLast? = some (digestOf env root) ∧
        (∀ digest, digest ∈ history.digests ↔ ∃ earlier later,
          roots.map (digestOf env) = earlier ++ digest :: later ∧ digest ∉ later ∧
            later.toFinset.card < HISTORY_LIMIT) ∧
        ∀ again bytes', publishStored codec env idDigest (some bytes) again = .ok bytes' →
          digestOf env again ∈ history.digests →
          ∃ history', decode codec env idDigest bytes' again.context = .ok history' ∧
            history'.digests = history.digests.filter (· ≠ digestOf env again) ++ [digestOf env again] := by
  refine ⟨fun context roots hroots => ?_, fun roots bytes h => ?_⟩
  · rcases eq_nil_or_concat roots with rfl | ⟨before, root, rfl⟩
    · exact ⟨none, rfl, by simp⟩
    rw [concat_eq_append] at hroots ⊢
    have hroot := hroots root (by simp)
    exact ⟨_, (publishAll_eq_ok codec env idDigest).2
      ⟨fun r hr => ⟨(hroots r hr).1.trans hroot.1.symm, (hroots r hr).2⟩, rfl⟩, by simp⟩
  rcases eq_nil_or_concat roots with rfl | ⟨before, root, rfl⟩
  · cases h
  rw [concat_eq_append] at h ⊢
  obtain ⟨hroots, hbytes⟩ := (publishAll_eq_ok codec env idDigest).1 h
  obtain rfl := Option.some.inj hbytes
  have hvalid := (hroots root (by simp)).2
  have hread : ∀ {roots : List (RootRecord Node)} {root : RootRecord Node}, validRootRecord root = true →
      decode codec env idDigest (historyBytes codec (historyOf env roots root)) root.context =
        .ok (historyOf env roots root) := fun h =>
    (decode_historyBytes codec env idDigest _ h (length_historyOf env _ _)).2
      ⟨rfl, (decodeHistory_historyOf env).2 ⟨rfl, h⟩⟩
  refine ⟨root, historyOf env before root, List.getLast?_concat, hread hvalid, rfl, nodup_historyOf env _ _,
    getLast?_historyOf env _ _, fun digest => ?_, fun again bytes' hagain hmem => ?_⟩
  · rw [digests_historyOf, mem_lastUsed, map_append, map_singleton]
  obtain ⟨-, hvalid', rfl⟩ := (publishStored_some codec env idDigest hvalid).1 hagain
  refine ⟨_, hread hvalid', ?_⟩
  rw [← moveToEnd_of_mem (length_historyOf env _ _) hmem, ← retain_historyOf,
    retain_eq_moveToEnd (nodup_historyOf env _ _) (length_historyOf env _ _)]

end

/-- A root of the application 0 over nodes of one byte. -/
def sampleRoot (node : UInt8) : RootRecord UInt8 := ⟨0, 3, 5, node⟩

/-- Digests that are the node. -/
def nodeDigests : Env UInt8 := ⟨0, 0, fun _ _ node => BitVec.ofNat 256 node.toNat⟩

/-- Published again, a root is the last one. -/
theorem history_holds_last_published_sample : ∃ bytes history,
    publishAll byteCodec nodeDigests (fun _ => 0) [sampleRoot 7, sampleRoot 8, sampleRoot 7] = .ok (some bytes) ∧
      decode byteCodec nodeDigests (fun _ => 0) bytes 0 = .ok history ∧ history.current = sampleRoot 7 ∧
      history.digests.getLast? = some 7 ∧ 8 ∈ history.digests ∧ 9 ∉ history.digests := by
  obtain ⟨hstored, hread⟩ := history_holds_last_published byteCodec nodeDigests fun _ => 0
  obtain ⟨stored, hok, hsome⟩ := hstored 0 [sampleRoot 7, sampleRoot 8, sampleRoot 7] (by decide)
  obtain ⟨bytes, rfl⟩ := Option.isSome_iff_exists.1 (hsome.2 (by simp))
  obtain ⟨root, history, hroot, hdecode, hcurrent, -, hlast, hmem, -⟩ := hread _ bytes hok
  obtain rfl : sampleRoot 7 = root := Option.some.inj hroot
  refine ⟨bytes, history, hok, hdecode, hcurrent, hlast, (hmem 8).2 ⟨[7], [7], rfl, by decide, by decide⟩, ?_⟩
  intro hnine
  obtain ⟨earlier, later, heq, -⟩ := (hmem 9).1 hnine
  have : (9 : Bytes32) ∈ [sampleRoot 7, sampleRoot 8, sampleRoot 7].map (digestOf nodeDigests) := by rw [heq]; simp
  revert this
  decide

end Quil.RootHistory

import Quilibrium.Token.GlobalRecords

/-! The relay of settlements (`token_intrinsic/settlement_record.rs`): the entries one shard frame executed, as
    the clock store keeps them, and the window of frames a header re-carries. Both are concatenations of entries
    of ONE length. The encoders SORT a frame's entries and leave a frame without entries out; the decoders accept
    only what is sorted, and a relay only from the window of the header that carries it. -/

namespace Quil.SettlementRecords
open Schemes GlobalRecords List ReadsIn SettlementEntry

/-! ### Entries -/

/-- Bytes of one entry. -/
def ENTRY_BYTES : ℕ := 32 + 32 + 32 + 32 + 16 + 32 + 16 + 32
/-- Bytes of one relayed entry: the frame, then the entry. -/
def RELAY_ENTRY_BYTES : ℕ := 8 + ENTRY_BYTES
/-- Settlements one shard frame may execute. -/
def MAX_ENTRIES_PER_FRAME : ℕ := 64
/-- Shard frames whose entries every header re-carries. -/
def RELAY_WINDOW_FRAMES : ℕ := 32
/-- Relayed entries in one header. -/
def MAX_RELAY_ENTRIES : ℕ := MAX_ENTRIES_PER_FRAME * RELAY_WINDOW_FRAMES

def invalid (message : String) : QuilError := .invalidArgument ("settlement record: " ++ message)

def putEntry (e : SettlementEntry) : List UInt8 :=
  bytes32 e.receipt ++ (bytes32 e.parameterContext ++ (bytes32 e.destination ++ (bytes32 e.context ++
    (toBeBytes 16 e.settlement ++ (bytes32 e.paymentAddress ++ (toBeBytes 16 e.payment ++ bytes32 e.claimant))))))

def readEntry (c : List UInt8) : SettlementEntry where
  receipt := array32 (c.extract 0 32)
  parameterContext := array32 (c.extract 32 64)
  destination := array32 (c.extract 64 96)
  context := array32 (c.extract 96 128)
  settlement := ofBeBytes (c.extract 128 144)
  paymentAddress := array32 (c.extract 144 176)
  payment := ofBeBytes (c.extract 176 192)
  claimant := array32 (c.extract 192 224)

/-- What one entry must meet: a value, a payment exactly with its address, and ONE binding. -/
def ValidEntry (e : SettlementEntry) : Prop :=
  e.settlement ≠ 0 ∧ (e.payment = 0 ↔ e.paymentAddress = 0) ∧ ¬ (e.context = 0 ↔ e.claimant = 0)

instance (e : SettlementEntry) : Decidable (ValidEntry e) := inferInstanceAs (Decidable (_ ∧ _ ∧ _))

def Canonical (entries : List SettlementEntry) : Prop :=
  entries.length ≤ MAX_ENTRIES_PER_FRAME ∧ (entries.map (·.receipt)).IsChain (· < ·) ∧
    ∀ e ∈ entries, ValidEntry e

instance (entries : List SettlementEntry) : Decidable (Canonical entries) :=
  inferInstanceAs (Decidable (_ ∧ _ ∧ _))

/-- The fields in their order, by which entries are compared. -/
def orderKey (e : SettlementEntry) : List ℕ :=
  [e.receipt.toNat, e.parameterContext.toNat, e.destination.toNat, e.context.toNat, e.settlement,
    e.paymentAddress.toNat, e.payment, e.claimant.toNat]

/-- The entries in ascending order. -/
def sorted (entries : List SettlementEntry) : List SettlementEntry :=
  entries.insertionSort fun a b => orderKey a ≤ orderKey b

/-- One frame's entries in canonical order. -/
def canonicalFrameEntries (entries : List SettlementEntry) : Except QuilError (List SettlementEntry) :=
  if ¬ Canonical (sorted entries) then .error (invalid "noncanonical frame entries") else .ok (sorted entries)

def encodeEntries (entries : List SettlementEntry) : Except QuilError (List UInt8) := do
  return (← canonicalFrameEntries entries).flatMap putEntry

def decodeEntries (bytes : List UInt8) : Except QuilError (List SettlementEntry) :=
  if bytes.length % ENTRY_BYTES ≠ 0 ∨ bytes.length / ENTRY_BYTES > MAX_ENTRIES_PER_FRAME then
    .error (invalid "malformed entry list")
  else
    let entries := (chunksExact ENTRY_BYTES bytes).map readEntry
    if ¬ Canonical entries then .error (invalid "noncanonical entry list") else .ok entries

/-! ### The relay window -/

/-- The frames of a relay with their entries. -/
abbrev Relay := List (ℕ × List SettlementEntry)

/-- Frames the header of `frameNumber` relays; never frame 0. -/
def InWindow (frameNumber frame : ℕ) : Prop :=
  max (frameNumber - RELAY_WINDOW_FRAMES) 1 ≤ frame ∧ frame ≤ frameNumber - 1

instance (frameNumber frame : ℕ) : Decidable (InWindow frameNumber frame) :=
  inferInstanceAs (Decidable (_ ∧ _))

/-- An entry with its frame. -/
def putRelayed (relayed : ℕ × SettlementEntry) : List UInt8 := toBeBytes 8 relayed.1 ++ putEntry relayed.2

def encodeRelay (frames : Relay) : Except QuilError (List UInt8) :=
  if ¬ (frames.map Prod.fst).IsChain (· < ·) then .error (invalid "relay frames out of order")
  else do
    let parts ← frames.mapM fun frame => do
      return (← canonicalFrameEntries frame.2).flatMap fun e => putRelayed (frame.1, e)
    if parts.flatten.length / RELAY_ENTRY_BYTES > MAX_RELAY_ENTRIES then
      .error (invalid "too many relayed entries")
    else return parts.flatten

/-- Put an entry after those read before it: to the last frame, or in a new one. -/
def pushRelayed (frames : Relay) (frame : ℕ) (entry : SettlementEntry) : Except QuilError Relay :=
  match frames.getLast? with
  | some (last, entries) =>
    if last = frame then .ok (frames.dropLast ++ [(last, entries ++ [entry])])
    else if last > frame then .error (invalid "relay frames out of order")
    else .ok (frames ++ [(frame, [entry])])
  | none => .ok (frames ++ [(frame, [entry])])

def readRelayed (headerFrame : ℕ) (frames : Relay) (relayed : ℕ × SettlementEntry) : Except QuilError Relay :=
  if ¬ InWindow headerFrame relayed.1 then .error (invalid "relayed frame outside the window")
  else pushRelayed frames relayed.1 relayed.2

/-- A frame and an entry of it, as a chunk of a relay holds them. -/
def relayedChunk (chunk : List UInt8) : ℕ × SettlementEntry :=
  (ofBeBytes (chunk.extract 0 8), readEntry (chunk.drop 8))

def decodeRelay (headerFrame : ℕ) (bytes : List UInt8) : Except QuilError Relay :=
  if bytes.length % RELAY_ENTRY_BYTES ≠ 0 ∨ bytes.length / RELAY_ENTRY_BYTES > MAX_RELAY_ENTRIES then
    .error (invalid "malformed relay")
  else do
    let frames ← ((chunksExact RELAY_ENTRY_BYTES bytes).map relayedChunk).foldlM (readRelayed headerFrame) []
    if ∃ frame ∈ frames, ¬ Canonical frame.2 then .error (invalid "noncanonical relay") else return frames

/-! ### Sorted entries -/

variable {entries : List SettlementEntry}

theorem canonical_iff_pairwise : Canonical entries ↔
    entries.length ≤ MAX_ENTRIES_PER_FRAME ∧ entries.Pairwise (fun a b => a.receipt < b.receipt) ∧
      ∀ e ∈ entries, ValidEntry e := by
  rw [Canonical, isChain_iff_pairwise, pairwise_map]

theorem orderKey_le_of_receipt_lt {a b : SettlementEntry} (h : a.receipt < b.receipt) :
    orderKey a ≤ orderKey b := le_of_lt (List.Lex.rel (BitVec.lt_def.1 h))

/-- Entries in canonical order are left in it. -/
theorem sorted_of_canonical (h : Canonical entries) : sorted entries = entries :=
  List.Pairwise.insertionSort_eq ((canonical_iff_pairwise.1 h).2.1.imp orderKey_le_of_receipt_lt)

variable {e : SettlementEntry}

theorem mem_sorted : e ∈ sorted entries ↔ e ∈ entries :=
  (perm_insertionSort _ entries).mem_iff

theorem canonicalFrameEntries_eq_ok {entries' : List SettlementEntry} :
    canonicalFrameEntries entries = .ok entries' ↔ Canonical entries' ∧ sorted entries = entries' := by
  rw [canonicalFrameEntries, guard_eq_ok, Except.ok.injEq, not_not]
  refine and_congr_left ?_
  rintro rfl
  rfl

/-! ### Entries and their bytes -/

/-- The amounts are 128-bit numbers. -/
def InRange (e : SettlementEntry) : Prop := e.settlement < 2 ^ 128 ∧ e.payment < 2 ^ 128

instance (e : SettlementEntry) : Decidable (InRange e) := inferInstanceAs (Decidable (_ ∧ _))

@[simp] theorem length_putEntry (e : SettlementEntry) : (putEntry e).length = ENTRY_BYTES := by
  simp [putEntry, ENTRY_BYTES]

section
variable {ε : Type} (short : ε)

/-- An entry read field by field. -/
def entryReader : Reader ε SettlementEntry := do
  let receipt ← readArray32 short
  let parameterContext ← readArray32 short
  let destination ← readArray32 short
  let context ← readArray32 short
  let settlement ← Reader.be short 16
  let paymentAddress ← readArray32 short
  let payment ← Reader.be short 16
  let claimant ← readArray32 short
  return ⟨receipt, parameterContext, destination, context, settlement, paymentAddress, payment, claimant⟩

theorem reads_entry : Reads (entryReader short) putEntry InRange := by
  have hword := reads_array32 short
  have hamount := Reads.be short 16
  have hfields : ReadsIn (entryReader short) _ (fun _ => True) _ :=
    field hword receipt fun receipt _ =>
    field hword parameterContext fun parameterContext _ =>
    field hword destination fun destination _ =>
    field hword context fun context _ =>
    field hamount settlement fun settlement _ =>
    field hword paymentAddress fun paymentAddress _ =>
    field hamount payment fun payment _ =>
    field hword claimant fun claimant _ =>
    done fun e => by cases e; simp [and_assoc]
  refine hfields.reads.congr (fun e => ?_) fun e _ => by simp only [putEntry, append_nil]
  simp [InRange]

theorem entryReader_append {c : List UInt8} (rest : List UInt8) (h : c.length = ENTRY_BYTES) :
    entryReader short (c ++ rest) = .ok (readEntry c, rest) := by
  rw [ENTRY_BYTES] at h
  have hend : c.drop 224 = [] := drop_eq_nil_of_le h.le
  rw [← drop_zero (l := c)]
  simp (disch := omega) only [entryReader, Reader.bind_apply, array32_drop_append, be_drop_append, ok_bind,
    Reader.pure_apply, Nat.reduceAdd, hend, nil_append]
  rfl

end

variable {bytes : List UInt8}

/-- A list is read exactly from the entries of it one after another. -/
theorem decodeEntries_eq_ok : decodeEntries bytes = .ok entries ↔
      (∀ e ∈ entries, InRange e) ∧ Canonical entries ∧ bytes = entries.flatMap putEntry := by
  have hchunks := (reads_entry ()).chunksExact_iff (n := ENTRY_BYTES) (by decide) (fun e _ => length_putEntry e)
    (fun c rest => entryReader_append () rest) bytes entries
  rw [decodeEntries, and_left_comm, ← hchunks, guard_eq_ok]
  dsimp only
  rw [guard_eq_ok, Except.ok.injEq, not_not]
  constructor
  · rintro ⟨hbounds, hcanonical, rfl⟩
    exact ⟨hcanonical, not_not.1 fun hlength => hbounds (Or.inl hlength), rfl⟩
  · rintro ⟨hcanonical, hlength, rfl⟩
    have hcount : bytes.length / ENTRY_BYTES ≤ MAX_ENTRIES_PER_FRAME := by
      have := hcanonical.1
      rwa [length_map, length_chunksExact] at this
    exact ⟨by omega, hcanonical, rfl⟩

/-- What is written of a frame's entries is written of the sorted ones. -/
theorem canonicalFrameEntries_map_eq_ok {f : List SettlementEntry → List UInt8} :
    (do return f (← canonicalFrameEntries entries) : Except QuilError _) = .ok bytes ↔
      Canonical (sorted entries) ∧ bytes = f (sorted entries) := by
  rw [bind_eq_ok]
  constructor
  · rintro ⟨entries', hsorted, h⟩
    obtain ⟨hcanonical, rfl⟩ := canonicalFrameEntries_eq_ok.1 hsorted
    cases h
    exact ⟨hcanonical, rfl⟩
  · rintro ⟨hcanonical, rfl⟩
    exact ⟨_, canonicalFrameEntries_eq_ok.2 ⟨hcanonical, rfl⟩, rfl⟩

theorem encodeEntries_eq_ok : encodeEntries entries = .ok bytes ↔
    Canonical (sorted entries) ∧ bytes = (sorted entries).flatMap putEntry := canonicalFrameEntries_map_eq_ok

/-! ### Frames of a relay -/

/-- The relayed entries in order. -/
def entriesOf (frames : Relay) : List (ℕ × SettlementEntry) :=
  frames.flatMap fun frame => frame.2.map (frame.1, ·)

/-- Frames in ascending order, none without entries. -/
structure Grouped (frames : Relay) : Prop where
  ascending : frames.Pairwise fun a b => a.1 < b.1
  filled : ∀ frame ∈ frames, frame.2 ≠ []

theorem entriesOf_concat (frames : Relay) (frame : ℕ × List SettlementEntry) :
    entriesOf (frames ++ [frame]) = entriesOf frames ++ frame.2.map (frame.1, ·) := by
  simp [entriesOf]

theorem grouped_nil : Grouped [] := ⟨List.Pairwise.nil, forall_mem_nil _⟩

variable {frames : Relay} {frame : ℕ × List SettlementEntry}

theorem grouped_concat :
    Grouped (frames ++ [frame]) ↔ Grouped frames ∧ (∀ earlier ∈ frames, earlier.1 < frame.1) ∧ frame.2 ≠ [] := by
  constructor
  · rintro ⟨hascending, hfilled⟩
    rw [pairwise_append] at hascending
    exact ⟨⟨hascending.1, fun f hf => hfilled f (mem_append_left _ hf)⟩,
      fun earlier he => hascending.2.2 earlier he frame mem_cons_self,
      hfilled frame (mem_append_right _ mem_cons_self)⟩
  · rintro ⟨⟨hascending, hfilled⟩, hbelow, hframe⟩
    refine ⟨pairwise_append.2 ⟨hascending, pairwise_singleton _ _, fun earlier he f hf => ?_⟩, fun f hf => ?_⟩
    · rw [mem_singleton.1 hf]
      exact hbelow earlier he
    rcases mem_append.1 hf with hf | hf
    · exact hfilled f hf
    · rwa [mem_singleton.1 hf]

variable {n : ℕ}

/-- The last frame bounds the others. -/
theorem below_of_last_lt
    (h : Grouped (frames ++ [frame])) (hn : frame.1 < n) : ∀ earlier ∈ frames ++ [frame], earlier.1 < n := by
  intro earlier he
  rcases mem_append.1 he with he | he
  · exact ((grouped_concat.1 h).2.1 earlier he).trans hn
  · rwa [mem_singleton.1 he]

/-- An entry put after grouped ones is grouped with them. -/
theorem grouped_of_pushRelayed {frames' : Relay} (hframes : Grouped frames)
    (h : pushRelayed frames n e = .ok frames') : Grouped frames' ∧ entriesOf frames' = entriesOf frames ++ [(n, e)] := by
  rcases eq_nil_or_concat frames with rfl | ⟨init, ⟨last, entries⟩, rfl⟩
  · cases h
    exact ⟨grouped_concat.2 ⟨grouped_nil, forall_mem_nil _, by simp⟩, rfl⟩
  rw [concat_eq_append] at hframes h ⊢
  simp only [pushRelayed, getLast?_concat, dropLast_concat] at h
  split at h
  · next heq =>
    cases h
    obtain ⟨hinit, hbelow, -⟩ := grouped_concat.1 hframes
    refine ⟨grouped_concat.2 ⟨hinit, hbelow, by simp⟩, ?_⟩
    rw [entriesOf_concat, entriesOf_concat, heq, map_append, append_assoc]
    rfl
  split at h
  · cases h
  next hne hle =>
  cases h
  have hlt : last < n := by omega
  exact ⟨grouped_concat.2 ⟨hframes, below_of_last_lt hframes hlt, by simp⟩, entriesOf_concat _ _⟩

/-- Grouped entries come from those before the last and the last. -/
theorem exists_pushRelayed {frames' : Relay} {relayed : List (ℕ × SettlementEntry)}
    (hframes' : Grouped frames') (h : entriesOf frames' = relayed ++ [(n, e)]) :
    ∃ frames, Grouped frames ∧ entriesOf frames = relayed ∧ pushRelayed frames n e = .ok frames' := by
  rcases eq_nil_or_concat frames' with rfl | ⟨init, ⟨last, entries⟩, rfl⟩
  · simp [entriesOf] at h
  rw [concat_eq_append] at hframes' h ⊢
  obtain ⟨hinit, hbelow, hentries⟩ := grouped_concat.1 hframes'
  rcases eq_nil_or_concat entries with rfl | ⟨earlier, e', rfl⟩
  · exact absurd rfl hentries
  rw [concat_eq_append] at h hframes' ⊢
  rw [entriesOf_concat, map_append, ← append_assoc] at h
  obtain ⟨hrelayed, hlast⟩ := append_inj' h rfl
  cases hlast
  rcases earlier with _ | ⟨first, earlier⟩
  · refine ⟨init, hinit, by simpa using hrelayed, ?_⟩
    rcases eq_nil_or_concat init with rfl | ⟨init, ⟨before, entries⟩, rfl⟩
    · rfl
    have hlt : before < last := hbelow (before, entries) (by simp)
    rw [concat_eq_append, pushRelayed, getLast?_concat]
    dsimp only
    rw [if_neg hlt.ne, if_neg hlt.le.not_gt]
    rfl
  refine ⟨init ++ [(last, first :: earlier)], grouped_concat.2 ⟨hinit, hbelow, by simp⟩,
    (entriesOf_concat _ _).trans hrelayed, ?_⟩
  rw [pushRelayed, getLast?_concat]
  dsimp only
  rw [if_pos rfl, dropLast_concat]

variable {headerFrame : ℕ}

/-- The loop reads the frames the entries come from, all in the window. -/
theorem foldlM_readRelayed {relayed : List (ℕ × SettlementEntry)} :
    relayed.foldlM (readRelayed headerFrame) [] = .ok frames ↔
      (∀ r ∈ relayed, InWindow headerFrame r.1) ∧ Grouped frames ∧ entriesOf frames = relayed := by
  induction relayed using reverseRecOn generalizing frames with
  | nil =>
    constructor
    · intro h
      cases h
      exact ⟨forall_mem_nil _, grouped_nil, rfl⟩
    · rintro ⟨-, hframes, hnone⟩
      rcases eq_nil_or_concat frames with rfl | ⟨init, frame, rfl⟩
      · rfl
      rw [concat_eq_append] at hframes hnone
      rw [entriesOf_concat, append_eq_nil_iff, map_eq_nil_iff] at hnone
      exact absurd hnone.2 (grouped_concat.1 hframes).2.2
  | append_singleton relayed r ih =>
    obtain ⟨n, e⟩ := r
    rw [foldlM_append, bind_eq_ok]
    simp only [foldlM_cons, foldlM_nil, bind_pure, ih, forall_mem_append, forall_mem_singleton]
    constructor
    · rintro ⟨before, ⟨hwindow, hbefore, rfl⟩, h⟩
      rw [readRelayed] at h
      split at h
      · cases h
      · next hn => exact ⟨⟨hwindow, not_not.1 hn⟩, grouped_of_pushRelayed hbefore h⟩
    · rintro ⟨⟨hwindow, hn⟩, hframes, hentries⟩
      obtain ⟨before, hbefore, hrelayed, hpush⟩ := exists_pushRelayed hframes hentries
      exact ⟨before, ⟨hwindow, hbefore, hrelayed⟩, by rw [readRelayed, if_neg (not_not.2 hn), hpush]⟩

/-! ### Relays and their bytes -/

/-- What is relayed of a frame lies within the machine's numbers. -/
def RelayedInRange (relayed : ℕ × SettlementEntry) : Prop := relayed.1 < 2 ^ 64 ∧ InRange relayed.2

instance (relayed : ℕ × SettlementEntry) : Decidable (RelayedInRange relayed) := inferInstanceAs (Decidable (_ ∧ _))

theorem length_putRelayed (relayed : ℕ × SettlementEntry) : (putRelayed relayed).length = RELAY_ENTRY_BYTES := by
  rw [putRelayed, length_append, length_toBeBytes, length_putEntry, RELAY_ENTRY_BYTES]

section
variable {ε : Type} (short : ε)

/-- A frame and an entry read one after the other. -/
def relayedReader : Reader ε (ℕ × SettlementEntry) := do
  let frame ← Reader.be short 8
  let entry ← entryReader short
  return (frame, entry)

theorem reads_relayed : Reads (relayedReader short) putRelayed RelayedInRange := by
  have hfields : ReadsIn (relayedReader short) _ (fun _ => True) _ :=
    field (Reads.be short 8) Prod.fst fun frame _ =>
    field (reads_entry short) Prod.snd fun entry _ => done fun relayed => by rw [true_and, Prod.ext_iff]
  refine hfields.reads.congr (fun e => ?_) fun e _ => by simp only [putRelayed, append_nil]
  rw [RelayedInRange, and_true]
  rfl

theorem relayedReader_append {c : List UInt8} (rest : List UInt8) (h : c.length = RELAY_ENTRY_BYTES) :
    relayedReader short (c ++ rest) = .ok (relayedChunk c, rest) := by
  rw [RELAY_ENTRY_BYTES] at h
  have hfirst := be_drop_append short (l := c) (m := rest) (i := 0) (n := 8) (by omega)
  rw [drop_zero] at hfirst
  rw [relayedReader, Reader.bind_apply, hfirst, ok_bind, Reader.bind_apply,
    entryReader_append short rest (by rw [length_drop]; omega)]
  rfl

end

theorem forall_entriesOf {p : ℕ × SettlementEntry → Prop} :
    (∀ r ∈ entriesOf frames, p r) ↔ ∀ frame ∈ frames, ∀ e ∈ frame.2, p (frame.1, e) := by
  simp only [entriesOf, mem_flatMap, mem_map]
  constructor
  · intro h frame hframe e he
    exact h _ ⟨frame, hframe, e, he, rfl⟩
  · rintro h r ⟨frame, hframe, e, he, rfl⟩
    exact h frame hframe e he

/-- A relay is read exactly from the entries of its frames, with their frames, one after another. -/
theorem decodeRelay_eq_ok : decodeRelay headerFrame bytes = .ok frames ↔
      Grouped frames ∧ (∀ frame ∈ frames, InWindow headerFrame frame.1 ∧ Canonical frame.2) ∧
      (∀ r ∈ entriesOf frames, RelayedInRange r) ∧ (entriesOf frames).length ≤ MAX_RELAY_ENTRIES ∧
      bytes = (entriesOf frames).flatMap putRelayed := by
  have hchunks := (reads_relayed ()).chunksExact_iff (n := RELAY_ENTRY_BYTES) (by decide)
    (fun r _ => length_putRelayed r) (fun c rest => relayedReader_append () rest) bytes
    (entriesOf frames)
  rw [decodeRelay, and_left_comm (b := (entriesOf frames).length ≤ _), ← hchunks]
  constructor
  · intro h
    obtain ⟨hbounds, h⟩ := guard_eq_ok.1 h
    obtain ⟨frames', hloop, h⟩ := bind_ok h
    obtain ⟨hcanonical, h⟩ := guard_eq_ok.1 h
    cases h
    obtain ⟨hwindow, hgrouped, hentries⟩ := foldlM_readRelayed.1 hloop
    rw [← hentries, forall_entriesOf] at hwindow
    refine ⟨hgrouped, fun frame hframe => ⟨?_, ?_⟩, ?_, not_not.1 fun hlength => hbounds (.inl hlength),
      hentries.symm⟩
    · obtain ⟨e, he⟩ := exists_mem_of_ne_nil _ (hgrouped.filled frame hframe)
      exact hwindow frame hframe e he
    · exact not_not.1 fun hno => hcanonical ⟨frame, hframe, hno⟩
    · rw [hentries, length_map, length_chunksExact]
      omega
  · rintro ⟨hgrouped, hframes, hcount, hlength, hentries⟩
    rw [← hentries, length_map, length_chunksExact] at hcount
    have hwindow : ∀ r ∈ entriesOf frames, InWindow headerFrame r.1 :=
      forall_entriesOf.2 fun frame hframe _ _ => (hframes frame hframe).1
    rw [hentries, if_neg (by omega), foldlM_readRelayed.2 ⟨hwindow, hgrouped, rfl⟩, ok_bind]
    refine if_neg ?_
    rintro ⟨frame, hframe, hno⟩
    exact hno (hframes frame hframe).2

/-- The frames with their entries sorted. -/
def sortFrames (frames : Relay) : Relay := frames.map fun frame => (frame.1, sorted frame.2)

/-- What a relay of `frames` holds: the entries of each sorted, and no frame without entries. -/
def relayed (frames : Relay) : Relay := (sortFrames frames).filter fun frame => frame.2 ≠ []

theorem entriesOf_filter (frames : Relay) :
    entriesOf (frames.filter fun frame => frame.2 ≠ []) = entriesOf frames := by
  induction frames with
  | nil => rfl
  | cons frame frames ih =>
    by_cases hempty : frame.2 = []
    · rw [filter_cons_of_neg (by simpa using hempty), ih]
      simp [entriesOf, hempty]
    · rw [filter_cons_of_pos (by simpa using hempty)]
      exact congrArg (frame.2.map (frame.1, ·) ++ ·) ih

theorem entriesOf_relayed (frames : Relay) : entriesOf (relayed frames) = entriesOf (sortFrames frames) :=
  entriesOf_filter _

/-- The bytes of one frame of a relay. -/
def putFrame (frame : ℕ × List SettlementEntry) : List UInt8 :=
  (sorted frame.2).flatMap fun e => putRelayed (frame.1, e)

theorem flatten_putFrame (frames : Relay) :
    (frames.map putFrame).flatten = (entriesOf (sortFrames frames)).flatMap putRelayed := by
  rw [entriesOf, sortFrames, flatMap_map, flatMap_assoc, flatMap_def]
  simp only [flatMap_map]
  rfl

theorem length_flatMap_putRelayed (relayed : List (ℕ × SettlementEntry)) :
    (relayed.flatMap putRelayed).length / RELAY_ENTRY_BYTES = relayed.length := by
  rw [length_flatMap_of_length fun r _ => length_putRelayed r, Nat.mul_div_cancel _ (by decide)]

/-- A relay is written exactly of frames in order, each of entries that sort to a canonical list. -/
theorem encodeRelay_eq_ok : encodeRelay frames = .ok bytes ↔
      frames.Pairwise (fun a b => a.1 < b.1) ∧ (∀ frame ∈ frames, Canonical (sorted frame.2)) ∧
      (entriesOf (sortFrames frames)).length ≤ MAX_RELAY_ENTRIES ∧
      bytes = (entriesOf (sortFrames frames)).flatMap putRelayed := by
  have hchain : (frames.map Prod.fst).IsChain (· < ·) ↔ frames.Pairwise fun a b => a.1 < b.1 := by
    rw [isChain_iff_pairwise, pairwise_map]
  rw [encodeRelay, ← hchain, guard_eq_ok, bind_eq_ok, not_not]
  constructor
  · rintro ⟨hascending, parts, hparts, h⟩
    obtain ⟨hcanonical, rfl⟩ := (mapM_eq_ok (g := putFrame) fun _ _ => canonicalFrameEntries_map_eq_ok).1 hparts
    rw [flatten_putFrame, length_flatMap_putRelayed, guard_eq_ok] at h
    obtain ⟨hcount, h⟩ := h
    cases h
    exact ⟨hascending, hcanonical, not_lt.1 hcount, rfl⟩
  · rintro ⟨hascending, hcanonical, hcount, rfl⟩
    refine ⟨hascending, _, (mapM_eq_ok (g := putFrame) fun _ _ => canonicalFrameEntries_map_eq_ok).2 ⟨hcanonical, rfl⟩, ?_⟩
    rw [flatten_putFrame, length_flatMap_putRelayed, if_neg (not_lt.2 hcount)]
    rfl

/-- The frames that are relayed are grouped. -/
theorem grouped_relayed (h : frames.Pairwise fun a b => a.1 < b.1) : Grouped (relayed frames) where
  ascending := by
    refine List.Pairwise.filter _ ?_
    rwa [sortFrames, pairwise_map]
  filled frame hframe := by simpa using (mem_filter.1 hframe).2

/-- Frames that are grouped and canonical are relayed as they are. -/
theorem relayed_eq_self (h : Grouped frames) (hcanonical : ∀ frame ∈ frames, Canonical frame.2) :
    relayed frames = frames := by
  have hsort : sortFrames frames = frames := by
    refine (map_congr_left fun frame hframe => ?_).trans (map_id frames)
    rw [sorted_of_canonical (hcanonical frame hframe)]
    rfl
  rw [relayed, hsort, filter_eq_self]
  exact fun frame hframe => by simpa using h.filled frame hframe

/-- What is relayed are the entries of the frames. -/
theorem forall_entriesOf_relayed {p : ℕ × SettlementEntry → Prop} :
    (∀ r ∈ entriesOf (relayed frames), p r) ↔ ∀ r ∈ entriesOf frames, p r := by
  rw [entriesOf_relayed, forall_entriesOf, forall_entriesOf, sortFrames, forall_mem_map]
  exact forall₂_congr fun frame _ => forall_congr' fun e => by rw [mem_sorted]

/-- A relay that is written is read back by a header whose window holds its frames. -/
theorem decodeRelay_of_encodeRelay (hrange : ∀ r ∈ entriesOf frames, RelayedInRange r ∧ InWindow headerFrame r.1)
    (h : encodeRelay frames = .ok bytes) : decodeRelay headerFrame bytes = .ok (relayed frames) := by
  obtain ⟨hascending, hcanonical, hcount, rfl⟩ := encodeRelay_eq_ok.1 h
  rw [← entriesOf_relayed] at hcount ⊢
  have hgrouped := grouped_relayed hascending
  rw [← forall_entriesOf_relayed] at hrange
  refine decodeRelay_eq_ok.2 ⟨hgrouped, fun frame hframe => ⟨?_, ?_⟩, fun r hr => (hrange r hr).1, hcount, rfl⟩
  · obtain ⟨e, he⟩ := exists_mem_of_ne_nil _ (hgrouped.filled frame hframe)
    exact (forall_entriesOf.1 hrange frame hframe e he).2
  · obtain ⟨frame', hframe', rfl⟩ := mem_map.1 (mem_of_mem_filter hframe)
    exact hcanonical frame' hframe'

/-- A relay that is read is written back. -/
theorem encodeRelay_of_decodeRelay
    (h : decodeRelay headerFrame bytes = .ok frames) : relayed frames = frames ∧ encodeRelay frames = .ok bytes := by
  obtain ⟨hgrouped, hframes, -, hcount, rfl⟩ := decodeRelay_eq_ok.1 h
  have hcanonical : ∀ frame ∈ frames, Canonical frame.2 := fun frame hframe => (hframes frame hframe).2
  have hrelayed := relayed_eq_self hgrouped hcanonical
  refine ⟨hrelayed, encodeRelay_eq_ok.2 ⟨hgrouped.ascending, fun frame hframe => ?_, ?_, ?_⟩⟩
  · rw [sorted_of_canonical (hcanonical frame hframe)]
    exact hcanonical frame hframe
  · rwa [← entriesOf_relayed, hrelayed]
  · rw [← entriesOf_relayed, hrelayed]

end Quil.SettlementRecords

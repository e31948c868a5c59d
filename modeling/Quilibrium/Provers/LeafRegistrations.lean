import Quilibrium.Types
import Quilibrium.Schemes.Run
import Quilibrium.Schemes.Store
import Quilibrium.Schemes.TopKeys

/-! A member's leaf-root registrations (`materialize.rs`). One vertex an allocation's leaf holds up to three epochs'
    SLOTS, written by place: the highest epoch is next, the one below it current, the one below that previous. A
    registration replaces its epoch's slot or adds one, and past three the lowest epoch falls out; a seal marks its
    epoch's slot. -/

namespace Quil.LeafRegistrations
open Schemes List Option

abbrev Bytes := List UInt8

/-! ### The vertex -/

inductive Place where
  | prev
  | current
  | next
deriving DecidableEq, Repr

/-- The fields of a slot. -/
inductive SlotField where
  | epoch
  | leafRoot
  | numBlocks
  | registeredAt
  | sealedAt
deriving DecidableEq, Repr

/-- The fields of a registration vertex. -/
inductive Field where
  | type
  | member
  | shardFilter
  | leafPrefix
  | registrationFrameNumber
  | slot (place : Place) (field : SlotField)
deriving DecidableEq, Repr

/-- A field's order in the schema; the type has a key of its own. -/
def Field.order : Field → Option ℕ
  | .type => none
  | .member => some 0
  | .shardFilter => some 1
  | .leafPrefix => some 2
  | .slot .current .epoch => some 3
  | .slot .current .leafRoot => some 4
  | .slot .current .numBlocks => some 5
  | .registrationFrameNumber => some 6
  | .slot .next .epoch => some 7
  | .slot .next .leafRoot => some 8
  | .slot .next .numBlocks => some 9
  | .slot .prev .epoch => some 10
  | .slot .prev .leafRoot => some 11
  | .slot .prev .numBlocks => some 12
  | .slot .current .registeredAt => some 20
  | .slot .current .sealedAt => some 21
  | .slot .next .registeredAt => some 22
  | .slot .next .sealedAt => some 23
  | .slot .prev .registeredAt => some 24
  | .slot .prev .sealedAt => some 25

/-- The key of a field in the vertex tree. -/
def Field.key (field : Field) : Bytes :=
  match field.order with
  | none => List.replicate 32 0xFF
  | some order => [UInt8.ofNat (order * 4)]

/-- A vertex tree, as the map it is. -/
abbrev Tree := Store Bytes Bytes

def readField (tree : Tree) (field : Field) : Option Bytes := tree field.key

def writeField (tree : Tree) (field : Field) (value : Bytes) : Tree := tree.write field.key value

/-- The first eight bytes of a field. -/
def readU64Field (tree : Tree) (field : Field) : Option ℕ := do
  let bytes ← readField tree field
  if 8 ≤ bytes.length then some (ofBeBytes (bytes.take 8)) else none

/-- One epoch's registration. -/
structure RegistrationSlot where
  epoch : ℕ
  leafRoot : Option Bytes
  numBlocks : ℕ
  /-- The frame that recorded the registration of a hash-proof epoch. -/
  registeredAt : Option ℕ
  /-- The frame its seal was accepted in. -/
  sealedAt : Option ℕ
deriving DecidableEq, Repr

def readSlot (tree : Tree) (place : Place) : Option RegistrationSlot := do
  let epoch ← readU64Field tree (.slot place .epoch)
  return { epoch
           leafRoot := readField tree (.slot place .leafRoot)
           numBlocks := (readU64Field tree (.slot place .numBlocks)).getD 0
           registeredAt := readU64Field tree (.slot place .registeredAt)
           sealedAt := readU64Field tree (.slot place .sealedAt) }

/-- The slots of a vertex, by ascending epoch. -/
def registrationSlots (tree : Tree) : List RegistrationSlot :=
  [Place.prev, .current, .next].filterMap (readSlot tree)

/-- Write a number that may be missing. -/
def writeFrame (tree : Tree) (field : Field) : Option ℕ → Tree
  | none => tree
  | some frame => writeField tree field (toBeBytes 8 frame)

def writeSlot (tree : Tree) (place : Place) : Option RegistrationSlot → Tree
  | none => tree
  | some slot =>
    let tree := writeField tree (.slot place .epoch) (toBeBytes 8 slot.epoch)
    let tree := writeField tree (.slot place .leafRoot) (slot.leafRoot.getD [])
    let tree := writeField tree (.slot place .numBlocks) (toBeBytes 8 slot.numBlocks)
    let tree := writeFrame tree (.slot place .registeredAt) slot.registeredAt
    writeFrame tree (.slot place .sealedAt) slot.sealedAt

section
variable (typeHash : Bytes)

/-- A vertex that holds the slots, placed from the top. -/
def writeRegistration (member shardFilter prefixBytes : Bytes) (frameNumber : ℕ) (slots : List RegistrationSlot) : Tree :=
  let tree : Tree := writeField Store.empty .type typeHash
  let tree := writeField tree .member member
  let tree := writeField tree .shardFilter shardFilter
  let tree := writeField tree .leafPrefix prefixBytes
  let tree := writeField tree .registrationFrameNumber (toBeBytes 8 frameNumber)
  let curIdx := slots.length - 2
  let tree := writeSlot tree .current slots[curIdx]?
  let tree := writeSlot tree .next slots[curIdx + 1]?
  writeSlot tree .prev (if curIdx = 0 then none else slots[curIdx - 1]?)

def packPrefix (path : List ℕ) : Bytes := path.flatMap fun p => toBeBytes 4 p

variable (hashStorageProofsAt : ℕ → Bool)

/-- Merge a registration into the slots: its epoch's slot is replaced, and the three highest epochs stay. -/
def upsertLeafRootRegistration (existing : Option Tree) (member shardFilter : Bytes) (path : List ℕ)
    (newEpoch : ℕ) (newLeafRoot : Bytes) (newNumBlocks frameNumber : ℕ) : Tree :=
  let slots := (existing.map registrationSlots).getD []
  let slots := slots.filter (·.epoch ≠ newEpoch) ++
    [⟨newEpoch, some newLeafRoot, newNumBlocks, if hashStorageProofsAt newEpoch then some frameNumber else none, none⟩]
  let slots := slots.insertionSort fun a b => a.epoch ≤ b.epoch
  writeRegistration typeHash member shardFilter (packPrefix path) frameNumber (slots.drop (slots.length - 3))

/-- Set the seal of the first slot of an epoch. -/
def sealSlot (epoch frameNumber : ℕ) : List RegistrationSlot → Option (List RegistrationSlot)
  | [] => none
  | slot :: slots =>
    if slot.epoch = epoch then some ({ slot with sealedAt := some frameNumber } :: slots)
    else (sealSlot epoch frameNumber slots).map (slot :: ·)

def requiredField (tree : Tree) (field : Field) (name : String) : Except QuilError Bytes :=
  match readField tree field with
  | some bytes => .ok bytes
  | none => .error (.invalidArgument s!"leaf registration has no {name}")

/-- Seal an epoch's slot; nothing when there is none. -/
def markRegistrationSealed (tree : Tree) (epoch frameNumber : ℕ) : Except QuilError (Option Tree) :=
  match sealSlot epoch frameNumber (registrationSlots tree) with
  | none => .ok none
  | some slots => do
    let registered := (readU64Field tree .registrationFrameNumber).getD 0
    let member ← requiredField tree .member "Member"
    let shardFilter ← requiredField tree .shardFilter "ShardFilter"
    let prefixBytes ← requiredField tree .leafPrefix "Prefix"
    return some (writeRegistration typeHash member shardFilter prefixBytes registered slots)

/-! ### Operations on one allocation's leaf -/

inductive Op where
  | register (epoch : ℕ) (leafRoot : Bytes) (numBlocks frameNumber : ℕ)
  | sealed (epoch frameNumber : ℕ)
deriving DecidableEq, Repr

/-- The epoch an operation is about. -/
def Op.epoch : Op → ℕ
  | .register epoch _ _ _ => epoch
  | .sealed epoch _ => epoch

/-- The numbers are `u64`. -/
def Op.InRange : Op → Prop
  | .register epoch _ numBlocks frameNumber => epoch < 2 ^ 64 ∧ numBlocks < 2 ^ 64 ∧ frameNumber < 2 ^ 64
  | .sealed epoch frameNumber => epoch < 2 ^ 64 ∧ frameNumber < 2 ^ 64

variable (member shardFilter : Bytes) (path : List ℕ)

/-- One operation, and whether it was accepted. -/
def step (vertex : Option Tree) : Op → Option Tree × Bool
  | .register epoch leafRoot numBlocks frameNumber =>
    (some (upsertLeafRootRegistration typeHash hashStorageProofsAt vertex member shardFilter path epoch leafRoot numBlocks
      frameNumber), true)
  | .sealed epoch frameNumber =>
    match vertex with
    | none => (none, false)
    | some tree =>
      match markRegistrationSealed typeHash tree epoch frameNumber with
      | .ok (some tree') => (some tree', true)
      | _ => (some tree, false)

end

/-- The slots of a vertex that may not exist yet. -/
def slotsOf (vertex : Option Tree) : List RegistrationSlot := (vertex.map registrationSlots).getD []

/-! ### What is written reads back -/

theorem key_injective : Function.Injective Field.key := by
  have horder : ∀ f g : Field, f.order = g.order → f = g := by
    rintro (_ | _ | _ | _ | _ | ⟨_ | _ | _, _ | _ | _ | _ | _⟩) (_ | _ | _ | _ | _ | ⟨_ | _ | _, _ | _ | _ | _ | _⟩) h <;>
      first | rfl | (simp [Field.order] at h)
  intro f g h
  refine horder f g ?_
  have hlt : ∀ f : Field, ∀ n, f.order = some n → n < 26 := by
    rintro (_ | _ | _ | _ | _ | ⟨_ | _ | _, _ | _ | _ | _ | _⟩) n hn <;> simp [Field.order] at hn <;> omega
  rw [Field.key, Field.key] at h
  rcases hf : f.order with _ | n <;> rcases hg : g.order with _ | m <;> rw [hf, hg] at h
  · simp at h
  · simp at h
  have hn := hlt f n hf
  have hm := hlt g m hg
  have hbyte := congrArg UInt8.toNat (cons.inj h).1
  rw [UInt8.toNat_ofNat', UInt8.toNat_ofNat', Nat.mod_eq_of_lt (by omega), Nat.mod_eq_of_lt (by omega)] at hbyte
  rw [show n = m by omega]

theorem readField_writeField (tree : Tree) (field field' : Field) (value : Bytes) :
    readField (writeField tree field value) field' = if field' = field then some value else readField tree field' := by
  rw [readField, writeField, Store.write]
  exact if_congr key_injective.eq_iff rfl rfl

theorem readU64Field_writeField (tree : Tree) (field field' : Field) {n : ℕ} (hn : n < 2 ^ 64) :
    readU64Field (writeField tree field (toBeBytes 8 n)) field' =
      if field' = field then some n else readU64Field tree field' := by
  rw [readU64Field, readField_writeField]
  split_ifs with h
  · have hlen : (toBeBytes 8 n).length = 8 := length_toBeBytes 8 n
    have htake : (toBeBytes 8 n).take 8 = toBeBytes 8 n := take_of_length_le hlen.le
    simp only [bind_eq_bind, bind_some, hlen, le_refl, if_true, htake]
    rw [ofBeBytes_toBeBytes (hn.trans_eq (by norm_num))]
  · rfl

/-- A slot that can be written and read back: the numbers are `u64` and it has a root. -/
structure RegistrationSlot.Written (slot : RegistrationSlot) : Prop where
  epoch : slot.epoch < 2 ^ 64
  leafRoot : slot.leafRoot ≠ none
  numBlocks : slot.numBlocks < 2 ^ 64
  registeredAt : ∀ frame, slot.registeredAt = some frame → frame < 2 ^ 64
  sealedAt : ∀ frame, slot.sealedAt = some frame → frame < 2 ^ 64

theorem readField_writeFrame_other (tree : Tree) {field field' : Field} (h : field' ≠ field) (frame : Option ℕ) :
    readField (writeFrame tree field frame) field' = readField tree field' := by
  cases frame with
  | none => rfl
  | some n => rw [writeFrame, readField_writeField, if_neg h]

variable {place : Place}

/-- Writing a slot changes the fields of its place only. -/
theorem readField_writeSlot_other (tree : Tree) {field : Field} (h : ∀ f, field ≠ .slot place f)
    (slot : Option RegistrationSlot) : readField (writeSlot tree place slot) field = readField tree field := by
  rcases slot with _ | slot
  · rfl
  rw [writeSlot, readField_writeFrame_other _ (h _), readField_writeFrame_other _ (h _), readField_writeField,
    if_neg (h _), readField_writeField, if_neg (h _), readField_writeField, if_neg (h _)]

theorem readU64Field_writeFrame_self (tree : Tree) (field : Field) (hnone : readField tree field = none)
    {frame : Option ℕ} (h : ∀ n, frame = some n → n < 2 ^ 64) :
    readU64Field (writeFrame tree field frame) field = frame := by
  cases frame with
  | none => rw [writeFrame, readU64Field, hnone]; rfl
  | some n => rw [writeFrame, readU64Field_writeField _ _ _ (h n rfl), if_pos rfl]

theorem readU64Field_congr {tree tree' : Tree} {field : Field} (h : readField tree field = readField tree' field) :
    readU64Field tree field = readU64Field tree' field := by rw [readU64Field, h, readU64Field]

theorem readSlot_congr {tree tree' : Tree}
    (h : ∀ f, readField tree (.slot place f) = readField tree' (.slot place f)) :
    readSlot tree place = readSlot tree' place := by
  simp only [readSlot, readU64Field_congr (h _), h]

/-- A slot written where nothing was reads back. -/
theorem readSlot_writeSlot_self (tree : Tree) (hnone : ∀ f, readField tree (.slot place f) = none)
    {slot : Option RegistrationSlot} (h : ∀ s, slot = some s → s.Written) :
    readSlot (writeSlot tree place slot) place = slot := by
  rcases slot with _ | slot
  · simp [writeSlot, readSlot, readU64Field, hnone]
  have hw := h slot rfl
  obtain ⟨root, hroot⟩ := ne_none_iff_exists'.1 hw.leafRoot
  -- each field is read past the writes that follow its own
  have hepoch : readU64Field (writeSlot tree place (some slot)) (.slot place .epoch) = some slot.epoch := by
    have hroot : readField (writeField (writeField tree (.slot place .epoch) (toBeBytes 8 slot.epoch))
        (.slot place .leafRoot) (slot.leafRoot.getD [])) (.slot place .epoch) = _ := readField_writeField ..
    rw [writeSlot, readU64Field_congr (readField_writeFrame_other _ (by simp) _),
      readU64Field_congr (readField_writeFrame_other _ (by simp) _), readU64Field_writeField _ _ _ hw.numBlocks,
      if_neg (by simp), readU64Field_congr (hroot.trans (if_neg (by simp))), readU64Field_writeField _ _ _ hw.epoch,
      if_pos rfl]
  have hleaf : readField (writeSlot tree place (some slot)) (.slot place .leafRoot) = some root := by
    rw [writeSlot, readField_writeFrame_other _ (by simp), readField_writeFrame_other _ (by simp),
      readField_writeField, if_neg (by simp), readField_writeField, if_pos rfl, hroot, getD_some]
  have hblocks : readU64Field (writeSlot tree place (some slot)) (.slot place .numBlocks) = some slot.numBlocks := by
    rw [writeSlot, readU64Field_congr (readField_writeFrame_other _ (by simp) _),
      readU64Field_congr (readField_writeFrame_other _ (by simp) _), readU64Field_writeField _ _ _ hw.numBlocks,
      if_pos rfl]
  have hreg : readU64Field (writeSlot tree place (some slot)) (.slot place .registeredAt) = slot.registeredAt := by
    rw [writeSlot, readU64Field_congr (readField_writeFrame_other _ (by simp) _),
      readU64Field_writeFrame_self _ _ (by simp [readField_writeField, hnone]) hw.registeredAt]
  have hseal : readU64Field (writeSlot tree place (some slot)) (.slot place .sealedAt) = slot.sealedAt := by
    rw [writeSlot, readU64Field_writeFrame_self _ _ ?_ hw.sealedAt]
    rw [readField_writeFrame_other _ (by simp)]
    simp [readField_writeField, hnone]
  rw [readSlot, hepoch, hblocks, hleaf, hreg, hseal, ← hroot]
  rfl

variable {slot : RegistrationSlot} {slots : List RegistrationSlot}

/-- Up to three slots are read back as they were written. -/
theorem registrationSlots_writeRegistration (typeHash member shardFilter prefixBytes : Bytes) (frameNumber : ℕ)
    (hlen : slots.length ≤ 3) (h : ∀ slot ∈ slots, slot.Written) :
    registrationSlots (writeRegistration typeHash member shardFilter prefixBytes frameNumber slots) = slots := by
  -- the places written one after the other, from a tree without slots
  have hplaces : ∀ tree : Tree, (∀ p f, readField tree (.slot p f) = none) → ∀ c n v : Option RegistrationSlot,
      (∀ o ∈ [c, n, v], ∀ slot, o = some slot → slot.Written) →
      registrationSlots (writeSlot (writeSlot (writeSlot tree .current c) .next n) .prev v) =
        v.toList ++ c.toList ++ n.toList := by
    intro tree hnone c n v hw
    have hc : readSlot (writeSlot (writeSlot (writeSlot tree .current c) .next n) .prev v) .current = c := by
      rw [readSlot_congr fun f => readField_writeSlot_other _ (by simp) v,
        readSlot_congr fun f => readField_writeSlot_other _ (by simp) n]
      exact readSlot_writeSlot_self tree (hnone _) (hw c (by simp))
    have hn : readSlot (writeSlot (writeSlot (writeSlot tree .current c) .next n) .prev v) .next = n := by
      rw [readSlot_congr fun f => readField_writeSlot_other _ (by simp) v]
      refine readSlot_writeSlot_self _ (fun f => ?_) (hw n (by simp))
      rw [readField_writeSlot_other _ (by simp), hnone]
    have hv : readSlot (writeSlot (writeSlot (writeSlot tree .current c) .next n) .prev v) .prev = v := by
      refine readSlot_writeSlot_self _ (fun f => ?_) (hw v (by simp))
      rw [readField_writeSlot_other _ (by simp), readField_writeSlot_other _ (by simp), hnone]
    rw [registrationSlots]
    cases c <;> cases n <;> cases v <;> simp [hc, hn, hv]
  have hbase : ∀ p f, readField (writeField (writeField (writeField (writeField (writeField (.empty : Tree) .type
      typeHash) .member member) .shardFilter shardFilter) .leafPrefix prefixBytes) .registrationFrameNumber
      (toBeBytes 8 frameNumber)) (.slot p f) = none := by
    intro p f
    simp [readField_writeField]
    rfl
  rw [writeRegistration]
  refine (hplaces _ hbase _ _ _ ?_).trans ?_
  · intro o ho slot hslot
    refine h slot ?_
    simp only [mem_cons, not_mem_nil, or_false] at ho
    rcases ho with rfl | rfl | rfl
    · exact mem_of_getElem? hslot
    · exact mem_of_getElem? hslot
    · split_ifs at hslot
      exact mem_of_getElem? hslot
  rcases slots with _ | ⟨a, _ | ⟨b, _ | ⟨c, _ | ⟨d, rest⟩⟩⟩⟩
  · rfl
  · rfl
  · rfl
  · rfl
  · simp only [length_cons] at hlen
    omega

theorem readField_writeRegistration (typeHash member shardFilter prefixBytes : Bytes) (frameNumber : ℕ)
    (slots : List RegistrationSlot) :
    let tree := writeRegistration typeHash member shardFilter prefixBytes frameNumber slots
    readField tree .member = some member ∧ readField tree .shardFilter = some shardFilter ∧
      readField tree .leafPrefix = some prefixBytes := by
  simp [writeRegistration, readField_writeSlot_other, readField_writeField]

/-! ### What an operation does to the slots -/

/-- The slot a registration makes. -/
def newSlot (hashStorageProofsAt : ℕ → Bool) (epoch : ℕ) (leafRoot : Bytes) (numBlocks frameNumber : ℕ) :
    RegistrationSlot :=
  ⟨epoch, some leafRoot, numBlocks, if hashStorageProofsAt epoch then some frameNumber else none, none⟩

theorem sealSlot_eq_none {epoch frameNumber : ℕ} :
    sealSlot epoch frameNumber slots = none ↔ epoch ∉ slots.map (·.epoch) := by
  induction slots with
  | nil => simp [sealSlot]
  | cons slot slots ih =>
    rw [sealSlot]
    split_ifs with h
    · simp [h]
    · rw [map_eq_none_iff, ih, map_cons, mem_cons, not_or]
      exact ⟨fun hn => ⟨Ne.symm h, hn⟩, fun hn => hn.2⟩

/-- Sealing keeps the epochs, and changes the seal of one slot. -/
theorem sealSlot_eq_some {epoch frameNumber : ℕ} {slots' : List RegistrationSlot}
    (hpair : slots.Pairwise fun a b => a.epoch < b.epoch) (h : sealSlot epoch frameNumber slots = some slots') :
    slots'.map (·.epoch) = slots.map (·.epoch) ∧ ∀ slot ∈ slots', slot ∈ slots ∧ slot.epoch ≠ epoch ∨
      ∃ old ∈ slots, old.epoch = epoch ∧ slot = { old with sealedAt := some frameNumber } := by
  induction slots generalizing slots' with
  | nil => cases h
  | cons first slots ih =>
    obtain ⟨hfirst, hrest⟩ := pairwise_cons.1 hpair
    rw [sealSlot] at h
    split_ifs at h with heq
    · cases h
      refine ⟨rfl, forall_mem_cons.2 ⟨.inr ⟨first, mem_cons_self, heq, rfl⟩, fun slot hs => ?_⟩⟩
      exact .inl ⟨mem_cons_of_mem _ hs, heq ▸ (hfirst slot hs).ne'⟩
    obtain ⟨rest, hsome, rfl⟩ := map_eq_some_iff.1 h
    obtain ⟨hmap, hmem⟩ := ih hrest hsome
    refine ⟨by rw [map_cons, hmap, map_cons], forall_mem_cons.2 ⟨.inl ⟨mem_cons_self, heq⟩, fun slot hs => ?_⟩⟩
    rcases hmem slot hs with ⟨hs, hslot⟩ | ⟨old, hs, hold⟩
    · exact .inl ⟨mem_cons_of_mem _ hs, hslot⟩
    · exact .inr ⟨old, mem_cons_of_mem _ hs, hold⟩

section
variable (typeHash : Bytes) (hashStorageProofsAt : ℕ → Bool) (member shardFilter : Bytes) (path : List ℕ)

/-- What every reached vertex is: written slots in order, with the fields a seal needs. -/
structure Stored (vertex : Option Tree) : Prop where
  written : ∀ slot ∈ slotsOf vertex, slot.Written
  ascending : (slotsOf vertex).Pairwise fun a b => a.epoch < b.epoch
  short : (slotsOf vertex).length ≤ 3
  fields : ∀ tree, vertex = some tree → readField tree .member ≠ none ∧ readField tree .shardFilter ≠ none ∧
    readField tree .leafPrefix ≠ none

variable {typeHash hashStorageProofsAt member shardFilter path} {vertex : Option Tree}

theorem slotsOf_some (tree : Tree) : slotsOf (some tree) = registrationSlots tree := rfl

theorem writeRegistration_fields (member' shardFilter' prefixBytes : Bytes) (frameNumber : ℕ)
    (slots : List RegistrationSlot) {tree : Tree}
    (h : some (writeRegistration typeHash member' shardFilter' prefixBytes frameNumber slots) = some tree) :
    readField tree .member ≠ none ∧ readField tree .shardFilter ≠ none ∧ readField tree .leafPrefix ≠ none := by
  cases h
  obtain ⟨h₁, h₂, h₃⟩ := readField_writeRegistration typeHash member' shardFilter' prefixBytes frameNumber slots
  rw [h₁, h₂, h₃]
  simp

/-- A registration puts its slot in place and keeps the three highest epochs. -/
theorem step_register (h : Stored vertex) {epoch : ℕ} {leafRoot : Bytes} {numBlocks frameNumber : ℕ}
    (hop : (Op.register epoch leafRoot numBlocks frameNumber).InRange) :
    let after := step typeHash hashStorageProofsAt member shardFilter path vertex
      (.register epoch leafRoot numBlocks frameNumber)
    slotsOf after.1 = (insertBy (·.epoch) (newSlot hashStorageProofsAt epoch leafRoot numBlocks frameNumber)
      (slotsOf vertex)).rtake 3 ∧ Stored after.1 ∧ after.2 = true := by
  intro after
  let new := newSlot hashStorageProofsAt epoch leafRoot numBlocks frameNumber
  let slots := (insertBy (·.epoch) new (slotsOf vertex)).rtake 3
  have hnew : new.Written := by
    obtain ⟨he, hb, hf⟩ := hop
    refine ⟨he, some_ne_none _, hb, fun frame hframe => ?_, fun frame hframe => ?_⟩
    · change (if hashStorageProofsAt epoch then some frameNumber else none) = some frame at hframe
      split_ifs at hframe
      cases hframe
      exact hf
    · cases hframe
  have hwritten : ∀ slot ∈ slots, slot.Written := fun slot hslot => by
    rcases mem_insertBy.1 ((rtake_suffix _ 3).subset hslot) with rfl | ⟨hold, -⟩
    · exact hnew
    · exact h.written slot hold
  have hlen : slots.length ≤ 3 := by
    rw [length_rtake]
    exact min_le_left _ _
  have hafter : after.1 = some (writeRegistration typeHash member shardFilter (packPrefix path) frameNumber slots) := by
    exact congrArg (fun l => some (writeRegistration typeHash member shardFilter (packPrefix path) frameNumber
      (l.drop (l.length - 3)))) (insertionSort_eq_insertBy new h.ascending)
  have hslots : slotsOf after.1 = slots := by
    rw [hafter, slotsOf_some, registrationSlots_writeRegistration _ _ _ _ _ hlen hwritten]
  refine ⟨hslots, ⟨by rwa [hslots], ?_, by rwa [hslots], fun tree htree => ?_⟩, rfl⟩
  · rw [hslots]
    exact (pairwise_insertBy new h.ascending).sublist (rtake_suffix _ 3).sublist
  · rw [hafter] at htree
    exact writeRegistration_fields _ _ _ _ _ htree

/-- A seal is accepted when its epoch has a slot, and marks it. -/
theorem step_sealed (h : Stored vertex) {epoch frameNumber : ℕ} (hop : (Op.sealed epoch frameNumber).InRange) :
    let after := step typeHash hashStorageProofsAt member shardFilter path vertex (.sealed epoch frameNumber)
    (after.2 = true ↔ epoch ∈ (slotsOf vertex).map (·.epoch)) ∧ Stored after.1 ∧
      (after.2 = false → after.1 = vertex) ∧
      (after.2 = true → sealSlot epoch frameNumber (slotsOf vertex) = some (slotsOf after.1)) := by
  intro after
  cases hslots : sealSlot epoch frameNumber (slotsOf vertex) with
  | none =>
    have hnot := sealSlot_eq_none.1 hslots
    have hafter : after = (vertex, false) := by
      change step typeHash hashStorageProofsAt member shardFilter path vertex (.sealed epoch frameNumber) = _
      rcases vertex with _ | tree
      · rfl
      rw [slotsOf_some] at hslots
      simp only [step, markRegistrationSealed, hslots]
    rw [hafter]
    exact ⟨by simpa using hnot, h, fun _ => rfl, fun hf => by cases hf⟩
  | some slots =>
    obtain ⟨hmap, hmem⟩ := sealSlot_eq_some h.ascending hslots
    have hin : epoch ∈ (slotsOf vertex).map (·.epoch) := by
      by_contra hnot
      rw [sealSlot_eq_none.2 hnot] at hslots
      cases hslots
    obtain ⟨tree, rfl⟩ : ∃ tree, vertex = some tree := by
      rcases vertex with _ | tree
      · simp [slotsOf] at hin
      exact ⟨tree, rfl⟩
    obtain ⟨⟨m, hm⟩, ⟨sf, hsf⟩, pb, hpb⟩ := (h.fields tree rfl).imp ne_none_iff_exists'.1
      (And.imp ne_none_iff_exists'.1 ne_none_iff_exists'.1)
    have hwritten : ∀ slot ∈ slots, slot.Written := fun slot hslot => by
      rcases hmem slot hslot with ⟨hold, -⟩ | ⟨old, hold, -, rfl⟩
      · exact h.written slot hold
      · obtain ⟨h₁, h₂, h₃, h₄, -⟩ := h.written old hold
        exact ⟨h₁, h₂, h₃, h₄, fun frame hframe => by cases hframe; exact hop.2⟩
    have hlen : slots.length ≤ 3 := by
      rw [← length_map (·.epoch), hmap, length_map]
      exact h.short
    have hafter : after = (some (writeRegistration typeHash m sf pb
        ((readU64Field tree .registrationFrameNumber).getD 0) slots), true) := by
      change step typeHash hashStorageProofsAt member shardFilter path (some tree) (.sealed epoch frameNumber) = _
      rw [slotsOf_some] at hslots
      simp only [step, markRegistrationSealed, hslots, requiredField, hm, hsf, hpb]
      rfl
    have hread : slotsOf after.1 = slots := by
      rw [hafter, slotsOf_some, registrationSlots_writeRegistration _ _ _ _ _ hlen hwritten]
    refine ⟨by rw [hafter]; simpa using hin, ⟨by rwa [hread], ?_, by rwa [hread], fun tree' htree' => ?_⟩, ?_,
      fun _ => by rw [hread]⟩
    · have hasc := h.ascending
      rwa [hread, ← pairwise_map (f := fun slot : RegistrationSlot => slot.epoch) (R := (· < ·)), hmap, pairwise_map]
    · rw [hafter] at htree'
      exact writeRegistration_fields _ _ _ _ _ htree'
    rw [hafter]
    intro hf
    cases hf

end

/-! ### The slots by the whole history -/

/-- The epochs registered in a history of operations and answers. -/
def registeredEpochs (history : List (Op × Bool)) : List ℕ :=
  history.filterMap fun event => match event.1 with
    | .register epoch _ _ _ => some epoch
    | .sealed _ _ => none

/-- The frame of the last accepted seal of an epoch. -/
def lastSeal (epoch : ℕ) (history : List (Op × Bool)) : Option ℕ :=
  (history.filterMap fun event => match event with
    | (.sealed e frameNumber, true) => if e = epoch then some frameNumber else none
    | _ => none).getLast?

section
variable (typeHash : Bytes) (hashStorageProofsAt : ℕ → Bool) (member shardFilter : Bytes) (path : List ℕ)

/-- The slot is its epoch's latest registration, with the last seal accepted after it. -/
def Recorded (history : List (Op × Bool)) (slot : RegistrationSlot) : Prop :=
  ∃ before after leafRoot numBlocks frameNumber,
    history = before ++ (.register slot.epoch leafRoot numBlocks frameNumber, true) :: after ∧
    slot.epoch ∉ registeredEpochs after ∧
    slot = { newSlot hashStorageProofsAt slot.epoch leafRoot numBlocks frameNumber with
      sealedAt := lastSeal slot.epoch after }

theorem registeredEpochs_concat (history : List (Op × Bool)) (event : Op × Bool) :
    registeredEpochs (history ++ [event]) = registeredEpochs history ++ registeredEpochs [event] :=
  filterMap_append

theorem lastSeal_concat (epoch : ℕ) (history : List (Op × Bool)) (event : Op × Bool) :
    lastSeal epoch (history ++ [event]) = (lastSeal epoch [event]).or (lastSeal epoch history) := by
  rw [lastSeal, filterMap_append, getLast?_append]
  rfl

variable {typeHash hashStorageProofsAt member shardFilter path} {history : List (Op × Bool)}

/-- An event of another epoch, or one that was refused, leaves what is recorded. -/
theorem Recorded.concat {event : Op × Bool}
    (h : Recorded hashStorageProofsAt history slot) (hreg : slot.epoch ∉ registeredEpochs [event])
    (hseal : lastSeal slot.epoch [event] = none) : Recorded hashStorageProofsAt (history ++ [event]) slot := by
  obtain ⟨before, after, leafRoot, numBlocks, frameNumber, rfl, hnot, heq⟩ := h
  refine ⟨before, after ++ [event], leafRoot, numBlocks, frameNumber, by simp, ?_, ?_⟩
  · rw [registeredEpochs_concat, mem_append, not_or]
    exact ⟨hnot, hreg⟩
  · rwa [lastSeal_concat, hseal, none_or]

theorem recorded_register (history : List (Op × Bool)) (epoch : ℕ) (leafRoot : Bytes) (numBlocks frameNumber : ℕ) :
    Recorded hashStorageProofsAt (history ++ [(.register epoch leafRoot numBlocks frameNumber, true)])
      (newSlot hashStorageProofsAt epoch leafRoot numBlocks frameNumber) :=
  ⟨history, [], leafRoot, numBlocks, frameNumber, rfl, not_mem_nil, rfl⟩

theorem recorded_sealed (frameNumber : ℕ) (h : Recorded hashStorageProofsAt history slot) :
    Recorded hashStorageProofsAt (history ++ [(.sealed slot.epoch frameNumber, true)])
      { slot with sealedAt := some frameNumber } := by
  obtain ⟨before, after, leafRoot, numBlocks, frame, rfl, hnot, heq⟩ := h
  refine ⟨before, after ++ [(.sealed slot.epoch frameNumber, true)], leafRoot, numBlocks, frame, by simp, ?_, ?_⟩
  · rw [registeredEpochs_concat, mem_append, not_or]
    exact ⟨hnot, by simp [registeredEpochs]⟩
  have hlast : lastSeal slot.epoch [(.sealed slot.epoch frameNumber, true)] = some frameNumber := by simp [lastSeal]
  rw [lastSeal_concat, hlast, some_or]
  exact congrArg (fun old : RegistrationSlot => { old with sealedAt := some frameNumber }) heq

/-- What holds of history and vertex along every run. -/
structure Kept (hashStorageProofsAt : ℕ → Bool) (history : List (Op × Bool)) (vertex : Option Tree) : Prop where
  stored : Stored vertex
  epochs : (slotsOf vertex).map (·.epoch) = ((registeredEpochs history).toFinset.sort (· ≤ ·)).rtake 3
  recorded : ∀ slot ∈ slotsOf vertex, Recorded hashStorageProofsAt history slot

theorem map_rtake {α β : Type*} (f : α → β) (l : List α) (n : ℕ) : (l.rtake n).map f = (l.map f).rtake n := by
  rw [rtake, rtake, map_drop, length_map]

theorem Kept.step {vertex : Option Tree} (h : Kept hashStorageProofsAt history vertex)
    {op : Op} (hop : op.InRange) :
    let after := step typeHash hashStorageProofsAt member shardFilter path vertex op
    Kept hashStorageProofsAt (history ++ [(op, after.2)]) after.1 := by
  intro after
  cases op with
  | register epoch leafRoot numBlocks frameNumber =>
    obtain ⟨hslots, hstored, hok⟩ :=
      @step_register typeHash hashStorageProofsAt member shardFilter path vertex h.stored _ _ _ _ hop
    have hokay : after.2 = true := hok
    refine ⟨hstored, ?_, fun slot hslot => ?_⟩
    · have hepochs : registeredEpochs [((.register epoch leafRoot numBlocks frameNumber : Op), after.2)] = [epoch] := rfl
      have hset : (registeredEpochs (history ++ [((.register epoch leafRoot numBlocks frameNumber : Op), after.2)])).toFinset =
          insert epoch (registeredEpochs history).toFinset := by
        rw [registeredEpochs_concat, hepochs]
        ext e
        simp
      rw [hset, sort_insert, hslots, map_rtake, map_insertBy, h.epochs]
      exact rtake_insertBy _ (Finset.sortedLT_sort _).pairwise 3
    rw [hokay]
    rw [hslots] at hslot
    rcases mem_insertBy.1 ((rtake_suffix _ 3).subset hslot) with rfl | ⟨hold, hne⟩
    · exact recorded_register history epoch leafRoot numBlocks frameNumber
    · refine (h.recorded slot hold).concat ?_ rfl
      simpa [registeredEpochs, newSlot] using hne
  | sealed epoch frameNumber =>
    obtain ⟨-, hstored, hrefused, haccepted⟩ :=
      @step_sealed typeHash hashStorageProofsAt member shardFilter path vertex h.stored _ _ hop
    have hepochs : ∀ answer, registeredEpochs (history ++ [((.sealed epoch frameNumber : Op), answer)]) =
        registeredEpochs history := fun answer => by
      rw [registeredEpochs_concat]
      exact append_nil _
    rcases hanswer : after.2 with _ | _
    · have hsame : after.1 = vertex := hrefused hanswer
      refine ⟨hstored, by rw [hepochs, hsame]; exact h.epochs, fun slot hslot => ?_⟩
      rw [hsame] at hslot
      exact (h.recorded slot hslot).concat not_mem_nil rfl
    obtain ⟨hmap, hmem⟩ := sealSlot_eq_some h.stored.ascending (haccepted hanswer)
    refine ⟨hstored, by rw [hepochs]; exact hmap.trans h.epochs, fun slot hslot => ?_⟩
    rcases hmem slot hslot with ⟨hold, hne⟩ | ⟨old, hold, rfl, rfl⟩
    · refine (h.recorded slot hold).concat not_mem_nil ?_
      simp [lastSeal, Ne.symm hne]
    · exact recorded_sealed frameNumber (h.recorded old hold)

theorem kept_run (ops : List Op) (h : ∀ op ∈ ops, op.InRange) :
    let outcome := run (step typeHash hashStorageProofsAt member shardFilter path) none ops
    Kept hashStorageProofsAt outcome.2 outcome.1 := by
  have hempty : Kept hashStorageProofsAt [] none :=
    ⟨⟨by simp [slotsOf], by simp [slotsOf], by simp [slotsOf], by simp⟩, by simp [slotsOf, registeredEpochs, rtake],
      by simp [slotsOf]⟩
  have hrun := run_invariant_of (step typeHash hashStorageProofsAt member shardFilter path)
    (C := fun _ op => op.InRange) (I := Kept hashStorageProofsAt) (fun history vertex op hkept hop => hkept.step hop)
    ops none [] hempty (runMeets_of_forall _ ops h _)
  simpa using hrun

/-- An operation leaves the slot of every other epoch that stays. -/
theorem other_slot_kept {vertex : Option Tree} (h : Stored vertex) {op : Op} (hop : op.InRange)
    (hne : slot.epoch ≠ op.epoch)
    (hin : slot ∈ slotsOf (step typeHash hashStorageProofsAt member shardFilter path vertex op).1) : slot ∈ slotsOf vertex := by
  cases op with
  | register epoch leafRoot numBlocks frameNumber =>
    obtain ⟨hslots, -, -⟩ :=
      @step_register typeHash hashStorageProofsAt member shardFilter path vertex h _ _ _ _ hop
    rw [hslots] at hin
    rcases mem_insertBy.1 ((rtake_suffix _ 3).subset hin) with rfl | ⟨hold, -⟩
    · exact absurd rfl hne
    · exact hold
  | sealed epoch frameNumber =>
    obtain ⟨-, -, hrefused, haccepted⟩ :=
      @step_sealed typeHash hashStorageProofsAt member shardFilter path vertex h _ _ hop
    cases hanswer : (step typeHash hashStorageProofsAt member shardFilter path vertex (.sealed epoch frameNumber)).2 with
    | false => rwa [hrefused hanswer] at hin
    | true =>
      obtain ⟨-, hmem⟩ := sealSlot_eq_some h.ascending (haccepted hanswer)
      rcases hmem slot hin with ⟨hold, -⟩ | ⟨old, -, hold, rfl⟩
      · exact hold
      · exact absurd hold hne

end

/-- After any sequence of registrations and seals: the slots are those of the three highest epochs registered so far,
    in order; each is its epoch's latest registration, sealed by the last seal accepted after it; a seal is accepted
    for these epochs; and one more operation leaves the slot of every other epoch that stays. -/
theorem registrations_keep_newest (typeHash : Bytes) (hashStorageProofsAt : ℕ → Bool) (member shardFilter : Bytes)
    (path : List ℕ) (ops : List Op) (h : ∀ op ∈ ops, op.InRange) :
    let machine := step typeHash hashStorageProofsAt member shardFilter path
    let outcome := run machine none ops
    (slotsOf outcome.1).map (·.epoch) = ((registeredEpochs outcome.2).toFinset.sort (· ≤ ·)).rtake 3 ∧
      (∀ slot ∈ slotsOf outcome.1, Recorded hashStorageProofsAt outcome.2 slot) ∧
      ∀ op : Op, op.InRange →
        (∀ epoch frameNumber, op = .sealed epoch frameNumber →
          ((machine outcome.1 op).2 = true ↔ epoch ∈ (slotsOf outcome.1).map (·.epoch))) ∧
        ∀ slot, slot.epoch ≠ op.epoch → slot.epoch ∈ (slotsOf (machine outcome.1 op).1).map (·.epoch) →
          (slot ∈ slotsOf (machine outcome.1 op).1 ↔ slot ∈ slotsOf outcome.1) := by
  intro machine outcome
  have hkept : Kept hashStorageProofsAt outcome.2 outcome.1 := kept_run ops h
  refine ⟨hkept.epochs, hkept.recorded, fun op hop => ⟨?_, fun slot hne hstays => ⟨other_slot_kept hkept.stored hop hne,
    fun hin => ?_⟩⟩⟩
  · rintro epoch frameNumber rfl
    exact (step_sealed hkept.stored hop).1
  -- the slot that stays for the epoch was there before, and there is one a epoch
  obtain ⟨slot', hslot', heq⟩ := mem_map.1 hstays
  have hold := other_slot_kept hkept.stored hop (heq ▸ hne) hslot'
  have hsame : slot' = slot := by
    by_contra hdiff
    have hnodup : ((slotsOf outcome.1).map (·.epoch)).Nodup := by
      rw [List.Nodup, pairwise_map]
      exact hkept.stored.ascending.imp ne_of_lt
    exact hdiff (inj_on_of_nodup_map hnodup hold hin heq)
  exact hsame ▸ hslot'

/-- Four epochs registered, the third twice, and seals before and after: the first epoch is out, the third unsealed. -/
theorem registrations_keep_newest_four :
    let outcome := run (step [] (fun _ => true) [] [] []) none [.register 1 [9] 1 10, .register 3 [8] 1 11, .sealed 3 12,
      .register 2 [7] 1 13, .register 4 [6] 1 14, .sealed 2 15, .register 3 [5] 1 16, .sealed 1 17]
    (slotsOf outcome.1).map (fun slot => (slot.epoch, slot.leafRoot, slot.sealedAt)) =
      [(2, some [7], some 15), (3, some [5], none), (4, some [6], none)] ∧
    (slotsOf outcome.1).map (·.epoch) = ((registeredEpochs outcome.2).toFinset.sort (· ≤ ·)).rtake 3 :=
  ⟨by decide +kernel, (registrations_keep_newest [] (fun _ => true) [] [] [] _ (by simp [Op.InRange])).1⟩

end Quil.LeafRegistrations

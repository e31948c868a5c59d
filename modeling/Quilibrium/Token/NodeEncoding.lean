import Quilibrium.Schemes.Codec
import Quilibrium.Token.CoinTree

/-! The nodes of the accumulator (`quil-lattice-ct/src/confidential/relation/membership.rs`, `rp.rs`): polynomials over
    the proof ring, their coefficients PACKED four in 19 bytes. Each must be below the modulus, so a node has one
    string. -/

namespace Quil.NodeEncoding
open Schemes List

def P : ℕ := 2 ^ 38 - 107
def D : ℕ := 256
def PACKED_BYTES : ℕ := D * 38 / 8
def NODE_RANK : ℕ := 4
def NODE_BYTES : ℕ := NODE_RANK * PACKED_BYTES

/-- Four adjacent coefficients. -/
structure Group where
  c₀ : ℕ
  c₁ : ℕ
  c₂ : ℕ
  c₃ : ℕ

namespace Group

abbrev Below (g : Group) (bound : ℕ) : Prop := g.c₀ < bound ∧ g.c₁ < bound ∧ g.c₂ < bound ∧ g.c₃ < bound

def bits (g : Group) : ℕ := g.c₀ ||| g.c₁ <<< 38 ||| g.c₂ <<< 76 ||| g.c₃ <<< 114

def ofBits (bits : ℕ) : Group :=
  let mask := 2 ^ 38 - 1
  ⟨bits &&& mask, bits >>> 38 &&& mask, bits >>> 76 &&& mask, bits >>> 114 &&& mask⟩

/-- The source writes the 128 low bits and then the 24 high ones. -/
def pack (g : Group) : List UInt8 := leBytes 19 g.bits

def unpack (bytes : List UInt8) : Group := ofBits (ofLeBytes bytes)

end Group

/-- The polynomials of a node as one list of groups of adjacent coefficients. -/
structure Node where
  c : List Group
  length_c : c.length = NODE_RANK * (D / 4)
  canonical : ∀ g ∈ c, g.Below P

namespace Node

def zero : Node := ⟨replicate (NODE_RANK * (D / 4)) ⟨0, 0, 0, 0⟩, length_replicate, by
  intro g hg
  rw [eq_of_mem_replicate hg]
  decide⟩

def toBytes (node : Node) : List UInt8 := node.c.flatMap Group.pack

def fromBytes (bytes : List UInt8) : Option Node :=
  let groups := (chunksExact 19 bytes).map Group.unpack
  if h : bytes.length = NODE_BYTES ∧ ∀ g ∈ groups, g.Below P then
    some ⟨groups, by
      rw [length_map, length_chunksExact, h.1]
      rfl, h.2⟩
  else none

end Node

theorem Group.bits_eq {g : Group} (h : g.Below (2 ^ 38)) :
    g.bits = 2 ^ 114 * g.c₃ + (2 ^ 76 * g.c₂ + (2 ^ 38 * g.c₁ + g.c₀)) := by
  obtain ⟨h₀, h₁, h₂, -⟩ := h
  rw [bits, or_shiftLeft_of_lt _ h₀, or_shiftLeft_of_lt g.c₂ (k := 76) (by omega),
    or_shiftLeft_of_lt g.c₃ (k := 114) (by omega)]

/-- Nineteen bytes hold four 38-bit numbers, and each four. -/
theorem Group.reads : Reads (ofBits <$> Reader.le () 19) pack (·.Below (2 ^ 38)) := by
  have hbelow : ∀ bits, (ofBits bits).Below (2 ^ 38) := fun bits => by
    simp only [ofBits, Below, Nat.and_two_pow_sub_one_eq_mod]
    omega
  refine ((Reads.le () 19).map ofBits bits fun n hn => ?_).iff fun g => ⟨fun hg => ?_, fun hg => hg.1 ▸ hbelow _⟩
  · rw [bits_eq (hbelow n)]
    simp only [ofBits, Nat.and_two_pow_sub_one_eq_mod, Nat.shiftRight_eq_div_pow]
    omega
  · rw [bits_eq hg]
    obtain ⟨h₀, h₁, h₂, h₃⟩ := hg
    simp only [ofBits, Nat.and_two_pow_sub_one_eq_mod, Nat.shiftRight_eq_div_pow]
    refine ⟨?_, by omega⟩
    cases g
    simp only [mk.injEq] at *
    omega

theorem Node.fromBytes_eq_some {bytes : List UInt8} {node : Node} :
    fromBytes bytes = some node ↔ node.toBytes = bytes := by
  have hchunks := Group.reads.chunksExact_eq_iff (n := 19) (by decide) (fun _ _ => length_leBytes _ _)
    (fun c rest => map_le_append ()) bytes fun g hg => by
      obtain ⟨h₀, h₁, h₂, h₃⟩ := node.canonical g hg
      have hP : P < 2 ^ 38 := by decide
      exact ⟨h₀.trans hP, h₁.trans hP, h₂.trans hP, h₃.trans hP⟩
  rw [node.length_c] at hchunks
  rw [fromBytes, toBytes, ← hchunks]
  constructor
  · intro h
    split at h
    · next hall =>
      cases h
      exact ⟨hall.1, rfl⟩
    · cases h
  · rintro ⟨hlength, hgroups⟩
    obtain ⟨c, hc, hcanonical⟩ := node
    subst hgroups
    exact dif_pos ⟨hlength, hcanonical⟩

def Node.codec : ShardedTree.NodeCodec Node where
  nodeBytes := NODE_BYTES
  toBytes := toBytes
  fromBytes := fromBytes
  length_toBytes node := (length_flatMap_of_length fun _ _ => length_leBytes _ _).trans (by rw [node.length_c]; rfl)
  fromBytes_toBytes _ := fromBytes_eq_some.2 rfl
  toBytes_fromBytes _ _ := fromBytes_eq_some.1

end Quil.NodeEncoding

import Mathlib.Tactic

/-! A key/value store as a function to `Option`: absent and cleared records both read as `none`. The
    lemmas are the two facts every proof about a write needs — the written key reads back, every other
    key is untouched — for one write, for an overlay of many keys at once, and for a list of writes. -/

namespace Quil.Schemes
open List

variable {K V : Type*}

/-- A store of records. -/
abbrev Store (K V : Type*) := K → Option V

variable {k k' : K}

namespace Store
variable [DecidableEq K]

/-- The store with nothing in it. -/
def empty : Store K V := fun _ => none

/-- Write one record. -/
def write (s : Store K V) (k : K) (v : V) : Store K V := fun k' => if k' = k then some v else s k'

/-- Remove one record. -/
def clear (s : Store K V) (k : K) : Store K V := fun k' => if k' = k then none else s k'

/-- Write every key `m` names. -/
def overlay (s : Store K V) (m : K → Option V) : Store K V := fun k => (m k).or (s k)

/-- Write a list of records in order. -/
def writeAll (s : Store K V) : List (K × V) → Store K V
  | [] => s
  | kv :: kvs => writeAll (s.write kv.1 kv.2) kvs

@[simp] theorem write_same (s : Store K V) (k : K) (v : V) : s.write k v k = some v := by
  simp [write]

theorem write_other {s : Store K V} {v : V} (h : k' ≠ k := by simp) : s.write k v k' = s k' := by
  simp [write, h]

theorem write_eq_some (s : Store K V) {v w : V} :
    s.write k v k' = some w ↔ k' = k ∧ v = w ∨ k' ≠ k ∧ s k' = some w := by
  by_cases h : k' = k
  · simp [write, h]
  · simp [write, h]

@[simp] theorem clear_same (s : Store K V) (k : K) : s.clear k k = none := by simp [clear]

section
variable (s : Store K V)

theorem clear_other (h : k' ≠ k) : s.clear k k' = s k' := by
  simp [clear, h]

/-! Writes of different keys commute -/

theorem write_comm (v v' : V) (h : k' ≠ k) : (s.write k v).write k' v' = (s.write k' v').write k v := by
  funext a
  by_cases ha : a = k
  · simp [write, ha, h.symm]
  · simp [write, ha]

theorem clear_write_comm (v : V) (h : k' ≠ k) : (s.write k v).clear k' = (s.clear k').write k v := by
  funext a
  by_cases ha : a = k
  · simp [write, clear, ha, h.symm]
  · simp [write, clear, ha]

theorem overlay_write_comm (m : K → Option V) (v : V) (h : m k = none) :
    (s.write k v).overlay m = (s.overlay m).write k v := by
  funext a
  by_cases ha : a = k
  · simp [write, overlay, ha, h]
  · simp [write, overlay, ha]

theorem writeAll_write_comm (kvs : List (K × V)) (v : V)
    (h : ∀ kv ∈ kvs, kv.1 ≠ k) : (s.write k v).writeAll kvs = (s.writeAll kvs).write k v := by
  induction kvs generalizing s with
  | nil => rfl
  | cons kv kvs ih =>
    rw [writeAll, write_comm _ _ _ (h kv mem_cons_self), ih _ fun x hx => h x (mem_cons_of_mem _ hx), writeAll]

theorem writeAll_other (kvs : List (K × V)) (h : ∀ kv ∈ kvs, kv.1 ≠ k) : s.writeAll kvs k = s k := by
  induction kvs generalizing s with
  | nil => rfl
  | cons kv kvs ih =>
    rw [writeAll, ih _ fun x hx => h x (mem_cons_of_mem _ hx), write_other (h kv mem_cons_self).symm]

/-- A record that one of the writes names holds what some write put there. -/
theorem writeAll_mem (kvs : List (K × V))
    (h : ∃ kv ∈ kvs, kv.1 = k) : ∃ kv ∈ kvs, kv.1 = k ∧ s.writeAll kvs k = some kv.2 := by
  induction kvs generalizing s with
  | nil => simp at h
  | cons kv kvs ih =>
    by_cases hlater : ∃ x ∈ kvs, x.1 = k
    · obtain ⟨x, hx, hk, hv⟩ := ih (s.write kv.1 kv.2) hlater
      exact ⟨x, mem_cons_of_mem _ hx, hk, hv⟩
    have hk : kv.1 = k := by
      obtain ⟨x, hx, hxk⟩ := h
      rcases mem_cons.1 hx with rfl | hx
      · exact hxk
      · exact absurd ⟨x, hx, hxk⟩ hlater
    refine ⟨kv, mem_cons_self, hk, ?_⟩
    rw [writeAll, writeAll_other _ _ fun x hx hxk => hlater ⟨x, hx, hxk⟩, hk, write_same]

/-- With one write a key, each written record reads back. -/
theorem writeAll_of_mem {kvs : List (K × V)} (h : (kvs.map Prod.fst).Nodup)
    {v : V} (hmem : (k, v) ∈ kvs) : s.writeAll kvs k = some v := by
  obtain ⟨kv, hkv, hk, hv⟩ := writeAll_mem s kvs ⟨_, hmem, rfl⟩
  rw [hv, inj_on_of_nodup_map h hkv hmem hk]

/-- Writes listed from elements with distinct keys: an element's record reads back. -/
theorem writeAll_map_of_mem {α : Type*} {l : List α} {key : α → K} (f : α → V) (h : (l.map key).Nodup)
    {a : α} (ha : a ∈ l) : s.writeAll (l.map fun a => (key a, f a)) (key a) = some (f a) := by
  refine writeAll_of_mem s ?_ (mem_map.2 ⟨a, ha, rfl⟩)
  rwa [map_map]

/-- A key of no element keeps its record. -/
theorem writeAll_map_other {α : Type*} {l : List α} {key : α → K} (f : α → V)
    (h : k ∉ l.map key) : s.writeAll (l.map fun a => (key a, f a)) k = s k := by
  refine writeAll_other s _ fun kv hkv heq => ?_
  obtain ⟨a, ha, rfl⟩ := mem_map.1 hkv
  exact h (mem_map.2 ⟨a, ha, heq⟩)

theorem foldl_clear (ks : List K) (k : K) : ks.foldl clear s k = if k ∈ ks then none else s k := by
  induction ks generalizing s with
  | nil => simp
  | cons k' ks ih =>
    rw [foldl_cons, ih]
    by_cases hk : k = k'
    · simp [hk]
    · simp [hk, clear_other _ hk]

end

end Store
end Quil.Schemes

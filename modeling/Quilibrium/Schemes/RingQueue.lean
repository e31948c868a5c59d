import Mathlib.Tactic

/-! Queues in REUSED records: one record for each epoch modulo the ring's size and each bucket, naming the epoch it
    holds. A record of another epoch reads as empty and is overwritten by the next push, so a queue lives only as
    long as no epoch of the same place is pushed. -/

namespace Quil.Schemes

/-- Records by place in the ring and bucket, with the epoch each holds. -/
abbrev RingQueues (I : Type*) := ℕ × ℕ → Option (ℕ × List I)

variable {epoch other bucket : ℕ}

namespace RingQueues

variable {I : Type*} (size : ℕ) (route : I → ℕ)

/-- The items queued for an epoch in a bucket. -/
def read (ring : RingQueues I) (epoch bucket : ℕ) : List I :=
  match ring (epoch % size, bucket) with
  | some (held, items) => if held = epoch then items else []
  | none => []

def write (ring : RingQueues I) (epoch bucket : ℕ) (items : List I) : RingQueues I :=
  Function.update ring (epoch % size, bucket) (some (epoch, items))

/-- Queue an item for an epoch, once. -/
def push [DecidableEq I] (ring : RingQueues I) (epoch : ℕ) (item : I) : RingQueues I :=
  let items := ring.read size epoch (route item)
  if item ∈ items then ring else ring.write size epoch (route item) (items ++ [item])

/-- Take the items of an epoch's bucket, emptying it. -/
def take (ring : RingQueues I) (epoch bucket : ℕ) : RingQueues I × List I :=
  let items := ring.read size epoch bucket
  if items = [] then (ring, []) else (ring.write size epoch bucket [], items)

variable {size route} {ring : RingQueues I}

/-- The epoch the record holds, when something is queued. -/
theorem eq_some_of_mem_read {epoch bucket : ℕ} {item : I} (h : item ∈ ring.read size epoch bucket) :
    ∃ items, ring (epoch % size, bucket) = some (epoch, items) ∧ item ∈ items := by
  rw [read] at h
  rcases hrecord : ring (epoch % size, bucket) with _ | record
  · simp [hrecord] at h
  obtain ⟨held, items⟩ := record
  rw [hrecord] at h
  dsimp only at h
  split at h
  · next heq => exact ⟨items, by rw [heq], h⟩
  · simp at h

theorem read_write_self (epoch bucket : ℕ) (items : List I) :
    (ring.write size epoch bucket items).read size epoch bucket = items := by
  simp [read, write]

/-- Another epoch of the same place has lost its queue. -/
theorem read_write_place (items : List I) (hne : other ≠ epoch)
    (hplace : other % size = epoch % size) : (ring.write size epoch bucket items).read size other bucket = [] := by
  simp [read, write, hplace, Ne.symm hne]

theorem read_write_other {bucket' : ℕ} (items : List I) (h : ¬ (other % size = epoch % size ∧ bucket' = bucket)) :
    (ring.write size epoch bucket items).read size other bucket' = ring.read size other bucket' := by
  rw [read, read, write, Function.update_of_ne]
  rintro heq
  exact h (Prod.mk.inj heq)

theorem read_place {epoch other bucket : ℕ} (hne : other ≠ epoch) (hplace : other % size = epoch % size) {item : I}
    (h : item ∈ ring.read size epoch bucket) : ring.read size other bucket = [] := by
  obtain ⟨items, hrecord, -⟩ := eq_some_of_mem_read h
  rw [read, hplace, hrecord]
  simp [Ne.symm hne]

section
variable [DecidableEq I]

theorem read_push_self (epoch : ℕ) (item : I) : (ring.push size route epoch item).read size epoch (route item) =
    if item ∈ ring.read size epoch (route item) then ring.read size epoch (route item)
    else ring.read size epoch (route item) ++ [item] := by
  rw [push]
  split
  · rfl
  · rw [read_write_self]

theorem read_push_place (item : I) (hne : other ≠ epoch) (hplace : other % size = epoch % size) :
    (ring.push size route epoch item).read size other (route item) = [] := by
  rw [push]
  split
  · next h => exact read_place hne hplace h
  · exact read_write_place _ hne hplace

theorem read_push_other (item : I) (h : ¬ (other % size = epoch % size ∧ bucket = route item)) :
    (ring.push size route epoch item).read size other bucket = ring.read size other bucket := by
  rw [push]
  split
  · rfl
  · exact read_write_other _ h

/-- An item is queued after a push when it is the one pushed, or was queued and its record is not the one reused. -/
theorem mem_read_push {epoch other bucket : ℕ} {item i : I} :
    i ∈ (ring.push size route epoch item).read size other bucket ↔ (other = epoch ∧ bucket = route item ∧ i = item) ∨
        i ∈ ring.read size other bucket ∧ (other ≠ epoch → other % size = epoch % size → bucket ≠ route item) := by
  by_cases hplace : other % size = epoch % size ∧ bucket = route item
  · obtain ⟨hplace, rfl⟩ := hplace
    by_cases hepoch : other = epoch
    · subst hepoch
      rw [read_push_self]
      split
      · next hin =>
        refine ⟨fun h => Or.inr ⟨h, fun hne => absurd rfl hne⟩, ?_⟩
        rintro (⟨-, -, rfl⟩ | ⟨h, -⟩)
        · exact hin
        · exact h
      · simp [or_comm]
    · rw [read_push_place item hepoch hplace]
      simp [hepoch, hplace]
  · rw [read_push_other item hplace]
    constructor
    · exact fun h => Or.inr ⟨h, fun _ heq hbucket => hplace ⟨heq, hbucket⟩⟩
    · rintro (⟨rfl, rfl, -⟩ | ⟨h, -⟩)
      · exact absurd ⟨rfl, rfl⟩ hplace
      · exact h

theorem nodup_read_push {epoch other bucket : ℕ} {item : I} (h : ∀ e b, (ring.read size e b).Nodup) :
    ((ring.push size route epoch item).read size other bucket).Nodup := by
  by_cases hplace : other % size = epoch % size ∧ bucket = route item
  · obtain ⟨hplace, rfl⟩ := hplace
    by_cases hepoch : other = epoch
    · subst hepoch
      rw [read_push_self]
      split
      · exact h _ _
      · next hnot => exact List.nodup_append.2 ⟨h _ _, List.nodup_singleton _, by
          rintro i hi j hj rfl
          exact hnot (List.mem_singleton.1 hj ▸ hi)⟩
    · rw [read_push_place item hepoch hplace]
      exact List.nodup_nil
  · rw [read_push_other item hplace]
    exact h _ _

end

@[simp] theorem take_snd (epoch bucket : ℕ) : (ring.take size epoch bucket).2 = ring.read size epoch bucket := by
  rw [take]
  split
  · next h => exact h.symm
  · rfl

theorem read_take_self (epoch bucket : ℕ) : (ring.take size epoch bucket).1.read size epoch bucket = [] := by
  rw [take]
  split
  · next h => exact h
  · exact read_write_self _ _ _

theorem read_take_other {bucket' : ℕ} (h : ¬ (other = epoch ∧ bucket' = bucket)) :
    (ring.take size epoch bucket).1.read size other bucket' = ring.read size other bucket' := by
  rw [take]
  split
  · rfl
  next hitems =>
  obtain ⟨item, hitem⟩ := List.exists_mem_of_ne_nil _ hitems
  by_cases hplace : other % size = epoch % size ∧ bucket' = bucket
  · obtain ⟨hplace, rfl⟩ := hplace
    have hne : other ≠ epoch := fun heq => h ⟨heq, rfl⟩
    rw [read_write_place _ hne hplace, read_place hne hplace hitem]
  · exact read_write_other _ hplace

end RingQueues

end Quil.Schemes

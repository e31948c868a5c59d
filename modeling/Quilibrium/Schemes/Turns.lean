import Quilibrium.Schemes.Result

/-! Listing several queues IN TURNS under a shared budget. Each queue reads its own items by number, from `next` to
    `committed`; a round lists one item of every queue that has one, the first round whatever the budget, later rounds
    only below it; an item that cannot be read ends its queue. So each queue lists a run of its items from its own
    start, the first round serves every queue, and a queue is left unfinished only when the budget is used up. -/

namespace Quil.Schemes
open List

variable {K V ε : Type}

structure Queue (K : Type) where
  key : K
  next : ℕ
  committed : ℕ
deriving DecidableEq, Repr

/-- What was listed, and where a queue ended for want of an item. -/
structure Listing (K V : Type) where
  items : List (K × ℕ × V)
  missing : List (K × ℕ)
deriving DecidableEq, Repr

variable {k : K} {l : Listing K V} {start q : Queue K} {l' : Listing K V} {listed first : Bool}
  {qs qs' starts : List (Queue K)}

namespace Turns
variable (read : K → ℕ → Except ε (Option V))

/-- List a queue's next item; also whether there was one. -/
def visit (q : Queue K) (l : Listing K V) : Except ε (Queue K × Listing K V × Bool) := do
  match ← read q.key q.next with
  | none => return ({ q with next := q.committed }, { l with missing := l.missing ++ [(q.key, q.next)] }, false)
  | some v => return ({ q with next := q.next + 1 }, { l with items := l.items ++ [(q.key, q.next, v)] }, true)

variable (cap : ℕ)

/-- One round over the queues; also whether anything was listed. -/
def turn (first : Bool) : List (Queue K) → Listing K V → Except ε (List (Queue K) × Listing K V × Bool)
  | [], l => .ok ([], l, false)
  | q :: qs, l =>
    if q.next ≥ q.committed then do
      let (qs, l, listed) ← turn first qs l
      return (q :: qs, l, listed)
    else if first = false ∧ l.items.length ≥ cap then .ok (q :: qs, l, false)
    else do
      let (q, l, listed) ← visit read q l
      let (qs, l, more) ← turn first qs l
      return (q :: qs, l, listed || more)

/-- Rounds until one lists nothing or the budget is used up. -/
def rounds : (steps : ℕ) → (first : Bool) → List (Queue K) → Listing K V →
    Except ε (List (Queue K) × Listing K V)
  | 0, _, qs, l => .ok (qs, l)
  | steps + 1, first, qs, l => do
    let (qs, l, listed) ← turn read cap first qs l
    if listed = false ∨ l.items.length ≥ cap then return (qs, l) else rounds steps false qs l

/-- Items not listed yet. -/
def remaining (qs : List (Queue K)) : ℕ := (qs.map fun q => q.committed - q.next).sum

/-- Every round but the last lists an item, so there is one round more than items at most. -/
def listInTurns (qs : List (Queue K)) : Except ε (List (Queue K) × Listing K V) :=
  rounds read cap (remaining qs + 1) true qs ⟨[], []⟩

/-! ### Steps -/

section
variable {read cap} {q' : Queue K}

/-- A visit reads the next item and lists it, or ends the queue. -/
theorem visit_eq_ok (h : visit read q l = .ok (q', l', listed)) :
    (read q.key q.next = .ok none ∧ listed = false ∧ q' = { q with next := q.committed } ∧
      l' = { l with missing := l.missing ++ [(q.key, q.next)] }) ∨
    ∃ v, read q.key q.next = .ok (some v) ∧ listed = true ∧ q' = { q with next := q.next + 1 } ∧
      l' = { l with items := l.items ++ [(q.key, q.next, v)] } := by
  obtain ⟨found, hread, h⟩ := bind_ok h
  rcases found with _ | v
  · cases h
    exact .inl ⟨hread, rfl, rfl, rfl⟩
  cases h
  exact .inr ⟨v, hread, rfl, rfl, rfl⟩

/-- One queue's part of a round, and then the others'. -/
theorem turn_cons (h : turn read cap first (q :: qs) l = .ok (qs', l', listed)) :
    (q.next ≥ q.committed ∧ ∃ rest, turn read cap first qs l = .ok (rest, l', listed) ∧ qs' = q :: rest) ∨
    (q.next < q.committed ∧ first = false ∧ l.items.length ≥ cap ∧ qs' = q :: qs ∧ l' = l ∧ listed = false) ∨
    (q.next < q.committed ∧ (first = true ∨ l.items.length < cap) ∧ ∃ q' rest middle served more,
      visit read q l = .ok (q', middle, served) ∧ turn read cap first qs middle = .ok (rest, l', more) ∧
      qs' = q' :: rest ∧ listed = (served || more)) := by
  rw [turn] at h
  split at h
  · next hdone =>
    obtain ⟨⟨rest, last, found⟩, hrest, h⟩ := bind_ok h
    cases h
    exact .inl ⟨hdone, rest, hrest, rfl⟩
  next hopen =>
  split at h
  · next hfull =>
    cases h
    exact .inr (.inl ⟨Nat.lt_of_not_ge hopen, hfull.1, hfull.2, rfl, rfl, rfl⟩)
  next hroom =>
  obtain ⟨⟨q', middle, served⟩, hvisit, h⟩ := bind_ok h
  obtain ⟨⟨rest, last, more⟩, hrest, h⟩ := bind_ok h
  cases h
  refine .inr (.inr ⟨Nat.lt_of_not_ge hopen, ?_, q', rest, middle, served, more, hvisit, hrest, rfl, rfl⟩)
  cases first with
  | true => exact .inl rfl
  | false => exact .inr (Nat.lt_of_not_ge fun hge => hroom ⟨rfl, hge⟩)

theorem visit_key (h : visit read q l = .ok (q', l', listed)) : q'.key = q.key := by
  rcases visit_eq_ok h with ⟨-, -, rfl, -⟩ | ⟨v, -, -, rfl, -⟩ <;> rfl

section
variable (h : turn read cap first qs l = .ok (qs', l', listed))
include h

theorem turn_keys : qs'.map (·.key) = qs.map (·.key) := by
  induction qs generalizing qs' l listed with
  | nil =>
    cases h
    rfl
  | cons q qs ih =>
    rcases turn_cons h with ⟨-, rest, hrest, rfl⟩ | ⟨-, -, -, rfl, -⟩ | ⟨-, -, q', rest, middle, served, more, hvisit,
      hrest, rfl, -⟩
    · rw [map_cons, map_cons, ih hrest]
    · rfl
    · rw [map_cons, map_cons, ih hrest, visit_key hvisit]

/-- Listings only grow. -/
theorem turn_grows : l.items <+: l'.items ∧ l.missing <+: l'.missing := by
  induction qs generalizing qs' l listed with
  | nil =>
    cases h
    exact ⟨prefix_rfl, prefix_rfl⟩
  | cons q qs ih =>
    rcases turn_cons h with ⟨-, rest, hrest, -⟩ | ⟨-, -, -, -, rfl, -⟩ | ⟨-, -, q', rest, middle, served, more, hvisit,
      hrest, -⟩
    · exact ih hrest
    · exact ⟨prefix_rfl, prefix_rfl⟩
    obtain ⟨hitems, hmissing⟩ := ih hrest
    rcases visit_eq_ok hvisit with ⟨-, -, -, rfl⟩ | ⟨v, -, -, -, rfl⟩
    · exact ⟨hitems, (prefix_append _ _).trans hmissing⟩
    · exact ⟨(prefix_append _ _).trans hitems, hmissing⟩

/-- The first round lists at most one item a queue, a later one stops at the budget. -/
theorem turn_length : l'.items.length ≤ if first then l.items.length + qs.length else max cap l.items.length := by
  induction qs generalizing qs' l listed with
  | nil =>
    cases h
    cases first <;> simp
  | cons q qs ih =>
    rcases turn_cons h with ⟨-, rest, hrest, -⟩ | ⟨-, rfl, -, -, rfl, -⟩ | ⟨-, hroom, q', rest, middle, served, more,
      hvisit, hrest, -⟩
    · refine (ih hrest).trans ?_
      cases first with
      | true => simp
      | false => exact le_rfl
    · exact le_max_right _ _
    have hmiddle : middle.items.length ≤ l.items.length + 1 := by
      rcases visit_eq_ok hvisit with ⟨-, -, -, rfl⟩ | ⟨v, -, -, -, rfl⟩ <;> simp
    refine (ih hrest).trans ?_
    cases first with
    | true =>
      simp only [if_true, length_cons]
      omega
    | false =>
      have hlt : l.items.length < cap := hroom.resolve_left Bool.false_ne_true
      simp only [Bool.false_eq_true, if_false]
      omega

end

/-- A round that lists nothing and leaves budget finds every queue ended. -/
theorem turn_idle (h : turn read cap first qs l = .ok (qs', l', false)) (hcap : l'.items.length < cap) :
    ∀ q ∈ qs', q.committed ≤ q.next := by
  induction qs generalizing qs' l with
  | nil =>
    cases h
    exact fun q hq => absurd hq not_mem_nil
  | cons q qs ih =>
    rcases turn_cons h with ⟨hdone, rest, hrest, rfl⟩ | ⟨-, -, hfull, -, rfl, -⟩ |
      ⟨-, -, q', rest, middle, served, more, hvisit, hrest, rfl, hlisted⟩
    · exact forall_mem_cons.2 ⟨hdone, ih hrest⟩
    · omega
    obtain ⟨rfl, rfl⟩ := Bool.or_eq_false_iff.1 hlisted.symm
    rcases visit_eq_ok hvisit with ⟨-, -, rfl, -⟩ | ⟨v, -, hserved, -⟩
    · exact forall_mem_cons.2 ⟨le_rfl, ih hrest⟩
    · cases hserved

/-- A round that lists something leaves fewer items. -/
theorem turn_remaining (h : turn read cap first qs l = .ok (qs', l', listed)) :
    remaining qs' + (if listed then 1 else 0) ≤ remaining qs := by
  induction qs generalizing qs' l listed with
  | nil =>
    cases h
    simp
  | cons q qs ih =>
    have hcons : ∀ (x : Queue K) (xs : List (Queue K)), remaining (x :: xs) = (x.committed - x.next) + remaining xs :=
      fun x xs => by rw [remaining, map_cons, sum_cons, remaining]
    rcases turn_cons h with ⟨-, rest, hrest, rfl⟩ | ⟨-, -, -, rfl, -, rfl⟩ |
      ⟨hnext, -, q', rest, middle, served, more, hvisit, hrest, rfl, rfl⟩
    · have := ih hrest
      rw [hcons, hcons]
      omega
    · simp
    have hrest := ih hrest
    rw [hcons, hcons]
    rcases visit_eq_ok hvisit with ⟨-, rfl, rfl, -⟩ | ⟨v, -, rfl, rfl, -⟩
    · simp only [Bool.false_or]
      omega
    simp only [Bool.true_or, if_true]
    have : (if more = true then 1 else 0) ≤ 1 := by split <;> omega
    omega

end

/-! ### Progress -/

section
variable [DecidableEq K]

/-- The items listed of one queue. -/
def itemsOf (k : K) (l : Listing K V) : List (ℕ × V) :=
  l.items.filterMap fun item => if item.1 = k then some item.2 else none

/-- Where one queue ended for want of an item. -/
def missingOf (k : K) (l : Listing K V) : List ℕ :=
  l.missing.filterMap fun entry => if entry.1 = k then some entry.2 else none

theorem mem_filterMap_key {β : Type*} {entries : List (K × β)} {x : β} :
    x ∈ entries.filterMap (fun entry => if entry.1 = k then some entry.2 else none) ↔ (k, x) ∈ entries := by
  rw [mem_filterMap]
  constructor
  · rintro ⟨⟨k', x⟩, hx, heq⟩
    split at heq
    · next hk =>
      cases hk
      cases heq
      exact hx
    · cases heq
  · exact fun h => ⟨_, h, if_pos rfl⟩

theorem mem_itemsOf {n : ℕ} {v : V} : (n, v) ∈ itemsOf k l ↔ (k, n, v) ∈ l.items := mem_filterMap_key

theorem mem_missingOf {n : ℕ} : n ∈ missingOf k l ↔ (k, n) ∈ l.missing := mem_filterMap_key

/-- A queue's progress from its start: it listed a run of its items, and goes on behind it or ended there for want
    of an item. -/
structure Progress (start q : Queue K) (l : Listing K V) : Prop where
  key_eq : q.key = start.key
  committed_eq : q.committed = start.committed
  items : ∀ item ∈ itemsOf start.key l, read start.key item.1 = .ok (some item.2)
  run : ∃ n, (itemsOf start.key l).map Prod.fst = List.range' start.next n ∧ start.next + n ≤ start.committed ∧
    (missingOf start.key l = [] ∧ q.next = start.next + n ∨
      missingOf start.key l = [start.next + n] ∧ q.next = start.committed ∧ start.next + n < start.committed ∧
        read start.key (start.next + n) = .ok none)

variable {read cap}

/-- Only what is listed of the queue itself matters. -/
theorem Progress.congr (h : Progress read start q l) (hitems : itemsOf start.key l' = itemsOf start.key l)
    (hmissing : missingOf start.key l' = missingOf start.key l) : Progress read start q l' := by
  refine ⟨h.key_eq, h.committed_eq, ?_, ?_⟩
  · rw [hitems]
    exact h.items
  · rw [hitems, hmissing]
    exact h.run

theorem itemsOf_append (k k' : K) (n : ℕ) (v : V) (l : Listing K V) :
    itemsOf k { l with items := l.items ++ [(k', n, v)] } = itemsOf k l ++ if k' = k then [(n, v)] else [] := by
  rw [itemsOf, filterMap_append]
  split <;> simp [itemsOf, *]

theorem missingOf_append (k k' : K) (n : ℕ) (l : Listing K V) :
    missingOf k { l with missing := l.missing ++ [(k', n)] } = missingOf k l ++ if k' = k then [n] else [] := by
  rw [missingOf, filterMap_append]
  split <;> simp [missingOf, *]

theorem Progress.visit {q' : Queue K} (h : Progress read start q l) (hnext : q.next < q.committed)
    (hvisit : visit read q l = .ok (q', l', listed)) : Progress read start q' l' := by
  obtain ⟨n, hrun, hle, hend⟩ := h.run
  have hcommitted := h.committed_eq
  obtain ⟨hnone, hq⟩ : missingOf start.key l = [] ∧ q.next = start.next + n := by
    rcases hend with hend | ⟨-, hq, -⟩
    · exact hend
    · omega
  rcases visit_eq_ok hvisit with ⟨hread, -, rfl, rfl⟩ | ⟨v, hread, -, rfl, rfl⟩
  · rw [h.key_eq, hq] at hread
    refine ⟨h.key_eq, h.committed_eq, h.items, n, hrun, hle, .inr ⟨?_, h.committed_eq, by omega, hread⟩⟩
    rw [missingOf_append, hnone, if_pos h.key_eq, hq]
    rfl
  have hitems := itemsOf_append start.key q.key q.next v l
  rw [if_pos h.key_eq] at hitems
  refine ⟨h.key_eq, h.committed_eq, fun item hitem => ?_, n + 1, ?_, by omega, .inl ⟨hnone, ?_⟩⟩
  · rw [hitems, mem_append, mem_singleton] at hitem
    rcases hitem with hitem | rfl
    · exact h.items item hitem
    · rwa [← h.key_eq]
  · rw [hitems, map_append, hrun, range'_concat, hq]
    simp
  · dsimp only
    omega

/-- A visit adds to its own queue's listing only. -/
theorem visit_other {q' : Queue K} (h : visit read q l = .ok (q', l', listed)) (hk : q.key ≠ k) :
    itemsOf k l' = itemsOf k l ∧ missingOf k l' = missingOf k l := by
  rcases visit_eq_ok h with ⟨-, -, -, rfl⟩ | ⟨v, -, -, -, rfl⟩
  · rw [missingOf_append, if_neg hk, append_nil]
    exact ⟨rfl, rfl⟩
  · rw [itemsOf_append, if_neg hk, append_nil]
    exact ⟨rfl, rfl⟩

/-- A round adds to its own queues' listings only. -/
theorem turn_other (h : turn read cap first qs l = .ok (qs', l', listed)) (hk : k ∉ qs.map (·.key)) :
    itemsOf k l' = itemsOf k l ∧ missingOf k l' = missingOf k l := by
  induction qs generalizing qs' l listed with
  | nil =>
    cases h
    exact ⟨rfl, rfl⟩
  | cons q qs ih =>
    rw [map_cons, mem_cons, not_or] at hk
    rcases turn_cons h with ⟨-, rest, hrest, -⟩ | ⟨-, -, -, -, rfl, -⟩ | ⟨-, -, q', rest, middle, served, more, hvisit,
      hrest, -⟩
    · exact ih hrest hk.2
    · exact ⟨rfl, rfl⟩
    obtain ⟨hitems, hmissing⟩ := ih hrest hk.2
    obtain ⟨hitems', hmissing'⟩ := visit_other hvisit (Ne.symm hk.1)
    exact ⟨hitems.trans hitems', hmissing.trans hmissing'⟩

/-- Every queue keeps its progress through a round. -/
theorem progress_turn (hkeys : (qs.map (·.key)).Nodup) (hqs : List.Forall₂ (Progress read · · l) starts qs)
    (h : turn read cap first qs l = .ok (qs', l', listed)) : List.Forall₂ (Progress read · · l') starts qs' := by
  induction qs generalizing starts qs' l listed with
  | nil =>
    cases hqs
    cases h
    exact .nil
  | cons q qs ih =>
    cases hqs with
    | cons hq hqs =>
    rename_i start starts
    rw [map_cons, nodup_cons] at hkeys
    have hown : start.key ∉ qs.map (·.key) := hq.key_eq ▸ hkeys.1
    rcases turn_cons h with ⟨-, rest, hrest, rfl⟩ | ⟨-, -, -, rfl, rfl, -⟩ |
      ⟨hnext, -, q', rest, middle, served, more, hvisit, hrest, rfl, -⟩
    · obtain ⟨hitems, hmissing⟩ := turn_other hrest hown
      exact .cons (hq.congr hitems hmissing) (ih hkeys.2 hqs hrest)
    · exact .cons hq hqs
    obtain ⟨hitems, hmissing⟩ := turn_other hrest hown
    refine .cons ((hq.visit hnext hvisit).congr hitems hmissing) (ih hkeys.2 ?_ hrest)
    rw [forall₂_iff_zip] at hqs ⊢
    refine ⟨hqs.1, fun {a b} hab => ?_⟩
    have hb : q.key ≠ a.key := fun heq => hkeys.1 (by
      rw [heq, ← (hqs.2 hab).key_eq]
      exact mem_map_of_mem (of_mem_zip hab).2)
    obtain ⟨hitems, hmissing⟩ := visit_other hvisit hb
    exact (hqs.2 hab).congr hitems hmissing

/-- Something is known of the queue: an item, or that its next is missing. -/
def Served (k : K) (l : Listing K V) : Prop := itemsOf k l ≠ [] ∨ missingOf k l ≠ []

theorem Served.grows (h : Served k l) (hitems : l.items <+: l'.items)
    (hmissing : l.missing <+: l'.missing) : Served k l' := by
  obtain ⟨items, hitems⟩ := hitems
  obtain ⟨missing, hmissing⟩ := hmissing
  rw [Served, itemsOf, missingOf, ← hitems, ← hmissing, filterMap_append, filterMap_append]
  exact h.imp (fun h => append_ne_nil_of_left_ne_nil h _) fun h => append_ne_nil_of_left_ne_nil h _

/-- The first round serves every queue with an item left. -/
theorem served_turn (h : turn read cap true qs l = .ok (qs', l', listed)) :
    ∀ q ∈ qs, q.next < q.committed → Served q.key l' := by
  induction qs generalizing qs' l listed with
  | nil => exact fun q hq => absurd hq not_mem_nil
  | cons q qs ih =>
    rcases turn_cons h with ⟨hdone, rest, hrest, -⟩ | ⟨-, hfalse, -⟩ | ⟨-, -, q', rest, middle, served, more, hvisit,
      hrest, -⟩
    · exact forall_mem_cons.2 ⟨fun hnext => absurd hdone (not_le.2 hnext), ih hrest⟩
    · cases hfalse
    refine forall_mem_cons.2 ⟨fun _ => ?_, ih hrest⟩
    obtain ⟨hitems, hmissing⟩ := turn_grows hrest
    refine Served.grows ?_ hitems hmissing
    rcases visit_eq_ok hvisit with ⟨-, -, -, rfl⟩ | ⟨v, -, -, -, rfl⟩
    · right
      rw [missingOf_append, if_pos rfl]
      exact append_ne_nil_of_right_ne_nil _ (cons_ne_nil _ _)
    left
    rw [itemsOf_append, if_pos rfl]
    exact append_ne_nil_of_right_ne_nil _ (cons_ne_nil _ _)

/-! ### The whole listing -/

/-- What holds of the queues and the listing between rounds. -/
structure Listed (read : K → ℕ → Except ε (Option V)) (cap : ℕ) (starts qs : List (Queue K)) (l : Listing K V) :
    Prop where
  progress : List.Forall₂ (Progress read · · l) starts qs
  keys : qs.map (·.key) = starts.map (·.key)
  others : ∀ k ∉ starts.map (·.key), itemsOf k l = [] ∧ missingOf k l = []
  length_le : l.items.length ≤ max cap starts.length

theorem Listed.of_start (h : Listed read cap starts qs l) (hstart : start ∈ starts) :
    ∃ q ∈ qs, Progress read start q l := by
  obtain ⟨i, hi, rfl⟩ := getElem_of_mem hstart
  have hi' : i < qs.length := h.progress.length_eq ▸ hi
  exact ⟨qs[i], getElem_mem hi', h.progress.get hi hi'⟩

theorem Listed.of_end (h : Listed read cap starts qs l) (hq : q ∈ qs) :
    ∃ start ∈ starts, Progress read start q l := by
  obtain ⟨i, hi, rfl⟩ := getElem_of_mem hq
  have hi' : i < starts.length := h.progress.length_eq ▸ hi
  exact ⟨starts[i], getElem_mem hi', h.progress.get hi' hi⟩

/-- A queue is unfinished exactly when one of its items is neither listed nor beyond a missing one. -/
theorem Progress.unfinished_iff (h : Progress read start q l) :
    q.next < q.committed ↔ ∃ n, start.next ≤ n ∧ n < start.committed ∧
      n ∉ (itemsOf start.key l).map Prod.fst ∧ ∀ m ≤ n, m ∉ missingOf start.key l := by
  obtain ⟨n, hrun, hle, hend⟩ := h.run
  rw [hrun, h.committed_eq]
  simp only [mem_range'_1, not_and, not_lt]
  rcases hend with ⟨hnone, hq⟩ | ⟨hmissing, hq, hlt, -⟩
  · rw [hnone, hq]
    refine ⟨fun hlt => ⟨start.next + n, by omega, hlt, fun _ => le_rfl, fun _ _ => not_mem_nil⟩, ?_⟩
    rintro ⟨m, hm, hm', hnot, -⟩
    exact (hnot hm).trans_lt hm'
  rw [hmissing, hq]
  refine ⟨fun hlt => absurd hlt (lt_irrefl _), ?_⟩
  rintro ⟨m, hm, -, hnot, hnever⟩
  exact absurd (mem_singleton_self _) (hnever _ (hnot hm))

theorem Listed.turn
    (h : Listed read cap starts qs l) (hkeys : (starts.map (·.key)).Nodup) (hfirst : first = true → l.items = [])
    (hturn : turn read cap first qs l = .ok (qs', l', listed)) : Listed read cap starts qs' l' := by
  have hqs : (qs.map (·.key)).Nodup := h.keys ▸ hkeys
  refine ⟨progress_turn hqs h.progress hturn, (turn_keys hturn).trans h.keys, fun k hk => ?_, ?_⟩
  · obtain ⟨hitems, hmissing⟩ := turn_other hturn (h.keys ▸ hk)
    obtain ⟨hitems', hmissing'⟩ := h.others k hk
    exact ⟨hitems.trans hitems', hmissing.trans hmissing'⟩
  have hlength := turn_length hturn
  have hcount : qs.length = starts.length := h.progress.length_eq.symm
  cases first with
  | true =>
    rw [if_pos rfl, hfirst rfl, hcount] at hlength
    simp only [length_nil, zero_add] at hlength
    omega
  | false =>
    have := h.length_le
    simp only [Bool.false_eq_true, if_false] at hlength
    omega

/-- Enough rounds end with every queue served, and unfinished only when the budget is used up. -/
theorem Listed.rounds {steps : ℕ}
    (h : Listed read cap starts qs l) (hkeys : (starts.map (·.key)).Nodup) (hfirst : first = true → l.items = [])
    (hserved : first = true → qs = starts) (hall : first = false → ∀ q ∈ starts, q.next < q.committed → Served q.key l)
    (hsteps : remaining qs < steps) (hrounds : rounds read cap steps first qs l = .ok (qs', l')) :
    Listed read cap starts qs' l' ∧ (∀ q ∈ starts, q.next < q.committed → Served q.key l') ∧
      (l'.items.length < cap → ∀ q ∈ qs', q.committed ≤ q.next) := by
  induction steps generalizing first qs l with
  | zero => omega
  | succ steps ih =>
    obtain ⟨⟨next, middle, listed⟩, hturn, hrounds⟩ := bind_ok hrounds
    have hnext := h.turn hkeys hfirst hturn
    have hnow : ∀ q ∈ starts, q.next < q.committed → Served q.key middle := by
      intro q hq hopen
      obtain ⟨hitems, hmissing⟩ := turn_grows hturn
      cases first with
      | true =>
        rw [hserved rfl] at hturn
        exact served_turn hturn q hq hopen
      | false => exact (hall rfl q hq hopen).grows hitems hmissing
    dsimp only at hrounds
    split at hrounds
    · next hstop =>
      cases hrounds
      refine ⟨hnext, hnow, fun hcap => ?_⟩
      obtain rfl := hstop.resolve_right (not_le.2 hcap)
      exact turn_idle hturn hcap
    next hgo =>
    have hlisted : listed = true := by simpa using (not_or.1 hgo).1
    have hfewer := turn_remaining hturn
    rw [hlisted, if_pos rfl] at hfewer
    exact ih hnext (fun h => by cases h) (fun h => by cases h) (fun _ => hnow) (by omega) hrounds

/-- Listing in turns, from queues that all have an item left. -/
theorem listInTurns_spec (hkeys : (starts.map (·.key)).Nodup)
    (hopen : ∀ q ∈ starts, q.next < q.committed) (h : listInTurns read cap starts = .ok (qs, l)) :
    Listed read cap starts qs l ∧ (∀ q ∈ starts, Served q.key l) ∧
      (l.items.length < cap → ∀ q ∈ qs, q.committed ≤ q.next) := by
  have hstart : Listed read cap starts starts (⟨[], []⟩ : Listing K V) := by
    refine ⟨forall₂_same.2 fun q hq => ?_, rfl, fun k _ => ⟨rfl, rfl⟩, zero_le⟩
    exact ⟨rfl, rfl, fun item hitem => absurd hitem not_mem_nil, 0, rfl, (hopen q hq).le, .inl ⟨rfl, rfl⟩⟩
  obtain ⟨hlisted, hserved, hidle⟩ := hstart.rounds hkeys (fun _ => rfl) (fun _ => rfl) (fun h => by cases h)
    (Nat.lt_succ_self _) h
  exact ⟨hlisted, fun q hq => hserved q hq (hopen q hq), hidle⟩

end

/-! ### Reading never fails where items can be read -/

section
variable {read cap}

theorem turn_ok (cap : ℕ) (first : Bool)
    (h : ∀ q ∈ qs, ∀ n, q.next ≤ n → n < q.committed → ∃ found, read q.key n = .ok found) (l : Listing K V) :
    ∃ qs' l' listed, turn read cap first qs l = .ok (qs', l', listed) ∧
      ∀ q ∈ qs', ∀ n, q.next ≤ n → n < q.committed → ∃ found, read q.key n = .ok found := by
  induction qs generalizing l with
  | nil => exact ⟨[], l, false, rfl, h⟩
  | cons q qs ih =>
    obtain ⟨hq, hqs⟩ := forall_mem_cons.1 h
    rw [turn]
    split
    · obtain ⟨rest, l', listed, hrest, hread⟩ := ih hqs l
      rw [hrest]
      exact ⟨q :: rest, l', listed, rfl, forall_mem_cons.2 ⟨hq, hread⟩⟩
    next hopen =>
    split
    · exact ⟨q :: qs, l, false, rfl, h⟩
    obtain ⟨found, hfound⟩ := hq q.next le_rfl (Nat.lt_of_not_ge hopen)
    rw [visit, hfound, ok_bind]
    rcases found with _ | v
    · obtain ⟨rest, l', listed, hrest, hread⟩ := ih hqs { l with missing := l.missing ++ [(q.key, q.next)] }
      simp only [pure_eq_ok, ok_bind, hrest]
      exact ⟨_, l', _, rfl, forall_mem_cons.2 ⟨fun n hn hn' => absurd hn (not_le.2 hn'), hread⟩⟩
    obtain ⟨rest, l', listed, hrest, hread⟩ := ih hqs { l with items := l.items ++ [(q.key, q.next, v)] }
    simp only [pure_eq_ok, ok_bind, hrest]
    exact ⟨_, l', _, rfl, forall_mem_cons.2 ⟨fun n hn hn' => hq n (Nat.le_of_succ_le hn) hn', hread⟩⟩

theorem listInTurns_ok (cap : ℕ)
    (h : ∀ q ∈ qs, ∀ n, q.next ≤ n → n < q.committed → ∃ found, read q.key n = .ok found) :
    ∃ qs' l, listInTurns read cap qs = .ok (qs', l) := by
  have hrounds : ∀ (steps : ℕ) (first : Bool) (qs : List (Queue K)) (l : Listing K V),
      (∀ q ∈ qs, ∀ n, q.next ≤ n → n < q.committed → ∃ found, read q.key n = .ok found) →
      ∃ qs' l', rounds read cap steps first qs l = .ok (qs', l') := by
    intro steps
    induction steps with
    | zero => exact fun _ qs l _ => ⟨qs, l, rfl⟩
    | succ steps ih =>
      intro first qs l h
      obtain ⟨next, middle, listed, hturn, hread⟩ := turn_ok cap first h l
      rw [rounds, hturn, ok_bind]
      dsimp only
      split
      · exact ⟨next, middle, rfl⟩
      · exact ih false next middle hread
  exact hrounds _ _ _ _ h

end

end Turns
end Quil.Schemes

import Quilibrium.Provers.SenioritySuccession

/-! Merging keys mints no seniority. A consumed key COUNTS FOR one prover at a time. What an accepted operation says
    about the state is collected once, in `Accepted`, and what it does to the markers and the balances is read off
    from that. -/

namespace Quil.SenioritySuccession
open Schemes RetroLedger List Option Function TargetMarkers SeniorityMergePlan

variable {σ : Type} (net : Network σ)

/-! ### Whom a key counts for -/

/-- A key's markers all name one prover: the key counts for it. -/
def Holds (s : GlobalState) (key : PublicKey) (Y : Address) : Prop :=
  (TargetMarkers.read s key).owners ≠ [] ∧ ∀ o ∈ (TargetMarkers.read s key).owners, o = .prover Y

/-- A key no operation consumed. -/
def Unspent (s : GlobalState) (key : PublicKey) : Prop := (TargetMarkers.read s key).owners = []

variable {s : GlobalState} {X Y : Address}

theorem Holds.eq {key : PublicKey} (hX : Holds s key X) (hY : Holds s key Y) : X = Y := by
  obtain ⟨o, ho⟩ := exists_mem_of_ne_nil _ hX.1
  have := (hX.2 o ho).symm.trans (hY.2 o ho)
  exact MarkerOwner.prover.inj this

theorem standing_fresh_iff {m : TargetMarkers} : m.standing Y = .fresh ↔ m.owners = [] := by
  rcases m with ⟨_ | _ | A, _ | _ | B⟩ <;>
    simp only [standing, owners, toList_none, toList_some, nil_append, append_nil, singleton_append, standingLoop] <;>
    grind

theorem standing_other_iff {m : TargetMarkers} :
    m.standing Y = .other X ↔ X ≠ Y ∧ m.owners ≠ [] ∧ ∀ o ∈ m.owners, o = .prover X := by
  rcases m with ⟨_ | _ | A, _ | _ | B⟩ <;>
    simp only [standing, owners, toList_none, toList_some, nil_append, append_nil, singleton_append, standingLoop,
      forall_mem_cons, not_mem_nil] <;>
    grind

/-! ### What the mode says about the targets -/

variable {ms : List TargetMarkers}

theorem modeLoop_spec {p p' : Option Address} {f f' : Bool} (h : modeLoop Y ms p f = .ok (p', f')) :
    (f' = false → f = false ∧ ∀ m ∈ ms, m.standing Y ≠ .fresh) ∧
      (∀ X, p = some X → p' = some X) ∧ (∀ m ∈ ms, ∀ Z, m.standing Y = .other Z → p' = some Z) ∧
      (∀ X, p' = some X → p = some X ∨ ∃ m ∈ ms, m.standing Y = .other X) := by
  induction ms generalizing p f with
  | nil =>
    obtain ⟨rfl, rfl⟩ : p = p' ∧ f = f' := by simpa [modeLoop] using h
    simp
  | cons m ms ih =>
    simp only [forall_mem_cons]
    have hlater : ∀ X, (∃ m' ∈ ms, m'.standing Y = .other X) → ∃ m' ∈ m :: ms, m'.standing Y = .other X :=
      fun X ⟨m', hm', hX⟩ => ⟨m', mem_cons_of_mem _ hm', hX⟩
    rw [modeLoop] at h
    cases hm : m.standing Y with
    | fresh =>
      rw [hm] at h
      obtain ⟨hf, hp, hall, hex⟩ := ih h
      exact ⟨fun hf' => absurd (hf hf').1 (by simp), hp, ⟨by simp, hall⟩, fun X hX => (hex X hX).imp_right (hlater X)⟩
    | own | unusable _ =>
      rw [hm] at h
      obtain ⟨hf, hp, hall, hex⟩ := ih h
      exact ⟨fun hf' => ⟨(hf hf').1, by simp, (hf hf').2⟩, hp, ⟨by simp, hall⟩,
        fun X hX => (hex X hX).imp_right (hlater X)⟩
    | other Z =>
      rw [hm] at h
      rcases p with _ | seen
      · obtain ⟨hf, hp, hall, hex⟩ := ih h
        refine ⟨fun hf' => ⟨(hf hf').1, by simp, (hf hf').2⟩, by simp,
          ⟨fun W hW => by cases hW; exact hp Z rfl, hall⟩, fun X hX => .inr ?_⟩
        rcases hex X hX with hX | hX
        · exact ⟨m, mem_cons_self, by rw [hm, some.inj hX]⟩
        · exact hlater X hX
      dsimp only at h
      split_ifs at h with hseen
      obtain ⟨hf, hp, hall, hex⟩ := ih h
      exact ⟨fun hf' => ⟨(hf hf').1, by simp, (hf hf').2⟩, hp,
        ⟨fun W hW => by cases hW; exact hseen ▸ hp seen rfl, hall⟩,
        fun X hX => (hex X hX).imp_right (hlater X)⟩

/-- A merge names no key that counts for another prover. -/
theorem mode_merge (h : modeFromMarkers Y ms = .ok .merge) : ∀ m ∈ ms, ∀ Z, m.standing Y ≠ .other Z := by
  obtain ⟨⟨p, f⟩, hloop, h⟩ := bind_ok h
  cases p with
  | none => exact fun m hm Z hZ => nomatch (modeLoop_spec hloop).2.2.1 m hm Z hZ
  | some X => cases f <;> cases h

/-- A succession names no unspent key, keys of one other prover only, and at least one of those. -/
theorem mode_succession (h : modeFromMarkers Y ms = .ok (.succession X)) :
    (∀ m ∈ ms, m.standing Y ≠ .fresh) ∧ (∀ m ∈ ms, ∀ Z, m.standing Y = .other Z → Z = X) ∧
      ∃ m ∈ ms, m.standing Y = .other X := by
  obtain ⟨⟨p, f⟩, hloop, h⟩ := bind_ok h
  rcases p with _ | X'
  · cases f <;> cases h
  cases f with
  | true => cases h
  | false =>
    cases h
    obtain ⟨hf, -, hall, hex⟩ := modeLoop_spec hloop
    exact ⟨(hf rfl).2, fun m hm Z hZ => (some.inj (hall m hm Z hZ)).symm, (hex X rfl).resolve_left (by simp)⟩

theorem mode_ne_legacy : modeFromMarkers Y ms ≠ .ok .legacy := by
  intro h
  obtain ⟨⟨p, f⟩, -, h⟩ := bind_ok h
  cases p <;> cases f <;> cases h

/-! ### Sorting the targets -/

variable {k : PublicKey}

theorem mem_others {keys : List PublicKey} :
    k ∈ (sortTargets s Y keys).others ↔ k ∈ keys ∧ ((read s k).standing Y = .fresh ∨
      ∃ X, (read s k).standing Y = .other X) := by
  induction keys with
  | nil => simp [sortTargets]
  | cons key rest ih =>
    simp only [sortTargets]
    cases hkey : (read s key).standing Y <;>
      simp only [ih, mem_cons] <;> grind

/-- The markers an operation writes: for each key it takes, its merge marker, and its join marker if it has one. -/
theorem mem_writes {keys : List PublicKey} {a : SpentAddress} : a ∈ (sortTargets s Y keys).writes ↔
      ∃ k ∈ (sortTargets s Y keys).others,
        a = .seniorityMerge k ∨ (a = .joinMerge k ∧ (s.joinMarkers k).isSome = true) := by
  induction keys with
  | nil => simp [sortTargets]
  | cons key rest ih =>
    have hjoin : (read s key).join = s.joinMarkers key := rfl
    simp only [sortTargets]
    cases hkey : (read s key).standing Y with
    | own => exact ih
    | unusable _ => exact ih
    | fresh | other X => simp only [mem_append, mem_cons, ih, hjoin]; grind

/-! ### What an accepted operation does -/

/-- A prover's seniority; 0 without a vertex. -/
def seniorityOf (s : GlobalState) (a : Address) : ℕ :=
  match s.provers a with
  | some tree => tree.retro.seniority
  | none => 0

variable {plan : SeniorityMergePlan}

namespace SeniorityMergePlan

/-- The keys a plan takes: a merge consumes them, a succession moves them. -/
def keys (plan : SeniorityMergePlan) : List PublicKey :=
  plan.markers.filterMap fun a =>
    match a with
    | .seniorityMerge key => some key
    | .joinMerge _ => none

theorem mem_keys : k ∈ plan.keys ↔ .seniorityMerge k ∈ plan.markers := by
  simp only [keys, mem_filterMap]
  constructor
  · rintro ⟨a | a, ha, h⟩
    · cases h
    · cases h
      exact ha
  · exact fun h => ⟨_, h, rfl⟩

/-- What the plan does to the submitter's balance, and in a succession to the predecessor's. -/
inductive Balances (net : Network σ) (s : GlobalState) (plan : SeniorityMergePlan) (sub : Submitter) : Prop
  | merge (mode : plan.mode = .merge) (none : plan.predecessor = none)
      (credit : plan.successorTree.retro.seniority ≤
        sub.tree.retro.seniority + ∑ k ∈ plan.keys.toFinset, worth net.valuation k)
  | succession (X : Address) (before after : ProverVertex) (mode : plan.mode = .succession X)
      (vertex : s.provers X = some before) (written : plan.predecessor = some (X, after))
      (held : after.retro.seniority ≤ before.retro.seniority)
      (conserved : plan.successorTree.retro.seniority + after.retro.seniority ≤
        sub.tree.retro.seniority + before.retro.seniority)

end SeniorityMergePlan

/-- An operation is accepted with a plan, for a submitter. -/
structure Accepted (op : ProverSeniorityMerge σ) (frame : ℕ) (s : GlobalState)
    (plan : SeniorityMergePlan) (sub : Submitter) : Prop where
  vertex : s.provers sub.address = some sub.tree
  successor : plan.successor = sub.address
  signed : ∃ sig, op.publicKeySignature = some sig ∧ sig.address = sub.address.1
  timely : frame ≤ saturatingAdd op.frameNumber 10
  named : op.mergeTargets ≠ []
  mode : modeFromMarkers sub.address
    ((op.mergeTargets.map (·.proverPublicKey)).map (TargetMarkers.read s)) = .ok plan.mode
  consents : verifySeniorityMergeConsents net sub.pubkey op.frameNumber plan.mode op.mergeTargets = .ok true
  markers : plan.markers =
    (sortTargets s sub.address (op.mergeTargets.map (·.proverPublicKey))).writes
  taken : plan.mode = .merge → plan.keys ≠ []
  balances : plan.Balances net s sub

variable {op : ProverSeniorityMerge σ} {frame : ℕ}

theorem seniorityMergeSigner_timely {tree : ProverVertex} {pubkey : Option PublicKey}
    (h : seniorityMergeSigner net op tree frame = .ok pubkey) : frame ≤ saturatingAdd op.frameNumber 10 := by
  unfold seniorityMergeSigner at h
  split at h
  · cases h
  split at h
  · cases h
  · split_ifs at h with hlen hold
    exact not_lt.1 hold

variable {sub : Submitter}

theorem admitSubmitter_ok (h : admitSubmitter net op frame s = .ok sub) : s.provers sub.address = some sub.tree ∧
      (∃ sig, op.publicKeySignature = some sig ∧ sig.address = sub.address.1) ∧
      frame ≤ saturatingAdd op.frameNumber 10 ∧ op.mergeTargets ≠ [] := by
  unfold admitSubmitter at h
  split_ifs at h with hempty
  rcases hsig : op.publicKeySignature with _ | sig
  · rw [hsig] at h; cases h
  rw [hsig] at h
  dsimp only at h
  split_ifs at h with hlen
  rcases htree : s.provers ⟨sig.address, hlen⟩ with _ | tree
  · rw [htree] at h; cases h
  rw [htree] at h
  dsimp only at h
  split_ifs at h
  obtain ⟨_ | pubkey, hkey, h⟩ := bind_ok h
  · cases h
  obtain ⟨_ | _, -, h⟩ := bind_ok h
  · cases h
  cases h
  exact ⟨htree, ⟨sig, rfl, rfl⟩, seniorityMergeSigner_timely net hkey, by simpa using hempty⟩

theorem read_ok {a : Address} {p : PredecessorState} (h : PredecessorState.read net s a = .ok (some p)) :
    ∃ tree, s.provers a = some tree ∧ p.retro = tree.retro := by
  unfold PredecessorState.read at h
  rcases htree : s.provers a with _ | tree
  · rw [htree] at h; cases h
  rw [htree] at h
  dsimp only at h
  split_ifs at h
  · cases h
  obtain ⟨linked, -, h⟩ := bind_ok h
  cases h
  exact ⟨tree, rfl, rfl⟩

/-- The keys of a plan whose markers are those of the sorted targets. -/
theorem keys_iff_others {keys : List PublicKey} (h : plan.markers = (sortTargets s Y keys).writes) (k : PublicKey) :
    k ∈ plan.keys ↔ k ∈ (sortTargets s Y keys).others := by
  rw [SeniorityMergePlan.mem_keys, h, mem_writes]
  constructor
  · rintro ⟨k', hk', hk | ⟨hk, -⟩⟩
    · rwa [SpentAddress.seniorityMerge.inj hk]
    · cases hk
  · exact fun hk => ⟨k, hk, .inl rfl⟩

theorem planMerge_ok {keys : List PublicKey}
    (h : planMerge net sub (sortTargets s sub.address keys) = .ok (some plan)) :
    plan.mode = .merge ∧ plan.successor = sub.address ∧
      plan.markers = (sortTargets s sub.address keys).writes ∧ plan.keys ≠ [] ∧ plan.Balances net s sub := by
  unfold planMerge at h
  split_ifs at h with hempty
  dsimp only at h
  split_ifs at h
  have hplan := some.inj (Except.ok.inj h)
  have hmarkers : plan.markers = (sortTargets s sub.address keys).writes := by rw [← hplan]
  have hkeys := keys_iff_others hmarkers
  refine ⟨by rw [← hplan], by rw [← hplan], hmarkers, ?_, .merge (by rw [← hplan]) (by rw [← hplan]) ?_⟩
  · obtain ⟨k, hk⟩ := exists_mem_of_ne_nil _ (fun h => hempty (isEmpty_iff.2 h))
    exact ne_nil_of_mem ((hkeys k).2 hk)
  rw [← hplan]
  refine (saturatingAdd_le _ _).trans (Nat.add_le_add_left ((creditRetro_le ..).trans (le_of_eq ?_)) _)
  rw [hplan]
  exact Finset.sum_congr (Finset.ext fun k => by simp [hkeys k]) fun _ _ => rfl

theorem planSuccession_ok {keys : List PublicKey}
    (h : planSuccession net s frame sub X (sortTargets s sub.address keys) = .ok (some plan)) :
    plan.mode = .succession X ∧ plan.successor = sub.address ∧
      plan.markers = (sortTargets s sub.address keys).writes ∧ plan.Balances net s sub := by
  obtain ⟨preview, hpreview, h⟩ := bind_ok h
  split_ifs at h with hblockers
  rcases htree : s.provers X with _ | tree
  · rw [htree] at h; cases h
  rw [htree] at h
  cases h
  -- nothing blocks it, so the amounts are those of the predecessor's record
  obtain ⟨_ | p, hread, hpreview⟩ := bind_ok hpreview
  · cases hpreview
    simp at hblockers
  obtain ⟨start, -, hpreview⟩ := bind_ok hpreview
  cases hpreview
  obtain ⟨tree', htree', hretro⟩ := read_ok net hread
  cases htree.symm.trans htree'
  rw [hretro]
  exact ⟨rfl, rfl, rfl, .succession X tree _ rfl htree rfl (Nat.sub_le _ _)
    (amounts_conserve net.valuation tree.retro sub.tree.retro _ _ _ _ _)⟩

/-- Everything an accepted operation says about the state it is accepted in. -/
theorem planSeniorityMerge_ok (h : planSeniorityMerge net op frame s = .ok (some plan)) :
    ∃ sub, Accepted net op frame s plan sub := by
  unfold planSeniorityMerge at h
  split_ifs at h
  · cases h
  obtain ⟨sub, hsub, h⟩ := bind_ok h
  obtain ⟨hvertex, hsigned, htimely, hnamed⟩ := admitSubmitter_ok net hsub
  obtain ⟨mode, hmode, h⟩ := bind_ok h
  obtain ⟨_ | _, hconsents, h⟩ := bind_ok h
  · cases h
  refine ⟨sub, ?_⟩
  cases mode with
  | legacy => exact absurd hmode mode_ne_legacy
  | merge =>
    obtain ⟨hM, hsucc, hmarkers, htaken, hbal⟩ := planMerge_ok net h
    rw [← hM] at hmode hconsents
    exact ⟨hvertex, hsucc, hsigned, htimely, hnamed, hmode, hconsents, hmarkers, fun _ => htaken, hbal⟩
  | succession X =>
    obtain ⟨hX, hsucc, hmarkers, hbal⟩ := planSuccession_ok net h
    rw [← hX] at hmode hconsents
    exact ⟨hvertex, hsucc, hsigned, htimely, hnamed, hmode, hconsents, hmarkers,
      fun hM => absurd (hX.symm.trans hM) (by simp), hbal⟩

/-! ### The state after it -/

theorem foldl_setMarker_provers (Y : Address) (markers : List SpentAddress) (s : GlobalState) :
    (markers.foldl (setMarker Y) s).provers = s.provers := by
  induction markers generalizing s with
  | nil => rfl
  | cons a markers ih => cases a <;> exact ih _

theorem foldl_setMarker (Y : Address) (markers : List SpentAddress) (s : GlobalState) (k : PublicKey) :
    (markers.foldl (setMarker Y) s).joinMarkers k =
      (if .joinMerge k ∈ markers then some (.prover Y) else s.joinMarkers k) ∧
    (markers.foldl (setMarker Y) s).seniorityMarkers k =
      if .seniorityMerge k ∈ markers then some (.prover Y) else s.seniorityMarkers k := by
  induction markers generalizing s with
  | nil => exact ⟨rfl, rfl⟩
  | cons a markers ih =>
    rw [foldl_cons, (ih _).1, (ih _).2]
    rcases a with k' | k' <;> rcases eq_or_ne k k' with rfl | hne
    · simp [setMarker]
    · simp [setMarker, hne]
    · simp [setMarker]
    · simp [setMarker, hne]

theorem apply_joinMarkers (plan : SeniorityMergePlan) (s : GlobalState) (k : PublicKey) :
    (plan.apply s).joinMarkers k =
      if .joinMerge k ∈ plan.markers then some (.prover plan.successor) else s.joinMarkers k := by
  rw [apply, (foldl_setMarker ..).1]
  split_ifs
  · rfl
  · rcases plan.predecessor with _ | ⟨X, tree⟩ <;> rfl

theorem apply_seniorityMarkers (plan : SeniorityMergePlan) (s : GlobalState) (k : PublicKey) :
    (plan.apply s).seniorityMarkers k = if .seniorityMerge k ∈ plan.markers then some (.prover plan.successor)
      else s.seniorityMarkers k := by
  rw [apply, (foldl_setMarker ..).2]
  split_ifs
  · rfl
  · rcases plan.predecessor with _ | ⟨X, tree⟩ <;> rfl

namespace Accepted

variable {net}

section
variable (h : Accepted net op frame s plan sub)
include h

/-- The keys an operation takes are targets that are unspent, or count for another prover. -/
theorem mem_keys (k : PublicKey) : k ∈ plan.keys ↔ k ∈ op.mergeTargets.map (·.proverPublicKey) ∧
      (Unspent s k ∨ ∃ X, X ≠ plan.successor ∧ Holds s k X) := by
  rw [keys_iff_others h.markers, mem_others, standing_fresh_iff, h.successor]
  simp only [standing_other_iff]
  rfl

/-- Afterwards they count for the submitter, … -/
theorem holds (hk : k ∈ plan.keys) : Holds (plan.apply s) k plan.successor := by
  have hmerge : .seniorityMerge k ∈ plan.markers := SeniorityMergePlan.mem_keys.1 hk
  have hjoin : ∀ o, (plan.apply s).joinMarkers k = some o → o = .prover plan.successor := by
    intro o ho
    rw [apply_joinMarkers] at ho
    split_ifs at ho with hwritten
    · exact (Option.some.inj ho).symm
    -- a join marker that is there is written
    refine absurd ?_ hwritten
    rw [h.markers, mem_writes]
    exact ⟨k, (keys_iff_others h.markers k).1 hk, .inr ⟨rfl, by rw [ho]; rfl⟩⟩
  have hown : (plan.apply s).seniorityMarkers k = some (.prover plan.successor) := by
    rw [apply_seniorityMarkers, if_pos hmerge]
  refine ⟨by simp [owners, TargetMarkers.read, hown], fun o ho => ?_⟩
  rcases mem_append.1 ho with ho | ho
  · exact hjoin o (mem_toList.1 ho)
  · exact Option.some.inj ((mem_toList.1 ho).symm.trans hown)

/-- … and every other key's markers are what they were. -/
theorem read_other (hk : k ∉ plan.keys) : TargetMarkers.read (plan.apply s) k = TargetMarkers.read s k := by
  have hmerge : .seniorityMerge k ∉ plan.markers := fun hm => hk (SeniorityMergePlan.mem_keys.2 hm)
  have hjoin : .joinMerge k ∉ plan.markers := by
    rw [h.markers, mem_writes]
    rintro ⟨k', hk', hm | ⟨hm, -⟩⟩
    · cases hm
    · cases hm
      exact hk ((keys_iff_others h.markers k).2 hk')
  rw [TargetMarkers.read, TargetMarkers.read, apply_joinMarkers, apply_seniorityMarkers, if_neg hjoin, if_neg hmerge]

/-- A merge takes unspent keys only. -/
theorem unspent_of_merge (hM : plan.mode = .merge) (hk : k ∈ plan.keys) : Unspent s k := by
  obtain ⟨hkey, hk | ⟨X, hX, hhold⟩⟩ := (h.mem_keys k).1 hk
  · exact hk
  · refine absurd (standing_other_iff.2 ⟨h.successor ▸ hX, hhold⟩)
      (mode_merge (hM ▸ h.mode) _ (mem_map_of_mem hkey) X)

/-- A succession takes keys that count for its predecessor only. -/
theorem holds_of_succession (hX : plan.mode = .succession X) (hk : k ∈ plan.keys) : Holds s k X := by
  obtain ⟨hfresh, hother, -⟩ := mode_succession (hX ▸ h.mode)
  obtain ⟨hkey, hk | ⟨Z, hZ, hhold⟩⟩ := (h.mem_keys k).1 hk
  · exact absurd (standing_fresh_iff.2 hk) (hfresh _ (mem_map_of_mem hkey))
  · exact hother _ (mem_map_of_mem hkey) Z (standing_other_iff.2 ⟨h.successor ▸ hZ, hhold⟩) ▸ hhold

/-- The predecessor of a succession is another prover, and loses a key. -/
theorem exists_key_of_succession
    (hX : plan.mode = .succession X) : X ≠ plan.successor ∧ ∃ k ∈ plan.keys, Holds s k X := by
  obtain ⟨-, -, m, hm, hstanding⟩ := mode_succession (hX ▸ h.mode)
  obtain ⟨k, hk, rfl⟩ := mem_map.1 hm
  obtain ⟨hne, hhold⟩ := standing_other_iff.1 hstanding
  rw [← h.successor] at hne
  exact ⟨hne, k, (h.mem_keys k).2 ⟨hk, .inr ⟨X, hne, hhold⟩⟩, hhold⟩

end

end Accepted

/-! ### Steps -/

/-- A call is refused and changes nothing, or is accepted and its plan is written. -/
theorem step_cases (s : GlobalState) (call : Call σ) : step net s call = (s, none) ∨
      ∃ plan sub, Accepted net call.1 call.2 s plan sub ∧ step net s call = (plan.apply s, some plan) := by
  rw [step]
  rcases hplan : planSeniorityMerge net call.1 call.2 s with e | _ | plan
  · exact .inl rfl
  · exact .inl rfl
  · obtain ⟨sub, hsub⟩ := planSeniorityMerge_ok net hplan
    exact .inr ⟨plan, sub, hsub, rfl⟩

variable {call : Call σ}

/-- An accepted call, from its answer. -/
theorem step_some (h : (step net s call).2 = some plan) :
    (step net s call).1 = plan.apply s ∧ ∃ sub, Accepted net call.1 call.2 s plan sub := by
  rcases step_cases net s call with hs | ⟨plan', sub, hacc, hs⟩
  · rw [hs] at h
    cases h
  rw [hs] at h ⊢
  cases h
  exact ⟨rfl, sub, hacc⟩

/-- No call makes a spent key unspent. -/
theorem unspent_of_step (h : Unspent (step net s call).1 k) : Unspent s k := by
  rcases step_cases net s call with hs | ⟨plan, sub, hacc, hs⟩
  · rwa [hs] at h
  rw [hs] at h
  by_cases hk : k ∈ plan.keys
  · exact absurd h (hacc.holds hk).1
  · rwa [Unspent, hacc.read_other hk] at h

/-- A key counts for the prover it counted for, or for the submitter of a call that takes it. -/
theorem holds_of_step (h : Holds (step net s call).1 k X) :
    Holds s k X ∨ ∃ plan, (step net s call).2 = some plan ∧ plan.successor = X ∧ k ∈ plan.keys := by
  rcases step_cases net s call with hs | ⟨plan, sub, hacc, hs⟩
  · rw [hs] at h
    exact .inl h
  rw [hs] at h ⊢
  by_cases hk : k ∈ plan.keys
  · exact .inr ⟨plan, rfl, (hacc.holds hk).eq h, hk⟩
  · rw [Holds, hacc.read_other hk] at h
    exact .inl h

/-- A key that counts for a prover goes on counting for one. -/
theorem exists_holds_step (call : Call σ) (h : Holds s k X) : ∃ Y, Holds (step net s call).1 k Y := by
  rcases step_cases net s call with hs | ⟨plan, sub, hacc, hs⟩
  · rw [hs]
    exact ⟨X, h⟩
  rw [hs]
  by_cases hk : k ∈ plan.keys
  · exact ⟨_, hacc.holds hk⟩
  · exact ⟨X, by rwa [Holds, hacc.read_other hk]⟩

/-! ### Runs -/

/-- An answered call. -/
abbrev Event (σ : Type) := Call σ × Option SeniorityMergePlan

/-- The keys an event takes. -/
def takenBy (e : Event σ) : List PublicKey :=
  match e.2 with
  | some plan => plan.keys
  | none => []

/-- The keys an event consumes: those a merge takes. -/
def consumedBy (e : Event σ) : List PublicKey :=
  match e.2 with
  | some plan => if plan.mode = .merge then plan.keys else []
  | none => []

def consumed (tr : List (Event σ)) : List PublicKey := tr.flatMap consumedBy

/-- The seniority the merges of a run credit. -/
def creditedByMerges (s : GlobalState) : List (Call σ) → ℕ
  | [] => 0
  | call :: calls =>
    (match (step net s call).2 with
      | some plan =>
        if plan.mode = .merge then
          seniorityOf (step net s call).1 plan.successor - seniorityOf s plan.successor
        else 0
      | none => 0) + creditedByMerges (step net s call).1 calls

variable {calls : List (Call σ)}

/-- A key consumed somewhere in a run is unspent before it. -/
theorem unspent_of_consumed (h : k ∈ consumed (run (step net) s calls).2) : Unspent s k := by
  induction calls generalizing s with
  | nil => cases h
  | cons call calls ih =>
    rw [run_cons, consumed, flatMap_cons] at h
    rcases mem_append.1 h with h | h
    · rw [consumedBy] at h
      rcases hplan : (step net s call).2 with _ | plan
      · rw [hplan] at h; cases h
      rw [hplan] at h
      dsimp only at h
      split_ifs at h with hM
      · obtain ⟨sub, hacc⟩ := (step_some net hplan).2
        exact hacc.unspent_of_merge hM h
      · cases h
    · exact unspent_of_step net (ih h)

/-- A key that counts for `X` after a run counted for it before, or was taken by `X` in the run. -/
theorem holds_of_run (h : Holds (run (step net) s calls).1 k X) :
    Holds s k X ∨ ∃ call plan, (call, some plan) ∈ (run (step net) s calls).2 ∧
      plan.successor = X ∧ k ∈ plan.keys := by
  induction calls generalizing s with
  | nil => exact .inl h
  | cons call calls ih =>
    rcases ih h with h | ⟨c, plan, hmem, hX⟩
    · rcases holds_of_step net h with h | ⟨plan, hplan, hX⟩
      · exact .inl h
      · exact .inr ⟨call, plan, by rw [run_cons, hplan]; exact mem_cons_self, hX⟩
    · exact .inr ⟨c, plan, by rw [run_cons]; exact mem_cons_of_mem _ hmem, hX⟩

theorem unspent_of_run (calls : List (Call σ)) (h : Unspent (run (step net) s calls).1 k) : Unspent s k := by
  induction calls generalizing s with
  | nil => exact h
  | cons call calls ih => exact unspent_of_step net (ih h)

/-! ### Balances -/

theorem seniorityOf_setProver (s : GlobalState) (a : Address) (tree : ProverVertex) :
    seniorityOf (setProver s a tree) = update (seniorityOf s) a tree.retro.seniority := by
  funext b
  rcases eq_or_ne b a with rfl | hne
  · simp [seniorityOf, setProver]
  · simp [seniorityOf, setProver, hne]

theorem seniorityOf_apply (plan : SeniorityMergePlan) (s : GlobalState) : seniorityOf (plan.apply s) =
      match plan.predecessor with
      | none => update (seniorityOf s) plan.successor plan.successorTree.retro.seniority
      | some (X, tree) =>
        update
          (update (seniorityOf s) plan.successor plan.successorTree.retro.seniority)
          X tree.retro.seniority := by
  have hmarkers : ∀ s', seniorityOf (plan.markers.foldl (setMarker plan.successor) s') = seniorityOf s' := by
    intro s'
    funext a
    rw [seniorityOf, foldl_setMarker_provers, seniorityOf]
  rw [apply, hmarkers]
  rcases plan.predecessor with _ | ⟨X, tree⟩
  · exact seniorityOf_setProver ..
  · exact (seniorityOf_setProver ..).trans (by rw [seniorityOf_setProver])

theorem sum_update_add {α : Type} [DecidableEq α] {P : Finset α} (f : α → ℕ) {a : α} (ha : a ∈ P)
    (v : ℕ) : ∑ b ∈ P, update f a v b + f a = ∑ b ∈ P, f b + v := by
  rw [Finset.sum_update_of_mem ha, ← Finset.add_sum_erase P f ha, Finset.erase_eq]
  ring

namespace Accepted

variable {net}

section
variable (h : Accepted net op frame s plan sub)
include h

theorem seniorityOf_successor : seniorityOf s plan.successor = sub.tree.retro.seniority := by
  rw [seniorityOf, h.successor, h.vertex]

/-- A merge credits its submitter at most what its keys are worth. -/
theorem merge_credit (hM : plan.mode = .merge) : seniorityOf (plan.apply s) plan.successor ≤
      seniorityOf s plan.successor + ∑ k ∈ plan.keys.toFinset, worth net.valuation k := by
  cases h.balances with
  | merge _ hnone hcredit =>
    rw [seniorityOf_apply, hnone, h.seniorityOf_successor]
    simpa using hcredit
  | succession X _ _ hX => exact absurd (hX.symm.trans hM) (by simp)

/-- A succession takes no more than the predecessor holds, and gives no more than it takes. -/
theorem succession_conserves (hX : plan.mode = .succession X) : seniorityOf (plan.apply s) X ≤ seniorityOf s X ∧
      seniorityOf (plan.apply s) plan.successor + seniorityOf (plan.apply s) X ≤
        seniorityOf s plan.successor + seniorityOf s X := by
  obtain ⟨hne, -⟩ := h.exists_key_of_succession hX
  cases h.balances with
  | merge hM => exact absurd (hM.symm.trans hX) (by simp)
  | succession X' before after hX' hvertex hwritten hheld hconserved =>
    cases hX'.symm.trans hX
    have hbefore : seniorityOf s X = before.retro.seniority := by rw [seniorityOf, hvertex]
    rw [seniorityOf_apply, hwritten, h.seniorityOf_successor, hbefore]
    simp only [update_self, update_of_ne hne.symm]
    exact ⟨hheld, hconserved⟩

/-- The balances an operation leaves alone. -/
theorem seniorityOf_other {a : Address} (ha : a ≠ plan.successor)
    (hX : plan.mode ≠ .succession a) : seniorityOf (plan.apply s) a = seniorityOf s a := by
  cases h.balances with
  | merge _ hnone => rw [seniorityOf_apply, hnone]; exact update_of_ne ha _ _
  | succession X before after hX' hvertex hwritten =>
    rw [seniorityOf_apply, hwritten]
    have haX : a ≠ X := fun haX => hX (haX ▸ hX')
    simp only [update_of_ne haX, update_of_ne ha]

/-- The provers' balances together grow by at most what the consumed keys are worth. -/
theorem total_le {P : Finset Address} (hP : ∀ X, plan.mode = .succession X → X ∈ P) :
    ∑ a ∈ P, seniorityOf (plan.apply s) a ≤ ∑ a ∈ P, seniorityOf s a +
      ∑ k ∈ (if plan.mode = .merge then plan.keys else []).toFinset, worth net.valuation k := by
  -- the submitter's new balance, for a set that has the submitter and one that does not
  have hsucc : ∑ a ∈ P, update (seniorityOf s) plan.successor plan.successorTree.retro.seniority a +
        sub.tree.retro.seniority = ∑ a ∈ P, seniorityOf s a + plan.successorTree.retro.seniority ∨
      ∑ a ∈ P, update (seniorityOf s) plan.successor plan.successorTree.retro.seniority a =
        ∑ a ∈ P, seniorityOf s a := by
    by_cases hmem : plan.successor ∈ P
    · exact .inl (h.seniorityOf_successor ▸ sum_update_add _ hmem _)
    · exact .inr (Finset.sum_update_of_notMem hmem _ _)
  cases h.balances with
  | merge hM hnone hcredit =>
    rw [seniorityOf_apply, hnone, if_pos hM]
    dsimp only
    omega
  | succession X before after hX hvertex hwritten hheld hconserved =>
    obtain ⟨hne, -⟩ := h.exists_key_of_succession hX
    have hbefore : update (seniorityOf s) plan.successor plan.successorTree.retro.seniority X =
        before.retro.seniority := by
      rw [update_of_ne hne, seniorityOf, hvertex]
    have hpred := sum_update_add (update (seniorityOf s) plan.successor
      plan.successorTree.retro.seniority) (hP X hX) after.retro.seniority
    rw [hbefore] at hpred
    rw [seniorityOf_apply, hwritten]
    dsimp only
    omega

end

end Accepted

/-- What a call consumes and what the rest of the run consumes are different keys. -/
theorem consumed_disjoint (s : GlobalState) (call : Call σ) (calls : List (Call σ)) :
    Disjoint (consumedBy (call, (step net s call).2)).toFinset
      (consumed (run (step net) (step net s call).1 calls).2).toFinset := by
  rw [Finset.disjoint_left]
  intro k hk hlater
  have hunspent := unspent_of_consumed net (mem_toFinset.1 hlater)
  have hk := mem_toFinset.1 hk
  rw [consumedBy] at hk
  rcases hplan : (step net s call).2 with _ | plan
  · rw [hplan] at hk; cases hk
  rw [hplan] at hk
  dsimp only at hk
  split_ifs at hk with hM
  · obtain ⟨hs, sub, hacc⟩ := step_some net hplan
    rw [hs] at hunspent
    exact absurd hunspent (hacc.holds hk).1
  · cases hk

/-- Splitting off the first call of a run. -/
theorem sum_consumed_cons (s : GlobalState) (call : Call σ) (calls : List (Call σ)) :
    ∑ k ∈ (consumed (run (step net) s (call :: calls)).2).toFinset, worth net.valuation k =
      ∑ k ∈ (consumedBy (call, (step net s call).2)).toFinset, worth net.valuation k +
        ∑ k ∈ (consumed (run (step net) (step net s call).1 calls).2).toFinset, worth net.valuation k := by
  rw [run_cons, consumed, flatMap_cons, toFinset_append]
  exact Finset.sum_union (consumed_disjoint net s call calls)

theorem creditedByMerges_le (s : GlobalState) (calls : List (Call σ)) : creditedByMerges net s calls ≤
      ∑ k ∈ (consumed (run (step net) s calls).2).toFinset, worth net.valuation k := by
  induction calls generalizing s with
  | nil => exact zero_le
  | cons call calls ih =>
    rw [sum_consumed_cons, creditedByMerges]
    refine add_le_add ?_ (ih _)
    rcases hplan : (step net s call).2 with _ | plan
    · exact zero_le
    dsimp only [consumedBy]
    split_ifs with hM
    · obtain ⟨hs, sub, hacc⟩ := step_some net hplan
      rw [hs, Nat.sub_le_iff_le_add']
      exact hacc.merge_credit hM
    · exact zero_le

/-- The succession predecessors of a run all lie in `P`. -/
def Includes (P : Finset Address) (tr : List (Event σ)) : Prop :=
  ∀ e ∈ tr, ∀ plan X, e.2 = some plan → plan.mode = .succession X → X ∈ P

theorem total_le_run (P : Finset Address) (s : GlobalState) (calls : List (Call σ))
    (hP : Includes P (run (step net) s calls).2) :
    ∑ a ∈ P, seniorityOf (run (step net) s calls).1 a ≤ ∑ a ∈ P, seniorityOf s a +
      ∑ k ∈ (consumed (run (step net) s calls).2).toFinset, worth net.valuation k := by
  induction calls generalizing s with
  | nil => exact Nat.le_add_right _ _
  | cons call calls ih =>
    rw [sum_consumed_cons]
    have hrest := ih (step net s call).1 fun e he => hP e (mem_cons_of_mem _ he)
    have hhead : ∑ a ∈ P, seniorityOf (step net s call).1 a ≤ ∑ a ∈ P, seniorityOf s a +
        ∑ k ∈ (consumedBy (call, (step net s call).2)).toFinset, worth net.valuation k := by
      rcases step_cases net s call with hs | ⟨plan, sub, hacc, hs⟩
      · rw [hs]
        exact Nat.le_add_right _ _
      rw [hs]
      refine hacc.total_le fun X hX => hP _ mem_cons_self plan X ?_ hX
      rw [hs]
    rw [run_cons]
    dsimp only
    omega

/-! ### An operation sent again -/

/-- A target's signature is good for one text: the domain followed by the message, which is what an Ed448 key
    signs. -/
def Binding : Prop :=
  ∀ key sig m₁ d₁ m₂ d₂, net.validateSignature .ed448 key m₁ sig d₁ = .ok true →
    net.validateSignature .ed448 key m₂ sig d₂ = .ok true → d₁ ++ m₁ = d₂ ++ m₂

theorem consents_ok {pubkey : PublicKey} {frameNumber : ℕ} {mode : SeniorityMergeMode}
    {targets : List (SeniorityMerge σ)}
    (h : verifySeniorityMergeConsents net pubkey frameNumber mode targets = .ok true) :
    ∀ mt ∈ targets, net.validateSignature .ed448 mt.proverPublicKey
      (consentMessage pubkey frameNumber mode) mt.signature (consentDomain mode) = .ok true := by
  induction targets with
  | nil => simp
  | cons mt rest ih =>
    rw [verifySeniorityMergeConsents] at h
    split_ifs at h
    obtain ⟨_ | _, hok, h⟩ := bind_ok h
    · cases h
    exact forall_mem_cons.2 ⟨hok, ih h⟩

/-- The text of a succession's consent begins like no merge's. -/
theorem succession_text_ne (X : Address) (m m' : List UInt8) :
    consentDomain (.succession X) ++ m ≠ consentDomain .merge ++ m' := by
  intro h
  have htake := congrArg (take 18) h
  rw [take_append_of_le_length (by simp only [consentDomain]; decide +kernel),
    take_append_of_le_length (by simp only [consentDomain]; decide +kernel)] at htake
  revert htake
  simp only [consentDomain]
  decide +kernel

/-- One operation's consents fit one mode. -/
theorem mode_unique (hsign : Binding net) {frame' : ℕ} {s' : GlobalState} {plan' : SeniorityMergePlan}
    {sub' : Submitter} (h : Accepted net op frame s plan sub) (h' : Accepted net op frame' s' plan' sub') :
    plan.mode = plan'.mode := by
  obtain ⟨mt, hmt⟩ := exists_mem_of_ne_nil _ h.named
  have htext := hsign _ _ _ _ _ _ (consents_ok net h.consents mt hmt) (consents_ok net h'.consents mt hmt)
  have hmode := h.mode
  have hmode' := h'.mode
  rcases hM : plan.mode with _ | _ | X <;> rcases hM' : plan'.mode with _ | _ | X' <;>
    simp only [hM, hM'] at htext hmode hmode' ⊢
  · exact absurd hmode mode_ne_legacy
  · exact absurd hmode mode_ne_legacy
  · exact absurd hmode' mode_ne_legacy
  · exact absurd htext.symm (succession_text_ne X' _ _)
  · exact absurd hmode' mode_ne_legacy
  · exact absurd htext (succession_text_ne X _ _)
  -- the predecessor stands at a fixed place from the end of the message
  have htail := (append_inj' (append_cancel_left htext) (by simp [X.2, X'.2])).2
  exact congrArg _ (Subtype.ext (append_inj htail (X.2.trans X'.2.symm)).1)

/-- An operation accepted in `s` and accepted again after a run: it is a succession, and the prover it
    takes keys from took one of them in the run. -/
theorem accepted_again (hsign : Binding net) {frame' : ℕ} {plan' : SeniorityMergePlan} {sub' : Submitter}
    (h : Accepted net op frame s plan sub)
    (h' : Accepted net op frame' (run (step net) (plan.apply s) calls).1 plan' sub') :
    ∃ X, plan.mode = .succession X ∧ ∃ call plan₁ k,
      (call, some plan₁) ∈ (run (step net) (plan.apply s) calls).2 ∧ plan₁.successor = X ∧
        k ∈ plan₁.keys ∧ k ∈ op.mergeTargets.map (·.proverPublicKey) := by
  have hmode := mode_unique net hsign h h'
  rcases hM : plan'.mode with _ | _ | X
  · exact absurd (hM ▸ h'.mode) mode_ne_legacy
  · -- a merge needs an unspent key, and none of its targets is unspent any more
    obtain ⟨k, hk⟩ := exists_mem_of_ne_nil _ (h'.taken hM)
    have hunspent := unspent_of_run net calls (h'.unspent_of_merge hM hk)
    have htarget := ((h'.mem_keys k).1 hk).1
    by_cases hk₀ : k ∈ plan.keys
    · exact absurd hunspent (h.holds hk₀).1
    · rw [Unspent, h.read_other hk₀] at hunspent
      exact absurd ((h.mem_keys k).2 ⟨htarget, .inl hunspent⟩) hk₀
  -- a succession needs a key that counts for `X`; none of its targets did afterwards
  obtain ⟨-, k, hk, hhold⟩ := h'.exists_key_of_succession hM
  have htarget := ((h'.mem_keys k).1 hk).1
  refine ⟨X, hmode.trans hM, ?_⟩
  rcases holds_of_run net hhold with hold | ⟨call, plan₁, hmem, hX, hk₁⟩
  · have hne := (h.exists_key_of_succession (hmode.trans hM)).1
    by_cases hk₀ : k ∈ plan.keys
    · exact absurd (hold.eq (h.holds hk₀)) hne
    · rw [Holds, h.read_other hk₀] at hold
      exact absurd ((h.mem_keys k).2 ⟨htarget, .inr ⟨X, hne, hold⟩⟩) hk₀
  · exact ⟨call, plan₁, k, hmem, hX, hk₁, htarget⟩

/-! ### Nothing is minted -/

/-- In every run every taken key counts for a prover, and a consumed key was taken by nothing before. -/
theorem taken_once (s : GlobalState) (calls : List (Call σ)) :
    (run (step net) s calls).2.Pairwise (fun e e' => ∀ k ∈ consumedBy e', k ∉ takenBy e) ∧
      ∀ e ∈ (run (step net) s calls).2, ∀ k ∈ takenBy e, ∃ Y, Holds (run (step net) s calls).1 k Y := by
  refine @run_pairwise _ _ _ (step net) (fun e s => ∀ k ∈ takenBy e, ∃ Y, Holds s k Y) _ ?_ ?_ ?_ s calls
  · intro s call k hk
    rcases step_cases net s call with hs | ⟨plan, sub, hacc, hs⟩
    · rw [hs] at hk
      cases hk
    · rw [hs] at hk ⊢
      exact ⟨_, hacc.holds hk⟩
  · intro e s call hmark k hk
    obtain ⟨Y, hY⟩ := hmark k hk
    exact exists_holds_step net call hY
  intro e s call hmark k hk htaken
  obtain ⟨Y, hY⟩ := hmark k htaken
  have hconsumed : k ∈ consumed (run (step net) s [call]).2 := by simpa [consumed, run] using hk
  exact absurd (unspent_of_consumed net hconsumed) hY.1

def byteAddress (b : UInt8) : Address := ⟨List.replicate 32 b, by simp⟩

/-- A network whose signatures are the text they sign, and whose one valued key is worth a month. -/
def monthNetwork : Network (List UInt8) where
  epochLength := AllocationEpochs.EPOCH_LENGTH_FRAMES
  successionEpoch := 0
  penaltyEpoch := u64Max
  amnestyFrames := []
  proverAddressFromPubkey key := byteAddress (key.headD 0)
  allocationAddress _ _ := byteAddress 0
  validateSignature _ _ message sig domain := .ok (decide (sig = domain ++ message))
  intrinsicDomain domain := domain
  valuation := {
    tables := { first := [], second := [], third := ["1"], fourth := [], mainnet := fun _ => 0 }
    peerId := fun key => if key.head? = some 1 then "1" else "" }

def monthKey : PublicKey := List.replicate 57 1

def idleVertex (b : UInt8) (seniority : ℕ) : ProverVertex where
  vertexType := some "prover:Prover"
  publicKey := some [b]
  kickFrameNumber := 0
  lastSeniorityFrameNumber := 0
  retro := ⟨seniority, none, none, 0⟩

/-- Provers 161 and 178, idle; the key counts for 161. -/
def idleState : GlobalState where
  provers a :=
    if a = byteAddress 161 then some (idleVertex 161 2592000)
    else if a = byteAddress 178 then some (idleVertex 178 0)
    else none
  hyperedges _ := []
  allocations _ := none
  joinMarkers _ := none
  seniorityMarkers key := if key = monthKey then some (.prover (byteAddress 161)) else none

/-- Prover `successor` takes the key from prover `predecessor`, at frame 10000. -/
def takeKey (successor predecessor : UInt8) : ProverSeniorityMerge (List UInt8) where
  frameNumber := 10000
  publicKeySignature := some {
    signature := "PROVER_SENIORITY_MERGE".toUTF8.toList ++ (toBeBytes 8 10000 ++ monthKey)
    address := (byteAddress successor).1 }
  mergeTargets := [{
    signature := consentDomain (.succession (byteAddress predecessor)) ++
      consentMessage [successor] 10000 (.succession (byteAddress predecessor))
    keyType := 0
    proverPublicKey := monthKey }]

theorem monthNetwork_binding : Binding monthNetwork := by
  intro key sig m₁ d₁ m₂ d₂ h₁ h₂
  have h₁ := of_decide_eq_true (Except.ok.inj h₁)
  have h₂ := of_decide_eq_true (Except.ok.inj h₂)
  exact h₁.symm.trans h₂

end Quil.SenioritySuccession

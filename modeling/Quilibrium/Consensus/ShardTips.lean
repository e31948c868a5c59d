import Mathlib.Tactic

/-! The shard proofs a global proposal carries (`quil-engine/src/leader_provider.rs`, `select_shard_tips`): of
    each shard the highest proof that is VERIFIED, held so by the collector or passing the check now. A declared
    frame number is no evidence, so forged proofs above a verified one cost checks and never its place. At most
    three unverified proofs of a shard are checked; a message is kept, superseded, invalid or deferred. -/

namespace Quil.TipSelection
open List

def MAX_TIP_VERIFICATIONS : ℕ := 3

/-- A leader's check of an unverified shard proof. -/
inductive TipCheck where
  | valid
  | invalid (reason : String)
  | unavailable
deriving DecidableEq

structure ShardTips (Msg : Type) where
  kept : List Msg
  superseded : List Msg
  invalid : List (Msg × String)
  deferred : ℕ

/-- The parts of an outcome, one after another. -/
def ShardTips.concat {Msg : Type} (parts : List (ShardTips Msg)) : ShardTips Msg where
  kept := parts.flatMap (·.kept)
  superseded := parts.flatMap (·.superseded)
  invalid := parts.flatMap (·.invalid)
  deferred := (parts.map (·.deferred)).sum

section
variable {Msg Addr : Type} [DecidableEq Addr] (keys : Msg → List (Addr × ℕ)) (verified : Msg → Bool)
  (verify : Msg → TipCheck)

/-- The shard and the frame of a message that is one shard's proof: its only key. -/
def single (raw : Msg) : Option (Addr × ℕ) :=
  match keys raw with
  | [key] => some key
  | _ => none

def ofShard (address : Addr) (raw : Msg) : Bool := (single keys raw).map Prod.fst = some address

/-- The proofs of one shard, as they arrived, each with its frame. -/
def candidates (msgs : List Msg) (address : Addr) : List (ℕ × Msg) :=
  msgs.filterMap fun raw => (single keys raw).bind fun key => if key.1 = address then some (key.2, raw) else none

/-- The map of the shards that have a proof. -/
def shards (msgs : List Msg) : List (Addr × List (ℕ × Msg)) :=
  ((msgs.filterMap (single keys)).map Prod.fst).dedup.map fun address => (address, candidates keys msgs address)

/-- The loop over a shard's candidates: what it pushes. -/
def scan (tip : Bool) (checked : ℕ) : List (ℕ × Msg) → ShardTips Msg
  | [] => ⟨[], [], [], 0⟩
  | (_, raw) :: rest =>
    if tip then
      let out := scan tip checked rest
      { out with superseded := raw :: out.superseded }
    else if verified raw then
      let out := scan true checked rest
      { out with kept := raw :: out.kept }
    else if checked = MAX_TIP_VERIFICATIONS then
      let out := scan tip checked rest
      { out with deferred := out.deferred + 1 }
    else
      match verify raw with
      | .valid =>
        let out := scan true (checked + 1) rest
        { out with kept := raw :: out.kept }
      | .invalid reason =>
        let out := scan tip (checked + 1) rest
        { out with invalid := (raw, reason) :: out.invalid }
      | .unavailable =>
        let out := scan tip (checked + 1) rest
        { out with deferred := out.deferred + 1 }

/-- One shard's selection: highest first, arrival order within a height. -/
def select (shard : Addr × List (ℕ × Msg)) : ShardTips Msg :=
  scan verified verify false 0 (shard.2.mergeSort fun a b => b.1 ≤ a.1)

/-- The selection over `order`, the shards as the map lists them, on a machine that runs `available` threads. -/
def selectShardTips (order : List (Addr × List (ℕ × Msg))) (available : ℕ) (msgs : List Msg) : ShardTips Msg :=
  let others : ShardTips Msg := ⟨msgs.filter fun raw => (single keys raw).isNone, [], [], 0⟩
  let threads := max (min available (order.length / 16)) 1
  if threads = 1 then .concat (others :: order.map (select verified verify))
  else
    let chunk := (order.length + threads - 1) / threads
    .concat (others :: (range threads).map fun lane =>
      .concat (((order.drop (lane * chunk)).take chunk).map (select verified verify)))

end

/-! ### Lanes -/

theorem lanes_eq_take {α : Type} (l : List α) (chunk threads : ℕ) :
    ((range threads).flatMap fun lane => (l.drop (lane * chunk)).take chunk) = l.take (threads * chunk) := by
  induction threads with
  | zero => simp
  | succ threads ih => simp [range_succ, ih, Nat.succ_mul, take_add]

theorem concat_concat {Msg ι : Type} (first : ShardTips Msg) (lanes : List ι) (part : ι → List (ShardTips Msg)) :
    ShardTips.concat (first :: lanes.map fun lane => .concat (part lane)) =
      .concat (first :: lanes.flatMap part) := by
  induction lanes with
  | nil => rfl
  | cons lane lanes ih =>
    simp only [ShardTips.concat, map_cons, flatMap_cons, sum_cons, flatMap_append, map_append, sum_append,
      ShardTips.mk.injEq, append_cancel_left_eq, Nat.add_left_cancel_iff] at ih ⊢
    exact ih

variable {Msg Addr : Type} {keys : Msg → List (Addr × ℕ)} (verified : Msg → Bool) (verify : Msg → TipCheck)

/-- However many lanes share the shards, the outcome is that of one. -/
theorem selectShardTips_eq (order : List (Addr × List (ℕ × Msg))) (available : ℕ) (msgs : List Msg) :
    selectShardTips keys verified verify order available msgs =
      .concat (⟨msgs.filter fun raw => (single keys raw).isNone, [], [], 0⟩ ::
        order.map (select verified verify)) := by
  simp only [selectShardTips]
  split_ifs
  · rfl
  · set threads := max (min available (order.length / 16)) 1
    have hcover : order.length ≤ threads * ((order.length + threads - 1) / threads) := by
      have hlt := Nat.lt_mul_div_succ (order.length + threads - 1) (show 0 < threads by omega)
      rw [Nat.mul_add] at hlt
      omega
    rw [concat_concat, ← map_flatMap, lanes_eq_take, take_of_length_le hcover]

/-! ### One shard -/

theorem scan_true (checked : ℕ) (cs : List (ℕ × Msg)) :
    scan verified verify true checked cs = ⟨[], cs.map Prod.snd, [], 0⟩ := by
  induction cs with
  | nil => rfl
  | cons c cs ih => simp [scan, ih]

/-- The loop keeps the first candidate that is verified, none before it being held so, and supersedes the rest. -/
theorem scan_false (checked : ℕ) (cs : List (ℕ × Msg)) :
    ((scan verified verify false checked cs).kept = [] ∧ (scan verified verify false checked cs).superseded = [] ∧
        ∀ c ∈ cs, verified c.2 = false) ∨
    ∃ before c rest, cs = before ++ c :: rest ∧ (∀ b ∈ before, verified b.2 = false) ∧
      (verified c.2 = true ∨ verify c.2 = .valid) ∧ (scan verified verify false checked cs).kept = [c.2] ∧
      (scan verified verify false checked cs).superseded = rest.map Prod.snd := by
  induction cs generalizing checked with
  | nil => exact .inl ⟨rfl, rfl, by simp⟩
  | cons c cs ih =>
    obtain ⟨frame, raw⟩ := c
    by_cases hv : verified raw = true
    · exact .inr ⟨[], (frame, raw), cs, rfl, by simp, .inl hv, by simp [scan, hv, scan_true],
        by simp [scan, hv, scan_true]⟩
    by_cases hvalid : checked ≠ MAX_TIP_VERIFICATIONS ∧ verify raw = .valid
    · exact .inr ⟨[], (frame, raw), cs, rfl, by simp, .inr hvalid.2, by simp [scan, hv, hvalid, scan_true],
        by simp [scan, hv, hvalid, scan_true]⟩
    -- Otherwise the candidate is set aside and the loop goes on as if it were not there.
    obtain ⟨checked', hkept, hsuperseded⟩ : ∃ checked',
        (scan verified verify false checked ((frame, raw) :: cs)).kept =
          (scan verified verify false checked' cs).kept ∧
        (scan verified verify false checked ((frame, raw) :: cs)).superseded =
          (scan verified verify false checked' cs).superseded := by
      by_cases hfull : checked = MAX_TIP_VERIFICATIONS
      · exact ⟨checked, by simp [scan, hv, hfull], by simp [scan, hv, hfull]⟩
      · refine ⟨checked + 1, ?_⟩
        cases hcheck : verify raw with
        | valid => exact absurd ⟨hfull, hcheck⟩ hvalid
        | invalid reason => simp [scan, hv, hfull, hcheck]
        | unavailable => simp [scan, hv, hfull, hcheck]
    rw [hkept, hsuperseded]
    rcases ih checked' with ⟨hk, hs, hnone⟩ | ⟨before, c, rest, rfl, hbefore, hc, hk, hs⟩
    · exact .inl ⟨hk, hs, by simpa [hv] using hnone⟩
    · exact .inr ⟨(frame, raw) :: before, c, rest, rfl, by simpa [hv] using hbefore, hc, hk, hs⟩

/-- Every candidate goes to one place, once; those deferred are only counted. -/
theorem scan_accounted (tip : Bool) (checked : ℕ) (cs : List (ℕ × Msg)) :
    (∀ p ∈ (scan verified verify tip checked cs).invalid, verify p.1 = .invalid p.2) ∧
    ∃ deferred : List Msg, deferred.length = (scan verified verify tip checked cs).deferred ∧
      ((scan verified verify tip checked cs).kept ++ (scan verified verify tip checked cs).superseded ++
        (scan verified verify tip checked cs).invalid.map Prod.fst ++ deferred).Perm (cs.map Prod.snd) := by
  fun_induction scan verified verify tip checked cs
  case case1 => exact ⟨by simp, [], rfl, .nil⟩
  case case2 raw _ out ih =>
    obtain ⟨hinvalid, deferred, hlength, hall⟩ := ih
    refine ⟨hinvalid, deferred, hlength, ?_⟩
    simp only [append_assoc, cons_append] at hall ⊢
    exact perm_middle.trans (hall.cons raw)
  case case3 raw _ _ _ out ih | case5 raw _ _ _ _ _ out ih =>
    obtain ⟨hinvalid, deferred, hlength, hall⟩ := ih
    exact ⟨hinvalid, deferred, hlength, hall.cons raw⟩
  case case4 raw _ _ _ out ih | case7 raw _ _ _ _ _ out ih =>
    obtain ⟨hinvalid, deferred, hlength, hall⟩ := ih
    exact ⟨hinvalid, raw :: deferred, by simp [hlength, out], perm_middle.trans (hall.cons raw)⟩
  case case6 raw _ _ _ _ reason hcheck out ih =>
    obtain ⟨hinvalid, deferred, hlength, hall⟩ := ih
    refine ⟨forall_mem_cons.2 ⟨hcheck, hinvalid⟩, deferred, hlength, Perm.trans ?_ (hall.cons raw)⟩
    simpa using @perm_middle _ raw (out.kept ++ out.superseded) (out.invalid.map Prod.fst ++ deferred)

variable [DecidableEq Addr]

theorem mem_candidates {msgs : List Msg} {a : Addr} {c : ℕ × Msg} :
    c ∈ candidates keys msgs a ↔ c.2 ∈ msgs ∧ single keys c.2 = some (a, c.1) := by
  obtain ⟨frame, raw⟩ := c
  simp only [candidates, mem_filterMap, Option.bind_eq_some_iff]
  constructor
  · rintro ⟨raw', hmem, ⟨b, frame'⟩, hkey, h⟩
    split_ifs at h with hb
    cases h
    cases hb
    exact ⟨hmem, hkey⟩
  · rintro ⟨hmem, hkey⟩
    exact ⟨raw, hmem, (a, frame), hkey, if_pos rfl⟩

theorem map_candidates (msgs : List Msg) (a : Addr) :
    (candidates keys msgs a).map Prod.snd = msgs.filter (ofShard keys a) := by
  induction msgs with
  | nil => rfl
  | cons raw msgs ih =>
    simp only [candidates] at ih ⊢
    cases hkey : single keys raw with
    | none => simpa [hkey, ofShard] using ih
    | some key => by_cases hb : key.1 = a <;> simp [hkey, ofShard, hb, ih]

/-- What one shard's selection is: at most one proof kept, and what of the shard it stands above. -/
structure Selected (keys : Msg → List (Addr × ℕ)) (verified : Msg → Bool) (verify : Msg → TipCheck)
    (msgs : List Msg) (a : Addr) (out : ShardTips Msg) : Prop where
  kept : out.kept.length ≤ 1
  checked : ∀ m ∈ out.kept, verified m = true ∨ verify m = .valid
  held : ∀ m ∈ msgs, ∀ frame, single keys m = some (a, frame) → verified m = true →
    ∃ k frame', out.kept = [k] ∧ single keys k = some (a, frame') ∧ frame ≤ frame'
  superseded : ∀ m ∈ out.superseded, ∃ frame k frame', single keys m = some (a, frame) ∧ out.kept = [k] ∧
    single keys k = some (a, frame') ∧ frame ≤ frame'
  invalid : ∀ p ∈ out.invalid, verify p.1 = .invalid p.2
  accounted : ∃ deferred : List Msg, deferred.length = out.deferred ∧
    (out.kept ++ out.superseded ++ out.invalid.map Prod.fst ++ deferred).Perm (msgs.filter (ofShard keys a))

theorem select_selected (keys : Msg → List (Addr × ℕ)) (msgs : List Msg) (a : Addr) :
    Selected keys verified verify msgs a (select verified verify (a, candidates keys msgs a)) := by
  set cs := (candidates keys msgs a).mergeSort fun x y => y.1 ≤ x.1 with hcs
  have hperm : cs.Perm (candidates keys msgs a) := mergeSort_perm _ _
  have hsorted : cs.Pairwise fun x y => y.1 ≤ x.1 := by
    refine (pairwise_mergeSort ?_ ?_ _).imp ?_
    · intro x y z hxy hyz
      simp only [decide_eq_true_eq] at hxy hyz ⊢
      omega
    · intro x y
      simp only [Bool.or_eq_true, decide_eq_true_eq]
      omega
    · intro x y hxy
      simpa using hxy
  have hmem {c : ℕ × Msg} : c ∈ cs ↔ c.2 ∈ msgs ∧ single keys c.2 = some (a, c.1) := by
    rw [hperm.mem_iff, mem_candidates]
  obtain ⟨hinvalid, deferred, hlength, hall⟩ := scan_accounted verified verify false 0 cs
  have hall := hall.trans (hperm.map Prod.snd)
  rw [map_candidates] at hall
  rcases scan_false verified verify 0 cs with
    ⟨hk, hs, hnone⟩ | ⟨before, c, rest, hsplit, hbefore, hc, hk, hs⟩
  · refine ⟨by simp [select, ← hcs, hk], by simp [select, ← hcs, hk], ?_, by simp [select, ← hcs, hs], hinvalid,
      deferred, hlength, hall⟩
    intro m hm frame hkey hv
    rw [hnone (frame, m) (hmem.2 ⟨hm, hkey⟩)] at hv
    cases hv
  rw [hsplit, pairwise_append, pairwise_cons] at hsorted
  have hckey : single keys c.2 = some (a, c.1) := (hmem.1 (by simp [hsplit])).2
  refine ⟨by simp [select, ← hcs, hk], by simp [select, ← hcs, hk, hc], ?_, ?_, hinvalid, deferred, hlength, hall⟩
  · intro m hm frame hkey hv
    refine ⟨c.2, c.1, hk, hckey, ?_⟩
    have hin : (frame, m) ∈ before ++ c :: rest := hsplit ▸ hmem.2 ⟨hm, hkey⟩
    rcases mem_append.1 hin with hin | hin
    · rw [hbefore _ hin] at hv
      cases hv
    · rcases mem_cons.1 hin with rfl | hin
      · exact le_rfl
      · exact hsorted.2.1.1 _ hin
  · intro m hm
    simp only [select, ← hcs, hs, mem_map] at hm
    obtain ⟨d, hd, rfl⟩ := hm
    have hdkey := (hmem.1 (show d ∈ cs by simp [hsplit, hd])).2
    exact ⟨d.1, c.2, c.1, hdkey, hk, hckey, hsorted.2.1.1 d hd⟩

/-! ### All shards -/

section
variable {as : List Addr}

/-- The messages of the listed shards, and the rest. -/
theorem filter_shards_perm (keys : Msg → List (Addr × ℕ)) (msgs : List Msg) (has : as.Nodup) :
    ((as.flatMap fun a => msgs.filter (ofShard keys a)) ++
      msgs.filter fun m => as.all fun a => !ofShard keys a m).Perm msgs := by
  induction as with
  | nil => simp
  | cons a as ih =>
    obtain ⟨ha, has⟩ := nodup_cons.1 has
    refine Perm.trans ?_ (ih has)
    set others := msgs.filter fun m => as.all fun b => !ofShard keys b m
    have hin : msgs.filter (ofShard keys a) = others.filter (ofShard keys a) := by
      rw [filter_filter]
      refine filter_congr fun m _ => ?_
      simp only [ofShard]
      grind
    have hout : (msgs.filter fun m => (a :: as).all fun b => !ofShard keys b m) =
        others.filter fun m => !ofShard keys a m := by
      rw [filter_filter]
      exact filter_congr fun m _ => by simp
    rw [flatMap_cons, hin, hout, append_assoc]
    exact (perm_append_comm_assoc _ _ _).trans ((filter_append_perm _ others).append_left _)

/-- What of the listed shards' results is one shard's. -/
theorem filter_flatMap_shard {β : Type} (tag : β → Msg) {g : Addr → List β} (has : as.Nodup)
    (hg : ∀ b ∈ as, ∀ x ∈ g b, ofShard keys b (tag x) = true) (a : Addr) :
    ((as.flatMap g).filter fun x => ofShard keys a (tag x)) = if a ∈ as then g a else [] := by
  induction as with
  | nil => rfl
  | cons b as ih =>
    obtain ⟨hb, has⟩ := nodup_cons.1 has
    obtain ⟨hhead, htail⟩ := forall_mem_cons.1 hg
    rw [flatMap_cons, filter_append, ih has htail]
    by_cases hab : b = a
    · subst hab
      simpa [hb] using hhead
    · have hnone : ((g b).filter fun x => ofShard keys a (tag x)) = [] := by
        refine filter_eq_nil_iff.2 fun x hx => ?_
        have hx := hhead x hx
        simp only [ofShard, decide_eq_true_eq] at hx ⊢
        rw [hx]
        simpa using hab
      simp [hnone, show a ≠ b from fun h => hab h.symm]

theorem accounted_flatMap {msgs : List Msg} {sel : Addr → ShardTips Msg}
    (hsel : ∀ a, Selected keys verified verify msgs a (sel a)) (as : List Addr) :
    ∃ deferred : List Msg, deferred.length = (as.map fun a => (sel a).deferred).sum ∧
      (as.flatMap (fun a => (sel a).kept) ++ as.flatMap (fun a => (sel a).superseded) ++
        (as.flatMap fun a => (sel a).invalid).map Prod.fst ++ deferred).Perm
      (as.flatMap fun a => msgs.filter (ofShard keys a)) := by
  induction as with
  | nil => exact ⟨[], rfl, .nil⟩
  | cons a as ih =>
    obtain ⟨deferred, hlength, hall⟩ := ih
    obtain ⟨own, hown, hperm⟩ := (hsel a).accounted
    refine ⟨own ++ deferred, by simp [hlength, hown], ?_⟩
    simp only [flatMap_cons, map_append, ← Multiset.coe_eq_coe, ← Multiset.coe_add] at hall hperm ⊢
    rw [← hall, ← hperm]
    abel

end

/-- What of an outcome is one shard's. -/
def part (keys : Msg → List (Addr × ℕ)) (out : ShardTips Msg) (a : Addr) : List Msg × List Msg × List (Msg × String) :=
  (out.kept.filter (ofShard keys a), out.superseded.filter (ofShard keys a),
    out.invalid.filter fun p => ofShard keys a p.1)

section
variable {msgs : List Msg} {order : List (Addr × List (ℕ × Msg))}

variable {verified verify} in
theorem Selected.of_mem {a : Addr} {out : ShardTips Msg} (h : Selected keys verified verify msgs a out) {m : Msg}
    (hm : m ∈ out.kept ∨ m ∈ out.superseded ∨ m ∈ out.invalid.map Prod.fst) : ofShard keys a m = true := by
  obtain ⟨deferred, -, hall⟩ := h.accounted
  refine (mem_filter.1 (hall.mem_iff.1 ?_)).2
  simp only [mem_append]
  tauto

/-- However the map lists its shards, each is listed once with its candidates, and only shards with one are. -/
theorem order_eq (horder : order.Perm (shards keys msgs)) :
    ∃ as : List Addr, as.Nodup ∧ order = as.map (fun a => (a, candidates keys msgs a)) ∧
      ∀ a, a ∈ as ↔ ∃ m ∈ msgs, ofShard keys a m = true := by
  refine ⟨order.map Prod.fst, ?_, ?_, ?_⟩
  · refine (horder.map Prod.fst).nodup_iff.2 ?_
    simpa [shards, Function.comp_def] using nodup_dedup _
  · rw [map_map]
    refine (map_congr_left fun p hp => ?_).trans (map_id order) |>.symm
    obtain ⟨a, -, rfl⟩ := mem_map.1 (horder.mem_iff.1 hp)
    rfl
  · intro a
    rw [(horder.map Prod.fst).mem_iff]
    simp only [shards, ofShard, map_map, mem_map, mem_dedup, mem_filterMap, Function.comp_apply,
      Option.map_eq_some_iff, decide_eq_true_eq]
    grind

/-- An outcome by its shards: the other messages, and each shard's own selection. -/
theorem selectShardTips_shards (horder : order.Perm (shards keys msgs)) (available : ℕ) :
    ∃ as : List Addr, as.Nodup ∧ (∀ a, a ∈ as ↔ ∃ m ∈ msgs, ofShard keys a m = true) ∧
      selectShardTips keys verified verify order available msgs =
        .concat (⟨msgs.filter fun raw => (single keys raw).isNone, [], [], 0⟩ ::
          as.map fun a => select verified verify (a, candidates keys msgs a)) := by
  obtain ⟨as, has, rfl, hmem⟩ := order_eq horder
  exact ⟨as, has, hmem, by rw [selectShardTips_eq, map_map]; rfl⟩

/-- One shard's part of an outcome is its own selection, for every order and number of threads. -/
theorem part_eq (horder : order.Perm (shards keys msgs)) (available : ℕ) (a : Addr) :
    part keys (selectShardTips keys verified verify order available msgs) a =
      ((select verified verify (a, candidates keys msgs a)).kept,
        (select verified verify (a, candidates keys msgs a)).superseded,
        (select verified verify (a, candidates keys msgs a)).invalid) := by
  obtain ⟨as, has, hmem, hout⟩ := selectShardTips_shards verified verify horder available
  have hsel := select_selected verified verify keys msgs
  have hothers : (msgs.filter fun raw => (single keys raw).isNone).filter (ofShard keys a) = [] := by
    simp +contextual [filter_eq_nil_iff, ofShard]
  have hkept := filter_flatMap_shard id has (fun b _ x hx => (hsel b).of_mem (.inl hx)) a
  have hsuperseded := filter_flatMap_shard id has (fun b _ x hx => (hsel b).of_mem (.inr (.inl hx))) a
  have hinvalid := filter_flatMap_shard Prod.fst has
    (fun b _ x hx => (hsel b).of_mem (.inr (.inr (mem_map_of_mem hx)))) a
  simp only [id] at hkept hsuperseded
  simp only [part, hout, ShardTips.concat, flatMap_cons, flatMap_map, filter_append, nil_append, hothers,
    hkept, hsuperseded, hinvalid]
  split_ifs with ha
  · rfl
  · have hnil : candidates keys msgs a = [] := by
      refine eq_nil_iff_forall_not_mem.2 fun c hc => ha ((hmem a).2 ?_)
      obtain ⟨hc, hkey⟩ := mem_candidates.1 hc
      exact ⟨c.2, hc, by simp [ofShard, hkey]⟩
    simp [select, hnil, scan]

end

/-- Of each shard a proposal keeps at most one proof, held verified or passing the check; whatever else arrives, a
    shard with a proof held verified keeps one not below it; no message is lost; threads make no difference. -/
theorem verified_proof_not_displaced {Msg Addr : Type} [DecidableEq Addr] (keys : Msg → List (Addr × ℕ))
    (verified : Msg → Bool) (verify : Msg → TipCheck) (msgs : List Msg) (order : List (Addr × List (ℕ × Msg)))
    (horder : order.Perm (shards keys msgs)) (available : ℕ) :
    let out := selectShardTips keys verified verify order available msgs
    (∀ a, (out.kept.filter (ofShard keys a)).length ≤ 1) ∧
    (∀ m ∈ out.kept, (single keys m).isSome → verified m = true ∨ verify m = .valid) ∧
    (∀ msgs' order' available', msgs ⊆ msgs' → order'.Perm (shards keys msgs') →
      ∀ m ∈ msgs, ∀ a frame, single keys m = some (a, frame) → verified m = true →
        ∃ k frame', (selectShardTips keys verified verify order' available' msgs').kept.filter (ofShard keys a) = [k] ∧
          single keys k = some (a, frame') ∧ frame ≤ frame') ∧
    (∀ m ∈ out.superseded, ∃ a frame, single keys m = some (a, frame) ∧
      ∃ k ∈ out.kept, ∃ frame', single keys k = some (a, frame') ∧ frame ≤ frame') ∧
    (∀ p ∈ out.invalid, verify p.1 = .invalid p.2) ∧
    (∃ deferred : List Msg, deferred.length = out.deferred ∧
      (out.kept ++ out.superseded ++ out.invalid.map Prod.fst ++ deferred).Perm msgs) ∧
    ∀ order' available', order'.Perm (shards keys msgs) →
      let out' := selectShardTips keys verified verify order' available' msgs
      out'.deferred = out.deferred ∧ ∀ a, part keys out' a = part keys out a := by
  intro out
  have hsel := select_selected verified verify keys msgs
  obtain ⟨as, has, hmem, hout⟩ := selectShardTips_shards verified verify horder available
  have hkept (a : Addr) : out.kept.filter (ofShard keys a) = (select verified verify (a, candidates keys msgs a)).kept :=
    congrArg Prod.fst (part_eq verified verify horder available a)
  refine ⟨fun a => (hkept a).symm ▸ (hsel a).kept, ?_, ?_, ?_, ?_, ?_, ?_⟩
  · intro m hm hsome
    obtain ⟨⟨a, frame⟩, hkey⟩ := Option.isSome_iff_exists.1 hsome
    refine (hsel a).checked m ?_
    rw [← hkept a]
    exact mem_filter.2 ⟨hm, by simp [ofShard, hkey]⟩
  · intro msgs' order' available' hsub horder' m hm a frame hkey hv
    obtain ⟨k, frame', hk, hkkey, hle⟩ := (select_selected verified verify keys msgs' a).held m (hsub hm) frame hkey hv
    exact ⟨k, frame', (congrArg Prod.fst (part_eq verified verify horder' available' a)).trans hk, hkkey, hle⟩
  · intro m hm
    obtain ⟨a, -, hm⟩ : ∃ a ∈ as, m ∈ (select verified verify (a, candidates keys msgs a)).superseded := by
      simpa [out, hout, ShardTips.concat] using hm
    obtain ⟨frame, k, frame', hkey, hk, hkkey, hle⟩ := (hsel a).superseded m hm
    have hkmem : k ∈ out.kept.filter (ofShard keys a) := by rw [hkept, hk]; exact mem_singleton_self k
    exact ⟨a, frame, hkey, k, (mem_filter.1 hkmem).1, frame', hkkey, hle⟩
  · intro p hp
    obtain ⟨a, -, hp⟩ : ∃ a ∈ as, p ∈ (select verified verify (a, candidates keys msgs a)).invalid := by
      simpa [out, hout, ShardTips.concat] using hp
    exact (hsel a).invalid p hp
  · obtain ⟨deferred, hlength, hall⟩ := accounted_flatMap verified verify hsel as
    refine ⟨deferred, by simp [out, hout, ShardTips.concat, hlength, Function.comp_def], ?_⟩
    have hothers : (msgs.filter fun raw => (single keys raw).isNone) =
        msgs.filter fun m => as.all fun a => !ofShard keys a m := by
      refine filter_congr fun m hm => ?_
      cases hkey : single keys m with
      | none => simp [ofShard, hkey]
      | some key =>
        have hin : key.1 ∈ as := (hmem key.1).2 ⟨m, hm, by simp [ofShard, hkey]⟩
        simpa [ofShard, hkey] using hin
    refine Perm.trans ?_ (filter_shards_perm keys msgs has)
    simp only [out, hout, ShardTips.concat, flatMap_cons, flatMap_map, nil_append, hothers, ← Multiset.coe_eq_coe,
      ← Multiset.coe_add] at hall ⊢
    rw [← hall]
    abel
  · intro order' available' horder' out'
    obtain ⟨as', has', hmem', hout'⟩ := selectShardTips_shards verified verify horder' available'
    refine ⟨?_, fun a => ?_⟩
    · have hperm : as'.Perm as := (perm_ext_iff_of_nodup has' has).2 fun a => by rw [hmem', hmem]
      simp only [out, out', hout, hout', ShardTips.concat, map_cons, map_map, sum_cons]
      rw [(hperm.map _).sum_eq]
    · rw [part_eq verified verify horder', part_eq verified verify horder]

def sampleKeys (m : ℕ) : List (ℕ × ℕ) := if m < 9 then [(m / 6, m)] else []

/-- Four forged proofs above a shard's verified one, and a message that is no shard's: the verified one is kept. -/
theorem verified_proof_not_displaced_sample :
    (selectShardTips sampleKeys (· = 1) (fun _ => .invalid "forged") (shards sampleKeys [5, 9, 1, 4, 2, 3]) 8
      [5, 9, 1, 4, 2, 3]).kept.filter (ofShard sampleKeys 0) = [1] := by
  obtain ⟨-, hchecked, hkept, -⟩ := verified_proof_not_displaced sampleKeys (· = 1) (fun _ => .invalid "forged")
    [5, 9, 1, 4, 2, 3] _ (.refl _) 8
  obtain ⟨k, frame, hk, hkey, -⟩ := hkept [5, 9, 1, 4, 2, 3] _ 8 (List.Subset.refl _) (.refl _) 1 (by decide) 0 1 rfl rfl
  have hmem := (mem_filter.1 (hk.symm ▸ mem_singleton_self k :
    k ∈ (selectShardTips sampleKeys (· = 1) (fun _ => .invalid "forged") (shards sampleKeys [5, 9, 1, 4, 2, 3]) 8
      [5, 9, 1, 4, 2, 3]).kept.filter (ofShard sampleKeys 0))).1
  have hone : k = 1 := by simpa using hchecked k hmem (by rw [hkey]; rfl)
  rw [hk, hone]

end Quil.TipSelection

import Quilibrium.Schemes.LittleEndian
import Quilibrium.Schemes.Result

/-! Readers of byte strings and what they read. A reader takes a value off the front of a string or fails;
    `Reads r write P` says that it reads exactly the values meeting `P`, each from ONE string, `write` of it:
    what is written reads back, and what is read was written. The rules below put such a reader together from
    its parts, so that a decoder has one canonical string for each value it returns as soon as its parts do. -/

namespace Quil.Schemes
open List

/-- Takes a value off the front of a byte string. -/
abbrev Reader (ε α : Type) := StateT (List UInt8) (Except ε) α

variable {ε α β : Type}

namespace Reader

theorem bind_apply (r : Reader ε α) (k : α → Reader ε β) (bytes : List UInt8) :
    (r >>= k) bytes = r bytes >>= fun p => k p.1 p.2 := rfl

theorem pure_apply (a : α) (bytes : List UInt8) : (pure a : Reader ε α) bytes = .ok (a, bytes) := rfl

/-- The first `n` bytes. -/
def take (e : ε) (n : ℕ) : Reader ε (List UInt8) := fun bytes =>
  if bytes.length < n then .error e else .ok (bytes.take n, bytes.drop n)

/-- One value after another. -/
def times (r : Reader ε α) : ℕ → Reader ε (List α)
  | 0 => pure []
  | n + 1 => do
    let a ← r
    let rest ← times r n
    return a :: rest

/-- The value a whole string is. -/
def whole (e : ε) (r : Reader ε α) (bytes : List UInt8) : Except ε α := do
  let (a, rest) ← r bytes
  if rest ≠ [] then .error e else .ok a

end Reader

open Reader (bind_apply)

/-- The reader reads the values meeting `P`, each from the string `write` gives it and no other. -/
structure Reads (r : Reader ε α) (write : α → List UInt8) (P : α → Prop) : Prop where
  read_write : ∀ a rest, P a → r (write a ++ rest) = .ok (a, rest)
  of_read : ∀ {bytes a rest}, r bytes = .ok (a, rest) → P a ∧ bytes = write a ++ rest

variable {P : α → Prop} {bytes : List UInt8}

namespace Reads

variable {r : Reader ε α} {write : α → List UInt8}

theorem congr (h : Reads r write P) {write' : α → List UInt8} {P' : α → Prop} (hP : ∀ a, P' a ↔ P a)
    (hwrite : ∀ a, P a → write' a = write a) : Reads r write' P' where
  read_write a rest ha := by
    rw [hP] at ha
    rw [hwrite a ha]
    exact h.read_write a rest ha
  of_read {bytes a rest} hread := by
    obtain ⟨ha, hbytes⟩ := h.of_read hread
    rw [hP, hwrite a ha]
    exact ⟨ha, hbytes⟩

/-- The values meeting a stronger condition, when the reader checks it. -/
theorem iff (h : Reads r write P) {P' : α → Prop} (hP : ∀ a, P' a ↔ P a) : Reads r write P' :=
  h.congr hP fun _ _ => rfl

theorem pure {a : α} (h : ∀ b, P b ↔ b = a) : Reads (Pure.pure a : Reader ε α) (fun _ => []) P where
  read_write b rest hb := by
    rw [(h b).1 hb]
    rfl
  of_read {bytes b rest} hread := by
    cases hread
    exact ⟨(h a).2 rfl, rfl⟩

theorem take (e : ε) (n : ℕ) : Reads (Reader.take e n) id fun bytes => bytes.length = n where
  read_write bytes rest h := by
    rw [Reader.take, id, if_neg (by rw [length_append]; omega), take_left' h, drop_left' h]
  of_read {bytes a rest} hread := by
    rw [Reader.take] at hread
    split at hread
    · cases hread
    next hlength =>
    cases hread
    exact ⟨by rw [length_take]; omega, (take_append_drop n bytes).symm⟩

section
variable (h : Reads r write P)
include h

/-- A value of one form of several. -/
theorem image (f : α → β) {w : β → List UInt8} (hw : ∀ a, P a → w (f a) = write a) :
    Reads (f <$> r) w fun b => ∃ a, f a = b ∧ P a where
  read_write b rest hb := by
    obtain ⟨a, rfl, ha⟩ := hb
    change (r >>= fun a => Pure.pure (f a)) _ = _
    rw [bind_apply, hw a ha, h.read_write _ _ ha]
    rfl
  of_read {bytes b rest} hread := by
    change (r >>= fun a => Pure.pure (f a)) _ = _ at hread
    rw [bind_apply] at hread
    obtain ⟨⟨a, middle⟩, ha, hrest⟩ := bind_ok hread
    obtain ⟨hP, hbytes⟩ := h.of_read ha
    cases hrest
    exact ⟨⟨a, rfl, hP⟩, by rw [hw a hP, hbytes]⟩

/-- A value read by way of another. -/
theorem map (f : α → β) (g : β → α) (hgf : ∀ a, P a → g (f a) = a) :
    Reads (f <$> r) (fun b => write (g b)) fun b => f (g b) = b ∧ P (g b) := by
  refine (h.image f fun a ha => by rw [hgf a ha]).iff fun b => ⟨fun hb => ⟨g b, hb⟩, ?_⟩
  rintro ⟨a, rfl, ha⟩
  rw [hgf a ha]
  exact ⟨rfl, ha⟩

/-- A value, then more values read by way of it. -/
theorem cons {more : α → Reader ε (List α)} {w : α → List α → List UInt8} {Q : α → List α → Prop}
    {W : List α → List UInt8} (hmore : ∀ a, Reads (more a) (w a) (Q a)) (hW : ∀ a as, W (a :: as) = write a ++ w a as) :
    Reads (r >>= fun a => more a >>= fun as => Pure.pure (a :: as)) W
      fun l => ∃ a as, l = a :: as ∧ P a ∧ Q a as where
  read_write l rest hl := by
    obtain ⟨a, as, rfl, ha, has⟩ := hl
    rw [hW, bind_apply, append_assoc, h.read_write _ _ ha, ok_bind, bind_apply,
      (hmore a).read_write _ _ has]
    rfl
  of_read {bytes l rest} hread := by
    rw [bind_apply] at hread
    obtain ⟨⟨a, middle⟩, ha, hrest⟩ := bind_ok hread
    obtain ⟨hP, rfl⟩ := h.of_read ha
    rw [bind_apply] at hrest
    obtain ⟨⟨as, rest'⟩, has, hdone⟩ := bind_ok hrest
    obtain ⟨hQ, rfl⟩ := (hmore a).of_read has
    cases hdone
    exact ⟨⟨a, as, rfl, hP, hQ⟩, by rw [hW, append_assoc]⟩

omit h in
theorem nil {W : List α → List UInt8} {C : List α → Prop} (hW : W [] = []) (hC : C []) :
    Reads (Pure.pure [] : Reader ε (List α)) W fun as => as.length = 0 ∧ C as := by
  refine (Reads.pure fun as => ?_).congr (fun _ => Iff.rfl) fun as has => ?_
  · rw [length_eq_zero_iff]
    exact ⟨And.left, fun h => ⟨h, h ▸ hC⟩⟩
  · rw [eq_nil_of_length_eq_zero has.1, hW]

/-- So many values, one after another. -/
theorem times (n : ℕ) : Reads (r.times n) (List.flatMap write) fun as => as.length = n ∧ ∀ a ∈ as, P a := by
  induction n with
  | zero => exact Reads.nil rfl (forall_mem_nil P)
  | succ n ih =>
    refine (h.cons (fun _ => ih) fun _ _ => flatMap_cons).iff fun as => ?_
    cases as <;> simp [and_left_comm]

/-- A whole string is accepted exactly when it is the one written for the value. -/
theorem whole_iff {e : ε} {a : α} : r.whole e bytes = .ok a ↔ P a ∧ bytes = write a := by
  constructor
  · intro hwhole
    obtain ⟨⟨b, rest⟩, hread, hwhole⟩ := bind_ok hwhole
    dsimp only at hwhole
    split at hwhole
    · cases hwhole
    next hrest =>
    cases hwhole
    obtain ⟨ha, hbytes⟩ := h.of_read hread
    rw [not_not.1 hrest, append_nil] at hbytes
    exact ⟨ha, hbytes⟩
  · rintro ⟨ha, rfl⟩
    have hread := h.read_write a [] ha
    rw [append_nil] at hread
    rw [Reader.whole, hread, ok_bind]
    rfl

end

end Reads

/-! ### Records, field by field -/

/-- What is left to read of a record, once the parts read so far have fixed it to meet `C`. -/
def ReadsIn (r : Reader ε β) (write : β → List UInt8) (C Q : β → Prop) : Prop := Reads r write fun b => C b ∧ Q b

namespace ReadsIn

variable {r : Reader ε α} {write : α → List UInt8} {k : α → Reader ε β} {w : β → List UInt8}
  {C Q : β → Prop}

/-- A part, and then the rest of the record. -/
theorem fieldOf (h : Reads r write P) (p : β → α) {R : β → Prop} (hP : ∀ b, C b → (R b ↔ P (p b)))
    (hk : ∀ a, P a → ReadsIn (k a) w (fun b => C b ∧ p b = a) Q) :
    ReadsIn (r >>= k) (fun b => write (p b) ++ w b) C fun b => R b ∧ Q b where
  read_write b rest hb := by
    obtain ⟨hC, hR, hQ⟩ := hb
    have hpart := (hP b hC).1 hR
    rw [bind_apply, append_assoc, h.read_write _ _ hpart, ok_bind]
    exact (hk _ hpart).read_write b rest ⟨⟨hC, rfl⟩, hQ⟩
  of_read {bytes b rest} hread := by
    rw [bind_apply] at hread
    obtain ⟨⟨a, middle⟩, ha, hrest⟩ := bind_ok hread
    obtain ⟨hpart, hbytes⟩ := h.of_read ha
    dsimp only at hrest
    obtain ⟨⟨⟨hC, rfl⟩, hQ⟩, hmiddle⟩ := (hk _ hpart).of_read hrest
    exact ⟨⟨hC, (hP b hC).2 hpart, hQ⟩, by rw [hbytes, hmiddle, append_assoc]⟩

theorem field (h : Reads r write P) (p : β → α) (hk : ∀ a, P a → ReadsIn (k a) w (fun b => C b ∧ p b = a) Q) :
    ReadsIn (r >>= k) (fun b => write (p b) ++ w b) C fun b => P (p b) ∧ Q b :=
  fieldOf h p (fun _ _ => Iff.rfl) hk

/-- A check of what has been read. -/
theorem check {r : Reader ε β} {c : Prop} [Decidable c] {e : ε} {d : β → Prop} (hc : ∀ b, C b → (d b ↔ c))
    (h : ¬ c → ReadsIn r w C Q) : ReadsIn (if c then throw e else r) w C fun b => ¬ d b ∧ Q b where
  read_write b rest hb := by
    obtain ⟨hC, hd, hQ⟩ := hb
    have hnot := mt (hc b hC).2 hd
    rw [if_neg hnot]
    exact (h hnot).read_write b rest ⟨hC, hQ⟩
  of_read {bytes b rest} hread := by
    split at hread
    · cases hread
    next hnot =>
    obtain ⟨⟨hC, hQ⟩, hbytes⟩ := (h hnot).of_read hread
    exact ⟨⟨hC, mt (hc b hC).1 hnot, hQ⟩, hbytes⟩

/-- All parts are read. -/
theorem done {b₀ : β} (h : ∀ b, C b ↔ b = b₀) : ReadsIn (pure b₀ : Reader ε β) (fun _ => []) C fun _ => True :=
  Reads.pure fun b => (and_iff_left trivial).trans (h b)

theorem reads {r : Reader ε β} (h : ReadsIn r w (fun _ => True) Q) : Reads r w Q :=
  h.iff fun _ => (and_iff_right trivial).symm

end ReadsIn

/-! ### Numbers, flags and options -/

namespace Reader

/-- A big-endian number of `n` bytes. -/
def be (e : ε) (n : ℕ) : Reader ε ℕ := ofBeBytes <$> take e n

/-- A little-endian number of `n` bytes. -/
def le (e : ε) (n : ℕ) : Reader ε ℕ := ofLeBytes <$> take e n

/-- A big-endian word of `n` bytes. -/
def word (e : ε) (n : ℕ) : Reader ε (BitVec (8 * n)) := (fun k => BitVec.ofNat (8 * n) k) <$> be e n

/-- A little-endian word of `n` bytes. -/
def wordLe (e : ε) (n : ℕ) : Reader ε (BitVec (8 * n)) := (fun k => BitVec.ofNat (8 * n) k) <$> le e n

/-- A byte that is zero or one. -/
def flag (short bad : ε) : Reader ε Bool := do
  let n ← be short 1
  if 1 < n then throw bad else return n == 1

/-- A flag, and after a set one a value. -/
def optional (short bad : ε) (r : Reader ε α) : Reader ε (Option α) := do
  if ← flag short bad then some <$> r else return none

/-- Bytes after their number, which must be an allowed one. -/
def sized (short bad : ε) (n : ℕ) (allowed : ℕ → Prop) [DecidablePred allowed] : Reader ε (List UInt8) := do
  let len ← be short n
  if ¬ allowed len then throw bad else take short len

/-- What is read, taken on by a decoder of it. -/
def decode (r : Reader ε α) (d : α → Except ε β) : Reader ε β := do
  let a ← r
  fun bytes => (·, bytes) <$> d a

/-- A value of what is read, when it is one. -/
def parse (e : ε) (p : α → Option β) (r : Reader ε α) : Reader ε β :=
  r.decode fun a => ((p a).map Except.ok).getD (.error e)

/-- The next `n` bytes, with their number. -/
def array (e : ε) (n : ℕ) : Reader ε {bytes : List UInt8 // bytes.length = n} :=
  parse e (fun bytes => if h : bytes.length = n then some ⟨bytes, h⟩ else none) (take e n)

end Reader

/-- A flag as it is written. -/
def flagBytes (b : Bool) : List UInt8 := toBeBytes 1 b.toNat

/-- A flag, and after a set one a value, as they are written. -/
def optionBytes (write : α → List UInt8) (o : Option α) : List UInt8 :=
  flagBytes o.isSome ++ (o.map write).getD []

variable {r : Reader ε α} {write : α → List UInt8}

namespace Reads

theorem be (e : ε) (n : ℕ) : Reads (.be e n) (toBeBytes n) (· < 256 ^ n) := by
  refine ((Reads.take e n).map ofBeBytes (toBeBytes n) fun bytes h => ?_).iff fun k => ?_
  · rw [← h, toBeBytes_ofBeBytes]
  rw [and_iff_left (length_toBeBytes n k)]
  refine ⟨ofBeBytes_toBeBytes, fun h => ?_⟩
  rw [← h]
  exact (ofBeBytes_lt _).trans_eq (by rw [length_toBeBytes])

theorem le (e : ε) (n : ℕ) : Reads (.le e n) (leBytes n) (· < 256 ^ n) := by
  refine ((Reads.take e n).map ofLeBytes (leBytes n) fun bytes h => ?_).iff fun k => ?_
  · rw [← h, leBytes_ofLeBytes]
  rw [and_iff_left (length_leBytes n k)]
  refine ⟨ofLeBytes_leBytes, fun h => ?_⟩
  rw [← h]
  exact (ofLeBytes_lt _).trans_eq (by rw [length_leBytes])

theorem ofNat_word {r : Reader ε ℕ} {write : ℕ → List UInt8} {n : ℕ} (h : Reads r write (· < 256 ^ n)) :
    Reads ((fun k => BitVec.ofNat (8 * n) k) <$> r) (fun w => write w.toNat) fun _ => True := by
  have hpow : 2 ^ (8 * n) = 256 ^ n := by rw [pow_mul]; rfl
  refine (h.map (fun k => BitVec.ofNat (8 * n) k) BitVec.toNat fun k h => ?_).iff fun w => ?_
  · rw [BitVec.toNat_ofNat, hpow, Nat.mod_eq_of_lt h]
  · refine ⟨fun _ => ⟨?_, hpow ▸ w.isLt⟩, fun _ => trivial⟩
    rw [BitVec.ofNat_toNat, BitVec.setWidth_eq]

theorem word (e : ε) (n : ℕ) : Reads (Reader.word e n) (fun w => toBeBytes n w.toNat) fun _ => True :=
  ofNat_word (be e n)

theorem wordLe (e : ε) (n : ℕ) : Reads (Reader.wordLe e n) (fun w => leBytes n w.toNat) fun _ => True :=
  ofNat_word (le e n)

theorem flag (short bad : ε) : Reads (.flag short bad) flagBytes fun _ => True := by
  have hfields : ReadsIn (.flag short bad) (fun b => toBeBytes 1 b.toNat ++ []) (fun _ => True)
      fun b => b.toNat < 256 ^ 1 ∧ ¬ 1 < b.toNat ∧ True := by
    refine ReadsIn.field (Reads.be short 1) Bool.toNat fun n _ =>
      ReadsIn.check (fun b hb => by rw [hb.2]) fun hn => ReadsIn.done fun b => ?_
    cases b <;> simp <;> omega
  exact hfields.reads.congr (fun b => by cases b <;> simp) fun b _ => (append_nil _).symm

theorem optional (h : Reads r write P) (short bad : ε) :
    Reads (Reader.optional short bad r) (optionBytes write) fun o => ∀ a ∈ o, P a where
  read_write o rest ho := by
    rw [Reader.optional, bind_apply, optionBytes, append_assoc, (flag short bad).read_write _ _ trivial,
      ok_bind]
    rcases o with _ | a
    · rfl
    change (r >>= fun a => Pure.pure (some a)) (write a ++ rest) = _
    rw [bind_apply, h.read_write a rest (ho a rfl)]
    rfl
  of_read {bytes o rest} hread := by
    rw [Reader.optional, bind_apply] at hread
    obtain ⟨⟨b, middle⟩, hb, hrest⟩ := bind_ok hread
    obtain ⟨-, hbytes⟩ := (flag short bad).of_read hb
    rcases b with _ | _
    · cases hrest
      exact ⟨fun a ha => absurd ha (by simp), hbytes⟩
    change (r >>= fun a => Pure.pure (some a)) middle = _ at hrest
    rw [bind_apply] at hrest
    obtain ⟨⟨a, rest'⟩, ha, hdone⟩ := bind_ok hrest
    obtain ⟨hP, hmiddle⟩ := h.of_read ha
    cases hdone
    refine ⟨fun x hx => ?_, ?_⟩
    · rw [Option.mem_some_iff] at hx
      exact hx ▸ hP
    · rw [hbytes, hmiddle, optionBytes, append_assoc]
      rfl

theorem sized (short bad : ε) (n : ℕ) (allowed : ℕ → Prop) [DecidablePred allowed] :
    Reads (.sized short bad n allowed) (fun bytes => toBeBytes n bytes.length ++ bytes) fun bytes =>
      bytes.length < 256 ^ n ∧ allowed bytes.length := by
  have hfields : ReadsIn (.sized short bad n allowed) (fun bytes => toBeBytes n bytes.length ++ id bytes)
      (fun _ => True) fun bytes => bytes.length < 256 ^ n ∧ ¬ ¬ allowed bytes.length ∧ True :=
    ReadsIn.field (Reads.be short n) List.length fun len _ =>
      ReadsIn.check (d := fun bytes => ¬ allowed bytes.length) (fun bytes h => by rw [h.2]) fun _ =>
        (Reads.take short len).iff fun bytes => by rw [true_and, and_true]
  exact hfields.reads.congr (fun bytes => by rw [not_not, and_true]) fun _ _ => rfl

/-- A value with one form among those that are read. -/
theorem decode (h : Reads r write P)
    {d : α → Except ε β} {print : β → α} {Q : β → Prop} (hd : ∀ a b, P a → (d a = .ok b ↔ Q b ∧ print b = a))
    (hP : ∀ b, Q b → P (print b)) : Reads (r.decode d) (fun b => write (print b)) Q where
  read_write b rest hb := by
    rw [Reader.decode, bind_apply, h.read_write _ _ (hP b hb), ok_bind]
    dsimp only
    rw [(hd _ b (hP b hb)).2 ⟨hb, rfl⟩]
    rfl
  of_read {bytes b rest} hread := by
    rw [Reader.decode, bind_apply] at hread
    obtain ⟨⟨a, middle⟩, ha, hread⟩ := bind_ok hread
    obtain ⟨hPa, hbytes⟩ := h.of_read ha
    rcases hb : d a with e | b'
    · dsimp only at hread
      rw [hb] at hread
      cases hread
    dsimp only at hread
    rw [hb] at hread
    cases hread
    obtain ⟨hQ, rfl⟩ := (hd a b hPa).1 hb
    exact ⟨hQ, hbytes⟩

theorem parse (h : Reads r write P) (e : ε)
    {p : α → Option β} {f : β → α} {Q : β → Prop} (hp : ∀ a b, P a → (p a = some b ↔ Q b ∧ f b = a))
    (hP : ∀ b, Q b → P (f b)) : Reads (.parse e p r) (fun b => write (f b)) Q := by
  refine h.decode (fun a b ha => ?_) hP
  rw [← hp a b ha]
  cases p a <;> simp

theorem array (e : ε) (n : ℕ) : Reads (Reader.array e n) Subtype.val fun _ => True := by
  refine (Reads.take e n).parse e (fun bytes a hlength => ?_) fun a _ => a.2
  rw [dif_pos hlength, Option.some.injEq, true_and, Subtype.ext_iff]
  exact eq_comm

end Reads

/-! ### Fields at positions -/

variable {i : ℕ}

/-- What lies between two positions, and then the rest. -/
theorem extract_append_drop (bytes : List UInt8) {j : ℕ} (h : i ≤ j) :
    bytes.extract i j ++ bytes.drop j = bytes.drop i := by
  rw [extract_eq_take_drop]
  nth_rewrite 2 [← Nat.add_sub_cancel' h]
  rw [← drop_drop, take_append_drop]

theorem length_extract_of_le {j : ℕ} (h : j ≤ bytes.length) : (bytes.extract i j).length = j - i := by
  rw [extract_eq_take_drop, length_take, length_drop]
  omega

/-- A string that goes on with a part has the part at that position. -/
theorem extract_of_drop {part rest : List UInt8} (h : bytes.drop i = part ++ rest) :
    bytes.extract i (i + part.length) = part ∧ bytes.drop (i + part.length) = rest := by
  rw [extract_eq_take_drop, Nat.add_sub_cancel_left, ← drop_drop, h]
  exact ⟨take_left, drop_left⟩

section
variable (e : ε) {l m : List UInt8} {n : ℕ}

section
variable (h : i + n ≤ l.length)
include h

/-- A string read from a position on gives what lies there. -/
theorem take_drop_append : Reader.take e n (l.drop i ++ m) = .ok (l.extract i (i + n), l.drop (i + n) ++ m) := by
  have hn : n ≤ (l.drop i).length := by rw [length_drop]; omega
  rw [Reader.take, if_neg (by rw [length_append]; omega), take_append_of_le_length hn,
    drop_append_of_le_length hn, drop_drop, extract_eq_take_drop, Nat.add_sub_cancel_left]

theorem be_drop_append : Reader.be e n (l.drop i ++ m) =
    .ok (ofBeBytes (l.extract i (i + n)), l.drop (i + n) ++ m) := by
  change (Reader.take e n >>= fun a => pure (ofBeBytes a)) _ = _
  rw [bind_apply, take_drop_append e h]
  rfl

theorem le_drop_append : Reader.le e n (l.drop i ++ m) =
    .ok (ofLeBytes (l.extract i (i + n)), l.drop (i + n) ++ m) := by
  change (Reader.take e n >>= fun a => pure (ofLeBytes a)) _ = _
  rw [bind_apply, take_drop_append e h]
  rfl

theorem word_drop_append : Reader.word e n (l.drop i ++ m) =
    .ok (BitVec.ofNat (8 * n) (ofBeBytes (l.extract i (i + n))), l.drop (i + n) ++ m) := by
  change (Reader.be e n >>= fun k => pure (BitVec.ofNat (8 * n) k)) _ = _
  rw [bind_apply, be_drop_append e h]
  rfl

theorem wordLe_drop_append : Reader.wordLe e n (l.drop i ++ m) =
    .ok (BitVec.ofNat (8 * n) (ofLeBytes (l.extract i (i + n))), l.drop (i + n) ++ m) := by
  change (Reader.le e n >>= fun k => pure (BitVec.ofNat (8 * n) k)) _ = _
  rw [bind_apply, le_drop_append e h]
  rfl

end

/-- A string that is a number, read by way of it. -/
theorem map_le_append {f : ℕ → β} (h : l.length = n) : (f <$> Reader.le e n) (l ++ m) = .ok (f (ofLeBytes l), m) := by
  have hread := le_drop_append e (l := l) (m := m) (i := 0) (n := n) (by omega)
  have hall : l.extract 0 (0 + n) = l := by rw [extract_eq_take_drop, drop_zero, take_of_length_le (by omega)]
  rw [drop_zero, hall, zero_add, drop_eq_nil_of_le h.le, nil_append] at hread
  change (Reader.le e n >>= fun k => pure (f k)) _ = _
  rw [bind_apply, hread]
  rfl

end

/-! ### Chunks of one length -/

/-- The first `k` pieces of `n` bytes. -/
def chunks (n : ℕ) : ℕ → List UInt8 → List (List UInt8)
  | 0, _ => []
  | k + 1, bytes => bytes.take n :: chunks n k (bytes.drop n)

/-- The pieces of `n` bytes a string has. -/
def chunksExact (n : ℕ) (bytes : List UInt8) : List (List UInt8) := chunks n (bytes.length / n) bytes

@[simp] theorem length_chunks (n k : ℕ) (bytes : List UInt8) : (chunks n k bytes).length = k := by
  induction k generalizing bytes with
  | zero => rfl
  | succ k ih => rw [chunks, length_cons, ih]

theorem length_chunksExact (n : ℕ) (bytes : List UInt8) : (chunksExact n bytes).length = bytes.length / n :=
  length_chunks _ _ _

section
variable {n : ℕ}

theorem length_flatMap_of_length {f : α → List β} {as : List α} (h : ∀ a ∈ as, (f a).length = n) :
    (as.flatMap f).length = as.length * n := by
  rw [length_flatMap, map_congr_left h, map_const', sum_replicate, smul_eq_mul]

theorem times_chunks {read : List UInt8 → Except ε α}
    (hread : ∀ c rest, c.length = n → r (c ++ rest) = (·, rest) <$> read c) {k : ℕ} (hk : k * n ≤ bytes.length) :
    r.times k bytes = (·, bytes.drop (k * n)) <$> (chunks n k bytes).mapM read := by
  induction k generalizing bytes with
  | zero => rw [zero_mul, drop_zero]; rfl
  | succ k ih =>
    rw [Nat.succ_mul] at hk
    have hfirst := hread (bytes.take n) (bytes.drop n) (by rw [length_take]; omega)
    rw [take_append_drop] at hfirst
    rw [Reader.times, bind_apply, hfirst, chunks, mapM_cons]
    rcases read (bytes.take n) with e | a
    · rfl
    rw [Nat.succ_mul, add_comm (k * n) n, ← drop_drop]
    change (r.times k >>= fun as => pure (a :: as)) (bytes.drop n) = _
    rw [bind_apply, ih (by rw [length_drop]; omega)]
    cases (chunks n k (bytes.drop n)).mapM read <;> rfl

/-- A string of whole pieces and the values they are, when each is one. -/
theorem Reads.chunksExact_mapM_iff (h : Reads r write P) (hn : 0 < n) (hwrite : ∀ a, P a → (write a).length = n)
    {read : List UInt8 → Except ε α} (hread : ∀ c rest, c.length = n → r (c ++ rest) = (·, rest) <$> read c)
    (bytes : List UInt8) (as : List α) : bytes.length % n = 0 ∧ (chunksExact n bytes).mapM read = .ok as ↔
      (∀ a ∈ as, P a) ∧ bytes = as.flatMap write := by
  constructor
  · rintro ⟨hlength, has⟩
    have hwhole : bytes.length / n * n = bytes.length := Nat.div_mul_cancel (Nat.dvd_of_mod_eq_zero hlength)
    have htimes := times_chunks hread hwhole.le
    rw [← chunksExact, has] at htimes
    obtain ⟨⟨-, hP⟩, hbytes⟩ := (h.times _).of_read htimes
    rw [hwhole, drop_length, append_nil] at hbytes
    exact ⟨hP, hbytes⟩
  · rintro ⟨hP, rfl⟩
    have hlength : (as.flatMap write).length = as.length * n :=
      length_flatMap_of_length fun a ha => hwrite a (hP a ha)
    have hcount : (as.flatMap write).length / n = as.length := by rw [hlength, Nat.mul_div_cancel _ hn]
    have htimes := (h.times as.length).read_write as [] ⟨rfl, hP⟩
    rw [append_nil, times_chunks hread hlength.ge] at htimes
    refine ⟨by rw [hlength, Nat.mul_mod_left], ?_⟩
    rw [chunksExact, hcount]
    rcases hread : (chunks n as.length (as.flatMap write)).mapM read with e | as'
    · rw [hread] at htimes
      cases htimes
    rw [hread] at htimes
    exact congrArg Except.ok (Prod.mk.inj (Except.ok.inj htimes)).1

/-- A string of whole pieces and the values they are. -/
theorem Reads.chunksExact_iff (h : Reads r write P) (hn : 0 < n) (hwrite : ∀ a, P a → (write a).length = n)
    {read : List UInt8 → α} (hread : ∀ c rest, c.length = n → r (c ++ rest) = .ok (read c, rest))
    (bytes : List UInt8) (as : List α) :
    bytes.length % n = 0 ∧ (chunksExact n bytes).map read = as ↔ (∀ a ∈ as, P a) ∧ bytes = as.flatMap write := by
  have hmapM := @Reads.chunksExact_mapM_iff _ _ _ _ _ _ h hn hwrite (fun c => .ok (read c)) hread bytes as
  rwa [mapM_ok fun _ _ => rfl, Except.ok.injEq] at hmapM

/-- A string of as many pieces as there are values, and these values. -/
theorem Reads.chunksExact_eq_iff (h : Reads r write P) (hn : 0 < n) (hwrite : ∀ a, P a → (write a).length = n)
    {read : List UInt8 → α} (hread : ∀ c rest, c.length = n → r (c ++ rest) = .ok (read c, rest))
    (bytes : List UInt8) {as : List α} (has : ∀ a ∈ as, P a) :
    bytes.length = as.length * n ∧ (chunksExact n bytes).map read = as ↔ as.flatMap write = bytes := by
  have hiff := h.chunksExact_iff hn hwrite hread bytes as
  rw [and_iff_right has] at hiff
  rw [eq_comm (a := as.flatMap write), ← hiff]
  refine and_congr_left fun hmap => ⟨fun hlength => by rw [hlength, Nat.mul_mod_left], fun hwhole => ?_⟩
  rw [← hmap, length_map, length_chunksExact, Nat.div_mul_cancel (Nat.dvd_of_mod_eq_zero hwhole)]

end

end Quil.Schemes

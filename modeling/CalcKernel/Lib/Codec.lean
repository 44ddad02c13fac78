import Mathlib.Data.List.Basic
import Mathlib.Data.List.Induction
import Mathlib.Tactic.Common
import Mathlib.Tactic.Ring

/-!
# Binary formats

A reader consumes bytes from the front and may fail.  It reads the values a
writer writes when it undoes the writer on valid values and accepts nothing else;
this is kept by sequencing, checking, mapping and counted repetition, so a format
is correct as soon as its parts are.
-/

namespace CalcKernel.Lib

universe u

/-- Readers in the order the bytes are consumed. -/
abbrev Reader (ε : Type) : Type → Type := StateT (List UInt8) (Except ε)

/-- The reader undoes the writer on valid values, and accepts only what the writer writes. -/
structure Reads {ε α : Type} (r : Reader ε α) (write : α → List UInt8) (valid : α → Prop) :
    Prop where
  read : ∀ {a : α}, valid a → ∀ rest, r.run (write a ++ rest) = .ok (a, rest)
  sound : ∀ {bytes a rest}, r.run bytes = .ok (a, rest) → valid a ∧ bytes = write a ++ rest

namespace Reader

variable {ε : Type}

def fail {α : Type} (e : ε) : Reader ε α := fun _ ↦ .error e

/-- The next `n` bytes. -/
def exact (n : Nat) (short : ε) : Reader ε (List UInt8) := fun bytes ↦
  if n ≤ bytes.length then .ok (bytes.take n, bytes.drop n) else .error short

/-- `n` items in a row. -/
def repeated {α : Type} (r : Reader ε α) : Nat → Reader ε (List α)
  | 0 => pure []
  | n + 1 => do
      let a ← r
      let rest ← repeated r n
      return a :: rest

/-- Read a whole input; nothing may be left. -/
def whole {α : Type} (r : Reader ε α) (trailing : ε) (bytes : List UInt8) : Except ε α :=
  match r.run bytes with
  | .ok (a, []) => .ok a
  | .ok (_, _ :: _) => .error trailing
  | .error e => .error e

end Reader

namespace Reads

variable {ε α β : Type} {r : Reader ε α} {write : α → List UInt8} {valid : α → Prop}

theorem congr {write' : α → List UInt8} {valid' : α → Prop} (h : Reads r write valid)
    (hvalid : ∀ a, valid' a ↔ valid a) (hwrite : ∀ a, valid a → write' a = write a) :
    Reads r write' valid' where
  read := by
    intro a ha rest
    have ha := (hvalid a).mp ha
    rw [hwrite a ha]
    exact h.read ha rest
  sound := by
    intro bytes a rest hr
    obtain ⟨ha, hbytes⟩ := h.sound hr
    exact ⟨(hvalid a).mpr ha, (hwrite a ha).symm ▸ hbytes⟩

theorem pure (b : β) : Reads (ε := ε) (Pure.pure b) (fun _ ↦ []) (· = b) where
  read := by
    rintro a rfl rest
    rfl
  sound := by
    intro bytes a rest h
    cases h
    exact ⟨rfl, rfl⟩

theorem fail (e : ε) (h : ∀ a, ¬ valid a) : Reads (Reader.fail e) write valid where
  read := fun ha ↦ absurd ha (h _)
  sound := by
    intro bytes a rest hr
    cases hr

theorem bind_run (r : Reader ε α) (k : α → Reader ε β) (bytes : List UInt8) :
    (r >>= k).run bytes =
      match r.run bytes with
      | .ok (a, rest) => (k a).run rest
      | .error e => .error e := by
  rw [StateT.run_bind]
  cases r.run bytes <;> rfl

/-- What is read first is a part of what is read in the end. -/
theorem bind {k : α → Reader ε β} {write' : β → List UInt8} {valid' : α → β → Prop} (part : β → α)
    (hr : Reads r write valid) (hk : ∀ a, Reads (k a) write' (valid' a))
    (hpart : ∀ a b, valid' a b → part b = a) :
    Reads (r >>= k) (fun b ↦ write (part b) ++ write' b)
      (fun b ↦ valid (part b) ∧ valid' (part b) b) where
  read := by
    rintro b ⟨hfirst, hrest⟩ rest
    rw [bind_run, List.append_assoc, hr.read hfirst]
    exact (hk _).read hrest rest
  sound := by
    intro bytes b rest h
    rw [bind_run] at h
    cases hfirst : r.run bytes with
    | error e =>
        rw [hfirst] at h
        cases h
    | ok p =>
        obtain ⟨a, middle⟩ := p
        rw [hfirst] at h
        obtain ⟨ha, hbytes⟩ := hr.sound hfirst
        obtain ⟨hb, hmiddle⟩ := (hk a).sound h
        obtain rfl := hpart a b hb
        refine ⟨⟨ha, hb⟩, ?_⟩
        rw [hbytes, hmiddle, List.append_assoc]

/-- A check between two reads. -/
theorem ite {c : Prop} [Decidable c] {e : ε} (h : Reads r write valid) :
    Reads (if c then Reader.fail e else r) write (fun a ↦ ¬ c ∧ valid a) where
  read := by
    rintro a ⟨hc, ha⟩ rest
    rw [if_neg hc]
    exact h.read ha rest
  sound := by
    intro bytes a rest hr
    split at hr
    · cases hr
    · rename_i hc
      obtain ⟨ha, hbytes⟩ := h.sound hr
      exact ⟨⟨hc, ha⟩, hbytes⟩

/-- Reading a value in another form. -/
theorem map {f : α → β} {g : β → α} (h : Reads r write valid) (hg : ∀ a, valid a → g (f a) = a)
    (hf : ∀ b, f (g b) = b) : Reads (f <$> r) (fun b ↦ write (g b)) (fun b ↦ valid (g b)) where
  read := by
    intro b hb rest
    rw [StateT.run_map, h.read hb]
    exact congrArg (fun c ↦ Except.ok (c, rest)) (hf b)
  sound := by
    intro bytes b rest hr
    rw [StateT.run_map] at hr
    cases hread : r.run bytes with
    | error e =>
        rw [hread] at hr
        cases hr
    | ok p =>
        obtain ⟨a, rest'⟩ := p
        rw [hread] at hr
        cases hr
        obtain ⟨ha, hbytes⟩ := h.sound hread
        rw [hg a ha]
        exact ⟨ha, hbytes⟩

/-- Only some of the values written are accepted, in a form of their own. -/
theorem mapExcept {f : α → Except ε β} {g : β → α} {p : β → Prop} (h : Reads r write valid)
    (hf : ∀ a b, f a = .ok b ↔ a = g b ∧ p b) :
    Reads (r >>= fun a ↦ (f a : Except ε β)) (fun b ↦ write (g b))
      (fun b ↦ valid (g b) ∧ p b) where
  read := by
    rintro b ⟨hb, hp⟩ rest
    rw [bind_run, h.read hb]
    change (f (g b) >>= fun c ↦ Pure.pure (c, rest)) = _
    rw [(hf _ _).mpr ⟨rfl, hp⟩]
    rfl
  sound := by
    intro bytes b rest hr
    rw [bind_run] at hr
    cases hread : r.run bytes with
    | error e =>
        rw [hread] at hr
        cases hr
    | ok p =>
        obtain ⟨a, rest'⟩ := p
        rw [hread] at hr
        change (f a >>= fun c ↦ Pure.pure (c, rest')) = _ at hr
        cases hfa : f a with
        | error e =>
            rw [hfa] at hr
            cases hr
        | ok c =>
            rw [hfa] at hr
            cases hr
            obtain ⟨ha, hbytes⟩ := h.sound hread
            obtain ⟨rfl, hp⟩ := (hf a b).mp hfa
            exact ⟨⟨ha, hp⟩, hbytes⟩

theorem exact (n : Nat) (short : ε) :
    Reads (Reader.exact n short) id (fun bytes ↦ bytes.length = n) where
  read := by
    rintro bytes rfl rest
    simp [Reader.exact, StateT.run]
  sound := by
    intro bytes a rest h
    simp only [Reader.exact, StateT.run] at h
    split at h
    · rename_i hn
      cases h
      exact ⟨List.length_take_of_le hn, (List.take_append_drop n bytes).symm⟩
    · cases h

theorem repeated (h : Reads r write valid) (n : Nat) :
    Reads (Reader.repeated r n) (fun l ↦ l.flatMap write)
      (fun l ↦ l.length = n ∧ ∀ a ∈ l, valid a) where
  read := by
    rintro l ⟨hlen, hl⟩ rest
    induction l generalizing n with
    | nil =>
        obtain rfl : 0 = n := hlen
        rfl
    | cons a l ih =>
        obtain ⟨n, rfl⟩ : ∃ k, n = k + 1 := ⟨l.length, hlen.symm⟩
        have htail := ih n (by simpa using hlen) fun b hb ↦ hl b (List.mem_cons_of_mem _ hb)
        rw [Reader.repeated, bind_run, List.flatMap_cons, List.append_assoc,
          h.read (hl a List.mem_cons_self)]
        simp only [bind_run, htail]
        rfl
  sound := by
    intro bytes l rest hr
    induction n generalizing bytes l rest with
    | zero =>
        cases hr
        exact ⟨⟨rfl, by simp⟩, rfl⟩
    | succ n ih =>
        rw [Reader.repeated, bind_run] at hr
        cases hread : r.run bytes with
        | error e =>
            rw [hread] at hr
            cases hr
        | ok p =>
            obtain ⟨a, middle⟩ := p
            simp only [hread, bind_run] at hr
            cases htail : (Reader.repeated r n).run middle with
            | error e =>
                rw [htail] at hr
                cases hr
            | ok q =>
                obtain ⟨as, rest'⟩ := q
                rw [htail] at hr
                cases hr
                obtain ⟨ha, hbytes⟩ := h.sound hread
                obtain ⟨⟨hlen, has⟩, hmiddle⟩ := ih htail
                refine ⟨⟨by simp [hlen], ?_⟩, by simp [hbytes, hmiddle]⟩
                intro b hb
                rcases List.mem_cons.mp hb with rfl | hb
                · exact ha
                · exact has b hb

/-- A whole input: what is written is read back, and what is read was written. -/
theorem whole_eq_ok (h : Reads r write valid) {trailing : ε} {bytes : List UInt8} {a : α} :
    r.whole trailing bytes = .ok a ↔ valid a ∧ bytes = write a := by
  constructor
  · intro hr
    unfold Reader.whole at hr
    split at hr
    · rename_i b hread
      cases hr
      obtain ⟨ha, hbytes⟩ := h.sound hread
      exact ⟨ha, by simpa using hbytes⟩
    · cases hr
    · cases hr
  · rintro ⟨ha, rfl⟩
    have hread := h.read ha []
    rw [List.append_nil] at hread
    simp only [Reader.whole, hread]

end Reads

/-! ## Unsigned integers, most significant byte first -/

def bigEndian : Nat → Nat → List UInt8
  | 0, _ => []
  | width + 1, n => bigEndian width (n / 256) ++ [UInt8.ofNat n]

def ofBigEndian (bytes : List UInt8) : Nat := bytes.foldl (fun n b ↦ n * 256 + b.toNat) 0

@[simp] theorem bigEndian_length (width n : Nat) : (bigEndian width n).length = width := by
  induction width generalizing n with
  | zero => rfl
  | succ width ih => simp [bigEndian, ih]

theorem ofBigEndian_append (bytes : List UInt8) (b : UInt8) :
    ofBigEndian (bytes ++ [b]) = ofBigEndian bytes * 256 + b.toNat := by
  simp [ofBigEndian]

theorem ofBigEndian_bigEndian (width n : Nat) :
    ofBigEndian (bigEndian width n) = n % 256 ^ width := by
  induction width generalizing n with
  | zero => simp [bigEndian, ofBigEndian, Nat.mod_one]
  | succ width ih =>
      rw [bigEndian, ofBigEndian_append, ih, pow_succ, Nat.mul_comm (256 ^ width) 256,
        Nat.mod_mul]
      simp only [UInt8.toNat_ofNat']
      omega

theorem ofBigEndian_lt (bytes : List UInt8) : ofBigEndian bytes < 256 ^ bytes.length := by
  induction bytes using List.reverseRecOn with
  | nil => simp [ofBigEndian]
  | append_singleton bytes b ih =>
      have hb := b.toNat_lt
      rw [ofBigEndian_append, List.length_append, List.length_singleton, pow_succ]
      omega

theorem bigEndian_ofBigEndian (bytes : List UInt8) :
    bigEndian bytes.length (ofBigEndian bytes) = bytes := by
  induction bytes using List.reverseRecOn with
  | nil => rfl
  | append_singleton bytes b ih =>
      have hb := b.toNat_lt
      rw [List.length_append, List.length_singleton, bigEndian, ofBigEndian_append]
      have hdiv : (ofBigEndian bytes * 256 + b.toNat) / 256 = ofBigEndian bytes := by omega
      have hmod : UInt8.ofNat (ofBigEndian bytes * 256 + b.toNat) = b := by
        apply UInt8.toNat_inj.mp
        rw [UInt8.toNat_ofNat']
        omega
      rw [hdiv, hmod, ih]

theorem ofBigEndian_eq_iff {bytes : List UInt8} {width n : Nat} (hlen : bytes.length = width)
    (hn : n < 256 ^ width) : ofBigEndian bytes = n ↔ bytes = bigEndian width n := by
  subst hlen
  constructor
  · rintro rfl
    exact (bigEndian_ofBigEndian bytes).symm
  · intro h
    rw [h, ofBigEndian_bigEndian, Nat.mod_eq_of_lt hn]

theorem eq_append_iff {α : Type u} {l first rest : List α} :
    l = first ++ rest ↔ l.take first.length = first ∧ l.drop first.length = rest := by
  constructor
  · rintro rfl
    exact ⟨List.take_left, List.drop_left⟩
  · rintro ⟨hfirst, hrest⟩
    calc
      l = l.take first.length ++ l.drop first.length := (List.take_append_drop _ _).symm
      _ = first ++ rest := by rw [hfirst, hrest]

/-- An unsigned integer of `width` bytes. -/
def Reader.natural {ε : Type} (width : Nat) (short : ε) : Reader ε Nat :=
  ofBigEndian <$> Reader.exact width short

theorem Reads.natural {ε : Type} (width : Nat) (short : ε) :
    Reads (Reader.natural width short) (bigEndian width) (· < 256 ^ width) where
  read := by
    intro n hn rest
    have hread := (Reads.exact width short).read (bigEndian_length width n) rest
    rw [Reader.natural, StateT.run_map]
    change Functor.map _ ((Reader.exact width short).run (id (bigEndian width n) ++ rest)) = _
    rw [hread]
    change Except.ok (ofBigEndian (bigEndian width n), rest) = _
    rw [ofBigEndian_bigEndian, Nat.mod_eq_of_lt hn]
  sound := by
    intro bytes n rest hr
    rw [Reader.natural, StateT.run_map] at hr
    cases hread : (Reader.exact width short).run bytes with
    | error e =>
        rw [hread] at hr
        cases hr
    | ok p =>
        obtain ⟨a, rest'⟩ := p
        rw [hread] at hr
        cases hr
        obtain ⟨rfl, hbytes⟩ := (Reads.exact width short).sound hread
        refine ⟨ofBigEndian_lt a, ?_⟩
        rw [bigEndian_ofBigEndian]
        exact hbytes

/-! ## Words and arrays -/

section Words

variable {ε : Type}

theorem bigEndian_u8 (x : UInt8) : bigEndian 1 x.toNat = [x] := by
  simp [bigEndian]

theorem Reads.u8 (short : ε) :
    Reads (UInt8.ofNat <$> Reader.natural 1 short) (fun x ↦ [x]) (fun _ ↦ True) := by
  have h := (Reads.natural 1 short).map (f := UInt8.ofNat) (g := UInt8.toNat)
    (fun n hn ↦ by simpa using hn) (fun x ↦ UInt8.ofNat_toNat)
  apply h.congr
  · intro x
    simpa using x.toNat_lt
  · intro x _
    exact (bigEndian_u8 x).symm

theorem Reads.u16 (short : ε) : Reads (UInt16.ofNat <$> Reader.natural 2 short)
    (fun x ↦ bigEndian 2 x.toNat) (fun _ ↦ True) := by
  have h := (Reads.natural 2 short).map (f := UInt16.ofNat) (g := UInt16.toNat)
    (fun n hn ↦ by simpa using hn) (fun x ↦ UInt16.ofNat_toNat)
  apply h.congr
  · intro x
    simpa using x.toNat_lt
  · intro x _
    rfl

theorem Reads.u32 (short : ε) : Reads (UInt32.ofNat <$> Reader.natural 4 short)
    (fun x ↦ bigEndian 4 x.toNat) (fun _ ↦ True) := by
  have h := (Reads.natural 4 short).map (f := UInt32.ofNat) (g := UInt32.toNat)
    (fun n hn ↦ by simpa using hn) (fun x ↦ UInt32.ofNat_toNat)
  apply h.congr
  · intro x
    simpa using x.toNat_lt
  · intro x _
    rfl

/-- `n` bytes as a vector. -/
def Reader.array (n : Nat) (short wrong : ε) : Reader ε (Vector UInt8 n) := do
  let bytes ← Reader.exact n short
  (if h : bytes.length = n then .ok ⟨bytes.toArray, h⟩ else .error wrong : Except ε _)

theorem Reads.array (n : Nat) (short wrong : ε) :
    Reads (Reader.array n short wrong) (fun v : Vector UInt8 n ↦ v.toList) (fun _ ↦ True) := by
  have hf : ∀ (bytes : List UInt8) (v : Vector UInt8 n),
      (if h : bytes.length = n then .ok ⟨bytes.toArray, h⟩ else .error wrong :
        Except ε (Vector UInt8 n)) = .ok v ↔ bytes = v.toList ∧ True := by
    intro bytes v
    constructor
    · intro h
      split at h
      · cases h
        exact ⟨by simp, trivial⟩
      · cases h
    · rintro ⟨rfl, -⟩
      obtain ⟨bytes, hlen⟩ := v
      simp [hlen]
  apply ((Reads.exact n short).mapExcept hf).congr
  · simp
  · intro v _
    rfl

end Words

end CalcKernel.Lib

import Linkage.Proofs.Truncation

/-!
The languages of steps over a cursor. A language says which bytes spell which value. A step accepts a language if it
succeeds only on bytes that start with a spelling, of which it gives the value, and if it takes every spelling whole,
whatever follows it, and reports what is cut off as a truncation.
-/
namespace Linkage

namespace Bytes

theorem foldl_toNat_lt (bs : Bytes) (start : Nat) :
    bs.foldl (fun n b => 256 * n + b.toNat) start < (start + 1) * 256 ^ bs.length := by
  induction bs generalizing start with
  | nil => simp
  | cons b bs ih =>
    have hb : b.toNat < 256 := b.toNat_lt
    have hstep : (256 * start + b.toNat + 1) * 256 ^ bs.length ≤ (start + 1) * 256 * 256 ^ bs.length :=
      Nat.mul_le_mul_right _ (by omega)
    rw [List.foldl_cons, List.length_cons, Nat.pow_succ', ← Nat.mul_assoc]
    exact Nat.lt_of_lt_of_le (ih _) hstep

theorem toNat_lt (bs : Bytes) : bs.toNat < 256 ^ bs.length := by simpa [toNat] using bs.foldl_toNat_lt 0

end Bytes

/-- A given number of bytes. -/
abbrev Word (width : Nat) := { bs : Bytes // bs.length = width }

namespace Word

variable {width : Nat}

/-- The number in the bytes. -/
def nat (w : Word width) : Nat := w.1.toNat

/-- The number in the bytes in two's complement: its first bit is the sign. -/
def int (w : Word width) : Int :=
  if w.nat < 2 ^ (8 * width - 1) then w.nat else w.nat - (2 ^ (8 * width) : Nat)

theorem nat_lt (w : Word width) : w.nat < 2 ^ (8 * width) := by
  have h := w.1.toNat_lt
  rwa [w.2, show (256 : Nat) = 2 ^ 8 from rfl, ← Nat.pow_mul] at h

theorem signed_nat (w : Word width) : signed (8 * width) w.nat = w.int := by
  have hlt := w.nat_lt
  have hmod : (w.nat : Int) % (2 ^ (8 * width) : Nat) = w.nat := by
    rw [← Int.natCast_emod, Nat.mod_eq_of_lt hlt]
  have hhalf : w.nat < 2 ^ (8 * width - 1) ↔ (w.nat : Int) < ((2 ^ (8 * width) : Nat) + 1) / 2 := by
    cases width with
    | zero =>
      have hzero : w.nat = 0 := Nat.lt_one_iff.mp hlt
      simp [hzero]
    | succ width =>
      have hpow : 2 ^ (8 * (width + 1)) = 2 * 2 ^ (8 * (width + 1) - 1) := by
        rw [← Nat.pow_succ']
        congr 1
      omega
  rw [signed, Nat.one_shiftLeft, Int.bmod, hmod, int]
  simp only [hhalf]

def zero (width : Nat) : Word width := ⟨List.replicate width 0, List.length_replicate⟩

end Word

namespace Scan

variable {ε δ α β ι : Type} {Cut : ε → Prop}

/-- The step succeeds on the spellings of the language and on nothing else. -/
structure Accepts (Cut : ε → Prop) (p : Scan ε α) (L : Bytes → α → Prop) : Prop where
  sound (pos : Nat) (data : Bytes) (a : α) (c : Cursor) :
    p ⟨pos, data, none⟩ = .ok (a, c) → ∃ bs rest, data = bs ++ rest ∧ L bs a
  takes (bs : Bytes) (a : α) : L bs a → Takes Cut p bs a

/-- The bytes that `enc` writes for some `w` spell the value `val w`. -/
def Spelt (enc : ι → Bytes) (val : ι → α) (bs : Bytes) (a : α) : Prop := ∃ w, bs = enc w ∧ a = val w

namespace Accepts

variable {p : Scan ε α} {L : Bytes → α → Prop}

/-- Where a step succeeds, the cursor has moved just past the spelling. -/
theorem eq_ok (hp : Accepts Cut p L) {pos : Nat} {data : Bytes} {a : α} {c : Cursor}
    (h : p ⟨pos, data, none⟩ = .ok (a, c)) :
    ∃ bs rest, data = bs ++ rest ∧ L bs a ∧ c = ⟨pos + bs.length, rest, none⟩ := by
  obtain ⟨bs, rest, rfl, hbs⟩ := hp.sound pos data a c h
  rw [(hp.takes bs a hbs).reads, Except.ok.injEq, Prod.mk.injEq] at h
  exact ⟨bs, rest, rfl, hbs, h.2.symm⟩

theorem congr {L' : Bytes → α → Prop} (hp : Accepts Cut p L) (h : ∀ bs a, L bs a ↔ L' bs a) : Accepts Cut p L' := by
  obtain rfl : L = L' := by
    funext bs a
    exact propext (h bs a)
  exact hp

theorem pure (a : α) : Accepts Cut (Pure.pure a : Scan ε α) fun bs b => bs = [] ∧ b = a where
  sound pos data b c h := by
    cases h
    exact ⟨[], data, rfl, rfl, rfl⟩
  takes bs b h := by
    obtain ⟨rfl, rfl⟩ := h
    exact ⟨reads_pure b, fun _ _ hk => absurd hk (Nat.not_lt_zero _)⟩

theorem throw (e : ε) : Accepts Cut (MonadExcept.throw e : Scan ε α) fun _ _ => False where
  sound pos data a c h := by cases h
  takes bs a h := h.elim

/-- One step after another. The first has to spell what it gives, for the second may depend on it. -/
theorem bind {enc : ι → Bytes} {val : ι → α} {f : α → Scan ε β} {Then : ι → Bytes → β → Prop}
    (hp : Accepts Cut p (Spelt enc val)) (hf : ∀ w, Accepts Cut (f (val w)) (Then w)) :
    Accepts Cut (p >>= f) fun bs b => ∃ w more, bs = enc w ++ more ∧ Then w more b where
  sound pos data b c h := by
    have hsplit : (p ⟨pos, data, none⟩ >>= fun r => f r.1 r.2) = .ok (b, c) := h
    obtain ⟨⟨a, c₁⟩, ha, hb⟩ := bind_eq_ok_iff.mp hsplit
    obtain ⟨_, rest, rfl, ⟨w, rfl, rfl⟩, rfl⟩ := hp.eq_ok ha
    obtain ⟨more, rest, rfl, hmore⟩ := (hf w).sound _ _ _ _ hb
    exact ⟨enc w ++ more, rest, by rw [List.append_assoc], w, more, rfl, hmore⟩
  takes bs b h := by
    obtain ⟨w, more, rfl, hmore⟩ := h
    exact (hp.takes _ _ ⟨w, rfl, rfl⟩).bind ((hf w).takes _ _ hmore)

theorem map {enc : ι → Bytes} {val : ι → α} (hp : Accepts Cut p (Spelt enc val)) (f : α → β) :
    Accepts Cut (do return f (← p) : Scan ε β) (Spelt enc fun w => f (val w)) := by
  refine (hp.bind fun w => .pure (f (val w))).congr fun bs b => ?_
  simp [Spelt]

theorem mapError {Cut' : δ → Prop} (hp : Accepts Cut p L) {f : ε → δ} (hf : ∀ e, Cut e → Cut' (f e)) :
    Accepts Cut' (Scan.mapError f p) L where
  sound pos data a c h := hp.sound pos data a c (eq_ok_of_mapError h)
  takes bs a h := (hp.takes bs a h).mapError hf

theorem image (hp : Accepts Cut p L) (f : α → β) :
    Accepts Cut (do return f (← p) : Scan ε β) fun bs b => ∃ a, L bs a ∧ b = f a := by
  -- any language is spelt by its own pairs
  have hspelt : Accepts Cut p (Spelt (fun w : { w : Bytes × α // L w.1 w.2 } => w.1.1) fun w => w.1.2) := by
    refine hp.congr fun bs a => ⟨fun h => ⟨⟨(bs, a), h⟩, rfl, rfl⟩, ?_⟩
    rintro ⟨⟨_, h⟩, rfl, rfl⟩
    exact h
  refine (hspelt.map f).congr fun bs b => ⟨?_, ?_⟩
  · rintro ⟨⟨w, h⟩, rfl, rfl⟩
    exact ⟨w.2, h, rfl⟩
  · rintro ⟨a, h, rfl⟩
    exact ⟨⟨(bs, a), h⟩, rfl, rfl⟩

/-- One step after another, whose values are put together. -/
theorem pair {κ γ : Type} {q : Scan ε β} {enc : ι → Bytes} {val : ι → α} {enc' : κ → Bytes} {val' : κ → β}
    (hp : Accepts Cut p (Spelt enc val)) (hq : Accepts Cut q (Spelt enc' val')) (f : α → β → γ) :
    Accepts Cut (do
      let a ← p
      return f a (← q) : Scan ε γ)
      (Spelt (fun w : ι × κ => enc w.1 ++ enc' w.2) fun w => f (val w.1) (val' w.2)) := by
  refine (hp.bind fun w => hq.map (f (val w))).congr fun bs c => ?_
  constructor
  · rintro ⟨w, _, rfl, v, rfl, rfl⟩
    exact ⟨(w, v), rfl, rfl⟩
  · rintro ⟨⟨w, v⟩, rfl, rfl⟩
    exact ⟨w, enc' v, rfl, v, rfl, rfl⟩

/-- A step before which a condition is refused. -/
theorem guard (hp : Accepts Cut p L) (c : Prop) [Decidable c] (e : ε) :
    Accepts Cut (do
      if c then MonadExcept.throw e
      p : Scan ε α) fun bs a => ¬ c ∧ L bs a := by
  by_cases h : c
  · rw [if_pos h]
    exact (throw e).congr fun _ _ => ⟨False.elim, fun hand => hand.1 h⟩
  · rw [if_neg h]
    exact hp.congr fun _ _ => ⟨fun hL => ⟨h, hL⟩, And.right⟩

theorem timesFrom {enc : ι → Bytes} {val : ι → α} {step : Nat → Scan ε α}
    (h : ∀ i, Accepts Cut (step i) (Spelt enc val)) (i n : Nat) :
    Accepts Cut (Scan.timesFrom step i n)
      (Spelt (fun ws : { ws : List ι // ws.length = n } => ws.1.flatMap enc) fun ws => ws.1.map val) := by
  induction n generalizing i with
  | zero =>
    refine (pure []).congr fun bs as => ⟨?_, ?_⟩
    · rintro ⟨rfl, rfl⟩
      exact ⟨⟨[], rfl⟩, rfl, rfl⟩
    · rintro ⟨⟨ws, hws⟩, rfl, rfl⟩
      obtain rfl := List.eq_nil_of_length_eq_zero hws
      exact ⟨rfl, rfl⟩
  | succ n ih =>
    refine ((h i).pair (ih (i + 1)) List.cons).congr fun bs as => ⟨?_, ?_⟩
    · rintro ⟨⟨w, ws, hws⟩, rfl, rfl⟩
      exact ⟨⟨w :: ws, congrArg (· + 1) hws⟩, rfl, rfl⟩
    · rintro ⟨⟨ws, hws⟩, rfl, rfl⟩
      cases ws with
      | nil => cases hws
      | cons w ws => exact ⟨(w, ⟨ws, Nat.succ.inj hws⟩), rfl, rfl⟩

/-- So many spellings, one after the other. -/
theorem times {enc : ι → Bytes} {val : ι → α} {step : Nat → Scan ε α} (h : ∀ i, Accepts Cut (step i) (Spelt enc val))
    (n : Nat) : Accepts Cut (Scan.times n step)
      (Spelt (fun ws : { ws : List ι // ws.length = n } => ws.1.flatMap enc) fun ws => ws.1.map val) :=
  timesFrom h 0 n

variable [OfTruncation ε]

/-- What the next `n` bytes give. -/
theorem ofRead {n : Nat} {read : Cursor → α × Cursor} (value : Bytes → α)
    (hread : ∀ c, read c = (value (c.bytes n).1, (c.bytes n).2)) (hcut : ∀ t, Cut (OfTruncation.ofTruncation t)) :
    Accepts Cut (Scan.ofRead read : Scan ε α) (Spelt (fun w : Word n => w.1) fun w => value w.1) where
  sound pos data a c h := by
    obtain ⟨hn, rfl⟩ := le_of_ofRead hread h
    exact ⟨data.take n, data.drop n, (List.take_append_drop n data).symm,
      ⟨data.take n, List.length_take_of_le hn⟩, rfl, rfl⟩
  takes bs a h := by
    obtain ⟨⟨bs, hlength⟩, rfl, rfl⟩ := h
    exact .ofRead hread hcut hlength

variable (hcut : ∀ t, Cut (OfTruncation.ofTruncation t))
include hcut

theorem bytes (n : Nat) : Accepts Cut (Scan.bytes n : Scan ε Bytes) (Spelt (fun w : Word n => w.1) fun w => w.1) :=
  ofRead id (fun _ => rfl) hcut

theorem number (width : Nat) : Accepts Cut (Scan.ofRead (Cursor.number width) : Scan ε Nat)
    (Spelt (fun w : Word width => w.1) Word.nat) :=
  ofRead Bytes.toNat (fun _ => rfl) hcut

/-- One byte as what spells it. -/
theorem byte : Accepts Cut (Scan.u1 : Scan ε Nat) (Spelt (fun b : UInt8 => [b]) UInt8.toNat) := by
  refine (number hcut 1).congr fun bs n => ⟨?_, ?_⟩
  · rintro ⟨⟨bs, hbs⟩, rfl, rfl⟩
    obtain ⟨b, rfl⟩ := List.length_eq_one_iff.mp hbs
    exact ⟨b, rfl, by simp [Word.nat, Bytes.toNat]⟩
  · rintro ⟨b, rfl, rfl⟩
    exact ⟨⟨[b], rfl⟩, rfl, by simp [Word.nat, Bytes.toNat]⟩

theorem u1 : Accepts Cut (Scan.u1 : Scan ε Nat) (Spelt (fun w : Word 1 => w.1) Word.nat) := number hcut 1

theorem u2 : Accepts Cut (Scan.u2 : Scan ε Nat) (Spelt (fun w : Word 2 => w.1) Word.nat) := number hcut 2

end Accepts

end Scan

end Linkage

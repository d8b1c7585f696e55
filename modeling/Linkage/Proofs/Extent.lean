import Linkage.Proofs.Reading
import Linkage.Proofs.Run

/-!
Steps that stay within their bytes. A cursor over some bytes is told by its position alone. `Moves` says what a step
comes to when it starts at a position: it goes on to a later position within the bytes, or it fails. Where it fails for
want of bytes, it had asked for more than were left.
-/
namespace Linkage

namespace Truncation

/-- The refused read started within these bytes and went beyond their end. -/
def Of (data : Bytes) (t : Truncation) : Prop := t.offset + t.available = data.length ∧ (t.available : Int) < t.need

end Truncation

namespace Bytes

/-- The bytes from a position on, as many as asked for. -/
def slice (data : Bytes) (pos n : Nat) : Bytes := (data.drop pos).take n

theorem slice_isInfix (data : Bytes) (pos n : Nat) : data.slice pos n <:+: data :=
  (List.take_prefix n _).isInfix.trans (List.drop_suffix pos data).isInfix

theorem length_slice {data : Bytes} {pos n : Nat} (h : pos + n ≤ data.length) : (data.slice pos n).length = n := by
  rw [slice, List.length_take, List.length_drop]
  omega

/-- A slice of one byte is the byte at its position. -/
theorem getElem?_of_slice {data : Bytes} {pos op : Nat} (h : pos + 1 ≤ data.length)
    (hop : op = (data.slice pos 1).toNat) : data[pos]?.map UInt8.toNat = some op := by
  have hdrop : data.drop pos = data[pos] :: data.drop (pos + 1) := List.drop_eq_getElem_cons (by omega)
  rw [List.getElem?_eq_getElem (by omega), hop, slice, hdrop, List.take_succ_cons, List.take_zero]
  simp [toNat]

end Bytes

namespace Cursor

/-- The cursor that stands at a position of the data. -/
def atPos (data : Bytes) (pos : Nat) : Cursor := ⟨pos, data.drop pos, none⟩

theorem ofBytes_eq_atPos (data : Bytes) : ofBytes data = atPos data 0 := rfl

variable {data : Bytes} {pos n : Nat}

theorem bytes_atPos_of_le (h : pos + n ≤ data.length) :
    (atPos data pos).bytes n = (data.slice pos n, atPos data (pos + n)) := by
  have hle : n ≤ (data.drop pos).length := by
    rw [List.length_drop]
    omega
  rw [atPos, bytes_of_le hle, List.drop_drop]
  rfl

/-- A read that does not fit moves nothing and says what was missing. -/
theorem bytes_atPos_of_lt (hpos : pos ≤ data.length) (h : data.length < pos + n) :
    ∃ t : Truncation, t.Of data ∧ (atPos data pos).bytes n = ([], ⟨pos, data.drop pos, some t⟩) := by
  have hlength : (data.drop pos).length = data.length - pos := List.length_drop
  refine ⟨⟨n, pos, (data.drop pos).length⟩, ⟨?_, ?_⟩, ?_⟩
  · show pos + (data.drop pos).length = data.length
    omega
  · show ((data.drop pos).length : Int) < n
    omega
  · rw [atPos, bytes_of_lt (by omega)]

end Cursor

namespace Scan

variable {ε δ α β : Type} {data : Bytes} {Fails : ε → Prop}

/-- Started at this position, the step ends at one that is not before it, within the data and with a value as told; or
it fails as told. -/
def Moves (data : Bytes) (Fails : ε → Prop) (p : Scan ε α) (pos : Nat) (Gives : α → Nat → Prop) : Prop :=
  match p (Cursor.atPos data pos) with
  | .ok (a, c) => ∃ next, c = Cursor.atPos data next ∧ pos ≤ next ∧ next ≤ data.length ∧ Gives a next
  | .error e => Fails e

namespace Moves

variable {p : Scan ε α} {pos : Nat} {Gives : α → Nat → Prop}

theorem pure {a : α} (hpos : pos ≤ data.length) (h : Gives a pos) : Moves data Fails (Pure.pure a) pos Gives :=
  ⟨pos, rfl, Nat.le_refl pos, hpos, h⟩

theorem throw {e : ε} (h : Fails e) : Moves data Fails (MonadExcept.throw e) pos Gives := h

theorem bind {f : α → Scan ε β} {Then : β → Nat → Prop} (hp : Moves data Fails p pos Gives)
    (hf : ∀ a next, pos ≤ next → next ≤ data.length → Gives a next → Moves data Fails (f a) next Then) :
    Moves data Fails (p >>= f) pos Then := by
  have hbind : (p >>= f) (Cursor.atPos data pos) = (p (Cursor.atPos data pos) >>= fun r => f r.1 r.2) := rfl
  unfold Moves at hp ⊢
  rw [hbind]
  cases hr : p (Cursor.atPos data pos) with
  | error e =>
    rw [hr] at hp
    exact hp
  | ok r =>
    rw [hr] at hp
    obtain ⟨next, hnext, hle, hlength, hgives⟩ := hp
    have hrest := hf r.1 next hle hlength hgives
    unfold Moves at hrest
    rw [ok_bind, hnext]
    cases hq : f r.1 (Cursor.atPos data next) with
    | error e =>
      rw [hq] at hrest
      exact hrest
    | ok q =>
      rw [hq] at hrest
      obtain ⟨last, hlast, hle', hlength', hthen⟩ := hrest
      exact ⟨last, hlast, Nat.le_trans hle hle', hlength', hthen⟩

/-- A value that is only wrapped moves nothing further. -/
theorem map (hp : Moves data Fails p pos Gives) (f : α → β) :
    Moves data Fails (do return f (← p)) pos fun _ _ => True :=
  hp.bind fun _ _ _ hnext _ => .pure hnext trivial

theorem imp {Gives' : α → Nat → Prop} (hp : Moves data Fails p pos Gives)
    (h : ∀ a next, pos ≤ next → Gives a next → Gives' a next) : Moves data Fails p pos Gives' := by
  unfold Moves at hp ⊢
  cases hr : p (Cursor.atPos data pos) with
  | error e =>
    rw [hr] at hp
    exact hp
  | ok r =>
    rw [hr] at hp
    obtain ⟨next, hnext, hle, hlength, hgives⟩ := hp
    exact ⟨next, hnext, hle, hlength, h r.1 next hle hgives⟩

theorem imp_fails {Fails' : ε → Prop} (hp : Moves data Fails p pos Gives) (h : ∀ e, Fails e → Fails' e) :
    Moves data Fails' p pos Gives := by
  unfold Moves at hp ⊢
  cases hr : p (Cursor.atPos data pos) with
  | error e =>
    rw [hr] at hp
    exact h e hp
  | ok r =>
    rw [hr] at hp
    exact hp

/-- The value is the one that the step gives there. -/
theorem with_result (hp : Moves data Fails p pos Gives) :
    Moves data Fails p pos fun a next =>
      p (Cursor.atPos data pos) = .ok (a, Cursor.atPos data next) ∧ Gives a next := by
  unfold Moves at hp ⊢
  cases hr : p (Cursor.atPos data pos) with
  | error e =>
    rw [hr] at hp
    exact hp
  | ok r =>
    rw [hr] at hp
    obtain ⟨next, hnext, hle, hlength, hgives⟩ := hp
    exact ⟨next, hnext, hle, hlength, by rw [← hnext], hgives⟩

/-- A step that does at one position what another does at a later one. -/
theorem at_later {p' : Scan ε α} {next : Nat} (hp : Moves data Fails p' next Gives) (hle : pos ≤ next)
    (h : p (Cursor.atPos data pos) = p' (Cursor.atPos data next)) : Moves data Fails p pos Gives := by
  unfold Moves at hp ⊢
  rw [h]
  cases hr : p' (Cursor.atPos data next) with
  | error e =>
    rw [hr] at hp
    exact hp
  | ok r =>
    rw [hr] at hp
    obtain ⟨last, hlast, hle', hlength, hgives⟩ := hp
    exact ⟨last, hlast, Nat.le_trans hle hle', hlength, hgives⟩

theorem mapError {Fails' : δ → Prop} {f : ε → δ} (hp : Moves data Fails p pos Gives)
    (hf : ∀ e, Fails e → Fails' (f e)) : Moves data Fails' (Scan.mapError f p) pos Gives := by
  unfold Moves Scan.mapError at *
  cases hr : p (Cursor.atPos data pos) with
  | error e =>
    rw [hr] at hp
    exact hf e hp
  | ok r =>
    rw [hr] at hp
    exact hp

theorem timesFrom {step : Nat → Scan ε α} {Each : α → Prop}
    (h : ∀ i pos, pos ≤ data.length → Moves data Fails (step i) pos fun a _ => Each a) (i n : Nat)
    (hpos : pos ≤ data.length) : Moves data Fails (Scan.timesFrom step i n) pos fun as _ => ∀ a ∈ as, Each a := by
  induction n generalizing i pos with
  | zero => exact pure hpos (by simp)
  | succ n ih =>
    refine (h i pos hpos).bind fun a next _ hnext ha => (ih (i + 1) hnext).bind fun as last _ hlast has => ?_
    exact pure hlast (by simpa using ⟨ha, has⟩)

theorem times {step : Nat → Scan ε α} {Each : α → Prop}
    (h : ∀ i pos, pos ≤ data.length → Moves data Fails (step i) pos fun a _ => Each a) (n : Nat)
    (hpos : pos ≤ data.length) : Moves data Fails (Scan.times n step) pos fun as _ => ∀ a ∈ as, Each a :=
  timesFrom h 0 n hpos

variable [OfTruncation ε] (hcut : ∀ t : Truncation, t.Of data → Fails (OfTruncation.ofTruncation t))
include hcut

/-- What a read of `n` bytes comes to. -/
theorem ofRead {n : Nat} {read : Cursor → α × Cursor} (value : Bytes → α)
    (hread : ∀ c, read c = (value (c.bytes n).1, (c.bytes n).2)) (hpos : pos ≤ data.length) :
    Moves data Fails (Scan.ofRead read) pos fun a next =>
      a = value (data.slice pos n) ∧ next = pos + n ∧ pos + n ≤ data.length := by
  unfold Moves Scan.ofRead
  by_cases h : pos + n ≤ data.length
  · rw [hread, Cursor.bytes_atPos_of_le h]
    exact ⟨pos + n, rfl, by omega, h, rfl, rfl, h⟩
  · obtain ⟨t, ht, hbytes⟩ := Cursor.bytes_atPos_of_lt hpos (Nat.lt_of_not_le h)
    rw [hread, hbytes]
    exact hcut t ht

theorem bytes (n : Nat) (hpos : pos ≤ data.length) :
    Moves data Fails (Scan.bytes n) pos fun bs next =>
      bs = data.slice pos n ∧ next = pos + n ∧ pos + n ≤ data.length :=
  ofRead hcut id (fun _ => rfl) hpos

theorem number (width : Nat) (hpos : pos ≤ data.length) :
    Moves data Fails (Scan.ofRead (Cursor.number width)) pos fun n next =>
      n = (data.slice pos width).toNat ∧ next = pos + width ∧ pos + width ≤ data.length :=
  ofRead hcut Bytes.toNat (fun _ => rfl) hpos

theorem u1 (hpos : pos ≤ data.length) :
    Moves data Fails Scan.u1 pos fun n next =>
      n = (data.slice pos 1).toNat ∧ next = pos + 1 ∧ pos + 1 ≤ data.length :=
  number hcut 1 hpos

theorem u2 (hpos : pos ≤ data.length) :
    Moves data Fails Scan.u2 pos fun n next =>
      n = (data.slice pos 2).toNat ∧ next = pos + 2 ∧ pos + 2 ≤ data.length :=
  number hcut 2 hpos

theorem u4 (hpos : pos ≤ data.length) :
    Moves data Fails Scan.u4 pos fun n next =>
      n = (data.slice pos 4).toNat ∧ next = pos + 4 ∧ pos + 4 ≤ data.length :=
  number hcut 4 hpos

end Moves

end Scan

end Linkage

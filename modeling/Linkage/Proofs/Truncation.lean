import Linkage.Jvm.Parse
import Linkage.Proofs.Reading
import Linkage.Proofs.Extraction

/-!
Class files that are cut short or go on. A step over a cursor is exact if, wherever it succeeds, it has taken some first
bytes and needed all of them: what follows these does not matter to it, and less than these is reported as a truncation.
Exact steps compose, and reading a class file is one.
-/
namespace Linkage

namespace Scan

variable {ε δ α β : Type} {Cut : ε → Prop}

/-- The step takes exactly these bytes, and each shorter part of them makes it fail with an error in `Cut`. -/
structure Takes (Cut : ε → Prop) (p : Scan ε α) (bs : Bytes) (a : α) : Prop where
  reads : Reads p bs a
  cut (pos k : Nat) : k < bs.length → ∃ e, p ⟨pos, bs.take k, none⟩ = .error e ∧ Cut e

def Exact (Cut : ε → Prop) (p : Scan ε α) : Prop :=
  ∀ pos data a c, p ⟨pos, data, none⟩ = .ok (a, c) → ∃ bs rest, data = bs ++ rest ∧ Takes Cut p bs a

theorem Takes.bind {p : Scan ε α} {f : α → Scan ε β} {bs cs : Bytes} {a : α} {b : β} (hp : Takes Cut p bs a)
    (hf : Takes Cut (f a) cs b) : Takes Cut (p >>= f) (bs ++ cs) b := by
  refine ⟨hp.reads.bind hf.reads, fun pos k hk => ?_⟩
  have hbind (rest : Bytes) : (p >>= f) ⟨pos, rest, none⟩ = (p ⟨pos, rest, none⟩ >>= fun r => f r.1 r.2) := rfl
  by_cases hlt : k < bs.length
  · obtain ⟨e, he, hcut⟩ := hp.cut pos k hlt
    rw [List.take_append_of_le_length (Nat.le_of_lt hlt), hbind, he]
    exact ⟨e, rfl, hcut⟩
  · rw [List.length_append] at hk
    obtain ⟨e, he, hcut⟩ := hf.cut (pos + bs.length) (k - bs.length) (by omega)
    rw [List.take_append, List.take_of_length_le (by omega), hbind, hp.reads]
    exact ⟨e, he, hcut⟩

theorem eq_ok_of_mapError {p : Scan ε α} {f : ε → δ} {c : Cursor} {r : α × Cursor}
    (h : Scan.mapError f p c = .ok r) : p c = .ok r := by
  unfold Scan.mapError at h
  cases hc : p c with
  | error e => simp [hc, Except.mapError] at h
  | ok r => simpa [hc, Except.mapError] using h

theorem Takes.mapError {Cut' : δ → Prop} {p : Scan ε α} {bs : Bytes} {a : α} (hp : Takes Cut p bs a) {f : ε → δ}
    (hf : ∀ e, Cut e → Cut' (f e)) : Takes Cut' (Scan.mapError f p) bs a := by
  refine ⟨hp.reads.mapError f, fun pos k hk => ?_⟩
  obtain ⟨e, he, hcut⟩ := hp.cut pos k hk
  exact ⟨f e, by rw [Scan.mapError, he]; rfl, hf e hcut⟩

/-- A read takes the next bytes, of which it gives the value. -/
theorem Takes.ofRead [OfTruncation ε] {n : Nat} {read : Cursor → α × Cursor} {value : Bytes → α}
    (hread : ∀ c, read c = (value (c.bytes n).1, (c.bytes n).2)) (hcut : ∀ t, Cut (OfTruncation.ofTruncation t))
    {bs : Bytes} (hlength : bs.length = n) : Takes Cut (Scan.ofRead read : Scan ε α) bs (value bs) := by
  refine ⟨fun pos rest => ?_, fun pos k hk => ?_⟩
  · have hle : n ≤ (bs ++ rest).length := by
      rw [List.length_append]
      omega
    rw [Scan.ofRead, hread, Cursor.bytes_of_le hle, List.take_left' hlength, List.drop_left' hlength, hlength]
  · have hlt : (bs.take k).length < n := by
      rw [List.length_take]
      omega
    exact ⟨_, by rw [Scan.ofRead, hread, Cursor.bytes_of_lt hlt], hcut _⟩

/-- A read that succeeds has the bytes to take. -/
theorem le_of_ofRead [OfTruncation ε] {n pos : Nat} {read : Cursor → α × Cursor} {value : Bytes → α}
    (hread : ∀ c, read c = (value (c.bytes n).1, (c.bytes n).2)) {data : Bytes} {a : α} {c : Cursor}
    (h : (Scan.ofRead read : Scan ε α) ⟨pos, data, none⟩ = .ok (a, c)) :
    n ≤ data.length ∧ a = value (data.take n) := by
  rw [Scan.ofRead, hread] at h
  by_cases hn : n ≤ data.length
  · rw [Cursor.bytes_of_le hn] at h
    cases h
    exact ⟨hn, rfl⟩
  · rw [Cursor.bytes_of_lt (by omega)] at h
    cases h

namespace Exact

/-- A step that takes nothing where it succeeds. -/
theorem of_silent {p : Scan ε α} (h : ∀ pos data a c, p ⟨pos, data, none⟩ = .ok (a, c) → Reads p [] a) :
    Exact Cut p :=
  fun pos data a c hp => ⟨[], data, rfl, h pos data a c hp, fun _ _ hk => absurd hk (Nat.not_lt_zero _)⟩

theorem pure (a : α) : Exact Cut (Pure.pure a : Scan ε α) := by
  refine of_silent fun pos data b c h => ?_
  cases h
  exact reads_pure a

theorem throw (e : ε) : Exact Cut (MonadExcept.throw e : Scan ε α) := by
  intro pos data a c h
  cases h

theorem bind {p : Scan ε α} {f : α → Scan ε β} (hp : Exact Cut p) (hf : ∀ a, Exact Cut (f a)) :
    Exact Cut (p >>= f) := by
  intro pos data b c h
  have hsplit : (p ⟨pos, data, none⟩ >>= fun r => f r.1 r.2) = .ok (b, c) := h
  obtain ⟨⟨a, c₁⟩, ha, hb⟩ := bind_eq_ok_iff.mp hsplit
  obtain ⟨bs, rest, rfl, hbs⟩ := hp pos data a c₁ ha
  rw [hbs.reads, Except.ok.injEq, Prod.mk.injEq] at ha
  obtain ⟨-, rfl⟩ := ha
  obtain ⟨cs, more, rfl, hcs⟩ := hf a _ rest b c hb
  exact ⟨bs ++ cs, more, (List.append_assoc ..).symm, hbs.bind hcs⟩

theorem mapError {Cut' : δ → Prop} {p : Scan ε α} (hp : Exact Cut p) {f : ε → δ} (hf : ∀ e, Cut e → Cut' (f e)) :
    Exact Cut' (Scan.mapError f p) := by
  intro pos data a c h
  obtain ⟨bs, rest, rfl, hbs⟩ := hp pos data a c (eq_ok_of_mapError h)
  exact ⟨bs, rest, rfl, hbs.mapError hf⟩

theorem timesFrom {step : Nat → Scan ε α} (h : ∀ i, Exact Cut (step i)) (i n : Nat) :
    Exact Cut (Scan.timesFrom step i n) := by
  induction n generalizing i with
  | zero => exact pure []
  | succ n ih => exact (h i).bind fun a => (ih (i + 1)).bind fun as => pure (a :: as)

theorem times {step : Nat → Scan ε α} (h : ∀ i, Exact Cut (step i)) (n : Nat) : Exact Cut (Scan.times n step) :=
  timesFrom h 0 n

variable [OfTruncation ε]

/-- What the next `n` bytes give. -/
theorem ofRead {n : Nat} {read : Cursor → α × Cursor} (value : Bytes → α)
    (hread : ∀ c, read c = (value (c.bytes n).1, (c.bytes n).2))
    (hcut : ∀ t, Cut (OfTruncation.ofTruncation t)) : Exact Cut (Scan.ofRead read : Scan ε α) := by
  intro pos data a c h
  obtain ⟨hn, rfl⟩ := le_of_ofRead hread h
  exact ⟨data.take n, data.drop n, (List.take_append_drop n data).symm,
    .ofRead hread hcut (List.length_take_of_le hn)⟩

variable (hcut : ∀ t, Cut (OfTruncation.ofTruncation t))
include hcut

theorem bytes (n : Nat) : Exact Cut (Scan.bytes n : Scan ε Bytes) :=
  ofRead id (fun _ => rfl) hcut

theorem u1 : Exact Cut (Scan.u1 : Scan ε Nat) := ofRead Bytes.toNat (fun _ => rfl) hcut

theorem u2 : Exact Cut (Scan.u2 : Scan ε Nat) := ofRead Bytes.toNat (fun _ => rfl) hcut

theorem u4 : Exact Cut (Scan.u4 : Scan ε Nat) := ofRead Bytes.toNat (fun _ => rfl) hcut

end Exact

end Scan

/-! The pool. -/

/-- The pool ends early. -/
def PoolError.IsTruncation (e : PoolError) : Prop := ∃ t, e = .truncated t

namespace Constant

open Scan

theorem exact_readBody (entry : Nat) (tag : Tag) : Exact PoolError.IsTruncation (readBody entry tag) := by
  have hcut (t : Truncation) : PoolError.IsTruncation (OfTruncation.ofTruncation t) := ⟨t, rfl⟩
  have hword : Exact PoolError.IsTruncation readBody.word :=
    (Exact.u4 hcut).bind fun _ => (Exact.u4 hcut).bind fun _ => .pure _
  have hone (f : Nat → Constant) : Exact PoolError.IsTruncation (do return f (← u2) : Scan PoolError Constant) :=
    (Exact.u2 hcut).bind fun _ => .pure _
  have htwo (f : Nat → Nat → Constant) :
      Exact PoolError.IsTruncation (do return f (← u2) (← u2) : Scan PoolError Constant) :=
    (Exact.u2 hcut).bind fun _ => (Exact.u2 hcut).bind fun _ => .pure _
  cases tag with
  | utf8 =>
    refine (Exact.u2 hcut).bind fun length => (Exact.bytes hcut length).bind fun raw => ?_
    cases ModifiedUtf8.decode raw with
    | ok text => exact .pure _
    | error fault => exact .throw _
  | integer => exact (Exact.u4 hcut).bind fun _ => .pure _
  | float => exact (Exact.u4 hcut).bind fun _ => .pure _
  | long => exact hword.bind fun _ => .pure _
  | double => exact hword.bind fun _ => .pure _
  | type => exact hone _
  | string => exact hone _
  | fieldRef => exact htwo _
  | methodRef => exact htwo _
  | interfaceMethodRef => exact htwo _
  | nameAndType => exact htwo _
  | methodHandle => exact (Exact.u1 hcut).bind fun _ => (Exact.u2 hcut).bind fun _ => .pure _
  | methodType => exact hone _
  | dynamic => exact htwo _
  | invokeDynamic => exact htwo _
  | module => exact hone _
  | package => exact hone _

theorem exact_read (entry : Nat) : Exact PoolError.IsTruncation (read entry) := by
  refine (Exact.u1 fun t => ⟨t, rfl⟩).bind fun code => ?_
  cases Tag.ofCode? code with
  | none => exact .throw _
  | some tag => exact exact_readBody entry tag

theorem exact_readSlots (entry count : Nat) : Exact PoolError.IsTruncation (readSlots entry count) := by
  induction count using Nat.strongRecOn generalizing entry with
  | ind count ih =>
    cases count with
    | zero => exact .pure _
    | succ count =>
      rw [readSlots]
      refine (exact_read entry).bind fun constant => ?_
      split
      · cases count with
        | zero => exact .pure _
        | succ count => exact (ih count (by omega) (entry + 2)).bind fun _ => .pure _
      · exact (ih count (by omega) (entry + 1)).bind fun _ => .pure _

end Constant

theorem Pool.exact_read : Scan.Exact PoolError.IsTruncation Pool.read :=
  (Scan.Exact.u2 fun t => ⟨t, rfl⟩).bind fun count => (Constant.exact_readSlots 1 (count - 1)).bind fun _ => .pure _

/-! The class file. -/

/-- The class file ends early. -/
def ParseError.IsTruncation (e : ParseError) : Prop := ∃ t, e.fault = .truncated t

namespace Parse

open Scan

variable {α : Type} {pool : Pool}

theorem isTruncation_ofTruncation (t : Truncation) : ParseError.IsTruncation (OfTruncation.ofTruncation t) := ⟨t, rfl⟩

theorem exact_u2 : Exact ParseError.IsTruncation (u2 : Parse Nat) := .u2 isTruncation_ofTruncation

theorem exact_ofPool (result : Except PoolFault α) : Exact ParseError.IsTruncation (ofPool result) := by
  cases result with
  | ok a => exact .pure a
  | error fault => exact .throw _

theorem exact_inside {p : Parse α} (hp : Exact ParseError.IsTruncation p) (place : Place) :
    Exact ParseError.IsTruncation (inside place p) :=
  hp.mapError fun _ h => h

/-- A reader of other bytes does not touch the cursor, whatever it makes of them. -/
theorem exact_ofBytes (reader : Parse α) (data : Bytes) : Exact ParseError.IsTruncation (ofBytes reader data) := by
  refine .of_silent fun pos rest a c h => ?_
  rw [ofBytes] at h
  split at h
  · rename_i b last hb
    cases h
    intro pos rest
    rw [ofBytes, hb]
    rfl
  · cases h

theorem exact_attributes {step : α → String → Bytes → Parse α}
    (hstep : ∀ acc name data, Exact ParseError.IsTruncation (step acc name data)) (start : α) :
    Exact ParseError.IsTruncation (attributes pool start step) := by
  refine exact_u2.bind fun count => ?_
  have hgo (acc : α) (index : Nat) : Exact ParseError.IsTruncation (attributes.go pool step acc index count) := by
    induction count generalizing acc index with
    | zero => exact .pure acc
    | succ count ih =>
      refine exact_u2.bind fun slot => (Exact.u4 isTruncation_ofTruncation).bind fun length => ?_
      refine (Exact.bytes isTruncation_ofTruncation length).bind fun data => ?_
      refine (exact_inside (exact_ofPool _) _).bind fun name => ?_
      exact (exact_inside (hstep acc name data) _).bind fun acc => ih acc (index + 1)
  exact hgo start 0

theorem exact_field (index : Nat) : Exact ParseError.IsTruncation (field pool index) := by
  refine exact_u2.bind fun access => exact_u2.bind fun nameIndex => exact_u2.bind fun descriptorIndex => ?_
  refine (exact_inside (exact_ofPool _) _).bind fun name => (exact_inside (exact_ofPool _) _).bind fun descriptor => ?_
  refine exact_inside (exact_attributes (fun acc kind data => ?_) _) _
  split
  · exact (exact_ofPool _).bind fun _ => .pure _
  · exact (exact_ofPool _).bind fun _ => .pure _
  · exact .pure _

theorem exact_method (index : Nat) : Exact ParseError.IsTruncation (method pool index) := by
  refine exact_u2.bind fun access => exact_u2.bind fun nameIndex => exact_u2.bind fun descriptorIndex => ?_
  refine (exact_inside (exact_ofPool _) _).bind fun name => (exact_inside (exact_ofPool _) _).bind fun descriptor => ?_
  refine exact_inside (exact_attributes (fun acc kind data => ?_) _) _
  split
  · exact (exact_ofBytes _ _).bind fun _ => .pure _
  · exact (exact_ofBytes _ _).bind fun _ => .pure _
  · exact (exact_ofPool _).bind fun _ => .pure _
  · exact .pure _

theorem exact_classAttributes (start : ClassFile) : Exact ParseError.IsTruncation (classAttributes start) := by
  refine exact_attributes (fun acc kind data => ?_) start
  split
  · exact (exact_ofPool _).bind fun _ => .pure _
  · exact (exact_ofPool _).bind fun _ => .pure _
  · exact (exact_ofBytes _ _).bind fun _ => .pure _
  · exact .pure _

theorem exact_pool : Exact ParseError.IsTruncation (mapError ParseError.ofPool Pool.read) := by
  refine Pool.exact_read.mapError ?_
  rintro _ ⟨t, rfl⟩
  exact ⟨t, rfl⟩

theorem exact_classFile : Exact ParseError.IsTruncation classFile := by
  refine (Exact.u4 isTruncation_ofTruncation).bind fun magic => ?_
  split
  · intro pos data c last h
    cases h
  · refine exact_u2.bind fun minor => exact_u2.bind fun major => ?_
    refine exact_pool.bind fun pool => exact_u2.bind fun access => exact_u2.bind fun thisIndex => ?_
    refine exact_u2.bind fun superIndex => (exact_inside (exact_ofPool _) _).bind fun name => ?_
    refine (exact_inside (exact_ofPool _) _).bind fun superName => exact_u2.bind fun interfaceCount => ?_
    refine Exact.bind (.times (fun index => exact_u2.bind fun _ => exact_inside (exact_ofPool _) _) _) fun interfaces => ?_
    refine exact_u2.bind fun fieldCount => (Exact.times exact_field _).bind fun fields => ?_
    refine exact_u2.bind fun methodCount => (Exact.times exact_method _).bind fun methods => ?_
    exact exact_classAttributes _

end Parse

namespace ClassFile

/-- A class file has an end: whatever follows the bytes before it, the same class is read, and a file that stops short
of it is reported as truncated. -/
theorem parse_take {data : Bytes} {c : ClassFile} (h : parse data = .ok c) :
    ∃ n ≤ data.length, (∀ more, parse (data.take n ++ more) = .ok c) ∧
      ∀ k < n, ∃ places truncation, parse (data.take k) = .error ⟨places, .truncated truncation⟩ := by
  have hread : ∃ last, Parse.classFile ⟨0, data, none⟩ = .ok (c, last) := by
    rw [parse, Cursor.ofBytes] at h
    rcases hp : Parse.classFile ⟨0, data, none⟩ with e | ⟨c', last⟩ <;> rw [hp] at h
    · cases h
    · cases h
      exact ⟨last, rfl⟩
  obtain ⟨last, hlast⟩ := hread
  obtain ⟨bs, rest, rfl, htakes⟩ := Parse.exact_classFile 0 data c last hlast
  refine ⟨bs.length, by simp, fun more => ?_, fun k hk => ?_⟩
  · rw [List.take_left, parse, Cursor.ofBytes, htakes.reads]
    rfl
  · obtain ⟨⟨places, fault⟩, he, truncation, hfault⟩ := htakes.cut 0 k hk
    refine ⟨places, truncation, ?_⟩
    rw [List.take_append_of_le_length (Nat.le_of_lt hk), parse, Cursor.ofBytes, he]
    exact congrArg (fun fault => Except.error (ParseError.mk places fault)) hfault

/-- The class file of `caller` with a stray byte behind it. -/
theorem callerBytes_parse_take :
    parse (callerBytes ++ [7]) = .ok caller ∧ ∃ n ≤ (callerBytes ++ [7]).length,
      (∀ more, parse ((callerBytes ++ [7]).take n ++ more) = .ok caller) ∧
        ∀ k < n, ∃ places truncation, parse ((callerBytes ++ [7]).take k) = .error ⟨places, .truncated truncation⟩ := by
  have h : parse (callerBytes ++ [7]) = .ok caller := by cbv
  exact ⟨h, parse_take h⟩

end ClassFile
end Linkage

import Linkage.Jvm.Parse
import Linkage.Proofs.Extent
import Linkage.Proofs.PoolFaults

/-!
What becomes of any bytes that are read as a class file. Either there is a class, and all that is kept of the bytes are
parts of them; or there is a fault, and it is what it says: a wrong magic number, a read beyond the end of the file or
of the body of an attribute, an entry of the pool that cannot be read, or a reference that the pool does not resolve.
-/
namespace Linkage

/-! The pool. -/

/-- What the fault says of the bytes that a pool was to be read from. -/
def PoolFault.OfEntry (data : Bytes) : PoolFault → Prop
  | .text _ fault => ∃ raw, raw <:+: data ∧ ModifiedUtf8.decode raw = .error fault
  | .unknownTag _ code => Tag.ofCode? code = none ∧ ∃ pos : Nat, data[pos]?.map UInt8.toNat = some code
  | _ => False

def PoolError.Of (data : Bytes) : PoolError → Prop
  | .truncated t => t.Of data
  | .invalid fault => fault.OfEntry data

namespace Constant

open Scan

variable {data : Bytes} {pos : Nat}

theorem moves_readBody (entry : Nat) (tag : Tag) (hpos : pos ≤ data.length) :
    Moves data (PoolError.Of data) (readBody entry tag) pos fun _ _ => True := by
  have hcut (t : Truncation) (ht : t.Of data) : PoolError.Of data (OfTruncation.ofTruncation t) := ht
  have hword {pos : Nat} (hpos : pos ≤ data.length) :
      Moves data (PoolError.Of data) readBody.word pos fun _ _ => True :=
    (Moves.u4 hcut hpos).bind fun _ _ _ hnext _ => (Moves.u4 hcut hnext).map _
  have htwo (f : Nat → Nat → Constant) :
      Moves data (PoolError.Of data) (do return f (← u2) (← u2) : Scan PoolError Constant) pos fun _ _ => True :=
    (Moves.u2 hcut hpos).bind fun _ _ _ hnext _ => (Moves.u2 hcut hnext).map _
  cases tag with
  | utf8 =>
    refine (Moves.u2 hcut hpos).bind fun length next _ hnext _ => ?_
    refine (Moves.bytes hcut length hnext).bind fun raw last _ hlast hraw => ?_
    cases hdecode : ModifiedUtf8.decode raw with
    | ok text => exact .pure hlast trivial
    | error fault => exact .throw ⟨raw, hraw.1 ▸ data.slice_isInfix next length, hdecode⟩
  | integer => exact (Moves.u4 hcut hpos).map _
  | float => exact (Moves.u4 hcut hpos).map _
  | long => exact (hword hpos).map _
  | double => exact (hword hpos).map _
  | methodHandle =>
    refine (Moves.u1 hcut hpos).bind fun _ _ _ hnext _ => ?_
    exact (Moves.u2 hcut hnext).map _
  | type => exact (Moves.u2 hcut hpos).map _
  | string => exact (Moves.u2 hcut hpos).map _
  | methodType => exact (Moves.u2 hcut hpos).map _
  | module => exact (Moves.u2 hcut hpos).map _
  | package => exact (Moves.u2 hcut hpos).map _
  | fieldRef => exact htwo _
  | methodRef => exact htwo _
  | interfaceMethodRef => exact htwo _
  | nameAndType => exact htwo _
  | dynamic => exact htwo _
  | invokeDynamic => exact htwo _

theorem moves_read (entry : Nat) (hpos : pos ≤ data.length) :
    Moves data (PoolError.Of data) (read entry) pos fun _ _ => True := by
  refine (Moves.u1 (fun _ ht => ht) hpos).bind fun code next _ hnext hcode => ?_
  cases htag : Tag.ofCode? code with
  | none => exact .throw ⟨htag, pos, Bytes.getElem?_of_slice hcode.2.2 hcode.1⟩
  | some tag => exact moves_readBody entry tag hnext

/-- There are exactly as many slots as were announced, also where an eight-byte constant is the last one. -/
theorem moves_readSlots (entry count : Nat) (hpos : pos ≤ data.length) :
    Moves data (PoolError.Of data) (readSlots entry count) pos fun slots _ => slots.length = count := by
  induction count using Nat.strongRecOn generalizing entry pos with
  | ind count ih =>
    cases count with
    | zero => exact .pure hpos rfl
    | succ count =>
      rw [readSlots]
      refine (moves_read entry hpos).bind fun constant next _ hnext _ => ?_
      split
      · cases count with
        | zero => exact .pure hnext rfl
        | succ count =>
          refine (ih count (by omega) (entry + 2) hnext).bind fun slots last _ hlast hslots => .pure hlast ?_
          simp [hslots]
      · refine (ih count (by omega) (entry + 1) hnext).bind fun slots last _ hlast hslots => .pure hlast ?_
        simp [hslots]

end Constant

theorem Pool.moves_read {data : Bytes} {pos : Nat} (hpos : pos ≤ data.length) :
    Scan.Moves data (PoolError.Of data) Pool.read pos fun pool _ =>
      pool.slots.size = (data.slice pos 2).toNat ∧ pool.bootstraps = #[] := by
  refine (Scan.Moves.u2 (fun _ ht => ht) hpos).bind fun count next _ hnext hcount => ?_
  refine (Constant.moves_readSlots 1 (count - 1) hnext).bind fun slots last _ hlast hslots => .pure hlast ⟨?_, rfl⟩
  rw [← hcount.1]
  by_cases h0 : count = 0
  · simp [h0]
  · simp only [h0, if_false, List.size_toArray, List.length_cons, hslots]
    omega

/-! The class file. -/

/-- What the fault says of the bytes behind the pool, and of the pool. -/
def ParseFault.OfPart (data : Bytes) (pool : Pool) : ParseFault → Prop
  | .magic => False
  | .truncated t => ∃ part, part <:+: data ∧ t.Of part
  | .pool fault => fault.OfReference pool

namespace Parse

open Scan

variable {α : Type} {data body : Bytes} {pool : Pool} {pos : Nat}

def Fails (data : Bytes) (pool : Pool) (e : ParseError) : Prop := e.fault.OfPart data pool

theorem fails_ofTruncation (t : Truncation) (ht : t.Of data) : Fails data pool (OfTruncation.ofTruncation t) :=
  ⟨data, List.infix_refl data, ht⟩

theorem Fails.of_isInfix {e : ParseError} (h : Fails body pool e) (hbody : body <:+: data) : Fails data pool e := by
  obtain ⟨places, fault⟩ := e
  cases fault with
  | magic => exact h
  | truncated t =>
    obtain ⟨part, hpart, ht⟩ := h
    exact ⟨part, hpart.trans hbody, ht⟩
  | pool fault => exact h

theorem moves_u2 (hpos : pos ≤ data.length) : Moves data (Fails data pool) u2 pos fun _ _ => True :=
  (Moves.u2 fails_ofTruncation hpos).imp fun _ _ _ _ => trivial

theorem moves_ofPool {result : Except PoolFault α} (h : FailsIn (PoolFault.OfReference pool) result)
    (hpos : pos ≤ data.length) : Moves data (Fails data pool) (ofPool result) pos fun _ _ => True := by
  cases result with
  | ok a => exact .pure hpos trivial
  | error fault => exact .throw (h fault rfl)

theorem moves_inside {p : Parse α} {Gives : α → Nat → Prop} (hp : Moves data (Fails data pool) p pos Gives)
    (place : Place) : Moves data (Fails data pool) (inside place p) pos Gives :=
  hp.mapError fun _ h => h

/-- A reader of a part of the data stays within that part. -/
theorem moves_ofBytes {reader : Parse α} {Gives : α → Prop} (hbody : body <:+: data)
    (h : Moves body (Fails body pool) reader 0 fun a _ => Gives a) (hpos : pos ≤ data.length) :
    Moves data (Fails data pool) (ofBytes reader body) pos fun a _ => Gives a := by
  unfold Moves ofBytes at *
  rw [Cursor.ofBytes_eq_atPos]
  cases hr : reader (Cursor.atPos body 0) with
  | error e =>
    rw [hr] at h
    exact h.of_isInfix hbody
  | ok r =>
    rw [hr] at h
    obtain ⟨next, -, -, -, hgives⟩ := h
    exact ⟨pos, rfl, Nat.le_refl pos, hpos, hgives⟩

/-- What every step of a table of attributes keeps holds when the table ends. -/
theorem moves_attributes {step : α → String → Bytes → Parse α} {Inv : α → Prop}
    (hstep : ∀ acc name body pos, Inv acc → body <:+: data → pos ≤ data.length →
      Moves data (Fails data pool) (step acc name body) pos fun acc _ => Inv acc)
    {start : α} (hstart : Inv start) (hpos : pos ≤ data.length) :
    Moves data (Fails data pool) (attributes pool start step) pos fun acc _ => Inv acc := by
  refine (moves_u2 hpos).bind fun count next _ hnext _ => ?_
  have hgo (acc : α) (index pos : Nat) (hacc : Inv acc) (hpos : pos ≤ data.length) :
      Moves data (Fails data pool) (attributes.go pool step acc index count) pos fun acc _ => Inv acc := by
    induction count generalizing acc index pos with
    | zero => exact .pure hpos hacc
    | succ count ih =>
      refine (moves_u2 hpos).bind fun slot next _ hnext _ => ?_
      refine (Moves.u4 fails_ofTruncation hnext).bind fun length next _ hnext _ => ?_
      refine (Moves.bytes fails_ofTruncation length hnext).bind fun body last _ hlast hbody => ?_
      refine (moves_inside (moves_ofPool Pool.utf8_failsIn hlast) _).bind fun name last _ hlast _ => ?_
      have hpart : body <:+: data := hbody.1 ▸ data.slice_isInfix next length
      refine (moves_inside (hstep acc name body last hacc hpart hlast) _).bind fun acc last _ hlast hacc => ?_
      exact ih acc (index + 1) last hacc hlast
  exact hgo start 0 next hstart hnext

theorem moves_table {step : α → String → Bytes → Parse α} {start : α}
    (hstep : ∀ acc name body pos, body <:+: data → pos ≤ data.length →
      Moves data (Fails data pool) (step acc name body) pos fun _ _ => True)
    (hpos : pos ≤ data.length) : Moves data (Fails data pool) (attributes pool start step) pos fun _ _ => True :=
  moves_attributes (fun acc name body pos _ => hstep acc name body pos) trivial hpos

theorem moves_field (index : Nat) (hpos : pos ≤ data.length) :
    Moves data (Fails data pool) (field pool index) pos fun _ _ => True := by
  refine (moves_u2 hpos).bind fun access _ _ hnext _ => (moves_u2 hnext).bind fun nameIndex _ _ hnext _ => ?_
  refine (moves_u2 hnext).bind fun descriptorIndex _ _ hnext _ => ?_
  refine (moves_inside (moves_ofPool Pool.utf8_failsIn hnext) _).bind fun name _ _ hnext _ => ?_
  refine (moves_inside (moves_ofPool Pool.utf8_failsIn hnext) _).bind fun descriptor _ _ hnext _ => ?_
  refine moves_inside (moves_table (fun acc kind body pos _ hpos => ?_) hnext) _
  have hvalue : FailsIn (PoolFault.OfReference pool) (pool.loadable (indexIn body) []).1 := by
    obtain ⟨memo, hloadable, -⟩ := Pool.loadable_yields (indexIn body) [] (Memo.sound_nil pool)
    rw [hloadable]
    exact Pool.unfold_failsIn
  split
  · exact (moves_ofPool hvalue hpos).map _
  · exact (moves_ofPool Pool.utf8_failsIn hpos).map _
  · exact .pure hpos trivial

theorem moves_handler (index : Nat) (hpos : pos ≤ data.length) :
    Moves data (Fails data pool) (handler pool index) pos fun _ _ => True := by
  refine (moves_u2 hpos).bind fun start _ _ hnext _ => (moves_u2 hnext).bind fun stop _ _ hnext _ => ?_
  refine (moves_u2 hnext).bind fun target _ _ hnext _ => (moves_u2 hnext).bind fun typeIndex _ _ hnext _ => ?_
  refine (moves_inside (moves_ofPool Pool.optionalClassName_failsIn hnext) _).bind fun type _ _ hnext _ => ?_
  exact .pure hnext trivial

theorem moves_lines (hpos : pos ≤ data.length) : Moves data (Fails data pool) lines pos fun _ _ => True := by
  have hline (_ pos : Nat) (hpos : pos ≤ data.length) :
      Moves data (Fails data pool) (do return ⟨← u2, ← u2⟩ : Parse Line) pos fun _ _ => True :=
    (moves_u2 hpos).bind fun _ _ _ hnext _ => (moves_u2 hnext).map _
  refine (moves_u2 hpos).bind fun count _ _ hnext _ => ?_
  exact (Moves.times hline count hnext).imp fun _ _ _ _ => trivial

theorem moves_code (hpos : pos ≤ data.length) :
    Moves data (Fails data pool) (code pool) pos fun code _ => code.bytes <:+: data := by
  refine (moves_u2 hpos).bind fun maxStack _ _ hnext _ => (moves_u2 hnext).bind fun maxLocals _ _ hnext _ => ?_
  refine (Moves.u4 fails_ofTruncation hnext).bind fun length start _ hnext _ => ?_
  refine (Moves.bytes fails_ofTruncation length hnext).bind fun bytes _ _ hnext hbytes => ?_
  have hpart : bytes <:+: data := hbytes.1 ▸ data.slice_isInfix start length
  refine (moves_u2 hnext).bind fun count _ _ hnext _ => ?_
  refine (Moves.times (fun index _ hpos => moves_handler index hpos) count hnext).bind fun handlers _ _ hnext _ => ?_
  refine (moves_table (fun acc kind body pos hbody hpos => ?_) hnext).bind fun lines _ _ hnext _ => .pure hnext hpart
  split
  · exact (moves_ofBytes hbody (moves_lines (Nat.zero_le _)) hpos).map _
  · exact .pure hpos trivial

/-- Where the table ends early, the index that is missing is taken for 0, which no pool resolves. -/
theorem moves_exceptions_go (count : Nat) (hpos : pos ≤ data.length) :
    Moves data (Fails data pool) (exceptions.go pool count) pos fun _ _ => True := by
  induction count generalizing pos with
  | zero => exact .pure hpos trivial
  | succ count ih =>
    let rest (index : Nat) : Parse (List String) := do
      return (← ofPool (pool.className index)) :: (← exceptions.go pool count)
    have hgo (c : Cursor) : exceptions.go pool (count + 1) c = rest c.u2.1 c.u2.2 := rfl
    have hread : (Cursor.atPos data pos).u2 =
        (((Cursor.atPos data pos).bytes (2 : Nat)).1.toNat, ((Cursor.atPos data pos).bytes (2 : Nat)).2) := rfl
    have hrest (index : Nat) {next : Nat} (hnext : next ≤ data.length) :
        Moves data (Fails data pool) (rest index) next fun _ _ => True := by
      refine (moves_ofPool Pool.className_failsIn hnext).bind fun name _ _ hnext _ => ?_
      exact (ih hnext).map _
    by_cases h : pos + 2 ≤ data.length
    · rw [Cursor.bytes_atPos_of_le h] at hread
      exact (hrest _ h).at_later (by omega) (by rw [hgo, hread])
    · obtain ⟨t, -, hbytes⟩ := Cursor.bytes_atPos_of_lt hpos (Nat.lt_of_not_le h)
      rw [hbytes] at hread
      unfold Moves
      rw [hgo, hread]
      exact .inl rfl

theorem moves_exceptions (hbody : body <:+: data) (hpos : pos ≤ data.length) :
    Moves data (Fails data pool) (exceptions pool body) pos fun _ _ => True := by
  refine moves_ofBytes hbody ?_ hpos
  exact (moves_u2 (Nat.zero_le _)).bind fun count _ _ hnext _ => moves_exceptions_go count hnext

end Parse

/-- All code that the method has are bytes of the file. -/
def Method.Within (data : Bytes) (m : Method) : Prop := ∀ code ∈ m.code, code.bytes <:+: data

namespace Parse

open Scan

variable {data body : Bytes} {pool : Pool} {pos : Nat}

theorem moves_method (index : Nat) (hpos : pos ≤ data.length) :
    Moves data (Fails data pool) (method pool index) pos fun m _ => m.Within data := by
  refine (moves_u2 hpos).bind fun access _ _ hnext _ => (moves_u2 hnext).bind fun nameIndex _ _ hnext _ => ?_
  refine (moves_u2 hnext).bind fun descriptorIndex _ _ hnext _ => ?_
  refine (moves_inside (moves_ofPool Pool.utf8_failsIn hnext) _).bind fun name _ _ hnext _ => ?_
  refine (moves_inside (moves_ofPool Pool.utf8_failsIn hnext) _).bind fun descriptor _ _ hnext _ => ?_
  refine moves_inside (moves_attributes (fun acc kind body pos hacc hbody hpos => ?_) (by simp [Method.Within]) hnext) _
  split
  · refine (moves_ofBytes hbody (moves_code (Nat.zero_le _)) hpos).bind fun code _ _ hnext hcode => .pure hnext ?_
    rintro code ⟨⟩
    exact hcode.trans hbody
  · exact (moves_exceptions hbody hpos).bind fun _ _ _ hnext _ => .pure hnext hacc
  · exact (moves_ofPool Pool.utf8_failsIn hpos).bind fun _ _ _ hnext _ => .pure hnext hacc
  · exact .pure hpos hacc

theorem moves_bootstraps (hpos : pos ≤ data.length) :
    Moves data (Fails data pool) bootstraps pos fun _ _ => True := by
  refine (moves_u2 hpos).bind fun count _ _ hnext _ => ?_
  have hentry (_ pos : Nat) (hpos : pos ≤ data.length) :
      Moves data (Fails data pool) (do
        let handle ← u2
        let arguments ← times (← u2) fun _ => u2
        return ⟨handle, arguments⟩ : Parse Bootstrap) pos fun _ _ => True := by
    refine (moves_u2 hpos).bind fun handle _ _ hnext _ => (moves_u2 hnext).bind fun count _ _ hnext _ => ?_
    exact (Moves.times (fun _ _ hpos => moves_u2 hpos) count hnext).map _
  exact (Moves.times hentry count hnext).imp fun _ _ _ _ => trivial

end Parse

/-- The class keeps nothing that the file does not hold: no more slots than announced, and only bytes of the file. -/
structure ClassFile.Within (data : Bytes) (c : ClassFile) : Prop where
  slots : c.pool.slots.size = (data.slice 8 2).toNat
  attributes : ∀ a ∈ c.attributes, a.data <:+: data
  methods : ∀ m ∈ c.methods, m.Within data

namespace Parse

open Scan

variable {data body : Bytes} {pos : Nat}

theorem moves_classAttributes {start : ClassFile} (hstart : start.Within data) (hpos : pos ≤ data.length) :
    Moves data (Fails data start.pool) (classAttributes start) pos fun c _ => c.Within data := by
  have hutf8 {acc : ClassFile} (hacc : acc.pool.slots = start.pool.slots) (index : Nat) :
      FailsIn (PoolFault.OfReference start.pool) (acc.pool.utf8 index) := by
    have hsame : acc.pool.utf8 index = start.pool.utf8 index := by simp only [Pool.utf8, Pool.expect, hacc]
    rw [hsame]
    exact Pool.utf8_failsIn
  have hkept : Moves data (Fails data start.pool) (classAttributes start) pos fun c _ =>
      c.pool.slots = start.pool.slots ∧ c.Within data := ?_
  · exact hkept.imp fun c _ _ hc => hc.2
  refine moves_attributes (fun acc kind body pos hacc hbody hpos => ?_) ⟨rfl, hstart⟩ hpos
  obtain ⟨hslots, hacc⟩ := hacc
  split
  · exact (moves_ofPool (hutf8 hslots _) hpos).bind fun _ _ _ hnext _ => .pure hnext ⟨hslots, ⟨hacc.1, hacc.2, hacc.3⟩⟩
  · exact (moves_ofPool (hutf8 hslots _) hpos).bind fun _ _ _ hnext _ => .pure hnext ⟨hslots, ⟨hacc.1, hacc.2, hacc.3⟩⟩
  · refine (moves_ofBytes hbody (moves_bootstraps (Nat.zero_le _)) hpos).bind fun _ _ _ hnext _ => ?_
    exact .pure hnext ⟨hslots, ⟨hacc.1, hacc.2, hacc.3⟩⟩
  · refine .pure hpos ⟨hslots, ⟨hacc.1, fun a ha => ?_, hacc.3⟩⟩
    rcases List.mem_append.mp ha with ha | ha
    · exact hacc.attributes a ha
    · rw [List.mem_singleton.mp ha]
      exact hbody

end Parse

/-- The first four bytes of a class file. -/
def ClassFile.magic : Bytes := [0xCA, 0xFE, 0xBA, 0xBE]

theorem Bytes.toNat_eq_magic_iff {bs : Bytes} (h : bs.length = 4) : bs.toNat = 0xCAFEBABE ↔ bs = ClassFile.magic := by
  obtain ⟨a, b, c, d, rfl⟩ : ∃ a b c d, bs = [a, b, c, d] := by
    match bs, h with
    | [a, b, c, d], _ => exact ⟨a, b, c, d, rfl⟩
  have ha := a.toNat_lt
  have hb := b.toNat_lt
  have hc := c.toNat_lt
  have hd := d.toNat_lt
  simp only [Bytes.toNat, List.foldl_cons, List.foldl_nil, ClassFile.magic, List.cons.injEq, and_true,
    ← UInt8.toNat_inj, UInt8.reduceToNat]
  omega

/-- What the fault says of the bytes that a class was to be read from. The pool that it may be about is the one that
the bytes from the eighth on hold, without the bootstrap methods that follow later. -/
def ParseFault.Of (data : Bytes) : ParseFault → Prop
  | .magic => 4 ≤ data.length ∧ data.take 4 ≠ ClassFile.magic
  | .truncated t => ∃ part, part <:+: data ∧ t.Of part
  | .pool fault => fault.OfEntry data ∨
    ∃ pool last, Pool.read (Cursor.atPos data 8) = .ok (pool, last) ∧ fault.OfReference pool

namespace Parse

open Scan

variable {data : Bytes}

theorem moves_afterPool {pos : Nat} {minor major : Nat} {pool : Pool}
    (hslots : pool.slots.size = (data.slice 8 2).toNat) (hpos : pos ≤ data.length) :
    Moves data (Fails data pool) (do
      let access ← u2
      let thisIndex ← u2
      let superIndex ← u2
      let name ← inside .thisClass (ofPool (pool.className thisIndex))
      let superName ← inside .superClass (ofPool (pool.optionalClassName superIndex))
      let interfaces ← times (← u2) fun index => do
        let interfaceIndex ← u2
        inside (.interface index) (ofPool (pool.className interfaceIndex))
      let fields ← times (← u2) (field pool)
      let methods ← times (← u2) (method pool)
      let header : Header := ⟨(65536 * minor + major : Nat), access, name, "", superName, interfaces⟩
      classAttributes ⟨header, "", fields, methods, [], pool⟩) pos fun c _ => c.Within data := by
  refine (moves_u2 hpos).bind fun access _ _ hnext _ => (moves_u2 hnext).bind fun thisIndex _ _ hnext _ => ?_
  refine (moves_u2 hnext).bind fun superIndex _ _ hnext _ => ?_
  refine (moves_inside (moves_ofPool Pool.className_failsIn hnext) _).bind fun name _ _ hnext _ => ?_
  refine (moves_inside (moves_ofPool Pool.optionalClassName_failsIn hnext) _).bind fun superName _ _ hnext _ => ?_
  refine (moves_u2 hnext).bind fun count _ _ hnext _ => ?_
  have hinterface (index pos : Nat) (hpos : pos ≤ data.length) :
      Moves data (Fails data pool) (do
        let interfaceIndex ← u2
        inside (.interface index) (ofPool (pool.className interfaceIndex))) pos fun _ _ => True :=
    (moves_u2 hpos).bind fun _ _ _ hnext _ => moves_inside (moves_ofPool Pool.className_failsIn hnext) _
  refine (Moves.times hinterface count hnext).bind fun interfaces _ _ hnext _ => ?_
  refine (moves_u2 hnext).bind fun count _ _ hnext _ => ?_
  refine (Moves.times (fun index _ hpos => moves_field index hpos) count hnext).bind fun fields _ _ hnext _ => ?_
  refine (moves_u2 hnext).bind fun count _ _ hnext _ => ?_
  refine (Moves.times (fun index _ hpos => moves_method index hpos) count hnext).bind fun methods _ _ hnext hm => ?_
  exact moves_classAttributes ⟨hslots, by simp, hm⟩ hnext

theorem moves_classFile :
    Moves data (fun e => e.fault.Of data) classFile 0 fun c _ => data.take 4 = ClassFile.magic ∧ c.Within data := by
  have hcut (t : Truncation) (ht : t.Of data) : (OfTruncation.ofTruncation t : ParseError).fault.Of data :=
    ⟨data, List.infix_refl data, ht⟩
  refine (Moves.u4 hcut (Nat.zero_le _)).bind fun number next _ hnext hread => ?_
  obtain ⟨rfl, rfl, hfour⟩ := hread
  have hmagic : (data.slice 0 4).toNat = 0xCAFEBABE ↔ data.take 4 = ClassFile.magic :=
    Bytes.toNat_eq_magic_iff (Bytes.length_slice hfour)
  split
  next hne =>
    have hfault : ParseFault.magic.Of data := ⟨by simpa using hfour, fun h => hne (hmagic.mpr h)⟩
    exact Moves.bind (.throw hfault) fun _ _ _ _ (h : False) => h.elim
  next heq =>
    have htake : data.take 4 = ClassFile.magic := hmagic.mp (not_not.mp heq)
    refine (Moves.u2 hcut hnext).bind fun minor next _ hnext hminor => ?_
    obtain ⟨-, rfl, -⟩ := hminor
    refine (Moves.u2 hcut hnext).bind fun major next _ hnext hmajor => ?_
    obtain ⟨-, rfl, -⟩ := hmajor
    have hpool : Moves data (fun e => e.fault.Of data) (mapError ParseError.ofPool Pool.read) 8 fun pool next =>
        Pool.read (Cursor.atPos data 8) = .ok (pool, Cursor.atPos data next) ∧
          pool.slots.size = (data.slice 8 2).toNat := by
      refine ((Pool.moves_read hnext).with_result.mapError fun e he => ?_).imp fun pool _ _ h => ⟨h.1, h.2.1⟩
      cases e with
      | truncated t => exact hcut t he
      | invalid fault => exact .inl he
    refine hpool.bind fun pool next _ hnext hread => ?_
    refine ((moves_afterPool hread.2 hnext).imp_fails fun e he => ?_).imp fun c _ _ hc => ⟨htake, hc⟩
    obtain ⟨places, fault⟩ := e
    cases fault with
    | magic => exact he.elim
    | truncated t => exact he
    | pool fault => exact .inr ⟨pool, _, hread.1, he⟩

/-- A wrong magic number is told before all else. -/
theorem classFile_of_ne_magic (hfour : 4 ≤ data.length) (hne : data.take 4 ≠ ClassFile.magic) :
    classFile (Cursor.atPos data 0) = .error ⟨[], .magic⟩ := by
  have hread : (u4 : Parse Nat) (Cursor.atPos data 0) = .ok ((data.slice 0 4).toNat, Cursor.atPos data 4) := by
    have hbytes : (Cursor.atPos data 0).bytes (4 : Nat) = (data.slice 0 4, Cursor.atPos data (0 + 4)) :=
      Cursor.bytes_atPos_of_le (by simpa using hfour)
    simp only [u4, ofRead, Cursor.u4, Cursor.number, hbytes]
    rfl
  have hmagic : (data.slice 0 4).toNat ≠ 0xCAFEBABE :=
    fun h => hne ((Bytes.toNat_eq_magic_iff (Bytes.length_slice (by simpa using hfour))).mp h)
  simp only [classFile, bind, StateT.bind, hread, Except.bind]
  rw [if_pos hmagic]
  rfl

end Parse

namespace ClassFile

/-- Reading any bytes as a class ends in one of two ways. There is a class, then the reading ended within the bytes,
and what the class keeps of them are parts of them. Or there is an error, then the bytes are as its fault says. -/
theorem parse_accounted (data : Bytes) :
    match parse data with
    | .ok c => data.take 4 = magic ∧ c.Within data ∧
      ∃ last ≤ data.length, Parse.classFile (Cursor.ofBytes data) = .ok (c, Cursor.atPos data last)
    | .error e => e.fault.Of data := by
  have hmoves : Scan.Moves data _ Parse.classFile 0 _ := Parse.moves_classFile
  unfold Scan.Moves at hmoves
  rw [parse, Cursor.ofBytes_eq_atPos]
  cases hr : Parse.classFile (Cursor.atPos data 0) with
  | error e =>
    rw [hr] at hmoves
    exact hmoves
  | ok r =>
    rw [hr] at hmoves
    obtain ⟨last, hlast, -, hlength, hmagic, hwithin⟩ := hmoves
    exact ⟨hmagic, hwithin, last, hlength, by rw [← hlast]⟩

theorem parse_of_ne_magic {data : Bytes} (hfour : 4 ≤ data.length) (hne : data.take 4 ≠ magic) :
    parse data = .error ⟨[], .magic⟩ := by
  rw [parse, Cursor.ofBytes_eq_atPos, Parse.classFile_of_ne_magic hfour hne]
  rfl

end ClassFile
end Linkage

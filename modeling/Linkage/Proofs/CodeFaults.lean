import Linkage.Proofs.Extent
import Linkage.Proofs.PoolFaults
import Linkage.Proofs.Script

/-!
What becomes of any bytes that are decoded as code. Decoding goes forward by at least a byte for each instruction, so
it ends by itself. If it does not come to the end of the code, or an operand does not resolve, the fault says why: an
opcode that there is not, a read beyond the end of the code, a switch whose bounds or whose count make no sense, or a
reference that the pool does not resolve.
-/
namespace Linkage

namespace Bytes

/-- The opcode at an offset, as a number. -/
def opcodeAt (code : Bytes) (offset : Nat) : Option Opcode := code[offset]?.map UInt8.toNat

theorem lt_of_opcodeAt {code : Bytes} {offset : Nat} {op : Opcode} (h : code.opcodeAt offset = some op) : op < 256 := by
  obtain ⟨b, -, rfl⟩ := Option.map_eq_some_iff.mp h
  exact b.toNat_lt

/-- The signed number in the four bytes from a position on. -/
def intAt (code : Bytes) (pos : Nat) : Int := signed 32 (code.slice pos 4).toNat

end Bytes

/-- What the error says of the code. The operands of a switch start with its default, which its bounds or its count
follow. -/
def CodeError.Of (code : Bytes) : CodeError → Prop
  | .unknown op offset => code.opcodeAt offset = some op ∧ 201 < op
  | .notWide op offset => code.opcodeAt offset = some Opcode.wide ∧ code.opcodeAt (offset + 1) = some op ∧
    op ≠ Opcode.iinc ∧ Opcode.takesVariable op = false
  | .operands op offset t => code.opcodeAt offset = some op ∧ t.Of code
  | .truncated t => t.Of code
  | .switchBounds offset low high => code.opcodeAt offset = some 170 ∧
    low = code.intAt (offset + 1 + Instruction.padding offset + 4) ∧
    high = code.intAt (offset + 1 + Instruction.padding offset + 8) ∧ high < low
  | .switchCount offset => code.opcodeAt offset = some 171 ∧
    code.intAt (offset + 1 + Instruction.padding offset + 4) < 0

namespace Opcode

theorem format_eq_none : ∀ op : Nat, op < 256 → format op = none → op ≠ wide → 201 < op := by
  decide +kernel

theorem format_eq_tableSwitch : ∀ op : Nat, op < 256 → format op = some .tableSwitch → op = 170 := by
  decide +kernel

theorem format_eq_lookupSwitch : ∀ op : Nat, op < 256 → format op = some .lookupSwitch → op = 171 := by
  decide +kernel

end Opcode

namespace Instruction

open Scan

variable {code : Bytes} {pos : Nat}

theorem moves_signedNumber {Fails : CodeError → Prop} (hcut : ∀ t : Truncation, t.Of code → Fails (.truncated t))
    (width : Nat) (hpos : pos ≤ code.length) :
    Moves code Fails (signedNumber width) pos fun n next =>
      n = signed (8 * width) (code.slice pos width).toNat ∧ next = pos + width := by
  refine (Moves.number hcut width hpos).bind fun n next _ hnext hn => .pure hnext ?_
  exact ⟨by rw [hn.1], hn.2.1⟩

theorem moves_target {Fails : CodeError → Prop} (hcut : ∀ t : Truncation, t.Of code → Fails (.truncated t))
    (offset width : Nat) (hpos : pos ≤ code.length) :
    Moves code Fails (target offset width) pos fun _ next => next = pos + width :=
  (moves_signedNumber hcut width hpos).bind fun _ _ _ hnext h => .pure hnext h.2

theorem moves_tableSwitch {offset : Nat} (hop : code.opcodeAt offset = some 170) (hpos : offset + 1 ≤ code.length) :
    Moves code (fun e => (e.inOperands 170 offset).Of code) (operands 170 offset .tableSwitch) (offset + 1)
      fun _ _ => True := by
  have hcut (t : Truncation) (ht : t.Of code) : ((CodeError.truncated t).inOperands 170 offset).Of code := ⟨hop, ht⟩
  refine (Moves.bytes hcut (padding offset) hpos).bind fun _ start _ hnext hstart => ?_
  refine (moves_target hcut offset 4 hnext).bind fun otherwise next _ hnext hotherwise => ?_
  refine (moves_signedNumber hcut 4 hnext).bind fun low next' _ hnext hlow => ?_
  refine (moves_signedNumber hcut 4 hnext).bind fun high last _ hlast hhigh => ?_
  obtain ⟨-, rfl, -⟩ := hstart
  subst hotherwise
  obtain ⟨hlow, rfl⟩ := hlow
  split
  next hlt =>
    refine Moves.bind (.throw ?_) fun _ _ _ _ (h : False) => h.elim
    exact ⟨hop, hlow, hhigh.1, hlt⟩
  next =>
    have htarget (_ pos : Nat) (hpos : pos ≤ code.length) :
        Moves code (fun e => (e.inOperands 170 offset).Of code) (target offset 4) pos fun _ _ => True :=
      (moves_target hcut offset 4 hpos).imp fun _ _ _ _ => trivial
    exact (Moves.times htarget _ hlast).map _

theorem moves_lookupSwitch {offset : Nat} (hop : code.opcodeAt offset = some 171) (hpos : offset + 1 ≤ code.length) :
    Moves code (fun e => (e.inOperands 171 offset).Of code) (operands 171 offset .lookupSwitch) (offset + 1)
      fun _ _ => True := by
  have hcut (t : Truncation) (ht : t.Of code) : ((CodeError.truncated t).inOperands 171 offset).Of code := ⟨hop, ht⟩
  refine (Moves.bytes hcut (padding offset) hpos).bind fun _ start _ hnext hstart => ?_
  refine (moves_target hcut offset 4 hnext).bind fun otherwise next _ hnext hotherwise => ?_
  refine (moves_signedNumber hcut 4 hnext).bind fun pairs last _ hlast hpairs => ?_
  obtain ⟨-, rfl, -⟩ := hstart
  subst hotherwise
  split
  next hlt =>
    refine Moves.bind (.throw ?_) fun _ _ _ _ (h : False) => h.elim
    rw [hpairs.1] at hlt
    exact ⟨hop, hlt⟩
  next =>
    have hcase (_ pos : Nat) (hpos : pos ≤ code.length) :
        Moves code (fun e => (e.inOperands 171 offset).Of code) (do
          let key ← signedNumber 4
          return (key, ← target offset 4) : Scan CodeError (Int × Int)) pos fun _ _ => True := by
      refine (moves_signedNumber hcut 4 hpos).bind fun key _ _ hnext _ => ?_
      exact (moves_target hcut offset 4 hnext).map _
    exact (Moves.times hcase _ hlast).map _

/-- The operands of the opcode before the position. -/
theorem moves_operands {op : Opcode} {offset : Nat} {format : Opcode.Format} (hop : code.opcodeAt offset = some op)
    (hformat : Opcode.format op = some format) (hpos : offset + 1 ≤ code.length) :
    Moves code (fun e => (e.inOperands op offset).Of code) (operands op offset format) (offset + 1)
      fun _ _ => True := by
  have hcut (t : Truncation) (ht : t.Of code) : ((CodeError.truncated t).inOperands op offset).Of code := ⟨hop, ht⟩
  cases format with
  | plain => exact .pure hpos trivial
  | implied op index => exact .pure hpos trivial
  | signed width => exact (moves_signedNumber hcut width hpos).map _
  | arrayType => exact (Moves.u1 hcut hpos).map _
  | localVar => exact (Moves.u1 hcut hpos).map _
  | constant width => exact (Moves.number hcut width hpos).map _
  | increment =>
    refine (Moves.u1 hcut hpos).bind fun index _ _ hnext _ => ?_
    exact (moves_signedNumber hcut 1 hnext).map _
  | branch op width => exact (moves_target hcut offset width hpos).map _
  | field => exact (Moves.u2 hcut hpos).map _
  | type => exact (Moves.u2 hcut hpos).map _
  | method ignored =>
    refine (Moves.u2 hcut hpos).bind fun index _ _ hnext _ => ?_
    exact (Moves.bytes hcut ignored hnext).map _
  | invokeDynamic =>
    refine (Moves.u2 hcut hpos).bind fun index _ _ hnext _ => ?_
    exact (Moves.bytes hcut 2 hnext).map _
  | multiArray =>
    refine (Moves.u2 hcut hpos).bind fun index _ _ hnext _ => ?_
    exact (Moves.u1 hcut hnext).map _
  | tableSwitch =>
    obtain rfl := Opcode.format_eq_tableSwitch op (Bytes.lt_of_opcodeAt hop) hformat
    exact moves_tableSwitch hop hpos
  | lookupSwitch =>
    obtain rfl := Opcode.format_eq_lookupSwitch op (Bytes.lt_of_opcodeAt hop) hformat
    exact moves_lookupSwitch hop hpos

/-- The operands of the opcode that a `wide` stands before. -/
theorem moves_wideOperands {op : Opcode} {offset : Nat} (hwide : code.opcodeAt offset = some Opcode.wide)
    (hop : code.opcodeAt (offset + 1) = some op) (hpos : pos ≤ code.length) :
    Moves code (fun e => (e.inOperands Opcode.wide offset).Of code) (wideOperands op offset) pos fun _ _ => True := by
  have hcut (t : Truncation) (ht : t.Of code) : ((CodeError.truncated t).inOperands Opcode.wide offset).Of code :=
    ⟨hwide, ht⟩
  unfold wideOperands
  split
  · refine (Moves.u2 hcut hpos).bind fun index _ _ hnext _ => ?_
    exact (moves_signedNumber hcut 2 hnext).map _
  next hiinc =>
    split
    · exact (Moves.u2 hcut hpos).map _
    next hvariable => exact .throw ⟨hwide, hop, hiinc, by simpa using hvariable⟩

/-- An instruction is of one byte at least, and its offset is where it was read. -/
theorem moves_readAt (hpos : pos ≤ code.length) :
    Moves code (CodeError.Of code) (readAt pos) pos fun i next => i.offset = pos ∧ pos < next := by
  have hcut (t : Truncation) (ht : t.Of code) : (CodeError.truncated t).Of code := ht
  refine (Moves.u1 hcut hpos).bind fun op next _ hnext hread => ?_
  obtain ⟨hop, rfl, hone⟩ := hread
  have hop : code.opcodeAt pos = some op := Bytes.getElem?_of_slice hone hop
  split
  next hwide =>
    subst hwide
    refine (Moves.u1 hcut hnext).bind fun inner next _ hnext hread => ?_
    obtain ⟨hinner, rfl, htwo⟩ := hread
    have hinner : code.opcodeAt (pos + 1) = some inner := Bytes.getElem?_of_slice htwo hinner
    refine ((moves_wideOperands hop hinner hnext).mapError fun _ h => h).bind fun r next hle hnext _ => .pure hnext ?_
    exact ⟨rfl, by omega⟩
  next hwide =>
    cases hformat : Opcode.format op with
    | none => exact .throw ⟨hop, Opcode.format_eq_none op (Bytes.lt_of_opcodeAt hop) hformat hwide⟩
    | some format =>
      refine ((moves_operands hop hformat hnext).mapError fun _ h => h).bind fun r next hle hnext _ => .pure hnext ?_
      exact ⟨rfl, by omega⟩

/-- One turn of the decoder before the end of the code: an error as told, or an instruction there and the way on. -/
theorem readAll_succ (hpos : pos < code.length) :
    (∃ e, e.Of code ∧ ∀ fuel, readAll (fuel + 1) (Cursor.atPos code pos) = .error e) ∨
      ∃ i next, i.offset = pos ∧ pos < next ∧ next ≤ code.length ∧
        ∀ fuel, readAll (fuel + 1) (Cursor.atPos code pos) =
          (do return i :: (← readAll fuel (Cursor.atPos code next))) := by
  have hmoves : Moves code (CodeError.Of code) (readAt pos) pos _ := moves_readAt (Nat.le_of_lt hpos)
  have hread : read (Cursor.atPos code pos) = readAt pos (Cursor.atPos code pos) := rfl
  have hrest : (Cursor.atPos code pos).rest.isEmpty = false := by
    simpa [Cursor.atPos, List.isEmpty_eq_false_iff] using hpos
  unfold Moves at hmoves
  cases hr : readAt pos (Cursor.atPos code pos) with
  | error e =>
    rw [hr] at hmoves
    refine .inl ⟨e, hmoves, fun fuel => ?_⟩
    rw [readAll, hrest, hread, hr]
    rfl
  | ok r =>
    rw [hr] at hmoves
    obtain ⟨next, hnext, -, hlength, hoffset, hlt⟩ := hmoves
    refine .inr ⟨r.1, next, hoffset, hlt, hlength, fun fuel => ?_⟩
    rw [readAll, hrest, hread, hr, ← hnext]
    rfl

theorem readAll_end (fuel : Nat) : readAll fuel (Cursor.atPos code code.length) = .ok [] := by
  cases fuel with
  | zero => rfl
  | succ fuel => simp [readAll, Cursor.atPos]

/-- Turns beyond the number of bytes that are left change nothing, and the instructions start within the code. -/
theorem readAll_accounted (fuel : Nat) (hpos : pos ≤ code.length) (hfuel : code.length - pos ≤ fuel) :
    readAll fuel (Cursor.atPos code pos) = readAll (code.length - pos) (Cursor.atPos code pos) ∧
      match readAll fuel (Cursor.atPos code pos) with
      | .ok instructions => ∀ i ∈ instructions, i.offset < code.length
      | .error e => e.Of code := by
  -- on the bytes that are left: each turn takes some, and what fuel then remains still covers the rest
  induction hn : code.length - pos using Nat.strongRecOn generalizing pos fuel with
  | ind n ih =>
    by_cases hend : pos = code.length
    · rw [hend, readAll_end, readAll_end]
      exact ⟨rfl, by simp⟩
    · obtain ⟨fuel, rfl⟩ := Nat.exists_eq_succ_of_ne_zero (show fuel ≠ 0 by omega)
      obtain ⟨n, rfl⟩ := Nat.exists_eq_succ_of_ne_zero (show n ≠ 0 by omega)
      obtain ⟨e, he, herror⟩ | ⟨i, next, hi, hlt, hnext, hok⟩ := readAll_succ (show pos < code.length by omega)
      · rw [herror, herror]
        exact ⟨rfl, he⟩
      · obtain ⟨hmore, hrest⟩ := ih (code.length - next) (by omega) fuel hnext (by omega) rfl
        obtain ⟨hless, -⟩ := ih (code.length - next) (by omega) n hnext (by omega) rfl
        rw [hok, hok, hmore, hless]
        refine ⟨rfl, ?_⟩
        rw [hmore] at hrest
        cases hr : readAll (code.length - next) (Cursor.atPos code next) with
        | error e =>
          rw [hr] at hrest
          exact hrest
        | ok rest =>
          rw [hr] at hrest
          have hhead : i.offset < code.length := by omega
          exact List.forall_mem_cons.mpr ⟨hhead, hrest⟩

/-- Decoding ends by itself: no bound on the number of instructions that leaves one for each byte is ever felt. -/
theorem decode_accounted (code : Bytes) :
    (∀ fuel, code.length ≤ fuel → readAll fuel (Cursor.ofBytes code) = decode code) ∧
      match decode code with
      | .ok instructions => ∀ i ∈ instructions, i.offset < code.length
      | .error e => e.Of code :=
  ⟨fun fuel hfuel => (readAll_accounted fuel (Nat.zero_le _) (by simpa using hfuel)).1,
    (readAll_accounted code.length (Nat.zero_le _) (Nat.sub_le _ _)).2⟩

/-- What the event of an instruction comes to, whatever is remembered. -/
theorem event_yields (pool : Pool) (i : Instruction) :
    ∃ r, Run.Yields (Memo.Sound pool) (i.event pool) r ∧ FailsIn (PoolFault.OfReference pool) r := by
  have hpure (e : CodeEvent) :
      ∃ r, Run.Yields (Memo.Sound pool) (pure e) r ∧ FailsIn (PoolFault.OfReference pool) r :=
    ⟨.ok e, Run.yields_pure e, .ok e⟩
  have hyields {α : Type} {x : Resolve α} {r : Except PoolFault α} (f : α → CodeEvent)
      (hx : Run.Yields (Memo.Sound pool) x r) (hr : FailsIn (PoolFault.OfReference pool) r) :
      ∃ r, Run.Yields (Memo.Sound pool) (do return f (← x) : Resolve CodeEvent) r ∧
        FailsIn (PoolFault.OfReference pool) r :=
    ⟨r >>= fun a => .ok (f a), hx.bind fun a _ => Run.yields_pure (f a), hr.bind fun a _ => .ok (f a)⟩
  unfold event
  cases i.operand with
  | none => exact hpure _
  | number value => exact hpure _
  | localVar index => exact hpure _
  | increment index amount => exact hpure _
  | jump target => exact hpure _
  | tableSwitch low high otherwise targets => exact hpure _
  | lookupSwitch otherwise cases => exact hpure _
  | type index => exact hyields _ (Run.yields_lift _) Pool.className_failsIn
  | multiArray index dimensions => exact hyields _ (Run.yields_lift _) Pool.className_failsIn
  | field index => exact hyields _ (Run.yields_lift _) (Pool.memberRef_failsIn _)
  | method index => exact hyields _ (Run.yields_lift _) (Pool.memberRef_failsIn _)
  | invokeDynamic index => exact hyields _ (Pool.callSite_yields index) Pool.unfoldSite_failsIn
  | constant index => exact hyields _ (Pool.loadable_yields index) Pool.unfold_failsIn

end Instruction

/-- What the fault says of the code of a method and of the pool of its class. -/
def BodyFault.Of (pool : Pool) (code : Bytes) : BodyFault → Prop
  | .code e => Instruction.decode code = .error e ∧ e.Of code
  | .operand op offset fault => fault.OfReference pool ∧
    ∃ instructions, Instruction.decode code = .ok instructions ∧
      ∃ i ∈ instructions, i.opcode = op ∧ i.offset = offset

namespace Code

section

variable {pool : Pool} {code : Code} {labels : Std.TreeSet Label} {i : Instruction} {is : List Instruction}
  {memo memo' : Memo}

theorem fault_of_event_error {cause : PoolFault} (h : i.event pool memo = (.error cause, memo')) :
    (code.instructionEvents pool labels (i :: is) memo).1.fault = some (.operand i.opcode i.offset cause) := by
  simp only [instructionEvents, bind, StateT.bind, ExceptT.run, h]
  rfl

theorem fault_of_event_ok {event : CodeEvent} (h : i.event pool memo = (.ok event, memo')) :
    (code.instructionEvents pool labels (i :: is) memo).1.fault =
      (code.instructionEvents pool labels is memo').1.fault := by
  simp only [instructionEvents, bind, StateT.bind, ExceptT.run, h]
  rfl

theorem instructionEvents_fault (hm : Memo.Sound pool memo) {fault : BodyFault}
    (h : (code.instructionEvents pool labels is memo).1.fault = some fault) :
    ∃ i ∈ is, ∃ cause : PoolFault, cause.OfReference pool ∧ fault = .operand i.opcode i.offset cause := by
  induction is generalizing memo with
  | nil => cases h
  | cons i rest ih =>
    obtain ⟨r, hyields, hfails⟩ := i.event_yields pool
    obtain ⟨memo', hevent, hm'⟩ := hyields memo hm
    cases r with
    | error cause =>
      rw [fault_of_event_error hevent] at h
      cases h
      exact ⟨i, by simp, cause, hfails cause rfl, rfl⟩
    | ok event =>
      rw [fault_of_event_ok hevent] at h
      obtain ⟨j, hj, hcause⟩ := ih hm' h
      exact ⟨j, by simp [hj], hcause⟩

end

/-- The events of a body break off only for a fault that the code or the pool has. -/
theorem body_fault {pool : Pool} {code : Code} {fault : BodyFault} (h : (code.body pool).fault = some fault) :
    fault.Of pool code.bytes := by
  have hdecode := (Instruction.decode_accounted code.bytes).2
  unfold body trace at h
  cases hd : Instruction.decode code.bytes with
  | error e =>
    rw [hd] at h hdecode
    cases h
    exact ⟨hd, hdecode⟩
  | ok instructions =>
    rw [hd] at h
    obtain ⟨i, hi, cause, hcause, rfl⟩ := instructionEvents_fault (Memo.sound_nil pool) h
    exact ⟨hcause, instructions, hd, i, hi, rfl, rfl⟩

end Code
end Linkage

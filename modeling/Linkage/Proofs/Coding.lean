import Linkage.Proofs.Assembly
import Linkage.Proofs.Script

/-!
Code that has been assembled is decoded into instructions of which a replay tells what was planned. Only the slots
in the code are looked at here; what they hold is the business of the pool.
-/
namespace Linkage

open Scan

/-- What a replay tells of an instruction, whatever is remembered. -/
def Instruction.Tells (pool : Pool) (i : Instruction) (t : Told) : Prop :=
  Run.Yields (Memo.Sound pool) (i.event pool) (t.resolve pool)

/-- An instruction that follows a reference of which the target is known. -/
theorem Instruction.tells_of_eq {α : Type} {pool : Pool} {i : Instruction} {result : Except PoolFault α} {a : α}
    {f : α → CodeEvent} (hevent : i.event pool = (do return f (← result))) (h : result = .ok a) :
    i.Tells pool (.event (f a)) := by
  rw [Instruction.Tells, hevent, h]
  exact Run.yields_pure _

namespace Pool

variable {pool : Pool}

theorem loadable_nil (index : Nat) : (pool.loadable index []).1 = pool.unfold index := by
  obtain ⟨memo, h, -⟩ := loadable_yields index [] (Memo.sound_nil pool)
  rw [h]

theorem unfold_of_outline {index : Nat} {value : Literal} (h : pool.outline index = .ok (.value value)) :
    pool.unfold index = .ok value := by
  rw [unfold, unfoldWithin, h]
  rfl

theorem loadable_of_outline {index : Nat} {value : Literal} (h : pool.outline index = .ok (.value value)) :
    (pool.loadable index []).1 = .ok value := by
  rw [loadable_nil, unfold_of_outline h]

theorem outline_string {index slot : Nat} {text : String} (h : pool.Holds index (.string slot))
    (ht : pool.utf8 slot = .ok text) : pool.outline index = .ok (.value (.string text)) := by
  have hat : pool.loadableAt index = .ok (.string slot) := expect_eq_ok_iff.mpr ⟨_, h, rfl⟩
  rw [outline, hat, ok_bind]
  simp only [ht, ok_bind]
  rfl

theorem outline_methodType {index slot : Nat} {descriptor : String} (h : pool.Holds index (.methodType slot))
    (hd : pool.utf8 slot = .ok descriptor) : pool.outline index = .ok (.value (.methodType descriptor)) := by
  have hat : pool.loadableAt index = .ok (.methodType slot) := expect_eq_ok_iff.mpr ⟨_, h, rfl⟩
  rw [outline, hat, ok_bind]
  simp only [hd, ok_bind]
  rfl

theorem outline_type {index slot : Nat} {name : String} (h : pool.Holds index (.type slot))
    (hn : pool.utf8 slot = .ok name) : pool.outline index = .ok (.value (.type name)) := by
  have hat : pool.loadableAt index = .ok (.type slot) := expect_eq_ok_iff.mpr ⟨_, h, rfl⟩
  rw [outline, hat, ok_bind]
  simp only [hn, ok_bind]
  rfl

theorem outline_handle {index kind reference : Nat} {handle : Handle}
    (h : pool.Holds index (.methodHandle kind reference)) (hh : pool.handle index = .ok handle) :
    pool.outline index = .ok (.value (.handle handle)) := by
  have hat : pool.loadableAt index = .ok .handle := expect_eq_ok_iff.mpr ⟨_, h, rfl⟩
  rw [outline, hat, ok_bind]
  simp only [hh, ok_bind]
  rfl

theorem outline_integer {index : Nat} {bits : UInt32} (h : pool.Holds index (.integer bits)) :
    pool.outline index = .ok (.value (.int bits.toInt32)) := by
  have hat : pool.loadableAt index = .ok (.value (.int bits.toInt32)) := expect_eq_ok_iff.mpr ⟨_, h, rfl⟩
  rw [outline, hat]
  rfl

theorem unfoldSite_eq {index bootstrap pair : Nat} {name descriptor : String}
    (h : pool.Holds index (.invokeDynamic bootstrap pair)) (hp : pool.nameAndType pair = .ok (name, descriptor)) :
    pool.unfoldSite index = (do
      let method ← pool.bootstrapAt bootstrap
      let handle ← pool.handle method.handle
      let arguments ← method.arguments.mapM pool.unfold
      return ⟨name, descriptor, handle, arguments⟩) := by
  have hexpect {tags : List Tag} {select : Constant → Option (Nat × Nat)}
      (hs : select (.invokeDynamic bootstrap pair) = some (bootstrap, pair)) :
      pool.expect index tags select = .ok (bootstrap, pair) := expect_eq_ok_iff.mpr ⟨_, h, hs⟩
  rw [unfoldSite, hexpect, ok_bind]
  · simp only [recipe, hp, ok_bind, bind_assoc, pure_bind]
  · rfl

end Pool

namespace Told

variable {pool : Pool}

/-- At this offset the bytes are an instruction of which a replay tells this. -/
def CodedAt (pool : Pool) (offset : Nat) (bs : Bytes) (t : Told) : Prop :=
  bs ≠ [] ∧ ∃ i : Instruction, i.Tells pool t ∧
    ∀ rest, Instruction.read ⟨offset, bs ++ rest, none⟩ = .ok (i, ⟨offset + bs.length, rest, none⟩)

theorem codedAt_of_reads {op offset : Nat} {format : Opcode.Format} {general : Opcode} {operand : Operand} {bs : Bytes}
    {t : Told} (hop : op < 256) (hformat : Opcode.format op = some format)
    (hreads : Reads (Instruction.operands op offset format) bs (general, operand))
    (ht : Instruction.Tells pool ⟨offset, general, operand⟩ t) : CodedAt pool offset (u1Bytes op ++ bs) t := by
  have hwide : op ≠ Opcode.wide := by
    rintro rfl
    cases hformat
  have hread : Reads (Instruction.readAt offset) (u1Bytes op ++ bs) ⟨offset, general, operand⟩ := by
    refine (reads_u1 hop).bind ?_
    rw [if_neg hwide, hformat]
    exact (hreads.mapError _).bind_nil (reads_pure _)
  exact ⟨by simp [u1Bytes, Bytes.ofNat], _, ht, hread offset⟩

end Told

/-! The operands of the instructions that an assembly may hold. -/

namespace Opcode

theorem format_plain : ∀ op : Nat, op < 256 → (op ≤ 15 ∨ 26 ≤ op ∧ op ≤ 53 ∨ 59 ≤ op ∧ op ≤ 131 ∨ 133 ≤ op ∧ op ≤ 152 ∨
    172 ≤ op ∧ op ≤ 177 ∨ 190 ≤ op ∧ op ≤ 191 ∨ 194 ≤ op ∧ op ≤ 195) →
    format op = some (((Insn.shortForm? op).map fun f => Format.implied f.1.toNat f.2.toNat).getD .plain) := by
  decide +kernel

theorem format_localVar : ∀ op : Nat, op < 256 → (21 ≤ op ∧ op ≤ 25 ∨ 54 ≤ op ∧ op ≤ 58 ∨ op = 169) →
    format op = some .localVar := by
  decide +kernel

theorem format_branch : ∀ op : Nat, op < 256 → (153 ≤ op ∧ op ≤ 168 ∨ 198 ≤ op ∧ op ≤ 199) →
    format op = some (.branch op 2) := by
  decide +kernel

theorem format_field : ∀ op : Nat, op < 256 → (178 ≤ op ∧ op ≤ 181) → format op = some .field := by
  decide +kernel

theorem format_method : ∀ op : Nat, op < 256 → (182 ≤ op ∧ op ≤ 185) →
    format op = some (.method (if op = 185 then 2 else 0)) := by
  decide +kernel

theorem format_type : ∀ op : Nat, op < 256 → (op = 187 ∨ op = 189 ∨ op = 192 ∨ op = 193) → format op = some .type := by
  decide +kernel

end Opcode

theorem shortForm_nonneg {op : Int} {f : Int × Int} (h : Insn.shortForm? op = some f) : 0 ≤ f.1 ∧ 0 ≤ f.2 := by
  unfold Insn.shortForm? at h
  split at h
  · cases h
    dsimp only
    omega
  · split at h
    · cases h
      dsimp only
      omega
    · cases h

theorem byteOf_natCast {n : Nat} (h : n < 256) : Assembler.byteOf n = u1Bytes n := Bytes.ofInt_natCast h

theorem reads_signedNumber {width : Nat} {n : Int} (h : IsSigned (8 * width) n) :
    Reads (Instruction.signedNumber width) (Bytes.ofInt width n) n := by
  have hlt : (n % (256 ^ width : Nat)).toNat < 256 ^ width := by
    have hpos : (0 : Int) < (256 ^ width : Nat) := by exact_mod_cast Nat.pow_pos (by decide)
    have := Int.emod_nonneg n (Int.ne_of_gt hpos)
    have := Int.emod_lt_of_pos n hpos
    omega
  have hsigned : signed (8 * width) (n % (256 ^ width : Nat)).toNat = n := by
    rw [← Bytes.toNat_ofNat hlt, ← Bytes.ofInt_eq]
    refine Bytes.signed_toNat_ofInt ?_ ?_
    · have := h.1
      push_cast
      omega
    · have := h.2
      push_cast
      omega
  rw [Bytes.ofInt_eq]
  refine (reads_number hlt).bind_nil ?_
  rw [hsigned]
  exact reads_pure n

namespace Told

variable {pool : Pool} {offset number : Nat}

theorem codedAt_plain {op : Int} (h : (Insn.plain op).Fits offset number) :
    CodedAt pool offset (Assembler.byteOf op) ((Insn.plain op).told number) := by
  simp only [Insn.Fits] at h
  obtain ⟨n, rfl⟩ := Int.eq_ofNat_of_zero_le (show 0 ≤ op by omega)
  have hn : n < 256 := by omega
  have hformat := Opcode.format_plain n hn (by omega)
  rw [byteOf_natCast hn, ← List.append_nil (u1Bytes n), Insn.told]
  cases hshort : Insn.shortForm? n with
  | none =>
    rw [hshort] at hformat
    exact codedAt_of_reads hn hformat (reads_pure _) (Run.yields_pure _)
  | some f =>
    obtain ⟨general, index⟩ := f
    obtain ⟨hgeneral, hindex⟩ := shortForm_nonneg hshort
    obtain ⟨g, rfl⟩ := Int.eq_ofNat_of_zero_le hgeneral
    obtain ⟨k, rfl⟩ := Int.eq_ofNat_of_zero_le hindex
    rw [hshort] at hformat
    exact codedAt_of_reads hn hformat (reads_pure _) (Run.yields_pure _)

theorem codedAt_var {op index : Int} (h : (Insn.var op index).Fits offset number) :
    CodedAt pool offset (Assembler.byteOf op ++ Assembler.byteOf index) ((Insn.var op index).told number) := by
  simp only [Insn.Fits] at h
  obtain ⟨n, rfl⟩ := Int.eq_ofNat_of_zero_le (show 0 ≤ op by omega)
  obtain ⟨k, rfl⟩ := Int.eq_ofNat_of_zero_le h.2.1
  have hn : n < 256 := by omega
  have hk : k < 256 := by omega
  rw [byteOf_natCast hn, byteOf_natCast hk]
  exact codedAt_of_reads hn (Opcode.format_localVar n hn (by omega)) ((reads_u1 hk).bind_nil (reads_pure _))
    (Run.yields_pure _)

theorem codedAt_push {value : Int} (h : (Insn.push value).Fits offset number) :
    CodedAt pool offset (16 :: Assembler.byteOf value) ((Insn.push value).told number) := by
  have hreads : Reads (Instruction.signedNumber 1) (Assembler.byteOf value) value := reads_signedNumber h
  have hop : Opcode.format 16 = some (.signed 1) := rfl
  exact codedAt_of_reads (by decide) hop (hreads.bind_nil (reads_pure _)) (Run.yields_pure _)

theorem codedAt_jump {op target : Int} (h : (Insn.jump op target).Fits offset number) :
    CodedAt pool offset (Assembler.byteOf op ++ Bytes.ofInt 2 (target - offset))
      ((Insn.jump op target).told number) := by
  simp only [Insn.Fits] at h
  obtain ⟨n, rfl⟩ := Int.eq_ofNat_of_zero_le (show 0 ≤ op by omega)
  have hn : n < 256 := by omega
  have hreads : Reads (Instruction.target offset 2) (Bytes.ofInt 2 (target - offset)) target := by
    have hnumber : Reads (Instruction.signedNumber 2) (Bytes.ofInt 2 (target - offset)) (target - offset) :=
      reads_signedNumber h.2
    have htarget : (offset : Int) + (target - offset) = target := by omega
    refine hnumber.bind_nil ?_
    rw [htarget]
    exact reads_pure target
  rw [byteOf_natCast hn]
  exact codedAt_of_reads hn (Opcode.format_branch n hn (by omega)) (hreads.bind_nil (reads_pure _))
    (Run.yields_pure _)

theorem codedAt_type {op : Int} {name : String} {slot : Nat} (h : (Insn.type op name).Fits offset number)
    (hslot : slot < 65536) (hname : pool.className slot = .ok name) :
    CodedAt pool offset (Assembler.byteOf op ++ u2Bytes slot) ((Insn.type op name).told number) := by
  simp only [Insn.Fits] at h
  obtain ⟨n, rfl⟩ := Int.eq_ofNat_of_zero_le (show 0 ≤ op by omega)
  have hn : n < 256 := by omega
  rw [byteOf_natCast hn]
  exact codedAt_of_reads hn (Opcode.format_type n hn (by omega)) ((reads_u2 hslot).bind_nil (reads_pure _))
    (Instruction.tells_of_eq rfl hname)

theorem codedAt_field {op : Int} {owner name descriptor : String} {slot : Nat}
    (h : (Insn.field op owner name descriptor).Fits offset number) (hslot : slot < 65536)
    (href : pool.memberRef slot [.field] = .ok ⟨owner, name, descriptor, false⟩) :
    CodedAt pool offset (Assembler.byteOf op ++ u2Bytes slot) ((Insn.field op owner name descriptor).told number) := by
  simp only [Insn.Fits] at h
  obtain ⟨n, rfl⟩ := Int.eq_ofNat_of_zero_le (show 0 ≤ op by omega)
  have hn : n < 256 := by omega
  rw [byteOf_natCast hn]
  exact codedAt_of_reads hn (Opcode.format_field n hn (by omega)) ((reads_u2 hslot).bind_nil (reads_pure _))
    (Instruction.tells_of_eq (f := fun ref => .fieldInsn n ref.owner ref.name ref.descriptor) rfl href)

theorem codedAt_invoke {op : Int} {owner name descriptor : String} {slot : Nat}
    (h : (Insn.invoke op owner name descriptor).Fits offset number) (hslot : slot < 65536)
    (href : pool.memberRef slot [.method, .interfaceMethod] = .ok ⟨owner, name, descriptor, op = 185⟩) :
    CodedAt pool offset (Assembler.byteOf op ++ u2Bytes slot ++ (if op = 185 then [1, 0] else []))
      ((Insn.invoke op owner name descriptor).told number) := by
  simp only [Insn.Fits] at h
  obtain ⟨n, rfl⟩ := Int.eq_ofNat_of_zero_le (show 0 ≤ op by omega)
  have hn : n < 256 := by omega
  have hcount : Reads (bytes (if n = 185 then 2 else 0) : Scan CodeError Bytes)
      (if (n : Int) = 185 then [1, 0] else []) (if (n : Int) = 185 then [1, 0] else []) := by
    by_cases h185 : n = 185
    · subst h185
      exact reads_bytes [1, 0]
    · have h185' : ¬ (n : Int) = 185 := by omega
      rw [if_neg h185, if_neg h185']
      exact reads_bytes []
  rw [byteOf_natCast hn, List.append_assoc]
  exact codedAt_of_reads hn (Opcode.format_method n hn (by omega))
    ((reads_u2 hslot).bind (hcount.bind_nil (reads_pure _)))
    (Instruction.tells_of_eq (f := fun ref => .methodInsn n ref.owner ref.name ref.descriptor ref.isInterface) rfl href)

theorem codedAt_load {slot : Nat} (hslot : slot < 65536) :
    CodedAt pool offset (19 :: u2Bytes slot) (.load slot) := by
  have hop : Opcode.format 19 = some (.constant 2) := rfl
  refine codedAt_of_reads (by decide) hop ((reads_u2 hslot).bind_nil (reads_pure _)) ?_
  rw [Instruction.Tells, resolve, Pool.loadable_nil]
  exact (Pool.loadable_yields slot).bind fun value _ => Run.yields_pure _

theorem codedAt_value {slot : Nat} {value : Literal} (hslot : slot < 65536)
    (hvalue : pool.outline slot = .ok (.value value)) :
    CodedAt pool offset (19 :: u2Bytes slot) (.event (.ldc value)) := by
  have hload : resolve pool (.load slot) = resolve pool (.event (.ldc value)) := by
    change (do return CodeEvent.ldc (← (pool.loadable slot []).1)) = _
    rw [Pool.loadable_of_outline hvalue]
    rfl
  have hcoded : CodedAt pool offset (19 :: u2Bytes slot) (.load slot) := codedAt_load hslot
  rw [CodedAt] at hcoded ⊢
  simpa only [Instruction.Tells, hload] using hcoded

theorem codedAt_site {slot bootstrap pair : Nat} {name descriptor : String} (hslot : slot < 65536)
    (hsite : pool.Holds slot (.invokeDynamic bootstrap pair)) (hpair : pool.nameAndType pair = .ok (name, descriptor)) :
    CodedAt pool offset (186 :: u2Bytes slot ++ [0, 0]) (.site name descriptor bootstrap) := by
  have hop : Opcode.format 186 = some .invokeDynamic := rfl
  refine codedAt_of_reads (by decide) hop ((reads_u2 hslot).bind ((reads_bytes [0, 0]).bind_nil (reads_pure _))) ?_
  have hresolve : resolve pool (.site name descriptor bootstrap) = (do
      let site ← pool.unfoldSite slot
      return .invokeDynamic site.name site.descriptor (some site.bootstrap) site.arguments) := by
    rw [Pool.unfoldSite_eq hsite hpair, resolve]
    simp only [Pool.loadable_nil, bind_assoc, pure_bind]
  rw [Instruction.Tells, hresolve]
  exact (Pool.callSite_yields slot).bind fun site _ => Run.yields_pure _

/-- From this offset on, the bytes are instructions of which a replay tells these. -/
inductive Coded (pool : Pool) : Nat → Bytes → List Told → Prop
  | nil {offset : Nat} : Coded pool offset [] []
  | cons {offset : Nat} {bs rest : Bytes} {t : Told} {ts : List Told} (h : CodedAt pool offset bs t)
      (hrest : Coded pool (offset + bs.length) rest ts) : Coded pool offset (bs ++ rest) (t :: ts)

theorem Coded.append {code bs : Bytes} {ts : List Told} {t : Told} (h : Coded pool offset code ts)
    (ht : CodedAt pool (offset + code.length) bs t) : Coded pool offset (code ++ bs) (ts ++ [t]) := by
  induction h with
  | nil => simpa using Coded.cons ht .nil
  | cons h hrest ih =>
    rw [List.append_assoc, List.cons_append]
    refine .cons h (ih ?_)
    rwa [List.length_append, ← Nat.add_assoc] at ht

theorem Coded.readAll {bs : Bytes} {ts : List Told} (h : Coded pool offset bs ts) {fuel : Nat}
    (hfuel : bs.length ≤ fuel) : ∃ is, Instruction.readAll fuel ⟨offset, bs, none⟩ = .ok is ∧
      List.Forall₂ (Instruction.Tells pool) is ts := by
  induction h generalizing fuel with
  | nil => cases fuel <;> exact ⟨[], rfl, .nil⟩
  | @cons offset bs rest t ts h hrest ih =>
    obtain ⟨hne, i, ht, hread⟩ := h
    have hpos : 0 < bs.length := List.length_pos_iff.mpr hne
    rw [List.length_append] at hfuel
    obtain ⟨fuel, rfl⟩ := Nat.exists_eq_add_of_lt (show 0 < fuel by omega)
    obtain ⟨is, his, htells⟩ := ih (show rest.length ≤ 0 + fuel by omega)
    refine ⟨i :: is, ?_, .cons ht htells⟩
    have hempty : (bs ++ rest).isEmpty = false := by simp [hne]
    rw [Instruction.readAll]
    simp only [hempty, hread, his, ok_bind]
    rfl

end Told

/-! The events of a body. -/

/-- Labels and line numbers mark an offset. -/
def CodeEvent.isMark : CodeEvent → Bool
  | .label _ | .lineNumber _ _ => true
  | _ => false

/-- Whether the event tells an instruction. -/
def CodeEvent.isInstruction : CodeEvent → Bool
  | .start | .tryCatch _ _ _ _ | .label _ | .lineNumber _ _ | .maxs _ _ | .finish => false
  | _ => true

theorem CodeEvent.isMark_of_isInstruction {e : CodeEvent} (h : e.isInstruction) : e.isMark = false := by
  cases e <;> first | rfl | cases h

theorem Instruction.event_isInstruction {pool : Pool} {i : Instruction} {memo memo' : Memo} {e : CodeEvent}
    (h : i.event pool memo = (.ok e, memo')) : e.isInstruction := by
  have hpure {f : CodeEvent} {s s' : Memo} (hf : f.isInstruction)
      (h : (pure f : Resolve CodeEvent) s = (.ok e, s')) : e.isInstruction := by
    cases h
    exact hf
  unfold Instruction.event at h
  cases ho : i.operand <;> simp only [ho] at h
  case none | number | localVar | increment | jump | tableSwitch | lookupSwitch => exact hpure rfl h
  all_goals
    obtain ⟨a, s, -, h⟩ := Run.bind_eq_ok h
    exact hpure rfl h

namespace Code

variable {pool : Pool}

theorem filter_labelEvents (code : Code) (labels : Std.TreeSet Label) (offset : Nat) :
    (code.labelEvents labels offset).filter (!·.isMark) = [] := by
  unfold labelEvents
  split
  · simp [CodeEvent.isMark, List.filter_map, Function.comp_def]
  · rfl

theorem instructionEvents_tell (code : Code) (labels : Std.TreeSet Label) {is : List Instruction} {ts : List Told}
    (h : List.Forall₂ (Instruction.Tells pool) is ts) {events : List CodeEvent}
    (hevents : ts.mapM (Told.resolve pool) = .ok events) {memo : Memo} (hm : Memo.Sound pool memo) :
    ∃ told memo', code.instructionEvents pool labels is memo = (⟨told, none⟩, memo') ∧
      told.filter (!·.isMark) = events := by
  induction h generalizing events memo with
  | nil =>
    cases hevents
    exact ⟨[], memo, rfl, rfl⟩
  | @cons i t is ts ht _ ih =>
    rw [List.mapM_cons, bind_eq_ok_iff] at hevents
    obtain ⟨e, he, hevents⟩ := hevents
    obtain ⟨es, hes, hevents⟩ := bind_eq_ok_iff.mp hevents
    cases hevents
    obtain ⟨memo₁, h₁, hm₁⟩ := ht memo hm
    rw [he] at h₁
    obtain ⟨told, memo₂, h₂, hfilter⟩ := ih hes hm₁
    refine ⟨code.labelEvents labels i.offset ++ e :: told, memo₂, ?_, ?_⟩
    · rw [instructionEvents]
      simp only [bind, StateT.bind, ExceptT.run, h₁, h₂]
      rfl
    · have hmark := CodeEvent.isMark_of_isInstruction (Instruction.event_isInstruction h₁)
      rw [List.filter_append, filter_labelEvents, List.filter_cons_of_pos (by simp [hmark]), hfilter]
      rfl

/-- What the body of code that decodes comes to. -/
theorem body_of_decode {code : Code} {is : List Instruction} {told : Trace} {memo : Memo}
    (h : Instruction.decode code.bytes = .ok is)
    (htold : code.instructionEvents pool (Std.TreeSet.ofList (code.references is)) is [] = (told, memo)) :
    code.body pool = ⟨.start :: (code.handlers.map (fun h => .tryCatch h.start h.stop h.handler h.type) ++
      told.events ++ if told.fault.isNone then code.closingEvents (Std.TreeSet.ofList (code.references is)) else []),
      told.fault⟩ := by
  rw [body, trace, h]
  simp only [bind, StateT.bind, htold]
  rfl

/-- A body that has been assembled is told as planned, if all that its instructions refer to resolves. -/
theorem body_of_coded {code : Code} {ts : List Told} (h : Told.Coded pool 0 code.bytes ts) {events : List CodeEvent}
    (hevents : ts.mapM (Told.resolve pool) = .ok events) :
    (code.body pool).fault = none ∧ (code.body pool).events.filter (!·.isMark) =
      .start :: (code.handlers.map (fun h => .tryCatch h.start h.stop h.handler h.type) ++ events ++
        [.maxs code.maxStack code.maxLocals]) := by
  obtain ⟨is, hdecode, htells⟩ := h.readAll (Nat.le_refl _)
  obtain ⟨told, memo, hrun, hfilter⟩ := instructionEvents_tell code
    (Std.TreeSet.ofList (code.references is)) htells hevents (Memo.sound_nil pool)
  rw [body_of_decode hdecode hrun]
  refine ⟨rfl, ?_⟩
  simp only [Option.isNone_none, if_true, closingEvents, List.filter_cons, List.filter_append, List.filter_map, hfilter]
  simp [CodeEvent.isMark, Function.comp_def]

end Code

end Linkage

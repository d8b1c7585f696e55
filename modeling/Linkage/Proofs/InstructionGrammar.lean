import Linkage.Proofs.Coding
import Linkage.Proofs.Language
import Linkage.Proofs.Outcomes

/-!
The instruction set as a grammar. `Operands` says for each opcode which bytes may follow it and what they mean,
`WideOperands` the same behind a `wide`; an instruction is encoded by its opcode and such bytes. Reading an instruction
accepts its encodings. Between the two stand the formats, by which the opcodes are read: `Of` says which opcodes have a
format and `Lays` what it lays out.
-/
namespace Linkage

/-- The error of code that ends too early. -/
def CodeError.IsTruncation (e : CodeError) : Prop := (BodyFault.code e).sentinel? = some .truncated

namespace Opcode

/-- Constants, array elements, the stack, arithmetic, comparisons, returns, `arraylength`, `athrow` and monitors. -/
def IsPlain (op : Nat) : Prop :=
  op ≤ 15 ∨ 46 ≤ op ∧ op ≤ 53 ∨ 79 ≤ op ∧ op ≤ 131 ∨ 133 ≤ op ∧ op ≤ 152 ∨ 172 ≤ op ∧ op ≤ 177 ∨
    op = 190 ∨ op = 191 ∨ op = 194 ∨ op = 195

/-- Loads, stores and `ret`. -/
def IsVariable (op : Nat) : Prop := 21 ≤ op ∧ op ≤ 25 ∨ 54 ≤ op ∧ op ≤ 58 ∨ op = 169

/-- Conditional branches, `goto` and `jsr`. -/
def IsBranch (op : Nat) : Prop := 153 ≤ op ∧ op ≤ 168 ∨ op = 198 ∨ op = 199

/-- `new`, `anewarray`, `checkcast` and `instanceof`. -/
def IsType (op : Nat) : Prop := op = 187 ∨ op = 189 ∨ op = 192 ∨ op = 193

instance (op : Nat) : Decidable (IsPlain op) := inferInstanceAs (Decidable (_ ∨ _))

instance (op : Nat) : Decidable (IsVariable op) := inferInstanceAs (Decidable (_ ∨ _))

instance (op : Nat) : Decidable (IsBranch op) := inferInstanceAs (Decidable (_ ∨ _))

instance (op : Nat) : Decidable (IsType op) := inferInstanceAs (Decidable (_ ∨ _))

end Opcode

namespace Instruction

open Scan Opcode

/-- The bytes that may follow an opcode at an offset, with the opcode in its general form and the operand. -/
inductive Operands (offset : Nat) : Opcode → Bytes → Opcode × Operand → Prop
  | plain {op : Nat} : IsPlain op → Operands offset op [] (op, .none)
  | bipush (n : Word 1) : Operands offset 16 n.1 (16, .number n.int)
  | sipush (n : Word 2) : Operands offset 17 n.1 (17, .number n.int)
  | newarray (n : Word 1) : Operands offset 188 n.1 (188, .number n.nat)
  | ldc (index : Word 1) : Operands offset 18 index.1 (18, .constant index.nat)
  | ldc_w (index : Word 2) : Operands offset 19 index.1 (18, .constant index.nat)
  | ldc2_w (index : Word 2) : Operands offset 20 index.1 (18, .constant index.nat)
  | variable {op : Nat} (index : Word 1) : IsVariable op → Operands offset op index.1 (op, .localVar index.nat)
  | load {kind index : Nat} : kind < 5 → index < 4 →
    Operands offset (26 + 4 * kind + index) [] (21 + kind, .localVar index)
  | store {kind index : Nat} : kind < 5 → index < 4 →
    Operands offset (59 + 4 * kind + index) [] (54 + kind, .localVar index)
  | iinc (index amount : Word 1) :
    Operands offset 132 (index.1 ++ amount.1) (132, .increment index.nat amount.int)
  | branch {op : Nat} (distance : Word 2) : IsBranch op →
    Operands offset op distance.1 (op, .jump (offset + distance.int))
  | goto_w (distance : Word 4) : Operands offset 200 distance.1 (167, .jump (offset + distance.int))
  | jsr_w (distance : Word 4) : Operands offset 201 distance.1 (168, .jump (offset + distance.int))
  | tableswitch (pad : Bytes) (otherwise low high : Word 4) (targets : List (Word 4)) :
    pad.length < 4 → (offset + 1 + pad.length) % 4 = 0 → low.int ≤ high.int →
    (targets.length : Int) = high.int - low.int + 1 →
    Operands offset 170 (pad ++ (otherwise.1 ++ (low.1 ++ (high.1 ++ targets.flatMap (·.1)))))
      (170, .tableSwitch low.int high.int (offset + otherwise.int) (targets.map (offset + ·.int)))
  | lookupswitch (pad : Bytes) (otherwise count : Word 4) (pairs : List (Word 4 × Word 4)) :
    pad.length < 4 → (offset + 1 + pad.length) % 4 = 0 → (pairs.length : Int) = count.int →
    Operands offset 171 (pad ++ (otherwise.1 ++ (count.1 ++ pairs.flatMap fun p => p.1.1 ++ p.2.1)))
      (171, .lookupSwitch (offset + otherwise.int) (pairs.map fun p => (p.1.int, offset + p.2.int)))
  | field {op : Nat} (index : Word 2) : 178 ≤ op → op ≤ 181 → Operands offset op index.1 (op, .field index.nat)
  | invoke {op : Nat} (index : Word 2) : 182 ≤ op → op ≤ 184 → Operands offset op index.1 (op, .method index.nat)
  | invokeinterface (index ignored : Word 2) : Operands offset 185 (index.1 ++ ignored.1) (185, .method index.nat)
  | invokedynamic (index ignored : Word 2) :
    Operands offset 186 (index.1 ++ ignored.1) (186, .invokeDynamic index.nat)
  | type {op : Nat} (index : Word 2) : IsType op → Operands offset op index.1 (op, .type index.nat)
  | multianewarray (index : Word 2) (dimensions : Word 1) :
    Operands offset 197 (index.1 ++ dimensions.1) (197, .multiArray index.nat dimensions.nat)

/-- The bytes that may follow an opcode after a `wide`. -/
inductive WideOperands : Opcode → Bytes → Opcode × Operand → Prop
  | variable {op : Nat} (index : Word 2) : IsVariable op → WideOperands op index.1 (op, .localVar index.nat)
  | iinc (index amount : Word 2) : WideOperands 132 (index.1 ++ amount.1) (132, .increment index.nat amount.int)

/-- The bytes are an encoding of the instruction at its offset. -/
inductive Encoded : Instruction → Bytes → Prop
  | narrow {offset : Nat} {op : UInt8} {rest : Bytes} {general : Opcode} {operand : Operand} :
    Operands offset op.toNat rest (general, operand) → Encoded ⟨offset, general, operand⟩ (op :: rest)
  | wide {offset : Nat} {op : UInt8} {rest : Bytes} {general : Opcode} {operand : Operand} :
    WideOperands op.toNat rest (general, operand) → Encoded ⟨offset, general, operand⟩ (196 :: op :: rest)

end Instruction

namespace Opcode.Format

open Scan Instruction

/-- The opcodes that have the format. -/
def Of (op : Nat) : Format → Prop
  | .plain => IsPlain op
  | .signed width => op = 16 ∧ width = 1 ∨ op = 17 ∧ width = 2
  | .arrayType => op = 188
  | .constant width => op = 18 ∧ width = 1 ∨ (op = 19 ∨ op = 20) ∧ width = 2
  | .localVar => IsVariable op
  | .implied general index => ∃ kind < 5, index < 4 ∧
    (op = 26 + 4 * kind + index ∧ general = 21 + kind ∨ op = 59 + 4 * kind + index ∧ general = 54 + kind)
  | .increment => op = 132
  | .branch general width => IsBranch op ∧ general = op ∧ width = 2 ∨ op = 200 ∧ general = 167 ∧ width = 4 ∨
    op = 201 ∧ general = 168 ∧ width = 4
  | .tableSwitch => op = 170
  | .lookupSwitch => op = 171
  | .field => 178 ≤ op ∧ op ≤ 181
  | .method ignored => 182 ≤ op ∧ op ≤ 184 ∧ ignored = 0 ∨ op = 185 ∧ ignored = 2
  | .invokeDynamic => op = 186
  | .type => IsType op
  | .multiArray => op = 197

/-- The operands that the format lays out. -/
def Lays (op : Opcode) (offset : Nat) : Format → Bytes → Opcode × Operand → Prop
  | .plain => fun bs g => bs = [] ∧ g = (op, .none)
  | .signed width => Spelt (fun w : Word width => w.1) fun w => (op, .number w.int)
  | .arrayType => Spelt (fun w : Word 1 => w.1) fun w => (op, .number w.nat)
  | .constant width => Spelt (fun w : Word width => w.1) fun w => (ldc, .constant w.nat)
  | .localVar => Spelt (fun w : Word 1 => w.1) fun w => (op, .localVar w.nat)
  | .implied general index => fun bs g => bs = [] ∧ g = (general, .localVar index)
  | .increment => Spelt (fun w : Word 1 × Word 1 => w.1.1 ++ w.2.1) fun w => (op, .increment w.1.nat w.2.int)
  | .branch general width => Spelt (fun w : Word width => w.1) fun w => (general, .jump (offset + w.int))
  | .tableSwitch => fun bs g => ∃ (pad : Word (padding offset)) (otherwise low high : Word 4) (targets : List (Word 4)),
    low.int ≤ high.int ∧ (targets.length : Int) = high.int - low.int + 1 ∧
    bs = pad.1 ++ (otherwise.1 ++ (low.1 ++ (high.1 ++ targets.flatMap (·.1)))) ∧
    g = (op, .tableSwitch low.int high.int (offset + otherwise.int) (targets.map (offset + ·.int)))
  | .lookupSwitch => fun bs g => ∃ (pad : Word (padding offset)) (otherwise count : Word 4)
      (pairs : List (Word 4 × Word 4)), (pairs.length : Int) = count.int ∧
    bs = pad.1 ++ (otherwise.1 ++ (count.1 ++ pairs.flatMap fun p => p.1.1 ++ p.2.1)) ∧
    g = (op, .lookupSwitch (offset + otherwise.int) (pairs.map fun p => (p.1.int, offset + p.2.int)))
  | .field => Spelt (fun w : Word 2 => w.1) fun w => (op, .field w.nat)
  | .method ignored => Spelt (fun w : Word 2 × Word ignored => w.1.1 ++ w.2.1) fun w => (op, .method w.1.nat)
  | .invokeDynamic => Spelt (fun w : Word 2 × Word 2 => w.1.1 ++ w.2.1) fun w => (op, .invokeDynamic w.1.nat)
  | .type => Spelt (fun w : Word 2 => w.1) fun w => (op, .type w.nat)
  | .multiArray => Spelt (fun w : Word 2 × Word 1 => w.1.1 ++ w.2.1) fun w => (op, .multiArray w.1.nat w.2.nat)

instance (op : Nat) (format : Format) : Decidable (format.Of op) := by
  cases format <;> (dsimp only [Of]; infer_instance)

theorem format_eq_none_of_lt : ∀ op : Nat, op < 256 → 201 < op → Opcode.format op = none := by
  decide +kernel

theorem of_format : ∀ op : Nat, op < 256 → ∀ format ∈ Opcode.format op, format.Of op := by
  decide +kernel

theorem format_isPlain : ∀ op : Nat, op < 256 → IsPlain op → Opcode.format op = some .plain := by
  decide +kernel

theorem format_load : ∀ kind < 5, ∀ index < 4,
    Opcode.format (26 + 4 * kind + index) = some (.implied (21 + kind) index) := by
  decide +kernel

theorem format_store : ∀ kind < 5, ∀ index < 4,
    Opcode.format (59 + 4 * kind + index) = some (.implied (54 + kind) index) := by
  decide +kernel

/-- The padding brings the operands of a switch to the next multiple of four. -/
theorem length_eq_padding_iff {offset : Nat} {pad : Bytes} :
    pad.length = padding offset ↔ pad.length < 4 ∧ (offset + 1 + pad.length) % 4 = 0 := by
  unfold padding
  omega

variable {op offset : Nat} {bs : Bytes} {g : Opcode × Operand}

theorem lays_of_operands (h : Operands offset op bs g) :
    ∃ format, Opcode.format op = some format ∧ format.Lays op offset bs g := by
  cases h with
  | plain hop =>
    exact ⟨.plain, format_isPlain op (by unfold IsPlain at hop; omega) hop, rfl, rfl⟩
  | bipush n => exact ⟨.signed 1, rfl, n, rfl, rfl⟩
  | sipush n => exact ⟨.signed 2, rfl, n, rfl, rfl⟩
  | newarray n => exact ⟨.arrayType, rfl, n, rfl, rfl⟩
  | ldc index => exact ⟨.constant 1, rfl, index, rfl, rfl⟩
  | ldc_w index => exact ⟨.constant 2, rfl, index, rfl, rfl⟩
  | ldc2_w index => exact ⟨.constant 2, rfl, index, rfl, rfl⟩
  | «variable» index hop =>
    exact ⟨.localVar, format_localVar op (by unfold IsVariable at hop; omega) hop, index, rfl, rfl⟩
  | load hkind hindex => exact ⟨_, format_load _ hkind _ hindex, rfl, rfl⟩
  | store hkind hindex => exact ⟨_, format_store _ hkind _ hindex, rfl, rfl⟩
  | iinc index amount => exact ⟨.increment, rfl, (index, amount), rfl, rfl⟩
  | branch distance hop =>
    unfold IsBranch at hop
    exact ⟨.branch op 2, format_branch op (by omega) (by omega), distance, rfl, rfl⟩
  | goto_w distance => exact ⟨.branch 167 4, rfl, distance, rfl, rfl⟩
  | jsr_w distance => exact ⟨.branch 168 4, rfl, distance, rfl, rfl⟩
  | tableswitch pad otherwise low high targets hpad halign hle hlength =>
    exact ⟨.tableSwitch, rfl, ⟨pad, length_eq_padding_iff.mpr ⟨hpad, halign⟩⟩, otherwise, low, high, targets, hle,
      hlength, rfl, rfl⟩
  | lookupswitch pad otherwise count pairs hpad halign hlength =>
    exact ⟨.lookupSwitch, rfl, ⟨pad, length_eq_padding_iff.mpr ⟨hpad, halign⟩⟩, otherwise, count, pairs, hlength,
      rfl, rfl⟩
  | field index hlow hhigh => exact ⟨.field, format_field op (by omega) ⟨hlow, hhigh⟩, index, rfl, rfl⟩
  | invoke index hlow hhigh =>
    have hformat := format_method op (by omega) ⟨hlow, by omega⟩
    rw [if_neg (by omega)] at hformat
    exact ⟨.method 0, hformat, (index, ⟨[], rfl⟩), by simp, rfl⟩
  | invokeinterface index ignored => exact ⟨.method 2, rfl, (index, ignored), rfl, rfl⟩
  | invokedynamic index ignored => exact ⟨.invokeDynamic, rfl, (index, ignored), rfl, rfl⟩
  | type index hop => exact ⟨.type, format_type op (by unfold IsType at hop; omega) hop, index, rfl, rfl⟩
  | multianewarray index dimensions => exact ⟨.multiArray, rfl, (index, dimensions), rfl, rfl⟩

theorem operands_of_lays {format : Format} (hop : format.Of op) (h : format.Lays op offset bs g) :
    Operands offset op bs g := by
  cases format with
  | plain =>
    obtain ⟨rfl, rfl⟩ := h
    exact .plain hop
  | signed width =>
    obtain ⟨rfl, rfl⟩ | ⟨rfl, rfl⟩ := hop <;> obtain ⟨n, rfl, rfl⟩ := h
    · exact .bipush n
    · exact .sipush n
  | arrayType =>
    obtain rfl : op = 188 := hop
    obtain ⟨n, rfl, rfl⟩ := h
    exact .newarray n
  | constant width =>
    obtain ⟨rfl, rfl⟩ | ⟨rfl | rfl, rfl⟩ := hop <;> obtain ⟨index, rfl, rfl⟩ := h
    · exact .ldc index
    · exact .ldc_w index
    · exact .ldc2_w index
  | localVar =>
    obtain ⟨index, rfl, rfl⟩ := h
    exact .variable index hop
  | implied general index =>
    obtain ⟨rfl, rfl⟩ := h
    obtain ⟨kind, hkind, hindex, ⟨rfl, rfl⟩ | ⟨rfl, rfl⟩⟩ := hop
    · exact .load hkind hindex
    · exact .store hkind hindex
  | increment =>
    obtain rfl : op = 132 := hop
    obtain ⟨⟨index, amount⟩, rfl, rfl⟩ := h
    exact .iinc index amount
  | branch general width =>
    obtain ⟨hop, rfl, rfl⟩ | ⟨rfl, rfl, rfl⟩ | ⟨rfl, rfl, rfl⟩ := hop <;> obtain ⟨distance, rfl, rfl⟩ := h
    · exact .branch distance hop
    · exact .goto_w distance
    · exact .jsr_w distance
  | tableSwitch =>
    obtain rfl : op = 170 := hop
    obtain ⟨⟨pad, hpad⟩, otherwise, low, high, targets, hle, hlength, rfl, rfl⟩ := h
    obtain ⟨hpad, halign⟩ := length_eq_padding_iff.mp hpad
    exact .tableswitch pad otherwise low high targets hpad halign hle hlength
  | lookupSwitch =>
    obtain rfl : op = 171 := hop
    obtain ⟨⟨pad, hpad⟩, otherwise, count, pairs, hlength, rfl, rfl⟩ := h
    obtain ⟨hpad, halign⟩ := length_eq_padding_iff.mp hpad
    exact .lookupswitch pad otherwise count pairs hpad halign hlength
  | field =>
    obtain ⟨index, rfl, rfl⟩ := h
    exact .field index hop.1 hop.2
  | method ignored =>
    obtain ⟨⟨index, more⟩, rfl, rfl⟩ := h
    obtain ⟨hlow, hhigh, rfl⟩ | ⟨rfl, rfl⟩ := hop
    · obtain ⟨more, hmore⟩ := more
      obtain rfl := List.eq_nil_of_length_eq_zero hmore
      simpa using Operands.invoke index hlow hhigh
    · exact .invokeinterface index more
  | invokeDynamic =>
    obtain rfl : op = 186 := hop
    obtain ⟨⟨index, ignored⟩, rfl, rfl⟩ := h
    exact .invokedynamic index ignored
  | type =>
    obtain ⟨index, rfl, rfl⟩ := h
    exact .type index hop
  | multiArray =>
    obtain rfl : op = 197 := hop
    obtain ⟨⟨index, dimensions⟩, rfl, rfl⟩ := h
    exact .multianewarray index dimensions

/-- Every format lays out something. -/
theorem exists_lays (op : Opcode) (offset : Nat) (format : Format) : ∃ bs g, format.Lays op offset bs g := by
  have hspelt {ι : Type} (enc : ι → Bytes) (val : ι → Opcode × Operand) (w : ι) : ∃ bs g, Spelt enc val bs g :=
    ⟨enc w, val w, w, rfl, rfl⟩
  cases format with
  | plain => exact ⟨[], _, rfl, rfl⟩
  | implied general index => exact ⟨[], _, rfl, rfl⟩
  | tableSwitch =>
    refine ⟨_, _, .zero _, .zero 4, .zero 4, .zero 4, [.zero 4], Int.le_refl _, ?_, rfl, rfl⟩
    simp
  | lookupSwitch => exact ⟨_, _, .zero _, .zero 4, .zero 4, [], by decide, rfl, rfl⟩
  | signed width => exact hspelt _ _ (.zero width)
  | constant width => exact hspelt _ _ (.zero width)
  | branch general width => exact hspelt _ _ (.zero width)
  | arrayType => exact hspelt _ _ (.zero 1)
  | localVar => exact hspelt _ _ (.zero 1)
  | field => exact hspelt _ _ (.zero 2)
  | type => exact hspelt _ _ (.zero 2)
  | increment => exact hspelt _ _ (.zero 1, .zero 1)
  | method ignored => exact hspelt _ _ (.zero 2, .zero ignored)
  | invokeDynamic => exact hspelt _ _ (.zero 2, .zero 2)
  | multiArray => exact hspelt _ _ (.zero 2, .zero 1)

end Opcode.Format

namespace Instruction

open Scan Opcode

theorem isTruncation_ofTruncation (t : Truncation) :
    (OfTruncation.ofTruncation t : CodeError).IsTruncation := rfl

theorem isTruncation_inOperands (op : Opcode) (offset : Nat) (e : CodeError) (h : e.IsTruncation) :
    (e.inOperands op offset).IsTruncation := by
  cases e with
  | truncated t => rfl
  | operands op offset t => rfl
  | unknown op offset => exact h
  | notWide op offset => exact h
  | switchBounds offset low high => exact h
  | switchCount offset => exact h

theorem accepts_signedNumber (width : Nat) :
    Accepts CodeError.IsTruncation (signedNumber width) (Spelt (fun w : Word width => w.1) Word.int) := by
  have h := (Accepts.number isTruncation_ofTruncation width).map (signed (8 * width))
  simp only [Word.signed_nat] at h
  exact h

theorem accepts_target (offset width : Nat) :
    Accepts CodeError.IsTruncation (target offset width)
      (Spelt (fun w : Word width => w.1) fun w => offset + w.int) :=
  (accepts_signedNumber width).map _

/-- Reading the operands of a format accepts what the format lays out. -/
theorem accepts_operands (op : Opcode) (offset : Nat) (format : Format) :
    Accepts CodeError.IsTruncation (operands op offset format) (format.Lays op offset) := by
  have hu1 := Accepts.u1 isTruncation_ofTruncation
  have hu2 := Accepts.u2 isTruncation_ofTruncation
  have hbytes := Accepts.bytes isTruncation_ofTruncation
  cases format with
  | plain => exact .pure _
  | signed width => exact (accepts_signedNumber width).map _
  | arrayType => exact hu1.map _
  | constant width => exact (Accepts.number isTruncation_ofTruncation width).map _
  | localVar => exact hu1.map _
  | implied general index => exact .pure _
  | increment => exact hu1.pair (accepts_signedNumber 1) _
  | branch general width => exact (accepts_target offset width).map _
  | field => exact hu2.map _
  | method ignored => exact hu2.pair (hbytes ignored) _
  | invokeDynamic => exact hu2.pair (hbytes 2) _
  | type => exact hu2.map _
  | multiArray => exact hu2.pair hu1 _
  | tableSwitch =>
    -- the entries are read only if their number makes sense
    have hentries (otherwise low high : Int) :=
      ((Accepts.times (fun _ => accepts_target offset 4) (high - low + 1).toNat).map
        fun targets => (op, Operand.tableSwitch low high otherwise targets)).guard (high < low)
          (.switchBounds offset low high)
    have h : Accepts CodeError.IsTruncation (operands op offset .tableSwitch) _ :=
      (hbytes (padding offset)).bind fun _ => (accepts_target offset 4).bind fun otherwise =>
        (accepts_signedNumber 4).bind fun low => (accepts_signedNumber 4).bind fun high =>
          hentries (offset + otherwise.int) low.int high.int
    refine h.congr fun bs g => ⟨?_, ?_⟩
    · rintro ⟨pad, _, rfl, otherwise, _, rfl, low, _, rfl, high, _, rfl, hle, ⟨targets, hlength⟩, rfl, rfl⟩
      exact ⟨pad, otherwise, low, high, targets, by omega, by omega, rfl, rfl⟩
    · rintro ⟨pad, otherwise, low, high, targets, hle, hlength, rfl, rfl⟩
      exact ⟨pad, _, rfl, otherwise, _, rfl, low, _, rfl, high, _, rfl, by omega, ⟨targets, by omega⟩, rfl, rfl⟩
  | lookupSwitch =>
    have hentries (otherwise count : Int) :=
      ((Accepts.times (fun _ => (accepts_signedNumber 4).pair (accepts_target offset 4) Prod.mk) count.toNat).map
        fun cases => (op, Operand.lookupSwitch otherwise cases)).guard (count < 0) (.switchCount offset)
    have h : Accepts CodeError.IsTruncation (operands op offset .lookupSwitch) _ :=
      (hbytes (padding offset)).bind fun _ => (accepts_target offset 4).bind fun otherwise =>
        (accepts_signedNumber 4).bind fun count => hentries (offset + otherwise.int) count.int
    refine h.congr fun bs g => ⟨?_, ?_⟩
    · rintro ⟨pad, _, rfl, otherwise, _, rfl, count, _, rfl, hle, ⟨pairs, hlength⟩, rfl, rfl⟩
      exact ⟨pad, otherwise, count, pairs, by omega, rfl, rfl⟩
    · rintro ⟨pad, otherwise, count, pairs, hlength, rfl, rfl⟩
      exact ⟨pad, _, rfl, otherwise, _, rfl, count, _, rfl, by omega, ⟨pairs, by omega⟩, rfl, rfl⟩

theorem takesVariable_iff (op : Nat) : takesVariable op = true ↔ IsVariable op := by
  unfold takesVariable IsVariable iload istore ret
  simp only [Bool.or_eq_true, Bool.and_eq_true, decide_eq_true_eq, beq_iff_eq, or_assoc]

/-- Reading what follows a `wide` and an opcode accepts the operands of the opcode in their wide form. -/
theorem accepts_wideOperands (op : Opcode) (offset : Nat) :
    Accepts CodeError.IsTruncation (wideOperands op offset) (WideOperands op) := by
  have hu2 := Accepts.u2 isTruncation_ofTruncation
  unfold wideOperands
  split
  next hiinc =>
    refine (hu2.pair (accepts_signedNumber 2) _).congr fun bs g => ⟨?_, ?_⟩
    · rintro ⟨⟨index, amount⟩, rfl, rfl⟩
      exact hiinc ▸ .iinc index amount
    · intro h
      cases h with
      | iinc index amount => exact ⟨(index, amount), rfl, rfl⟩
      | «variable» index hop =>
        subst hiinc
        simp [IsVariable, iinc] at hop
  next hiinc =>
    split
    next hop =>
      refine (hu2.map _).congr fun bs g => ⟨?_, ?_⟩
      · rintro ⟨index, rfl, rfl⟩
        exact .variable index ((takesVariable_iff op).mp hop)
      · intro h
        cases h with
        | iinc index amount => exact absurd rfl hiinc
        | «variable» index _ => exact ⟨index, rfl, rfl⟩
    next hop =>
      refine (Accepts.throw _).congr fun bs g => ⟨False.elim, fun h => ?_⟩
      cases h with
      | iinc index amount => exact hiinc rfl
      | «variable» index hvariable => exact hop ((takesVariable_iff op).mpr hvariable)

theorem encoded_cons_iff {i : Instruction} {op : UInt8} {bs : Bytes} :
    i.Encoded (op :: bs) ↔ Operands i.offset op.toNat bs (i.opcode, i.operand) ∨
      op.toNat = Opcode.wide ∧
        ∃ inner more, bs = inner :: more ∧ WideOperands inner.toNat more (i.opcode, i.operand) := by
  constructor
  · intro h
    cases h with
    | narrow h => exact .inl h
    | wide h => exact .inr ⟨rfl, _, _, rfl, h⟩
  · rintro (h | ⟨hop, inner, more, rfl, h⟩)
    · exact .narrow h
    · obtain rfl : op = 196 := UInt8.toNat_inj.mp hop
      exact .wide h

theorem operands_wide {offset : Nat} {bs : Bytes} {g : Opcode × Operand} : ¬ Operands offset Opcode.wide bs g := by
  intro h
  obtain ⟨format, hformat, -⟩ := Format.lays_of_operands h
  cases hformat

/-- What is read behind a `wide`. -/
theorem accepts_afterWide {op : UInt8} (hwide : op.toNat = Opcode.wide) (offset : Nat) :
    Accepts CodeError.IsTruncation (do
      let inner ← u1
      let (general, operand) ← mapError (CodeError.inOperands op.toNat offset) (wideOperands inner offset)
      return ⟨offset, general, operand⟩ : Scan CodeError Instruction) fun bs i =>
        i.offset = offset ∧ i.Encoded (op :: bs) := by
  refine ((Accepts.byte isTruncation_ofTruncation).bind fun inner =>
    ((accepts_wideOperands inner.toNat offset).mapError (isTruncation_inOperands op.toNat offset)).image
      fun g => Instruction.mk offset g.1 g.2).congr fun bs i => ⟨?_, ?_⟩
  · rintro ⟨inner, more, rfl, g, hg, rfl⟩
    exact ⟨rfl, encoded_cons_iff.mpr (.inr ⟨hwide, inner, more, rfl, hg⟩)⟩
  · rintro ⟨rfl, hi⟩
    obtain hop | ⟨-, inner, more, rfl, hg⟩ := encoded_cons_iff.mp hi
    · exact absurd (hwide ▸ hop) operands_wide
    · exact ⟨inner, more, rfl, _, hg, rfl⟩

/-- What is read behind an opcode with a format. -/
theorem accepts_afterOpcode {op : UInt8} {format : Format} (hformat : Opcode.format op.toNat = some format)
    (offset : Nat) :
    Accepts CodeError.IsTruncation (do
      let (general, operand) ← mapError (CodeError.inOperands op.toNat offset) (operands op.toNat offset format)
      return ⟨offset, general, operand⟩ : Scan CodeError Instruction) fun bs i =>
        i.offset = offset ∧ i.Encoded (op :: bs) := by
  refine (((accepts_operands op.toNat offset format).mapError (isTruncation_inOperands op.toNat offset)).image
    fun g => Instruction.mk offset g.1 g.2).congr fun bs i => ⟨?_, ?_⟩
  · rintro ⟨g, hg, rfl⟩
    have hof := Format.of_format op.toNat op.toNat_lt format hformat
    exact ⟨rfl, .narrow (Format.operands_of_lays hof hg)⟩
  · rintro ⟨rfl, hi⟩
    obtain hop | ⟨hop, -⟩ := encoded_cons_iff.mp hi
    · obtain ⟨format', hsome, hg⟩ := Format.lays_of_operands hop
      obtain rfl : format' = format := by simpa [hsome] using hformat
      exact ⟨_, hg, rfl⟩
    · rw [hop] at hformat
      cases hformat

/-- Reading an instruction accepts its encodings. -/
theorem accepts_readAt (offset : Nat) :
    Accepts CodeError.IsTruncation (readAt offset) fun bs i => i.offset = offset ∧ i.Encoded bs := by
  have hread : Accepts CodeError.IsTruncation (readAt offset) fun bs i =>
      ∃ (op : UInt8) (more : Bytes), bs = [op] ++ more ∧ i.offset = offset ∧ i.Encoded (op :: more) := by
    refine (Accepts.byte isTruncation_ofTruncation).bind fun op => ?_
    split
    next hwide => exact accepts_afterWide hwide offset
    next hwide =>
      split
      next hformat =>
        refine (Accepts.throw _).congr fun bs i => ⟨False.elim, fun ⟨_, hi⟩ => ?_⟩
        obtain hop | ⟨hop, -⟩ := encoded_cons_iff.mp hi
        · obtain ⟨format, hsome, -⟩ := Format.lays_of_operands hop
          simp [hformat] at hsome
        · exact hwide hop
      next format hformat => exact accepts_afterOpcode hformat offset
  refine hread.congr fun bs i => ⟨?_, fun ⟨hoffset, hi⟩ => ?_⟩
  · rintro ⟨op, more, rfl, h⟩
    exact h
  · cases hi with
    | narrow h => exact ⟨_, _, rfl, hoffset, .narrow h⟩
    | wide h => exact ⟨_, _, rfl, hoffset, .wide h⟩

theorem Encoded.length_pos {i : Instruction} {bs : Bytes} (h : i.Encoded bs) : 0 < bs.length := by
  cases h <;> simp

/-- The opcodes that encodings start with. -/
theorem exists_encoded_iff {op : UInt8} : (∃ i rest, Encoded i (op :: rest)) ↔ op.toNat ≤ 201 := by
  constructor
  · rintro ⟨i, rest, h⟩
    obtain hop | ⟨hop, -⟩ := encoded_cons_iff.mp h
    · obtain ⟨format, hformat, -⟩ := Format.lays_of_operands hop
      by_contra hlt
      rw [Format.format_eq_none_of_lt op.toNat op.toNat_lt (by omega)] at hformat
      cases hformat
    · rw [hop]
      decide
  · intro hle
    by_cases hwide : op.toNat = Opcode.wide
    · obtain rfl : op = 196 := UInt8.toNat_inj.mp hwide
      exact ⟨⟨0, _, _⟩, 132 :: _, .wide (.iinc (.zero 2) (.zero 2))⟩
    · cases hformat : Opcode.format op.toNat with
      | none => exact absurd (Opcode.format_eq_none op.toNat op.toNat_lt hformat hwide) (by omega)
      | some format =>
        obtain ⟨bs, g, hg⟩ := Format.exists_lays op.toNat 0 format
        have hof := Format.of_format op.toNat op.toNat_lt format hformat
        exact ⟨⟨0, g.1, g.2⟩, bs, .narrow (Format.operands_of_lays hof hg)⟩

end Instruction

end Linkage

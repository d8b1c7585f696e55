import Linkage.Jvm.Pool
import Linkage.Proofs.BasicPlane
import Linkage.Proofs.Reading

/-! Constants and pools are read as they are laid out. -/
namespace Linkage

namespace Bytes

theorem ofNat_add (v w n : Nat) : ofNat (v + w) n = ofNat v (n / 256 ^ w) ++ ofNat w n := by
  induction v with
  | zero => simp [ofNat]
  | succ v ih =>
    rw [Nat.succ_add, ofNat_succ, ih, ofNat_succ, List.cons_append, Nat.div_div_eq_div_mul, ← Nat.pow_add,
      Nat.add_comm w v]

theorem ofNat_mod (width n : Nat) : ofNat width (n % 256 ^ width) = ofNat width n := by
  induction width generalizing n with
  | zero => rfl
  | succ width ih =>
    have hfirst : UInt8.ofNat (n % 256 ^ (width + 1) / 256 ^ width) = UInt8.ofNat (n / 256 ^ width) := by
      apply UInt8.toNat_inj.mp
      rw [UInt8.toNat_ofNat', UInt8.toNat_ofNat', Nat.pow_succ, Nat.mod_mul_right_div_self]
      omega
    have hrest : ofNat width (n % 256 ^ (width + 1)) = ofNat width n := by
      rw [← ih, Nat.pow_succ, Nat.mod_mul_right_mod, ih]
    rw [ofNat_succ, ofNat_succ, hfirst, hrest]

end Bytes

theorem Tag.ofCode?_code (tag : Tag) : Tag.ofCode? tag.code = some tag := by
  cases tag <;> rfl

theorem Tag.code_lt (tag : Tag) : tag.code < 256 := by
  cases tag <;> decide

namespace Constant

open Scan

/-- The parts of the constant fit the widths in which they are laid out. -/
def Fits : Constant → Prop
  | .utf8 text => Storable text
  | .integer _ | .float _ | .long _ | .double _ => True
  | .type index | .string index | .methodType index | .module index | .package index => index < 65536
  | .member _ first second | .nameAndType first second | .dynamic first second | .invokeDynamic first second =>
    first < 65536 ∧ second < 65536
  | .methodHandle kind reference => kind < 256 ∧ reference < 65536

theorem reads_word (bits : UInt64) : Reads readBody.word (Bytes.ofNat 8 bits.toNat) bits := by
  have hsplit : Bytes.ofNat 8 bits.toNat = u4Bytes (bits.toNat / 2 ^ 32) ++ u4Bytes (bits.toNat % 2 ^ 32) := by
    rw [u4Bytes, u4Bytes, show (2 : Nat) ^ 32 = 256 ^ 4 from rfl, Bytes.ofNat_mod, ← Bytes.ofNat_add]
  have hlt := bits.toNat_lt
  rw [hsplit]
  refine (reads_u4 (by omega)).bind (Reads.bind_nil (reads_u4 (by omega)) ?_)
  have hvalue : UInt64.ofNat ((bits.toNat / 2 ^ 32) <<< 32 + bits.toNat % 2 ^ 32) = bits := by
    rw [Nat.shiftLeft_eq, Nat.div_add_mod', UInt64.ofNat_toNat]
  rw [hvalue]
  exact reads_pure bits

/-- The constant fits its layout if `text` encodes texts, and its own text is read back from that. -/
def FitsAs (text : String → Bytes) : Constant → Prop
  | .utf8 t => (text t).length < 65536 ∧ ModifiedUtf8.decode (text t) = .ok t
  | c => c.Fits

theorem Fits.fitsAs {c : Constant} (h : c.Fits) : c.FitsAs utf8Bytes := by
  cases c with
  | utf8 text =>
    have hlen : (utf8Bytes text).length < 65536 := by
      rw [length_utf8Bytes]
      exact Nat.lt_succ_of_le h.length_le
    exact ⟨hlen, ModifiedUtf8.decode_utf8Bytes h.basic⟩
  | _ => exact h

variable {text : String → Bytes}

theorem reads_readBody {c : Constant} (h : c.FitsAs text) (entry : Nat) :
    Reads (readBody entry c.tag) (c.encodeBody text) c := by
  have hone {f : Nat → Constant} {index : Nat} (hi : index < 65536) :
      Reads (do return f (← u2) : Scan PoolError Constant) (u2Bytes index) (f index) :=
    (reads_u2 hi).bind_nil (reads_pure _)
  have htwo {f : Nat → Nat → Constant} {first second : Nat} (hi : first < 65536 ∧ second < 65536) :
      Reads (do return f (← u2) (← u2) : Scan PoolError Constant) (u2Bytes first ++ u2Bytes second) (f first second) :=
    (reads_u2 hi.1).bind ((reads_u2 hi.2).bind_nil (reads_pure _))
  cases c with
  | utf8 t =>
    refine (reads_u2 h.1).bind ((reads_bytes _).bind_nil ?_)
    rw [h.2]
    exact reads_pure _
  | integer bits =>
    refine (reads_u4 bits.toNat_lt).bind_nil ?_
    rw [UInt32.ofNat_toNat]
    exact reads_pure _
  | float bits =>
    refine (reads_u4 bits.toNat_lt).bind_nil ?_
    rw [UInt32.ofNat_toNat]
    exact reads_pure _
  | long bits => exact (reads_word bits).bind_nil (reads_pure _)
  | double bits => exact (reads_word bits).bind_nil (reads_pure _)
  | type name => exact hone h
  | string text => exact hone h
  | member kind owner described => cases kind <;> exact htwo h
  | nameAndType name descriptor => exact htwo h
  | methodHandle kind reference => exact (reads_u1 h.1).bind ((reads_u2 h.2).bind_nil (reads_pure _))
  | methodType descriptor => exact hone h
  | dynamic bootstrap described => exact htwo h
  | invokeDynamic bootstrap described => exact htwo h
  | module name => exact hone h
  | package name => exact hone h

theorem reads_read {c : Constant} (h : c.FitsAs text) (entry : Nat) : Reads (read entry) (c.encode text) c := by
  refine (reads_u1 c.tag.code_lt).bind ?_
  rw [Tag.ofCode?_code]
  exact reads_readBody h entry

/-- The slots that a constant takes. -/
def slots (c : Constant) : List (Option Constant) := if c.isWide then [some c, none] else [some c]

theorem slots_of_narrow {c : Constant} (h : c.isWide = false) : c.slots = [some c] := by
  simp [slots, h]

theorem flatMap_slots_of_narrow {cs : List Constant} (h : ∀ c ∈ cs, c.isWide = false) :
    cs.flatMap slots = cs.map some := by
  rw [List.map_eq_flatMap]
  exact List.flatMap_congr fun c hc => slots_of_narrow (h c hc)

/-- Constants are read one after the other, each into its slots. -/
theorem reads_slots {cs : List Constant} {parts : List Bytes}
    (h : List.Forall₂ (fun c bs => ∀ entry, Reads (read entry) bs c) cs parts) (entry : Nat) :
    Reads (readSlots entry (cs.flatMap slots).length) parts.flatten (cs.flatMap slots) := by
  induction h generalizing entry with
  | nil => exact reads_pure []
  | @cons c bs cs parts hread _ ih =>
    rw [List.flatMap_cons, List.flatten_cons, List.length_append, slots]
    cases hc : c.isWide with
    | false =>
      rw [if_neg (by simp), List.length_singleton, Nat.add_comm 1, readSlots]
      refine (hread entry).bind ?_
      rw [hc]
      exact (ih (entry + 1)).bind_nil (reads_pure _)
    | true =>
      rw [if_pos rfl, List.length_cons, List.length_singleton, Nat.add_comm 2, readSlots]
      refine (hread entry).bind ?_
      rw [hc]
      exact (ih (entry + 2)).bind_nil (reads_pure _)

end Constant

/-- The pool with these constants in its slots, and without bootstrap methods. -/
def Pool.ofConstants (cs : List Constant) : Pool := ⟨(none :: cs.flatMap Constant.slots).toArray, #[]⟩

/-- A pool is read from the bytes of its constants. -/
theorem Pool.reads_slots {cs : List Constant} {parts : List Bytes}
    (hsize : (cs.flatMap Constant.slots).length + 1 < 65536)
    (h : List.Forall₂ (fun c bs => ∀ entry, Scan.Reads (Constant.read entry) bs c) cs parts) :
    Scan.Reads Pool.read (u2Bytes ((cs.flatMap Constant.slots).length + 1) ++ parts.flatten) (Pool.ofConstants cs) := by
  refine (Scan.reads_u2 hsize).bind ((Constant.reads_slots h 1).bind_nil ?_)
  exact Scan.reads_pure _

/-- A pool is read back from its layout. -/
theorem Pool.reads_ofConstants {text : String → Bytes} {cs : List Constant}
    (hsize : (cs.flatMap Constant.slots).length + 1 < 65536) (hfits : ∀ c ∈ cs, c.FitsAs text) :
    Scan.Reads Pool.read
      (u2Bytes ((cs.flatMap Constant.slots).length + 1) ++ cs.flatMap (Constant.encode text)) (Pool.ofConstants cs) := by
  rw [List.flatMap_def]
  refine Pool.reads_slots hsize ?_
  rw [List.forall₂_map_right_iff, List.forall₂_same]
  exact fun c hc => Constant.reads_read (hfits c hc)

/-- A pool without eight-byte constants is read back. -/
theorem Pool.reads_read {cs : List Constant} (hsize : cs.length + 1 < 65536) (hfits : ∀ c ∈ cs, c.Fits)
    (hnarrow : ∀ c ∈ cs, c.isWide = false) :
    Scan.Reads Pool.read (u2Bytes (cs.length + 1) ++ cs.flatMap (Constant.encode utf8Bytes))
      ⟨(none :: cs.map some).toArray, #[]⟩ := by
  have hslots : cs.flatMap Constant.slots = cs.map some := Constant.flatMap_slots_of_narrow hnarrow
  have hlength : (cs.flatMap Constant.slots).length = cs.length := by rw [hslots, List.length_map]
  have h := Pool.reads_ofConstants (hlength ▸ hsize) fun c hc => (hfits c hc).fitsAs
  rw [hlength, ofConstants, hslots] at h
  exact h

end Linkage

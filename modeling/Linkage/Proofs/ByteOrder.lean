import Mathlib.Tactic.SplitIfs
import Linkage.Model
import Linkage.Proofs.BasicPlane

/-! Texts compare as their UTF-8 bytes do. -/
namespace Linkage

/-- Of two characters the lower one has the lower bytes, whatever follows either. -/
theorem encodeChar_append_lt {c d : Char} (h : c < d) (x y : Bytes) :
    String.utf8EncodeChar c ++ x < String.utf8EncodeChar d ++ y := by
  have hlt : c.val.toNat < d.val.toNat := UInt32.lt_iff_toNat_lt.mp h
  have hd : d.val.toNat < 0x110000 := by
    obtain hlow | hhigh := d.valid
    · exact Nat.lt_trans hlow (by decide)
    · exact hhigh.2
  -- the bytes of a character are its digits to base 64, of which the first that differ decide
  have hdigit {m n : Nat} (h : m < n) : m / 64 < n / 64 ∨ m / 64 = n / 64 ∧ m % 64 < n % 64 := by omega
  have hone := hdigit hlt
  have htwo : c.val.toNat / 64 < d.val.toNat / 64 → _ := hdigit
  have hthree : c.val.toNat / 4096 < d.val.toNat / 4096 → _ := hdigit
  simp only [Nat.div_div_eq_div_mul, Nat.reduceMul] at htwo hthree
  have htail (n : Nat) : (n % 64 + 128) % 256 = n % 64 + 128 := by omega
  have hlead {n : Nat} (hn : n < 0x110000) : (n / 262144 % 8 + 240) % 256 = n / 262144 + 240 := by omega
  unfold String.utf8EncodeChar
  dsimp only
  split_ifs <;>
    simp only [List.cons_append, List.nil_append, List.cons_lt_cons_iff, UInt8.lt_iff_toNat_lt, ← UInt8.toNat_inj,
      UInt8.toNat_ofNat', Nat.reducePow, htail, hlead hd, hlead (Nat.lt_trans hlt hd)] <;>
    omega

theorem flatMap_encodeChar_lt {cs ds : List Char} (h : cs < ds) :
    cs.flatMap String.utf8EncodeChar < ds.flatMap String.utf8EncodeChar := by
  induction cs generalizing ds with
  | nil =>
    cases ds with
    | nil => exact absurd h (List.lt_irrefl [])
    | cons d ds =>
      obtain ⟨b, bs, hb⟩ := List.exists_cons_of_ne_nil (String.utf8EncodeChar_ne_nil (c := d))
      rw [List.flatMap_nil, List.flatMap_cons, hb]
      exact List.nil_lt_cons b _
  | cons c cs ih =>
    cases ds with
    | nil => exact absurd h (List.not_lt_nil _)
    | cons d ds =>
      rw [List.flatMap_cons, List.flatMap_cons]
      obtain hlt | ⟨rfl, hrest⟩ := List.cons_lt_cons_iff.mp h
      · exact encodeChar_append_lt hlt _ _
      · exact List.append_left_lt (ih hrest)

/-- The order of texts is that of their UTF-8 bytes. -/
theorem utf8Bytes_lt_iff {a b : String} : utf8Bytes a < utf8Bytes b ↔ a < b := by
  have hmono {a b : String} (h : a < b) : utf8Bytes a < utf8Bytes b := by
    rw [utf8Bytes_eq_flatMap, utf8Bytes_eq_flatMap]
    exact flatMap_encodeChar_lt (String.lt_iff.mp h)
  refine ⟨fun h => Decidable.byContradiction fun hn => ?_, hmono⟩
  by_cases heq : a = b
  · exact List.lt_irrefl _ (heq ▸ h)
  · exact List.lt_asymm h (hmono (Model.lt_of_not_lt_of_ne hn heq))

end Linkage

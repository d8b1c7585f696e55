import Linkage.Jvm.Constant

/-! How constants are laid out in a class file. -/
namespace Linkage

/-- A number in one, two or four bytes; what does not fit is cut off at the front. -/
def u1Bytes (n : Nat) : Bytes := Bytes.ofNat 1 n
def u2Bytes (n : Nat) : Bytes := Bytes.ofNat 2 n
def u4Bytes (n : Nat) : Bytes := Bytes.ofNat 4 n

/-- The UTF-8 bytes of a text. -/
def utf8Bytes (text : String) : Bytes := text.toUTF8.toList

namespace Constant

/-- The bytes of a constant after its tag, where `text` encodes texts. -/
def encodeBody (text : String → Bytes) : Constant → Bytes
  | .utf8 t => u2Bytes (text t).length ++ text t
  | .integer bits => u4Bytes bits.toNat
  | .float bits => u4Bytes bits.toNat
  | .long bits => Bytes.ofNat 8 bits.toNat
  | .double bits => Bytes.ofNat 8 bits.toNat
  | .type name => u2Bytes name
  | .string t => u2Bytes t
  | .member _ owner described => u2Bytes owner ++ u2Bytes described
  | .nameAndType name descriptor => u2Bytes name ++ u2Bytes descriptor
  | .methodHandle kind reference => u1Bytes kind ++ u2Bytes reference
  | .methodType descriptor => u2Bytes descriptor
  | .dynamic bootstrap described => u2Bytes bootstrap ++ u2Bytes described
  | .invokeDynamic bootstrap described => u2Bytes bootstrap ++ u2Bytes described
  | .module name => u2Bytes name
  | .package name => u2Bytes name

/-- The tag and the bytes of a constant. -/
def encode (text : String → Bytes) (c : Constant) : Bytes := u1Bytes c.tag.code ++ c.encodeBody text

end Constant

end Linkage

import Std.Data.String.ToInt
import Linkage.Jvm.Assembler

/-!
The keys that constants are shared by. A key gives the kind of a constant, a colon and its parts. A name and a
descriptor enter it only as they are spelled together, other constants by slot. Beyond that, keys tell constants
apart.
-/
namespace Linkage

/-- A separator splits a text at its first place. -/
theorem append_separator_inj {separator a b x y : String} {c : Char} (hc : separator.toList = [c])
    (ha : c ∉ a.toList) (hb : c ∉ b.toList) (h : a ++ separator ++ x = b ++ separator ++ y) : a = b ∧ x = y := by
  have hlist : a.toList ++ c :: x.toList = b.toList ++ c :: y.toList := by
    simpa [hc] using congrArg String.toList h
  obtain ⟨d, hd, he⟩ | ⟨d, hd, he⟩ := List.append_eq_append_iff.mp hlist
  · cases d with
    | nil => exact ⟨String.toList_inj.mp (by simpa using hd.symm), String.toList_inj.mp (by simpa using he)⟩
    | cons e d =>
      obtain ⟨rfl, -⟩ := List.cons.inj he
      simp [hd] at hb
  · cases d with
    | nil => exact ⟨String.toList_inj.mp (by simpa using hd), String.toList_inj.mp (by simpa using he.symm)⟩
    | cons e d =>
      obtain ⟨rfl, -⟩ := List.cons.inj he
      simp [hd] at ha

theorem colon_notMem_natRepr (n : Nat) : ':' ∉ n.repr.toList := by
  intro h
  rw [Nat.toList_repr] at h
  exact absurd (Nat.isDigit_of_mem_toDigits (by decide) (by decide) h) (by decide)

theorem colon_notMem_intRepr (n : Int) : ':' ∉ n.repr.toList := by
  rw [Int.repr_eq_if]
  split
  · exact colon_notMem_natRepr _
  · simpa using colon_notMem_natRepr (-n).toNat

/-- A name and a descriptor as one text. -/
def spellPair (name descriptor : String) : String := name ++ ":" ++ descriptor

/-- A member as one text. -/
def spellMember (owner name descriptor : String) : String := owner ++ "." ++ spellPair name descriptor

/-- A constant as far as its key tells it. -/
inductive Entry where
  | utf8 (text : String)
  | type (name : String)
  | string (text : String)
  | integer (value : Int)
  | pair (spelling : String)
  | member (kind : MemberKind) (spelling : String)
  | handle (kind : Int) (reference : Nat)
  | methodType (descriptor : String)
  | dynamic (bootstrap : Int) (pair : Nat)
  | site (bootstrap : Int) (pair : Nat)

namespace Entry

def head : Entry → String
  | .utf8 _ => "utf8"
  | .type _ => "class"
  | .string _ => "string"
  | .integer _ => "int"
  | .pair _ => "nat"
  | .member .field _ => "ref9"
  | .member .method _ => "ref10"
  | .member .interfaceMethod _ => "ref11"
  | .handle _ _ => "handle"
  | .methodType _ => "methodType"
  | .dynamic _ _ => "dynamic"
  | .site _ _ => "indy"

def tail : Entry → String
  | .utf8 text | .type text | .string text | .pair text | .member _ text | .methodType text => text
  | .integer value => value.repr
  | .handle number slot | .dynamic number slot | .site number slot => number.repr ++ ":" ++ slot.repr

def key (e : Entry) : String := e.head ++ ":" ++ e.tail

theorem colon_notMem_head (e : Entry) : ':' ∉ e.head.toList := by
  cases e with
  | member kind spelling => cases kind <;> simp [head]
  | _ => simp [head]

theorem numbers_inj {m n : Int} {i j : Nat} (h : m.repr ++ ":" ++ i.repr = n.repr ++ ":" ++ j.repr) :
    m = n ∧ i = j := by
  obtain ⟨hm, hi⟩ := append_separator_inj rfl (colon_notMem_intRepr m) (colon_notMem_intRepr n) h
  exact ⟨Int.repr_injective hm, Nat.repr_injective hi⟩

theorem eq_of_head_eq {d e : Entry} (hhead : d.head = e.head) (htail : d.tail = e.tail) : d = e := by
  unfold head at hhead
  -- The heads are literals, so that only entries of one kind are left.
  split at hhead <;> split at hhead <;> try simp at hhead
  all_goals try exact congrArg _ htail
  · exact congrArg _ (Int.repr_injective htail)
  all_goals
    obtain ⟨rfl, rfl⟩ := numbers_inj htail
    rfl

/-- Different entries have different keys. -/
theorem key_injective {d e : Entry} (h : d.key = e.key) : d = e := by
  obtain ⟨hhead, htail⟩ := append_separator_inj rfl d.colon_notMem_head e.colon_notMem_head h
  exact eq_of_head_eq hhead htail

end Entry

end Linkage

import Linkage.Proofs.Assembly

/-!
What the calls of an assembly do to its constants: they ask for some, and that is all. Writing the class file, apart from
looking at what is declared, does nothing else either. So whatever requests for constants keep, every call keeps.
-/
namespace Linkage
namespace Assembler

/-- The step asks for constants and does nothing besides. -/
inductive Inquires : {α : Type} → Assemble α → Prop
  | pure {α : Type} (r : α) : Inquires (Pure.pure r)
  | ask (q : Ask) : Inquires q.run
  | bind {α β : Type} {x : Assemble α} {f : α → Assemble β} :
    Inquires x → (∀ r, Inquires (f r)) → Inquires (x >>= f)

/-- The step changes the constants by requests alone. -/
inductive OnlyAsks : {α : Type} → Assemble α → Prop
  | inquires {α : Type} {x : Assemble α} : Inquires x → OnlyAsks x
  | quiet {α : Type} {x : Assemble α} : (∀ a, (x a).2.constants = a.constants) → OnlyAsks x
  | bind {α β : Type} {x : Assemble α} {f : α → Assemble β} :
    OnlyAsks x → (∀ r, OnlyAsks (f r)) → OnlyAsks (x >>= f)

variable {α β ι : Type}

/-- What every request keeps, and what depends on the constants alone, is kept by steps that only ask. -/
theorem OnlyAsks.invariant {P : Assembler → Prop} (hask : ∀ (q : Ask) a, P a → P (q.run a).2)
    (hsame : ∀ a b, b.constants = a.constants → P a → P b) {x : Assemble α} (h : OnlyAsks x) (a : Assembler)
    (ha : P a) : P (x a).2 := by
  induction h generalizing a with
  | inquires h =>
    induction h generalizing a with
    | pure r => exact ha
    | ask q => exact hask q a ha
    | bind _ _ ihx ihf => exact ihf _ _ (ihx a ha)
  | quiet h => exact hsame a _ (h a) ha
  | bind _ _ ihx ihf => exact ihf _ _ (ihx a ha)

/-! Writing the class file. -/

/-- The part of the class file after the pool, where the declarations are those of `a`. -/
def bodyOf (a : Assembler) : Assemble Bytes := do
  let thisSlot ← type a.name
  let superSlot ← optionalType a.superName
  let interfaceSlots ← a.interfaces.mapM type
  let fields ← a.fields.mapM encodeField
  let methods ← a.methods.toList.mapM encodeMethod
  let source ← encodeSource a.source
  let bootstraps ← encodeBootstraps a.bootstraps.toList
  return Bytes.ofInt 2 a.access ++ u2Bytes thisSlot ++ u2Bytes superSlot ++ table interfaceSlots u2Bytes ++
    table fields id ++ table methods id ++ table (source ++ bootstraps) id

theorem encodeBody_eq : encodeBody = get >>= bodyOf := rfl

namespace Inquires

theorem mapM {f : ι → Assemble β} (h : ∀ item, Inquires (f item)) (items : List ι) : Inquires (items.mapM f) := by
  induction items with
  | nil => exact pure []
  | cons item items ih =>
    rw [List.mapM_cons]
    exact (h item).bind fun r => ih.bind fun rs => pure (r :: rs)

theorem optionalType (name : String) : Inquires (Assembler.optionalType name) := by
  unfold Assembler.optionalType
  split
  · exact pure 0
  · exact ask (.type name)

theorem encodeField (f : FieldDraft) : Inquires (Assembler.encodeField f) :=
  (ask (.utf8 f.name)).bind fun _ => (ask (.utf8 f.descriptor)).bind fun _ => pure _

theorem encodeLines (lines : List (Nat × Int)) : Inquires (Assembler.encodeLines lines) := by
  unfold Assembler.encodeLines
  split
  · exact pure _
  · exact (ask (.utf8 "LineNumberTable")).bind fun _ => pure _

theorem encodeMethod (d : MethodDraft) : Inquires (Assembler.encodeMethod d) := by
  refine (ask (.utf8 d.name)).bind fun _ => (ask (.utf8 d.descriptor)).bind fun _ => ?_
  dsimp only
  split
  · exact pure _
  · exact (encodeLines d.lines).bind fun _ => (ask (.utf8 "Code")).bind fun _ => pure _

theorem encodeSource (source : String) : Inquires (Assembler.encodeSource source) := by
  unfold Assembler.encodeSource
  split
  · exact pure _
  · exact (ask (.utf8 "SourceFile")).bind fun _ => (ask (.utf8 source)).bind fun _ => pure _

theorem encodeBootstraps (bootstraps : List (Int × List Int)) : Inquires (Assembler.encodeBootstraps bootstraps) := by
  unfold Assembler.encodeBootstraps
  split
  · exact pure _
  · exact (ask (.utf8 "BootstrapMethods")).bind fun _ => pure _

theorem bodyOf (a : Assembler) : Inquires (Assembler.bodyOf a) := by
  refine (ask (.type a.name)).bind fun _ => (optionalType a.superName).bind fun _ => ?_
  refine (mapM (fun name => ask (.type name)) a.interfaces).bind fun _ => ?_
  refine (mapM encodeField a.fields).bind fun _ => (mapM encodeMethod a.methods.toList).bind fun _ => ?_
  exact (encodeSource a.source).bind fun _ => (encodeBootstraps a.bootstraps.toList).bind fun _ => pure _

end Inquires

/-! Calls. -/

namespace OnlyAsks

theorem ask (q : Ask) : OnlyAsks q.run := inquires (.ask q)

theorem insn (m : Nat) (i : Insn) : OnlyAsks (i.run m) := by
  have hraw (bytes : Bytes) : OnlyAsks (raw m bytes) := quiet fun _ => rfl
  cases i with
  | invoke op owner name descriptor =>
    rw [Insn.run, Assembler.invoke]
    split
    · exact (ask (.member .interfaceMethod owner name descriptor)).bind fun slot => hraw _
    · exact (ask (.member .method owner name descriptor)).bind fun slot => hraw _
  | field op owner name descriptor => exact (ask (.member .field owner name descriptor)).bind fun slot => hraw _
  | type op name => exact (ask (.type name)).bind fun slot => hraw _
  | loadString text => exact (ask (.string text)).bind fun slot => hraw _
  | loadInt value => exact (ask (.integer value)).bind fun slot => hraw _
  | dynamic name descriptor handle arguments =>
    refine bind (quiet fun _ => rfl) fun number => ?_
    exact (ask (.site number name descriptor)).bind fun slot => hraw _
  | plain | var | push | load | jump => exact quiet fun _ => rfl

theorem encode : OnlyAsks Assembler.encode := by
  have hget : OnlyAsks (get : Assemble Assembler) := quiet fun _ => rfl
  have hbody : OnlyAsks encodeBody := by
    rw [encodeBody_eq]
    exact hget.bind fun a => inquires (.bodyOf a)
  exact hbody.bind fun _ => hget.bind fun _ => quiet fun _ => rfl

theorem call (c : Call) : OnlyAsks c.run := by
  have hdiscard {α : Type} {x : Assemble α} (h : OnlyAsks x) : OnlyAsks (x >>= fun _ => pure ()) :=
    h.bind fun _ => quiet fun _ => rfl
  cases c with
  | ask request => exact hdiscard (ask request)
  | insn m i => exact insn m i
  | handler m start stop target type =>
    exact (inquires (.optionalType type)).bind fun slot => quiet fun _ => rfl
  | encode => exact hdiscard encode
  | setSuper | setAccess | implement | setSource | field | method | bootstrap | bootstrapArgument | line | setAbstract
  | setMaxs => exact quiet fun _ => rfl

end OnlyAsks

end Assembler

end Linkage

import Linkage.Proofs.PoolReading
import Linkage.Proofs.Stability

/-!
Where the slots in a class file come from. The file is pieced together from plain bytes, from slots that the caller
names, and from slots that requests were answered with, each of which remembers its request and the state in which it
was made. The pieces are laid down by the same steps that write the bytes; the bytes are theirs. While they are laid
down the pool still grows, and only then it is written: so it has every slot that was answered before, with the entry of
that time.
-/
namespace Linkage

open Assembler

/-- A request for a constant and the state in which it is made. -/
structure Inquiry where
  request : Ask
  state : Assembler

namespace Inquiry

def slot (i : Inquiry) : Nat := (i.request.run i.state).1

/-- The state when the answer is given. -/
def after (i : Inquiry) : Assembler := (i.request.run i.state).2

/-- The slot has the entry that it had when it was the answer. -/
def KeptIn (a : Assembler) (i : Inquiry) : Prop :=
  ∃ entry, i.after.entryAt i.slot = some entry ∧ a.entryAt i.slot = some entry

theorem KeptIn.mono {a b : Assembler} {i : Inquiry} (h : i.KeptIn a) (hg : a.Grows b) : i.KeptIn b := by
  obtain ⟨entry, hthen, hnow⟩ := h
  exact ⟨entry, hthen, hg.entryAt hnow⟩

theorem keptIn_after {a : Assembler} (hs : a.Sound) (q : Ask) : (Inquiry.mk q a).KeptIn (q.run a).2 := by
  obtain ⟨e, he, -⟩ := enters_ask hs q
  obtain ⟨c, hc, -⟩ := he.sound.holds he.carries
  have hentry := entryAt_eq_some_iff.mpr ⟨c, hc, rfl⟩
  exact ⟨_, hentry, hentry⟩

end Inquiry

/-- A piece of a class file. -/
inductive Piece where
  | bytes (bs : Bytes)
  | given (slot : Int)
  | answer (i : Inquiry)

namespace Piece

def encode : Piece → Bytes
  | .bytes bs => bs
  | .given slot => Bytes.ofInt 2 slot
  | .answer i => u2Bytes i.slot

def encodeAll (ps : List Piece) : Bytes := ps.flatMap encode

/-- The slot that was answered, or slot 0. -/
def optional : Option Inquiry → Piece
  | none => .bytes (u2Bytes 0)
  | some i => .answer i

def table (rows : List (List Piece)) : List Piece := .bytes (u2Bytes rows.length) :: rows.flatten

def ofAttribute (name : Inquiry) (body : List Piece) : List Piece :=
  .answer name :: .bytes (u4Bytes (encodeAll body).length) :: body

@[simp] theorem encode_bytes (bs : Bytes) : encode (.bytes bs) = bs := rfl

@[simp] theorem encode_given (slot : Int) : encode (.given slot) = Bytes.ofInt 2 slot := rfl

@[simp] theorem encode_answer (i : Inquiry) : encode (.answer i) = u2Bytes i.slot := rfl

@[simp] theorem encode_optional (i : Option Inquiry) :
    encode (.optional i) = u2Bytes ((i.map Inquiry.slot).getD 0) := by
  cases i <;> rfl

@[simp] theorem encodeAll_nil : encodeAll [] = [] := rfl

@[simp] theorem encodeAll_cons (p : Piece) (ps : List Piece) : encodeAll (p :: ps) = p.encode ++ encodeAll ps := rfl

@[simp] theorem encodeAll_append (ps qs : List Piece) : encodeAll (ps ++ qs) = encodeAll ps ++ encodeAll qs :=
  List.flatMap_append

@[simp] theorem encodeAll_table (rows : List (List Piece)) :
    encodeAll (table rows) = Assembler.table (rows.map encodeAll) id := by
  have hrows : encodeAll rows.flatten = (rows.map encodeAll).flatten := by
    induction rows with
    | nil => rfl
    | cons row rows ih => rw [List.flatten_cons, encodeAll_append, ih, List.map_cons, List.flatten_cons]
  rw [table, encodeAll_cons, hrows, Assembler.table, List.length_map, List.flatMap_id]
  rfl

@[simp] theorem encodeAll_ofAttribute (name : Inquiry) (body : List Piece) :
    encodeAll (ofAttribute name body) = encodeAttribute name.slot (encodeAll body) := by
  rw [ofAttribute, encodeAll_cons, encodeAll_cons, encodeAttribute, List.append_assoc]
  rfl

/-- The answers among the pieces have the entries that they were answered with. -/
def AllKept (a : Assembler) (ps : List Piece) : Prop := ∀ i, .answer i ∈ ps → i.KeptIn a

variable {a b : Assembler} {ps qs : List Piece}

theorem AllKept.mono (h : AllKept a ps) (hg : a.Grows b) : AllKept b ps := fun i hi => (h i hi).mono hg

@[simp] theorem allKept_nil : AllKept a [] := fun _ hi => by simp at hi

@[simp] theorem allKept_bytes {bs : Bytes} : AllKept a (.bytes bs :: ps) ↔ AllKept a ps := by simp [AllKept]

@[simp] theorem allKept_given {slot : Int} : AllKept a (.given slot :: ps) ↔ AllKept a ps := by simp [AllKept]

@[simp] theorem allKept_answer {i : Inquiry} : AllKept a (.answer i :: ps) ↔ i.KeptIn a ∧ AllKept a ps := by
  simp [AllKept]

theorem allKept_cons {p : Piece} : AllKept a (p :: ps) ↔ AllKept a [p] ∧ AllKept a ps := by
  simp [AllKept, or_imp, forall_and]

@[simp] theorem allKept_append : AllKept a (ps ++ qs) ↔ AllKept a ps ∧ AllKept a qs := by
  simp [AllKept, or_imp, forall_and]

theorem allKept_flatten {rows : List (List Piece)} :
    AllKept a rows.flatten ↔ ∀ row ∈ rows, AllKept a row := by
  simp only [AllKept, List.mem_flatten]
  exact ⟨fun h row hrow i hi => h i ⟨row, hrow, hi⟩, fun h i ⟨row, hrow, hi⟩ => h row hrow i hi⟩

@[simp] theorem allKept_table {rows : List (List Piece)} : AllKept a (table rows) ↔ AllKept a rows.flatten :=
  allKept_bytes

@[simp] theorem allKept_ofAttribute {name : Inquiry} :
    AllKept a (ofAttribute name ps) ↔ name.KeptIn a ∧ AllKept a ps := by
  simp [ofAttribute]

end Piece

/-! Laying down pieces. -/

/-- What the code and the handlers of a method are pieced together from. -/
structure Outline where
  code : List Piece := []
  handlers : List (List Piece) := []

/-- The bytes of a handler. -/
def handlerBytes (h : Int × Int × Int × Nat) : Bytes :=
  Bytes.ofInt 2 h.1 ++ Bytes.ofInt 2 h.2.1 ++ Bytes.ofInt 2 h.2.2.1 ++ u2Bytes h.2.2.2

/-- The outline is that of the draft, and its answers have the entries that they were answered with. -/
structure Outline.Describes (a : Assembler) (o : Outline) (d : MethodDraft) : Prop where
  code : d.code = Piece.encodeAll o.code
  handlers : d.handlers.map handlerBytes = o.handlers.map Piece.encodeAll
  kept : Piece.AllKept a (o.code ++ o.handlers.flatten)

theorem Outline.Describes.mono {a b : Assembler} {o : Outline} {d : MethodDraft} (h : o.Describes a d)
    (hg : a.Grows b) : o.Describes b d :=
  { h with kept := h.kept.mono hg }

namespace Assembler

/-- Makes a request and keeps it with its state. -/
def note (q : Ask) : Assemble Inquiry := fun a => (⟨q, a⟩, (q.run a).2)

def noteType (name : String) : Assemble (Option Inquiry) :=
  if name = "" then pure none else do
    let i ← note (.type name)
    return some i

def fieldPieces (f : FieldDraft) : Assemble (List Piece) := do
  let name ← note (.utf8 f.name)
  let descriptor ← note (.utf8 f.descriptor)
  return [.bytes (Bytes.ofInt 2 f.access), .answer name, .answer descriptor, .bytes (u2Bytes 0)]

def linePieces (lines : List (Nat × Int)) : Assemble (List Piece) := do
  if lines.isEmpty then return [.bytes (u2Bytes 0)]
  let name ← note (.utf8 "LineNumberTable")
  return .bytes (u2Bytes 1) :: Piece.ofAttribute name
    [.bytes (table lines fun (start, number) => u2Bytes start ++ Bytes.ofInt 2 number)]

def methodPieces (d : MethodDraft) (o : Outline) : Assemble (List Piece) := do
  let name ← note (.utf8 d.name)
  let descriptor ← note (.utf8 d.descriptor)
  let head := [.bytes (Bytes.ofInt 2 d.access), .answer name, .answer descriptor]
  if d.isAbstract then return head ++ [.bytes (u2Bytes 0)]
  let lines ← linePieces d.lines
  let body := .bytes (Bytes.ofInt 2 d.maxStack ++ Bytes.ofInt 2 d.maxLocals ++ u4Bytes d.code.length) ::
    (o.code ++ Piece.table o.handlers ++ lines)
  let code ← note (.utf8 "Code")
  return head ++ .bytes (u2Bytes 1) :: Piece.ofAttribute code body

def sourcePieces (source : String) : Assemble (List (List Piece)) := do
  if source = "" then return []
  let name ← note (.utf8 "SourceFile")
  let text ← note (.utf8 source)
  return [Piece.ofAttribute name [.answer text]]

def bootstrapRow (b : Int × List Int) : List Piece := .given b.1 :: Piece.table (b.2.map ([.given ·]))

def bootstrapPieces (bootstraps : List (Int × List Int)) : Assemble (List (List Piece)) := do
  if bootstraps.isEmpty then return []
  let name ← note (.utf8 "BootstrapMethods")
  return [Piece.ofAttribute name (Piece.table (bootstraps.map bootstrapRow))]

/-- The part of the class file after the pool, where the declarations are those of `a` and its methods have these
outlines. -/
def bodyPieces (a : Assembler) (outlines : List Outline) : Assemble (List Piece) := do
  let this ← note (.type a.name)
  let super ← noteType a.superName
  let interfaces ← a.interfaces.mapM fun name => note (.type name)
  let fields ← a.fields.mapM fieldPieces
  let methods ← (a.methods.toList.zip outlines).mapM fun (d, o) => methodPieces d o
  let source ← sourcePieces a.source
  let bootstraps ← bootstrapPieces a.bootstraps.toList
  return .bytes (Bytes.ofInt 2 a.access) :: .answer this :: .optional super ::
    (Piece.table (interfaces.map ([.answer ·])) ++ Piece.table fields ++ Piece.table methods ++
      Piece.table (source ++ bootstraps))

end Assembler

/-- The pieces of an instruction at the given offset, where its bootstrap method, if it has one, has the given number. -/
def Insn.pieces (offset number : Nat) : Insn → Assemble (List Piece)
  | .plain op => return [.bytes (byteOf op)]
  | .var op index => return [.bytes (byteOf op ++ byteOf index)]
  | .push value => return [.bytes (16 :: byteOf value)]
  | .invoke op owner name descriptor => do
    let i ← note (.member (if op = 185 then .interfaceMethod else .method) owner name descriptor)
    return [.bytes (byteOf op), .answer i, .bytes (if op = 185 then [1, 0] else [])]
  | .field op owner name descriptor => do
    let i ← note (.member .field owner name descriptor)
    return [.bytes (byteOf op), .answer i]
  | .type op name => do
    let i ← note (.type name)
    return [.bytes (byteOf op), .answer i]
  | .load slot => return [.bytes [19], .given slot]
  | .loadString text => do
    let i ← note (.string text)
    return [.bytes [19], .answer i]
  | .loadInt value => do
    let i ← note (.integer value)
    return [.bytes [19], .answer i]
  | .dynamic name descriptor _ _ => do
    let i ← note (.site number name descriptor)
    return [.bytes [186], .answer i, .bytes [0, 0]]
  | .jump op target => return [.bytes (byteOf op ++ Bytes.ofInt 2 (target - offset))]

/-! The pieces are those of the bytes. -/

theorem table_map {ι κ : Type} (items : List ι) (f : ι → κ) (encode : κ → Bytes) :
    table (items.map f) encode = table items (encode ∘ f) := by
  rw [table, table, List.length_map, List.flatMap_map]
  rfl

/-- A table with one piece in each row. -/
theorem encodeAll_singles {ι : Type} (items : List ι) (f : ι → Piece) :
    Piece.encodeAll (Piece.table (items.map ([f ·]))) = table items (Piece.encode ∘ f) := by
  have hsingle : Piece.encodeAll ∘ (fun item => [f item]) = Piece.encode ∘ f :=
    funext fun item => List.append_nil (f item).encode
  rw [Piece.encodeAll_table, List.map_map, hsingle, table_map]
  rfl

theorem encodeAll_bootstrapRow (b : Int × List Int) :
    Piece.encodeAll (bootstrapRow b) = Bytes.ofInt 2 b.1 ++ table b.2 (Bytes.ofInt 2) := by
  rw [bootstrapRow, Piece.encodeAll_cons, encodeAll_singles]
  rfl

/-- From the state `a` on, the step `x` does what `y` does. It answers with what `y` answers, told in another way, and
the slots among its pieces have the entries that they were answered with. -/
structure Traces {α β : Type} (a : Assembler) (tell : α → β) (pieces : α → List Piece) (x : Assemble α)
    (y : Assemble β) : Prop where
  erases : y a = (tell (x a).1, (x a).2)
  sound : (x a).2.Sound
  grows : a.Grows (x a).2
  kept : Piece.AllKept (x a).2 (pieces (x a).1)

namespace Traces

variable {α β γ δ ι : Type} {a : Assembler} {tell : α → β} {tell' : γ → δ} {pieces : α → List Piece}
  {pieces' : γ → List Piece} {x : Assemble α} {y : Assemble β}

theorem pure {r : γ} {s : δ} (hs : a.Sound) (heq : s = tell' r) (hk : Piece.AllKept a (pieces' r)) :
    Traces a tell' pieces' (Pure.pure r) (Pure.pure s) :=
  ⟨by rw [heq]; rfl, hs, .refl a, hk⟩

theorem bind {f : α → Assemble γ} {g : β → Assemble δ} (hx : Traces a tell pieces x y)
    (hf : ∀ r b, b.Sound → a.Grows b → Piece.AllKept b (pieces r) → Traces b tell' pieces' (f r) (g (tell r))) :
    Traces a tell' pieces' (x >>= f) (y >>= g) := by
  have hrest := hf (x a).1 (x a).2 hx.sound hx.grows hx.kept
  refine ⟨?_, hrest.sound, hx.grows.trans hrest.grows, hrest.kept⟩
  change g (y a).1 (y a).2 = _
  rw [hx.erases]
  exact hrest.erases

theorem note (hs : a.Sound) (q : Ask) : Traces a Inquiry.slot (fun i => [.answer i]) (note q) q.run := by
  obtain ⟨hs', hg⟩ := (OnlyAsks.ask q).preserves a hs
  exact ⟨rfl, hs', hg, Piece.allKept_answer.mpr ⟨Inquiry.keptIn_after hs q, Piece.allKept_nil⟩⟩

theorem noteType (hs : a.Sound) (name : String) :
    Traces a (fun i => (i.map Inquiry.slot).getD 0) (fun i => [Piece.optional i]) (noteType name)
      (optionalType name) := by
  unfold Assembler.noteType optionalType
  by_cases h : name = ""
  · rw [if_pos h, if_pos h]
    exact pure hs rfl (by simp [Piece.optional])
  · rw [if_neg h, if_neg h, ← bind_pure (Assembler.type name)]
    exact (note hs (.type name)).bind fun i b hb _ hk => pure hb rfl hk

theorem mapM {f : ι → Assemble α} {g : ι → Assemble β} {items : List ι} (hs : a.Sound)
    (h : ∀ item ∈ items, ∀ b, b.Sound → a.Grows b → Traces b tell pieces (f item) (g item)) :
    Traces a (List.map tell) (fun rs => (rs.map pieces).flatten) (items.mapM f) (items.mapM g) := by
  induction items generalizing a with
  | nil => exact pure hs rfl (by simp)
  | cons item items ih =>
    rw [List.mapM_cons, List.mapM_cons]
    refine (h item (by simp) a hs (.refl a)).bind fun r b hb hg hr => ?_
    refine (ih hb fun i hi c hc hg' => h i (by simp [hi]) c hc (hg.trans hg')).bind fun rs c hc hg' hrs => ?_
    exact pure hc rfl (by simpa using ⟨hr.mono hg', by simpa using hrs⟩)

theorem fieldPieces (hs : a.Sound) (f : FieldDraft) :
    Traces a Piece.encodeAll id (fieldPieces f) (encodeField f) := by
  refine (note hs (.utf8 f.name)).bind fun name b hb _ hn => ?_
  refine (note hb (.utf8 f.descriptor)).bind fun descriptor c hc hg hd => ?_
  have hn' := hn.mono hg
  exact pure hc (by simp) (by simp_all)

theorem linePieces (hs : a.Sound) (lines : List (Nat × Int)) :
    Traces a Piece.encodeAll id (linePieces lines) (encodeLines lines) := by
  cases lines with
  | nil => exact pure hs (by simp) (by simp)
  | cons line lines =>
    refine (note hs (.utf8 "LineNumberTable")).bind fun name b hb _ hn => ?_
    exact pure hb (by simp) (by simp_all)

theorem sourcePieces (hs : a.Sound) (source : String) :
    Traces a (List.map Piece.encodeAll) List.flatten (sourcePieces source) (encodeSource source) := by
  unfold Assembler.sourcePieces encodeSource
  by_cases h : source = ""
  · rw [if_pos h, if_pos h]
    exact pure hs rfl (by simp)
  · rw [if_neg h, if_neg h]
    refine (note hs (.utf8 "SourceFile")).bind fun name b hb _ hn => ?_
    refine (note hb (.utf8 source)).bind fun text c hc hg ht => ?_
    have hn' := hn.mono hg
    exact pure hc (by simp) (by simp_all)

theorem bootstrapPieces (hs : a.Sound) (bootstraps : List (Int × List Int)) :
    Traces a (List.map Piece.encodeAll) List.flatten (bootstrapPieces bootstraps) (encodeBootstraps bootstraps) := by
  cases bootstraps with
  | nil => exact pure hs rfl (by simp)
  | cons first rest =>
    refine (note hs (.utf8 "BootstrapMethods")).bind fun name b hb _ hn => ?_
    have hrows : Piece.encodeAll ∘ bootstrapRow = fun b => Bytes.ofInt 2 b.1 ++ table b.2 (Bytes.ofInt 2) :=
      funext encodeAll_bootstrapRow
    have hkept : Piece.AllKept b ((first :: rest).map bootstrapRow).flatten :=
      Piece.allKept_flatten.mpr (List.forall_mem_map.mpr fun row _ => by simp [bootstrapRow, Piece.allKept_flatten])
    refine pure hb ?_ ?_
    · rw [List.map_singleton, Piece.encodeAll_ofAttribute, Piece.encodeAll_table, List.map_map, hrows, table_map]
      rfl
    · rw [List.flatten_singleton, Piece.allKept_ofAttribute, Piece.allKept_table]
      exact ⟨(Piece.allKept_answer.mp hn).1, hkept⟩

theorem methodPieces {d : MethodDraft} {o : Outline} (hs : a.Sound) (ho : o.Describes a d) :
    Traces a Piece.encodeAll id (methodPieces d o) (encodeMethod d) := by
  refine (note hs (.utf8 d.name)).bind fun name b hb hgb hn => ?_
  refine (note hb (.utf8 d.descriptor)).bind fun descriptor c hc hgc hd => ?_
  have hn' := hn.mono hgc
  dsimp only
  by_cases h : d.isAbstract = true
  · rw [if_pos h, if_pos h]
    exact pure hc (by simp) (by simp_all)
  · rw [if_neg h, if_neg h]
    refine (linePieces hc d.lines).bind fun lines e he hge hl => ?_
    refine (note he (.utf8 "Code")).bind fun code f hf hgf hcode => ?_
    have hlater := hge.trans hgf
    have hn'' := hn'.mono hlater
    have hd' := hd.mono hlater
    have hl' := hl.mono hgf
    have ho' := ho.kept.mono ((hgb.trans hgc).trans hlater)
    have htable : table d.handlers handlerBytes = Piece.encodeAll (Piece.table o.handlers) := by
      rw [Piece.encodeAll_table, ← ho.handlers, table_map]
      rfl
    refine pure hf ?_ (by simp_all)
    change _ ++ encodeAttribute _ (_ ++ table d.handlers handlerBytes ++ _) = _
    rw [htable]
    simp [ho.code]

/-- The pieces of the body are those of its bytes. -/
theorem bodyPieces {outlines : List Outline} (hs : a.Sound)
    (ho : List.Forall₂ (fun d o => o.Describes a d) a.methods.toList outlines) :
    Traces a Piece.encodeAll id (bodyPieces a outlines) (bodyOf a) := by
  have hzip : a.methods.toList.mapM encodeMethod =
      (a.methods.toList.zip outlines).mapM fun (d, _) => encodeMethod d := by
    conv_lhs => rw [← List.map_fst_zip (Nat.le_of_eq ho.length_eq), List.mapM_map]
    rfl
  rw [Assembler.bodyPieces, bodyOf, hzip]
  refine (note hs (.type a.name)).bind fun this a₁ h₁ hg₁ hthis => ?_
  refine (noteType h₁ a.superName).bind fun super a₂ h₂ hg₂ hsuper => ?_
  refine (mapM h₂ fun name _ b hb _ => note hb (.type name)).bind fun interfaces a₃ h₃ hg₃ hinterfaces => ?_
  refine (mapM h₃ fun f _ b hb _ => fieldPieces hb f).bind fun fields a₄ h₄ hg₄ hfields => ?_
  have hg := hg₁.trans (hg₂.trans (hg₃.trans hg₄))
  refine (mapM h₄ fun entry hentry b hb hgb =>
    methodPieces hb ((List.forall₂_zip ho hentry).mono (hg.trans hgb))).bind fun methods a₅ h₅ hg₅ hmethods => ?_
  refine (sourcePieces h₅ a.source).bind fun source a₆ h₆ hg₆ hsource => ?_
  refine (bootstrapPieces h₆ a.bootstraps.toList).bind fun bootstraps a₇ h₇ hg₇ hbootstraps => ?_
  -- What was answered on the way is brought to the last state.
  have hg₆' := hg₆.trans hg₇
  have hg₅' := hg₅.trans hg₆'
  have hg₄' := hg₄.trans hg₅'
  have hg₃' := hg₃.trans hg₄'
  have hthis' := hthis.mono (hg₂.trans hg₃')
  have hsuper' := hsuper.mono hg₃'
  have hinterfaces' := hinterfaces.mono hg₄'
  have hfields' := hfields.mono hg₅'
  have hmethods' := hmethods.mono hg₆'
  have hsource' := hsource.mono hg₇
  refine pure h₇ ?_ ?_
  · have hslots : Piece.encodeAll (Piece.table (interfaces.map ([.answer ·]))) =
        table (interfaces.map Inquiry.slot) u2Bytes := by
      rw [encodeAll_singles, table_map]
      rfl
    simp [hslots]
  · rw [id, Piece.allKept_bytes, Piece.allKept_cons, Piece.allKept_cons (p := .optional super)]
    simp_all

end Traces

end Linkage

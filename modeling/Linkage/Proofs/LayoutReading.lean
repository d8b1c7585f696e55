import Mathlib.Data.List.Flatten
import Linkage.Proofs.ClassReading
import Linkage.Proofs.Coding
import Linkage.Proofs.FileLayout
import Linkage.Proofs.ModifiedUtf8

/-!
Class files are read as they are laid out. The attributes of a part are folded in the order in which they stand, and
what the part means grows with each of them. The main statement is that the bytes of a layout that fits are parsed into
the class which it declares, whatever follows them.
-/
namespace Linkage
namespace Layout

open Scan Assembler Parse

variable {α κ : Type} {pool : Pool}

theorem ConstantFits.fitsAs {c : Constant} (h : ConstantFits c) : c.FitsAs ModifiedUtf8.encode := by
  cases c with
  | utf8 text => exact ⟨h, ModifiedUtf8.decode_encode text⟩
  | _ => exact h

section Attributes

variable {select : κ → Option α} {selectAll : κ → List α} (es : List (Entry κ)) (slot : Nat) (content : κ)
  (name : String) (trailing body : Bytes)

@[simp] theorem contents_append_known :
    contents (es ++ [.known slot content trailing]) = contents es ++ [content] := by
  simp [contents, Entry.content?]

@[simp] theorem contents_append_other : contents (es ++ [.other slot name body]) = contents es := by
  simp only [contents, List.filterMap_append]
  exact List.append_nil _

@[simp] theorem lastOf_append_known :
    lastOf select (es ++ [.known slot content trailing]) = (select content).or (lastOf select es) := by
  cases h : select content <;> simp [lastOf, h]

@[simp] theorem lastOf_append_other : lastOf select (es ++ [.other slot name body]) = lastOf select es := by
  rw [lastOf, contents_append_other, lastOf]

@[simp] theorem allOf_append_known :
    allOf selectAll (es ++ [.known slot content trailing]) = allOf selectAll es ++ selectAll content := by
  simp [allOf]

@[simp] theorem allOf_append_other : allOf selectAll (es ++ [.other slot name body]) = allOf selectAll es := by
  rw [allOf, contents_append_other, allOf]

@[simp] theorem unread_append_known :
    (es ++ [Entry.known slot content trailing]).filterMap Entry.unread? = es.filterMap Entry.unread? := by
  rw [List.filterMap_append]
  exact List.append_nil _

@[simp] theorem unread_append_other :
    (es ++ [Entry.other slot name body]).filterMap Entry.unread? = es.filterMap Entry.unread? ++ [⟨name, body⟩] := by
  rw [List.filterMap_append]
  rfl

variable {es} in
/-- Attributes are read one by one, each added to what those before it mean. -/
theorem reads_entries [Content κ] (meaning : List (Entry κ) → α) {step : α → String → Bytes → Parse α}
    (hsize : pool.slots.size ≤ 65536) (hfits : AllFit (Entry.Fits pool) es)
    (hstep : ∀ before e, e.Fits pool → Reads (step (meaning before) e.name e.body) [] (meaning (before ++ [e]))) :
    Reads (attributes pool (meaning []) step) (table es Entry.encode) (meaning es) := by
  have hgo (before after : List (Entry κ)) (h : ∀ e ∈ after, e.Fits pool) (index : Nat) :
      Reads (attributes.go pool step (meaning before) index after.length) (after.flatMap Entry.encode)
        (meaning (before ++ after)) := by
    induction after generalizing before index with
    | nil =>
      rw [List.append_nil]
      exact reads_pure _
    | cons e after ih =>
      have he := h e (by simp)
      have hrest := ih (before ++ [e]) (fun e he => h e (by simp [he])) (index + 1)
      rw [List.append_assoc, List.singleton_append] at hrest
      exact reads_go_cons (Nat.lt_of_lt_of_le he.name.lt hsize) he.body (Pool.utf8_eq_ok_iff.mpr he.name)
        (hstep before e he) hrest
  exact (reads_u2 hfits.1).bind (hgo [] es hfits.2 0)

end Attributes

namespace Stored

theorem IsText.utf8 {s : Stored String} (h : s.IsText pool) : pool.utf8 s.slot = .ok s.value :=
  Pool.utf8_eq_ok_iff.mpr h

theorem IsText.lt {s : Stored String} (h : s.IsText pool) (hsize : pool.slots.size ≤ 65536) : s.slot < 65536 :=
  Pool.utf8_lt h.utf8 hsize

/-- The text whose slot starts the body of an attribute. -/
theorem IsText.utf8_indexIn {s : Stored String} (h : s.IsText pool) (hsize : pool.slots.size ≤ 65536)
    (trailing : Bytes) : pool.utf8 (indexIn (s.encode ++ trailing)) = .ok s.value := by
  rw [encode, indexIn_append (h.lt hsize), h.utf8]

theorem IsClass.className {s : Stored String} (h : s.IsClass pool) : pool.className s.slot = .ok s.value :=
  Pool.className_eq_ok_iff.mpr h

theorem IsClass.lt {s : Stored String} (h : s.IsClass pool) (hsize : pool.slots.size ≤ 65536) : s.slot < 65536 :=
  Nat.lt_of_lt_of_le (Pool.className_lt h.className) hsize

/-- The slot of a class that may be missing, and the name found there. -/
theorem exists_optionalClassName {s : Option (Stored String)} (h : ∀ t ∈ s, t.IsClass pool)
    (hsize : pool.slots.size ≤ 65536) : ∃ slot, slot < 65536 ∧ encodeOptional s = u2Bytes slot ∧
      pool.optionalClassName slot = .ok (optionalName s) := by
  cases s with
  | none => exact ⟨0, by decide, rfl, rfl⟩
  | some t =>
    have ht := h t rfl
    obtain ⟨name, hheld, -⟩ := id ht
    refine ⟨t.slot, ht.lt hsize, rfl, ?_⟩
    rw [Pool.optionalClassName, if_neg hheld.1]
    exact ht.className

theorem IsConstant.reads {s : Stored Literal} (h : s.IsConstant pool) (hsize : pool.slots.size ≤ 65536)
    (trailing : Bytes) : Reads (constantValue pool (indexIn (s.encode ++ trailing))) [] s.value := by
  refine reads_ofPool ?_
  rw [encode, indexIn_append (Nat.lt_of_lt_of_le (Pool.Unfolds.lt h) hsize), Pool.loadable_nil]
  exact Pool.Unfolds.unfoldWithin_eq h fun _ _ hd => hd

end Stored

namespace FieldLayout

theorem fieldStep_other {name : String} (h : name ∉ Content.names FieldContent) (acc : Field) (body : Bytes) :
    fieldStep pool acc name body = pure acc := by
  unfold fieldStep
  split
  · simp [Content.names] at h
  · simp [Content.names] at h
  · rfl

/-- An attribute adds to a field what its content says. -/
theorem reads_step {f : FieldLayout} {e : Entry FieldContent} (he : e.Fits pool) (hsize : pool.slots.size ≤ 65536) :
    Reads (fieldStep pool f.field e.name e.body) [] { f with attributes := f.attributes ++ [e] }.field := by
  obtain ⟨slot, value | text, trailing⟩ | ⟨slot, name, body⟩ := e
  · have hvalue : value.IsConstant pool := he.content
    refine (hvalue.reads hsize trailing).bind ?_
    simp only [field, lastOf_append_known]
    exact reads_pure _
  · have htext : text.IsText pool := he.content
    refine (reads_ofPool (htext.utf8_indexIn hsize trailing)).bind ?_
    simp only [field, lastOf_append_known]
    exact reads_pure _
  · change Reads (fieldStep pool f.field name body) [] _
    rw [fieldStep_other he.content]
    simp only [field, lastOf_append_other]
    exact reads_pure _

theorem reads {f : FieldLayout} (h : f.Fits pool) (hsize : pool.slots.size ≤ 65536) (index : Nat) :
    Reads (Parse.field pool index) f.encode f.field := by
  refine reads_field_attributes h.access (h.name.lt hsize) (h.descriptor.lt hsize) h.name.utf8 h.descriptor.utf8 ?_ index
  exact reads_entries (fun es => { f with attributes := es }.field) hsize h.attributes fun before e he =>
    reads_step he hsize

end FieldLayout

theorem HandlerLayout.reads {h : HandlerLayout} (hfits : h.Fits pool) (hsize : pool.slots.size ≤ 65536) (index : Nat) :
    Reads (Parse.handler pool index) h.encode h.handler := by
  obtain ⟨slot, hslot, hbytes, hname⟩ := Stored.exists_optionalClassName hfits.type hsize
  rw [encode, hbytes]
  exact reads_handler_u2 hfits.start hfits.stop hfits.target hslot hname index

namespace CodeLayout

theorem lineStep_other {name : String} (h : name ∉ Content.names CodeContent) (acc : List Line) (body : Bytes) :
    lineStep acc name body = pure acc := by
  unfold lineStep
  split
  · simp [Content.names] at h
  · rfl

/-- An attribute adds its lines to those of a body. -/
theorem reads_step {es : List (Entry CodeContent)} {e : Entry CodeContent} (he : e.Fits pool) :
    Reads (lineStep (allOf CodeContent.lines es) e.name e.body) [] (allOf CodeContent.lines (es ++ [e])) := by
  obtain ⟨slot, content, trailing⟩ | ⟨slot, name, body⟩ := e
  · have hfits : AllFit (fun line => line.start < 65536 ∧ line.line < 65536) content.lines := he.content
    have hlines := reads_lines_of id hfits.1 fun l hl =>
      ⟨reads_u2 (hfits.2 l hl).1, reads_u2 (hfits.2 l hl).2⟩
    rw [List.map_id] at hlines
    refine (reads_ofBytes_append hlines trailing).bind ?_
    rw [allOf_append_known]
    exact reads_pure _
  · change Reads (lineStep _ name body) [] _
    rw [lineStep_other he.content, allOf_append_other]
    exact reads_pure _

theorem reads {c : CodeLayout} (h : c.Fits pool) (hsize : pool.slots.size ≤ 65536) :
    Reads (Parse.code pool) c.encode c.code := by
  refine reads_code_attributes h.maxStack h.maxLocals h.bytes h.handlers.1 ?_ ?_
  · rw [List.forall₂_map_right_iff, List.forall₂_same]
    exact fun handler hh => HandlerLayout.reads (h.handlers.2 handler hh) hsize
  · exact reads_entries (allOf CodeContent.lines) hsize h.attributes fun before e he => reads_step he

end CodeLayout

namespace MethodLayout

theorem methodStep_other {name : String} (h : name ∉ Content.names MethodContent) (acc : Method) (body : Bytes) :
    methodStep pool acc name body = pure acc := by
  unfold methodStep
  split
  · simp [Content.names] at h
  · simp [Content.names] at h
  · simp [Content.names] at h
  · rfl

/-- A lenient read of two bytes that are there. -/
theorem reads_lenient {slot : Nat} {f : Nat → Parse α} {bs : Bytes} {a : α} (h : slot < 65536)
    (hf : Reads (f slot) bs a) :
    Reads (do let c ← get; let (index, c) := c.u2; set c; f index) (u2Bytes slot ++ bs) a := by
  intro pos rest
  have hread : Cursor.u2 ⟨pos, u2Bytes slot ++ (bs ++ rest), none⟩ = (slot, ⟨pos + 2, bs ++ rest, none⟩) :=
    Cursor.number_append h pos (bs ++ rest)
  have hlength : pos + (u2Bytes slot ++ bs).length = pos + 2 + bs.length := by
    rw [List.length_append, u2Bytes, Bytes.length_ofNat, Nat.add_assoc]
  rw [List.append_assoc, hlength, ← hf]
  simp only [bind, StateT.bind, get, getThe, MonadStateOf.get, StateT.get, pure, Except.pure, Except.bind, hread]
  rfl

/-- The classes of an exception table. -/
theorem reads_exceptions {types : List (Stored String)} (h : AllFit (Stored.IsClass pool) types)
    (hsize : pool.slots.size ≤ 65536) (trailing : Bytes) :
    Reads (exceptions pool (table types Stored.encode ++ trailing)) [] (types.map (·.value)) := by
  have hgo : Reads (exceptions.go pool types.length) (types.flatMap Stored.encode) (types.map (·.value)) := by
    have hclass := h.2
    clear h
    induction types with
    | nil => exact reads_pure _
    | cons t types ih =>
      have ht : t.IsClass pool := hclass t (by simp)
      have hrest := ih fun t ht => hclass t (by simp [ht])
      exact reads_lenient (f := fun index => do
        return (← ofPool (pool.className index)) :: (← exceptions.go pool types.length)) (ht.lt hsize)
        ((reads_ofPool ht.className).bind (hrest.bind_nil (reads_pure _)))
  exact reads_ofBytes_append ((reads_u2 h.1).bind hgo) trailing

/-- An attribute adds to a method what its content says. -/
theorem reads_step {m : MethodLayout} {e : Entry MethodContent} (he : e.Fits pool) (hsize : pool.slots.size ≤ 65536) :
    Reads (methodStep pool m.method e.name e.body) [] { m with attributes := m.attributes ++ [e] }.method := by
  obtain ⟨slot, code | types | text, trailing⟩ | ⟨slot, name, body⟩ := e
  · have hcode : code.Fits pool := he.content
    refine (reads_ofBytes_append (CodeLayout.reads hcode hsize) trailing).bind ?_
    simp only [method, lastOf_append_known, allOf_append_known, MethodContent.thrown, List.append_nil]
    exact reads_pure _
  · have htypes : AllFit (Stored.IsClass pool) types := he.content
    refine (reads_exceptions htypes hsize trailing).bind ?_
    simp only [method, lastOf_append_known, allOf_append_known]
    exact reads_pure _
  · have htext : text.IsText pool := he.content
    refine (reads_ofPool (htext.utf8_indexIn hsize trailing)).bind ?_
    simp only [method, lastOf_append_known, allOf_append_known, MethodContent.thrown, List.append_nil]
    exact reads_pure _
  · change Reads (methodStep pool m.method name body) [] _
    rw [methodStep_other he.content]
    simp only [method, lastOf_append_other, allOf_append_other]
    exact reads_pure _

theorem reads {m : MethodLayout} (h : m.Fits pool) (hsize : pool.slots.size ≤ 65536) (index : Nat) :
    Reads (Parse.method pool index) m.encode m.method := by
  refine reads_method_attributes h.access (h.name.lt hsize) (h.descriptor.lt hsize) h.name.utf8 h.descriptor.utf8 ?_ index
  exact reads_entries (fun es => { m with attributes := es }.method) hsize h.attributes fun before e he =>
    reads_step he hsize

end MethodLayout

namespace ClassLayout

theorem classStep_other {name : String} (h : name ∉ Content.names ClassContent) (acc : ClassFile) (body : Bytes) :
    classStep acc name body = pure { acc with attributes := acc.attributes ++ [⟨name, body⟩] } := by
  unfold classStep
  split
  · simp [Content.names] at h
  · simp [Content.names] at h
  · simp [Content.names] at h
  · rfl

/-- An attribute adds to a class what its content says, or is kept as it stands. -/
theorem reads_step {l : ClassLayout} {e : Entry ClassContent} (he : e.Fits l.pool)
    (hsize : l.pool.slots.size ≤ 65536) :
    Reads (classStep l.classFile e.name e.body) [] { l with attributes := l.attributes ++ [e] }.classFile := by
  obtain ⟨slot, text | text | entries, trailing⟩ | ⟨slot, name, body⟩ := e
  · have htext : text.IsText l.classFile.pool := he.content
    refine (reads_ofPool (htext.utf8_indexIn hsize trailing)).bind ?_
    simp only [classFile, lastOf_append_known, allOf_append_known, unread_append_known, ClassContent.entries,
      List.append_nil]
    exact reads_pure _
  · have htext : text.IsText l.classFile.pool := he.content
    refine (reads_ofPool (htext.utf8_indexIn hsize trailing)).bind ?_
    simp only [classFile, lastOf_append_known, allOf_append_known, unread_append_known, ClassContent.entries,
      List.append_nil]
    exact reads_pure _
  · have hfits : AllFit (fun b : Bootstrap => b.handle < 65536 ∧ AllFit (· < 65536) b.arguments) entries := he.content
    have hentries := reads_bootstraps_of Bootstrap.handle id hfits.1 fun b hb =>
      ⟨reads_u2 (hfits.2 b hb).1, (hfits.2 b hb).2.1, fun argument ha => reads_u2 ((hfits.2 b hb).2.2 argument ha)⟩
    simp only [List.map_id, List.map_id'] at hentries
    refine (reads_ofBytes_append hentries trailing).bind ?_
    simp only [classFile, lastOf_append_known, allOf_append_known, unread_append_known, List.toArray_appendList]
    exact reads_pure _
  · change Reads (classStep l.classFile name body) [] _
    rw [classStep_other he.content]
    simp only [classFile, lastOf_append_other, allOf_append_other, unread_append_other]
    exact reads_pure _

theorem size_pool (l : ClassLayout) : l.pool.slots.size = l.slotCount := by
  simp [pool, Pool.ofConstants, slotCount]

/-- The bytes of a layout that fits are read as the class that it declares. -/
theorem reads {l : ClassLayout} (h : l.Fits) : Reads Parse.classFile l.encode l.classFile := by
  have hsize : l.pool.slots.size ≤ 65536 := by
    rw [size_pool]
    exact Nat.le_of_lt h.slotCount
  have hversion : 65536 * l.minor + l.major = l.minor <<< 16 ||| l.major := by
    rw [← Nat.shiftLeft_add_eq_or_of_lt h.major, Nat.shiftLeft_eq, Nat.mul_comm]
  obtain ⟨superSlot, hslot, hbytes, hsuper⟩ := Stored.exists_optionalClassName h.superClass hsize
  have hpool := Pool.reads_ofConstants h.slotCount fun c hc => (h.constants c hc).fitsAs
  have hinterfaces : table l.interfaces Stored.encode = table (l.interfaces.map (·.slot)) u2Bytes := by
    rw [table, table, List.length_map, List.flatMap_map]
    rfl
  have hfields : Reads (do times (← u2) (Parse.field l.pool)) (table l.fields FieldLayout.encode)
      (l.fields.map (·.field)) := by
    refine reads_table h.fields.1 ?_
    rw [List.forall₂_map_right_iff, List.forall₂_same]
    exact fun f hf => FieldLayout.reads (h.fields.2 f hf) hsize
  have hmethods : Reads (do times (← u2) (Parse.method l.pool)) (table l.methods MethodLayout.encode)
      (l.methods.map (·.method)) := by
    refine reads_table h.methods.1 ?_
    rw [List.forall₂_map_right_iff, List.forall₂_same]
    exact fun m hm => MethodLayout.reads (h.methods.2 m hm) hsize
  have hnames : List.Forall₂ (fun slot name => slot < 65536 ∧ l.pool.className slot = .ok name)
      (l.interfaces.map (·.slot)) (l.interfaces.map (·.value)) := by
    rw [List.forall₂_map_left_iff, List.forall₂_map_right_iff, List.forall₂_same]
    exact fun s hs => ⟨(h.interfaces.2 s hs).lt hsize, (h.interfaces.2 s hs).className⟩
  rw [encode, hbytes, hinterfaces]
  refine reads_classFile_attributes ⟨h.minor, h.major⟩ hpool h.access ⟨h.thisClass.lt hsize, h.thisClass.className⟩
    ⟨hslot, hsuper⟩ ⟨by simpa using h.interfaces.1, hnames⟩ hfields hmethods ?_
  rw [hversion]
  exact reads_entries (fun es => { l with attributes := es }.classFile) hsize h.attributes fun before e he =>
    reads_step (l := { l with attributes := before }) he hsize

end ClassLayout

section Core

theorem contents_filter_isKnown (es : List (Entry κ)) : contents (es.filter Entry.isKnown) = contents es := by
  rw [contents, List.filterMap_filter, contents]
  refine List.filterMap_congr fun e _ => ?_
  cases e <;> rfl

theorem contents_map (f : κ → κ) (es : List (Entry κ)) : contents (es.map (Entry.map f)) = (contents es).map f := by
  rw [contents, contents, List.filterMap_map, List.map_filterMap]
  refine List.filterMap_congr fun e _ => ?_
  cases e <;> rfl

theorem FieldLayout.field_core (f : FieldLayout) : f.core.field = f.field := by
  simp only [field, core, lastOf, contents_filter_isKnown]

theorem CodeLayout.code_core (c : CodeLayout) : c.core.code = c.code := by
  simp only [code, core, allOf, contents_filter_isKnown]

theorem MethodLayout.method_core (m : MethodLayout) : m.core.method = m.method := by
  have hcode : MethodContent.code? ∘ MethodContent.core = MethodContent.code? := by
    funext c
    cases c with
    | code c => exact congrArg some c.code_core
    | exceptions types => rfl
    | signature text => rfl
  have hsignature : MethodContent.signature? ∘ MethodContent.core = MethodContent.signature? := by
    funext c
    cases c <;> rfl
  have hthrown : (fun c => MethodContent.thrown (MethodContent.core c)) = MethodContent.thrown := by
    funext c
    cases c <;> rfl
  simp only [method, core, lastOf, allOf, contents_map, contents_filter_isKnown, List.filterMap_map, List.flatMap_map,
    hcode, hsignature, hthrown]

/-- What a class declares does not depend on the attributes that its fields, methods and bodies do not interpret. -/
theorem ClassLayout.classFile_core (l : ClassLayout) : l.core.classFile = l.classFile := by
  have hfields : l.core.fields.map (·.field) = l.fields.map (·.field) := by
    rw [core, List.map_map]
    exact List.map_congr_left fun f _ => f.field_core
  have hmethods : l.core.methods.map (·.method) = l.methods.map (·.method) := by
    rw [core, List.map_map]
    exact List.map_congr_left fun m _ => m.method_core
  rw [classFile, hfields, hmethods]
  rfl

theorem AllFit.filter {fits : α → Prop} {items : List α} (h : AllFit fits items) (p : α → Bool) :
    AllFit fits (items.filter p) :=
  ⟨Nat.lt_of_le_of_lt (List.length_filter_le p items) h.1, fun item hi => h.2 item (List.mem_of_mem_filter hi)⟩

theorem AllFit.map {β : Type} {fits : α → Prop} {fits' : β → Prop} {items : List α} {f : α → β}
    (h : AllFit fits items) (hf : ∀ item, fits item → fits' (f item)) : AllFit fits' (items.map f) := by
  refine ⟨by simpa using h.1, fun item' hi => ?_⟩
  obtain ⟨item, hitem, rfl⟩ := List.mem_map.mp hi
  exact hf item (h.2 item hitem)

theorem CodeLayout.length_encode_core (c : CodeLayout) : c.core.encode.length ≤ c.encode.length := by
  have hle : ((c.attributes.filter Entry.isKnown).flatMap Entry.encode).length ≤
      (c.attributes.flatMap Entry.encode).length := (List.filter_sublist.flatMap Entry.encode).length_le
  simp only [encode, core, table, u2Bytes, List.length_append, Bytes.length_ofNat]
  omega

theorem CodeLayout.Fits.core {c : CodeLayout} (h : c.Fits pool) : c.core.Fits pool :=
  { h with attributes := h.attributes.filter _ }

theorem Entry.Fits.core {e : Entry MethodContent} (h : e.Fits pool) : (e.map MethodContent.core).Fits pool := by
  obtain ⟨slot, code | types | text, trailing⟩ | ⟨slot, name, body⟩ := e
  · refine ⟨h.name, ?_, CodeLayout.Fits.core h.content⟩
    have hle := code.length_encode_core
    have hlt : (code.encode ++ trailing).length < 2 ^ 32 := h.body
    change (code.core.encode ++ trailing).length < 2 ^ 32
    rw [List.length_append] at hlt ⊢
    omega
  · exact h
  · exact h
  · exact h

/-- A layout fits without the attributes that its fields, methods and bodies do not interpret. -/
theorem ClassLayout.Fits.core {l : ClassLayout} (h : l.Fits) : l.core.Fits :=
  { h with
    fields := h.fields.map fun _ hf => { hf with attributes := hf.attributes.filter _ }
    methods := h.methods.map fun _ hm => { hm with attributes := (hm.attributes.filter _).map fun _ he => he.core } }

end Core

/-- A layout that fits is parsed into the class which it declares, whatever bytes follow; the attributes that its
fields, methods and bodies do not interpret change nothing. -/
theorem ClassLayout.parse_encode_append (l : ClassLayout) (h : l.Fits) (rest : Bytes) :
    ClassFile.parse (l.encode ++ rest) = .ok l.classFile ∧
      ∀ l' : ClassLayout, l'.Fits → l'.core = l.core → ClassFile.parse (l'.encode ++ rest) = .ok l.classFile := by
  have hparse {l : ClassLayout} (h : l.Fits) : ClassFile.parse (l.encode ++ rest) = .ok l.classFile := by
    rw [ClassFile.parse, Cursor.ofBytes, reads h]
    rfl
  refine ⟨hparse h, fun l' h' hcore => ?_⟩
  rw [hparse h', ← l'.classFile_core, hcore, l.classFile_core]

/-- A class with repeated attributes, attributes that are not interpreted, bytes after those that are, and a constant
of two slots. -/
def crowded : ClassLayout where
  minor := 3
  major := 52
  constants := [.utf8 "A", .type 1, .utf8 "java/lang/Object", .type 3, .long 7, .utf8 "f", .utf8 "J",
    .utf8 "ConstantValue", .utf8 "Deprecated", .utf8 "Signature", .utf8 "m", .utf8 "()V", .utf8 "Code",
    .utf8 "LineNumberTable", .utf8 "Exceptions", .utf8 "SourceFile", .utf8 "BootstrapMethods"]
  access := 0x21
  thisClass := ⟨2, "A"⟩
  superClass := some ⟨4, "java/lang/Object"⟩
  interfaces := [⟨4, "java/lang/Object"⟩]
  fields := [⟨0x19, ⟨7, "f"⟩, ⟨8, "J"⟩,
    [.known 11 (.signature ⟨8, "J"⟩) [0xFF], .known 9 (.constantValue ⟨4, .type "java/lang/Object"⟩) [],
      .other 10 "Deprecated" [], .known 9 (.constantValue ⟨5, .long 7⟩) [], .known 11 (.signature ⟨12, "m"⟩) []]⟩]
  methods := [⟨0x1, ⟨12, "m"⟩, ⟨13, "()V"⟩,
    [.known 16 (.exceptions [⟨2, "A"⟩]) [0x01],
      .known 14 (.code ⟨1, 1, [0xB1], [⟨0, 1, 0, none⟩, ⟨0, 1, 0, some ⟨4, "java/lang/Object"⟩⟩],
        [.known 15 ⟨[⟨0, 3⟩]⟩ [0x07], .other 10 "Deprecated" [0x01], .known 15 ⟨[⟨0, 4⟩]⟩ []]⟩) [0x09],
      .other 9 "ConstantValue" [], .known 16 (.exceptions [⟨4, "java/lang/Object"⟩]) []]⟩]
  attributes := [.known 17 (.source ⟨1, "A"⟩) [], .other 14 "Code" [0x01, 0x02], .known 18 (.bootstraps [⟨4, [5]⟩]) [],
    .known 17 (.source ⟨7, "f"⟩) [], .known 18 (.bootstraps [⟨2, []⟩]) [0x00]]

theorem crowded_fits : crowded.Fits := by
  have hA : crowded.pool.Holds 1 (.utf8 "A") := ⟨by decide, rfl⟩
  have hf : crowded.pool.Holds 7 (.utf8 "f") := ⟨by decide, rfl⟩
  have hJ : crowded.pool.Holds 8 (.utf8 "J") := ⟨by decide, rfl⟩
  have hm : crowded.pool.Holds 12 (.utf8 "m") := ⟨by decide, rfl⟩
  have hvalue : crowded.pool.Holds 9 (.utf8 "ConstantValue") := ⟨by decide, rfl⟩
  have hdeprecated : crowded.pool.Holds 10 (.utf8 "Deprecated") := ⟨by decide, rfl⟩
  have hsignature : crowded.pool.Holds 11 (.utf8 "Signature") := ⟨by decide, rfl⟩
  have hcode : crowded.pool.Holds 14 (.utf8 "Code") := ⟨by decide, rfl⟩
  have hlines : crowded.pool.Holds 15 (.utf8 "LineNumberTable") := ⟨by decide, rfl⟩
  have hexceptions : crowded.pool.Holds 16 (.utf8 "Exceptions") := ⟨by decide, rfl⟩
  have hsource : crowded.pool.Holds 17 (.utf8 "SourceFile") := ⟨by decide, rfl⟩
  have hbootstraps : crowded.pool.Holds 18 (.utf8 "BootstrapMethods") := ⟨by decide, rfl⟩
  have hthis : Stored.IsClass crowded.pool ⟨2, "A"⟩ := ⟨1, ⟨by decide, rfl⟩, hA⟩
  have hroot : Stored.IsClass crowded.pool ⟨4, "java/lang/Object"⟩ := ⟨3, ⟨by decide, rfl⟩, ⟨by decide, rfl⟩⟩
  have hline (line : Line) (h : line.start < 65536 ∧ line.line < 65536) :
      AllFit (fun line : Line => line.start < 65536 ∧ line.line < 65536) [line] :=
    ⟨show 1 < 65536 by decide, List.forall_mem_singleton.mpr h⟩
  have hbody : CodeLayout.Fits crowded.pool ⟨1, 1, [0xB1], [⟨0, 1, 0, none⟩, ⟨0, 1, 0, some ⟨4, "java/lang/Object"⟩⟩],
        [.known 15 ⟨[⟨0, 3⟩]⟩ [0x07], .other 10 "Deprecated" [0x01], .known 15 ⟨[⟨0, 4⟩]⟩ []]⟩ :=
    { maxStack := by decide
      maxLocals := by decide
      bytes := by decide
      handlers := ⟨by decide, List.forall_iff_forall_mem.mp
        ⟨⟨by decide, by decide, by decide, by simp⟩, ⟨by decide, by decide, by decide, by simpa using hroot⟩⟩⟩
      attributes := ⟨by decide, List.forall_iff_forall_mem.mp
        ⟨⟨hlines, by decide, hline _ (by decide)⟩, ⟨hdeprecated, by decide, show _ ∉ ["LineNumberTable"] by decide⟩,
          ⟨hlines, by decide, hline _ (by decide)⟩⟩⟩ }
  exact
    { minor := by decide
      major := by decide
      slotCount := by decide
      constants := List.forall_iff_forall_mem.mp (by
        simp only [crowded, List.Forall, ConstantFits, Constant.Fits]
        decide)
      access := by decide
      thisClass := hthis
      superClass := by simpa [crowded] using hroot
      interfaces := ⟨by decide, List.forall_mem_singleton.mpr hroot⟩
      fields := ⟨by decide, List.forall_mem_singleton.mpr
        { access := by decide
          name := hf
          descriptor := hJ
          attributes := ⟨by decide, List.forall_iff_forall_mem.mp
            ⟨⟨hsignature, by decide, hJ⟩, ⟨hvalue, by decide, .value rfl⟩, ⟨hdeprecated, by decide, show _ ∉ ["ConstantValue", "Signature"] by decide⟩,
              ⟨hvalue, by decide, .value rfl⟩, ⟨hsignature, by decide, hm⟩⟩⟩ }⟩
      methods := ⟨by decide, List.forall_mem_singleton.mpr
        { access := by decide
          name := hm
          descriptor := ⟨by decide, rfl⟩
          attributes := ⟨by decide, List.forall_iff_forall_mem.mp
            ⟨⟨hexceptions, by decide, by decide, List.forall_mem_singleton.mpr hthis⟩, ⟨hcode, by decide, hbody⟩,
              ⟨hvalue, by decide, show _ ∉ ["Code", "Exceptions", "Signature"] by decide⟩,
              ⟨hexceptions, by decide, by decide, List.forall_mem_singleton.mpr hroot⟩⟩⟩ }⟩
      attributes := ⟨by decide, List.forall_iff_forall_mem.mp
        ⟨⟨hsource, by decide, hA⟩, ⟨hcode, by decide, show _ ∉ ["SourceFile", "Signature", "BootstrapMethods"] by decide⟩,
          ⟨hbootstraps, by decide, by decide, List.forall_mem_singleton.mpr ⟨by decide, by decide, by decide⟩⟩,
          ⟨hsource, by decide, hf⟩,
          ⟨hbootstraps, by decide, by decide, List.forall_mem_singleton.mpr ⟨by decide, by decide, by decide⟩⟩⟩⟩ }

theorem crowded_parse_encode : crowded.Fits ∧ crowded.core.Fits ∧
    ClassFile.parse (crowded.encode ++ [0xFF]) = .ok crowded.classFile ∧
      ClassFile.parse (crowded.core.encode ++ [0xFF]) = .ok crowded.classFile :=
  have h := crowded.parse_encode_append crowded_fits [0xFF]
  ⟨crowded_fits, crowded_fits.core, h.1, h.2 crowded.core crowded_fits.core rfl⟩

end Layout
end Linkage
